import EffectHandlers.Proofs.Leading
import EffectHandlers.Proofs.Waiting
/-!
# Evaluations enact rosters

What an evaluation looks like while it does what a roster says. The cells hold the pool and the
mailboxes. Each parked actor has a resumption: of its body, where it has not started, and otherwise
of the code in which it gave up control, below which its installation stands. Under the code that
runs there is a shell, which only passes answers on.
-/

namespace EffectHandlers.Actor

open Evaluation (Leads Turns)

variable {Γ : Library Content} {P : Store Content → Prop} {r : Roster} {s s' : Evaluation Content}
  {i j : Nat} {a : Member} {f : Member → Member}

/-! ### Code -/

/-- What an actor does to look for mail: the body of the loop in `receive`. -/
def look (me : Mailbox) (_ : Value) : Task Value := do
  match ← Task.popFront me.inbox with
  | some message => return Comp.stop message
  | none =>
    Task.writeValue me.waiting (.bool true)
    yield me.pool
    return Comp.again .unit

namespace Progress

/-- The code of an actor that has control. -/
def code (me : Mailbox) : Progress → Comp Content
  | acting b _ => (b.toTask me).toComp
  | _ => (look me .unit).toComp

/-- The code of an actor that gets control back. -/
def wakes (me : Mailbox) : Progress → Comp Content
  | acting b _ => (b.toTask me).toComp
  | _ => .done (Comp.again .unit)

/-- The frames of an actor above its installation. -/
def frames (me : Mailbox) : Progress → List (Frame Content)
  | acting _ loops => loops.map (Loop.frame (Behaviour.toTask me))
  | polling next loops =>
    .looping (fun v => (look me v).toComp) (fun v => ((next v).toTask me).toComp) ::
      loops.map (Loop.frame (Behaviour.toTask me))
  | _ => []

theorem frames_code (me : Mailbox) (p : Progress) : ∀ f ∈ p.frames me, f.isCode = true := by
  cases p with
  | acting b loops => exact Loop.frame_code _ loops
  | polling next loops =>
    intro f hf
    rcases List.mem_cons.mp hf with rfl | hf
    · rfl
    · exact Loop.frame_code _ loops f hf
  | fresh | ended => exact fun f hf => absurd hf List.not_mem_nil

end Progress

/-- The code that starts an actor. -/
def startCode (me : Mailbox) (owned : List Owned) (b : Behaviour) : Comp Content :=
  (Prog.scope [.cell me.pool]
    (start me.pool me.waiting (owned ++ me.owned) (b.toTask me))).toComp

/-- How a run has ended, from what the pool says in the end. -/
def report (deadlock : Option Nat) : Value :=
  match deadlock with
  | some parked => .present (.int parked)
  | none => .absent

/-- What `run` does once its handler has answered. -/
def reportTask (pool : CellId) : Task Value := do
  match (← readPool pool).deadlock with
  | some parked => return .present (.int parked)
  | none => return .absent

theorem reportTask_eq (pool : CellId) :
    (reportTask pool).toComp = readPool pool fun p => .done (report p.deadlock) := by
  refine congrArg (readPool pool) (funext fun p => ?_)
  obtain ⟨label, current, active, deadlock⟩ := p
  cases deadlock <;> rfl

/-- The handler that the actors of a pool run under. -/
def shown (pool : CellId) : Handler := ⟨-1, handlerName, handlerName, pool⟩

/-- Frames that pass an answer on, until it is reported how the run has ended. -/
inductive Shell (pool : CellId) : List (Frame Content) → Prop
  | base : Shell pool [.bind fun _ => (reportTask pool).toComp, .bind .done]
  | pass {F} (h : Shell pool F) : Shell pool (.bind .done :: F)
  | answer {F} (h : Shell pool F) : Shell pool (.answering "()" :: F)

/-! ### What is stored -/

namespace Roster

@[simp] theorem seat_address (r : Roster) (i : Nat) : r.seat (r.address i) = i := by
  simp only [seat, address]
  omega

@[simp] theorem modify_address (r : Roster) (i j : Nat) (f : Member → Member) :
    (r.modify i f).address j = r.address j := rfl

@[simp] theorem modify_length (r : Roster) (i : Nat) (f : Member → Member) :
    (r.modify i f).members.length = r.members.length := List.length_modify ..

/-- What is to be seen of a roster in the contents of cells, as far as the cells are there. -/
structure Visible (r : Roster) (contents : CellId → Option Content) : Prop where
  pool : ∀ x, contents r.pool = some x → ∃ p, x = .pool p ∧
    p.active.map ParkedActor.waiting = r.active.map (fun i => (r.address i).waiting) ∧
      p.deadlock = r.deadlock
  inbox : ∀ (i : Nat) (a : Member), r.members[i]? = some a →
    ∀ x, contents (r.address i).inbox = some x → x = .list a.inbox
  waiting : ∀ (i : Nat) (a : Member), r.members[i]? = some a →
    ∀ x, contents (r.address i).waiting = some x → x = .value (.bool a.waiting)

/-- Cells show a roster, as far as they are there. -/
def Shown (r : Roster) (cells : Store Content) : Prop := r.Visible cells.find?

/-- The cells of a pool and of its mailboxes. -/
structure Stored (r : Roster) (cells : Store Content) (p : ActorPool) : Prop where
  pool : cells.find? r.pool = some (.pool p)
  inbox : ∀ (i : Nat) (a : Member), r.members[i]? = some a →
    cells.find? (r.address i).inbox = some (.list a.inbox)
  waiting : ∀ (i : Nat) (a : Member), r.members[i]? = some a →
    cells.find? (r.address i).waiting = some (.value (.bool a.waiting))
  next : cells.next = r.pool + 1 + 2 * r.members.length

theorem address_lt {n : Nat} (h : n ≥ r.pool + 1 + 2 * r.members.length)
    (ha : r.members[j]? = some a) : (r.address j).inbox < n ∧ (r.address j).waiting < n := by
  have := (List.getElem?_eq_some_iff.mp ha).1
  show n > r.pool + 1 + 2 * j ∧ n > r.pool + 2 + 2 * j
  omega

namespace Stored

variable {cells : Store Content} {p p' : ActorPool}

/-- Actors may go on as long as this does not show. -/
theorem congr {r' : Roster} (h : r.Stored cells p) (hpool : r'.pool = r.pool)
    (hlength : r'.members.length = r.members.length)
    (hsame : ∀ (i : Nat) (a : Member), r'.members[i]? = some a →
      ∃ b, r.members[i]? = some b ∧ a.inbox = b.inbox ∧ a.waiting = b.waiting) :
    r'.Stored cells p where
  pool := by rw [hpool]; exact h.pool
  inbox i a ha := by
    obtain ⟨b, hb, hinbox, -⟩ := hsame i a ha
    rw [address, hpool, hinbox]
    exact h.inbox i b hb
  waiting i a ha := by
    obtain ⟨b, hb, -, hwaiting⟩ := hsame i a ha
    rw [address, hpool, hwaiting]
    exact h.waiting i b hb
  next := by rw [hpool, hlength]; exact h.next

theorem modify (h : r.Stored cells p) (hinbox : ∀ a, (f a).inbox = a.inbox)
    (hwaiting : ∀ a, (f a).waiting = a.waiting) : (r.modify i f).Stored cells p := by
  refine h.congr rfl (List.length_modify ..) fun j a ha => ?_
  rcases of_getElem?_modify ha with ⟨-, b, hb, rfl⟩ | ⟨-, ha⟩
  · exact ⟨b, hb, hinbox b, hwaiting b⟩
  · exact ⟨a, ha, rfl, rfl⟩

theorem writePool (h : r.Stored cells p) (p' : ActorPool) :
    r.Stored (cells.modify r.pool fun _ => .pool p') p' where
  pool := by rw [Store.find?_modify, if_pos rfl, h.pool]; rfl
  inbox i a ha := by
    rw [Store.find?_modify, if_neg (by simp only [address]; omega)]
    exact h.inbox i a ha
  waiting i a ha := by
    rw [Store.find?_modify, if_neg (by simp only [address]; omega)]
    exact h.waiting i a ha
  next := h.next

theorem writeInbox {vs : List Value} (h : r.Stored cells p)
    (hlist : ∀ a, r.members[i]? = some a → (f a).inbox = vs)
    (hwaiting : ∀ a, (f a).waiting = a.waiting) :
    (r.modify i f).Stored (cells.modify (r.address i).inbox fun _ => .list vs) p where
  pool := by
    rw [Store.find?_modify, if_neg (by simp only [address, Roster.modify]; omega)]
    exact h.pool
  inbox j a ha := by
    rw [Store.find?_modify, modify_address]
    rcases of_getElem?_modify ha with ⟨rfl, b, hb, rfl⟩ | ⟨hij, ha⟩
    · rw [if_pos rfl, hlist b hb, h.inbox i b hb]
      rfl
    · rw [if_neg (by simp only [address]; omega)]
      exact h.inbox j a ha
  waiting j a ha := by
    rw [Store.find?_modify, if_neg (by simp only [address, Roster.modify]; omega)]
    rcases of_getElem?_modify ha with ⟨-, b, hb, rfl⟩ | ⟨-, ha⟩
    · rw [hwaiting]
      exact h.waiting j b hb
    · exact h.waiting j a ha
  next := by
    rw [modify_length]
    exact h.next

theorem writeWaiting {b : Bool} (h : r.Stored cells p) (hinbox : ∀ a, (f a).inbox = a.inbox)
    (hwaiting : ∀ a, (f a).waiting = b) :
    (r.modify i f).Stored (cells.modify (r.address i).waiting fun _ => .value (.bool b)) p where
  pool := by
    rw [Store.find?_modify, if_neg (by simp only [address, Roster.modify]; omega)]
    exact h.pool
  inbox j a ha := by
    rw [Store.find?_modify, if_neg (by simp only [address, Roster.modify]; omega)]
    rcases of_getElem?_modify ha with ⟨-, b, hb, rfl⟩ | ⟨-, ha⟩
    · rw [hinbox]
      exact h.inbox j b hb
    · exact h.inbox j a ha
  waiting j a ha := by
    rw [Store.find?_modify, modify_address]
    rcases of_getElem?_modify ha with ⟨rfl, b, hb, rfl⟩ | ⟨hij, ha⟩
    · rw [if_pos rfl, hwaiting, h.waiting i b hb]
      rfl
    · rw [if_neg (by simp only [address]; omega)]
      exact h.waiting j a ha
  next := by
    rw [modify_length]
    exact h.next

theorem shown (h : r.Stored cells p)
    (hactive : p.active.map ParkedActor.waiting = r.active.map fun i => (r.address i).waiting)
    (hdeadlock : p.deadlock = r.deadlock) : r.Shown cells where
  pool _ hx := ⟨p, Option.some.inj (hx.symm.trans h.pool), hactive, hdeadlock⟩
  inbox i a ha _ hx := Option.some.inj (hx.symm.trans (h.inbox i a ha))
  waiting i a ha _ hx := Option.some.inj (hx.symm.trans (h.waiting i a ha))

/-- The cells of a new mailbox follow all others. -/
theorem grow {m : Member} (h : r.Stored cells p) (hinbox : m.inbox = [])
    (hwaiting : m.waiting = false) :
    ({ r with members := r.members ++ [m] } : Roster).Stored
      ((cells.insert (.list [])).2.insert (.value (.bool false))).2 p := by
  have hold : ∀ {c x}, cells.find? c = some x → c < cells.next →
      ((cells.insert (.list [])).2.insert (.value (.bool false))).2.find? c = some x := by
    intro c x hx hc
    have hne : c ≠ (cells.insert (Content.list [])).2.next := Nat.ne_of_lt (Nat.lt_succ_of_lt hc)
    rw [Store.find?_insert, if_neg hne, Store.find?_insert, if_neg (Nat.ne_of_lt hc), hx]
  have hnext := h.next
  have hpool : cells.next > r.pool := by omega
  have hnewInbox : (r.address r.members.length).inbox = cells.next := hnext.symm
  have hnewWaiting : (r.address r.members.length).waiting = cells.next + 1 := by
    have hcount : ∀ n k : Nat, n + 2 + 2 * k = n + 1 + 2 * k + 1 := by omega
    rw [hnext]
    exact hcount _ _
  have hgrown : ∀ {φ : Member → Nat → Prop},
      (∀ j a, r.members[j]? = some a → φ a j) → φ m r.members.length →
        ∀ j a, (r.members ++ [m])[j]? = some a → φ a j := by
    intro φ hφ hm j a ha
    rcases of_getElem?_append ha with ha | ⟨rfl, rfl⟩
    · exact hφ j a ha
    · exact hm
  refine ⟨hold h.pool hpool, hgrown (fun j a ha => ?_) ?_, hgrown (fun j a ha => ?_) ?_, ?_⟩
  · exact hold (h.inbox j a ha) (address_lt (Nat.le_of_eq hnext.symm) ha).1
  · show Store.find? _ (r.address r.members.length).inbox = _
    have hne : cells.next ≠ (cells.insert (Content.list [])).2.next :=
      Nat.ne_of_lt (Nat.lt_succ_self _)
    rw [hnewInbox, hinbox, Store.find?_insert, if_neg hne]
    exact Store.find?_insert_self ..
  · exact hold (h.waiting j a ha) (address_lt (Nat.le_of_eq hnext.symm) ha).2
  · show Store.find? _ (r.address r.members.length).waiting = _
    rw [hnewWaiting, hwaiting]
    exact Store.find?_insert_self ..
  · have hcount : ∀ n k : Nat, n + 1 + 2 * k + 1 + 1 = n + 1 + 2 * (k + 1) := by omega
    show cells.next + 1 + 1 = _
    rw [hnext, List.length_append, List.length_singleton]
    exact hcount _ _

end Stored

/-- A cell that is made later is none of a pool's. -/
theorem Shown.insert {cells : Store Content} {x : Content} (h : r.Shown cells)
    (hnext : cells.next ≥ r.pool + 1 + 2 * r.members.length) : r.Shown (cells.insert x).2 := by
  have hold : ∀ {c y}, c < cells.next → (cells.insert x).2.find? c = some y →
      cells.find? c = some y := by
    intro c y hc hy
    rwa [Store.find?_insert, if_neg (Nat.ne_of_lt hc)] at hy
  have hpool : cells.next > r.pool := by omega
  refine ⟨fun y hy => h.pool y (hold hpool hy), fun j a ha y hy => ?_, fun j a ha y hy => ?_⟩
  · exact h.inbox j a ha y (hold (address_lt hnext ha).1 hy)
  · exact h.waiting j a ha y (hold (address_lt hnext ha).2 hy)

/-! ### What rests -/

/-- The continuation of a parked actor. -/
def Stands (r : Roster) (ids : Nat → InstallationId) (i : Nat) :
    Progress → Continuation Content → Prop
  | .fresh b, k => ∃ owned, k = .function "()" fun _ => startCode (r.address i) owned b
  | .ended, _ => False
  | p, k => k = .context "()" (.bind (fun _ => p.wakes (r.address i)) ::
      (p.frames (r.address i) ++ [.handling (ids i)]))

/-- The resumptions of the parked actors, and the installations of all that have started. -/
structure Rests (r : Roster) (resumptions : Store (Continuation Content))
    (installed : Store Handler) (seats : List (Nat × ResumptionId)) (ids : Nat → InstallationId) :
    Prop where
  order : seats.map Prod.fst = r.active
  parked : ∀ x ∈ seats, ∀ a, r.members[x.1]? = some a →
    ∃ k, resumptions.find? x.2 = some k ∧ r.Stands ids x.1 a.progress k
  distinct : (seats.map Prod.snd).Nodup
  issued : ∀ x ∈ seats, x.2 < resumptions.next
  wellFormed : resumptions.WellFormed
  handled : ∀ (i : Nat) (a : Member), r.members[i]? = some a → a.progress.isStarted = true →
    installed.find? (ids i) = some (Actor.shown r.pool)
  apart : ∀ (i j : Nat) (a b : Member), r.members[i]? = some a → r.members[j]? = some b →
    a.progress.isStarted = true → b.progress.isStarted = true → ids i = ids j → i = j
  handlers : installed.WellFormed

namespace Rests

variable {resumptions resumptions' : Store (Continuation Content)} {installed : Store Handler}
  {seats others : List (Nat × ResumptionId)} {ids : Nat → InstallationId} {ρ : ResumptionId}

theorem mem_active (h : r.Rests resumptions installed seats ids) {x : Nat × ResumptionId}
    (hx : x ∈ seats) : x.1 ∈ r.active := h.order ▸ List.mem_map_of_mem hx

/-- An actor changes that is not parked. -/
theorem modify (h : r.Rests resumptions installed seats ids) (hi : i ∉ r.active)
    (hstarted : ∀ a, r.members[i]? = some a → (f a).progress.isStarted = true →
      a.progress.isStarted = true) : (r.modify i f).Rests resumptions installed seats ids := by
  have hbefore : ∀ {j : Nat} {a}, (r.modify i f).members[j]? = some a →
      a.progress.isStarted = true → ∃ b, r.members[j]? = some b ∧ b.progress.isStarted = true := by
    intro j a ha hstart
    rcases of_getElem?_modify ha with ⟨rfl, b, hb, rfl⟩ | ⟨-, ha⟩
    · exact ⟨b, hb, hstarted b hb hstart⟩
    · exact ⟨a, ha, hstart⟩
  exact
    { h with
      parked := fun x hx a ha => by
        rcases of_getElem?_modify ha with ⟨rfl, -⟩ | ⟨-, ha⟩
        · exact absurd (h.mem_active hx) hi
        · exact h.parked x hx a ha
      handled := fun j a ha hstart => by
        obtain ⟨b, hb, hstart'⟩ := hbefore ha hstart
        exact h.handled j b hb hstart'
      apart := fun j k a b ha hb hstart hstart' => by
        obtain ⟨a', ha', hstart⟩ := hbefore ha hstart
        obtain ⟨b', hb', hstart'⟩ := hbefore hb hstart'
        exact h.apart j k a' b' ha' hb' hstart hstart' }

/-- A change of an actor that has nothing to do with how far it has got. -/
theorem modify_of_progress (h : r.Rests resumptions installed seats ids)
    (hprogress : ∀ a, (f a).progress = a.progress) :
    (r.modify i f).Rests resumptions installed seats ids := by
  have hbefore : ∀ {j : Nat} {a}, (r.modify i f).members[j]? = some a →
      ∃ b, r.members[j]? = some b ∧ a.progress = b.progress := by
    intro j a ha
    rcases of_getElem?_modify ha with ⟨rfl, b, hb, rfl⟩ | ⟨-, ha⟩
    · exact ⟨b, hb, hprogress b⟩
    · exact ⟨a, ha, rfl⟩
  exact
    { h with
      parked := fun x hx a ha => by
        obtain ⟨b, hb, heq⟩ := hbefore ha
        rw [heq]
        exact h.parked x hx b hb
      handled := fun j a ha hstart => by
        obtain ⟨b, hb, heq⟩ := hbefore ha
        exact h.handled j b hb (heq ▸ hstart)
      apart := fun j k a b ha hb hstart hstart' => by
        obtain ⟨a', ha', heq⟩ := hbefore ha
        obtain ⟨b', hb', heq'⟩ := hbefore hb
        exact h.apart j k a' b' ha' hb' (heq ▸ hstart) (heq' ▸ hstart') }

/-- Other resumptions may come and go. -/
theorem keep (h : r.Rests resumptions installed seats ids) (hwf : resumptions'.WellFormed)
    (hnext : resumptions.next ≤ resumptions'.next)
    (hsame : ∀ x ∈ seats, resumptions'.find? x.2 = resumptions.find? x.2) :
    r.Rests resumptions' installed seats ids :=
  { h with
    wellFormed := hwf
    issued := fun x hx => (h.issued x hx).trans_le hnext
    parked := fun x hx a ha => by
      rw [hsame x hx]
      exact h.parked x hx a ha }

theorem insert (h : r.Rests resumptions installed seats ids) (k : Continuation Content) :
    r.Rests (resumptions.insert k).2 installed seats ids :=
  h.keep (Store.wellFormed_insert h.wellFormed k) (Nat.le_succ _) fun x hx => by
    rw [Store.find?_insert, if_neg (Nat.ne_of_lt (h.issued x hx))]

theorem erase (h : r.Rests resumptions installed seats ids) (hρ : ∀ x ∈ seats, x.2 ≠ ρ) :
    r.Rests (resumptions.erase ρ) installed seats ids :=
  h.keep (Store.wellFormed_erase h.wellFormed ρ) (Nat.le_refl _) fun x hx => by
    rw [Store.find?_erase h.wellFormed, if_neg (hρ x hx)]

/-- An actor is added that has not started. -/
theorem grow {m : Member} (h : r.Rests resumptions installed seats ids)
    (hseats : ∀ j ∈ r.active, j < r.members.length) (hm : m.progress.isStarted = false) :
    ({ r with members := r.members ++ [m] } : Roster).Rests resumptions installed seats ids := by
  have hbefore : ∀ {j : Nat} {a}, (r.members ++ [m])[j]? = some a → a.progress.isStarted = true →
      r.members[j]? = some a := by
    intro j a ha hstarted
    rcases of_getElem?_append ha with ha | ⟨rfl, rfl⟩
    · exact ha
    · simp [hm] at hstarted
  exact
    { h with
      parked := fun x hx a ha => by
        rw [List.getElem?_append_left (hseats x.1 (h.mem_active hx))] at ha
        exact h.parked x hx a ha
      handled := fun j a ha hstarted => h.handled j a (hbefore ha hstarted) hstarted
      apart := fun j k a b ha hb hstarted hstarted' =>
        h.apart j k a b (hbefore ha hstarted) (hbefore hb hstarted') hstarted hstarted' }

/-- An actor is parked with a resumption. -/
theorem park {k : Continuation Content} (h : r.Rests resumptions installed seats ids)
    (ha : r.members[i]? = some a) (hk : r.Stands ids i a.progress k)
    (hρ : resumptions.find? ρ = some k) (hnew : ∀ x ∈ seats, x.2 ≠ ρ) :
    ({ r with active := r.active ++ [i] } : Roster).Rests resumptions installed
      (seats ++ [(i, ρ)]) ids :=
  { h with
    order := by simp [h.order]
    parked := fun x hx b hb => by
      rcases List.mem_append.mp hx with hx | hx
      · exact h.parked x hx b hb
      · obtain rfl := List.mem_singleton.mp hx
        obtain rfl := Option.some.inj (ha.symm.trans hb)
        exact ⟨k, hρ, hk⟩
    distinct := by
      rw [List.map_append, List.nodup_append]
      refine ⟨h.distinct, List.nodup_singleton _, ?_⟩
      rintro _ hx _ hy rfl
      obtain ⟨y, hmem, rfl⟩ := List.mem_map.mp hx
      exact hnew y hmem (by simpa using hy)
    issued := fun x hx => by
      rcases List.mem_append.mp hx with hx | hx
      · exact h.issued x hx
      · obtain rfl := List.mem_singleton.mp hx
        exact Store.lt_next h.wellFormed hρ }

/-- A parked actor gets control, and its resumption is used up. -/
theorem unpark {x : Nat × ResumptionId} (h : r.Rests resumptions installed seats ids)
    (hperm : seats.Perm (x :: others)) :
    ({ r with active := others.map Prod.fst } : Roster).Rests (resumptions.erase x.2) installed
      others ids := by
  have hdistinct : ((x :: others).map Prod.snd).Nodup := (hperm.map _).nodup_iff.mp h.distinct
  have hmem : ∀ y ∈ others, y ∈ seats := fun y hy => hperm.mem_iff.mpr (List.mem_cons_of_mem _ hy)
  have hrests : ({ r with active := others.map Prod.fst } : Roster).Rests resumptions installed
      others ids :=
    { h with
      order := rfl
      parked := fun y hy => h.parked y (hmem y hy)
      distinct := (List.nodup_cons.mp hdistinct).2
      issued := fun y hy => h.issued y (hmem y hy) }
  refine hrests.erase fun y hy heq => ?_
  exact (List.nodup_cons.mp hdistinct).1 (heq ▸ List.mem_map_of_mem hy)

/-- An actor that was parked and had not started starts, with a new installation. -/
theorem start {b : Behaviour} (h : r.Rests resumptions installed seats ids) (hi : i ∉ r.active)
    (ha : r.members[i]? = some a) (hfresh : a.progress = .fresh b) :
    (r.modify i Member.start).Rests resumptions (installed.insert (Actor.shown r.pool)).2 seats
      (Function.update ids i installed.next) := by
  have hstarts : a.start = a.goOn (.acting b []) := by simp [Member.start, hfresh]
  -- the numbers of the actors that had started are older
  have hold : ∀ {j : Nat} {b}, r.members[j]? = some b → b.progress.isStarted = true →
      ids j ≠ installed.next ∧ j ≠ i := by
    intro j b hb hstart
    refine ⟨fun heq => ?_, ?_⟩
    · exact Nat.ne_of_lt (Store.lt_next h.handlers (h.handled j b hb hstart)) heq
    · rintro rfl
      obtain rfl := Option.some.inj (ha.symm.trans hb)
      rw [hfresh] at hstart
      cases hstart
  have hids : ∀ {j : Nat}, j ≠ i → Function.update ids i installed.next j = ids j :=
    fun hj => Function.update_of_ne hj ..
  refine
    { h with
      parked := fun x hx c hc => ?_
      handled := fun j c hc hstart => ?_
      apart := fun j k c d hc hd hstart hstart' heq => ?_
      handlers := Store.wellFormed_insert h.handlers _ }
  · have hne : x.1 ≠ i := fun heq => hi (heq ▸ h.mem_active hx)
    rcases of_getElem?_modify hc with ⟨rfl, -⟩ | ⟨-, hc⟩
    · exact absurd rfl hne
    · obtain ⟨k, hk, hstands⟩ := h.parked x hx c hc
      refine ⟨k, hk, ?_⟩
      cases hp : c.progress <;> rw [hp] at hstands
      · exact hstands
      · exact hstands.trans (by rw [hids hne]; rfl)
      · exact hstands.trans (by rw [hids hne]; rfl)
      · exact hstands
  · rcases of_getElem?_modify hc with ⟨rfl, d, hd, rfl⟩ | ⟨hne, hc⟩
    · rw [Function.update_self, Store.find?_insert_self]
      rfl
    · rw [hids (Ne.symm hne), Store.find?_insert, if_neg (hold hc hstart).1]
      exact h.handled j c hc hstart
  · rcases of_getElem?_modify hc with ⟨rfl, c', hc', rfl⟩ | ⟨hj, hc⟩ <;>
      rcases of_getElem?_modify hd with ⟨rfl, d', hd', rfl⟩ | ⟨hk, hd⟩
    · rfl
    · rw [Function.update_self, hids (Ne.symm hk)] at heq
      exact absurd heq.symm (hold hd hstart').1
    · rw [Function.update_self, hids (Ne.symm hj)] at heq
      exact absurd heq (hold hc hstart).1
    · rw [hids (Ne.symm hj), hids (Ne.symm hk)] at heq
      exact h.apart j k c d hc hd hstart hstart' heq

/-- An actor that was parked and had started goes on. -/
theorem goesOn (h : r.Rests resumptions installed seats ids)
    (ha : r.members[i]? = some a) (hstarted : a.progress.isStarted = true) :
    (r.modify i Member.start).Rests resumptions installed seats ids := by
  have hstays := Member.start_of_isStarted hstarted
  have hmodify : r.modify i Member.start = r.modify i id := by
    have hmembers : r.members.modify i Member.start = r.members.modify i id := by
      refine List.ext_getElem? fun j => ?_
      rw [List.getElem?_modify, List.getElem?_modify]
      by_cases hij : i = j
      · subst hij
        simp [ha, hstays]
      · simp [hij]
    simp only [Roster.modify, hmembers]
  rw [hmodify]
  exact h.modify_of_progress fun _ => rfl

end Rests

end Roster

end EffectHandlers.Actor
