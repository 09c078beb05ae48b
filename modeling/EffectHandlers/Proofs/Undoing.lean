import EffectHandlers.Client.Library
import EffectHandlers.Proofs.Variables
/-!
# Tracked assignments

A clause that restores the old value waits for each tracked assignment of a transaction. When the
transaction ends the clauses end one after the other, from the last assignment to the first, so that
the value before the first tracked assignment of a variable is what remains after a rollback.
-/

namespace EffectHandlers

/-! ### Shares of variables -/

/-- Each variable that is there has an owner. -/
def Memory.Kept (μ : Memory) : Prop := ∀ x y, μ x = some y → 0 < y.shares

theorem Memory.Kept.assign {μ : Memory} (h : μ.Kept) (x : CellId) (v : Value) :
    (μ.assign x v).Kept := by
  intro z y hz
  unfold Memory.assign at hz
  split at hz
  · obtain ⟨y', hy', rfl⟩ := Option.map_eq_some_iff.mp hz
    exact h z y' hy'
  · exact h z y hz

/-- The cells of a new thread have owners. -/
theorem Memory.kept_start (settings : SettingsSlot) (cells : List Content) (statics : List Owned)
    (main : Comp Content) :
    Memory.Kept (Machine.start settings cells statics main).cells.find? := by
  have hall : ∀ (cells : List Content) (s : Store (Shared Content)), Memory.Kept s.find? →
      Memory.Kept (cells.foldl (fun s content => (s.insert ⟨content, 1⟩).2) s).find? := by
    intro cells
    induction cells with
    | nil => exact fun s hs => hs
    | cons content cells ih =>
      refine fun s hs => ih _ fun x y hy => ?_
      rw [Store.find?_insert] at hy
      split at hy
      · obtain rfl := Option.some.inj hy
        exact Nat.one_pos
      · exact hs x y hy
  exact hall cells _ fun x y hy => by cases hy

theorem Deed.kept {κ σ : Type} {n : Nat} {serve : κ → World σ → Option (Value × World σ)}
    {d : Deed κ n} {w w' : World σ} {v : Value} (hplain : ∀ command, d ≠ .send command)
    (hacts : d.acts serve w = some (v, w')) (h : w.memory.Kept) : w'.memory.Kept := by
  cases d with
  | emit text =>
    obtain ⟨rfl, rfl⟩ := Prod.mk.inj (Option.some.inj hacts)
    exact h.assign _ _
  | look x =>
    obtain ⟨rfl, rfl⟩ := Prod.mk.inj (Option.some.inj hacts)
    exact h
  | assign x v =>
    obtain ⟨rfl, rfl⟩ := Prod.mk.inj (Option.some.inj hacts)
    exact h.assign _ _
  | send command => exact absurd rfl (hplain command)

namespace Store.Holds

variable {cells : Store (Shared Content)} {h x : CellId} {own : Content} {extra : CellId → Nat}
  {μ : Memory}

/-- A variable gets another share. -/
theorem retain (hholds : cells.Holds h own extra μ) (hx : x ≠ h) :
    (cells.modify x fun y => { y with shares := y.shares + 1 }).Holds h own
      (fun z => if z = x then extra z + 1 else extra z) μ where
  own := by
    rw [find?_modify, if_neg hx.symm]
    exact hholds.own
  others := fun y hy => by
    rw [find?_modify, hholds.others y hy]
    split
    · cases μ y <;> rfl
    · rfl
  fresh := hholds.fresh

/-- A variable loses the share that it got last. -/
theorem giveUp (hholds : cells.Holds h own (fun z => if z = x then extra z + 1 else extra z) μ)
    (hx : x ≠ h) :
    (cells.modify x fun y => { y with shares := y.shares - 1 }).Holds h own extra μ where
  own := by
    rw [find?_modify, if_neg hx.symm]
    exact hholds.own
  others := fun y hy => by
    rw [find?_modify, hholds.others y hy]
    split
    · cases μ y <;> rfl
    · rfl
  fresh := hholds.fresh

end Store.Holds

namespace Transaction

/-! ### Bodies with tracked assignments -/

/-- What bodies do in a transaction. -/
inductive Change (n : Nat) where
  | track (x : Fin n) (v : Value)
  | rollback

/-- The changes as programs. -/
def Change.send {n : Nat} : Change n → Task Value
  | track x v => do
    Transaction.track x v
    return .unit
  | rollback => do
    Transaction.rollback
    return .unit

/-- What variables held before they were tracked. -/
abbrev Originals : Type := CellId → Option Value

/-- The value of a variable that is tracked now, unless it was tracked before. -/
def Originals.note (os : Originals) (x : CellId) (old : Value) : Originals := fun y =>
  if y = x then (os y).or (some old) else os y

/-- What the changes do; a rollback is the end. -/
def Change.serve {n : Nat} : Change n → World Originals → Option (Value × World Originals)
  | track x v, w => some (.unit,
    { memory := w.memory.assign x v, state := w.state.note x (w.memory.value x) })
  | rollback, _ => none

/-- The variables that were tracked get their original values. -/
def undone (w : World Originals) : Memory := fun x =>
  match w.state x with
  | some v => (w.memory x).map fun y => { y with content := .value v }
  | none => w.memory x

/-! ### Clauses that wait -/

/-- An assignment that has been tracked: the variable, what it held before, and the resumption of
the clause. -/
structure Entry where
  cell : CellId
  old : Value
  resumption : ResumptionId

/-- What the entries remember, the newest first. -/
def originals : List Entry → Originals
  | [] => fun _ => none
  | a :: rest => (originals rest).note a.cell a.old

/-- How often a variable is among the entries. -/
def shares : List Entry → CellId → Nat
  | [] => fun _ => 0
  | a :: rest => fun x => if x = a.cell then shares rest x + 1 else shares rest x

/-- What the clause of a tracked assignment does when the rest of the transaction has ended. -/
def settle (x : CellId) (old committed : Value) : Comp Content :=
  (match Value.pair (.cell x) old, committed.isTrue with
  | .pair (.cell tracked) old, false => do
    Task.writeValue tracked old
    return committed
  | _, _ => return committed : Task Value) .done

/-- The clauses that wait, and what waits for the transaction. -/
def trail (i : InstallationId) (answer : String) (S : List (Activation Content)) :
    List Entry → List (Activation Content)
  | [] => S
  | a :: rest => .bind (settle a.cell a.old) :: .owning [.resumption a.resumption, .cell a.cell] ::
    .clause (some i) answer :: .stepping :: trail i answer S rest

theorem handler_assign : handler.Resumes assignCommand fun _ v r => .resume r .unit fun committed =>
    (match v, committed.isTrue with
    | .pair (.cell tracked) old, false => do
      Task.writeValue tracked old
      return committed
    | _, _ => return committed : Task Value) .done :=
  ⟨1, _, rfl, rfl⟩

theorem handler_rollback : handler.Resumes rollbackCommand fun _ _ _ => .done (.bool false) :=
  ⟨0, _, rfl, rfl⟩

/-- The newest entry is undone before the others. -/
theorem undone_assign (μ : Memory) (a : Entry) (rest : List Entry) :
    undone ⟨μ.assign a.cell a.old, originals rest⟩ = undone ⟨μ, originals (a :: rest)⟩ := by
  funext x
  simp only [undone, originals, Originals.note, Memory.assign]
  by_cases hx : x = a.cell
  · simp only [if_pos hx]
    cases originals rest x <;> cases μ x <;> rfl
  · simp only [if_neg hx]

variable {Γ : Library Content} {o s : Outline Content} {g : Guest} {n : Nat} {answer : String}
  {next k : Value → Comp Content} {S T : List (Activation Content)} {w w' : World Originals}
  {u v : Value} {cells : Store (Shared Content)} {μ : Memory} {b : Bool} {entries rest : List Entry}
  {a : Entry} {Q : Outline Content → Prop} {own : Content} {π : Type} {name : π → String}
  {code : π → Value → Body (Deed (Change n) n) π}

/-- The clause restores the old value, unless the transaction has been committed. -/
theorem gets_restored (hcell : a.cell ≠ g.handler)
    (hholds : cells.Holds g.handler own (shares (a :: rest)) μ)
    (h : ∀ cells : Store (Shared Content),
      cells.Holds g.handler own (shares (a :: rest)) (if b then μ else μ.assign a.cell a.old) →
        ((s.storing cells).on S (.ret (.bool b))).Gets Γ Q) :
    ((s.storing cells).on (.bind (settle a.cell a.old) :: S) (.ret (.bool b))).Gets Γ Q := by
  cases b with
  | true => exact .bind (.done (h cells hholds))
  | false =>
    have hwrites : ((s.storing cells).on S (.eval (Task.writeValue a.cell a.old fun _ =>
        .done (.bool false)))).Gets Γ Q := .writeValue (.done (h _ (hholds.assign hcell)))
    exact .bind hwrites

/-- The clause gives up its share of the variable. -/
theorem gets_givenUp (hcell : a.cell ≠ g.handler) (hkept : μ.Kept)
    (hr : a.resumption ∉ s.resumptions.map (·.1))
    (hholds : cells.Holds g.handler own (shares (a :: rest)) μ)
    (h : ∀ cells : Store (Shared Content), cells.Holds g.handler own (shares rest) μ →
      ((s.storing cells).on S (.ret v)).Gets Γ Q) :
    ((s.storing cells).on (.owning [.resumption a.resumption, .cell a.cell] :: S)
      (.ret v)).Gets Γ Q := by
  have hfound := hholds.others a.cell hcell
  refine .owning (.spent hr ?_)
  cases hx : μ a.cell with
  | none =>
    rw [hx] at hfound
    refine .noCell hfound (h cells ⟨hholds.own, fun y hy => ?_, hholds.fresh⟩)
    rw [hholds.others y hy]
    by_cases hya : y = a.cell
    · rw [hya, hx]
      rfl
    · simp only [shares, if_neg hya]
  | some y =>
    have hpos := hkept _ _ hx
    rw [hx] at hfound
    refine .cellShare hfound ?_ (h _ (hholds.giveUp hcell))
    simp only [shares, if_pos]
    omega

variable (Γ) in
/-- A transaction is under way. -/
def Tracking (o : Outline Content) (g : Guest) (next : Value → Comp Content)
    (S : List (Activation Content)) (w : World Originals) (s : Outline Content) : Prop :=
  ∃ entries cells, cells.Holds g.handler (.value .unit) (shares entries) w.memory ∧
    w.memory.Kept ∧ originals entries = w.state ∧
    (∀ a ∈ entries, a.cell ≠ g.handler ∧ a.resumption ∉ o.resumptions.map (·.1)) ∧
    s = o.hosting Γ g cells (entries.length + 3) (.stepping ::
      trail g.id (Γ.handlerType g.handlerType).answer (.bind next :: S) entries)

/-- The clause of the newest entry goes on. -/
theorem gets_settled (hentry : a.cell ≠ g.handler ∧ a.resumption ∉ o.resumptions.map (·.1))
    (hkept : μ.Kept) (hholds : cells.Holds g.handler own (shares (a :: rest)) μ) {m : Nat}
    (h : ∀ cells : Store (Shared Content),
      cells.Holds g.handler own (shares rest) (if b then μ else μ.assign a.cell a.old) →
        ((o.remaining Γ g cells m).on (.clause (some g.id) answer :: .stepping ::
          trail g.id answer S rest) (.ret (.bool b))).Gets Γ Q) :
    ((o.remaining Γ g cells m).on (trail g.id answer S (a :: rest)) (.ret (.bool b))).Gets Γ Q := by
  refine gets_restored (s := o.remaining Γ g cells m) hentry.1 hholds fun cells' hholds' => ?_
  refine gets_givenUp (s := o.remaining Γ g cells m) hentry.1 ?_ hentry.2 hholds' h
  split
  · exact hkept
  · exact hkept.assign a.cell a.old

/-- The clauses end one after the other, and the transaction with them. -/
theorem gets_concluded (hpending : o.pending = none)
    (hentries : ∀ a ∈ entries, a.cell ≠ g.handler ∧ a.resumption ∉ o.resumptions.map (·.1))
    (hkept : μ.Kept) (hholds : cells.Holds g.handler (.value .unit) (shares entries) μ) :
    ((o.remaining Γ g cells (entries.length + 1)).on (.clause (some g.id) answer :: .stepping ::
      trail g.id answer (.bind next :: S) entries) (.ret (.bool b))).Gets Γ fun s' =>
        ∃ cells : Store (Shared Content),
          cells.find? = (if b then μ else undone ⟨μ, originals entries⟩) ∧
          s' = (o.storing cells).on S (.eval (next (.bool b))) := by
  induction entries generalizing cells μ with
  | nil =>
    refine .of_wellFormed fun hcells => .lastClauseEnds hpending hholds.own (Nat.le_refl 1) rfl
      (.last (t := (o.storing (cells.erase g.handler)).on S (.eval (next (.bool b))))
        (fun _ _ => rfl) fun _ => ⟨_, ?_, rfl⟩)
    rw [hholds.erase hcells]
    exact (ite_self μ).symm
  | cons a rest ih =>
    refine .clauseEnds hpending (gets_settled (hentries a List.mem_cons_self) hkept hholds
      fun cells' hholds' => ?_)
    cases b with
    | true => exact ih (fun a ha => hentries a (List.mem_cons_of_mem _ ha)) hkept hholds'
    | false =>
      have hundone := undone_assign μ a rest
      have hgets := ih (fun a ha => hentries a (List.mem_cons_of_mem _ ha))
        (hkept.assign a.cell a.old) hholds'
      rwa [hundone] at hgets

namespace Tracking

/-- The clause of a tracked assignment resumes, and waits for the rest of the transaction. -/
theorem gets_tracked (hs : Tracking Γ o g next S w s)
    (hhandler : Γ.handlerType g.handlerType = handler) {x : Fin n} (hx : (x : CellId) ≠ g.handler)
    (hserve : (Change.track x v).serve w = some (u, w')) :
    (s.on T (.eval ((Change.track x v).send k))).Gets Γ fun s' =>
      ∃ s'', Tracking Γ o g next S w' s'' ∧ s' = s''.on T (.eval (k u)) := by
  obtain ⟨entries, cells, hholds, hkept, horiginals, hentries, rfl⟩ := hs
  obtain ⟨rfl, rfl⟩ := Prod.mk.inj (Option.some.inj hserve)
  refine .readValue (hholds.value_eq hx) (.writeValue (.retains
    ((Outline.gets_captured (hhandler ▸ handler_assign)).trans ?_)))
  rintro s' ⟨r, e, hr, rfl⟩ -
  refine Outline.gets_resumed.mono ?_
  rintro s' rfl -
  refine ⟨_, ⟨⟨x, w.memory.value x, r⟩ :: entries, _, (hholds.assign hx).retain hx,
    hkept.assign x v, ?_, ?_, rfl⟩, rfl⟩
  · rw [← horiginals]
    rfl
  · exact List.forall_mem_cons.mpr ⟨⟨hx, hr⟩, hentries⟩

/-- The clause of a rollback drops the rest of the transaction, and all assignments are undone. -/
theorem gets_rolledBack (hs : Tracking Γ o g next S w s)
    (hhandler : Γ.handlerType g.handlerType = handler) (hpending : o.pending = none)
    (hT : T.flatMap Activation.owned = []) :
    (s.on (T ++ [.owning [.reference g.this]]) (.eval ((Change.rollback (n := n)).send k))).Gets Γ
      fun s' => ∃ cells : Store (Shared Content), cells.find? = undone w ∧
        s' = (o.storing cells).on S (.eval (next (.bool false))) := by
  obtain ⟨μ, os⟩ := w
  obtain ⟨entries, cells, hholds, hkept, rfl, hentries, rfl⟩ := hs
  refine (Outline.gets_captured (hhandler ▸ handler_rollback)).trans ?_
  rintro s' ⟨r, e, hr, rfl⟩ -
  exact .done ((Outline.gets_abandoned hT).via (gets_concluded hpending hentries hkept hholds))

/-- The transaction returns, and nothing is undone. -/
theorem gets_committed (hs : Tracking Γ o g next S w s)
    (hhandler : Γ.handlerType g.handlerType = handler) (hpending : o.pending = none) :
    (s.on [.owning [.reference g.this]] (.eval (.done v))).Gets Γ fun s' =>
      ∃ cells : Store (Shared Content), cells.find? = w.memory ∧
        s' = (o.storing cells).on S (.eval (next (.bool true))) := by
  obtain ⟨entries, cells, hholds, hkept, -, hentries, rfl⟩ := hs
  refine .done (Outline.gets_returning.trans ?_)
  rintro s' rfl hcells
  refine hhandler ▸ .done ?_
  cases entries with
  | nil =>
    refine (Outline.gets_answered hpending hholds.own (Nat.le_refl 1) rfl).mono ?_
    rintro s' rfl -
    exact ⟨_, hholds.erase hcells, rfl⟩
  | cons a rest =>
    refine .returns hpending (gets_settled (g := g.retired) (hentries a List.mem_cons_self) hkept
      hholds fun cells' hholds' => ?_)
    exact gets_concluded (g := g.retired) hpending
      (fun a ha => hentries a (List.mem_cons_of_mem _ ha)) hkept hholds'

theorem visible (hs : Tracking Γ o g next S w s) {x : CellId} (hx : x ≠ g.handler) :
    (s.cells.find? x).map Shared.content = (w.memory x).map Shared.content := by
  obtain ⟨entries, cells, hholds, -, -, -, rfl⟩ := hs
  exact hholds.content_eq hx

/-- A body in a transaction does what it does to its variables. -/
theorem enacts (hvoc : (Deed.vocabulary Change.send name code).Known Γ)
    (hhandler : Γ.handlerType g.handlerType = handler) (hn : n ≤ g.handler)
    (htranscript : Transcript.cell < n) :
    (Deed.vocabulary Change.send name code).Enacts Γ (Deed.acts Change.serve)
      (Tracking Γ o g next S) where
  known := hvoc
  act {w w' d v s S k} hs hacts := by
    by_cases hplain : ∀ change, d ≠ .send change
    · obtain ⟨entries, cells, hholds, hkept, horiginals, hentries, rfl⟩ := hs
      refine (Deed.gets hplain hacts hholds hn htranscript).mono ?_
      rintro s' ⟨cells', rfl, hholds', hstate⟩ -
      exact ⟨_, ⟨entries, cells', hholds', Deed.kept hplain hacts hkept, hstate ▸ horiginals,
        hentries, rfl⟩, rfl⟩
    · obtain ⟨change, rfl⟩ : ∃ change, d = .send change := by simpa using hplain
      cases change with
      | rollback => cases hacts
      | track x v =>
        exact hs.gets_tracked hhandler (Nat.ne_of_lt (Nat.lt_of_lt_of_le x.isLt hn)) hacts

end Tracking

/-! ### The result -/

variable {c : Course (Deed (Change n) n) π (World Originals)} {m : Machine Content}

/-- The body is about to make a tracked assignment to the variable. -/
def Tracks (c : Course (Deed (Change n) n) π (World Originals)) (x : CellId) : Prop :=
  ∃ y v next, c.body = .act (.send (.track y v)) next ∧ (y : CellId) = x

theorem state_of_tracks {x : CellId} (h : Tracks c x) :
    ((c.next? code (Deed.acts Change.serve)).getD c).world.state x =
      (c.world.state x).or (some (c.world.memory.value x)) := by
  obtain ⟨y, v, next, hbody, rfl⟩ := h
  simp [Course.next?, hbody, Deed.acts, Change.serve, Originals.note]

theorem state_of_not_tracks {x : CellId} (h : ¬ Tracks c x) :
    ((c.next? code (Deed.acts Change.serve)).getD c).world.state x = c.world.state x := by
  obtain ⟨body, blocks, w⟩ := c
  cases body with
  | done v =>
    cases hafter : Block.after v blocks with
    | none => simp [Course.next?, hafter]
    | some x => simp [Course.next?, hafter]
  | act d next =>
    cases d with
    | send change =>
      cases change with
      | rollback => rfl
      | track y v =>
        have hne : x ≠ y := fun heq => h ⟨y, v, next, rfl, heq.symm⟩
        simp [Course.next?, Deed.acts, Change.serve, Originals.note, hne]
    | _ => rfl
  | _ => rfl

section

variable (hstart : c.world.state = fun _ => none) {x : CellId} {t u : Nat}
include hstart

theorem state_untracked (h : ∀ i < t, ¬ Tracks (c.run code (Deed.acts Change.serve) i) x) :
    (c.run code (Deed.acts Change.serve) t).world.state x = none := by
  induction t with
  | zero => exact congrFun hstart x
  | succ t ih =>
    rw [Course.run_succ, state_of_not_tracks (h t (Nat.lt_succ_self t))]
    exact ih fun i hi => h i (Nat.lt_succ_of_lt hi)

theorem state_tracked (hu : u < t) (htracks : Tracks (c.run code (Deed.acts Change.serve) u) x)
    (hfirst : ∀ i < u, ¬ Tracks (c.run code (Deed.acts Change.serve) i) x) :
    (c.run code (Deed.acts Change.serve) t).world.state x =
      some ((c.run code (Deed.acts Change.serve) u).world.memory.value x) := by
  induction t with
  | zero => exact absurd hu (Nat.not_lt_zero u)
  | succ t ih =>
    rw [Course.run_succ]
    rcases Nat.lt_succ_iff_lt_or_eq.mp hu with hlt | rfl
    · by_cases hagain : Tracks (c.run code (Deed.acts Change.serve) t) x
      · rw [state_of_tracks hagain, ih hlt]
        rfl
      · rw [state_of_not_tracks hagain, ih hlt]
    · rw [state_of_tracks htracks, state_untracked hstart hfirst]
      rfl

/-- What is noted of a variable is what it held when it was tracked for the first time. -/
theorem state_eq_some (t : Nat) (x : CellId) (v : Value) :
    (c.run code (Deed.acts Change.serve) t).world.state x = some v ↔
      ∃ u < t, Tracks (c.run code (Deed.acts Change.serve) u) x ∧
        (∀ i < u, ¬ Tracks (c.run code (Deed.acts Change.serve) i) x) ∧
        (c.run code (Deed.acts Change.serve) u).world.memory.value x = v := by
  constructor
  · intro hv
    have hsome : ∃ u, u < t ∧ Tracks (c.run code (Deed.acts Change.serve) u) x := by
      by_contra hnone
      rw [state_untracked hstart fun i hi htracks => hnone ⟨i, hi, htracks⟩] at hv
      cases hv
    classical
    obtain ⟨hlt, htracks⟩ := Nat.find_spec hsome
    have hfirst : ∀ i < Nat.find hsome, ¬ Tracks (c.run code (Deed.acts Change.serve) i) x :=
      fun i hi hi' => Nat.find_min hsome hi ⟨Nat.lt_trans hi hlt, hi'⟩
    refine ⟨Nat.find hsome, hlt, htracks, hfirst, ?_⟩
    rw [state_tracked hstart hlt htracks hfirst] at hv
    exact Option.some.inj hv
  · rintro ⟨u, hu, htracks, hfirst, rfl⟩
    exact state_tracked hstart hu htracks hfirst

end

/-- A rollback undoes all tracked assignments of a transaction, and what it does otherwise remains.
A transaction that returns undoes nothing. -/
theorem rollbacks_undo (hhandler : Γ.handlerType handlerName = handler)
    (hvoc : (Deed.vocabulary Change.send name code).Known Γ) (hm : m.Numbered)
    (hreleasing : m.releasing = []) (hpending : m.pending = none)
    (hsize : m.stackSize < StackPool.addressSpace) (hn : n ≤ m.cells.next)
    (htranscript : Transcript.cell < n) (hkept : Memory.Kept m.cells.find?)
    (body : Body (Deed (Change n) n) π) (next : Value → Comp Content) :
    let voc := Deed.vocabulary Change.send name code
    let c : Course (Deed (Change n) n) π (World Originals) := Course.start m body fun _ => none
    let course := c.run code (Deed.acts Change.serve)
    (∃ clock, c.Concluded Γ voc (Deed.acts Change.serve) m
      (m.goOn (.eval (transaction [] (body.toProg voc) next))) (fun _ _ => next (.bool true))
      (fun d _ => d = .send .rollback) undone (next (.bool false)) clock) ∧
    ∀ t x v, (course t).world.state x = some v ↔ ∃ u < t, Tracks (course u) x ∧
      (∀ i < u, ¬ Tracks (course i) x) ∧ (course u).world.memory.value x = v := by
  intro voc c course
  refine ⟨?_, state_eq_some rfl⟩
  obtain ⟨g, hname, hcell, cells, hholds, hrun⟩ := Machine.exists_installed hm hreleasing
    (by rw [hhandler]; rfl) hsize (.value .unit) (fun _ => body.code voc) next
  have hle : n ≤ g.handler := hcell ▸ hn
  have hg : Γ.handlerType g.handlerType = handler := hname ▸ hhandler
  refine Course.Shown.exists_concluded
    ⟨_, ⟨[], cells, hholds, hkept, rfl, List.forall_mem_nil _, rfl⟩, hrun⟩ (hm.goOn _)
    (Tracking.enacts hvoc hg hle htranscript)
    (fun w s hs x hx => hs.visible (Nat.ne_of_lt (Nat.lt_of_lt_of_le hx hle)))
    (fun w v s hs => hs.gets_committed hg hpending) _ _ _ ?_
  rintro d w s T k rfl hs hT
  exact hs.gets_rolledBack (n := n) hg hpending hT

/-- A body that tracks two variables, one of them twice, and rolls back if it reads a three. -/
def wavering : Body (Deed (Change 7) 7) Empty :=
  .act (.send (.track 5 (.int 2))) fun _ =>
    .act (.assign 6 (.text "b")) fun _ =>
      .act (.send (.track 5 (.int 3))) fun _ =>
        .act (.look 5) fun v =>
          if v = .int 3 then .act (.send .rollback) fun _ => .done .unit else .done .unit

theorem rollbacks_undo_wavering :
    let Γ := Client.libraryOf handlers []
    let voc := Deed.vocabulary (n := 7) Change.send Empty.elim fun p _ => p.elim
    let m := Machine.start {} (Client.cells ++ [.value (.int 1), .value (.text "a")]) []
      (.done .unit)
    let c : Course (Deed (Change 7) 7) Empty (World Originals) :=
      Course.start m wavering fun _ => none
    let course := c.run voc.code (Deed.acts Change.serve)
    ((undone (course 4).world).value 5 = .int 1 ∧ (undone (course 4).world).value 6 = .text "b") ∧
    (∃ clock, c.Concluded Γ voc (Deed.acts Change.serve) m
      (m.goOn (.eval (transaction [] (wavering.toProg voc) .done))) (fun _ _ => .done (.bool true))
      (fun d _ => d = .send .rollback) undone (.done (.bool false)) clock) ∧
    ∀ t x v, (course t).world.state x = some v ↔ ∃ u < t, Tracks (course u) x ∧
      (∀ i < u, ¬ Tracks (course i) x) ∧ (course u).world.memory.value x = v :=
  ⟨by decide +kernel, rollbacks_undo rfl (fun p => p.elim) (Machine.numbered_start ..) rfl rfl
    (by decide) (by decide) (by decide) (Memory.kept_start _ _ _ _) wavering .done⟩

end Transaction

end EffectHandlers
