import EffectHandlers.Proofs.Asides
import EffectHandlers.Proofs.Holdings
import EffectHandlers.Proofs.Numbers
/-!
# Holders and shares

Cells and installations are counted in shares, and every holder of one has a share of it. What is
left over belongs to the running code: `Machine.spare` is the difference. The chain, the tables
and the control of a thread only pass shares on, so the difference goes down only where running
code spends shares of its own.
-/

namespace EffectHandlers

variable {ω : Type} {Γ : Library ω}

/-- The value that is on its way. -/
def Control.carried : Control ω → List Owned
  | ret v | settle _ v | deliver (.done v) => v.owned
  | _ => []

/-- Whether a fault has ended the thread. -/
def Control.isFatal : Control ω → Bool
  | halted (.fatal ..) => true
  | _ => false

/-- How often control holds something. -/
def Control.load (c : Control ω) (x : Holding) : Nat :=
  (c.conts.flatMap Cont.owned).count x + (c.carried.map Holding.asset).count x

/-- What is counted in shares. -/
inductive Holding.Counted : Holding → Prop
  | installation (i : InstallationId) : Counted (.installation i)
  | cell (c : CellId) : Counted (.asset (.cell c))

/-- What is accounted for: what is counted in shares, and what has one holder at most. -/
inductive Holding.Audited : Holding → Prop
  | installation (i : InstallationId) : Audited (.installation i)
  | cell (c : CellId) : Audited (.asset (.cell c))
  | fiber (f : FiberId) : Audited (.fiber f)
  | exchange (e : ExchangeId) : Audited (.exchange e)

/-! ### Tables -/

section Tables

variable {α β : Type} [DecidableEq β] {s : Store α} {id : Nat} {a : α}

theorem Store.count_gather_insert (g : α → List β) (s : Store α) (a : α) (b : β) :
    ((s.insert a).2.gather g).count b = (g a).count b + (s.gather g).count b := by
  simp [Store.gather, Store.insert]

/-- A changed entry owns something else. -/
theorem Store.count_gather_modify (g : α → List β) (f : α → α) (h : s.find? id = some a) (b : β) :
    ((s.modify id f).gather g).count b + (g a).count b =
      (s.gather g).count b + (g (f a)).count b := by
  have herase := Store.count_gather_erase g h b
  have hmodify := ((entries_perm_modify f h).flatMap_right fun e => g e.2).count_eq b
  simp only [List.flatMap_cons, List.count_append] at hmodify
  simp only [gather] at herase ⊢
  omega

theorem Store.sharesOf_insert (g : α → Nat) (hs : s.WellFormed) (a : α) (id : Nat) :
    (s.insert a).2.sharesOf g id = s.sharesOf g id + if id = s.next then g a else 0 := by
  by_cases hid : id = s.next
  · subst hid
    simp [sharesOf, find?_next hs]
  · simp [sharesOf, find?_insert, hid]

theorem Store.sharesOf_modify_congr (g : α → Nat) (f : α → α) (hf : ∀ a, g (f a) = g a)
    (id id' : Nat) : (s.modify id f).sharesOf g id' = s.sharesOf g id' := by
  simp only [sharesOf, find?_modify]
  split
  · cases s.find? id' <;> simp [hf]
  · rfl

theorem Store.sharesOf_modify_add (g : α → Nat) (f : α → α) (hf : ∀ a, g (f a) = g a + 1)
    (h : s.contains id) (id' : Nat) :
    (s.modify id f).sharesOf g id' = s.sharesOf g id' + if id' = id then 1 else 0 := by
  obtain ⟨a, ha⟩ := Option.isSome_iff_exists.mp h
  simp only [sharesOf, find?_modify]
  split
  · rename_i hid
    simp [hid, ha, hf]
  · simp

end Tables

namespace Machine

/-- What the thread holds apart from its code. A fault that ends it puts that on the release list. -/
def anchors (m : Machine ω) : List Holding :=
  if m.control.isFatal then [] else .installation m.chain.top :: m.statics.map .asset

variable [Contents ω]

/-- How often something is held. -/
def holders (m : Machine ω) (x : Holding) : Nat :=
  m.releasing.count x + m.shelved.count x + (ownedBy m.stack).count x +
    (ownedBy m.waiting).count x + (m.pending.toList.flatMap Cont.owned).count x + m.control.load x +
    m.anchors.count x

/-- The shares of something that nothing holds; they are with the running code. -/
def spare (m : Machine ω) (x : Holding) : Int := m.shares x - m.holders x

variable {m m' : Machine ω} {x : Holding}

/-- The parts of a thread that hold something, or are held. -/
def estate (m : Machine ω) : Machine ω :=
  { m with
    chain := { m.chain with nextLabel := 0 }
    declared := [], pool := {}, counters := {}, journal := [], errors := [] }

theorem spare_congr (h : m'.estate = m.estate) : m'.spare x = m.spare x := by
  have hsame : ∀ m : Machine ω, m.estate.spare x = m.spare x := by
    intro m
    cases x with
    | asset o => cases o <;> rfl
    | _ => rfl
  rw [← hsame, h, hsame]

/-! ### Changes of the running code -/

omit [Contents ω] in
/-- The shares are those of cells and installations. -/
theorem shares_congr (hcells : m'.cells = m.cells)
    (hinstallations : m'.chain.installations = m.chain.installations) (x : Holding) :
    m'.shares x = m.shares x := by
  cases x with
  | asset o => cases o <;> simp [shares, hcells]
  | _ => simp [shares, hinstallations]

/-- What is spare depends on what is held, and on the shares. -/
theorem spare_of_holders {k k' : Nat} (hholders : m'.holders x + k = m.holders x + k')
    (hshares : m'.shares x = m.shares x) : m'.spare x = m.spare x + k - k' := by
  simp only [spare, hshares]
  omega

theorem spare_push (m : Machine ω) (a : Activation ω) :
    (m.push a).spare x = m.spare x - a.owned.count x := by
  have hholders : (m.push a).holders x + 0 = m.holders x + a.owned.count x := by
    show m.releasing.count x + m.shelved.count x + (ownedBy (a :: m.stack)).count x +
      (ownedBy m.waiting).count x + (m.pending.toList.flatMap Cont.owned).count x +
      m.control.load x + m.anchors.count x + 0 = _
    simp only [holders, ownedBy, List.flatMap_cons, List.count_append]
    omega
  simpa using spare_of_holders hholders (shares_congr rfl rfl x)

theorem spare_pop {a : Activation ω} {S : List (Activation ω)} (h : m.stack = a :: S) :
    ({ m with stack := S } : Machine ω).spare x = m.spare x + a.owned.count x := by
  have hsame : m = ({ m with stack := S } : Machine ω).push a := by
    simp only [push, ← h]
  have hpush := spare_push (x := x) ({ m with stack := S } : Machine ω) a
  rw [← hsame] at hpush
  omega

theorem spare_release (m : Machine ω) (hs : List Holding) :
    (m.release hs).spare x = m.spare x - hs.count x := by
  have hholders : (m.release hs).holders x + 0 = m.holders x + hs.count x := by
    show (hs ++ m.releasing).count x + m.shelved.count x + (ownedBy m.stack).count x +
      (ownedBy m.waiting).count x + (m.pending.toList.flatMap Cont.owned).count x +
      m.control.load x + m.anchors.count x + 0 = _
    simp only [holders, List.count_append]
    omega
  simpa using spare_of_holders hholders (shares_congr rfl rfl x)

theorem spare_goOn (m : Machine ω) (c : Control ω) (hm : m.control.isFatal = false)
    (hc : c.isFatal = false) :
    (m.goOn c).spare x = m.spare x + m.control.load x - c.load x := by
  have hanchors : (m.goOn c).anchors = m.anchors := by simp [anchors, goOn, hm, hc]
  refine spare_of_holders ?_ (shares_congr rfl rfl x)
  show m.releasing.count x + m.shelved.count x + (ownedBy m.stack).count x +
    (ownedBy m.waiting).count x + (m.pending.toList.flatMap Cont.owned).count x +
    c.load x + (m.goOn c).anchors.count x + m.control.load x = _
  simp only [holders, hanchors]
  omega

theorem spare_pending (m : Machine ω) (k : Option (Cont ω)) :
    ({ m with pending := k } : Machine ω).spare x = m.spare x +
      (m.pending.toList.flatMap Cont.owned).count x - (k.toList.flatMap Cont.owned).count x := by
  refine spare_of_holders ?_ (shares_congr rfl rfl x)
  show m.releasing.count x + m.shelved.count x + (ownedBy m.stack).count x +
    (ownedBy m.waiting).count x + (k.toList.flatMap Cont.owned).count x +
    m.control.load x + m.anchors.count x + (m.pending.toList.flatMap Cont.owned).count x = _
  simp only [holders]
  omega

/-! ### Changes of tables -/

/-- The shares of something that no table holds. -/
def unshelved (m : Machine ω) (x : Holding) : Int := m.shares x - m.shelved.count x

/-- Each table is counted by itself. -/
theorem unshelved_eq (m : Machine ω) (x : Holding) :
    m.unshelved x = m.shares x - (m.cells.gather Shared.owned).count x -
      (m.chain.installations.gather Installation.owned).count x -
      (m.references.gather fun i => [Holding.installation i]).count x -
      (m.closures.gather fun y => y.owned.map Holding.asset).count x -
      (m.resumptions.gather Cont.owned).count x - (m.fibers.parked.gather ownedBy).count x -
      (m.exchanges.gather fun y => y.owned.map Holding.asset).count x := by
  simp only [unshelved, shelved, List.count_append]
  omega

/-- Only tables have changed. -/
theorem spare_of_unshelved {d : Int} (h : m'.unshelved x = m.unshelved x + d)
    (hreleasing : m'.releasing = m.releasing) (hstack : m'.stack = m.stack)
    (hwaiting : m'.waiting = m.waiting) (hpending : m'.pending = m.pending)
    (hcontrol : m'.control = m.control) (hanchors : m'.anchors = m.anchors) :
    m'.spare x = m.spare x + d := by
  simp only [spare, holders, hreleasing, hstack, hwaiting, hpending, hcontrol, hanchors]
  simp only [unshelved] at h
  omega

theorem spare_closure_insert (m : Machine ω) (f : Closure ω) :
    ({ m with closures := (m.closures.insert f).2 } : Machine ω).spare x =
      m.spare x + -((f.owned.map Holding.asset).count x : Int) := by
  have hcount := Store.count_gather_insert (fun y => y.owned.map Holding.asset) m.closures f x
  refine spare_of_unshelved ?_ rfl rfl rfl rfl rfl rfl
  have hshares : ({ m with closures := (m.closures.insert f).2 } : Machine ω).shares x = m.shares x :=
    shares_congr rfl rfl x
  simp only [unshelved_eq, hcount, hshares]
  omega

theorem spare_closure_erase {id : ClosureId} {f : Closure ω} (h : m.closures.find? id = some f) :
    ({ m with closures := m.closures.erase id } : Machine ω).spare x =
      m.spare x + (f.owned.map Holding.asset).count x := by
  have hcount := Store.count_gather_erase (fun y : Closure ω => y.owned.map Holding.asset) h x
  refine spare_of_unshelved ?_ rfl rfl rfl rfl rfl rfl
  have hshares : ({ m with closures := m.closures.erase id } : Machine ω).shares x = m.shares x :=
    shares_congr rfl rfl x
  simp only [unshelved_eq, hcount, hshares]
  omega

theorem spare_resumption_insert (m : Machine ω) (k : Cont ω) :
    ({ m with resumptions := (m.resumptions.insert k).2 } : Machine ω).spare x =
      m.spare x + -(k.owned.count x : Int) := by
  have hcount := Store.count_gather_insert Cont.owned m.resumptions k x
  refine spare_of_unshelved ?_ rfl rfl rfl rfl rfl rfl
  have hshares : ({ m with resumptions := (m.resumptions.insert k).2 } : Machine ω).shares x =
    m.shares x := shares_congr rfl rfl x
  simp only [unshelved_eq, hcount, hshares]
  omega

theorem spare_resumption_erase {id : ResumptionId} {k : Cont ω}
    (h : m.resumptions.find? id = some k) :
    ({ m with resumptions := m.resumptions.erase id } : Machine ω).spare x =
      m.spare x + k.owned.count x := by
  have hcount := Store.count_gather_erase Cont.owned h x
  refine spare_of_unshelved ?_ rfl rfl rfl rfl rfl rfl
  have hshares : ({ m with resumptions := m.resumptions.erase id } : Machine ω).shares x =
    m.shares x := shares_congr rfl rfl x
  simp only [unshelved_eq, hcount, hshares]
  omega

theorem spare_unusable (m : Machine ω) : m.unusable.2.spare x = m.spare x := by
  have hshares : m.unusable.2.shares x = m.shares x := shares_congr rfl rfl x
  simp only [spare, hshares]
  rfl

theorem spare_exchange_insert (m : Machine ω) (y : Exchange) :
    ({ m with exchanges := (m.exchanges.insert y).2 } : Machine ω).spare x =
      m.spare x + -((y.owned.map Holding.asset).count x : Int) := by
  have hcount := Store.count_gather_insert (fun y => y.owned.map Holding.asset) m.exchanges y x
  refine spare_of_unshelved ?_ rfl rfl rfl rfl rfl rfl
  have hshares : ({ m with exchanges := (m.exchanges.insert y).2 } : Machine ω).shares x =
    m.shares x := shares_congr rfl rfl x
  simp only [unshelved_eq, hcount, hshares]
  omega

theorem spare_exchange_modify {e : ExchangeId} {y : Exchange} (f : Exchange → Exchange)
    (h : m.exchanges.find? e = some y) :
    ({ m with exchanges := m.exchanges.modify e f } : Machine ω).spare x =
      m.spare x + ((y.owned.map Holding.asset).count x - ((f y).owned.map Holding.asset).count x) := by
  have hcount := Store.count_gather_modify (fun y => y.owned.map Holding.asset) f h x
  refine spare_of_unshelved ?_ rfl rfl rfl rfl rfl rfl
  have hshares : ({ m with exchanges := m.exchanges.modify e f } : Machine ω).shares x =
    m.shares x := shares_congr rfl rfl x
  simp only [unshelved_eq, hshares]
  omega

theorem spare_reference_insert (m : Machine ω) (i : InstallationId) :
    ({ m with references := (m.references.insert i).2 } : Machine ω).spare x =
      m.spare x + -([Holding.installation i].count x : Int) := by
  have hcount := Store.count_gather_insert (fun i => [Holding.installation i]) m.references i x
  refine spare_of_unshelved ?_ rfl rfl rfl rfl rfl rfl
  have hshares : ({ m with references := (m.references.insert i).2 } : Machine ω).shares x =
    m.shares x := shares_congr rfl rfl x
  simp only [unshelved_eq, hcount, hshares]
  omega

/-- A new cell is with the running code, but its content is not. -/
theorem spare_cell_insert (hcells : m.cells.WellFormed) (content : ω) :
    ({ m with cells := (m.cells.insert ⟨content, 1⟩).2 } : Machine ω).spare x = m.spare x +
      ([Holding.asset (.cell m.cells.next)].count x -
        ((Contents.owned content).map Holding.asset).count x) := by
  have hcount := Store.count_gather_insert Shared.owned m.cells ⟨content, 1⟩ x
  have howned : (Shared.mk content 1).owned = (Contents.owned content).map Holding.asset := rfl
  have hshares : (({ m with cells := (m.cells.insert ⟨content, 1⟩).2 } : Machine ω).shares x : Int) =
      m.shares x + [Holding.asset (.cell m.cells.next)].count x := by
    cases x with
    | asset o =>
      cases o with
      | cell c =>
        simp only [shares, Store.sharesOf_insert _ hcells]
        by_cases heq : c = m.cells.next
        · simp [heq]
        · simp [heq, Ne.symm heq]
      | _ => simp [shares]
    | _ => simp [shares]
  refine spare_of_unshelved ?_ rfl rfl rfl rfl rfl rfl
  simp only [unshelved_eq, hshares]
  simp only [hcount, howned]
  omega

/-- The content of a cell is replaced. -/
theorem spare_cell_write {c : CellId} {y : Shared ω} (h : m.cells.find? c = some y) (content : ω) :
    ({ m with cells := m.cells.modify c fun s => { s with content } } : Machine ω).spare x =
      m.spare x + (y.owned.count x - ((Contents.owned content).map Holding.asset).count x) := by
  have hcount := Store.count_gather_modify Shared.owned (fun s => { s with content }) h x
  have howned : ({ y with content } : Shared ω).owned = (Contents.owned content).map Holding.asset :=
    rfl
  have hshares : ({ m with cells := m.cells.modify c fun s => { s with content } } : Machine ω).shares x =
      m.shares x := by
    cases x with
    | asset o =>
      cases o with
      | cell c' => exact Store.sharesOf_modify_congr Shared.shares (fun s => { s with content }) (fun _ => rfl) c c'
      | _ => rfl
    | _ => rfl
  refine spare_of_unshelved ?_ rfl rfl rfl rfl rfl rfl
  rw [howned] at hcount
  simp only [unshelved_eq, hshares]
  omega

/-- A share more of a cell, as far as there is such a cell. -/
theorem spare_retain (m : Machine ω) (c : CellId) :
    (m.retain (.cell c)).spare x = m.spare x +
      if m.cells.contains c then ([Holding.asset (.cell c)].count x : Int) else 0 := by
  have hsame := Store.gather_modify Shared.owned m.cells c
    (f := fun s => { s with shares := s.shares + 1 }) fun _ => rfl
  refine spare_of_unshelved ?_ rfl rfl rfl rfl rfl rfl
  have hshares : ((m.retain (.cell c)).shares x : Int) = m.shares x +
      if m.cells.contains c then ([Holding.asset (.cell c)].count x : Int) else 0 := by
    by_cases hc : m.cells.contains c
    · rw [if_pos hc]
      cases x with
      | asset o =>
        cases o with
        | cell c' =>
          have hadd := Store.sharesOf_modify_add Shared.shares
            (fun s => { s with shares := s.shares + 1 }) (fun _ => rfl) hc c'
          simp only [shares, retain, hadd]
          by_cases heq : c' = c
          · simp [heq]
          · simp [heq, Ne.symm heq]
        | _ => simp [shares]
      | _ => simp [shares, retain]
    · have hnone : m.cells.find? c = none := by simpa [Store.contains] using hc
      simp [retain, Store.modify_of_find?_eq_none _ hnone, hc]
  simp only [unshelved_eq, hshares]
  simp only [retain, hsame]
  omega

/-! ### Changes of the chain -/

/-- A share more of an installation that is there. -/
theorem spare_hold {i : InstallationId} (hi : m.chain.installations.contains i) :
    (m.hold i).spare x = m.spare x + ([Holding.installation i].count x : Int) := by
  have hsame := Store.gather_modify Installation.owned m.chain.installations i
    (f := fun s => { s with shares := s.shares + 1 }) fun _ => rfl
  refine spare_of_unshelved ?_ rfl rfl rfl rfl rfl rfl
  have hshares : ((m.hold i).shares x : Int) =
      m.shares x + ([Holding.installation i].count x : Int) := by
    cases x with
    | installation j =>
      have hadd := Store.sharesOf_modify_add Installation.shares
        (fun s => { s with shares := s.shares + 1 }) (fun _ => rfl) hi j
      simp only [shares, hold, Chain.modify, hadd]
      by_cases heq : j = i
      · simp [heq]
      · simp [heq, Ne.symm heq]
    | asset o => cases o <;> simp [shares, hold]
    | _ => simp [shares]
  simp only [unshelved_eq, hshares]
  simp only [hold, Chain.modify, hsame]
  omega

/-- What links and the top hold of the chain, after an installation was relinked. -/
theorem spare_relink {c : Chain} {i : InstallationId} {b : Option InstallationId} {a : Installation}
    (hrelinks : m.chain.Relinks i b c) (ha : m.chain.installations.find? i = some a)
    (hfatal : m.control.isFatal = false) :
    ({ m with chain := c } : Machine ω).spare x = m.spare x +
      ([Holding.installation m.chain.top].count x - [Holding.installation c.top].count x +
        ((a.below.map Holding.installation).toList.count x -
          (b.map Holding.installation).toList.count x)) := by
  have hcount := Store.count_gather_modify Installation.owned (fun a => { a with below := b }) ha x
  have hshares : ({ m with chain := c } : Machine ω).shares x = m.shares x := by
    cases x with
    | installation j =>
      simp only [shares, hrelinks.installations]
      exact Store.sharesOf_modify_congr Installation.shares (fun a => { a with below := b })
        (fun _ => rfl) i j
    | asset o => cases o <;> rfl
    | _ => rfl
  have hholders : ({ m with chain := c } : Machine ω).holders x +
      ([Holding.installation m.chain.top].count x + (a.below.map Holding.installation).toList.count x) =
      m.holders x +
        ([Holding.installation c.top].count x + (b.map Holding.installation).toList.count x) := by
    simp only [holders, shelved, anchors, hfatal, waiting, hrelinks.installations, List.count_append,
      Bool.false_eq_true, if_false, List.count_cons, List.count_nil]
    simp only [Installation.owned, List.count_append] at hcount
    omega
  have hspare := spare_of_holders hholders hshares
  omega

/-- Cutting a segment off leaves the share of the old top with whoever gets the segment. -/
theorem spare_split {c : Chain} {i : InstallationId} {segment : Segment}
    (hsplit : m.chain.split i = .ok (segment, c)) (hfatal : m.control.isFatal = false) :
    segment = ⟨m.chain.top, i⟩ ∧ ({ m with chain := c } : Machine ω).spare x =
      m.spare x + [Holding.installation segment.top].count x := by
  unfold Chain.split at hsplit
  split at hsplit
  · split at hsplit
    · cases hsplit
    · rename_i b hb
      obtain ⟨rfl, rfl⟩ := Prod.mk.inj (Except.ok.inj hsplit)
      obtain ⟨a, ha⟩ : ∃ a, m.chain.installations.find? i = some a := by
        cases ha : m.chain.installations.find? i with
        | none => simp [Chain.get, ha, Installation.bottom] at hb
        | some a => exact ⟨a, rfl⟩
      have hbelow : a.below = some b := by simpa [Chain.get, ha] using hb
      refine ⟨rfl, ?_⟩
      rw [spare_relink (i := i) (b := none) ⟨rfl⟩ ha hfatal, hbelow]
      simp only [Option.map_some, Option.map_none, Option.toList_some, Option.toList_none,
        List.count_nil]
      omega
  · cases hsplit

/-- The share of a popped installation is left with whoever pops it. -/
theorem spare_popTop {c : Chain} {i : InstallationId} (hpop : m.chain.pop? = some (i, c))
    (hfatal : m.control.isFatal = false) :
    ({ m with chain := c } : Machine ω).spare x = m.spare x + [Holding.installation i].count x := by
  obtain ⟨b, hb, heq⟩ := Option.map_eq_some_iff.mp hpop
  obtain ⟨rfl, rfl⟩ := Prod.mk.inj heq
  obtain ⟨a, ha⟩ : ∃ a, m.chain.installations.find? m.chain.top = some a := by
    cases ha : m.chain.installations.find? m.chain.top with
    | none => simp [Chain.get, ha, Installation.bottom] at hb
    | some a => exact ⟨a, rfl⟩
  have hbelow : a.below = some b := by simpa [Chain.get, ha] using hb
  rw [spare_relink (i := m.chain.top) (b := none) ⟨rfl⟩ ha hfatal, hbelow]
  simp only [Option.map_some, Option.map_none, Option.toList_some, Option.toList_none,
    List.count_nil]
  omega

/-- What is put back takes over the share of the segment's top. -/
theorem spare_splice (segment : Segment) (hfatal : m.control.isFatal = false) :
    m.spare x ≤ ({ m with chain := m.chain.splice segment } : Machine ω).spare x +
      [Holding.installation segment.top].count x := by
  cases ha : m.chain.installations.find? segment.lowest with
  | some a =>
    have hrelinks : m.chain.Relinks segment.lowest (some m.chain.top) (m.chain.splice segment) := ⟨rfl⟩
    rw [spare_relink hrelinks ha hfatal]
    simp only [Chain.splice, Option.map_some, Option.toList_some]
    omega
  | none =>
    have hsame : m.chain.splice segment = { m.chain with top := segment.top } := by
      simp [Chain.splice, Chain.modify, Store.modify_of_find?_eq_none _ ha]
    have hholders : ({ m with chain := { m.chain with top := segment.top } } : Machine ω).holders x +
        [Holding.installation m.chain.top].count x =
        m.holders x + [Holding.installation segment.top].count x := by
      simp only [holders, shelved, anchors, hfatal, waiting, List.count_append, Bool.false_eq_true,
        if_false, List.count_cons, List.count_nil]
      omega
    rw [hsame, spare_of_holders hholders (shares_congr rfl rfl x)]
    omega

/-- A new installation holds its handler, and has as many shares as it is made with. -/
theorem spare_create (hwf : m.chain.installations.WellFormed) {a : Installation}
    (hbelow : a.below = none) :
    ({ m with chain := (m.chain.create a).2 } : Machine ω).spare x = m.spare x +
      (a.shares * [Holding.installation m.chain.installations.next].count x -
        [Holding.asset (.cell a.handler)].count x) := by
  have hcount := Store.count_gather_insert Installation.owned m.chain.installations a x
  have hshares : (({ m with chain := (m.chain.create a).2 } : Machine ω).shares x : Int) =
      m.shares x + a.shares * [Holding.installation m.chain.installations.next].count x := by
    cases x with
    | installation j =>
      simp only [shares, Chain.create, Store.sharesOf_insert _ hwf]
      by_cases heq : j = m.chain.installations.next
      · simp [heq]
      · simp [heq, Ne.symm heq]
    | asset o => cases o <;> simp [shares]
    | _ => simp [shares]
  refine spare_of_unshelved ?_ rfl rfl rfl rfl rfl rfl
  simp only [unshelved_eq, hshares]
  simp only [Chain.create, hcount, Installation.owned, hbelow, Option.map_none, Option.toList_none,
    List.nil_append]
  omega

/-! ### Changes of fibers -/

variable {fs : Fibers (List (Activation ω))} {S : List (Activation ω)} {f : FiberId}

/-- What is held by code, when code changes its place. -/
theorem spare_of_code {k k' : Nat} (h : (ownedBy S).count x +
      (ownedBy (fs.resumers.flatMap (·.code))).count x + (fs.parked.gather ownedBy).count x + k =
      (ownedBy m.stack).count x + (ownedBy m.waiting).count x +
        (m.fibers.parked.gather ownedBy).count x + k') :
    ({ m with fibers := fs, stack := S } : Machine ω).spare x = m.spare x + k - k' := by
  have hanchors : ({ m with fibers := fs, stack := S } : Machine ω).anchors = m.anchors := rfl
  have hholders : ({ m with fibers := fs, stack := S } : Machine ω).holders x + k =
      m.holders x + k' := by
    simp only [holders, hanchors]
    simp only [shelved, waiting, List.count_append] at h ⊢
    omega
  exact spare_of_holders hholders (shares_congr rfl rfl x)

/-- The code of a fiber that is resumed goes on the stack, the running code waits. -/
theorem spare_resume {code : List (Activation ω)} (h : m.fibers.resume? f code = some (S, fs)) :
    ({ m with fibers := fs, stack := S } : Machine ω).spare x =
      m.spare x + (ownedBy m.stack).count x - (ownedBy code).count x := by
  obtain ⟨S', hS, heq⟩ := Option.map_eq_some_iff.mp h
  obtain ⟨rfl, rfl⟩ := Prod.mk.inj heq
  refine spare_of_code ?_
  have hcount := Store.count_gather_erase ownedBy hS x
  simp only [List.flatMap_cons, ownedBy, List.flatMap_append, List.count_append, waiting]
  simp only [ownedBy] at hcount
  omega

/-- Code that gets control back goes on the stack. -/
theorem spare_handBack (h : m.fibers.handBack? = some (S, fs)) :
    ({ m with fibers := fs, stack := S } : Machine ω).spare x =
      m.spare x + (ownedBy m.stack).count x := by
  unfold Fibers.handBack? at h
  split at h
  · cases h
  · rename_i r rest hresumers
    obtain ⟨rfl, rfl⟩ := Prod.mk.inj (Option.some.inj h)
    have hcode : ({ m with
        fibers := { m.fibers with current := r.current, resumers := rest }
        stack := r.code } : Machine ω).spare x =
          m.spare x + ((ownedBy m.stack).count x : Nat) - (0 : Nat) := by
      refine spare_of_code ?_
      simp only [waiting, hresumers, List.flatMap_cons, ownedBy, List.flatMap_append,
        List.count_append]
      omega
    simpa using hcode

/-- The running code is parked, and the code that waits for it goes on the stack. -/
theorem spare_suspend (h : m.fibers.suspend? m.stack = some (S, fs)) :
    ({ m with fibers := fs, stack := S } : Machine ω).spare x = m.spare x := by
  obtain ⟨f, -, h⟩ := Option.bind_eq_some_iff.mp h
  unfold Fibers.handBack? at h
  split at h
  · cases h
  · rename_i r rest hresumers
    obtain ⟨rfl, rfl⟩ := Prod.mk.inj (Option.some.inj h)
    have hcode : ({ m with
        fibers := { m.fibers with
          parked := ⟨m.fibers.parked.next, (f, m.stack) :: m.fibers.parked.entries⟩
          current := r.current, resumers := rest }
        stack := r.code } : Machine ω).spare x = m.spare x + (0 : Nat) - (0 : Nat) := by
      refine spare_of_code ?_
      simp only [waiting, show m.fibers.resumers = r :: rest from hresumers, List.flatMap_cons,
        ownedBy, List.flatMap_append, List.count_append, Store.gather]
      omega
    simpa using hcode

end Machine

end EffectHandlers
