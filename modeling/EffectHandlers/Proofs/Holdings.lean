import EffectHandlers.Proofs.Draining
import EffectHandlers.Proofs.History
/-!
# What is held

Everything that code, the chain and the tables of a thread hold, listed once for each holder. A
release takes what it releases off that list and nothing else: what is freed gives what it owned
to the release list.
-/

namespace EffectHandlers

variable {ω : Type} {Γ : Library ω}

/-! ### What the entries of a table own -/

section Gather

variable {α β : Type} {s : Store α} {id : Nat} {a : α}

/-- What the entries of a table own, one after the other. -/
def Store.gather (g : α → List β) (s : Store α) : List β := s.entries.flatMap fun e => g e.2

theorem Store.mem_gather {g : α → List β} {b : β} (h : b ∈ s.gather g) :
    ∃ id a, (id, a) ∈ s.entries ∧ b ∈ g a := by
  obtain ⟨⟨id, a⟩, he, hb⟩ := List.mem_flatMap.mp h
  exact ⟨id, a, he, hb⟩

/-- An erased entry owns nothing any more. -/
theorem Store.count_gather_erase [DecidableEq β] (g : α → List β) (h : s.find? id = some a) (b : β) :
    (s.gather g).count b = (g a).count b + ((s.erase id).gather g).count b := by
  have hperm := ((entries_perm_erase h).flatMap_right fun e => g e.2).count_eq b
  simpa [gather] using hperm

/-- Changes that do not matter to what an entry owns. -/
theorem Store.gather_modify (g : α → List β) (s : Store α) (id : Nat) {f : α → α}
    (hf : ∀ a, g (f a) = g a) : (s.modify id f).gather g = s.gather g := by
  unfold gather modify
  induction s.entries with
  | nil => rfl
  | cons e rest ih =>
    obtain ⟨n, a⟩ := e
    by_cases hn : n = id
    · simp [modifyEntries, hn, hf]
    · simpa [modifyEntries, hn] using ih

/-- The shares of an entry; none when it was erased. -/
def Store.sharesOf (g : α → Nat) (s : Store α) (id : Nat) : Nat := ((s.find? id).map g).getD 0

theorem Store.sharesOf_eq {g : α → Nat} (h : s.find? id = some a) : s.sharesOf g id = g a := by
  simp [sharesOf, h]

theorem Store.sharesOf_eq_zero (g : α → Nat) (h : s.contains id = false) : s.sharesOf g id = 0 := by
  simp only [contains, Option.isSome_eq_false_iff, Option.isNone_iff_eq_none] at h
  simp [sharesOf, h]

theorem Store.sharesOf_erase {g : α → Nat} (hs : s.WellFormed) (h : s.find? id = some a)
    (hlast : g a ≤ 1) (id' : Nat) :
    (s.erase id).sharesOf g id' = s.sharesOf g id' - if id' = id then 1 else 0 := by
  by_cases hid : id' = id
  · subst hid
    simp [sharesOf, find?_erase hs, h]
    omega
  · simp [sharesOf, find?_erase hs, hid]

theorem Store.sharesOf_modify (g : α → Nat) {f : α → α} (hf : ∀ a, g (f a) = g a - 1) (id' : Nat) :
    (s.modify id f).sharesOf g id' = s.sharesOf g id' - if id' = id then 1 else 0 := by
  simp only [sharesOf, find?_modify]
  split
  · cases s.find? id' <;> simp [hf]
  · simp

end Gather

/-- What is released with an installation: the one below goes before the handler. -/
def Installation.owned (a : Installation) : List Holding :=
  (a.below.map Holding.installation).toList ++ [.asset (.cell a.handler)]

/-- What the content of a cell owns. -/
def Shared.owned [Contents ω] (y : Shared ω) : List Holding :=
  (Contents.owned y.content).map .asset

/-- What is released when code is unwound, in order. -/
def ownedBy (S : List (Activation ω)) : List Holding := S.flatMap Activation.owned

/-- What is to be noticed when it is dropped. -/
def Holding.notice? : Holding → Option Notice
  | asset (.notice n) => some n
  | _ => none

/-- The notice of something that was dropped. -/
def Event.notice? : Event → Option Notice
  | guardDropped name => some (.guardDropped name)
  | commandDropped tag => some (.commandDropped tag)
  | handlerDropped name => some (.handlerDropped name)
  | _ => none

theorem Notice.notice?_event (n : Notice) : n.event.notice? = some n := by cases n <;> rfl

namespace Machine

/-- What was dropped so far, newest first. -/
def noticed (m : Machine ω) : List Notice := m.journal.filterMap Event.notice?

/-- The shares of what is counted in shares. -/
def shares (m : Machine ω) : Holding → Nat
  | .asset (.cell c) => m.cells.sharesOf Shared.shares c
  | .installation i => m.chain.installations.sharesOf Installation.shares i
  | _ => 0

/-- Whether something that can be held is there. -/
def has (m : Machine ω) : Holding → Bool
  | .asset o => m.holds o
  | .installation i => m.chain.installations.contains i
  | .fiber f => m.fibers.parked.contains f
  | .exchange e => m.exchanges.contains e

/-- Entries may be gone, and shares. -/
structure Loses (m m' : Machine ω) : Prop where
  stack : m'.stack = m.stack
  control : m'.control = m.control
  pending : m'.pending = m.pending
  statics : m'.statics = m.statics
  top : m'.chain.top = m.chain.top
  current : m'.fibers.current = m.fibers.current
  resumers : m'.fibers.resumers = m.fibers.resumers
  issued : m'.fibers.parked.next = m.fibers.parked.next
  cells : ∀ c y', m'.cells.find? c = some y' →
    ∃ y, m.cells.find? c = some y ∧ y.content = y'.content
  installations : ∀ i a', m'.chain.installations.find? i = some a' →
    ∃ a, m.chain.installations.find? i = some a ∧ a' = { a with shares := a'.shares }
  references : ∀ r i, m'.references.find? r = some i → m.references.find? r = some i
  closures : ∀ f y, m'.closures.find? f = some y → m.closures.find? f = some y
  resumptions : ∀ r k, m'.resumptions.find? r = some k → m.resumptions.find? r = some k
  parked : ∀ f S, m'.fibers.parked.find? f = some S → m.fibers.parked.find? f = some S
  exchanges : ∀ e y, m'.exchanges.find? e = some y → m.exchanges.find? e = some y

theorem Loses.refl (m : Machine ω) : m.Loses m := by
  constructor <;> try exact fun _ _ h => h
  all_goals first
    | rfl
    | exact fun _ y h => ⟨y, h, rfl⟩

theorem Loses.trans {m m' m'' : Machine ω} (h : m.Loses m') (h' : m'.Loses m'') : m.Loses m'' where
  stack := h'.stack.trans h.stack
  control := h'.control.trans h.control
  pending := h'.pending.trans h.pending
  statics := h'.statics.trans h.statics
  top := h'.top.trans h.top
  current := h'.current.trans h.current
  resumers := h'.resumers.trans h.resumers
  issued := h'.issued.trans h.issued
  cells c y'' hy := by
    obtain ⟨y', hy', heq'⟩ := h'.cells c y'' hy
    obtain ⟨y, hy, heq⟩ := h.cells c y' hy'
    exact ⟨y, hy, heq.trans heq'⟩
  installations i a'' ha := by
    obtain ⟨a', ha', heq'⟩ := h'.installations i a'' ha
    obtain ⟨a, ha, heq⟩ := h.installations i a' ha'
    refine ⟨a, ha, heq'.trans ?_⟩
    rw [heq]
  references r i hi := h.references r i (h'.references r i hi)
  closures f y hy := h.closures f y (h'.closures f y hy)
  resumptions r k hk := h.resumptions r k (h'.resumptions r k hk)
  parked f S hS := h.parked f S (h'.parked f S hS)
  exchanges e y hy := h.exchanges e y (h'.exchanges e y hy)

variable [Contents ω]

/-- What something owns that can be held itself. -/
def owns (m : Machine ω) : Holding → List Holding
  | .asset (.cell c) => (m.cells.find? c).elim [] Shared.owned
  | .asset (.reference r) => (m.references.find? r).elim [] fun i => [.installation i]
  | .asset (.closure f) => (m.closures.find? f).elim [] fun y => y.owned.map .asset
  | .asset (.resumption r) => (m.resumptions.find? r).elim [] Cont.owned
  | .asset (.notice _) => []
  | .installation i => (m.chain.installations.find? i).elim [] Installation.owned
  | .fiber f => (m.fibers.parked.find? f).elim [] ownedBy
  | .exchange e => (m.exchanges.find? e).elim [] fun y => y.owned.map .asset

/-- What the entries of all tables own. -/
def shelved (m : Machine ω) : List Holding :=
  m.cells.gather Shared.owned ++ m.chain.installations.gather Installation.owned ++
    m.references.gather (fun i => [.installation i]) ++
    m.closures.gather (fun y => y.owned.map .asset) ++ m.resumptions.gather Cont.owned ++
    m.fibers.parked.gather ownedBy ++ m.exchanges.gather fun y => y.owned.map .asset

/-- What the thread itself holds: its code, the continuations it is to go on with, the top of the
chain, and the statics. -/
def rooted (m : Machine ω) : List Holding :=
  ownedBy (m.stack ++ m.waiting) ++ m.armed.flatMap Cont.owned ++
    [.installation m.chain.top] ++ m.statics.map .asset

/-- Everything that is held. -/
def held (m : Machine ω) : List Holding := m.releasing ++ (m.shelved ++ m.rooted)

/-- What one release gives up and leaves. -/
inductive Gives (m : Machine ω) : Holding → List Holding → Machine ω → Prop
  | nothing {x} (hx : m.has x = false) (hnotice : x.notice? = none) : Gives m x [] m
  | notice (n : Notice) : Gives m (.asset (.notice n)) [] (m.record n.event)
  /-- One of several shares. -/
  | cellShare {c y} (hy : m.cells.find? c = some y) (hshares : ¬ y.shares ≤ 1) :
      Gives m (.asset (.cell c)) []
        { m with cells := m.cells.modify c fun s => { s with shares := s.shares - 1 } }
  | installationShare {i a} (ha : m.chain.installations.find? i = some a)
      (hshares : ¬ a.shares ≤ 1) :
      Gives m (.installation i) []
        { m with chain := m.chain.modify i fun s => { s with shares := s.shares - 1 } }
  | cell {c y} (hy : m.cells.find? c = some y) (hshares : y.shares ≤ 1) :
      Gives m (.asset (.cell c)) y.owned { m with cells := m.cells.erase c }
  | installation {i a} (ha : m.chain.installations.find? i = some a) (hshares : a.shares ≤ 1) :
      Gives m (.installation i) a.owned
        { m with chain := { m.chain with installations := m.chain.installations.erase i } }
  | reference {r i} (hi : m.references.find? r = some i) :
      Gives m (.asset (.reference r)) [.installation i]
        { m with references := m.references.erase r }
  | closure {f y} (hy : m.closures.find? f = some y) :
      Gives m (.asset (.closure f)) (y.owned.map .asset) { m with closures := m.closures.erase f }
  | resumption {r k} (hk : m.resumptions.find? r = some k) :
      Gives m (.asset (.resumption r)) k.owned
        { m with
          resumptions := m.resumptions.erase r
          counters := m.counters.bump .discarded
          journal := .trace (.discarding k.answer) :: m.journal }
  | fiber {f S} (hS : m.fibers.parked.find? f = some S) :
      Gives m (.fiber f) (ownedBy S)
        { m with fibers := { m.fibers with parked := m.fibers.parked.erase f } }
  | exchange {e y} (hy : m.exchanges.find? e = some y) :
      Gives m (.exchange e) (y.owned.map .asset) { m with exchanges := m.exchanges.erase e }

variable {m m' m'' : Machine ω} {x y : Holding} {os xs ys zs hs : List Holding}

/-- Every release is one of these. -/
theorem releaseOne_gives (m : Machine ω) (x : Holding) :
    ∃ os m', m.Gives x os m' ∧ m.releaseOne x = m'.release os := by
  have hnone : ∀ {α : Type} {s : Store α} {id : Nat}, s.find? id = none → s.contains id = false := by
    intro α s id h
    simp [Store.contains, h]
  cases x with
  | asset o =>
    cases o with
    | notice n => exact ⟨_, _, .notice n, rfl⟩
    | cell c =>
      simp only [releaseOne, releaseAsset, releaseCell]
      split
      · exact ⟨_, _, .nothing (hnone ‹_›) rfl, rfl⟩
      · split
        · exact ⟨_, _, .cell ‹_› ‹_›, rfl⟩
        · exact ⟨_, _, .cellShare ‹_› ‹_›, rfl⟩
    | reference r =>
      simp only [releaseOne, releaseAsset]
      split
      · exact ⟨_, _, .nothing (hnone ‹_›) rfl, rfl⟩
      · exact ⟨_, _, .reference ‹_›, rfl⟩
    | closure f =>
      simp only [releaseOne, releaseAsset]
      split
      · exact ⟨_, _, .nothing (hnone ‹_›) rfl, rfl⟩
      · exact ⟨_, _, .closure ‹_›, rfl⟩
    | resumption r =>
      simp only [releaseOne, releaseAsset]
      split
      · exact ⟨_, _, .nothing (hnone ‹_›) rfl, rfl⟩
      · exact ⟨_, _, .resumption ‹_›, rfl⟩
  | installation i =>
    simp only [releaseOne, releaseInstallation]
    split
    · exact ⟨_, _, .nothing (hnone ‹_›) rfl, rfl⟩
    · split
      · exact ⟨_, _, .installation ‹_› ‹_›, rfl⟩
      · exact ⟨_, _, .installationShare ‹_› ‹_›, rfl⟩
  | fiber f =>
    simp only [releaseOne, Fibers.drop?]
    cases hS : m.fibers.parked.find? f with
    | none => exact ⟨_, _, .nothing (hnone hS) rfl, rfl⟩
    | some S => exact ⟨_, _, .fiber hS, rfl⟩
  | exchange e =>
    simp only [releaseOne]
    split
    · exact ⟨_, _, .nothing (hnone ‹_›) rfl, rfl⟩
    · exact ⟨_, _, .exchange ‹_›, rfl⟩

/-- What is given up is given up by the release. -/
theorem Gives.eq (h : m.Gives x os m') : m.releaseOne x = m'.release os := by
  have hnone : ∀ {α : Type} {s : Store α} {id : Nat}, s.contains id = false → s.find? id = none := by
    intro α s id h
    simpa [Store.contains] using h
  cases h with
  | nothing hx hnotice =>
    cases x with
    | asset o =>
      cases o with
      | notice n => cases hnotice
      | cell c => simp [releaseOne, releaseAsset, releaseCell, hnone hx, release]
      | reference r => simp [releaseOne, releaseAsset, hnone hx, release]
      | closure f => simp [releaseOne, releaseAsset, hnone hx, release]
      | resumption r => simp [releaseOne, releaseAsset, hnone hx, release]
    | installation i => simp [releaseOne, releaseInstallation, hnone hx, release]
    | fiber f => simp [releaseOne, Fibers.drop?, hnone hx, release]
    | exchange e => simp [releaseOne, hnone hx, release]
  | notice n => rfl
  | cellShare hs hshares => simp [releaseOne, releaseAsset, releaseCell, hs, hshares, release]
  | installationShare ha hshares => simp [releaseOne, releaseInstallation, ha, hshares, release]
  | cell hs hlast => simp [releaseOne, releaseAsset, releaseCell, hs, hlast, discard, Shared.owned]
  | installation ha hlast =>
    simp [releaseOne, releaseInstallation, ha, hlast, Installation.owned]
  | reference hi => simp [releaseOne, releaseAsset, hi]
  | closure hf => simp [releaseOne, releaseAsset, hf, discard]
  | resumption hk => simp [releaseOne, releaseAsset, hk, bump, trace, record]
  | fiber hS => simp [releaseOne, Fibers.drop?, hS, ownedBy]
  | exchange hx => simp [releaseOne, hx, discard, Exchange.owned]

theorem Gives.releasing (h : m.Gives x os m') : m'.releasing = m.releasing := by cases h <;> rfl

/-- What is given up was owned by what is released. -/
theorem Gives.owns (h : m.Gives x os m') : os = [] ∨ os = m.owns x := by
  cases h with
  | cell hx | installation hx | reference hx | closure hx | resumption hx | fiber hx
  | exchange hx => exact .inr (by simp [Machine.owns, hx])
  | _ => exact .inl rfl

/-- What is freed gives what it owned to the release list, so nothing is lost and nothing doubled. -/
theorem Gives.held (h : m.Gives x os m') : m.held.Perm (m'.release os).held := by
  refine List.perm_iff_count.mpr fun y => ?_
  have hrooted : (m'.release os).rooted = m.rooted := by cases h <;> rfl
  simp only [Machine.held, hrooted, shelved, List.count_append]
  cases h with
  | nothing | notice => rfl
  | @cellShare c s hs =>
    have hsame := Store.gather_modify Shared.owned m.cells c
      (f := fun s => { s with shares := s.shares - 1 }) fun _ => rfl
    simp only [release, hsame, List.nil_append]
  | @installationShare i a ha =>
    have hsame := Store.gather_modify Installation.owned m.chain.installations i
      (f := fun a => { a with shares := a.shares - 1 }) fun _ => rfl
    simp only [release, Chain.modify, hsame, List.nil_append]
  | cell hs =>
    have hcount := Store.count_gather_erase Shared.owned hs y
    simp only [release, List.count_append, hcount]
    omega
  | installation ha =>
    have hcount := Store.count_gather_erase Installation.owned ha y
    simp only [release, List.count_append, hcount]
    omega
  | reference hi =>
    have hcount := Store.count_gather_erase (fun i => [Holding.installation i]) hi y
    simp only [release, List.count_append, hcount]
    omega
  | closure hf =>
    have hcount := Store.count_gather_erase
      (fun f : Closure ω => f.owned.map Holding.asset) hf y
    simp only [release, List.count_append, hcount]
    omega
  | resumption hk =>
    have hcount := Store.count_gather_erase Cont.owned hk y
    simp only [release, List.count_append, hcount]
    omega
  | fiber hS =>
    have hcount := Store.count_gather_erase ownedBy hS y
    simp only [release, List.count_append, hcount]
    omega
  | exchange hx =>
    have hcount := Store.count_gather_erase
      (fun x : Exchange => x.owned.map Holding.asset) hx y
    simp only [release, List.count_append, hcount]
    omega

/-- All tables are well-formed. -/
structure Filed (m : Machine ω) : Prop where
  cells : m.cells.WellFormed
  installations : m.chain.installations.WellFormed
  references : m.references.WellFormed
  closures : m.closures.WellFormed
  resumptions : m.resumptions.WellFormed
  parked : m.fibers.parked.WellFormed
  exchanges : m.exchanges.WellFormed

theorem Gives.filed (h : m.Gives x os m') (hm : m.Filed) : m'.Filed := by
  cases h with
  | nothing | notice => exact { hm with }
  | cellShare => exact { hm with cells := Store.wellFormed_modify hm.cells _ _ }
  | installationShare =>
    exact { hm with installations := Store.wellFormed_modify hm.installations _ _ }
  | cell => exact { hm with cells := Store.wellFormed_erase hm.cells _ }
  | installation => exact { hm with installations := Store.wellFormed_erase hm.installations _ }
  | reference => exact { hm with references := Store.wellFormed_erase hm.references _ }
  | closure => exact { hm with closures := Store.wellFormed_erase hm.closures _ }
  | resumption => exact { hm with resumptions := Store.wellFormed_erase hm.resumptions _ }
  | fiber => exact { hm with parked := Store.wellFormed_erase hm.parked _ }
  | exchange => exact { hm with exchanges := Store.wellFormed_erase hm.exchanges _ }

/-- What is found after something was erased was found before. -/
theorem find?_of_erase {α : Type} {s : Store α} (hs : s.WellFormed) {id id' : Nat} {a : α}
    (h : (s.erase id).find? id' = some a) : s.find? id' = some a := by
  rw [Store.find?_erase hs] at h
  split at h
  · cases h
  · exact h

theorem Gives.loses (h : m.Gives x os m') (hm : m.Filed) : m.Loses (m'.release os) := by
  have hrefl := Loses.refl m
  cases h with
  | nothing | notice => exact { hrefl with }
  | @cellShare c s hs =>
    refine { hrefl with cells := fun c' y' hy => ?_ }
    simp only [release, Store.find?_modify] at hy
    split at hy
    · obtain ⟨y, hfound, rfl⟩ := Option.map_eq_some_iff.mp hy
      exact ⟨y, hfound, rfl⟩
    · exact ⟨y', hy, rfl⟩
  | @installationShare i a ha =>
    refine { hrefl with installations := fun j a' ha => ?_ }
    simp only [release, Chain.modify, Store.find?_modify] at ha
    split at ha
    · obtain ⟨a, hfound, rfl⟩ := Option.map_eq_some_iff.mp ha
      exact ⟨a, hfound, rfl⟩
    · exact ⟨a', ha, rfl⟩
  | cell =>
    exact { hrefl with cells := fun c y hy => ⟨y, find?_of_erase hm.cells hy, rfl⟩ }
  | installation =>
    exact
      { hrefl with
        installations := fun i a ha => ⟨a, find?_of_erase hm.installations ha, rfl⟩ }
  | reference => exact { hrefl with references := fun _ _ => find?_of_erase hm.references }
  | closure => exact { hrefl with closures := fun _ _ => find?_of_erase hm.closures }
  | resumption => exact { hrefl with resumptions := fun _ _ => find?_of_erase hm.resumptions }
  | fiber => exact { hrefl with parked := fun _ _ => find?_of_erase hm.parked }
  | exchange => exact { hrefl with exchanges := fun _ _ => find?_of_erase hm.exchanges }

/-- An erased entry is gone, and no other. -/
theorem contains_erase {α : Type} {s : Store α} (hs : s.WellFormed) (id id' : Nat) :
    (s.erase id).contains id' = (decide (id' ≠ id) && s.contains id') := by
  by_cases h : id' = id <;> simp [Store.contains, Store.find?_erase hs, h]

theorem contains_modify {α : Type} (s : Store α) (id id' : Nat) (f : α → α) :
    (s.modify id f).contains id' = s.contains id' := by
  simp only [Store.contains, Store.find?_modify]
  split <;> simp

/-- Nothing but what is released is freed. -/
theorem Gives.has (h : m.Gives x os m') (hm : m.Filed) (hne : y ≠ x) :
    (m'.release os).has y = m.has y := by
  obtain ⟨hcells, hinstallations, hreferences, hclosures, hresumptions, hparked, hexchanges⟩ := hm
  cases h with
  | nothing | notice => rfl
  | cellShare | installationShare =>
    cases y with
    | asset o => cases o <;> simp [Machine.has, holds, release, contains_modify]
    | _ => simp [Machine.has, release, Chain.modify, contains_modify]
  | _ =>
    cases y with
    | asset o => cases o <;> simp_all [Machine.has, holds, release, contains_erase]
    | _ => simp_all [Machine.has, release, contains_erase]

/-- What is not counted in shares is gone when it was released. -/
theorem Gives.has_self (h : m.Gives x os m') (hm : m.Filed)
    (hx : (∃ r, x = .asset (.reference r)) ∨ (∃ r, x = .asset (.resumption r)) ∨ ∃ f, x = .fiber f) :
    (m'.release os).has x = false := by
  cases h with
  | nothing hnone => exact hnone
  | reference => simp [Machine.has, holds, release, contains_erase hm.references]
  | resumption => simp [Machine.has, holds, release, contains_erase hm.resumptions]
  | fiber => simp [Machine.has, release, contains_erase hm.parked]
  | _ => simp at hx

/-- A release takes one share, of what is counted in shares. -/
theorem Gives.shares (h : m.Gives x os m') (hcells : m.cells.WellFormed)
    (hinstallations : m.chain.installations.WellFormed) (y : Holding) :
    (m'.release os).shares y = m.shares y - if y = x then 1 else 0 := by
  have hsame : ∀ {y : Holding} {n : Nat}, y ≠ x → n = n - if y = x then 1 else 0 := by
    intro y n hy
    simp [hy]
  have hnothing : ∀ {y : Holding}, m.has x = false → (m.has y = false → m.shares y = 0) →
      m.shares y = m.shares y - if y = x then 1 else 0 := by
    intro y hx hzero
    split
    · rw [hzero (by rwa [‹y = x›])]
    · rfl
  match y with
  | .asset (.cell c) =>
    cases h with
    | nothing hx => exact hnothing hx fun h => Store.sharesOf_eq_zero _ h
    | cellShare hs =>
      simpa [Machine.shares, release] using Store.sharesOf_modify Shared.shares (fun _ => rfl) c
    | cell hs hlast =>
      simpa [Machine.shares, release] using Store.sharesOf_erase hcells hs hlast c
    | _ => exact hsame (by simp)
  | .installation i =>
    cases h with
    | nothing hx => exact hnothing hx fun h => Store.sharesOf_eq_zero _ h
    | installationShare ha =>
      simpa [Machine.shares, release, Chain.modify] using
        Store.sharesOf_modify Installation.shares (fun _ => rfl) i
    | installation ha hlast =>
      simpa [Machine.shares, release] using Store.sharesOf_erase hinstallations ha hlast i
    | _ => exact hsame (by simp)
  | .asset (.reference _) | .asset (.closure _) | .asset (.resumption _) | .asset (.notice _)
  | .fiber _ | .exchange _ => exact (Nat.zero_sub _).symm

/-- What is there and had a share still has one. -/
theorem Gives.shares_pos (h : m.Gives x os m') (hm : m.Filed) (hpos : 0 < m.shares y)
    (hy : (m'.release os).has y = true) : 0 < (m'.release os).shares y := by
  rw [h.shares hm.cells hm.installations y]
  split
  · subst y
    cases h with
    | nothing hx => exact absurd (hx.symm.trans hy) (by simp)
    | @cellShare c s hs hmore =>
      simp only [Machine.shares, Store.sharesOf_eq hs]
      omega
    | @installationShare i a ha hmore =>
      simp only [Machine.shares, Store.sharesOf_eq ha]
      omega
    | cell => simp [Machine.has, holds, release, contains_erase hm.cells] at hy
    | installation => simp [Machine.has, release, contains_erase hm.installations] at hy
    | _ => exact absurd hpos (Nat.lt_irrefl 0)
  · exact hpos

/-- The notices of what is released. -/
theorem Gives.noticed (h : m.Gives x os m') :
    (m'.release os).noticed = x.notice?.toList ++ m.noticed := by
  cases h with
  | nothing hx hnotice => simp [release, Machine.noticed, hnotice]
  | notice n => simp [release, Machine.noticed, record, Holding.notice?, n.notice?_event]
  | _ => rfl

/-- Every resumption that is freed is counted. -/
theorem Gives.counted (h : m.Gives x os m') :
    (m'.release os).counters =
        { m.counters with discarded := (m'.release os).counters.discarded } ∧
      (m'.release os).counters.discarded + (m'.release os).resumptions.entries.length =
        m.counters.discarded + m.resumptions.entries.length := by
  cases h with
  | resumption hk =>
    have hlength := (Store.entries_perm_erase hk).length_eq
    simp only [List.length_cons] at hlength
    refine ⟨rfl, ?_⟩
    simp only [release, hlength, Tally.bump, Tally.add]
    omega
  | _ => exact ⟨rfl, rfl⟩

end Machine

end EffectHandlers
