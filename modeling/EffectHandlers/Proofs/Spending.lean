import EffectHandlers.Proofs.Dispatched
import EffectHandlers.Proofs.Holders
import EffectHandlers.Proofs.Moving
/-!
# What can be reached and what is spent

## What can be reached

Whatever a dispatch or a search finds is on the chain. This holds of every chain, also of one with
broken links.
-/

namespace EffectHandlers.Chain

variable {c c' : Chain} {i j : InstallationId} {p : InstallationId → Installation → Bool}
  {command : String} {entry : Nat}

theorem searchFrom_eq_some {n : Nat} (h : c.searchFrom p n i = some j) :
    (c.get j).isBottom = false ∧ p j (c.get j) = true ∧
      c.searchFrom (fun k _ => k == j) n i = some j := by
  induction n generalizing i with
  | zero => cases h
  | succ n ih =>
    simp only [searchFrom] at h ⊢
    split at h
    · cases h
    · rename_i hbottom
      rw [if_neg hbottom]
      split at h
      · rename_i hp
        obtain rfl := Option.some.inj h
        exact ⟨by simpa using hbottom, hp, if_pos (beq_self_eq_true _)⟩
      · obtain ⟨b, hb, h⟩ := Option.bind_eq_some_iff.mp h
        obtain ⟨hj, hpj, hrest⟩ := ih h
        refine ⟨hj, hpj, ?_⟩
        split
        · rename_i hij
          rw [eq_of_beq hij]
        · rw [hb]
          exact hrest

/-- What a search finds is on the chain. -/
theorem isLive_of_search? (h : c.search? p = some i) : c.isLive i := by
  simp [isLive, search?, (searchFrom_eq_some h).2.2]

theorem contains_of_isLive (h : c.isLive i) : c.installations.contains i := by
  obtain ⟨j, hj⟩ := Option.isSome_iff_exists.mp h
  obtain ⟨hbottom, heq, -⟩ := searchFrom_eq_some hj
  obtain rfl : j = i := eq_of_beq heq
  by_contra hnone
  have hgone : c.installations.find? j = none := by simpa [Store.contains] using hnone
  simp [get, hgone, Installation.bottom, Installation.isBottom] at hbottom

theorem isLive_of_findCommand? (h : c.findCommand? command = some (i, entry)) : c.isLive i := by
  simp only [findCommand?, Option.bind_eq_bind, Option.bind_eq_some_iff] at h
  obtain ⟨j, hj, found, -, heq⟩ := h
  obtain ⟨rfl, rfl⟩ : j = i ∧ found = entry := by simpa using heq
  exact isLive_of_search? hj

theorem isLive_of_findLabel? {label : Int} (h : c.findLabel? label = some i) : c.isLive i := by
  unfold findLabel? at h
  split at h
  · cases h
  · exact isLive_of_search? h

theorem isLive_of_locateLabel {label : Int} (h : c.locateLabel label command = .ok i) :
    c.isLive i := by
  unfold locateLabel at h
  split at h
  · rename_i found hfound
    obtain rfl : found = i := by simpa using h
    exact isLive_of_findLabel? hfound
  · cases h

theorem isLive_of_locateReference (h : c.locateReference i = .ok j) : j = i ∧ c.isLive i := by
  unfold locateReference at h
  split at h
  · rename_i hinstalled
    obtain rfl : i = j := by simpa using h
    simp only [isInstalled, Bool.and_eq_true] at hinstalled
    exact ⟨rfl, hinstalled.2⟩
  · cases h

/-- A command goes to an installation that is on the chain. -/
theorem isLive_of_dispatch {referent : ReferenceId → InstallationId} {target : Target}
    (h : c.dispatch referent command target = .ok (i, entry)) : c.isLive i := by
  cases target with
  | innermost =>
    simp only [dispatch] at h
    split at h
    · rename_i found hfound
      obtain rfl : found = (i, entry) := by simpa using h
      exact isLive_of_findCommand? hfound
    · cases h
  | labelled label =>
    obtain ⟨j, hj, hpos⟩ := Except.bind_eq_ok.mp h
    obtain ⟨rfl, -⟩ := clausePosition_eq_ok hpos
    exact isLive_of_locateLabel hj
  | reference r =>
    obtain ⟨j, hj, hpos⟩ := Except.bind_eq_ok.mp h
    obtain ⟨rfl, -⟩ := clausePosition_eq_ok hpos
    obtain ⟨rfl, hlive⟩ := isLive_of_locateReference hj
    exact hlive
  | ofType handlerType =>
    simp only [dispatch] at h
    split at h
    · rename_i found hfound
      obtain ⟨rfl, -⟩ := clausePosition_eq_ok h
      exact isLive_of_search? hfound
    · cases h
  | labelledOfType handlerType label =>
    obtain ⟨j, hj, hrest⟩ := Except.bind_eq_ok.mp h
    obtain ⟨j', hj', hpos⟩ := Except.bind_eq_ok.mp hrest
    obtain ⟨rfl, -⟩ := clausePosition_eq_ok hpos
    obtain rfl := expectType_eq_ok hj'
    exact isLive_of_locateLabel hj
  | referenceOfType handlerType r =>
    obtain ⟨j, hj, hrest⟩ := Except.bind_eq_ok.mp h
    obtain ⟨j', hj', hpos⟩ := Except.bind_eq_ok.mp hrest
    obtain ⟨rfl, -⟩ := clausePosition_eq_ok hpos
    obtain rfl := expectType_eq_ok hj'
    obtain ⟨rfl, hlive⟩ := isLive_of_locateReference hj
    exact hlive

theorem isLive_of_locate {search : Search} (h : c.locate search = .ok i) : c.isLive i := by
  cases search with
  | command name =>
    simp only [locate] at h
    split at h
    · rename_i found entry hfound
      obtain rfl : found = i := by simpa using h
      exact isLive_of_findCommand? hfound
    · cases h
  | label label =>
    simp only [locate] at h
    split at h
    · rename_i found hfound
      obtain rfl : found = i := by simpa using h
      exact isLive_of_findLabel? hfound
    · cases h

theorem isLive_of_split {s : Segment} (h : c.split i = .ok (s, c')) : c.isLive i := by
  unfold split at h
  split at h
  · assumption
  · cases h

/-! ### Chains that lose installations -/

/-- Installations may be gone, and shares. -/
structure Fades (c c' : Chain) : Prop where
  top : c'.top = c.top
  next : c'.installations.next = c.installations.next
  links : ∀ i a', c'.installations.find? i = some a' →
    ∃ a, c.installations.find? i = some a ∧ (a'.label, a'.below) = (a.label, a.below)

/-- What can still be reached could be reached before. -/
theorem Fades.isLive (h : c.Fades c') (hi : c'.isLive i) : c.isLive i := by
  obtain ⟨j, hj⟩ := Option.isSome_iff_exists.mp hi
  obtain rfl : j = i := eq_of_beq (searchFrom_eq_some hj).2.1
  refine isLive_of_search? (p := fun n _ => n == j) (i := j) ?_
  unfold search? at hj ⊢
  rw [h.next, h.top] at hj
  generalize c.installations.next = n at hj
  generalize c.top = top at hj
  induction n generalizing top with
  | zero => cases hj
  | succ n ih =>
    simp only [searchFrom] at hj ⊢
    split at hj
    · cases hj
    · rename_i hbottom
      -- the installation is still there
      cases ha' : c'.installations.find? top with
      | none =>
        simp [get, ha', Installation.bottom, Installation.isBottom] at hbottom
      | some a' =>
        obtain ⟨a, ha, heq⟩ := h.links top a' ha'
        obtain ⟨hlabel, hbelow⟩ := Prod.mk.inj heq
        have hget : (c'.get top).label = (c.get top).label ∧
            (c'.get top).below = (c.get top).below := by
          simp [get, ha, ha', hlabel, hbelow]
        have hsame : (c.get top).isBottom = (c'.get top).isBottom := by
          simp only [Installation.isBottom, hget.1, hget.2]
        rw [hsame, if_neg hbottom]
        split at hj
        · rename_i htop
          rw [if_pos htop]
          exact hj
        · rename_i htop
          rw [if_neg htop, ← hget.2]
          obtain ⟨b, hb, hj⟩ := Option.bind_eq_some_iff.mp hj
          rw [hb]
          exact ih b hj

end EffectHandlers.Chain

/-!
## What running code spends

The shares that an operation takes over from the code that evaluates it. No other step needs a
share that was with the running code.
-/

namespace EffectHandlers

variable {ω : Type} {Γ : Library ω}

/-! ### What control holds -/

namespace Machine

theorem load_eval (c : Comp ω) (x : Holding) : (Control.eval c).load x = 0 := rfl
theorem load_fault (f : Fault) (x : Holding) : (Control.fault f : Control ω).load x = 0 := rfl
theorem load_unwind (message : String) (x : Holding) :
    (Control.unwind message : Control ω).load x = 0 := rfl
theorem load_wake (x : Holding) : (Control.wake : Control ω).load x = 0 := rfl
theorem load_request (r : Request) (x : Holding) : (Control.request r : Control ω).load x = 0 := rfl
theorem load_ret (v : Value) (x : Holding) :
    (Control.ret v : Control ω).load x = (v.owned.map Holding.asset).count x := Nat.zero_add _
theorem load_settle (answer : String) (v : Value) (x : Holding) :
    (Control.settle answer v : Control ω).load x = (v.owned.map Holding.asset).count x :=
  Nat.zero_add _
theorem load_deliver_done (v : Value) (x : Holding) :
    (Control.deliver (.done v) : Control ω).load x = (v.owned.map Holding.asset).count x :=
  Nat.zero_add _
theorem load_deliver_tail (k : Cont ω) (x : Holding) :
    (Control.deliver (.tail k) : Control ω).load x = k.owned.count x := by
  simp [Control.load, Control.conts, Control.carried]

end Machine

variable [Contents ω]

/-- What the first operation of a computation takes over. -/
def Comp.spends : Comp ω → List Owned
  | done v => v.owned
  | alloc content _ | write _ content _ => Contents.owned content
  | release os _ | scope os _ _ | closure os _ _ => os
  | handle i _ _ => i.owned ++ [.cell i.handler]
  | invoke _ command _ => command.owned
  | resume _ v _ | tailResume _ v _ => v.owned
  | _ => []

namespace Machine

/-- The fiber and the exchange that were made between two states, if there is one. -/
def brings (m m' : Machine ω) : List Holding :=
  (if m.fibers.parked.next < m'.fibers.parked.next then [.fiber m.fibers.parked.next] else []) ++
    if m.exchanges.next < m'.exchanges.next then [.exchange m.exchanges.next] else []

/-- What the first operation of a computation gives back: the content of a cell that is written. -/
def regains (m : Machine ω) : Comp ω → List Owned
  | .write c .. => ((m.cells.find? c).map fun y => Contents.owned y.content).getD []
  | _ => []

variable {m m' m'' : Machine ω} {x : Holding}

omit [Contents ω] in
/-- Neither is counted in shares. -/
theorem count_brings (m m' : Machine ω) (hx : x.Counted) : (m.brings m').count x = 0 := by
  refine List.count_eq_zero.mpr fun hmem => ?_
  rcases List.mem_append.mp hmem with hmem | hmem <;> split at hmem <;> cases hx <;> simp at hmem

omit [Contents ω] in
theorem count_brings_fiber (h : m.fibers.parked.next < m'.fibers.parked.next) :
    [Holding.fiber m.fibers.parked.next].count x ≤ (m.brings m').count x := by
  rw [brings, if_pos h, List.count_append]
  omega

omit [Contents ω] in
theorem count_brings_exchange (h : m.exchanges.next < m'.exchanges.next) :
    [Holding.exchange m.exchanges.next].count x ≤ (m.brings m').count x := by
  rw [brings, if_pos h, List.count_append]
  omega

/-- What is held as often as it has shares, or less often, is there. -/
theorem contains_of_spare {i : InstallationId} (h : 0 ≤ m.spare (.installation i))
    (hheld : 0 < m.holders (.installation i)) : m.chain.installations.contains i := by
  by_contra hnone
  have hzero : m.shares (.installation i) = 0 :=
    Store.sharesOf_eq_zero _ (by simpa using hnone)
  simp only [spare, hzero] at h
  omega

theorem contains_cell_of_spare {c : CellId} (h : 0 ≤ m.spare (.asset (.cell c)))
    (hheld : 0 < m.holders (.asset (.cell c))) : m.cells.contains c := by
  by_contra hnone
  have hzero : m.shares (.asset (.cell c)) = 0 :=
    Store.sharesOf_eq_zero _ (by simpa using hnone)
  simp only [spare, hzero] at h
  omega

/-! ### Releases -/

/-- A release takes a share at most of what it releases, and what is freed is released in turn. -/
theorem spare_releaseOne (hcells : m.cells.WellFormed)
    (hinstallations : m.chain.installations.WellFormed) {y : Holding} {hs : List Holding}
    (h : m.releasing = y :: hs) :
    m.spare x ≤ (({ m with releasing := hs } : Machine ω).releaseOne y).spare x := by
  obtain ⟨os, m', hgives, heq⟩ := releaseOne_gives ({ m with releasing := hs } : Machine ω) y
  rw [heq]
  have hshares := hgives.shares hcells hinstallations x
  have hheld := hgives.held.count_eq x
  have hrooted : (m'.release os).rooted = m.rooted := by cases hgives <;> rfl
  have hothers : (m'.release os).stack = m.stack ∧ (m'.release os).waiting = m.waiting ∧
      (m'.release os).pending = m.pending ∧ (m'.release os).control = m.control ∧
        (m'.release os).anchors = m.anchors := by
    cases hgives <;> exact ⟨rfl, rfl, rfl, rfl, rfl⟩
  obtain ⟨hstack, hwaiting, hpending, hcontrol, hanchors⟩ := hothers
  have hsame : ({ m with releasing := hs } : Machine ω).shares x = m.shares x :=
    shares_congr rfl rfl x
  have hless : hs.count x + m.shelved.count x = (m'.release os).releasing.count x +
      (m'.release os).shelved.count x := by
    simp only [Machine.held, List.count_append, hrooted] at hheld
    have hrooted' : ({ m with releasing := hs } : Machine ω).rooted = m.rooted := rfl
    have hshelved' : ({ m with releasing := hs } : Machine ω).shelved = m.shelved := rfl
    rw [hrooted', hshelved'] at hheld
    omega
  rw [hsame] at hshares
  simp only [spare, holders, hstack, hwaiting, hpending, hcontrol, hanchors, h, hshares,
    List.count_cons]
  have hbeq : (y == x) = decide (x = y) := by
    simp only [beq_eq_decide, eq_comm]
  simp only [hbeq, decide_eq_true_eq]
  split <;> omega

/-! ### Installing -/

theorem spare_nextLabel (m : Machine ω) (nextLabel : Int) :
    ({ m with chain := { m.chain with nextLabel } } : Machine ω).spare x = m.spare x :=
  spare_congr rfl

/-- A new installation on top: its shares are those of the chain, of whoever else is to hold it,
and of nobody. -/
theorem spare_createPush (hwf : m.chain.installations.WellFormed) {a : Installation}
    (hbelow : a.below = none) (hfatal : m.control.isFatal = false) :
    m.spare x + (a.shares * [Holding.installation m.chain.installations.next].count x -
        [Holding.asset (.cell a.handler)].count x) ≤
      ({ m with chain := (m.chain.create a).2.push m.chain.installations.next } : Machine ω).spare x +
        [Holding.installation m.chain.installations.next].count x := by
  have hcreate := spare_create (x := x) hwf hbelow
  have hsplice := spare_splice (x := x) (m := { m with chain := (m.chain.create a).2 })
    ⟨m.chain.installations.next, m.chain.installations.next⟩ hfatal
  rw [← hcreate]
  exact hsplice

theorem spare_install (hwf : m.chain.installations.WellFormed) (hfatal : m.control.isFatal = false)
    (hx : x ≠ .asset (.reference m.references.next)) (i : Installing)
    (body : ReferenceId → Comp ω) :
    m.spare x + m.control.load x ≤ (m.install Γ i body).spare x +
      (((i.owned ++ [Owned.cell i.handler]).map Holding.asset).count x +
        (m.brings (m.install Γ i body)).count x) := by
  obtain ⟨nextLabel, declared, pool, counters, journal, h⟩ := exists_install_eq (Γ := Γ) m i body
  rcases h with ⟨f, h⟩ | h | ⟨label, -, h⟩
  · have hgoOn := spare_goOn (x := x) m (.fault f) hfatal rfl
    have hsame : (m.install Γ i body).spare x = (m.goOn (.fault f)).spare x :=
      h ▸ spare_congr rfl
    rw [hsame, hgoOn, load_fault]
    omega
  · have hreleased := spare_release (x := x) m
      ((i.owned ++ [Owned.cell i.handler]).map Holding.asset)
    have hgoOn := spare_goOn (x := x) (m.release
      ((i.owned ++ [Owned.cell i.handler]).map Holding.asset)) (.unwind StackPool.sizeOverflow)
      hfatal rfl
    have hsame : (m.install Γ i body).spare x = ((m.release
        ((i.owned ++ [Owned.cell i.handler]).map Holding.asset)).goOn
          (.unwind StackPool.sizeOverflow)).spare x := h ▸ spare_congr rfl
    have hcontrol : (m.release ((i.owned ++ [Owned.cell i.handler]).map Holding.asset)).control =
      m.control := rfl
    rw [hsame, hgoOn, hreleased, hcontrol, load_unwind]
    omega
  · let id := m.chain.installations.next
    let code : List (Activation ω) :=
      [.start (body m.references.next), .owning (i.owned ++ [.reference m.references.next])]
    let m₁ : Machine ω := { m with chain := { m.chain with nextLabel } }
    let m₂ : Machine ω :=
      { m₁ with chain := (m₁.chain.create (i.installation Γ label)).2.push id }
    let m₃ : Machine ω := { m₂ with references := (m₂.references.insert id).2 }
    let m₄ : Machine ω := { m₃ with fibers := m.fibersInstalled, stack := code }
    have h₁ : m₁.spare x = m.spare x := spare_nextLabel m nextLabel
    have h₂ := spare_createPush (x := x) (m := m₁) (a := i.installation Γ label) hwf rfl hfatal
    have h₃ : m₃.spare x = m₂.spare x + _ := spare_reference_insert m₂ id
    have hcode : (ownedBy code).count x = ((i.owned).map Holding.asset).count x := by
      simp [code, ownedBy, Activation.owned, Ne.symm hx]
    have h₄ : m₄.spare x = m₃.spare x + ((0 : Nat) : Int) -
        ((i.owned.map Holding.asset).count x + ([Holding.installation id].count x +
          [Holding.fiber m.fibers.parked.next].count x) : Nat) := by
      refine spare_of_code ?_
      simp only [fibersInstalled, List.flatMap_cons, ownedBy, List.flatMap_append,
        List.count_append, Activation.owned, Store.gather] at hcode ⊢
      simp only [List.count_cons, List.count_nil]
      change _ = (m.stack.flatMap Activation.owned).count x +
        ((m.fibers.resumers.flatMap (·.code)).flatMap Activation.owned).count x +
        (m.fibers.parked.entries.flatMap fun e => e.2.flatMap Activation.owned).count x + _
      have hid : id = m.chain.installations.next := rfl
      rw [hid]
      omega
    have h₅ : (m₄.goOn .wake).spare x = _ := spare_goOn m₄ .wake hfatal rfl
    have hsame : (m.install Γ i body).spare x = (m₄.goOn .wake).spare x := h ▸ spare_congr rfl
    have hcontrol : m₄.control = m.control := rfl
    rw [hsame, h₅, hcontrol, load_wake, h₄, h₃]
    have hshares : (i.installation Γ label).shares = 3 := rfl
    have hhandler : (i.installation Γ label).handler = i.handler := rfl
    rw [h₁, hshares, hhandler] at h₂
    simp only [List.map_append, List.map_cons, List.map_nil, List.count_append]
    have hm₂ : m₂ = { m₁ with chain :=
      (m₁.chain.create (i.installation Γ label)).2.push m₁.chain.installations.next } := rfl
    rw [hm₂]
    have hid : id = m₁.chain.installations.next := rfl
    have hbrings : [Holding.fiber m.fibers.parked.next].count x ≤
        (m.brings (m.install Γ i body)).count x :=
      count_brings_fiber (by rw [h]; exact Nat.lt_succ_self _)
    rw [hid]
    omega

/-! ### Switching and sending -/

/-- The driver of a fiber holds it, and a share of its installation. -/
theorem spare_enter (hfatal : m.control.isFatal = false) (i : InstallationId) (f : FiberId) :
    m.spare x + m.control.load x ≤
      (m.enter i f).spare x + [Holding.fiber f, .installation i].count x := by
  unfold enter
  split
  · rename_i S fs hresume
    have hswitched := spare_resume (x := x) hresume
    have hgoOn : (({ m with fibers := fs, stack := S } : Machine ω).goOn .wake).spare x = _ :=
      spare_goOn _ .wake hfatal rfl
    have hcode : (ownedBy (.driving i f :: m.stack)).count x =
        [Holding.fiber f, .installation i].count x + (ownedBy m.stack).count x :=
      List.count_append
    have hcontrol : ({ m with fibers := fs, stack := S } : Machine ω).control = m.control := rfl
    rw [hswitched, hcode, hcontrol, load_wake] at hgoOn
    have hsame : ({ m with fibers := fs, stack := S, control := .wake } : Machine ω) =
      ({ m with fibers := fs, stack := S } : Machine ω).goOn .wake := rfl
    rw [hsame, hgoOn]
    omega
  · rw [spare_goOn _ _ hfatal rfl, load_fault]
    omega

omit [Contents ω] in
theorem count_cons (y : Holding) (hs : List Holding) :
    (y :: hs).count x = [y].count x + hs.count x := @List.count_append _ _ _ [y] hs

/-- The invocation holds its exchange, and a share of its own of the installation. -/
theorem spare_send (hfatal : m.control.isFatal = false) (hload : m.control.load x = 0)
    {i : InstallationId} (hi : m.chain.isLive i) (position : Nat) (command : Command)
    (hmodifier : ((m.chain.get i).clauses[position]?).map ClauseEntry.modifier ≠ some .plain) :
    m.spare x ≤ (m.send Γ i position command).spare x +
      ((command.owned.map Holding.asset).count x +
        (m.brings (m.send Γ i position command)).count x) := by
  let m₁ : Machine ω := m.hold i
  let m₂ : Machine ω :=
    { m₁ with exchanges := (m₁.exchanges.insert { command := some command }).2 }
  obtain ⟨modifier, r, hsame, hissued⟩ : ∃ modifier r, (m.send Γ i position command).spare x =
      ((m₂.push (.sending i m.exchanges.next modifier command.name)).goOn (.request r)).spare x ∧
        m.exchanges.next < (m.send Γ i position command).exchanges.next := by
    unfold send
    simp only
    exact ⟨_, _, spare_congr rfl, Nat.lt_succ_self _⟩
  have hbrings := count_brings_exchange (x := x) (m := m) hissued
  have h₁ : m₁.spare x = m.spare x + _ := spare_hold (Chain.contains_of_isLive hi)
  have h₂ : m₂.spare x = m₁.spare x + _ := spare_exchange_insert m₁ { command := some command }
  let m₃ : Machine ω := m₂.push (.sending i m.exchanges.next modifier command.name)
  have h₃ : m₃.spare x = m₂.spare x - _ := spare_push m₂ _
  have h₄ : (m₃.goOn (.request r)).spare x = _ := spare_goOn m₃ _ hfatal rfl
  have howned : ({ command := some command } : Exchange).owned = command.owned := by
    simp [Exchange.owned]
  have hcontrol : m₃.control.load x = 0 := hload
  simp only [Activation.owned, count_cons (.exchange m.exchanges.next) [.installation i], howned,
    hcontrol, load_request] at h₂ h₃ h₄
  rw [hsame]
  change m.spare x ≤ (m₃.goOn (.request r)).spare x + _
  omega

omit [Contents ω] in
theorem contains_of_split {c c' : Chain} {i j : InstallationId} {s : Segment}
    (h : c.split i = .ok (s, c')) : c'.installations.contains j = c.installations.contains j := by
  unfold Chain.split at h
  split at h
  · split at h
    · cases h
    · obtain ⟨-, rfl⟩ := Prod.mk.inj (Except.ok.inj h)
      exact contains_modify _ _ _ _
  · cases h

/-- The shares of a handler that is held go on to a plain clause. -/
theorem spare_retain_handler (hspare : x.Counted → 0 ≤ m.spare x) {i : InstallationId} {a : Installation}
    (ha : m.chain.installations.find? i = some a) :
    (m.retain (.cell a.handler)).spare x =
      m.spare x + [Holding.asset (.cell a.handler)].count x := by
  rw [spare_retain]
  split
  · rfl
  · rename_i hgone
    by_cases hx : x = .asset (.cell a.handler)
    · -- the installation holds its handler
      subst hx
      refine absurd (contains_cell_of_spare (hspare (.cell _)) ?_) hgone
      have hmem : Holding.asset (.cell a.handler) ∈ m.shelved := by
        simp only [shelved, List.mem_append]
        refine .inl (.inl (.inl (.inl (.inl (.inr ?_)))))
        exact List.mem_flatMap.mpr ⟨_, Store.mem_of_find? ha, by simp [Installation.owned]⟩
      have := List.count_pos_iff.mpr hmem
      simp only [holders]
      omega
    · simp [Ne.symm hx]

/-- A plain clause holds the handler and its installation, and what it hides. -/
theorem spare_sendInPlace (hfatal : m.control.isFatal = false) (hload : m.control.load x = 0)
    (hspare : x.Counted → 0 ≤ m.spare x) {i : InstallationId} (hi : m.chain.isLive i)
    (position : Nat) (command : Command) :
    m.spare x ≤ (m.sendInPlace Γ i position command).spare x +
      ((command.owned.map Holding.asset).count x +
        (m.brings (m.sendInPlace Γ i position command)).count x) := by
  have hcontains := Chain.contains_of_isLive hi
  obtain ⟨a, ha⟩ := Option.isSome_iff_exists.mp hcontains
  have hhandler : (m.chain.get i).handler = a.handler := by simp [Chain.get, ha]
  let m₁ : Machine ω := m.retain (.cell (m.chain.get i).handler)
  let m₂ : Machine ω := m₁.hold i
  have h₁ : m₁.spare x = m.spare x + [Holding.asset (.cell (m.chain.get i).handler)].count x := by
    have hretained := spare_retain_handler hspare ha
    rwa [← hhandler] at hretained
  have h₂ : m₂.spare x = m₁.spare x + [Holding.installation i].count x := spare_hold hcontains
  rcases sendInPlace_cases (Γ := Γ) m i position command with
    ⟨text, h⟩ | ⟨run, -, h⟩ | ⟨run, hidden, c', -, hsplit, h⟩
  · rw [h, spare_goOn _ _ hfatal rfl, load_fault, hload]
    omega
  · have hissued : m.exchanges.next < (m.sendInPlace Γ i position command).exchanges.next := by
      rw [h]
      exact Nat.lt_succ_self _
    have hbrings := count_brings_exchange (x := x) hissued
    let m₃ : Machine ω :=
      { m₂ with exchanges := (m₂.exchanges.insert { command := some command }).2 }
    let m₄ : Machine ω := m₃.release [.exchange m.exchanges.next,
      .asset (.cell (m.chain.get i).handler), .installation i]
    have h₃ : m₃.spare x = m₂.spare x + _ := spare_exchange_insert m₂ { command := some command }
    have h₄ : m₄.spare x = m₃.spare x - _ := spare_release m₃ _
    have h₅ : (m₄.goOn (.unwind splitFailed)).spare x = _ := spare_goOn m₄ _ hfatal rfl
    have howned : ({ command := some command } : Exchange).owned = command.owned := by
      simp [Exchange.owned]
    have hcontrol : m₄.control.load x = 0 := hload
    rw [howned] at h₃
    rw [hcontrol, load_unwind] at h₅
    have hsame : (m.sendInPlace Γ i position command).spare x =
      (m₄.goOn (.unwind splitFailed)).spare x := h ▸ spare_congr rfl
    simp only [List.count_cons, List.count_nil] at hbrings h₁ h₂ h₃ h₄ ⊢
    omega
  · have hissued : m.exchanges.next < (m.sendInPlace Γ i position command).exchanges.next := by
      rw [h]
      exact Nat.lt_succ_self _
    have hbrings := count_brings_exchange (x := x) hissued
    let m₃ : Machine ω := { m₂ with chain := c' }
    let m₄ : Machine ω := m₃.hold i
    let m₅ : Machine ω := { m₄ with exchanges := (m₄.exchanges.insert { command := none }).2 }
    let m₆ : Machine ω := m₅.push (.inPlace i (m.chain.get i).handler hidden m.exchanges.next)
    let m₇ : Machine ω := m₆.push (.owning command.owned)
    obtain ⟨hhidden, hcut⟩ := spare_split (x := x) (m := m₂) hsplit hfatal
    have h₃ : m₃.spare x = m₂.spare x + [Holding.installation hidden.top].count x := hcut
    have hstill : c'.installations.contains i := by
      rw [contains_of_split hsplit]
      exact (contains_modify _ _ _ _).trans hcontains
    have h₄ : m₄.spare x = m₃.spare x + [Holding.installation i].count x := spare_hold hstill
    have h₅ : m₅.spare x = m₄.spare x + _ := spare_exchange_insert m₄ { command := none }
    have h₆ : m₆.spare x = m₅.spare x - _ := spare_push m₅ _
    have h₇ : m₇.spare x = m₆.spare x - _ := spare_push m₆ _
    let c : Comp ω := run (m.chain.get i).handler command.payload
    have h₈ : (m₇.goOn (.eval c)).spare x = _ := spare_goOn m₇ _ hfatal rfl
    have hsame : (m.sendInPlace Γ i position command).spare x = (m₇.goOn (.eval c)).spare x :=
      h ▸ spare_congr rfl
    have hcontrol : m₇.control.load x = 0 := hload
    rw [hcontrol, load_eval] at h₈
    have hlowest : hidden.lowest = i := by rw [hhidden]
    simp only [Activation.owned, Segment.owned, List.cons_append, List.nil_append,
      List.count_cons, List.count_nil, hlowest] at hbrings h₁ h₂ h₃ h₄ h₆ h₇ ⊢
    have howned : (({ command := none } : Exchange).owned.map Holding.asset).count x = 0 := rfl
    rw [howned] at h₅
    omega

/-! ### Capturing and returning -/

/-- Changes of an installation that matter neither to its shares nor to what it holds. -/
theorem spare_modify (m : Machine ω) (i : InstallationId) {f : Installation → Installation}
    (hf : ∀ a, (f a).owned = a.owned ∧ (f a).shares = a.shares) :
    ({ m with chain := m.chain.modify i f } : Machine ω).spare x = m.spare x := by
  have hsame := Store.gather_modify Installation.owned m.chain.installations i fun a => (hf a).1
  have hshares : ({ m with chain := m.chain.modify i f } : Machine ω).shares x = m.shares x := by
    cases x with
    | installation j =>
      exact Store.sharesOf_modify_congr Installation.shares f (fun a => (hf a).2) i j
    | asset o => cases o <;> rfl
    | _ => rfl
  have hunshelved : ({ m with chain := m.chain.modify i f } : Machine ω).unshelved x =
      m.unshelved x + 0 := by
    simp only [unshelved_eq, hshares]
    simp only [Chain.modify, hsame]
    omega
  have hspare := spare_of_unshelved hunshelved rfl rfl rfl rfl rfl rfl
  omega

/-- A capture takes over what the driver holds. The clause may hold a new resumption. -/
theorem spare_capture (hfatal : m.control.isFatal = false) (hload : m.control.load x = 0)
    (i : InstallationId) (f : FiberId) (r : Request) :
    m.spare x ≤ (m.capture Γ i f r).spare x + ([Holding.fiber f, .installation i].count x +
      [Holding.asset (.resumption m.resumptions.next)].count x) := by
  rcases capture_cases (Γ := Γ) m i f r with
    ⟨text, h⟩ | h | ⟨code, segment, c', -, hsplit, h⟩
  · rw [h, spare_goOn _ _ hfatal rfl, load_fault, hload]
    omega
  · have hrelease := spare_release (x := x) m [.fiber f, .installation i]
    have hgoOn : ((m.release [.fiber f, .installation i]).goOn (.unwind splitFailed)).spare x = _ :=
      spare_goOn _ _ hfatal rfl
    have hcontrol : (m.release [.fiber f, .installation i]).control.load x = 0 := hload
    rw [hcontrol, load_unwind] at hgoOn
    rw [h]
    omega
  · let m₁ : Machine ω := { m with chain := c' }
    let m₂ : Machine ω := m₁.hold i
    obtain ⟨hsegment, hcut⟩ := spare_split (x := x) hsplit hfatal
    have h₁ : m₁.spare x = m.spare x + [Holding.installation segment.top].count x := hcut
    have hstill : c'.installations.contains i := by
      rw [contains_of_split hsplit]
      exact Chain.contains_of_isLive (Chain.isLive_of_split hsplit)
    have h₂ : m₂.spare x = m₁.spare x + [Holding.installation i].count x := spare_hold hstill
    let given : List Holding := if (code.keeps i).isSome then [] else [.installation i]
    have hgiven : given.count x + ((code.keeps i).map Holding.installation).toList.count x =
        [Holding.installation i].count x := by
      cases code <;> simp [given, ClauseCode.keeps]
    let m₃ : Machine ω := m₂.release given
    have h₃ : m₃.spare x = m₂.spare x - given.count x := spare_release m₂ given
    rcases h with ⟨counters, journal, h⟩ | ⟨y, command, counters, journal, hy, hcommand, h⟩
    · have hsame : (m.capture Γ i f r).spare x =
          (m₃.goOn (.fault (deliveredTwice r.command))).spare x := h ▸ spare_congr rfl
      have hgoOn : (m₃.goOn (.fault (deliveredTwice r.command))).spare x = _ :=
        spare_goOn m₃ _ hfatal rfl
      have hcontrol : m₃.control.load x = 0 := hload
      rw [hcontrol, load_fault] at hgoOn
      omega
    · let answer := (Γ.handlerType (m.chain.get i).handlerType).answer
      let m₄ : Machine ω := { m₃ with
        exchanges := m₃.exchanges.modify r.exchange fun x => { x with command := none } }
      have h₄ : m₄.spare x = m₃.spare x + _ := spare_exchange_modify _ hy
      have hexchange : ((y.owned.map Holding.asset).count x : Int) -
          (({ y with command := none } : Exchange).owned.map Holding.asset).count x =
            (command.owned.map Holding.asset).count x := by
        simp only [Exchange.owned, hcommand, Option.map_some, Option.getD_some, Option.map_none,
          Option.getD_none, List.nil_append, List.map_append, List.count_append]
        omega
      -- the segment goes to the continuation, or it is released
      let m₅ : Machine ω := if code.takes then { m₄ with
          resumptions := (m₄.resumptions.insert (.captured answer f segment r.exchange)).2 }
        else m₄.release (.fiber f :: segment.owned)
      have h₅ : m₅.spare x = m₄.spare x - (.fiber f :: segment.owned).count x := by
        by_cases htakes : code.takes
        · simp only [m₅, if_pos htakes]
          rw [spare_resumption_insert]
          rfl
        · simp only [m₅, if_neg htakes]
          exact spare_release m₄ _
      let m₆ : Machine ω := m₅.push (.clause (code.keeps i) answer)
      have h₆ : m₆.spare x = m₅.spare x - _ := spare_push m₅ _
      let os : List Owned := (if code.takes then [.resumption m.resumptions.next] else []) ++
        command.owned
      let m₇ : Machine ω := m₆.push (.owning os)
      have h₇ : m₇.spare x = m₆.spare x - _ := spare_push m₆ _
      have hos : (os.map Holding.asset).count x ≤ (command.owned.map Holding.asset).count x +
          [Holding.asset (.resumption m.resumptions.next)].count x := by
        by_cases htakes : code.takes
        · simp only [os, if_pos htakes, List.cons_append, List.nil_append, List.map_cons]
          rw [count_cons]
          omega
        · simp only [os, if_neg htakes, List.nil_append]
          omega
      let c : Comp ω := code.body (m.chain.get i).handler command.payload m.resumptions.next
      have h₈ : (m₇.goOn (.eval c)).spare x = m₇.spare x := by
        have hcontrol : m₇.control = m.control := by
          simp only [m₇, m₆, m₅, push]
          split <;> rfl
        rw [spare_goOn m₇ _ (hcontrol ▸ hfatal) rfl, hcontrol, load_eval, hload]
        omega
      have hsame : (m.capture Γ i f r).spare x = (m₇.goOn (.eval c)).spare x := by
        rw [h]
        refine spare_congr ?_
        by_cases htakes : code.takes
        · simp only [m₇, m₆, m₅, os, if_pos htakes]
          rfl
        · simp only [m₇, m₆, m₅, os, if_neg htakes]
          rfl
      have hlowest : segment.lowest = i := by rw [hsegment]
      have hsegmentOwned : (.fiber f :: segment.owned).count x =
          [Holding.fiber f].count x + ([Holding.installation segment.top].count x +
            [Holding.installation i].count x) := by
        rw [Segment.owned, hlowest, count_cons, count_cons (.installation segment.top)]
      rw [count_cons (.fiber f)]
      simp only [Activation.owned] at h₆ h₇
      omega

/-- The return clause takes over the shares of the driver and of the chain. -/
theorem spare_finish (hfatal : m.control.isFatal = false) (i : InstallationId) (v : Value) :
    m.spare x + m.control.load x ≤
      (m.finish Γ i v).spare x + [Holding.installation i].count x := by
  unfold finish
  split
  · rw [spare_goOn _ _ hfatal rfl, load_fault]
    omega
  · rename_i top c' hpop
    let m₁ : Machine ω := { m with chain := c' }
    have h₁ : m₁.spare x = m.spare x + [Holding.installation top].count x :=
      spare_popTop hpop hfatal
    simp only
    split
    · have hgoOn := spare_goOn (x := x) m₁ (.fault (.internal ("body of " ++ (c'.get i).name ++
        " returned while " ++ (c'.get top).name ++ " was installed above it"))) hfatal rfl
      have hcontrol : m₁.control = m.control := rfl
      rw [load_fault, hcontrol] at hgoOn
      change _ ≤ (m₁.goOn _).spare x + _
      omega
    · rename_i htop
      rw [Decidable.not_not] at htop
      subst htop
      let m₂ : Machine ω := { m₁ with chain := m₁.chain.retire top }
      have h₂ : m₂.spare x = m₁.spare x := spare_modify m₁ top fun _ => ⟨rfl, rfl⟩
      let m₃ : Machine ω := m₂.push (.returning top
        (Γ.handlerType (c'.get top).handlerType).answer)
      have h₃ : m₃.spare x = m₂.spare x -
        ([Holding.installation top, .installation top].count x : Nat) := spare_push m₂ _
      have h₄ : (m₃.goOn (.eval ((Γ.handlerType (c'.get top).handlerType).onReturn
          (c'.get top).handler v))).spare x = _ := spare_goOn m₃ _ hfatal rfl
      have hcontrol : m₃.control = m.control := rfl
      rw [load_eval, hcontrol] at h₄
      have htwice : [Holding.installation top, .installation top].count x =
          [Holding.installation top].count x + [Holding.installation top].count x :=
        @List.count_append _ _ _ [Holding.installation top] _
      have hsame : (({ m₁.trace (.returned (c'.get top).label (c'.get top).name) with
          chain := c'.retire top } : Machine ω).push (.returning top
            (Γ.handlerType (c'.get top).handlerType).answer)
          |>.goOn (.eval ((Γ.handlerType (c'.get top).handlerType).onReturn
            (c'.get top).handler v))).spare x = (m₃.goOn (.eval ((Γ.handlerType
              (c'.get top).handlerType).onReturn (c'.get top).handler v))).spare x :=
        spare_congr rfl
      change _ ≤ (({ m₁.trace (.returned (c'.get top).label (c'.get top).name) with
          chain := c'.retire top } : Machine ω).push _ |>.goOn _).spare x + _
      rw [hsame]
      omega

/-! ### Continuations -/

theorem spare_settle (hfatal : m.control.isFatal = false) (answer : String) (v : Value)
    (kept : List Holding) : m.spare x + m.control.load x ≤
      (m.settle answer v kept).spare x + ((v.owned.map Holding.asset).count x + kept.count x) := by
  unfold settle
  split
  · have hrelease := spare_release (x := x) m kept
    have hgoOn : ((m.release kept).goOn (.deliver (.done v))).spare x = _ :=
      spare_goOn _ _ hfatal rfl
    have hcontrol : (m.release kept).control = m.control := rfl
    rw [hcontrol, load_deliver_done] at hgoOn
    omega
  · rename_i k hk
    have hpending := spare_pending (x := x) m none
    rw [hk] at hpending
    simp only [Option.toList_some, Option.toList_none, List.flatMap_cons, List.flatMap_nil,
      List.append_nil, List.count_nil] at hpending
    simp only
    split
    · have hrelease := spare_release (x := x) ({ m with pending := none } : Machine ω)
        (v.owned.map Holding.asset ++ kept)
      have hgoOn : ((({ m with pending := none } : Machine ω).release
          (v.owned.map Holding.asset ++ kept)).goOn (.deliver (.tail k))).spare x = _ :=
        spare_goOn _ _ hfatal rfl
      have hcontrol : (({ m with pending := none } : Machine ω).release
        (v.owned.map Holding.asset ++ kept)).control = m.control := rfl
      rw [hcontrol, load_deliver_tail] at hgoOn
      rw [List.count_append] at hrelease
      omega
    · have hgoOn : (({ m with pending := none } : Machine ω).goOn
          (.fault (.tailResumeMismatch answer))).spare x = _ := spare_goOn _ _ hfatal rfl
      have hcontrol : ({ m with pending := none } : Machine ω).control = m.control := rfl
      rw [hcontrol, load_fault] at hgoOn
      omega

/-- A continuation takes over what its value owns. -/
theorem spare_arm {r : ResumptionId} {v : Value} {k : Cont ω} (h : m.arm r v = some (k, m')) :
    m.spare x + k.owned.count x ≤ m'.spare x + (v.owned.map Holding.asset).count x ∧
      m'.control = m.control ∧ m'.pending = m.pending := by
  obtain ⟨k', hk, heq⟩ := Option.map_eq_some_iff.mp h
  have herase := spare_resumption_erase (x := x) hk
  cases k' with
  | captured answer f segment e =>
    obtain ⟨rfl, rfl⟩ := Prod.mk.inj heq
    refine ⟨?_, rfl, rfl⟩
    let m₁ : Machine ω := { m with resumptions := m.resumptions.erase r }
    let m₂ : Machine ω := { m₁ with
      exchanges := m₁.exchanges.modify e fun x => { x with result := some v } }
    have h₁ : m₁.spare x = m.spare x + _ := herase
    change _ ≤ m₂.spare x + _
    cases hy : m.exchanges.find? e with
    | none =>
      have hsame : m₂ = m₁ := by
        simp only [m₂, m₁, Store.modify_of_find?_eq_none _ hy]
      rw [hsame]
      omega
    | some y =>
      have h₂ : m₂.spare x = m₁.spare x + _ := spare_exchange_modify _ hy
      simp only [Exchange.owned, Option.map_some, Option.getD_some, List.map_append,
        List.count_append] at h₂
      omega
  | function answer f arg =>
    obtain ⟨rfl, rfl⟩ := Prod.mk.inj heq
    refine ⟨?_, rfl, rfl⟩
    rw [herase]
    simp only [Cont.owned, List.map_append, List.count_append, Option.map_some, Option.getD_some]
    omega

theorem spare_stepCont {k : Cont ω} (hcontrol : m.control = .deliver (.tail k)) :
    m.spare x ≤ (m.stepCont k).spare x := by
  have hfatal : m.control.isFatal = false := by rw [hcontrol]; rfl
  have hload : m.control.load x = k.owned.count x := by rw [hcontrol, load_deliver_tail]
  cases k with
  | captured answer f segment e =>
    let m₁ : Machine ω := m.trace (.resumed (m.chain.get segment.lowest).label
      (m.chain.get segment.lowest).name (m.chain.segmentLength segment))
    let m₂ : Machine ω := { m₁ with chain := m.chain.splice segment }
    have h₁ : m₁.spare x = m.spare x := spare_congr rfl
    have h₂ : m₁.spare x ≤ m₂.spare x + _ := spare_splice (m := m₁) segment hfatal
    have h₃ : m₂.spare x + m₂.control.load x ≤ (m₂.enter segment.lowest f).spare x + _ :=
      spare_enter (m := m₂) hfatal segment.lowest f
    have hload₂ : m₂.control.load x = _ := hload
    have howned : (Cont.captured answer f segment e : Cont ω).owned.count x =
        [Holding.fiber f].count x + ([Holding.installation segment.top].count x +
          [Holding.installation segment.lowest].count x) := by
      rw [Cont.owned, Segment.owned, count_cons, count_cons (.installation segment.top)]
    rw [count_cons (.fiber f)] at h₃
    change _ ≤ (m₂.enter segment.lowest f).spare x
    omega
  | function answer f arg =>
    cases arg with
    | some v =>
      have hpush : (m.push (.calling answer)).spare x = m.spare x - (0 : Nat) := spare_push m _
      have hgoOn : ((m.push (.calling answer)).goOn (.eval (f.body v))).spare x = _ :=
        spare_goOn _ _ hfatal rfl
      have hcontrol' : (m.push (.calling answer)).control = m.control := rfl
      rw [hcontrol', load_eval] at hgoOn
      change _ ≤ ((m.push (.calling answer)).goOn (.eval (f.body v))).spare x
      omega
    | none =>
      change _ ≤ (m.goOn (.fault _)).spare x
      rw [spare_goOn _ _ hfatal rfl, load_fault]
      omega

end Machine

end EffectHandlers
