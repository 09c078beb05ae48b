import EffectHandlers.Proofs.Spending
/-!
# Solvency

A step takes no share that running code has not spent. So installations, which running code cannot
spend, always have a share for everyone who holds them; and so have cells, as long as running code
spends what it has.
-/

namespace EffectHandlers

variable {ω : Type} {Γ : Library ω} [Contents ω]

namespace Machine

variable {m m' : Machine ω} {x : Holding}

/-! ### Operations -/

section Operations

variable {c : Comp ω}

theorem spare_ret (hcontrol : m.control = .eval c) (v : Value) :
    (m.goOn (.ret v)).spare x = m.spare x - (v.owned.map Holding.asset).count x := by
  rw [spare_goOn m _ (by rw [hcontrol]; rfl) rfl, hcontrol, load_eval, load_ret]
  omega

/-- Going on with other code costs nothing. -/
theorem spare_next (hcontrol : m.control = .eval c) (next : Comp ω) :
    (m.goOn (.eval next)).spare x = m.spare x := by
  rw [spare_goOn m _ (by rw [hcontrol]; rfl) rfl, hcontrol, load_eval, load_eval]
  omega

theorem spare_fault (hcontrol : m.control = .eval c) (f : Fault) :
    (m.goOn (.fault f)).spare x = m.spare x := by
  rw [spare_goOn m _ (by rw [hcontrol]; rfl) rfl, hcontrol, load_eval, load_fault]
  omega

/-- An activation that holds nothing. -/
theorem spare_pushFree (m : Machine ω) {a : Activation ω} (ha : a.owned = []) :
    (m.push a).spare x = m.spare x := by
  rw [spare_push, ha]
  simp

theorem spare_pushFree_next (hcontrol : m.control = .eval c) {a : Activation ω}
    (ha : a.owned = []) (next : Comp ω) : ((m.push a).goOn (.eval next)).spare x = m.spare x :=
  (spare_next (m := m.push a) hcontrol next).trans (spare_pushFree m ha)

theorem spare_write (hcontrol : m.control = .eval c) (cell : CellId) (content : ω)
    (next : Comp ω) :
    m.spare x + ((m.regains (.write cell content next)).map Holding.asset).count x ≤
      (m.eval Γ (.write cell content next)).spare x +
        ((Contents.owned content).map Holding.asset).count x := by
  let m₁ : Machine ω := { m with cells := m.cells.modify cell fun s => { s with content } }
  have hnext : (m₁.goOn (.eval next)).spare x = m₁.spare x := spare_next (m := m₁) hcontrol next
  change m.spare x + _ ≤ (m₁.goOn (.eval next)).spare x + _
  rw [hnext]
  cases hy : m.cells.find? cell with
  | none =>
    have hsame : m₁ = m := by simp only [m₁, Store.modify_of_find?_eq_none _ hy]
    rw [hsame]
    simp only [regains, hy, Option.map_none, Option.getD_none, List.map_nil, List.count_nil]
    omega
  | some y =>
    have hwritten : m₁.spare x = m.spare x + _ := spare_cell_write hy content
    rw [hwritten, Shared.owned]
    simp only [regains, hy, Option.map_some, Option.getD_some]
    omega

/-- A share more of an installation that is there, if it matters. -/
theorem spare_hold_of_held {i : InstallationId}
    (hi : x = .installation i → m.chain.installations.contains i) :
    (m.hold i).spare x = m.spare x + ([Holding.installation i].count x : Int) := by
  by_cases hcontains : m.chain.installations.contains i
  · exact spare_hold hcontains
  · have hne : x ≠ .installation i := fun heq => hcontains (hi heq)
    have hnone : m.chain.installations.find? i = none := by simpa [Store.contains] using hcontains
    have hsame : m.hold i = m := by
      simp only [hold, Chain.modify, Store.modify_of_find?_eq_none _ hnone]
    rw [hsame, List.count_eq_zero.mpr fun hmem => hne (List.mem_singleton.mp hmem)]
    simp

/-- A new reference has a share of its own. -/
theorem spare_refer (hcontrol : m.control = .eval c) {i : InstallationId}
    (hi : x = .installation i → m.chain.installations.contains i) (next : Comp ω) :
    ((({ m with references := (m.references.insert i).2 } : Machine ω).hold i).goOn
      (.eval next)).spare x = m.spare x := by
  let m₁ : Machine ω := { m with references := (m.references.insert i).2 }
  have h₁ : m₁.spare x = m.spare x + _ := spare_reference_insert m i
  have h₂ : (m₁.hold i).spare x = m₁.spare x + _ := spare_hold_of_held hi
  have h₃ : ((m₁.hold i).goOn (.eval next)).spare x = (m₁.hold i).spare x :=
    spare_next (m := m₁.hold i) hcontrol next
  change ((m₁.hold i).goOn (.eval next)).spare x = m.spare x
  omega

/-- A reference holds its installation. -/
theorem contains_of_reference {r : ReferenceId} {i : InstallationId}
    (hr : m.references.find? r = some i) (hspare : 0 ≤ m.spare (.installation i)) :
    m.chain.installations.contains i := by
  refine contains_of_spare hspare ?_
  have hmem : Holding.installation i ∈ m.shelved := by
    simp only [shelved, List.mem_append]
    refine .inl (.inl (.inl (.inl (.inr ?_))))
    exact List.mem_flatMap.mpr ⟨_, Store.mem_of_find? hr, List.mem_singleton.mpr rfl⟩
  have := List.count_pos_iff.mpr hmem
  simp only [holders]
  omega

theorem spare_apply (hcontrol : m.control = .eval c) (f : ClosureId) (arg : Value) :
    m.spare x ≤ (m.applyClosure f arg).spare x := by
  unfold applyClosure
  split
  · rename_i y hy
    let m₁ : Machine ω := { m with closures := m.closures.erase f }
    have h₁ : m₁.spare x = m.spare x + _ := spare_closure_erase hy
    have h₂ : (m₁.goOn (.eval (y.body arg))).spare x = m₁.spare x := spare_next (m := m₁) hcontrol _
    change _ ≤ (m₁.goOn (.eval (y.body arg))).spare x
    omega
  · have h := spare_ret (x := x) hcontrol .unit
    simp only [Value.owned, List.map_nil, List.count_nil] at h
    omega

theorem spare_function (hcontrol : m.control = .eval c) (answer : String) (f : ClosureId)
    (next : ResumptionId → Comp ω) :
    (m.eval Γ (.function answer f next)).spare x = m.spare x := by
  simp only [eval]
  split
  · exact (spare_next (m := m.unusable.2) hcontrol _).trans (spare_unusable m)
  · rename_i y hy
    let m₁ : Machine ω := { m with closures := m.closures.erase f }
    let m₂ : Machine ω :=
      { m₁ with resumptions := (m₁.resumptions.insert (.function answer y none)).2 }
    have h₁ : m₁.spare x = m.spare x + _ := spare_closure_erase hy
    have h₂ : m₂.spare x = m₁.spare x + _ := spare_resumption_insert m₁ (.function answer y none)
    have h₃ : (m₂.goOn (.eval (next m.resumptions.next))).spare x = m₂.spare x :=
      spare_next (m := m₂) hcontrol _
    have howned : (Cont.function answer y none).owned = y.owned.map Holding.asset := rfl
    rw [howned] at h₂
    change (m₂.goOn (.eval (next m.resumptions.next))).spare x = _
    omega

theorem spare_take (hcontrol : m.control = .eval c) (r : ResumptionId)
    (next : ResumptionId → Comp ω) : (m.eval Γ (.take r next)).spare x = m.spare x := by
  simp only [eval]
  split
  · exact (spare_next (m := m.unusable.2) hcontrol _).trans (spare_unusable m)
  · rename_i k hk
    let m₁ : Machine ω := { m with resumptions := m.resumptions.erase r }
    let m₂ : Machine ω := { m₁ with resumptions := (m₁.resumptions.insert k).2 }
    have h₁ : m₁.spare x = m.spare x + _ := spare_resumption_erase hk
    have h₂ : m₂.spare x = m₁.spare x + _ := spare_resumption_insert m₁ k
    have h₃ : (m₂.goOn (.eval (next m.resumptions.next))).spare x = m₂.spare x :=
      spare_next (m := m₂) hcontrol _
    change (m₂.goOn (.eval (next m.resumptions.next))).spare x = _
    omega

theorem spare_resumes (hcontrol : m.control = .eval c) (r : ResumptionId) (v : Value) :
    m.spare x ≤ (m.resume r v).spare x + (v.owned.map Holding.asset).count x := by
  unfold resume
  split
  · rw [spare_fault hcontrol]
    omega
  · rename_i k m₁ harm
    obtain ⟨hspare₁, hcontrol₁, -⟩ := spare_arm (x := x) harm
    let m₂ : Machine ω := m₁.bump .resumes
    let m₃ : Machine ω := m₂.push .stepping
    have h₂ : m₂.spare x = m₁.spare x := spare_congr rfl
    have h₃ : m₃.spare x = m₂.spare x := spare_pushFree m₂ rfl
    have hevaluates : m₃.control = .eval c := hcontrol₁.trans hcontrol
    have h₄ : (m₃.goOn (.deliver (.tail k))).spare x = _ :=
      spare_goOn m₃ _ (by rw [hevaluates]; rfl) rfl
    rw [load_deliver_tail, hevaluates, load_eval] at h₄
    change _ ≤ (m₃.goOn (.deliver (.tail k))).spare x + _
    omega

theorem spare_tailResumes (hcontrol : m.control = .eval c) (r : ResumptionId) (v : Value)
    (next : Comp ω) :
    m.spare x ≤ (m.tailResume r v next).spare x + (v.owned.map Holding.asset).count x := by
  unfold tailResume
  split
  · rw [spare_fault hcontrol]
    omega
  · rename_i k m₁ harm
    obtain ⟨hspare₁, hcontrol₁, -⟩ := spare_arm (x := x) harm
    let m₂ : Machine ω := m₁.bump .tailResumes
    have h₂ : m₂.spare x = m₁.spare x := spare_congr rfl
    have hevaluates : m₂.control = .eval c := hcontrol₁.trans hcontrol
    simp only
    split
    · rename_i hpending
      let m₃ : Machine ω := { m₂ with pending := some k }
      have h₃ : m₃.spare x = _ := spare_pending m₂ (some k)
      have hnone : m₂.pending = none := hpending
      rw [hnone] at h₃
      simp only [Option.toList_some, Option.toList_none, List.flatMap_cons, List.flatMap_nil,
        List.append_nil, List.count_nil] at h₃
      have h₄ : (m₃.goOn (.eval next)).spare x = m₃.spare x := spare_next (m := m₃) hevaluates next
      change _ ≤ (m₃.goOn (.eval next)).spare x + _
      omega
    · let m₃ : Machine ω := m₂.release k.owned
      have h₃ : m₃.spare x = m₂.spare x - _ := spare_release m₂ k.owned
      have h₄ : (m₃.goOn (.fault .tailSlotOccupied)).spare x = m₃.spare x :=
        spare_fault (m := m₃) hevaluates _
      change _ ≤ (m₃.goOn (.fault .tailSlotOccupied)).spare x + _
      omega

theorem spare_invoke (hcontrol : m.control = .eval c) (hspare : x.Counted → 0 ≤ m.spare x)
    (target : Target) (command : Command) (next : Value → Comp ω) :
    m.spare x ≤ (m.eval Γ (.invoke target command next)).spare x +
      ((command.owned.map Holding.asset).count x +
        (m.brings (m.eval Γ (.invoke target command next))).count x) := by
  let m₁ : Machine ω := m.push (.bind next)
  have h₁ : m₁.spare x = m.spare x := spare_pushFree m rfl
  have hbrings : ∀ m' : Machine ω, m₁.brings m' = m.brings m' := fun _ => rfl
  have hfatal : m₁.control.isFatal = false := by
    show m.control.isFatal = false
    rw [hcontrol]
    rfl
  have hload : m₁.control.load x = 0 := by
    show m.control.load x = 0
    rw [hcontrol]
    rfl
  simp only [eval]
  split
  · rw [spare_fault hcontrol]
    omega
  · rename_i i position hfound
    have hlive := Chain.isLive_of_dispatch hfound
    by_cases hplain : ((m.chain.get i).clauses[position]?).map ClauseEntry.modifier = some .plain
    · have hsend := spare_sendInPlace (Γ := Γ) (m := m₁) hfatal hload (h₁.symm ▸ hspare) hlive
        position command
      have hsame : m₁.send Γ i position command = m₁.sendInPlace Γ i position command := by
        have hplain' : ((m₁.chain.get i).clauses[position]?).map ClauseEntry.modifier =
          some .plain := hplain
        unfold send
        simp only [hplain']
      change _ ≤ (m₁.send Γ i position command).spare x +
        ((_ : Int) + (m.brings (m₁.send Γ i position command)).count x)
      rw [hbrings, ← hsame] at hsend
      omega
    · have hsend := spare_send (Γ := Γ) (m := m₁) hfatal hload hlive position command hplain
      change _ ≤ (m₁.send Γ i position command).spare x +
        ((_ : Int) + (m.brings (m₁.send Γ i position command)).count x)
      rw [hbrings] at hsend
      omega

theorem spare_pushBare (hcontrol : m.control = .eval c)
    (hinstallations : m.chain.installations.WellFormed) (hzero : x ≠ .asset (.cell 0)) (label : Int)
    (name : String) (clauses : List (String × Modifier)) (next : Comp ω) :
    m.spare x ≤ (m.eval Γ (.pushBare label name clauses next)).spare x := by
  let a : Installation := { Installation.bottom with
    label, name, clauses := clauses.map fun c => ⟨c.1, c.1, c.2, .missing⟩ }
  let m₁ : Machine ω :=
    { m with chain := (m.chain.create a).2.push m.chain.installations.next }
  have h₁ : m.spare x + (a.shares * [Holding.installation m.chain.installations.next].count x -
      [Holding.asset (.cell a.handler)].count x) ≤ m₁.spare x +
        [Holding.installation m.chain.installations.next].count x :=
    spare_createPush hinstallations rfl (by rw [hcontrol]; rfl)
  have h₂ : (m₁.goOn (.eval next)).spare x = m₁.spare x := spare_next (m := m₁) hcontrol next
  have hcell : [Holding.asset (.cell a.handler)].count x = 0 :=
    List.count_eq_zero.mpr fun hmem => hzero (List.mem_singleton.mp hmem)
  have hshares : a.shares = 1 := rfl
  rw [hcell, hshares] at h₁
  change _ ≤ (m₁.goOn (.eval next)).spare x
  omega

theorem spare_popBare (hcontrol : m.control = .eval c) (next : Int → Comp ω) :
    (m.eval Γ (.popBare next)).spare x = m.spare x := by
  simp only [eval]
  split
  · exact spare_fault hcontrol _
  · rename_i i c' hpop
    let m₁ : Machine ω := { m with chain := c' }
    let m₂ : Machine ω := m₁.release [.installation i]
    have h₁ : m₁.spare x = m.spare x + _ := spare_popTop hpop (by rw [hcontrol]; rfl)
    have h₂ : m₂.spare x = m₁.spare x - _ := spare_release m₁ _
    have h₃ : (m₂.goOn (.eval (next (c'.get i).label))).spare x = m₂.spare x :=
      spare_next (m := m₂) hcontrol _
    change (m₂.goOn (.eval (next (c'.get i).label))).spare x = _
    omega

/-- Evaluating an operation costs no more than what it takes over, and what it makes. -/
theorem spare_eval (hcontrol : m.control = .eval c) (hcells : m.cells.WellFormed)
    (hinstallations : m.chain.installations.WellFormed)
    (hx : x ≠ .asset (.reference m.references.next))
    (hzero : x ≠ .asset (.cell 0)) (hspare : x.Counted → 0 ≤ m.spare x) :
    m.spare x + ((m.regains c).map Holding.asset).count x ≤
      (m.eval Γ c).spare x + ((c.spends.map Holding.asset).count x + (m.brings (m.eval Γ c)).count x) := by
  have hnothing : ∀ {n : Int} {os : List Owned}, m.spare x ≤ n →
      m.spare x + (([] : List Owned).map Holding.asset).count x ≤
        n + ((os.map Holding.asset).count x + (m.brings (m.eval Γ c)).count x) := by
    intro n os h
    simp only [List.map_nil, List.count_nil]
    omega
  have hspends : ∀ {n : Int} {os : List Owned}, m.spare x ≤ n + (os.map Holding.asset).count x →
      m.spare x + (([] : List Owned).map Holding.asset).count x ≤
        n + ((os.map Holding.asset).count x + (m.brings (m.eval Γ c)).count x) := by
    intro n os h
    simp only [List.map_nil, List.count_nil]
    omega
  have hfatal : m.control.isFatal = false := by rw [hcontrol]; rfl
  cases c with
  | done v =>
    refine hspends ?_
    have h := spare_ret (x := x) hcontrol v
    simp only [eval, Comp.spends]
    omega
  | panic message =>
    have h : (m.goOn (.unwind message)).spare x = _ := spare_goOn m _ hfatal rfl
    rw [hcontrol, load_eval, load_unwind] at h
    refine hnothing ?_
    simp only [eval]
    omega
  | record e next =>
    refine hnothing (Int.le_of_eq ?_)
    exact (spare_congr rfl).symm.trans (spare_next (m := m.record e) hcontrol next).symm
  | read cell next => exact hnothing (Int.le_of_eq (spare_next hcontrol _).symm)
  | alloc content next =>
    refine hspends ?_
    let m₁ : Machine ω := { m with cells := (m.cells.insert ⟨content, 1⟩).2 }
    have h₁ : m₁.spare x = m.spare x + _ := spare_cell_insert hcells content
    have h₂ : (m₁.goOn (.eval (next m.cells.next))).spare x = m₁.spare x := spare_next (m := m₁) hcontrol _
    change _ ≤ (m₁.goOn (.eval (next m.cells.next))).spare x + _
    rw [h₂, Comp.spends]
    omega
  | write cell content next =>
    have hwrite := spare_write (Γ := Γ) (x := x) hcontrol cell content next
    simp only [Comp.spends]
    omega
  | retain o next =>
    refine hnothing ?_
    have hretain : m.spare x ≤ (m.retain o).spare x := by
      cases o with
      | cell c =>
        rw [spare_retain]
        split <;> omega
      | _ => exact Int.le_refl _
    have hevaluates : (m.retain o).control = .eval (.retain o next) := by cases o <;> exact hcontrol
    have hnext := spare_next (x := x) (m := m.retain o) hevaluates next
    simp only [eval]
    omega
  | release os next =>
    refine hspends ?_
    have hrelease := spare_release (x := x) m (os.map Holding.asset)
    have hnext := spare_next (x := x) (m := m.discard os) hcontrol next
    simp only [eval, Comp.spends]
    rw [hnext, discard]
    omega
  | scope os body next =>
    refine hspends ?_
    have hbind := spare_pushFree (x := x) m (a := .bind next) rfl
    have howning := spare_push (x := x) (m.push (.bind next)) (.owning os)
    have hnext := spare_next (x := x) (m := (m.push (.bind next)).push (.owning os)) hcontrol body
    simp only [eval, Comp.spends]
    simp only [Activation.owned] at howning
    omega
  | catching body next | loop seed body next | call procedure arg next =>
    exact hnothing (Int.le_of_eq (spare_pushFree_next hcontrol rfl _).symm)
  | closure owned body next =>
    refine @hspends _ owned ?_
    let m₁ : Machine ω := { m with closures := (m.closures.insert ⟨owned, body⟩).2 }
    have h₁ : m₁.spare x = m.spare x + _ := spare_closure_insert m ⟨owned, body⟩
    have h₂ : (m₁.goOn (.eval (next m.closures.next))).spare x = m₁.spare x :=
      spare_next (m := m₁) hcontrol _
    change _ ≤ (m₁.goOn (.eval (next m.closures.next))).spare x +
      (owned.map Holding.asset).count x
    simp only at h₁
    omega
  | apply f arg next =>
    refine hnothing ?_
    have hbind := spare_pushFree (x := x) m (a := .bind next) rfl
    have happly := spare_apply (x := x) (m := m.push (.bind next)) hcontrol f arg
    simp only [eval]
    omega
  | handle i body next =>
    have hbind := spare_pushFree (x := x) m (a := .bind next) rfl
    have hinstall := spare_install (Γ := Γ) (m := m.push (.bind next)) hinstallations hfatal hx i body
    have hload : (m.push (.bind next)).control.load x = 0 := by
      show m.control.load x = 0
      rw [hcontrol, load_eval]
    have hbrings : ∀ m' : Machine ω, (m.push (.bind next)).brings m' = m.brings m' := fun _ => rfl
    simp only [eval, Comp.spends, regains, List.map_nil, List.count_nil]
    rw [hload, hbrings] at hinstall
    omega
  | invoke target command next =>
    have hinvoke := spare_invoke (Γ := Γ) hcontrol hspare target command next
    simp only [Comp.spends, regains, List.map_nil, List.count_nil]
    omega
  | find search next =>
    refine hnothing (Int.le_of_eq ?_)
    simp only [eval]
    split
    · exact (spare_fault hcontrol _).symm
    · rename_i i hfound
      exact (spare_refer hcontrol (fun _ =>
        Chain.contains_of_isLive (Chain.isLive_of_locate hfound)) _).symm
  | copy r next =>
    refine hnothing (Int.le_of_eq ?_)
    simp only [eval]
    split
    · have hskip : ({ m with references := { m.references with next := m.references.next + 1 } } :
          Machine ω).spare x = m.spare x := by
        have hshares : ({ m with references :=
          { m.references with next := m.references.next + 1 } } : Machine ω).shares x =
            m.shares x := shares_congr rfl rfl x
        simp only [spare, hshares]
        rfl
      exact (((spare_next (m := { m with
        references := { m.references with next := m.references.next + 1 } }) hcontrol _)).trans
          hskip).symm
    · rename_i i hr
      refine (spare_refer hcontrol (fun hxi => ?_) _).symm
      exact contains_of_reference hr (hxi ▸ hspare (hxi ▸ .installation i))
  | function answer f next =>
    exact hnothing (Int.le_of_eq (spare_function hcontrol answer f next).symm)
  | take r next => exact hnothing (Int.le_of_eq (spare_take hcontrol r next).symm)
  | resume r v next =>
    refine hspends ?_
    have hbind := spare_pushFree (x := x) m (a := .bind next) rfl
    have hresume := spare_resumes (x := x) (m := m.push (.bind next)) hcontrol r v
    simp only [eval, Comp.spends]
    omega
  | tailResume r v next => exact hspends (spare_tailResumes hcontrol r v next)
  | ask q next =>
    obtain ⟨nextLabel, hanswer⟩ := exists_answer_eq m q
    refine hnothing (Int.le_of_eq ?_)
    simp only [eval, hanswer]
    exact ((spare_next (m := { m with chain := { m.chain with nextLabel } }) hcontrol _).trans
      (spare_nextLabel m nextLabel)).symm
  | view v next =>
    obtain ⟨pool, journal, hview⟩ := exists_view_eq m v
    refine hnothing (Int.le_of_eq ?_)
    simp only [eval, hview]
    exact ((spare_next (m := { m with pool, journal }) hcontrol _).trans (spare_congr rfl)).symm
  | print p next =>
    obtain ⟨pool, journal, errors, hprint⟩ := exists_print_eq m p
    refine hnothing (Int.le_of_eq ?_)
    simp only [eval, hprint]
    exact ((spare_next (m := { m with pool, journal, errors }) hcontrol _).trans
      (spare_congr rfl)).symm
  | pushBare label name clauses next =>
    exact hnothing (spare_pushBare hcontrol hinstallations hzero label name clauses next)
  | popBare next => exact hnothing (Int.le_of_eq (spare_popBare hcontrol next).symm)

end Operations

/-! ### Control -/

section Control

theorem spare_give {v : Value} (hcontrol : m.control = .ret v) (hhiding : m.Hiding) :
    m.spare x ≤ (m.give Γ v).spare x := by
  have hfatal : m.control.isFatal = false := by rw [hcontrol]; rfl
  have hload : m.control.load x = (v.owned.map Holding.asset).count x := by
    rw [hcontrol, load_ret]
  unfold give
  split
  · rename_i hstack
    split
    · rw [spare_goOn _ _ hfatal rfl, show (Control.halted (.finished v) : Control ω).load x = 0 from
        rfl]
      omega
    · rename_i m₁ hback
      obtain ⟨⟨S, fs⟩, hfs, rfl⟩ := Option.map_eq_some_iff.mp hback
      let m₂ : Machine ω := { m with fibers := fs, stack := S }
      have h₂ : m₂.spare x = m.spare x + _ := spare_handBack hfs
      have h₃ : (m₂.goOn (.ret v)).spare x = _ := spare_goOn m₂ _ hfatal rfl
      have hload₂ : m₂.control.load x = _ := hload
      rw [hload₂, load_ret] at h₃
      obtain ⟨journal, hwarn⟩ := exists_warn_eq { m₂.goOn (.ret v) with
        pool := m₂.pool.giveBack.1 } m₂.pool.giveBack.2
      have hsame : (({ m₂.goOn (.ret v) with pool := m₂.pool.giveBack.1 } : Machine ω).warn
          m₂.pool.giveBack.2).spare x = (m₂.goOn (.ret v)).spare x := by
        rw [hwarn]
        exact spare_congr rfl
      change _ ≤ (({ m₂.goOn (.ret v) with pool := m₂.pool.giveBack.1 } : Machine ω).warn
          m₂.pool.giveBack.2).spare x
      rw [hsame]
      omega
  · rename_i a S hS
    let m₁ : Machine ω := { m with stack := S }
    have h₁ : m₁.spare x = m.spare x + a.owned.count x := spare_pop hS
    have hload₁ : m₁.control.load x = _ := hload
    -- what holds nothing is followed by code
    have hnext : ∀ c : Comp ω, m.spare x ≤ (m₁.goOn (.eval c)).spare x := by
      intro c
      have h₂ : (m₁.goOn (.eval c)).spare x = _ := spare_goOn m₁ _ hfatal rfl
      rw [load_eval] at h₂
      omega
    have hmisplaced : m.spare x ≤ (m₁.goOn (.fault misplaced)).spare x := by
      have h₂ : (m₁.goOn (.fault misplaced)).spare x = _ := spare_goOn m₁ _ hfatal rfl
      rw [load_fault] at h₂
      omega
    cases a with
    | bind next | catching next => exact hnext _
    | owning os =>
      have h₂ : (m₁.discard os).spare x = m₁.spare x - _ := spare_release m₁ _
      change _ ≤ (m₁.discard os).spare x
      simp only [Activation.owned] at h₁
      omega
    | looping body next =>
      simp only
      split
      · have h₂ : (m₁.push (.looping body next)).spare x = m₁.spare x := spare_pushFree m₁ rfl
        rename_i seed
        let m₂ : Machine ω := m₁.push (.looping body next)
        have h₃ : (m₂.goOn (.eval (body seed))).spare x = _ := spare_goOn m₂ _ hfatal rfl
        rw [load_eval] at h₃
        have h₂' : m₂.spare x = m₁.spare x := h₂
        change _ ≤ (m₂.goOn (.eval (body seed))).spare x
        omega
      · exact hnext _
      · exact hnext _
    | driving i f =>
      have h₂ := spare_finish (Γ := Γ) (x := x) (m := m₁) hfatal i v
      rw [Activation.owned, count_cons] at h₁
      change _ ≤ (m₁.finish Γ i v).spare x
      omega
    | clause keep answer =>
      let m₂ : Machine ω := m₁.release (keep.map Holding.installation).toList
      have h₂ : m₂.spare x = m₁.spare x - _ := spare_release m₁ _
      have h₃ : (m₂.goOn (.settle answer v)).spare x = _ := spare_goOn m₂ _ hfatal rfl
      have hload₂ : m₂.control.load x = _ := hload
      rw [hload₂, load_settle] at h₃
      change _ ≤ (m₂.goOn (.settle answer v)).spare x
      simp only [Activation.owned] at h₁
      omega
    | returning i answer =>
      have h₂ := spare_settle (x := x) (m := m₁) hfatal answer v
        [.installation i, .installation i]
      change _ ≤ (m₁.settle answer v [.installation i, .installation i]).spare x
      simp only [Activation.owned] at h₁
      omega
    | calling answer =>
      have h₂ := spare_settle (x := x) (m := m₁) hfatal answer v []
      change _ ≤ (m₁.settle answer v []).spare x
      simp only [List.count_nil] at h₂
      omega
    | inPlace i handler hidden e =>
      have hlowest : hidden.lowest = i := by
        refine hhiding i handler hidden e ?_
        rw [Within.posts_pop hS rfl]
        exact List.mem_cons_self
      let m₂ : Machine ω := { m₁ with chain := m₁.chain.splice hidden }
      let m₃ : Machine ω :=
        m₂.release [.installation i, .exchange e, .asset (.cell handler), .installation i]
      have h₂ : m₁.spare x ≤ m₂.spare x + _ := spare_splice hidden hfatal
      have h₃ : m₃.spare x = m₂.spare x - _ := spare_release m₂ _
      change _ ≤ m₃.spare x
      simp only [Activation.owned, Segment.owned, hlowest, List.cons_append, List.nil_append,
        List.count_cons, List.count_nil] at h₁ h₂ h₃
      omega
    | start _ | stepping | sending => exact hmisplaced

theorem spare_deliver {s : Step (Cont ω) Value} (hcontrol : m.control = .deliver s) :
    m.spare x ≤ (m.deliver s).spare x := by
  have hfatal : m.control.isFatal = false := by rw [hcontrol]; rfl
  unfold deliver
  split
  · rename_i S hS
    split
    · rename_i v
      let m₁ : Machine ω := { m with stack := S }
      have h₁ : m₁.spare x = m.spare x + (0 : Nat) := spare_pop hS
      have h₂ : (m₁.goOn (.ret v)).spare x = _ := spare_goOn m₁ _ hfatal rfl
      have hload₁ : m₁.control.load x = (v.owned.map Holding.asset).count x := by
        show m.control.load x = _
        rw [hcontrol, load_deliver_done]
      rw [hload₁, load_ret] at h₂
      change _ ≤ (m₁.goOn (.ret v)).spare x
      omega
    · exact spare_stepCont hcontrol
  · rw [spare_goOn _ _ hfatal rfl, load_fault]
    omega

theorem spare_wake (hcontrol : m.control = .wake) : m.spare x ≤ m.wake.spare x := by
  have hfatal : m.control.isFatal = false := by rw [hcontrol]; rfl
  have hload : m.control.load x = 0 := by rw [hcontrol, load_wake]
  have hfault : ∀ f, m.spare x ≤ (m.goOn (.fault f)).spare x := by
    intro f
    rw [spare_goOn _ _ hfatal rfl, load_fault]
    omega
  unfold wake
  split
  · rename_i body S hS
    let m₁ : Machine ω := { m with stack := S }
    have h₁ : m₁.spare x = m.spare x + (0 : Nat) := spare_pop hS
    have h₂ : (m₁.goOn (.eval body)).spare x = _ := spare_goOn m₁ _ hfatal rfl
    rw [load_eval] at h₂
    change _ ≤ (m₁.goOn (.eval body)).spare x
    omega
  · rename_i i f S hS
    let m₁ : Machine ω := { m with stack := S }
    have h₁ : m₁.spare x = m.spare x + _ := spare_pop hS
    have h₂ := spare_enter (x := x) (m := m₁) hfatal i f
    rw [Activation.owned] at h₁
    change _ ≤ (m₁.enter i f).spare x
    omega
  · rename_i i e modifier command S hS
    split
    · exact hfault _
    · split
      · rename_i v hv
        obtain ⟨y, hy, hresult⟩ := Option.bind_eq_some_iff.mp hv
        let m₁ : Machine ω := { m with stack := S }
        let m₂ : Machine ω :=
          { m₁ with exchanges := m₁.exchanges.modify e fun x => { x with result := none } }
        let m₃ : Machine ω := m₂.goOn (.ret v)
        let m₄ : Machine ω := m₃.release [.exchange e, .installation i]
        have h₁ : m₁.spare x = m.spare x + _ := spare_pop hS
        have h₂ : m₂.spare x = m₁.spare x + _ := spare_exchange_modify _ hy
        have h₃ : m₃.spare x = _ := spare_goOn m₂ _ hfatal rfl
        have h₄ : m₄.spare x = m₃.spare x - _ := spare_release m₃ _
        have hload₂ : m₂.control.load x = 0 := hload
        rw [hload₂, load_ret] at h₃
        have hexchange : ((y.owned.map Holding.asset).count x : Int) -
            (({ y with result := none } : Exchange).owned.map Holding.asset).count x =
              (v.owned.map Holding.asset).count x := by
          simp only [Exchange.owned, hresult, Option.map_some, Option.getD_some, Option.map_none,
            Option.getD_none, List.append_nil, List.map_append, List.count_append]
          omega
        change _ ≤ m₄.spare x
        simp only [Activation.owned] at h₁
        omega
      · exact hfault _
  · exact hfault _

theorem spare_forward {r : Request} (hcontrol : m.control = .request r) :
    m.spare x ≤ (m.forward Γ r).spare x +
      [Holding.asset (.resumption m.resumptions.next)].count x := by
  have hfatal : m.control.isFatal = false := by rw [hcontrol]; rfl
  have hload : m.control.load x = 0 := by rw [hcontrol, load_request]
  unfold forward
  split
  · rw [spare_goOn _ _ hfatal rfl, load_fault]
    omega
  · rename_i S fs hsuspend
    let m₁ : Machine ω := { m with fibers := fs, stack := S }
    have h₁ : m₁.spare x = m.spare x := spare_suspend hsuspend
    have hgoOn : ∀ c : Control ω, c.isFatal = false → c.load x = 0 →
        m.spare x ≤ (m₁.goOn c).spare x +
          [Holding.asset (.resumption m.resumptions.next)].count x := by
      intro c hc hc'
      have h₂ : (m₁.goOn c).spare x = _ := spare_goOn m₁ _ hfatal hc
      rw [hc'] at h₂
      omega
    simp only
    split
    · rename_i i f rest
      split
      · let m₂ : Machine ω := { m₁ with stack := rest }
        have h₂ : m₂.spare x = m₁.spare x + _ := spare_pop rfl
        have h₃ := spare_capture (Γ := Γ) (x := x) (m := m₂) hfatal hload i f r
        rw [Activation.owned] at h₂
        change _ ≤ (m₂.capture Γ i f r).spare x +
          [Holding.asset (.resumption m₂.resumptions.next)].count x
        omega
      · exact hgoOn (.request r) rfl rfl
    · exact hgoOn (.fault misplaced) rfl rfl

theorem spare_unwind {message : String} (hcontrol : m.control = .unwind message) :
    m.spare x ≤ (m.unwind message).spare x := by
  have hfatal : m.control.isFatal = false := by rw [hcontrol]; rfl
  have hload : m.control.load x = 0 := by rw [hcontrol, load_unwind]
  unfold unwind
  split
  · rename_i hstack
    cases hback : m.handBack (.unwind message) with
    | none =>
      rw [Option.getD_none, spare_goOn _ _ hfatal rfl,
        show (Control.halted (.panicked message) : Control ω).load x = 0 from rfl]
      omega
    | some m₁ =>
      obtain ⟨⟨S, fs⟩, hfs, rfl⟩ := Option.map_eq_some_iff.mp hback
      let m₂ : Machine ω := { m with fibers := fs, stack := S }
      have h₂ : m₂.spare x = m.spare x + _ := spare_handBack hfs
      have h₃ : (m₂.goOn (.unwind message)).spare x = _ := spare_goOn m₂ _ hfatal rfl
      rw [load_unwind] at h₃
      change _ ≤ (m₂.goOn (.unwind message)).spare x
      omega
  · rename_i next S hS
    let m₁ : Machine ω := { m with stack := S }
    have h₁ : m₁.spare x = m.spare x + (0 : Nat) := spare_pop hS
    have h₂ : (m₁.goOn (.eval (next (.error message)))).spare x = _ :=
      spare_goOn m₁ _ hfatal rfl
    rw [load_eval] at h₂
    change _ ≤ (m₁.goOn (.eval (next (.error message)))).spare x
    omega
  · rename_i a S _ hS
    let m₁ : Machine ω := { m with stack := S }
    have h₁ : m₁.spare x = m.spare x + _ := spare_pop hS
    have h₂ : (m₁.release a.owned).spare x = m₁.spare x - _ := spare_release m₁ _
    change _ ≤ (m₁.release a.owned).spare x
    omega

/-- A fault puts on the release list what the thread as a whole holds. -/
theorem spare_exit {f : Fault} (hcontrol : m.control = .fault f) :
    (m.exit f).spare x = m.spare x := by
  let anchored : List Holding := .installation m.chain.top :: m.statics.map .asset
  let owned : List Holding := (m.pending.map Cont.owned).getD [] ++ [.installation m.chain.top] ++
    m.statics.map .asset
  let m₁ : Machine ω := { m with pending := none }
  let m₂ : Machine ω := m₁.release owned
  let m₃ : Machine ω := m₂.goOn (.halted (.fatal f m.chain.listing))
  have h₁ : m₁.spare x = _ := spare_pending m none
  have h₂ : m₂.spare x = m₁.spare x - _ := spare_release m₁ owned
  have h₃ : m₃.spare x = m₂.spare x + (anchored.count x : Nat) - (0 : Nat) := by
    refine spare_of_holders ?_ (shares_congr rfl rfl x)
    have hanchors : m₂.anchors = anchored := by
      have hfatal : m₂.control.isFatal = false := by
        show m.control.isFatal = false
        rw [hcontrol]
        rfl
      simp only [anchors, hfatal]
      rfl
    have hload : m₂.control.load x = 0 := by
      show m.control.load x = 0
      rw [hcontrol, load_fault]
    have hended : m₃.anchors = [] ∧ m₃.control.load x = 0 := ⟨rfl, rfl⟩
    simp only [holders, hanchors, hload, hended.1, hended.2, List.count_nil]
    rfl
  have hpending : (m.pending.map Cont.owned).getD [] = m.pending.toList.flatMap Cont.owned := by
    cases m.pending <;> simp
  have hsame : (m.exit f).spare x = m₃.spare x := spare_congr rfl
  simp only [Option.toList_none, List.flatMap_nil, List.count_nil] at h₁
  simp only [owned, anchored, hpending, List.count_append, List.count_cons, List.count_nil] at h₂ h₃
  omega

end Control

/-! ### Every step -/

/-- What the operation takes over that is evaluated in the next step, if there is one. -/
def spent (m : Machine ω) : List Owned :=
  match m.releasing, m.control with
  | [], .eval c => c.spends
  | _, _ => []

/-- What that operation gives back. -/
def regained (m : Machine ω) : List Owned :=
  match m.releasing, m.control with
  | [], .eval c => m.regains c
  | _, _ => []

/-- Both tables that count shares are well-formed. -/
structure Counts (m : Machine ω) : Prop where
  cells : m.cells.WellFormed
  installations : m.chain.installations.WellFormed
  hides : m.Hiding

theorem Counts.step (h : m.Counts) : (m.step Γ).Counts where
  cells := (Ages.step m).cells.wellFormed h.cells
  installations := (Ages.step m).chain.installations.wellFormed h.installations
  hides := h.hides.step

/-- A step that evaluates no operation costs nothing. -/
theorem spare_control (h : m.Counts) (hreleasing : m.releasing = [])
    (hx : x ≠ .asset (.resumption m.resumptions.next) ∨ ∀ r, m.control ≠ .request r)
    (hcontrol : ∀ c, m.control ≠ .eval c) : m.spare x ≤ (m.step Γ).spare x := by
  cases hm : m.control with
  | eval c => exact absurd hm (hcontrol c)
  | ret v =>
    simp only [step, hreleasing, hm]
    exact spare_give hm h.hides
  | deliver s =>
    simp only [step, hreleasing, hm]
    exact spare_deliver hm
  | settle answer v =>
    have hsettle := spare_settle (x := x) (m := m) (by rw [hm]; rfl) answer v []
    rw [hm, load_settle] at hsettle
    simp only [step, hreleasing, hm]
    simp only [List.count_nil] at hsettle
    omega
  | request r =>
    have hforward := spare_forward (Γ := Γ) (x := x) hm
    have hold : [Holding.asset (.resumption m.resumptions.next)].count x = 0 := by
      rcases hx with hne | hnone
      · simp [Ne.symm hne]
      · exact absurd hm (hnone r)
    simp only [step, hreleasing, hm]
    omega
  | wake =>
    simp only [step, hreleasing, hm]
    exact spare_wake hm
  | unwind message =>
    simp only [step, hreleasing, hm]
    exact spare_unwind hm
  | fault f =>
    simp only [step, hreleasing, hm]
    exact Int.le_of_eq (spare_exit hm).symm
  | halted o =>
    rw [step_halted hm hreleasing]

/-- A step costs no more than what the code that runs has spent, and what is new. -/
theorem spare_step (h : m.Counts) (hx : x.Audited) (hzero : x ≠ .asset (.cell 0))
    (hspare : x.Counted → 0 ≤ m.spare x) :
    m.spare x + (m.regained.map Holding.asset).count x ≤
      (m.step Γ).spare x + ((m.spent.map Holding.asset).count x + (m.brings (m.step Γ)).count x) := by
  cases hreleasing : m.releasing with
  | cons y hs =>
    have hnone : m.regained = [] ∧ m.spent = [] := by simp [regained, spent, hreleasing]
    have hrelease := spare_releaseOne (x := x) h.cells h.installations hreleasing
    rw [step_releasing hreleasing, hnone.1, hnone.2]
    simp only [List.map_nil, List.count_nil]
    omega
  | nil =>
    cases hcontrol : m.control with
    | eval c =>
      simp only [step, regained, spent, hreleasing, hcontrol]
      exact spare_eval hcontrol h.cells h.installations (by cases hx <;> simp) hzero hspare
    | _ =>
      have hnone : m.regained = [] ∧ m.spent = [] := by
        simp [regained, spent, hreleasing, hcontrol]
      rw [hnone.1, hnone.2]
      have hless : m.spare x ≤ (m.step Γ).spare x :=
        spare_control h hreleasing (.inl (by cases hx <;> simp)) (by simp [hcontrol])
      simp only [List.map_nil, List.count_nil]
      omega

end Machine

end EffectHandlers
