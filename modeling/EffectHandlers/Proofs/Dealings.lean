import EffectHandlers.Proofs.Upkeep
/-!
# The operations of honest code

What honest code can get at is held, so it is there when an operation uses it. An operation pays with
the hand for what it takes over, and leaves the rest of the hand to what comes next.
-/

namespace EffectHandlers.Machine

variable {ω : Type} [Contents ω] {Γ : Library ω} {m : Machine ω} {ρ : Regime ω}
  {gone : Owned → Prop} {B H H' D D' N X : List Owned} {K : Knowledge} {c next : Comp ω} {o : Owned}

/-- What is left is honest, when a continuation is given its value. -/
theorem Furnished.arm {P : InstallationId → CellId → String → Prop}
    (h : m.Furnished ρ P) (k : Cont ω) (r : ResumptionId) {v : Value}
    (hv : ρ.value v) :
    ({ m with
      resumptions := m.resumptions.erase r
      exchanges := k.armExchanges m.exchanges v } : Machine ω).Furnished ρ P := by
  refine { h with resumptions := h.resumptions.erase r, exchanges := ?_ }
  cases k with
  | captured =>
    exact h.exchanges.modify fun y hy =>
      ⟨(h.exchanges.find hy).command, fun v' heq => Option.some.inj heq ▸ hv⟩
  | function => exact h.exchanges

omit [Contents ω] in
/-- A new installation has the handler and the type that it was made with. -/
theorem recalls_pushed {m' : Machine ω} (nextLabel : Int) {a : Installation}
    (hchain : m.chain = (({ m'.chain with nextLabel } : Chain).create a).2.push
      m'.chain.installations.next) :
    m.Recalls m'.chain.installations.next a.handler a.handlerType := by
  refine ⟨?_, fun b hb => ?_⟩
  · rw [hchain]
    exact Nat.lt_succ_self _
  · rw [hchain] at hb
    simp only [Chain.push, Chain.modify, Chain.create, Store.find?_modify, if_true,
      Store.find?_insert_self, Option.map_some, Option.some.injEq] at hb
    exact hb ▸ ⟨rfl, rfl⟩

/-- A thread is about to evaluate an operation of honest code. -/
structure AtWork (Γ : Library ω) (ρ : Regime ω) (gone : Owned → Prop) (m : Machine ω) (c : Comp ω)
    (B : List Owned) (K : Knowledge) (H D X : List Owned) : Prop where
  honest : m.Honest Γ ρ gone
  idle : m.releasing = []
  control : m.control = .eval c
  code : HonestCode ρ m.Recalls m.stack B X
  hand : m.Solvent ρ.kept gone H D
  known : ∀ k ∈ K, Affords (m.stored k.1) k.2

namespace AtWork

/-! ### What code can get at -/

/-- What code can get at is in its hand, belongs to the thread, or is held by somebody else. -/
theorem held (h : m.AtWork Γ ρ gone c B K H D X) (ho : o.Matters) (hreach : InReach B K H o) :
    o ∈ H ∨ o ∈ ρ.base ∨ 0 < m.holders (.asset o) := by
  rcases hreach ho with hmem | hmem | ⟨k, hk, hmem⟩
  · exact .inl hmem
  · rcases h.code.lent hmem with hbase | ⟨a, ha, howned | ⟨i, cell, t, rfl, hi, howned⟩⟩
    · exact .inr (.inl hbase)
    · exact .inr (.inr (holders_running (.inl ha) howned))
    · -- the installation holds its handler
      have hthere := contains_of_spare (h.honest.spare i) (holders_running (.inl ha) howned)
      obtain ⟨x, hx⟩ := Option.isSome_iff_exists.mp hthere
      have hshelved := shelved_of_installation hx (x := .asset (.cell cell)) (by
        simp [Installation.owned, (hi.2 x hx).1])
      refine .inr (.inr ?_)
      simp only [holders]
      omega
  · have hstored : o ∈ m.stored k.1 := (h.known k hk).mem ho hmem
    cases hy : m.cells.find? k.1 with
    | none => simp [stored, hy] at hstored
    | some y =>
      have hmem : Holding.asset o ∈ m.shelved := by
        simp only [shelved, List.mem_append]
        refine .inl (.inl (.inl (.inl (.inl (.inl ?_)))))
        exact List.mem_flatMap.mpr ⟨_, Store.mem_of_find? hy,
          List.mem_map_of_mem (by simpa [stored, hy] using hstored)⟩
      have := List.count_pos_iff.mpr hmem
      refine .inr (.inr ?_)
      simp only [holders]
      omega

/-- A cell that code can get at is there. -/
theorem contains (h : m.AtWork Γ ρ gone c B K H D X) {cell : CellId} (hcell : cell ≠ 0)
    (hreach : InReach B K H (.cell cell)) : m.cells.contains cell := by
  refine h.hand.contains hcell ?_
  rcases h.held (o := .cell cell) hcell hreach with hmem | hmem | hheld
  · exact .inl hmem
  · exact .inr (.inl (by simpa [Regime.base] using hmem))
  · exact .inr (.inr hheld)

/-- A name that code can get at was made, and is not gone. -/
theorem there (h : m.AtWork Γ ρ gone c B K H D X) (ho : o.isName = true)
    (hreach : InReach B K H o) : m.Issued o ∧ ¬ gone o := by
  refine h.hand.there ho ?_
  rcases h.held (Owned.matters_of_isName ho) hreach with hmem | hmem | hheld
  · exact .inl hmem
  · obtain ⟨cell, -, rfl⟩ := List.mem_map.mp hmem
    cases ho
  · exact .inr hheld

/-! ### Paying -/

theorem step_eq (h : m.AtWork Γ ρ gone c B K H D X) : m.step Γ = m.eval Γ c := by
  simp only [step, h.idle, h.control]

/-- What is spare after an operation. -/
theorem spare (h : m.AtWork Γ ρ gone c B K H D X) (ho : o.Matters) :
    m.spare (.asset o) + (m.regains c).count o ≤
      (m.eval Γ c).spare (.asset o) + c.spends.count o := by
  have hcell : ∀ cell, Owned.cell cell = o → 0 ≤ m.spare (.asset (.cell cell)) := by
    rintro cell rfl
    have := h.hand.cells cell ho
    omega
  have hspare := spare_eval (Γ := Γ) (x := .asset o) h.control h.honest.counts.cells
    h.honest.counts.installations (by rintro ⟨⟩; exact ho) (by rintro ⟨⟩; exact ho rfl)
    (by rintro ⟨⟩; exact hcell _ rfl)
  rw [count_asset, count_asset, count_brings_asset] at hspare
  omega

/-- The hand after an operation: new names come to it, and debts are made or paid back. -/
theorem solvent_of (h : m.AtWork Γ ρ gone c B K H D X)
    (hpays : ∀ o : Owned, o.Matters → H'.count o + D.count o + c.spends.count o ≤
      H.count o + D'.count o + N.count o + (m.regains c).count o)
    (hnew : ∀ o ∈ N, o.isName = true ∧ ¬ m.Issued o ∧ (m.eval Γ c).Issued o) (hnodup : N.Nodup)
    (hdebts : ∀ o ∈ D', o.isName = true ∧ InReach B K H o) :
    (m.eval Γ c).Solvent ρ.kept gone H' D' := by
  refine h.hand.next (fun o ho => ?_) (fun o ho => h.step_eq ▸ Issued.step h.honest.tidy ho) hnew
    hnodup fun o ho => ⟨(hdebts o ho).1, h.there (hdebts o ho).1 (hdebts o ho).2⟩
  have hspare := h.spare ho
  have := hpays o ho
  omega

/-- Most operations neither make names nor write cells. -/
theorem solvent (h : m.AtWork Γ ρ gone c B K H [] X) (hpays : Affords H (c.spends ++ H')) :
    (m.eval Γ c).Solvent ρ.kept gone H' [] := by
  refine h.solvent_of (N := []) (fun o ho => ?_) (by simp) .nil (by simp)
  have := hpays o ho
  simp only [List.count_append, List.count_nil] at this ⊢
  omega

/-- The rest of the hand is forgotten. -/
theorem solvent_nil (h : m.AtWork Γ ρ gone c B K H [] X) (hpays : Affords H c.spends) :
    (m.eval Γ c).Solvent ρ.kept gone [] [] :=
  h.solvent (by simpa using hpays)

/-- A new name comes to the hand. -/
theorem solvent_cons (h : m.AtWork Γ ρ gone c B K H [] X) (hpays : Affords H (c.spends ++ H'))
    (ho : o.isName = true) (hnew : ¬ m.Issued o) (hmade : (m.eval Γ c).Issued o) :
    (m.eval Γ c).Solvent ρ.kept gone (o :: H') [] := by
  refine h.solvent_of (N := [o]) (fun o' ho' => ?_) (by simp [ho, hnew, hmade])
    (List.nodup_singleton o) (by simp)
  have := hpays o' ho'
  simp only [List.count_append, List.count_cons, List.count_nil] at this ⊢
  omega

/-! ### Operations -/

/-- An operation that changes no table and goes on to another one. -/
theorem goes_on (h : m.AtWork Γ ρ gone c B K H D X) {B' H' X' : List Owned} {K' : Knowledge}
    (hcells : (m.eval Γ c).cells = m.cells) (hclosures : (m.eval Γ c).closures = m.closures)
    (hresumptions : (m.eval Γ c).resumptions = m.resumptions)
    (hothers : (m.eval Γ c).fibers = m.fibers ∧ (m.eval Γ c).pending = m.pending ∧
      (m.eval Γ c).exchanges = m.exchanges)
    (hcontrol : (m.eval Γ c).control = .eval next)
    (hcode : HonestCode ρ m.Recalls (m.eval Γ c).stack B' X')
    (hc : next.Honest ρ B' K' H' [] X') (hhand : (m.eval Γ c).Solvent ρ.kept gone H' [])
    (hknown : ∀ k ∈ K', Affords ((m.eval Γ c).stored k.1) k.2)
    (hcalm : (m.eval Γ c).releasing = [] ∨ K' = []) :
    (m.eval Γ c).Upright ρ gone m.Recalls where
  furnished := h.honest.upright.furnished.congr hothers.1 hcells hclosures hresumptions hothers.2.1
    hothers.2.2
  running := .eval hcontrol hcode hc hhand hknown (hcalm.imp_right fun hK => ⟨hK, rfl⟩)

variable {f : Value → Comp ω} {v : Value}

theorem done (h : m.AtWork Γ ρ gone (.done v) B K H [] X) (hv : ρ.value v)
    (hpays : Affords H (v.owned ++ X)) : (m.eval Γ (.done v)).Upright ρ gone m.Recalls where
  furnished := h.honest.upright.furnished.congr rfl rfl rfl rfl rfl rfl
  running := .ret rfl hv h.code (h.solvent hpays)

theorem record {e : Event} (h : m.AtWork Γ ρ gone (.record e next) B K H [] X)
    (hnext : next.Honest ρ B K H [] X) :
    (m.eval Γ (.record e next)).Upright ρ gone m.Recalls :=
  h.goes_on rfl rfl rfl ⟨rfl, rfl, rfl⟩ rfl h.code hnext (h.solvent (.refl _)) h.known (.inl h.idle)

theorem ask {q : Query} (h : m.AtWork Γ ρ gone (.ask q f) B K H [] X)
    (hnext : ∀ v, (f v).Honest ρ B K H [] X) :
    (m.eval Γ (.ask q f)).Upright ρ gone m.Recalls := by
  have hsolvent : (m.eval Γ (.ask q f)).Solvent ρ.kept gone H [] := h.solvent (.refl _)
  cases q <;> exact h.goes_on rfl rfl rfl ⟨rfl, rfl, rfl⟩ rfl h.code (hnext _) hsolvent h.known
    (.inl h.idle)

theorem read {cell : CellId} {f : ω → Comp ω} (h : m.AtWork Γ ρ gone (.read cell f) B K H [] X)
    (hdefault : Contents.owned (default : ω) = []) {os : ω → List Owned}
    (hos : ∀ y, ρ.shape y → Affords (Contents.owned y) (os y))
    (hnext : ∀ y, ρ.shape y → (f y).Honest ρ B ((cell, os y) :: K) H [] X) :
    (m.eval Γ (.read cell f)).Upright ρ gone m.Recalls := by
  have hshape : ρ.shape (m.content cell) := by
    unfold content
    cases hy : m.cells.find? cell with
    | none => exact ρ.shape_default
    | some y => exact h.honest.upright.furnished.cells.find hy
  have hstored : m.stored cell = Contents.owned (m.content cell) := by
    unfold stored content
    cases m.cells.find? cell with
    | none => exact hdefault.symm
    | some y => rfl
  refine h.goes_on rfl rfl rfl ⟨rfl, rfl, rfl⟩ rfl h.code (hnext _ hshape) (h.solvent (.refl _))
    (fun k hk => ?_) (.inl h.idle)
  rcases List.mem_cons.mp hk with rfl | hk
  · exact (hstored ▸ hos _ hshape : Affords (m.stored cell) _)
  · exact h.known k hk

theorem release {os : List Owned} (h : m.AtWork Γ ρ gone (.release os next) B K H [] X)
    (hpays : Affords H (os ++ H')) (hnext : next.Honest ρ B [] H' [] X) :
    (m.eval Γ (.release os next)).Upright ρ gone m.Recalls :=
  h.goes_on rfl rfl rfl ⟨rfl, rfl, rfl⟩ rfl h.code hnext (h.solvent hpays) (by simp) (.inr rfl)

theorem scope {os X' : List Owned} {body : Comp ω}
    (h : m.AtWork Γ ρ gone (.scope os body f) B K H [] X) (hpays : Affords H (os ++ H'))
    (hbody : body.Honest ρ (os ++ B) K H' [] X')
    (hnext : ∀ v, ρ.value v → (f v).Honest ρ B [] (v.owned ++ X') [] X) :
    (m.eval Γ (.scope os body f)).Upright ρ gone m.Recalls :=
  h.goes_on rfl rfl rfl ⟨rfl, rfl, rfl⟩ rfl (.owning (.bind X hnext h.code)) hbody (h.solvent hpays)
    h.known (.inl h.idle)

theorem loop {seed : Value} {body : Value → Comp ω}
    (h : m.AtWork Γ ρ gone (.loop seed body f) B K H [] X) (hseed : ρ.value seed)
    (hpays : Affords H seed.owned)
    (hbody : ∀ v, ρ.value v → (body v).Honest ρ B [] v.owned [] [])
    (hnext : ∀ v, ρ.value v → (f v).Honest ρ B [] v.owned [] X) :
    (m.eval Γ (.loop seed body f)).Upright ρ gone m.Recalls :=
  h.goes_on rfl rfl rfl ⟨rfl, rfl, rfl⟩ rfl (.looping X hbody hnext h.code) (hbody seed hseed)
    (h.solvent hpays) (by simp) (.inl h.idle)

/-! ### Cells -/

theorem alloc {y : ω} {f : CellId → Comp ω} (h : m.AtWork Γ ρ gone (.alloc y f) B K H [] X)
    (hy : ρ.shape y) (hpays : Affords H (Contents.owned y ++ H'))
    (hnext : ∀ cell ∉ ρ.kept, (f cell).Honest ρ B K (.cell cell :: H') [] X) :
    (m.eval Γ (.alloc y f)).Upright ρ gone m.Recalls := by
  let m₁ : Machine ω := { m with cells := (m.cells.insert ⟨y, 1⟩).2 }
  have hspare : ∀ o : Owned, (m.eval Γ (.alloc y f)).spare (.asset o) =
      m.spare (.asset o) + ([Owned.cell m.cells.next].count o - (Contents.owned y).count o) := by
    intro o
    have h₁ : m₁.spare (.asset o) = _ := spare_cell_insert h.honest.counts.cells y
    have h₂ : (m₁.goOn (.eval (f m.cells.next))).spare (.asset o) = _ :=
      spare_goOn m₁ _ (by simp [m₁, h.control, Control.isFatal]) rfl
    have hload : m₁.control.load (.asset o) = 0 := by simp only [m₁, h.control, load_eval]
    rw [hload, load_eval, h₁] at h₂
    have hcell : [Holding.asset (.cell m.cells.next)].count (.asset o) =
      [Owned.cell m.cells.next].count o := count_asset [_] o
    rw [hcell, count_asset] at h₂
    change (m₁.goOn (.eval (f m.cells.next))).spare (.asset o) = _
    omega
  have hfresh : m.cells.next ∉ ρ.kept := by
    intro hkept
    have hthere := h.hand.contains (fun hzero => ρ.zero_not_mem (hzero ▸ hkept)) (.inr (.inl hkept))
    simp [Store.contains, Store.find?_next h.honest.counts.cells] at hthere
  refine ⟨{ h.honest.upright.furnished with
    cells := h.honest.upright.furnished.cells.insert hy }, ?_⟩
  refine .eval rfl h.code (hnext _ hfresh) ?_ (fun k hk => ?_) (.inl h.idle)
  · refine h.hand.next (N := []) (fun o ho => ?_)
      (fun o ho => h.step_eq ▸ Issued.step h.honest.tidy ho) (by simp) .nil (by simp)
    have := hpays o ho
    have := hspare o
    simp only [List.count_append, List.count_cons, List.count_nil] at *
    omega
  · have hknown := h.known k hk
    have hstored : (m.eval Γ (.alloc y f)).stored k.1 =
        if k.1 = m.cells.next then Contents.owned y else m.stored k.1 := by
      show (((m.cells.insert ⟨y, 1⟩).2.find? k.1).map _).getD [] = _
      rw [Store.find?_insert]
      split <;> rfl
    rw [hstored]
    split
    · rename_i hnew
      -- nothing was known of a cell that was not there
      have hnone : m.stored k.1 = [] := by
        rw [stored, hnew, Store.find?_next h.honest.counts.cells]
        rfl
      exact (Affords.nil _).trans (hnone ▸ hknown)
    · exact hknown

theorem write {cell : CellId} {y : ω} (h : m.AtWork Γ ρ gone (.write cell y next) B K H D X)
    {old : List Owned} (hy : ρ.shape y) (hold : old = [] ∨ (cell, old) ∈ K)
    (howes : ∀ o ∈ D', o.isName = true ∧ InReach B K H o)
    (hpays : Affords (H ++ old ++ D') (Contents.owned y ++ H' ++ D))
    (hnext : next.Honest ρ B (K.filter (·.1 ≠ cell)) H' D' X) :
    (m.eval Γ (.write cell y next)).Upright ρ gone m.Recalls := by
  have hregains : Affords (m.stored cell) old := by
    rcases hold with rfl | hmem
    · exact .nil _
    · exact h.known _ hmem
  have hcells := h.honest.upright.furnished.cells
  refine ⟨{ h.honest.upright.furnished with
    cells := hcells.modify fun _ _ => (hy : ρ.shape _) }, ?_⟩
  refine .eval rfl h.code hnext (h.solvent_of (N := []) (fun o ho => ?_) (by simp) .nil howes)
    (fun k hk => ?_) (.inl h.idle)
  · have := hpays o ho
    have := hregains o ho
    change _ ≤ _ + _ + _ + (m.stored cell).count o
    simp only [List.count_append, List.count_nil, Comp.spends] at *
    omega
  · obtain ⟨hmem, hne⟩ := List.mem_filter.mp hk
    have hstored : (m.eval Γ (.write cell y next)).stored k.1 = m.stored k.1 := by
      show (((m.cells.modify cell _).find? k.1).map _).getD [] = _
      rw [Store.find?_modify, if_neg (by simpa using hne)]
      rfl
    exact hstored ▸ h.known k hmem

theorem retain {cell : CellId} (h : m.AtWork Γ ρ gone (.retain (.cell cell) next) B K H [] X)
    (hc : InReach B K H (.cell cell)) (hnext : next.Honest ρ B K (.cell cell :: H) [] X) :
    (m.eval Γ (.retain (.cell cell) next)).Upright ρ gone m.Recalls := by
  have hcells := h.honest.upright.furnished.cells
  refine ⟨{ h.honest.upright.furnished with
    cells := hcells.modify fun y hy => (hcells.find hy : ρ.shape y.content) }, ?_⟩
  refine .eval rfl h.code hnext ?_ (fun k hk => ?_) (.inl h.idle)
  · refine h.hand.next (N := []) (fun o ho => ?_)
      (fun o ho => h.step_eq ▸ Issued.step h.honest.tidy ho) (by simp) .nil (by simp)
    have h₁ : (m.retain (.cell cell)).spare (.asset o) = _ := spare_retain m cell
    have h₂ : ((m.retain (.cell cell)).goOn (.eval next)).spare (.asset o) = _ :=
      spare_goOn _ _ (by simp [Machine.retain, h.control, Control.isFatal]) rfl
    have hload : (m.retain (.cell cell)).control.load (.asset o) = 0 := by
      simp only [Machine.retain, h.control, load_eval]
    have hcount : [Holding.asset (.cell cell)].count (.asset o) = [Owned.cell cell].count o :=
      count_asset [_] o
    rw [hload, load_eval, h₁, hcount] at h₂
    change _ ≤ ((m.retain (.cell cell)).goOn (.eval next)).spare (.asset o) + _ + _ + _
    by_cases hcell : Owned.cell cell = o
    · subst hcell
      rw [if_pos (h.contains ho hc)] at h₂
      simp only [List.count_cons, List.count_nil] at h₂ ⊢
      omega
    · have hnone : [Owned.cell cell].count o = 0 := List.count_eq_zero.mpr (by simpa using Ne.symm hcell)
      rw [hnone] at h₂
      rw [List.count_cons_of_ne (by simpa using hcell)]
      simp only [List.count_nil]
      split at h₂ <;> omega
  · have hstored : (m.eval Γ (.retain (.cell cell) next)).stored k.1 = m.stored k.1 := by
      show (((m.cells.modify cell _).find? k.1).map _).getD [] = _
      rw [Store.find?_modify]
      split
      · cases hy : m.cells.find? k.1 <;> simp [stored, hy]
      · rfl
    exact hstored ▸ h.known k hk

/-! ### Closures and resumptions -/

theorem closure {os : List Owned} {body : Value → Comp ω} {f : ClosureId → Comp ω}
    (h : m.AtWork Γ ρ gone (.closure os body f) B K H [] X) (hpays : Affords H (os ++ H'))
    (hbody : ∀ v, ρ.value v → (body v).Honest ρ ρ.base [] (os ++ v.owned) [] [])
    (hnext : ∀ id, (f id).Honest ρ B K (.closure id :: H') [] X) :
    (m.eval Γ (.closure os body f)).Upright ρ gone m.Recalls where
  furnished := { h.honest.upright.furnished with
    closures := h.honest.upright.furnished.closures.insert hbody }
  running := .eval rfl h.code (hnext _)
    (h.solvent_cons hpays rfl (Nat.lt_irrefl m.closures.next) (Nat.lt_succ_self _)) h.known
    (.inl h.idle)

/-- The number of a new resumption comes to the hand. -/
theorem solvent_resumption (h : m.AtWork Γ ρ gone c B K H [] X) (hspends : c.spends = [])
    (hmade : (m.eval Γ c).resumptions.next = m.resumptions.next + 1) :
    (m.eval Γ c).Solvent ρ.kept gone (.resumption m.resumptions.next :: H) [] :=
  h.solvent_cons (hspends ▸ .refl H) rfl (Nat.lt_irrefl m.resumptions.next)
    (show m.resumptions.next < _ from hmade ▸ Nat.lt_succ_self _)

theorem function {answer : String} {id : ClosureId} {f : ResumptionId → Comp ω}
    (h : m.AtWork Γ ρ gone (.function answer id f) B K H [] X)
    (hnext : ∀ r, (f r).Honest ρ B K (.resumption r :: H) [] X) :
    (m.eval Γ (.function answer id f)).Upright ρ gone m.Recalls := by
  have hsolvent := h.solvent_resumption rfl
  cases hfound : m.closures.find? id with
  | none =>
    have heval : m.eval Γ (.function answer id f) =
        m.unusable.2.goOn (.eval (f m.resumptions.next)) := by
      simp only [eval, hfound, unusable]
    rw [heval] at hsolvent ⊢
    have hall := h.honest.upright.furnished.resumptions
    exact ⟨{ h.honest.upright.furnished with resumptions := fun e he => hall e he },
      .eval rfl h.code (hnext _) (hsolvent rfl) h.known (.inl h.idle)⟩
  | some y =>
    have heval : m.eval Γ (.function answer id f) = ({ m with
        closures := m.closures.erase id
        resumptions := (m.resumptions.insert (.function answer y none)).2 } : Machine ω).goOn
          (.eval (f m.resumptions.next)) := by
      simp only [eval, hfound, Store.insert_fst]
    have hy := h.honest.upright.furnished.closures.find hfound
    rw [heval] at hsolvent ⊢
    exact ⟨{ h.honest.upright.furnished with
        closures := h.honest.upright.furnished.closures.erase id
        resumptions := h.honest.upright.furnished.resumptions.insert ⟨hy, by simp⟩ },
      .eval rfl h.code (hnext _) (hsolvent rfl) h.known (.inl h.idle)⟩

theorem take {r : ResumptionId} {f : ResumptionId → Comp ω}
    (h : m.AtWork Γ ρ gone (.take r f) B K H [] X)
    (hnext : ∀ r, (f r).Honest ρ B K (.resumption r :: H) [] X) :
    (m.eval Γ (.take r f)).Upright ρ gone m.Recalls := by
  have hsolvent := h.solvent_resumption rfl
  cases hfound : m.resumptions.find? r with
  | none =>
    have heval : m.eval Γ (.take r f) = m.unusable.2.goOn (.eval (f m.resumptions.next)) := by
      simp only [eval, hfound, unusable]
    rw [heval] at hsolvent ⊢
    have hall := h.honest.upright.furnished.resumptions
    exact ⟨{ h.honest.upright.furnished with resumptions := fun e he => hall e he },
      .eval rfl h.code (hnext _) (hsolvent rfl) h.known (.inl h.idle)⟩
  | some k =>
    have heval : m.eval Γ (.take r f) = ({ m with
        resumptions := ((m.resumptions.erase r).insert k).2 } : Machine ω).goOn
          (.eval (f m.resumptions.next)) := by
      simp only [eval, hfound, Store.insert_fst]
      rfl
    have hall := h.honest.upright.furnished.resumptions
    rw [heval] at hsolvent ⊢
    exact ⟨{ h.honest.upright.furnished with
        resumptions := (hall.erase r).insert (hall.find hfound) },
      .eval rfl h.code (hnext _) (hsolvent rfl) h.known (.inl h.idle)⟩

theorem resume {r : ResumptionId} (h : m.AtWork Γ ρ gone (.resume r v f) B K H [] X)
    (hv : ρ.value v) (hpays : Affords H v.owned)
    (hnext : ∀ w, ρ.value w → (f w).Honest ρ B [] w.owned [] X) :
    (m.eval Γ (.resume r v f)).Upright ρ gone m.Recalls := by
  have hsolvent := h.solvent_nil hpays
  cases hfound : m.resumptions.find? r with
  | none =>
    have heval : m.eval Γ (.resume r v f) = (m.push (.bind f)).goOn (.fault .resumeEmpty) := by
      simp [eval, Machine.resume, Machine.arm, push, hfound]
    rw [heval]
    exact ⟨h.honest.upright.furnished.congr rfl rfl rfl rfl rfl rfl, .ended (.inl ⟨_, rfl⟩)⟩
  | some k =>
    have heval : m.eval Γ (.resume r v f) = ((({ m.push (.bind f) with
        resumptions := m.resumptions.erase r
        exchanges := k.armExchanges m.exchanges v } : Machine ω).bump .resumes).push .stepping).goOn
          (.deliver (.tail (k.arm v))) := by
      simp only [eval, Machine.resume, arm_eq (m := m.push (.bind f)) hfound]
      rfl
    rw [heval] at hsolvent ⊢
    exact ⟨(h.honest.upright.furnished.arm k r hv).congr rfl rfl rfl rfl rfl rfl,
      .tail rfl ((h.honest.upright.furnished.resumptions.find hfound).arm hv)
        (.stepping (.bind X (by simpa using hnext) h.code)) hsolvent⟩

theorem tailResume {r : ResumptionId} (h : m.AtWork Γ ρ gone (.tailResume r v next) B K H [] X)
    (hv : ρ.value v) (hpays : Affords H (v.owned ++ H')) (hnext : next.Honest ρ B [] H' [] X) :
    (m.eval Γ (.tailResume r v next)).Upright ρ gone m.Recalls := by
  have hsolvent := h.solvent hpays
  cases hfound : m.resumptions.find? r with
  | none =>
    have heval : m.eval Γ (.tailResume r v next) = m.goOn (.fault .resumeEmpty) := by
      simp [eval, Machine.tailResume, Machine.arm, hfound]
    rw [heval]
    exact ⟨h.honest.upright.furnished.congr rfl rfl rfl rfl rfl rfl, .ended (.inl ⟨_, rfl⟩)⟩
  | some k =>
    have hfurnished := h.honest.upright.furnished.arm k r hv
    cases hpending : m.pending with
    | none =>
      have heval : m.eval Γ (.tailResume r v next) = ({ ({ m with
          resumptions := m.resumptions.erase r
          exchanges := k.armExchanges m.exchanges v } : Machine ω).bump .tailResumes with
            pending := some (k.arm v) } : Machine ω).goOn (.eval next) := by
        simp only [eval, Machine.tailResume, arm_eq hfound, bump, hpending]
      rw [heval] at hsolvent ⊢
      refine ⟨{ hfurnished with pending := fun k' hk' => ?_ },
        .eval rfl h.code hnext hsolvent (by simp) (.inl h.idle)⟩
      obtain rfl := Option.some.inj hk'
      exact (h.honest.upright.furnished.resumptions.find hfound).arm hv
    | some k' =>
      have heval : m.eval Γ (.tailResume r v next) = ((({ m with
          resumptions := m.resumptions.erase r
          exchanges := k.armExchanges m.exchanges v } : Machine ω).bump .tailResumes).release
            (k.arm v).owned).goOn (.fault .tailSlotOccupied) := by
        simp only [eval, Machine.tailResume, arm_eq hfound, bump, hpending]
      rw [heval]
      exact ⟨hfurnished.congr rfl rfl rfl rfl rfl rfl, .ended (.inl ⟨_, rfl⟩)⟩

/-! ### Installing and sending -/

theorem handle {x : Installing} {body : ReferenceId → Comp ω}
    (h : m.AtWork Γ ρ gone (.handle x body f) B K H [] X) (htype : ρ.types x.handlerType)
    (hhandler : x.handler ∉ ρ.kept) (hpays : Affords H (x.owned ++ [.cell x.handler]))
    (hbody : ∀ this, (body this).Honest ρ ((x.owned ++ [.reference this]) ++ ρ.base) [] [] [] [])
    (hnext : ∀ v, ρ.value v → (f v).Honest ρ B [] v.owned [] X) :
    (m.step Γ).chain.Manned Γ ρ ∧ (m.step Γ).Upright ρ gone (m.step Γ).Recalls := by
  have hmono : ∀ {m' : Machine ω}, m' = m.step Γ → m'.Upright ρ gone m.Recalls →
      m'.Upright ρ gone m'.Recalls := fun heq hupright =>
    hupright.mono fun _ _ _ hi => heq ▸ Recalls.step h.honest.counts hi
  have hfurnished := h.honest.upright.furnished
  have hsolvent := h.solvent_nil hpays
  rw [← h.step_eq] at hsolvent
  have hstep : m.step Γ = (m.push (.bind f)).install Γ x body := h.step_eq
  obtain ⟨nextLabel, declared, pool, counters, journal, hcases⟩ :=
    exists_install_eq (Γ := Γ) (m.push (.bind f)) x body
  rw [← hstep] at hcases
  rcases hcases with ⟨fault, heq⟩ | heq | ⟨label, -, heq⟩
  · refine ⟨heq ▸ h.honest.manned, hmono rfl ?_⟩
    rw [heq]
    exact ⟨hfurnished.congr rfl rfl rfl rfl rfl rfl, .ended (.inl ⟨_, rfl⟩)⟩
  · refine ⟨heq ▸ h.honest.manned, hmono rfl ?_⟩
    rw [heq]
    exact ⟨hfurnished.congr rfl rfl rfl rfl rfl rfl,
      .unwind rfl (.bind (X := []) X (by simpa using hnext) h.code)⟩
  · have hchain : (m.step Γ).chain = (({ m.chain with nextLabel } : Chain).create
        (x.installation Γ label)).2.push m.chain.installations.next := by rw [heq]; rfl
    have hrecalls := recalls_pushed nextLabel hchain
    have hcode : HonestCode ρ (m.step Γ).Recalls m.stack B X :=
      h.code.mono fun _ _ _ => Recalls.step h.honest.counts
    have hmore := hfurnished.mono fun _ _ _ => Recalls.step (Γ := Γ) h.honest.counts
    refine ⟨h.honest.manned.of_profile fun j => ?_, ?_⟩
    · have hprofile := ({ m.chain with nextLabel } : Chain).get_pushed Installation.profile
        (fun _ _ => rfl) (x.installation Γ label) j
      rw [hchain]
      split at hprofile
      · simp only [Installation.profile, Prod.mk.injEq] at hprofile
        exact .inr (.inr ⟨hprofile.1 ▸ htype, hprofile.2.2.trans (hprofile.1 ▸ rfl)⟩)
      · exact .inl hprofile
    · have hwaits : HonestCode ρ (m.step Γ).Recalls (.driving m.chain.installations.next
          m.fibers.parked.next :: .stepping :: .bind f :: m.stack) B [] :=
        .driving hrecalls htype hhandler (.stepping (.bind X (by simpa using hnext) hcode))
      have hbody' : HonestCode ρ (m.step Γ).Recalls [.start (body m.references.next),
          .owning (x.owned ++ [.reference m.references.next])]
          ((x.owned ++ [.reference m.references.next]) ++ ρ.base) [] :=
        .start [] (hbody _) (.owning .nil)
      have hfibers : (m.step Γ).fibers.All fun S => ∃ B, HonestCode ρ (m.step Γ).Recalls S B [] := by
        rw [show (m.step Γ).fibers = (m.push (.bind f)).fibersInstalled by rw [heq]]
        refine ⟨fun r hr => ?_, fun e he => hmore.fibers.parked e he⟩
        rcases List.mem_cons.mp hr with rfl | hr
        · exact ⟨B, hwaits⟩
        · exact hmore.fibers.waiting r hr
      have hstack : (m.step Γ).stack = [.start (body m.references.next),
          .owning (x.owned ++ [.reference m.references.next])] := congrArg Machine.stack heq
      refine ⟨⟨hfibers, ?_, ?_, ?_, ?_, ?_⟩, .wake (heq ▸ rfl) (hstack.symm ▸ hbody') hsolvent⟩
      · exact heq ▸ hmore.cells
      · exact heq ▸ hmore.closures
      · exact heq ▸ hmore.resumptions
      · exact heq ▸ hmore.pending
      · exact heq ▸ hmore.exchanges

theorem invoke (hΓ : Γ.Honest ρ) {target : Target} {command : Command}
    (h : m.AtWork Γ ρ gone (.invoke target command f) B K H [] X)
    (hpays : Affords H command.owned) (hpayload : Affords command.owned command.payload.owned)
    (hnext : ∀ v, ρ.value v → (f v).Honest ρ B [] v.owned [] X) :
    (m.eval Γ (.invoke target command f)).Upright ρ gone m.Recalls := by
  have hfurnished := h.honest.upright.furnished
  have hsolvent := h.solvent_nil hpays
  cases hdispatch : m.chain.dispatch m.referent command.name target with
  | error fault =>
    have heval : m.eval Γ (.invoke target command f) = m.goOn (.fault fault) := by
      simp only [eval, hdispatch]
    rw [heval]
    exact ⟨hfurnished.congr rfl rfl rfl rfl rfl rfl, .ended (.inl ⟨_, rfl⟩)⟩
  | ok found =>
    obtain ⟨i, entry⟩ := found
    have hplain : ((m.chain.get i).clauses[entry]?).map ClauseEntry.modifier ≠ some .plain := by
      rcases h.honest.manned i with hnone | ⟨htype, hentries⟩
      · simp [hnone]
      · rw [hentries, HandlerType.entries, List.getElem?_map, Option.map_map]
        intro heq
        obtain ⟨clause, hclause, hplain⟩ := Option.map_eq_some_iff.mp heq
        obtain ⟨run, hcode, -⟩ := hΓ.clauses _ htype clause (List.mem_of_getElem? hclause)
        simp [hcode, ClauseCode.modifier] at hplain
    obtain ⟨modifier, journal, heval⟩ : ∃ modifier journal, m.eval Γ (.invoke target command f) =
        { m with
          chain := m.chain.modify i fun a => { a with shares := a.shares + 1 }
          exchanges := (m.exchanges.insert { command := some command }).2
          journal
          stack := .sending i m.exchanges.next modifier command.name :: .bind f :: m.stack
          control := .request ⟨i, entry, m.exchanges.next, command.name⟩ } := by
      simp only [eval, hdispatch, send]
      split
      · exact absurd ‹_› hplain
      · exact ⟨_, _, rfl⟩
    rw [heval] at hsolvent ⊢
    exact ⟨{ hfurnished with
        exchanges := hfurnished.exchanges.insert
          ⟨fun command' heq => Option.some.inj heq ▸ hpayload, by simp⟩ },
      .request rfl (.sending (.bind X (by simpa using hnext) h.code)) hsolvent⟩

/-! ### All operations -/

/-- A thread stays honest when it evaluates an operation of honest code. -/
theorem step (h : m.AtWork Γ ρ gone c B K H D X) (hc : c.Honest ρ B K H D X) (hΓ : Γ.Honest ρ)
    (hdefault : Contents.owned (default : ω) = []) :
    (m.step Γ).Honest Γ ρ fun o => gone o ∨ m.Drops Γ o := by
  by_cases hhandle : ∃ x body f, c = .handle x body f
  · obtain ⟨x, body, f, rfl⟩ := hhandle
    cases hc with
    | handle htype hhandler hpays hbody hnext =>
      obtain ⟨hmanned, hupright⟩ := h.handle htype hhandler hpays hbody hnext
      exact h.honest.next_of_idle h.idle hmanned hupright
  · have hsame : m.chain.SameProfiles (m.step Γ).chain := by
      rw [h.step_eq]
      refine sameProfiles_eval (fun x body next heq => hhandle ⟨x, body, next, heq⟩)
        fun label name clauses next heq => ?_
      subst heq
      cases hc
    refine h.honest.next_of_same h.idle hsame ?_
    rw [h.step_eq]
    cases hc with
    | done hv hpays => exact h.done hv hpays
    | record hnext => exact h.record hnext
    | ask huses hpool hnext => exact h.ask hnext
    | alloc H' hy hpays hnext => exact h.alloc hy hpays hnext
    | read os hreach hos hnext => exact h.read hdefault hos hnext
    | write old H' D' hy hreach hold howes hpays hnext => exact h.write hy hold howes hpays hnext
    | retain hreach hnext => exact h.retain hreach hnext
    | release H' hpays hnext => exact h.release hpays hnext
    | scope H' X' hpays hbody hnext => exact h.scope hpays hbody hnext
    | loop hseed hpays hbody hnext => exact h.loop hseed hpays hbody hnext
    | closure H' hpays hbody hnext => exact h.closure hpays hbody hnext
    | function hreach hnext => exact h.function hnext
    | take hreach hnext => exact h.take hnext
    | resume hreach hv hpays hnext => exact h.resume hv hpays hnext
    | tailResume H' hreach hv hpays hnext => exact h.tailResume hv hpays hnext
    | handle => exact absurd ⟨_, _, _, rfl⟩ hhandle
    | invoke htarget hpays hpayload hnext => exact h.invoke hΓ hpays hpayload hnext

end AtWork

end EffectHandlers.Machine
