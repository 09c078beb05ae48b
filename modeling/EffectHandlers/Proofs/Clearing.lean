import EffectHandlers.Proofs.Holdings
/-!
# Clearing the release list

What lies above some point of the release list is released first, with everything that is freed
on the way. The releases are listed in their order; what is said about one release adds up.
-/

namespace EffectHandlers.Machine

variable {ω : Type} [Contents ω] {Γ : Library ω}

/-- Everything above `hs` on the release list is being released, so far `zs` in this order. -/
inductive Releases (hs : List Holding) : Machine ω → List Holding → Machine ω → Prop
  | refl (m : Machine ω) : Releases hs m [] m
  | next {m x xs os m₁ zs m'} (hreleasing : m.releasing = x :: (xs ++ hs))
      (hgives : Gives { m with releasing := xs ++ hs } x os m₁)
      (hrest : Releases hs (m₁.release os) zs m') : Releases hs m (x :: zs) m'

/-- What can be reached from something that is held by what it owns. -/
def LeadsTo (m : Machine ω) : Holding → Holding → Prop :=
  Relation.ReflTransGen fun x y => y ∈ m.owns x

variable {m m' m'' m₁ : Machine ω} {l : Layout ω} {x y : Holding}
  {os xs ys zs zs' hs : List Holding}

theorem run_releasing (hreleasing : m.releasing = x :: hs) (n : Nat) :
    run Γ (n + 1) m = run Γ n (({ m with releasing := hs } : Machine ω).releaseOne x) := by
  rw [← step_releasing (Γ := Γ) hreleasing]
  conv => lhs; unfold run
  split
  · simp_all
  · rfl

/-- What is left owns what it owned. -/
theorem Loses.mem_owns (h : m.Loses m') (hy : y ∈ m'.owns x) : y ∈ m.owns x := by
  have hfound : ∀ {α : Type} {s s' : Store α} {id : Nat} {g : α → List Holding},
      (∀ a', s'.find? id = some a' → ∃ a, s.find? id = some a ∧ g a = g a') →
      y ∈ (s'.find? id).elim [] g → y ∈ (s.find? id).elim [] g := by
    intro α s s' id g hless hy
    cases hs' : s'.find? id with
    | none => simp [hs'] at hy
    | some a' =>
      obtain ⟨a, ha, heq⟩ := hless a' hs'
      simpa [hs', ha, heq] using hy
  match x with
  | .asset (.cell c) =>
    refine hfound (fun a' ha' => ?_) hy
    obtain ⟨a, ha, heq⟩ := h.cells c a' ha'
    exact ⟨a, ha, by simp [Shared.owned, heq]⟩
  | .asset (.reference r) => exact hfound (fun i hi => ⟨i, h.references r i hi, rfl⟩) hy
  | .asset (.closure f) => exact hfound (fun a ha => ⟨a, h.closures f a ha, rfl⟩) hy
  | .asset (.resumption r) => exact hfound (fun k hk => ⟨k, h.resumptions r k hk, rfl⟩) hy
  | .asset (.notice n) => simp [owns] at hy
  | .installation i =>
    refine hfound (fun a' ha' => ?_) hy
    obtain ⟨a, ha, heq⟩ := h.installations i a' ha'
    exact ⟨a, ha, by rw [heq]; rfl⟩
  | .fiber f => exact hfound (fun S hS => ⟨S, h.parked f S hS, rfl⟩) hy
  | .exchange e => exact hfound (fun a ha => ⟨a, h.exchanges e a ha, rfl⟩) hy

theorem Loses.leadsTo (h : m.Loses m') (hy : m'.LeadsTo x y) : m.LeadsTo x y :=
  Relation.ReflTransGen.mono (fun _ _ => h.mem_owns) _ _ hy

omit [Contents ω] in
/-- What is left was there. -/
theorem Loses.has (h : m.Loses m') (hy : m'.has y = true) : m.has y = true := by
  have hfound : ∀ {α : Type} {s s' : Store α} {id : Nat},
      (∀ a', s'.find? id = some a' → ∃ a, s.find? id = some a) →
      s'.contains id = true → s.contains id = true := by
    intro α s s' id hless hy
    obtain ⟨a', ha'⟩ := Option.isSome_iff_exists.mp hy
    obtain ⟨a, ha⟩ := hless a' ha'
    simp [Store.contains, ha]
  cases y with
  | asset o =>
    cases o with
    | cell c => exact hfound (fun a' ha' => ⟨_, (h.cells c a' ha').choose_spec.1⟩) hy
    | reference r => exact hfound (fun i hi => ⟨i, h.references r i hi⟩) hy
    | closure f => exact hfound (fun a ha => ⟨a, h.closures f a ha⟩) hy
    | resumption r => exact hfound (fun k hk => ⟨k, h.resumptions r k hk⟩) hy
    | notice n => exact hy
  | installation i => exact hfound (fun a' ha' => ⟨_, (h.installations i a' ha').choose_spec.1⟩) hy
  | fiber f => exact hfound (fun S hS => ⟨S, h.parked f S hS⟩) hy
  | exchange e => exact hfound (fun a ha => ⟨a, h.exchanges e a ha⟩) hy

namespace Releases

theorem run (h : Releases hs m zs m') : run Γ zs.length m = m' := by
  induction h with
  | refl => rfl
  | next hreleasing hgives hrest ih =>
    rw [List.length_cons, run_releasing hreleasing, hgives.eq, ih]

theorem trans (h : Releases hs m zs m') (h' : Releases hs m' zs' m'') :
    Releases hs m (zs ++ zs') m'' := by
  induction h with
  | refl => exact h'
  | next hreleasing hgives hrest ih => exact .next hreleasing hgives (ih h')

/-- Releases can be interrupted. -/
theorem split (h : Releases hs m (zs ++ zs') m'') :
    ∃ m', Releases hs m zs m' ∧ Releases hs m' zs' m'' := by
  induction zs generalizing m with
  | nil => exact ⟨m, .refl m, h⟩
  | cons z zs ih =>
    cases h with
    | next hreleasing hgives hrest =>
      obtain ⟨m', hleft, hright⟩ := ih hrest
      exact ⟨m', .next hreleasing hgives hleft, hright⟩

/-- Until everything is released that came on top of `hs`, there is more to release. -/
theorem exists_next (h : Releases hs m zs m') {p : Nat} (hp : p < zs.length) :
    ∃ x xs, (EffectHandlers.Machine.run Γ p m).releasing = x :: (xs ++ hs) := by
  obtain ⟨m₁, hleft, hright⟩ := (List.take_append_drop p zs ▸ h).split
  have hrun := hleft.run (Γ := Γ)
  rw [List.length_take_of_le (Nat.le_of_lt hp)] at hrun
  rw [hrun]
  rw [List.drop_eq_getElem_cons hp] at hright
  cases hright with
  | next hreleasing => exact ⟨_, _, hreleasing⟩

/-- The tables stay well-formed with a release. -/
theorem filed_first (hgives : Gives { m with releasing := xs } x os m₁) (hm : m.Filed) :
    (m₁.release os).Filed := { hgives.filed { hm with } with }

theorem filed (h : Releases hs m zs m') (hm : m.Filed) : m'.Filed := by
  induction h with
  | refl => exact hm
  | next hreleasing hgives hrest ih => exact ih (filed_first hgives hm)

/-- What a release leaves was there before. -/
theorem loses_first (hgives : Gives { m with releasing := xs } x os m₁) (hm : m.Filed) :
    m.Loses (m₁.release os) := { hgives.loses { hm with } with }

theorem loses (h : Releases hs m zs m') (hm : m.Filed) : m.Loses m' := by
  induction h with
  | refl m => exact .refl m
  | next hreleasing hgives hrest ih =>
    exact (loses_first hgives hm).trans (ih (filed_first hgives hm))

/-- Everything is released once: what was held was released, or is still held. -/
theorem held (h : Releases hs m zs m') : m.held.Perm (zs ++ m'.held) := by
  induction h with
  | refl => rfl
  | @next m x xs os m₁ zs m' hreleasing hgives hrest ih =>
    have hfirst : m.held = x :: ({ m with releasing := xs ++ hs } : Machine ω).held := by
      simp only [Machine.held, hreleasing]
      rfl
    rw [hfirst]
    exact (hgives.held.trans ih).cons x

/-- What was to be released is released in its order, with what is freed in between. -/
theorem sublist (h : Releases hs m zs m') (hreleasing : m.releasing = xs ++ hs) :
    ∃ ys, m'.releasing = ys ++ hs ∧ xs.Sublist (zs ++ ys) := by
  induction h generalizing xs with
  | refl => exact ⟨xs, hreleasing, .refl xs⟩
  | @next m x xs' os m₁ zs m' hfirst hgives hrest ih =>
    obtain rfl : xs = x :: xs' := List.append_cancel_right (hreleasing.symm.trans hfirst)
    have hafter : (m₁.release os).releasing = os ++ xs' ++ hs := by
      rw [release, hgives.releasing, List.append_assoc]
    obtain ⟨ys, hys, hsub⟩ := ih hafter
    exact ⟨ys, hys, ((List.sublist_append_right os xs').trans hsub).cons_cons x⟩

theorem has (h : Releases hs m zs m') (hm : m.Filed) (hy : y ∉ zs) : m'.has y = m.has y := by
  induction h with
  | refl => rfl
  | next hreleasing hgives hrest ih =>
    simp only [List.mem_cons, not_or] at hy
    exact (ih (filed_first hgives hm) hy.2).trans (hgives.has { hm with } hy.1)

theorem shares (h : Releases hs m zs m') (hm : m.Filed) (y : Holding) :
    m'.shares y = m.shares y - zs.count y := by
  induction h with
  | refl => simp
  | @next m x xs os m₁ zs m' hreleasing hgives hrest ih =>
    rw [ih (filed_first hgives hm), hgives.shares hm.cells hm.installations y, List.count_cons]
    simp only [beq_iff_eq, eq_comm (a := x)]
    show m.shares y - _ - _ = _
    omega

theorem shares_pos (h : Releases hs m zs m') (hm : m.Filed) (hpos : 0 < m.shares y)
    (hy : m'.has y = true) : 0 < m'.shares y := by
  induction h with
  | refl => exact hpos
  | next hreleasing hgives hrest ih =>
    have hfiled := filed_first hgives hm
    exact ih hfiled (hgives.shares_pos { hm with } hpos ((hrest.loses hfiled).has hy)) hy

theorem noticed (h : Releases hs m zs m') :
    m'.noticed = (zs.filterMap Holding.notice?).reverse ++ m.noticed := by
  induction h with
  | refl => rfl
  | @next m x xs os m₁ zs m' hreleasing hgives hrest ih =>
    rw [ih, hgives.noticed, List.filterMap_cons]
    cases x.notice? with
    | none => rfl
    | some n => simp [Machine.noticed]

/-- Every resumption that is freed is counted, and nothing else. -/
theorem counted (h : Releases hs m zs m') :
    m'.counters = { m.counters with discarded := m'.counters.discarded } ∧
      m'.counters.discarded + m'.resumptions.entries.length =
        m.counters.discarded + m.resumptions.entries.length := by
  induction h with
  | refl => exact ⟨rfl, rfl⟩
  | next hreleasing hgives hrest ih =>
    obtain ⟨hcounters, hsum⟩ := hgives.counted
    refine ⟨?_, ih.2.trans hsum⟩
    rw [ih.1, hcounters]

/-- What is released can be reached from what was to be released. -/
theorem leadsTo (h : Releases hs m zs m') (hm : m.Filed) (hreleasing : m.releasing = xs ++ hs)
    (hz : x ∈ zs) : ∃ y ∈ xs, m.LeadsTo y x := by
  induction h generalizing xs with
  | refl => cases hz
  | @next m y xs' os m₁ zs m' hfirst hgives hrest ih =>
    obtain rfl : xs = y :: xs' := List.append_cancel_right (hreleasing.symm.trans hfirst)
    rcases List.mem_cons.mp hz with rfl | hz
    · exact ⟨x, List.mem_cons_self, .refl⟩
    · have hafter : (m₁.release os).releasing = os ++ xs' ++ hs := by
        rw [release, hgives.releasing, List.append_assoc]
      have hloses := loses_first hgives hm
      obtain ⟨y', hy', hreach⟩ := ih (filed_first hgives hm) hafter hz
      rcases List.mem_append.mp hy' with hy' | hy'
      · rcases hgives.owns with hos | hos
        · simp [hos] at hy'
        · exact ⟨y, List.mem_cons_self, .head (hos ▸ hy') (hloses.leadsTo hreach)⟩
      · exact ⟨y', List.mem_cons_of_mem _ hy', hloses.leadsTo hreach⟩

/-- What is not counted in shares is gone when it was released. -/
theorem gone (h : Releases hs m zs m') (hm : m.Filed) (hx : x ∈ zs)
    (hkind : (∃ r, x = .asset (.reference r)) ∨ (∃ r, x = .asset (.resumption r)) ∨
      ∃ f, x = .fiber f) : m'.has x = false := by
  induction h with
  | refl => cases hx
  | @next m y xs os m₁ zs m' hreleasing hgives hrest ih =>
    have hfiled := filed_first hgives hm
    rcases List.mem_cons.mp hx with rfl | hx
    · have hgone := hgives.has_self { hm with } hkind
      cases hhas : m'.has x with
      | false => rfl
      | true => exact absurd ((hrest.loses hfiled).has hhas) (by simp [hgone])
    · exact ih hfiled hx

/-- What is lost is lost where it is released. -/
theorem lost (h : Releases hs m zs m') (hm : m.Filed) (hx : m.has x = true)
    (hgone : m'.has x = false) :
    ∃ zs₁ zs₂ m₁ m₂, zs = zs₁ ++ x :: zs₂ ∧ Releases hs m zs₁ m₁ ∧ m₁.has x = true ∧
      Releases hs m₁ [x] m₂ ∧ m₂.has x = false ∧ Releases hs m₂ zs₂ m' := by
  induction h with
  | refl => simp [hx] at hgone
  | @next m y xs os m₂ zs m' hreleasing hgives hrest ih =>
    cases hhas : (m₂.release os).has x with
    | true =>
      obtain ⟨zs₁, zs₂, m₃, m₄, hzs, hbefore, hthere, hone, habsent, hafter⟩ :=
        ih (filed_first hgives hm) hhas hgone
      exact ⟨y :: zs₁, zs₂, m₃, m₄, by rw [hzs]; rfl, .next hreleasing hgives hbefore, hthere,
        hone, habsent, hafter⟩
    | false =>
      have hxy : x = y := by
        by_contra hne
        have hsame : (m₂.release os).has x = m.has x := hgives.has { hm with } hne
        simp [hsame, hx] at hhas
      subst hxy
      exact ⟨[], zs, m, _, rfl, .refl m, hx, .next hreleasing hgives (.refl _), hhas, hrest⟩

/-- Clearing ends. -/
theorem exists_clear (hreleasing : m.releasing = xs ++ hs) :
    ∃ zs m', Releases hs m zs m' ∧ m'.releasing = hs := by
  induction hburden : m.burden using Nat.strong_induction_on generalizing m xs with
  | _ n ih =>
    cases xs with
    | nil => exact ⟨[], m, .refl m, hreleasing⟩
    | cons x xs =>
      obtain ⟨os, m₁, hgives, heq⟩ := releaseOne_gives { m with releasing := xs ++ hs } x
      have hafter : (m₁.release os).releasing = os ++ xs ++ hs := by
        rw [release, hgives.releasing, List.append_assoc]
      have hless : (m₁.release os).burden < m.burden := by
        rw [← heq]
        exact burden_releaseOne hreleasing
      obtain ⟨zs, m', hrest, hend⟩ := ih _ (hburden ▸ hless) hafter rfl
      exact ⟨x :: zs, m', .next hreleasing hgives hrest, hend⟩

theorem sound (h : Releases hs m zs m') (hsound : Sound Γ m l) : ∃ l', Sound Γ m' l' := by
  induction h generalizing l with
  | refl => exact ⟨l, hsound⟩
  | next hreleasing hgives hrest ih =>
    obtain ⟨l', hsound'⟩ := hsound.releaseOne hreleasing
    exact ih (hgives.eq ▸ hsound')

end Releases

end EffectHandlers.Machine
