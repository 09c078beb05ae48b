import EffectHandlers.Client.Transcript
import EffectHandlers.Proofs.Honesty
/-!
# Honest parts of programs

What the programs that clients are put together from need, and what they leave to what comes after them.
-/

namespace EffectHandlers

/-! ### Hands -/

namespace Affords

variable {G H : List Owned}

theorem of_perm (h : H.Perm G) : Affords H G := fun o _ => (h.count_eq o).ge

theorem of_count (h : ∀ o, G.count o ≤ H.count o) : Affords H G := fun o _ => h o

/-- A share of the cell that is never there is worth nothing. -/
theorem zero (H : List Owned) : Affords H [.cell 0] := by
  intro o ho
  have hne : o ≠ .cell 0 := by
    rintro rfl
    exact ho rfl
  simp [hne.symm]

end Affords

theorem InReach.hand {B H : List Owned} {K : Knowledge} {o : Owned} (h : o ∈ H) : InReach B K H o :=
  fun _ => .inl h

theorem InReach.lent {B H : List Owned} {K : Knowledge} {o : Owned} (h : o ∈ B) : InReach B K H o :=
  fun _ => .inr (.inl h)

theorem InReach.known {B H : List Owned} {K : Knowledge} {k : CellId × List Owned} {o : Owned}
    (hk : k ∈ K) (h : o ∈ k.2) : InReach B K H o :=
  fun _ => .inr (.inr ⟨k, hk, h⟩)

namespace Comp.Honest

variable {ω : Type} [Contents ω] {ρ : Regime ω} {B G H D X : List Owned} {K K' : Knowledge}
  {c : Comp ω}

/-- What was known may be forgotten. -/
theorem forget (h : c.Honest ρ B [] H D X) : c.Honest ρ B K H D X :=
  h.mono (List.Subset.refl _) (List.nil_subset _) (.refl _)

/-- A cell is written that the program knows nothing of. -/
theorem overwrite {cell : CellId} {y : ω} {next : Comp ω} (hy : ρ.shape y)
    (hc : InReach B K H (.cell cell)) (hpays : Affords H (Contents.owned y ++ G))
    (h : next.Honest ρ B [] G [] X) : (Comp.write cell y next).Honest ρ B K H [] X :=
  .write [] G [] hy hc (.inl rfl) (by simp)
    (by simpa using hpays) h.forget

end Comp.Honest

/-! ### Cells of clients -/

namespace Content

/-- The value that is seen in a cell with these contents. -/
def asValue : Content → Value
  | value v => v
  | _ => .unit

/-- The queue that is seen in a cell with these contents. -/
def asList : Content → List Value
  | list vs => vs
  | _ => []

end Content

section Tasks

variable {ρ : Regime Content} {B G H X : List Owned} {K : Knowledge} {c : CellId}

namespace Task

theorem readValue_eq (c : CellId) (k : Value → Comp Content) :
    readValue c k = .read c fun y => k y.asValue :=
  congrArg (Comp.read c) (funext fun y => by cases y <;> rfl)

theorem readList_eq (c : CellId) (k : List Value → Comp Content) :
    readList c k = .read c fun y => k y.asList :=
  congrArg (Comp.read c) (funext fun y => by cases y <;> rfl)

theorem honest_readValue {k : Value → Comp Content} (hc : InReach B K H (.cell c))
    (h : ∀ v, ρ.shape (.value v) ∨ v = .unit → (k v).Honest ρ B ((c, v.owned) :: K) H [] X) :
    (readValue c k).Honest ρ B K H [] X := by
  rw [readValue_eq]
  refine .read (fun y => y.asValue.owned) hc (fun y _ => ?_) fun y hy => h y.asValue ?_
  · cases y with
    | value v => exact .refl _
    | _ => exact .nil _
  · cases y with
    | value v => exact .inl hy
    | _ => exact .inr rfl

theorem honest_readText {k : String → Comp Content} (hc : InReach B K H (.cell c))
    (h : ∀ s, (k s).Honest ρ B K H [] X) : (readText c k).Honest ρ B K H [] X :=
  honest_readValue hc fun v _ =>
    (h v.toText).mono (List.Subset.refl _) (List.subset_cons_self ..) (.refl _)

theorem honest_readList {k : List Value → Comp Content} (hc : InReach B K H (.cell c))
    (h : ∀ vs, ρ.shape (.list vs) ∨ vs = [] →
      (k vs).Honest ρ B ((c, vs.flatMap Value.owned) :: K) H [] X) :
    (readList c k).Honest ρ B K H [] X := by
  rw [readList_eq]
  refine .read (fun y => y.asList.flatMap Value.owned) hc (fun y _ => ?_) fun y hy => h y.asList ?_
  · cases y with
    | list vs => exact .refl _
    | _ => exact .nil _
  · cases y with
    | list vs => exact .inl hy
    | _ => exact .inr rfl

theorem honest_writeValue {v : Value} {k : Unit → Comp Content} (hv : ρ.shape (.value v))
    (hc : InReach B K H (.cell c)) (hpays : Affords H (v.owned ++ G))
    (h : (k ()).Honest ρ B [] G [] X) : (writeValue c v k).Honest ρ B K H [] X :=
  .overwrite hv hc hpays h

theorem honest_pushBack {v : Value} {k : Unit → Comp Content}
    (hv : ∀ vs, ρ.shape (.list vs) ∨ vs = [] → ρ.shape (.list (vs ++ [v])))
    (hc : InReach B K H (.cell c)) (hpays : Affords H (v.owned ++ G))
    (h : (k ()).Honest ρ B [] G [] X) : (pushBack c v k).Honest ρ B K H [] X := by
  refine honest_readList hc fun vs hvs => ?_
  refine .write (vs.flatMap Value.owned) G [] (hv vs hvs)
    (hc.mono (List.Subset.refl _) (List.subset_cons_self ..) (.refl _)) (.inr List.mem_cons_self)
    (by simp) (.trans ?_ (.of_perm (List.Perm.refl _))) h.forget
  intro o ho
  have := hpays o ho
  simp only [Contents.owned, Content.owned, List.flatMap_append, List.flatMap_cons,
    List.flatMap_nil, List.append_nil, List.count_append] at this ⊢
  omega

theorem honest_popFront {k : Option Value → Comp Content}
    (hshape : ∀ v vs, ρ.shape (.list (v :: vs)) → ρ.shape (.list vs))
    (hc : InReach B K H (.cell c)) (hnone : (k none).Honest ρ B [] H [] X)
    (hsome : ∀ v, (k (some v)).Honest ρ B [] (v.owned ++ H) [] X) :
    (popFront c k).Honest ρ B K H [] X := by
  refine honest_readList hc fun vs hvs => ?_
  cases vs with
  | nil => exact hnone.forget
  | cons v vs =>
    have hlist : ρ.shape (.list (v :: vs)) := hvs.resolve_right (by simp)
    refine .write ((v :: vs).flatMap Value.owned) (v.owned ++ H) [] (hshape v vs hlist)
      (hc.mono (List.Subset.refl _) (List.subset_cons_self ..) (.refl _)) (.inr List.mem_cons_self)
      (by simp) (.of_count fun o => ?_) (hsome v).forget
    simp only [Contents.owned, Content.owned, List.flatMap_cons, List.append_nil, List.count_append]
    omega

end Task

theorem Transcript.honest_emit {text : String} {k : Unit → Comp Content}
    (htext : ∀ s, ρ.shape (.value (.text s))) (hc : .cell Transcript.cell ∈ B)
    (h : (k ()).Honest ρ B [] H [] X) : (emit text k).Honest ρ B K H [] X :=
  Task.honest_readText (.lent hc) fun _ =>
    Task.honest_writeValue (htext _) (.lent hc) (.refl _) h

end Tasks

/-! ### Programs -/

namespace Prog

variable {ω : Type} [Contents ω] {ρ : Regime ω} {B G H X : List Owned} {K : Knowledge}

/-- Shares of cells are added to the hand. -/
theorem honest_retainAll {os : List Owned} {k : Unit → Comp ω}
    (hos : ∀ o ∈ os, ∃ c, o = .cell c ∧ InReach B K H o)
    (h : (k ()).Honest ρ B K (os ++ H) [] X) : (retainAll os k).Honest ρ B K H [] X := by
  induction os generalizing H with
  | nil => exact h
  | cons o os ih =>
    obtain ⟨c, rfl, hc⟩ := hos o List.mem_cons_self
    refine .retain hc (ih (fun o ho => ?_) (h.mono (List.Subset.refl _) (List.Subset.refl _)
      (.of_perm (List.perm_middle))))
    obtain ⟨c', rfl, hc'⟩ := hos o (List.mem_cons_of_mem _ ho)
    exact ⟨c', rfl, hc'.mono (List.Subset.refl _) (List.Subset.refl _)
      (.of_count fun o' => List.count_le_count_cons)⟩

/-- What is owned while a body runs is in the hand again when it has ended. -/
theorem honest_keeping {os : List Owned} {body : Prog ω Unit} {k : Unit → Comp ω}
    (hos : ∀ o ∈ os, ∃ c, o = .cell c) (hunit : ρ.value .unit) (hpays : Affords H (os ++ G))
    (hbody : ∀ {k' : Unit → Comp ω} {X'}, (k' ()).Honest ρ (os ++ B) [] [] [] X' →
      (body k').Honest ρ (os ++ B) K G [] X')
    (h : ∀ {G}, Affords G os → (k ()).Honest ρ B [] G [] X) :
    (keeping os body k).Honest ρ B K H [] X := by
  refine .scope G os hpays (hbody ?_) fun v _ => h (.of_count fun o => ?_)
  · refine honest_retainAll (fun o ho => ?_) (.done hunit (.of_count fun o => ?_))
    · obtain ⟨c, rfl⟩ := hos o ho
      exact ⟨c, rfl, .lent (List.mem_append_left _ ho)⟩
    · simp [Value.owned]
  · simp [List.count_append]

end Prog

end EffectHandlers
