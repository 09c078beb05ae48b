import EffectHandlers.Machine.State
import EffectHandlers.Proofs.Links
/-!
# Drivers in suspended code

Code that is not running now waits: its drivers wait for the fibers of their bodies, and plain
clauses that were sent from it hide installations while they run. `drivers` lists the former,
`exposed` says which of their installations are to be found on the chain, and `Hides` that each
plain clause holds the others. Both are taken over a base, the list below the code, so that a
piece of code can be cut off from what is below it and put on top of something else.
-/

namespace EffectHandlers

variable {ω : Type} {c c' : Chain} {i j : InstallationId} {a : Activation ω}
  {P S : List (Activation ω)} {B : List InstallationId}

/-! ### Lists cut behind an element -/

section Through

variable {α : Type} [DecidableEq α] {x y : α} {l r : List α}

/-- The part of a list up to and including an element. -/
def takeThrough (x : α) : List α → List α
  | [] => []
  | y :: ys => if y = x then [y] else y :: takeThrough x ys

/-- The part of a list behind an element. -/
def dropThrough (x : α) : List α → List α
  | [] => []
  | y :: ys => if y = x then ys else dropThrough x ys

theorem takeThrough_append_dropThrough (x : α) (l : List α) :
    takeThrough x l ++ dropThrough x l = l := by
  induction l with
  | nil => rfl
  | cons y ys ih =>
    by_cases h : y = x
    · simp [takeThrough, dropThrough, h]
    · simp [takeThrough, dropThrough, h, ih]

theorem dropThrough_append_of_mem (h : x ∈ l) :
    dropThrough x (l ++ r) = dropThrough x l ++ r := by
  induction l with
  | nil => simp at h
  | cons y ys ih =>
    by_cases hy : y = x
    · simp [dropThrough, hy]
    · have hx : x ∈ ys := by simpa [Ne.symm hy] using h
      simp [dropThrough, hy, ih hx]

theorem dropThrough_append_of_notMem (h : x ∉ l) :
    dropThrough x (l ++ r) = dropThrough x r := by
  induction l with
  | nil => rfl
  | cons y ys ih =>
    simp only [List.mem_cons, not_or] at h
    simp [dropThrough, Ne.symm h.1, ih h.2]

theorem takeThrough_append_of_mem (h : x ∈ l) : takeThrough x (l ++ r) = takeThrough x l := by
  induction l with
  | nil => simp at h
  | cons y ys ih =>
    by_cases hy : y = x
    · simp [takeThrough, hy]
    · have hx : x ∈ ys := by simpa [Ne.symm hy] using h
      simp [takeThrough, hy, ih hx]

theorem dropThrough_sublist (x : α) (l : List α) : (dropThrough x l).Sublist l := by
  conv => rhs; rw [← takeThrough_append_dropThrough x l]
  exact List.sublist_append_right _ _

theorem dropThrough_of_notMem (h : x ∉ l) : dropThrough x l = [] := by
  simpa [dropThrough] using dropThrough_append_of_notMem (r := []) h

/-- A list that holds an element is cut right behind it. -/
theorem takeThrough_eq_append (h : x ∈ l) : ∃ front, takeThrough x l = front ++ [x] := by
  induction l with
  | nil => simp at h
  | cons y ys ih =>
    by_cases hy : y = x
    · exact ⟨[], by simp [takeThrough, hy]⟩
    · obtain ⟨front, hfront⟩ := ih (by simpa [Ne.symm hy] using h)
      exact ⟨y :: front, by simp [takeThrough, hy, hfront]⟩

/-- In a list without repetition, the part behind an element is what is not in the part before. -/
theorem filter_notMem_takeThrough (h : l.Nodup) :
    l.filter (fun y => y ∉ takeThrough x l) = dropThrough x l := by
  have hsplit := takeThrough_append_dropThrough x l
  rw [← hsplit] at h
  have hdisjoint := (List.nodup_append.mp h).2.2
  have hnone : (takeThrough x l).filter (fun y => y ∉ takeThrough x l) = [] := by
    simp
  have hall : (dropThrough x l).filter (fun y => y ∉ takeThrough x l) = dropThrough x l := by
    rw [List.filter_eq_self]
    intro y hy
    simpa using fun hmem => hdisjoint y hmem y hy rfl
  calc l.filter (fun y => y ∉ takeThrough x l)
      = (takeThrough x l ++ dropThrough x l).filter (fun y => y ∉ takeThrough x l) := by
        rw [hsplit]
    _ = dropThrough x l := by rw [List.filter_append, hnone, hall, List.nil_append]

end Through

/-! ### Drivers and what they expose -/

/-- The installation of a driver. -/
def Activation.driver? : Activation ω → Option InstallationId
  | driving i _ => some i
  | _ => none

/-- The installations of the drivers in a piece of code, innermost first. -/
def drivers (S : List (Activation ω)) : List InstallationId := S.filterMap Activation.driver?

/-- What an activation does to the list of exposed installations below it. -/
def Activation.expose : Activation ω → List InstallationId → List InstallationId
  | driving i _, is => i :: is
  | inPlace i .., is => dropThrough i is
  | _, is => is

/-- The installations that a piece of code leaves exposed on top of a base, innermost first. -/
def exposed (B : List InstallationId) (S : List (Activation ω)) : List InstallationId :=
  S.foldr Activation.expose B

/-- Each plain clause in a piece of code holds the segment that it hides: all that is exposed
below it, down to the installation that it answers for. -/
def Hides (c : Chain) (B : List InstallationId) : List (Activation ω) → Prop
  | [] => True
  | .inPlace i _ hidden _ :: S =>
    hidden.lowest = i ∧ i ∈ exposed B S ∧
      c.Linked (some hidden.top) (takeThrough i (exposed B S)) none ∧ Hides c B S
  | _ :: S => Hides c B S

@[simp] theorem drivers_nil : drivers ([] : List (Activation ω)) = [] := rfl

theorem drivers_cons : drivers (a :: S) = a.driver?.toList ++ drivers S := by
  cases h : a.driver? <;> simp [drivers, h]

theorem drivers_append : drivers (P ++ S) = drivers P ++ drivers S := List.filterMap_append

@[simp] theorem exposed_nil : exposed B ([] : List (Activation ω)) = B := rfl

@[simp] theorem exposed_cons : exposed B (a :: S) = a.expose (exposed B S) := rfl

theorem exposed_append : exposed B (P ++ S) = exposed (exposed B S) P := List.foldr_append

theorem hides_append : Hides c B (P ++ S) ↔ Hides c (exposed B S) P ∧ Hides c B S := by
  induction P with
  | nil => simp [Hides]
  | cons a P ih =>
    cases a <;> simp only [List.cons_append, Hides, ih, exposed_append, and_assoc]

/-- Only drivers and the base can be exposed. -/
theorem exposed_sublist (B : List InstallationId) (S : List (Activation ω)) :
    (exposed B S).Sublist (drivers S ++ B) := by
  induction S with
  | nil => simp
  | cons a S ih =>
    cases a
    case driving i f => exact ih.cons_cons i
    case inPlace i h hidden e => exact (dropThrough_sublist i _).trans ih
    all_goals exact ih

/-- A base installation that stays exposed cuts the code off from what is below it. -/
theorem exposed_split (hi : i ∈ exposed (i :: B) P) (hP : i ∉ drivers P) (hB : i ∉ B) :
    exposed (i :: B) P = exposed [i] P ++ B ∧ i ∈ exposed [i] P := by
  induction P with
  | nil => simp
  | cons a P ih =>
    cases a
    case driving k f =>
      have hk : i ≠ k ∧ i ∉ drivers P := by simpa [drivers, Activation.driver?] using hP
      have hmem : i ∈ exposed (i :: B) P := by simpa [Activation.expose, hk.1] using hi
      obtain ⟨heq, hin⟩ := ih hmem hk.2
      exact ⟨by simp [Activation.expose, heq], by simp [Activation.expose, hin]⟩
    case inPlace k h hidden e =>
      simp only [exposed_cons, Activation.expose] at hi ⊢
      obtain ⟨heq, -⟩ := ih ((dropThrough_sublist k _).subset hi) hP
      rw [heq] at hi ⊢
      have hk : k ∈ exposed [i] P := by
        refine Decidable.byContradiction fun hk => ?_
        rw [dropThrough_append_of_notMem hk] at hi
        exact hB ((dropThrough_sublist k B).subset hi)
      rw [dropThrough_append_of_mem hk] at hi ⊢
      refine ⟨rfl, ?_⟩
      rcases List.mem_append.mp hi with hi | hi
      · exact hi
      · exact absurd hi hB
    all_goals exact ih hi hP

/-- Code that keeps its lowest installation exposed exposes the same on top of anything. -/
theorem exposed_splice (hi : i ∈ exposed [i] P) (hP : i ∉ drivers P) (B : List InstallationId) :
    exposed (i :: B) P = exposed [i] P ++ B := by
  induction P with
  | nil => simp
  | cons a P ih =>
    cases a
    case driving k f =>
      have hk : i ≠ k ∧ i ∉ drivers P := by simpa [drivers, Activation.driver?] using hP
      have hmem : i ∈ exposed [i] P := by simpa [Activation.expose, hk.1] using hi
      simp [Activation.expose, ih hmem hk.2]
    case inPlace k h hidden e =>
      simp only [exposed_cons, Activation.expose] at hi ⊢
      rw [ih ((dropThrough_sublist k _).subset hi) hP]
      have hk : k ∈ exposed [i] P := by
        refine Decidable.byContradiction fun hk => ?_
        rw [dropThrough_of_notMem hk] at hi
        simp at hi
      rw [dropThrough_append_of_mem hk]
    all_goals exact ih hi hP

/-- The lowest installation comes last. -/
theorem exposed_eq_append (hi : i ∈ exposed [i] P) (hP : i ∉ drivers P) :
    ∃ front, exposed [i] P = front ++ [i] ∧ front.Sublist (drivers P) := by
  induction P with
  | nil => exact ⟨[], by simp⟩
  | cons a P ih =>
    cases a
    case driving k f =>
      have hk : i ≠ k ∧ i ∉ drivers P := by simpa [drivers, Activation.driver?] using hP
      have hmem : i ∈ exposed [i] P := by simpa [Activation.expose, hk.1] using hi
      obtain ⟨front, heq, hsub⟩ := ih hmem hk.2
      exact ⟨k :: front, by simp [Activation.expose, heq], hsub.cons_cons k⟩
    case inPlace k h hidden e =>
      simp only [exposed_cons, Activation.expose] at hi ⊢
      obtain ⟨front, heq, hsub⟩ := ih ((dropThrough_sublist k _).subset hi) hP
      rw [heq] at hi ⊢
      by_cases hk : k ∈ front
      · rw [dropThrough_append_of_mem hk]
        exact ⟨_, rfl, (dropThrough_sublist k front).trans hsub⟩
      · rw [dropThrough_append_of_notMem hk] at hi
        by_cases hki : i = k
        · simp [dropThrough, hki] at hi
        · simp [dropThrough, hki] at hi
    all_goals exact ih hi hP

/-- Only the links of drivers and of the base matter to what is hidden. -/
theorem Hides.congr (hsame : ∀ i ∈ drivers S ++ B, (c'.get i).below = (c.get i).below)
    (h : Hides c B S) : Hides c' B S := by
  induction S with
  | nil => trivial
  | cons a S ih =>
    cases a
    case driving k f =>
      exact ih (fun i hi => hsame i (List.mem_cons_of_mem k hi)) h
    case inPlace k hd hidden e =>
      obtain ⟨hlow, hk, hpath, hrest⟩ := h
      refine ⟨hlow, hk, hpath.congr fun i hi => hsame i ?_, ih hsame hrest⟩
      have hmem : i ∈ takeThrough k (exposed B S) ++ dropThrough k (exposed B S) :=
        List.mem_append_left _ hi
      rw [takeThrough_append_dropThrough] at hmem
      exact (exposed_sublist B S).subset hmem
    all_goals exact ih hsame h

/-- The link of an exposed installation does not matter to what is hidden. -/
theorem Hides.congr_exposed (hi : i ∈ exposed B S) (hnodup : (drivers S ++ B).Nodup)
    (hsame : ∀ j ∈ drivers S ++ B, j ≠ i → (c'.get j).below = (c.get j).below)
    (h : Hides c B S) : Hides c' B S := by
  induction S with
  | nil => trivial
  | cons a S ih =>
    cases a
    case driving k f =>
      obtain ⟨hk, hrest⟩ := List.nodup_cons.mp hnodup
      rcases List.mem_cons.mp hi with rfl | hi
      · exact Hides.congr (S := S) (fun j hj =>
          hsame j (List.mem_cons_of_mem _ hj) (ne_of_mem_of_not_mem hj hk)) h
      · exact ih hi hrest (fun j hj => hsame j (List.mem_cons_of_mem _ hj)) h
    case inPlace k hd hidden e =>
      have hsub : (dropThrough k (exposed B S)).Sublist (exposed B S) := dropThrough_sublist k _
      obtain ⟨hlow, hk, hpath, hrest⟩ := h
      have hsplit := takeThrough_append_dropThrough k (exposed B S)
      have hexposed : (exposed B S).Nodup := hnodup.sublist (exposed_sublist B S)
      rw [← hsplit] at hexposed
      refine ⟨hlow, hk, hpath.congr fun j hj => ?_, ih (hsub.subset hi) hnodup hsame hrest⟩
      refine hsame j ?_ ((List.nodup_append.mp hexposed).2.2 j hj i hi)
      have hmem : j ∈ takeThrough k (exposed B S) ++ dropThrough k (exposed B S) :=
        List.mem_append_left _ hj
      rw [hsplit] at hmem
      exact (exposed_sublist B S).subset hmem
    all_goals exact ih hi hnodup hsame h

/-- What is hidden above an exposed installation does not depend on what is below it. -/
theorem hides_rebase (hi : i ∈ exposed [i] P) (hP : i ∉ drivers P) (B B' : List InstallationId)
    (h : Hides c (i :: B) P) : Hides c (i :: B') P := by
  induction P with
  | nil => trivial
  | cons a P ih =>
    cases a
    case driving k f =>
      have hk : i ≠ k ∧ i ∉ drivers P := by simpa [drivers, Activation.driver?] using hP
      have hmem : i ∈ exposed [i] P := by simpa [Activation.expose, hk.1] using hi
      exact ih hmem hk.2 h
    case inPlace k hd hidden e =>
      simp only [exposed_cons, Activation.expose] at hi
      have hmem : i ∈ exposed [i] P := (dropThrough_sublist k _).subset hi
      obtain ⟨hlow, hk, hpath, hrest⟩ := h
      rw [exposed_splice hmem hP] at hk hpath
      -- `i` is exposed behind `k`, so `k` is found before the base begins
      have hkin : k ∈ exposed [i] P := by
        refine Decidable.byContradiction fun hkout => ?_
        rw [dropThrough_of_notMem hkout] at hi
        simp at hi
      rw [takeThrough_append_of_mem hkin] at hpath
      refine ⟨hlow, ?_, ?_, ih hmem hP hrest⟩
      · rw [exposed_splice hmem hP]
        exact List.mem_append_left _ hkin
      · rw [exposed_splice hmem hP, takeThrough_append_of_mem hkin]
        exact hpath
    all_goals exact ih hi hP h

end EffectHandlers
