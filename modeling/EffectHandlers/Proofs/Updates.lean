import Mathlib.Data.List.Basic
import EffectHandlers.Store
/-!
# Lists with one changed element

What is found in a list after one of its elements was changed, or one was added at its end.
-/

namespace EffectHandlers

variable {α β : Type} {l : List α} {i j : Nat} {a : α} {f : α → α}

theorem of_getElem?_modify (h : (l.modify i f)[j]? = some a) :
    (i = j ∧ ∃ b, l[j]? = some b ∧ a = f b) ∨ i ≠ j ∧ l[j]? = some a := by
  rw [List.getElem?_modify] at h
  obtain ⟨b, hb, rfl⟩ := Option.map_eq_some_iff.mp h
  by_cases hij : i = j
  · exact .inl ⟨hij, b, hb, if_pos hij⟩
  · exact .inr ⟨hij, hb.trans (congrArg some (if_neg hij).symm)⟩

theorem exists_getElem?_modify (h : l[j]? = some a) :
    (l.modify i f)[j]? = some (if i = j then f a else a) := by
  rw [List.getElem?_modify, h]
  split <;> rfl

theorem getElem?_modify_self (h : l[i]? = some a) : (l.modify i f)[i]? = some (f a) := by
  rw [exists_getElem?_modify h, if_pos rfl]

theorem of_getElem?_append {x : α} (h : (l ++ [x])[j]? = some a) :
    l[j]? = some a ∨ j = l.length ∧ a = x := by
  rw [List.getElem?_append] at h
  split at h
  · exact .inl h
  · obtain ⟨hj, rfl⟩ := List.getElem?_eq_some_iff.mp h
    simp only [List.length_singleton] at hj
    exact .inr ⟨by omega, by simp⟩

theorem getElem?_append_of_some {x : α} (h : l[j]? = some a) : (l ++ [x])[j]? = some a := by
  rw [List.getElem?_append_left (List.getElem?_eq_some_iff.mp h).1]
  exact h

/-- A change that does not show leaves what is gathered from the list as it is. -/
theorem flatMap_modify_of_eq {g : α → List β} (hg : ∀ a, g (f a) = g a) :
    (l.modify i f).flatMap g = l.flatMap g := by
  induction l generalizing i with
  | nil => cases i <;> rfl
  | cons x l ih =>
    cases i with
    | zero => simp [hg]
    | succ i => simp [ih]

/-- What is gathered from a list is what one element gives and what the others give. -/
theorem exists_flatMap_perm (g : α → List β) (h : l[i]? = some a) :
    ∃ rest, (l.flatMap g).Perm (g a ++ rest) ∧
      ∀ f, ((l.modify i f).flatMap g).Perm (g (f a) ++ rest) := by
  induction l generalizing i with
  | nil => cases h
  | cons x l ih =>
    cases i with
    | zero =>
      obtain rfl := Option.some.inj h
      exact ⟨l.flatMap g, by simp, fun f => by simp⟩
    | succ i =>
      obtain ⟨rest, hperm, hmodify⟩ := ih h
      refine ⟨g x ++ rest, ?_, fun f => ?_⟩
      · exact (hperm.append_left _).trans (List.perm_append_comm_assoc ..)
      · exact ((hmodify f).append_left _).trans (List.perm_append_comm_assoc ..)

end EffectHandlers
