import Mathlib.Data.List.Induction
import EffectHandlers.Store
/-!
# The entries of a store

What the operations on a store do to the list of its entries. Invariants speak about all entries
at once, in no particular order, so the statements are permutations.
-/

namespace EffectHandlers.Store

variable {α : Type} {s : Store α}

/-- In a well-formed store, what is found under a number is what its only entry holds. -/
theorem find?_eq_some_iff (hs : s.WellFormed) {id : Nat} {a : α} :
    s.find? id = some a ↔ (id, a) ∈ s.entries := by
  obtain ⟨hnodup, -⟩ := hs
  unfold find?
  revert hnodup
  induction s.entries with
  | nil => simp
  | cons e rest ih =>
    obtain ⟨n, b⟩ := e
    intro hnodup
    simp only [List.map_cons, List.nodup_cons] at hnodup
    by_cases hn : id = n
    · subst hn
      have habsent : (id, a) ∉ rest := fun hmem => hnodup.1 (List.mem_map_of_mem hmem)
      simp [habsent, eq_comm]
    · have hne : (id == n) = false := by simpa using hn
      simp [List.lookup_cons, hne, hn, ih hnodup.2]

/-- What a store finds is one of its entries. -/
theorem mem_of_find? {id : Nat} {a : α} (h : s.find? id = some a) : (id, a) ∈ s.entries := by
  unfold find? at h
  obtain ⟨l₁, l₂, heq, -⟩ := List.lookup_eq_some_iff.mp h
  simp [heq]

/-- A number that no entry has finds nothing. -/
theorem lookup_of_notMem {entries : List (Nat × α)} {id : Nat} (h : id ∉ entries.map (·.1)) :
    entries.lookup id = none := by
  rw [List.lookup_eq_none_iff]
  intro e he
  have hne : e.1 ≠ id := fun heq => h (List.mem_map.mpr ⟨e, he, heq⟩)
  simpa using hne.symm

/-- The next number finds nothing. -/
theorem find?_next (hs : s.WellFormed) : s.find? s.next = none := by
  cases hfound : s.find? s.next with
  | none => rfl
  | some a => exact absurd (hs.2 _ (mem_of_find? hfound)) (by simp)

/-- A store in which nothing is found is empty. -/
theorem entries_eq_nil (hs : s.WellFormed) (h : ∀ id, s.find? id = none) : s.entries = [] := by
  refine List.eq_nil_iff_forall_not_mem.mpr fun e he => ?_
  have hfound := (find?_eq_some_iff hs).mpr (show (e.1, e.2) ∈ s.entries from he)
  simp [h] at hfound

/-- Numbers that find something were handed out. -/
theorem lt_next (hs : s.WellFormed) {id : Nat} {a : α} (h : s.find? id = some a) : id < s.next :=
  hs.2 _ (mem_of_find? h)

/-- An erased entry is the only one that goes. -/
theorem entries_perm_erase {id : Nat} {a : α} (h : s.find? id = some a) :
    s.entries.Perm ((id, a) :: (s.erase id).entries) := by
  unfold find? at h
  obtain ⟨l₁, l₂, heq, habsent⟩ := List.lookup_eq_some_iff.mp h
  have herase : (s.erase id).entries = l₁ ++ l₂ := by
    unfold erase
    simp only [heq]
    have hpass : ∀ e ∈ l₁, ¬ (e.1 == id) = true := by
      intro e he heq
      have := habsent e he
      rw [beq_iff_eq] at heq
      simp [heq] at this
    rw [List.eraseP_append_right _ hpass]
    simp
  rw [heq, herase]
  exact List.perm_middle

/-- A changed entry is the only one that differs. -/
theorem entries_perm_modify {id : Nat} {a : α} (f : α → α) (h : s.find? id = some a) :
    (s.modify id f).entries.Perm ((id, f a) :: (s.erase id).entries) := by
  unfold find? at h
  unfold modify erase
  revert h
  induction s.entries with
  | nil => simp
  | cons e rest ih =>
    obtain ⟨n, b⟩ := e
    intro h
    by_cases hn : n = id
    · subst hn
      simp only [List.lookup_cons, beq_self_eq_true, Option.some.injEq] at h
      simp [modifyEntries, h]
    · have hne : (id == n) = false := by simpa using fun heq => hn heq.symm
      have hne' : (n == id) = false := by simpa using hn
      simp only [List.lookup_cons, hne] at h
      simp only [modifyEntries, hn, if_false, List.eraseP_cons, hne', cond_false]
      exact ((ih h).cons _).trans (List.Perm.swap _ _ _)

/-- Changing an entry that is not there changes nothing. -/
theorem modify_of_find?_eq_none {id : Nat} (f : α → α) (h : s.find? id = none) :
    s.modify id f = s := by
  unfold find? at h
  rw [List.lookup_eq_none_iff] at h
  have hsame : modifyEntries id f s.entries = s.entries := by
    revert h
    induction s.entries with
    | nil => intro _; rfl
    | cons e rest ih =>
      obtain ⟨n, b⟩ := e
      intro h
      have hn : ¬ n = id := fun heq => by simpa [heq] using h (n, b) (by simp)
      simp only [modifyEntries, hn, if_false]
      rw [ih fun e he => h e (List.mem_cons_of_mem _ he)]
  simp [modify, hsame]

/-- Changing an entry that was just made. -/
theorem modify_insert (s : Store α) (a : α) (f : α → α) :
    (s.insert a).2.modify s.next f = (s.insert (f a)).2 := by
  simp [modify, insert, modifyEntries]

/-- Changes keep a store well-formed. -/
theorem wellFormed_modify (hs : s.WellFormed) (id : Nat) (f : α → α) :
    (s.modify id f).WellFormed := by
  obtain ⟨hnodup, hbound⟩ := hs
  refine ⟨by simpa [modify, modifyEntries_keys] using hnodup, ?_⟩
  intro e he
  have hkey : e.1 ∈ (modifyEntries id f s.entries).map (·.1) := List.mem_map_of_mem he
  rw [modifyEntries_keys] at hkey
  obtain ⟨e', he', heq⟩ := List.mem_map.mp hkey
  have := hbound e' he'
  simp only [modify]
  omega

/-- Handing out a number without using it keeps a store well-formed. -/
theorem wellFormed_skip (hs : s.WellFormed) : ({ s with next := s.next + 1 } : Store α).WellFormed :=
  ⟨hs.1, fun e he => Nat.lt_succ_of_lt (hs.2 e he)⟩

/-! ### Entries that are made one after the other -/

theorem insertAll_next (xs : List α) :
    (xs.foldl (fun s x => (s.insert x).2) s).next = s.next + xs.length := by
  induction xs generalizing s with
  | nil => rfl
  | cons x xs ih =>
    refine ih.trans ?_
    simp only [Store.insert, List.length_cons]
    omega

theorem wellFormed_insertAll (h : s.WellFormed) (xs : List α) :
    (xs.foldl (fun s x => (s.insert x).2) s).WellFormed := by
  induction xs generalizing s with
  | nil => exact h
  | cons x xs ih => exact ih (wellFormed_insert h x)

/-- What is found then was there before or is new. -/
theorem of_find?_insertAll {xs : List α} {x : α} {id : Nat}
    (h : (xs.foldl (fun s x => (s.insert x).2) s).find? id = some x) :
    s.find? id = some x ∨ x ∈ xs := by
  induction xs generalizing s with
  | nil => exact .inl h
  | cons y xs ih =>
    rcases ih h with hfound | hmem
    · rw [find?_insert] at hfound
      split at hfound
      · exact .inr (Option.some.inj hfound ▸ List.mem_cons_self)
      · exact .inl hfound
    · exact .inr (List.mem_cons_of_mem y hmem)

/-- Entries that are made one after the other have numbers one after the other. -/
theorem find?_insertAll (h : s.WellFormed) (xs : List α) (k : Nat) :
    (xs.foldl (fun s x => (s.insert x).2) s).find? (s.next + k) = xs[k]? := by
  induction xs using List.reverseRecOn with
  | nil =>
    cases hk : s.find? (s.next + k) with
    | none => exact hk
    | some x => exact absurd (lt_next h hk) (by omega)
  | append_singleton xs x ih =>
    rw [List.foldl_append, List.foldl_cons, List.foldl_nil, find?_insert, ih, insertAll_next]
    by_cases hk : k = xs.length
    · subst hk
      simp
    · rw [if_neg (by omega)]
      rcases Nat.lt_or_ge k xs.length with hlt | hge
      · rw [List.getElem?_append_left hlt]
      · rw [List.getElem?_eq_none hge, List.getElem?_eq_none (by simp; omega)]

/-! ### Several entries -/

/-- Of some known entries, one is replaced. -/
theorem find?_modify_all {known known' : List (Nat × α)} {id : Nat} {x : α}
    (h : ∀ e ∈ known, s.find? e.1 = some e.2)
    (hknown : known' = known.map fun e => if e.1 = id then (e.1, x) else e) :
    ∀ e ∈ known', (s.modify id fun _ => x).find? e.1 = some e.2 := by
  intro e he
  rw [hknown] at he
  obtain ⟨e, hmem, rfl⟩ := List.mem_map.mp he
  have hfound := h e hmem
  by_cases hid : e.1 = id
  · obtain rfl := hid
    simp [find?_modify, hfound]
  · simp [find?_modify, hid, hfound]

/-! ### Entries that move -/

section Moved

variable {x y : α} {id : Nat}

/-- An entry that moves is under the number after the one that it was made under. -/
theorem find?_moved (s : Store α) (y : α) :
    (((s.insert y).2.erase s.next).insert y).2.find? (s.next + 1) = some y :=
  find?_insert_self ((s.insert y).2.erase s.next) y

/-- Other entries do not notice. -/
theorem find?_moved_of_ne (hs : s.WellFormed) (hid : id ≠ s.next + 1) :
    (((s.insert y).2.erase s.next).insert y).2.find? id = s.find? id := by
  have hne : id ≠ ((s.insert y).2.erase s.next).next := hid
  rw [find?_insert, if_neg hne, find?_erase (wellFormed_insert hs y)]
  by_cases hnew : id = s.next
  · rw [if_pos hnew, hnew, find?_next hs]
  · rw [if_neg hnew, find?_insert, if_neg hnew]

theorem find?_moved_of_some (hs : s.WellFormed) (hx : s.find? id = some x) :
    (((s.insert y).2.erase s.next).insert y).2.find? id = some x :=
  (find?_moved_of_ne hs (Nat.ne_of_lt (Nat.lt_succ_of_lt (lt_next hs hx)))).trans hx

theorem wellFormed_moved (hs : s.WellFormed) (y : α) :
    (((s.insert y).2.erase s.next).insert y).2.WellFormed :=
  wellFormed_insert (wellFormed_erase (wellFormed_insert hs y) _) y

/-- An entry that was made before another new one is still there. -/
theorem find?_insert_insert (s : Store α) (x y : α) :
    ((s.insert x).2.insert y).2.find? s.next = some x := by
  have hne : s.next ≠ (s.insert x).2.next := Nat.ne_of_lt (Nat.lt_succ_self _)
  rw [find?_insert, if_neg hne, find?_insert_self]

/-- An entry that takes the place of one that was made right before it. -/
theorem find?_replaced (hs : s.WellFormed) :
    (((s.insert x).2.insert y).2.erase s.next).find? (s.next + 1) = some y := by
  rw [find?_erase (wellFormed_insert (wellFormed_insert hs x) y), if_neg (Nat.succ_ne_self _)]
  exact find?_insert_self ..

theorem find?_replaced_of_ne (hs : s.WellFormed) (hid : id ≠ s.next + 1) :
    (((s.insert x).2.insert y).2.erase s.next).find? id = s.find? id := by
  have hne : id ≠ (s.insert x).2.next := hid
  rw [find?_erase (wellFormed_insert (wellFormed_insert hs x) y)]
  by_cases hnew : id = s.next
  · rw [if_pos hnew, hnew, find?_next hs]
  · rw [if_neg hnew, find?_insert, if_neg hne, find?_insert, if_neg hnew]

theorem wellFormed_replaced (hs : s.WellFormed) (x y : α) :
    (((s.insert x).2.insert y).2.erase s.next).WellFormed :=
  wellFormed_erase (wellFormed_insert (wellFormed_insert hs x) y) _

end Moved

end EffectHandlers.Store
