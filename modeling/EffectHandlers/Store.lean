/-!
# Numbered stores

A store hands out numbers in increasing order and keeps an entry for each number that has not
been erased. Numbers are never reused, so a number that outlives its entry finds nothing.
-/

namespace EffectHandlers

/-- A finite map whose keys are handed out in increasing order, newest entry first. -/
structure Store (α : Type) where
  /-- The number the next entry will get. -/
  next : Nat := 0
  /-- The entries that have not been erased. -/
  entries : List (Nat × α) := []

namespace Store

variable {α : Type}

/-- The store that never held an entry. -/
def empty : Store α := {}

instance : Inhabited (Store α) := ⟨empty⟩

/-- The entry with this number, unless it was erased or never made. -/
def find? (s : Store α) (id : Nat) : Option α := s.entries.lookup id

/-- Whether the number still has an entry. -/
def contains (s : Store α) (id : Nat) : Bool := (s.find? id).isSome

/-- Add an entry under a number no entry had before. -/
def insert (s : Store α) (a : α) : Nat × Store α :=
  (s.next, ⟨s.next + 1, (s.next, a) :: s.entries⟩)

/-- Change the entry with this number, if it is there. -/
def modifyEntries (id : Nat) (f : α → α) : List (Nat × α) → List (Nat × α)
  | [] => []
  | (n, a) :: rest => if n = id then (n, f a) :: rest else (n, a) :: modifyEntries id f rest

/-- Change the entry with this number; nothing happens when it is not there. -/
def modify (s : Store α) (id : Nat) (f : α → α) : Store α :=
  { s with entries := modifyEntries id f s.entries }

/-- Remove the entry with this number; nothing happens when it is not there. -/
def erase (s : Store α) (id : Nat) : Store α :=
  { s with entries := s.entries.eraseP (·.1 == id) }

/-- The store with these entries, numbered from zero. -/
def ofList (as : List α) : Store α := as.foldl (fun s a => (s.insert a).2) empty

/-- The keys are distinct and were all handed out. -/
def WellFormed (s : Store α) : Prop :=
  (s.entries.map (·.1)).Nodup ∧ ∀ e ∈ s.entries, e.1 < s.next

theorem wellFormed_empty : (empty : Store α).WellFormed := by
  simp [WellFormed, empty]

@[simp] theorem find?_empty (id : Nat) : (empty : Store α).find? id = none := rfl

@[simp] theorem insert_fst (s : Store α) (a : α) : (s.insert a).1 = s.next := rfl

theorem find?_insert (s : Store α) (a : α) (id : Nat) :
    (s.insert a).2.find? id = if id = s.next then some a else s.find? id := by
  by_cases h : id = s.next
  · simp [find?, insert, h]
  · have hne : (id == s.next) = false := by simpa using h
    simp [find?, insert, List.lookup_cons, h, hne]

/-- An entry that was just made is found under its number. -/
@[simp] theorem find?_insert_self (s : Store α) (a : α) : (s.insert a).2.find? s.next = some a := by
  simp [find?_insert]

/-- A change shows in the changed entry and nowhere else. -/
theorem find?_modify (s : Store α) (id other : Nat) (f : α → α) :
    (s.modify id f).find? other =
      if other = id then (s.find? other).map f else s.find? other := by
  unfold find? modify
  induction s.entries with
  | nil => simp [modifyEntries]
  | cons e rest ih =>
    obtain ⟨n, a⟩ := e
    by_cases hn : n = id
    · subst hn
      by_cases ho : other = n
      · simp [modifyEntries, ho]
      · have hne : (other == n) = false := by simpa using ho
        simp [modifyEntries, List.lookup_cons, ho, hne]
    · by_cases hk : other = n
      · subst hk
        simp [modifyEntries, hn]
      · have hne : (other == n) = false := by simpa using hk
        simp only [modifyEntries, hn, if_false, List.lookup_cons, hne]
        exact ih

/-- Changes keep the numbers. -/
theorem modifyEntries_keys (id : Nat) (f : α → α) (es : List (Nat × α)) :
    (modifyEntries id f es).map (·.1) = es.map (·.1) := by
  induction es with
  | nil => rfl
  | cons e rest ih =>
    obtain ⟨n, a⟩ := e
    by_cases hn : n = id <;> simp [modifyEntries, hn, ih]

theorem wellFormed_insert {s : Store α} (hs : s.WellFormed) (a : α) :
    (s.insert a).2.WellFormed := by
  obtain ⟨hnodup, hbound⟩ := hs
  refine ⟨?_, ?_⟩
  · simp only [insert, List.map_cons, List.nodup_cons]
    refine ⟨?_, hnodup⟩
    intro hmem
    obtain ⟨e, he, heq⟩ := List.mem_map.mp hmem
    have := hbound e he
    omega
  · intro e he
    simp only [insert, List.mem_cons] at he
    rcases he with rfl | he
    · simp [insert]
    · have := hbound e he
      simp only [insert]
      omega

theorem wellFormed_erase {s : Store α} (hs : s.WellFormed) (id : Nat) :
    (s.erase id).WellFormed := by
  obtain ⟨hnodup, hbound⟩ := hs
  refine ⟨?_, fun e he => hbound e (List.mem_of_mem_eraseP he)⟩
  exact hnodup.sublist (List.eraseP_sublist.map _)

/-- An erased number finds nothing, and no other number notices. -/
theorem find?_erase {s : Store α} (hs : s.WellFormed) (id other : Nat) :
    (s.erase id).find? other = if other = id then none else s.find? other := by
  obtain ⟨hnodup, -⟩ := hs
  unfold find? erase
  revert hnodup
  induction s.entries with
  | nil => simp
  | cons e rest ih =>
    obtain ⟨n, a⟩ := e
    intro hnodup
    simp only [List.map_cons, List.nodup_cons] at hnodup
    by_cases hn : n = id
    · subst hn
      by_cases ho : other = n
      · subst ho
        simp only [beq_self_eq_true, List.eraseP_cons_of_pos, if_true]
        rw [List.lookup_eq_none_iff]
        intro e he
        have : e.1 ≠ other := fun heq => hnodup.1 (heq ▸ List.mem_map_of_mem he)
        simpa using fun heq => this heq.symm
      · have hne : (other == n) = false := by simpa using ho
        simp [List.lookup_cons, ho, hne]
    · have hp : ¬ ((n == id) = true) := by simpa using hn
      by_cases hk : other = n
      · subst hk
        simp [hn]
      · have hne : (other == n) = false := by simpa using hk
        simp only [List.eraseP_cons, List.lookup_cons, hne]
        have hb : (n == id) = false := by simpa using hn
        simp only [hb, cond_false, List.lookup_cons, hne]
        exact ih hnodup.2

end Store

end EffectHandlers
