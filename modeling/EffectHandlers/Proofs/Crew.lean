import EffectHandlers.Fiber.Switch
import EffectHandlers.Proofs.Entries
import Mathlib.Data.List.Nodup
/-!
# All code of a thread

The code of a thread is running, waiting for a fiber, or parked. Each piece belongs to a fiber of
its own, or to the native stack, and `current` names the fiber of the piece that is running. There
is one lemma for each way of switching.
-/

namespace EffectHandlers

namespace Fibers

variable {κ : Type} {fs fs' : Fibers κ} {code S : κ} {f : FiberId} {ids ids' : List FiberId}

/-- What each piece of waiting code gets back as its `current` is its own fiber: the one that the
next resumer waits for. -/
def Named : Option FiberId → List (Resumer κ) → Prop
  | current, [] => current = none
  | current, r :: rs => current = some r.fiber ∧ Named r.current rs

theorem Named.eq_front {current : Option FiberId} {rs : List (Resumer κ)}
    (h : Named current rs) : current = rs.head?.map (·.fiber) := by
  cases rs with
  | nil => exact h
  | cons r rs => exact h.1

theorem Named.owners {current : Option FiberId} {rs : List (Resumer κ)} (h : Named current rs) :
    current :: rs.map (·.current) = rs.map (some ·.fiber) ++ [none] := by
  induction rs generalizing current with
  | nil => exact congrArg (· :: []) h
  | cons r rs ih =>
    obtain ⟨rfl, h⟩ := h
    simp [ih h]

/-- All code with the fiber whose code it is: what is running, what waits, and what is parked. -/
def crew (fs : Fibers κ) (running : κ) : List (Option FiberId × κ) :=
  (fs.current, running) :: (fs.resumers.map (fun r => (r.current, r.code)) ++
    fs.parked.entries.map (fun e => (some e.1, e.2)))

/-- The parked fibers are these, each once, and none of them is waited for. -/
structure Kept (fs : Fibers κ) (ids : List FiberId) : Prop where
  wellFormed : fs.parked.WellFormed
  parked : (fs.parked.entries.map (·.1)).Perm ids
  distinct : (fs.resumers.map (·.fiber) ++ ids).Nodup
  issued : ∀ r ∈ fs.resumers, r.fiber < fs.parked.next
  named : Named fs.current fs.resumers

namespace Kept

theorem perm (h : fs.Kept ids) (hperm : ids.Perm ids') : fs.Kept ids' where
  wellFormed := h.wellFormed
  parked := h.parked.trans hperm
  distinct := (hperm.append_left _).nodup h.distinct
  issued := h.issued
  named := h.named

theorem mem_parked (h : fs.Kept ids) (hf : f ∈ ids) : ∃ code, fs.parked.find? f = some code := by
  obtain ⟨⟨g, code⟩, he, rfl⟩ := List.mem_map.mp (h.parked.mem_iff.mpr hf)
  exact ⟨code, (Store.find?_eq_some_iff h.wellFormed).mpr he⟩

theorem lt_next (h : fs.Kept ids) (hf : f ∈ ids) : f < fs.parked.next := by
  obtain ⟨code, hcode⟩ := h.mem_parked hf
  exact Store.lt_next h.wellFormed hcode

theorem crew_owners (h : fs.Kept ids) (running : κ) :
    ((fs.crew running).map (·.1)).Perm
      (none :: (fs.resumers.map (·.fiber) ++ ids).map some) := by
  have howners : (fs.crew running).map (·.1) =
      (fs.resumers.map (some ·.fiber) ++ [none]) ++ fs.parked.entries.map (some ·.1) := by
    rw [← h.named.owners]
    simp [crew, Function.comp_def]
  rw [howners]
  have hparked : (fs.parked.entries.map (some ·.1)).Perm (ids.map some) := by
    simpa [Function.comp_def] using h.parked.map some
  simp only [List.map_append, List.map_map]
  rw [List.append_assoc]
  exact (List.perm_middle).trans ((hparked.append_left _).cons _)

/-- No two pieces of code belong to one fiber. -/
theorem crew_distinct (h : fs.Kept ids) (running : κ) :
    ((fs.crew running).map (·.1)).Nodup := by
  refine (h.crew_owners running).nodup_iff.mpr (List.nodup_cons.mpr ⟨by simp, ?_⟩)
  exact h.distinct.map fun _ _ => Option.some.inj

theorem create (h : fs.Kept ids) (code : κ) :
    (fs.create code).2.Kept (fs.parked.next :: ids) where
  wellFormed := Store.wellFormed_insert h.wellFormed code
  parked := h.parked.cons _
  distinct := by
    refine List.perm_middle.nodup_iff.mpr (List.nodup_cons.mpr ⟨fun hmem => ?_, h.distinct⟩)
    rcases List.mem_append.mp hmem with hmem | hmem
    · obtain ⟨r, hr, heq⟩ := List.mem_map.mp hmem
      exact absurd (heq ▸ h.issued r hr) (Nat.lt_irrefl _)
    · exact absurd (h.lt_next hmem) (Nat.lt_irrefl _)
  issued r hr := Nat.lt_succ_of_lt (h.issued r hr)
  named := h.named

theorem crew_create (fs : Fibers κ) (code running : κ) :
    ((fs.create code).2.crew running).Perm ((some fs.parked.next, code) :: fs.crew running) := by
  simp only [Fibers.create, Store.insert, crew, List.map_cons]
  exact (List.perm_middle.cons _).trans (.swap _ _ _)

theorem drop (h : fs.Kept (f :: ids)) (heq : fs.drop? f = some (S, fs')) : fs'.Kept ids := by
  obtain ⟨S', hS, heq⟩ := Option.map_eq_some_iff.mp heq
  obtain ⟨rfl, rfl⟩ := Prod.mk.inj heq
  exact
    { wellFormed := Store.wellFormed_erase h.wellFormed f
      parked := (((Store.entries_perm_erase hS).map (·.1)).symm.trans h.parked).cons_inv
      distinct := h.distinct.sublist ((List.sublist_cons_self ..).append_left _)
      issued := h.issued
      named := h.named }

theorem crew_drop (heq : fs.drop? f = some (S, fs')) (running : κ) :
    (fs.crew running).Perm ((some f, S) :: fs'.crew running) := by
  obtain ⟨S', hS, heq⟩ := Option.map_eq_some_iff.mp heq
  obtain ⟨rfl, rfl⟩ := Prod.mk.inj heq
  have hparked := ((Store.entries_perm_erase hS).map (fun e => (some e.1, e.2))).append_left
    (fs.resumers.map (fun r => (r.current, r.code)))
  exact ((hparked.trans List.perm_middle).cons _).trans (.swap _ _ _)

theorem resume (h : fs.Kept (f :: ids)) (heq : fs.resume? f code = some (S, fs')) :
    fs'.Kept ids ∧ (fs'.crew S).Perm (fs.crew code) ∧
      fs'.resumers = ⟨f, fs.current, code⟩ :: fs.resumers := by
  obtain ⟨S', hS, heq⟩ := Option.map_eq_some_iff.mp heq
  obtain ⟨rfl, rfl⟩ := Prod.mk.inj heq
  have hentries := Store.entries_perm_erase hS
  refine ⟨?_, ?_, rfl⟩
  · exact
      { wellFormed := Store.wellFormed_erase h.wellFormed f
        parked := ((hentries.map (·.1)).symm.trans h.parked).cons_inv
        distinct := List.perm_middle.nodup h.distinct
        issued := by
          intro r hr
          rcases List.mem_cons.mp hr with rfl | hr
          · exact h.lt_next (List.mem_cons_self ..)
          · exact h.issued r hr
        named := ⟨rfl, h.named⟩ }
  · have hparked := (hentries.map (fun e => (some e.1, e.2))).append_left
      (fs.resumers.map (fun r => (r.current, r.code)))
    exact (((hparked.trans List.perm_middle).cons _).trans (.swap _ _ _)).symm

variable {r : Resumer κ} {rs : List (Resumer κ)}

/-- The running fiber is parked, and its resumer goes on. -/
theorem suspend (h : fs.Kept ids) (code : κ) (hresumers : fs.resumers = r :: rs)
    (hcurrent : fs.current = some f) :
    let fs' : Fibers κ :=
      { parked := ⟨fs.parked.next, (f, code) :: fs.parked.entries⟩
        current := r.current
        resumers := rs }
    fs'.Kept (f :: ids) ∧ (fs'.crew r.code).Perm (fs.crew code) := by
  obtain ⟨hwf, hparked, hdistinct, hissued, hnamed⟩ := h
  rw [hresumers] at hdistinct hissued hnamed
  obtain ⟨hfront, hnamed⟩ := hnamed
  obtain rfl : f = r.fiber := Option.some.inj (hcurrent.symm.trans hfront)
  refine ⟨?_, ?_⟩
  · refine
      { wellFormed := ⟨?_, ?_⟩
        parked := hparked.cons _
        distinct := List.perm_middle.symm.nodup hdistinct
        issued := fun q hq => hissued q (List.mem_cons_of_mem _ hq)
        named := hnamed }
    · refine List.nodup_cons.mpr ⟨fun hmem => ?_, hwf.1⟩
      have hmem' := hparked.mem_iff.mp hmem
      exact (List.nodup_cons.mp hdistinct).1 (List.mem_append_right _ hmem')
    · intro e he
      rcases List.mem_cons.mp he with rfl | he
      · exact hissued r (List.mem_cons_self ..)
      · exact hwf.2 e he
  · simp only [crew, hresumers, hcurrent, List.map_cons]
    refine (List.perm_middle.cons _).trans ?_
    exact .swap _ _ _

/-- The running fiber has ended, and its resumer goes on. -/
theorem finish (h : fs.Kept ids) (hresumers : fs.resumers = r :: rs) :
    Kept { fs with current := r.current, resumers := rs } ids where
  wellFormed := h.wellFormed
  parked := h.parked
  distinct := by
    have hdistinct := h.distinct
    rw [hresumers] at hdistinct
    exact (List.nodup_cons.mp hdistinct).2
  issued q hq := h.issued q (by simp [hresumers, hq])
  named := by
    have hnamed := h.named
    rw [hresumers] at hnamed
    exact hnamed.2

theorem crew_finish (hresumers : fs.resumers = r :: rs) :
    fs.crew code = (fs.current, code) ::
      ({ fs with current := r.current, resumers := rs } : Fibers κ).crew r.code := by
  simp [crew, hresumers]

end Kept

end Fibers

end EffectHandlers
