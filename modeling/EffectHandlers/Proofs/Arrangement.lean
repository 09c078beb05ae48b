import EffectHandlers.Proofs.Links
import Mathlib.Data.List.Flatten
/-!
# The live chain and what is cut off

Segments that are cut off keep their links, except the lowest. `Chain.Arranged` says that the live
chain and the segments are disjoint paths. Cutting, putting back, pushing and popping relink one
installation each; that every other path stays as it was follows from disjointness.
-/

namespace EffectHandlers.Chain

variable {c : Chain} {i j : InstallationId} {live is js : List InstallationId}
  {cuts cuts' : List (List InstallationId)}

/-- The live installations, top first, and those of each segment that is cut off. -/
structure Arranged (c : Chain) (live : List InstallationId) (cuts : List (List InstallationId)) :
    Prop where
  linked : c.Linked (some c.top) live (some 0)
  bottom : (c.get 0).isBottom
  cut : ∀ is ∈ cuts, c.Linked is.head? is none
  nodup : (live ++ cuts.flatten).Nodup
  nonzero : 0 ∉ live ++ cuts.flatten
  found : ∀ i ∈ live ++ cuts.flatten, (c.installations.find? i).isSome
  wellFormed : c.installations.WellFormed
  positive : 0 < c.installations.next

namespace Arranged

theorem initial : Chain.initial.Arranged [] [] where
  linked := rfl
  bottom := rfl
  cut := by simp
  nodup := by simp
  nonzero := by simp
  found := by simp
  wellFormed := Store.wellFormed_insert Store.wellFormed_empty _
  positive := by decide

/-- Paths of distinct installations are short. -/
theorem length_lt (h : c.Arranged live cuts) (hsub : is.Sublist (live ++ cuts.flatten)) :
    is.length < c.installations.next :=
  length_lt_next h.wellFormed (h.nodup.sublist hsub) (fun hzero => h.nonzero (hsub.subset hzero))
    (fun i hi => h.found i (hsub.subset hi)) h.positive

theorem reads (h : c.Arranged live cuts) : c.Reads live :=
  ⟨h.linked, h.bottom, h.length_lt (List.sublist_append_left ..)⟩

/-- The order of the segments does not matter. -/
theorem perm (h : c.Arranged live cuts) (hperm : cuts.Perm cuts') : c.Arranged live cuts' := by
  have hall : (live ++ cuts'.flatten).Perm (live ++ cuts.flatten) := hperm.symm.flatten.append_left _
  exact ⟨h.linked, h.bottom, fun is his => h.cut is (hperm.mem_iff.mpr his),
    hall.nodup_iff.mpr h.nodup, fun hzero => h.nonzero (hall.mem_iff.mp hzero),
    fun i hi => h.found i (hall.mem_iff.mp hi), h.wellFormed, h.positive⟩

/-- Segments may be given up. -/
theorem forget (h : c.Arranged live cuts) (hsub : cuts'.Sublist cuts) : c.Arranged live cuts' := by
  have hall : (live ++ cuts'.flatten).Sublist (live ++ cuts.flatten) :=
    (List.Sublist.refl live).append hsub.flatten
  exact ⟨h.linked, h.bottom, fun is his => h.cut is (hsub.subset his), h.nodup.sublist hall,
    fun hzero => h.nonzero (hall.subset hzero), fun i hi => h.found i (hall.subset hi),
    h.wellFormed, h.positive⟩

/-- Only the links and numbers of the installations matter. -/
theorem congr {c' : Chain} (h : c.Arranged live cuts) (htop : c'.top = c.top)
    (hbottom : (c'.get 0).isBottom)
    (hbelow : ∀ i ∈ live ++ cuts.flatten, (c'.get i).below = (c.get i).below)
    (hfound : ∀ i ∈ live ++ cuts.flatten, (c'.installations.find? i).isSome)
    (hwf : c'.installations.WellFormed) (hpos : 0 < c'.installations.next) :
    c'.Arranged live cuts := by
  refine ⟨?_, hbottom, fun is his => ?_, h.nodup, h.nonzero, hfound, hwf, hpos⟩
  · rw [htop]
    exact h.linked.congr fun i hi => hbelow i (List.mem_append_left _ hi)
  · refine (h.cut is his).congr fun i hi => hbelow i (List.mem_append_right _ ?_)
    exact List.mem_flatten.mpr ⟨is, his, hi⟩

/-- Segments do not notice that an installation of none of them was relinked. -/
theorem cut_relinks {c' : Chain} {b : Option InstallationId}
    (hcut : ∀ is ∈ cuts, c.Linked is.head? is none) (hrelinks : c.Relinks i b c')
    (hfree : i ∉ cuts.flatten) : ∀ is ∈ cuts, c'.Linked is.head? is none := by
  intro is his
  refine (hcut is his).congr fun j hj => ?_
  rw [hrelinks.get_of_ne]
  rintro rfl
  exact hfree (List.mem_flatten.mpr ⟨is, his, hj⟩)

/-- A new installation is in no list yet. -/
theorem create (h : c.Arranged live cuts) (x : Installation) :
    (c.create x).2.Arranged live cuts ∧ (c.create x).1 ≠ 0 ∧
      (c.create x).1 ∉ live ++ cuts.flatten := by
  have hnew : ∀ i, (c.installations.find? i).isSome → i ≠ c.installations.next := by
    rintro i hi rfl
    simp [Store.find?_next h.wellFormed] at hi
  have hzero : (0 : InstallationId) ≠ c.installations.next := by
    rintro heq
    exact absurd h.positive (by simp [← heq])
  refine ⟨h.congr rfl ?_ ?_ ?_ (Store.wellFormed_insert h.wellFormed x) (by simp [Chain.create,
    Store.insert]), hzero.symm, fun hmem => hnew _ (h.found _ hmem) rfl⟩
  · rw [get_create, if_neg hzero]
    exact h.bottom
  · intro i hi
    rw [get_create, if_neg (hnew i (h.found i hi))]
  · intro i hi
    simp only [Chain.create, Store.find?_insert, if_neg (hnew i (h.found i hi))]
    exact h.found i hi

/-- An installation that is in no list may be freed. -/
theorem erase (h : c.Arranged live cuts) (hi : i ∉ live ++ cuts.flatten) :
    { c with installations := c.installations.erase i }.Arranged live cuts := by
  have hfind : ∀ j, (c.installations.erase i).find? j =
      if j = i then none else c.installations.find? j := fun j => Store.find?_erase h.wellFormed i j
  have hne : ∀ {j}, j ∈ live ++ cuts.flatten → j ≠ i := fun hj => ne_of_mem_of_not_mem hj hi
  refine h.congr rfl ?_ (fun j hj => ?_) (fun j hj => ?_) (Store.wellFormed_erase h.wellFormed i)
    h.positive
  · have hbottom := h.bottom
    simp only [get, hfind] at hbottom ⊢
    split
    · rfl
    · exact hbottom
  · simp only [get, hfind, if_neg (hne hj)]
  · rw [hfind, if_neg (hne hj)]
    exact h.found j hj

/-- An installation that is in no list may be put on top. -/
theorem push (h : c.Arranged live cuts) (hfound : (c.installations.find? i).isSome) (hzero : i ≠ 0)
    (hfree : i ∉ live ++ cuts.flatten) : (c.push i).Arranged (i :: live) cuts := by
  have hnodup : (i :: live ++ cuts.flatten).Nodup := List.nodup_cons.mpr ⟨hfree, h.nodup⟩
  have hnonzero : 0 ∉ i :: live ++ cuts.flatten := by
    simpa using ⟨hzero.symm, by simpa using h.nonzero⟩
  have hall : ∀ j ∈ i :: live ++ cuts.flatten, (c.installations.find? j).isSome := by
    intro j hj
    rcases List.mem_cons.mp hj with rfl | hj
    exacts [hfound, h.found j hj]
  have hfits := length_lt_next h.wellFormed hnodup hnonzero hall h.positive
  have hlen : live.length + 1 < c.installations.next := by
    simp only [List.length_append, List.length_cons] at hfits
    omega
  have hreads := h.reads.push hfound hzero (fun hmem => hfree (List.mem_append_left _ hmem))
    ((List.nodup_append.mp h.nodup).1) hlen
  have hrelinks : c.Relinks i (some c.top) (c.push i) := ⟨rfl⟩
  exact ⟨hreads.linked, hreads.bottom,
    cut_relinks h.cut hrelinks fun hmem => hfree (List.mem_append_right _ hmem), hnodup, hnonzero,
    fun j hj => hrelinks.found (hall j hj), hrelinks.wellFormed h.wellFormed,
    hrelinks.positive h.positive⟩

/-- The top installation may be taken off. -/
theorem pop (h : c.Arranged (i :: live) cuts) :
    ∃ c', c.pop? = some (i, c') ∧ c.Relinks i none c' ∧ c'.nextLabel = c.nextLabel ∧
      c'.Arranged live cuts := by
  have hnodup := List.nodup_cons.mp h.nodup
  obtain ⟨c', hpop, hrelinks, hlabel, -, hreads⟩ := h.reads.pop fun hmem =>
    hnodup.1 (List.mem_append_left _ hmem)
  exact ⟨c', hpop, hrelinks, hlabel, hreads.linked, hreads.bottom,
    cut_relinks h.cut hrelinks fun hmem => hnodup.1 (List.mem_append_right _ hmem), hnodup.2,
    fun hmem => h.nonzero (List.mem_cons_of_mem _ hmem),
    fun j hj => hrelinks.found (h.found j (List.mem_cons_of_mem _ hj)),
    hrelinks.wellFormed h.wellFormed, hrelinks.positive h.positive⟩

/-- A live installation may be cut off, with everything above it. -/
theorem split (h : c.Arranged (is ++ i :: js) cuts) :
    ∃ c', c.split i = .ok (⟨c.top, i⟩, c') ∧ c.Relinks i none c' ∧ c'.nextLabel = c.nextLabel ∧
      (is ++ [i]).head? = some c.top ∧ c'.Arranged js ((is ++ [i]) :: cuts) := by
  have hlive : (is ++ i :: js).Nodup := (List.nodup_append.mp h.nodup).1
  have hmem : i ∈ is ++ i :: js ++ cuts.flatten := by simp
  obtain ⟨c', hsplit, hrelinks, hlabel, -, hreads, hlinked⟩ := h.reads.split (h.found i hmem) hlive
  have hperm : (js ++ ((is ++ [i]) :: cuts).flatten).Perm (is ++ i :: js ++ cuts.flatten) := by
    have hswap : (js ++ (is ++ [i])).Perm (is ++ i :: js) := by
      have happend : is ++ i :: js = is ++ [i] ++ js := by simp
      rw [happend]
      exact List.perm_append_comm
    rw [List.flatten_cons, ← List.append_assoc]
    exact hswap.append_right _
  have hhead : (is ++ [i]).head? = some c.top := by
    have hlinked := h.linked
    cases is with
    | nil => exact hlinked.1.symm
    | cons k is => exact hlinked.1.symm
  refine ⟨c', hsplit, hrelinks, hlabel, hhead, hreads.linked, hreads.bottom, fun ks hks => ?_,
    hperm.nodup_iff.mpr h.nodup, fun hzero => h.nonzero (hperm.mem_iff.mp hzero),
    fun j hj => hrelinks.found (h.found j (hperm.mem_iff.mp hj)), hrelinks.wellFormed h.wellFormed,
    hrelinks.positive h.positive⟩
  rcases List.mem_cons.mp hks with rfl | hks
  · rwa [hhead]
  · exact cut_relinks h.cut hrelinks
      (fun hmem => (List.nodup_append.mp h.nodup).2.2 i (by simp) i hmem rfl) ks hks

/-- A segment may be put back, above everything that is live. -/
theorem splice (segment : Segment) (h : c.Arranged live ((is ++ [segment.lowest]) :: cuts))
    (htop : (is ++ [segment.lowest]).head? = some segment.top) :
    (c.splice segment).Arranged (is ++ segment.lowest :: live) cuts := by
  have hperm : (is ++ segment.lowest :: live ++ cuts.flatten).Perm
      (live ++ ((is ++ [segment.lowest]) :: cuts).flatten) := by
    have hswap : (is ++ segment.lowest :: live).Perm (live ++ (is ++ [segment.lowest])) := by
      have happend : is ++ segment.lowest :: live = is ++ [segment.lowest] ++ live := by simp
      rw [happend]
      exact List.perm_append_comm
    rw [List.flatten_cons, ← List.append_assoc]
    exact hswap.append_right _
  have hnodup := hperm.nodup_iff.mpr h.nodup
  have hlowest : segment.lowest ∈ live ++ ((is ++ [segment.lowest]) :: cuts).flatten := by simp
  have hpath := h.cut _ (List.mem_cons_self ..)
  rw [htop] at hpath
  have hfits := length_lt_next h.wellFormed hnodup (fun hzero => h.nonzero (hperm.mem_iff.mp hzero))
    (fun j hj => h.found j (hperm.mem_iff.mp hj)) h.positive
  rw [List.length_append] at hfits
  have hreads := h.reads.splice segment hpath (h.found _ hlowest)
    (fun hzero => h.nonzero (hzero ▸ hlowest)) (List.nodup_append.mp hnodup).1 (by omega)
  have hrelinks : c.Relinks segment.lowest (some c.top) (c.splice segment) := ⟨rfl⟩
  exact ⟨hreads.linked, hreads.bottom,
    cut_relinks (fun ks hks => h.cut ks (List.mem_cons_of_mem _ hks)) hrelinks
      fun hmem => (List.nodup_append.mp hnodup).2.2 _ (by simp) _ hmem rfl,
    hnodup, fun hzero => h.nonzero (hperm.mem_iff.mp hzero),
    fun j hj => hrelinks.found (h.found j (hperm.mem_iff.mp hj)), hrelinks.wellFormed h.wellFormed,
    hrelinks.positive h.positive⟩

end Arranged

end EffectHandlers.Chain
