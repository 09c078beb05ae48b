import EffectHandlers.Proofs.Suspended
/-!
# Where the installations are, and the ledger of shares

## Where the installations are

The place of every installation that some code drives: on the live chain, in the segment of a
captured continuation, or hidden by a plain clause. `Placed` says that the links of the chain
agree with the code, and there is one lemma for each operation that relinks the chain.
-/

namespace EffectHandlers

variable {ω : Type} {c c' : Chain} {S S' : List (Activation ω)} {kept kept' : List (Kept ω)}
  {i j : InstallationId}

/-- The installations that running code and captured continuations drive. -/
def driven (S : List (Activation ω)) (kept : List (Kept ω)) : List InstallationId :=
  drivers S ++ kept.flatMap Kept.installations

/-- The chain agrees with the code that is running or waiting, and with the code of the captured
continuations. -/
structure Placed (c : Chain) (S : List (Activation ω)) (kept : List (Kept ω)) : Prop where
  wellFormed : c.installations.WellFormed
  positive : 0 < c.installations.next
  bottom : (c.get 0).isBottom
  live : c.Linked (some c.top) (exposed [] S) (some 0)
  hides : Hides c [] S
  fits : ∀ k ∈ kept, k.Fits c
  nodup : (driven S kept).Nodup
  nonzero : 0 ∉ driven S kept
  found : ∀ i ∈ driven S kept, (c.installations.find? i).isSome

namespace Placed

/-- The exposed installations are among those that are driven. -/
theorem exposed_subset (S : List (Activation ω)) (kept : List (Kept ω)) :
    exposed [] S ⊆ driven S kept := fun i hi =>
  List.mem_append_left _ (by simpa using (exposed_sublist [] S).subset hi)

theorem exposed_nodup (h : Placed c S kept) : (exposed [] S).Nodup := by
  have hsub : (exposed [] S).Sublist (drivers S) := by simpa using exposed_sublist [] S
  exact (List.nodup_append.mp h.nodup).1.sublist hsub

/-- The live chain consists of what the code leaves exposed. -/
theorem reads (h : Placed c S kept) : c.Reads (exposed [] S) where
  linked := h.live
  bottom := h.bottom
  fits := Chain.length_lt_next h.wellFormed h.exposed_nodup
    (fun hmem => h.nonzero (exposed_subset S kept hmem))
    (fun i hi => h.found i (exposed_subset S kept hi)) h.positive

/-- Nothing that matters changes when all links of driven installations, the top and the bottom
stay. -/
theorem congr (h : Placed c S kept) (hwf : c'.installations.WellFormed)
    (hpos : 0 < c'.installations.next) (htop : c'.top = c.top) (hbottom : (c'.get 0).isBottom)
    (hsame : ∀ i ∈ driven S kept, (c'.get i).below = (c.get i).below)
    (hfound : ∀ i ∈ driven S kept, (c'.installations.find? i).isSome) : Placed c' S kept where
  wellFormed := hwf
  positive := hpos
  bottom := hbottom
  live := by
    rw [htop]
    exact h.live.congr fun i hi => hsame i (exposed_subset S kept hi)
  hides := h.hides.congr fun i hi => hsame i (List.mem_append_left _ (by simpa using hi))
  fits k hk := (h.fits k hk).congr fun i hi =>
    hsame i (List.mem_append_right _ (List.mem_flatMap.mpr ⟨k, hk, hi⟩))
  nodup := h.nodup
  nonzero := h.nonzero
  found := hfound

/-- The order in which captured continuations are listed does not matter. -/
theorem perm (hperm : kept.Perm kept') (h : Placed c S kept) : Placed c S kept' := by
  have hdriven : (driven S kept).Perm (driven S kept') := (hperm.flatMap_right _).append_left _
  exact
    { h with
      fits := fun k hk => h.fits k (hperm.mem_iff.mpr hk)
      nodup := hdriven.nodup h.nodup
      nonzero := fun hmem => h.nonzero (hdriven.mem_iff.mpr hmem)
      found := fun i hi => h.found i (hdriven.mem_iff.mpr hi) }

/-- A captured continuation can be forgotten. -/
theorem forget {k : Kept ω} (h : Placed c S (k :: kept)) : Placed c S kept := by
  have hsub : (driven S kept).Sublist (driven S (k :: kept)) :=
    (List.sublist_append_right _ _).append_left _
  exact
    { h with
      fits := fun k hk => h.fits k (List.mem_cons_of_mem _ hk)
      nodup := h.nodup.sublist hsub
      nonzero := fun hmem => h.nonzero (hsub.subset hmem)
      found := fun i hi => h.found i (hsub.subset hi) }

/-- Only drivers and plain clauses matter in code. -/
theorem of_code (h : Placed c S kept) (hdrivers : drivers S' = drivers S)
    (hexposed : exposed [] S' = exposed [] S) (hhides : Hides c [] S → Hides c [] S') :
    Placed c S' kept := by
  have hdriven : driven S' kept = driven S kept := by rw [driven, hdrivers, driven]
  exact
    { h with
      live := hexposed ▸ h.live
      hides := hhides h.hides
      nodup := hdriven ▸ h.nodup
      nonzero := hdriven ▸ h.nonzero
      found := hdriven ▸ h.found }

/-! ### Changes that keep all links -/

/-- A change of an installation that touches neither its link nor its label. -/
theorem modify (f : Installation → Installation) (hbelow : ∀ x, (f x).below = x.below)
    (hbottom : i ≠ 0 ∨ ∀ x, (f x).label = x.label) (h : Placed c S kept) :
    Placed (c.modify i f) S kept := by
  refine h.congr (Store.wellFormed_modify h.wellFormed _ _) h.positive rfl ?_
    (fun j _ => Chain.below_modify f hbelow) ?_
  · by_cases hi : i = 0
    · subst hi
      have hlabel := hbottom.resolve_left (by simp)
      cases hx : c.installations.find? 0 with
      | none =>
        rw [show c.modify 0 f = c by
          simp [Chain.modify, Store.modify_of_find?_eq_none f hx]]
        exact h.bottom
      | some x =>
        rw [Chain.get_modify_self f (by simp [hx])]
        simpa [Installation.isBottom, hbelow, hlabel] using h.bottom
    · rw [Chain.get_modify_of_ne f (Ne.symm hi)]
      exact h.bottom
  · intro j hj
    have hsome := h.found j hj
    simp only [Chain.modify, Store.find?_modify]
    split <;> simp [hsome]

/-- Freeing an installation that nothing drives. -/
theorem erase (hi : i ∉ driven S kept) (h : Placed c S kept) :
    Placed { c with installations := c.installations.erase i } S kept := by
  have hget : ∀ j, j ≠ i →
      ({ c with installations := c.installations.erase i } : Chain).get j = c.get j := by
    intro j hj
    simp [Chain.get, Store.find?_erase h.wellFormed, hj]
  refine h.congr (Store.wellFormed_erase h.wellFormed i) h.positive rfl ?_ ?_ ?_
  · by_cases hzero : i = 0
    · subst hzero
      simp [Chain.get, Store.find?_erase h.wellFormed, Installation.isBottom, Installation.bottom]
    · rw [hget 0 (Ne.symm hzero)]
      exact h.bottom
  · intro j hj
    rw [hget j (ne_of_mem_of_not_mem hj hi)]
  · intro j hj
    rw [Store.find?_erase h.wellFormed, if_neg (ne_of_mem_of_not_mem hj hi)]
    exact h.found j hj

/-- A number that was not handed out is not driven. -/
theorem next_notMem (h : Placed c S kept) : c.installations.next ∉ driven S kept := fun hmem => by
  simpa [Store.find?_next h.wellFormed] using h.found _ hmem

/-- Making an installation. -/
theorem create (x : Installation) (h : Placed c S kept) : Placed (c.create x).2 S kept := by
  have hget : ∀ j, j ≠ c.installations.next → (c.create x).2.get j = c.get j := by
    intro j hj
    rw [Chain.get_create, if_neg hj]
  refine h.congr (Store.wellFormed_insert h.wellFormed x) (Nat.succ_pos _) rfl ?_ ?_ ?_
  · rw [hget 0 (Nat.ne_of_lt h.positive)]
    exact h.bottom
  · intro j hj
    rw [hget j (ne_of_mem_of_not_mem hj h.next_notMem)]
  · intro j hj
    simp only [Chain.create, Store.find?_insert]
    rw [if_neg (ne_of_mem_of_not_mem hj h.next_notMem)]
    exact h.found j hj

/-! ### Relinking -/

/-- The installation of a driver on the path and everything exposed above it are cut off together
with the code above the driver. -/
theorem capture {t : Tower ω} {f : FiberId} (answer : String)
    (h : Placed c (t.code ++ .driving i f :: S) kept)
    (hi : i ∈ exposed [] (t.code ++ .driving i f :: S)) :
    ∃ c', c.split i = .ok (⟨c.top, i⟩, c') ∧ c.Relinks i none c' ∧ c'.nextLabel = c.nextLabel ∧
      (c.get i).below = some c'.top ∧ Placed c' S (⟨answer, ⟨c.top, i⟩, t⟩ :: kept) := by
  have hperm : (driven (t.code ++ .driving i f :: S) kept).Perm
      (driven S (⟨answer, ⟨c.top, i⟩, t⟩ :: kept)) := by
    have hswap : (drivers t.code ++ [i] ++ drivers S).Perm
        (drivers S ++ (drivers t.code ++ [i])) := List.perm_append_comm
    simpa [driven, drivers_append, drivers, Activation.driver?, Kept.installations]
      using hswap.append_right (kept.flatMap Kept.installations)
  have hnodup := hperm.nodup h.nodup
  have hnodup' := h.nodup
  simp only [driven, drivers_append, List.append_assoc] at hnodup'
  have hsub : (drivers t.code ++ [i]).Nodup := by
    refine (hnodup.sublist ?_ : (drivers t.code ++ [i]).Nodup)
    simp only [driven, List.flatMap_cons, Kept.installations]
    exact (List.sublist_append_left _ _).trans (List.sublist_append_right _ _)
  have hit : i ∉ drivers t.code := fun hmem =>
    (List.nodup_append.mp hsub).2.2 i hmem i (by simp) rfl
  have hiS : i ∉ drivers S := by
    intro hmem
    have := (List.nodup_append.mp hnodup).2.2 i hmem i
    simp [Kept.installations] at this
  have hiB : i ∉ exposed [] S := fun hmem =>
    hiS (by simpa using (exposed_sublist [] S).subset hmem)
  have hcode : exposed [] (t.code ++ .driving i f :: S) = exposed (i :: exposed [] S) t.code := by
    simp [exposed_append, Activation.expose]
  rw [hcode] at hi
  obtain ⟨hsplit, hin⟩ := exposed_split hi hit hiB
  obtain ⟨front, hfront, -⟩ := exposed_eq_append hin hit
  have hreads := h.reads
  rw [hcode, hsplit, hfront, List.append_assoc, List.singleton_append] at hreads
  have hexposed := h.exposed_nodup
  rw [hcode, hsplit, hfront, List.append_assoc, List.singleton_append] at hexposed
  have hfound : (c.installations.find? i).isSome :=
    h.found i (List.mem_append_left _ (by simp [drivers, Activation.driver?]))
  obtain ⟨c', hok, hrelinks, hnext, hbelow, hreads', hseg⟩ := hreads.split hfound hexposed
  obtain ⟨habove, hunder⟩ := hides_append.mp h.hides
  refine ⟨c', hok, hrelinks, hnext, hbelow, ?_⟩
  exact
    { wellFormed := hrelinks.wellFormed h.wellFormed
      positive := hrelinks.positive h.positive
      bottom := hreads'.bottom
      live := hreads'.linked
      hides := Hides.congr (fun j hj => by
        rw [hrelinks.get_of_ne]
        rintro rfl
        exact hiS (by simpa using hj)) (show Hides c [] S from hunder)
      fits := by
        intro k hmem
        rcases List.mem_cons.mp hmem with rfl | hk
        · have hkeep : Hides c [i] t.code := hides_rebase hin hit (exposed [] S) [] habove
          refine ⟨hin, hfront ▸ hseg, ?_⟩
          exact hkeep.congr_exposed hin hsub fun j _ hj => by rw [hrelinks.get_of_ne hj]
        · clear hmem
          refine (h.fits k hk).congr fun j hj => ?_
          rw [hrelinks.get_of_ne]
          rintro rfl
          have hleft : j ∈ drivers (t.code ++ .driving j f :: S) := by
            simp [drivers, Activation.driver?]
          have hright : j ∈ kept.flatMap Kept.installations := List.mem_flatMap.mpr ⟨k, hk, hj⟩
          exact (List.nodup_append.mp h.nodup).2.2 j hleft j hright rfl
      nodup := hnodup
      nonzero := fun hmem => h.nonzero (hperm.mem_iff.mpr hmem)
      found := fun j hj => hrelinks.found (h.found j (hperm.mem_iff.mpr hj)) }

/-- A plain clause takes everything off the chain that is exposed above and including its
installation. -/
theorem hide (handler : CellId) (exchange : ExchangeId) (h : Placed c S kept)
    (hi : i ∈ exposed [] S) :
    ∃ c', c.split i = .ok (⟨c.top, i⟩, c') ∧ c.Relinks i none c' ∧ c'.nextLabel = c.nextLabel ∧
      (c.get i).below = some c'.top ∧
      Placed c' (.inPlace i handler ⟨c.top, i⟩ exchange :: S) kept := by
  obtain ⟨front, hfront⟩ := takeThrough_eq_append hi
  have hsplit := takeThrough_append_dropThrough i (exposed [] S)
  rw [hfront, List.append_assoc, List.singleton_append] at hsplit
  have hfound := h.found i (exposed_subset S kept hi)
  have hreads : c.Reads (front ++ i :: dropThrough i (exposed [] S)) := by
    rw [hsplit]
    exact h.reads
  have hnodup : (front ++ i :: dropThrough i (exposed [] S)).Nodup := by
    rw [hsplit]
    exact h.exposed_nodup
  obtain ⟨c', hok, hrelinks, hnext, hbelow, hreads', hseg⟩ := hreads.split hfound hnodup
  have hdrivers : (drivers S ++ []).Nodup := by simpa using (List.nodup_append.mp h.nodup).1
  have hiS : i ∈ drivers S := by simpa using (exposed_sublist [] S).subset hi
  refine ⟨c', hok, hrelinks, hnext, hbelow, ?_⟩
  exact
    { wellFormed := hrelinks.wellFormed h.wellFormed
      positive := hrelinks.positive h.positive
      bottom := hreads'.bottom
      live := hreads'.linked
      hides := ⟨rfl, hi, hfront ▸ hseg,
        h.hides.congr_exposed hi hdrivers fun j _ hj => by rw [hrelinks.get_of_ne hj]⟩
      fits := fun k hk => (h.fits k hk).congr fun j hj => by
        rw [hrelinks.get_of_ne]
        rintro rfl
        have hright : j ∈ kept.flatMap Kept.installations := List.mem_flatMap.mpr ⟨k, hk, hj⟩
        exact (List.nodup_append.mp h.nodup).2.2 j hiS j hright rfl
      nodup := h.nodup
      nonzero := h.nonzero
      found := fun j hj => hrelinks.found (h.found j hj) }

/-- A plain clause that ends puts back what it has hidden. -/
theorem reveal {handler : CellId} {hidden : Segment} {exchange : ExchangeId}
    (h : Placed c (.inPlace i handler hidden exchange :: S) kept) :
    Placed (c.splice hidden) S kept := by
  obtain ⟨hlow, hi, hpath, hhides⟩ := h.hides
  obtain ⟨front, hfront⟩ := takeThrough_eq_append hi
  have hsplit := takeThrough_append_dropThrough i (exposed [] S)
  rw [hfront, List.append_assoc, List.singleton_append] at hsplit
  have hdriven : driven (.inPlace i handler hidden exchange :: S) kept = driven S kept := rfl
  have hmem : i ∈ driven S kept := exposed_subset S kept hi
  have hdrivers : (drivers S ++ []).Nodup := by
    rw [List.append_nil]
    exact (List.nodup_append.mp (hdriven ▸ h.nodup)).1
  have hiS : i ∈ drivers S := by simpa using (exposed_sublist [] S).subset hi
  have hnodup : (exposed [] S).Nodup := hdrivers.sublist (exposed_sublist [] S)
  have hlen : (exposed [] S).length < c.installations.next :=
    Chain.length_lt_next h.wellFormed hnodup
      (fun hin => h.nonzero (hdriven ▸ exposed_subset S kept hin))
      (fun j hj => h.found j (hdriven ▸ exposed_subset S kept hj)) h.positive
  subst hlow
  have hreads : (c.splice hidden).Reads (exposed [] S) := by
    rw [← hsplit] at hnodup hlen ⊢
    exact h.reads.splice _ (hfront ▸ hpath) (h.found _ (hdriven ▸ hmem))
      (fun heq => h.nonzero (hdriven ▸ heq ▸ hmem)) hnodup hlen
  have hrelinks : c.Relinks hidden.lowest (some c.top) (c.splice hidden) := ⟨rfl⟩
  exact
    { wellFormed := hrelinks.wellFormed h.wellFormed
      positive := hrelinks.positive h.positive
      bottom := hreads.bottom
      live := hreads.linked
      hides := hhides.congr_exposed hi hdrivers fun j _ hj => by rw [hrelinks.get_of_ne hj]
      fits := fun k hk => (h.fits k hk).congr fun j hj => by
        rw [hrelinks.get_of_ne]
        rintro rfl
        have hright : hidden.lowest ∈ kept.flatMap Kept.installations :=
          List.mem_flatMap.mpr ⟨k, hk, hj⟩
        exact (List.nodup_append.mp h.nodup).2.2 _ hiS _ hright rfl
      nodup := h.nodup
      nonzero := h.nonzero
      found := fun j hj => hrelinks.found (h.found j hj) }

/-- Resuming puts the segment of a captured continuation back and its code on top. -/
theorem resume {k : Kept ω} (f : FiberId) (h : Placed c S (k :: kept)) :
    Placed (c.splice k.segment) (k.tower.code ++ .driving k.segment.lowest f :: S) kept := by
  have hperm : (driven S (k :: kept)).Perm
      (driven (k.tower.code ++ .driving k.segment.lowest f :: S) kept) := by
    have hswap : (drivers S ++ (drivers k.tower.code ++ [k.segment.lowest])).Perm
        (drivers k.tower.code ++ [k.segment.lowest] ++ drivers S) := List.perm_append_comm
    simpa [driven, drivers_append, drivers, Activation.driver?, Kept.installations]
      using hswap.append_right (kept.flatMap Kept.installations)
  have hnodup := hperm.nodup h.nodup
  have hfits := h.fits k (List.mem_cons_self ..)
  have hmem : k.segment.lowest ∈ driven S (k :: kept) := by
    simp [driven, Kept.installations]
  have hzero : k.segment.lowest ≠ 0 := fun heq => h.nonzero (heq ▸ hmem)
  have hsub : (drivers k.tower.code ++ [k.segment.lowest]).Nodup := by
    refine h.nodup.sublist ?_
    simp only [driven, List.flatMap_cons, Kept.installations]
    exact (List.sublist_append_left _ _).trans (List.sublist_append_right _ _)
  have hit : k.segment.lowest ∉ drivers k.tower.code := fun hin =>
    (List.nodup_append.mp hsub).2.2 _ hin _ (by simp) rfl
  have hiS : k.segment.lowest ∉ drivers S := by
    intro hin
    have hright : k.segment.lowest ∈ (k :: kept).flatMap Kept.installations := by
      simp [Kept.installations]
    exact (List.nodup_append.mp h.nodup).2.2 _ hin _ hright rfl
  have hcode : exposed [] (k.tower.code ++ .driving k.segment.lowest f :: S) =
      exposed [k.segment.lowest] k.tower.code ++ exposed [] S := by
    rw [exposed_append]
    exact exposed_splice hfits.lowest hit (exposed [] S)
  obtain ⟨front, hfront, -⟩ := exposed_eq_append hfits.lowest hit
  have hsplit : exposed [] (k.tower.code ++ .driving k.segment.lowest f :: S) =
      front ++ k.segment.lowest :: exposed [] S := by
    rw [hcode, hfront, List.append_assoc, List.singleton_append]
  have hlive : (exposed [] (k.tower.code ++ .driving k.segment.lowest f :: S)).Nodup := by
    refine (List.nodup_append.mp hnodup).1.sublist ?_
    simpa using exposed_sublist [] (k.tower.code ++ .driving k.segment.lowest f :: S)
  have hsubset := exposed_subset (k.tower.code ++ .driving k.segment.lowest f :: S) kept
  have hlen : (exposed [] (k.tower.code ++ .driving k.segment.lowest f :: S)).length <
      c.installations.next :=
    Chain.length_lt_next h.wellFormed hlive
      (fun hin => h.nonzero (hperm.mem_iff.mpr (hsubset hin)))
      (fun j hj => h.found j (hperm.mem_iff.mpr (hsubset hj))) h.positive
  have hreads : (c.splice k.segment).Reads
      (exposed [] (k.tower.code ++ .driving k.segment.lowest f :: S)) := by
    rw [hsplit] at hlive hlen ⊢
    exact h.reads.splice _ (hfront ▸ hfits.linked) (h.found _ hmem) hzero hlive hlen
  have hrelinks : c.Relinks k.segment.lowest (some c.top) (c.splice k.segment) := ⟨rfl⟩
  refine
    { wellFormed := hrelinks.wellFormed h.wellFormed
      positive := hrelinks.positive h.positive
      bottom := hreads.bottom
      live := hreads.linked
      hides := ?_
      fits := ?_
      nodup := hnodup
      nonzero := fun hin => h.nonzero (hperm.mem_iff.mpr hin)
      found := fun j hj => hrelinks.found (h.found j (hperm.mem_iff.mpr hj)) }
  · refine hides_append.mpr ⟨?_, ?_⟩
    · refine hides_rebase hfits.lowest hit [] _ ?_
      exact hfits.hides.congr_exposed hfits.lowest hsub fun j _ hj => by rw [hrelinks.get_of_ne hj]
    · refine Hides.congr (S := S) (fun j hj => ?_) h.hides
      rw [hrelinks.get_of_ne]
      exact ne_of_mem_of_not_mem (by simpa using hj) hiS
  · intro k' hk'
    refine (h.fits k' (List.mem_cons_of_mem _ hk')).congr fun j hj => ?_
    rw [hrelinks.get_of_ne]
    rintro rfl
    have hright : k.segment.lowest ∈ kept.flatMap Kept.installations :=
      List.mem_flatMap.mpr ⟨k', hk', hj⟩
    have hleft : k.segment.lowest ∈ drivers (k.tower.code ++ .driving k.segment.lowest f :: S) := by
      simp [drivers, Activation.driver?]
    exact (List.nodup_append.mp hnodup).2.2 _ hleft _ hright rfl

/-- A body that returns finds its own installation on top, and takes it off. -/
theorem finish {f : FiberId} (h : Placed c (.driving i f :: S) kept) :
    ∃ c', c.pop? = some (i, c') ∧ c.Relinks i none c' ∧ c'.nextLabel = c.nextLabel ∧
      (c.get i).below = some c'.top ∧ Placed c' S kept := by
  have hdriven : driven (.driving i f :: S) kept = i :: driven S kept := rfl
  have hnodup := h.nodup
  rw [hdriven, List.nodup_cons] at hnodup
  have hreads : c.Reads (i :: exposed [] S) := h.reads
  have hi : i ∉ exposed [] S := fun hmem => hnodup.1 (exposed_subset S kept hmem)
  obtain ⟨c', hpop, hrelinks, hnext, hbelow, hreads'⟩ := hreads.pop hi
  have hne : ∀ j ∈ driven S kept, j ≠ i := fun j hj => ne_of_mem_of_not_mem hj hnodup.1
  refine ⟨c', hpop, hrelinks, hnext, hbelow, ?_⟩
  exact
    { wellFormed := hrelinks.wellFormed h.wellFormed
      positive := hrelinks.positive h.positive
      bottom := hreads'.bottom
      live := hreads'.linked
      hides := Hides.congr (S := S) (fun j hj => by
        rw [hrelinks.get_of_ne (hne j (List.mem_append_left _ (by simpa using hj)))]) h.hides
      fits := fun k hk => (h.fits k hk).congr fun j hj => by
        rw [hrelinks.get_of_ne (hne j (List.mem_append_right _ (List.mem_flatMap.mpr ⟨k, hk, hj⟩)))]
      nodup := hnodup.2
      nonzero := fun hmem => h.nonzero (hdriven ▸ List.mem_cons_of_mem _ hmem)
      found := fun j hj => hrelinks.found (h.found j (hdriven ▸ List.mem_cons_of_mem _ hj)) }

/-- A new installation goes on top, with a driver for it. -/
theorem install (x : Installation) (f : FiberId) (h : Placed c S kept) :
    Placed ((c.create x).2.push c.installations.next) (.driving c.installations.next f :: S)
      kept := by
  have hcreated := h.create x
  have hfresh := h.next_notMem
  have hzero : c.installations.next ≠ 0 := Nat.ne_of_gt h.positive
  have hfound : ((c.create x).2.installations.find? c.installations.next).isSome := by
    simp [Chain.create]
  have hlen : (exposed [] S).length + 1 < (c.create x).2.installations.next :=
    Nat.succ_lt_succ h.reads.fits
  have hreads := hcreated.reads.push hfound hzero (fun hmem => hfresh (exposed_subset S kept hmem))
    h.exposed_nodup hlen
  have hrelinks : (c.create x).2.Relinks c.installations.next (some c.top)
      ((c.create x).2.push c.installations.next) := ⟨rfl⟩
  have hdriven : driven (.driving c.installations.next f :: S) kept =
      c.installations.next :: driven S kept := rfl
  have hne : ∀ j ∈ driven S kept, j ≠ c.installations.next := fun j hj =>
    ne_of_mem_of_not_mem hj hfresh
  exact
    { wellFormed := hrelinks.wellFormed hcreated.wellFormed
      positive := hrelinks.positive hcreated.positive
      bottom := hreads.bottom
      live := hreads.linked
      hides := Hides.congr (S := S) (fun j hj => by
        rw [hrelinks.get_of_ne (hne j (List.mem_append_left _ (by simpa using hj)))])
        hcreated.hides
      fits := fun k hk => (hcreated.fits k hk).congr fun j hj => by
        rw [hrelinks.get_of_ne (hne j (List.mem_append_right _ (List.mem_flatMap.mpr ⟨k, hk, hj⟩)))]
      nodup := hdriven ▸ List.nodup_cons.mpr ⟨hfresh, h.nodup⟩
      nonzero := by
        rw [hdriven, List.mem_cons, not_or]
        exact ⟨hzero.symm, h.nonzero⟩
      found := by
        intro j hj
        rcases List.mem_cons.mp (hdriven ▸ hj) with rfl | hj
        · exact hrelinks.found hfound
        · exact hrelinks.found (hcreated.found j hj) }

end Placed

end EffectHandlers

/-!
## The ledger of shares

An installation is freed when its last share is released, and an exchange when its only one is.
A ledger lists what is held; it is covered when there are at least as many shares as holdings.
The links of the chain hold shares of installations too.
-/

namespace EffectHandlers

variable {c c' : Chain} {x : Store Exchange} {L L' : List Holding} {i j : InstallationId}
  {e : ExchangeId} {b : Option InstallationId} {a : Installation}

namespace Chain

/-- The number of shares of an installation; none when it was freed. -/
def shares (c : Chain) (i : InstallationId) : Nat :=
  ((c.installations.find? i).map (·.shares)).getD 0

/-- The installations that are linked below others. -/
def belows (c : Chain) : List InstallationId := c.installations.entries.filterMap (·.2.below)

/-- The installations that the chain itself holds: its top, and what is linked below others. -/
def links (c : Chain) : List InstallationId := c.top :: c.belows

/-- There are as many shares of each installation as are held, counting what the chain holds. -/
def Covers (c : Chain) (L : List Holding) : Prop :=
  ∀ i, L.count (.installation i) + c.links.count i ≤ c.shares i

theorem found_of_shares (h : 0 < c.shares i) : (c.installations.find? i).isSome := by
  unfold shares at h
  cases hfound : c.installations.find? i with
  | none => simp [hfound] at h
  | some a => rfl

theorem shares_of_find? (h : c.installations.find? i = some a) : c.shares i = a.shares := by
  simp [shares, h]

/-- Changing an installation changes at most its own shares. -/
theorem shares_modify (f : Installation → Installation)
    (hf : ∀ a, c.installations.find? j = some a → j = i → (f a).shares = a.shares) :
    (c.modify i f).shares j = c.shares j := by
  simp only [shares, modify, Store.find?_modify]
  split
  · cases hfound : c.installations.find? j with
    | none => rfl
    | some a => simp [hf a hfound (by assumption)]
  · rfl

/-- How a changed link changes what the chain holds. -/
theorem belows_modify (f : Installation → Installation)
    (hfound : c.installations.find? i = some a) (j : InstallationId) :
    (c.modify i f).belows.count j + (a.below.toList).count j =
      c.belows.count j + ((f a).below.toList).count j := by
  have hbefore := ((Store.entries_perm_erase hfound).filterMap (·.2.below)).count_eq j
  have hafter := ((Store.entries_perm_modify f hfound).filterMap (·.2.below)).count_eq j
  have hcons : ∀ (a : Installation) (es : List (InstallationId × Installation)),
      (((i, a) :: es).filterMap (·.2.below)).count j =
        (a.below.toList).count j + (es.filterMap (·.2.below)).count j := by
    intro a es
    cases h : a.below with
    | none => simp [h]
    | some b => simp [h, List.count_cons, Nat.add_comm]
  rw [hcons] at hbefore hafter
  simp only [belows, modify]
  omega

/-- A change that keeps links keeps what the chain holds. -/
theorem links_modify (f : Installation → Installation) (hf : ∀ a, (f a).below = a.below)
    (j : InstallationId) : (c.modify i f).links.count j = c.links.count j := by
  cases hfound : c.installations.find? i with
  | none => simp [modify, Store.modify_of_find?_eq_none f hfound]
  | some a =>
    have hcount := belows_modify f hfound j
    rw [hf] at hcount
    simp only [links, List.count_cons, modify_top]
    omega

namespace Covers

/-- What matters in a ledger is how often installations occur. -/
theorem mono (h : c.Covers L)
    (hcount : ∀ i, L'.count (.installation i) ≤ L.count (.installation i)) : c.Covers L' :=
  fun i => Nat.le_trans (Nat.add_le_add_right (hcount i) _) (h i)

/-- What is held has not been freed. -/
theorem found (h : c.Covers L) (hi : .installation i ∈ L) :
    (c.installations.find? i).isSome := by
  have hcover := h i
  have hpos := List.count_pos_iff.mpr hi
  exact found_of_shares (by omega)

/-- An installation that no number was handed out for is not held. -/
theorem next_notMem (h : c.Covers L) (hwf : c.installations.WellFormed) :
    L.count (.installation c.installations.next) = 0 ∧
      c.links.count c.installations.next = 0 := by
  have hcover := h c.installations.next
  have hnone : c.shares c.installations.next = 0 := by simp [shares, Store.find?_next hwf]
  omega

/-- A change that touches neither links nor shares. -/
theorem modify (f : Installation → Installation) (hbelow : ∀ a, (f a).below = a.below)
    (hshares : ∀ a, (f a).shares = a.shares) (h : c.Covers L) : (c.modify i f).Covers L := by
  intro j
  rw [links_modify f hbelow, shares_modify f fun a _ _ => hshares a]
  exact h j

/-- A new share for a new holding. -/
theorem hold (h : c.Covers L) (hi : (c.installations.find? i).isSome)
    (hcount : ∀ j, L'.count (.installation j) ≤
      L.count (.installation j) + if j = i then 1 else 0) :
    (c.modify i fun a => { a with shares := a.shares + 1 }).Covers L' := by
  intro j
  obtain ⟨a, ha⟩ := Option.isSome_iff_exists.mp hi
  rw [links_modify (fun a => { a with shares := a.shares + 1 }) fun _ => rfl]
  have hcover := h j
  have hchange := hcount j
  by_cases hj : j = i
  · subst hj
    rw [shares_of_find? ha] at hcover
    have hafter : (c.modify j fun a => { a with shares := a.shares + 1 }).shares j =
        a.shares + 1 := by
      simp [shares, Chain.modify, Store.find?_modify, ha]
    simp only [if_true] at hchange
    omega
  · rw [shares_modify _ fun a _ heq => absurd heq hj]
    simp only [hj, if_false] at hchange
    omega

/-- Giving a share back that is not held any more. -/
theorem unhold (h : c.Covers L)
    (hcount : ∀ j, L'.count (.installation j) + (if j = i then 1 else 0) ≤
      L.count (.installation j)) :
    (c.modify i fun a => { a with shares := a.shares - 1 }).Covers L' := by
  intro j
  rw [links_modify (fun a => { a with shares := a.shares - 1 }) fun _ => rfl]
  have hcover := h j
  have hchange := hcount j
  by_cases hj : j = i
  · subst hj
    simp only [if_true] at hchange
    obtain ⟨a, ha⟩ := Option.isSome_iff_exists.mp (found_of_shares (c := c) (i := j) (by omega))
    rw [shares_of_find? ha] at hcover
    have hafter : (c.modify j fun a => { a with shares := a.shares - 1 }).shares j =
        a.shares - 1 := by
      simp [shares, Chain.modify, Store.find?_modify, ha]
    omega
  · rw [shares_modify _ fun a _ heq => absurd heq hj]
    simp only [hj, if_false] at hchange
    omega

/-- Freeing an installation whose last share is given back; the link below it is given up. -/
theorem free (h : c.Covers L) (hwf : c.installations.WellFormed)
    (hfound : c.installations.find? i = some a) (hlast : a.shares ≤ 1)
    (hheld : .installation i ∈ L)
    (hcount : ∀ j, L'.count (.installation j) + (if j = i then 1 else 0) ≤
      L.count (.installation j) + (a.below.toList).count j) :
    Covers { c with installations := c.installations.erase i } L' := by
  intro j
  have hlinks : (a.below.toList).count j +
      (links { c with installations := c.installations.erase i }).count j = c.links.count j := by
    have hbefore := ((Store.entries_perm_erase hfound).filterMap (·.2.below)).count_eq j
    simp only [links, belows, List.count_cons]
    cases hb : a.below with
    | none => simp [hb] at hbefore ⊢; omega
    | some b => simp [hb, List.count_cons] at hbefore ⊢; omega
  have hcover := h j
  have hself := h i
  have hpos := List.count_pos_iff.mpr hheld
  have hchange := hcount j
  by_cases hj : j = i
  · subst hj
    rw [shares_of_find? hfound] at hself
    simp only [if_true] at hchange
    omega
  · have hsame : shares { c with installations := c.installations.erase i } j = c.shares j := by
      simp [shares, Store.find?_erase hwf, hj]
    simp only [hj, if_false] at hchange
    omega

/-- Setting a link, and perhaps another top. -/
theorem relink (h : c.Covers L) (hr : c.Relinks i b c')
    (hfound : c.installations.find? i = some a)
    (hcount : ∀ j, L'.count (.installation j) + b.toList.count j + [c'.top].count j ≤
      L.count (.installation j) + a.below.toList.count j + [c.top].count j) :
    c'.Covers L' := by
  intro j
  have hbelows := belows_modify (fun x => { x with below := b }) hfound j
  have hsame : c'.belows = (c.modify i fun x => { x with below := b }).belows := by
    simp [belows, hr.installations, Chain.modify]
  have hshares : c'.shares j = c.shares j := by
    have := shares_modify (c := c) (i := i) (j := j) (fun x => { x with below := b })
      fun _ _ _ => rfl
    simpa [shares, hr.installations, Chain.modify] using this
  have hcover := h j
  have hchange := hcount j
  simp only [links, List.count_cons, List.count_nil, Nat.zero_add] at hcover hchange ⊢
  rw [hsame, hshares]
  dsimp only at hbelows
  omega

/-- What is cut off takes the chain's share of the old top. -/
theorem split (h : c.Covers L) (hr : c.Relinks i none c')
    (hbelow : (c.get i).below = some c'.top)
    (hcount : ∀ j, L'.count (.installation j) ≤
      L.count (.installation j) + if c.top = j then 1 else 0) : c'.Covers L' := by
  cases hfound : c.installations.find? i with
  | none => simp [get, hfound, Installation.bottom] at hbelow
  | some a =>
    have ha : a.below = some c'.top := by simpa [get, hfound] using hbelow
    refine h.relink hr hfound fun j => ?_
    have hchange := hcount j
    simp only [ha, Option.toList_none, Option.toList_some, List.count_nil, List.count_singleton,
      beq_iff_eq]
    omega

/-- What is put back gives its share of the new top to the chain. -/
theorem splice {segment : Segment} (h : c.Covers L)
    (hfound : (c.installations.find? segment.lowest).isSome)
    (hcount : ∀ j, L'.count (.installation j) + (if segment.top = j then 1 else 0) ≤
      L.count (.installation j)) : (c.splice segment).Covers L' := by
  obtain ⟨a, ha⟩ := Option.isSome_iff_exists.mp hfound
  refine h.relink (b := some c.top) ⟨rfl⟩ ha fun j => ?_
  have hchange := hcount j
  simp only [Chain.splice, Option.toList_some, List.count_singleton, beq_iff_eq]
  omega

/-- A new installation has shares for the chain and for its first holders. -/
theorem install (h : c.Covers L) (hwf : c.installations.WellFormed) (hbelow : a.below = none)
    (hcount : ∀ j, L'.count (.installation j) +
        (if j = c.installations.next then 1 else 0) ≤
      L.count (.installation j) + if j = c.installations.next then a.shares else 0) :
    ((c.create a).2.push c.installations.next).Covers L' := by
  obtain ⟨hfresh, hfreshLinks⟩ := h.next_notMem hwf
  have hcreated : (c.create a).2.Covers (L ++ List.replicate a.shares
      (.installation c.installations.next)) := by
    intro j
    have hlinks : (c.create a).2.links = c.links := by simp [links, belows, create, Store.insert, hbelow]
    rw [hlinks, List.count_append, List.count_replicate]
    by_cases hj : j = c.installations.next
    · subst hj
      have hshares : (c.create a).2.shares c.installations.next = a.shares := by
        simp [shares, create]
      simp [hshares, hfresh, hfreshLinks]
    · have hshares : (c.create a).2.shares j = c.shares j := by
        simp [shares, create, Store.find?_insert, hj]
      have hne : ((Holding.installation c.installations.next) == .installation j) = false := by
        simpa using fun heq => hj heq.symm
      simpa [hshares, hne] using h j
  have hfound : (c.create a).2.installations.find? c.installations.next = some a := by
    simp [create]
  refine hcreated.relink (b := some c.top) ⟨rfl⟩ hfound fun j => ?_
  have hchange := hcount j
  simp only [push, Option.toList_some, List.count_singleton, beq_iff_eq, List.count_append,
    List.count_replicate, hbelow, Option.toList_none, List.count_nil, Holding.installation.injEq]
  simp only [eq_comm (a := c.installations.next), show (c.create a).2.top = c.top from rfl] at *
  omega

end Covers

end Chain

/-- No exchange is held twice, and none that is held was freed. -/
def HeldOnce (x : Store Exchange) (L : List Holding) : Prop :=
  ∀ e, L.count (.exchange e) ≤ if x.contains e then 1 else 0

namespace HeldOnce

/-- What matters in a ledger is how often exchanges occur. -/
theorem mono (h : HeldOnce x L)
    (hcount : ∀ e, L'.count (.exchange e) ≤ L.count (.exchange e)) : HeldOnce x L' :=
  fun e => Nat.le_trans (hcount e) (h e)

/-- An exchange that is held exists, and it is held only once. -/
theorem contains (h : HeldOnce x L) (he : .exchange e ∈ L) :
    (x.find? e).isSome ∧ L.count (.exchange e) = 1 := by
  have hone := h e
  have hpos := List.count_pos_iff.mpr he
  cases hc : x.contains e with
  | false => simp [hc] at hone; omega
  | true => simp [hc] at hone; exact ⟨hc, by omega⟩

/-- What an exchange holds does not matter. -/
theorem modify (f : Exchange → Exchange) (h : HeldOnce x L) : HeldOnce (x.modify e f) L := by
  intro e'
  have hsame : (x.modify e f).contains e' = x.contains e' := by
    simp only [Store.contains, Store.find?_modify]
    split <;> simp
  rw [hsame]
  exact h e'

/-- A new exchange is held by its maker. -/
theorem insert (y : Exchange) (h : HeldOnce x L) (hwf : x.WellFormed)
    (hcount : ∀ e, L'.count (.exchange e) ≤
      L.count (.exchange e) + if e = x.next then 1 else 0) : HeldOnce (x.insert y).2 L' := by
  intro e
  have hone := h e
  have hchange := hcount e
  by_cases he : e = x.next
  · subst he
    have hnone : x.contains x.next = false := by simp [Store.contains, Store.find?_next hwf]
    have hsome : (x.insert y).2.contains x.next = true := by simp [Store.contains]
    simp only [hnone, hsome, if_true, Bool.false_eq_true, if_false] at hone hchange ⊢
    omega
  · have hsame : (x.insert y).2.contains e = x.contains e := by
      simp [Store.contains, Store.find?_insert, he]
    simp only [he, if_false] at hchange
    rw [hsame]
    omega

/-- An exchange that is given up is freed. -/
theorem erase (h : HeldOnce x L) (hwf : x.WellFormed)
    (hcount : ∀ e', L'.count (.exchange e') + (if e' = e then 1 else 0) ≤
      L.count (.exchange e')) : HeldOnce (x.erase e) L' := by
  intro e'
  have hone := h e'
  have hchange := hcount e'
  by_cases he : e' = e
  · subst he
    simp only [if_true] at hchange
    split at hone <;> omega
  · have hsame : (x.erase e).contains e' = x.contains e' := by
      simp [Store.contains, Store.find?_erase hwf, he]
    simp only [he, if_false] at hchange
    rw [hsame]
    omega

end HeldOnce

end EffectHandlers
