import EffectHandlers.Proofs.Arrangement
import EffectHandlers.Proofs.Moving
/-!
# Where the installations of a thread are

An installation is on the live chain, or in a segment that a continuation or a plain clause will
put back, or in neither and then never on the chain again. A step moves whole segments, and each of
them is tied to an exchange.
-/

namespace EffectHandlers

variable {ω : Type} {Γ : Library ω} {m m' : Machine ω} {live : List InstallationId}
  {i : InstallationId} {A : List (Activation ω)} {R P : List (Cont ω)}

/-! ### Bonds -/

/-- What will put a segment back: a continuation that a resumption holds, a continuation that was
resumed and has not started, or a plain clause. Each belongs to an exchange. -/
inductive Tie
  | held (e : ExchangeId)
  | roused (e : ExchangeId)
  | hidden (e : ExchangeId)

/-- The tie of the segment that is cut off when a clause starts. -/
def ClauseCode.tie (code : ClauseCode ω) (e : ExchangeId) : Tie :=
  if code.modifier = .plain then .hidden e else .held e

/-- The segment of a continuation. -/
def Cont.bond? (tie : ExchangeId → Tie) : Cont ω → Option (Tie × Segment)
  | .captured _ _ s e => some (tie e, s)
  | .function .. => none

/-- The segment that is hidden from a plain clause. -/
def Activation.bond? : Activation ω → Option (Tie × Segment)
  | .inPlace _ _ s e => some (.hidden e, s)
  | _ => none

/-- The segments of posts, and of continuations that are held or were resumed. -/
def bondsOf (A : List (Activation ω)) (R P : List (Cont ω)) : List (Tie × Segment) :=
  A.filterMap Activation.bond? ++
    (R.filterMap (Cont.bond? .held) ++ P.filterMap (Cont.bond? .roused))

theorem bondsOf_perm {A' : List (Activation ω)} {R' P' : List (Cont ω)} (hA : A.Perm A')
    (hR : R.Perm R') (hP : P.Perm P') : (bondsOf A R P).Perm (bondsOf A' R' P') :=
  (hA.filterMap _).append ((hR.filterMap _).append (hP.filterMap _))

theorem bondsOf_held (answer : String) (f : FiberId) (s : Segment) (e : ExchangeId) :
    (bondsOf A (.captured answer f s e :: R) P).Perm ((.held e, s) :: bondsOf A R P) :=
  List.perm_middle

theorem bondsOf_roused (answer : String) (f : FiberId) (s : Segment) (e : ExchangeId) :
    (bondsOf A R (.captured answer f s e :: P)).Perm ((.roused e, s) :: bondsOf A R P) := by
  have hinner : (R.filterMap (Cont.bond? .held) ++
      (Tie.roused e, s) :: P.filterMap (Cont.bond? .roused)).Perm ((.roused e, s) ::
        (R.filterMap (Cont.bond? .held) ++ P.filterMap (Cont.bond? .roused))) := List.perm_middle
  exact (hinner.append_left _).trans List.perm_middle

/-- The segments of a thread. -/
def Machine.bonds (m : Machine ω) : List (Tie × Segment) := bondsOf m.posts m.latent m.roused

theorem Machine.Within.bonds (h : m.Within A R P) : m.bonds.Subperm (bondsOf A R P) := by
  have hall : ∀ {α : Type} {l l' : List α} (f : α → Option (Tie × Segment)), l.Subperm l' →
      (l.filterMap f).Subperm (l'.filterMap f) := by
    rintro α l l' f ⟨k, hperm, hsub⟩
    exact ⟨k.filterMap f, hperm.filterMap f, hsub.filterMap f⟩
  exact (hall _ h.posts).append ((hall _ h.latent).append (hall _ h.roused))

/-- Where a segment begins and ends. -/
def ends (c : Tie × List InstallationId) : Tie × Option InstallationId × Option InstallationId :=
  (c.1, c.2.head?, c.2.getLast?)

/-- Where the segment of a bond begins and ends. -/
def bondEnds (b : Tie × Segment) : Tie × Option InstallationId × Option InstallationId :=
  (b.1, some b.2.top, some b.2.lowest)

theorem ends_eq {tie : Tie} {is : List InstallationId} {s : Segment}
    (h : (is ++ [s.lowest]).head? = some s.top) :
    ends (tie, is ++ [s.lowest]) = bondEnds (tie, s) := by
  simp [ends, bondEnds, h]

theorem subperm_map_bondEnds {L L' : List (Tie × Segment)} (h : L.Subperm L') :
    (L.map bondEnds).Subperm (L'.map bondEnds) := by
  obtain ⟨l, hperm, hsub⟩ := h
  exact ⟨l.map bondEnds, hperm.map _, hsub.map _⟩

/-! ### The lists of a thread -/

/-- The live chain and the segments of a thread as lists. -/
structure Machine.Lays (m : Machine ω) (live : List InstallationId)
    (cuts : List (Tie × List InstallationId)) : Prop where
  arranged : m.chain.Arranged live (cuts.map (·.2))
  bonds : (cuts.map ends).Perm (m.bonds.map bondEnds)

/-- A chain with the same links has the same lists. -/
theorem Chain.Arranged.sameLinks {c c' : Chain} {cuts : List (List InstallationId)}
    (h : c.Arranged live cuts) (hlinks : c.SameLinks c') : c'.Arranged live cuts := by
  refine h.congr hlinks.top ?_ (fun i _ => (hlinks.get i).2)
    (fun i hi => (hlinks.isSome i).trans (h.found i hi)) (hlinks.wellFormed h.wellFormed)
    (hlinks.next ▸ h.positive)
  have hbottom := h.bottom
  rw [Installation.isBottom] at hbottom ⊢
  rwa [(hlinks.get 0).1, (hlinks.get 0).2]

namespace Machine.Lays

variable {cuts : List (Tie × List InstallationId)}

/-- A thread may have forgotten segments. -/
theorem of (harranged : m.chain.Arranged live (cuts.map (·.2)))
    (hbonds : (m.bonds.map bondEnds).Subperm (cuts.map ends)) :
    ∃ cuts', cuts' ⊆ cuts ∧ m.Lays live cuts' := by
  obtain ⟨l, hperm, hsub⟩ := hbonds
  obtain ⟨cuts', hsub', rfl⟩ := List.sublist_map_iff.mp hsub
  exact ⟨cuts', hsub'.subset, harranged.forget (hsub'.map _), hperm⟩

/-- The live chain changes, and segments go. -/
theorem lose (h : m.Lays live cuts) {live' : List InstallationId}
    (harranged : m'.chain.Arranged live' (cuts.map (·.2))) (hbonds : m'.bonds.Subperm m.bonds) :
    ∃ cuts', cuts' ⊆ cuts ∧ m'.Lays live' cuts' :=
  Lays.of harranged ((subperm_map_bondEnds hbonds).trans h.bonds.symm.subperm)

/-- The list of a bond. -/
theorem exists_cut (h : m.Lays live cuts) {tie : Tie} {s : Segment} {L : List (Tie × Segment)}
    (hperm : m.bonds.Perm ((tie, s) :: L)) :
    ∃ is rest, cuts.Perm ((tie, is ++ [s.lowest]) :: rest) ∧
      (is ++ [s.lowest]).head? = some s.top ∧ (rest.map ends).Perm (L.map bondEnds) := by
  have hbonds : (cuts.map ends).Perm (bondEnds (tie, s) :: L.map bondEnds) :=
    h.bonds.trans (hperm.map bondEnds)
  obtain ⟨⟨t, ks⟩, hmem, hends⟩ := List.mem_map.mp (hbonds.mem_iff.mpr List.mem_cons_self)
  obtain ⟨l, l', rfl⟩ := List.append_of_mem hmem
  simp only [ends, bondEnds, Prod.mk.injEq] at hends
  obtain ⟨rfl, hhead, hlast⟩ := hends
  obtain ⟨is, rfl⟩ : ∃ is, ks = is ++ [s.lowest] :=
    ⟨ks.dropLast, (List.dropLast_append_getLast? _ hlast).symm⟩
  have hcuts : (l ++ (t, is ++ [s.lowest]) :: l').Perm ((t, is ++ [s.lowest]) :: (l ++ l')) :=
    List.perm_middle
  refine ⟨is, l ++ l', hcuts, hhead, ?_⟩
  have hrest := (hcuts.map ends).symm.trans hbonds
  rw [List.map_cons, ends_eq hhead] at hrest
  exact hrest.cons_inv

/-- A segment is cut off. -/
theorem cut (h : m.Lays live cuts) {tie : Tie} {s : Segment} (hcuts : m.chain.Cuts i s m'.chain)
    (hbonds : m'.bonds.Subperm ((tie, s) :: m.bonds)) :
    ∃ is js, live = is ++ i :: js ∧
      ∃ cuts', cuts' ⊆ (tie, is ++ [i]) :: cuts ∧ m'.Lays js cuts' := by
  obtain ⟨c₁, c₂, hlinks₁, hsplit, hlinks₂⟩ := hcuts
  have harranged := h.arranged.sameLinks hlinks₁
  have hlive : i ∈ live := by
    refine harranged.reads.isLive_iff.mp ?_
    unfold Chain.split at hsplit
    split at hsplit
    · assumption
    · cases hsplit
  obtain ⟨is, js, rfl⟩ := List.append_of_mem hlive
  obtain ⟨c', hsplit', -, -, hhead, harranged'⟩ := harranged.split
  obtain ⟨rfl, rfl⟩ := Prod.mk.inj (Except.ok.inj (hsplit'.symm.trans hsplit))
  have harranged'' : m'.chain.Arranged js (((tie, is ++ [i]) :: cuts).map (·.2)) :=
    harranged'.sameLinks hlinks₂
  refine ⟨is, js, rfl, Lays.of harranged'' ?_⟩
  refine (subperm_map_bondEnds hbonds).trans (List.Perm.subperm ?_)
  rw [List.map_cons, List.map_cons, ← ends_eq (s := ⟨c₁.top, i⟩) hhead]
  exact h.bonds.symm.cons _

/-- A segment is tied to something else. -/
theorem retie (h : m.Lays live cuts) {tie tie' : Tie} {s : Segment} {L : List (Tie × Segment)}
    (hperm : m.bonds.Perm ((tie, s) :: L)) (hbonds : m'.bonds.Subperm ((tie', s) :: L))
    (hlinks : m.chain.SameLinks m'.chain) :
    ∃ is rest cuts', cuts.Perm ((tie, is) :: rest) ∧ cuts' ⊆ (tie', is) :: rest ∧
      m'.Lays live cuts' := by
  obtain ⟨is, rest, hcuts, hhead, hrest⟩ := h.exists_cut hperm
  have harranged : m'.chain.Arranged live (((tie', is ++ [s.lowest]) :: rest).map (·.2)) :=
    (h.arranged.perm (hcuts.map _)).sameLinks hlinks
  have hall : (((tie', s) :: L).map bondEnds).Perm
      (((tie', is ++ [s.lowest]) :: rest).map ends) := by
    rw [List.map_cons, List.map_cons, ends_eq hhead]
    exact hrest.symm.cons _
  obtain ⟨cuts', hsubset, hlays⟩ :=
    Lays.of harranged ((subperm_map_bondEnds hbonds).trans hall.subperm)
  exact ⟨_, rest, cuts', hcuts, hsubset, hlays⟩

/-- A segment is put back. -/
theorem splice (h : m.Lays live cuts) {tie : Tie} {s : Segment} {L : List (Tie × Segment)}
    (hperm : m.bonds.Perm ((tie, s) :: L)) (hbonds : m'.bonds.Subperm L)
    (hlinks : (m.chain.splice s).SameLinks m'.chain) :
    ∃ is rest cuts', cuts.Perm ((tie, is) :: rest) ∧ cuts' ⊆ rest ∧
      m'.Lays (is ++ live) cuts' := by
  obtain ⟨is, rest, hcuts, hhead, hrest⟩ := h.exists_cut hperm
  have harranged := (Chain.Arranged.splice s (h.arranged.perm (hcuts.map _)) hhead).sameLinks hlinks
  obtain ⟨cuts', hsubset, hlays⟩ :=
    Lays.of harranged ((subperm_map_bondEnds hbonds).trans hrest.symm.subperm)
  exact ⟨is ++ [s.lowest], rest, cuts', hcuts, hsubset, by simpa using hlays⟩

/-- Two lists have no installation in common. -/
theorem notMem_of_mem (h : m.Lays live cuts) (hi : i ∈ live) {c : Tie × List InstallationId}
    (hc : c ∈ cuts) : i ∉ c.2 := fun hmem =>
  (List.nodup_append.mp h.arranged.nodup).2.2 i hi i
    (List.mem_flatten.mpr ⟨c.2, List.mem_map.mpr ⟨c, hc, rfl⟩, hmem⟩) rfl

theorem nodup_live (h : m.Lays live cuts) : live.Nodup := (List.nodup_append.mp h.arranged.nodup).1

/-- A plain clause hides the segment from itself. -/
theorem hides (h : m.Lays live cuts) {e : ExchangeId} {s : Segment} (hhides : m.Hides m' e i s) :
    ∃ is js, live = is ++ i :: js ∧
      ∃ cuts', cuts' ⊆ (.hidden e, is ++ [i]) :: cuts ∧ m'.Lays js cuts' :=
  h.cut hhides.cuts hhides.within.bonds

/-- A captured continuation holds its segment. -/
theorem captures (h : m.Lays live cuts) {r : Request} {s : Segment}
    (hcaptures : m.Captures Γ m' r s) :
    ∃ is js, live = is ++ r.target :: js ∧
      ∃ cuts', cuts' ⊆ (.held r.exchange, is ++ [r.target]) :: cuts ∧ m'.Lays js cuts' := by
  obtain ⟨f, code, answer, -, -, hwithin⟩ := hcaptures.within
  exact h.cut hcaptures.cuts (hwithin.bonds.trans (bondsOf_held ..).subperm)

/-- The top installation is taken off. -/
theorem pops (h : m.Lays live cuts) {c : Chain} (hpop : m.chain.pop? = some (i, c)) :
    ∃ js, live = i :: js ∧ c.Arranged js (cuts.map (·.2)) := by
  obtain ⟨b, hb, heq⟩ := Option.map_eq_some_iff.mp hpop
  obtain ⟨rfl, rfl⟩ := Prod.mk.inj heq
  have hlinked := h.arranged.linked
  cases live with
  | nil =>
    -- there is nothing below the bottom installation
    rw [show m.chain.top = 0 from Option.some.inj hlinked,
      Chain.below_bottom h.arranged.bottom] at hb
    cases hb
  | cons j js =>
    obtain rfl : m.chain.top = j := Option.some.inj hlinked.1
    obtain ⟨c', hpop', -, -, harranged⟩ := h.arranged.pop
    obtain ⟨-, rfl⟩ := Prod.mk.inj (Option.some.inj (hpop'.symm.trans hpop))
    exact ⟨js, rfl, harranged⟩

/-- An installation that returns was the top one. -/
theorem retires [Contents ω] (h : m.Lays live cuts) (hretires : m.Retires Γ m' i) :
    ∃ js cuts', live = i :: js ∧ cuts' ⊆ cuts ∧ m'.Lays js cuts' := by
  obtain ⟨c, hpop, hchain⟩ := hretires.pops
  obtain ⟨answer, hwithin⟩ := hretires.within
  obtain ⟨js, rfl, harranged⟩ := h.pops hpop
  have hzero : 0 ≠ i := fun heq => h.arranged.nonzero (by simp [← heq])
  have hretired : (c.retire i).Arranged js (cuts.map (·.2)) := by
    refine harranged.congr rfl ?_ (fun j _ => Chain.below_modify _ fun _ => rfl) (fun j hj => ?_)
      (Store.wellFormed_modify harranged.wellFormed _ _) harranged.positive
    · rw [Chain.retire, Chain.get_modify_of_ne _ hzero]
      exact harranged.bottom
    · simpa [Chain.retire, Chain.modify, Store.find?_modify, apply_ite Option.isSome] using
        harranged.found j hj
  obtain ⟨cuts', hsub, hlays⟩ := h.lose (hchain ▸ hretired) hwithin.bonds
  exact ⟨js, cuts', rfl, hsub, hlays⟩

end Machine.Lays

/-! ### Installations that stay away -/

/-- Not on the live chain, and only in segments with certain ties. -/
def Off (T : Tie → Prop) (live : List InstallationId) (cuts : List (Tie × List InstallationId))
    (i : InstallationId) : Prop :=
  i ∉ live ∧ ∀ c ∈ cuts, i ∈ c.2 → T c.1

namespace Off

variable {T : Tie → Prop} {live' : List InstallationId} {cuts cuts' : List (Tie × List InstallationId)}

theorem mono (h : Off T live cuts i) (hlive : live' ⊆ live) (hcuts : cuts' ⊆ cuts) :
    Off T live' cuts' i :=
  ⟨fun hi => h.1 (hlive hi), fun c hc => h.2 c (hcuts hc)⟩

/-- The order of the segments does not matter. -/
theorem perm (h : Off T live cuts i) (hperm : cuts.Perm cuts') : Off T live cuts' i :=
  h.mono (List.Subset.refl _) hperm.symm.subset

/-- A segment that is cut off does not have the installation. -/
theorem cut {tie : Tie} {j : InstallationId} {is js : List InstallationId}
    (h : Off T (is ++ j :: js) cuts i) : Off T js ((tie, is ++ [j]) :: cuts) i := by
  refine ⟨fun hi => h.1 (by simp [hi]), fun c hc => ?_⟩
  rcases List.mem_cons.mp hc with rfl | hc
  · intro hi
    rcases List.mem_append.mp hi with hi | hi
    · exact absurd (List.mem_append_left _ hi) h.1
    · obtain rfl := List.mem_singleton.mp hi
      exact absurd (by simp) h.1
  · exact h.2 c hc

/-- A segment with another tie does not have the installation. -/
theorem notMem {tie : Tie} {is : List InstallationId} (h : Off T live ((tie, is) :: cuts) i)
    (htie : ¬ T tie) : i ∉ is := fun hi => htie (h.2 (tie, is) List.mem_cons_self hi)

/-- A segment with another tie may be put back. -/
theorem splice {tie : Tie} {is : List InstallationId} (h : Off T live ((tie, is) :: cuts) i)
    (htie : ¬ T tie) : Off T (is ++ live) cuts i := by
  refine ⟨fun hi => ?_, fun c hc => h.2 c (List.mem_cons_of_mem _ hc)⟩
  rcases List.mem_append.mp hi with hi | hi
  · exact h.notMem htie hi
  · exact h.1 hi

/-- A segment with another tie may be tied to anything. -/
theorem retie {tie tie' : Tie} {is : List InstallationId} (h : Off T live ((tie, is) :: cuts) i)
    (htie : ¬ T tie) : Off T live ((tie', is) :: cuts) i := by
  refine ⟨h.1, fun c hc hi => ?_⟩
  rcases List.mem_cons.mp hc with rfl | hc
  · exact absurd hi (h.notMem htie)
  · exact h.2 c (List.mem_cons_of_mem _ hc) hi

end Off

/-- A step does not put segments with such ties back, or tie them to something else. -/
structure Machine.Steady [Contents ω] (Γ : Library ω) (m : Machine ω) (T : Tie → Prop) : Prop where
  roused : ∀ e, ¬ T (.roused e)
  held : ∀ e v, m.Resumes e v → ¬ T (.held e)
  hidden : ∀ e S v, m.Returns Γ ⟨e, true, S⟩ v → ¬ T (.hidden e)

namespace Machine.Lays

variable {cuts : List (Tie × List InstallationId)} [Contents ω]

/-- What a step does to the lists. -/
theorem step (h : m.Lays live cuts) (hfree : ∀ i a hs, m.releasing = .installation i :: hs →
      m.chain.installations.find? i = some a → a.shares ≤ 1 →
        i ∉ live ++ (cuts.map (·.2)).flatten) :
    ∃ live' cuts', (m.step Γ).Lays live' cuts' ∧ ∀ T j, m.Steady Γ T →
      j < m.chain.installations.next → Off T live cuts j → Off T live' cuts' j := by
  -- the new posts hide no segments
  have hplain : ∀ {A : List (Activation ω)},
      (∀ a ∈ A, a.Arises Γ m ∧ ∀ i handler s e, a ≠ .inPlace i handler s e) →
        (m.step Γ).Within (A ++ m.posts) m.latent m.roused → (m.step Γ).bonds.Subperm m.bonds := by
    intro A hA hwithin
    have hnone : A.filterMap Activation.bond? = [] := by
      refine List.filterMap_eq_nil_iff.mpr fun a ha => ?_
      have hne := (hA a ha).2
      cases a with
      | inPlace i handler s e => exact absurd rfl (hne i handler s e)
      | _ => rfl
    have hbonds := hwithin.bonds
    rwa [bondsOf, List.filterMap_append, List.append_assoc, hnone] at hbonds
  cases step_moves Γ m with
  | keeps hA hwithin hchain =>
    obtain ⟨cuts', hsub, hlays⟩ := h.lose (h.arranged.sameLinks hchain) (hplain hA hwithin)
    exact ⟨live, cuts', hlays, fun T j _ _ hoff => hoff.mono (List.Subset.refl _) hsub⟩
  | frees hreleasing ha hlast hwithin hchain =>
    have harranged := h.arranged.erase (hfree _ _ _ hreleasing ha hlast)
    obtain ⟨cuts', hsub, hlays⟩ := h.lose (hchain ▸ harranged) hwithin.bonds
    exact ⟨live, cuts', hlays, fun T j _ _ hoff => hoff.mono (List.Subset.refl _) hsub⟩
  | pushes hA hwithin hlinks hchain =>
    rename_i a c
    obtain ⟨hcreated, hzero, hnew⟩ := (h.arranged.sameLinks hlinks).create a
    have harranged := hcreated.push (by simp [Chain.create]) hzero hnew
    obtain ⟨cuts', hsub, hlays⟩ := h.lose (hchain ▸ harranged) (hplain hA hwithin)
    refine ⟨_, cuts', hlays, fun T j _ hj hoff => ⟨fun hmem => ?_, fun c hc => hoff.2 c (hsub hc)⟩⟩
    rcases List.mem_cons.mp hmem with rfl | hmem
    · exact absurd hlinks.next (Nat.ne_of_lt hj)
    · exact hoff.1 hmem
  | pops hwithin hpop hchain =>
    obtain ⟨js, rfl, harranged⟩ := h.pops hpop
    obtain ⟨cuts', hsub, hlays⟩ := h.lose (hchain ▸ harranged) hwithin.bonds
    exact ⟨js, cuts', hlays, fun T j _ _ hoff => hoff.mono (List.subset_cons_self _ _) hsub⟩
  | retires hretires =>
    obtain ⟨js, cuts', rfl, hsub, hlays⟩ := h.retires hretires
    exact ⟨js, cuts', hlays, fun T j _ _ hoff => hoff.mono (List.subset_cons_self _ _) hsub⟩
  | hides hhides =>
    obtain ⟨is, js, rfl, cuts', hsub, hlays⟩ := h.hides hhides
    exact ⟨js, cuts', hlays, fun T j _ _ hoff => hoff.cut.mono (List.Subset.refl _) hsub⟩
  | captures hcaptures =>
    obtain ⟨is, js, rfl, cuts', hsub, hlays⟩ := h.captures hcaptures
    exact ⟨js, cuts', hlays, fun T j _ _ hoff => hoff.cut.mono (List.Subset.refl _) hsub⟩
  | arms hresumes hk hlatent hwithin hlinks =>
    rename_i e v k R
    cases k with
    | function => cases hk
    | captured answer f s e' =>
      obtain rfl : e' = e := Option.some.inj hk
      have hperm : m.bonds.Perm ((.held e', s) :: bondsOf m.posts R m.roused) :=
        (bondsOf_perm (.refl _) hlatent (.refl _)).trans (bondsOf_held ..)
      have hbonds := hwithin.bonds.trans (bondsOf_roused answer f s e').subperm
      obtain ⟨is, rest, cuts', hcuts, hsub, hlays⟩ := h.retie hperm hbonds hlinks
      exact ⟨live, cuts', hlays, fun T j hsteady _ hoff =>
        ((hoff.perm hcuts).retie (hsteady.held e' v hresumes)).mono (List.Subset.refl _) hsub⟩
  | resumes hroused hwithin hlinks =>
    rename_i answer f s e P
    have hperm : m.bonds.Perm ((.roused e, s) :: bondsOf m.posts m.latent P) :=
      (bondsOf_perm (.refl _) (.refl _) hroused).trans (bondsOf_roused ..)
    obtain ⟨is, rest, cuts', hcuts, hsub, hlays⟩ := h.splice hperm hwithin.bonds hlinks
    exact ⟨is ++ live, cuts', hlays, fun T j hsteady _ hoff =>
      ((hoff.perm hcuts).splice (hsteady.roused e)).mono (List.Subset.refl _) hsub⟩
  | returns hreturns hposts hwithin hlinks =>
    rename_i i handler s e S v A
    have hperm : m.bonds.Perm ((.hidden e, s) :: bondsOf A m.latent m.roused) :=
      bondsOf_perm hposts (.refl _) (.refl _)
    obtain ⟨is, rest, cuts', hcuts, hsub, hlays⟩ := h.splice hperm hwithin.bonds hlinks
    exact ⟨is ++ live, cuts', hlays, fun T j hsteady _ hoff =>
      ((hoff.perm hcuts).splice (hsteady.hidden e S v hreturns)).mono (List.Subset.refl _) hsub⟩

end Machine.Lays

end EffectHandlers
