import EffectHandlers.Proofs.Unfolding
/-!
# Drivers that are unfolded along a run

A driver that can be unfolded from the spine after a step could be unfolded before it. There are two
exceptions: a continuation that was about to start brings the drivers it goes on with, and a new
installation brings its own.
-/

namespace EffectHandlers

variable {ω : Type} {Γ : Library ω} {C P Q R S T U X : List (Activation ω)} {i : InstallationId}
  {f : FiberId} {k : Cont ω}

/-- What a captured continuation puts on the spine, below the code that it goes on with. -/
def Cont.entry : Cont ω → List (Activation ω)
  | .captured _ f s _ => [.driving s.lowest f]
  | .function .. => []

@[simp] theorem Cont.entry_arm (k : Cont ω) (v : Value) : (k.arm v).entry = k.entry := by
  cases k <;> rfl

/-- A continuation owns what it puts on the spine. -/
theorem Cont.free_entry (h : .fiber f ∉ k.owned) : .fiber f ∉ ownedBy k.entry := by
  cases k with
  | captured answer g s e =>
    intro hmem
    obtain rfl : f = g := by simpa [entry, ownedBy, Activation.owned] using hmem
    exact h (by simp [owned])
  | function => simp [entry, ownedBy]

namespace Machine

variable {m m' : Machine ω} {o o' : Origins}

/-- The continuation goes on with the body of the installation. -/
def Conveys (m : Machine ω) (o : Origins) (k : Cont ω) (i : InstallationId) : Prop :=
  ∃ f Q, m.Harbours o k.entry (.driving i f :: Q)

theorem Clear.entry (h : .fiber f ∉ ownedBy k.entry) : m.Clear f k.entry := by
  refine ⟨?_, h⟩
  cases k with
  | captured => exact Dated.nil.driving _ _
  | function => exact .nil

theorem Clear.append_entry (h : m.Clear f S) (hk : .fiber f ∉ ownedBy k.entry) :
    m.Clear f (k.entry ++ S) := by
  cases k with
  | captured answer g s e =>
    refine h.driving ?_ s.lowest
    rintro rfl
    exact hk (by simp [Cont.entry, ownedBy, Activation.owned])
  | function => exact h

/-- A driver that a continuation brings along is its own, or was there before. -/
theorem Harbours.of_entry (h : m.Harbours o (k.entry ++ S) (.driving i f :: Q)) :
    m.Conveys o k i ∨ m.Harbours o S (.driving i f :: Q) := by
  cases k with
  | captured answer g s e =>
    rcases Harbours.of_driving h with ⟨P, heq, hP⟩ | h
    · refine .inl ?_
      cases P with
      | nil =>
        obtain ⟨heq, -⟩ := List.cons.inj heq
        exact ⟨f, [], heq ▸ .refl⟩
      | cons a P =>
        obtain ⟨rfl, -⟩ := List.cons.inj heq
        exact ⟨f, _, hP⟩
    · exact .inr h
  | function => exact .inr h

/-- What a continuation conveys was conveyed by it before. -/
theorem Succeeds.conveys (h : m.Succeeds o m' o' f) (hk : .fiber f ∉ ownedBy k.entry)
    (hi : m'.Conveys o' k i) : m.Conveys o k i := by
  obtain ⟨g, Q, hi⟩ := hi
  exact ⟨g, Q, (h.harbours hi (.entry hk)).1⟩

/-! ### Drivers and what drives -/

theorem drives_of_mem_spine (h : .driving i f ∈ m.spine) : m.Drives i f := by
  refine .inl (List.mem_filter.mpr ⟨?_, rfl⟩)
  rcases List.mem_append.mp h with h | h
  · exact List.mem_append_left _ h
  · exact List.mem_append_right _ (List.mem_append_left _ h)

theorem drives_of_mem_parked {g : FiberId} (hC : (g, C) ∈ m.fibers.parked.entries)
    (h : .driving i f ∈ C) : m.Drives i f := by
  refine .inl (List.mem_filter.mpr ⟨?_, rfl⟩)
  exact List.mem_append_right _ (List.mem_append_right _ (List.mem_flatMap.mpr ⟨_, hC, h⟩))

theorem mem_latent {r : ResumptionId} (hk : m.resumptions.find? r = some k)
    (hcaptured : k.isCaptured) : k ∈ m.latent :=
  List.mem_filter.mpr ⟨List.mem_map_of_mem (Store.mem_of_find? hk), hcaptured⟩

/-- An unfolded driver drives its installation. -/
theorem Harbours.drives (h : m.Harbours o S T) (hi : .driving i f ∈ T) :
    .driving i f ∈ S ∨ m.Drives i f := by
  induction h with
  | refl => exact .inl hi
  | tail _ hstep ih =>
    cases hstep with
    | below => exact ih (List.mem_cons_of_mem _ hi)
    | above j S hC =>
      rcases List.mem_append.mp hi with hi | hi
      · exact .inr (drives_of_mem_parked hC hi)
      · exact ih hi
    | resumed os answer S _ hk =>
      rcases List.mem_cons.mp hi with heq | hi
      · obtain ⟨rfl, rfl⟩ := Activation.driving.inj heq
        exact .inr (drives_of_latent hk)
      · exact ih (List.mem_cons_of_mem _ (List.mem_cons_of_mem _ hi))

variable [Contents ω]

/-! ### Runs -/

/-- The resumption holds a continuation that was captured for the exchange. -/
def Holds (m : Machine ω) (r : ResumptionId) (e : ExchangeId) : Prop :=
  ∃ k, m.resumptions.find? r = some k ∧ k.exchange? = some e

/-- What is known of resumptions one step later. -/
def Origins.next (o : Origins) (m' : Machine ω) : Origins := fun r e => o r e ∨ m'.Holds r e

/-- What holds of the code and the continuations of every state of a run. -/
structure Traced (m : Machine ω) (o : Origins) : Prop where
  seated : m.Seated
  tidy : m.Tidy
  lodged : m.Lodged
  dates : m.Dates
  parked : ∀ e ∈ m.fibers.parked.entries, e.1 < m.fibers.parked.next
  holds : ∀ r e, m.Holds r e → o r e
  past : ∀ r e, o r e → r < m.resumptions.next ∧ m.Past e

omit [Contents ω] in
/-- At most one continuation belongs to an exchange. -/
theorem Tidy.latent_unique (h : m.Tidy) {k k' : Cont ω} {e : ExchangeId} (hk : k ∈ m.latent)
    (hk' : k' ∈ m.latent) (he : k.exchange? = some e) (he' : k'.exchange? = some e) : k = k' := by
  have hnodup : m.accounts.stored.Nodup := (List.nodup_append.mp h.accounts.held).1
  have hpairs := List.pairwise_filterMap.mp hnodup
  have hsymm : Std.Symm fun k k' : Cont ω =>
      ∀ e, k.exchange? = some e → ∀ e', k'.exchange? = some e' → e ≠ e' :=
    ⟨fun k k' h e he e' he' heq => h e' he' e he heq.symm⟩
  by_contra hne
  exact hpairs.forall (List.mem_filter.mp hk).1 (List.mem_filter.mp hk').1 hne e he e he' rfl

/-- A captured continuation that is there was there, or was captured just now. -/
theorem step_latent {k : Cont ω} (hk : k ∈ (m.step Γ).latent) :
    k ∈ m.latent ∨ ∃ r, m.Hands r ∧ k.exchange? = some r.exchange := by
  cases step_moves Γ m with
  | captures h =>
    obtain ⟨f, code, answer, -, -, hwithin⟩ := h.within
    rcases List.mem_cons.mp (hwithin.latent.subset hk) with rfl | hk
    · exact .inr ⟨_, h.hands, rfl⟩
    · exact .inl hk
  | arms _ _ hlatent h _ =>
    exact .inl (hlatent.mem_iff.mpr (List.mem_cons_of_mem _ (h.latent.subset hk)))
  | resumes _ h _ | keeps _ h _ | pushes _ h _ _ | pops h _ _ | returns _ _ h _ =>
    exact .inl (h.latent.subset hk)
  | frees _ _ _ h _ => exact .inl (h.latent.subset hk)
  | retires h =>
    obtain ⟨answer, hwithin⟩ := h.within
    exact .inl (hwithin.latent.subset hk)
  | hides h => exact .inl (h.within.latent.subset hk)

namespace Traced

theorem precedes (h : m.Traced o) : m.Precedes o (m.step Γ) (o.next (m.step Γ)) where
  issued := Nat.le_of_not_lt fun hlt => Nat.lt_irrefl _ (step_find? (Γ := Γ) h.tidy hlt).1
  origins r e hr ho := by
    rcases ho with ho | ⟨k, hk, he⟩
    · exact ho
    · obtain ⟨-, hused, hkept⟩ := step_find? (Γ := Γ) h.tidy hr
      by_cases hu : m.Uses r
      · cases (hused hu).symm.trans hk
      · exact h.holds r e ⟨k, (hkept hu).symm.trans hk, he⟩
  latent r answer f s e ho hk := by
    rcases step_latent hk with hk | ⟨q, hhands, he⟩
    · exact hk
    · -- the command of a request has not been taken
      obtain rfl : e = q.exchange := Option.some.inj he
      obtain ⟨-, y, command, hy, hcommand⟩ := h.tidy.request q hhands.2
      cases ((h.past r _ ho).2.taken y hy).symm.trans hcommand
  undriven i hi := hi.step

end Traced

namespace Traced

/-- A step that parks nothing. -/
theorem succeeds_next (h : m.Traced o)
    (hparked : (m.step Γ).fibers.parked.entries ⊆ m.fibers.parked.entries) :
    m.Succeeds o (m.step Γ) (o.next (m.step Γ)) m.fibers.parked.next where
  precedes := h.precedes
  dates := h.dates
  lone := h.lodged.next.1
  parked _ he := .inl (hparked he)

/-- A step that parks the fiber of a driver. -/
theorem succeeds_driver (h : m.Traced o) (hspine : m.spine = C ++ .driving i f :: R)
    (hparked : (m.step Γ).fibers.parked.entries = (f, C) :: m.fibers.parked.entries) :
    m.Succeeds o (m.step Γ) (o.next (m.step Γ)) f where
  precedes := h.precedes
  dates := h.dates
  lone := (h.lodged.driver hspine).1
  parked e he := by
    rw [hparked] at he
    rcases List.mem_cons.mp he with rfl | he
    · exact .inr rfl
    · exact .inl he

/-- Every step parks at most one fiber, which nothing else goes on with. -/
theorem succeeds (h : m.Traced o) :
    ∃ f, m.Succeeds o (m.step Γ) (o.next (m.step Γ)) f := by
  cases step_shifts (Γ := Γ) h.seated.fibers with
  | onTop _ _ _ hparked | enters _ _ _ hparked | starts _ _ _ hparked =>
    exact ⟨_, h.succeeds_next hparked⟩
  | installs _ _ _ hparked => exact ⟨_, h.succeeds_next hparked⟩
  | parks hs _ hparked | loses hs _ hparked => exact ⟨_, h.succeeds_driver hs hparked⟩
  | captures hs _ _ _ _ hparked => exact ⟨_, h.succeeds_driver hs hparked⟩
  | discards hs _ _ hparked => exact ⟨_, h.succeeds_driver hs hparked⟩

omit [Contents ω] in
theorem dated_suffix (h : m.Dates) (hspine : m.spine = U ++ R) : m.Dated R :=
  h.spine.suffix ⟨U, hspine.symm⟩

theorem clear_next (h : m.Traced o) (hspine : m.spine = U ++ R) :
    m.Clear m.fibers.parked.next R := by
  refine ⟨dated_suffix h.dates hspine, fun hmem => h.lodged.next.2 ?_⟩
  rw [hspine, ownedBy_append]
  exact List.mem_append_right _ hmem

theorem clear_driver (h : m.Traced o) (hspine : m.spine = C ++ .driving i f :: R) :
    m.Clear f R := by
  refine ⟨(dated_suffix h.dates hspine).suffix (List.suffix_cons _ _), ?_⟩
  exact (h.lodged.driver hspine).2.2

theorem driver_lt (h : m.Traced o) (hspine : m.spine = C ++ .driving i f :: R) :
    f < m.fibers.parked.next := by
  have hdrives : m.Drives i f :=
    drives_of_mem_spine (hspine ▸ List.mem_append_right C List.mem_cons_self)
  have hheld := holders_of_drives hdrives
  by_contra hf
  have hnone := h.lodged.fresh f (Nat.le_of_not_lt hf)
  omega

/-- A step that parks the fiber of a driver dates its code. -/
theorem dates_driver (h : m.Traced o) (hspine : m.spine = C ++ .driving i f :: R)
    (hparked : (m.step Γ).fibers.parked.entries = (f, C) :: m.fibers.parked.entries) :
    ∀ e ∈ (m.step Γ).fibers.parked.entries, (m.step Γ).Dated e.2 := by
  have hprecedes := h.precedes (Γ := Γ)
  intro e he
  rw [hparked] at he
  rcases List.mem_cons.mp he with rfl | he
  · exact (hspine ▸ h.dates.spine).above.mono hprecedes
  · exact (h.dates.parked e he).mono hprecedes

end Traced

/-- An installation whose continuation is discarded is not driven any more. -/
theorem Traced.undriven (h : m.Traced o) (hspine : m.spine = C ++ .driving i f :: R)
    (hreleasing : .fiber f ∈ (m.step Γ).releasing) : (m.step Γ).Undriven i := by
  have hdrives : m.Drives i f :=
    drives_of_mem_spine (hspine ▸ List.mem_append_right C List.mem_cons_self)
  have hissued := h.lodged.issued i f hdrives
  refine h.lodged.step.undriven ?_ (fun g hg => ?_) hreleasing
  · exact Nat.lt_of_lt_of_le hissued (Ages.step m).chain.installations.next
  · rcases step_drives hg with hg | ⟨x, body, hinstalls⟩
    · exact h.lodged.alone i g f hg hdrives
    · exact absurd (hinstalls.2.1 ▸ hissued) (Nat.lt_irrefl _)

theorem Dates.step (h : m.Traced o) : (m.step Γ).Dates := by
  have hprecedes := h.precedes (Γ := Γ)
  have hsame : (m.step Γ).fibers.parked.entries ⊆ m.fibers.parked.entries →
      ∀ e ∈ (m.step Γ).fibers.parked.entries, (m.step Γ).Dated e.2 :=
    fun hparked e he => (h.dates.parked e (hparked he)).mono hprecedes
  have hbelow : ∀ {U R}, m.spine = U ++ R → (m.step Γ).Dated R :=
    fun hspine => (Traced.dated_suffix h.dates hspine).mono hprecedes
  cases step_shifts (Γ := Γ) h.seated.fibers with
  | onTop hs hs' hX hparked => exact ⟨hs' ▸ (hbelow hs).loose hX, hsame hparked⟩
  | @installs x body X next _ hs' hX hparked =>
    refine ⟨hs' ▸ Dated.loose ?_ (hX _), hsame hparked⟩
    refine Dated.driving (S := _ :: _ :: m.spine) ?_ _ _
    have hloose : Loose m.spine [.stepping, .bind next] := ⟨trivial, trivial, trivial⟩
    exact (h.dates.spine.mono hprecedes).loose hloose
  | enters hs hC hs' hparked =>
    refine ⟨hs' ▸ Dated.append ?_ ?_, hsame hparked⟩
    · exact (h.dates.parked _ hC).mono hprecedes
    · exact hs ▸ h.dates.spine.mono hprecedes
  | starts _ hC hs' hparked =>
    refine ⟨hs' ▸ Dated.append ?_ ?_, hsame hparked⟩
    · exact (h.dates.parked _ hC).mono hprecedes
    · exact (h.dates.spine.mono hprecedes).driving _ _
  | parks hs hs' hparked => exact ⟨hs' ▸ hbelow hs, h.dates_driver hs hparked⟩
  | @captures C j g R answer s e keep os hs hs' _ _ hk hparked =>
    refine ⟨?_, h.dates_driver hs hparked⟩
    have hR : (m.step Γ).Dated R := (hbelow hs).suffix (List.suffix_cons _ _)
    rw [hs']
    intro r os' keep' answer' T hT
    rcases List.suffix_cons_iff.mp hT with heq | hT
    · -- the resumption of the clause was made in this step
      refine .inl ?_
      obtain ⟨rfl, -⟩ : r = m.resumptions.next ∧ os' = os := by simpa using (List.cons.inj heq).1
      exact Store.lt_next (h.tidy.step (Γ := Γ)).accounts.resumptions hk
    · exact (hR.loose (X := [.clause keep answer]) ⟨trivial, trivial⟩) r os' keep' answer' T hT
  | @discards C j g R answer os hs hs' hreleasing hparked =>
    refine ⟨?_, h.dates_driver hs hparked⟩
    have hR : (m.step Γ).Dated R := (hbelow hs).suffix (List.suffix_cons _ _)
    rw [hs']
    intro r os' keep' answer' T hT
    rcases List.suffix_cons_iff.mp hT with heq | hT
    · -- what is left of the body is to be released
      obtain ⟨rfl, -⟩ : keep' = some j ∧ answer' = answer := by
        simpa using (List.cons.inj (List.cons.inj heq).2).1
      exact .inr ⟨j, rfl, h.undriven hs hreleasing⟩
    · exact (hR.loose (X := [.clause (some j) answer]) ⟨trivial, trivial⟩) r os' keep' answer' T hT
  | loses hs hs' hparked =>
    exact ⟨hs' ▸ (hbelow hs).suffix (List.suffix_cons _ _), h.dates_driver hs hparked⟩

namespace Traced

theorem step (h : m.Traced o) : (m.step Γ).Traced (o.next (m.step Γ)) where
  seated := h.seated.step.seated
  tidy := h.tidy.step
  lodged := h.lodged.step
  dates := .step h
  parked := by
    have hnext : m.fibers.parked.next ≤ (m.step Γ).fibers.parked.next :=
      (Ages.step m).fibers.issued
    have hsame : (m.step Γ).fibers.parked.entries ⊆ m.fibers.parked.entries →
        ∀ e ∈ (m.step Γ).fibers.parked.entries, e.1 < (m.step Γ).fibers.parked.next :=
      fun hparked e he => Nat.lt_of_lt_of_le (h.parked e (hparked he)) hnext
    have hdriver : ∀ {C i f R}, m.spine = C ++ .driving i f :: R →
        (m.step Γ).fibers.parked.entries = (f, C) :: m.fibers.parked.entries →
          ∀ e ∈ (m.step Γ).fibers.parked.entries, e.1 < (m.step Γ).fibers.parked.next := by
      intro C i f R hs hparked e he
      rw [hparked] at he
      rcases List.mem_cons.mp he with rfl | he
      · exact Nat.lt_of_lt_of_le (h.driver_lt hs) hnext
      · exact Nat.lt_of_lt_of_le (h.parked e he) hnext
    cases step_shifts (Γ := Γ) h.seated.fibers with
    | onTop _ _ _ hparked | enters _ _ _ hparked | starts _ _ _ hparked => exact hsame hparked
    | installs _ _ _ hparked => exact hsame hparked
    | parks hs _ hparked | loses hs _ hparked => exact hdriver hs hparked
    | captures hs _ _ _ _ hparked => exact hdriver hs hparked
    | discards hs _ _ hparked => exact hdriver hs hparked
  holds _ _ hholds := .inr hholds
  past r e ho := by
    rcases ho with ho | ⟨k, hk, he⟩
    · obtain ⟨hr, hpast⟩ := h.past r e ho
      exact ⟨(step_find? (Γ := Γ) h.tidy hr).1, hpast.step h.tidy⟩
    · have htidy := h.tidy.step (Γ := Γ)
      refine ⟨Store.lt_next htidy.accounts.resumptions hk, htidy.past ?_⟩
      refine List.mem_append_left _ (List.mem_filterMap.mpr ⟨k, ?_, he⟩)
      exact List.mem_map_of_mem (Store.mem_of_find? hk)

end Traced

/-- What is known of resumptions after some steps. -/
def origins (Γ : Library ω) (m₀ : Machine ω) (n : Nat) : Origins :=
  fun r e => ∃ j ≤ n, (run Γ j m₀).Holds r e

theorem origins_succ (Γ : Library ω) (m₀ : Machine ω) (n : Nat) :
    origins Γ m₀ (n + 1) = (origins Γ m₀ n).next (run Γ (n + 1) m₀) := by
  funext r e
  refine propext ⟨?_, ?_⟩
  · rintro ⟨j, hj, hholds⟩
    rcases Nat.lt_or_ge n j with hlt | hle
    · obtain rfl : j = n + 1 := by omega
      exact .inr hholds
    · exact .inl ⟨j, hle, hholds⟩
  · rintro (⟨j, hj, hholds⟩ | hholds)
    · exact ⟨j, by omega, hholds⟩
    · exact ⟨n + 1, Nat.le_refl _, hholds⟩

/-- Every state of a run of a program is traced. -/
theorem traced_run (settings : SettingsSlot) (cells : List ω) (statics : List Owned)
    (main : Comp ω) (n : Nat) : (run Γ n (start settings cells statics main)).Traced
      (origins Γ (start settings cells statics main) n) := by
  have hnone : ∀ r e, ¬ (start settings cells statics main).Holds r e := by
    rintro r e ⟨k, hk, -⟩
    cases hk
  induction n with
  | zero =>
    exact
      { seated := seated_start settings cells statics main
        tidy := tidy_start settings cells statics main
        lodged := lodged_start settings cells statics main
        dates := ⟨.nil, by simp [run, start]⟩
        parked := by simp [run, start]
        holds := fun r e h => ⟨0, Nat.le_refl _, h⟩
        past := by
          rintro r e ⟨j, hj, hholds⟩
          obtain rfl := Nat.le_zero.mp hj
          exact absurd hholds (hnone r e) }
  | succ n ih =>
    rw [origins_succ, run_succ]
    exact ih.step

/-! ### Where a driver comes from -/

/-- Where a driver that is unfolded after a step was unfolded before it. -/
inductive Recurs (m : Machine ω) (o : Origins) (i : InstallationId) (f : FiberId)
    (Q : List (Activation ω)) : Prop
  | spine (h : m.Harbours o m.spine (.driving i f :: Q))
  | started (k : Cont ω) (hcontrol : m.control = .deliver (.tail k))
      (h : m.Harbours o (k.entry ++ m.spine) (.driving i f :: Q))
  | installed (x : Installing) (body : ReferenceId → Comp ω) (next : Value → Comp ω)
      (hm : m.Evaluates (.handle x body next))
      (hi : i = m.chain.installations.next) (hQ : Q = .stepping :: .bind next :: m.spine)

/-- A step unfolds no driver that could not be unfolded before, but that of a new installation. -/
theorem Traced.recurs (h : m.Traced o)
    (hT : (m.step Γ).Harbours (o.next (m.step Γ)) (m.step Γ).spine (.driving i f :: Q)) :
    m.Recurs o i f Q := by
  cases step_shifts (Γ := Γ) h.seated.fibers with
  | onTop hs hs' hX hparked =>
    rw [hs'] at hT
    have hR := ((h.succeeds_next hparked).harbours (hT.of_loose hX) (h.clear_next hs)).1
    exact .spine (hs ▸ (Harbours.below _ _).trans hR)
  | @installs x body X next hm hs' hX hparked =>
    rw [hs'] at hT
    rcases Relation.ReflTransGen.cases_head (hT.of_loose (hX _)) with heq | ⟨T, hstep, hrest⟩
    · obtain ⟨hdriver, rfl⟩ := List.cons.inj heq
      exact .installed x body next hm (Activation.driving.inj hdriver).1.symm rfl
    · rcases hstep.of_cons with rfl | ⟨j, g, C, heq, hC, -⟩ | ⟨_, _, _, _, _, _, _, _, _, heq, -⟩
      · have hloose : Loose m.spine [.stepping, .bind next] := ⟨trivial, trivial, trivial⟩
        have hspine := Harbours.of_loose hloose hrest
        exact .spine ((h.succeeds_next hparked).harbours hspine (h.clear_next (U := []) rfl)).1
      · -- the fiber of the new installation is not parked
        obtain ⟨-, rfl⟩ := Activation.driving.inj heq
        exact absurd (h.parked _ (hparked hC)) (Nat.lt_irrefl _)
      · cases heq
  | enters hs hC hs' hparked =>
    rw [hs'] at hT
    have hsucceeds := h.succeeds_next hparked
    have hclear := (hsucceeds.clear hC).append (h.clear_next (U := []) hs)
    exact .spine (hs ▸ (hsucceeds.harbours hT hclear).1.head (.above _ _ hC))
  | @starts answer g s e C hcontrol hC hs' hparked =>
    rw [hs'] at hT
    have hsucceeds := h.succeeds_next hparked
    have hbelow := (h.clear_next (U := []) rfl).driving (Nat.ne_of_lt (h.parked _ hC)) s.lowest
    have hclear := (hsucceeds.clear hC).append hbelow
    exact .started _ hcontrol ((hsucceeds.harbours hT hclear).1.head (.above _ _ hC))
  | parks hs hs' hparked =>
    rw [hs'] at hT
    obtain ⟨-, hfreeC, hfreeR⟩ := h.lodged.driver hs
    have hold := (h.succeeds_driver hs hparked).harbours_parked hT hparked (hs ▸ h.dates.spine)
      hfreeC hfreeR
    exact .spine (hs ▸ hold)
  | @captures C j g R answer s e keep os hs hs' _ hlowest hk hparked =>
    rw [hs'] at hT
    have hsucceeds := h.succeeds_driver hs hparked
    rcases hT.of_clause with hT | ⟨r, os', answer', g', s', e', hos, ho, hk', -, hT⟩
    · have hR := (hsucceeds.harbours hT (h.clear_driver hs)).1
      exact .spine (hs ▸ (Harbours.below _ _).trans (hR.head (.below _ _)))
    · -- the clause was started with the continuation that is captured in this step
      obtain ⟨hr, -⟩ : m.resumptions.next = r ∧ os = os' := by simpa using hos
      obtain rfl : e' = e := by
        rcases ho with ho | ⟨k, hk'', he⟩
        · exact absurd (hr ▸ (h.past r e' ho).1) (Nat.lt_irrefl _)
        · rw [← hr, hk] at hk''
          cases hk''
          exact (Option.some.inj he).symm
      have hcaptured := h.tidy.step.latent_unique (mem_latent hk rfl) hk' rfl rfl
      cases hcaptured
      rw [hlowest] at hT
      obtain ⟨-, hfreeC, hfreeR⟩ := h.lodged.driver hs
      exact .spine (hs ▸ hsucceeds.harbours_parked hT hparked (hs ▸ h.dates.spine) hfreeC hfreeR)
  | @discards C j g R answer os hs hs' hreleasing hparked =>
    rw [hs'] at hT
    have hsucceeds := h.succeeds_driver hs hparked
    rcases hT.of_clause with hT | ⟨r, os', answer', g', s', e', -, -, hk', hkeep, -⟩
    · have hR := (hsucceeds.harbours hT (h.clear_driver hs)).1
      exact .spine (hs ▸ (Harbours.below _ _).trans (hR.head (.below _ _)))
    · have hdrives := drives_of_latent hk'
      rw [← hkeep j rfl] at hdrives
      exact absurd hdrives ((h.undriven hs hreleasing).none g')
  | loses hs hs' hparked =>
    rw [hs'] at hT
    have hR := ((h.succeeds_driver hs hparked).harbours hT (h.clear_driver hs)).1
    exact .spine (hs ▸ (Harbours.below _ _).trans (hR.head (.below _ _)))

end Machine

end EffectHandlers
