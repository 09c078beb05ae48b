import EffectHandlers.Proofs.Dispatched
/-!
# Designated installations

A target designates at most one live installation. A command goes to the designated installation
when that declares it; in all other cases the dispatch is refused, with the fault that says why.
-/

namespace EffectHandlers

/-! ### What a target designates -/

namespace Chain

/-- What makes a live installation one that the target can mean. -/
def Qualifies (c : Chain) (referent : ReferenceId → InstallationId) (command : String)
    (target : Target) (i : InstallationId) : Prop :=
  match target with
  | .innermost => ((c.get i).clauseFor? command).isSome
  | .labelled label | .labelledOfType _ label =>
    label ≠ bottomLabel ∧ label ≠ retiredLabel ∧ (c.get i).label = label
  | .ofType handlerType => (c.get i).handlerType = handlerType
  | .reference r | .referenceOfType _ r => i = referent r

/-- The target designates the innermost live installation that qualifies. -/
def Designates (c : Chain) (referent : ReferenceId → InstallationId) (command : String)
    (target : Target) (i : InstallationId) : Prop :=
  ∃ above below, c.live = above ++ i :: below ∧ c.Qualifies referent command target i ∧
    ∀ j ∈ above, ¬ c.Qualifies referent command target j

/-- The fault of a command whose target designates no installation. -/
def undesignated (c : Chain) (referent : ReferenceId → InstallationId) (command : String) :
    Target → Fault
  | .innermost | .ofType _ => .noHandler command
  | .labelled label | .labelledOfType _ label => .labelNotFound label command
  | .reference r | .referenceOfType _ r =>
    .staleReference (c.get (referent r)).label (c.get (referent r)).name

/-- No live installation is marked as finished. -/
def Unfinished (c : Chain) : Prop := ∀ i ∈ c.live, (c.get i).label ≠ retiredLabel

end Chain

/-- The handler type that the designated installation must be of. -/
def Target.expected? : Target → Option String
  | .labelledOfType handlerType _ | .referenceOfType handlerType _ => some handlerType
  | _ => none

namespace Search

/-- What is searched for, as the target of a command. -/
def target : Search → Target
  | command _ => .innermost
  | label l => .labelled l

/-- The command that the installation must declare, if one is searched for by command. -/
def sought : Search → String
  | command name => name
  | label _ => ""

/-- The fault of a search that finds nothing. -/
def missing : Search → Fault
  | command name => .noHandler name
  | label l => .noSuchLabel l

end Search

namespace Chain

variable {c : Chain} {is : List InstallationId} {i j : InstallationId} {command : String}
  {referent : ReferenceId → InstallationId} {target : Target} {f : Fault}

/-- A target designates one installation at most. -/
theorem Designates.unique (hi : c.Designates referent command target i)
    (hj : c.Designates referent command target j) : i = j := by
  obtain ⟨above, below, hlive, hqualifies, habove⟩ := hi
  obtain ⟨above', below', hlive', hqualifies', habove'⟩ := hj
  rcases List.append_eq_append_iff.mp (hlive.symm.trans hlive') with
    ⟨between, hsplit, hrest⟩ | ⟨between, hsplit, hrest⟩
  · cases between with
    | nil => exact (List.cons.inj hrest).1
    | cons k between =>
      obtain ⟨rfl, -⟩ := List.cons.inj hrest
      exact absurd hqualifies (habove' i (by simp [hsplit]))
  · cases between with
    | nil => exact (List.cons.inj hrest).1.symm
    | cons k between =>
      obtain ⟨rfl, -⟩ := List.cons.inj hrest
      exact absurd hqualifies' (habove j (by simp [hsplit]))

theorem Designates.mem_live (h : c.Designates referent command target i) : i ∈ c.live := by
  obtain ⟨above, below, hlive, -⟩ := h
  simp [hlive]

theorem Designates.qualifies (h : c.Designates referent command target i) :
    c.Qualifies referent command target i := by
  obtain ⟨above, below, -, hqualifies, -⟩ := h
  exact hqualifies

/-- Where a live installation qualifies, one is designated. -/
theorem exists_designates (hi : i ∈ c.live) (hqualifies : c.Qualifies referent command target i) :
    ∃ j, c.Designates referent command target j := by
  classical
  cases hfound : c.live.find? fun j => decide (c.Qualifies referent command target j) with
  | none =>
    rw [List.find?_eq_none] at hfound
    exact absurd hqualifies (by simpa using hfound i hi)
  | some j =>
    obtain ⟨hj, above, below, hlive, habove⟩ := List.find?_eq_some_iff_append.mp hfound
    exact ⟨j, above, below, hlive, by simpa using hj, fun k hk => by simpa using habove k hk⟩

namespace Reads

/-- A search with the right test finds the designated installation. -/
theorem search?_eq_some (h : c.Reads is) {p : InstallationId → Installation → Bool}
    (hp : ∀ i, p i (c.get i) = true ↔ c.Qualifies referent command target i)
    (hi : c.Designates referent command target i) : c.search? p = some i := by
  obtain ⟨above, below, hlive, hqualifies, habove⟩ := hi
  rw [h.search?_eq, ← h.live_eq, List.find?_eq_some_iff_append]
  refine ⟨(hp i).mpr hqualifies, above, below, hlive, fun j hj => ?_⟩
  simpa [← hp] using habove j hj

/-- It finds nothing where no live installation qualifies. -/
theorem search?_eq_none (h : c.Reads is) {p : InstallationId → Installation → Bool}
    (hp : ∀ i, p i (c.get i) = true ↔ c.Qualifies referent command target i)
    (hnone : ∀ i ∈ c.live, ¬ c.Qualifies referent command target i) : c.search? p = none := by
  rw [h.search?_eq, ← h.live_eq, List.find?_eq_none]
  exact fun j hj => by simpa [hp] using hnone j hj

/-- The two reserved labels are not searched for. -/
theorem findLabel?_eq (c : Chain) {label : Int} (hbottom : label ≠ bottomLabel)
    (hretired : label ≠ retiredLabel) :
    c.findLabel? label = c.search? fun _ a => a.label == label := by
  rw [findLabel?, if_neg (by simp [hbottom, hretired])]

theorem findLabel?_eq_some (h : c.Reads is) {label : Int}
    (hp : ∀ i, c.Qualifies referent command target i ↔
      label ≠ bottomLabel ∧ label ≠ retiredLabel ∧ (c.get i).label = label)
    (hi : c.Designates referent command target i) : c.findLabel? label = some i := by
  obtain ⟨hbottom, hretired, -⟩ := (hp i).mp hi.qualifies
  rw [findLabel?_eq c hbottom hretired]
  exact h.search?_eq_some (fun j => by simp [hp, hbottom, hretired]) hi

theorem findLabel?_eq_none (h : c.Reads is) {label : Int}
    (hp : ∀ i, c.Qualifies referent command target i ↔
      label ≠ bottomLabel ∧ label ≠ retiredLabel ∧ (c.get i).label = label)
    (hnone : ∀ i ∈ c.live, ¬ c.Qualifies referent command target i) :
    c.findLabel? label = none := by
  by_cases hreserved : label = bottomLabel ∨ label = retiredLabel
  · rw [findLabel?, if_pos (by simpa using hreserved)]
  · obtain ⟨hbottom, hretired⟩ := not_or.mp hreserved
    rw [findLabel?_eq c hbottom hretired]
    exact h.search?_eq_none (fun j => by simp [hp, hbottom, hretired]) hnone

/-- A reference reaches its installation where that is live. -/
theorem isInstalled_iff (h : c.Reads is) (hunfinished : c.Unfinished) :
    c.isInstalled i = true ↔ i ∈ c.live := by
  have hmem : c.isLive i = true ↔ i ∈ c.live := by rw [h.isLive_iff, h.live_eq]
  rw [isInstalled, Bool.and_eq_true, hmem]
  refine ⟨fun hi => hi.2, fun hi => ⟨?_, hi⟩⟩
  simpa [Installation.isRetired] using hunfinished i hi

end Reads

/-! ### Dispatching -/

/-- What is found at the designated installation. -/
def resolve (c : Chain) (command : String) (target : Target) (i : InstallationId) :
    Except Fault (InstallationId × Nat) := do
  match target.expected? with
  | some handlerType => c.clausePosition command (← c.expectType handlerType i)
  | none => c.clausePosition command i

/-- A command is decided by the designated installation alone. -/
theorem Reads.dispatch_eq_resolve (h : c.Reads is) (hunfinished : c.Unfinished)
    (hi : c.Designates referent command target i) :
    c.dispatch referent command target = c.resolve command target i := by
  cases target with
  | innermost =>
    have hsearch := h.search?_eq_some (p := fun _ a => (a.clauseFor? command).isSome)
      (fun _ => Iff.rfl) hi
    obtain ⟨position, hposition⟩ := Option.isSome_iff_exists.mp hi.qualifies
    simp [dispatch, findCommand?, hsearch, hposition, resolve, Target.expected?, clausePosition]
  | ofType handlerType =>
    have hsearch := h.search?_eq_some (p := fun _ a => a.handlerType == handlerType)
      (fun _ => beq_iff_eq) hi
    simp [dispatch, findType?, hsearch, resolve, Target.expected?]
  | labelled label | labelledOfType handlerType label =>
    have hsearch := h.findLabel?_eq_some (fun _ => Iff.rfl) hi
    simp [dispatch, locateLabel, hsearch, resolve, Target.expected?, bind, Except.bind]
  | reference r | referenceOfType handlerType r =>
    have hlive := hi.mem_live
    obtain rfl : i = referent r := hi.qualifies
    have hinstalled := (h.isInstalled_iff hunfinished).mpr hlive
    simp [dispatch, locateReference, hinstalled, resolve, Target.expected?, bind, Except.bind]

/-- A command that no live installation is designated for is refused. -/
theorem Reads.dispatch_eq_undesignated (h : c.Reads is) (hunfinished : c.Unfinished)
    (hnone : ∀ i ∈ c.live, ¬ c.Qualifies referent command target i) :
    c.dispatch referent command target = .error (c.undesignated referent command target) := by
  cases target with
  | innermost =>
    have hsearch := h.search?_eq_none (p := fun _ a => (a.clauseFor? command).isSome)
      (fun _ => Iff.rfl) hnone
    simp [dispatch, findCommand?, hsearch, undesignated]
  | ofType handlerType =>
    have hsearch := h.search?_eq_none (p := fun _ a => a.handlerType == handlerType)
      (fun _ => beq_iff_eq) hnone
    simp [dispatch, findType?, hsearch, undesignated]
  | labelled label | labelledOfType handlerType label =>
    have hsearch := h.findLabel?_eq_none (fun _ => Iff.rfl) hnone
    simp [dispatch, locateLabel, hsearch, undesignated, bind, Except.bind]
  | reference r | referenceOfType handlerType r =>
    have hinstalled : c.isInstalled (referent r) = false := by
      rw [Bool.eq_false_iff]
      exact fun hi => hnone _ ((h.isInstalled_iff hunfinished).mp hi) rfl
    simp [dispatch, locateReference, hinstalled, undesignated, bind, Except.bind]

/-- What a chain decides about a command: where it goes, and why it is refused. -/
structure Decides (c : Chain) (referent : ReferenceId → InstallationId) (command : String)
    (target : Target) : Prop where
  /-- A command goes to the designated installation, if that is of the expected handler type and
  declares the command. -/
  goes : ∀ i position, c.dispatch referent command target = .ok (i, position) ↔
    c.Designates referent command target i ∧
      (∀ t, target.expected? = some t → (c.get i).handlerType = t) ∧
      (c.get i).clauseFor? command = some position
  /-- There is none. -/
  missing : c.dispatch referent command target = .error (c.undesignated referent command target) ↔
    ∀ i ∈ c.live, ¬ c.Qualifies referent command target i
  /-- It is of another handler type. -/
  mismatch : ∀ t name, c.dispatch referent command target = .error (.handlerMismatch t name) ↔
    ∃ i, c.Designates referent command target i ∧ target.expected? = some t ∧
      (c.get i).handlerType ≠ t ∧ name = (c.get i).name
  /-- It does not declare the command, whatever others do. -/
  undeclared : ∀ label name, c.dispatch referent command target =
      .error (.labelDoesNotHandle label name command) ↔
    ∃ i, c.Designates referent command target i ∧
      (∀ t, target.expected? = some t → (c.get i).handlerType = t) ∧
      (c.get i).clauseFor? command = none ∧ label = (c.get i).label ∧ name = (c.get i).name
  /-- There is no other reason. -/
  only : ∀ f, c.dispatch referent command target = .error f →
    f = c.undesignated referent command target ∨ (∃ t name, f = .handlerMismatch t name) ∨
      ∃ label name, f = .labelDoesNotHandle label name command

/-- The outcomes at the designated installation, told apart by its handler type and clauses. -/
theorem resolve_cases (c : Chain) (command : String) (target : Target) (i : InstallationId) :
    (∃ t, target.expected? = some t ∧ (c.get i).handlerType ≠ t ∧
      c.resolve command target i = .error (.handlerMismatch t (c.get i).name)) ∨
    (∀ t, target.expected? = some t → (c.get i).handlerType = t) ∧
      c.resolve command target i = c.clausePosition command i := by
  unfold resolve
  cases hexpected : target.expected? with
  | none => exact .inr ⟨fun t ht => (Option.some_ne_none t ht.symm).elim, rfl⟩
  | some t =>
    by_cases htype : (c.get i).handlerType = t
    · refine .inr ⟨fun t' ht => htype.trans (Option.some.inj ht), ?_⟩
      simp [expectType, htype, bind, Except.bind]
    · exact .inl ⟨t, rfl, htype, by simp [expectType, htype, bind, Except.bind]⟩

theorem undesignated_ne_mismatch {t name : String} :
    c.undesignated referent command target ≠ .handlerMismatch t name := by
  cases target <;> simp [undesignated]

theorem undesignated_ne_undeclared {label : Int} {name : String} :
    c.undesignated referent command target ≠ .labelDoesNotHandle label name command := by
  cases target <;> simp [undesignated]

/-- What is said of the designated installation is said of this one. -/
theorem Designates.exists_iff (hi : c.Designates referent command target i)
    {P : InstallationId → Prop} :
    (∃ j, c.Designates referent command target j ∧ P j) ↔ P i :=
  ⟨fun ⟨_, hj, hP⟩ => hj.unique hi ▸ hP, fun hP => ⟨i, hi, hP⟩⟩

theorem Designates.not_missing (hi : c.Designates referent command target i) :
    ¬ ∀ j ∈ c.live, ¬ c.Qualifies referent command target j :=
  fun hnone => hnone i hi.mem_live hi.qualifies

namespace Decides

/-- Nothing is designated. -/
theorem of_undesignated (hnone : ∀ i ∈ c.live, ¬ c.Qualifies referent command target i)
    (h : c.dispatch referent command target = .error (c.undesignated referent command target)) :
    c.Decides referent command target where
  goes i position := by
    rw [h]
    simp only [reduceCtorEq, false_iff]
    exact fun hi => hnone i hi.1.mem_live hi.1.qualifies
  missing := ⟨fun _ => hnone, fun _ => h⟩
  mismatch t name := by
    rw [h]
    simp only [Except.error.injEq, undesignated_ne_mismatch, false_iff]
    exact fun ⟨i, hi, _⟩ => hnone i hi.mem_live hi.qualifies
  undeclared label name := by
    rw [h]
    simp only [Except.error.injEq, undesignated_ne_undeclared, false_iff]
    exact fun ⟨i, hi, _⟩ => hnone i hi.mem_live hi.qualifies
  only f hf := .inl (Except.error.inj (h.symm.trans hf)).symm

/-- The designated installation is of another handler type. -/
theorem of_mismatch (hi : c.Designates referent command target i) {t : String}
    (hexpected : target.expected? = some t) (htype : (c.get i).handlerType ≠ t)
    (h : c.dispatch referent command target = .error (.handlerMismatch t (c.get i).name)) :
    c.Decides referent command target where
  goes j position := by
    rw [h]
    simp only [reduceCtorEq, false_iff]
    rintro ⟨hj, hmatches, -⟩
    obtain rfl := hj.unique hi
    exact htype (hmatches t hexpected)
  missing := by
    rw [h]
    simp [hi.not_missing, undesignated_ne_mismatch.symm]
  mismatch t' name := by
    rw [hi.exists_iff, h, hexpected]
    simp only [Except.error.injEq, Fault.handlerMismatch.injEq, Option.some.injEq]
    constructor
    · rintro ⟨rfl, rfl⟩
      exact ⟨rfl, htype, rfl⟩
    · rintro ⟨rfl, -, rfl⟩
      exact ⟨rfl, rfl⟩
  undeclared label name := by
    rw [hi.exists_iff, h]
    simp only [Except.error.injEq, reduceCtorEq, false_iff]
    exact fun hrest => htype (hrest.1 t hexpected)
  only f hf := .inr (.inl ⟨_, _, (Except.error.inj (h.symm.trans hf)).symm⟩)

/-- The designated installation does not declare the command. -/
theorem of_undeclared (hi : c.Designates referent command target i)
    (htype : ∀ t, target.expected? = some t → (c.get i).handlerType = t)
    (hclause : (c.get i).clauseFor? command = none)
    (h : c.dispatch referent command target =
      .error (.labelDoesNotHandle (c.get i).label (c.get i).name command)) :
    c.Decides referent command target where
  goes j position := by
    rw [h]
    simp only [reduceCtorEq, false_iff]
    rintro ⟨hj, -, hposition⟩
    obtain rfl := hj.unique hi
    cases hclause.symm.trans hposition
  missing := by
    rw [h]
    simp [hi.not_missing, undesignated_ne_undeclared.symm]
  mismatch t name := by
    rw [hi.exists_iff, h]
    simp only [Except.error.injEq, reduceCtorEq, false_iff]
    exact fun hrest => hrest.2.1 (htype t hrest.1)
  undeclared label name := by
    rw [hi.exists_iff, h]
    simp only [Except.error.injEq, Fault.labelDoesNotHandle.injEq]
    constructor
    · rintro ⟨rfl, rfl, -⟩
      exact ⟨htype, hclause, rfl, rfl⟩
    · rintro ⟨-, -, rfl, rfl⟩
      exact ⟨rfl, rfl, trivial⟩
  only f hf := .inr (.inr ⟨_, _, (Except.error.inj (h.symm.trans hf)).symm⟩)

/-- The command goes to the designated installation. -/
theorem of_found (hi : c.Designates referent command target i)
    (htype : ∀ t, target.expected? = some t → (c.get i).handlerType = t) {found : Nat}
    (hclause : (c.get i).clauseFor? command = some found)
    (h : c.dispatch referent command target = .ok (i, found)) :
    c.Decides referent command target where
  goes j position := by
    rw [h]
    simp only [Except.ok.injEq, Prod.mk.injEq]
    constructor
    · rintro ⟨rfl, rfl⟩
      exact ⟨hi, htype, hclause⟩
    · rintro ⟨hj, -, hposition⟩
      obtain rfl := hj.unique hi
      exact ⟨rfl, Option.some.inj (hclause.symm.trans hposition)⟩
  missing := by
    rw [h]
    simp [hi.not_missing]
  mismatch t name := by
    rw [hi.exists_iff, h]
    simp only [reduceCtorEq, false_iff]
    exact fun hrest => hrest.2.1 (htype t hrest.1)
  undeclared label name := by
    rw [hi.exists_iff, h]
    simp [hclause]
  only f hf := by cases h.symm.trans hf

end Decides

/-- A dispatch is decided by the live installations. -/
theorem Reads.decides (h : c.Reads is) (hunfinished : c.Unfinished)
    (referent : ReferenceId → InstallationId) (command : String) (target : Target) :
    c.Decides referent command target := by
  by_cases hsome : ∃ i, c.Designates referent command target i
  · obtain ⟨i, hi⟩ := hsome
    have hdispatch := h.dispatch_eq_resolve hunfinished hi
    rcases resolve_cases c command target i with ⟨t, hexpected, htype, heq⟩ | ⟨htype, heq⟩
    · exact .of_mismatch hi hexpected htype (hdispatch.trans heq)
    · rw [clausePosition] at heq
      cases hclause : (c.get i).clauseFor? command with
      | none =>
        simp only [hclause] at heq
        exact .of_undeclared hi htype hclause (hdispatch.trans heq)
      | some found =>
        simp only [hclause] at heq
        exact .of_found hi htype hclause (hdispatch.trans heq)
  · have hnone : ∀ i ∈ c.live, ¬ c.Qualifies referent command target i := fun i hi hqualifies =>
      hsome (exists_designates hi hqualifies)
    exact .of_undesignated hnone (h.dispatch_eq_undesignated hunfinished hnone)

/-! ### Searching -/

theorem Reads.locate_eq_ok (h : c.Reads is) (search : Search)
    (hi : c.Designates referent search.sought search.target i) : c.locate search = .ok i := by
  cases search with
  | command name =>
    have hsearch := h.search?_eq_some (p := fun _ a => (a.clauseFor? name).isSome)
      (fun _ => Iff.rfl) hi
    obtain ⟨position, hposition⟩ := Option.isSome_iff_exists.mp hi.qualifies
    have hposition' : (c.get i).clauseFor? name = some position := hposition
    simp [locate, findCommand?, hsearch, hposition']
  | label l =>
    have hsearch := h.findLabel?_eq_some (fun _ => Iff.rfl) hi
    simp [locate, hsearch]

theorem Reads.locate_eq_error (h : c.Reads is) (search : Search)
    (hnone : ∀ i ∈ c.live, ¬ c.Qualifies referent search.sought search.target i) :
    c.locate search = .error search.missing := by
  cases search with
  | command name =>
    have hsearch := h.search?_eq_none (p := fun _ a => (a.clauseFor? name).isSome)
      (fun _ => Iff.rfl) hnone
    simp [locate, findCommand?, hsearch, Search.missing]
  | label l =>
    have hsearch := h.findLabel?_eq_none (fun _ => Iff.rfl) hnone
    simp [locate, hsearch, Search.missing]

/-- A lookup finds the designated installation, and fails where there is none. -/
structure Locates (c : Chain) (referent : ReferenceId → InstallationId) (search : Search) :
    Prop where
  finds : ∀ i, c.locate search = .ok i ↔ c.Designates referent search.sought search.target i
  fails : ∀ f, c.locate search = .error f ↔ f = search.missing ∧
    ∀ i ∈ c.live, ¬ c.Qualifies referent search.sought search.target i

theorem Reads.locates (h : c.Reads is) (referent : ReferenceId → InstallationId)
    (search : Search) : c.Locates referent search := by
  by_cases hsome : ∃ i, c.Designates referent search.sought search.target i
  · obtain ⟨i, hi⟩ := hsome
    have hlocate := h.locate_eq_ok search hi
    refine ⟨fun j => ?_, fun f => ?_⟩
    · rw [hlocate, Except.ok.injEq]
      exact ⟨fun heq => heq ▸ hi, hi.unique⟩
    · rw [hlocate]
      simp [hi.not_missing]
  · have hnone : ∀ i ∈ c.live, ¬ c.Qualifies referent search.sought search.target i :=
      fun i hi hqualifies => hsome (exists_designates hi hqualifies)
    have hlocate := h.locate_eq_error search hnone
    refine ⟨fun j => ?_, fun f => ?_⟩
    · rw [hlocate]
      simp only [reduceCtorEq, false_iff]
      exact fun hj => hsome ⟨j, hj⟩
    · rw [hlocate, Except.error.injEq]
      exact ⟨fun heq => ⟨heq.symm, hnone⟩, fun heq => heq.1.symm⟩

end Chain

end EffectHandlers
