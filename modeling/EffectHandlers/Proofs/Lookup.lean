import EffectHandlers.Proofs.Careful
import EffectHandlers.Proofs.Evaluation
import EffectHandlers.Proofs.Mirror
import Mathlib.Data.List.Find
/-!
# Lookups agree, and code is read as a context

## Lookups agree

Searching the chain finds the same installations and clauses as searching the context, and fails
with the same faults.
-/

namespace EffectHandlers

variable {ω : Type} {Γ : Library ω} {c : Chain} {s : Evaluation ω} {i j : InstallationId}
  {entry : Nat} {command : String} {a : Installation} {f : Fault}

/-- What an installation shows of its handler. -/
def Installation.shown (a : Installation) : Handler := ⟨a.label, a.name, a.handlerType, a.handler⟩

/-- The live chain is what is visible in the context, and its installations show the handlers. -/
structure Chain.Seen (Γ : Library ω) (c : Chain) (s : Evaluation ω) : Prop where
  reads : c.Reads (visible s.frames)
  found : ∀ i ∈ visible s.frames, (c.installations.find? i).isSome
  handler : ∀ i, i = 0 ∨ (c.installations.find? i).isSome → s.handler i = (c.get i).shown
  declares : Declares Γ c

/-- A lookup that may find nothing succeeds when it finds something that passes. -/
theorem elim_eq_ok {α β ε : Type} {x : Option α} {e : ε} {g : α → Except ε β} {b : β} :
    x.elim (.error e) g = .ok b ↔ ∃ a, x = some a ∧ g a = .ok b := by
  cases x <;> simp

namespace Evaluation

/-- Labels are found where they are visible. -/
theorem visible_of_labelled? {label : Int} (hi : s.labelled? label = some i) :
    i ∈ visible s.frames := by
  unfold labelled? at hi
  split at hi
  · cases hi
  · exact List.mem_of_find?_eq_some hi

theorem reach_eq_ok (h : s.reach j = .ok i) : j = i ∧ i ∈ visible s.frames := by
  unfold reach isInstalled at h
  split at h
  · rename_i hinstalled
    obtain rfl : j = i := by simpa using h
    exact ⟨rfl, by simpa using (Bool.and_eq_true_iff.mp hinstalled).2⟩
  · cases h

theorem expectType_eq_ok {handlerType : String} (h : s.expectType handlerType j = .ok i) :
    j = i := by
  unfold expectType at h
  split at h
  · simpa using h
  · cases h

end Evaluation

/-! ### Clauses -/

/-- A lookup among the entries finds the clause that a lookup among the clauses finds. -/
theorem Installation.clauseFor?_eq (ha : a.clauses = (Γ.handlerType a.handlerType).entries)
    (command : String) : a.shown.clauseFor? Γ command = (a.clauseFor? command).bind fun entry =>
      ((Γ.handlerType a.handlerType).clauses[entry]?).map (·.code) := by
  have hindex : a.clauseFor? command =
      (Γ.handlerType a.handlerType).clauses.findIdx? (·.command == command) := by
    simp only [clauseFor?, ha, HandlerType.entries, List.findIdx?_map]
    rfl
  rw [hindex, Handler.clauseFor?, List.find?_eq_bind_findIdx?_getElem?, Option.map_bind]
  rfl

theorem Installation.isSome_clauseFor? (ha : a.clauses = (Γ.handlerType a.handlerType).entries)
    (command : String) :
    (a.shown.clauseFor? Γ command).isSome = (a.clauseFor? command).isSome := by
  rw [clauseFor?_eq ha]
  cases hentry : a.clauseFor? command with
  | none => rfl
  | some entry =>
    obtain ⟨e, he⟩ := Installation.getElem?_of_clauseFor? hentry
    rw [ha] at he
    simp only [HandlerType.entries, List.getElem?_map, Option.map_eq_some_iff] at he
    obtain ⟨clause, hclause, -⟩ := he
    simp [hclause]

namespace Chain.Seen

theorem handler_of_visible (h : c.Seen Γ s) (hi : i ∈ visible s.frames) :
    s.handler i = (c.get i).shown := h.handler i (.inr (h.found i hi))

/-- What is visible declares what its handler type says. -/
theorem clauses_of_visible (h : c.Seen Γ s) (hi : i ∈ visible s.frames) :
    (c.get i).clauses = (Γ.handlerType (c.get i).handlerType).entries := by
  obtain ⟨a, ha⟩ := Option.isSome_iff_exists.mp (h.found i hi)
  have hget : c.get i = a := by simp [Chain.get, ha]
  rw [hget]
  exact h.declares i a (h.reads.ne_zero hi) ha

/-- Searches find the same. -/
theorem search?_eq (h : c.Seen Γ s) {p : InstallationId → Installation → Bool}
    {q : Handler → Bool} (hpq : ∀ i ∈ visible s.frames, p i (c.get i) = q (c.get i).shown) :
    c.search? p = s.innermost? q := by
  rw [h.reads.search?_eq]
  refine List.find?_congr fun i hi => ?_
  rw [hpq i hi, h.handler_of_visible hi]

theorem findLabel?_eq (h : c.Seen Γ s) (label : Int) : c.findLabel? label = s.labelled? label := by
  unfold findLabel? Evaluation.labelled?
  rw [h.search?_eq (q := (·.label == label)) fun _ _ => rfl]

theorem findType?_eq (h : c.Seen Γ s) (handlerType : String) :
    c.findType? handlerType = s.innermost? (·.handlerType == handlerType) :=
  h.search?_eq fun _ _ => rfl

theorem isInstalled_eq (h : c.Seen Γ s) (hi : s.handler i = (c.get i).shown) :
    c.isInstalled i = s.isInstalled i := by
  have hlive : c.isLive i = decide (i ∈ visible s.frames) := by
    rw [Bool.eq_iff_iff, decide_eq_true_eq, h.reads.isLive_iff]
  rw [isInstalled, Evaluation.isInstalled, hlive, hi]
  rfl

theorem locateReference_eq (h : c.Seen Γ s) (hi : s.handler i = (c.get i).shown) :
    c.locateReference i = s.reach i := by
  unfold locateReference Evaluation.reach
  rw [h.isInstalled_eq hi, hi]
  rfl

theorem expectType_eq (hi : s.handler i = (c.get i).shown) (handlerType : String) :
    c.expectType handlerType i = s.expectType handlerType i := by
  unfold expectType Evaluation.expectType
  rw [hi]
  rfl

/-- The installation of a clause that a search by command finds. -/
theorem findCommand?_eq (h : c.Seen Γ s) (command : String) :
    (c.findCommand? command).map (·.1) =
      s.innermost? fun x => (x.clauseFor? Γ command).isSome := by
  rw [← h.search?_eq (p := fun _ a => (a.clauseFor? command).isSome) fun i hi =>
    (Installation.isSome_clauseFor? (h.clauses_of_visible hi) command).symm]
  unfold findCommand?
  cases hfound : c.search? fun _ a => (a.clauseFor? command).isSome with
  | none => rfl
  | some i =>
    obtain ⟨entry, hentry⟩ := Option.isSome_iff_exists.mp (h.reads.of_search? hfound).2
    simp [hentry]

/-- A search finds the same installation, or fails with the same fault. -/
theorem search_eq (h : c.Seen Γ s) (search : Search) : c.locate search = s.search Γ search := by
  cases search with
  | label label =>
    simp only [locate, Evaluation.search, h.findLabel?_eq]
    cases s.labelled? label <;> rfl
  | command name =>
    simp only [locate, Evaluation.search, ← h.findCommand?_eq]
    cases c.findCommand? name <;> rfl

end Chain.Seen

/-! ### Dispatch -/

namespace Chain

/-- The installation that a command is sent to, without the position of the clause. -/
def place (c : Chain) (referent : ReferenceId → InstallationId) (command : String) :
    Target → Except Fault InstallationId
  | .innermost =>
    match c.findCommand? command with
    | some (id, _) => .ok id
    | none => .error (.noHandler command)
  | .labelled label => c.locateLabel label command
  | .reference r => c.locateReference (referent r)
  | .ofType handlerType =>
    match c.findType? handlerType with
    | some id => .ok id
    | none => .error (.noHandler command)
  | .labelledOfType handlerType label => do
    c.expectType handlerType (← c.locateLabel label command)
  | .referenceOfType handlerType r => do
    c.expectType handlerType (← c.locateReference (referent r))

/-- Dispatch first finds the installation and then its clause. -/
theorem dispatch_eq (c : Chain) (referent : ReferenceId → InstallationId) (command : String)
    (target : Target) :
    c.dispatch referent command target =
      c.place referent command target >>= c.clausePosition command := by
  cases target with
  | innermost =>
    simp only [dispatch, place]
    cases hfound : c.findCommand? command with
    | none => rfl
    | some found =>
      obtain ⟨i, entry⟩ := found
      simp only [findCommand?, Option.bind_eq_bind, Option.bind_eq_some_iff] at hfound
      obtain ⟨j, -, entry', hentry, heq⟩ := hfound
      obtain ⟨rfl, rfl⟩ : j = i ∧ entry' = entry := by simpa using heq
      change _ = c.clausePosition command j
      simp [clausePosition, hentry]
  | labelled label => rfl
  | reference r => rfl
  | ofType handlerType =>
    simp only [dispatch, place]
    cases c.findType? handlerType <;> rfl
  | labelledOfType handlerType label =>
    simp only [dispatch, place]
    cases c.locateLabel label command <;> rfl
  | referenceOfType handlerType r =>
    simp only [dispatch, place]
    cases c.locateReference (referent r) <;> rfl

namespace Seen

theorem locateLabel_eq (h : c.Seen Γ s) (label : Int) (command : String) :
    c.locateLabel label command =
      (s.labelled? label).elim (.error (.labelNotFound label command)) .ok := by
  unfold locateLabel
  rw [h.findLabel?_eq]
  cases s.labelled? label <;> rfl

/-- A command is sent to the same installation, if references lead to the same. -/
theorem place_eq (h : c.Seen Γ s) {referent : ReferenceId → InstallationId} (command : String)
    {target : Target} (hreferent : ∀ r, .reference r ∈ target.uses →
      s.referent r = referent r ∧ s.handler (referent r) = (c.get (referent r)).shown) :
    c.place referent command target = s.locate Γ command target := by
  cases target with
  | innermost =>
    simp only [place, Evaluation.locate, ← h.findCommand?_eq]
    cases c.findCommand? command <;> rfl
  | labelled label => exact h.locateLabel_eq label command
  | reference r =>
    obtain ⟨hr, hi⟩ := hreferent r (by simp [Target.uses])
    simp only [place, Evaluation.locate, hr, h.locateReference_eq hi]
  | ofType handlerType =>
    simp only [place, Evaluation.locate, ← h.findType?_eq]
    cases c.findType? handlerType <;> rfl
  | labelledOfType handlerType label =>
    simp only [place, Evaluation.locate, h.locateLabel_eq]
    cases hi : s.labelled? label with
    | none => rfl
    | some i => exact expectType_eq (h.handler_of_visible (Evaluation.visible_of_labelled? hi)) handlerType
  | referenceOfType handlerType r =>
    obtain ⟨hr, hi⟩ := hreferent r (by simp [Target.uses])
    simp only [place, Evaluation.locate, hr, h.locateReference_eq hi]
    cases hreach : s.reach (referent r) with
    | error f => rfl
    | ok j =>
      obtain ⟨rfl, -⟩ := Evaluation.reach_eq_ok hreach
      exact expectType_eq hi handlerType

/-- A clause is declared for the command, or it is not. -/
theorem clausePosition_eq (h : c.Seen Γ s) (hi : i ∈ visible s.frames) (command : String) :
    (∃ entry code, c.clausePosition command i = .ok (i, entry) ∧
      (s.handler i).clauseFor? Γ command = some code ∧
      ((Γ.handlerType (c.get i).handlerType).clauses[entry]?).map (·.code) = some code) ∨
    ((s.handler i).clauseFor? Γ command = none ∧ c.clausePosition command i =
      .error (.labelDoesNotHandle (s.handler i).label (s.handler i).name command)) := by
  have hclauses := h.clauses_of_visible hi
  rw [h.handler_of_visible hi]
  unfold clausePosition
  cases hentry : (c.get i).clauseFor? command with
  | none =>
    refine .inr ⟨?_, rfl⟩
    rw [Installation.clauseFor?_eq hclauses, hentry]
    rfl
  | some entry =>
    have hsome := Installation.isSome_clauseFor? hclauses command
    rw [hentry] at hsome
    obtain ⟨code, hcode⟩ := Option.isSome_iff_exists.mp hsome
    refine .inl ⟨entry, code, rfl, hcode, ?_⟩
    rw [Installation.clauseFor?_eq hclauses, hentry] at hcode
    exact hcode

/-- A command is sent to something visible. -/
theorem visible_of_locate {target : Target} (hi : s.locate Γ command target = .ok i) :
    i ∈ visible s.frames := by
  cases target with
  | innermost =>
    obtain ⟨j, hj, heq⟩ := elim_eq_ok.mp hi
    obtain rfl : j = i := by simpa using heq
    exact List.mem_of_find?_eq_some hj
  | labelled label =>
    obtain ⟨j, hj, heq⟩ := elim_eq_ok.mp hi
    obtain rfl : j = i := by simpa using heq
    exact Evaluation.visible_of_labelled? hj
  | reference r => exact (Evaluation.reach_eq_ok hi).2
  | ofType handlerType =>
    obtain ⟨j, hj, heq⟩ := elim_eq_ok.mp hi
    obtain rfl : j = i := by simpa using heq
    exact List.mem_of_find?_eq_some hj
  | labelledOfType handlerType label =>
    obtain ⟨j, hj, hexpect⟩ := elim_eq_ok.mp hi
    obtain rfl := Evaluation.expectType_eq_ok hexpect
    exact Evaluation.visible_of_labelled? hj
  | referenceOfType handlerType r =>
    obtain ⟨j, hj, hexpect⟩ := Except.bind_eq_ok.mp hi
    obtain rfl := Evaluation.expectType_eq_ok hexpect
    exact (Evaluation.reach_eq_ok hj).2

/-- A command goes to the same installation and to the clause whose code is evaluated, or there is
the same fault. -/
theorem dispatch_eq (h : c.Seen Γ s) {referent : ReferenceId → InstallationId} (command : String)
    {target : Target} (hreferent : ∀ r, .reference r ∈ target.uses →
      s.referent r = referent r ∧ s.handler (referent r) = (c.get (referent r)).shown) :
    (∃ i entry code, c.dispatch referent command target = .ok (i, entry) ∧
      s.dispatch Γ command target = .ok (i, code) ∧ i ∈ visible s.frames ∧
      ((Γ.handlerType (c.get i).handlerType).clauses[entry]?).map (·.code) = some code) ∨
    ∃ f, c.dispatch referent command target = .error f ∧
      s.dispatch Γ command target = .error f := by
  rw [Chain.dispatch_eq, h.place_eq command hreferent, Evaluation.dispatch]
  cases hlocate : s.locate Γ command target with
  | error f => exact .inr ⟨f, rfl, rfl⟩
  | ok i =>
    have hi := visible_of_locate hlocate
    rcases h.clausePosition_eq hi command with
      ⟨entry, code, hposition, hclause, hcode⟩ | ⟨hclause, hposition⟩
    · refine .inl ⟨i, entry, code, hposition, ?_, hi, hcode⟩
      simp [bind, Except.bind, hclause]
      rfl
    · refine .inr ⟨_, hposition, ?_⟩
      simp [bind, Except.bind, hclause]

end Seen

end Chain

end EffectHandlers

/-!
## Reading code as a context

The activations of running and waiting code, read off as one evaluation context. A captured
continuation is read off the parked fibers that it goes on with.
-/

namespace EffectHandlers

variable {ω : Type} {Γ : Library ω} {m : Machine ω} {l : Layout ω} {i : InstallationId}
  {f : FiberId} {P S code code' : List (Activation ω)} {fs fs' : Fibers (List (Activation ω))}
  {k : Cont ω} {κ : Continuation ω}

/-- The frame that an activation stands for. What only waits for the runtime to go on, or holds
something, is no part of the context. -/
def Activation.frame? : Activation ω → Option (Frame ω)
  | bind next => some (.bind next)
  | catching next => some (.catching next)
  | looping body next => some (.looping body next)
  | driving i _ => some (.handling i)
  | clause _ answer | returning _ answer | calling answer => some (.answering answer)
  | inPlace i .. => some (.plain i)
  | start _ | owning _ | stepping | sending .. => none

/-- The context that a piece of code stands for. -/
def context (S : List (Activation ω)) : List (Frame ω) := S.filterMap Activation.frame?

@[simp] theorem context_nil : context ([] : List (Activation ω)) = [] := rfl

theorem context_cons (a : Activation ω) (S : List (Activation ω)) :
    context (a :: S) = a.frame?.toList ++ context S := by
  cases h : a.frame? <;> simp [context, h]

theorem context_append (P S : List (Activation ω)) : context (P ++ S) = context P ++ context S :=
  List.filterMap_append

/-- What is visible in the context is what the code leaves exposed. -/
theorem visible_context (S : List (Activation ω)) : visible (context S) = exposed [] S := by
  induction S with
  | nil => rfl
  | cons a S ih =>
    rw [context_cons]
    cases a <;> simp [Activation.frame?, visible, Frame.expose, Activation.expose, ← ih]

/-- Code whose drivers are others does not handle for the installation. -/
theorem not_handles_of_notMem (hi : i ∉ drivers P) : ∀ x ∈ context P, (!x.handles i) = true := by
  intro x hx
  obtain ⟨a, ha, hframe⟩ := List.mem_filterMap.mp hx
  cases a <;> simp only [Activation.frame?, Option.some.injEq, reduceCtorEq] at hframe
  case driving j f =>
    subst hframe
    have hj : j ∈ drivers P := List.mem_filterMap.mpr ⟨_, ha, rfl⟩
    simpa [Frame.handles] using ne_of_mem_of_not_mem hj hi
  all_goals
    subst hframe
    rfl

/-- The context is cut at the driver. -/
theorem within_context (hi : i ∉ drivers P) :
    within i (context (P ++ .driving i f :: S)) = context P ++ [.handling i] := by
  rw [within, context_append, List.takeWhile_append_of_pos (not_handles_of_notMem hi)]
  simp [context_cons, Activation.frame?, Frame.handles]

theorem beneath_context (hi : i ∉ drivers P) :
    beneath i (context (P ++ .driving i f :: S)) = context S := by
  rw [beneath, context_append, List.dropWhile_append_of_pos (not_handles_of_notMem hi)]
  simp [context_cons, Activation.frame?, Frame.handles]

/-- Some handler is in the context where some driver waits. -/
theorem any_handling_context (S : List (Activation ω)) :
    (context S).any Frame.isHandling = !(drivers S).isEmpty := by
  induction S with
  | nil => rfl
  | cons a S ih =>
    rw [context_cons, drivers_cons]
    cases a <;> simp [Activation.frame?, Activation.driver?, Frame.isHandling, ih]

/-! ### Parked code -/

namespace Fibers

/-- A fiber is suspended with one code only. -/
theorem Suspends.eq (h : fs.Suspends f code) (h' : fs.Suspends f code') : code = code' := by
  induction h generalizing code' with
  | invoker hfound =>
    cases h' with
    | invoker hfound' => simpa using hfound.symm.trans hfound'
    | driver hfound' => simpa using hfound.symm.trans hfound'
  | driver hfound _ ih =>
    cases h' with
    | invoker hfound' => simpa using hfound.symm.trans hfound'
    | driver hfound' habove' =>
      obtain ⟨⟨rfl, rfl⟩, rfl⟩ : (_ = _ ∧ _ = _) ∧ _ = _ := by
        simpa using hfound.symm.trans hfound'
      rw [ih habove']

/-- Only the fibers that are parked matter. -/
theorem Suspends.mono (h : fs.Suspends f code)
    (hsub : ∀ f S, fs.parked.find? f = some S → fs'.parked.find? f = some S) :
    fs'.Suspends f code := by
  induction h with
  | invoker hfound => exact .invoker (hsub _ _ hfound)
  | driver hfound _ ih => exact .driver (hsub _ _ hfound) ih

/-- The code that the running fiber has on top of it: an invoker has nothing, a driver that waits
has the code of the parked fiber that it waits for. -/
inductive Carries (fs : Fibers (List (Activation ω))) :
    List (Activation ω) → List (Activation ω) → Prop
  | invoker {i : InstallationId} {e modifier command} {S : List (Activation ω)} :
      Carries fs (.sending i e modifier command :: S) (.sending i e modifier command :: S)
  | driver {i : InstallationId} {f : FiberId} {above S : List (Activation ω)}
      (habove : fs.Suspends f above) : Carries fs (.driving i f :: S) (above ++ .driving i f :: S)

/-- A fiber that is suspended is parked with a stack that carries the rest. -/
theorem suspends_iff : fs.Suspends f code ↔ ∃ S, fs.parked.find? f = some S ∧ fs.Carries S code := by
  constructor
  · intro h
    cases h with
    | invoker hfound => exact ⟨_, hfound, .invoker⟩
    | driver hfound habove => exact ⟨_, hfound, .driver habove⟩
  · rintro ⟨S, hfound, h⟩
    cases h with
    | invoker => exact .invoker hfound
    | driver habove => exact .driver hfound habove

theorem Carries.eq (h : fs.Carries S code) (h' : fs.Carries S code') : code = code' := by
  cases h with
  | invoker =>
    cases h'
    rfl
  | driver habove =>
    cases h' with
    | driver habove' => rw [habove.eq habove']

theorem Carries.mono (h : fs.Carries S code)
    (hsub : ∀ f S, fs.parked.find? f = some S → fs'.parked.find? f = some S) :
    fs'.Carries S code := by
  cases h with
  | invoker => exact .invoker
  | driver habove => exact .driver (habove.mono hsub)

end Fibers

/-- A tower of parked fibers is carried by its lowest one. -/
theorem Tower.carries {t : Tower ω}
    (hparked : ∀ e ∈ t.rest.flatMap Tower.entries, fs.parked.find? e.1 = some e.2) :
    fs.Carries t.stack t.code := by
  cases t with
  | invoker f i e modifier command S => exact .invoker
  | driver f i above S => exact .driver (Tower.suspends fun e he => hparked e (by simpa [rest] using he))

/-- The invoker's wait comes first in the code of a tower. -/
theorem Tower.code_eq_cons (t : Tower ω) :
    ∃ i modifier command S, t.code = .sending i t.exchange modifier command :: S := by
  induction t with
  | invoker f i e modifier command S => exact ⟨i, modifier, command, S, rfl⟩
  | driver f i above S ih =>
    obtain ⟨j, modifier, command, S', heq⟩ := ih
    exact ⟨j, modifier, command, S' ++ (Tower.driver f i above S).stack, by
      simp [Tower.code, Tower.exchange, heq]⟩

/-- The stacks of the towers that a sound layout lists are parked. -/
theorem Parks.parked {ts : List (Tower ω)} (h : Parks fs ts) {t : Tower ω} (ht : t ∈ ts) :
    ∀ e ∈ t.entries, fs.parked.find? e.1 = some e.2 := by
  intro e he
  rw [Store.find?_eq_some_iff h.wellFormed]
  exact h.entries.mem_iff.mpr (List.mem_flatMap.mpr ⟨t, ht, he⟩)

/-! ### Continuations -/

/-- What a continuation stands for. -/
inductive Cont.Stands (fs : Fibers (List (Activation ω))) : Cont ω → Continuation ω → Prop
  | captured {answer segment e} {f : FiberId} {code : List (Activation ω)}
      (h : fs.Suspends f code) : Stands fs (.captured answer f segment e)
        (.context answer (context code ++ [.handling segment.lowest]))
  | function {answer x arg} : Stands fs (.function answer x arg) (.function answer x.body)

/-- The value that a continuation was given. -/
def Cont.value? (x : Store Exchange) : Cont ω → Option Value
  | captured _ _ _ e => (x.find? e).bind (·.result)
  | function _ _ arg => arg

/-- A continuation that was given a value, and what it stands for. -/
structure Cont.Holds (fs : Fibers (List (Activation ω))) (x : Store Exchange) (k : Cont ω)
    (κ : Continuation ω) (v : Value) : Prop where
  stands : k.Stands fs κ
  value : k.value? x = some v

theorem Cont.Stands.answer_eq (h : k.Stands fs κ) : κ.answer = k.answer := by
  cases h <;> rfl

/-- More parked fibers do not matter. -/
theorem Cont.Stands.mono (h : k.Stands fs κ)
    (hsub : ∀ f S, fs.parked.find? f = some S → fs'.parked.find? f = some S) :
    k.Stands fs' κ := by
  cases h with
  | captured h => exact .captured (h.mono hsub)
  | function => exact .function

namespace Sound

/-- A captured continuation of a sound state is suspended on its fiber. -/
theorem suspends (h : Sound Γ m l) {K : Kept ω} (hK : K ∈ l.kept) :
    m.fibers.Suspends K.tower.root K.tower.code := by
  refine Tower.suspends (h.parks.parked ?_)
  exact List.mem_append_right _ (List.mem_append_left _ (List.mem_map_of_mem hK))

/-- In a sound state, no fiber that a continuation goes on with is missing. -/
theorem stands (h : Sound Γ m l) (hk : k ∈ m.conts) (hstands : k.Stands fs κ)
    (hsub : ∀ f S, m.fibers.parked.find? f = some S → fs.parked.find? f = some S) :
    k.Stands m.fibers κ := by
  cases hstands with
  | function => exact .function
  | captured hsuspends =>
    obtain ⟨K, hK, hcont⟩ := h.exists_kept hk rfl
    obtain ⟨-, rfl, -, -⟩ := Cont.captured.inj hcont
    have hcode := h.suspends hK
    obtain rfl := (hcode.mono hsub).eq hsuspends
    exact .captured hcode

end Sound

end EffectHandlers
