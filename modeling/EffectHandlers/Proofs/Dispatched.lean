import EffectHandlers.Proofs.Sound
/-!
# Where commands go

Dispatch finds a live installation that declares the command, or it faults with a fault that
names what the program did wrong. The entry that it finds belongs to a clause whose code is
entered the way that the entry says.
-/

namespace EffectHandlers

variable {ω : Type} {Γ : Library ω} {c : Chain} {is : List InstallationId} {i : InstallationId}
  {entry : Nat} {command : String} {f : Fault}

namespace Chain

theorem clausePosition_eq_ok (h : c.clausePosition command i = .ok (j, entry)) :
    j = i ∧ (c.get i).clauseFor? command = some entry := by
  unfold clausePosition at h
  split at h
  · rename_i found hfound
    simp only [Except.ok.injEq, Prod.mk.injEq] at h
    exact ⟨h.1.symm, h.2 ▸ hfound⟩
  · cases h

theorem clausePosition_eq_error (h : c.clausePosition command i = .error f) :
    f.isInternal = false := by
  unfold clausePosition at h
  split at h <;> cases h
  rfl

theorem Reads.of_findCommand? (h : c.Reads is) (hi : c.findCommand? command = some (i, entry)) :
    i ∈ is ∧ (c.get i).clauseFor? command = some entry := by
  simp only [findCommand?, Option.bind_eq_bind, Option.bind_eq_some_iff] at hi
  obtain ⟨j, hj, found, hfound, heq⟩ := hi
  obtain ⟨rfl, rfl⟩ : j = i ∧ found = entry := by simpa using heq
  exact ⟨(h.of_search? hj).1, hfound⟩

theorem Reads.of_locateLabel {label : Int} (h : c.Reads is)
    (hi : c.locateLabel label command = .ok i) : i ∈ is := by
  unfold locateLabel at hi
  split at hi
  · rename_i found hfound
    obtain rfl : found = i := by simpa using hi
    unfold findLabel? at hfound
    split at hfound
    · cases hfound
    · exact (h.of_search? hfound).1
  · cases hi

theorem locateLabel_eq_error {label : Int} (h : c.locateLabel label command = .error f) :
    f.isInternal = false := by
  unfold locateLabel at h
  split at h <;> cases h
  rfl

theorem Reads.of_locateReference (h : c.Reads is) (hi : c.locateReference i = .ok j) :
    j = i ∧ i ∈ is := by
  unfold locateReference at hi
  split at hi
  · rename_i hinstalled
    obtain rfl : i = j := by simpa using hi
    simp only [isInstalled, Bool.and_eq_true] at hinstalled
    exact ⟨rfl, h.isLive_iff.mp hinstalled.2⟩
  · cases hi

theorem locateReference_eq_error (h : c.locateReference i = .error f) : f.isInternal = false := by
  unfold locateReference at h
  split at h <;> cases h
  rfl

theorem expectType_eq_ok {handlerType : String} (h : c.expectType handlerType i = .ok j) :
    j = i := by
  unfold expectType at h
  split at h
  · simpa using h.symm
  · cases h

theorem expectType_eq_error {handlerType : String} (h : c.expectType handlerType i = .error f) :
    f.isInternal = false := by
  unfold expectType at h
  split at h <;> cases h
  rfl

end Chain

/-- A computation that may fail returns when both of its parts do. -/
theorem Except.bind_eq_ok {ε α β : Type} {x : Except ε α} {g : α → Except ε β} {b : β} :
    x >>= g = .ok b ↔ ∃ a, x = .ok a ∧ g a = .ok b := by
  cases x <;> simp [bind, Except.bind]

/-- A computation that may fail does so when one of its parts does. -/
theorem Except.bind_eq_error {ε α β : Type} {x : Except ε α} {g : α → Except ε β} {e : ε} :
    x >>= g = .error e ↔ x = .error e ∨ ∃ a, x = .ok a ∧ g a = .error e := by
  cases x <;> simp [bind, Except.bind]

namespace Chain

/-- A command goes to a live installation, and to a clause that it declares for the command. -/
theorem Reads.of_dispatch (h : c.Reads is) {referent : ReferenceId → InstallationId}
    {target : Target} (hok : c.dispatch referent command target = .ok (i, entry)) :
    i ∈ is ∧ (c.get i).clauseFor? command = some entry := by
  cases target with
  | innermost =>
    simp only [dispatch] at hok
    split at hok
    · rename_i found hfound
      obtain rfl : found = (i, entry) := by simpa using hok
      exact h.of_findCommand? hfound
    · cases hok
  | labelled label =>
    obtain ⟨j, hj, hpos⟩ := Except.bind_eq_ok.mp hok
    obtain ⟨rfl, hclause⟩ := clausePosition_eq_ok hpos
    exact ⟨h.of_locateLabel hj, hclause⟩
  | reference r =>
    obtain ⟨j, hj, hpos⟩ := Except.bind_eq_ok.mp hok
    obtain ⟨rfl, hclause⟩ := clausePosition_eq_ok hpos
    obtain ⟨rfl, hlive⟩ := h.of_locateReference hj
    exact ⟨hlive, hclause⟩
  | ofType handlerType =>
    simp only [dispatch] at hok
    split at hok
    · rename_i found hfound
      obtain ⟨rfl, hclause⟩ := clausePosition_eq_ok hok
      exact ⟨(h.of_search? hfound).1, hclause⟩
    · cases hok
  | labelledOfType handlerType label =>
    obtain ⟨j, hj, hrest⟩ := Except.bind_eq_ok.mp hok
    obtain ⟨j', hj', hpos⟩ := Except.bind_eq_ok.mp hrest
    obtain ⟨rfl, hclause⟩ := clausePosition_eq_ok hpos
    obtain rfl := expectType_eq_ok hj'
    exact ⟨h.of_locateLabel hj, hclause⟩
  | referenceOfType handlerType r =>
    obtain ⟨j, hj, hrest⟩ := Except.bind_eq_ok.mp hok
    obtain ⟨j', hj', hpos⟩ := Except.bind_eq_ok.mp hrest
    obtain ⟨rfl, hclause⟩ := clausePosition_eq_ok hpos
    obtain rfl := expectType_eq_ok hj'
    obtain ⟨rfl, hlive⟩ := h.of_locateReference hj
    exact ⟨hlive, hclause⟩

/-- Where a command cannot be dispatched, the program is at fault. -/
theorem dispatch_eq_error {referent : ReferenceId → InstallationId} {target : Target}
    (herror : c.dispatch referent command target = .error f) : f.isInternal = false := by
  cases target with
  | innermost =>
    simp only [dispatch] at herror
    split at herror <;> cases herror
    rfl
  | labelled label =>
    rcases Except.bind_eq_error.mp herror with h | ⟨j, -, h⟩
    · exact locateLabel_eq_error h
    · exact clausePosition_eq_error h
  | reference r =>
    rcases Except.bind_eq_error.mp herror with h | ⟨j, -, h⟩
    · exact locateReference_eq_error h
    · exact clausePosition_eq_error h
  | ofType handlerType =>
    simp only [dispatch] at herror
    split at herror
    · exact clausePosition_eq_error herror
    · cases herror
      rfl
  | labelledOfType handlerType label =>
    rcases Except.bind_eq_error.mp herror with h | ⟨j, -, h⟩
    · exact locateLabel_eq_error h
    · rcases Except.bind_eq_error.mp h with h | ⟨j', -, h⟩
      · exact expectType_eq_error h
      · exact clausePosition_eq_error h
  | referenceOfType handlerType r =>
    rcases Except.bind_eq_error.mp herror with h | ⟨j, -, h⟩
    · exact locateReference_eq_error h
    · rcases Except.bind_eq_error.mp h with h | ⟨j', -, h⟩
      · exact expectType_eq_error h
      · exact clausePosition_eq_error h

/-- A search that succeeds finds a live installation. -/
theorem Reads.of_locate (h : c.Reads is) {search : Search} (hok : c.locate search = .ok i) :
    i ∈ is := by
  cases search with
  | command name =>
    simp only [locate] at hok
    split at hok
    · rename_i found entry hfound
      obtain rfl : found = i := by simpa using hok
      exact (h.of_findCommand? hfound).1
    · cases hok
  | label label =>
    simp only [locate] at hok
    split at hok
    · rename_i found hfound
      obtain rfl : found = i := by simpa using hok
      unfold findLabel? at hfound
      split at hfound
      · cases hfound
      · exact (h.of_search? hfound).1
    · cases hok

theorem locate_eq_error {search : Search} (herror : c.locate search = .error f) :
    f.isInternal = false := by
  cases search <;> simp only [locate] at herror <;> split at herror <;> cases herror <;> rfl

end Chain

/-- Code at a position is that of a clause that the handler type declares there, and the entry of the
installation leads to it. -/
theorem Machine.exists_clause_of_codeAt {m : Machine ω} {code : ClauseCode ω}
    (h : m.codeAt Γ i entry = some code) :
    ∃ e clause, (m.chain.get i).clauses[entry]? = some e ∧ e.entryPoint ≠ .missing ∧
      (Γ.handlerType (m.chain.get i).handlerType).clauses[entry]? = some clause ∧
        clause.code = code := by
  simp only [codeAt, Option.bind_eq_bind, Option.bind_eq_some_iff] at h
  obtain ⟨e, he, hrest⟩ := h
  split at hrest
  · cases hrest
  · rename_i hentry
    obtain ⟨clause, hclause, hcode⟩ := Option.bind_eq_some_iff.mp hrest
    exact ⟨e, clause, he, hentry, hclause, by simpa using hcode⟩

/-- An entry of an installation that declares what its handler type says leads to the code of a
clause, and has the entry point of its modifier. -/
theorem Declares.codeAt {m : Machine ω} {a : Installation} (h : Declares Γ m.chain) (hi : i ≠ 0)
    (hfound : m.chain.installations.find? i = some a) {e : ClauseEntry}
    (hentry : (m.chain.get i).clauses[entry]? = some e) :
    ∃ code, m.codeAt Γ i entry = some code ∧ code.modifier = e.modifier ∧
      e.entryPoint = if e.modifier = .plain then .inPlace else .resuming := by
  have hget : m.chain.get i = a := by simp [Chain.get, hfound]
  rw [hget] at hentry
  have hclause := hentry
  rw [h i a hi hfound] at hclause
  simp only [HandlerType.entries, List.getElem?_map, Option.map_eq_some_iff] at hclause
  obtain ⟨clause, hclause, rfl⟩ := hclause
  refine ⟨clause.code, ?_, rfl, ?_⟩
  · simp only [Machine.codeAt, hget, hentry, hclause, Option.bind_eq_bind, Option.bind_some]
    cases clause.code <;> rfl
  · cases clause.code <;> rfl

/-- The position that a lookup finds is that of an entry. -/
theorem Installation.getElem?_of_clauseFor? {a : Installation}
    (h : a.clauseFor? command = some entry) : ∃ e, a.clauses[entry]? = some e := by
  obtain ⟨hlt, -⟩ := List.findIdx?_eq_some_iff_getElem.mp h
  exact ⟨_, List.getElem?_eq_getElem hlt⟩

end EffectHandlers
