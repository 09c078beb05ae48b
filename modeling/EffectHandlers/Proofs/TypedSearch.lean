import EffectHandlers.Proofs.Targets
/-!
# Searching by command and by handler type

A command can be sent to the innermost installation that declares it, or to the innermost one of a
handler type. All installations of a handler type declare the same commands at the same positions,
so the two searches agree unless an installation of another handler type comes first.
-/

namespace EffectHandlers

variable {ω : Type} {Γ : Library ω} {command handlerType : String} {i j k : InstallationId}
  {referent : ReferenceId → InstallationId} {is : List InstallationId}

/-! ### Installations of a handler type -/

/-- The position of the clause for a command among the clauses of a handler type. -/
def HandlerType.position? (h : HandlerType ω) (command : String) : Option Nat :=
  h.clauses.findIdx? (·.command == command)

/-- A handler type declares a command if one of its clauses is for it. -/
theorem HandlerType.isSome_position?_iff (h : HandlerType ω) :
    (h.position? command).isSome ↔ ∃ clause ∈ h.clauses, clause.command = command := by
  simp [position?, List.findIdx?_isSome]

namespace Chain

variable {c c' : Chain}

/-- The entries of the installations are those of their handler types, except for those that were
put on the chain by hand and have none. -/
def Typed (Γ : Library ω) (c : Chain) : Prop := ∀ i,
  (c.get i).handlerType = Installation.bottom.handlerType ∨
    (c.get i).clauses = (Γ.handlerType (c.get i).handlerType).entries

namespace Typed

theorem of_profile (h : c.Typed Γ) (hprofile : ∀ j, (c'.get j).profile = (c.get j).profile ∨
    (c'.get j).profile = Installation.bottom.profile ∨
    ((c'.get j).handlerType = Installation.bottom.handlerType ∨
      (c'.get j).clauses = (Γ.handlerType (c'.get j).handlerType).entries)) : c'.Typed Γ := by
  intro j
  rcases hprofile j with hsame | hbottom | htyped
  · simp only [Installation.profile, Prod.mk.injEq] at hsame
    obtain ⟨htype, -, hclauses⟩ := hsame
    rw [htype, hclauses]
    exact h j
  · simp only [Installation.profile, Prod.mk.injEq] at hbottom
    exact .inl hbottom.1
  · exact htyped

theorem initial : Chain.initial.Typed Γ := by
  intro j
  rw [get_initial]
  exact .inl rfl

/-- All installations of a handler type have the clause for a command at one position. -/
theorem clauseFor?_eq (h : c.Typed Γ) (hi : (c.get i).handlerType = handlerType)
    (htype : handlerType ≠ Installation.bottom.handlerType) (command : String) :
    (c.get i).clauseFor? command = (Γ.handlerType handlerType).position? command := by
  have hentries := (h i).resolve_left (hi ▸ htype)
  rw [Installation.clauseFor?, hentries, hi, HandlerType.entries, List.findIdx?_map]
  rfl

end Typed

/-! ### The two searches -/

/-- A command goes to the innermost installation that declares it. -/
theorem Reads.dispatch_innermost (h : c.Reads is)
    (hi : c.Designates referent command .innermost i) {position : Nat}
    (hposition : (c.get i).clauseFor? command = some position) :
    c.dispatch referent command .innermost = .ok (i, position) := by
  have hsearch := h.search?_eq_some (p := fun _ a => (a.clauseFor? command).isSome)
    (fun _ => Iff.rfl) hi
  simp [dispatch, findCommand?, hsearch, hposition]

/-- A command that is sent to a handler type goes to its innermost installation. -/
theorem Reads.dispatch_ofType (h : c.Reads is)
    (hi : c.Designates referent command (.ofType handlerType) i) {position : Nat}
    (hposition : (c.get i).clauseFor? command = some position) :
    c.dispatch referent command (.ofType handlerType) = .ok (i, position) := by
  have hsearch := h.search?_eq_some (p := fun _ a => a.handlerType == handlerType)
    (fun _ => beq_iff_eq) hi
  simp [dispatch, findType?, hsearch, clausePosition, hposition]

/-- The innermost installation that declares a command is the given one or lies above it, if that
declares the command. -/
theorem exists_designates_innermost (referent : ReferenceId → InstallationId)
    {above below : List InstallationId}
    (hlive : c.live = above ++ j :: below) (hj : ((c.get j).clauseFor? command).isSome) :
    (c.Designates referent command .innermost j ∧
      ∀ k ∈ above, ((c.get k).clauseFor? command) = none) ∨
    ∃ i ∈ above, c.Designates referent command .innermost i := by
  cases hfound : above.find? fun k => ((c.get k).clauseFor? command).isSome with
  | none =>
    rw [List.find?_eq_none] at hfound
    have hnone : ∀ k ∈ above, (c.get k).clauseFor? command = none := fun k hk => by
      simpa using hfound k hk
    refine .inl ⟨⟨above, below, hlive, hj, fun k hk => ?_⟩, hnone⟩
    simp [Qualifies, hnone k hk]
  | some i =>
    obtain ⟨hi, first, rest, rfl, hfirst⟩ := List.find?_eq_some_iff_append.mp hfound
    refine .inr ⟨i, by simp, first, rest ++ j :: below, by simpa using hlive, hi, fun k hk => ?_⟩
    simpa [Qualifies] using hfirst k hk

/-- How a command is found by itself and by a handler type: the innermost installation that declares
it is `i`, and the innermost one of the handler type is `j`. -/
structure Compares (c : Chain) (referent : ReferenceId → InstallationId)
    (command handlerType : String) (i j : InstallationId) (p q : Nat)
    (above below : List InstallationId) : Prop where
  dynamic : c.dispatch referent command .innermost = .ok (i, p)
  static : c.dispatch referent command (.ofType handlerType) = .ok (j, q)
  /-- The installation of the handler type is the innermost one. -/
  live : c.live = above ++ j :: below
  ofType : (c.get j).handlerType = handlerType
  foreign : ∀ k ∈ above, (c.get k).handlerType ≠ handlerType
  /-- If the search by command finds an installation of the handler type, both find the same. -/
  agree : (c.get i).handlerType = handlerType → i = j ∧ p = q
  /-- It always finds the same one, or one above it. -/
  inner : i ∈ above ++ [j]
  /-- They differ if and only if an installation of another handler type that declares the command
  lies above. -/
  differ : (i, p) ≠ (j, q) ↔ ∃ k ∈ above, (c.get k).handlerType ≠ handlerType ∧
    ((c.get k).clauseFor? command).isSome

theorem exists_compares (referent : ReferenceId → InstallationId) (h : c.Reads is)
    (htyped : c.Typed Γ)
    (htype : handlerType ≠ Installation.bottom.handlerType)
    (hdeclares : ∃ clause ∈ (Γ.handlerType handlerType).clauses, clause.command = command)
    (hk : k ∈ c.live) (hkind : (c.get k).handlerType = handlerType) :
    ∃ i j p q above below, c.Compares referent command handlerType i j p q above below := by
  obtain ⟨q, hq⟩ := Option.isSome_iff_exists.mp
    ((HandlerType.isSome_position?_iff _).mpr hdeclares)
  have hclause : ∀ {i}, (c.get i).handlerType = handlerType →
      (c.get i).clauseFor? command = some q := fun hi =>
    (htyped.clauseFor?_eq hi htype command).trans hq
  obtain ⟨j, hj⟩ : ∃ j, c.Designates referent command (.ofType handlerType) j :=
    exists_designates hk hkind
  have hstatic := h.dispatch_ofType hj (hclause hj.qualifies)
  obtain ⟨above, below, hlive, hofType, hforeign⟩ := hj
  have hdeclared : ((c.get j).clauseFor? command).isSome := by simp [hclause hofType]
  rcases exists_designates_innermost referent hlive hdeclared with
    ⟨hinnermost, hnone⟩ | ⟨i, hi, hinnermost⟩
  · refine ⟨j, j, q, q, above, below, h.dispatch_innermost hinnermost (hclause hofType), hstatic,
      hlive, hofType, hforeign, fun _ => ⟨rfl, rfl⟩, by simp, ?_⟩
    simp only [ne_eq, not_true_eq_false, false_iff, not_exists, not_and]
    exact fun k hk _ => by simp [hnone k hk]
  · obtain ⟨p, hp⟩ := Option.isSome_iff_exists.mp hinnermost.qualifies
    have hother : (c.get i).handlerType ≠ handlerType := hforeign i hi
    refine ⟨i, j, p, q, above, below, h.dispatch_innermost hinnermost hp, hstatic, hlive, hofType,
      hforeign, fun hsame => absurd hsame hother, by simp [hi], ?_⟩
    refine ⟨fun _ => ⟨i, hi, hother, hinnermost.qualifies⟩, fun _ hsame => hother ?_⟩
    rw [(Prod.mk.inj hsame).1]
    exact hofType

end Chain

namespace Machine

variable [Contents ω] {m : Machine ω}

theorem typed_step (h : m.chain.Typed Γ) (hwf : m.chain.installations.WellFormed) :
    (m.step Γ).chain.Typed Γ := by
  rcases step_creates Γ hwf with hsame | ⟨nextLabel, a, hchain, hfits, -⟩
  · exact h.of_profile fun j => (hsame.profile j).imp_right .inl
  · refine h.of_profile fun j => ?_
    have hprofile := Chain.get_pushed { m.chain with nextLabel } Installation.profile
      (fun _ _ => rfl) a j
    rw [hchain]
    split at hprofile
    · simp only [Installation.profile, Prod.mk.injEq] at hprofile
      obtain ⟨htype, -, hclauses⟩ := hprofile
      refine .inr (.inr ?_)
      rcases hfits with hentries | ⟨hbare, -⟩
      · exact .inr (hclauses.trans (hentries.trans (htype ▸ rfl)))
      · exact .inl (htype.trans hbare)
    · exact .inl hprofile

theorem typed_run (h : m.chain.Typed Γ) (horders : m.Orders) (n : Nat) :
    (run Γ n m).chain.Typed Γ := by
  induction n with
  | zero => exact h
  | succ n ih =>
    rw [run_succ]
    exact typed_step ih (horders.run n).counts.installations

/-- Where two targets lead to the same clause, a command goes on in the same way. -/
theorem eval_invoke_congr {target target' : Target} {name : Command} {next : Value → Comp ω}
    (h : m.chain.dispatch m.referent name.name target =
      m.chain.dispatch m.referent name.name target') :
    m.eval Γ (.invoke target name next) = m.eval Γ (.invoke target' name next) := by
  simp only [eval, h]

/-- How a command that is sent now to the innermost installation compares to the same command sent
to a handler type. -/
def SearchesAgree (Γ : Library ω) (m : Machine ω) (command handlerType : String) : Prop :=
  ∃ i j p q above below,
    m.chain.Compares m.referent command handlerType i j p q above below ∧
      ((m.chain.get i).handlerType = handlerType → ∀ (sent : Command) (next : Value → Comp ω),
        sent.name = command → m.eval Γ (.invoke .innermost sent next) =
          m.eval Γ (.invoke (.ofType handlerType) sent next))

/-- In every run of every program that has not ended with a fault, a command that a handler type
declares is found by itself where it is found by the handler type, or above that, and the two
searches differ exactly if an installation of another handler type that declares it lies above. The
handler type is not the one of the bottom installation, which no handler has. -/
theorem static_search_agrees (settings : SettingsSlot) (cells : List ω) (statics : List Owned)
    (main : Comp ω) (n : Nat)
    (hrunning : (run Γ n (start settings cells statics main)).control.isFatal = false)
    (htype : handlerType ≠ Installation.bottom.handlerType)
    (hdeclares : ∃ clause ∈ (Γ.handlerType handlerType).clauses, clause.command = command)
    (hlive : ∃ k ∈ (run Γ n (start settings cells statics main)).chain.live,
      ((run Γ n (start settings cells statics main)).chain.get k).handlerType = handlerType) :
    (run Γ n (start settings cells statics main)).SearchesAgree Γ command handlerType := by
  obtain ⟨k, hk, hkind⟩ := hlive
  have horders : (start settings cells statics main).Orders := orders_start ..
  have htyped : (run Γ n (start settings cells statics main)).chain.Typed Γ :=
    typed_run .initial horders n
  obtain ⟨live, cuts, hlays⟩ := (horders.run (Γ := Γ) n).laid hrunning
  generalize run Γ n (start settings cells statics main) = m at *
  obtain ⟨i, j, p, q, above, below, hcompares⟩ := Chain.exists_compares
    m.referent hlays.arranged.reads htyped htype hdeclares hk hkind
  refine ⟨i, j, p, q, above, below, hcompares, fun hsame sent next hsent => ?_⟩
  obtain ⟨rfl, rfl⟩ := hcompares.agree hsame
  subst hsent
  exact eval_invoke_congr (hcompares.dynamic.trans hcompares.static.symm)

/-- The two searches agree where `asking` sends its command. -/
theorem static_search_agrees_asking :
    (run reader 2 (start {} [()] [] asking)).control.isFatal = false ∧
      (run reader 2 (start {} [()] [] asking)).SearchesAgree reader "Ask" "Reader" := by
  have hrunning : (run reader 2 (start {} [()] [] asking)).control.isFatal = false := rfl
  refine ⟨hrunning, static_search_agrees {} [()] [] asking 2 hrunning (by decide) ?_ ?_⟩
  · exact ⟨_, List.mem_singleton.mpr rfl, rfl⟩
  · exact ⟨1, by decide, by decide⟩

end Machine

end EffectHandlers
