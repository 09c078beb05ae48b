import EffectHandlers.Proofs.Absence
/-!
# What installations are

The handler type and the clauses of an installation are the ones that it was made with. So its
entries lead to the clauses of its handler type, and it is marked as finished only when its return
clause has started.
-/

namespace EffectHandlers

variable {ω : Type} {Γ : Library ω} {m : Machine ω} {i j : InstallationId}

/-! ### Chains with the same profiles -/

/-- What an installation is, apart from where it is. -/
def Installation.profile (a : Installation) : String × String × List ClauseEntry :=
  (a.handlerType, a.name, a.clauses)

/-- No installation was made, and those that were not freed are what they were. -/
structure Chain.SameProfiles (c c' : Chain) : Prop where
  next : c'.installations.next = c.installations.next
  profile : ∀ i, (c'.get i).profile = (c.get i).profile ∨
    (c'.get i).profile = Installation.bottom.profile

namespace Chain

variable {c c' c'' : Chain} {s : Segment}

namespace SameProfiles

theorem of_installations (h : c'.installations = c.installations) : c.SameProfiles c' :=
  ⟨by rw [h], fun i => .inl (by simp only [get, h])⟩

theorem refl (c : Chain) : c.SameProfiles c := of_installations rfl

theorem trans (h : c.SameProfiles c') (h' : c'.SameProfiles c'') : c.SameProfiles c'' where
  next := h'.next.trans h.next
  profile i := by
    rcases h'.profile i with hsame | hfreed
    · exact (h.profile i).imp hsame.trans hsame.trans
    · exact .inr hfreed

theorem modify (c : Chain) (i : InstallationId) {f : Installation → Installation}
    (hf : ∀ a, (f a).profile = a.profile) : c.SameProfiles (c.modify i f) :=
  ⟨rfl, fun _ => .inl (get_modify_congr Installation.profile f hf)⟩

/-- Relinking an installation leaves it what it is. -/
theorem relink (c : Chain) (i : InstallationId) (b : Option InstallationId) :
    c.SameProfiles (c.modify i fun a => { a with below := b }) := modify c i fun _ => rfl

theorem erase (hwf : c.installations.WellFormed) (i : InstallationId) :
    c.SameProfiles { c with installations := c.installations.erase i } := by
  refine ⟨rfl, fun j => ?_⟩
  simp only [get, Store.find?_erase hwf]
  split
  · exact .inr rfl
  · exact .inl rfl

theorem split (h : c.split i = .ok (s, c')) : c.SameProfiles c' := by
  unfold Chain.split at h
  split at h
  · split at h
    · cases h
    · obtain ⟨-, rfl⟩ := Prod.mk.inj (Except.ok.inj h)
      exact (relink c i none).trans (of_installations rfl)
  · cases h

theorem pop? (h : c.pop? = some (i, c')) : c.SameProfiles c' := by
  obtain ⟨b, -, heq⟩ := Option.map_eq_some_iff.mp h
  obtain ⟨-, rfl⟩ := Prod.mk.inj heq
  exact (relink c c.top none).trans (of_installations rfl)

theorem splice (c : Chain) (s : Segment) : c.SameProfiles (c.splice s) :=
  (relink c s.lowest (some c.top)).trans (of_installations rfl)

end SameProfiles

end Chain

/-! ### What the steps do to profiles -/

section Steps

variable {c : Chain} {m' : Machine ω}

open Chain (SameProfiles)
open Machine

namespace Chain.SameProfiles

theorem tables (h : c.SameProfiles m.chain) (hsame : m'.tables = m.tables) :
    c.SameProfiles m'.chain :=
  h.trans (.of_installations (congrArg (fun t => t.2.1) hsame))

theorem warn (h : c.SameProfiles m.chain) (ws : List SettingsWarning) :
    c.SameProfiles (m.warn ws).chain := h.tables (tables_warn m ws)

theorem enter (h : c.SameProfiles m.chain) (j : InstallationId) (f : FiberId) :
    c.SameProfiles (m.enter j f).chain :=
  h.trans (.of_installations (by rw [(Moves.enter_leaves m j f).1]))

theorem settle (h : c.SameProfiles m.chain) (answer : String) (v : Value) (kept : List Holding) :
    c.SameProfiles (m.settle answer v kept).chain :=
  h.trans (.of_installations (by rw [Moves.chain_settle]))

theorem finish (h : c.SameProfiles m.chain) (j : InstallationId) (v : Value) :
    c.SameProfiles (m.finish Γ j v).chain := by
  unfold Machine.finish
  split
  · exact h
  · rename_i top c' hpop
    have hpopped := h.trans (.pop? hpop)
    simp only
    split
    · exact hpopped
    · exact hpopped.trans (.modify _ _ fun _ => rfl)

theorem sendInPlace (h : c.SameProfiles m.chain) (j : InstallationId) (position : Nat)
    (command : Command) : c.SameProfiles (m.sendInPlace Γ j position command).chain := by
  rcases sendInPlace_cases (Γ := Γ) m j position command with
    ⟨text, heq⟩ | ⟨run, -, heq⟩ | ⟨run, hidden, c', -, hsplit, heq⟩
  · rw [heq]
    exact h
  · rw [heq]
    exact h.trans (.modify _ _ fun _ => rfl)
  · rw [heq]
    have hheld := h.trans (.modify _ j (f := fun a => { a with shares := a.shares + 1 }) fun _ => rfl)
    exact (hheld.trans (.split hsplit)).trans (.modify _ _ fun _ => rfl)

theorem capture (h : c.SameProfiles m.chain) (j : InstallationId) (f : FiberId) (r : Request) :
    c.SameProfiles (m.capture Γ j f r).chain := by
  rcases capture_cases (Γ := Γ) m j f r with ⟨text, heq⟩ | heq | ⟨code, s, c', -, hsplit, heq⟩
  · rw [heq]
    exact h
  · rw [heq]
    exact h
  · have hcut := h.trans (.split hsplit)
    rcases heq with ⟨counters, journal, heq⟩ | ⟨y, command, counters, journal, -, -, heq⟩ <;>
      · rw [heq]
        exact hcut.trans (.modify _ _ fun _ => rfl)

theorem stepCont (h : c.SameProfiles m.chain) (k : Cont ω) :
    c.SameProfiles (m.stepCont k).chain := by
  cases k with
  | captured answer f s e =>
    have hput := h.trans (.splice m.chain s)
    exact SameProfiles.enter hput s.lowest f
  | function answer f arg => cases arg <;> exact h

end Chain.SameProfiles

namespace Machine

theorem sameProfiles_give (m : Machine ω) (v : Value) :
    m.chain.SameProfiles (m.give Γ v).chain := by
  have hrefl := SameProfiles.refl m.chain
  unfold give
  split
  · split
    · exact hrefl
    · rename_i m' hback
      obtain ⟨⟨S, fs⟩, -, rfl⟩ := Option.map_eq_some_iff.mp hback
      exact SameProfiles.warn (by exact hrefl) _
  · rename_i a S hstack
    cases a with
    | driving j f => exact SameProfiles.finish (by exact hrefl) j v
    | returning j answer => exact SameProfiles.settle (by exact hrefl) _ _ _
    | calling answer => exact SameProfiles.settle (by exact hrefl) _ _ _
    | inPlace j handler hidden e => exact .splice _ _
    | looping body next =>
      simp only
      split <;> exact hrefl
    | _ => exact hrefl

theorem sameProfiles_deliver (m : Machine ω) (s : Step (Cont ω) Value) :
    m.chain.SameProfiles (m.deliver s).chain := by
  unfold deliver
  split
  · cases s with
    | done v => exact .refl _
    | tail k => exact SameProfiles.stepCont (.refl _) k
  · exact .refl _

theorem sameProfiles_forward (m : Machine ω) (r : Request) :
    m.chain.SameProfiles (m.forward Γ r).chain := by
  have hrefl := SameProfiles.refl m.chain
  unfold forward
  split
  · exact hrefl
  · simp only
    split
    · split
      · exact SameProfiles.capture (by exact hrefl) _ _ _
      · exact hrefl
    · exact hrefl

theorem sameProfiles_wake (m : Machine ω) : m.chain.SameProfiles m.wake.chain := by
  have hrefl := SameProfiles.refl m.chain
  unfold wake
  split
  · exact hrefl
  · exact SameProfiles.enter (by exact hrefl) _ _
  · split
    · exact hrefl
    · split <;> exact hrefl
  · exact hrefl

theorem sameProfiles_unwind (m : Machine ω) (message : String) :
    m.chain.SameProfiles (m.unwind message).chain := by
  unfold unwind
  split
  · cases hback : m.handBack (.unwind message) with
    | none => exact .refl _
    | some m' =>
      obtain ⟨⟨S, fs⟩, -, rfl⟩ := Option.map_eq_some_iff.mp hback
      exact .refl _
  · exact .refl _
  · exact .refl _

variable [Contents ω]

theorem sameProfiles_releaseOne (hwf : m.chain.installations.WellFormed) (x : Holding) :
    m.chain.SameProfiles (m.releaseOne x).chain := by
  cases x with
  | asset o =>
    cases o with
    | cell c =>
      simp only [releaseOne, releaseAsset, releaseCell]
      split
      · exact .refl _
      · split <;> exact .refl _
    | notice n => exact .refl _
    | _ =>
      simp only [releaseOne, releaseAsset]
      split <;> exact .refl _
  | installation j =>
    simp only [releaseOne, releaseInstallation]
    split
    · exact .refl _
    · split
      · exact .erase hwf j
      · exact .modify _ _ fun _ => rfl
  | _ =>
    simp only [releaseOne]
    split <;> exact .refl _

/-- Only installing makes a new installation, and putting one on the chain by hand. -/
theorem sameProfiles_eval {c : Comp ω} (hhandle : ∀ x body next, c ≠ .handle x body next)
    (hbare : ∀ label name clauses next, c ≠ .pushBare label name clauses next) :
    m.chain.SameProfiles (m.eval Γ c).chain := by
  have hrefl := SameProfiles.refl m.chain
  cases c with
  | handle x body next => exact absurd rfl (hhandle x body next)
  | pushBare label name clauses next => exact absurd rfl (hbare label name clauses next)
  | retain o next => cases o <;> exact hrefl
  | apply f arg next =>
    simp only [eval, applyClosure]
    split <;> exact hrefl
  | invoke target command next =>
    simp only [eval]
    split
    · exact hrefl
    · unfold send
      simp only
      split
      · exact SameProfiles.sendInPlace (by exact hrefl) _ _ _
      · exact .modify _ _ fun _ => rfl
  | find search next =>
    simp only [eval]
    split
    · exact hrefl
    · exact .modify _ _ fun _ => rfl
  | copy r next =>
    simp only [eval]
    split
    · exact hrefl
    · exact .modify _ _ fun _ => rfl
  | function answer f next | take r next =>
    simp only [eval]
    split <;> exact hrefl
  | resume r v next =>
    simp only [eval, resume]
    split
    · exact hrefl
    · rename_i k m' harm
      have hsame := SameProfiles.tables (.refl _) (tables_arm harm)
      exact hsame
  | tailResume r v next =>
    simp only [eval, tailResume]
    split
    · exact hrefl
    · rename_i k m' harm
      have hsame := SameProfiles.tables (.refl _) (tables_arm harm)
      split <;> exact hsame
  | ask q next => exact hrefl.tables (m.tables_answer q)
  | view v next => exact hrefl.tables (m.tables_view v)
  | print p next => exact hrefl.tables (m.tables_print p)
  | popBare next =>
    simp only [eval]
    split
    · exact hrefl
    · rename_i j c' hpop
      exact .pop? hpop
  | _ => exact hrefl

/-- So nothing else than evaluating makes a new installation. -/
theorem sameProfiles_step (hwf : m.chain.installations.WellFormed)
    (hhandle : ∀ x body next, ¬ m.Evaluates (.handle x body next))
    (hbare : ∀ label name clauses next, ¬ m.Evaluates (.pushBare label name clauses next)) :
    m.chain.SameProfiles (m.step Γ).chain := by
  cases hreleasing : m.releasing with
  | cons x hs =>
    rw [step_releasing hreleasing]
    exact sameProfiles_releaseOne (m := { m with releasing := hs }) hwf x
  | nil =>
    cases hcontrol : m.control with
    | eval c =>
      simp only [step, hreleasing, hcontrol]
      refine sameProfiles_eval (fun x body next heq => ?_) fun label name clauses next heq => ?_
      · exact hhandle x body next ⟨hreleasing, heq ▸ hcontrol⟩
      · exact hbare label name clauses next ⟨hreleasing, heq ▸ hcontrol⟩
    | ret v =>
      simp only [step, hreleasing, hcontrol]
      exact sameProfiles_give ..
    | deliver s =>
      simp only [step, hreleasing, hcontrol]
      exact sameProfiles_deliver ..
    | settle answer v =>
      simp only [step, hreleasing, hcontrol]
      exact SameProfiles.settle (.refl _) _ _ _
    | request r =>
      simp only [step, hreleasing, hcontrol]
      exact sameProfiles_forward ..
    | wake =>
      simp only [step, hreleasing, hcontrol]
      exact sameProfiles_wake ..
    | unwind message =>
      simp only [step, hreleasing, hcontrol]
      exact sameProfiles_unwind ..
    | fault f =>
      simp only [step, hreleasing, hcontrol]
      exact .refl _
    | halted o =>
      rw [step_halted hcontrol hreleasing]
      exact .refl _

/-! ### New installations -/

end Machine

end Steps

namespace Chain

variable {c : Chain}

theorem get_pushed (c : Chain) {α : Type} (g : Installation → α)
    (hg : ∀ a b, g { a with below := b } = g a) (a : Installation) (j : InstallationId) :
    g (((c.create a).2.push c.installations.next).get j) =
      if j = c.installations.next then g a else g (c.get j) := by
  have hpush := get_modify_congr (c := (c.create a).2) (i := c.installations.next) (j := j) g
    (fun x => { x with below := some (c.create a).2.top }) fun x => hg x _
  refine hpush.trans ?_
  rw [get_create]
  split <;> rfl

/-- At first there is only the bottom. -/
theorem get_initial (j : InstallationId) : Chain.initial.get j = Installation.bottom := by
  match j with
  | 0 => rfl
  | _ + 1 => rfl

/-- The entries of the installations are those of their handler types, except that one that was
put on the chain by hand has no code. -/
def Fitting (Γ : Library ω) (c : Chain) : Prop := ∀ i,
  (c.get i).clauses = (Γ.handlerType (c.get i).handlerType).entries ∨
    ∀ e ∈ (c.get i).clauses, e.entryPoint = .missing

namespace Fitting

variable {c' : Chain}

/-- Whether an installation fits can be read off its profile. -/
theorem of_profile (h : c.Fitting Γ) (hprofile : ∀ j, (c'.get j).profile = (c.get j).profile ∨
    (c'.get j).profile = Installation.bottom.profile ∨
    (c'.get j).clauses = (Γ.handlerType (c'.get j).handlerType).entries ∨
      ∀ e ∈ (c'.get j).clauses, e.entryPoint = .missing) : c'.Fitting Γ := by
  intro j
  rcases hprofile j with hsame | hbottom | hfits
  · simp only [Installation.profile, Prod.mk.injEq] at hsame
    obtain ⟨htype, -, hclauses⟩ := hsame
    rw [htype, hclauses]
    exact h j
  · simp only [Installation.profile, Prod.mk.injEq] at hbottom
    obtain ⟨-, -, hclauses⟩ := hbottom
    right
    simp [hclauses, Installation.bottom]
  · exact hfits

theorem sameProfiles (h : c.Fitting Γ) (hsame : c.SameProfiles c') : c'.Fitting Γ :=
  h.of_profile fun j => (hsame.profile j).imp_right .inl

/-- A new installation has to fit. -/
theorem pushed {a : Installation} (h : c.Fitting Γ)
    (ha : a.clauses = (Γ.handlerType a.handlerType).entries ∨
      ∀ e ∈ a.clauses, e.entryPoint = .missing) :
    ((c.create a).2.push c.installations.next).Fitting Γ := by
  refine h.of_profile fun j => ?_
  have hprofile := c.get_pushed Installation.profile (fun _ _ => rfl) a j
  split at hprofile
  · simp only [Installation.profile, Prod.mk.injEq] at hprofile
    obtain ⟨htype, -, hclauses⟩ := hprofile
    rw [htype, hclauses]
    exact .inr (.inr ha)
  · exact .inl hprofile

theorem initial : Chain.initial.Fitting Γ := by
  intro j
  rw [get_initial]
  exact .inr (by simp [Installation.bottom])

end Fitting

end Chain

namespace Machine

variable [Contents ω]

/-- No step makes an installation, but one that installs a handler or puts an installation on the
chain by hand. The new installation is not marked as finished, unless by hand. -/
theorem step_creates (Γ : Library ω) (hwf : m.chain.installations.WellFormed) :
    m.chain.SameProfiles (m.step Γ).chain ∨ ∃ nextLabel a,
      (m.step Γ).chain = (({ m.chain with nextLabel } : Chain).create a).2.push
        m.chain.installations.next ∧
      (a.clauses = (Γ.handlerType a.handlerType).entries ∨
        a.handlerType = Installation.bottom.handlerType ∧
          ∀ e ∈ a.clauses, e.entryPoint = .missing) ∧
      (a.label = retiredLabel → nextLabel < retiredLabel ∨
        ∃ name clauses next, m.Evaluates (.pushBare retiredLabel name clauses next)) := by
  by_cases hhandle : ∃ x body next, m.Evaluates (.handle x body next)
  · obtain ⟨x, body, next, hreleasing, hcontrol⟩ := hhandle
    have hstep : m.step Γ = (m.push (.bind next)).install Γ x body := by
      simp only [step, hreleasing, hcontrol, eval]
    obtain ⟨nextLabel, declared, pool, counters, journal, hinstall⟩ :=
      exists_install_eq (Γ := Γ) (m.push (.bind next)) x body
    rw [hstep]
    rcases hinstall with ⟨f, heq⟩ | heq | ⟨label, hlabel, heq⟩
    · rw [heq]
      exact .inl (.of_installations rfl)
    · rw [heq]
      exact .inl (.of_installations rfl)
    · rw [heq]
      exact .inr ⟨nextLabel, _, rfl, .inl rfl, fun hretired => .inl (hlabel hretired)⟩
  by_cases hbare : ∃ label name clauses next, m.Evaluates (.pushBare label name clauses next)
  · obtain ⟨label, name, clauses, next, hm⟩ := hbare
    obtain ⟨hreleasing, hcontrol⟩ := id hm
    simp only [step, hreleasing, hcontrol, eval]
    refine .inr ⟨m.chain.nextLabel, _, rfl, .inr ⟨rfl, fun e he => ?_⟩, fun hretired => .inr ?_⟩
    · obtain ⟨c, -, rfl⟩ := List.mem_map.mp he
      rfl
    · obtain rfl : label = retiredLabel := hretired
      exact ⟨name, clauses, next, hm⟩
  · refine .inl (sameProfiles_step hwf (fun x body next hm => hhandle ⟨x, body, next, hm⟩) ?_)
    exact fun label name clauses next hm => hbare ⟨label, name, clauses, next, hm⟩

theorem fitting_step (h : m.chain.Fitting Γ) (hwf : m.chain.installations.WellFormed) :
    (m.step Γ).chain.Fitting Γ := by
  rcases step_creates Γ hwf with hsame | ⟨nextLabel, a, hchain, hfits, -⟩
  · exact h.sameProfiles hsame
  · have hrelabelled : ({ m.chain with nextLabel } : Chain).Fitting Γ :=
      h.sameProfiles (.of_installations rfl)
    rw [hchain]
    exact hrelabelled.pushed (hfits.imp_right And.right)

/-- An installation stays what it is, until it is freed. -/
theorem profile_step (hwf : m.chain.installations.WellFormed)
    (hissued : i < m.chain.installations.next) :
    ((m.step Γ).chain.get i).profile = (m.chain.get i).profile ∨
      ((m.step Γ).chain.get i).profile = Installation.bottom.profile := by
  rcases step_creates Γ hwf with hsame | ⟨nextLabel, a, hchain, -⟩
  · exact hsame.profile i
  · left
    have hget := Chain.get_pushed { m.chain with nextLabel } Installation.profile
      (fun _ _ => rfl) a i
    rw [if_neg (Nat.ne_of_lt hissued)] at hget
    rw [hchain]
    exact hget

theorem profile_run (h : m.Orders) (hissued : i < m.chain.installations.next) (n : Nat) :
    ((run Γ n m).chain.get i).profile = (m.chain.get i).profile ∨
      ((run Γ n m).chain.get i).profile = Installation.bottom.profile := by
  induction n with
  | zero => exact .inl rfl
  | succ n ih =>
    have hissued' : i < (run Γ n m).chain.installations.next :=
      Nat.lt_of_lt_of_le hissued (run_ages n m).chain.installations.next
    rw [run_succ]
    rcases profile_step (Γ := Γ) (h.run n).counts.installations hissued' with hsame | hbottom
    · rw [hsame]
      exact ih
    · exact .inr hbottom

omit [Contents ω] in
/-- What code there is depends on what the installation is. -/
theorem codeAt_of_profile {m' : Machine ω} (h : (m'.chain.get i).profile = (m.chain.get i).profile)
    (position : Nat) : m'.codeAt Γ i position = m.codeAt Γ i position := by
  simp only [Installation.profile, Prod.mk.injEq] at h
  obtain ⟨htype, -, hclauses⟩ := h
  exact codeAt_congr hclauses htype position

omit [Contents ω] in
theorem codeAt_of_bottom (h : (m.chain.get i).profile = Installation.bottom.profile)
    (position : Nat) : m.codeAt Γ i position = none := by
  simp only [Installation.profile, Prod.mk.injEq] at h
  obtain ⟨-, -, hclauses⟩ := h
  simp [codeAt, hclauses, Installation.bottom]

omit [Contents ω] in
/-- The code at a position is that of the clause that was declared for the command. -/
theorem clause_of_fitting {command : String} {position : Nat}
    {code : ClauseCode ω} (h : m.chain.Fitting Γ)
    (hposition : (m.chain.get i).clauseFor? command = some position)
    (hcode : m.codeAt Γ i position = some code) :
    ∃ clause, (Γ.handlerType (m.chain.get i).handlerType).clauses[position]? = some clause ∧
      clause.command = command ∧ clause.code = code := by
  obtain ⟨e, clause, he, hentry, hclause, hcode⟩ := exists_clause_of_codeAt hcode
  have hcommand : (e.command == command) = true := by
    obtain ⟨hlt, hfirst, -⟩ := List.findIdx?_eq_some_iff_getElem.mp hposition
    rwa [Option.some.inj ((List.getElem?_eq_getElem hlt).symm.trans he)] at hfirst
  refine ⟨clause, hclause, ?_, hcode⟩
  rcases h i with hentries | hmissing
  · rw [hentries, HandlerType.entries, List.getElem?_map, hclause] at he
    obtain rfl := Option.some.inj he
    exact eq_of_beq hcommand
  · exact absurd (hmissing e (List.mem_of_getElem? he)) hentry

end Machine

/-! ### Finished installations -/

namespace Chain

variable {c c' : Chain} {s : Segment}

theorem label_cuts (h : c.Cuts i s c') (j : InstallationId) :
    (c'.get j).label = (c.get j).label := by
  obtain ⟨c₁, c₂, hbefore, hsplit, hafter⟩ := h
  rw [(hafter.get j).1, ← (hbefore.get j).1]
  unfold split at hsplit
  split at hsplit
  · split at hsplit
    · cases hsplit
    · obtain ⟨-, rfl⟩ := Prod.mk.inj (Except.ok.inj hsplit)
      exact get_modify_congr Installation.label _ fun _ => rfl
  · cases hsplit

theorem label_pop? (h : c.pop? = some (i, c')) (j : InstallationId) :
    (c'.get j).label = (c.get j).label := by
  obtain ⟨b, -, heq⟩ := Option.map_eq_some_iff.mp h
  obtain ⟨-, rfl⟩ := Prod.mk.inj heq
  exact get_modify_congr Installation.label _ fun _ => rfl

theorem label_splice (c : Chain) (s : Segment) (j : InstallationId) :
    ((c.splice s).get j).label = (c.get j).label :=
  get_modify_congr Installation.label _ fun _ => rfl

/-- A number that was not issued reads as the bottom installation. -/
theorem label_ne_of_next_le (hwf : c.installations.WellFormed) (h : c.installations.next ≤ i) :
    (c.get i).label ≠ retiredLabel := by
  cases ha : c.installations.find? i with
  | none => simp [get, ha, Installation.bottom, bottomLabel, retiredLabel]
  | some a => exact absurd (Store.lt_next hwf ha) (Nat.not_lt.mpr h)

/-- An installation that was freed is not marked as finished. -/
theorem label_erase (hwf : c.installations.WellFormed) (j : InstallationId)
    (h : (({ c with installations := c.installations.erase i } : Chain).get j).label =
      retiredLabel) : (c.get j).label = retiredLabel := by
  simp only [get, Store.find?_erase hwf] at h
  split at h
  · cases h
  · exact h

end Chain

namespace Machine

variable [Contents ω]

/-- The return clause of the installation has started. -/
def Returned (Γ : Library ω) (m₀ : Machine ω) (n : Nat) (i : InstallationId) : Prop :=
  ∃ k < n, ∃ v, (run Γ k m₀).StartsReturn Γ i v

/-- An installation is marked as finished by the step that starts its return clause. -/
theorem step_retired (hwf : m.chain.installations.WellFormed)
    (hissued : i < m.chain.installations.next)
    (h : ((m.step Γ).chain.get i).label = retiredLabel) :
    (m.chain.get i).label = retiredLabel ∨ ∃ v, m.StartsReturn Γ i v := by
  cases step_moves Γ m with
  | keeps _ _ hchain | arms _ _ _ _ hchain => exact .inl ((hchain.get i).1.symm.trans h)
  | frees _ _ _ _ hchain =>
    rw [hchain] at h
    exact .inl (Chain.label_erase hwf i h)
  | @pushes A a c _ _ hc hchain =>
    rw [hchain, c.get_pushed Installation.label (fun _ _ => rfl), if_neg] at h
    · exact .inl ((hc.get i).1.symm.trans h)
    · rw [hc.next]
      exact Nat.ne_of_lt hissued
  | pops _ hpop hchain =>
    rw [hchain, Chain.label_pop? hpop] at h
    exact .inl h
  | @retires j hj =>
    obtain ⟨c, hpop, hchain⟩ := hj.pops
    by_cases hij : i = j
    · exact .inr (hij ▸ hj.starts)
    · rw [hchain, Chain.retire, Chain.get_modify_of_ne _ hij, Chain.label_pop? hpop] at h
      exact .inl h
  | hides hj => exact .inl ((Chain.label_cuts hj.cuts i).symm.trans h)
  | captures hj => exact .inl ((Chain.label_cuts hj.cuts i).symm.trans h)
  | resumes _ _ hchain | returns _ _ _ hchain =>
    rw [(hchain.get i).1, Chain.label_splice] at h
    exact .inl h

/-- A new installation is not marked as finished, unless it was put on the chain by hand. -/
theorem step_created (hwf : m.chain.installations.WellFormed)
    (hwf' : (m.step Γ).chain.installations.WellFormed)
    (hissued : m.chain.installations.next ≤ i)
    (hword : retiredLabel ≤ (m.step Γ).chain.nextLabel)
    (h : ((m.step Γ).chain.get i).label = retiredLabel) :
    ∃ name clauses next, m.Evaluates (.pushBare retiredLabel name clauses next) := by
  have hunissued : (m.chain.get i).label ≠ retiredLabel := Chain.label_ne_of_next_le hwf hissued
  rcases step_creates Γ hwf with hsame | ⟨nextLabel, a, hchain, -, hmarked⟩
  · exact absurd h (Chain.label_ne_of_next_le hwf' (hsame.next ▸ hissued))
  · have hget := Chain.get_pushed { m.chain with nextLabel } Installation.label
      (fun _ _ => rfl) a i
    rw [hchain] at h hword
    have hretired := hget.symm.trans h
    split at hretired
    · refine (hmarked hretired).resolve_left (Int.not_lt.mpr ?_)
      exact hword
    · exact absurd hretired hunissued

/-- So an installation is marked as finished only if its return clause has started. The labels are
words: the marking one is not reached by counting fresh labels down. -/
theorem run_retired {m₀ : Machine ω} (horders : m₀.Orders)
    (hstart : ∀ i, (m₀.chain.get i).label ≠ retiredLabel) (n : Nat)
    (hword : ∀ k ≤ n, retiredLabel ≤ (run Γ k m₀).chain.nextLabel)
    (hbare : ∀ k < n, ∀ name clauses next,
      ¬ (run Γ k m₀).Evaluates (.pushBare retiredLabel name clauses next))
    (h : ((run Γ n m₀).chain.get i).label = retiredLabel) : m₀.Returned Γ n i := by
  induction n with
  | zero => exact absurd h (hstart i)
  | succ n ih =>
    have hwf := (horders.run (Γ := Γ) n).counts.installations
    have hwf' := (horders.run (Γ := Γ) (n + 1)).counts.installations
    have hlater : m₀.Returned Γ n i → m₀.Returned Γ (n + 1) i :=
      fun ⟨k, hk, hstarts⟩ => ⟨k, Nat.lt_succ_of_lt hk, hstarts⟩
    have hlast := hword (n + 1) (Nat.le_refl _)
    rw [run_succ] at h hwf' hlast
    rcases Nat.lt_or_ge i (run Γ n m₀).chain.installations.next with hissued | hnew
    · rcases step_retired hwf hissued h with h | hstarts
      · exact hlater (ih (fun k hk => hword k (Nat.le_succ_of_le hk))
          (fun k hk => hbare k (Nat.lt_succ_of_lt hk)) h)
      · exact ⟨n, Nat.lt_succ_self n, hstarts⟩
    · obtain ⟨name, clauses, next, hm⟩ := step_created hwf hwf' hnew hlast h
      exact absurd hm (hbare n (Nat.lt_succ_self n) name clauses next)

end Machine

end EffectHandlers
