import EffectHandlers.Computation.Prog
import EffectHandlers.Proofs.Agreement
import Mathlib.Data.Nat.Find
import Mathlib.Order.Monotone.Basic
import Mathlib.Order.WellFounded
import Mathlib.Tactic.Choose
/-!
# Clocks, and the course of an evaluation

## Clocks

Where one run shows another, each of its moments belongs to a moment of the other: the clock of the
other run stands still while nothing of it is to be seen, and then goes on by one. It never stops
for good.
-/

namespace EffectHandlers

/-- A clock that stands still or goes on by one, and that reaches every moment. -/
structure Pace (clock : Nat → Nat) : Prop where
  start : clock 0 = 0
  next : ∀ n, clock (n + 1) = clock n ∨ clock (n + 1) = clock n + 1
  reaches : ∀ t, ∃ n, clock n = t

namespace Pace

variable {clock clock' : Nat → Nat}

theorem monotone (h : Pace clock) : Monotone clock :=
  monotone_nat_of_le_succ fun n => by
    rcases h.next n with hn | hn <;> omega

/-- A clock that passes a moment goes on from it at some time. -/
theorem exists_last (h : Pace clock) {t n : Nat} (hlt : t < clock n) :
    ∃ k < n, clock k = t ∧ clock (k + 1) = t + 1 := by
  induction n with
  | zero =>
    rw [h.start] at hlt
    exact absurd hlt (Nat.not_lt_zero t)
  | succ n ih =>
    by_cases hn : t < clock n
    · obtain ⟨k, hk, hrest⟩ := ih hn
      exact ⟨k, Nat.lt_succ_of_lt hk, hrest⟩
    · refine ⟨n, Nat.lt_succ_self n, ?_⟩
      rcases h.next n with hnext | hnext <;> omega

/-- A clock that is read off another one. -/
theorem comp (h : Pace clock) (h' : Pace clock') : Pace (clock ∘ clock') where
  start := by simp [h.start, h'.start]
  next n := by
    rcases h'.next n with hn | hn
    · exact .inl (by simp [hn])
    · simpa [hn] using h.next (clock' n)
  reaches t := by
    obtain ⟨k, rfl⟩ := h.reaches t
    obtain ⟨n, rfl⟩ := h'.reaches k
    exact ⟨n, rfl⟩

/-- A clock that goes on again and again reaches every moment. -/
theorem of_unbounded (hstart : clock 0 = 0)
    (hnext : ∀ n, clock (n + 1) = clock n ∨ clock (n + 1) = clock n + 1)
    (hgoes : ∀ n, ∃ n', clock n < clock n') : Pace clock where
  start := hstart
  next := hnext
  reaches t := by
    induction t with
    | zero => exact ⟨0, hstart⟩
    | succ t ih =>
      obtain ⟨n, rfl⟩ := ih
      obtain ⟨n', hn'⟩ := hgoes n
      -- the first moment at which the clock has gone on
      have hlater : ∃ k, clock n < clock k := ⟨n', hn'⟩
      classical
      have hfirst := Nat.find_spec hlater
      have hbefore : ∀ k < Nat.find hlater, clock k ≤ clock n :=
        fun k hk => Nat.not_lt.mp (Nat.find_min hlater hk)
      cases hk : Nat.find hlater with
      | zero =>
        rw [hk, hstart] at hfirst
        cases hfirst
      | succ k =>
        rw [hk] at hfirst
        have hle := hbefore k (by omega)
        refine ⟨k + 1, ?_⟩
        rcases hnext k with hk' | hk' <;> omega

end Pace

/-- Each moment of a run belongs to a moment of another one, at some distance to the next moment
that does not grow for ever. So there is a clock. -/
theorem exists_pace {ρ : Type} {closer : ρ → ρ → Prop} (hwf : WellFounded closer)
    (At : Nat → ρ → Nat → Prop) {d : ρ} (hstart : At 0 d 0)
    (hnext : ∀ t d n, At t d n → (∃ d', closer d' d ∧ At t d' (n + 1)) ∨
      ∃ d', At (t + 1) d' (n + 1)) : ∃ clock, Pace clock ∧ ∀ n, ∃ d, At (clock n) d n := by
  have hchoice : ∀ n (p : {p : Nat × ρ // At p.1 p.2 n}), ∃ p' : {p : Nat × ρ // At p.1 p.2 (n + 1)},
      closer p'.1.2 p.1.2 ∧ p'.1.1 = p.1.1 ∨ p'.1.1 = p.1.1 + 1 := by
    rintro n ⟨⟨t, d⟩, hd⟩
    rcases hnext t d n hd with ⟨d', hcloser, hd'⟩ | ⟨d', hd'⟩
    · exact ⟨⟨(t, d'), hd'⟩, .inl ⟨hcloser, rfl⟩⟩
    · exact ⟨⟨(t + 1, d'), hd'⟩, .inr rfl⟩
  choose go hgo using hchoice
  let state : ∀ n, {p : Nat × ρ // At p.1 p.2 n} :=
    fun n => Nat.rec ⟨(0, d), hstart⟩ (fun n p => go n p) n
  have hstep : ∀ n, closer (state (n + 1)).1.2 (state n).1.2 ∧
      (state (n + 1)).1.1 = (state n).1.1 ∨ (state (n + 1)).1.1 = (state n).1.1 + 1 :=
    fun n => hgo n (state n)
  refine ⟨fun n => (state n).1.1, .of_unbounded rfl (fun n => ?_) fun n => ?_,
    fun n => ⟨_, (state n).2⟩⟩
  · rcases hstep n with ⟨-, hn⟩ | hn
    · exact .inl hn
    · exact .inr hn
  · -- by induction on the distance to the next moment
    induction hd : (state n).1.2 using hwf.induction generalizing n with
    | _ d ih =>
      rcases hstep n with ⟨hcloser, hsame⟩ | hlater
      · rw [hd] at hcloser
        obtain ⟨n', hn'⟩ := ih _ hcloser (n + 1) rfl
        exact ⟨n', hsame ▸ hn'⟩
      · exact ⟨n + 1, by omega⟩

/-- Again and again a run arrives at the next moment of another one. On the way there is a point up
to which it shows the moment it has come from, and from which on it shows the next one. So there is
a clock, which shows each moment at which the run arrives. -/
theorem exists_pace_of_turns (At Shows : Nat → Nat → Prop) {k₀ : Nat} (hstart : At 0 k₀)
    (hbefore : ∀ k ≤ k₀, Shows 0 k)
    (hnext : ∀ t k, At t k → ∃ e k', k ≤ e ∧ e < k' ∧ At (t + 1) k' ∧
      (∀ j, k ≤ j → j ≤ e → Shows t j) ∧ ∀ j, e < j → j ≤ k' → Shows (t + 1) j) :
    ∃ clock, Pace clock ∧ (∀ k, Shows (clock k) k) ∧ ∀ t, ∃ k, clock k = t ∧ At t k := by
  classical
  choose turn arrive hle hlt hat hold hnew using hnext
  let at_ : ∀ t, {k : Nat // At t k} :=
    fun t => Nat.rec ⟨k₀, hstart⟩ (fun t p => ⟨arrive t p.1 p.2, hat t p.1 p.2⟩) t
  let e : Nat → Nat := fun t => turn t (at_ t).1 (at_ t).2
  have harrive : ∀ t, (at_ t).1 ≤ e t := fun t => hle t _ _
  have hleave : ∀ t, e t < (at_ (t + 1)).1 := fun t => hlt t _ _
  have hmono : StrictMono e := strictMono_nat_of_lt_succ fun t => (hleave t).trans_le (harrive _)
  have hturns : ∀ k, ∃ t, k ≤ e t := fun k => ⟨k, hmono.le_apply⟩
  -- the clock counts the turns that are over
  let clock : Nat → Nat := fun k => Nat.find (hturns k)
  have hclock : ∀ {k t}, k ≤ e t → (∀ t' < t, e t' < k) → clock k = t := fun hk hpast =>
    (Nat.find_eq_iff (hturns _)).mpr ⟨hk, fun t' ht' => Nat.not_le.mpr (hpast t' ht')⟩
  have hspec : ∀ k, k ≤ e (clock k) := fun k => Nat.find_spec (hturns k)
  have hpast : ∀ k t', t' < clock k → e t' < k :=
    fun k t' ht' => Nat.not_le.mp (Nat.find_min (hturns k) ht')
  have harrived : ∀ t, clock (at_ t).1 = t := by
    intro t
    refine hclock (harrive t) fun t' ht' => ?_
    cases t with
    | zero => cases ht'
    | succ t => exact (hmono.monotone (Nat.le_of_lt_succ ht')).trans_lt (hleave t)
  refine ⟨clock, ⟨hclock (Nat.zero_le _) fun _ h => absurd h (Nat.not_lt_zero _), fun k => ?_,
    fun t => ⟨_, harrived t⟩⟩, fun k => ?_, fun t => ⟨_, harrived t, (at_ t).2⟩⟩
  · by_cases hk : k + 1 ≤ e (clock k)
    · exact .inl (hclock hk fun t' ht' => (hpast k t' ht').trans (Nat.lt_succ_self k))
    · have hnow : e (clock k) = k := by
        have := hspec k
        omega
      refine .inr (hclock ?_ fun t' ht' => ?_)
      · have := hmono (show clock k < clock k + 1 by omega)
        omega
      · have := hmono.monotone (Nat.le_of_lt_succ ht')
        omega
  · by_cases hk : (at_ (clock k)).1 ≤ k
    · exact hold _ _ _ k hk (hspec k)
    · cases ht : clock k with
      | zero =>
        rw [ht] at hk
        exact hbefore k (Nat.le_of_lt (Nat.not_le.mp hk))
      | succ t =>
        rw [ht] at hk
        refine hnew t _ _ k (hpast k t (by omega)) (Nat.le_of_lt (Nat.not_le.mp hk))

end EffectHandlers

/-!
## The course of an evaluation

Evaluations are followed operation by operation, while their cells satisfy a condition. There is one
lemma for each kind of step, which says what is left to follow after it.
-/

namespace EffectHandlers

variable {ω : Type}

/-! ### Code above a handler -/

namespace Frame

/-- Whether this is a frame of code alone, which has no part in where commands go. -/
def isCode : Frame ω → Bool
  | bind _ | catching _ | looping .. => true
  | _ => false

end Frame

section Frames

variable {U F : List (Frame ω)} {i : InstallationId}

@[simp] theorem visible_handling : visible (.handling i :: F) = i :: visible F := rfl

theorem visible_code (hU : ∀ f ∈ U, f.isCode = true) : visible (U ++ F) = visible F := by
  induction U with
  | nil => rfl
  | cons f U ih =>
    have hrest := ih fun f' hf' => hU f' (List.mem_cons_of_mem _ hf')
    have hf := hU f List.mem_cons_self
    cases f with
    | bind | catching | looping => exact hrest
    | handling | answering | plain => cases hf

theorem not_handles_of_code (hU : ∀ f ∈ U, f.isCode = true) :
    ∀ f ∈ U, (!f.handles i) = true := by
  intro f hf
  have hcode := hU f hf
  cases f with
  | bind | catching | looping => rfl
  | handling | answering | plain => cases hcode

theorem within_code (hU : ∀ f ∈ U, f.isCode = true) :
    within i (U ++ .handling i :: F) = U ++ [.handling i] := by
  rw [within, List.takeWhile_append_of_pos (not_handles_of_code hU)]
  simp [Frame.handles]

theorem beneath_code (hU : ∀ f ∈ U, f.isCode = true) :
    beneath i (U ++ .handling i :: F) = F := by
  rw [beneath, List.dropWhile_append_of_pos (not_handles_of_code hU)]
  simp [Frame.handles]

/-- Frames that pass an answer on, or the unit value for it, to the frames below. -/
inductive Relays (F : List (Frame ω)) : List (Frame ω) → Prop
  | base : Relays F F
  | pass {F'} (h : Relays F F') : Relays F (.bind .done :: F')
  | drop {F'} (h : Relays F F') : Relays F (.bind (fun _ => .done .unit) :: F')
  | answer {answer F'} (h : Relays F F') : Relays F (.answering answer :: F')

theorem Relays.trans {F' F'' : List (Frame ω)} (h : Relays F F') (h' : Relays F' F'') :
    Relays F F'' := by
  induction h' with
  | base => exact h
  | pass _ ih => exact .pass ih
  | drop _ ih => exact .drop ih
  | answer _ ih => exact .answer ih

end Frames

namespace Evaluation

variable [Inhabited ω] {Γ : Library ω} {P Q : Store ω → Prop} {R R' : Evaluation ω → Prop}
  {s t : Evaluation ω}

omit [Inhabited ω] in
theorem eq_goOn {φ : Phase ω} (h : s.phase = φ) : s = s.goOn φ := by
  subst h
  rfl

omit [Inhabited ω] in
theorem eq_frames {F : List (Frame ω)} (h : s.frames = F) : s = { s with frames := F } := by
  subst h
  rfl

section Dispatch

variable {U F : List (Frame ω)} {i : InstallationId} {h₀ : Handler} {name : String} {label : Int}
  {code : ClauseCode ω}

omit [Inhabited ω] in
/-- A command goes to the handler right above which its code runs, if it has the label. -/
theorem dispatch_labelled (hframes : s.frames = U ++ .handling i :: F)
    (hU : ∀ f ∈ U, f.isCode = true) (hi : s.installed.find? i = some h₀) (hlabel : h₀.label = label)
    (hreal : label ≠ bottomLabel ∧ label ≠ retiredLabel)
    (hclause : h₀.clauseFor? Γ name = some code) :
    s.dispatch Γ name (.labelled label) = .ok (i, code) := by
  have hhandler : s.handler i = h₀ := by simp [handler, hi]
  have hfound : s.labelled? label = some i := by
    rw [labelled?, innermost?, hframes, visible_code hU]
    simp [hreal.1, hreal.2, hhandler, hlabel]
  simp [dispatch, locate, hfound, hhandler, hclause, bind, Except.bind, pure, Except.pure]

omit [Inhabited ω] in
/-- So does a command that expects a handler of this type. -/
theorem dispatch_labelledOfType {handlerType : String} (hframes : s.frames = U ++ .handling i :: F)
    (hU : ∀ f ∈ U, f.isCode = true) (hi : s.installed.find? i = some h₀) (hlabel : h₀.label = label)
    (hreal : label ≠ bottomLabel ∧ label ≠ retiredLabel) (htype : h₀.handlerType = handlerType)
    (hclause : h₀.clauseFor? Γ name = some code) :
    s.dispatch Γ name (.labelledOfType handlerType label) = .ok (i, code) := by
  have hhandler : s.handler i = h₀ := by simp [handler, hi]
  have hfound : s.labelled? label = some i := by
    rw [labelled?, innermost?, hframes, visible_code hU]
    simp [hreal.1, hreal.2, hhandler, hlabel]
  simp [dispatch, locate, hfound, expectType, htype, hhandler, hclause, bind, Except.bind, pure,
    Except.pure]

omit [Inhabited ω] in
/-- A command goes to the handler right above which its code runs, if it declares the command. -/
theorem dispatch_innermost (hframes : s.frames = U ++ .handling i :: F)
    (hU : ∀ f ∈ U, f.isCode = true) (hi : s.installed.find? i = some h₀)
    (hclause : h₀.clauseFor? Γ name = some code) :
    s.dispatch Γ name .innermost = .ok (i, code) := by
  have hhandler : s.handler i = h₀ := by simp [handler, hi]
  have hfound : s.innermost? (fun h => (h.clauseFor? Γ name).isSome) = some i := by
    rw [innermost?, hframes, visible_code hU]
    simp [hhandler, hclause]
  simp [dispatch, locate, hfound, hhandler, hclause, bind, Except.bind, pure, Except.pure]

end Dispatch

/-- The clause for a command stands in the place of its handler, and gets what was above it. -/
theorem step_invoke {target : Target} {command : Command} {next : Value → Comp ω}
    {i : InstallationId} {clause : ClauseCode ω} {U F : List (Frame ω)} {h₀ : Handler}
    {answer : String} (htakes : clause.takes = true)
    (hdispatch : s.dispatch Γ command.name target = .ok (i, clause))
    (hi : s.installed.find? i = some h₀) (hanswer : (Γ.handlerType h₀.handlerType).answer = answer)
    (hframes : s.frames = U ++ .handling i :: F) (hU : ∀ f ∈ U, f.isCode = true) :
    (s.goOn (.eval (.invoke target command next))).step Γ =
      ({ s with
        frames := .answering answer :: F
        resumptions :=
          (s.resumptions.insert (.context answer (.bind next :: U ++ [.handling i]))).2 } :
        Evaluation ω).goOn
          (.eval (clause.body h₀.cell command.payload s.resumptions.next)) := by
  have hdispatch' : (s.goOn (.eval (.invoke target command next))).dispatch Γ command.name target =
      .ok (i, clause) := hdispatch
  have hhandler : ∀ phase, ((s.goOn phase).push (.bind next)).handler i = h₀ := by
    intro phase
    simp [handler, push, goOn, hi]
  have hcode : ∀ f ∈ Frame.bind next :: U, f.isCode = true := by
    intro f hf
    rcases List.mem_cons.mp hf with rfl | hf
    · rfl
    · exact hU f hf
  have hbeneath := beneath_code (i := i) (F := F) hcode
  have hwithin := within_code (i := i) (F := F) hcode
  show (s.goOn (.eval (.invoke target command next))).eval Γ (.invoke target command next) = _
  cases clause with
  | resumptive code | noManage code =>
    simp only [eval, hdispatch', runClause, hhandler, hanswer]
    simp only [List.cons_append] at hbeneath hwithin
    simp only [push, goOn, hframes, hbeneath, hwithin, ClauseCode.takes, ClauseCode.body, if_true,
      List.cons_append]
  | noResume code | plain code => cases htakes

/-- An evaluation gets to a state in which it satisfies `R`, and its cells satisfy a condition all
the way. -/
inductive Leads (Γ : Library ω) (P : Store ω → Prop) (R : Evaluation ω → Prop) :
    Evaluation ω → Prop
  | here {s : Evaluation ω} (hP : P s.cells) (h : R s) : Leads Γ P R s
  | next {s : Evaluation ω} (hP : P s.cells) (h : Leads Γ P R (s.step Γ)) : Leads Γ P R s

/-- An evaluation gets to a state in which it satisfies `R`. Up to a step its cells satisfy one
condition, and from then on another one. -/
def Turns (Γ : Library ω) (P Q : Store ω → Prop) (R : Evaluation ω → Prop) : Evaluation ω → Prop :=
  Leads Γ P fun s => Leads Γ Q R (s.step Γ)

namespace Leads

theorem trans (h : Leads Γ P R s) (h' : ∀ t, R t → Leads Γ P R' t) : Leads Γ P R' s := by
  induction h with
  | here _ hR => exact h' _ hR
  | next hP _ ih => exact .next hP ih

theorem of_step (hP : P s.cells) (hstep : s.step Γ = t) (h : Leads Γ P R t) :
    Leads Γ P R s := .next hP (hstep ▸ h)

/-- Where both conditions hold, any step may be the one on which something turns. -/
theorem turns (hP : P s.cells) (hstep : s.step Γ = t) (h : Leads Γ Q R t) : Turns Γ P Q R s :=
  .here hP (hstep ▸ h)

/-! ### Operations -/

variable {F : List (Frame ω)} {v : Value}

theorem read {c : CellId} {x : ω} {next : ω → Comp ω} (hP : P s.cells)
    (hx : s.cells.find? c = some x) (h : Leads Γ P R (s.goOn (.eval (next x)))) :
    Leads Γ P R (s.goOn (.eval (.read c next))) :=
  of_step hP (by simp [step, eval, goOn, hx]) h

theorem retain {o : Owned} {next : Comp ω} (hP : P s.cells)
    (h : Leads Γ P R (s.goOn (.eval next))) : Leads Γ P R (s.goOn (.eval (.retain o next))) :=
  of_step hP rfl h

theorem release {os : List Owned} {next : Comp ω} (hP : P s.cells)
    (h : Leads Γ P R (s.goOn (.eval next))) : Leads Γ P R (s.goOn (.eval (.release os next))) :=
  of_step hP rfl h

theorem retainAll {os : List Owned} {k : Unit → Comp ω} (hP : P s.cells)
    (h : Leads Γ P R (s.goOn (.eval (k ())))) :
    Leads Γ P R (s.goOn (.eval (Prog.retainAll os k))) := by
  induction os with
  | nil => exact h
  | cons o os ih => exact retain hP ih

theorem alloc {x : ω} {next : CellId → Comp ω} (hP : P s.cells)
    (h : Leads Γ P R (({ s with cells := (s.cells.insert x).2 } : Evaluation ω).goOn
      (.eval (next s.cells.next)))) : Leads Γ P R (s.goOn (.eval (.alloc x next))) :=
  of_step hP rfl h

theorem write {c : CellId} {x : ω} {next : Comp ω} (hP : P s.cells)
    (h : Leads Γ P R (({ s with cells := s.cells.modify c fun _ => x } : Evaluation ω).goOn
      (.eval next))) : Leads Γ P R (s.goOn (.eval (.write c x next))) :=
  of_step hP rfl h

/-- A read on which something turns. -/
theorem read_turns {c : CellId} {x : ω} {next : ω → Comp ω} (hP : P s.cells)
    (hx : s.cells.find? c = some x) (h : Leads Γ Q R (s.goOn (.eval (next x)))) :
    Turns Γ P Q R (s.goOn (.eval (.read c next))) :=
  turns hP (by simp [step, eval, goOn, hx]) h

/-- A write on which something turns. -/
theorem write_turns {c : CellId} {x : ω} {next : Comp ω} (hP : P s.cells)
    (h : Leads Γ Q R (({ s with cells := s.cells.modify c fun _ => x } : Evaluation ω).goOn
      (.eval next))) : Turns Γ P Q R (s.goOn (.eval (.write c x next))) :=
  turns hP rfl h

theorem scope {os : List Owned} {body : Comp ω} {next : Value → Comp ω} (hP : P s.cells)
    (h : Leads Γ P R ((s.push (.bind next)).goOn (.eval body))) :
    Leads Γ P R (s.goOn (.eval (.scope os body next))) :=
  of_step hP rfl h

theorem loop {seed : Value} {body next : Value → Comp ω} (hP : P s.cells)
    (h : Leads Γ P R ((s.push (.looping body next)).goOn (.eval (body seed)))) :
    Leads Γ P R (s.goOn (.eval (.loop seed body next))) :=
  of_step hP rfl h

theorem closure {os : List Owned} {body : Value → Comp ω} {next : ClosureId → Comp ω}
    (hP : P s.cells)
    (h : Leads Γ P R (({ s with closures := (s.closures.insert body).2 } : Evaluation ω).goOn
      (.eval (next s.closures.next)))) :
    Leads Γ P R (s.goOn (.eval (.closure os body next))) :=
  of_step hP rfl h

theorem function {answer : String} {f : ClosureId} {body : Value → Comp ω}
    {next : ResumptionId → Comp ω} (hP : P s.cells) (hf : s.closures.find? f = some body)
    (h : Leads Γ P R (({ s with
        closures := s.closures.erase f
        resumptions := (s.resumptions.insert (.function answer body)).2 } : Evaluation ω).goOn
      (.eval (next s.resumptions.next)))) :
    Leads Γ P R (s.goOn (.eval (.function answer f next))) :=
  of_step hP (by simp [step, eval, goOn, hf]) h

theorem take {r : ResumptionId} {k : Continuation ω} {next : ResumptionId → Comp ω}
    (hP : P s.cells) (hr : s.resumptions.find? r = some k)
    (h : Leads Γ P R (({ s with resumptions := ((s.resumptions.erase r).insert k).2 } :
        Evaluation ω).goOn (.eval (next s.resumptions.next)))) :
    Leads Γ P R (s.goOn (.eval (.take r next))) := by
  refine of_step hP ?_ h
  simp only [step, eval, goOn, hr]
  rfl

theorem tailResume {r : ResumptionId} {k : Continuation ω} {next : Comp ω} (hP : P s.cells)
    (hr : s.resumptions.find? r = some k) (hpending : s.pending = none)
    (h : Leads Γ P R (({ s with
        resumptions := s.resumptions.erase r, pending := some (k, v) } : Evaluation ω).goOn
      (.eval next))) : Leads Γ P R (s.goOn (.eval (.tailResume r v next))) :=
  of_step hP (by simp [step, eval, goOn, hr, hpending, taken]) h

theorem resume {r : ResumptionId} {k : Continuation ω} {next : Value → Comp ω} (hP : P s.cells)
    (hr : s.resumptions.find? r = some k)
    (h : Leads Γ P R (((s.taken r).push (.bind next)).goOn (.resume k v))) :
    Leads Γ P R (s.goOn (.eval (.resume r v next))) :=
  of_step hP (by simp [step, eval, goOn, hr, taken, push]) h

theorem record {e : Event} {next : Comp ω} (hP : P s.cells)
    (h : Leads Γ P R (({ s with actions := if e.isAction then e :: s.actions else s.actions } :
      Evaluation ω).goOn (.eval next))) :
    Leads Γ P R (s.goOn (.eval (.record e next))) :=
  of_step hP rfl h

theorem freshLabel {next : Value → Comp ω} (hP : P s.cells)
    (h : Leads Γ P R (({ s with nextLabel := s.nextLabel - 1 } : Evaluation ω).goOn
      (.eval (next (.int s.nextLabel))))) :
    Leads Γ P R (s.goOn (.eval (.ask .freshLabel next))) :=
  of_step hP rfl h

/-- A handler gets a label that was handed out, and its type is declared. -/
theorem handle {i : Installing} {body : ReferenceId → Comp ω} {next : Value → Comp ω}
    {label nextLabel : Int} {declared : List String} (hP : P s.cells)
    (hlabel : s.chooseLabel i.label = .ok (label, nextLabel))
    (hdeclare : s.declare i.handlerType (Γ.handlerType i.handlerType) = .ok declared)
    (h : Leads Γ P R (({ s with
        frames := .handling s.installed.next :: .bind next :: s.frames
        installed := (s.installed.insert ⟨label, i.handlerType, i.handlerType, i.handler⟩).2
        references := (s.references.insert s.installed.next).2
        nextLabel, declared } : Evaluation ω).goOn (.eval (body s.references.next)))) :
    Leads Γ P R (s.goOn (.eval (.handle i body next))) := by
  refine of_step hP ?_ h
  have hlabel' : (s.push (.bind next)).chooseLabel i.label = .ok (label, nextLabel) := hlabel
  have hdeclare' : (s.push (.bind next)).declare i.handlerType (Γ.handlerType i.handlerType) =
      .ok declared := hdeclare
  show (s.push (.bind next)).install Γ i body = _
  simp only [install, hlabel', hdeclare']
  rfl

/-- A command whose clause gets the continuation. -/
theorem invoke {target : Target} {command : Command} {next : Value → Comp ω} {i : InstallationId}
    {code : CellId → Value → ResumptionId → Comp ω} {U : List (Frame ω)} {h₀ : Handler}
    {answer : String} (hP : P s.cells)
    (hdispatch : s.dispatch Γ command.name target = .ok (i, .resumptive code))
    (hi : s.installed.find? i = some h₀) (hanswer : (Γ.handlerType h₀.handlerType).answer = answer)
    (hframes : s.frames = U ++ .handling i :: F) (hU : ∀ f ∈ U, f.isCode = true)
    (h : Leads Γ P R (({ s with
        frames := .answering answer :: F
        resumptions :=
          (s.resumptions.insert (.context answer (.bind next :: U ++ [.handling i]))).2 } :
        Evaluation ω).goOn (.eval (code h₀.cell command.payload s.resumptions.next)))) :
    Leads Γ P R (s.goOn (.eval (.invoke target command next))) :=
  of_step hP (step_invoke rfl hdispatch hi hanswer hframes hU) h

/-- A command whose clause gets the continuation, where the handler is only borrowed. -/
theorem invoke_noManage {target : Target} {command : Command} {next : Value → Comp ω}
    {i : InstallationId} {code : CellId → Value → ResumptionId → Comp ω} {U : List (Frame ω)}
    {h₀ : Handler} {answer : String} (hP : P s.cells)
    (hdispatch : s.dispatch Γ command.name target = .ok (i, .noManage code))
    (hi : s.installed.find? i = some h₀) (hanswer : (Γ.handlerType h₀.handlerType).answer = answer)
    (hframes : s.frames = U ++ .handling i :: F) (hU : ∀ f ∈ U, f.isCode = true)
    (h : Leads Γ P R (({ s with
        frames := .answering answer :: F
        resumptions :=
          (s.resumptions.insert (.context answer (.bind next :: U ++ [.handling i]))).2 } :
        Evaluation ω).goOn (.eval (code h₀.cell command.payload s.resumptions.next)))) :
    Leads Γ P R (s.goOn (.eval (.invoke target command next))) :=
  of_step hP (step_invoke rfl hdispatch hi hanswer hframes hU) h

/-! ### Values -/

theorem done (hP : P s.cells) (h : Leads Γ P R (s.goOn (.ret v))) :
    Leads Γ P R (s.goOn (.eval (.done v))) := of_step hP rfl h

theorem bind {next : Value → Comp ω} (hP : P s.cells) (hframes : s.frames = .bind next :: F)
    (h : Leads Γ P R (({ s with frames := F } : Evaluation ω).goOn (.eval (next v)))) :
    Leads Γ P R (s.goOn (.ret v)) :=
  of_step hP (by simp [step, give, goOn, hframes]) h

/-- The loop goes round again. -/
theorem again {body next : Value → Comp ω} (hP : P s.cells)
    (hframes : s.frames = .looping body next :: F)
    (h : Leads Γ P R (s.goOn (.eval (body v)))) :
    Leads Γ P R (s.goOn (.ret (Comp.again v))) := by
  refine of_step hP ?_ h
  simp only [step, give, goOn, hframes, Comp.again, push]

/-- The loop ends. -/
theorem stop {body next : Value → Comp ω} (hP : P s.cells)
    (hframes : s.frames = .looping body next :: F)
    (h : Leads Γ P R (({ s with frames := F } : Evaluation ω).goOn (.eval (next v)))) :
    Leads Γ P R (s.goOn (.ret (Comp.stop v))) := by
  refine of_step hP ?_ h
  simp only [step, give, goOn, hframes, Comp.stop]

/-- The body of a handler has ended, and its return clause comes next. -/
theorem returning {i : InstallationId} {h₀ : Handler} (hP : P s.cells)
    (hframes : s.frames = .handling i :: F) (hi : s.installed.find? i = some h₀)
    (h : Leads Γ P R (({ s with
        frames := .answering (Γ.handlerType h₀.handlerType).answer :: F
        installed := s.installed.modify i fun x => { x with label := retiredLabel } } :
      Evaluation ω).goOn (.eval ((Γ.handlerType h₀.handlerType).onReturn h₀.cell v)))) :
    Leads Γ P R (s.goOn (.ret v)) :=
  of_step hP (by simp [step, give, goOn, hframes, handler, hi, push]) h

theorem answering {answer : String} (hP : P s.cells) (hframes : s.frames = .answering answer :: F)
    (hpending : s.pending = none)
    (h : Leads Γ P R (({ s with frames := F } : Evaluation ω).goOn (.ret v))) :
    Leads Γ P R (s.goOn (.ret v)) :=
  of_step hP (by simp [step, give, goOn, hframes, hpending]) h

/-- Where code has answered, the tail resume that waits is next. -/
theorem answering_pending {answer : String} {k : Continuation ω} {w : Value} (hP : P s.cells)
    (hframes : s.frames = .answering answer :: F) (hpending : s.pending = some (k, w))
    (hanswer : k.answer = answer)
    (h : Leads Γ P R (({ s with frames := F, pending := none } : Evaluation ω).goOn
      (.resume k w))) : Leads Γ P R (s.goOn (.ret v)) :=
  of_step hP (by simp [step, give, goOn, hframes, hpending, hanswer]) h

theorem enter_context {answer : String} {frames : List (Frame ω)} (hP : P s.cells)
    (h : Leads Γ P R (({ s with frames := frames ++ s.frames } : Evaluation ω).goOn (.ret v))) :
    Leads Γ P R (s.goOn (.resume (.context answer frames) v)) := of_step hP rfl h

theorem enter_function {answer : String} {body : Value → Comp ω} (hP : P s.cells)
    (h : Leads Γ P R ((s.push (.answering answer)).goOn (.eval (body v)))) :
    Leads Γ P R (s.goOn (.resume (.function answer body) v)) := of_step hP rfl h

theorem finished (hP : P s.cells) (hframes : s.frames = [])
    (h : Leads Γ P R (s.goOn (.finished v))) : Leads Γ P R (s.goOn (.ret v)) :=
  of_step hP (by simp [step, give, goOn, hframes]) h

/-- An answer gets to the frames below. -/
theorem relayed {F' : List (Frame ω)} (hP : P s.cells) (h : Relays F F') (hframes : s.frames = F')
    (hpending : s.pending = none)
    (hR : ∀ w, Leads Γ P R (({ s with frames := F } : Evaluation ω).goOn (.ret w))) :
    Leads Γ P R (s.goOn (.ret v)) := by
  induction h generalizing s v with
  | base =>
    subst hframes
    exact hR v
  | pass _ ih | drop _ ih => exact .bind hP hframes (.done hP (ih hP rfl hpending hR))
  | answer _ ih => exact .answering hP hframes hpending (ih hP rfl hpending hR)

end Leads

/-! ### Clocks -/

theorem Leads.exists_steps (h : Leads Γ P R s) :
    ∃ d, R ((step Γ)^[d] s) ∧ ∀ j ≤ d, P ((step Γ)^[j] s).cells := by
  induction h with
  | here hP hR =>
    refine ⟨0, hR, fun j hj => ?_⟩
    obtain rfl := Nat.le_zero.mp hj
    exact hP
  | next hP _ ih =>
    obtain ⟨d, hd, hsteps⟩ := ih
    refine ⟨d + 1, hd, fun j hj => ?_⟩
    cases j with
    | zero => exact hP
    | succ j => exact hsteps j (Nat.le_of_succ_le_succ hj)

/-- An evaluation that arrives again and again at the next moment of something that its cells show
has a clock for it. -/
theorem exists_pace_of_turns (At : Nat → Evaluation ω → Prop) (Shows : Nat → Store ω → Prop)
    {s₀ : Evaluation ω} (hstart : Leads Γ (Shows 0) (At 0) s₀)
    (hnext : ∀ t s, At t s → Turns Γ (Shows t) (Shows (t + 1)) (At (t + 1)) s) :
    ∃ clock, Pace clock ∧ (∀ k, Shows (clock k) ((step Γ)^[k] s₀).cells) ∧
      ∀ t, ∃ k, clock k = t ∧ At t ((step Γ)^[k] s₀) := by
  obtain ⟨k₀, hs, hbefore⟩ := hstart.exists_steps
  refine EffectHandlers.exists_pace_of_turns (fun t k => At t ((step Γ)^[k] s₀))
    (fun t k => Shows t ((step Γ)^[k] s₀).cells) hs hbefore fun t k hk => ?_
  obtain ⟨d, hafter, hd⟩ := Leads.exists_steps (hnext t _ hk)
  obtain ⟨d', hs', hd'⟩ := hafter.exists_steps
  have hplus : ∀ j, (step Γ)^[j] ((step Γ)^[k] s₀) = (step Γ)^[j + k] s₀ :=
    fun j => (Function.iterate_add_apply _ j k s₀).symm
  have hplus' : ∀ j, (step Γ)^[j] (step Γ ((step Γ)^[d] ((step Γ)^[k] s₀))) =
      (step Γ)^[j + (d + k + 1)] s₀ := by
    intro j
    rw [hplus, ← Function.iterate_succ_apply' (step Γ), ← Function.iterate_add_apply]
  refine ⟨d + k, d' + (d + k + 1), by omega, by omega, ?_, fun j hkj hj => ?_, fun j hj hjd => ?_⟩
  · rw [hplus'] at hs'
    exact hs'
  · obtain ⟨i, rfl⟩ := Nat.exists_eq_add_of_le' hkj
    have := hd i (by omega)
    rwa [hplus] at this
  · obtain ⟨i, rfl⟩ := Nat.exists_eq_add_of_le' (show d + k + 1 ≤ j by omega)
    have := hd' i (by omega)
    rwa [hplus'] at this

end Evaluation

variable [Contents ω] {Γ : Library ω}

/-- A thread that runs a careful program shows all states of its evaluation, one after the
other. -/
theorem Machine.exists_pace_shows {settings : SettingsSlot} {cells : List ω}
    {statics : List Owned} {main : Comp ω} (hΓ : Γ.Orderly) (hmain : main.Orderly)
    (hsize : settings.use.1.stackSize < StackPool.addressSpace)
    (hcareful : (start settings cells statics main).Careful Γ) :
    ∃ clock, Pace clock ∧ ∀ n, ∃ d, (start settings cells statics main).Shows Γ n
      ((Evaluation.step Γ)^[clock n] (Evaluation.start cells main)) d := by
  have htidy := tidy_start settings cells statics main
  have hshows := shows_start (Γ := Γ) cells statics hmain hsize
  generalize start settings cells statics main = m at *
  have hwf : WellFounded (Prod.Lex (· < · : Nat → Nat → Prop) (· < · : Nat → Nat → Prop)) :=
    WellFounded.prod_lex Nat.lt_wfRel.wf Nat.lt_wfRel.wf
  obtain ⟨clock, hpace, hclock⟩ := exists_pace hwf
    (fun t d n => m.Shows Γ n ((Evaluation.step Γ)^[t] (Evaluation.start cells main)) d.1 ∧
      d.2 = (m.run Γ n).burden) (d := (1, (m.run Γ 0).burden)) ⟨hshows, rfl⟩ (by
    rintro t ⟨d, b⟩ n ⟨hd, rfl⟩
    rcases hd.step hΓ htidy hcareful with ⟨d', hcloser, hd'⟩ | ⟨d', hd'⟩
    · refine .inl ⟨(d', _), ?_, hd', rfl⟩
      rcases hcloser with hless | ⟨rfl, hless⟩
      · exact .left _ _ hless
      · exact .right _ hless
    · refine .inr ⟨(d', _), ?_, rfl⟩
      rw [Function.iterate_succ_apply']
      exact hd')
  exact ⟨clock, hpace, fun n => by
    obtain ⟨d, hd, -⟩ := hclock n
    exact ⟨d.1, hd⟩⟩

end EffectHandlers
