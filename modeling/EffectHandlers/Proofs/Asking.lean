import EffectHandlers.Proofs.Answering
import EffectHandlers.Proofs.Discarding
import EffectHandlers.Proofs.Following
import EffectHandlers.Proofs.Producing
/-!
# Generators run while they are asked

## Generators run for those who ask them

The code that asks a generator takes its state out of the cell, resumes what it rests at, and puts
the next state there. What is dropped is the continuation of a generator that rests. So each action
of a family is enacted.
-/

namespace EffectHandlers.Generator

open Evaluation (Leads Turns)

variable {Γ : Library Content} {a a' : Producer Γ} {b b' : Behaviour Γ}
  {blocks blocks' : List (Block (Behaviour Γ))} {v : Value} {r r' : Family Γ} {i j : Nat}
  {g : CellId} {s s' : Evaluation Content} {ρ ρ' : Nat → ResumptionId}
  {ids ids' : Nat → InstallationId} {p : Progress Γ}

/-! ### States -/

theorem ask_eq (g : CellId) (k : Option Value → Comp Content) :
    ∃ f, Generator.ask g k = .read g f ∧
      (∀ x, holdsState x = false → f x = .write g (.value .absent) (k none)) ∧
      ∀ v ρ, f (.value (.present (.pair v (.resumption ρ)))) =
        .write g (.value .absent) (.resume ρ .unit fun state =>
          .write g (.value state) (k (some v))) := by
  refine ⟨_, rfl, fun x hx => ?_, fun v ρ => rfl⟩
  cases x with
  | value w =>
    cases w with
    | present w =>
      cases w with
      | pair v w =>
        cases w with
        | resumption ρ => cases hx
        | _ => rfl
      | _ => rfl
    | _ => rfl
  | _ => rfl

theorem drop_eq (g : CellId) (k : Unit → Comp Content) :
    ∃ f, Generator.drop g k = .read g f ∧ (∀ x, holdsState x = false → f x = k ()) ∧
      ∀ v ρ, f (.value (.present (.pair v (.resumption ρ)))) =
        .write g (.value .absent) (.take ρ fun ρ' =>
          .release (v.owned ++ [.resumption ρ']) (k ())) := by
  refine ⟨_, rfl, fun x hx => ?_, fun v ρ => rfl⟩
  cases x with
  | value w =>
    cases w with
    | present w =>
      cases w with
      | pair v w =>
        cases w with
        | resumption ρ => cases hx
        | _ => rfl
      | _ => rfl
    | _ => rfl
  | _ => rfl

namespace Keeps

/-- The state of a generator that rests is taken out of its cell. -/
theorem vacate (resumptions : Store (Continuation Content)) (h : Keeps r s ρ ids)
    (hsound : r.Sound) (ha : r.producers[j]? = some a) (hcell : a.cell = some g)
    (hp : a.progress = .resting v b blocks) (hrests : ∀ ρ, stateOf ρ p = .absent)
    (hresumptions : ∀ k x, k ≠ ρ j → s.resumptions.find? k = some x → resumptions.find? k = some x)
    (hwf : resumptions.WellFormed) :
    Keeps (r.modify j (.goOn p))
      { s with cells := s.cells.modify g fun _ => .value .absent, resumptions } ρ ids := by
  refine
    { each := fun i a' ha' => ?_
      others := fun k x hx hstate => ?_
      nextCell := h.nextCell
      nextLabel := ?_
      pending := h.pending
      cells := Store.wellFormed_modify h.cells _ _
      resumptions := hwf
      installed := h.installed }
  · rcases of_getElem?_modify ha' with ⟨rfl, a₀, ha₀, rfl⟩ | ⟨hi, ha'⟩
    · obtain rfl := Option.some.inj (ha.symm.trans ha₀)
      refine ⟨fun k hk => ?_, fun v' b' blocks' hp' => ?_, fun _ => ?_⟩
      · obtain rfl := Option.some.inj (hcell.symm.trans hk)
        show Store.find? (s.cells.modify g _) g = some (.value (stateOf _ p))
        rw [Store.find?_modify, if_pos rfl, (h.each _ a ha).state g hcell, hrests]
        rfl
      · have hnot := hrests 0
        obtain rfl : p = .resting v' b' blocks' := hp'
        cases hnot
      · exact (h.each _ a ha).handled (by rw [hp]; rfl)
    · refine (h.each i a' ha').mono (fun k hk => ?_) (fun v' b' blocks' hp' k hk => ?_)
        fun _ _ hh₀ => hh₀
      · show Store.find? (s.cells.modify g _) k = _
        rw [Store.find?_modify, if_neg]
        rintro rfl
        exact hi (hsound.housed.distinct _ _ a a' _ ha ha' hcell hk)
      · exact hresumptions _ k (h.resumption_ne ha' ha hp' hp (Ne.symm hi)) hk
  · have hx' : (s.cells.modify g fun _ => .value .absent).find? k = some x := hx
    rw [Store.find?_modify] at hx'
    split at hx'
    · obtain ⟨y, -, rfl⟩ := Option.map_eq_some_iff.mp hx'
      cases hstate
    · obtain ⟨i, a', ha', hk⟩ := h.others k x hx' hstate
      refine ⟨i, _, exists_getElem?_modify ha', ?_⟩
      split
      · exact hk
      · exact hk
  · show s.nextLabel = label (r.producers.modify _ _).length
    rw [List.length_modify]
    exact h.nextLabel

variable {next : Option Value → Behaviour Γ} {next' : Behaviour Γ}

/-- A generator that rests goes on for the code that asks it. -/
theorem asks (h : Keeps r s ρ ids) (hsound : r.Sound) (hfind : r.find? g = some (j, a))
    (hp : a.progress = .resting v b' blocks') : Acts r s ids (.ask g next) blocks := by
  unfold Acts
  generalize hr : r.act (.ask g next) blocks = r'
  obtain ⟨ha, hcell⟩ := Family.find?_eq_some hfind
  have hkept := h.each j a ha
  have hstate := hkept.state g hcell
  rw [hp] at hstate
  have hrest := hkept.rest v b' blocks' hp
  have hkeeps := h.vacate (p := .running) (s.resumptions.erase (ρ j)) hsound ha hcell hp
    (fun _ => rfl) (fun k x hk hx => by rwa [Store.find?_erase h.resumptions, if_neg hk])
    (Store.wellFormed_erase h.resumptions _)
  -- the code that asks waits below the body
  have hkeeps' : Keeps r' { s with
      frames := frames (home j a.item) blocks' ++ under ids r'.calls
      cells := s.cells.modify g fun _ => .value .absent
      resumptions := s.resumptions.erase (ρ j)
      phase := .eval (b'.code (home j a.item)) } ρ ids := by
    subst hr
    simp only [Family.act, hfind, hp]
    exact { hkeeps with }
  have hcalls : r'.calls = ⟨j, a.item, .value g v next, blocks⟩ :: r.calls ∧
      r'.phase = .running b' blocks' := by
    subst hr
    simp only [Family.act, hfind, hp, and_self]
  have henacted : Enacted r' { s with
      frames := frames (home j a.item) blocks' ++ under ids r'.calls
      cells := s.cells.modify g fun _ => .value .absent
      resumptions := s.resumptions.erase (ρ j)
      phase := .eval (b'.code (home j a.item)) } := by
    have hhome : homeOf r'.calls = home j a.item := by rw [hcalls.1]; rfl
    exact .running hcalls.2 hkeeps' (by rw [hhome]) (by rw [hhome])
  obtain ⟨f, hf, -, hstates⟩ := ask_eq g fun x => (next x).code (homeOf r.calls)
  have hcode : (Behaviour.ask g next).code (homeOf r.calls) = .read g f := hf
  rw [hcode]
  refine .read h.shown hstate ?_
  rw [stateOf, hstates]
  refine Leads.write_turns h.shown (.resume hkeeps'.shown hrest (.enter_context hkeeps'.shown
    (.bind hkeeps'.shown rfl (.here hkeeps'.shown ?_))))
  have hframes : frames (home j a.item) blocks' ++ [.handling (ids j)] ++ (.bind (fun state =>
      .write g (.value state) ((next (some v)).code (homeOf r.calls))) ::
        (frames (homeOf r.calls) blocks ++ under ids r.calls)) =
      frames (home j a.item) blocks' ++ under ids r'.calls := by
    rw [hcalls.1, under_cons, List.append_assoc]
    rfl
  rw [← hframes] at henacted
  exact henacted

/-- What a generator rests at is dropped. -/
theorem drops (h : Keeps r s ρ ids) (hsound : r.Sound) (hfind : r.find? g = some (j, a))
    (hp : a.progress = .resting v b' blocks') : Acts r s ids (.drop g next') blocks := by
  have hact : r.act (.drop g next') blocks = (r.modify j (.goOn .dropped)).goOn next' blocks := by
    simp only [Family.act, hfind, hp]
  unfold Acts
  rw [hact]
  obtain ⟨ha, hcell⟩ := Family.find?_eq_some hfind
  have hkept := h.each j a ha
  have hstate := hkept.state g hcell
  rw [hp] at hstate
  have hrest := hkept.rest v b' blocks' hp
  let κ := continuation j a.item (ids j) b' blocks'
  have hwf := Store.wellFormed_erase h.resumptions (ρ j)
  have hkeeps := h.vacate (p := .dropped) ((s.resumptions.erase (ρ j)).insert κ).2 hsound ha hcell
    hp (fun _ => rfl) (fun k x hk hx => by
      have hne : k ≠ (s.resumptions.erase (ρ j)).next :=
        Nat.ne_of_lt (Store.lt_next h.resumptions hx)
      rwa [Store.find?_insert, if_neg hne, Store.find?_erase h.resumptions, if_neg hk])
    (Store.wellFormed_insert hwf κ)
  have henacted : Enacted ((r.modify j (.goOn .dropped)).goOn next' blocks) _ := hkeeps.enacted rfl
  obtain ⟨f, hf, -, hstates⟩ := drop_eq g fun _ => next'.code (homeOf r.calls)
  have hcode : (Behaviour.drop g next').code (homeOf r.calls) = .read g f := hf
  rw [hcode]
  refine .read h.shown hstate ?_
  rw [stateOf, hstates]
  exact Leads.write_turns h.shown (.take hkeeps.shown hrest (.release hkeeps.shown
    (.here hkeeps.shown henacted)))

/-- The code goes on at once. -/
theorem quiet (h : Keeps r s ρ ids) (h' : Keeps r s' ρ ids)
    (hact : r.act b blocks = r.goOn b' blocks')
    (hstep : (({ s with frames := frames (homeOf r.calls) blocks ++ under ids r.calls } :
        Evaluation Content).goOn (.eval (b.code (homeOf r.calls)))).step Γ =
      ({ s' with frames := frames (homeOf r.calls) blocks' ++ under ids r.calls } :
        Evaluation Content).goOn (.eval (b'.code (homeOf r.calls)))) : Acts r s ids b blocks := by
  unfold Acts
  rw [hact]
  exact .turns h.shown hstep (.here h'.shown (h'.enacted rfl))

/-- A block has ended. -/
theorem after (h : Keeps r s ρ ids) (hafter : Block.after v blocks = some (b', blocks')) :
    Acts r s ids (.done v) blocks := by
  have hact : r.act (.done v) blocks = r.goOn b' blocks' := by
    simp only [Family.act, hafter]
  unfold Acts
  rw [hact]
  exact .turns h.shown rfl (.after_block h.shown rfl hafter (.here h.shown (h.enacted rfl)))

/-- The program ends. -/
theorem finishes (h : Keeps r s ρ ids) (hcalls : r.calls = []) : Acts r s ids (.done v) [] := by
  have hact : r.act (.done v) [] = { r with phase := .finished v } := by
    simp only [Family.act, Block.after, hcalls]
  unfold Acts
  rw [hact, hcalls]
  have hshown : ({ r with phase := .finished v } : Family Γ).Shown s.cells := h.shown
  exact .turns h.shown rfl (.finished hshown rfl (.here hshown (.finished rfl hshown rfl)))

/-- Where no generator rests, no state is found. -/
theorem not_state (h : Keeps r s ρ ids) (hsound : r.Sound)
    (hempty : ∀ j a, r.find? g = some (j, a) → ∀ ρ, stateOf ρ a.progress = .absent) {x : Content}
    (hx : s.cells.find? g = some x) : holdsState x = false := by
  by_contra hstate
  obtain ⟨j, a, ha, hcell⟩ := h.others g x hx (by simpa using hstate)
  cases hfind : r.find? g with
  | none => exact Family.find?_eq_none hfind ha hcell
  | some found =>
    obtain ⟨i, a'⟩ := found
    obtain ⟨ha', hcell'⟩ := Family.find?_eq_some hfind
    obtain rfl := hsound.housed.distinct _ _ _ _ _ ha ha' hcell hcell'
    obtain rfl := Option.some.inj (ha.symm.trans ha')
    obtain rfl := Option.some.inj (hx.symm.trans ((h.each _ a ha).state g hcell))
    rw [hempty _ a hfind] at hstate
    exact hstate rfl

/-- The code is told that there is no value. -/
theorem misses (h : Keeps r s ρ ids) (h' : Keeps r' s ρ ids) (hcalls : r'.calls = r.calls)
    (hact : r.act (.ask g next) blocks = r'.goOn (next none) blocks)
    (hg : ∀ x, s.cells.find? g = some x → holdsState x = false) :
    Acts r s ids (.ask g next) blocks := by
  unfold Acts
  rw [hact]
  obtain ⟨f, hf, hnone, -⟩ := ask_eq g fun x => (next x).code (homeOf r.calls)
  have hcode : (Behaviour.ask g next).code (homeOf r.calls) = .read g f := hf
  have hfound : f ((s.cells.find? g).getD default) =
      .write g (.value .absent) ((next none).code (homeOf r.calls)) := by
    refine hnone _ ?_
    cases hx : s.cells.find? g with
    | none => rfl
    | some x => exact hg x hx
  have hcleared := h'.clear hg
  rw [hcode]
  refine .of_step h.shown (congrArg (Evaluation.goOn _ <| .eval ·) hfound) ?_
  exact Leads.write_turns h.shown (.here hcleared.shown (hcleared.enacted hcalls))

/-- There is nothing to drop. -/
theorem spares (h : Keeps r s ρ ids) (hact : r.act (.drop g next') blocks = r.goOn next' blocks)
    (hg : ∀ x, s.cells.find? g = some x → holdsState x = false) :
    Acts r s ids (.drop g next') blocks := by
  obtain ⟨f, hf, hnone, -⟩ := drop_eq g fun _ => next'.code (homeOf r.calls)
  have hcode : (Behaviour.drop g next').code (homeOf r.calls) = .read g f := hf
  have hfound : f ((s.cells.find? g).getD default) = next'.code (homeOf r.calls) := by
    refine hnone _ ?_
    cases hx : s.cells.find? g with
    | none => rfl
    | some x => exact hg x hx
  refine h.quiet h hact ?_
  rw [hcode]
  exact congrArg (Evaluation.goOn _ <| .eval ·) hfound

/-- Whatever the code does that runs, it is enacted. -/
theorem acts (h : Keeps r s ρ ids) (hsound : r.Sound) (hphase : r.phase = .running b blocks)
    (hlabels : (r.act b blocks).producers.length ≤ labelCount) : Acts r s ids b blocks := by
  have hfew : r.producers.length ≤ labelCount :=
    (hsound.act hphase).2.length_le.trans hlabels
  cases b with
  | done v =>
    cases hafter : Block.after v blocks with
    | some x => exact h.after hafter
    | none =>
      obtain rfl := Block.after_eq_none.mp hafter
      cases hcalls : r.calls with
      | nil => exact h.finishes hcalls
      | cons c calls => exact h.ends hsound hphase hcalls
  | yield v next =>
    cases hcalls : r.calls with
    | nil =>
      have hact : r.act (.yield v next) blocks = r.goOn next blocks := by
        simp only [Family.act, hcalls]
      refine h.quiet h hact ?_
      rw [hcalls]
      rfl
    | cons c calls => exact h.yields hsound hfew hphase hcalls
  | make item owned body next =>
    refine h.makes hsound ?_ hphase
    simpa [Family.act] using hlabels
  | ask g next =>
    cases hfind : r.find? g with
    | none =>
      refine h.misses (h.hear (x := .answer none)) Family.hear_calls
        (by simp only [Family.act, hfind]) fun x hx => ?_
      exact h.not_state hsound (fun j a hsome => by simp [hfind] at hsome) hx
    | some x =>
      obtain ⟨j, a⟩ := x
      have hempty : (∀ ρ, stateOf ρ a.progress = .absent) →
          ∀ x, s.cells.find? g = some x → holdsState x = false := fun habsent x hx =>
        h.not_state hsound (fun j' a' hsome => by
          obtain ⟨rfl, rfl⟩ := Prod.mk.inj (Option.some.inj (hfind.symm.trans hsome))
          exact habsent) hx
      cases hp : a.progress with
      | resting v b' blocks' => exact h.asks hsound hfind hp
      | ended =>
        have hmodified : Keeps (r.modify j (.answer none)) s ρ ids :=
          h.modify fun _ => ⟨rfl, rfl, rfl⟩
        exact h.misses (hmodified.hear (x := .answer none)) Family.hear_calls
          (by simp only [Family.act, hfind, hp]) (hempty fun _ => by rw [hp]; rfl)
      | running | dropped =>
        exact h.misses (h.hear (x := .answer none)) Family.hear_calls
          (by simp only [Family.act, hfind, hp]) (hempty fun _ => by rw [hp]; rfl)
  | drop g next =>
    cases hfind : r.find? g with
    | none =>
      refine h.spares (by simp only [Family.act, hfind]) fun x hx => ?_
      exact h.not_state hsound (fun j a hsome => by simp [hfind] at hsome) hx
    | some x =>
      obtain ⟨j, a⟩ := x
      cases hp : a.progress with
      | resting v b' blocks' => exact h.drops hsound hfind hp
      | running | ended | dropped =>
        refine h.spares (by simp only [Family.act, hfind, hp]) fun x hx =>
          h.not_state hsound (fun j' a' hsome => ?_) hx
        obtain ⟨rfl, rfl⟩ := Prod.mk.inj (Option.some.inj (hfind.symm.trans hsome))
        intro ρ
        rw [hp]
        rfl
  | loop | scope | retain | release => exact h.quiet h rfl rfl
  | log text next =>
    have hlogged : Keeps r { s with actions := .text text :: s.actions } ρ ids := { h with }
    exact h.quiet hlogged rfl rfl

end Keeps

/-- Each step of a family is enacted. -/
theorem Enacted.step (h : Enacted r s) (hsound : r.Sound)
    (hlabels : r.step.producers.length ≤ labelCount) :
    Turns Γ r.Shown r.step.Shown (Enacted r.step) s := by
  cases h with
  | @running b blocks ρ ids hphase hkeeps hframes hs =>
    have hstep : r.step = r.act b blocks := by simp only [Family.step, hphase]
    rw [hstep] at hlabels ⊢
    have hacts := hkeeps.acts hsound hphase hlabels
    rw [Evaluation.eq_goOn hs, Evaluation.eq_frames hframes]
    exact hacts
  | @finished v hphase hshown hs =>
    have hstep : r.step = r := by simp only [Family.step, hphase]
    rw [hstep]
    have hending : s.ending = some (.ok v) := by rw [Evaluation.ending, hs]
    exact .turns hshown (Evaluation.step_of_ending hending)
      (.here hshown (.finished hphase hshown hs))

end EffectHandlers.Generator

/-!
## Generators that are dropped

The state of a generator that rests has the only resumption of the code in which it has yielded.
Whoever drops the generator discards that continuation, by taking the state out of its cell or with
the last share of the cell. So the body is unwound, and no more of it runs.
-/

namespace EffectHandlers

/-! ### Continuations that are given up -/

namespace Machine

variable {ω : Type} [Contents ω] {Γ : Library ω} {m m₀ : Machine ω} {k : Cont ω} {n : Nat}
  {ρ : ResumptionId}

/-- Later than a step of the thread, a continuation is discarded, and torn down. -/
def Forsakes (Γ : Library ω) (m₀ : Machine ω) (n : Nat) (k : Cont ω) : Prop :=
  ∃ p > n, (run Γ p m₀).Discards Γ k ∧ ∃ ks hs N, TearsDown Γ m₀ k ks hs (p + 1) N

/-- With the last share of a cell, what its content owns is released. -/
theorem Drops.releases {c : CellId} {x : ω} (h : m.Drops Γ (.cell c)) (hx : m.contents c = some x) :
    ∃ hs, (m.step Γ).releasing = (Contents.owned x).map .asset ++ hs ∧
      (m.step Γ).resumptions = m.resumptions := by
  obtain ⟨hhead, -, hgone⟩ := h
  obtain ⟨hs, hreleasing⟩ := List.head?_eq_some_iff.mp hhead
  obtain ⟨y, hy, rfl⟩ := Option.map_eq_some_iff.mp hx
  rw [step_releasing hreleasing] at hgone ⊢
  by_cases hshares : y.shares ≤ 1
  · have hgives : Gives { m with releasing := hs } (.asset (.cell c)) y.owned _ :=
      .cell hy hshares
    rw [hgives.eq]
    exact ⟨hs, rfl, rfl⟩
  · have hgives : Gives { m with releasing := hs } (.asset (.cell c)) [] _ :=
      .cellShare hy hshares
    rw [hgives.eq] at hgone
    simp [holds, release, Store.contains, Store.find?_modify, hy] at hgone

/-- A continuation that is moved and released at once is discarded, and torn down. -/
theorem forsakes_of_take {os : ResumptionId → List Owned} {next : Comp ω} (hΓ : Γ.Orderly)
    (hgood : Good Γ m₀)
    (hfiled : ∀ n l, Sound Γ (run Γ n m₀) l → (run Γ n m₀).Filed)
    (hreleasing : (run Γ n m₀).releasing = [])
    (hcontrol : (run Γ n m₀).control = .eval (.take ρ fun ρ' => .release (os ρ') next))
    (hos : ∀ ρ', .resumption ρ' ∈ os ρ') (hk : (run Γ n m₀).resumptions.find? ρ = some k) :
    Forsakes Γ m₀ n k := by
  let moved := (((run Γ n m₀).resumptions.erase ρ).insert k).2
  let ρ' := ((run Γ n m₀).resumptions.erase ρ).next
  have hmoved : run Γ (n + 1) m₀ = ({ run Γ n m₀ with resumptions := moved } : Machine ω).goOn
      (.eval (.release (os ρ') next)) := by
    rw [run_succ]
    simp only [step, hreleasing, hcontrol, eval, hk]
    rfl
  have hreleased : run Γ (n + 2) m₀ = (({ run Γ n m₀ with
      resumptions := moved } : Machine ω).discard (os ρ')).goOn (.eval next) := by
    rw [run_succ, hmoved]
    simp only [step, goOn, hreleasing]
    rfl
  have hlist : (run Γ (n + 2) m₀).releasing = (os ρ').map .asset ++ [] := by
    rw [hreleased, ← hreleasing]
    rfl
  have hfound : (run Γ (n + 2) m₀).resumptions.find? ρ' = some k := by
    rw [hreleased]
    exact Store.find?_insert_self ((run Γ n m₀).resumptions.erase ρ) k
  have hgoes : (run Γ (n + 2) m₀).control = .eval next := by
    rw [hreleased]
    rfl
  cases hgood.run (n + 2) hΓ with
  | fault hfault => cases hfault.symm.trans hgoes
  | halted hhalted => cases hhalted.symm.trans hgoes
  | sound l hsound =>
    obtain ⟨p, hp, hdiscards⟩ := exists_discards hΓ hsound (hfiled _ l hsound) hlist
      (List.mem_map_of_mem (hos ρ')) hfound
    exact ⟨p, by omega, hdiscards⟩

/-- What the content of a cell goes on with is discarded with the last share of the cell, and torn
down. -/
theorem forsakes_of_drops {l : Layout ω} {c : CellId} {x : ω} (hΓ : Γ.Orderly)
    (hfiled : ∀ n l, Sound Γ (run Γ n m₀) l → (run Γ n m₀).Filed)
    (hsound : Sound Γ (run Γ n m₀) l) (hdrops : (run Γ n m₀).Drops Γ (.cell c))
    (hx : (run Γ n m₀).contents c = some x) (hρ : .resumption ρ ∈ Contents.owned x)
    (hk : (run Γ n m₀).resumptions.find? ρ = some k) : Forsakes Γ m₀ n k := by
  obtain ⟨hs, hlist, hsame⟩ := hdrops.releases hx
  obtain ⟨rest, hreleasing⟩ := List.head?_eq_some_iff.mp hdrops.1
  obtain ⟨l', hsound'⟩ := hsound.releaseOne hreleasing
  rw [← step_releasing (Γ := Γ) hreleasing, ← run_succ] at hsound'
  rw [← run_succ] at hlist hsame
  obtain ⟨p, hp, hdiscards⟩ := exists_discards hΓ hsound' (hfiled _ l' hsound') hlist
    (List.mem_map_of_mem hρ) (by rw [hsame]; exact hk)
  exact ⟨p, hp, hdiscards⟩

end Machine

namespace Generator

variable {Γ : Library Content} {r : Family Γ} {s : Evaluation Content} {g : CellId} {j : Nat}
  {a : Producer Γ} {v : Value} {next b : Behaviour Γ} {blocks blocks' : List (Block (Behaviour Γ))}

/-- Code that drops a generator takes its continuation, and releases it. -/
theorem Enacted.takes (h : Enacted r s) (hphase : r.phase = .running (.drop g next) blocks)
    (hfind : r.find? g = some (j, a)) (hp : a.progress = .resting v b blocks') :
    ∃ ρ id k, ((Evaluation.step Γ)^[2] s).phase =
        .eval (.take ρ fun ρ' => .release (v.owned ++ [.resumption ρ']) k) ∧
      ((Evaluation.step Γ)^[2] s).resumptions.find? ρ =
        some (continuation j a.item id b blocks') := by
  cases h with
  | @running _ _ ρ ids hphase' hkeeps _ hs =>
    cases hphase.symm.trans hphase'
    obtain ⟨ha, hcell⟩ := Family.find?_eq_some hfind
    have hkept := hkeeps.each j a ha
    have hstate := hkept.state g hcell
    rw [hp] at hstate
    obtain ⟨f, hf, -, hstates⟩ := drop_eq g fun _ => next.code (homeOf r.calls)
    have hcode : (Behaviour.drop g next).code (homeOf r.calls) = .read g f := hf
    have hread : s.step Γ =
        s.goOn (.eval (f (.value (.present (.pair v (.resumption (ρ j))))))) := by
      simp only [Evaluation.step, hs, hcode, Evaluation.eval, hstate]
      rfl
    rw [hstates] at hread
    refine ⟨ρ j, ids j, next.code (homeOf r.calls), ?_, ?_⟩
    · show ((s.step Γ).step Γ).phase = _
      rw [hread]
      rfl
    · show ((s.step Γ).step Γ).resumptions.find? _ = _
      rw [hread]
      exact hkept.rest v b blocks' hp
  | finished hphase' => cases hphase.symm.trans hphase'

end Generator

end EffectHandlers
