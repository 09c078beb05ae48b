import EffectHandlers.Client.Library
import EffectHandlers.Proofs.Following
import EffectHandlers.Proofs.Picking
import EffectHandlers.Proofs.Programs
import EffectHandlers.Proofs.Watching
/-!
# Futures and their wake-ups

A thread that runs computations with futures does what its agenda says. So every computation that awaits
a result goes on once the result is there, and nobody is left in the queue.
-/

namespace EffectHandlers.Promise

open Evaluation (Leads Turns)
open EffectHandlers.Task (orderly_readList orderly_readValue orderly_pushBack)

variable {Γ : Library Content} {P Q : Store Content → Prop} {R : Evaluation Content → Prop}
  {r r' : Agenda Γ .random} {s : Evaluation Content} {main : CellId} {i j : Nat} {a b : Job Γ}
  {p : Progress Γ} {v : Value} {ρ ρ' : Nat → ResumptionId} {ids : Nat → InstallationId}
  {F : List (Frame Content)}

/-! ### Programs of computations are orderly -/

section Orderly

theorem orderly_readFuture (c : CellId) : (readFuture c).Orderly :=
  (Prog.orderly_read c).bind fun content => by cases content <;> exact Prog.orderly_pure _

theorem orderly_chooseBy (draw : Draws → Nat × Draws) : (Agenda.chooseBy draw).Orderly := by
  refine (Prog.orderly_read choices).bind fun content => ?_
  cases content with
  | draws d =>
    cases d with
    | some d => exact (Prog.orderly_write _ _).bind fun _ => Prog.orderly_pure _
    | none => exact Prog.orderly_pure _
  | _ => exact Prog.orderly_pure _

theorem orderly_choose (n : Nat) : (choose n).Orderly := by
  rw [Agenda.choose_eq]
  exact orderly_chooseBy _

theorem orderly_wakeRandom : wakeRandom.Orderly := by
  refine (orderly_readList queue).bind fun waiting => ?_
  split
  · exact Prog.orderly_pure _
  · refine (orderly_choose _).bind fun i => (Prog.orderly_write _ _).bind fun _ => ?_
    split
    · exact (Prog.orderly_resume _ _).bind fun _ => Prog.orderly_pure _
    · exact Prog.orderly_pure _

theorem orderly_value (c : CellId) : (value c).Orderly :=
  (orderly_readFuture c).bind fun _ => Prog.orderly_pure _

/-- The handler that computations run under. -/
theorem handler_orderly : ∀ clause ∈ handler.clauses, clause.code.Orderly := by
  intro clause hclause
  rcases List.mem_cons.mp hclause with rfl | hclause
  · intro c v k
    exact ((Prog.orderly_take k).bind fun k => (orderly_pushBack queue _).bind fun _ =>
      orderly_wakeRandom.bind fun _ => Prog.orderly_pure _).toComp
  · obtain rfl := List.mem_singleton.mp hclause
    intro c v k
    have hwake : (do wakeRandom; return .unit : Task Value).Orderly :=
      orderly_wakeRandom.bind fun _ => Prog.orderly_pure _
    refine Prog.Orderly.toComp ?_
    cases v with
    | cell future =>
      exact (orderly_readFuture future).bind fun x => (Prog.orderly_take k).bind fun k =>
        (Prog.orderly_write future _).bind fun _ => hwake
    | _ => exact hwake

theorem onReturn_orderly (c : CellId) (v : Value) : (handler.onReturn c v).Orderly := by
  have hfuture : (futureOf c).Orderly :=
    (orderly_readValue c).bind fun w => by cases w <;> exact Prog.orderly_pure _
  exact (hfuture.bind fun future => (orderly_readFuture future).bind fun x =>
    (orderly_readList queue).bind fun _ => (Prog.orderly_write queue _).bind fun _ =>
      (Prog.orderly_write future _).bind fun _ => orderly_wakeRandom.bind fun _ =>
        Prog.orderly_pure _).toComp

variable {result : String} {future : CellId} {owned : List Owned} {body : Task Value}

theorem orderly_runInto (h : body.Orderly) : (runInto result future owned body).Orderly :=
  (Prog.orderly_alloc _).bind fun _ => Prog.Orderly.handle fun _ => h

theorem orderly_spawn (h : body.Orderly) : (spawn result owned body).Orderly :=
  (Prog.orderly_alloc _).bind fun future => (Prog.orderly_retain _).bind fun _ =>
    (Prog.Orderly.closure fun _ => orderly_runInto h).bind fun f =>
      (Prog.orderly_function _ f).bind fun _ => (orderly_pushBack queue _).bind fun _ =>
        Prog.orderly_pure future

theorem orderly_yield : yield.Orderly := (Prog.orderly_invoke _ _).bind fun _ => Prog.orderly_pure ()

theorem orderly_await : (await future).Orderly := by
  refine ((orderly_value future).bind fun _ => Prog.orderly_pure _).bind fun ready => ?_
  split
  · exact orderly_value future
  · exact (Prog.orderly_retain _).bind fun _ => (Prog.orderly_invoke _ _).bind fun _ =>
      orderly_value future

theorem Routine.orderly (b : Routine Γ) : b.toTask.Orderly := by
  induction b with
  | done v => exact Prog.orderly_pure v
  | spawn result owned body next ihbody ihnext => exact (orderly_spawn ihbody).bind fun c => ihnext c
  | yield next ih => exact orderly_yield.bind fun _ => ih
  | await future next ih => exact orderly_await.bind fun v => ih v
  | value future next ih => exact (orderly_value future).bind fun v => ih v
  | loop seed body next ihbody ihnext =>
    exact (Prog.Orderly.loop fun v => ihbody v).bind fun v => ihnext v
  | scope owned body next ihbody ihnext => exact ihbody.scope.bind fun v => ihnext v
  | retain o next ih => exact (Prog.orderly_retain o).bind fun _ => ih
  | release os next ih => exact (Prog.orderly_release os).bind fun _ => ih
  | log text next ih => exact (Prog.orderly_record _).bind fun _ => ih
  | emit text next ih => exact (Transcript.orderly_emit text).bind fun _ => ih

theorem orderly_run (seed : Nat) (h : body.Orderly) : (run result seed body).Orderly := by
  refine (Prog.orderly_write _ _).bind fun _ => (Prog.orderly_alloc _).bind
    fun future => (Prog.orderly_retain _).bind fun _ => Prog.Orderly.scope ?_
  refine (orderly_runInto h).bind fun _ => (orderly_value future).bind fun v => ?_
  cases v <;> exact Prog.orderly_pure _

theorem program_orderly (result : Known Γ) (seed : Nat) (main : Routine Γ) :
    (program result seed main).Orderly :=
  (orderly_run seed main.orderly).toComp

end Orderly

/-! ### What computations do -/

namespace Agenda

section Acting

variable {blocks : List (Block (Routine Γ))}

theorem turns_readFuture {c : CellId} {x : Future} {k : Future → Comp Content} (hP : P s.cells)
    (hx : s.cells.find? c = some (.future x)) (h : Leads Γ Q R (s.goOn (.eval (k x)))) :
    Turns Γ P Q R (s.goOn (.eval (readFuture c k))) := .read_turns hP hx h

theorem emit_eq (text : String) (k : Unit → Comp Content) :
    ∃ g, Transcript.emit text k = .read Transcript.cell g ∧
      ∀ x, ∃ y, g x = .write Transcript.cell y (k ()) := by
  refine ⟨_, rfl, fun x => ?_⟩
  cases x <;> exact ⟨_, rfl⟩

/-- The computation that runs looks at a result. -/
theorem Keeps.looks {next : Option Value → Routine Γ} (h : r.Keeps main s ρ ids) (hsound : r.Sound)
    (hphase : r.phase = .running i) (ha : r.jobs[i]? = some a) (hb : r.jobs[j]? = some b)
    (hshell : Shell main F) :
    Turns Γ r.Shown (r.modify i (.goOn (.acting (next (r.value? b.future)) blocks))).Shown
      ((r.modify i (.goOn (.acting (next (r.value? b.future)) blocks))).Enacted main) (({ s with
        frames := blocks.map (Block.frame Routine.toTask) ++ .handling (ids i) :: F } :
      Evaluation Content).goOn
        (.eval (value b.future fun x => (next x).toTask.toComp))) := by
  have hfuture := h.stored.futures j b hb
  rw [shown_of_phase (by simp [hphase])] at hfuture
  rw [value?_future hsound.futures hb]
  exact .read_turns h.shown hfuture (.here (h.goOn hsound hphase rfl).shown
    (h.goesOn hsound hphase ha hshell (p := .acting (next b.progress.value?) blocks) rfl))

/-- The computation that runs writes to the transcript. -/
theorem Keeps.emits {text : String} {next : Routine Γ} (h : r.Keeps main s ρ ids) (hsound : r.Sound)
    (hphase : r.phase = .running i) (ha : r.jobs[i]? = some a) (hshell : Shell main F) :
    Turns Γ r.Shown (r.modify i (.goOn (.acting next blocks))).Shown
      ((r.modify i (.goOn (.acting next blocks))).Enacted main) (({ s with
        frames := blocks.map (Block.frame Routine.toTask) ++ .handling (ids i) :: F } :
      Evaluation Content).goOn (.eval (Routine.emit text next).toTask.toComp)) := by
  obtain ⟨g, hg, hwrite⟩ := emit_eq text fun _ => next.toTask.toComp
  have hcode : (Routine.emit text next).toTask.toComp = .read Transcript.cell g := hg
  obtain ⟨y, hy⟩ := hwrite ((s.cells.find? Transcript.cell).getD default)
  have hkept : r.Keeps main { s with cells := s.cells.modify Transcript.cell fun _ => y } ρ ids :=
    { h with
      stored := h.stored.modify (by decide) fun j b hb => h.stored.future_ne hb (by decide)
      rests := h.rests.keep_cells (preserves_modify (.inl (by decide))) }
  rw [hcode]
  refine .of_step h.shown rfl ?_
  show Leads Γ _ _ (({ s with
    frames := blocks.map (Block.frame Routine.toTask) ++ .handling (ids i) :: F } :
      Evaluation Content).goOn (.eval (g ((s.cells.find? Transcript.cell).getD default))))
  rw [hy]
  exact .write_turns h.shown (.here (hkept.goOn hsound hphase rfl).shown
    (hkept.goesOn hsound hphase ha hshell (p := .acting next blocks) rfl))

/-- The computation that runs queues another one. -/
theorem Keeps.spawns {result : Known Γ} {owned : List Owned} {body : Routine Γ}
    {next : CellId → Routine Γ} (h : r.Keeps main s ρ ids) (hsound : r.Sound)
    (hphase : r.phase = .running i) (ha : r.jobs[i]? = some a)
    (hacts : a.progress = .acting (.spawn result owned body next) blocks) (hshell : Shell main F) :
    Turns Γ r.Shown (r.act i a).Shown ((r.act i a).Enacted main) (({ s with
        frames := blocks.map (Block.frame Routine.toTask) ++ .handling (ids i) :: F } :
      Evaluation Content).goOn (.eval (Routine.spawn result owned body next).toTask.toComp)) := by
  let q : Progress Γ := .acting (next r.nextCell) blocks
  let m : Job Γ := { future := r.nextCell, progress := .fresh body }
  let acted := r.modify i (.goOn q)
  let grown : Agenda Γ .random :=
    { acted with jobs := acted.jobs ++ [m], nextCell := r.nextCell + 1 }
  let child := r.jobs.length
  let after : Agenda Γ .random := { grown with queue := r.queue ++ [child] }
  have hact : r.act i a = after := by
    simp only [act, hacts]
    rfl
  have hgoes := h.goOn hsound hphase (p := q) rfl
  have hacted : acted.Sound :=
    hsound.goOn hphase (p := .acting (next r.nextCell) blocks) rfl fun _ _ _ heq => by cases heq
  have hlength : acted.jobs.length = child := modify_length
  have hrunning : ∀ k ws, acted.phase ≠ .settling k ws := by simp [acted, modify, hphase]
  have hplaces : grown.places = acted.places := by
    show r.queue ++ (acted.jobs ++ [m]).flatMap Job.waiters = r.queue ++ acted.jobs.flatMap Job.waiters
    simp [m]
  have hparked : ∀ k ∈ acted.places, k < child := fun k hk => by
    obtain ⟨b, hb, -⟩ := hacted.parked k hk
    exact hlength ▸ (List.getElem?_eq_some_iff.mp hb).1
  have hchild : child ∉ grown.places := fun hmem => Nat.lt_irrefl _ (hparked child (hplaces ▸ hmem))
  have habove : Promise.choices < r.nextCell :=
    (h.stored.above i a ha).trans (hsound.older i a ha)
  let κ : Continuation Content :=
    .function "()" fun _ => (runInto result.1 s.cells.next owned body.toTask).toComp
  have hκ : κ = .function "()" fun _ => (runInto result.1 m.future owned body.toTask).toComp :=
    congrArg (fun c => Continuation.function "()" fun _ =>
      (runInto result.1 c owned body.toTask).toComp) h.stored.next
  let cells := (s.cells.insert (.future {})).2
  let resumptions := (s.resumptions.insert κ).2
  let ρ' := Function.update ρ child s.resumptions.next
  have hm : grown.jobs[child]? = some m := by
    rw [← hlength]
    exact List.getElem?_concat_length
  have hgrown : grown.Stored ρ cells := hgoes.stored.grow hrunning habove
  have hrests : grown.Rests { s with cells, resumptions } ρ ids := by
    have hsame : grown.Rests s ρ ids := by
      refine hgoes.rests.congr [] (hplaces ▸ .refl _) (fun k hk b hb => ?_)
        fun k b hb hstarted => ?_
      · rcases of_getElem?_append hb with hb | ⟨rfl, -⟩
        · exact ⟨b, hb, rfl, rfl⟩
        · exact absurd (hparked _ (hplaces ▸ hk)) (by omega)
      · rcases of_getElem?_append hb with hb | ⟨-, rfl⟩
        · exact ⟨b, hb, hstarted, rfl⟩
        · cases hstarted
    refine (hsame.keep_cells (preserves_insert h.stored.wellFormed _)).keep_resumptions
      (fun k hk => ?_) (Nat.le_succ _) (Store.wellFormed_insert h.rests.resumptions κ)
    show Store.find? _ (ρ k) = _
    rw [Store.find?_insert, if_neg (Nat.ne_of_lt (hsame.issued k hk))]
  have hkept : after.Keeps main
      { s with
        cells := cells.modify Promise.queue fun _ =>
          .list ((r.queue ++ [child]).map fun k => .resumption (ρ' k))
        resumptions } ρ' ids :=
    { stored := hgrown.writeQueue rfl rfl fun k b hb => ⟨b, hb, rfl, by
        rw [shown_of_phase (by exact hrunning), shown_of_phase (by exact hrunning)]
        exact shown_update hchild hb⟩
      rests := by
        have hparked := hrests.park after hchild ?_ hm
          ⟨result, owned, hκ⟩ (Store.find?_insert_self s.resumptions κ)
          (fun k hk heq => ?_) fun k b hb => ⟨b, hb, rfl, rfl⟩
        · exact hparked.keep_cells (preserves_modify (.inl (by decide)))
        · show (r.queue ++ [child] ++ grown.jobs.flatMap Job.waiters).Perm
            (child :: (r.queue ++ grown.jobs.flatMap Job.waiters))
          rw [List.append_assoc]
          exact List.perm_middle
        · exact Nat.ne_of_lt (hgoes.rests.issued k (hplaces ▸ hk)) heq
      first := by
        show ((acted.jobs ++ [m])[0]?).map Job.future = some main
        obtain ⟨b, hb, hmain⟩ := Option.map_eq_some_iff.mp hgoes.first
        rw [getElem?_append_of_some hb]
        exact congrArg some hmain
      pending := h.pending }
  have hlist : r.queue.map (fun k => Value.resumption (ρ k)) ++ [.resumption s.resumptions.next] =
      (r.queue ++ [child]).map fun k => .resumption (ρ' k) := by
    have hself : ρ' child = s.resumptions.next := Function.update_self ..
    have hqueue : r.queue.map (fun k => Value.resumption (ρ' k)) = _ :=
      map_queue_update (r := grown) hchild
    rw [List.map_append, List.map_singleton, hself, hqueue]
    rfl
  have hP := h.shown
  have hP' : r.Shown cells := hP.of_find?
    ((Stored.find?_insert h.stored.wellFormed h.stored.queue).trans h.stored.queue.symm)
    fun k b hb => (Stored.find?_insert h.stored.wellFormed (h.stored.futures k b hb)).trans
      (h.stored.futures k b hb).symm
  have hQ := hkept.shown
  rw [hact]
  refine .alloc hP (.retain hP' (.closure hP' (.function hP' (Store.find?_insert_self ..)
    (.read hP' hgrown.queue (.write_turns hP' ?_)))))
  have hrest : ∀ closures, Leads Γ after.Shown (after.Enacted main) (({ s with
    frames := blocks.map (Block.frame Routine.toTask) ++ .handling (ids i) :: F
    cells := cells.modify Promise.queue fun _ => .list
      (r.queue.map (fun k => Value.resumption (ρ k)) ++ [.resumption s.resumptions.next])
    closures
    resumptions } : Evaluation Content).goOn (.eval (next s.cells.next).toTask.toComp)) := by
    intro closures
    rw [hlist, h.stored.next]
    exact .here hQ (.running hphase ⟨getElem?_append_of_some (getElem?_modify_self ha), ρ', ids, F,
      { hkept with rests := { hkept.rests with } }, rfl, hshell⟩ rfl)
  exact hrest _

/-- The computation that runs awaits a result that is there. -/
theorem Keeps.awaits_nothing {onward : Option Value → Routine Γ} (h : r.Keeps main s ρ ids)
    (hsound : r.Sound) (hphase : r.phase = .running i) (ha : r.jobs[i]? = some a)
    (hacts : a.progress = .acting (.await b.future onward) blocks) (hshell : Shell main F)
    (hb : r.jobs[j]? = some b) (hv : b.progress.value? = some v) :
    Turns Γ r.Shown (r.act i a).Shown ((r.act i a).Enacted main) (({ s with
        frames := blocks.map (Block.frame Routine.toTask) ++ .handling (ids i) :: F } :
      Evaluation Content).goOn (.eval (Routine.await b.future onward).toTask.toComp)) := by
  have hact : r.act i a = r.modify i (.goOn (.awaiting b.future onward blocks)) := by
    simp only [act, hacts, seat?_future hsound.futures hb, value?_future hsound.futures hb, hv]
  have hfuture := h.stored.futures j b hb
  rw [shown_of_phase (by simp [hphase])] at hfuture
  have hcommand : (Routine.await b.future onward).toTask.toComp =
      readFuture b.future fun x =>
        if x.value.isSome then value b.future fun x => (onward x).toTask.toComp
        else .retain (.cell b.future) (.invoke .innermost
          { name := awaitCommand, payload := .cell b.future, owned := [.cell b.future] }
            fun _ => value b.future fun x => (onward x).toTask.toComp) := await_eq b.future _
  rw [hact, hcommand]
  refine turns_readFuture h.shown hfuture ?_
  rw [if_pos (by simp [Job.shown, hv])]
  exact .here (h.goOn hsound hphase rfl).shown
    (h.goesOn hsound hphase ha hshell (p := .awaiting b.future onward blocks) rfl)

/-- The computation that runs goes on. -/
theorem Keeps.acts {b : Routine Γ} (h : r.Keeps main s ρ ids) (hsound : r.Sound)
    (haddressed : r.Addressed) (hphase : r.phase = .running i) (ha : r.jobs[i]? = some a)
    (hacts : a.progress = .acting b blocks) (hshell : Shell main F) :
    Turns Γ r.Shown (r.act i a).Shown ((r.act i a).Enacted main) (({ s with
        frames := blocks.map (Block.frame Routine.toTask) ++ .handling (ids i) :: F } :
      Evaluation Content).goOn (.eval b.toTask.toComp)) := by
  have hP := h.shown
  have hgoes : ∀ b' blocks', (r.modify i (.goOn (.acting b' blocks'))).Shown s.cells :=
    fun _ _ => (h.goOn hsound hphase rfl).shown
  have hgoesOn := fun b' blocks' =>
    h.goesOn hsound hphase ha hshell (p := .acting b' blocks') rfl
  cases b with
  | done v =>
    cases hafter : Block.after v blocks with
    | none =>
      obtain rfl := Block.after_eq_none.mp hafter
      exact h.finishes hsound hphase ha hacts hshell
    | some x =>
      simp only [act, hacts, hafter]
      exact .turns hP rfl (.after_block (hgoes _ _) rfl hafter
        (.here (hgoes _ _) (hgoesOn x.1 x.2)))
  | spawn result owned body next => exact h.spawns hsound hphase ha hacts hshell
  | yield next => exact h.yields hsound hphase ha hacts hshell
  | await future onward =>
    obtain ⟨j, hseat⟩ := Option.isSome_iff_exists.mp
      (haddressed i a hphase ha future onward blocks (.inl hacts))
    obtain ⟨b, hb, rfl⟩ := seat?_eq_some hseat
    cases hv : b.progress.value? with
    | none => exact h.awaits hsound hphase ha hacts hshell hb hv
    | some v => exact h.awaits_nothing hsound hphase ha hacts hshell hb hv
  | value future next =>
    obtain ⟨j, hseat⟩ := Option.isSome_iff_exists.mp
      (haddressed i a hphase ha future next blocks (.inr hacts))
    obtain ⟨b, hb, rfl⟩ := seat?_eq_some hseat
    simp only [act, hacts]
    exact h.looks hsound hphase ha hb hshell
  | loop seed body next =>
    simp only [act, hacts]
    exact .turns hP rfl (.here (hgoes _ _) (hgoesOn (body seed) (.loop ⟨body, next⟩ :: blocks)))
  | scope owned body next =>
    simp only [act, hacts]
    exact .turns hP rfl (.here (hgoes _ _) (hgoesOn body (.scope next :: blocks)))
  | retain o next | release os next =>
    simp only [act, hacts]
    exact .turns hP rfl (.here (hgoes _ _) (hgoesOn next blocks))
  | log text next =>
    have hkept : r.Keeps main { s with actions := .text text :: s.actions } ρ ids :=
      { h with rests := { h.rests with } }
    simp only [act, hacts]
    exact .turns hP rfl (.here (hgoes _ _)
      (hkept.goesOn hsound hphase ha hshell (p := .acting next blocks) rfl))
  | emit text next =>
    simp only [act, hacts]
    exact h.emits hsound hphase ha hshell

/-- An evaluation that enacts an agenda takes its steps. -/
theorem Enacted.step (h : r.Enacted main s) (hsound : r.Sound) (haddressed : r.Addressed) :
    Turns Γ r.Shown r.step.Shown (r.step.Enacted main) s := by
  have hs : s.goOn s.phase = s := rfl
  rw [← hs]
  cases h with
  | @running i a hphase h hs =>
    obtain ⟨ha, ρ, ids, F, hkeeps, hframes, hshell⟩ := h
    have hstep : r.step = r.act i a := by simp only [Agenda.step, hphase, ha]
    have hstarted := hsound.isStarted hphase ha
    rw [hs, hstep]
    have hframed : s = { s with frames := a.progress.frames ++ .handling (ids i) :: F } := by
      rw [← hframes]
    rw [hframed]
    cases hp : a.progress with
    | acting b blocks => exact hkeeps.acts hsound haddressed hphase ha hp hshell
    | awaiting future onward blocks =>
      obtain ⟨j, b, hb, rfl, -⟩ := hsound.awaited i a ha future onward blocks hp
      have hact : r.act i a = r.modify i (.goOn (.acting (onward (r.value? b.future)) blocks)) := by
        simp only [act, hp]
      rw [hact]
      exact hkeeps.looks hsound hphase ha hb hshell
    | fresh | ended => simp [hp, Progress.isStarted] at hstarted
  | settling hphase ha hv h hs =>
    rw [hs]
    exact h.settles hsound hphase ha hv
  | waking hphase h hs =>
    rw [hs]
    cases hqueue : r.queue with
    | nil => exact h.stops hphase hqueue
    | cons j rest =>
      have hlt : (Chooser.random.choose r.queue.length r.choices).1 < r.queue.length :=
        Chooser.random.lt r.choices (by simp [hqueue])
      cases hpick : Chooser.random.choose r.queue.length r.choices with
      | mk k d =>
        rw [hpick] at hlt
        exact h.resumes hsound hphase hpick (List.getElem?_eq_getElem hlt)
  | ending hphase h hs =>
    rw [hs]
    exact h.ends hphase
  | finished hphase h hs =>
    have hstep : r.step = r := by simp only [Agenda.step, hphase]
    rw [hs, hstep]
    exact .turns h rfl (.here h (.finished hphase h rfl))

end Acting

/-! ### The program of a main computation -/

section Starting

variable {d : Draws} {first : CellId} {body : Routine Γ}

theorem shown_start {cells : Store Content}
    (hqueue : ∀ x, cells.find? Promise.queue = some x → x = .list [])
    (hfirst : ∀ x, cells.find? first = some x → x = .future {}) :
    (start (χ := .random) d first body).Shown cells := by
  refine ⟨fun _ => 0, List.nodup_nil, hqueue, fun i a ha x hx => ?_⟩
  obtain ⟨rfl, rfl⟩ := Sound.of_getElem?_start ha
  exact hfirst x hx

/-- The main computation runs under the first installation. -/
theorem keeps_start (cells : Store Content) {s : Evaluation Content} {result : Known Γ}
    {label : Int} (hwf : cells.WellFormed) (hchoices : Promise.choices < cells.next)
    (hqueue : cells.find? Promise.queue = some (.list []))
    (hdrawn : cells.find? Promise.choices = some (.draws (some d)))
    (hcells : s.cells = ((cells.insert (.future {})).2.insert (.value (.cell cells.next))).2)
    (hinstalled : s.installed = (({ next := 1 } : Store Handler).insert
      ⟨label, handlerName result.1, handlerName result.1, cells.next + 1⟩).2)
    (hresumptions : s.resumptions = { next := emptyResumption + 1 }) (hpending : s.pending = none) :
    (start (χ := .random) d cells.next body).Keeps cells.next s (fun _ => 0) fun _ => 1 := by
  have hwf' := Store.wellFormed_insert hwf (.future {})
  refine
    { stored :=
        { queue := ?_
          choices := ?_
          futures := fun i a ha => ?_
          above := fun i a ha => ?_
          next := by rw [hcells]; rfl
          wellFormed := by rw [hcells]; exact Store.wellFormed_insert hwf' _ }
      rests :=
        { parked := fun i hi => absurd hi List.not_mem_nil
          issued := fun i hi => absurd hi List.not_mem_nil
          distinct := List.nodup_nil
          homed := fun i a ha _ => ?_
          resumptions := by rw [hresumptions]; simp [Store.WellFormed]
          installed := by rw [hinstalled]; simp [Store.WellFormed, Store.insert] }
      first := rfl
      pending := hpending }
  · rw [hcells]
    exact Stored.find?_insert hwf' (Stored.find?_insert hwf hqueue)
  · rw [hcells]
    exact Stored.find?_insert hwf' (Stored.find?_insert hwf hdrawn)
  · obtain ⟨rfl, rfl⟩ := Sound.of_getElem?_start ha
    rw [hcells]
    exact Stored.find?_insert hwf' (Store.find?_insert_self cells _)
  · obtain ⟨rfl, rfl⟩ := Sound.of_getElem?_start ha
    exact hchoices
  · obtain ⟨rfl, rfl⟩ := Sound.of_getElem?_start ha
    refine ⟨label, result, cells.next + 1, by rw [hinstalled]; rfl, ?_, Nat.lt_succ_of_lt hchoices⟩
    rw [hcells]
    exact Store.find?_insert_self (cells.insert _).2 _

/-- A program gets to the start of its main computation. -/
theorem leads_program (cells : List Content) (hqueue : cells[2]? = some (.list []))
    (hchoices : 3 < cells.length) (result : Known Γ) (seed : Nat) (body : Routine Γ) :
    Leads Γ (start (χ := .random) (Draws.ofSeed seed) (cells.length + 1) body).Shown
      ((start (χ := .random) (Draws.ofSeed seed) (cells.length + 1) body).Enacted (cells.length + 1))
      (Evaluation.start cells (program result seed body)) := by
  generalize hs : Evaluation.start cells (program result seed body) = s
  have hstart : s = s.goOn (.eval (program result seed body)) := by rw [← hs]; rfl
  have hcells : s.cells = cells.foldl (fun s x => (s.insert x).2) { next := 1 } := by rw [← hs]; rfl
  have hempty : ({ next := 1 } : Store Content).WellFormed := by simp [Store.WellFormed]
  have hwf : s.cells.WellFormed := by
    rw [hcells]
    exact Store.wellFormed_insertAll hempty cells
  have hnext : s.cells.next = cells.length + 1 := by
    rw [hcells, Store.insertAll_next]
    exact Nat.add_comm ..
  have hfound : ∀ k, s.cells.find? (1 + k) = cells[k]? := fun k => by
    rw [hcells]
    exact Store.find?_insertAll hempty cells k
  have hcode : program result seed body =
      .write Promise.choices (.draws (some (Draws.ofSeed seed))) (.alloc (.future {}) fun future =>
        .retain (.cell future) (.scope [.cell future]
          (runInto result.1 future [] body.toTask fun _ => (reportTask future).toComp) .done)) := rfl
  rw [← hnext, hstart, hcode]
  generalize Draws.ofSeed seed = d
  -- the cells before there is a future
  let drawn := s.cells.modify Promise.choices fun _ => .draws (some d)
  have hqueued : s.cells.find? Promise.queue = some (.list []) := (hfound 2).trans hqueue
  have hdrawn : drawn.find? Promise.queue = some (.list []) := by
    rw [Store.find?_modify, if_neg (by decide)]
    exact hqueued
  have hchosen : drawn.find? Promise.choices = some (.draws (some d)) := by
    rw [Store.find?_modify, if_pos rfl, show Promise.choices = 1 + 3 from rfl, hfound,
      List.getElem?_eq_getElem hchoices]
    rfl
  have hwf' : drawn.WellFormed := Store.wellFormed_modify hwf _ _
  have hP : (start (χ := .random) d s.cells.next body).Shown s.cells :=
    shown_start (fun x hx => Option.some.inj (hx.symm.trans hqueued))
      fun x hx => absurd (Store.lt_next hwf hx) (Nat.lt_irrefl _)
  have hP₁ : (start (χ := .random) d s.cells.next body).Shown drawn :=
    shown_start (fun x hx => Option.some.inj (hx.symm.trans hdrawn))
      fun x hx => absurd (Store.lt_next hwf' hx) (Nat.lt_irrefl _)
  have hP₂ : (start (χ := .random) d s.cells.next body).Shown (drawn.insert (.future {})).2 :=
    shown_start
      (fun x hx => Option.some.inj (hx.symm.trans (Stored.find?_insert hwf' hdrawn)))
      fun x hx => Option.some.inj (hx.symm.trans (Store.find?_insert_self drawn _))
  obtain ⟨declared, hdeclare⟩ := exists_declare s result
  have hinstalled : s.installed = { next := 1 } := by rw [← hs]; rfl
  have hkept : (start (χ := .random) d s.cells.next body).Keeps s.cells.next
      { s with
        cells := ((drawn.insert (.future {})).2.insert (.value (.cell drawn.next))).2
        installed := (s.installed.insert
          ⟨s.nextLabel, handlerName result.1, handlerName result.1, drawn.next + 1⟩).2 }
      (fun _ => 0) fun _ => 1 :=
    keeps_start drawn hwf' (by show 4 < s.cells.next; omega) hdrawn hchosen rfl
      (by rw [hinstalled]) (by rw [← hs]; rfl) (by rw [← hs]; rfl)
  have hQ := hkept.shown
  refine .write hP (.alloc hP₁ (.retain hP₂ (.scope hP₂ (.alloc hP₂ (.handle hQ rfl hdeclare
    (.here hQ (.running (i := 0) rfl ⟨rfl, fun _ => 0, fun _ => 1, _,
      { hkept with rests := { hkept.rests with } }, ?_, .base⟩ rfl)))))))
  have hframes : s.frames = [] := by rw [← hs]; rfl
  simp only [Evaluation.goOn, Evaluation.push, hinstalled, hframes]
  rfl

end Starting

/-! ### What the thread does -/

/-- What is in fewer cells shows the agenda as far as it goes. -/
theorem Visible.mono {contents contents' : CellId → Option Content} (h : r.Visible contents)
    (hsub : ∀ c x, contents' c = some x → contents c = some x) : r.Visible contents' := by
  obtain ⟨ρ, hshows⟩ := h
  exact ⟨ρ, hshows.distinct, fun x hx => hshows.queue x (hsub _ x hx),
    fun i a ha x hx => hshows.futures i a ha x (hsub _ x hx)⟩

/-- What an agenda says that its program does. -/
def plan (r : Agenda Γ .random) (main : CellId) : Plan Content where
  At t := (r.run t).Enacted main
  Shown t := (r.run t).Visible
  Ended t v := (r.run t).phase = .finished ∧ v = report (r.run t).result?
  mono h hsub := h.mono hsub

/-- An evaluation that enacts an agenda has ended if and only if the agenda is over. -/
theorem Enacted.ending_iff {x : Except Fault Value} (h : r.Enacted main s) :
    s.ending = some x ↔ ∃ v, x = .ok v ∧ r.phase = .finished ∧ v = report r.result? := by
  cases h with
  | running hphase _ hs | settling hphase _ _ _ hs | waking hphase _ hs | ending hphase _ hs =>
    simp [Evaluation.ending, hs, hphase]
  | finished hphase _ hs => simp [Evaluation.ending, hs, hphase, eq_comm]

end Agenda

/-- The result of a thread tells what the main computation has returned, if all is over. -/
structure Reports (Γ : Library Content) (m : Machine Content) (r : Agenda Γ .random) : Prop where
  /-- The run is over when the queue is empty, and not before. -/
  returns : (∃ n w, (m.run Γ n).ending = some (.ok w)) ↔ ∃ t, (r.run t).phase = .finished
  /-- A run that is over has this result. -/
  result : ∀ n w, (m.run Γ n).ending = some (.ok w) →
    ∀ v, w = .present v ↔ ∃ t, (r.run t).result? = some v
  /-- There is no result if the main computation has not returned. -/
  absent : ∀ n w, (m.run Γ n).ending = some (.ok w) →
    (w = .absent ↔ ∀ t, (r.run t).result? = none)
  only : ∀ n x, (m.run Γ n).ending = some x → ∃ w, x = .ok w

theorem present_eq_report {o : Option Value} : .present v = report o ↔ o = some v := by
  cases o with
  | none => simp [report]
  | some w => simp [report, eq_comm]

theorem absent_eq_report {o : Option Value} : .absent = report o ↔ o = none := by
  cases o <;> simp [report]

section Threads

variable {cells : List Content} {result : Known Γ} {seed : Nat} {body : Routine Γ}
  {settings : SettingsSlot} {statics : List Owned}

/-- The agenda of a program, which picks as the seed says. -/
def agenda (cells : List Content) (seed : Nat) (body : Routine Γ) : Agenda Γ .random :=
  Agenda.start (Draws.ofSeed seed) (cells.length + 1) body

/-- An evaluation does what its agenda says. -/
theorem follows_plan (result : Known Γ) (hqueue : cells[2]? = some (.list [])) (hchoices : 3 < cells.length)
    (haddressed : ∀ t, ((agenda cells seed body).run t).Addressed) :
    Evaluation.Follows Γ (Evaluation.start cells (program result seed body))
      ((agenda cells seed body).plan (cells.length + 1)) where
  start := Agenda.leads_program cells hqueue hchoices result seed body
  next t s h := by
    have hsound : ((agenda cells seed body).run t).Sound := (Agenda.Sound.start ..).run t
    simp only [Agenda.plan, Agenda.run_succ]
    exact Agenda.Enacted.step h hsound (haddressed t)
  ending _ _ _ h := h.ending_iff

/-- In a careful thread no wake-up is lost. Whoever awaits a result goes on with it, or is parked at a
future whose computation has not ended when nobody can go on. The result tells what the main
computation has returned. This is so whichever computations are picked. -/
theorem wakeups_are_kept (hΓ : Γ.Orderly) (hqueue : cells[2]? = some (.list []))
    (hchoices : 3 < cells.length) (hsize : settings.use.1.stackSize < StackPool.addressSpace)
    (hcareful : (Machine.start settings cells statics (program result seed body)).Careful Γ)
    (haddressed : ∀ t, ((agenda cells seed body).run t).Addressed) :
    (∃ clock, (Machine.start settings cells statics (program result seed body)).Follows Γ
      ((agenda cells seed body).plan (cells.length + 1)) clock) ∧
    (∀ (χ : Chooser) (c : χ.State) (t : Nat),
      ((Agenda.start c (cells.length + 1) body).run t).Accounted ∧
        ((Agenda.start c (cells.length + 1) body).run t).Grows
          ((Agenda.start c (cells.length + 1) body).run (t + 1))) ∧
    Reports Γ (Machine.start settings cells statics (program result seed body))
      (agenda cells seed body) := by
  have hsound : (agenda cells seed body).Sound := Agenda.Sound.start ..
  have hfollows := follows_plan result hqueue hchoices haddressed
  have hmain := program_orderly result seed body
  have hending : ∀ x, (∃ n, (Machine.run Γ n (Machine.start settings cells statics
      (program result seed body))).ending = some x) ↔ ∃ t v, x = .ok v ∧
        ((agenda cells seed body).run t).phase = .finished ∧
          v = report ((agenda cells seed body).run t).result? :=
    fun x => Machine.exists_ending_iff hΓ hmain hsize hcareful hfollows
  have hresult : ∀ n w, (Machine.run Γ n (Machine.start settings cells statics
      (program result seed body))).ending = some (.ok w) → ∃ t,
        ((agenda cells seed body).run t).phase = .finished ∧
          w = report ((agenda cells seed body).run t).result? := by
    intro n w hw
    obtain ⟨t, v, hv, hover⟩ := (hending _).mp ⟨n, hw⟩
    obtain rfl := Except.ok.inj hv
    exact ⟨t, hover⟩
  refine ⟨Machine.exists_follows hΓ hmain hsize hcareful hfollows, fun χ c t => ?_, ?_, ?_, ?_, ?_⟩
  · have hsound := (Agenda.Sound.start c (cells.length + 1) body).run t
    rw [Agenda.run_succ]
    exact ⟨hsound.accounted, hsound.grows_step⟩
  · constructor
    · rintro ⟨n, w, hw⟩
      obtain ⟨t, hover, -⟩ := hresult n w hw
      exact ⟨t, hover⟩
    · rintro ⟨t, hover⟩
      obtain ⟨n, hn⟩ := (hending (.ok _)).mpr ⟨t, _, rfl, hover, rfl⟩
      exact ⟨n, _, hn⟩
  · intro n w hw v
    obtain ⟨t, hover, rfl⟩ := hresult n w hw
    rw [eq_comm, present_eq_report]
    exact hsound.result?_eq hover v
  · intro n w hw
    obtain ⟨t, hover, rfl⟩ := hresult n w hw
    rw [eq_comm, absent_eq_report]
    constructor
    · intro hnone t'
      by_contra hsome
      obtain ⟨v, hv⟩ := Option.ne_none_iff_exists'.mp hsome
      rw [(hsound.result?_eq hover v).mpr ⟨t', hv⟩] at hnone
      cases hnone
    · exact fun hnone => hnone t
  · intro n x hx
    obtain ⟨t, v, rfl, -⟩ := (hending x).mp ⟨n, hx⟩
    exact ⟨v, rfl⟩

end Threads

/-! ### A computation that waits for another one -/

/-- The library that knows the handlers of computations alone. -/
def library : Library Content := Client.libraryOf handlers []

theorem library_orderly : library.Orderly where
  clauses t := by
    simp only [library, Client.libraryOf, handlers, List.map_cons, List.map_nil, List.lookup_cons,
      List.lookup_nil]
    repeat' split
    all_goals first | exact handler_orderly | exact fun _ hc => absurd hc List.not_mem_nil
  onReturn t c v := by
    simp only [library, Client.libraryOf, handlers, List.map_cons, List.map_nil, List.lookup_cons,
      List.lookup_nil]
    repeat' split
    all_goals first | exact onReturn_orderly c v | trivial
  procedure _ _ := trivial

/-- A computation that awaits the result of another one, which gives up control once. -/
def relay : Routine library :=
  .spawn ⟨"i32", rfl⟩ [] (.yield (.done (.int 7))) fun future =>
    .await future fun v => .release [.cell future] (.done (v.getD .unit))

namespace Agenda

variable {χ : Chooser}

/-- Whether the future that is looked at now, if there is one, was handed out before. -/
def isAddressed (r : Agenda Γ χ) : Bool :=
  match r.phase with
  | .running i =>
    match (r.jobs[i]?).map Job.progress with
    | some (.acting (.await future _) _) | some (.acting (.value future _) _) =>
      (r.seat? future).isSome
    | _ => true
  | _ => true

theorem addressed_of_isAddressed {r : Agenda Γ χ} (h : r.isAddressed = true) : r.Addressed := by
  intro i a hphase ha future next blocks hacts
  rcases hacts with hacts | hacts <;>
    simpa only [isAddressed, hphase, ha, Option.map_some, hacts] using h

end Agenda

theorem addressed_relay (t : Nat) : ((agenda Client.cells 1 relay).run t).Addressed := by
  obtain ⟨haddressed, hover⟩ : (∀ t < 15, ((agenda Client.cells 1 relay).run t).isAddressed = true) ∧
      ((agenda Client.cells 1 relay).run 14).phase = .finished := by decide +kernel
  refine Agenda.addressed_of_isAddressed ?_
  by_cases ht : t < 15
  · exact haddressed t ht
  · obtain ⟨d, rfl⟩ := Nat.exists_eq_add_of_le (Nat.le_of_not_lt fun h => ht (Nat.lt_succ_of_lt h))
    rw [Agenda.run_of_finished hover]
    exact haddressed 14 (by decide)

theorem careful_relay :
    (Machine.start {} Client.cells [] (program ⟨"i32", rfl⟩ 1 relay)).Careful library :=
  Machine.careful_of_watch (N := 124) (by decide +kernel)

-- whoever is picked, the result gets to the main computation
example : ((Agenda.start (χ := .listed fun t => t + 5) (0 : Nat) 5 relay).run 14).result? =
    some (.int 7) := rfl

/-- The computation that awaits the result goes on with it. -/
theorem wakeups_are_kept_relay :
    (∃ clock, (Machine.start {} Client.cells [] (program ⟨"i32", rfl⟩ 1 relay)).Follows library
      ((agenda Client.cells 1 relay).plan 5) clock) ∧
    (∀ (χ : Chooser) (c : χ.State) (t : Nat), ((Agenda.start c 5 relay).run t).Accounted ∧
      ((Agenda.start c 5 relay).run t).Grows ((Agenda.start c 5 relay).run (t + 1))) ∧
    Reports library (Machine.start {} Client.cells [] (program ⟨"i32", rfl⟩ 1 relay))
      (agenda Client.cells 1 relay) :=
  wakeups_are_kept library_orderly rfl (by decide) (by decide) careful_relay addressed_relay

end EffectHandlers.Promise
