import Mathlib.Data.List.InsertIdx
import EffectHandlers.Proofs.Queueing
/-!
# How computations take turns

Each step of an agenda in which a computation gets or loses control is followed in the evaluation that
enacts it. The cells show the agenda before the step up to one operation, and the agenda after the step
from then on.
-/

namespace EffectHandlers.Promise

open Evaluation (Leads Turns)

variable {Γ : Library Content} {P Q : Store Content → Prop} {R : Evaluation Content → Prop}
  {r r' : Agenda Γ .random} {s : Evaluation Content} {main : CellId} {i j : Nat} {a b : Job Γ}
  {p : Progress Γ} {v : Value} {ρ ρ' : Nat → ResumptionId} {ids : Nat → InstallationId}
  {F : List (Frame Content)} {f : Job Γ → Job Γ}

/-! ### Handlers -/

section Handlers

variable {label : Int} {result : Known Γ} {home : CellId}

/-- The clause for giving up control. -/
def yieldClause (k : ResumptionId) : Comp Content := Prog.toComp do
  Task.pushBack queue (.resumption (← Prog.take k))
  wakeRandom
  return .unit

/-- The clause for waiting. -/
def awaitClause (v : Value) (k : ResumptionId) : Comp Content := Prog.toComp do
  match v with
  | .cell future =>
    let x ← readFuture future
    writeFuture future { x with waiting := x.waiting ++ [← Prog.take k] }
  | _ => pure ()
  wakeRandom
  return .unit

/-- The return clause. -/
def returnClause (home : CellId) (v : Value) : Comp Content := Prog.toComp do
  let future ← futureOf home
  let x ← readFuture future
  let queued ← Task.readList queue
  Prog.write queue (.list (queued ++ x.waiting.map .resumption))
  writeFuture future { value := some v }
  wakeRandom
  return .unit

theorem clauseFor_yield :
    (⟨label, handlerName result.1, handlerName result.1, home⟩ : Handler).clauseFor? Γ yieldCommand =
      some (.resumptive fun _ _ k => yieldClause k) := by
  simp only [Handler.clauseFor?, result.2]
  rfl

theorem clauseFor_await :
    (⟨label, handlerName result.1, handlerName result.1, home⟩ : Handler).clauseFor? Γ awaitCommand =
      some (.resumptive fun _ v k => awaitClause v k) := by
  simp only [Handler.clauseFor?, result.2]
  rfl

theorem answer_handler : (Γ.handlerType (handlerName result.1)).answer = "()" := by
  rw [result.2]
  rfl

theorem onReturn_handler :
    (Γ.handlerType (handlerName result.1)).onReturn home v = returnClause home v := by
  rw [result.2]
  rfl

end Handlers

/-! ### Going on -/

namespace Agenda

theorem first_modify (hf : ∀ a, (f a).future = a.future)
    (h : (r.jobs[0]?).map Job.future = some main) :
    ((r.modify i f).jobs[0]?).map Job.future = some main := by
  have hfutures := congrArg (·[0]?) (futures_modify (r := r) (i := i) hf)
  simp only [List.getElem?_map] at hfutures
  exact hfutures.trans h

theorem Sound.notMem_places (h : r.Sound) (hphase : r.phase = .running i) : i ∉ r.places :=
  h.apart i (Sound.current_eq hphase)

/-- The computation that runs goes on. -/
theorem Keeps.goOn (h : r.Keeps main s ρ ids) (hsound : r.Sound) (hphase : r.phase = .running i)
    (hp : p.isStarted = true) : (r.modify i (.goOn p)).Keeps main s ρ ids := by
  have hshown : ∀ j b, (r.modify i (.goOn p)).shown ρ j b = b.shown ρ := fun j b =>
    shown_of_phase (r := r.modify i (.goOn p)) (by simp [modify, hphase]) j b
  have hplaces : (r.modify i (.goOn p)).places = r.places := places_modify fun _ => rfl
  refine
    { h with
      stored := h.stored.congr rfl rfl rfl fun j b hb => ?_
      rests := h.rests.congr [] (hplaces ▸ .refl _) (fun j hj b hb => ?_)
        fun j b hb hstarted => ?_
      first := first_modify (fun _ => rfl) h.first }
  · rw [hshown]
    rcases of_getElem?_modify hb with ⟨rfl, c, hc, rfl⟩ | ⟨-, hc⟩
    · refine ⟨c, hc, rfl, ?_⟩
      rw [shown_of_phase (by simp [hphase])]
      simp only [Job.shown, Job.goOn, Progress.value?_of_isStarted hp,
        Progress.value?_of_isStarted (hsound.isStarted hphase hc)]
    · exact ⟨b, hc, rfl, (shown_of_phase (by simp [hphase]) j b).symm⟩
  · rcases of_getElem?_modify hb with ⟨rfl, -⟩ | ⟨-, hc⟩
    · rw [hplaces] at hj
      exact absurd hj (hsound.notMem_places hphase)
    · exact ⟨b, hc, rfl, rfl⟩
  · rcases of_getElem?_modify hb with ⟨rfl, c, hc, rfl⟩ | ⟨-, hc⟩
    · exact ⟨c, hc, hsound.isStarted hphase hc, rfl⟩
    · exact ⟨b, hc, hstarted, rfl⟩

/-- The computation that runs does something that does not show. -/
theorem Keeps.goesOn (h : r.Keeps main s ρ ids) (hsound : r.Sound)
    (hphase : r.phase = .running i) (ha : r.jobs[i]? = some a) (hshell : Shell main F)
    (hp : p.isStarted = true) :
    (r.modify i (.goOn p)).Enacted main
      (({ s with frames := p.frames ++ .handling (ids i) :: F } : Evaluation Content).goOn
        (.eval p.task.toComp)) := by
  have hkept := h.goOn hsound hphase hp
  exact .running hphase ⟨getElem?_modify_self ha, ρ, ids, F,
    { hkept with rests := { hkept.rests with } }, rfl, hshell⟩ rfl

/-! ### Giving up control -/

/-- A continuation has moved to a new resumption. -/
theorem Rests.move (h : r.Rests s ρ ids) (k : Continuation Content) :
    r.Rests { s with
      resumptions := (((s.resumptions.insert k).2.erase s.resumptions.next).insert k).2 } ρ ids := by
  have hwf := Store.wellFormed_insert h.resumptions k
  refine h.keep_resumptions (fun i hi => ?_) (Nat.le_succ_of_le (Nat.le_succ _))
    (Store.wellFormed_insert (Store.wellFormed_erase hwf _) k)
  have hne := Nat.ne_of_lt (h.issued i hi)
  have hne' : ρ i ≠ ((s.resumptions.insert k).2.erase s.resumptions.next).next :=
    Nat.ne_of_lt (Nat.lt_succ_of_lt (h.issued i hi))
  show Store.find? _ (ρ i) = _
  rw [Store.find?_insert, if_neg hne', Store.find?_erase hwf, if_neg hne, Store.find?_insert,
    if_neg hne]

/-- The queue is the same as long as only the resumption of one changes that is not in it. -/
theorem map_queue_update {r : Agenda Γ .random} {x : ResumptionId} (hi : i ∉ r.places) :
    r.queue.map (fun j => Value.resumption (Function.update ρ i x j)) =
      r.queue.map fun j => Value.resumption (ρ j) :=
  List.map_congr_left fun j hj => by
    rw [Function.update_of_ne fun heq : j = i => hi (heq ▸ List.mem_append_left _ hj)]

theorem map_waiters_update {r : Agenda Γ .random} {x : ResumptionId} (hi : i ∉ r.places)
    (hb : r.jobs[j]? = some b) : b.waiters.map (Function.update ρ i x) = b.waiters.map ρ :=
  List.map_congr_left fun k hk =>
    Function.update_of_ne (fun heq : k = i => hi (heq ▸ mem_places_of_waiter hb hk)) ..

theorem shown_update {r : Agenda Γ .random} {x : ResumptionId} (hi : i ∉ r.places)
    (hb : r.jobs[j]? = some b) : b.shown (Function.update ρ i x) = b.shown ρ := by
  simp only [Job.shown, map_waiters_update hi hb]

/-- The code that a computation which runs goes back to, when it gives up control. -/
def kont (p : Progress Γ) (id : InstallationId) : Continuation Content :=
  .context "()" (.bind (fun _ => p.task.toComp) :: (p.frames ++ [.handling id]))

section Parking

variable {next : Routine Γ} {future : CellId} {onward : Option Value → Routine Γ}
  {blocks : List (Block (Routine Γ))}

/-- The computation that runs gives up control. -/
theorem Keeps.yields (h : r.Keeps main s ρ ids) (hsound : r.Sound)
    (hphase : r.phase = .running i) (ha : r.jobs[i]? = some a)
    (hacts : a.progress = .acting (.yield next) blocks) (hshell : Shell main F) :
    Turns Γ r.Shown (r.act i a).Shown ((r.act i a).Enacted main) (({ s with
        frames := blocks.map (Block.frame Routine.toTask) ++ .handling (ids i) :: F } :
      Evaluation Content).goOn (.eval (Routine.yield next).toTask.toComp)) := by
  let q : Progress Γ := .acting next blocks
  have hact : r.act i a =
      { r.modify i (.goOn q) with queue := r.queue ++ [i], phase := .waking } := by
    simp only [act, hacts, q]
  have hstarted := hsound.isStarted hphase ha
  obtain ⟨label, result, home, hid, -, -⟩ := h.rests.homed i a ha hstarted
  have hcode := Block.frame_code Routine.toTask blocks
  have hdispatch := Evaluation.dispatch_innermost (Γ := Γ) (s := { s with
    frames := blocks.map (Block.frame Routine.toTask) ++ .handling (ids i) :: F }) rfl hcode hid
    clauseFor_yield
  have hP := h.shown
  have hqueue := h.stored.queue
  -- the computation that goes on later is parked behind the others
  let κ := kont q (ids i)
  let ρ' := Function.update ρ i (s.resumptions.next + 1)
  have hgoes := h.goOn hsound hphase (p := q) rfl
  have hplaces : (r.modify i (.goOn q)).places = r.places := places_modify fun _ => rfl
  have hi := hsound.notMem_places hphase
  have hi' : i ∉ (r.modify i (.goOn q)).places := hplaces ▸ hi
  have hkept : ({ r.modify i (.goOn q) with
        queue := r.queue ++ [i], phase := .waking } : Agenda Γ .random).Keeps main
      { s with
        cells := s.cells.modify Promise.queue fun _ =>
          .list ((r.queue ++ [i]).map fun j => .resumption (ρ' j))
        resumptions := (((s.resumptions.insert κ).2.erase s.resumptions.next).insert κ).2 }
      ρ' ids :=
    { hgoes with
      stored := hgoes.stored.writeQueue rfl rfl fun j b hb => ⟨b, hb, rfl, by
        rw [shown_of_phase (by simp), shown_of_phase (by simp [modify, hphase])]
        exact shown_update hi' hb⟩
      rests := by
        have hparked := (hgoes.rests.move κ).park { r.modify i (.goOn q) with
            queue := r.queue ++ [i], phase := .waking } hi' ?_ (getElem?_modify_self ha)
          ((stands_iff rfl).mpr rfl) (Store.find?_moved s.resumptions κ) (fun j hj heq => ?_)
          fun j b hb => ⟨b, hb, rfl, rfl⟩
        · exact hparked.keep_cells (preserves_modify (.inl (by decide)))
        · show (r.queue ++ [i] ++ (r.modify i (.goOn q)).jobs.flatMap Job.waiters).Perm
            (i :: (r.queue ++ (r.modify i (.goOn q)).jobs.flatMap Job.waiters))
          rw [List.append_assoc]
          exact List.perm_middle
        · exact Nat.ne_of_lt (Nat.lt_succ_of_lt (hgoes.rests.issued j hj)) heq }
  have hlist : r.queue.map (fun j => Value.resumption (ρ j)) ++ [.resumption (s.resumptions.next + 1)] =
      (r.queue ++ [i]).map fun j => .resumption (ρ' j) := by
    rw [List.map_append, map_queue_update hi]
    simp [ρ']
  have hQ := hkept.shown
  rw [hact]
  refine .invoke hP hdispatch hid answer_handler rfl hcode (.take hP (Store.find?_insert_self ..)
    (.read hP hqueue (.write_turns hP ?_)))
  show Leads Γ _ _ (({ s with
    frames := .answering "()" :: F
    cells := s.cells.modify Promise.queue fun _ => .list
      (r.queue.map (fun j => Value.resumption (ρ j)) ++ [.resumption (s.resumptions.next + 1)])
    resumptions := (((s.resumptions.insert κ).2.erase s.resumptions.next).insert κ).2 } :
      Evaluation Content).goOn (.eval wakeTask.toComp))
  rw [hlist]
  exact .here hQ (.waking rfl ⟨ρ', ids, F, { hkept with rests := { hkept.rests with } }, rfl,
    hshell⟩ rfl)

theorem await_eq (future : CellId) (k : Option Value → Comp Content) :
    await future k = readFuture future fun x =>
      if x.value.isSome then value future k
      else .retain (.cell future) (.invoke .innermost
        { name := awaitCommand, payload := .cell future, owned := [.cell future] }
          fun _ => value future k) := by
  refine congrArg (readFuture future) (funext fun x => ?_)
  obtain ⟨v, waiting⟩ := x
  cases v <;> rfl

theorem leads_readFuture {c : CellId} {x : Future} {k : Future → Comp Content} (hP : P s.cells)
    (hx : s.cells.find? c = some (.future x)) (h : Leads Γ P R (s.goOn (.eval (k x)))) :
    Leads Γ P R (s.goOn (.eval (readFuture c k))) := .read hP hx h

/-- The computation that runs waits for a result that is not there. -/
theorem Keeps.awaits (h : r.Keeps main s ρ ids) (hsound : r.Sound)
    (hphase : r.phase = .running i) (ha : r.jobs[i]? = some a)
    (hacts : a.progress = .acting (.await b.future onward) blocks) (hshell : Shell main F)
    (hb : r.jobs[j]? = some b) (hv : b.progress.value? = none) :
    Turns Γ r.Shown (r.act i a).Shown ((r.act i a).Enacted main) (({ s with
        frames := blocks.map (Block.frame Routine.toTask) ++ .handling (ids i) :: F } :
      Evaluation Content).goOn (.eval (Routine.await b.future onward).toTask.toComp)) := by
  let q : Progress Γ := .awaiting b.future onward blocks
  have hact : r.act i a =
      { (r.modify i (.goOn q)).modify j (.await i) with phase := .waking } := by
    simp only [act, hacts, seat?_future hsound.futures hb, value?_future hsound.futures hb, hv, q]
  have hstarted := hsound.isStarted hphase ha
  obtain ⟨label, result, home, hid, -, -⟩ := h.rests.homed i a ha hstarted
  have hcode := Block.frame_code Routine.toTask blocks
  have hdispatch := Evaluation.dispatch_innermost (Γ := Γ) (s := { s with
    frames := blocks.map (Block.frame Routine.toTask) ++ .handling (ids i) :: F }) rfl hcode hid
    clauseFor_await
  have hP := h.shown
  have hfuture := h.stored.futures j b hb
  rw [shown_of_phase (by simp [hphase])] at hfuture
  let κ := kont q (ids i)
  let ρ' := Function.update ρ i (s.resumptions.next + 1)
  have hgoes := h.goOn hsound hphase (p := q) rfl
  have hplaces : (r.modify i (.goOn q)).places = r.places := places_modify fun _ => rfl
  have hi := hsound.notMem_places hphase
  have hi' : i ∉ (r.modify i (.goOn q)).places := hplaces ▸ hi
  -- the job at whose future the computation waits
  obtain ⟨b', hb', hfuture', hvalue', hwaiters'⟩ : ∃ b', (r.modify i (.goOn q)).jobs[j]? = some b' ∧
      b'.future = b.future ∧ b'.progress.value? = none ∧ b'.waiters = b.waiters := by
    refine ⟨_, exists_getElem?_modify hb, ?_⟩
    split
    · exact ⟨rfl, rfl, rfl⟩
    · exact ⟨rfl, hv, rfl⟩
  have hof : ∀ {k c}, ((r.modify i (.goOn q)).jobs.modify j (.await i))[k]? = some c →
      ∃ d, (r.modify i (.goOn q)).jobs[k]? = some d ∧ c.progress = d.progress ∧
        c.future = d.future ∧ c.waiters = if k = j then d.waiters ++ [i] else d.waiters := by
    intro k c hc
    rcases of_getElem?_modify hc with ⟨rfl, d, hd, rfl⟩ | ⟨hjk, hd⟩
    · exact ⟨d, hd, rfl, rfl, (if_pos rfl).symm⟩
    · exact ⟨c, hd, rfl, rfl, (if_neg (Ne.symm hjk)).symm⟩
  let x : Future := { value := none, waiting := b.waiters.map ρ ++ [s.resumptions.next + 1] }
  have hkept : ({ (r.modify i (.goOn q)).modify j (.await i) with
        phase := .waking } : Agenda Γ .random).Keeps main
      { s with
        cells := s.cells.modify b'.future fun _ => .future x
        resumptions := (((s.resumptions.insert κ).2.erase s.resumptions.next).insert κ).2 }
      ρ' ids :=
    { stored := by
        have hfutures := (futures_modify (r := r) (i := i) (f := .goOn q) fun _ => rfl).symm ▸
          hsound.futures
        refine hgoes.stored.writeFuture hfutures hb' (map_queue_update (r := r) hi) rfl rfl
          fun k c hc => ?_
        obtain ⟨d, hd, hprogress, hdfuture, hwaiters⟩ := hof hc
        refine ⟨d, hd, hdfuture, ?_⟩
        rw [shown_of_phase (by simp), shown_of_phase (by simp [modify, hphase])]
        split
        · rename_i hk
          subst hk
          obtain rfl := Option.some.inj (hb'.symm.trans hd)
          simp only [Job.shown, hprogress, hvalue', hwaiters, if_true, List.map_append, ρ',
            hwaiters', map_waiters_update hi hb, List.map_singleton, Function.update_self, x]
        · rename_i hk
          rw [if_neg hk] at hwaiters
          rw [← shown_update (ρ := ρ) (x := s.resumptions.next + 1) hi' hd]
          simp only [Job.shown, hprogress, hwaiters, ρ']
      rests := by
        have hparked := (hgoes.rests.move κ).park { (r.modify i (.goOn q)).modify j (.await i)
            with phase := .waking } hi' ?_ (getElem?_modify_self ha)
          ((stands_iff rfl).mpr rfl) (Store.find?_moved s.resumptions κ) (fun k hk heq => ?_) fun k c hc => ?_
        · exact hparked.keep_cells (preserves_modify (.inr ⟨_, hfuture' ▸ hfuture⟩))
        · obtain ⟨rest, hrest, hmoved⟩ := exists_flatMap_perm Job.waiters hb'
          show (r.queue ++ ((r.modify i (.goOn q)).jobs.modify j (.await i)).flatMap Job.waiters).Perm
            (i :: (r.queue ++ (r.modify i (.goOn q)).jobs.flatMap Job.waiters))
          refine List.Perm.trans ?_ List.perm_middle
          refine List.Perm.append_left _ ((hmoved (.await i)).trans ?_)
          refine List.Perm.trans ?_ (hrest.symm.cons i)
          simp only [Job.await, List.append_assoc, List.singleton_append]
          exact List.perm_middle
        · exact Nat.ne_of_lt (Nat.lt_succ_of_lt (hgoes.rests.issued k hk)) heq
        · obtain ⟨d, hd, hprogress, hdfuture, -⟩ := hof hc
          exact ⟨d, hd, hprogress, hdfuture⟩
      first := first_modify (r := r.modify i (.goOn q)) (f := .await i) (fun _ => rfl) hgoes.first
      pending := h.pending }
  rw [hfuture'] at hkept
  have hQ := hkept.shown
  have hcommand : (Routine.await b.future onward).toTask.toComp =
      readFuture b.future fun x =>
        if x.value.isSome then value b.future fun x => (onward x).toTask.toComp
        else .retain (.cell b.future) (.invoke .innermost
          { name := awaitCommand, payload := .cell b.future, owned := [.cell b.future] }
            fun _ => q.task.toComp) := await_eq b.future _
  rw [hact, hcommand]
  refine leads_readFuture (R := fun t => Leads Γ _ _ (t.step Γ)) hP hfuture ?_
  rw [if_neg (by simp [Job.shown, hv])]
  refine .retain hP (.invoke hP hdispatch hid answer_handler rfl hcode ?_)
  refine leads_readFuture (R := fun t => Leads Γ _ _ (t.step Γ)) hP hfuture (.take hP
    (Store.find?_insert_self ..) (.write_turns hP ?_))
  have hx : ({ b.shown ρ with
      waiting := (b.shown ρ).waiting ++ [s.resumptions.next + 1] } : Future) = x := by
    simp only [Job.shown, hv, x]
  show Leads Γ _ _ (({ s with
    frames := .answering "()" :: F
    cells := s.cells.modify b.future fun _ => .future { b.shown ρ with
      waiting := (b.shown ρ).waiting ++ [s.resumptions.next + 1] }
    resumptions := (((s.resumptions.insert κ).2.erase s.resumptions.next).insert κ).2 } :
      Evaluation Content).goOn (.eval wakeTask.toComp))
  rw [hx]
  exact .here hQ (.waking rfl ⟨ρ', ids, F, { hkept with rests := { hkept.rests with } }, rfl,
    hshell⟩ rfl)

end Parking

/-! ### Ending -/

/-- The computation that runs ends, and those who have waited for it go into the queue. -/
theorem Keeps.finishes (h : r.Keeps main s ρ ids) (hsound : r.Sound)
    (hphase : r.phase = .running i) (ha : r.jobs[i]? = some a)
    (hacts : a.progress = .acting (.done v) []) (hshell : Shell main F) :
    Turns Γ r.Shown (r.act i a).Shown ((r.act i a).Enacted main)
      (({ s with frames := .handling (ids i) :: F } : Evaluation Content).goOn
        (.eval (Routine.done v : Routine Γ).toTask.toComp)) := by
  have hact : r.act i a = { r.modify i (.finish v) with
      queue := r.queue ++ a.waiters, phase := .settling i a.waiters } := by
    simp only [act, hacts]
    rfl
  have hstarted := hsound.isStarted hphase ha
  obtain ⟨label, result, home, hid, hhome, -⟩ := h.rests.homed i a ha hstarted
  have hP := h.shown
  have hfuture := h.stored.futures i a ha
  rw [shown_of_phase (by simp [hphase])] at hfuture
  have hi := hsound.notMem_places hphase
  let installed := s.installed.modify (ids i) fun x => { x with label := retiredLabel }
  have hkept : ({ r.modify i (.finish v) with
        queue := r.queue ++ a.waiters, phase := .settling i a.waiters } : Agenda Γ .random).Keeps main
      { s with
        cells := s.cells.modify Promise.queue fun _ =>
          .list ((r.queue ++ a.waiters).map fun j => .resumption (ρ j))
        installed } ρ ids :=
    { h with
      stored := h.stored.writeQueue rfl rfl fun j b hb => by
        rcases of_getElem?_modify hb with ⟨rfl, c, hc, rfl⟩ | ⟨hij, hb⟩
        · obtain rfl := Option.some.inj (ha.symm.trans hc)
          refine ⟨a, ha, rfl, ?_⟩
          rw [shown_of_phase (r := r) (by simp [hphase]), shown_of_settling rfl, if_pos rfl]
          simp [Job.shown, Progress.value?_of_isStarted hstarted]
        · refine ⟨b, hb, rfl, ?_⟩
          rw [shown_of_phase (r := r) (by simp [hphase]), shown_of_settling rfl, if_neg hij]
      rests := by
        have hinstalled : r.Rests { s with installed } ρ ids := by
          refine h.rests.keep (fun _ _ _ hv => hv) (fun _ _ => rfl) (Nat.le_refl _)
            h.rests.resumptions (fun id x hx => ?_) (Store.wellFormed_modify h.rests.installed _ _)
          show ∃ label, Store.find? (s.installed.modify (ids i) _) id = _
          rw [Store.find?_modify]
          by_cases hne : id = ids i
          · rw [if_pos hne, hx]
            exact ⟨retiredLabel, rfl⟩
          · rw [if_neg hne]
            exact ⟨x.label, hx⟩
        have hleft : ({ r.modify i (.finish v) with
            queue := r.queue ++ a.waiters, phase := .settling i a.waiters } :
              Agenda Γ .random).Rests { s with installed } ρ ids := by
          refine hinstalled.congr [] ?_ (fun j hj b hb => ?_) fun j b hb hstart => ?_
          · obtain ⟨rest, hrest, hmoved⟩ := exists_flatMap_perm Job.waiters ha
            show (r.queue ++ r.jobs.flatMap Job.waiters).Perm
              (r.queue ++ a.waiters ++ (r.jobs.modify i (.finish v)).flatMap Job.waiters)
            rw [List.append_assoc]
            exact List.Perm.append_left _ (hrest.trans ((hmoved (.finish v)).append_left _).symm)
          · rcases of_getElem?_modify hb with ⟨rfl, -⟩ | ⟨-, hb⟩
            · obtain ⟨c, hc, hcv⟩ := (hsound.finish hphase ha v).parked _ hj
              obtain rfl := Option.some.inj ((getElem?_modify_self ha).symm.trans hc)
              cases hcv
            · exact ⟨b, hb, rfl, rfl⟩
          · rcases of_getElem?_modify hb with ⟨rfl, c, -, rfl⟩ | ⟨-, hb⟩
            · cases hstart
            · exact ⟨b, hb, hstart, rfl⟩
        exact { hleft.keep_cells (preserves_modify (c := Promise.queue) (.inl (by decide))) with }
      first := first_modify (r := r) (f := .finish v) (fun _ => rfl) h.first }
  have hlist : r.queue.map (fun j => Value.resumption (ρ j)) ++
      (a.shown ρ).waiting.map .resumption =
        (r.queue ++ a.waiters).map fun j => Value.resumption (ρ j) := by
    simp [Job.shown, Function.comp_def]
  have hQ := hkept.shown
  rw [hact]
  refine .done hP (.returning hP rfl hid ?_)
  rw [answer_handler, onReturn_handler]
  refine .read hP hhome (leads_readFuture (R := fun t => Leads Γ _ _ (t.step Γ)) hP hfuture
    (.read hP h.stored.queue (.write_turns hP ?_)))
  show Leads Γ _ _ (({ s with
    frames := .answering "()" :: F
    cells := s.cells.modify Promise.queue fun _ => .list
      (r.queue.map (fun j => Value.resumption (ρ j)) ++ (a.shown ρ).waiting.map .resumption)
    installed } : Evaluation Content).goOn (.eval (settle a.future v).toComp))
  rw [hlist]
  exact .here hQ (.settling rfl (getElem?_modify_self ha) rfl ⟨ρ, ids, F,
    { hkept with rests := { hkept.rests with } }, rfl, hshell⟩ rfl)

/-- The future of a computation that has ended gets the result. -/
theorem Answers.settles {waiters : List Nat} (h : r.Answers main s) (hsound : r.Sound)
    (hphase : r.phase = .settling i waiters) (ha : r.jobs[i]? = some a)
    (hv : a.progress = .ended v) :
    Turns Γ r.Shown r.step.Shown (r.step.Enacted main)
      (s.goOn (.eval (settle a.future v).toComp)) := by
  obtain ⟨ρ, ids, F, hkeeps, hframes, hshell⟩ := h
  have hstep : r.step = { r with phase := .waking } := by simp only [Agenda.step, hphase]
  have hfuture : ∃ x, s.cells.find? a.future = some (.future x) :=
    ⟨_, hkeeps.stored.futures i a ha⟩
  have hvalue : a.shown ρ = { value := some v } := by
    have hwaiters := (hsound.jobs i a ha).settled (by simp [hv, Progress.value?])
    simp [Job.shown, hv, Progress.value?, hwaiters]
  have hkept : ({ r with phase := .waking } : Agenda Γ .random).Keeps main
      { s with cells := s.cells.modify a.future fun _ => .future { value := some v } } ρ ids :=
    { hkeeps with
      stored := hkeeps.stored.writeFuture hsound.futures ha rfl rfl rfl fun j b hb => by
        refine ⟨b, hb, rfl, ?_⟩
        rw [shown_of_phase (by simp)]
        split
        · rename_i hj
          subst hj
          obtain rfl := Option.some.inj (ha.symm.trans hb)
          exact hvalue
        · rename_i hj
          rw [shown_of_settling hphase, if_neg (Ne.symm hj)]
      rests := { hkeeps.rests.keep_cells (preserves_modify (.inr hfuture)) with } }
  have hQ := hkept.shown
  rw [hstep]
  exact .write_turns hkeeps.shown (.here hQ (.waking rfl ⟨ρ, ids, F,
    { hkept with rests := { hkept.rests with } }, hframes, hshell⟩ rfl))

end Agenda

/-- Answers are passed on until it is reported how the main computation has ended. -/
theorem Shell.leads {x : Future} (h : Shell main F) (hP : P s.cells)
    (hmain : s.cells.find? main = some (.future x)) (hpending : s.pending = none)
    (hframes : s.frames = F)
    (hR : ∀ s', s'.cells = s.cells → s'.phase = .finished (report x.value) → R s') :
    Leads Γ P R (s.goOn (.ret v)) := by
  induction h generalizing s v with
  | base =>
    refine .bind hP hframes ?_
    rw [reportTask_eq]
    exact .read hP hmain (.done hP (.bind hP rfl (.done hP (.finished hP rfl
      (.here hP (hR _ rfl rfl))))))
  | pass _ ih => exact .bind hP hframes (.done hP (ih hP hmain hpending rfl hR))
  | drop _ ih => exact .bind hP hframes (.done hP (ih hP hmain hpending rfl hR))
  | answer _ ih => exact .answering hP hframes hpending (ih hP hmain hpending rfl hR)

namespace Agenda

/-- A run ends when the queue is empty. -/
theorem Answers.ends (h : r.Answers main s) (hphase : r.phase = .ending) :
    Turns Γ r.Shown r.step.Shown (r.step.Enacted main) (s.goOn (.eval (.done .unit))) := by
  obtain ⟨ρ, ids, F, hkeeps, hframes, hshell⟩ := h
  have hstep : r.step = { r with phase := .finished } := by simp only [Agenda.step, hphase]
  obtain ⟨a, ha, hmain⟩ := Option.map_eq_some_iff.mp hkeeps.first
  have hfuture := hkeeps.stored.futures 0 a ha
  rw [shown_of_phase (by simp [hphase]), hmain] at hfuture
  have hover : ({ r with phase := .finished } : Agenda Γ .random).Shown s.cells :=
    ⟨ρ, hkeeps.rests.distinct, fun _ hx => Option.some.inj (hx.symm.trans hkeeps.stored.queue),
      fun j b hb x hx => by
        have hshown := Option.some.inj (hx.symm.trans (hkeeps.stored.futures j b hb))
        rwa [shown_of_phase (by simp [hphase])] at hshown⟩
  rw [hstep]
  refine .turns hkeeps.shown rfl (.answering hover hframes hkeeps.pending (hshell.leads hover
    hfuture hkeeps.pending rfl fun s' hcells hfinished => .finished rfl (hcells ▸ hover) ?_))
  rw [hfinished]
  simp [result?, ha, Job.shown]

/-! ### Getting control -/

/-- Resume what was picked from the queue. -/
def resumePicked (k : Unit → Comp Content) : Option Value → Comp Content
  | some (.resumption r) => .resume r .unit fun _ => k ()
  | _ => k ()

/-- Pick one from the queue and resume it, if there is one. -/
def pickFrom (waiting : List Value) (k : Unit → Comp Content) : Comp Content :=
  if waiting.isEmpty then k ()
  else choose waiting.length fun i =>
    .write Promise.queue (.list (waiting.eraseIdx i)) (resumePicked k waiting[i]?)

theorem wakeRandom_eq (k : Unit → Comp Content) :
    wakeRandom k = Task.readList Promise.queue fun waiting => pickFrom waiting k := by
  refine congrArg (Task.readList Promise.queue) (funext fun waiting => ?_)
  unfold pickFrom
  by_cases hempty : waiting.isEmpty = true
  · simp only [hempty, if_true]
    rfl
  · simp only [hempty, if_false, Bool.false_eq_true]
    refine congrArg (choose waiting.length) (funext fun i => ?_)
    refine congrArg (Comp.write Promise.queue (Content.list (waiting.eraseIdx i))) ?_
    cases waiting[i]? with
    | none => rfl
    | some v => cases v <;> rfl

/-- An index that is drawn from the random numbers of the thread. -/
def chooseBy (draw : Draws → Nat × Draws) : Task Nat := do
  match ← Prog.read Promise.choices with
  | .draws (some d) =>
    let (i, d) := draw d
    Prog.write Promise.choices (.draws (some d))
    return i
  | _ => return 0

theorem choose_eq (n : Nat) : choose n = chooseBy (Draws.below n) := rfl

theorem chooseBy_draws (draw : Draws → Nat × Draws) (k : Nat → Comp Content) :
    ∃ g, chooseBy draw k = .read Promise.choices g ∧ ∀ d, g (.draws (some d)) =
      .write Promise.choices (.draws (some (draw d).2)) (k (draw d).1) := by
  refine ⟨_, rfl, fun d => ?_⟩
  cases hpick : draw d with
  | mk i d' =>
    simp only [hpick]
    rfl

theorem leads_chooseBy {draw : Draws → Nat × Draws} {d : Draws} {k : Nat → Comp Content}
    (hP : P s.cells) (hchoices : s.cells.find? Promise.choices = some (.draws (some d)))
    (h : Leads Γ P R (({ s with
        cells := s.cells.modify Promise.choices fun _ => .draws (some (draw d).2) } :
      Evaluation Content).goOn (.eval (k (draw d).1)))) :
    Leads Γ P R (s.goOn (.eval (chooseBy draw k))) := by
  obtain ⟨g, hg, hdrawn⟩ := chooseBy_draws draw k
  rw [hg]
  refine .read hP hchoices ?_
  rw [hdrawn]
  exact .write hP h

/-- Nobody is in the queue. -/
theorem Answers.stops (h : r.Answers main s) (hphase : r.phase = .waking) (hqueue : r.queue = []) :
    Turns Γ r.Shown r.step.Shown (r.step.Enacted main) (s.goOn (.eval wakeTask.toComp)) := by
  obtain ⟨ρ, ids, F, hkeeps, hframes, hshell⟩ := h
  have hstep : r.step = { r with phase := .ending } := by
    simp only [Agenda.step, hphase, wake_eq_ending hqueue]
  have hkept : ({ r with phase := .ending } : Agenda Γ .random).Keeps main s ρ ids :=
    { hkeeps with
      stored := hkeeps.stored.congr rfl rfl rfl fun j b hb => ⟨b, hb, rfl, by
        rw [shown_of_phase (by simp), shown_of_phase (by simp [hphase])]⟩
      rests := { hkeeps.rests with } }
  have hlist := hkeeps.stored.queue
  rw [hqueue] at hlist
  have hQ := hkept.shown
  rw [hstep]
  have hcode : wakeTask.toComp = wakeRandom fun _ => .done .unit := rfl
  rw [hcode, wakeRandom_eq]
  exact .read_turns hkeeps.shown hlist (.here hQ (.ending rfl ⟨ρ, ids, F,
    { hkept with rests := { hkept.rests with } }, hframes, hshell⟩ rfl))

/-- What a computation that was picked goes on with. -/
theorem leads_pickFrom {waiting : List Value} {d : Draws} {id : ResumptionId}
    {k : Unit → Comp Content} (hP : P s.cells)
    (hP' : P (s.cells.modify Promise.choices fun _ =>
      .draws (some (Draws.below waiting.length d).2)))
    (hchoices : s.cells.find? Promise.choices = some (.draws (some d)))
    (hid : waiting[(Draws.below waiting.length d).1]? = some (.resumption id))
    (h : Leads Γ Q R (({ s with
        cells := (s.cells.modify Promise.choices fun _ =>
          .draws (some (Draws.below waiting.length d).2)).modify Promise.queue fun _ =>
            .list (waiting.eraseIdx (Draws.below waiting.length d).1) } : Evaluation Content).goOn
      (.eval (.resume id .unit fun _ => k ())))) :
    Turns Γ P Q R (s.goOn (.eval (pickFrom waiting k))) := by
  have hne : waiting.isEmpty ≠ true := by
    intro hempty
    rw [List.isEmpty_iff.mp hempty, List.getElem?_nil] at hid
    cases hid
  unfold pickFrom
  rw [if_neg hne, choose_eq]
  generalize Draws.below waiting.length = draw at *
  refine leads_chooseBy (R := fun t => Leads Γ Q R (t.step Γ)) hP hchoices ?_
  rw [hid]
  exact .write_turns hP' h

/-- The handler type of a computation can be declared at any time. -/
theorem exists_declare (s : Evaluation Content) (result : Known Γ) :
    ∃ declared, s.declare (handlerName result.1) (Γ.handlerType (handlerName result.1)) =
      .ok declared := by
  rw [result.2]
  unfold Evaluation.declare
  split
  · exact ⟨_, rfl⟩
  · exact ⟨_, rfl⟩

/-- A computation that was picked from the queue goes on. -/
theorem Answers.resumes {k : Nat} {d : Draws} (h : r.Answers main s) (hsound : r.Sound)
    (hphase : r.phase = .waking) (hpick : Draws.below r.queue.length r.choices = (k, d))
    (hj : r.queue[k]? = some j) :
    Turns Γ r.Shown r.step.Shown (r.step.Enacted main) (s.goOn (.eval wakeTask.toComp)) := by
  obtain ⟨ρ, ids, F, hkeeps, hframes, hshell⟩ := h
  have hmem : j ∈ r.places := List.mem_append_left _ (List.mem_of_getElem? hj)
  obtain ⟨a, ha, hv⟩ := hsound.parked j hmem
  obtain ⟨κ, hκ, hstands⟩ := hkeeps.rests.parked j hmem a ha
  have hP := hkeeps.shown
  let left : Agenda Γ .random :=
    { r with queue := r.queue.eraseIdx k, choices := d, phase := .running j }
  let picked := left.modify j Job.start
  let n := if (r.jobs[j]?).any (·.progress.isFresh) then r.nextCell + 1 else r.nextCell
  have hstep : r.step = { picked with nextCell := n } := by
    have hpick' : Chooser.random.choose r.queue.length r.choices = (k, d) := hpick
    have hwake := wake_eq_running (r := r) (j := j) (by rw [hpick']; exact hj)
    rw [hpick'] at hwake
    simp only [Agenda.step, hphase, hwake]
    rfl
  have hsound' : picked.Sound := hsound.pick hphase hj (Nat.le_refl _)
  have hgone : j ∉ left.places := by
    have hgone := hsound'.notMem_places rfl
    rwa [places_modify fun _ => Job.start_waiters] at hgone
  -- the cells after the choice
  let waiting := r.queue.map fun i => Value.resumption (ρ i)
  let cells := (s.cells.modify Promise.choices fun _ => .draws (some d)).modify Promise.queue
    fun _ => .list ((r.queue.eraseIdx k).map fun i => .resumption (ρ i))
  have hstored : picked.Stored ρ cells :=
    (hkeeps.stored.writeChoices d).writeQueue rfl rfl fun i b hb => by
      rcases of_getElem?_modify hb with ⟨rfl, c, hc, rfl⟩ | ⟨-, hb⟩
      · refine ⟨c, hc, Job.start_future, ?_⟩
        rw [shown_of_phase (r := picked) (by simp [picked, left, modify]),
          shown_of_phase (by simp [hphase])]
        simp [Job.shown]
      · refine ⟨b, hb, rfl, ?_⟩
        rw [shown_of_phase (r := picked) (by simp [picked, left, modify]),
          shown_of_phase (by simp [hphase])]
  have hpreserves : Preserves s.cells cells := fun c v hc hx =>
    preserves_modify (.inl (by decide)) c v hc (preserves_modify (.inl (Nat.le_refl _)) c v hc hx)
  have hleft : left.Rests { s with cells, resumptions := s.resumptions.erase (ρ j) } ρ ids :=
    (hkeeps.rests.unpark hj).keep_cells hpreserves
  have hQ : ∀ n, ({ picked with nextCell := n } : Agenda Γ .random).Shown cells := fun n => by
    refine Shown.of_nextCell (r := picked) ⟨ρ, ?_, fun _ hx =>
      Option.some.inj (hx.symm.trans hstored.queue), fun i b hb _ hx =>
        Option.some.inj (hx.symm.trans (hstored.futures i b hb))⟩ n
    rw [places_modify fun _ => Job.start_waiters]
    exact hleft.distinct
  have hfirst : (picked.jobs[0]?).map Job.future = some main :=
    first_modify (r := left) (fun _ => Job.start_future) hkeeps.first
  have hmember : picked.jobs[j]? = some a.start := getElem?_modify_self ha
  have hshell' : Shell main (.bind (fun _ => .done .unit) :: s.frames) := by
    rw [hframes]
    exact .drop (.answer hshell)
  have hlength : waiting.length = r.queue.length := List.length_map ..
  have hid : waiting[(Draws.below waiting.length r.choices).1]? = some (.resumption (ρ j)) := by
    rw [hlength, hpick]
    simp [waiting, hj]
  have hcode : wakeTask.toComp = wakeRandom fun _ => .done .unit := rfl
  rw [hstep, hcode, wakeRandom_eq]
  refine .read hP hkeeps.stored.queue (leads_pickFrom hP ?_ hkeeps.stored.choices hid ?_)
  · refine hP.of_find? ?_ fun i b hb => ?_ <;> rw [Store.find?_modify, if_neg]
    · decide
    · exact hkeeps.stored.future_ne hb (Nat.le_refl _)
  · rw [hlength, hpick, List.eraseIdx_map]
    refine .resume (hQ n) hκ ?_
    rcases Job.fresh_or_started hv with ⟨b, hp⟩ | hstarted
    · -- the computation starts under a handler of its own
      have hn : n = picked.nextCell + 1 := by simp [n, ha, hp, Progress.isFresh, picked, left, modify]
      unfold Stands at hstands
      rw [hp] at hstands
      obtain ⟨result, owned, rfl⟩ := hstands
      obtain ⟨declared, hdeclare⟩ := exists_declare s result
      have habove : Promise.choices < cells.next := by
        rw [hstored.next]
        exact (hkeeps.stored.above j a ha).trans (hsound.older j a ha)
      have hnew := hstored.alloc (.value (.cell a.future))
      have hrests := hleft.start s.nextLabel result hstored.wellFormed
        habove hgone ha
      have hstart : a.start = { a with progress := .acting b [], starts := a.starts + 1 } := by
        simp [Job.start, hp]
      have hkept : ({ picked with nextCell := picked.nextCell + 1 } : Agenda Γ .random).Keeps main
          { s with
            cells := (cells.insert (.value (.cell a.future))).2
            resumptions := s.resumptions.erase (ρ j)
            installed := (s.installed.insert
              ⟨s.nextLabel, handlerName result.1, handlerName result.1, cells.next⟩).2 } ρ
          (Function.update ids j s.installed.next) :=
        { stored := hnew, rests := { hrests with }, first := hfirst, pending := hkeeps.pending }
      have hQ' := hkept.shown
      rw [hn]
      refine .enter_function (hn ▸ hQ n) (.alloc (hn ▸ hQ n) (.handle hQ' rfl hdeclare
        (.here hQ' (.running (i := j) (a := a.start) rfl ⟨hmember, ρ, _, _,
          { hkept with rests := { hkept.rests with } }, ?_, .pass (.answer hshell')⟩ ?_))))
      · rw [hstart, Function.update_self]
        rfl
      · rw [hstart]
        rfl
    · obtain rfl := (stands_iff hstarted).mp hstands
      have hn : n = picked.nextCell := by
        simp [n, ha, Progress.isFresh_of_isStarted hstarted, picked, left, modify]
      have hstart := Job.start_of_isStarted hstarted
      rw [hstart] at hmember
      have hrests := hleft.goesOn hgone ha hstarted
      have hkept : picked.Keeps main
          { s with cells, resumptions := s.resumptions.erase (ρ j) } ρ ids :=
        { stored := hstored, rests := hrests, first := hfirst, pending := hkeeps.pending }
      have hQ' := hkept.shown
      rw [hn]
      refine .enter_context hQ' (.bind hQ' rfl (.here hQ' (.running (i := j) (a := a) rfl ⟨hmember,
        ρ, ids, _, { hkept with rests := { hkept.rests with } }, ?_, hshell'⟩ rfl)))
      simp [Evaluation.taken, Evaluation.push, Evaluation.goOn]

end Agenda

end EffectHandlers.Promise
