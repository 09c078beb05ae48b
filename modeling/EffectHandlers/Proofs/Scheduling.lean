import EffectHandlers.Proofs.Enacting
/-!
# How a pool is scheduled, and what its actors do

## How a pool is scheduled

Each step of a roster is followed in the evaluation that enacts it, down to the next point at which
the roster goes on. The cells show the roster before the step up to one operation, and the roster
after the step from then on.
-/

namespace EffectHandlers.Actor

open Evaluation (Leads Turns)

variable {Γ : Library Content} {P Q : Store Content → Prop}
  {R : Evaluation Content → Prop} {r : Roster} {s : Evaluation Content} {i j : Nat} {a : Member} {f : Member → Member} {p : ActorPool}
  {seats : List (Nat × ResumptionId)} {ids : Nat → InstallationId} {F : List (Frame Content)}

namespace Roster

/-- A parked actor as the pool has it. -/
def parkedActor (r : Roster) (x : Nat × ResumptionId) : ParkedActor :=
  ⟨(r.address x.1).waiting, x.2⟩

/-- What an evaluation that enacts a roster has stored. -/
structure Keeps (r : Roster) (s : Evaluation Content) (p : ActorPool)
    (seats : List (Nat × ResumptionId)) (ids : Nat → InstallationId) : Prop where
  stored : r.Stored s.cells p
  rests : r.Rests s.resumptions s.installed seats ids
  label : p.label = -1
  active : p.active = seats.map r.parkedActor
  deadlock : p.deadlock = r.deadlock
  pending : s.pending = none
  declared : s.declared = [handlerName]
  nextLabel : s.nextLabel = -2

theorem Keeps.shown (h : r.Keeps s p seats ids) : r.Shown s.cells := by
  refine h.stored.shown ?_ h.deadlock
  rw [h.active, ← h.rests.order, List.map_map, List.map_map]
  rfl

/-- The actor with this number has control, above this shell. -/
structure Controls (r : Roster) (s : Evaluation Content) (i : Nat) (a : Member) : Prop where
  member : r.members[i]? = some a
  keeps : ∃ p seats ids F, r.Keeps s p seats ids ∧ p.current = (r.address i).waiting ∧
    s.frames = a.progress.frames (r.address i) ++ .handling (ids i) :: F ∧ Shell r.pool F

theorem Controls.shown (h : r.Controls s i a) : r.Shown s.cells := by
  obtain ⟨_, _, _, _, _, hkeeps, _⟩ := h
  exact hkeeps.shown

/-- A clause or a return clause of a pool runs, above a shell. -/
def Answers (r : Roster) (s : Evaluation Content) : Prop :=
  ∃ p seats ids F, r.Keeps s p seats ids ∧ s.frames = .answering "()" :: F ∧ Shell r.pool F

/-- An evaluation enacts a roster. -/
inductive Enacted (r : Roster) (s : Evaluation Content) : Prop
  | running {i : Nat} {a : Member} (hphase : r.phase = .running i) (h : r.Controls s i a)
      (hs : s.phase = .eval (a.progress.code (r.address i)))
  | pushing {i j : Nat} {a : Member} {message : Value} (hphase : r.phase = .pushing i (r.address j) message)
      (hj : j < r.members.length) (h : r.Controls s i a)
      (hs : s.phase = .eval (Task.pushBack (r.address j).inbox message fun _ =>
        yield r.pool fun _ => a.progress.wakes (r.address i)))
  | parking {i : Nat} {a : Member} (hphase : r.phase = .parking i) (h : r.Controls s i a)
      (hs : s.phase = .eval (yield r.pool fun _ => a.progress.wakes (r.address i)))
  | waking (hphase : r.phase = .waking) (h : r.Answers s)
      (hs : s.phase = .eval (Actor.wake r.pool).toComp)
  | ending (hphase : r.phase = .ending) (h : r.Answers s) (hs : s.phase = .eval (.done .unit))
  | finished (hphase : r.phase = .finished) (h : r.Shown s.cells) (hs : s.phase = .finished (report r.deadlock))

end Roster

/-! ### The end of a run -/

theorem Shell.leads {pool : CellId} {v : Value} (h : Shell pool F) (hP : P s.cells)
    (hpool : s.cells.find? pool = some (.pool p)) (hpending : s.pending = none)
    (hframes : s.frames = F)
    (hR : ∀ s', s'.cells = s.cells → s'.phase = .finished (report p.deadlock) → R s') :
    Leads Γ P R (s.goOn (.ret v)) := by
  induction h generalizing s v with
  | base =>
    refine .bind hP hframes ?_
    rw [reportTask_eq]
    exact .read hP hpool (.done hP (.bind hP rfl (.done hP (.finished hP rfl
      (.here hP (hR _ rfl rfl))))))
  | pass _ ih => exact .bind hP hframes (.done hP (ih hP hpool hpending rfl hR))
  | answer _ ih => exact .answering hP hframes hpending (ih hP hpool hpending rfl hR)

/-- A run ends when nobody is left who could go on. -/
theorem Roster.Answers.ends (h : r.Answers s) (hphase : r.phase = .ending) :
    Turns Γ r.Shown r.step.Shown r.step.Enacted (s.goOn (.eval (.done .unit))) := by
  obtain ⟨p, seats, ids, F, hkeeps, hframes, hshell⟩ := h
  have hstep : r.step = { r with phase := .finished } := by simp only [Roster.step, hphase]
  have hover : Roster.Keeps { r with phase := .finished } s p seats ids :=
    { hkeeps with stored := { hkeeps.stored with }, rests := { hkeeps.rests with } }
  have hQ := hover.shown
  rw [hstep]
  refine .turns hkeeps.shown rfl (.answering hQ hframes hkeeps.pending (hshell.leads hQ
    hkeeps.stored.pool hkeeps.pending rfl fun s' hcells hfinished => .finished rfl ?_ ?_))
  · rw [hcells]
    exact hQ
  · rw [hfinished, hkeeps.deadlock]

/-! ### Giving control to an actor -/

/-- The pool looks at the flags of its actors until one does not wait. -/
theorem leads_firstReady {α : Type} {ready : α → Bool} {parked : α → ParkedActor} {l : List α}
    {k : Option (ParkedActor × List ParkedActor) → Comp Content} (hP : P s.cells)
    (hflag : ∀ x ∈ l, s.cells.find? (parked x).waiting = some (.value (.bool (!ready x))))
    (h : Leads Γ P R (s.goOn (.eval (k ((pick ready l).map fun y =>
      (parked y.1, y.2.map parked)))))) :
    Leads Γ P R (s.goOn (.eval (firstReady (l.map parked) k))) := by
  induction l generalizing k with
  | nil => exact h
  | cons x l ih =>
    have hrest : ∀ y ∈ l, s.cells.find? (parked y).waiting = some (.value (.bool (!ready y))) :=
      fun y hy => hflag y (List.mem_cons_of_mem _ hy)
    refine .read hP (hflag x List.mem_cons_self) ?_
    cases hready : ready x with
    | true =>
      simp only [pick, hready, if_true] at h
      exact h
    | false =>
      simp only [pick, hready, Bool.false_eq_true, if_false] at h
      refine ih hrest ?_
      cases hpick : pick ready l <;> rw [hpick] at h <;> exact h

/-- The choice among the seats is the choice of the roster. -/
theorem Roster.Rests.pick_eq {resumptions : Store (Continuation Content)} {installed : Store Handler}
    (h : r.Rests resumptions installed seats ids) :
    pick r.isReady r.active =
      (pick (fun x => r.isReady x.1) seats).map fun y => (y.1.1, y.2.map Prod.fst) := by
  rw [← h.order]
  exact pick_map _ _ fun _ _ => rfl

theorem Roster.Keeps.leads_firstReady (h : r.Keeps s p seats ids) (hsound : r.Sound)
    {k : Option (ParkedActor × List ParkedActor) → Comp Content} (hP : P s.cells)
    (hk : Leads Γ P R (s.goOn (.eval (k ((pick (fun x => r.isReady x.1) seats).map fun y =>
      (r.parkedActor y.1, y.2.map r.parkedActor)))))) :
    Leads Γ P R (s.goOn (.eval (firstReady p.active k))) := by
  rw [h.active]
  refine Actor.leads_firstReady hP (fun x hx => ?_) hk
  obtain ⟨a, ha, -⟩ := hsound.parked x.1 (h.rests.mem_active hx)
  have hready : (!r.isReady x.1) = a.waiting := by simp [isReady, ha]
  rw [hready]
  exact h.stored.waiting x.1 a ha

/-- A waking pool finds that all wait. -/
theorem Roster.Answers.deadlocks (h : r.Answers s) (hsound : r.Sound)
    (hpick : pick r.isReady r.active = none) :
    Turns Γ r.Shown r.wake.Shown r.wake.Enacted (s.goOn (.eval (Actor.wake r.pool).toComp)) := by
  obtain ⟨p, seats, ids, F, hkeeps, hframes, hshell⟩ := h
  have hshown := hkeeps.shown
  have hseats : pick (fun x => r.isReady x.1) seats = none := by
    rw [hkeeps.rests.pick_eq] at hpick
    exact Option.map_eq_none_iff.mp hpick
  have hlength : p.active.length = r.active.length := by
    rw [hkeeps.active, List.length_map, ← hkeeps.rests.order, List.length_map]
  have hwake : r.wake =
      { r with active := [], deadlock := some r.active.length, phase := .ending } := by
    simp only [Roster.wake, hpick]
  rw [hwake]
  refine .read hshown hkeeps.stored.pool (hkeeps.leads_firstReady hsound hshown ?_)
  rw [hseats]
  refine .write_turns hshown ?_
  let p' : ActorPool := { p with active := [], deadlock := some p.active.length }
  have hkeeps' : Roster.Keeps
      { r with active := [], deadlock := some r.active.length, phase := .ending }
      { s with cells := s.cells.modify r.pool fun _ => .pool p' } p' [] ids :=
    { hkeeps with
      stored := (hkeeps.stored.writePool _).congr rfl rfl fun i a ha => ⟨a, ha, rfl, rfl⟩
      rests := { hkeeps.rests with
        order := rfl
        parked := fun _ hx => absurd hx List.not_mem_nil
        distinct := List.nodup_nil
        issued := fun _ hx => absurd hx List.not_mem_nil }
      active := rfl
      deadlock := congrArg some hlength }
  have hshown' := hkeeps'.shown
  exact .record hshown' (.release hshown' (.here hshown' (.ending rfl
    ⟨_, _, _, F, { hkeeps' with }, hframes, hshell⟩ rfl)))

/-- What is stored when a parked actor gets control. -/
theorem Roster.Keeps.unpark {others : List (Nat × ResumptionId)} {x : Nat × ResumptionId}
    (h : r.Keeps s p seats ids) (hperm : seats.Perm (x :: others)) :
    ({ r with active := others.map Prod.fst } : Roster).Keeps
      { s with
        cells := s.cells.modify r.pool fun _ =>
          .pool { p with active := others.map r.parkedActor, current := (r.address x.1).waiting }
        resumptions := s.resumptions.erase x.2 }
      { p with active := others.map r.parkedActor, current := (r.address x.1).waiting }
      others ids :=
  { h with
    stored := (h.stored.writePool _).congr rfl rfl fun _ a ha => ⟨a, ha, rfl, rfl⟩
    rests := h.rests.unpark hperm
    active := rfl }

/-- An actor starts under an installation of its own. -/
theorem leads_start {pool waiting : CellId} {owned : List Owned} {body : Task Value}
    {k : Value → Comp Content} (hP : P s.cells)
    (hP' : P (s.cells.modify pool fun _ => .pool { p with current := waiting }))
    (hpool : s.cells.find? pool = some (.pool p)) (hlabel : p.label = -1)
    (hnext : s.nextLabel = -2)
    (hdeclare : s.declare handlerName (Γ.handlerType handlerName) = .ok [handlerName])
    (h : Leads Γ P R (({ s with
        frames := .handling s.installed.next :: .bind k :: s.frames
        cells := s.cells.modify pool fun _ => .pool { p with current := waiting }
        installed := (s.installed.insert (shown pool)).2
        references := (s.references.insert s.installed.next).2
        nextLabel := -2, declared := [handlerName] } : Evaluation Content).goOn
      (.eval body.toComp))) :
    Leads Γ P R (s.goOn (.eval (start pool waiting owned body k))) := by
  have hchoose : s.chooseLabel (some p.label) = .ok (-1, -2) := by
    simp [Evaluation.chooseLabel, Evaluation.isIssued, hlabel, hnext, bottomLabel, retiredLabel]
  exact .read hP hpool (.write hP (.release hP' (.retain hP' (.handle hP' hchoose hdeclare h))))

/-- An actor that has control again goes on with what it was doing. -/
theorem leads_wakes (me : Mailbox) {q : Progress} (hP : P s.cells) (hstarted : q.isStarted = true)
    (hframes : s.frames = .bind (fun _ => q.wakes me) :: (q.frames me ++ F))
    (h : Leads Γ P R (({ s with frames := q.frames me ++ F } : Evaluation Content).goOn
      (.eval (q.code me)))) : Leads Γ P R (s.goOn (.ret .unit)) := by
  refine .bind hP hframes ?_
  cases q with
  | acting b loops => exact h
  | polling next loops => exact .done hP (.again hP rfl h)
  | fresh | ended => cases hstarted

theorem Progress.fresh_or_started {q : Progress} (h : q.isEnded = false) :
    (∃ b, q = .fresh b) ∨ q.isStarted = true := by
  cases q with
  | fresh b => exact .inl ⟨b, rfl⟩
  | acting | polling => exact .inr rfl
  | ended => cases h

theorem Roster.stands_iff {q : Progress} {k : Continuation Content} (hstarted : q.isStarted = true) :
    r.Stands ids i q k ↔ k = .context "()" (.bind (fun _ => q.wakes (r.address i)) ::
      (q.frames (r.address i) ++ [.handling (ids i)])) := by
  cases q with
  | acting | polling => exact Iff.rfl
  | fresh | ended => cases hstarted

/-- A waking pool gives control to the first actor that does not wait. -/
theorem Roster.Answers.resumes {others : List Nat} (h : r.Answers s) (hsound : r.Sound)
    (hpick : pick r.isReady r.active = some (i, others)) :
    Turns Γ r.Shown r.wake.Shown r.wake.Enacted (s.goOn (.eval (Actor.wake r.pool).toComp)) := by
  obtain ⟨p, seats, ids, F, hkeeps, hframes, hshell⟩ := h
  have hshown := hkeeps.shown
  obtain ⟨⟨x, others'⟩, hseats, heq⟩ := Option.map_eq_some_iff.mp (hkeeps.rests.pick_eq ▸ hpick)
  obtain ⟨rfl, rfl⟩ := Prod.mk.inj heq
  obtain ⟨-, hperm⟩ := pick_eq_some hseats
  have hx : x ∈ seats := hperm.mem_iff.mpr List.mem_cons_self
  obtain ⟨a, ha, hend⟩ := hsound.parked x.1 (hkeeps.rests.mem_active hx)
  obtain ⟨κ, hκ, hstands⟩ := hkeeps.rests.parked x hx a ha
  have hunparked : x.1 ∉ others'.map Prod.fst := by
    have hnodup := hsound.nodup
    rw [← hkeeps.rests.order, (hperm.map _).nodup_iff] at hnodup
    exact (List.nodup_cons.mp hnodup).1
  let p' : ActorPool := { p with
    active := others'.map r.parkedActor, current := (r.address x.1).waiting }
  have hkept := hkeeps.unpark hperm
  have hwake : r.wake = { r.modify x.1 Member.start with
      active := others'.map Prod.fst, phase := .running x.1 } := by
    simp only [Roster.wake, hpick]
  have hmember := exists_getElem?_modify (i := x.1) (f := Member.start) ha
  rw [if_pos rfl] at hmember
  have hstored := hkept.stored.modify (i := x.1) (fun _ => Member.start_inbox)
    fun _ => Member.start_waiting
  -- the pool is written once more where an actor starts
  have hnew : ∀ {cells resumptions installed ids'},
      (({ r with active := others'.map Prod.fst } : Roster).modify x.1 Member.start).Stored
        cells p' →
      (({ r with active := others'.map Prod.fst } : Roster).modify x.1 Member.start).Rests
        resumptions installed others' ids' →
      Roster.Keeps { r.modify x.1 Member.start with
          active := others'.map Prod.fst, phase := .running x.1 }
        { s with cells, resumptions, installed } p' others' ids' :=
    fun hstored hrests => { hkept with stored := { hstored with }, rests := { hrests with } }
  have hstarting := fun b hfresh => hkept.rests.start (b := b) hunparked ha hfresh
  have hgoing := fun hstarted => hkept.rests.goesOn (i := x.1) ha hstarted
  have hshown' : ∀ {cells},
      (({ r with active := others'.map Prod.fst } : Roster).modify x.1 Member.start).Stored
        cells p' →
      Roster.Shown { r.modify x.1 Member.start with
        active := others'.map Prod.fst, phase := .running x.1 } cells :=
    fun hstored => Stored.shown { hstored with } (by rw [List.map_map, List.map_map]; rfl)
      hkeeps.deadlock
  rw [hwake]
  refine .read hshown hkeeps.stored.pool (hkeeps.leads_firstReady hsound hshown ?_)
  rw [hseats]
  refine .write_turns hshown (.release (hshown' hstored) (.tailResume (hshown' hstored) hκ
    hkeeps.pending (.done (hshown' hstored) ?_)))
  rcases Progress.fresh_or_started hend with ⟨b, hp⟩ | hstarted
  · rw [hp] at hstands
    obtain ⟨owned, rfl⟩ := hstands
    have hagain := hstored.writePool p'
    have hstart : a.start = a.goOn (.acting b []) := by simp [Member.start, hp]
    have hdeclare : Evaluation.declare s handlerName (Γ.handlerType handlerName) =
        .ok [handlerName] := by simp [Evaluation.declare, hkeeps.declared]
    refine .answering_pending (hshown' hstored) hframes rfl rfl (.enter_function (hshown' hstored)
      (.scope (hshown' hstored) ?_))
    refine leads_start (p := p') (hshown' hstored) (hshown' hagain) hkept.stored.pool hkeeps.label
      hkeeps.nextLabel hdeclare (.here (hshown' hagain) (.running (i := x.1) (a := a.start) rfl
        ⟨hmember, p', others', _, _, { hnew hagain (hstarting b hp) with
          pending := rfl, declared := rfl, nextLabel := rfl }, rfl, ?_,
          .pass (.pass (.answer hshell))⟩ ?_))
    · rw [hstart, Function.update_self]
      rfl
    · rw [hstart]
      rfl
  · obtain rfl := (stands_iff hstarted).mp hstands
    rw [Member.start_of_isStarted hstarted] at hmember
    refine .answering_pending (hshown' hstored) hframes rfl rfl (.enter_context (hshown' hstored)
      (leads_wakes (r.address x.1) (q := a.progress) (F := .handling (ids x.1) :: F)
        (hshown' hstored) hstarted ?_ (.here (hshown' hstored) (.running (i := x.1) (a := a) rfl
        ⟨hmember, p', others', _, _, { hnew hstored (hgoing hstarted) with pending := rfl }, rfl,
          rfl, hshell⟩ rfl))))
    simp

/-! ### Giving up control -/

/-- The clause for giving up control. -/
def parkClause (pool : CellId) (ρ : ResumptionId) : Comp Content := Prog.toComp do
  let waiting := (← readPool pool).current
  Prog.retain (.cell waiting)
  park pool ⟨waiting, ← Prog.take ρ⟩
  wake pool

theorem clauseFor_yield (hΓ : Γ.handlerType handlerName = handler) (pool : CellId) :
    (shown pool).clauseFor? Γ yieldCommand =
      some (.resumptive fun pool _ ρ => parkClause pool ρ) := by
  simp only [Handler.clauseFor?, shown, hΓ]
  rfl

theorem answer_shown (hΓ : Γ.handlerType handlerName = handler) (pool : CellId) :
    (Γ.handlerType (shown pool).handlerType).answer = "()" := by
  simp only [shown, hΓ]
  rfl

/-- An actor that gives up control is parked behind the others. -/
theorem Roster.Controls.parks (hΓ : Γ.handlerType handlerName = handler) (h : r.Controls s i a)
    (hstarted : a.progress.isStarted = true) (hP : P s.cells) :
    Turns Γ P (r.park i).Shown (r.park i).Enacted
      (s.goOn (.eval (yield r.pool fun _ => a.progress.wakes (r.address i)))) := by
  obtain ⟨ha, p, seats, ids, F, hkeeps, hcurrent, hframes, hshell⟩ := h
  have hi := hkeeps.rests.handled i a ha hstarted
  have hlabel : p.label ≠ bottomLabel ∧ p.label ≠ retiredLabel := by
    rw [hkeeps.label]
    decide
  have hdispatch := Evaluation.dispatch_labelled hframes (a.progress.frames_code _) hi
    hkeeps.label.symm hlabel (clauseFor_yield hΓ r.pool)
  have hpool := hkeeps.stored.pool
  refine .read hP hpool (.invoke hP hdispatch hi (answer_shown hΓ _) hframes
    (a.progress.frames_code _) ?_)
  refine .read hP hpool (.retain hP (.take hP (Store.find?_insert_self ..) (.read hP hpool
    (.write_turns hP ?_))))
  let κ : Continuation Content := .context "()" (.bind (fun _ => a.progress.wakes (r.address i)) ::
    (a.progress.frames (r.address i) ++ [.handling (ids i)]))
  -- the continuation has moved from one resumption to the next one
  let resumptions := (((s.resumptions.insert κ).2.erase s.resumptions.next).insert κ).2
  let ρ := s.resumptions.next + 1
  have hmoved : r.Rests resumptions s.installed seats ids :=
    ((hkeeps.rests.insert κ).erase fun x hx => Nat.ne_of_lt (hkeeps.rests.issued x hx)).insert κ
  have hrests := hmoved.park (ρ := ρ) ha ((stands_iff hstarted).mpr rfl)
    (Store.find?_insert_self ..)
    fun x hx => Nat.ne_of_lt ((hkeeps.rests.issued x hx).trans (Nat.lt_succ_self _))
  let p' : ActorPool := { p with active := p.active ++ [⟨p.current, ρ⟩] }
  have hactive : p'.active = (seats ++ [(i, ρ)]).map r.parkedActor := by
    simp [p', hkeeps.active, hcurrent, parkedActor]
  have hparked : (r.park i).Keeps
      { s with cells := s.cells.modify r.pool fun _ => .pool p', resumptions } p'
      (seats ++ [(i, ρ)]) ids :=
    { hkeeps with
      stored := { hkeeps.stored.writePool p' with }
      rests := { hrests with }
      active := hactive }
  exact .here hparked.shown (.waking rfl ⟨_, _, _, F, { hparked with }, rfl, hshell⟩ rfl)

end EffectHandlers.Actor

/-!
## What actors do

The steps of an actor that has control are followed in the evaluation that enacts its roster.
-/

namespace EffectHandlers.Actor

open Evaluation (Leads Turns)

variable {Γ : Library Content} {P Q : Store Content → Prop}
  {R : Evaluation Content → Prop} {r : Roster} {s : Evaluation Content} {i j : Nat} {a : Member} {f : Member → Member} {p : ActorPool}
  {seats : List (Nat × ResumptionId)} {ids : Nat → InstallationId} {F : List (Frame Content)}

namespace Roster

/-- An actor may go on as long as this does not show. -/
theorem Keeps.modify (h : r.Keeps s p seats ids) (hi : i ∉ r.active)
    (hstarted : ∀ a, r.members[i]? = some a → (f a).progress.isStarted = true →
      a.progress.isStarted = true)
    (hinbox : ∀ a, (f a).inbox = a.inbox) (hwaiting : ∀ a, (f a).waiting = a.waiting) :
    (r.modify i f).Keeps s p seats ids :=
  { h with
    stored := h.stored.modify hinbox hwaiting
    rests := h.rests.modify hi hstarted }

theorem Sound.notMem_active (h : r.Sound) (hphase : r.phase = .running i) : i ∉ r.active :=
  h.apart i (by simp [current, hphase])

theorem Sound.isStarted (h : r.Sound) (hphase : r.phase = .running i)
    (ha : r.members[i]? = some a) : a.progress.isStarted = true := by
  obtain ⟨b, hb, hstarted⟩ := h.started i (by simp [current, hphase])
  obtain rfl := Option.some.inj (ha.symm.trans hb)
  exact hstarted

theorem Keeps.goOn (h : r.Keeps s p seats ids) (hsound : r.Sound) (hphase : r.phase = .running i)
    (q : Progress) : (r.modify i (.goOn q)).Keeps s p seats ids := by
  refine h.modify (hsound.notMem_active hphase) (fun b hb _ => ?_) (fun _ => rfl) fun _ => rfl
  exact hsound.isStarted hphase hb

theorem getElem?_goOn (ha : r.members[i]? = some a) (q : Progress) :
    (r.modify i (.goOn q)).members[i]? = some (a.goOn q) := by
  have hmember := exists_getElem?_modify (i := i) (f := .goOn q) ha
  rwa [if_pos rfl] at hmember

/-- An actor does something that does not show. -/
theorem Keeps.goesOn (h : r.Keeps s p seats ids) (hsound : r.Sound)
    (hphase : r.phase = .running i) (ha : r.members[i]? = some a)
    (hcurrent : p.current = (r.address i).waiting) (hshell : Shell r.pool F) (q : Progress) :
    (r.modify i (.goOn q)).Enacted
      (({ s with frames := q.frames (r.address i) ++ .handling (ids i) :: F } :
        Evaluation Content).goOn (.eval (q.code (r.address i)))) :=
  .running hphase ⟨getElem?_goOn ha q, p, seats, ids, F, { h.goOn hsound hphase q with }, hcurrent,
    rfl, hshell⟩ rfl

end Roster

namespace Roster

/-- An actor ends, and nobody finds its handler any more. -/
theorem Rests.leave {resumptions : Store (Continuation Content)} {installed : Store Handler}
    {g : Handler → Handler} (h : r.Rests resumptions installed seats ids) (hi : i ∉ r.active)
    (ha : r.members[i]? = some a) (hstarted : a.progress.isStarted = true) :
    (r.modify i (.goOn .ended)).Rests resumptions (installed.modify (ids i) g) seats ids := by
  have hleft : ∀ {b}, b = a.goOn .ended → b.progress.isStarted = true → False := by
    rintro _ rfl hb
    cases hb
  refine { h.modify (f := .goOn .ended) hi fun _ _ hb => ?_ with
    handled := fun j b hb hstarted' => ?_
    handlers := Store.wellFormed_modify h.handlers _ _ }
  · cases hb
  · rcases of_getElem?_modify hb with ⟨rfl, c, -, rfl⟩ | ⟨hne, hb⟩
    · cases hstarted'
    · have hapart : ids j ≠ ids i := fun heq => hne (h.apart i j a b ha hb hstarted hstarted' heq.symm)
      rw [Store.find?_modify, if_neg hapart]
      exact h.handled j b hb hstarted'

theorem onReturn_shown (hΓ : Γ.handlerType handlerName = handler) (pool : CellId) (v : Value) :
    (Γ.handlerType (shown pool).handlerType).onReturn (shown pool).cell v =
      readPool pool fun p => if p.active.isEmpty then .done .unit else (Actor.wake pool).toComp := by
  simp only [shown, hΓ]
  refine congrArg (readPool pool) (funext fun p => ?_)
  obtain ⟨label, current, active, deadlock⟩ := p
  cases active <;> rfl

/-- The actor that has control ends. -/
theorem Keeps.ends {v : Value} (hΓ : Γ.handlerType handlerName = handler) (hsound : r.Sound)
    (hphase : r.phase = .running i) (ha : r.members[i]? = some a)
    (hacts : a.progress = .acting (.done v) []) (h : r.Keeps s p seats ids)
    (hshell : Shell r.pool F) :
    Turns Γ r.Shown (r.act i a).Shown (r.act i a).Enacted
      (({ s with frames := .handling (ids i) :: F } : Evaluation Content).goOn
        (.eval (.done v))) := by
  have hunparked := hsound.notMem_active hphase
  have hstarted := hsound.isStarted hphase ha
  have hact : r.act i a = { r.modify i (.goOn .ended) with
      phase := if r.active.isEmpty then .ending else .waking } := by
    simp only [act, hacts]
    rfl
  have hempty : p.active.isEmpty = r.active.isEmpty := by
    rw [h.active, ← h.rests.order]
    cases seats <;> rfl
  have hkept : ∀ φ, ({ r.modify i (.goOn .ended) with phase := φ } : Roster).Keeps
      { s with installed := s.installed.modify (ids i) fun x => { x with label := retiredLabel } }
      p seats ids := fun φ =>
    { h with
      stored := { h.stored.modify (f := .goOn .ended) (fun _ => rfl) fun _ => rfl with }
      rests := { h.rests.leave hunparked ha hstarted with } }
  have hQ := fun φ => (hkept φ).shown
  rw [hact]
  refine .turns h.shown rfl (.returning (hQ _) rfl (h.rests.handled i a ha hstarted) ?_)
  rw [answer_shown hΓ, onReturn_shown hΓ]
  refine .read (hQ _) h.stored.pool (.here (hQ _) ?_)
  cases hactive : r.active.isEmpty with
  | true =>
    refine .ending rfl ⟨p, seats, ids, F, { hkept .ending with }, rfl, hshell⟩ ?_
    exact congrArg _ (if_pos (hempty.trans hactive))
  | false =>
    refine .waking rfl ⟨p, seats, ids, F, { hkept .waking with }, rfl, hshell⟩ ?_
    exact congrArg _ (if_neg (by rw [hempty, hactive]; decide))

/-- The actor that has control sends a message. -/
theorem Keeps.sends {message : Value} {next : Behaviour} {loops : List (Loop Behaviour)} (hsound : r.Sound)
    (hphase : r.phase = .running i) (ha : r.members[i]? = some a)
    (hacts : a.progress = .acting (.send (r.address j) message next) loops)
    (hj : j < r.members.length) (h : r.Keeps s p seats ids)
    (hcurrent : p.current = (r.address i).waiting) (hshell : Shell r.pool F) :
    Turns Γ r.Shown (r.act i a).Shown (r.act i a).Enacted (({ s with
        frames := loops.map (Loop.frame (Behaviour.toTask (r.address i))) ++ .handling (ids i) :: F } :
      Evaluation Content).goOn
        (.eval ((Behaviour.send (r.address j) message next).toTask (r.address i)).toComp)) := by
  let q : Progress := .acting next loops
  have hact : r.act i a = { (r.modify i (.goOn q)).modify j .rouse with
      phase := .pushing i (r.address j) message } := by
    simp only [act, hacts, seat_address, q]
  have hgoes := h.goOn hsound hphase q
  have hkept : ({ (r.modify i (.goOn q)).modify j .rouse with
        phase := .pushing i (r.address j) message } : Roster).Keeps
      { s with cells := s.cells.modify (r.address j).waiting fun _ => .value (.bool false) }
      p seats ids :=
    { h with
      stored := { hgoes.stored.writeWaiting (f := .rouse) (fun _ => rfl) fun _ => rfl with }
      rests := { hgoes.rests.modify_of_progress (f := .rouse) fun _ => rfl with } }
  have hmember := exists_getElem?_modify (i := j) (f := .rouse) (getElem?_goOn ha q)
  have hprogress : (if j = i then (a.goOn q).rouse else a.goOn q).progress = q := by
    split <;> rfl
  rw [hact]
  refine .write_turns h.shown (.here hkept.shown (.pushing rfl (by simpa using hj)
    ⟨hmember, p, seats, ids, F, { hkept with }, hcurrent, ?_, hshell⟩ ?_))
  · rw [hprogress]
    rfl
  · rw [hprogress]
    rfl

/-- The clause for adding an actor. -/
def forkClause (pool : CellId) (v : Value) (ρ : ResumptionId) : Comp Content := Prog.toComp do
  match v with
  | .pair (.cell waiting) (.closure start) =>
    Prog.retain (.cell waiting)
    Actor.park pool ⟨waiting, ← Prog.function "()" start⟩
    Prog.tail ρ .unit
  | _ => Prog.tail ρ .unit

theorem clauseFor_fork (hΓ : Γ.handlerType handlerName = handler) (pool : CellId) :
    (shown pool).clauseFor? Γ forkCommand = some (.resumptive forkClause) := by
  simp only [Handler.clauseFor?, shown, hΓ]
  rfl

/-- What `spawn` does once the new actor has a mailbox. -/
def settle (pool : CellId) (owned : List Owned) (body : Mailbox → Task Value) (label : Int)
    (child : Mailbox) : Task Mailbox := do
  Prog.retainAll (child.owned ++ [.cell pool, .cell child.waiting, .cell child.waiting])
  let start ← Prog.closure ([.cell pool, .cell child.waiting] ++ owned ++ child.owned) fun _ =>
    Prog.scope [.cell pool] (Actor.start pool child.waiting (owned ++ child.owned) (body child))
  Prog.keeping child.owned do
    let _ ← Prog.invoke
      { name := forkCommand
        payload := .pair (.cell child.waiting) (.closure start)
        owned := [.cell child.waiting, .closure start] }
      (.labelled label)
  return child

theorem spawn_eq (pool : CellId) (owned : List Owned) (body : Mailbox → Task Value) :
    spawn pool owned body =
      (newMailbox pool >>= fun child =>
        readPool pool >>= fun p => settle pool owned body p.label child) := rfl

/-- A new actor that has a mailbox is parked, and the one that has control goes on. -/
theorem Keeps.settles {k : Nat} {m : Member} {child : Mailbox} (owned : List Owned)
    (b next : Mailbox → Behaviour) (loops : List (Loop Behaviour)) (hchild : child = r.address k)
    (hΓ : Γ.handlerType handlerName = handler) (hphase : r.phase = .running i)
    (ha : r.members[i]? = some (a.goOn (.acting (next (r.address k)) loops)))
    (hm : r.members[k]? = some m) (hfresh : m.progress = .fresh (b (r.address k)))
    (h : r.Keeps s p seats ids) (hcurrent : p.current = (r.address i).waiting)
    (hshell : Shell r.pool F) (hP : P s.cells) :
    Turns Γ P ({ r with active := r.active ++ [k] } : Roster).Shown
      ({ r with active := r.active ++ [k] } : Roster).Enacted (({ s with
        frames := loops.map (Loop.frame (Behaviour.toTask (r.address i))) ++ .handling (ids i) :: F } :
      Evaluation Content).goOn (.eval (settle r.pool owned (fun child => (b child).toTask child)
        p.label child fun child => ((next child).toTask (r.address i)).toComp))) := by
  subst hchild
  have hpool := h.stored.pool
  have hi := h.rests.handled i _ ha rfl
  have hlabel : p.label ≠ bottomLabel ∧ p.label ≠ retiredLabel := by
    rw [h.label]
    decide
  have hcode : ∀ g : Value → Comp Content,
      ∀ f ∈ .bind g :: loops.map (Loop.frame (Behaviour.toTask (r.address i))), f.isCode = true := by
    intro g f hf
    rcases List.mem_cons.mp hf with rfl | hf
    · rfl
    · exact Progress.frames_code _ (.acting (.done .unit) loops) f hf
  refine .retainAll hP (.closure hP (.scope hP (.invoke (U := .bind _ ::
    loops.map (Loop.frame (Behaviour.toTask (r.address i)))) hP (Evaluation.dispatch_labelled (U := .bind _ ::
      loops.map (Loop.frame (Behaviour.toTask (r.address i)))) rfl (hcode _) hi h.label.symm hlabel
      (clauseFor_fork hΓ _)) hi (answer_shown hΓ _) rfl (hcode _) (.retain hP ?_))))
  let ρ := s.resumptions.next + 1
  let p' : ActorPool := { p with active := p.active ++ [⟨(r.address k).waiting, ρ⟩] }
  have hrests : ∀ κ, ({ r with active := r.active ++ [k] } : Roster).Rests
      (((s.resumptions.insert κ).2.insert (.function "()" fun _ => startCode (r.address k) owned
        (b (r.address k)))).2.erase s.resumptions.next) s.installed (seats ++ [(k, ρ)]) ids := by
    intro κ
    have hparked := ((h.rests.insert κ).insert _).park (ρ := ρ) hm
      (by rw [hfresh]; exact ⟨owned, rfl⟩)
      (Store.find?_insert_self ..)
      fun x hx => Nat.ne_of_lt ((h.rests.issued x hx).trans (Nat.lt_succ_self _))
    refine hparked.erase fun x hx => ?_
    rcases List.mem_append.mp hx with hx | hx
    · exact Nat.ne_of_lt (h.rests.issued x hx)
    · rw [List.mem_singleton.mp hx]
      exact Nat.succ_ne_self _
  have hactive : p'.active = (seats ++ [(k, ρ)]).map r.parkedActor := by
    simp [p', h.active, parkedActor]
  have hkept : ∀ κ, ({ r with active := r.active ++ [k] } : Roster).Keeps
      { s with
        cells := s.cells.modify r.pool fun _ => .pool p'
        resumptions := ((s.resumptions.insert κ).2.insert (.function "()" fun _ =>
          startCode (r.address k) owned (b (r.address k)))).2.erase s.resumptions.next } p'
      (seats ++ [(k, ρ)]) ids := fun κ =>
    { h with
      stored := { h.stored.writePool p' with }
      rests := { hrests κ with }
      active := hactive }
  have hQ := (hkept (.context "()" [])).shown
  have hframes : loops.map (Loop.frame (Behaviour.toTask (r.address i))) ++ [.handling (ids i)] ++ F =
      loops.map (Loop.frame (Behaviour.toTask (r.address i))) ++ .handling (ids i) :: F := by simp
  refine .function hP (Store.find?_insert_self ..) (.read hP hpool (.write_turns hP ?_))
  refine .tailResume hQ (Store.find?_insert_insert ..) h.pending (.done hQ (.answering_pending hQ rfl rfl rfl
    (.enter_context hQ (.bind hQ rfl (.retainAll hQ (.done hQ (.bind hQ rfl (.here hQ ?_))))))))
  exact .running hphase ⟨ha, p', _, ids, F, { hkept _ with pending := rfl }, hcurrent,
    hframes, hshell⟩ rfl

/-- The actor that has control adds another one. -/
theorem Keeps.spawns {owned : List Owned} {body next : Mailbox → Behaviour} {loops : List (Loop Behaviour)}
    (hΓ : Γ.handlerType handlerName = handler) (hsound : r.Sound)
    (hphase : r.phase = .running i) (ha : r.members[i]? = some a)
    (hacts : a.progress = .acting (.spawn owned body next) loops) (h : r.Keeps s p seats ids)
    (hcurrent : p.current = (r.address i).waiting) (hshell : Shell r.pool F) :
    Turns Γ r.Shown (r.act i a).Shown (r.act i a).Enacted (({ s with
        frames := loops.map (Loop.frame (Behaviour.toTask (r.address i))) ++ .handling (ids i) :: F } :
      Evaluation Content).goOn
        (.eval ((Behaviour.spawn owned body next).toTask (r.address i)).toComp)) := by
  let child := r.members.length
  let q : Progress := .acting (next (r.address child)) loops
  let m : Member := { progress := .fresh (body (r.address child)) }
  let grown : Roster := { r.modify i (.goOn q) with members := (r.modify i (.goOn q)).members ++ [m] }
  have hact : r.act i a = { grown with active := grown.active ++ [child] } := by
    simp only [act, hacts]
    rfl
  let cells := ((s.cells.insert (.list [])).2.insert (.value (.bool false))).2
  have hgoes := h.goOn hsound hphase q
  have hseats : ∀ j ∈ r.active, j < (r.modify i (.goOn q)).members.length := by
    intro j hj
    obtain ⟨b, hb, -⟩ := hsound.parked j hj
    rw [modify_length]
    exact (List.getElem?_eq_some_iff.mp hb).1
  have hkept : grown.Keeps { s with cells } p seats ids :=
    { h with
      stored := hgoes.stored.grow rfl rfl
      rests := hgoes.rests.grow hseats rfl }
  -- up to the turn the roster does not have the new actor
  have hP₀ := h.shown
  have hP₁ : r.Shown (s.cells.insert (.list [])).2 := hP₀.insert (Nat.le_of_eq h.stored.next.symm)
  have hP : r.Shown cells := hP₁.insert (Nat.le_succ_of_le (Nat.le_of_eq h.stored.next.symm))
  have hchild : (⟨r.pool, s.cells.next, s.cells.next + 1⟩ : Mailbox) = r.address child := by
    have hcount : ∀ n k : Nat, n + 1 + 2 * k + 1 = n + 2 + 2 * k := by omega
    have hinbox : s.cells.next = (r.address child).inbox := h.stored.next
    have hwaiting : s.cells.next + 1 = (r.address child).waiting := by
      rw [h.stored.next]
      exact hcount _ _
    rw [hwaiting, hinbox]
    rfl
  have hlt : i < (r.modify i (.goOn q)).members.length :=
    (List.getElem?_eq_some_iff.mp (getElem?_goOn ha q)).1
  have hi : grown.members[i]? = some (a.goOn q) :=
    (List.getElem?_append_left hlt).trans (getElem?_goOn ha q)
  have hm : grown.members[child]? = some m := by
    have hlength : child = (r.modify i (.goOn q)).members.length := modify_length r i _ |>.symm
    rw [hlength]
    exact List.getElem?_concat_length
  have hsettles := hkept.settles (r := grown) owned body next loops hchild hΓ hphase hi hm rfl hcurrent hshell hP
  rw [hact]
  refine .retain hP₀ (.alloc hP₀ (.alloc hP₁ (.read hP hkept.stored.pool ?_)))
  exact hsettles

/-- An actor that has control goes on. -/
theorem Keeps.acts {b : Behaviour} {loops : List (Loop Behaviour)}
    (hΓ : Γ.handlerType handlerName = handler) (hsound : r.Sound) (haddressed : r.Addressed)
    (hphase : r.phase = .running i) (ha : r.members[i]? = some a)
    (hacts : a.progress = .acting b loops) (h : r.Keeps s p seats ids)
    (hcurrent : p.current = (r.address i).waiting) (hshell : Shell r.pool F) :
    Turns Γ r.Shown (r.act i a).Shown (r.act i a).Enacted (({ s with
        frames := loops.map (Loop.frame (Behaviour.toTask (r.address i))) ++ .handling (ids i) :: F } :
      Evaluation Content).goOn (.eval (b.toTask (r.address i)).toComp)) := by
  have hP := h.shown
  have hgoes : ∀ q, (r.modify i (.goOn q)).Shown s.cells :=
    fun q => (h.goOn hsound hphase q).shown
  have hgoesOn := fun q => h.goesOn hsound hphase ha hcurrent hshell q
  cases b with
  | done v =>
    cases hafter : Loop.after v loops with
    | none =>
      obtain rfl := Loop.after_eq_none.mp hafter
      exact h.ends hΓ hsound hphase ha hacts hshell
    | some x =>
      simp only [act, hacts, hafter]
      exact .turns hP rfl (.after (hgoes _) rfl hafter (.here (hgoes _) (hgoesOn (.acting x.1 x.2))))
  | send receiver message next =>
    obtain ⟨j, hj, rfl⟩ := haddressed i a receiver message next loops hphase ha hacts
    exact h.sends hsound hphase ha hacts hj hcurrent hshell
  | receive next =>
    simp only [act, hacts]
    exact .turns hP rfl (.here (hgoes _) (hgoesOn (.polling next loops)))
  | spawn owned body next => exact h.spawns hΓ hsound hphase ha hacts hcurrent hshell
  | yield next =>
    simp only [act, hacts]
    exact Controls.parks (i := i) (a := a.goOn (.acting next loops)) hΓ ⟨getElem?_goOn ha _, p, seats,
      ids, F, { h.goOn hsound hphase (.acting next loops) with }, hcurrent, rfl, hshell⟩ rfl hP
  | loop seed body next =>
    simp only [act, hacts]
    exact .turns hP rfl (.here (hgoes _) (hgoesOn (.acting (body seed) (⟨body, next⟩ :: loops))))
  | retain o next | release o next =>
    simp only [act, hacts]
    exact .turns hP rfl (.here (hgoes _) (hgoesOn (.acting next loops)))
  | log text next =>
    simp only [act, hacts]
    exact .turns hP rfl (.here (hgoes _) (Keeps.goesOn (s := { s with
      actions := .text text :: s.actions }) { h with } hsound hphase ha hcurrent hshell
        (.acting next loops)))

/-- The actor that has control looks for mail. -/
theorem Keeps.polls {next : Value → Behaviour} {loops : List (Loop Behaviour)} (hsound : r.Sound)
    (hphase : r.phase = .running i) (ha : r.members[i]? = some a)
    (hpolls : a.progress = .polling next loops) (h : r.Keeps s p seats ids)
    (hcurrent : p.current = (r.address i).waiting) (hshell : Shell r.pool F) :
    Turns Γ r.Shown (r.act i a).Shown (r.act i a).Enacted (({ s with
        frames := a.progress.frames (r.address i) ++ .handling (ids i) :: F } :
      Evaluation Content).goOn (.eval (a.progress.code (r.address i)))) := by
  have hP := h.shown
  have hunparked := hsound.notMem_active hphase
  obtain ⟨progress, inbox, waiting, sent, received⟩ := a
  obtain rfl : progress = .polling next loops := hpolls
  have hinbox := h.stored.inbox i _ ha
  cases inbox with
  | nil =>
    have hkept : ({ r.modify i .wait with phase := .parking i } : Roster).Keeps
        { s with cells := s.cells.modify (r.address i).waiting fun _ => .value (.bool true) }
        p seats ids :=
      { h with
        stored := { h.stored.writeWaiting (f := .wait) (fun _ => rfl) fun _ => rfl with }
        rests := { h.rests.modify_of_progress (f := .wait) fun _ => rfl with } }
    have hmember := exists_getElem?_modify (i := i) (f := .wait) ha
    rw [if_pos rfl] at hmember
    exact .read hP hinbox (.write_turns hP (.here hkept.shown (.parking rfl
      ⟨hmember, p, seats, ids, F, { hkept with }, hcurrent, rfl, hshell⟩ rfl)))
  | cons message rest =>
    let q : Progress := .acting (next message) loops
    have hkept : (r.modify i (.take message rest q)).Keeps
        { s with cells := s.cells.modify (r.address i).inbox fun _ => .list rest } p seats ids :=
      { h with
        stored := h.stored.writeInbox (f := .take message rest q) (fun _ _ => rfl) fun _ => rfl
        rests := h.rests.modify (f := .take message rest q) hunparked
          fun b hb _ => hsound.isStarted hphase hb }
    have hQ := hkept.shown
    have hmember := exists_getElem?_modify (i := i) (f := .take message rest q) ha
    rw [if_pos rfl] at hmember
    exact .read hP hinbox (.write_turns hP (.done hQ (.stop hQ rfl (.here hQ (.running hphase
      ⟨hmember, p, seats, ids, F, { hkept with }, hcurrent, rfl, hshell⟩ rfl)))))

/-- The message gets into the mailbox of the receiver. -/
theorem Controls.pushes {message : Value} (h : r.Controls s i a)
    (hphase : r.phase = .pushing i (r.address j) message) (hj : j < r.members.length) :
    Turns Γ r.Shown r.step.Shown r.step.Enacted (s.goOn (.eval
      (Task.pushBack (r.address j).inbox message fun _ =>
        yield r.pool fun _ => a.progress.wakes (r.address i)))) := by
  obtain ⟨ha, p, seats, ids, F, hkeeps, hcurrent, hframes, hshell⟩ := h
  have hstep : r.step = { r.modify j (.push message) with phase := .parking i } := by
    simp only [step, hphase, seat_address]
  obtain ⟨b, hb⟩ : ∃ b, r.members[j]? = some b := ⟨_, List.getElem?_eq_getElem hj⟩
  let inbox := b.inbox ++ [message]
  have hpushed : ∀ c, r.members[j]? = some c → (c.push message).inbox = inbox := by
    intro c hc
    rw [Option.some.inj (hc.symm.trans hb)]
    rfl
  have hkept : ({ r.modify j (.push message) with phase := .parking i } : Roster).Keeps
      { s with cells := s.cells.modify (r.address j).inbox fun _ => .list inbox } p seats ids :=
    { hkeeps with
      stored := { hkeeps.stored.writeInbox (f := .push message) hpushed fun _ => rfl with }
      rests := { hkeeps.rests.modify_of_progress (f := .push message) fun _ => rfl with } }
  have hmember := exists_getElem?_modify (i := j) (f := .push message) ha
  have hprogress : (if j = i then a.push message else a).progress = a.progress := by
    split <;> rfl
  rw [hstep]
  refine .read hkeeps.shown (hkeeps.stored.inbox j b hb) (.write_turns hkeeps.shown (.here
    hkept.shown (.parking rfl ⟨hmember, p, seats, ids, F, { hkept with }, hcurrent, ?_, hshell⟩
      ?_)))
  · rw [hprogress]
    exact hframes
  · rw [hprogress]
    rfl

/-- An evaluation that enacts a roster gets to what happens next in it. -/
theorem Enacted.step (hΓ : Γ.handlerType handlerName = handler) (h : r.Enacted s)
    (hsound : r.Sound) (haddressed : r.Addressed) :
    Turns Γ r.Shown r.step.Shown r.step.Enacted s := by
  cases h with
  | @running i a hphase h hs =>
    obtain ⟨ha, p, seats, ids, F, hkeeps, hcurrent, hframes, hshell⟩ := h
    have hstep : r.step = r.act i a := by simp only [Roster.step, hphase, ha]
    rw [hstep, s.eq_goOn hs, Evaluation.eq_frames hframes]
    cases hp : a.progress with
    | acting b loops => exact hkeeps.acts hΓ hsound haddressed hphase ha hp hcurrent hshell
    | polling next loops =>
      rw [← hp]
      exact hkeeps.polls hsound hphase ha hp hcurrent hshell
    | fresh | ended => exact absurd (hsound.isStarted hphase ha) (by simp [hp, Progress.isStarted])
  | @pushing i j a message hphase hj h hs =>
    rw [s.eq_goOn hs]
    exact h.pushes hphase hj
  | @parking i a hphase h hs =>
    obtain ⟨b, hb, hstarted⟩ := hsound.started i (by simp [current, hphase])
    obtain rfl := Option.some.inj (h.member.symm.trans hb)
    have hstep : r.step = r.park i := by simp only [Roster.step, hphase]
    rw [hstep, s.eq_goOn hs]
    exact h.parks hΓ hstarted h.shown
  | waking hphase h hs =>
    have hstep : r.step = r.wake := by simp only [Roster.step, hphase]
    rw [hstep, s.eq_goOn hs]
    cases hpick : pick r.isReady r.active with
    | none => exact h.deadlocks hsound hpick
    | some x => exact h.resumes hsound hpick
  | ending hphase h hs =>
    rw [s.eq_goOn hs]
    exact h.ends hphase
  | finished hphase h hs =>
    have hstep : r.step = r := by simp only [Roster.step, hphase]
    have hstays : s.step Γ = s := by simp only [Evaluation.step, hs]
    rw [hstep]
    exact .turns h hstays (.here h (.finished hphase h hs))

end Roster

end EffectHandlers.Actor
