import EffectHandlers.Client.Library
import EffectHandlers.Proofs.Following
import EffectHandlers.Proofs.Programs
import EffectHandlers.Proofs.Scheduling
import EffectHandlers.Proofs.Watching
/-!
# Actors and their mail

A thread that runs a program of actors does what its roster says. So no mail is lost, nobody who
could go on is left behind, and the result tells whether actors wait for ever.
-/

namespace EffectHandlers.Actor

open Evaluation (Leads Turns)
open EffectHandlers.Task (orderly_readList orderly_readValue orderly_pushBack)

variable {Γ : Library Content} {P : Store Content → Prop} {R : Evaluation Content → Prop}
  {r : Roster} {s : Evaluation Content} {cells : List Content} {owned : List Owned}
  {main : Mailbox → Behaviour}

/-! ### Programs of actors are orderly -/

section Orderly

variable (c : CellId) (pool : CellId) (me : Mailbox) (v : Value)

theorem orderly_readPool : (readPool c).Orderly :=
  (Prog.orderly_read c).bind fun content => by cases content <;> exact Prog.orderly_pure _

theorem orderly_writePool (p : ActorPool) : (writePool c p).Orderly := Prog.orderly_write c _

theorem orderly_park (a : ParkedActor) : (park pool a).Orderly :=
  (orderly_readPool pool).bind fun _ => orderly_writePool pool _

theorem orderly_firstReady (l : List ParkedActor) : (firstReady l).Orderly := by
  induction l with
  | nil => exact Prog.orderly_pure none
  | cons a l ih =>
    refine (orderly_readValue a.waiting).bind fun v => ?_
    split
    · refine ih.bind fun found => ?_
      cases found <;> exact Prog.orderly_pure _
    · exact Prog.orderly_pure _

theorem orderly_wake : (Actor.wake pool).Orderly := by
  refine (orderly_readPool pool).bind fun p => (orderly_firstReady p.active).bind fun found => ?_
  cases found with
  | some x =>
    exact (orderly_writePool pool _).bind fun _ => (Prog.orderly_release _).bind fun _ =>
      Prog.orderly_tail _ _ _
  | none =>
    exact (orderly_writePool pool _).bind fun _ => (Prog.orderly_record _).bind fun _ =>
      (Prog.orderly_release _).bind fun _ => Prog.orderly_pure _

/-- The handler that actors run under. -/
theorem handler_orderly : ∀ clause ∈ handler.clauses, clause.code.Orderly := by
  intro clause hclause
  rcases List.mem_cons.mp hclause with rfl | hclause
  · intro pool v ρ
    exact ((orderly_readPool pool).bind fun p => (Prog.orderly_retain _).bind fun _ =>
      (Prog.orderly_take ρ).bind fun _ => (orderly_park pool _).bind fun _ =>
        orderly_wake pool).toComp
  · obtain rfl := List.mem_singleton.mp hclause
    intro pool v ρ
    refine Prog.Orderly.toComp ?_
    split
    · exact (Prog.orderly_retain _).bind fun _ => (Prog.orderly_function _ _).bind fun _ =>
        (orderly_park pool _).bind fun _ => Prog.orderly_tail _ _ _
    · exact Prog.orderly_tail _ _ _

theorem onReturn_orderly : (handler.onReturn pool v).Orderly := by
  refine Prog.Orderly.toComp ((orderly_readPool pool).bind fun p => ?_)
  split
  · exact Prog.orderly_pure _
  · exact orderly_wake pool

theorem orderly_yield : (yield pool).Orderly :=
  (orderly_readPool pool).bind fun _ => (Prog.orderly_invoke _ _).bind fun _ => Prog.orderly_pure ()

theorem orderly_send (receiver : Mailbox) : (send receiver v).Orderly :=
  (Prog.orderly_write _ _).bind fun _ => (orderly_pushBack _ _).bind fun _ => orderly_yield _

theorem orderly_receive : (receive me).Orderly := by
  refine Prog.Orderly.loop fun _ => Prog.Orderly.bind ?_ fun found => ?_
  · refine (orderly_readList me.inbox).bind fun vs => ?_
    cases vs with
    | nil => exact Prog.orderly_pure none
    | cons v vs => exact (Prog.orderly_write _ _).bind fun _ => Prog.orderly_pure _
  · cases found with
    | some message => exact Prog.orderly_pure _
    | none =>
      exact (Prog.orderly_write _ _).bind fun _ => (orderly_yield me.pool).bind fun _ =>
        Prog.orderly_pure _

theorem orderly_newMailbox : (newMailbox pool).Orderly :=
  (Prog.orderly_retain _).bind fun _ => (Prog.orderly_alloc _).bind fun _ =>
    (Prog.orderly_alloc _).bind fun _ => Prog.orderly_pure _

variable {body : Task Value} {owned : List Owned}

theorem orderly_start {waiting : CellId} (h : body.Orderly) :
    (start pool waiting owned body).Orderly :=
  (orderly_readPool pool).bind fun _ => (orderly_writePool pool _).bind fun _ =>
    (Prog.orderly_release _).bind fun _ => (Prog.orderly_retain _).bind fun _ =>
      Prog.Orderly.handle fun _ => h

theorem orderly_spawn {body : Mailbox → Task Value} (h : ∀ child, (body child).Orderly) :
    (spawn pool owned body).Orderly :=
  (orderly_newMailbox pool).bind fun child => (orderly_readPool pool).bind fun _ =>
    (Prog.orderly_retainAll _).bind fun _ =>
      (Prog.Orderly.closure fun _ => (orderly_start pool (h child)).scope).bind fun _ =>
        (((Prog.orderly_invoke _ _).bind fun _ => Prog.orderly_pure ()).keeping).bind fun _ =>
          Prog.orderly_pure child

theorem Behaviour.orderly (b : Behaviour) : (b.toTask me).Orderly := by
  induction b generalizing me with
  | done v => exact Prog.orderly_pure v
  | send receiver message next ih => exact (orderly_send message receiver).bind fun _ => ih me
  | receive next ih => exact (orderly_receive me).bind fun v => ih v me
  | spawn owned body next ihbody ihnext =>
    exact (orderly_spawn me.pool fun child => ihbody child child).bind fun child => ihnext child me
  | yield next ih => exact (orderly_yield me.pool).bind fun _ => ih me
  | loop seed body next ihbody ihnext =>
    exact (Prog.Orderly.loop fun v => ihbody v me).bind fun v => ihnext v me
  | retain o next ih => exact (Prog.orderly_retain o).bind fun _ => ih me
  | release os next ih => exact (Prog.orderly_release os).bind fun _ => ih me
  | log text next ih => exact (Prog.orderly_record _).bind fun _ => ih me

theorem orderly_run {main : Mailbox → Task Value} (owned : List Owned)
    (h : ∀ me, (main me).Orderly) : (Actor.run owned main).Orderly := by
  refine (Prog.orderly_ask _).bind fun _ => (Prog.orderly_alloc _).bind fun _ =>
    (Prog.orderly_alloc _).bind fun pool => (orderly_newMailbox pool).bind fun me =>
      (Prog.orderly_retain _).bind fun _ => Prog.Orderly.scope ?_
  refine (orderly_start pool (h me)).bind fun _ => (orderly_readPool pool).bind fun p => ?_
  split <;> exact Prog.orderly_pure _

theorem program_orderly (owned : List Owned) (main : Mailbox → Behaviour) :
    (program owned main).Orderly :=
  (orderly_run owned fun me => (main me).orderly me).toComp

end Orderly

/-! ### The program of a pool -/

namespace Roster

variable {pool : CellId}

theorem of_getElem?_start {i : Nat} {a : Member}
    (h : (Roster.start pool main).members[i]? = some a) :
    i = 0 ∧ a = { progress := .acting (main ⟨pool, pool + 1, pool + 2⟩) [] } := by
  obtain ⟨hi, rfl⟩ := List.getElem?_eq_some_iff.mp h
  obtain rfl : i = 0 := by simpa [Roster.start] using hi
  exact ⟨rfl, rfl⟩

/-- What cells show of a roster at the start. -/
theorem shown_start {cells : Store Content}
    (hpool : ∀ x, cells.find? pool = some x → ∃ p : ActorPool, x = .pool p ∧ p.active = [] ∧ p.deadlock = none)
    (hinbox : ∀ x, cells.find? (pool + 1) = some x → x = .list [])
    (hwaiting : ∀ x, cells.find? (pool + 2) = some x → x = .value (.bool false)) :
    (Roster.start pool main).Shown cells := by
  refine ⟨fun x hx => ?_, fun i a ha x hx => ?_, fun i a ha x hx => ?_⟩
  · obtain ⟨p, rfl, hactive, hdeadlock⟩ := hpool x hx
    exact ⟨p, rfl, by simp [hactive, Roster.start], hdeadlock⟩
  · obtain ⟨rfl, rfl⟩ := of_getElem?_start ha
    exact hinbox x hx
  · obtain ⟨rfl, rfl⟩ := of_getElem?_start ha
    exact hwaiting x hx

end Roster

/-- The cells that a pool has when its first actor starts, in the order in which they are made. -/
def opening (c : CellId) : List Content :=
  [.value (.bool false), .pool { label := -1, current := c }, .list [], .value (.bool false)]

theorem shown_opening {cells : Store Content} (h : cells.WellFormed) (j : Nat) :
    (Roster.start (cells.next + 1) main).Shown
      (((opening cells.next).take j).foldl (fun s x => (s.insert x).2) cells) := by
  have hfound : ∀ k x, (((opening cells.next).take j).foldl (fun s x => (s.insert x).2) cells).find?
      (cells.next + k) = some x → (opening cells.next)[k]? = some x := by
    intro k x hx
    rw [Store.find?_insertAll h, List.getElem?_take] at hx
    split at hx
    · exact hx
    · cases hx
  refine Roster.shown_start (fun x hx => ?_) (fun x hx => ?_) fun x hx => ?_
  · exact ⟨_, (Option.some.inj (hfound 1 x hx)).symm, rfl, rfl⟩
  · exact (Option.some.inj (hfound 2 x hx)).symm
  · exact (Option.some.inj (hfound 3 x hx)).symm

theorem stored_opening {cells : Store Content} (h : cells.WellFormed) :
    (Roster.start (cells.next + 1) main).Stored
      ((opening cells.next).foldl (fun s x => (s.insert x).2) cells)
      { label := -1, current := cells.next } where
  pool := Store.find?_insertAll h (opening cells.next) 1
  inbox i a ha := by
    obtain ⟨rfl, rfl⟩ := Roster.of_getElem?_start ha
    exact Store.find?_insertAll h (opening cells.next) 2
  waiting i a ha := by
    obtain ⟨rfl, rfl⟩ := Roster.of_getElem?_start ha
    exact Store.find?_insertAll h (opening cells.next) 3
  next := Store.insertAll_next _

/-- The first actor runs under the first installation. -/
theorem rests_start (pool : CellId) : (Roster.start pool main).Rests { next := emptyResumption + 1 }
    (({ next := 1 } : Store Handler).insert (shown pool)).2 [] fun _ => 1 where
  order := rfl
  parked _ hx := absurd hx List.not_mem_nil
  distinct := List.nodup_nil
  issued _ hx := absurd hx List.not_mem_nil
  wellFormed := by simp [Store.WellFormed]
  handled _ _ _ _ := rfl
  apart _ _ _ _ ha hb _ _ _ :=
    (Roster.of_getElem?_start ha).1.trans (Roster.of_getElem?_start hb).1.symm
  handlers := by simp [Store.WellFormed, Store.insert]

/-- A program of actors gets to the start of its first actor. -/
theorem leads_program (hΓ : Γ.handlerType handlerName = handler) (cells : List Content)
    (owned : List Owned) (main : Mailbox → Behaviour) :
    Leads Γ (Roster.start (cells.length + 2) main).Shown (Roster.start (cells.length + 2) main).Enacted
      (Evaluation.start cells (program owned main)) := by
  have hwf : (Evaluation.start cells (program owned main)).cells.WellFormed :=
    Store.wellFormed_insertAll (by simp [Store.WellFormed]) cells
  have hnext : (Evaluation.start cells (program owned main)).cells.next + 1 = cells.length + 2 := by
    rw [Evaluation.start, Store.insertAll_next]
    show 1 + cells.length + 1 = _
    omega
  rw [← hnext]
  let s := Evaluation.start cells (program owned main)
  let r := Roster.start (s.cells.next + 1) main
  have hP : ∀ j, r.Shown _ := shown_opening hwf
  let p : ActorPool := { label := -1, current := s.cells.next + 3 }
  have hopening : r.Stored _ { label := -1, current := s.cells.next } := stored_opening hwf
  have hstored : r.Stored _ p := hopening.writePool p
  have hQ : r.Shown _ := hstored.shown rfl rfl
  have hdeclare : Evaluation.declare (ω := Content) { declared := [], phase := .finished .unit }
      handlerName (Γ.handlerType handlerName) = .ok [handlerName] := by
    rw [hΓ]
    rfl
  refine .freshLabel (hP 0) (.alloc (hP 0) (.alloc (hP 1) (.retain (hP 2) (.alloc (hP 2)
    (.alloc (hP 3) (.retain (hP 4) (.scope (hP 4) ?_)))))))
  refine leads_start (p := { label := -1, current := s.cells.next }) (hP 4) hQ
    hopening.pool rfl rfl hdeclare (.here hQ ?_)
  refine .running (i := 0) rfl ⟨rfl, p, [], fun _ => 1, _,
    { stored := hstored, rests := rests_start _, label := rfl, active := rfl, deadlock := rfl
      pending := rfl, declared := rfl, nextLabel := rfl }, rfl, rfl, .base⟩ rfl

/-! ### What the thread does -/

/-- What is in fewer cells shows the roster as far as it goes. -/
theorem Roster.Visible.mono {contents contents' : CellId → Option Content}
    (h : r.Visible contents) (hsub : ∀ c x, contents' c = some x → contents c = some x) :
    r.Visible contents' where
  pool x hx := h.pool x (hsub _ x hx)
  inbox i a ha x hx := h.inbox i a ha x (hsub _ x hx)
  waiting i a ha x hx := h.waiting i a ha x (hsub _ x hx)

/-- What a roster says that its program does. -/
def Roster.plan (r : Roster) : Plan Content where
  At t := (r.run t).Enacted
  Shown t := (r.run t).Visible
  Ended t v := (r.run t).phase = .finished ∧ v = report (r.run t).deadlock
  mono h hsub := h.mono hsub

/-- All mail and all actors of a roster are accounted for. -/
structure Roster.Accounted (r : Roster) : Prop where
  /-- Whoever waits for mail has read all of it. -/
  blocked : ∀ (i : Nat) (a : Member), r.members[i]? = some a → a.waiting = true →
    a.inbox = [] ∧ ∃ next loops, a.progress = .polling next loops
  /-- The messages that were sent are received once, in the order in which they were sent. -/
  order : ∀ (i : Nat) (a : Member), r.members[i]? = some a → a.sent = a.received ++ a.inbox
  /-- Whoever has not ended has control or is parked, once. -/
  once : r.deadlock = none → ∀ (i : Nat) (a : Member), r.members[i]? = some a →
    a.progress.isEnded = false →
      r.current = some i ∧ i ∉ r.active ∨ r.current ≠ some i ∧ r.active.count i = 1

/-- No message that was sent or received is forgotten. -/
def Roster.Grows (r r' : Roster) : Prop :=
  ∀ (i : Nat) (a : Member), r.members[i]? = some a → ∃ b, r'.members[i]? = some b ∧
    a.sent <+: b.sent ∧ a.received <+: b.received

/-- The result of a thread tells whether all actors have ended, or how many wait for ever. -/
structure Reports (Γ : Library Content) (m : Machine Content) (r : Roster) : Prop where
  ended : (∃ n, (m.run Γ n).ending = some (.ok .absent)) ↔ ∃ t, (r.run t).Ended
  stuck : ∀ k : Nat, (∃ n, (m.run Γ n).ending = some (.ok (.present (.int k)))) ↔
    ∃ t, (r.run t).Stuck k
  only : ∀ n x, (m.run Γ n).ending = some x →
    x = .ok .absent ∨ ∃ k : Nat, x = .ok (.present (.int k))

theorem Roster.Sound.accounted (h : r.Sound) : r.Accounted where
  blocked i a ha hwaiting := ⟨(h.members i a ha).empty hwaiting, (h.members i a ha).polls hwaiting⟩
  order i a ha := (h.members i a ha).order
  once hdeadlock _ _ ha hend := h.once hdeadlock ha hend

namespace Roster

variable {r' r'' : Roster} {i : Nat} {f : Member → Member}

theorem Grows.refl (r : Roster) : r.Grows r := fun _ a ha => ⟨a, ha, List.prefix_rfl, List.prefix_rfl⟩

theorem Grows.trans (h : r.Grows r') (h' : r'.Grows r'') : r.Grows r'' := by
  intro i a ha
  obtain ⟨b, hb, hsent, hreceived⟩ := h i a ha
  obtain ⟨c, hc, hsent', hreceived'⟩ := h' i b hb
  exact ⟨c, hc, hsent.trans hsent', hreceived.trans hreceived'⟩

theorem grows_modify (hsent : ∀ a, a.sent <+: (f a).sent)
    (hreceived : ∀ a, a.received <+: (f a).received) : r.Grows (r.modify i f) := by
  intro j a ha
  refine ⟨_, exists_getElem?_modify ha, ?_⟩
  split
  · exact ⟨hsent a, hreceived a⟩
  · exact ⟨List.prefix_rfl, List.prefix_rfl⟩

/-- An actor that only goes on neither sends nor receives. -/
theorem grows_goOn (p : Progress) : r.Grows (r.modify i (.goOn p)) :=
  grows_modify (fun _ => List.prefix_rfl) fun _ => List.prefix_rfl

theorem grows_append (m : Member) : r.Grows { r with members := r.members ++ [m] } := by
  intro j a ha
  refine ⟨a, ?_, List.prefix_rfl, List.prefix_rfl⟩
  rw [List.getElem?_append_left (List.getElem?_eq_some_iff.mp ha).1]
  exact ha

theorem grows_wake (r : Roster) : r.Grows r.wake := by
  have hstart : ∀ a : Member, a.sent <+: a.start.sent ∧ a.received <+: a.start.received := by
    intro a
    unfold Member.start
    split <;> exact ⟨List.prefix_rfl, List.prefix_rfl⟩
  unfold wake
  split
  · exact grows_modify (r := r) (fun a => (hstart a).1) fun a => (hstart a).2
  · exact Grows.refl r

theorem grows_act (r : Roster) (i : Nat) (a : Member) : r.Grows (r.act i a) := by
  cases hp : a.progress with
  | acting b loops =>
    cases b with
    | send receiver message next =>
      simp only [act, hp]
      exact (grows_goOn _).trans (grows_modify (fun _ => List.prefix_rfl) fun _ => List.prefix_rfl)
    | spawn owned body next =>
      simp only [act, hp]
      exact (grows_goOn _).trans (grows_append _)
    | done v =>
      simp only [act, hp]
      split <;> exact grows_goOn (r := r) _
    | receive | yield | loop | retain | release | log =>
      simp only [act, hp]
      exact grows_goOn (r := r) _
  | polling next loops =>
    cases hmail : a.inbox with
    | nil =>
      simp only [act, hp, hmail]
      exact grows_modify (r := r) (f := .wait) (fun _ => List.prefix_rfl) fun _ => List.prefix_rfl
    | cons message rest =>
      simp only [act, hp, hmail]
      exact grows_modify (fun _ => List.prefix_rfl) fun _ => List.prefix_append _ _
  | fresh | ended =>
    simp only [act, hp]
    exact Grows.refl r

theorem grows_step (r : Roster) : r.Grows r.step := by
  cases hphase : r.phase with
  | running i =>
    cases ha : r.members[i]? with
    | some a =>
      simp only [step, hphase, ha]
      exact grows_act r i a
    | none =>
      simp only [step, hphase, ha]
      exact Grows.refl r
  | pushing i receiver message =>
    simp only [step, hphase]
    exact grows_modify (r := r) (f := .push message) (fun _ => List.prefix_append _ _)
      fun _ => List.prefix_rfl
  | waking =>
    simp only [step, hphase]
    exact grows_wake r
  | parking | ending | finished =>
    simp only [step, hphase]
    exact Grows.refl r

end Roster

theorem absent_eq_report {deadlock : Option Nat} :
    Value.absent = report deadlock ↔ deadlock = none := by
  cases deadlock <;> simp [report]

theorem present_eq_report {k : Nat} {deadlock : Option Nat} :
    Value.present (.int k) = report deadlock ↔ deadlock = some k := by
  cases deadlock with
  | none => simp [report]
  | some parked =>
    simp only [report, Value.present.injEq, Value.int.injEq, Option.some.injEq]
    omega

/-- An evaluation that enacts a roster has ended if and only if the roster is over. -/
theorem Roster.Enacted.ending_iff {x : Except Fault Value} (h : r.Enacted s) :
    s.ending = some x ↔ ∃ v, x = .ok v ∧ r.phase = .finished ∧ v = report r.deadlock := by
  cases h with
  | running hphase _ hs | pushing hphase _ _ hs | parking hphase _ hs | waking hphase _ hs
  | ending hphase _ hs => simp [Evaluation.ending, hs, hphase]
  | finished hphase _ hs => simp [Evaluation.ending, hs, hphase, eq_comm]

/-- An evaluation does what its roster says. -/
theorem follows_plan (owned : List Owned) (hΓ : Γ.handlerType handlerName = handler)
    (haddressed : ∀ t, ((Roster.start (cells.length + 2) main).run t).Addressed) :
    Evaluation.Follows Γ (Evaluation.start cells (program owned main))
      (Roster.start (cells.length + 2) main).plan where
  start := leads_program hΓ cells owned main
  next t s h := by
    have hsound := (Roster.Sound.start (cells.length + 2) main).run t
    simp only [Roster.plan, Roster.run_succ]
    exact Roster.Enacted.step (r := (Roster.start (cells.length + 2) main).run t) hΓ h hsound (haddressed t)
  ending _ _ _ h := h.ending_iff

section Threads

variable {settings : SettingsSlot} {statics : List Owned}

/-- In a careful thread actors get all their mail, in order and once, and nobody is left behind.
The result tells whether all actors have ended, or else how many wait for ever. -/
theorem mail_is_delivered (hΓ : Γ.Orderly) (hhandler : Γ.handlerType handlerName = handler)
    (hsize : settings.use.1.stackSize < StackPool.addressSpace)
    (hcareful : (Machine.start settings cells statics (program owned main)).Careful Γ)
    (haddressed : ∀ t, ((Roster.start (cells.length + 2) main).run t).Addressed) :
    (∃ clock, (Machine.start settings cells statics (program owned main)).Follows Γ
      (Roster.start (cells.length + 2) main).plan clock) ∧
    (∀ t, ((Roster.start (cells.length + 2) main).run t).Accounted ∧
      ((Roster.start (cells.length + 2) main).run t).Grows
        ((Roster.start (cells.length + 2) main).run (t + 1))) ∧
    Reports Γ (Machine.start settings cells statics (program owned main))
      (Roster.start (cells.length + 2) main) := by
  have hsound := Roster.Sound.start (cells.length + 2) main
  have hfollows := follows_plan owned hhandler haddressed
  have hmain := program_orderly owned main
  have hending : ∀ v, (∃ n, (Machine.run Γ n (Machine.start settings cells statics
      (program owned main))).ending = some (.ok v)) ↔
        ∃ t, ((Roster.start (cells.length + 2) main).run t).phase = .finished ∧
          v = report ((Roster.start (cells.length + 2) main).run t).deadlock := by
    intro v
    rw [Machine.exists_ending_iff hΓ hmain hsize hcareful hfollows]
    simp [Roster.plan]
  refine ⟨Machine.exists_follows hΓ hmain hsize hcareful hfollows,
    fun t => ⟨(hsound.run t).accounted, ?_⟩, ?_, fun k => ?_, fun n x hx => ?_⟩
  · rw [Roster.run_succ]
    exact Roster.grows_step _
  · rw [hending, ← Roster.over_iff_ended hsound]
    exact exists_congr fun t => and_congr_right fun _ => absent_eq_report
  · rw [hending, ← Roster.over_iff_stuck hsound]
    exact exists_congr fun t => and_congr_right fun _ => present_eq_report
  · obtain ⟨t, v, rfl, -, rfl⟩ :=
      (Machine.exists_ending_iff hΓ hmain hsize hcareful hfollows).mp ⟨n, hx⟩
    cases hdeadlock : ((Roster.start (cells.length + 2) main).run t).deadlock with
    | none => exact .inl rfl
    | some k => exact .inr ⟨k, rfl⟩

end Threads

/-! ### A reader that waits for more -/

/-- The library that knows the handler of actors alone. -/
def library : Library Content := Client.libraryOf handlers []

theorem library_handler : library.handlerType handlerName = handler := rfl

theorem library_orderly : library.Orderly where
  clauses t := by
    simp only [library, Client.libraryOf, handlers, List.lookup_cons, List.lookup_nil]
    split
    · exact handler_orderly
    · exact fun _ hc => absurd hc List.not_mem_nil
  onReturn t c v := by
    simp only [library, Client.libraryOf, handlers, List.lookup_cons, List.lookup_nil]
    split
    · exact onReturn_orderly c v
    · trivial
  procedure _ _ := trivial

/-- An actor that sends one message to an actor that wants two. -/
def writer (_ : Mailbox) : Behaviour :=
  .spawn [] (fun _ => .receive fun _ => .receive .done) fun child =>
    .send child (.int 1) (.release child.owned (.done .unit))

namespace Roster

/-- Whether the message that is sent now, if there is one, is sent to an actor of the pool. -/
def isAddressed (r : Roster) : Bool :=
  match r.phase with
  | .running i =>
    match (r.members[i]?).map Member.progress with
    | some (.acting (.send receiver ..) _) =>
      (List.range r.members.length).any fun j => receiver = r.address j
    | _ => true
  | _ => true

theorem addressed_of_isAddressed (h : r.isAddressed = true) : r.Addressed := by
  intro i a receiver message next loops hphase ha hacts
  simp only [isAddressed, hphase, ha, Option.map_some, hacts, List.any_eq_true, List.mem_range,
    decide_eq_true_eq] at h
  exact h

theorem run_of_over {t : Nat} (h : (r.run t).phase = .finished) (d : Nat) :
    r.run (t + d) = r.run t := by
  induction d with
  | zero => rfl
  | succ d ih => rw [← Nat.add_assoc, run_succ, ih, step, h]

/-- A pool that is over after so many steps is watched until then. -/
theorem addressed_of_over {N : Nat} (hover : (r.run N).phase = .finished)
    (hall : ∀ t < N, (r.run t).isAddressed = true) (t : Nat) : (r.run t).Addressed := by
  refine addressed_of_isAddressed ?_
  by_cases ht : t < N
  · exact hall t ht
  · obtain ⟨d, rfl⟩ := Nat.exists_eq_add_of_le (Nat.not_lt.mp ht)
    rw [run_of_over hover]
    simp [isAddressed, hover]

end Roster

theorem addressed_writer (t : Nat) : ((Roster.start 2 writer).run t).Addressed :=
  Roster.addressed_of_over (N := 15) rfl (by decide +kernel) t

theorem careful_writer :
    (Machine.start {} [] [] (program [] writer)).Careful library :=
  Machine.careful_of_watch (N := 176) (by decide +kernel)

/-- The reader waits for ever, and the result says so. -/
theorem mail_is_delivered_writer :
    (∃ clock, (Machine.start {} [] [] (program [] writer)).Follows library
      (Roster.start 2 writer).plan clock) ∧
    (∀ t, ((Roster.start 2 writer).run t).Accounted ∧
      ((Roster.start 2 writer).run t).Grows ((Roster.start 2 writer).run (t + 1))) ∧
    Reports library (Machine.start {} [] [] (program [] writer)) (Roster.start 2 writer) :=
  mail_is_delivered library_orderly library_handler (by decide) careful_writer addressed_writer

end EffectHandlers.Actor
