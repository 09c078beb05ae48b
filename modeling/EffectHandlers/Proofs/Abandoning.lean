import EffectHandlers.Proofs.ActorCode
import EffectHandlers.Proofs.Discarding
import EffectHandlers.Proofs.Endings
/-!
# What actors leave behind

A run of actors that is followed to its end leaves nothing behind: all actors have returned, or they
wait for ever and are released. A run that is given up is another matter. The continuations of its
parked actors are owned by the pool, which their own code owns, so nobody ever releases them.
-/

namespace EffectHandlers.Actor

variable {Γ : Library Content} {settings : SettingsSlot} {cells : List Content}
  {statics owned : List Owned} {main : Mailbox → Task Value} {v : Value} {n : Nat}

section Shows

variable {m₀ : Machine Content} {s₀ : Evaluation Content} {clock : Nat → Nat} {j q : Nat}
  {os : List Owned} {next : Comp Content}

theorem ne_release (os : List Owned) (next : Comp Content) : next ≠ .release os next := fun h => by
  have hsize := congrArg sizeOf h
  simp at hsize

/-- Before its clock goes on from a release, a thread is about to take it. -/
theorem exists_releasing (hpace : Pace clock)
    (hshows : ∀ n, ∃ d, m₀.Shows Γ n ((Evaluation.step Γ)^[clock n] s₀) d)
    (hj : ((Evaluation.step Γ)^[j] s₀).phase = .eval (.release os next)) (hlt : j < clock q) :
    ∃ k < q, (Machine.run Γ k m₀).releasing = [] ∧
      (Machine.run Γ k m₀).control = .eval (.release os next) ∧
      ∃ l, Sound Γ (Machine.run Γ k m₀) l ∧
        Tracks (m₀.Dropped Γ k) (Machine.run Γ k m₀) ((Evaluation.step Γ)^[j] s₀) := by
  have hafter : ((Evaluation.step Γ)^[j + 1] s₀).phase = .eval next := by
    rw [Function.iterate_succ_apply']
    simp only [Evaluation.step, hj]
    rfl
  obtain ⟨k, hk, -, hreleasing, hcontrol, hsound⟩ := Machine.exists_evaluating hpace hshows hj hafter
    (ne_release os next) (fun _ _ _ h => by cases h) hlt
  exact ⟨k, hk, hreleasing, hcontrol, hsound⟩

end Shows

/-- A careful thread that has run actors to the end has torn them all down: no code of theirs is
left, running, waiting or parked, none of those that were added is still to be started, and all
guards that their code has owned at any time have been noticed. -/
theorem run_tears_down (hΓ : Γ.Orderly) (hhandler : Γ.handlerType handlerName = handler)
    (hsize : settings.use.1.stackSize < StackPool.addressSpace) (hmain : ∀ me, (main me).Orderly)
    (hacts : ∀ me, me.pool = cells.length + 2 → Acts (cells.length + 2) (main me).toComp)
    (hcareful : (Machine.start settings cells statics (Actor.run owned main).toComp).Careful Γ)
    (hpool : ∀ k x, ((Evaluation.step Γ)^[k] (Evaluation.start cells
      (Actor.run owned main).toComp)).cells.find? (cells.length + 2) = some x → ∃ p, x = .pool p)
    (hend : (Machine.run Γ n (Machine.start settings cells statics
      (Actor.run owned main).toComp)).ending = some (.ok v)) :
    (Machine.run Γ n (Machine.start settings cells statics (Actor.run owned main).toComp)).Bare ∧
      ∀ k g, (Machine.run Γ k (Machine.start settings cells statics
          (Actor.run owned main).toComp)).guards g ≤
        (Machine.run Γ n (Machine.start settings cells statics
          (Actor.run owned main).toComp)).noticed.count g := by
  have horderly := (orderly_run owned hmain).toComp
  obtain ⟨clock, hpace, hshows⟩ :=
    Machine.exists_pace_shows hΓ horderly hsize hcareful
  have htidy := Machine.tidy_start settings cells statics (Actor.run owned main).toComp
  have hfiled : ∀ {l k}, Sound Γ (Machine.run Γ k (Machine.start settings cells statics
      (Actor.run owned main).toComp)) l → (Machine.run Γ k (Machine.start settings cells statics
        (Actor.run owned main).toComp)).Filed := Machine.filed_run
  have hgoes := leads_actors hhandler cells owned hacts
  generalize Evaluation.start cells (Actor.run owned main).toComp = s₀ at *
  have hrunning : ∀ o, (Machine.start settings cells statics
    (Actor.run owned main).toComp).control ≠ .halted o := by simp [Machine.start]
  generalize Machine.start settings cells statics (Actor.run owned main).toComp = m₀ at *
  obtain ⟨q, hq, hends, hlast, hphase, hframes, l, hsound, htracks⟩ :=
    Machine.exists_ends hpace hshows hrunning hend
  have hfinal : ((Evaluation.step Γ)^[clock q + 1] s₀).phase = .finished v := by
    rw [Function.iterate_succ_apply']
    exact Evaluation.step_of_returns hphase hframes
  obtain ⟨j, hj, hcloses⟩ := hgoes.closes hhandler hpool hfinal
  have hunique : ∀ i, Returned ((Evaluation.step Γ)^[i] s₀) → i = clock q := by
    intro i hi
    obtain ⟨w, hw⟩ := hi.phase
    exact Evaluation.returns_once hw hi.frames hphase hframes
  have hall : (Machine.run Γ q m₀).Bare := by
    cases hcloses with
    | finished hreturned hnone =>
      obtain rfl := hunique j hreturned
      refine hends.bare hsound htracks (fun r => ?_) hreturned.closures hreturned.pending
      cases hr : (Machine.run Γ q m₀).resumptions.find? r with
      | none => rfl
      | some k =>
        obtain ⟨κ, hκ, -⟩ := htracks.resumptions.forth hr
        simp [hnone] at hκ
    | @deadlocked os next hs hall hnext =>
      obtain ⟨d, ⟨hreturned, hsame⟩, -⟩ := hnext.exists_steps
      rw [← Function.iterate_succ_apply' (Evaluation.step Γ), ← Function.iterate_add_apply] at hreturned hsame
      have hlater := hunique _ hreturned
      rw [hlater] at hreturned hsame
      obtain ⟨k, hk, hreleasing, hcontrol, l', hsound', htracks'⟩ :=
        exists_releasing (q := q) hpace hshows hs (by omega)
      refine hends.bare hsound htracks (fun r => ?_) hreturned.closures hreturned.pending
      cases hr : (Machine.run Γ q m₀).resumptions.find? r with
      | none => rfl
      | some k' =>
        obtain ⟨κ, hκ, -⟩ := htracks.resumptions.forth hr
        rw [hsame] at hκ
        have hissued : r < (Machine.run Γ k m₀).resumptions.next := by
          rw [← htracks'.resumptions.next]
          exact Store.lt_next htracks'.resumptions.right hκ
        have hgone := Machine.released_gone htidy (hfiled hsound') hreleasing hcontrol
          (hall r κ hκ) hissued hk hends.releasing
        simp [hgone] at hr
  have hleft : (Machine.run Γ n m₀).Bare := by
    rw [hlast]
    exact { hall with }
  refine ⟨hleft, fun k g => ?_⟩
  rcases Nat.le_total k n with hle | hle
  · exact Machine.count_noticed m₀ hle (hleft.guards g) hleft.releasing
  · obtain ⟨d, rfl⟩ := Nat.exists_eq_add_of_le hle
    have hcontrol : (Machine.run Γ n m₀).control = .halted (.finished v) := by rw [hlast]; rfl
    rw [Machine.run_add, Machine.run_halted hcontrol hleft.releasing d, hleft.guards g]
    exact Nat.zero_le _

theorem ending_of_toOption {ending : Option (Except Fault Value)}
    (h : ending.bind Except.toOption = some v) : ending = some (.ok v) := by
  obtain ⟨out, rfl, hout⟩ := Option.bind_eq_some_iff.mp h
  cases out with
  | ok w => rw [Option.some.inj hout]
  | error f => cases hout

/-! ### An actor that waits for ever -/

/-- Wait for mail with a guard. -/
def guarded (me : Mailbox) : Task Value :=
  Prog.scope [.notice (.guardDropped "child")] (receive me)

/-- An actor that adds one which waits with a guard. -/
def parent (me : Mailbox) : Task Value := do
  let child ← spawn me.pool [] guarded
  Prog.release child.owned
  return .unit

theorem acts_look (me : Mailbox) (v : Value) : Acts me.pool (look me v).toComp := by
  let wait : Unit → Comp Content := fun _ => .done (Comp.again .unit)
  have hyield : Acts me.pool (yield me.pool wait) := .yield (.done _)
  have hwait : Acts me.pool (.write me.waiting (.value (.bool true)) (yield me.pool wait)) :=
    .write (fun p hp => by cases hp) hyield
  refine .read fun content => ?_
  cases content with
  | list vs =>
    cases vs with
    | nil => exact hwait
    | cons v vs => exact .write (fun p hp => by cases hp) (.done _)
  | _ => exact hwait

theorem acts_guarded (me : Mailbox) : Acts me.pool (guarded me).toComp :=
  .scope (.loop (acts_look me) .done) .done

theorem parent_acts (me : Mailbox) : Acts me.pool (parent me).toComp :=
  .spawn (fun child hchild => hchild ▸ acts_guarded child) fun _ _ => .release (.done _)

theorem parent_orderly (me : Mailbox) : (parent me).Orderly :=
  (orderly_spawn me.pool fun child => (orderly_receive child).scope).bind fun _ =>
    (Prog.orderly_release _).bind fun _ => Prog.orderly_pure _

/-- Whether this is a pool. -/
def isPool : Content → Bool
  | .pool _ => true
  | _ => false

theorem pool_parent (k : Nat) (x : Content) (hx : ((Evaluation.step library)^[k]
    (Evaluation.start [] (Actor.run [] parent).toComp)).cells.find? 2 = some x) :
    ∃ p, x = .pool p := by
  obtain ⟨out, hend⟩ : ∃ out, ((Evaluation.step library)^[87] (Evaluation.start []
      (Actor.run [] parent).toComp)).ending = some out :=
    Option.isSome_iff_exists.mp (by decide +kernel)
  have hall : ∀ k < 88, (((Evaluation.step library)^[k] (Evaluation.start []
      (Actor.run [] parent).toComp)).cells.find? 2).all isPool = true := by decide +kernel
  have hpool : isPool x = true := by
    rcases Nat.lt_or_ge k 88 with hk | hk
    · have hseen := hall k hk
      rwa [hx] at hseen
    · obtain ⟨d, rfl⟩ := Nat.exists_eq_add_of_le' (Nat.le_of_lt hk)
      rw [Evaluation.iterate_of_ending hend d] at hx
      have hseen := hall 87 (by decide)
      rwa [hx] at hseen
  cases x with
  | pool p => exact ⟨p, rfl⟩
  | _ => cases hpool

theorem careful_parent :
    (Machine.start {} [] [] (Actor.run [] parent).toComp).Careful library :=
  Machine.careful_of_watch (N := 145) (by decide +kernel)

theorem parent_ends : (Machine.run library 145 (Machine.start {} [] []
    (Actor.run [] parent).toComp)).ending = some (.ok (.present (.int 1))) :=
  ending_of_toOption (by decide +kernel)

/-- The actor that waits for ever is released in the end, and its guard noticed. -/
theorem run_tears_down_waiting :
    (Machine.run library 91 (Machine.start {} [] [] (Actor.run [] parent).toComp)).guards
        (.guardDropped "child") = 1 ∧
      (Machine.run library 145 (Machine.start {} [] [] (Actor.run [] parent).toComp)).Bare ∧
      ∀ k g, (Machine.run library k (Machine.start {} [] []
          (Actor.run [] parent).toComp)).guards g ≤
        (Machine.run library 145 (Machine.start {} [] []
          (Actor.run [] parent).toComp)).noticed.count g :=
  ⟨by decide +kernel, run_tears_down (v := .present (.int 1)) library_orderly library_handler
    (by decide) parent_orderly (fun me hme => hme ▸ parent_acts me) careful_parent pool_parent
    parent_ends⟩

/-! ### A run that is given up -/

/-- A library with the handler of actors and another one, whose clause gives up what it handles. -/
def quitting : Library Content :=
  Client.libraryOf [(handlerName, handler), ("Quitter",
    { answer := "()", clauses := [⟨"Quit", .resumptive fun _ _ _ => .done .unit⟩] })] []

/-- An actor that gives up the whole run while another one waits with a guard. -/
def quitter (me : Mailbox) : Task Value := do
  let child ← spawn me.pool [] guarded
  Prog.scope child.owned do
    yield me.pool
    Prog.invoke { name := "Quit" } .innermost

/-- Run actors under a handler that may give up their run. -/
def abandoned : Comp Content := Prog.toComp do
  let c ← Prog.alloc (.value .unit)
  Prog.handle { handlerType := "Quitter", label := none, handler := c, owned := [] } fun _ =>
    Actor.run [] quitter

/-- Actors whose run is given up are not torn down: the one that waits is still parked when the
thread has ended, and its guard is never noticed. -/
theorem abandoned_actor_stays :
    (Machine.run quitting 153 (Machine.start {} [] [] abandoned)).ending = some (.ok .unit) ∧
      (Machine.run quitting 153 (Machine.start {} [] [] abandoned)).guards
        (.guardDropped "child") = 1 ∧
      ∀ k, (Machine.run quitting (153 + k) (Machine.start {} [] [] abandoned)).noticed = [] := by
  obtain ⟨hend, hreleasing, hguards, hnoticed⟩ :
      (Machine.run quitting 153 (Machine.start {} [] [] abandoned)).ending.bind Except.toOption =
          some .unit ∧
        (Machine.run quitting 153 (Machine.start {} [] [] abandoned)).releasing = [] ∧
        (Machine.run quitting 153 (Machine.start {} [] [] abandoned)).guards
          (.guardDropped "child") = 1 ∧
        (Machine.run quitting 153 (Machine.start {} [] [] abandoned)).noticed = [] := by
    decide +kernel
  have hended := ending_of_toOption hend
  refine ⟨hended, hguards, fun k => ?_⟩
  obtain ⟨o, hcontrol, -⟩ := Machine.halted_of_ending hended
  rw [Machine.run_add, Machine.run_halted hcontrol hreleasing k, hnoticed]

end EffectHandlers.Actor
