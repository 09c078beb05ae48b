import Mathlib.Data.List.Perm.Basic
import Mathlib.Logic.Function.Iterate
import EffectHandlers.Proofs.Roster
import EffectHandlers.Proofs.Updates
/-!
# Who waits, and who goes on

In every roster that can be reached, an actor that has not ended has control or is parked once, and
an actor that waits for mail has none. So the pool ends when all actors have ended or all wait.
-/

namespace EffectHandlers.Actor

variable {r : Roster} {i j : Nat} {a : Member} {f : Member → Member}

/-! ### Picking -/

section Pick

variable {α β : Type} {p : α → Bool} {l others : List α} {x : α}

theorem pick_eq_none : pick p l = none ↔ ∀ y ∈ l, p y = false := by
  induction l with
  | nil => simp [pick]
  | cons y l ih =>
    by_cases hy : p y = true
    · simp [pick, hy]
    · simp [pick, hy, ih]

theorem pick_eq_some (h : pick p l = some (x, others)) :
    p x = true ∧ l.Perm (x :: others) := by
  induction l generalizing others with
  | nil => cases h
  | cons y l ih =>
    rw [pick] at h
    split at h
    · rename_i hy
      cases h
      exact ⟨hy, .refl _⟩
    · obtain ⟨⟨x', others'⟩, hpick, heq⟩ := Option.map_eq_some_iff.mp h
      cases heq
      obtain ⟨hx, hperm⟩ := ih hpick
      exact ⟨hx, (hperm.cons y).trans (.swap _ y others')⟩

/-- Picking looks at the test alone. -/
theorem pick_map (q : β → Bool) (g : α → β) (hg : ∀ y ∈ l, q (g y) = p y) :
    pick q (l.map g) = (pick p l).map fun y => (g y.1, y.2.map g) := by
  induction l with
  | nil => rfl
  | cons y l ih =>
    have hrest := ih fun z hz => hg z (List.mem_cons_of_mem _ hz)
    have hy := hg y List.mem_cons_self
    simp only [List.map_cons, pick, hy, hrest]
    split
    · rfl
    · cases pick p l <;> rfl

end Pick

/-! ### Members -/

/-- An actor that waits looks for mail and has none; the messages that were sent to it are those
that it has received and those that it has not. -/
structure Member.Sound (a : Member) : Prop where
  empty : a.waiting = true → a.inbox = []
  polls : a.waiting = true → ∃ next loops, a.progress = .polling next loops
  order : a.sent = a.received ++ a.inbox

namespace Member.Sound

theorem goOn {p : Progress} (h : a.Sound) (hwaiting : a.waiting = false) : (a.goOn p).Sound where
  empty := h.empty
  polls hw := absurd hw (by simp [Member.goOn, hwaiting])
  order := h.order

theorem rouse (h : a.Sound) : a.rouse.Sound where
  empty hw := absurd hw (by simp [Member.rouse])
  polls hw := absurd hw (by simp [Member.rouse])
  order := h.order

theorem push (message : Value) (h : a.Sound) (hwaiting : a.waiting = false) :
    (a.push message).Sound where
  empty hw := absurd hw (by simp [Member.push, hwaiting])
  polls hw := absurd hw (by simp [Member.push, hwaiting])
  order := by simp [Member.push, h.order]

theorem take {message : Value} {rest : List Value} {p : Progress} (h : a.Sound)
    (hinbox : a.inbox = message :: rest) (hwaiting : a.waiting = false) :
    (a.take message rest p).Sound where
  empty hw := absurd hw (by simp [Member.take, hwaiting])
  polls hw := absurd hw (by simp [Member.take, hwaiting])
  order := by simp [Member.take, h.order, hinbox]

theorem wait {next : Value → Behaviour} {loops : List (Loop Behaviour)} (h : a.Sound) (hinbox : a.inbox = [])
    (hpolls : a.progress = .polling next loops) : a.wait.Sound where
  empty _ := hinbox
  polls _ := ⟨next, loops, hpolls⟩
  order := h.order

theorem start (h : a.Sound) : a.start.Sound := by
  unfold Member.start
  split
  · rename_i b hfresh
    refine h.goOn (Bool.eq_false_iff.mpr fun hw => ?_)
    obtain ⟨next, loops, hpolls⟩ := h.polls hw
    rw [hfresh] at hpolls
    cases hpolls
  · exact h

end Member.Sound

theorem Member.start_of_isStarted (h : a.progress.isStarted = true) : a.start = a := by
  unfold Member.start
  split
  · rename_i b hfresh
    rw [hfresh] at h
    cases h
  · rfl

theorem Member.start_isEnded : a.start.progress.isEnded = a.progress.isEnded := by
  unfold Member.start
  split
  · rename_i b hfresh
    simp [Member.goOn, hfresh, Progress.isEnded]
  · rfl

theorem Member.start_isStarted (h : a.progress.isEnded = false) :
    a.start.progress.isStarted = true := by
  unfold Member.start
  split
  · rfl
  · rename_i hfresh
    cases hp : a.progress with
    | fresh b => exact absurd hp (hfresh b)
    | acting | polling => rfl
    | ended =>
      rw [hp] at h
      cases h

@[simp] theorem Member.start_waiting : a.start.waiting = a.waiting := by
  unfold Member.start
  split <;> rfl

@[simp] theorem Member.start_inbox : a.start.inbox = a.inbox := by
  unfold Member.start
  split <;> rfl

theorem Progress.isEnded_of_isStarted {p : Progress} (h : p.isStarted = true) :
    p.isEnded = false := by
  cases p with
  | acting | polling => rfl
  | fresh | ended => cases h

namespace Roster

/-! ### Looking up actors -/

theorem mem_unfinished :
    j ∈ r.unfinished ↔ ∃ a, r.members[j]? = some a ∧ a.progress.isEnded = false := by
  simp only [unfinished, List.mem_filter, List.mem_range, Option.any_eq_true]
  constructor
  · rintro ⟨-, a, ha, hended⟩
    exact ⟨a, ha, by simpa using hended⟩
  · rintro ⟨a, ha, hended⟩
    exact ⟨(List.getElem?_eq_some_iff.mp ha).1, a, ha, by simp [hended]⟩

theorem nodup_unfinished (r : Roster) : r.unfinished.Nodup := List.nodup_range.filter _

/-! ### Sound rosters -/

/-- All actors wait for mail that have not ended, and there are so many of them. -/
structure Stuck (r : Roster) (k : Nat) : Prop where
  length : r.unfinished.length = k
  pos : 0 < k
  waiting : ∀ (j : Nat) (a : Member), r.members[j]? = some a → a.progress.isEnded = false → a.waiting = true

/-- Who has control, who is parked and who waits is in order. -/
structure Sound (r : Roster) : Prop where
  members : ∀ (j : Nat) (a : Member), r.members[j]? = some a → a.Sound
  nodup : r.active.Nodup
  apart : ∀ i, r.current = some i → i ∉ r.active
  started : ∀ i, r.current = some i → ∃ a, r.members[i]? = some a ∧ a.progress.isStarted = true
  parked : ∀ j ∈ r.active, ∃ a, r.members[j]? = some a ∧ a.progress.isEnded = false
  placed : r.deadlock = none → ∀ (j : Nat) (a : Member), r.members[j]? = some a → a.progress.isEnded = false →
    r.current = some j ∨ j ∈ r.active
  awake : ∀ (i : Nat) (a : Member), r.phase = .running i → r.members[i]? = some a → a.waiting = false
  roused : ∀ i receiver message, r.phase = .pushing i receiver message →
    (∀ a, r.members[i]? = some a → ∃ b loops, a.progress = .acting b loops) ∧
      ∀ a, r.members[r.seat receiver]? = some a → a.waiting = false
  someone : r.phase = .waking → r.active ≠ []
  nobody : r.current = none → r.phase ≠ .waking → r.active = []
  going : r.current.isSome = true ∨ r.phase = .waking → r.deadlock = none
  stuck : ∀ k, r.deadlock = some k → r.Stuck k

namespace Sound

theorem going_of_current (h : r.Sound) (hi : r.current = some i) : r.deadlock = none :=
  h.going (.inl (by simp [hi]))

/-- The actor that runs, or another one, changes, and stays what it was to the others. -/
theorem modify (h : r.Sound) (hcurrent : r.current = some j)
    (hsound : ∀ a, r.members[i]? = some a → a.Sound → (f a).Sound)
    (hended : ∀ a, r.members[i]? = some a → (f a).progress.isEnded = a.progress.isEnded)
    (hstarted : ∀ a, r.members[i]? = some a → a.progress.isStarted = true →
      (f a).progress.isStarted = true)
    (hwaiting : ∀ a, r.members[i]? = some a → (f a).waiting = true →
      a.waiting = true ∨ r.phase = .parking j)
    (hacting : (∃ receiver message, r.phase = .pushing j receiver message) →
      ∀ a, (f a).progress = a.progress) : (r.modify i f).Sound where
  members k a ha := by
    rcases of_getElem?_modify ha with ⟨rfl, b, hb, rfl⟩ | ⟨-, ha⟩
    · exact hsound b hb (h.members _ _ hb)
    · exact h.members k a ha
  nodup := h.nodup
  apart := h.apart
  started k hk := by
    obtain ⟨a, ha, hstart⟩ := h.started k hk
    refine ⟨_, exists_getElem?_modify ha, ?_⟩
    split
    · rename_i heq
      exact hstarted a (heq ▸ ha) hstart
    · exact hstart
  parked k hk := by
    obtain ⟨a, ha, hend⟩ := h.parked k hk
    refine ⟨_, exists_getElem?_modify ha, ?_⟩
    split
    · rename_i heq
      exact (hended a (heq ▸ ha)).trans hend
    · exact hend
  placed hdeadlock k a ha hend := by
    rcases of_getElem?_modify ha with ⟨rfl, b, hb, rfl⟩ | ⟨-, ha⟩
    · exact h.placed hdeadlock _ b hb ((hended b hb).symm.trans hend)
    · exact h.placed hdeadlock k a ha hend
  awake k a hk ha := by
    rcases of_getElem?_modify ha with ⟨rfl, b, hb, rfl⟩ | ⟨-, ha⟩
    · refine Bool.eq_false_iff.mpr fun hw => ?_
      rcases hwaiting b hb hw with hw' | hparking
      · rw [h.awake _ b hk hb] at hw'
        cases hw'
      · exact absurd (hk.symm.trans hparking) (by simp)
    · exact h.awake k a hk ha
  roused k receiver message hk := by
    obtain rfl : k = j := Option.some.inj ((show r.current = some k by
      rw [current, show r.phase = .pushing k receiver message from hk]).symm.trans hcurrent)
    obtain ⟨hacts, hawake⟩ := h.roused k receiver message hk
    refine ⟨fun a ha => ?_, fun a ha => ?_⟩
    · rcases of_getElem?_modify ha with ⟨rfl, b, hb, rfl⟩ | ⟨-, ha⟩
      · rw [hacting ⟨_, _, hk⟩]
        exact hacts b hb
      · exact hacts a ha
    · rcases of_getElem?_modify ha with ⟨heq, b, hb, rfl⟩ | ⟨-, ha⟩
      · refine Bool.eq_false_iff.mpr fun hw => ?_
        rcases hwaiting b (heq ▸ hb) hw with hw' | hparking
        · rw [hawake b hb] at hw'
          cases hw'
        · exact absurd (hk.symm.trans hparking) (by simp)
      · exact hawake a ha
  someone := h.someone
  nobody := h.nobody
  going := h.going
  stuck k hk := by
    have hk' : r.deadlock = some k := hk
    rw [h.going_of_current hcurrent] at hk'
    cases hk'

/-- An actor that has control goes on, to give up control. -/
theorem parking (h : r.Sound) (hcurrent : r.current = some i) :
    ({ r with phase := .parking i } : Roster).Sound :=
  { h with
    apart := fun k hk => h.apart k (hcurrent.trans hk)
    started := fun k hk => h.started k (hcurrent.trans hk)
    placed := fun hdeadlock k a ha hend =>
      (h.placed hdeadlock k a ha hend).imp_left hcurrent.symm.trans
    awake := fun _ _ hk => absurd hk (by simp)
    roused := fun _ _ _ hk => absurd hk (by simp)
    someone := fun hk => absurd hk (by simp)
    nobody := fun hk => absurd hk (by simp [current])
    going := fun _ => h.going_of_current hcurrent
    stuck := fun k hk => by
      have hk' : r.deadlock = some k := hk
      rw [h.going_of_current hcurrent] at hk'
      cases hk' }

theorem park (h : r.Sound) (hcurrent : r.current = some i) : (r.park i).Sound where
  members := h.members
  nodup := List.nodup_append.mpr ⟨h.nodup, List.nodup_singleton i, by
    rintro j hj k hk rfl
    rw [List.mem_singleton] at hk
    exact h.apart i hcurrent (hk ▸ hj)⟩
  apart k hk := absurd hk (by simp [Roster.park, current])
  started k hk := absurd hk (by simp [Roster.park, current])
  parked j hj := by
    rcases List.mem_append.mp hj with hj | hj
    · exact h.parked j hj
    · obtain rfl := List.mem_singleton.mp hj
      obtain ⟨a, ha, hstarted⟩ := h.started j hcurrent
      exact ⟨a, ha, Progress.isEnded_of_isStarted hstarted⟩
  placed hdeadlock j a ha hend := by
    refine .inr (List.mem_append.mpr ?_)
    rcases h.placed hdeadlock j a ha hend with hj | hj
    · obtain rfl := Option.some.inj (hcurrent.symm.trans hj)
      exact .inr (List.mem_singleton_self i)
    · exact .inl hj
  awake _ _ hk := absurd hk (by simp [Roster.park])
  roused _ _ _ hk := absurd hk (by simp [Roster.park])
  someone _ := by simp [Roster.park]
  nobody _ hk := absurd rfl hk
  going _ := h.going_of_current hcurrent
  stuck k hk := by
    have hk' : r.deadlock = some k := hk
    rw [h.going_of_current hcurrent] at hk'
    cases hk'

/-- Where nobody has control, those that have not ended are parked. -/
theorem unfinished_perm (h : r.Sound) (hphase : r.phase = .waking) :
    r.unfinished.Perm r.active := by
  rw [List.perm_ext_iff_of_nodup r.nodup_unfinished h.nodup]
  intro j
  rw [mem_unfinished]
  constructor
  · rintro ⟨a, ha, hend⟩
    rcases h.placed (h.going (.inr hphase)) j a ha hend with hj | hj
    · simp [current, hphase] at hj
    · exact hj
  · exact h.parked j

/-- Where all wait, they are stuck. -/
theorem stuck_of_pick (h : r.Sound) (hphase : r.phase = .waking)
    (hpick : pick r.isReady r.active = none) : r.Stuck r.active.length where
  length := (h.unfinished_perm hphase).length_eq
  pos := List.length_pos_iff.mpr (h.someone hphase)
  waiting j a ha hend := by
    have hj : j ∈ r.active := (h.unfinished_perm hphase).mem_iff.mp (mem_unfinished.mpr ⟨a, ha, hend⟩)
    have hready := pick_eq_none.mp hpick j hj
    simpa [isReady, ha] using hready

theorem wake (h : r.Sound) (hphase : r.phase = .waking) : r.wake.Sound := by
  have hgoing := h.going (.inr hphase)
  unfold Roster.wake
  split
  · rename_i i others hpick
    obtain ⟨hready, hperm⟩ := pick_eq_some hpick
    have hnodup : (i :: others).Nodup := hperm.nodup_iff.mp h.nodup
    obtain ⟨a₀, ha₀, hend₀⟩ := h.parked i (hperm.mem_iff.mpr List.mem_cons_self)
    exact
      { members := fun j a ha => by
          rcases of_getElem?_modify ha with ⟨rfl, b, hb, rfl⟩ | ⟨-, ha⟩
          · exact (h.members _ _ hb).start
          · exact h.members j a ha
        nodup := (List.nodup_cons.mp hnodup).2
        apart := fun k hk => by
          obtain rfl : i = k := Option.some.inj hk
          exact (List.nodup_cons.mp hnodup).1
        started := fun k hk => by
          obtain rfl : i = k := Option.some.inj hk
          refine ⟨_, exists_getElem?_modify ha₀, ?_⟩
          simpa using Member.start_isStarted hend₀
        parked := fun j hj => by
          obtain ⟨a, ha, hend⟩ := h.parked j (hperm.mem_iff.mpr (List.mem_cons_of_mem _ hj))
          refine ⟨_, exists_getElem?_modify ha, ?_⟩
          split
          · exact Member.start_isEnded.trans hend
          · exact hend
        placed := fun hdeadlock j a ha hend => by
          have hbefore : ∃ b, r.members[j]? = some b ∧ b.progress.isEnded = false := by
            rcases of_getElem?_modify ha with ⟨rfl, b, hb, rfl⟩ | ⟨-, ha⟩
            · exact ⟨b, hb, Member.start_isEnded.symm.trans hend⟩
            · exact ⟨a, ha, hend⟩
          have hj : j ∈ r.active :=
            (h.unfinished_perm hphase).mem_iff.mp (mem_unfinished.mpr hbefore)
          rcases List.mem_cons.mp (hperm.mem_iff.mp hj) with rfl | hj
          · exact .inl rfl
          · exact .inr hj
        awake := fun k a hk ha => by
          obtain rfl : i = k := Phase.running.inj hk
          have hawake : a₀.waiting = false := by simpa [isReady, ha₀] using hready
          rcases of_getElem?_modify ha with ⟨-, b, hb, rfl⟩ | ⟨-, ha⟩
          · obtain rfl := Option.some.inj (hb.symm.trans ha₀)
            simpa using hawake
          · obtain rfl := Option.some.inj (ha.symm.trans ha₀)
            exact hawake
        roused := fun _ _ _ hk => absurd hk (by simp)
        someone := fun hk => absurd hk (by simp)
        nobody := fun hk => absurd hk (by simp [current])
        going := fun _ => hgoing
        stuck := fun k hk => by
          have hk' : r.deadlock = some k := hk
          rw [hgoing] at hk'
          cases hk' }
  · rename_i hpick
    have hstuck := h.stuck_of_pick hphase hpick
    exact
      { members := h.members
        nodup := List.nodup_nil
        apart := fun k hk => absurd hk (by simp [current])
        started := fun k hk => absurd hk (by simp [current])
        parked := fun j hj => absurd hj List.not_mem_nil
        placed := fun hdeadlock => absurd hdeadlock (by simp)
        awake := fun _ _ hk => absurd hk (by simp)
        roused := fun _ _ _ hk => absurd hk (by simp)
        someone := fun hk => absurd hk (by simp)
        nobody := fun _ _ => rfl
        going := fun hk => absurd hk (by simp [current])
        stuck := fun k hk => by
          obtain rfl : r.active.length = k := Option.some.inj hk
          exact ⟨hstuck.length, hstuck.pos, hstuck.waiting⟩ }

/-- The flag of a receiver is cleared before the message is delivered. -/
theorem pushing {receiver : Mailbox} {message : Value} (b : Behaviour) (loops : List (Loop Behaviour))
    (h : r.Sound) (hphase : r.phase = .running i) (ha : r.members[i]? = some a)
    (hacts : a.progress = .acting b loops)
    (hroused : ∀ a, r.members[r.seat receiver]? = some a → a.waiting = false) :
    ({ r with phase := .pushing i receiver message } : Roster).Sound :=
  have hcurrent : r.current = some i := by simp [current, hphase]
  { h with
    apart := fun k hk => h.apart k (hcurrent.trans hk)
    started := fun k hk => h.started k (hcurrent.trans hk)
    placed := fun hdeadlock k a ha hend =>
      (h.placed hdeadlock k a ha hend).imp_left hcurrent.symm.trans
    awake := fun _ _ hk => absurd hk (by simp)
    roused := fun k receiver' message' hk => by
      obtain ⟨rfl, rfl, rfl⟩ := Phase.pushing.inj hk
      refine ⟨fun a' ha' => ?_, hroused⟩
      obtain rfl := Option.some.inj (ha.symm.trans ha')
      exact ⟨b, loops, hacts⟩
    someone := fun hk => absurd hk (by simp)
    nobody := fun hk => absurd hk (by simp [current])
    going := fun _ => h.going_of_current hcurrent
    stuck := fun k hk => by
      have hk' : r.deadlock = some k := hk
      rw [h.going_of_current hcurrent] at hk'
      cases hk' }

/-- A new actor is parked behind the others. -/
theorem spawn (h : r.Sound) (hphase : r.phase = .running i) (body : Behaviour) :
    ({ r with
        members := r.members ++ [{ progress := .fresh body }]
        active := r.active ++ [r.members.length] } : Roster).Sound := by
  have hcurrent : r.current = some i := by simp [current, hphase]
  have hold : ∀ {j a}, (r.members ++ [{ progress := .fresh body }])[j]? = some a →
      r.members[j]? = some a ∨ j = r.members.length ∧ a = { progress := .fresh body } := by
    intro j a ha
    rw [List.getElem?_append] at ha
    split at ha
    · exact .inl ha
    · obtain ⟨hj, rfl⟩ := List.getElem?_eq_some_iff.mp ha
      have : j = r.members.length := by simp at hj; omega
      subst this
      simp
  have hnew : ∀ {j a}, r.members[j]? = some a →
      (r.members ++ [{ progress := .fresh body }])[j]? = some a := fun ha =>
    List.getElem?_append_left (List.getElem?_eq_some_iff.mp ha).1 |>.trans ha
  have hfresh : ∀ j ∈ r.active, j ≠ r.members.length := by
    rintro j hj rfl
    obtain ⟨a, ha, -⟩ := h.parked _ hj
    simp at ha
  exact
    { members := fun j a ha => by
        rcases hold ha with ha | ⟨-, rfl⟩
        · exact h.members j a ha
        · exact
            { empty := fun hw => absurd hw (by simp)
              polls := fun hw => absurd hw (by simp)
              order := rfl }
      nodup := List.nodup_append.mpr ⟨h.nodup, List.nodup_singleton _, by
        rintro j hj k hk rfl
        exact hfresh j hj (List.mem_singleton.mp hk)⟩
      apart := fun k hk hmem => by
        rcases List.mem_append.mp hmem with hmem | hmem
        · exact h.apart k hk hmem
        · obtain ⟨a, ha, -⟩ := h.started k hk
          rw [List.mem_singleton.mp hmem] at ha
          simp at ha
      started := fun k hk => by
        obtain ⟨a, ha, hstarted⟩ := h.started k hk
        exact ⟨a, hnew ha, hstarted⟩
      parked := fun j hj => by
        rcases List.mem_append.mp hj with hj | hj
        · obtain ⟨a, ha, hend⟩ := h.parked j hj
          exact ⟨a, hnew ha, hend⟩
        · obtain rfl := List.mem_singleton.mp hj
          exact ⟨{ progress := .fresh body }, by simp, rfl⟩
      placed := fun hdeadlock j a ha hend => by
        rcases hold ha with ha | ⟨rfl, -⟩
        · exact (h.placed hdeadlock j a ha hend).imp_right (List.mem_append_left _)
        · exact .inr (List.mem_append_right _ (List.mem_singleton_self _))
      awake := fun k a hk ha => by
        rcases hold ha with ha | ⟨-, rfl⟩
        · exact h.awake k a hk ha
        · rfl
      roused := fun k receiver message hk => absurd (hphase.symm.trans hk) (by simp)
      someone := fun hk => absurd (hphase.symm.trans hk) (by simp)
      nobody := fun hk => absurd (hcurrent.symm.trans hk) (by simp)
      going := h.going
      stuck := fun k hk => by
        have hk' : r.deadlock = some k := hk
        rw [h.going_of_current hcurrent] at hk'
        cases hk' }

/-- An actor ends. -/
theorem leave (h : r.Sound) (hphase : r.phase = .running i) :
    ({ r.modify i (.goOn .ended) with
      phase := if r.active.isEmpty then .ending else .waking } : Roster).Sound := by
  have hcurrent : r.current = some i := by simp [current, hphase]
  have hgoing := h.going_of_current hcurrent
  have hnone : ({ r.modify i (.goOn .ended) with
      phase := if r.active.isEmpty then .ending else .waking } : Roster).current = none := by
    by_cases hactive : r.active.isEmpty = true <;> simp [current, hactive]
  have hidle : ∀ {i'}, (if r.active.isEmpty then Phase.ending else .waking) ≠ .running i' := by
    intro i' hk
    split at hk <;> cases hk
  exact
    { members := fun j a ha => by
        rcases of_getElem?_modify ha with ⟨rfl, b, hb, rfl⟩ | ⟨-, ha⟩
        · exact (h.members _ b hb).goOn (h.awake _ b hphase hb)
        · exact h.members j a ha
      nodup := h.nodup
      apart := fun k hk => absurd (hnone.symm.trans hk) (by simp)
      started := fun k hk => absurd (hnone.symm.trans hk) (by simp)
      parked := fun j hj => by
        obtain ⟨a, ha, hend⟩ := h.parked j hj
        refine ⟨_, exists_getElem?_modify ha, ?_⟩
        rw [if_neg]
        · exact hend
        · rintro rfl
          exact h.apart _ hcurrent hj
      placed := fun hdeadlock j a ha hend => by
        rcases of_getElem?_modify ha with ⟨rfl, b, hb, rfl⟩ | ⟨hne, ha'⟩
        · cases hend
        · exact .inr ((h.placed hdeadlock j a ha' hend).resolve_left fun hj =>
            hne (Option.some.inj (hcurrent.symm.trans hj)))
      awake := fun k a hk => absurd hk hidle
      roused := fun k receiver message hk => by
        split at hk <;> cases hk
      someone := fun hk => by
        split at hk
        · cases hk
        · rename_i hactive
          exact fun hnil => hactive (List.isEmpty_iff.mpr hnil)
      nobody := fun _ hk => by
        split at hk
        · rename_i hactive
          exact List.isEmpty_iff.mp hactive
        · exact absurd rfl hk
      going := fun _ => hgoing
      stuck := fun k hk => by
        have hk' : r.deadlock = some k := hk
        rw [hgoing] at hk'
        cases hk' }

/-- The run is over once nobody can go on. -/
theorem finish (h : r.Sound) (hphase : r.phase = .ending) :
    ({ r with phase := .finished } : Roster).Sound :=
  have hnone : r.current = none := by simp [current, hphase]
  { h with
    apart := fun _ hk => absurd hk (by simp [current])
    started := fun _ hk => absurd hk (by simp [current])
    placed := fun hdeadlock k a ha hend =>
      .inr ((h.placed hdeadlock k a ha hend).resolve_left (by simp [hnone]))
    awake := fun _ _ hk => absurd hk (by simp)
    roused := fun _ _ _ hk => absurd hk (by simp)
    someone := fun hk => absurd hk (by simp)
    nobody := fun _ _ => h.nobody hnone (by simp [hphase])
    going := fun hk => absurd hk (by simp [current])
    stuck := fun k hk =>
      have hstuck := h.stuck k hk
      ⟨hstuck.length, hstuck.pos, hstuck.waiting⟩ }

/-- An actor goes on with something else. -/
theorem goOn {p : Progress} (h : r.Sound) (hphase : r.phase = .running i)
    (hp : p.isStarted = true) : (r.modify i (.goOn p)).Sound := by
  have hcurrent : r.current = some i := by simp [current, hphase]
  refine h.modify hcurrent (fun b hb hsound => hsound.goOn (h.awake i b hphase hb))
    (fun b hb => ?_) (fun _ _ _ => hp) (fun _ _ hw => .inl hw) fun ⟨_, _, hpushing⟩ =>
      absurd (hphase.symm.trans hpushing) (by simp)
  obtain ⟨b', hb', hstarted⟩ := h.started i hcurrent
  obtain rfl := Option.some.inj (hb.symm.trans hb')
  exact (Progress.isEnded_of_isStarted hp).trans (Progress.isEnded_of_isStarted hstarted).symm

theorem act (h : r.Sound) (hphase : r.phase = .running i) (ha : r.members[i]? = some a) :
    (r.act i a).Sound := by
  have hcurrent : r.current = some i := by simp [current, hphase]
  have hawake := h.awake i a hphase ha
  unfold Roster.act
  cases hp : a.progress with
  | fresh | ended => exact h
  | polling next loops =>
    simp only
    cases hinbox : a.inbox with
    | nil =>
      have hwait : ∀ b, r.members[i]? = some b → b = a := fun b hb =>
        Option.some.inj (hb.symm.trans ha)
      refine (h.parking hcurrent).modify (j := i) rfl (fun b hb hsound => ?_)
        (fun b hb => rfl) (fun b hb hstarted => hstarted) (fun b hb _ => .inr rfl)
        fun ⟨_, _, hpushing⟩ => absurd hpushing (by simp)
      obtain rfl := hwait b hb
      exact hsound.wait hinbox hp
    | cons message rest =>
      refine h.modify hcurrent (fun b hb hsound => ?_) (fun b hb => ?_) (fun _ _ _ => rfl)
        (fun _ _ hw => .inl hw) fun ⟨_, _, hpushing⟩ =>
          absurd (hphase.symm.trans hpushing) (by simp)
      · obtain rfl := Option.some.inj (ha.symm.trans hb)
        exact hsound.take hinbox hawake
      · obtain rfl := Option.some.inj (ha.symm.trans hb)
        simp [Member.take, hp, Progress.isEnded]
  | acting b loops =>
    cases b with
    | done v =>
      simp only
      split
      · exact h.goOn hphase rfl
      · exact h.leave hphase
    | send receiver message next =>
      have hnext := h.goOn (p := .acting next loops) hphase rfl
      have hroused := hnext.modify (i := r.seat receiver) (f := .rouse) (j := i) hcurrent
        (fun _ _ hsound => hsound.rouse) (fun _ _ => rfl) (fun _ _ hstarted => hstarted)
        (fun _ _ hw => absurd hw (by simp [Member.rouse])) fun _ _ => rfl
      have ha' := exists_getElem?_modify (i := r.seat receiver) (f := .rouse)
        (exists_getElem?_modify (i := i) (f := .goOn (.acting next loops)) ha)
      refine hroused.pushing next loops hphase ha' ?_ fun b hb => ?_
      · rw [if_pos rfl]
        split <;> rfl
      · rcases of_getElem?_modify hb with ⟨-, b', -, rfl⟩ | ⟨hne, -⟩
        · rfl
        · exact absurd rfl hne
    | receive | loop | retain | release | log => exact h.goOn hphase rfl
    | spawn owned body next =>
      have hnext := h.goOn (p := .acting (next (r.address r.members.length)) loops) hphase rfl
      have hspawn := hnext.spawn hphase (body (r.address r.members.length))
      have hlength : (r.modify i (.goOn (.acting (next (r.address r.members.length)) loops))).members.length =
          r.members.length := List.length_modify ..
      rw [hlength] at hspawn
      exact hspawn
    | yield next => exact (h.goOn hphase rfl).park hcurrent

/-- Rosters stay sound. -/
theorem step (h : r.Sound) : r.step.Sound := by
  unfold Roster.step
  cases hphase : r.phase with
  | running i =>
    obtain ⟨a, ha, -⟩ := h.started i (by simp [current, hphase])
    simp only [ha]
    exact h.act hphase ha
  | pushing i receiver message =>
    have hcurrent : r.current = some i := by simp [current, hphase]
    obtain ⟨-, hawake⟩ := h.roused i receiver message hphase
    have hpushed := h.modify (i := r.seat receiver) (f := .push message) hcurrent
      (fun b hb hsound => hsound.push message (hawake b hb)) (fun _ _ => rfl)
      (fun _ _ hstarted => hstarted) (fun _ _ hw => .inl hw) fun _ _ => rfl
    exact hpushed.parking hcurrent
  | parking i => exact h.park (by simp [current, hphase])
  | waking => exact h.wake hphase
  | ending => exact h.finish hphase
  | finished => exact h

theorem start (pool : CellId) (main : Mailbox → Behaviour) : (Roster.start pool main).Sound := by
  have hone : ∀ {j a}, (Roster.start pool main).members[j]? = some a →
      j = 0 ∧ a = { progress := .acting (main ⟨pool, pool + 1, pool + 2⟩) [] } := by
    intro j a ha
    obtain ⟨hj, rfl⟩ := List.getElem?_eq_some_iff.mp ha
    have : j = 0 := by simp [Roster.start] at hj; exact hj
    subst this
    exact ⟨rfl, rfl⟩
  exact
    { members := fun j a ha => by
        obtain ⟨-, rfl⟩ := hone ha
        exact
          { empty := fun hw => absurd hw (by simp)
            polls := fun hw => absurd hw (by simp)
            order := rfl }
      nodup := List.nodup_nil
      apart := fun _ _ hmem => absurd hmem List.not_mem_nil
      started := fun k hk => by
        obtain rfl : 0 = k := Option.some.inj hk
        exact ⟨_, rfl, rfl⟩
      parked := fun _ hj => absurd hj List.not_mem_nil
      placed := fun _ j a ha _ => by
        obtain ⟨rfl, -⟩ := hone ha
        exact .inl rfl
      awake := fun _ a _ ha => by
        obtain ⟨-, rfl⟩ := hone ha
        rfl
      roused := fun _ _ _ hk => nomatch hk
      someone := fun hk => nomatch hk
      nobody := fun hk => nomatch hk
      going := fun _ => rfl
      stuck := fun _ hk => nomatch hk }

theorem run (h : r.Sound) (t : Nat) : (r.run t).Sound := by
  induction t with
  | zero => exact h
  | succ t ih =>
    rw [Roster.run, Function.iterate_succ_apply']
    exact ih.step

/-! ### Control and the end of a run -/

/-- An actor that has not ended either has control or is parked exactly once. -/
theorem once (h : r.Sound) (hdeadlock : r.deadlock = none) (ha : r.members[i]? = some a)
    (hend : a.progress.isEnded = false) :
    r.current = some i ∧ i ∉ r.active ∨ r.current ≠ some i ∧ r.active.count i = 1 := by
  rcases h.placed hdeadlock i a ha hend with hcurrent | hactive
  · exact .inl ⟨hcurrent, h.apart i hcurrent⟩
  · refine .inr ⟨fun hcurrent => h.apart i hcurrent hactive, ?_⟩
    exact List.count_eq_one_of_mem h.nodup hactive

end Sound

/-- All actors have ended. -/
def Ended (r : Roster) : Prop :=
  ∀ (j : Nat) (a : Member), r.members[j]? = some a → a.progress.isEnded = true

/-- Nobody can go on any more. -/
def Halts (r : Roster) : Prop := r.phase = .ending ∨ r.phase = .finished

theorem Halts.current (h : r.Halts) : r.current = none ∧ r.phase ≠ .waking := by
  rcases h with h | h <;> simp [Roster.current, h]

theorem Halts.step (h : r.Halts) : r.step.phase = .finished ∧ r.step.deadlock = r.deadlock := by
  rcases h with h | h <;> simp [Roster.step, h]

namespace Sound

theorem ended_of_halts (h : r.Sound) (hhalts : r.Halts) (hdeadlock : r.deadlock = none) :
    r.Ended := by
  intro j a ha
  by_contra hend
  rcases h.placed hdeadlock j a ha (by simpa using hend) with hj | hj
  · rw [hhalts.current.1] at hj
    cases hj
  · rw [h.nobody hhalts.current.1 hhalts.current.2] at hj
    cases hj

theorem halts_of_ended (h : r.Sound) (hended : r.Ended) : r.Halts ∧ r.deadlock = none := by
  have hcurrent : ∀ i, r.current ≠ some i := by
    intro i hi
    obtain ⟨a, ha, hstarted⟩ := h.started i hi
    have hend := Progress.isEnded_of_isStarted hstarted
    rw [hended i a ha] at hend
    cases hend
  refine ⟨?_, ?_⟩
  · cases hphase : r.phase with
    | running i | pushing i | parking i => exact absurd (by simp [current, hphase]) (hcurrent i)
    | waking =>
      obtain ⟨j, hj⟩ := List.exists_mem_of_ne_nil _ (h.someone hphase)
      obtain ⟨a, ha, hend⟩ := h.parked j hj
      rw [hended j a ha] at hend
      cases hend
    | ending => exact .inl hphase
    | finished => exact .inr hphase
  · by_contra hdeadlock
    obtain ⟨k, hk⟩ := Option.ne_none_iff_exists'.mp hdeadlock
    have hstuck := h.stuck k hk
    obtain ⟨j, hj⟩ := List.exists_mem_of_length_pos (hstuck.length ▸ hstuck.pos)
    obtain ⟨a, ha, hend⟩ := mem_unfinished.mp hj
    rw [hended j a ha] at hend
    cases hend

/-- Actors that are stuck are about to be found to be. -/
theorem stuck_cases {k : Nat} (h : r.Sound) (hstuck : r.Stuck k) :
    (∃ i, r.phase = .parking i) ∨ r.phase = .waking ∨ r.Halts ∧ r.deadlock = some k := by
  have hwaits : ∀ i, r.current = some i → ∀ a, r.members[i]? = some a → a.waiting = true := by
    intro i hi a ha
    obtain ⟨a', ha', hstarted⟩ := h.started i hi
    obtain rfl := Option.some.inj (ha.symm.trans ha')
    exact hstuck.waiting i a ha (Progress.isEnded_of_isStarted hstarted)
  have hhalts : r.Halts → r.deadlock = some k := by
    intro hhalts
    cases hdeadlock : r.deadlock with
    | some k' => rw [← hstuck.length, (h.stuck k' hdeadlock).length]
    | none =>
      obtain ⟨j, hj⟩ := List.exists_mem_of_length_pos (hstuck.length ▸ hstuck.pos)
      obtain ⟨a, ha, hend⟩ := mem_unfinished.mp hj
      rw [h.ended_of_halts hhalts hdeadlock j a ha] at hend
      cases hend
  cases hphase : r.phase with
  | running i =>
    have hcurrent : r.current = some i := by simp [current, hphase]
    obtain ⟨a, ha, -⟩ := h.started i hcurrent
    have hw := hwaits i hcurrent a ha
    rw [h.awake i a hphase ha] at hw
    cases hw
  | pushing i receiver message =>
    have hcurrent : r.current = some i := by simp [current, hphase]
    obtain ⟨a, ha, -⟩ := h.started i hcurrent
    obtain ⟨b, loops, hacts⟩ := (h.roused i receiver message hphase).1 a ha
    obtain ⟨next, loops', hpolls⟩ := (h.members i a ha).polls (hwaits i hcurrent a ha)
    rw [hacts] at hpolls
    cases hpolls
  | parking i => exact .inl ⟨i, rfl⟩
  | waking => exact .inr (.inl rfl)
  | ending => exact .inr (.inr ⟨.inl hphase, hhalts (.inl hphase)⟩)
  | finished => exact .inr (.inr ⟨.inr hphase, hhalts (.inr hphase)⟩)

theorem pick_of_stuck {k : Nat} (h : r.Sound) (hstuck : r.Stuck k) :
    pick r.isReady r.active = none := by
  refine pick_eq_none.mpr fun j hj => ?_
  obtain ⟨a, ha, hend⟩ := h.parked j hj
  simp [isReady, ha, hstuck.waiting j a ha hend]

end Sound

section Runs

variable {t k : Nat}

theorem run_succ (r : Roster) (t : Nat) : r.run (t + 1) = (r.run t).step :=
  Function.iterate_succ_apply' ..

/-- All actors end if and only if the run is over without a deadlock. -/
theorem over_iff_ended (h : r.Sound) :
    (∃ t, (r.run t).phase = .finished ∧ (r.run t).deadlock = none) ↔ ∃ t, (r.run t).Ended := by
  constructor
  · rintro ⟨t, hover, hdeadlock⟩
    exact ⟨t, (h.run t).ended_of_halts (.inr hover) hdeadlock⟩
  · rintro ⟨t, hended⟩
    obtain ⟨hhalts, hdeadlock⟩ := (h.run t).halts_of_ended hended
    refine ⟨t + 1, ?_⟩
    rw [run_succ, hhalts.step.1, hhalts.step.2]
    exact ⟨rfl, hdeadlock⟩

/-- All actors that have not ended wait for mail, if and only if the run is over with a deadlock of
so many actors. -/
theorem over_iff_stuck (h : r.Sound) :
    (∃ t, (r.run t).phase = .finished ∧ (r.run t).deadlock = some k) ↔ ∃ t, (r.run t).Stuck k := by
  constructor
  · rintro ⟨t, -, hdeadlock⟩
    exact ⟨t, (h.run t).stuck k hdeadlock⟩
  · rintro ⟨t, hstuck⟩
    have hhalts : ∀ {t}, (r.run t).Halts → (r.run t).deadlock = some k →
        ∃ t, (r.run t).phase = .finished ∧ (r.run t).deadlock = some k := by
      intro t hhalts hdeadlock
      refine ⟨t + 1, ?_⟩
      rw [run_succ, hhalts.step.1, hhalts.step.2]
      exact ⟨rfl, hdeadlock⟩
    have hwaking : ∀ {t}, (r.run t).Stuck k → (r.run t).phase = .waking →
        ∃ t, (r.run t).phase = .finished ∧ (r.run t).deadlock = some k := by
      intro t hstuck hphase
      have hpick := (h.run t).pick_of_stuck hstuck
      have hlength := ((h.run t).unfinished_perm hphase).length_eq
      have hstep : (r.run (t + 1)) = { r.run t with
          active := [], deadlock := some (r.run t).active.length, phase := .ending } := by
        rw [run_succ, Roster.step, hphase]
        simp only [wake, hpick]
      refine hhalts (t := t + 1) (.inl (by rw [hstep])) ?_
      rw [hstep, ← hstuck.length, hlength]
    rcases (h.run t).stuck_cases hstuck with ⟨i, hphase⟩ | hphase | ⟨hended, hdeadlock⟩
    · refine hwaking (t := t + 1) ?_ ?_
      · rw [run_succ, Roster.step, hphase]
        exact ⟨hstuck.length, hstuck.pos, hstuck.waiting⟩
      · rw [run_succ, Roster.step, hphase]
        rfl
    · exact hwaking hstuck hphase
    · exact hhalts hended hdeadlock

end Runs

end Roster

end EffectHandlers.Actor
