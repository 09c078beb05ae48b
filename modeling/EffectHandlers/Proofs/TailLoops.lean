import EffectHandlers.Proofs.TailSlot
import EffectHandlers.Proofs.Tracing
/-!
# Tail resumes do not nest

A continuation that a clause, a return clause or the closure of a function resumption leaves to the
tail slot is stepped by the loop that this code was run under. So a body that is only ever resumed
in tail position stays on its level: each of its commands is handled with the same loops and the
same drivers in progress.
-/

namespace EffectHandlers

variable {ω : Type} {Γ : Library ω} {B Q R S : List (Activation ω)} {i : InstallationId}
  {f : FiberId} {k : Cont ω}

def Activation.isLoop : Activation ω → Bool
  | stepping => true
  | _ => false

/-- What closes code stands below it. -/
theorem Closes.suffix {answer : String} {v : Value} (h : Closes answer v S R) : R <:+ S := by
  induction h with
  | clause | returning | calling => exact List.suffix_cons _ _
  | owning _ ih | bind _ _ ih | catching _ _ ih | looping _ _ _ ih =>
    exact ih.trans (List.suffix_cons _ _)

namespace Machine

variable {m m' : Machine ω} {o : Origins}

/-- How many loops are in progress. A loop is, from the call that takes its first step until it has
an answer, unless the fiber that it runs on is parked. -/
def loopCount (m : Machine ω) : Nat := m.spine.countP Activation.isLoop

/-- How many drivers are in progress. -/
def driverCount (m : Machine ω) : Nat := m.spine.countP Activation.isDriver

/-! ### The slot while it is filled -/

/-- The placeholder of a tail resume is on its way to the code that the answer is for. -/
inductive Passing (m : Machine ω) (k : Cont ω) (R : List (Activation ω)) : Prop
  | passing (w : Value) (hcontrol : m.control = .eval (.done w) ∨ m.control = .ret w)
      (hcloses : Closes k.answer w m.stack R)
  | settling (w : Value) (hcontrol : m.control = .settle k.answer w) (hstack : m.stack = R)

theorem Passing.suffix (h : m.Passing k R) : R <:+ m.stack := by
  cases h with
  | passing w _ hcloses => exact hcloses.suffix
  | settling w _ hstack => exact hstack ▸ List.suffix_refl _

theorem Passing.control_ne {k' : Cont ω} (h : m.Passing k R) :
    m.control ≠ .deliver (.tail k') := by
  intro hcontrol
  cases h with
  | passing w hpasses => rcases hpasses with hpasses | hpasses <;> cases hcontrol.symm.trans hpasses
  | settling w hsettles => cases hcontrol.symm.trans hsettles

/-- The placeholder goes on, or the continuation is about to be stepped. -/
structure Proceeds (m m' : Machine ω) (k : Cont ω) (R : List (Activation ω)) : Prop where
  slot : (m'.pending = some k ∧ m'.Passing k R) ∨
    (m'.pending = none ∧ m'.control = .deliver (.tail k) ∧ m'.stack = R)
  resumers : m'.fibers.resumers = m.fibers.resumers
  parked : m'.fibers.parked.entries ⊆ m.fibers.parked.entries

theorem proceeds_settle (m' : Machine ω) (hpending : m.pending = some k) (hstack : m'.stack = R)
    (hpending' : m'.pending = m.pending) (hfibers : m'.fibers = m.fibers) (w : Value)
    (kept : List Holding) : m.Proceeds (m'.settle k.answer w kept) k R := by
  have hsettle : m'.settle k.answer w kept = (({ m' with pending := none } : Machine ω).release
      (w.owned.map .asset ++ kept)).goOn (.deliver (.tail k)) := by
    simp only [settle, hpending', hpending, if_pos]
  rw [hsettle]
  exact ⟨.inr ⟨rfl, rfl, hstack⟩, congrArg Fibers.resumers hfibers, by
    show m'.fibers.parked.entries ⊆ _
    rw [hfibers]
    exact List.Subset.refl _⟩

variable [Contents ω]

theorem Passing.step (h : m.Passing k R) (hpending : m.pending = some k) :
    m.Proceeds (m.step Γ) k R := by
  cases hreleasing : m.releasing with
  | cons x hs =>
    have hstep : m.step Γ = ({ m with releasing := hs } : Machine ω).releaseOne x :=
      step_releasing hreleasing
    obtain ⟨hstack, hresumers, -⟩ := releaseOne_same ({ m with releasing := hs } : Machine ω) x
    have hparked : (m.step Γ).fibers.parked.entries ⊆ m.fibers.parked.entries :=
      hstep ▸ parked_releaseOne ({ m with releasing := hs } : Machine ω) x
    refine ⟨.inl ⟨?_, ?_⟩, hstep ▸ hresumers, hparked⟩
    · rw [hstep, pending_releaseOne]
      exact hpending
    · cases h with
      | passing w hcontrol hcloses =>
        refine .passing w ?_ ?_
        · rw [hstep, releaseOne_control]
          exact hcontrol
        · rw [hstep, hstack]
          exact hcloses
      | settling w hcontrol hbelow =>
        refine .settling w ?_ ?_
        · rw [hstep, releaseOne_control]
          exact hcontrol
        · rw [hstep, hstack]
          exact hbelow
  | nil =>
    cases h with
    | passing w hcontrol hcloses =>
      rcases hcontrol with hcontrol | hcontrol
      · have hstep : m.step Γ = m.goOn (.ret w) := by
          simp only [Machine.step, hreleasing, hcontrol, eval]
        rw [hstep]
        exact ⟨.inl ⟨hpending, .passing w (.inr rfl) hcloses⟩, rfl, List.Subset.refl _⟩
      · have hstep : m.step Γ = m.give Γ w := by simp only [Machine.step, hreleasing, hcontrol]
        rcases give_closes (Γ := Γ) hcloses hcontrol with
          ⟨kept, heq⟩ | ⟨kept, heq⟩ | ⟨S, os, w', c, heq, hc, -, hrest⟩
        · rw [hstep, heq]
          exact ⟨.inl ⟨hpending, .settling w rfl rfl⟩, rfl, List.Subset.refl _⟩
        · rw [hstep, heq]
          exact proceeds_settle { m with stack := R } hpending rfl rfl rfl w kept
        · rw [hstep, heq]
          exact ⟨.inl ⟨hpending, .passing w' hc hrest⟩, rfl, List.Subset.refl _⟩
    | settling w hcontrol hbelow =>
      have hstep : m.step Γ = m.settle k.answer w [] := by
        simp only [Machine.step, hreleasing, hcontrol]
      rw [hstep]
      exact proceeds_settle m hpending hbelow rfl rfl w []

/-- Releasing leaves the spine as it is. -/
theorem spine_releasing (h : m.releasing ≠ []) : (m.step Γ).spine = m.spine ∧
    (m.step Γ).fibers.parked.entries ⊆ m.fibers.parked.entries := by
  obtain ⟨x, hs, hreleasing⟩ := List.exists_cons_of_ne_nil h
  obtain ⟨hstack, hresumers, -⟩ := releaseOne_same ({ m with releasing := hs } : Machine ω) x
  rw [step_releasing hreleasing]
  refine ⟨?_, parked_releaseOne _ x⟩
  simp only [spine, waiting, hstack, hresumers]

theorem pending_releasing (h : m.releasing ≠ []) : (m.step Γ).pending = m.pending := by
  obtain ⟨x, hs, hreleasing⟩ := List.exists_cons_of_ne_nil h
  rw [step_releasing hreleasing, pending_releaseOne]

/-! ### Continuations that are to be stepped -/

/-- Where a continuation comes from that is to be stepped after the next step. -/
inductive Arms (m : Machine ω) (k : Cont ω) : Prop
  | waits (hk : m.pending = some k)
  | stays (hreleasing : m.releasing ≠ []) (hk : m.control = .deliver (.tail k))
  | resumes (r : ResumptionId) (v : Value) (next : Value → Comp ω) (k₀ : Cont ω)
      (hm : m.Evaluates (.resume r v next)) (hk : m.resumptions.find? r = some k₀)
      (heq : k = k₀.arm v)
  | tails (r : ResumptionId) (v : Value) (next : Comp ω) (k₀ : Cont ω)
      (hm : m.Evaluates (.tailResume r v next)) (hk : m.resumptions.find? r = some k₀)
      (heq : k = k₀.arm v)

omit [Contents ω] in
theorem arms_of_dealing (hk : k ∈ (m.dealing?.bind Dealing.armed?).toList) : m.Arms k := by
  obtain ⟨d, hd, hk⟩ := Option.bind_eq_some_iff.mp (Option.mem_toList.mp hk)
  unfold dealing? at hd
  split at hd
  · obtain ⟨k₀, -, rfl⟩ := Option.map_eq_some_iff.mp hd
    cases hk
  · obtain ⟨k₀, -, rfl⟩ := Option.map_eq_some_iff.mp hd
    cases hk
  · obtain ⟨k₀, -, rfl⟩ := Option.map_eq_some_iff.mp hd
    cases hk
  · rename_i r v next hreleasing hcontrol
    obtain ⟨k₀, hk₀, rfl⟩ := Option.map_eq_some_iff.mp hd
    exact .resumes r v next k₀ ⟨hreleasing, hcontrol⟩ hk₀ (Option.some.inj hk).symm
  · rename_i r v next hreleasing hcontrol
    obtain ⟨k₀, hk₀, rfl⟩ := Option.map_eq_some_iff.mp hd
    exact .tails r v next k₀ ⟨hreleasing, hcontrol⟩ hk₀ (Option.some.inj hk).symm
  · cases hd

omit [Contents ω] in
theorem conts_deliver (m : Machine ω) (s : Step (Cont ω) Value) :
    (m.deliver s).pending = m.pending ∧ (m.deliver s).control.conts = [] := by
  unfold deliver
  split
  · cases s with
    | done v => exact ⟨rfl, rfl⟩
    | tail k =>
      cases k with
      | captured answer f s e =>
        obtain ⟨-, hpending, hconts⟩ := Moves.enter_leaves _ s.lowest f
        exact ⟨hpending, hconts⟩
      | function answer g arg =>
        cases arg with
        | none => exact ⟨rfl, rfl⟩
        | some v => exact ⟨rfl, rfl⟩
  · exact ⟨rfl, rfl⟩

/-- A continuation that is to be stepped was to be stepped, or is resumed in this step. -/
theorem step_armed (h : m.Tidy) (hk : k ∈ (m.step Γ).armed) : m.Arms k := by
  rcases List.mem_append.mp ((step_arms (Γ := Γ) h).subset hk) with hmem | hdeals
  · rcases List.mem_append.mp hmem with hpending | hcont
    · exact .waits (Option.mem_toList.mp hpending)
    · have hcontrol : m.control = .deliver (.tail k) := by
        unfold Control.conts at hcont
        split at hcont
        · rename_i hcontrol
          rw [hcontrol, List.mem_singleton.mp hcont]
        · cases hcont
      by_cases hreleasing : m.releasing = []
      · -- it is stepped in this step
        have hstep : m.step Γ = m.deliver (.tail k) := by
          simp only [Machine.step, hreleasing, hcontrol]
        obtain ⟨hpending, hconts⟩ := conts_deliver m (.tail k)
        rw [hstep, armed, hpending, hconts, List.append_nil] at hk
        exact .waits (Option.mem_toList.mp hk)
      · exact .stays hreleasing hcontrol
  · exact arms_of_dealing hdeals

/-! ### Levels -/

/-- The tail resume of a continuation is the last action of the clause that was started with it:
what is left is the placeholder, which goes back to where the driver of the clause was. -/
structure OwnLast (m : Machine ω) (o : Origins) (k : Cont ω) (w : Value)
    (R : List (Activation ω)) : Prop where
  closes : Closes k.answer w m.stack R
  own : ∃ U r os keep f s e, m.stack = U ++ .owning (.resumption r :: os) ::
    .clause keep k.answer :: R ∧ k = .captured k.answer f s e ∧ o r e ∧ ∀ j ∈ keep, j = s.lowest

/-- A continuation that goes on with the body of the installation is only resumed in tail position,
by the clause that was started with it. -/
structure TailsOwn (m : Machine ω) (o : Origins) (i : InstallationId) : Prop where
  resume : ∀ r v next k, m.Evaluates (.resume r v next) → m.resumptions.find? r = some k →
    ¬ m.Conveys o k i
  tailResume : ∀ r v next k, m.Evaluates (.tailResume r v next) →
    m.resumptions.find? r = some k → m.Conveys o k i → ∃ w R, next = .done w ∧ m.OwnLast o k w R

/-- Wherever a driver of the installation is unfolded from the code, it stands on `B`. -/
def BasedOn (m : Machine ω) (o : Origins) (i : InstallationId) (S B : List (Activation ω)) : Prop :=
  ∀ f Q, m.Harbours o S (.driving i f :: Q) → Q = B

/-- The placeholder is on its way to code on top of which the continuation has the body on `B`. -/
def LandsOn (m : Machine ω) (o : Origins) (i : InstallationId) (k : Cont ω)
    (B : List (Activation ω)) : Prop :=
  ∃ R, m.Passing k R ∧ m.BasedOn o i (k.entry ++ (R ++ m.waiting)) B

/-- The body of the installation is on `B`, and comes back there when it is resumed. -/
structure RestsOn (m : Machine ω) (o : Origins) (i : InstallationId) (B : List (Activation ω)) :
    Prop where
  issued : i < m.chain.installations.next
  spine : m.BasedOn o i m.spine B
  delivered : ∀ k, m.control = .deliver (.tail k) → m.BasedOn o i (k.entry ++ m.spine) B
  pending : ∀ k, m.pending = some k → m.Conveys o k i → m.LandsOn o i k B

omit [Contents ω] in
theorem spine_of_suffix (h : R <:+ m.stack) : ∃ U, m.spine = U ++ (R ++ m.waiting) := by
  obtain ⟨U, hU⟩ := h
  exact ⟨U, by rw [Machine.spine, ← hU, List.append_assoc]⟩

/-- A tail resume fills the slot and leaves the code as it is, or ends the thread. -/
theorem step_tailResume {r : ResumptionId} {v : Value} {next : Comp ω}
    (hm : m.Evaluates (.tailResume r v next)) (hk : m.resumptions.find? r = some k) :
    (m.pending = none ∧ (m.step Γ).control = .eval next ∧ (m.step Γ).stack = m.stack ∧
      (m.step Γ).fibers = m.fibers) ∨
    ((m.step Γ).pending = m.pending ∧ ∃ f, (m.step Γ).control = .fault f) := by
  have hstep : m.step Γ = m.tailResume r v next := by
    simp only [Machine.step, hm.1, hm.2, eval]
  cases hpending : m.pending with
  | none =>
    refine .inl ⟨rfl, ?_⟩
    simp only [hstep, Machine.tailResume, arm_eq hk, bump, hpending]
    exact ⟨rfl, rfl, rfl⟩
  | some k' =>
    refine .inr ?_
    simp only [hstep, Machine.tailResume, arm_eq hk, bump, hpending]
    exact ⟨rfl, _, rfl⟩

omit [Contents ω] in
/-- The clause leaves its place to the continuation. -/
theorem OwnLast.harbours {r : ResumptionId} {w : Value} (h : m.OwnLast o k w R)
    (hk : m.resumptions.find? r = some k) : m.Harbours o m.spine (k.entry ++ (R ++ m.waiting)) := by
  obtain ⟨U, r', os, keep, g, s, e, hstack, heq, ho, hkeep⟩ := h.own
  rw [heq] at hk
  have hspine : m.spine = U ++ (.owning (.resumption r' :: os) :: .clause keep k.answer ::
      (R ++ m.waiting)) := by simp [spine, hstack]
  have hentry : k.entry = [.driving s.lowest g] := by rw [heq, Cont.entry]
  rw [hspine, hentry]
  exact (Harbours.below U _).tail (.resumed os _ _ ho (mem_latent hk rfl) hkeep)

/-- Where a step parks nothing, what is unfolded from a continuation on top of old code could be
unfolded before. -/
theorem Traced.harbours_entry (ht : m.Traced o) {U : List (Activation ω)}
    (hparked : (m.step Γ).fibers.parked.entries ⊆ m.fibers.parked.entries)
    (hspine : m.spine = U ++ R) (hfree : .fiber m.fibers.parked.next ∉ k.owned)
    (hS : (m.step Γ).Harbours (o.next (m.step Γ)) (k.entry ++ R) S) :
    m.Harbours o (k.entry ++ R) S := by
  have hclear := (ht.clear_next hspine).append_entry (Cont.free_entry hfree)
  exact ((ht.succeeds_next hparked).harbours hS hclear).1

namespace RestsOn

variable {Γ : Library ω}

/-- A continuation that waits in the slot conveys the body to its level. -/
theorem passes (h : m.RestsOn o i B) (ht : m.Traced o) (hk : m.pending = some k)
    (hi : (m.step Γ).Conveys (o.next (m.step Γ)) k i) : ∃ R, m.Proceeds (m.step Γ) k R ∧
      (m.step Γ).BasedOn (o.next (m.step Γ)) i (k.entry ++ (R ++ (m.step Γ).waiting)) B := by
  have harmed : k ∈ m.armed := List.mem_append_left _ (Option.mem_toList.mpr hk)
  obtain ⟨f₀, hsucceeds⟩ := ht.succeeds (Γ := Γ)
  have hi := hsucceeds.conveys (Cont.free_entry (hsucceeds.lone.armed k harmed)) hi
  obtain ⟨R, hpassing, hrest⟩ := h.pending k hk hi
  have hproceeds := hpassing.step (Γ := Γ) hk
  refine ⟨R, hproceeds, fun f Q hQ => hrest f Q ?_⟩
  have hwaiting : (m.step Γ).waiting = m.waiting := by
    simp only [waiting, hproceeds.resumers]
  rw [hwaiting] at hQ
  obtain ⟨U, hspine⟩ := spine_of_suffix hpassing.suffix
  exact ht.harbours_entry hproceeds.parked hspine (ht.lodged.next.1.armed k harmed) hQ

/-- What is resumed now conveyed the body before. -/
theorem conveys_arm (ht : m.Traced o) {r : ResumptionId} {v : Value}
    (hk : m.resumptions.find? r = some k)
    (hi : (m.step Γ).Conveys (o.next (m.step Γ)) (k.arm v) i) : m.Conveys o k i := by
  obtain ⟨f₀, hsucceeds⟩ := ht.succeeds (Γ := Γ)
  have hfree := Cont.free_entry (hsucceeds.lone.resumptions _ (Store.mem_of_find? hk))
  obtain ⟨f, Q, hQ⟩ := hi
  rw [Cont.entry_arm] at hQ
  exact hsucceeds.conveys hfree ⟨f, Q, hQ⟩

theorem step_spine (h : m.RestsOn o i B) (ht : m.Traced o) :
    (m.step Γ).BasedOn (o.next (m.step Γ)) i (m.step Γ).spine B := by
  intro f Q hQ
  cases ht.recurs hQ with
  | spine hQ => exact h.spine f Q hQ
  | started k hcontrol hQ => exact h.delivered k hcontrol f Q hQ
  | installed x body next hm hi => exact absurd (hi ▸ h.issued) (Nat.lt_irrefl _)

/-- What is about to be stepped brings the body back to its level. -/
theorem step_delivered (h : m.RestsOn o i B) (ht : m.Traced o) (hown : m.TailsOwn o i)
    (hcontrol : (m.step Γ).control = .deliver (.tail k)) :
    (m.step Γ).BasedOn (o.next (m.step Γ)) i (k.entry ++ (m.step Γ).spine) B := by
  intro f Q hQ
  rcases Harbours.of_entry hQ with hi | hQ'
  · have harmed : k ∈ (m.step Γ).armed := by simp [armed, hcontrol, Control.conts]
    cases step_armed ht.tidy harmed with
    | waits hk =>
      obtain ⟨R, hproceeds, hrest⟩ := h.passes ht hk hi
      rcases hproceeds.slot with ⟨-, hpassing⟩ | ⟨-, -, hstack⟩
      · exact absurd hcontrol hpassing.control_ne
      · refine hrest f Q ?_
        rw [← hstack]
        exact hQ
    | stays hreleasing hk =>
      obtain ⟨hspine, hparked⟩ := spine_releasing (Γ := Γ) hreleasing
      have harmed : k ∈ m.armed := by simp [armed, hk, Control.conts]
      have hfree := ht.lodged.next.1.armed k harmed
      rw [hspine] at hQ
      exact h.delivered k hk f Q (ht.harbours_entry (U := []) hparked rfl hfree hQ)
    | resumes r v next k₀ hm hk₀ heq =>
      subst heq
      exact absurd (conveys_arm ht hk₀ hi) (hown.resume r v next k₀ hm hk₀)
    | tails r v next k₀ hm hk₀ heq =>
      rcases step_tailResume (Γ := Γ) hm hk₀ with ⟨-, heval, -⟩ | ⟨-, g, hfault⟩
      · cases hcontrol.symm.trans heval
      · cases hcontrol.symm.trans hfault
  · exact h.step_spine ht f Q hQ'

/-- A clause that leaves its continuation to the slot leaves its place to it. -/
theorem step_tails (h : m.RestsOn o i B) (ht : m.Traced o) {r : ResumptionId} {w : Value}
    (hk : m.resumptions.find? r = some k) (hlast : m.OwnLast o k w R)
    (hcontrol : (m.step Γ).control = .eval (.done w)) (hstack : (m.step Γ).stack = m.stack)
    (hfibers : (m.step Γ).fibers = m.fibers) (v : Value) :
    (m.step Γ).LandsOn (o.next (m.step Γ)) i (k.arm v) B := by
  have hanswer : (k.arm v).answer = k.answer := by cases k <;> rfl
  have hcloses : Closes (k.arm v).answer w (m.step Γ).stack R := by
    rw [hanswer, hstack]
    exact hlast.closes
  refine ⟨R, .passing w (.inl hcontrol) hcloses, fun f Q hQ => h.spine f Q ?_⟩
  have hwaiting : (m.step Γ).waiting = m.waiting := by simp only [waiting, hfibers]
  rw [Cont.entry_arm, hwaiting] at hQ
  obtain ⟨U, hbelow⟩ := spine_of_suffix hlast.closes.suffix
  have hparked : (m.step Γ).fibers.parked.entries ⊆ m.fibers.parked.entries := by
    rw [hfibers]
    exact List.Subset.refl _
  have hfree := ht.lodged.next.1.resumptions _ (Store.mem_of_find? hk)
  exact (hlast.harbours hk).trans (ht.harbours_entry hparked hbelow hfree hQ)

/-- What waits in the slot brings the body back to its level. -/
theorem step_pending (h : m.RestsOn o i B) (ht : m.Traced o) (hown : m.TailsOwn o i)
    (hpending : (m.step Γ).pending = some k)
    (hi : (m.step Γ).Conveys (o.next (m.step Γ)) k i) :
    (m.step Γ).LandsOn (o.next (m.step Γ)) i k B := by
  have hwaits : m.pending = some k → (m.step Γ).LandsOn (o.next (m.step Γ)) i k B := by
    intro hk
    obtain ⟨R, hproceeds, hrest⟩ := h.passes ht hk hi
    rcases hproceeds.slot with ⟨-, hpassing⟩ | ⟨hnone, -⟩
    · exact ⟨R, hpassing, hrest⟩
    · cases hpending.symm.trans hnone
  have harmed : k ∈ (m.step Γ).armed := by simp [armed, hpending]
  cases step_armed ht.tidy harmed with
  | waits hk => exact hwaits hk
  | stays hreleasing hk => exact hwaits ((pending_releasing hreleasing).symm.trans hpending)
  | resumes r v next k₀ hm hk₀ heq =>
    subst heq
    exact absurd (conveys_arm ht hk₀ hi) (hown.resume r v next k₀ hm hk₀)
  | tails r v next k₀ hm hk₀ heq =>
    subst heq
    rcases step_tailResume (Γ := Γ) hm hk₀ with ⟨-, hcontrol, hstack, hfibers⟩ | ⟨hsame, -⟩
    · obtain ⟨w, R, rfl, hlast⟩ := hown.tailResume r v next k₀ hm hk₀ (conveys_arm ht hk₀ hi)
      exact h.step_tails ht hk₀ hlast hcontrol hstack hfibers v
    · exact hwaits (hsame.symm.trans hpending)

theorem step (h : m.RestsOn o i B) (ht : m.Traced o) (hown : m.TailsOwn o i) :
    (m.step Γ).RestsOn (o.next (m.step Γ)) i B where
  issued := Nat.lt_of_lt_of_le h.issued (Ages.step m).chain.installations.next
  spine := h.step_spine ht
  delivered _ hcontrol := h.step_delivered ht hown hcontrol
  pending _ hpending hi := h.step_pending ht hown hpending hi

/-- The body stays on its level as long as it is only resumed in tail position. -/
theorem run {m₀ : Machine ω} (ht : ∀ n, (run Γ n m₀).Traced (origins Γ m₀ n)) {a : Nat}
    (h : (run Γ a m₀).RestsOn (origins Γ m₀ a) i B) (d : Nat)
    (hown : ∀ n, n < a + d → (run Γ n m₀).TailsOwn (origins Γ m₀ n) i) :
    (run Γ (a + d) m₀).RestsOn (origins Γ m₀ (a + d)) i B := by
  induction d with
  | zero => exact h
  | succ d ih =>
    have hbefore := ih fun n hn => hown n (by omega)
    rw [← Nat.add_assoc, origins_succ, run_succ]
    exact hbefore.step (ht (a + d)) (hown (a + d) (by omega))

end RestsOn

/-! ### Clauses that take over from drivers -/

omit [Contents ω] in
theorem drives_of_mem_entry (hk : k ∈ m.armed) (h : .driving i f ∈ k.entry) : m.Drives i f := by
  cases k with
  | captured answer g s e =>
    obtain ⟨rfl, rfl⟩ := Activation.driving.inj (List.mem_singleton.mp h)
    exact .inr ⟨answer, s, e, List.mem_append_right _ (List.mem_filter.mpr ⟨hk, rfl⟩), rfl⟩
  | function => cases h

/-- A new installation rests on the loop that was started with it. -/
theorem Installs.restsOn {x : Installing} {body : ReferenceId → Comp ω}
    (h : m.Installs Γ x body i f) (ht : m.Traced o) :
    ∃ B, (m.step Γ).RestsOn (o.next (m.step Γ)) i B := by
  obtain ⟨⟨next, hm⟩, hi, -, -, hwake, -⟩ := id h
  have hnew : ∀ g, ¬ m.Drives i g := fun g hg =>
    absurd (hi ▸ ht.lodged.issued i g hg) (Nat.lt_irrefl _)
  refine ⟨.stepping :: .bind next :: m.spine, h.issued, fun g Q hQ => ?_,
    fun k hcontrol => (by cases hwake.symm.trans hcontrol), fun k hpending hi' => ?_⟩
  · cases ht.recurs hQ with
    | spine hQ =>
      rcases hQ.drives List.mem_cons_self with hmem | hdrives
      · exact absurd (drives_of_mem_spine hmem) (hnew g)
      · exact absurd hdrives (hnew g)
    | started k hcontrol => cases hm.2.symm.trans hcontrol
    | installed x' body' next' hm' _ hQ =>
      cases hm.2.symm.trans hm'.2
      exact hQ
  · have harmed : k ∈ (m.step Γ).armed := by simp [armed, hpending]
    cases step_armed ht.tidy harmed with
    | waits hk =>
      have harmed : k ∈ m.armed := List.mem_append_left _ (Option.mem_toList.mpr hk)
      obtain ⟨f₀, hsucceeds⟩ := ht.succeeds (Γ := Γ)
      have hfree := Cont.free_entry (hsucceeds.lone.armed k harmed)
      obtain ⟨g, Q, hQ⟩ := hsucceeds.conveys hfree hi'
      rcases hQ.drives List.mem_cons_self with hmem | hdrives
      · exact absurd (drives_of_mem_entry harmed hmem) (hnew g)
      · exact absurd hdrives (hnew g)
    | stays hreleasing => exact absurd hm.1 hreleasing
    | resumes r v next' k₀ hm' => cases hm.2.symm.trans hm'.2
    | tails r v next' k₀ hm' => cases hm.2.symm.trans hm'.2

/-- The next step starts a clause of the installation that takes the place of its driver. The
clause gets the continuation, or the continuation is discarded. -/
def TakesOver (Γ : Library ω) (m : Machine ω) (i : InstallationId) : Prop :=
  ∃ e command position code, m.Starts Γ e command i position ∧
    m.codeAt Γ i position = some code ∧ code.modifier ≠ .plain

/-- A clause runs on this code. -/
def HandlesOn (m : Machine ω) (B : List (Activation ω)) : Prop :=
  ∃ os keep answer, m.spine = .owning os :: .clause keep answer :: B

omit [Contents ω] in
theorem HandlesOn.loopCount (h : m.HandlesOn B) : m.loopCount = B.countP Activation.isLoop := by
  obtain ⟨os, keep, answer, hspine⟩ := h
  simp [Machine.loopCount, hspine, Activation.isLoop]

omit [Contents ω] in
theorem HandlesOn.driverCount (h : m.HandlesOn B) :
    m.driverCount = B.countP Activation.isDriver := by
  obtain ⟨os, keep, answer, hspine⟩ := h
  simp [Machine.driverCount, hspine, Activation.isDriver]

theorem TakesOver.handlesOn (h : m.TakesOver Γ i) (hseated : m.fibers.Seated) :
    ∃ C f R, m.spine = C ++ .driving i f :: R ∧ (m.step Γ).HandlesOn R := by
  obtain ⟨e, command, position, code, ⟨code', hstarts, hfrom⟩, hcode, hplain⟩ := h
  obtain ⟨hcode', hcontrol, -⟩ := hstarts
  obtain rfl : code' = code := Option.some.inj (hcode'.symm.trans hcode)
  rw [if_neg hplain] at hfrom
  obtain ⟨name, y, hhands, -⟩ := hfrom
  have hstep : m.step Γ = m.forward Γ ⟨i, position, e, name⟩ := by
    simp only [Machine.step, hhands.1, hhands.2]
  rw [hstep] at hcontrol ⊢
  unfold Machine.forward at hcontrol ⊢
  split at hcontrol
  · cases hcontrol
  · rename_i S fs hsuspend
    obtain ⟨j, f, T, rfl, hspine, hparked⟩ := Shifts.of_suspend hseated hsuspend
    simp only at hcontrol ⊢
    split at hcontrol
    · rename_i hj
      subst hj
      refine ⟨m.stack, f, T ++ fs.resumers.flatMap (·.code), hspine, ?_⟩
      simp only [if_true]
      rcases capture_cases (Γ := Γ) { m with fibers := fs, stack := T } j f
        ⟨j, position, e, name⟩ with ⟨text, heq⟩ | heq | ⟨code', s, c', -, -, heq⟩
      · rw [heq] at hcontrol
        cases hcontrol
      · rw [heq] at hcontrol
        cases hcontrol
      · rcases heq with ⟨counters, journal, heq⟩ | ⟨y, command, counters, journal, -, -, heq⟩
        · rw [heq] at hcontrol
          cases hcontrol
        · rw [heq]
          exact ⟨_, _, _, rfl⟩
    · cases hcontrol

/-- A loop steps a continuation on top of everything that was below it. -/
theorem step_stepping (h : m.Stands) (hreleasing : m.releasing = [])
    (hcontrol : m.control = .deliver (.tail k)) : Loops m.stack ∧
      ((∃ f, (m.step Γ).control = .fault f) ∨
        ∃ C, (m.step Γ).spine = C ++ (k.entry ++ m.spine)) := by
  have hloops : Loops m.stack := h.loops (by rw [hcontrol]; rfl)
  refine ⟨hloops, ?_⟩
  obtain ⟨S, hS⟩ := hloops
  have hstep : m.step Γ = m.stepCont k := by
    simp only [Machine.step, hreleasing, hcontrol, deliver, hS]
  rw [hstep]
  cases k with
  | captured answer f s e =>
    simp only [stepCont]
    unfold enter
    split
    · rename_i C fs hresume
      obtain ⟨-, hwaiting, -⟩ := Shifts.of_resume hresume
      exact .inr ⟨C, congrArg (C ++ ·) hwaiting⟩
    · exact .inl ⟨_, rfl⟩
  | function answer g arg =>
    cases arg with
    | none => exact .inl ⟨_, rfl⟩
    | some v => exact .inr ⟨[.calling answer], rfl⟩

/-- All clauses of an installation that take the place of its driver run on the same code, as long
as its body is only resumed in tail position. -/
theorem TakesOver.level {m₀ : Machine ω} (ht : ∀ n, (run Γ n m₀).Traced (origins Γ m₀ n))
    (hnone : ∀ i f, ¬ m₀.Drives i f) {p : Nat} (h : (run Γ p m₀).TakesOver Γ i) :
    ∃ B, ∀ q, p ≤ q → (∀ n < q, (run Γ n m₀).TailsOwn (origins Γ m₀ n) i) →
      (run Γ q m₀).TakesOver Γ i → (run Γ (q + 1) m₀).HandlesOn B := by
  obtain ⟨C, f, R, hspine, -⟩ := h.handlesOn (ht p).seated.fibers
  have hdrives : (run Γ p m₀).Drives i f := drives_of_mem_spine (by simp [hspine])
  obtain ⟨a, hap, x, body, hinstalls⟩ := run_drives hnone p hdrives
  obtain ⟨B, hB⟩ := hinstalls.restsOn (ht a)
  rw [← run_succ, ← origins_succ] at hB
  refine ⟨B, fun q hpq hown hq => ?_⟩
  obtain ⟨d, rfl⟩ := Nat.exists_eq_add_of_le (Nat.le_trans (Nat.succ_le_of_lt hap) hpq)
  have hrests := hB.run ht d hown
  obtain ⟨C', f', R', hspine', hhandles⟩ := hq.handlesOn (ht _).seated.fibers
  obtain rfl := hrests.spine f' R' (hspine' ▸ Harbours.below C' _)
  rw [run_succ]
  exact hhandles

/-! ### Runs -/

/-- Tail resumes do not nest in a run. -/
structure Flat (Γ : Library ω) (m₀ : Machine ω) : Prop where
  /-- What is left to the slot by the last action of a clause, of a return clause or of the closure
  of a function resumption is stepped by the loop on top of which that code was run, while the same
  code waits below it. -/
  hands : ∀ n r v w k R, (run Γ n m₀).Evaluates (.tailResume r v (.done w)) →
    (run Γ n m₀).pending = none → (run Γ n m₀).resumptions.find? r = some k →
      Closes k.answer w (run Γ n m₀).stack R → Loops R ∧
        ∃ d, (run Γ (n + d) m₀).Hand (k.arm v) R ∧
          (run Γ (n + d) m₀).waiting = (run Γ n m₀).waiting
  /-- A loop that steps a continuation stays in progress, with all that is below it. -/
  steps : ∀ n k, (run Γ n m₀).releasing = [] → (run Γ n m₀).control = .deliver (.tail k) →
    Loops (run Γ n m₀).stack ∧ ((∃ f, (run Γ (n + 1) m₀).control = .fault f) ∨
      ∃ C, (run Γ (n + 1) m₀).spine = C ++ (k.entry ++ (run Γ n m₀).spine))
  /-- So the commands of a body that is only resumed in tail position are all handled on the same
  code, with the same number of loops and drivers in progress. -/
  level : ∀ i p q, p ≤ q → (∀ n < q, (run Γ n m₀).TailsOwn (origins Γ m₀ n) i) →
    (run Γ p m₀).TakesOver Γ i → (run Γ q m₀).TakesOver Γ i →
      (∃ B, (run Γ (p + 1) m₀).HandlesOn B ∧ (run Γ (q + 1) m₀).HandlesOn B) ∧
        (run Γ (q + 1) m₀).loopCount = (run Γ (p + 1) m₀).loopCount ∧
          (run Γ (q + 1) m₀).driverCount = (run Γ (p + 1) m₀).driverCount

/-- In every run of every program, tail resumes do not nest. A tail resume has to be the last action
of the code that performs it, and that code has to answer a loop, as a plain clause does not. Where
a body is resumed by `resume`, by a clause of its own or of another installation, a new loop is in
progress below it. -/
theorem tail_resumes_do_not_nest (settings : SettingsSlot) (cells : List ω) (statics : List Owned)
    (main : Comp ω) : Flat Γ (start settings cells statics main) := by
  have ht := traced_run (Γ := Γ) settings cells statics main
  have hstands := (Stands.start settings cells statics main).run (Γ := Γ)
  have hnone := not_drives_start settings cells statics main
  generalize start settings cells statics main = m₀ at *
  exact
    { hands := fun n r v w k R hm hempty hk hcloses => by
        obtain ⟨d, hloops, hhand, hresumers, -, -⟩ :=
          tailResume_hand (Γ := Γ) (hstands n) hempty hm hk hcloses
        rw [← run_add] at hhand hresumers
        exact ⟨hloops, d + 1, hhand, by simp only [waiting, hresumers]⟩
      steps := fun n k hreleasing hcontrol => by
        rw [run_succ]
        exact step_stepping (hstands n) hreleasing hcontrol
      level := fun i p q hpq hown hp hq => by
        obtain ⟨B, hB⟩ := hp.level ht hnone
        have hfirst := hB p (Nat.le_refl _) (fun n hn => hown n (by omega)) hp
        have hlast := hB q hpq hown hq
        exact ⟨⟨B, hfirst, hlast⟩, hlast.loopCount.trans hfirst.loopCount.symm,
          hlast.driverCount.trans hfirst.driverCount.symm⟩ }

/-- A library with one handler type, whose clause moves its resumption and then resumes it in tail
position. -/
def relaying : Library Unit where
  handlerType _ :=
    { answer := "i64"
      clauses := [⟨"Ask", .resumptive fun _ _ r =>
        .take r fun r' => .tailResume r' (.int 2) (.done .unit)⟩] }

/-- A program that sends two commands. -/
def askingTwice : Comp Unit :=
  .handle { handlerType := "Relay", handler := 1 }
    (fun _ => .invoke .innermost { name := "Ask" } fun _ =>
      .invoke .innermost { name := "Ask" } .done) .done

theorem tail_resumes_do_not_nest_relaying :
    (run relaying 3 (start {} [()] [] askingTwice)).TakesOver relaying 1 ∧
      (run relaying 18 (start {} [()] [] askingTwice)).TakesOver relaying 1 ∧
      (∀ n < 18, (run relaying n (start {} [()] [] askingTwice)).TailsOwn
        (origins relaying (start {} [()] [] askingTwice) n) 1) ∧
      (run relaying 5 (start {} [()] [] askingTwice)).Evaluates
        (.tailResume 2 (.int 2) (.done .unit)) ∧
      Flat relaying (start {} [()] [] askingTwice) := by
  have huses : ∀ n < 18, n ≠ 4 → n ≠ 5 →
      (run relaying n (start {} [()] [] askingTwice)).uses = [] := by decide +kernel
  refine ⟨?_, ?_, fun n hn => ?_, ⟨rfl, rfl⟩, tail_resumes_do_not_nest {} [()] [] askingTwice⟩
  · exact ⟨0, { name := "Ask" }, 0, _, ⟨_, ⟨rfl, rfl, [.resumption 1], _, rfl⟩, "Ask",
      ⟨some { name := "Ask" }, none⟩, ⟨rfl, rfl⟩, rfl, rfl⟩, rfl, by simp [ClauseCode.modifier]⟩
  · exact ⟨1, { name := "Ask" }, 0, _, ⟨_, ⟨rfl, rfl, [.resumption 3], _, rfl⟩, "Ask",
      ⟨some { name := "Ask" }, none⟩, ⟨rfl, rfl⟩, rfl, rfl⟩, rfl, by simp [ClauseCode.modifier]⟩
  · by_cases hfour : n = 4
    · subst hfour
      exact ⟨fun r v next k hm => (by cases hm.2), fun r v next k hm => (by cases hm.2)⟩
    by_cases hfive : n = 5
    · subst hfive
      refine ⟨fun r v next k hm => (by cases hm.2), fun r v next k hm hk hi => ?_⟩
      obtain ⟨rfl, rfl, rfl⟩ := Comp.tailResume.inj (Control.eval.inj hm.2)
      cases hk
      refine ⟨.unit, _, rfl, .owning .clause, [], 1, [], some 1, 0, ⟨1, 1⟩, 0, rfl, rfl, ?_, ?_⟩
      · exact ⟨4, by decide, _, rfl, rfl⟩
      · simp
    have hnone := huses n hn hfour hfive
    refine ⟨fun r v next k hm => ?_, fun r v next k hm => ?_⟩ <;>
      simp [uses, hm.1, hm.2, Comp.uses] at hnone

/-- A library with a handler type whose clause gives its resumption away as the answer, and one
whose plain clause resumes, in tail position, the resumption that it is sent. -/
def lending : Library Unit where
  handlerType
    | "Lender" =>
      { answer := "i64"
        clauses := [⟨"Lend", .resumptive fun _ _ r => .take r fun r' => .done (.resumption r')⟩] }
    | "Collector" =>
      { answer := "i64"
        clauses := [⟨"Collect", .plain fun _ sent => match sent with
          | .resumption r => .tailResume r (.int 5) (.done .unit)
          | _ => .done .unit⟩] }
    | _ => { answer := "i64", clauses := [] }

/-- A program that sends the resumption that it was given to a plain clause, and then installs
another handler. -/
def collecting : Comp Unit :=
  .handle { handlerType := "Lender", handler := 1 }
    (fun _ => .invoke .innermost { name := "Lend" } .done)
    fun r => .handle { handlerType := "Collector", handler := 2 }
      (fun _ => .invoke .innermost { name := "Collect", payload := r } fun _ =>
        .handle { handlerType := "Empty", handler := 3 } (fun _ => .done .unit) .done) .done

/-- A plain clause does not give its answer back to a loop. What the last action of the clause of
`collecting` leaves to the slot is stepped by the loop of the handler that is installed next, on top
of the one loop that was in progress while the clause was run. -/
theorem plain_tail_nests :
    (∃ k, (run lending 16 (start {} [(), (), ()] [] collecting)).Evaluates
          (.tailResume 2 (.int 5) (.done .unit)) ∧
        (run lending 16 (start {} [(), (), ()] [] collecting)).pending = none ∧
        (run lending 16 (start {} [(), (), ()] [] collecting)).resumptions.find? 2 = some k ∧
        k.isCaptured ∧
        (run lending 38 (start {} [(), (), ()] [] collecting)).releasing = [] ∧
        (run lending 38 (start {} [(), (), ()] [] collecting)).control =
          .deliver (.tail (k.arm (.int 5)))) ∧
      (run lending 16 (start {} [(), (), ()] [] collecting)).loopCount = 1 ∧
      (run lending 38 (start {} [(), (), ()] [] collecting)).loopCount = 2 :=
  ⟨⟨_, ⟨rfl, rfl⟩, rfl, rfl, rfl, rfl, rfl⟩, rfl, rfl⟩

end Machine

end EffectHandlers
