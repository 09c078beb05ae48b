import EffectHandlers.Proofs.Careful
import EffectHandlers.Proofs.Conservation
import EffectHandlers.Proofs.Draining
import EffectHandlers.Proofs.Entering
import EffectHandlers.Proofs.Mirror
import EffectHandlers.Proofs.Pending
import EffectHandlers.Proofs.Stepping
/-!
# The tail slot

A tail resume fills the tail slot, and what settles the answer of the running clause empties it.
Where a tail resume is the last action of the code that performs it, nothing else happens in
between: the slot is empty whenever other code runs, and the loop that waits for the answer of that
code steps the continuation in its place. A plain clause settles nothing, so a tail resume in it
stays in the slot.
-/

namespace EffectHandlers

variable {ω : Type} {Γ : Library ω} {m : Machine ω}

/-! ### Last actions -/

/-- What a loop hands on when it stops with a value. -/
def Value.stopped? : Value → Option Value
  | .pair (.bool true) _ => none
  | .pair _ result => some result
  | v => some v

/-- Code that is given this value only passes a value on, until a clause, a return clause or the
closure of a function resumption ends that gives back an answer of this type. -/
inductive Closes (answer : String) : Value → List (Activation ω) → List (Activation ω) → Prop
  | clause {v keep S} : Closes answer v (.clause keep answer :: S) S
  | returning {v i S} : Closes answer v (.returning i answer :: S) S
  | calling {v S} : Closes answer v (.calling answer :: S) S
  | owning {v os S R} (h : Closes answer v S R) : Closes answer v (.owning os :: S) R
  | bind {v w next S R} (hnext : next v = .done w) (h : Closes answer w S R) :
      Closes answer v (.bind next :: S) R
  | catching {v w next S R} (hnext : next (.ok v) = .done w) (h : Closes answer w S R) :
      Closes answer v (.catching next :: S) R
  | looping {v w result body next S R} (hstops : v.stopped? = some result)
      (hnext : next result = .done w) (h : Closes answer w S R) :
      Closes answer v (.looping body next :: S) R

namespace Machine

/-- A tail resume that is performed now is the last action of a clause, of a return clause or of
the closure of a function resumption, which gives back an answer of the type that the resumption
gives. -/
def TailsLast (m : Machine ω) : Prop :=
  ∀ r v next, m.Evaluates (.tailResume r v next) →
    ∃ answer w R, next = .done w ∧ Closes answer w m.stack R ∧
      ∀ k, m.resumptions.find? r = some k → k.answer = answer

/-! ### The slot along a run -/

/-- The tail slot is empty, or the placeholder of the tail resume is on its way. -/
inductive Slot (m : Machine ω) : Prop
  | empty (h : m.pending = none)
  | passing {k w R} (h : m.pending = some k)
      (hcontrol : m.control = .eval (.done w) ∨ m.control = .ret w)
      (hcloses : Closes k.answer w m.stack R)
  | settling {k w} (h : m.pending = some k) (hcontrol : m.control = .settle k.answer w)

variable {v w : Value} {S R : List (Activation ω)} {k : Cont ω} {answer : String}

/-- Nothing is wrong with the tail slot. -/
structure Tidies (m : Machine ω) : Prop where
  slot : m.Slot
  fault : ∀ f, m.control.fault? = some f → f.isSlot = false

theorem Tidies.empty (h : m.pending = none) (hfault : ∀ f, m.control.fault? = some f →
    f.isSlot = false) : m.Tidies := ⟨.empty h, hfault⟩

/-- What settles an answer empties the slot. -/
theorem tidies_settle (h : ∀ k, m.pending = some k → k.answer = answer) (v : Value)
    (kept : List Holding) : (m.settle answer v kept).Tidies := by
  unfold settle
  split
  · rename_i hnone
    exact .empty hnone (by simp [goOn, Control.fault?])
  · rename_i k hk
    simp only
    rw [if_pos (h k hk)]
    exact .empty rfl (by simp [goOn, Control.fault?])

theorem stopped?_pair {a : Value} (ha : a ≠ .bool true) (result : Value) :
    (Value.pair a result).stopped? = some result := by
  unfold Value.stopped?
  split
  · rename_i heq
    exact absurd (Value.pair.inj heq).1 ha
  · rename_i heq
    rw [(Value.pair.inj heq).2]
  · rename_i hpair
    exact absurd rfl (hpair a result)

theorem stopped?_other (h : ∀ a result, v ≠ .pair a result) : v.stopped? = some v := by
  unfold Value.stopped?
  split
  · exact absurd rfl (h _ _)
  · exact absurd rfl (h _ _)
  · rfl

/-- A value that is only passed on goes one activation further, and its answer is settled at the
end. -/
theorem give_closes (h : Closes answer v m.stack R) (hcontrol : m.control = .ret v) :
    (∃ kept, m.give Γ v =
      (({ m with stack := R } : Machine ω).release kept).goOn (.settle answer v)) ∨
    (∃ kept, m.give Γ v = ({ m with stack := R } : Machine ω).settle answer v kept) ∨
    ∃ S os w c, m.give Γ v = (({ m with stack := S } : Machine ω).discard os).goOn c ∧
      (c = .eval (.done w) ∨ c = .ret w) ∧ S.length < m.stack.length ∧ Closes answer w S R := by
  unfold Machine.give
  generalize hstack : m.stack = S at h
  cases h with
  | clause => exact .inl ⟨_, rfl⟩
  | returning | calling => exact .inr (.inl ⟨_, rfl⟩)
  | owning hcloses =>
    rename_i os S
    exact .inr (.inr ⟨S, os, v, _, rfl, .inr hcontrol, Nat.lt_succ_self _, hcloses⟩)
  | bind hnext hcloses | catching hnext hcloses =>
    exact .inr (.inr ⟨_, [], _, _, rfl, .inl (congrArg Control.eval hnext), Nat.lt_succ_self _,
      hcloses⟩)
  | looping hstops hnext hcloses =>
    refine .inr (.inr ⟨_, [], _, _, ?_, .inl (congrArg Control.eval hnext), Nat.lt_succ_self _,
      hcloses⟩)
    simp only
    split
    · cases hstops
    · rename_i a result hagain
      rw [stopped?_pair hagain, Option.some.injEq] at hstops
      rw [hstops]
      rfl
    · rename_i hpair
      rw [stopped?_other hpair, Option.some.injEq] at hstops
      rw [hstops]
      rfl

variable [Contents ω]

theorem pending_releaseOne (m : Machine ω) (x : Holding) :
    (m.releaseOne x).pending = m.pending := by
  cases x with
  | asset o =>
    cases o with
    | cell c =>
      simp only [releaseOne, releaseAsset, releaseCell]
      split
      · rfl
      · split <;> rfl
    | notice n => rfl
    | _ =>
      simp only [releaseOne, releaseAsset]
      split <;> rfl
  | installation i =>
    simp only [releaseOne, releaseInstallation]
    split
    · rfl
    · split <;> rfl
  | _ =>
    simp only [releaseOne]
    split <;> rfl

/-- Releasing has no part in the slot. -/
theorem Slot.releasing (h : m.Slot) {x : Holding} {hs : List Holding}
    (hreleasing : m.releasing = x :: hs) : (m.step Γ).Slot := by
  have hpending : (m.step Γ).pending = m.pending := by
    rw [step_releasing hreleasing, pending_releaseOne]
  have hcontrol' : (m.step Γ).control = m.control := by
    rw [step_releasing hreleasing, releaseOne_control]
  have hstack : (m.step Γ).stack = m.stack := by
    rw [step_releasing hreleasing, (releaseOne_same _ _).1]
  cases h with
  | empty h => exact .empty (hpending.trans h)
  | passing h hcontrol hcloses =>
    exact .passing (hpending.trans h) (hcontrol' ▸ hcontrol) (hstack ▸ hcloses)
  | settling h hcontrol => exact .settling (hpending.trans h) (hcontrol'.trans hcontrol)

/-- A tail resume fills the slot, and its placeholder is on its way. -/
theorem Tidies.tailResume {r : ResumptionId} {v : Value} {next : Comp ω}
    (hm : m.Evaluates (.tailResume r v next)) (hlast : m.TailsLast) (hempty : m.pending = none) :
    (m.step Γ).Tidies := by
  have hstep : m.step Γ = m.tailResume r v next := by
    simp only [step, hm.1, hm.2, eval]
  obtain ⟨answer, w, R, rfl, hcloses, hanswer⟩ := hlast r v next hm
  rw [hstep]
  unfold Machine.tailResume
  cases hk : m.resumptions.find? r with
  | none =>
    have harm : m.arm r v = none := by simp [arm, hk]
    simp only [harm]
    refine .empty hempty fun f hf => ?_
    obtain rfl : Fault.resumeEmpty = f := Option.some.inj hf
    rfl
  | some k =>
    simp only [arm_eq hk, bump, hempty]
    refine ⟨.passing (k := k.arm v) (R := R) rfl (.inl rfl) ?_, by simp [goOn, Control.fault?]⟩
    have harmed : (k.arm v).answer = k.answer := by cases k <;> rfl
    rw [harmed, hanswer k hk]
    exact hcloses

/-- The slot stays tidy where tail resumes are last actions. -/
theorem Tidies.step (h : m.Tidies) (hlast : m.TailsLast) : (m.step Γ).Tidies := by
  cases hreleasing : m.releasing with
  | cons x hs =>
    refine ⟨h.slot.releasing hreleasing, ?_⟩
    rw [step_releasing hreleasing, releaseOne_control]
    exact h.fault
  | nil =>
  cases h.slot with
  | empty hempty =>
    cases step_slots Γ m with
    | apart _ hapart => exact .empty (hapart.pending.trans hempty) hapart.fault
    | releases hcons => cases hreleasing.symm.trans hcons
    | tails hm => exact .tailResume hm hlast hempty
    | settles _ hcontrol =>
      simp only [Machine.step, hreleasing, hcontrol]
      exact tidies_settle (by simp [hempty]) _ _
    | answers _ _ _ _ hstep =>
      rw [hstep]
      exact tidies_settle (by simp [hempty]) _ _
    | ends _ hcontrol =>
      have hfault := h.fault
      rw [hcontrol] at hfault
      simp only [Machine.step, hreleasing, hcontrol]
      exact .empty rfl hfault
    | ended _ hcontrol =>
      rw [step_halted hcontrol hreleasing]
      exact h
  | @passing k w R hpending hcontrol hcloses =>
    rcases hcontrol with hcontrol | hcontrol
    · simp only [Machine.step, hreleasing, hcontrol]
      exact ⟨.passing hpending (.inr rfl) hcloses, by simp [eval, goOn, Control.fault?]⟩
    · simp only [Machine.step, hreleasing, hcontrol]
      rcases give_closes (Γ := Γ) hcloses hcontrol with
        ⟨kept, heq⟩ | ⟨kept, heq⟩ | ⟨S, os, w', c, heq, hc, -, hrest⟩
      · rw [heq]
        exact ⟨.settling hpending rfl, by simp [goOn, Control.fault?]⟩
      · rw [heq]
        refine tidies_settle (fun k' hk' => ?_) _ _
        obtain rfl : k = k' := Option.some.inj (hpending.symm.trans hk')
        rfl
      · rw [heq]
        refine ⟨.passing hpending hc hrest, ?_⟩
        rcases hc with rfl | rfl <;> simp [goOn, Control.fault?]
  | @settling k w hpending hcontrol =>
    simp only [Machine.step, hreleasing, hcontrol]
    refine tidies_settle (fun k' hk' => ?_) _ _
    obtain rfl : k = k' := Option.some.inj (hpending.symm.trans hk')
    rfl

theorem Tidies.run (h : m.Tidies) (hlast : ∀ n, (run Γ n m).TailsLast) (n : Nat) :
    (run Γ n m).Tidies := by
  induction n with
  | zero => exact h
  | succ n ih =>
    rw [run_succ]
    exact ih.step (hlast n)

/-! ### The continuation is stepped -/

/-- A run that evaluates nothing but placeholders, and in the end has the same code waiting. -/
def Placid (Γ : Library ω) (m m' : Machine ω) : Prop :=
  ∃ d, run Γ d m = m' ∧ m'.fibers.resumers = m.fibers.resumers ∧
    ∀ j ≤ d, ∀ c, (run Γ j m).Evaluates c → ∃ w, c = .done w

namespace Placid

variable {m' m'' : Machine ω}

theorem refl (h : ∀ c, m.Evaluates c → ∃ w, c = .done w) : Placid Γ m m :=
  ⟨0, rfl, rfl, fun j hj => by
    obtain rfl := Nat.le_zero.mp hj
    exact h⟩

theorem trans (h : Placid Γ m m') (h' : Placid Γ m' m'') : Placid Γ m m'' := by
  obtain ⟨d, rfl, hresumers, hd⟩ := h
  obtain ⟨d', rfl, hresumers', hd'⟩ := h'
  refine ⟨d + d', run_add .., hresumers'.trans hresumers, fun j hj => ?_⟩
  rcases Nat.le_total j d with hle | hle
  · exact hd j hle
  · obtain ⟨i, rfl⟩ := Nat.exists_eq_add_of_le hle
    rw [run_add]
    exact hd' i (by omega)

/-- One step, from a state that evaluates nothing else. -/
theorem step (h : ∀ c, m.Evaluates c → ∃ w, c = .done w)
    (h' : ∀ c, (m.step Γ).Evaluates c → ∃ w, c = .done w)
    (hresumers : (m.step Γ).fibers.resumers = m.fibers.resumers) : Placid Γ m (m.step Γ) := by
  refine ⟨1, run_succ .., hresumers, fun j hj => ?_⟩
  match j, hj with
  | 0, _ => exact h
  | 1, _ =>
    rw [run_succ]
    exact h'

/-- What is being released is released, and nothing else happens. -/
theorem drain (h : ∀ c, m.control = .eval c → ∃ w, c = .done w) :
    ∃ m', Placid Γ m m' ∧ m'.releasing = [] ∧ m'.stack = m.stack ∧ m'.control = m.control ∧
      m'.pending = m.pending := by
  induction hburden : m.burden using Nat.strong_induction_on generalizing m with
  | _ n ih =>
    cases hreleasing : m.releasing with
    | nil => exact ⟨m, .refl fun c hc => h c hc.2, hreleasing, rfl, rfl, rfl⟩
    | cons x hs =>
      have hstep : m.step Γ = ({ m with releasing := hs } : Machine ω).releaseOne x :=
        step_releasing hreleasing
      have hcontrol : (m.step Γ).control = m.control := by rw [hstep, releaseOne_control]
      have hstack : (m.step Γ).stack = m.stack := by rw [hstep, (releaseOne_same _ _).1]
      have hpending : (m.step Γ).pending = m.pending := by rw [hstep, pending_releaseOne]
      have hresumers : (m.step Γ).fibers.resumers = m.fibers.resumers := by
        rw [hstep, (releaseOne_same _ _).2.1]
      have hless : (m.step Γ).burden < n := by
        rw [hstep, ← hburden]
        exact burden_releaseOne hreleasing
      have h' : ∀ c, (m.step Γ).control = .eval c → ∃ w, c = .done w := hcontrol ▸ h
      obtain ⟨m', hplacid, hdone, hstack', hcontrol', hpending'⟩ := ih _ hless h' rfl
      have hone : Placid Γ m (m.step Γ) :=
        step (fun c hc => h c hc.2) (fun c hc => h' c hc.2) hresumers
      exact ⟨m', hone.trans hplacid, hdone,
        hstack'.trans hstack, hcontrol'.trans hcontrol, hpending'.trans hpending⟩

end Placid

/-- The slot is empty, and the continuation is about to be stepped by the loop on top. -/
structure Hand (m : Machine ω) (k : Cont ω) (R : List (Activation ω)) : Prop where
  releasing : m.releasing = []
  control : m.control = .deliver (.tail k)
  stack : m.stack = R
  pending : m.pending = none

theorem placid_settle {kept : List Holding} {m' : Machine ω} {v : Value}
    (hpending : m'.pending = some k) (hstep : m.step Γ = m'.settle k.answer v kept)
    (hfibers : m'.fibers = m.fibers) (hm : ∀ c, m.control ≠ .eval c) :
    ∃ m'', Placid Γ m m'' ∧ m''.Hand k m'.stack := by
  have hsettled : m'.settle k.answer v kept = (({ m' with pending := none } : Machine ω).release
      (v.owned.map .asset ++ kept)).goOn (.deliver (.tail k)) := by
    simp only [settle, hpending, if_pos]
  rw [hsettled] at hstep
  have hquiet : ∀ c, (m.step Γ).control = .eval c → ∃ w, c = .done w := by simp [hstep, goOn]
  obtain ⟨m'', hplacid, hreleasing, hstack, hcontrol, hnone⟩ := Placid.drain (Γ := Γ) hquiet
  have hone : Placid Γ m (m.step Γ) := by
    refine .step (fun c hc => absurd hc.2 (hm c)) (fun c hc => hquiet c hc.2) ?_
    rw [hstep]
    exact congrArg Fibers.resumers hfibers
  refine ⟨m'', hone.trans hplacid, hreleasing, ?_, ?_, ?_⟩
  · rw [hcontrol, hstep]
    rfl
  · rw [hstack, hstep]
    rfl
  · rw [hnone, hstep]
    rfl

/-- Before a value is given, everything is released. -/
theorem placid_ret (hcontrol : m.control = .eval (.done v) ∨ m.control = .ret v) :
    ∃ m', Placid Γ m m' ∧ m'.releasing = [] ∧ m'.stack = m.stack ∧ m'.control = .ret v ∧
      m'.pending = m.pending := by
  have hquiet : ∀ c, m.control = .eval c → ∃ w, c = .done w := by
    rcases hcontrol with hcontrol | hcontrol <;> simp [hcontrol]
  obtain ⟨m', hplacid, hreleasing, hstack, hcontrol', hpending⟩ := Placid.drain (Γ := Γ) hquiet
  rcases hcontrol with hcontrol | hcontrol
  · have hstep : m'.step Γ = m'.goOn (.ret v) := by
      simp only [step, hreleasing, hcontrol'.trans hcontrol, eval]
    have hafter : ∀ c, ¬ (m'.step Γ).Evaluates c := by
      rintro c ⟨-, hc⟩
      simp [hstep, goOn] at hc
    have hone : Placid Γ m' (m'.step Γ) :=
      .step (fun c hc => hquiet c (hcontrol' ▸ hc.2)) (fun c hc => absurd hc (hafter c))
        (by rw [hstep]; rfl)
    refine ⟨m'.step Γ, hplacid.trans hone, ?_⟩
    rw [hstep]
    exact ⟨hreleasing, hstack, rfl, hpending⟩
  · exact ⟨m', hplacid, hreleasing, hstack, hcontrol'.trans hcontrol, hpending⟩

/-- Once its placeholder was passed on, the continuation in the slot is stepped by the loop that
waits for the answer. -/
theorem placid_passing (hpending : m.pending = some k)
    (hcontrol : m.control = .eval (.done v) ∨ m.control = .ret v)
    (hcloses : Closes k.answer v m.stack R) : ∃ m', Placid Γ m m' ∧ m'.Hand k R := by
  induction hlength : m.stack.length using Nat.strong_induction_on generalizing m v with
  | _ n ih =>
  obtain ⟨m₁, hplacid, hreleasing, hstack, hcontrol₁, hpending₁⟩ := placid_ret (Γ := Γ) hcontrol
  replace hpending₁ := hpending₁.trans hpending
  have hnothing : ∀ c, ¬ m₁.Evaluates c := by
    rintro c ⟨-, hc⟩
    simp [hcontrol₁] at hc
  have hstep : m₁.step Γ = m₁.give Γ v := by simp only [step, hreleasing, hcontrol₁]
  rw [← hstack] at hcloses
  rcases give_closes (Γ := Γ) hcloses hcontrol₁ with
    ⟨kept, heq⟩ | ⟨kept, heq⟩ | ⟨S, os, w, c, heq, hc, hless, hrest⟩
  · rw [heq] at hstep
    have hquiet : ∀ c, (m₁.step Γ).control = .eval c → ∃ w, c = .done w := by simp [hstep, goOn]
    obtain ⟨m₂, hplacid₂, hreleasing₂, hstack₂, hcontrol₂, hpending₂⟩ :=
      Placid.drain (Γ := Γ) hquiet
    rw [hstep] at hstack₂ hcontrol₂ hpending₂
    have hsettles : m₂.step Γ = m₂.settle k.answer v [] := by
      simp only [step, hreleasing₂, hcontrol₂, goOn]
    obtain ⟨m₃, hplacid₃, hhand⟩ := placid_settle (hpending₂.trans hpending₁) hsettles rfl
      (by simp [hcontrol₂, goOn])
    have hone : Placid Γ m₁ (m₁.step Γ) :=
      .step (fun c hc => absurd hc (hnothing c)) (fun c hc => hquiet c hc.2) (by rw [hstep]; rfl)
    rw [hstack₂] at hhand
    exact ⟨m₃, ((hplacid.trans hone).trans hplacid₂).trans hplacid₃, hhand⟩
  · obtain ⟨m₂, hplacid₂, hhand⟩ := placid_settle (by exact hpending₁)
      (hstep.trans heq) rfl (by simp [hcontrol₁])
    exact ⟨m₂, hplacid.trans hplacid₂, hhand⟩
  · rw [heq] at hstep
    have hquiet : ∀ c, (m₁.step Γ).Evaluates c → ∃ w, c = .done w := by
      rintro c' ⟨-, hc'⟩
      rw [hstep] at hc'
      rcases hc with rfl | rfl
      · exact ⟨w, (Control.eval.inj hc').symm⟩
      · cases hc'
    have hshorter : (m₁.step Γ).stack.length < n := by
      rw [hstep, ← hlength, ← hstack]
      exact hless
    have hrest' : Closes k.answer w (m₁.step Γ).stack R := by rw [hstep]; exact hrest
    have hpending₂ : (m₁.step Γ).pending = some k := by rw [hstep]; exact hpending₁
    have hcontrol₂ : (m₁.step Γ).control = .eval (.done w) ∨ (m₁.step Γ).control = .ret w := by
      rw [hstep]; exact hc
    obtain ⟨m₂, hplacid₂, hhand⟩ := ih _ hshorter hpending₂ hcontrol₂ hrest' rfl
    have hone : Placid Γ m₁ (m₁.step Γ) :=
      .step (fun c hc => absurd hc (hnothing c)) hquiet (by rw [hstep]; rfl)
    exact ⟨m₂, (hplacid.trans hone).trans hplacid₂, hhand⟩

/-! ### What the slot does in a run -/

omit [Contents ω] in
/-- The slot is empty where no placeholder is on its way. -/
theorem Slot.pending_eq (h : m.Slot) (heval : ∀ w, m.control ≠ .eval (.done w))
    (hret : ∀ answer w R, m.control = .ret w → ¬ Closes answer w m.stack R)
    (hsettle : ∀ answer w, m.control ≠ .settle answer w) : m.pending = none := by
  cases h with
  | empty h => exact h
  | passing _ hcontrol hcloses =>
    rcases hcontrol with hcontrol | hcontrol
    · exact absurd hcontrol (heval _)
    · exact absurd hcloses (hret _ _ _ hcontrol)
  | settling _ hcontrol => exact absurd hcontrol (hsettle _ _)

/-- An empty slot stays empty where no tail resume is performed. -/
theorem pending_step (h : m.pending = none)
    (hm : ∀ r v next, ¬ m.Evaluates (.tailResume r v next)) : (m.step Γ).pending = none := by
  have hsettle : ∀ {m' : Machine ω} {answer v kept}, m'.pending = none →
      (m'.settle answer v kept).pending = none := by
    intro m' answer v kept h'
    simp only [settle, h']
    exact h'
  cases step_slots Γ m with
  | apart _ hapart => exact hapart.pending.trans h
  | releases hreleasing => rw [step_releasing hreleasing, pending_releaseOne]; exact h
  | tails htail => exact absurd htail (hm _ _ _)
  | settles hreleasing hcontrol =>
    simp only [step, hreleasing, hcontrol]
    exact hsettle h
  | answers _ _ _ _ hstep => rw [hstep]; exact hsettle h
  | ends hreleasing hcontrol => simp only [step, hreleasing, hcontrol]; rfl
  | ended hreleasing hcontrol => rw [step_halted hcontrol hreleasing]; exact h

/-- The slot is empty now, and after the next step. -/
def Vacant (Γ : Library ω) (m : Machine ω) : Prop := m.pending = none ∧ (m.step Γ).pending = none

theorem Tidies.vacant (h : m.Tidies) (heval : ∀ w, m.control ≠ .eval (.done w))
    (hret : ∀ answer w R, m.control = .ret w → ¬ Closes answer w m.stack R)
    (hsettle : ∀ answer w, m.control ≠ .settle answer w)
    (htail : ∀ r v next, m.control ≠ .eval (.tailResume r v next)) : m.Vacant Γ := by
  have hnone := h.slot.pending_eq heval hret hsettle
  exact ⟨hnone, pending_step hnone fun r v next hm => htail r v next hm.2⟩

/-- How a tail resume that is performed now goes on: only its placeholder is passed on, until the
loop that waits for the answer of the running code steps the continuation. -/
def StepsNext (Γ : Library ω) (m : Machine ω) (k : Cont ω) (next : Comp ω) : Prop :=
  ∃ w R d, next = .done w ∧ Closes k.answer w m.stack R ∧ Loops R ∧
    (run Γ d m).Hand k R ∧ (run Γ (d + 1) m) = (run Γ d m).stepCont k ∧
      ∀ j, 0 < j → j ≤ d → ∀ c, (run Γ j m).Evaluates c → ∃ w, c = .done w

/-- A tail resume that fills the slot as the last action of the running code goes on like that. -/
theorem tailResume_hand (hstands : m.Stands) (hempty : m.pending = none) {r : ResumptionId}
    {v w : Value} {k : Cont ω} {R : List (Activation ω)}
    (hm : m.Evaluates (.tailResume r v (.done w))) (hk : m.resumptions.find? r = some k)
    (hcloses : Closes k.answer w m.stack R) :
    ∃ d, Loops R ∧ (run Γ (d + 1) m).Hand (k.arm v) R ∧
      (run Γ (d + 1) m).fibers.resumers = m.fibers.resumers ∧
      (run Γ (d + 2) m) = (run Γ (d + 1) m).stepCont (k.arm v) ∧
      ∀ j ≤ d, ∀ c, (run Γ (j + 1) m).Evaluates c → ∃ w, c = .done w := by
  have harmed : (k.arm v).answer = k.answer := by cases k <;> rfl
  rw [← harmed] at hcloses
  have hstep : m.step Γ = ({ m with
      resumptions := m.resumptions.erase r, exchanges := k.armExchanges m.exchanges v
      counters := m.counters.bump .tailResumes, pending := some (k.arm v) } : Machine ω).goOn
        (.eval (.done w)) := by
    simp only [Machine.step, hm.1, hm.2, eval, Machine.tailResume, arm_eq hk, bump, hempty]
  have hcloses' : Closes (k.arm v).answer w (m.step Γ).stack R := by rw [hstep]; exact hcloses
  obtain ⟨m', ⟨d, hrun, hresumers, hplacid⟩, hhand⟩ := placid_passing (Γ := Γ) (m := m.step Γ)
    (v := w) (by rw [hstep]; rfl) (.inl (by rw [hstep]; rfl)) hcloses'
  have hsame : ∀ j, Machine.run Γ j (m.step Γ) = Machine.run Γ (j + 1) m := fun j => by
    rw [Nat.add_comm, run_add]
    exact congrArg (Machine.run Γ j) (run_succ 0 m).symm
  have hloops : Loops R := by
    have hawaits := (hstands.run (Γ := Γ) (d + 1)).loops
    rw [← hsame, hrun, hhand.control, hhand.stack] at hawaits
    exact hawaits rfl
  subst hrun
  rw [hsame] at hhand hresumers
  refine ⟨d, hloops, hhand, hresumers.trans (by rw [hstep]; rfl), ?_, fun j hj c hc => ?_⟩
  · obtain ⟨S, hS⟩ := hloops
    rw [run_succ]
    simp only [Machine.step, hhand.releasing, hhand.control, deliver, hhand.stack, hS]
  · rw [← hsame] at hc
    exact hplacid j hj c hc

theorem Tidies.stepsNext (h : m.Tidies) (hlast : m.TailsLast) (hstands : m.Stands)
    {r : ResumptionId} {v : Value} {next : Comp ω} {k : Cont ω}
    (hm : m.Evaluates (.tailResume r v next)) (hk : m.resumptions.find? r = some k) :
    m.StepsNext Γ (k.arm v) next := by
  have hempty : m.pending = none :=
    h.slot.pending_eq (by simp [hm.2]) (by simp [hm.2]) (by simp [hm.2])
  obtain ⟨answer, w, R, rfl, hcloses, hanswer⟩ := hlast r v next hm
  obtain rfl := hanswer k hk
  obtain ⟨d, hloops, hhand, -, hnext, hplacid⟩ :=
    tailResume_hand (Γ := Γ) hstands hempty hm hk hcloses
  have harmed : (k.arm v).answer = k.answer := by cases k <;> rfl
  refine ⟨w, R, d + 1, rfl, harmed ▸ hcloses, hloops, hhand, hnext, fun j hj hjd c hc => ?_⟩
  obtain ⟨i, rfl⟩ := Nat.exists_eq_add_of_le' hj
  exact hplacid i (by omega) c hc

/-- What becomes of the tail slot in a run. -/
structure Settles (Γ : Library ω) (m₀ : Machine ω) : Prop where
  /-- The slot is empty when a body starts. -/
  body : ∀ n body S, (run Γ n m₀).control = .wake → (run Γ n m₀).stack = .start body :: S →
    (run Γ n m₀).Vacant Γ
  clause : ∀ n e command i position, (run Γ n m₀).Starts Γ e command i position →
    (run Γ n m₀).Vacant Γ
  returnClause : ∀ n i v, (run Γ n m₀).StartsReturn Γ i v → (run Γ n m₀).Vacant Γ
  closure : ∀ n answer f arg, (run Γ n m₀).control = .deliver (.tail (.function answer f arg)) →
    (run Γ n m₀).Vacant Γ
  /-- It is empty when an invoker gets its result. -/
  result : ∀ n w v, (run Γ n m₀).Returns Γ w v → (run Γ n m₀).Vacant Γ
  /-- While it is filled, nothing is evaluated but the placeholder. -/
  filled : ∀ n c, (run Γ n m₀).Evaluates c → (run Γ n m₀).pending ≠ none → ∃ w, c = .done w
  /-- What is left to the slot is stepped next, by the loop that waits for the answer of the code
  that has left it. -/
  steps : ∀ n r v next k, (run Γ n m₀).Evaluates (.tailResume r v next) →
    (run Γ n m₀).resumptions.find? r = some k → (run Γ n m₀).StepsNext Γ (k.arm v) next
  /-- So there are no faults about the slot. -/
  occupied : ∀ n, (run Γ n m₀).control.fault? ≠ some .tailSlotOccupied
  mismatched : ∀ n expected, (run Γ n m₀).control.fault? ≠ some (.tailResumeMismatch expected)
  /-- After a handler or a resumption has answered, and wherever it is asked, nothing waits. -/
  answered : ∀ n v, (run Γ n m₀).control = .deliver (.done v) → (run Γ n m₀).Vacant Γ
  asked : ∀ n next, (run Γ n m₀).Evaluates (.ask .isPending next) →
    (run Γ n m₀).answer .isPending = (.bool false, run Γ n m₀)

/-- In every run in which every tail resume is the last action of a clause that gets back to a
driver, of a return clause or of the closure of a function resumption, the tail slot does not
outlive the code that has filled it. -/
theorem tail_slot_settles (settings : SettingsSlot) (cells : List ω) (statics : List Owned)
    (main : Comp ω) (hlast : ∀ n, (run Γ n (start settings cells statics main)).TailsLast) :
    Settles Γ (start settings cells statics main) := by
  have hstart : (start settings cells statics main).Tidies :=
    .empty rfl (by simp [start, Control.fault?])
  have htidies : ∀ n, (run Γ n (start settings cells statics main)).Tidies := hstart.run hlast
  have hstands : ∀ n, (run Γ n (start settings cells statics main)).Stands :=
    (Stands.start settings cells statics main).run
  generalize start settings cells statics main = m₀ at *
  have hvacant : ∀ n, (∀ c, (run Γ n m₀).control ≠ .eval c) →
      (∀ w, (run Γ n m₀).control ≠ .ret w) →
      (∀ answer w, (run Γ n m₀).control ≠ .settle answer w) → (run Γ n m₀).Vacant Γ :=
    fun n heval hret hsettle => (htidies n).vacant (fun _ => heval _)
      (fun _ _ _ hw => absurd hw (hret _)) hsettle fun _ _ _ => heval _
  exact
    { body := fun n body S hcontrol _ => hvacant n (by simp [hcontrol]) (by simp [hcontrol])
        (by simp [hcontrol])
      clause := fun n e command i position hstarts => by
        obtain ⟨code, -, hfrom⟩ := hstarts
        split at hfrom
        · obtain ⟨next, target, ⟨-, hcontrol⟩, -⟩ := hfrom
          exact (htidies n).vacant (by simp [hcontrol]) (by simp [hcontrol]) (by simp [hcontrol])
            (by simp [hcontrol])
        · obtain ⟨name, y, ⟨-, hcontrol⟩, -⟩ := hfrom
          exact hvacant n (by simp [hcontrol]) (by simp [hcontrol]) (by simp [hcontrol])
      returnClause := fun n i v hstarts => by
        obtain ⟨-, hcontrol, ⟨f, S, hstack⟩, -⟩ := hstarts
        refine (htidies n).vacant (by simp [hcontrol]) (fun answer w R _ hcloses => ?_)
          (by simp [hcontrol]) (by simp [hcontrol])
        rw [hstack] at hcloses
        cases hcloses
      closure := fun n answer f arg hcontrol => hvacant n (by simp [hcontrol])
        (by simp [hcontrol]) (by simp [hcontrol])
      result := fun n w v hreturns => by
        obtain ⟨-, ⟨a, hstack, hwait⟩, hcontrol, -⟩ := hreturns
        have hclosed : ∀ answer w' R, ¬ Closes answer w' (run Γ n m₀).stack R := by
          intro answer w' R hcloses
          rw [hstack] at hcloses
          cases hcloses <;> cases hwait
        split at hcontrol <;>
          exact (htidies n).vacant (by simp [hcontrol]) (fun _ _ _ _ => hclosed _ _ _)
            (by simp [hcontrol]) (by simp [hcontrol])
      filled := fun n c hm hfilled => by
        by_contra hc
        refine hfilled ((htidies n).slot.pending_eq (fun w hw => ?_) (by simp [hm.2])
          (by simp [hm.2]))
        exact hc ⟨w, Control.eval.inj (hm.2.symm.trans hw)⟩
      steps := fun n r v next k hm hk => (htidies n).stepsNext (hlast n) (hstands n) hm hk
      occupied := fun n hfault => by cases (htidies n).fault _ hfault
      mismatched := fun n expected hfault => by cases (htidies n).fault _ hfault
      answered := fun n v hcontrol => hvacant n (by simp [hcontrol]) (by simp [hcontrol])
        (by simp [hcontrol])
      asked := fun n next hm => by
        have hnone := (htidies n).slot.pending_eq (by simp [hm.2]) (by simp [hm.2]) (by simp [hm.2])
        simp [answer, hnone] }

/-- A library with one handler type, whose clause resumes in tail position. -/
def forwarder : Library Unit where
  handlerType _ :=
    { answer := "i64"
      clauses := [⟨"Ask", .resumptive fun _ _ r => .tailResume r (.int 2) (.done .unit)⟩] }

/-- The clause of `asking` resumes in tail position after four steps. -/
theorem tail_slot_settles_forwarder :
    (run forwarder 4 (start {} [()] [] asking)).Evaluates
        (.tailResume 1 (.int 2) (.done .unit)) ∧
      Settles forwarder (start {} [()] [] asking) := by
  have hlast : ∀ n, (run forwarder n (start {} [()] [] asking)).TailsLast := by
    intro n r v next hm
    have hend : (run forwarder 31 (start {} [()] [] asking)).control =
        .halted (.finished (.int 2)) := rfl
    rcases Nat.lt_or_ge n 31 with hn | hn
    · have huses : ∀ n < 31, n ≠ 4 → (run forwarder n (start {} [()] [] asking)).uses = [] := by
        decide +kernel
      by_cases hfour : n = 4
      · subst hfour
        obtain ⟨rfl, rfl, rfl⟩ := Comp.tailResume.inj (Control.eval.inj hm.2)
        refine ⟨"i64", .unit, _, rfl, .owning .clause, fun k hk => ?_⟩
        cases hk
        rfl
      · have hnone := huses n hn hfour
        simp [uses, hm.1, hm.2, Comp.uses] at hnone
    · obtain ⟨d, rfl⟩ := Nat.exists_eq_add_of_le hn
      have hcontrol := hm.2
      rw [run_add, control_run_halted hend d] at hcontrol
      cases hcontrol
  exact ⟨⟨rfl, rfl⟩, tail_slot_settles {} [()] [] asking hlast⟩

/-- A library with one handler type, whose plain clause makes a function resumption and resumes it
in tail position. -/
def stashing : Library Unit where
  handlerType _ :=
    { answer := "i64"
      clauses := [⟨"Ask", .plain fun _ _ => .closure [] .done fun f => .function "i64" f fun r =>
        .tailResume r (.int 5) (.done (.int 0))⟩] }

/-- A program that sends a command, and then asks whether a tail resume waits. -/
def noticing : Comp Unit :=
  .handle { handlerType := "Stashing", handler := 1 }
    (fun _ => .invoke .innermost { name := "Ask" } fun v => .ask .isPending fun p =>
      .done (.pair v p)) .done

/-- A plain clause does not give its answer back to a driver. Its tail resume is its last action,
but the invoker gets the placeholder, and goes on while the slot is filled. In the end the value of
the continuation takes the place of the answer of another driver. -/
theorem plain_tail_outlives :
    (∃ r, (run stashing 5 (start {} [()] [] noticing)).Evaluates
        (.tailResume r (.int 5) (.done (.int 0)))) ∧
      (∃ w, (run stashing 8 (start {} [()] [] noticing)).Returns stashing w (.int 0)) ∧
      (run stashing 8 (start {} [()] [] noticing)).pending ≠ none ∧
      (∃ next, (run stashing 14 (start {} [()] [] noticing)).Evaluates (.ask .isPending next)) ∧
      ((run stashing 14 (start {} [()] [] noticing)).answer .isPending).1 = .bool true ∧
      (run stashing 33 (start {} [()] [] noticing)).control = .halted (.finished (.int 5)) := by
  refine ⟨⟨_, rfl, rfl⟩, ⟨⟨_, true, _⟩, rfl, ⟨_, rfl, rfl⟩, rfl, rfl, rfl⟩, ?_, ⟨_, rfl, rfl⟩,
    rfl, rfl⟩
  intro hnone
  cases hnone

end Machine

end EffectHandlers
