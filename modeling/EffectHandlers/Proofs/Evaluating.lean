import EffectHandlers.Proofs.Installing
import EffectHandlers.Proofs.Resuming
/-!
# Evaluating keeps states sound

## Evaluating keeps states sound

Every operation of an orderly program leads from a sound state to a good one. Most of them only
touch cells, closures, the journal or the top of the running code; what remains are references
and resumptions, which move in the ledger but not on the chain.
-/

namespace EffectHandlers

variable {ω : Type} {Γ : Library ω} {m m' : Machine ω} {l : Layout ω} {c : Comp ω}
  {S : List (Activation ω)}

theorem Machine.agrees_retain (m : Machine ω) (o : Owned) : Agrees m (m.retain o) := by
  cases o <;> rfl

/-- The diagnostics report only uses the settings. -/
theorem Machine.agrees_reportLines (m : Machine ω) : Agrees m m.reportLines.2 := by
  have hused : Agrees m { m with pool := { m.pool with settings := m.pool.settings.use.2.1 } } := by
    simp only [Agrees, Machine.calm, SettingsSlot.use_use]
  exact (Machine.agrees_warn _ _).trans hused

theorem Machine.agrees_view (m : Machine ω) (v : View) : Agrees m (m.view v) := by
  cases v with
  | report =>
    exact m.agrees_reportLines
  | _ => rfl

theorem Machine.agrees_print (m : Machine ω) (p : Printout) : Agrees m (m.print p) := by
  cases p with
  | report =>
    exact m.agrees_reportLines
  | _ => rfl

/-- Of what continuations hold, only the captured ones hold more than assets. -/
theorem count_owned_captured {h : Holding} (hh : h.isAsset = false) (ks : List (Cont ω)) :
    ((ks.filter Cont.isCaptured).flatMap Cont.owned).count h =
      (ks.flatMap Cont.owned).count h := by
  induction ks with
  | nil => rfl
  | cons k ks ih =>
    cases k with
    | captured => simp [List.filter_cons, Cont.isCaptured, ih]
    | function => simp [Cont.isCaptured, Cont.owned, ih, hh]

namespace Sound

/-- An operation that disturbs nothing is over, and the code goes on. -/
theorem quiet (m' : Machine ω) (h : Sound Γ m l) {c₀ : Comp ω} (hcontrol : m.control = .eval c₀)
    (hagrees : Agrees m m') (hc : c.Orderly) : Good Γ (m'.goOn (.eval c)) := by
  have hsound := h.agrees hagrees
  have hcontrol' : m'.control = .eval c₀ := hagrees.control.trans hcontrol
  obtain ⟨hfront, hlifted, -, hready⟩ := hsound.of_eval hcontrol'
  obtain ⟨l', hsound'⟩ := hsound.undisturbed (m'.goOn (.eval c)) hfront hlifted
    (by rw [hcontrol']; rfl) (.of_still rfl rfl) rfl hsound.regular.closures (.eval rfl hc hready)
  exact .sound l' hsound'

/-- An operation puts activations on top of the running code. -/
theorem pushing (h : Sound Γ m l) {c₀ : Comp ω} (hcontrol : m.control = .eval c₀)
    (hS : skeleton S = skeleton m.stack) (hready : Ready S) (hc : c.Orderly) :
    ∃ l', Sound Γ { m with stack := S, control := .eval c } l' := by
  obtain ⟨hfront, hlifted, -, -⟩ := h.of_eval hcontrol
  exact h.undisturbed _ hfront hlifted (by rw [hcontrol]; rfl) (.of_still rfl rfl) hS h.regular.closures
    (.eval rfl hc hready)

/-- A computation gets a reference to an installation. -/
theorem referred (h : Sound Γ m l) {c₀ : Comp ω} (hcontrol : m.control = .eval c₀)
    {i : InstallationId} (hfound : (m.chain.installations.find? i).isSome) (hc : c.Orderly) :
    Sound Γ { m with
      references := (m.references.insert i).2
      chain := m.chain.modify i fun a => { a with shares := a.shares + 1 }
      control := .eval c } l := by
  obtain ⟨front, lifted, kept, dropped⟩ := l
  obtain ⟨hfront, hlifted, -, hready⟩ := h.of_eval hcontrol
  obtain rfl : front = m.stack := hfront
  obtain rfl : lifted = [] := hlifted
  have hconts : m.control.conts = [] := by rw [hcontrol]; rfl
  generalize hm' : ({ m with
    references := (m.references.insert i).2
    chain := m.chain.modify i fun a => { a with shares := a.shares + 1 }
    control := .eval c } : Machine ω) = m'
  have hwaiting : m'.waiting = m.waiting := by subst hm'; rfl
  have harmed : m'.armed = m.armed := by
    subst hm'
    simp only [Machine.armed, hconts]
    rfl
  have hconts' : m'.conts = m.conts := by
    have hresumptions : m'.resumptions = m.resumptions := by subst hm'; rfl
    simp only [Machine.conts, harmed, hresumptions]
  have hcount : ∀ x : Holding, ((⟨m.stack, [], kept, dropped⟩ : Layout ω).ledger m').count x =
      ((⟨m.stack, [], kept, dropped⟩ : Layout ω).ledger m).count x +
        [Holding.installation i].count x := by
    intro x
    have hreferences : m'.references.entries = (m.references.next, i) :: m.references.entries := by
      subst hm'
      rfl
    have hreleasing : m'.releasing = m.releasing := by subst hm'; rfl
    rw [Layout.count_ledger, Layout.count_ledger, hwaiting, hconts', hreferences, hreleasing]
    simp only [Layout.towers, List.map_cons, List.count_cons, List.count_nil]
    omega
  subst hm'
  exact
    { tip := .eval rfl hc hready
      placed := h.placed.modify _ (fun _ => rfl) (.inr fun _ => rfl)
      parks := h.parks
      captured := hconts' ▸ h.captured
      ready := h.ready
      resumable := h.resumable
      dropping := h.dropping
      covers := h.covers.hold hfound fun j => by
        exact Nat.le_of_eq (by rw [hcount, count_singleton_installation])
      heldOnce := h.heldOnce.mono fun e => by
        rw [hcount]
        simp
      armed := harmed ▸ h.armed
      regular :=
        { h.regular with
          conts := hconts' ▸ h.regular.conts
          declares := h.regular.declares.modify _ (fun _ => rfl) fun _ => rfl } }

/-- Continuations move between resumptions, and closures become continuations. -/
theorem restocked (h : Sound Γ m l) {c₀ : Comp ω} (hcontrol : m.control = .eval c₀)
    (resumptions : Store (Cont ω)) (closures : Store (Closure ω))
    (hcaptured : ((resumptions.entries.map (·.2)).filter Cont.isCaptured).Perm
      ((m.resumptions.entries.map (·.2)).filter Cont.isCaptured))
    (horderly : ∀ k ∈ resumptions.entries.map (·.2), k.Orderly)
    (hclosures : ∀ e ∈ closures.entries, ∀ v, (e.2.body v).Orderly) (hc : c.Orderly) :
    Sound Γ { m with resumptions, closures, control := .eval c } l := by
  obtain ⟨front, lifted, kept, dropped⟩ := l
  obtain ⟨hfront, hlifted, -, hready⟩ := h.of_eval hcontrol
  obtain rfl : front = m.stack := hfront
  obtain rfl : lifted = [] := hlifted
  generalize hm' : ({ m with resumptions, closures, control := .eval c } : Machine ω) = m'
  have hwaiting : m'.waiting = m.waiting := by subst hm'; rfl
  have harmed : m'.armed = m.armed := by
    subst hm'
    simp only [Machine.armed, hcontrol]
    rfl
  have hresumptions : m'.resumptions = resumptions := by subst hm'; rfl
  have hperm : (m'.conts.filter Cont.isCaptured).Perm (m.conts.filter Cont.isCaptured) := by
    simp only [Machine.conts, harmed, hresumptions, List.filter_append]
    exact hcaptured.append_right _
  have hcount : ∀ x : Holding, x.isAsset = false →
      ((⟨m.stack, [], kept, dropped⟩ : Layout ω).ledger m').count x =
        ((⟨m.stack, [], kept, dropped⟩ : Layout ω).ledger m).count x := by
    intro x hx
    have hreferences : m'.references = m.references := by subst hm'; rfl
    have hreleasing : m'.releasing = m.releasing := by subst hm'; rfl
    have howned : (m'.conts.flatMap Cont.owned).count x = (m.conts.flatMap Cont.owned).count x := by
      rw [← count_owned_captured hx, (hperm.flatMap_right _).count_eq, count_owned_captured hx]
    rw [Layout.count_ledger, Layout.count_ledger, hwaiting, hreferences, hreleasing, howned]
  have horderly' : ∀ k ∈ m'.conts, k.Orderly := by
    intro k hk
    simp only [Machine.conts, harmed, hresumptions] at hk
    rcases List.mem_append.mp hk with hk | hk
    · exact horderly k hk
    · exact h.regular.conts k (List.mem_append_right _ hk)
  subst hm'
  exact
    { tip := .eval rfl hc hready
      placed := h.placed
      parks := h.parks
      captured := hperm.trans h.captured
      ready := h.ready
      resumable := h.resumable
      dropping := h.dropping
      covers := h.covers.mono fun j => Nat.le_of_eq (hcount _ rfl)
      heldOnce := h.heldOnce.mono fun e => Nat.le_of_eq (hcount _ rfl)
      armed := harmed ▸ h.armed
      regular := { h.regular with conts := horderly', closures := hclosures } }

/-- Resuming leads to a good state, also when the resumption is empty. -/
theorem resume (h : Sound Γ m l) {c₀ : Comp ω} (hcontrol : m.control = .eval c₀)
    (r : ResumptionId) (v : Value) : Good Γ (m.resume r v) := by
  obtain ⟨hfront, hlifted, -, hready⟩ := h.of_eval hcontrol
  unfold Machine.resume
  cases hfound : m.resumptions.find? r with
  | none =>
    simp only [Machine.arm, hfound, Option.map_none]
    exact .fault rfl rfl
  | some k =>
    simp only [Machine.arm_eq hfound]
    refine .sound _ (h.arm hfront hlifted hfound v rfl rfl rfl rfl rfl rfl rfl (by rfl) rfl ?_
      (.deliver rfl rfl hready))
    simp only [Machine.armed, hcontrol, Control.conts, Machine.goOn, List.append_nil]
    exact List.perm_append_singleton _ _

/-- Leaving a continuation to the loop leads to a good state, also when one waits already. -/
theorem tailResume (h : Sound Γ m l) {c₀ : Comp ω} (hcontrol : m.control = .eval c₀)
    (r : ResumptionId) (v : Value) (hc : c.Orderly) : Good Γ (m.tailResume r v c) := by
  obtain ⟨hfront, hlifted, -, hready⟩ := h.of_eval hcontrol
  unfold Machine.tailResume
  cases hfound : m.resumptions.find? r with
  | none =>
    simp only [Machine.arm, hfound, Option.map_none]
    exact .fault rfl rfl
  | some k =>
    simp only [Machine.arm_eq hfound, Machine.bump]
    cases hpending : m.pending with
    | none =>
      simp only
      refine .sound _ (h.arm hfront hlifted hfound v rfl rfl rfl rfl rfl rfl rfl (by rfl) rfl ?_
        (.eval rfl hc hready))
      simp only [Machine.armed, hcontrol, hpending, Control.conts, Machine.goOn]
      exact .refl _
    | some k' => exact .fault rfl rfl

/-- Calling a closure leads to a good state, also when it was called before. -/
theorem applyClosure (h : Sound Γ m l) {c₀ : Comp ω} (hcontrol : m.control = .eval c₀)
    (f : ClosureId) (v : Value) : Good Γ (m.applyClosure f v) := by
  obtain ⟨hfront, hlifted, -, hready⟩ := h.of_eval hcontrol
  have hconts : m.control.conts = [] := by rw [hcontrol]; rfl
  unfold Machine.applyClosure
  cases hfound : m.closures.find? f with
  | none =>
    obtain ⟨l', hsound⟩ := h.undisturbed (m.goOn (.ret .unit)) hfront hlifted hconts.symm (.of_still rfl rfl) rfl
      h.regular.closures (.ret rfl hready)
    exact .sound l' hsound
  | some x =>
    have hbody := h.regular.closures _ (Store.mem_of_find? hfound) v
    obtain ⟨l', hsound⟩ := h.undisturbed
      { m with closures := m.closures.erase f, control := .eval (x.body v) } hfront hlifted
      hconts.symm (.of_still rfl rfl) rfl (fun e he => h.regular.closures e (List.mem_of_mem_eraseP he)) (.eval rfl hbody hready)
    exact .sound l' hsound

variable [Contents ω]

/-- Evaluating an operation of an orderly program leads to a good state. -/
theorem eval (h : Sound Γ m l) (hΓ : Γ.Orderly) (hcontrol : m.control = .eval c)
    (hreleasing : m.releasing = []) : Good Γ (m.eval Γ c) := by
  obtain ⟨hfront, hlifted, hc, hready⟩ := h.of_eval hcontrol
  have hconts : m.control.conts = [] := by rw [hcontrol]; rfl
  -- what comes after the operation waits for its result
  have hbind : ∀ next : Value → Comp ω, (∀ v, (next v).Orderly) →
      Ready (.bind next :: m.stack) ∧ ∃ l', Sound Γ (m.push (.bind next)) l' := by
    intro next hnext
    have hready' : Ready (.bind next :: m.stack) := .inner hnext hready
    obtain ⟨l', hsound⟩ := h.pushing hcontrol (by simp [skeleton_cons, Activation.isInert])
      hready' hc
    refine ⟨hready', l', hsound.agrees ?_⟩
    simp only [Agrees, Machine.calm, Machine.push, hcontrol]
  unfold Machine.eval
  cases c with
  | done v =>
    obtain ⟨l', hsound⟩ := h.undisturbed (m.goOn (.ret v)) hfront hlifted hconts.symm (.of_still rfl rfl) rfl
      h.regular.closures (.ret rfl hready)
    exact .sound l' hsound
  | panic | pushBare | popBare => exact hc.elim
  | record e next => exact h.quiet (m.record e) hcontrol rfl hc
  | alloc content next =>
    exact h.quiet { m with cells := (m.cells.insert ⟨content, 1⟩).2 } hcontrol rfl (hc _)
  | read cell next => exact h.quiet m hcontrol rfl (hc _)
  | write cell content next =>
    exact h.quiet { m with cells := m.cells.modify cell fun s => { s with content } } hcontrol rfl hc
  | retain o next => exact h.quiet _ hcontrol (m.agrees_retain o) hc
  | release os next =>
    obtain ⟨l', hsound⟩ := h.undisturbed ((m.discard os).goOn (.eval next)) hfront hlifted
      hconts.symm ⟨rfl, [], os, _, rfl, rfl⟩ rfl h.regular.closures (.eval rfl hc hready)
    exact .sound l' hsound
  | scope os body next =>
    obtain ⟨l', hsound⟩ := h.pushing hcontrol (S := .owning os :: .bind next :: m.stack)
      (by simp [skeleton_cons, Activation.isInert]) (.inner trivial (hbind next hc.2).1) hc.1
    exact .sound l' hsound
  | catching body next =>
    obtain ⟨l', hsound⟩ := h.pushing hcontrol (S := .catching next :: m.stack)
      (by simp [skeleton_cons, Activation.isInert]) (.inner hc.2 hready) hc.1
    exact .sound l' hsound
  | loop seed body next =>
    obtain ⟨l', hsound⟩ := h.pushing hcontrol (S := .looping body next :: m.stack)
      (by simp [skeleton_cons, Activation.isInert]) (.inner hc hready) (hc.1 seed)
    exact .sound l' hsound
  | call procedure arg next =>
    obtain ⟨l', hsound⟩ := h.pushing hcontrol (S := .bind next :: m.stack)
      (by simp [skeleton_cons, Activation.isInert]) (hbind next hc).1 (hΓ.procedure procedure arg)
    exact .sound l' hsound
  | closure owned body next =>
    obtain ⟨l', hsound⟩ := h.undisturbed
      { m with
        closures := (m.closures.insert ⟨owned, body⟩).2
        control := .eval (next m.closures.next) }
      hfront hlifted hconts.symm (.of_still rfl rfl) rfl
      (by
        intro e he
        rcases List.mem_cons.mp he with rfl | he
        · exact hc.1
        · exact h.regular.closures e he)
      (.eval rfl (hc.2 _) hready)
    exact .sound l' hsound
  | apply f arg next =>
    obtain ⟨l', hsound⟩ := (hbind next hc).2
    exact hsound.applyClosure hcontrol f arg
  | handle i body next =>
    obtain ⟨hready', l', hsound⟩ := hbind next hc.2
    obtain ⟨hfront', hlifted', -, -⟩ := hsound.of_eval hcontrol
    exact hsound.install hfront' hlifted' hready' hconts i hc.1
  | invoke target command next =>
    simp only
    cases hdispatch : m.chain.dispatch m.referent command.name target with
    | error f => exact .fault rfl (Chain.dispatch_eq_error hdispatch)
    | ok found =>
      obtain ⟨i, entry⟩ := found
      obtain ⟨hlive, hclause⟩ := h.placed.reads.of_dispatch hdispatch
      obtain ⟨hready', l', hsound⟩ := hbind next hc
      obtain ⟨hfront', hlifted', -, -⟩ := hsound.of_eval hcontrol
      exact hsound.send hΓ hfront' hlifted' hready' hconts hreleasing
        (h.placed.reads.live_eq ▸ hlive) hclause
  | find search next =>
    simp only
    cases hlocate : m.chain.locate search with
    | error f => exact .fault rfl (Chain.locate_eq_error hlocate)
    | ok i =>
      have hlive : i ∈ m.chain.live := h.placed.reads.live_eq ▸ h.placed.reads.of_locate hlocate
      obtain ⟨-, -, -, -, hfound⟩ := h.driver_waits hfront hready hlive
      exact .sound l (h.referred hcontrol hfound (hc _))
  | copy r next =>
    simp only
    cases hfound : m.references.find? r with
    | none =>
      exact h.quiet { m with references := { m.references with next := m.references.next + 1 } }
        hcontrol rfl (hc _)
    | some i =>
      have hmem : Holding.installation i ∈ l.ledger m :=
        List.mem_append_right _ (List.mem_map.mpr ⟨_, Store.mem_of_find? hfound, rfl⟩)
      exact .sound l (h.referred hcontrol (h.covers.found hmem) (hc _))
  | function answer f next =>
    simp only
    cases hfound : m.closures.find? f with
    | none => exact h.quiet m.unusable.2 hcontrol rfl (hc _)
    | some x =>
      refine .sound l (h.restocked hcontrol _ _ (by simp [Store.insert, Cont.isCaptured]) ?_
        (fun e he => h.regular.closures e (List.mem_of_mem_eraseP he)) (hc _))
      intro k hk
      rcases List.mem_cons.mp hk with rfl | hk
      · exact h.regular.closures _ (Store.mem_of_find? hfound)
      · exact h.regular.conts k (List.mem_append_left _ hk)
  | take r next =>
    simp only
    cases hfound : m.resumptions.find? r with
    | none => exact h.quiet m.unusable.2 hcontrol rfl (hc _)
    | some k =>
      have hperm := (Store.entries_perm_erase hfound).map (·.2)
      refine .sound l (h.restocked hcontrol _ _ (hperm.symm.filter _) ?_ h.regular.closures (hc _))
      intro k' hk'
      exact h.regular.conts k' (List.mem_append_left _ (hperm.mem_iff.mpr hk'))
  | resume r v next =>
    obtain ⟨l', hsound⟩ := (hbind next hc).2
    exact hsound.resume hcontrol r v
  | tailResume r v next => exact h.tailResume hcontrol r v hc
  | ask q next =>
    cases q with
    | freshLabel => exact (h.relabel m.chain.freshLabel.2.nextLabel).quiet _ hcontrol rfl (hc _)
    | _ => exact h.quiet m hcontrol rfl (hc _)
  | view v next => exact h.quiet _ hcontrol (m.agrees_view v) hc
  | print p next => exact h.quiet _ hcontrol (m.agrees_print p) hc

end Sound

end EffectHandlers

/-!
## Sound runs

A thread starts in a sound state, every step of a sound state leads to a good one, and so does a
run of any length. In a good state no invariant of the runtime is broken.
-/

namespace EffectHandlers

variable {ω : Type} {Γ : Library ω} {m : Machine ω} {l : Layout ω}

/-- The chain of a new thread is empty. -/
theorem Placed.initial : Placed Chain.initial ([] : List (Activation ω)) [] where
  wellFormed := Store.wellFormed_insert Store.wellFormed_empty _
  positive := Nat.zero_lt_one
  bottom := rfl
  live := rfl
  hides := trivial
  fits k hk := absurd hk (by simp)
  nodup := .nil
  nonzero := by simp [driven, drivers]
  found i hi := by simp [driven, drivers] at hi

/-- A new thread is in a sound state. -/
theorem Sound.start {settings : SettingsSlot} {main : Comp ω} (cells : List ω)
    (statics : List Owned) (hmain : main.Orderly)
    (hsize : settings.use.1.stackSize + StackPool.margin < Word.count) :
    Sound Γ (Machine.start settings cells statics main) ⟨[], [], [], []⟩ where
  tip := .eval rfl hmain .nil
  placed := Placed.initial
  parks :=
    { entries := .nil
      wellFormed := Store.wellFormed_empty
      distinct := .nil
      issued := by simp [Machine.start]
      waiters := .native }
  captured := .nil
  ready := by simp [Layout.towers]
  resumable := by simp
  dropping := .nil
  covers i := by
    cases i <;> simp [Layout.ledger, Layout.code, Layout.towers, Machine.waiting, Machine.conts,
      Machine.armed, Machine.start, Control.conts, Chain.links, Chain.belows, Chain.shares,
      Chain.initial, Store.ofList, Store.insert, Store.empty, Store.find?, Installation.bottom]
  heldOnce e := by
    simp [Layout.ledger, Layout.code, Layout.towers, Machine.waiting, Machine.conts,
      Machine.armed, Machine.start, Control.conts]
  armed := by simp [Machine.armed, Machine.start, Control.conts]
  regular :=
    { exchanges := Store.wellFormed_empty
      closures := by simp [Machine.start]
      conts := by simp [Machine.conts, Machine.armed, Machine.start, Control.conts]
      declares := by
        intro i a hi ha
        have hmem := Store.mem_of_find? ha
        simp [Machine.start, Chain.initial, Store.ofList, Store.insert, Store.empty, hi] at hmem
      stackSize := hsize }

variable [Contents ω]

namespace Machine

/-- Releasing does not change how control goes on. -/
theorem releaseOne_control (m : Machine ω) (x : Holding) :
    (m.releaseOne x).control = m.control := by
  cases x with
  | asset o =>
    cases o with
    | cell c =>
      simp only [releaseOne, releaseAsset, releaseCell]
      split
      · rfl
      · split <;> rfl
    | notice n => rfl
    | _ =>
      simp only [releaseOne, releaseAsset]
      split <;> rfl
  | installation i =>
    simp only [releaseOne, releaseInstallation]
    split
    · rfl
    · split <;> rfl
  | fiber f =>
    simp only [releaseOne]
    split <;> rfl
  | exchange e =>
    simp only [releaseOne]
    split <;> rfl

/-- While something is left to release, control stays. -/
theorem step_releasing {x : Holding} {hs : List Holding} (h : m.releasing = x :: hs) :
    m.step Γ = ({ m with releasing := hs } : Machine ω).releaseOne x := by
  simp only [step, h]

end Machine

/-- A sound state takes a step to a good one. -/
theorem Sound.step (h : Sound Γ m l) (hΓ : Γ.Orderly) : Good Γ (m.step Γ) := by
  cases hreleasing : m.releasing with
  | cons x hs =>
    rw [Machine.step_releasing hreleasing]
    obtain ⟨l', hsound⟩ := h.releaseOne hreleasing
    exact .sound l' hsound
  | nil =>
    unfold Machine.step
    simp only [hreleasing]
    cases hcontrol : m.control with
    | eval c => exact h.eval hΓ hcontrol hreleasing
    | ret v => exact h.give hΓ hcontrol
    | deliver s => exact h.deliver hcontrol hreleasing
    | settle answer v =>
      obtain ⟨hfront, hlifted, S, hstack, hS⟩ := h.of_settle hcontrol
      have hnone : ∀ a ∈ ([] : List (Activation ω)), a.Answers := by simp
      have hsettle := h.settle hfront hlifted hnone hstack hS (by rw [hcontrol]; rfl)
        (show ([] : List Holding).filterMap Holding.fiber? = [] from rfl) (by simp) answer v
      rwa [← hstack] at hsettle
    | request r => exact h.forward hΓ hcontrol
    | wake => exact h.wake hcontrol
    | unwind message | fault f | halted o => exact absurd h.tip.allows (by simp [hcontrol])

/-- A good state takes a step to a good one. -/
theorem Good.step (h : Good Γ m) (hΓ : Γ.Orderly) : Good Γ (m.step Γ) := by
  cases hreleasing : m.releasing with
  | cons x hs =>
    have hcontrol' : (m.step Γ).control = m.control := by
      rw [Machine.step_releasing hreleasing, Machine.releaseOne_control]
    cases h with
    | sound l hsound => exact hsound.step hΓ
    | fault hcontrol hf => exact .fault (hcontrol'.trans hcontrol) hf
    | halted hcontrol ho => exact .halted (hcontrol'.trans hcontrol) ho
  | nil =>
    cases h with
    | sound l hsound => exact hsound.step hΓ
    | fault hcontrol hf =>
      simp only [Machine.step, hreleasing, hcontrol]
      exact .halted rfl hf
    | halted hcontrol ho =>
      simp only [Machine.step, hreleasing, hcontrol]
      exact .halted hcontrol ho

/-- A run of a good state is good at any time. -/
theorem Good.run (n : Nat) (h : Good Γ m) (hΓ : Γ.Orderly) : Good Γ (Machine.run Γ n m) := by
  induction n generalizing m with
  | zero => exact h
  | succ n ih =>
    unfold Machine.run
    split
    · exact h
    · exact ih (h.step hΓ)

end EffectHandlers
