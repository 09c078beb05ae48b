import EffectHandlers.Proofs.HonestFutures
import EffectHandlers.Proofs.Polling
import EffectHandlers.Proofs.Trust
/-!
# Every schedule

Whoever is picked from the queue, something is left to do less after each turn. So a computation that
waits for its worker ends, and what is written says so.
-/

namespace EffectHandlers.Promise

open Evaluation (Leads)
open Agenda (wakeTask exists_declare)

variable {Γ : Library Content} {R : Evaluation Content → Prop} {s : Evaluation Content}
  {F : List (Frame Content)}

/-! ### Stages -/

/-- How far the two computations have got when one of the queue is to go on. -/
inductive Stage where
  /-- Both are in the queue, with so many looks and dots left. -/
  | racing (looks dots : Nat)
  /-- The main computation waits for the worker, which has so many dots left to write. -/
  | waiting (dots : Nat)
  /-- The worker has ended, and the main computation has so many looks left or has waited. -/
  | ended (looks : Option Nat)

namespace Stage

/-- How many looks are left. -/
def looks : Stage → Nat
  | racing looks _ => looks
  | waiting _ => 0
  | ended looks => looks.getD 0

/-- How many dots are left. -/
def dots : Stage → Nat
  | racing _ dots | waiting dots => dots
  | ended _ => 0

/-- Whether the main computation has written that it waits. -/
def hasWaited : Stage → Bool
  | racing .. => false
  | waiting _ => true
  | ended looks => looks.isNone

/-- This gets smaller whenever one of the queue has gone on. -/
def left : Stage → Nat
  | racing looks dots => looks + dots + 2
  | waiting dots => dots + 1
  | ended _ => 0

/-- Who is where. -/
inductive Places (b : Board) (resumptions : Store (Continuation Content)) : Stage → Prop
  | racing {looks dots : Nat} {ρ ρ' : ResumptionId}
      (hqueue : b.queue = [ρ, ρ'] ∨ b.queue = [ρ', ρ]) (hresult : b.result = {})
      (hmain : resumptions.find? ρ = some (mainKont (some looks)))
      (hworker : resumptions.find? ρ' = some (workKont b.seat dots))
      (hfresh : b.seat = none → dots = 30) : Places b resumptions (.racing looks dots)
  | waiting {dots : Nat} {ρ ρ' : ResumptionId} (hqueue : b.queue = [ρ'])
      (hresult : b.result = { waiting := [ρ] })
      (hmain : resumptions.find? ρ = some (mainKont none))
      (hworker : resumptions.find? ρ' = some (workKont b.seat dots))
      (hfresh : b.seat = none → dots = 30) : Places b resumptions (.waiting dots)
  | ended {looks : Option Nat} {ρ : ResumptionId} (hqueue : b.queue = [ρ])
      (hresult : b.result = { value := some (.int 100) })
      (hmain : resumptions.find? ρ = some (mainKont looks)) : Places b resumptions (.ended looks)

end Stage

/-- One of the queue is to go on, above frames that pass the answer on. -/
structure At (F : List (Frame Content)) (σ : Stage) (s : Evaluation Content) : Prop where
  places : ∃ b looks dots, Board.Keeps b s ∧ σ.Places b s.resumptions ∧ 1 ≤ looks ∧
    looks + σ.looks = 5 ∧ dots + σ.dots = 30 ∧
    Tells b.text dots (told looks ++ if σ.hasWaited then "\n[I'd better wait]" else "")
  frames : ∃ F', Relays F F' ∧ s.frames = .answering "()" :: F'

variable {σ : Stage} {ρ ρ' : ResumptionId} {looks dots : Nat}

/-- Which of two is picked. -/
theorem pick_pair {l : List ResumptionId} {n : Nat} {x : ResumptionId}
    (hl : l = [ρ, ρ'] ∨ l = [ρ', ρ]) (hn : l[n]? = some x) :
    (x = ρ ∧ l.eraseIdx n = [ρ']) ∨ (x = ρ' ∧ l.eraseIdx n = [ρ]) := by
  rcases hl with rfl | rfl <;> match n with
  | 0 => simp_all
  | 1 => simp_all
  | n + 2 => simp at hn

theorem pick_one {l : List ResumptionId} {n : Nat} {x : ResumptionId} (hl : l = [ρ])
    (hn : l[n]? = some x) : x = ρ ∧ l.eraseIdx n = [] := by
  subst hl
  match n with
  | 0 => simp_all
  | n + 1 => simp at hn

theorem mainKont_ne_workKont (looks : Option Nat) (seat : Option InstallationId) (dots : Nat) :
    mainKont looks ≠ workKont seat dots := by
  cases seat <;> simp [mainKont, workKont]

/-- The main computation goes on where it was. -/
theorem leads_mainKont {o : Option Nat}
    (hR : Leads Γ (fun _ => True) R (({ s with frames := .bind .done :: .handling 1 :: s.frames } :
      Evaluation Content).goOn (.eval (looking o)))) :
    Leads Γ (fun _ => True) R (s.goOn (.resume (mainKont o) .unit)) :=
  .enter_context trivial (.bind trivial rfl hR)

/-- The computation in which a worker is waited for, and picks are made as the seed says. -/
def demoProgram (seed : Nat) : Comp Content := Prog.toComp do
  demo seed
  return .unit

/-- What the evaluation comes to. -/
structure Returned (s : Evaluation Content) : Prop where
  phase : s.phase = .ret .unit
  frames : s.frames = []
  queue : s.cells.find? Promise.queue = some (.list [])
  text : ∃ text looks, s.cells.find? Transcript.cell = some (.value (.text text)) ∧
    1 ≤ looks ∧ looks ≤ 5 ∧
    Tells text 30 (told looks ++ "\n[I'd better wait]" ++ "\n[worker returned 100]" ++ "\n")

section Schedules

variable (hmain : Γ.handlerType (handlerName "()") = handler)
  (hworker : Γ.handlerType (handlerName "i32") = handler)

include hmain hworker

/-- One of the two goes on. -/
theorem At.leads_racing (h : At F (.racing looks dots) s)
    (hR : ∀ σ t, σ.left < (Stage.racing looks dots).left → At F σ t →
      Leads Γ (fun _ => True) R (t.goOn (.eval wakeTask.toComp))) :
    Leads Γ (fun _ => True) R (s.goOn (.eval wakeTask.toComp)) := by
  obtain ⟨⟨b, p, e, hkeeps, hplaces, hp, hlooks, hdots, htells⟩, F', hF', hframes⟩ := h
  simp only [Stage.looks, Stage.dots] at hlooks hdots
  simp only [Stage.hasWaited, Bool.false_eq_true, if_false, String.append_empty] at htells
  cases hplaces with
  | @racing _ _ ρ ρ' hqueue hresult hρ hρ' hfresh =>
  have hne : ρ ≠ ρ' := by
    rintro rfl
    exact mainKont_ne_workKont _ _ _ (Option.some.inj (hρ.symm.trans hρ'))
  have hbelow : Relays F (.bind (fun _ => .done .unit) :: .answering "()" :: F') := .drop (.answer hF')
  refine hkeeps.leads_wake ?_ (fun x hx => ?_) fun n x κ t hn hκ ht hresumptions hpicked => ?_
  · rcases hqueue with hqueue | hqueue <;> simp [hqueue]
  · rcases hqueue with hqueue | hqueue <;>
    · rw [hqueue] at hx
      simp only [List.mem_cons, List.not_mem_nil, or_false] at hx
      rcases hx with rfl | rfl
      · exact ⟨_, ‹_›⟩
      · exact ⟨_, ‹_›⟩
  rcases pick_pair hqueue hn with ⟨rfl, hrest⟩ | ⟨rfl, hrest⟩
  · obtain rfl := Option.some.inj (hκ.symm.trans hρ)
    have hother : t.resumptions.find? ρ' = some (workKont b.seat dots) := by
      rw [hresumptions, Store.find?_erase hkeeps.resumptions, if_neg hne.symm, hρ']
    rw [hrest] at hpicked
    refine leads_mainKont ?_
    cases looks with
    | zero =>
      refine Board.Keeps.leads_wait hmain { hpicked with } hresult rfl
        fun t' ρ₁ ht' hsame hρ₁ hkept => hR (.waiting dots) t' (by simp [Stage.left])
          ⟨⟨_, p, e, hkept, .waiting rfl rfl hρ₁ (hsame _ _ hother) hfresh, hp, hlooks, hdots, ?_⟩,
            _, ht ▸ hframes ▸ hbelow, ht'⟩
      exact htells.line (by decide)
    | succ looks =>
      refine Board.Keeps.leads_look hmain { hpicked with } hresult rfl
        fun t' ρ₁ ht' hsame hρ₁ hkept => hR (.racing looks dots) t' (by simp [Stage.left])
          ⟨⟨_, p + 1, e, hkept, .racing (.inr rfl) hresult hρ₁ (hsame _ _ hother) hfresh, by omega,
            by simp only [Stage.looks]; omega, hdots, ?_⟩, _, ht ▸ hframes ▸ hbelow, ht'⟩
      simp only [Stage.hasWaited, Bool.false_eq_true, if_false, String.append_empty, told_succ]
      exact htells.line (by decide)
  · obtain rfl := Option.some.inj (hκ.symm.trans hρ')
    have hother : t.resumptions.find? ρ = some (mainKont (some looks)) := by
      rw [hresumptions, Store.find?_erase hkeeps.resumptions, if_neg hne, hρ]
    rw [hrest] at hpicked
    refine Board.Keeps.leads_work (b := { b with queue := [ρ] }) hworker hpicked hfresh
      fun t' j F'' hF'' ht' hsame hstarted => ?_
    rw [← hsame] at hother
    rw [ht, hframes] at hF''
    cases dots with
    | zero =>
      exact hstarted.leads_finish hworker rfl ht' fun t'' ht'' hsame' hended =>
        hR (.ended (some looks)) t'' (by simp [Stage.left]) ⟨⟨_, p, e, hended, .ended
          (by simp [hresult]) rfl (hsame' ▸ hother), hp, hlooks, hdots,
          by simpa [Stage.hasWaited] using htells⟩,
          _, hbelow.trans hF'', ht''⟩
    | succ dots =>
      refine hstarted.leads_dot hworker rfl ht' fun t'' ρ₁ ht'' hsame' hρ₁ hkept =>
        hR (.racing looks dots) t'' (by simp [Stage.left]) ⟨⟨_, p, e + 1, hkept, .racing (.inl rfl)
          hresult (hsame' _ _ hother) hρ₁ nofun, hp, hlooks, by simp only [Stage.dots]; omega, ?_⟩,
          _, hbelow.trans hF'', ht''⟩
      simpa [Stage.hasWaited] using htells.dot

omit hmain in
/-- The worker goes on while the main computation waits. -/
theorem At.leads_waiting (h : At F (.waiting dots) s)
    (hR : ∀ σ t, σ.left < (Stage.waiting dots).left → At F σ t →
      Leads Γ (fun _ => True) R (t.goOn (.eval wakeTask.toComp))) :
    Leads Γ (fun _ => True) R (s.goOn (.eval wakeTask.toComp)) := by
  obtain ⟨⟨b, p, e, hkeeps, hplaces, hp, hlooks, hdots, htells⟩, F', hF', hframes⟩ := h
  simp only [Stage.looks, Stage.dots] at hlooks hdots
  cases hplaces with
  | @waiting _ ρ ρ' hqueue hresult hρ hρ' hfresh =>
  have hne : ρ ≠ ρ' := by
    rintro rfl
    exact mainKont_ne_workKont _ _ _ (Option.some.inj (hρ.symm.trans hρ'))
  have hbelow : Relays F (.bind (fun _ => .done .unit) :: .answering "()" :: F') := .drop (.answer hF')
  refine hkeeps.leads_wake (by simp [hqueue]) (fun x hx => ?_)
    fun n x κ t hn hκ ht hresumptions hpicked => ?_
  · rw [hqueue] at hx
    obtain rfl := List.mem_singleton.mp hx
    exact ⟨_, hρ'⟩
  obtain ⟨rfl, hrest⟩ := pick_one hqueue hn
  obtain rfl := Option.some.inj (hκ.symm.trans hρ')
  have hother : t.resumptions.find? ρ = some (mainKont none) := by
    rw [hresumptions, Store.find?_erase hkeeps.resumptions, if_neg hne, hρ]
  rw [hrest] at hpicked
  refine Board.Keeps.leads_work (b := { b with queue := [] }) hworker hpicked hfresh
    fun t' j F'' hF'' ht' hsame hstarted => ?_
  rw [← hsame] at hother
  rw [ht, hframes] at hF''
  cases dots with
  | zero =>
    exact hstarted.leads_finish hworker rfl ht' fun t'' ht'' hsame' hended =>
      hR (.ended none) t'' (by simp [Stage.left]) ⟨⟨_, p, e, hended, .ended (by simp [hresult]) rfl
        (hsame' ▸ hother), hp, hlooks, hdots, htells⟩, _, hbelow.trans hF'', ht''⟩
  | succ dots =>
    refine hstarted.leads_dot hworker rfl ht' fun t'' ρ₁ ht'' hsame' hρ₁ hkept =>
      hR (.waiting dots) t'' (by simp [Stage.left]) ⟨⟨_, p, e + 1, hkept, .waiting rfl hresult
        (hsame' _ _ hother) hρ₁ nofun, hp, hlooks, by simp only [Stage.dots]; omega, ?_⟩,
        _, hbelow.trans hF'', ht''⟩
    exact htells.dot

omit hworker in
/-- The main computation gets the result that is there. -/
theorem At.leads_ended {o : Option Nat} (h : At F (.ended o) s)
    (hR : ∀ t w, Over F t → Leads Γ (fun _ => True) R (t.goOn (.ret w))) :
    Leads Γ (fun _ => True) R (s.goOn (.eval wakeTask.toComp)) := by
  obtain ⟨⟨b, p, e, hkeeps, hplaces, hp, hlooks, hdots, htells⟩, F', hF', hframes⟩ := h
  simp only [Stage.looks, Stage.dots, Nat.add_zero] at hlooks hdots
  obtain rfl : e = 30 := hdots
  cases hplaces with
  | @ended _ ρ hqueue hresult hρ =>
  have hbelow : Relays F (.bind (fun _ => .done .unit) :: .answering "()" :: F') := .drop (.answer hF')
  refine hkeeps.leads_wake (by simp [hqueue]) (fun x hx => ?_)
    fun n x κ t hn hκ ht hresumptions hpicked => ?_
  · rw [hqueue] at hx
    obtain rfl := List.mem_singleton.mp hx
    exact ⟨_, hρ⟩
  obtain ⟨rfl, hrest⟩ := pick_one hqueue hn
  obtain rfl := Option.some.inj (hκ.symm.trans hρ)
  rw [hrest] at hpicked
  rw [← hframes, ← ht] at hbelow
  refine leads_mainKont ?_
  cases o with
  | some looks =>
    have htells' : Tells b.text 30 (told p) := by simpa [Stage.hasWaited] using htells
    exact Board.Keeps.leads_ready { hpicked with } (by simp [hresult]) fun cells hsaid =>
      Board.Keeps.leads_hearing hmain { hsaid with } rfl rfl hbelow ⟨hp, by omega⟩
        (htells'.line (by decide)) hR
  | none =>
    refine .read trivial hpicked.result ?_
    show Leads Γ _ R (Evaluation.goOn _ (.eval (hearing b.result.value)))
    rw [hresult]
    exact Board.Keeps.leads_hearing hmain { hpicked with } rfl rfl hbelow ⟨hp, by omega⟩ htells hR

/-- Whoever is picked, both computations get to their end. -/
theorem At.leads_over (h : At F σ s)
    (hR : ∀ t w, Over F t → Leads Γ (fun _ => True) R (t.goOn (.ret w))) :
    Leads Γ (fun _ => True) R (s.goOn (.eval wakeTask.toComp)) := by
  induction hleft : σ.left using Nat.strong_induction_on generalizing σ s with
  | _ n ih =>
    subst hleft
    cases σ with
    | racing looks dots =>
      exact h.leads_racing hmain hworker fun σ t hless ht => ih _ hless ht rfl
    | waiting dots => exact h.leads_waiting hworker fun σ t hless ht => ih _ hless ht rfl
    | ended o => exact h.leads_ended hmain hR

omit hworker in
/-- The main computation starts its worker, and looks for its result for the first time. -/
theorem leads_run {K : Value → Comp Content} (seed : Nat)
    (hR : ∀ t, At [.bind fun _ => (reportTask mainFuture).toComp, .bind K] (.racing 4 30) t →
      Leads Γ (fun _ => True) R (t.goOn (.eval wakeTask.toComp))) :
    Leads Γ (fun _ => True) R (Evaluation.start Client.cells (run "()" seed starter K)) := by
  have hcode : run "()" seed starter K =
      .write Promise.choices (.draws (some (Draws.ofSeed seed))) (.alloc (.future {}) fun future =>
        .retain (.cell future) (.scope [.cell future]
          (runInto "()" future [] starter fun _ => (reportTask future).toComp) K)) := rfl
  rw [hcode]
  generalize Draws.ofSeed seed = d
  obtain ⟨declared, hdeclare⟩ := exists_declare
    (Evaluation.start Client.cells (.done .unit)) (⟨"()", hmain⟩ : Known Γ)
  refine Leads.write (s := Evaluation.start Client.cells (.done .unit)) trivial (.alloc trivial
    (.retain trivial (.scope trivial (.alloc trivial (.handle trivial rfl hdeclare ?_)))))
  rw [starter_eq]
  refine .alloc trivial (.retain trivial (.closure trivial (.function trivial
    (Store.find?_insert_self ..) (.read trivial rfl (.write trivial (.scope trivial ?_))))))
  have hempty : ({ next := emptyResumption + 1 } : Store (Continuation Content)).WellFormed := by
    simp [Store.WellFormed]
  have hempty' : ({ next := 1 } : Store Handler).WellFormed := by simp [Store.WellFormed]
  refine Board.Keeps.leads_emit (b := ⟨"", [1], {}, none⟩) ?_ fun cells hsaid => ?_
  · refine ⟨fun x hx => ?_, ⟨d, rfl⟩, fun _ => rfl, ⟨_, rfl⟩, fun _ hj => absurd hj.symm (Option.some_ne_none _),
      Store.wellFormed_insert hempty _, Store.wellFormed_insert hempty' _, rfl⟩
    simp only [Board.contents, List.mem_cons, List.not_mem_nil, or_false] at hx
    rcases hx with rfl | rfl | rfl | rfl | rfl <;> rfl
  show Leads Γ _ R (Evaluation.goOn _ (.eval (polling 5)))
  refine hsaid.leads_look hmain rfl rfl fun t ρ ht hsame hρ hkept => hR t
    ⟨⟨_, 1, 0, hkept, .racing (.inr rfl) rfl hρ (hsame _ _ (Store.find?_insert_self ..)) fun _ => rfl,
      Nat.le_refl 1, rfl, rfl, ?_⟩, _, .base, ht⟩
  have hstart : Tells ("" ++ "[worker started]") 0 (told 0) := ⟨rfl, rfl⟩
  simp only [Stage.hasWaited, Bool.false_eq_true, if_false, String.append_empty, told_succ]
  exact hstart.line (by decide)

omit hmain hworker in
/-- The result of the run is thrown away, and the last line ends. -/
theorem Over.leads_returned {t : Evaluation Content} {w : Value}
    (h : Over [.bind fun _ => (reportTask mainFuture).toComp,
      .bind fun _ => Transcript.emit "\n" fun _ => .done .unit] t) :
    Leads Γ (fun _ => True) Returned (t.goOn (.ret w)) := by
  obtain ⟨text, looks, htext, hlooks, hlooks', htells⟩ := h.text
  refine .bind trivial h.frames ?_
  rw [reportTask_eq]
  refine .read trivial h.result (.done trivial (.bind trivial rfl (.read trivial htext
    (.write trivial (.done trivial (.here trivial ⟨rfl, rfl, ?_, _, looks, ?_, hlooks, hlooks',
      htells.line (by decide)⟩))))))
  · have hne : Promise.queue ≠ Transcript.cell := by decide
    exact (Store.find?_modify ..).trans ((if_neg hne).trans h.queue)
  · exact (Store.find?_modify ..).trans ((if_pos rfl).trans (by rw [htext]; rfl))

/-- Whatever the seed, the evaluation ends. -/
theorem leads_returned (seed : Nat) : Leads Γ (fun _ => True) Returned
    (Evaluation.start Client.cells (demoProgram seed)) :=
  leads_run hmain seed fun _ ht => ht.leads_over hmain hworker fun _ _ hover => hover.leads_returned

end Schedules

/-! ### What the thread does -/

section Orderly

theorem orderly_worker : worker.Orderly :=
  (Prog.Orderly.forEach (fun _ => (Transcript.orderly_emit _).bind fun _ => orderly_yield) _).bind
    fun _ => Prog.orderly_pure _

theorem orderly_starter : starter.Orderly := by
  refine (orderly_spawn orderly_worker).bind fun c => Prog.Orderly.scope
    ((Transcript.orderly_emit _).bind fun _ => (Prog.Orderly.forEach (fun _ => ?_) _).bind fun _ =>
      (Transcript.orderly_emit _).bind fun _ => orderly_await.bind fun v => ?_)
  · refine ((orderly_value c).bind fun _ => Prog.orderly_pure _).bind fun ready => ?_
    split
    · exact Prog.orderly_pure _
    · exact (Transcript.orderly_emit _).bind fun _ => orderly_yield
  · cases v <;> exact (Transcript.orderly_emit _).bind fun _ => Prog.orderly_pure _

theorem orderly_demo (seed : Nat) : (demo seed).Orderly :=
  (orderly_run seed orderly_starter).bind fun _ => Transcript.orderly_emit _

end Orderly

/-- What is true of a thread in which a worker is waited for, where picks are made in some way. -/
structure WorkerReturns (Γ : Library Content) (m : Machine Content) : Prop where
  /-- The thread ends, and nothing is left to be dropped. The transcript has thirty dots, and without
  them it tells that the worker was started, one to five times that there was no result yet, that the
  computation waits, and what the worker has returned. -/
  ends : ∃ n, (m.run Γ n).control = .halted (.finished .unit) ∧ (m.run Γ n).releasing = [] ∧
    ∃ text looks, (m.run Γ n).contents Transcript.cell = some (.value (.text text)) ∧
      1 ≤ looks ∧ looks ≤ 5 ∧
      Tells text 30 (told looks ++ "\n[I'd better wait]" ++ "\n[worker returned 100]" ++ "\n")

/-- Whatever the seed, the thread ends, with what the evaluation comes to in the cells that belong to the
thread as a whole. -/
theorem exists_ends_demo (hΓ : Γ.Orderly) (hmain : Γ.handlerType (handlerName "()") = handler)
    (hworker : Γ.handlerType (handlerName "i32") = handler) {settings : SettingsSlot}
    (hsize : settings.use.1.stackSize < StackPool.addressSpace) (seed : Nat) :
    ∃ n s, Returned s ∧
      ((Machine.start settings Client.cells [] (demoProgram seed)).run Γ n).control =
        .halted (.finished .unit) ∧
      ((Machine.start settings Client.cells [] (demoProgram seed)).run Γ n).releasing = [] ∧
      ∀ k ∈ kept, ((Machine.start settings Client.cells [] (demoProgram seed)).run Γ n).contents k =
        s.cells.find? k := by
  obtain ⟨t, ht, -⟩ := (leads_returned hmain hworker seed).exists_steps
  have hentrusted : Machine.Entrusted Γ regime Client.cells (demoProgram seed) :=
    { library := library_honest hmain hworker
      main := ⟨_, honest_demo seed (List.Subset.refl _) (.done rfl (.nil _))⟩
      nodup := by decide
      kept := by decide
      owned := by decide
      shape := by
        simp [Client.cells, regime, Tidy, Value.owned]
      default := rfl }
  obtain ⟨n, hends⟩ := hentrusted.ends hΓ
    ((orderly_demo seed).bind fun _ => Prog.orderly_pure _).toComp hsize ht.phase ht.frames
  exact ⟨n, _, ht, hends⟩

/-- Whatever the seed, and so whoever is picked, the worker writes all its dots, and the computation that
waits for it gets its result. -/
theorem worker_returns (hΓ : Γ.Orderly) (hmain : Γ.handlerType (handlerName "()") = handler)
    (hworker : Γ.handlerType (handlerName "i32") = handler) {settings : SettingsSlot}
    (hsize : settings.use.1.stackSize < StackPool.addressSpace) (seed : Nat) :
    WorkerReturns Γ (Machine.start settings Client.cells [] (demoProgram seed)) := by
  obtain ⟨n, t, ht, hcontrol, hreleasing, hcontents⟩ :=
    exists_ends_demo hΓ hmain hworker hsize seed
  obtain ⟨text, looks, htext, hlooks⟩ := ht.text
  exact ⟨n, hcontrol, hreleasing, text, looks, (hcontents _ (by decide)).trans htext, hlooks⟩

/-- The worker returns where picks are made as the seed one says. -/
theorem worker_returns_one :
    WorkerReturns library (Machine.start {} Client.cells [] (demoProgram 1)) :=
  worker_returns library_orderly rfl rfl (by decide) 1

end EffectHandlers.Promise
