import EffectHandlers.Proofs.Seats
/-!
# Answers go to loops

What a driver, a clause, a return clause or the closure of a function resumption gives back is a
step for the loop that it stands on. So the loop that waits for the answer of a clause is the one
that steps what the clause leaves to it.
-/

namespace EffectHandlers

variable {ω : Type} {Γ : Library ω} {S : List (Activation ω)} {fs fs' : Fibers (List (Activation ω))}
  {f : FiberId}

/-- What gives back an answer. -/
def Activation.answers : Activation ω → Bool
  | .driving .. | .clause .. | .returning .. | .calling .. => true
  | _ => false

/-- The top of this code is a loop that waits for a step. -/
def Loops (S : List (Activation ω)) : Prop := ∃ S', S = .stepping :: S'

/-- Whatever gives back an answer stands on a loop. -/
def Standing : List (Activation ω) → Prop
  | [] => True
  | a :: S => (a.answers = true → Loops S) ∧ Standing S

theorem Standing.cons {a : Activation ω} (h : Standing S) (ha : a.answers = false) :
    Standing (a :: S) := ⟨by simp [ha], h⟩

/-- An activation that gives back an answer may stand on a loop. -/
theorem Standing.answering (h : Standing S) (hS : Loops S) (a : Activation ω) :
    Standing (a :: S) := ⟨fun _ => hS, h⟩

theorem Standing.loop (h : Standing S) : Standing (.stepping :: S) := h.cons rfl

/-! ### Fibers -/

namespace Fibers

/-- Answers go to loops in all code but the running one. -/
structure Standing (fs : Fibers (List (Activation ω))) : Prop where
  resumers : ∀ r ∈ fs.resumers, EffectHandlers.Standing r.code
  parked : ∀ f S, (f, S) ∈ fs.parked.entries → EffectHandlers.Standing S

theorem Standing.resume (h : fs.Standing) {T : List (Activation ω)}
    (hT : EffectHandlers.Standing T) (hresume : fs.resume? f T = some (S, fs')) :
    fs'.Standing ∧ EffectHandlers.Standing S := by
  obtain ⟨S', hS, heq⟩ := Option.map_eq_some_iff.mp hresume
  obtain ⟨rfl, rfl⟩ := Prod.mk.inj heq
  refine ⟨⟨fun r hr => ?_, fun g S'' hmem => ?_⟩, h.parked f S' (Store.mem_of_find? hS)⟩
  · rcases List.mem_cons.mp hr with rfl | hr
    · exact hT
    · exact h.resumers r hr
  · exact h.parked g S'' (List.mem_of_mem_eraseP hmem)

theorem Standing.handBack (h : fs.Standing) (hback : fs.handBack? = some (S, fs')) :
    fs'.Standing ∧ EffectHandlers.Standing S := by
  unfold handBack? at hback
  split at hback
  · cases hback
  · rename_i r rest hresumers
    obtain ⟨rfl, rfl⟩ := Prod.mk.inj (Option.some.inj hback)
    have hall := h.resumers
    rw [hresumers] at hall
    exact ⟨⟨fun r' hr' => hall r' (List.mem_cons_of_mem _ hr'), h.parked⟩,
      hall r List.mem_cons_self⟩

theorem Standing.suspend (h : fs.Standing) {running : List (Activation ω)}
    (hrunning : EffectHandlers.Standing running) (hsuspend : fs.suspend? running = some (S, fs')) :
    fs'.Standing ∧ EffectHandlers.Standing S := by
  obtain ⟨g, -, hback⟩ := Option.bind_eq_some_iff.mp hsuspend
  have hparked : Standing { fs with
      parked := ⟨fs.parked.next, (g, running) :: fs.parked.entries⟩ } :=
    ⟨h.resumers, fun g' S' hmem => by
      rcases List.mem_cons.mp hmem with heq | hmem
      · obtain ⟨rfl, rfl⟩ := Prod.mk.inj heq
        exact hrunning
      · exact h.parked g' S' hmem⟩
  exact hparked.handBack hback

theorem Standing.drop (h : fs.Standing) (hdrop : fs.drop? f = some (S, fs')) : fs'.Standing := by
  obtain ⟨S', -, heq⟩ := Option.map_eq_some_iff.mp hdrop
  obtain ⟨rfl, rfl⟩ := Prod.mk.inj heq
  exact ⟨h.resumers, fun g S'' hmem => h.parked g S'' (List.mem_of_mem_eraseP hmem)⟩

end Fibers

/-! ### Threads -/

/-- Control that is about to give a step to the loop on top. -/
def Control.steps : Control ω → Bool
  | deliver _ | settle .. => true
  | _ => false

namespace Machine

variable {m : Machine ω}

/-- Answers go to loops. -/
structure Stands (m : Machine ω) : Prop where
  fibers : m.fibers.Standing
  stack : Standing m.stack
  loops : m.control.steps = true → Loops m.stack

namespace Stands

theorem quiet (hfibers : m.fibers.Standing) (hstack : Standing m.stack)
    (hcontrol : m.control.steps = false) : m.Stands := ⟨hfibers, hstack, by simp [hcontrol]⟩

theorem enter (h : m.fibers.Standing) (hstack : Standing m.stack) (hloops : Loops m.stack)
    (i : InstallationId) (f : FiberId) : (m.enter i f).Stands := by
  unfold Machine.enter
  split
  · rename_i S fs hresume
    obtain ⟨hfibers, hS⟩ := h.resume (hstack.answering hloops _) hresume
    exact quiet hfibers hS rfl
  · exact quiet h hstack rfl

theorem stepCont (h : m.fibers.Standing) (hstack : Standing m.stack) (hloops : Loops m.stack)
    (k : Cont ω) : (m.stepCont k).Stands := by
  cases k with
  | captured answer f s e =>
    exact enter (m := { m.trace _ with chain := m.chain.splice s }) h hstack hloops s.lowest f
  | function answer g arg =>
    cases arg with
    | none => exact quiet h hstack rfl
    | some v => exact quiet h (hstack.answering hloops _) rfl

theorem settle (h : m.fibers.Standing) (hstack : Standing m.stack) (hloops : Loops m.stack)
    (answer : String) (v : Value) (kept : List Holding) : (m.settle answer v kept).Stands := by
  unfold Machine.settle
  split
  · exact ⟨h, hstack, fun _ => hloops⟩
  · simp only
    split
    · exact ⟨h, hstack, fun _ => hloops⟩
    · exact quiet h hstack rfl

theorem capture (h : m.fibers.Standing) (hstack : Standing m.stack) (hloops : Loops m.stack)
    (i : InstallationId) (f : FiberId) (r : Request) : (m.capture Γ i f r).Stands := by
  rcases capture_cases (Γ := Γ) m i f r with ⟨text, heq⟩ | heq | ⟨code, s, c', -, -, heq⟩
  · rw [heq]
    exact quiet h hstack rfl
  · rw [heq]
    exact quiet h hstack rfl
  · rcases heq with ⟨counters, journal, heq⟩ | ⟨y, command, counters, journal, -, -, heq⟩
    · rw [heq]
      exact quiet h hstack rfl
    · rw [heq]
      exact quiet h ((hstack.answering hloops _).cons rfl) rfl

theorem finish (h : m.fibers.Standing) (hstack : Standing m.stack) (hloops : Loops m.stack)
    (i : InstallationId) (v : Value) : (m.finish Γ i v).Stands := by
  unfold Machine.finish
  split
  · exact quiet h hstack rfl
  · simp only
    split
    · exact quiet h hstack rfl
    · exact quiet h (hstack.answering hloops _) rfl

theorem give (h : m.Stands) {v : Value} (hcontrol : m.control = .ret v) :
    (m.give Γ v).Stands := by
  unfold Machine.give
  split
  · rename_i hnil
    split
    · exact quiet h.fibers (by simp [goOn, hnil, Standing]) rfl
    · rename_i m₁ hback
      obtain ⟨journal, hwarn⟩ := exists_warn_eq { m₁ with pool := m₁.pool.giveBack.1 }
        m₁.pool.giveBack.2
      show (({ m₁ with pool := m₁.pool.giveBack.1 } : Machine ω).warn m₁.pool.giveBack.2).Stands
      rw [hwarn]
      obtain ⟨⟨S, fs⟩, hfs, rfl⟩ := Option.map_eq_some_iff.mp hback
      obtain ⟨hfibers, hS⟩ := h.fibers.handBack hfs
      exact quiet hfibers hS rfl
  · rename_i a S hstack
    have hS := h.stack
    rw [hstack] at hS
    cases a with
    | driving i f => exact finish (m := { m with stack := S }) h.fibers hS.2 (hS.1 rfl) i v
    | returning i answer | calling answer =>
      exact settle (m := { m with stack := S }) h.fibers hS.2 (hS.1 rfl) answer v _
    | clause keep answer => exact ⟨h.fibers, hS.2, fun _ => hS.1 rfl⟩
    | looping body next =>
      simp only
      split
      · exact quiet h.fibers (hS.2.cons rfl) rfl
      · exact quiet h.fibers hS.2 rfl
      · exact quiet h.fibers hS.2 rfl
    | owning os | inPlace i handler hidden e =>
      exact quiet h.fibers hS.2 (by show m.control.steps = false; rw [hcontrol]; rfl)
    | _ => exact quiet h.fibers hS.2 rfl

theorem forward (h : m.Stands) (r : Request) : (m.forward Γ r).Stands := by
  unfold Machine.forward
  split
  · exact quiet h.fibers h.stack rfl
  · rename_i S fs hsuspend
    obtain ⟨hfibers, hS⟩ := h.fibers.suspend h.stack hsuspend
    simp only
    split
    · split
      · exact capture (m := { m with fibers := fs, stack := _ }) hfibers hS.2 (hS.1 rfl) _ _ r
      · exact quiet hfibers hS rfl
    · exact quiet hfibers hS rfl

theorem wake (h : m.Stands) : m.wake.Stands := by
  have hS := h.stack
  unfold Machine.wake
  split
  · rename_i body S hstack
    rw [hstack] at hS
    exact quiet h.fibers hS.2 rfl
  · rename_i i f S hstack
    rw [hstack] at hS
    exact enter (m := { m with stack := S }) h.fibers hS.2 (hS.1 rfl) i f
  · rename_i i e modifier command S hstack
    rw [hstack] at hS
    split
    · exact quiet h.fibers h.stack rfl
    · split
      · exact quiet h.fibers hS.2 rfl
      · exact quiet h.fibers h.stack rfl
  · exact quiet h.fibers h.stack rfl

theorem unwind (h : m.Stands) {message : String} (hcontrol : m.control = .unwind message) :
    (m.unwind message).Stands := by
  have hS := h.stack
  unfold Machine.unwind
  split
  · cases hback : m.handBack (.unwind message) with
    | none => exact quiet h.fibers h.stack rfl
    | some m₁ =>
      obtain ⟨⟨S, fs⟩, hfs, rfl⟩ := Option.map_eq_some_iff.mp hback
      obtain ⟨hfibers, hS'⟩ := h.fibers.handBack hfs
      exact quiet hfibers hS' rfl
  · rename_i next S hstack
    rw [hstack] at hS
    exact quiet h.fibers hS.2 rfl
  · rename_i a S _ hstack
    rw [hstack] at hS
    exact quiet h.fibers hS.2 (by show m.control.steps = false; rw [hcontrol]; rfl)

theorem deliver (h : m.Stands) {s : Step (Cont ω) Value} (hcontrol : m.control = .deliver s) :
    (m.deliver s).Stands := by
  have hloops := h.loops (by rw [hcontrol]; rfl)
  have hS := h.stack
  unfold Machine.deliver
  split
  · rename_i S hstack
    cases s with
    | done v =>
      rw [hstack] at hS
      exact quiet h.fibers hS.2 rfl
    | tail k => exact stepCont h.fibers h.stack hloops k
  · exact quiet h.fibers h.stack rfl

variable [Contents ω]

theorem releaseOne (h : m.Stands) (x : Holding) (hs : List Holding) :
    (({ m with releasing := hs } : Machine ω).releaseOne x).Stands := by
  have hkeep : ∀ m' : Machine ω, m'.fibers = m.fibers → m'.stack = m.stack →
      m'.control = m.control → m'.Stands := by
    intro m' hfibers hstack hcontrol
    exact ⟨hfibers ▸ h.fibers, hstack ▸ h.stack, fun hsteps => hstack ▸ h.loops (hcontrol ▸ hsteps)⟩
  cases x with
  | asset o =>
    cases o with
    | cell c =>
      simp only [Machine.releaseOne, releaseAsset, releaseCell]
      split
      · exact hkeep _ rfl rfl rfl
      · split <;> exact hkeep _ rfl rfl rfl
    | notice n => exact hkeep _ rfl rfl rfl
    | _ =>
      simp only [Machine.releaseOne, releaseAsset]
      split <;> exact hkeep _ rfl rfl rfl
  | installation j =>
    simp only [Machine.releaseOne, releaseInstallation]
    split
    · exact hkeep _ rfl rfl rfl
    · split <;> exact hkeep _ rfl rfl rfl
  | fiber g =>
    simp only [Machine.releaseOne]
    split
    · exact hkeep _ rfl rfl rfl
    · rename_i S fs hdrop
      exact ⟨h.fibers.drop hdrop, h.stack, h.loops⟩
  | exchange e =>
    simp only [Machine.releaseOne]
    split <;> exact hkeep _ rfl rfl rfl

theorem eval {c : Comp ω} (h : m.Stands) : (m.eval Γ c).Stands := by
  have hfibers := h.fibers
  have hS := h.stack
  have hpush : ∀ a : Activation ω, a.answers = false → Standing (a :: m.stack) := fun _ ha =>
    hS.cons ha
  cases c with
  | handle x body next =>
    have hbind := hpush (.bind next) rfl
    obtain ⟨nextLabel, declared, pool, counters, journal, hinstall⟩ :=
      exists_install_eq (Γ := Γ) (m.push (.bind next)) x body
    simp only [Machine.eval]
    rcases hinstall with ⟨f, heq⟩ | heq | ⟨label, -, heq⟩
    · rw [heq]
      exact quiet hfibers hbind rfl
    · rw [heq]
      exact quiet hfibers hbind rfl
    · rw [heq]
      refine quiet ⟨fun r hr => ?_, hfibers.parked⟩
        ((Standing.cons (S := []) trivial rfl).cons rfl) rfl
      rcases List.mem_cons.mp hr with rfl | hr
      · exact hbind.loop.answering ⟨_, rfl⟩ _
      · exact hfibers.resumers r hr
  | invoke target command next =>
    have hbind := hpush (.bind next) rfl
    simp only [Machine.eval]
    split
    · exact quiet hfibers hS rfl
    · rename_i i position hfound
      unfold Machine.send
      simp only
      split
      · rcases sendInPlace_cases (Γ := Γ) (m.push (.bind next)) i position command with
          ⟨text, heq⟩ | ⟨run, -, heq⟩ | ⟨run, hidden, c', -, -, heq⟩
        · rw [heq]
          exact quiet hfibers hbind rfl
        · rw [heq]
          exact quiet hfibers hbind rfl
        · rw [heq]
          exact quiet hfibers ((hbind.cons rfl).cons rfl) rfl
      · exact quiet hfibers (hbind.cons rfl) rfl
  | apply f arg next =>
    simp only [Machine.eval, applyClosure]
    split <;> exact quiet hfibers (hpush _ rfl) rfl
  | find search next | copy r next | function answer f next | take r next | popBare next =>
    simp only [Machine.eval]
    split <;> exact quiet hfibers hS rfl
  | resume r v next =>
    have hbind := hpush (.bind next) rfl
    simp only [Machine.eval, Machine.resume]
    split
    · exact quiet hfibers hbind rfl
    · rename_i k m' harm
      obtain ⟨hstack, hsame⟩ := of_arm harm
      refine ⟨hsame ▸ hfibers, ?_, fun _ => ⟨_, rfl⟩⟩
      show Standing (.stepping :: m'.stack)
      exact hstack ▸ hbind.loop
  | tailResume r v next =>
    simp only [Machine.eval, Machine.tailResume]
    split
    · exact quiet hfibers hS rfl
    · rename_i k m' harm
      obtain ⟨hstack, hsame⟩ := of_arm harm
      split <;> exact quiet (hsame ▸ hfibers) (hstack ▸ hS) rfl
  | ask q next =>
    obtain ⟨nextLabel, hanswer⟩ := exists_answer_eq m q
    simp only [Machine.eval, hanswer]
    exact quiet hfibers hS rfl
  | view v next =>
    obtain ⟨pool, journal, hview⟩ := exists_view_eq m v
    simp only [Machine.eval, hview]
    exact quiet hfibers hS rfl
  | print p next =>
    obtain ⟨pool, journal, errors, hprint⟩ := exists_print_eq m p
    simp only [Machine.eval, hprint]
    exact quiet hfibers hS rfl
  | retain o next =>
    cases o <;> exact quiet hfibers hS rfl
  | scope os body next => exact quiet hfibers ((hpush (.bind next) rfl).cons rfl) rfl
  | catching body next => exact quiet hfibers (hpush _ rfl) rfl
  | loop seed body next => exact quiet hfibers (hpush _ rfl) rfl
  | call procedure arg next => exact quiet hfibers (hpush _ rfl) rfl
  | _ => exact quiet hfibers hS rfl

/-- Answers go to loops after every step. -/
theorem step (h : m.Stands) : (m.step Γ).Stands := by
  cases hreleasing : m.releasing with
  | cons x hs =>
    rw [step_releasing hreleasing]
    exact h.releaseOne x hs
  | nil =>
    cases hcontrol : m.control with
    | eval c =>
      simp only [Machine.step, hreleasing, hcontrol]
      exact h.eval
    | ret v =>
      simp only [Machine.step, hreleasing, hcontrol]
      exact h.give hcontrol
    | deliver s =>
      simp only [Machine.step, hreleasing, hcontrol]
      exact h.deliver hcontrol
    | settle answer v =>
      simp only [Machine.step, hreleasing, hcontrol]
      exact settle h.fibers h.stack (h.loops (by rw [hcontrol]; rfl)) answer v []
    | request r =>
      simp only [Machine.step, hreleasing, hcontrol]
      exact h.forward r
    | wake =>
      simp only [Machine.step, hreleasing, hcontrol]
      exact h.wake
    | unwind message =>
      simp only [Machine.step, hreleasing, hcontrol]
      exact h.unwind hcontrol
    | fault f =>
      simp only [Machine.step, hreleasing, hcontrol]
      exact quiet h.fibers h.stack rfl
    | halted o =>
      rw [step_halted hcontrol hreleasing]
      exact h

theorem run (h : m.Stands) (n : Nat) : (run Γ n m).Stands := by
  induction n with
  | zero => exact h
  | succ n ih =>
    rw [run_succ]
    exact ih.step

omit [Contents ω] in
theorem start (settings : SettingsSlot) (cells : List ω) (statics : List Owned)
    (main : Comp ω) : (start settings cells statics main).Stands :=
  quiet ⟨by simp [Machine.start], by simp [Machine.start]⟩ trivial rfl

end Stands

end Machine

end EffectHandlers
