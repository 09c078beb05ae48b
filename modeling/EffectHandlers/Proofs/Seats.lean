import EffectHandlers.Proofs.Evaluating
import EffectHandlers.Proofs.Outcomes
/-!
# Drivers wait for their fibers

A driver is the top activation of code that waits, or of code that is about to wait again. So when
a driver is given a value, it is the value of the fiber that it waits for, and that fiber has just
finished.
-/

namespace EffectHandlers

variable {ω : Type} {Γ : Library ω} {S : List (Activation ω)} {fs fs' : Fibers (List (Activation ω))}
  {f : FiberId}

def Activation.isDriver : Activation ω → Bool
  | .driving .. => true
  | _ => false

/-- No driver is in this code. -/
def Driverless (S : List (Activation ω)) : Prop := ∀ a ∈ S, a.isDriver = false

theorem Driverless.cons {a : Activation ω} (h : Driverless S) (ha : a.isDriver = false) :
    Driverless (a :: S) := by
  intro b hb
  rcases List.mem_cons.mp hb with rfl | hb
  exacts [ha, h b hb]

theorem Driverless.tail (h : Driverless S) : Driverless S.tail :=
  fun a ha => h a (List.mem_of_mem_tail ha)

theorem Driverless.nil : Driverless ([] : List (Activation ω)) := by simp [Driverless]

/-! ### Fibers -/

namespace Fibers

/-- Each resumer waits for the fiber that was current above it. -/
def Linked {κ : Type} : Option FiberId → List (Resumer κ) → Prop
  | _, [] => True
  | current, r :: rest => current = some r.fiber ∧ Linked r.current rest

/-- The code that waits for a fiber is a driver that waits for it; elsewhere drivers are on top. -/
structure Seated (fs : Fibers (List (Activation ω))) : Prop where
  linked : Linked fs.current fs.resumers
  resumers : ∀ r ∈ fs.resumers, ∃ i S, r.code = .driving i r.fiber :: S ∧ Driverless S
  parked : ∀ f S, (f, S) ∈ fs.parked.entries → Driverless S.tail

theorem Seated.resume (h : fs.Seated) {i : InstallationId} {T : List (Activation ω)}
    (hT : Driverless T) (hresume : fs.resume? f (.driving i f :: T) = some (S, fs')) :
    fs'.Seated ∧ Driverless S.tail := by
  obtain ⟨S', hS, heq⟩ := Option.map_eq_some_iff.mp hresume
  obtain ⟨rfl, rfl⟩ := Prod.mk.inj heq
  refine ⟨⟨⟨rfl, h.linked⟩, fun r hr => ?_, fun g S'' hmem => ?_⟩,
    h.parked f S' (Store.mem_of_find? hS)⟩
  · rcases List.mem_cons.mp hr with rfl | hr
    · exact ⟨i, T, rfl, hT⟩
    · exact h.resumers r hr
  · exact h.parked g S'' (List.mem_of_mem_eraseP hmem)

theorem Seated.handBack (h : fs.Seated) (hback : fs.handBack? = some (S, fs')) :
    fs'.Seated ∧ ∃ i f T, S = .driving i f :: T ∧ Driverless T ∧ fs.current = some f := by
  unfold handBack? at hback
  split at hback
  · cases hback
  · rename_i r rest hresumers
    obtain ⟨rfl, rfl⟩ := Prod.mk.inj (Option.some.inj hback)
    have hlinked := h.linked
    rw [hresumers] at hlinked
    have hall := h.resumers
    rw [hresumers] at hall
    obtain ⟨i, T, hcode, hT⟩ := hall r List.mem_cons_self
    exact ⟨⟨hlinked.2, fun r' hr' => hall r' (List.mem_cons_of_mem _ hr'), h.parked⟩,
      i, r.fiber, T, hcode, hT, hlinked.1⟩

theorem Seated.suspend (h : fs.Seated) {running : List (Activation ω)}
    (hrunning : Driverless running.tail) (hsuspend : fs.suspend? running = some (S, fs')) :
    fs'.Seated ∧ ∃ i f T, S = .driving i f :: T ∧ Driverless T := by
  obtain ⟨g, -, hback⟩ := Option.bind_eq_some_iff.mp hsuspend
  have hparked : Seated { fs with
      parked := ⟨fs.parked.next, (g, running) :: fs.parked.entries⟩ } :=
    ⟨h.linked, h.resumers, fun g' S' hmem => by
      rcases List.mem_cons.mp hmem with heq | hmem
      · obtain ⟨rfl, rfl⟩ := Prod.mk.inj heq
        exact hrunning
      · exact h.parked g' S' hmem⟩
  obtain ⟨hseated, i, f, T, hS, hT, -⟩ := hparked.handBack hback
  exact ⟨hseated, i, f, T, hS, hT⟩

theorem Seated.drop (h : fs.Seated) (hdrop : fs.drop? f = some (S, fs')) : fs'.Seated := by
  obtain ⟨S', -, heq⟩ := Option.map_eq_some_iff.mp hdrop
  obtain ⟨rfl, rfl⟩ := Prod.mk.inj heq
  exact ⟨h.linked, h.resumers, fun g S'' hmem => h.parked g S'' (List.mem_of_mem_eraseP hmem)⟩

end Fibers

/-! ### Threads -/

theorem Machine.of_arm {m m' : Machine ω} {r : ResumptionId} {v : Value} {k : Cont ω}
    (h : m.arm r v = some (k, m')) : m'.stack = m.stack ∧ m'.fibers = m.fibers := by
  obtain ⟨k', -, heq⟩ := Option.map_eq_some_iff.mp h
  cases k' <;> obtain ⟨-, rfl⟩ := Prod.mk.inj heq <;> exact ⟨rfl, rfl⟩

/-- Control that passes by a driver without giving it a value. -/
def Control.passes : Control ω → Bool
  | wake | request .. | unwind .. | fault .. | halted .. => true
  | _ => false

namespace Machine

variable {m m' : Machine ω}

/-- The code of a fiber has come to its end with a value. -/
def Finishes (m : Machine ω) (f : FiberId) (v : Value) : Prop :=
  m.releasing = [] ∧ m.control = .ret v ∧ m.stack = [] ∧ m.fibers.current = some f

/-- Drivers wait for their fibers. -/
structure Seated (m : Machine ω) : Prop where
  fibers : m.fibers.Seated
  stack : Driverless m.stack.tail
  top : ∀ i f S, m.stack = .driving i f :: S →
    m.control.passes ∨ ∃ v, m.control = .ret v ∧ m.releasing = []

/-- After a step, drivers wait for their fibers, and a driver on top that gets a value gets that of
a fiber which has finished with the step. -/
structure Seats (m m' : Machine ω) : Prop where
  fibers : m'.fibers.Seated
  stack : Driverless m'.stack.tail
  top : ∀ i f S, m'.stack = .driving i f :: S →
    m'.control.passes ∨ ∃ v, m'.control = .ret v ∧ m'.releasing = [] ∧ m.Finishes f v

theorem Seats.seated (h : m.Seats m') : m'.Seated where
  fibers := h.fibers
  stack := h.stack
  top i f S hS := (h.top i f S hS).imp_right fun ⟨v, hcontrol, hreleasing, _⟩ =>
    ⟨v, hcontrol, hreleasing⟩

/-- Without a pass, no driver is in the running code. -/
theorem Seated.driverless (h : m.Seated) (hpass : m.control.passes = false)
    (hret : ∀ v, m.control ≠ .ret v) : Driverless m.stack := by
  cases hS : m.stack with
  | nil => exact .nil
  | cons a S =>
    have htail := h.stack
    rw [hS] at htail
    refine Driverless.cons htail ?_
    cases a with
    | driving i f =>
      rcases h.top i f S hS with hp | ⟨v, hv, -⟩
      · simp [hpass] at hp
      · exact absurd hv (hret v)
    | _ => rfl

namespace Seats

/-- No driver is on top. -/
theorem of_driverless (hfibers : m'.fibers.Seated) (hstack : Driverless m'.stack) :
    m.Seats m' where
  fibers := hfibers
  stack := hstack.tail
  top i f S hS := by
    have hfalse := hstack (.driving i f) (hS ▸ List.mem_cons_self)
    cases hfalse

/-- Control passes by. -/
theorem of_passes (hfibers : m'.fibers.Seated) (hstack : Driverless m'.stack.tail)
    (hcontrol : m'.control.passes) : m.Seats m' := ⟨hfibers, hstack, fun _ _ _ _ => .inl hcontrol⟩

/-- A driver waits for another fiber. -/
theorem enter (h : m.fibers.Seated) (hstack : Driverless m.stack) (i : InstallationId)
    (f : FiberId) : m'.Seats (m.enter i f) := by
  unfold Machine.enter
  split
  · rename_i S fs hresume
    obtain ⟨hseated, hS⟩ := h.resume hstack hresume
    exact of_passes hseated hS rfl
  · exact of_passes h hstack.tail rfl

/-- A continuation starts, or the closure of a function resumption. -/
theorem stepCont (h : m.fibers.Seated) (hS : Driverless m.stack) (k : Cont ω) :
    m'.Seats (m.stepCont k) := by
  cases k with
  | captured answer f s e =>
    exact enter (m := { m.trace _ with chain := m.chain.splice s }) h hS s.lowest f
  | function answer g arg =>
    cases arg with
    | none => exact of_driverless h hS
    | some v => exact of_driverless h (hS.cons rfl)

/-- A continuation is captured by a driver that was taken off the code. -/
theorem capture (h : m.fibers.Seated) (hS : Driverless m.stack) (i : InstallationId) (f : FiberId)
    (r : Request) : m'.Seats (m.capture Γ i f r) := by
  rcases capture_cases (Γ := Γ) m i f r with ⟨text, heq⟩ | heq | ⟨code, s, c', -, -, heq⟩
  · rw [heq]
    exact of_driverless h hS
  · rw [heq]
    exact of_driverless h hS
  · rcases heq with ⟨counters, journal, heq⟩ | ⟨y, command, counters, journal, -, -, heq⟩
    · rw [heq]
      exact of_driverless h hS
    · rw [heq]
      exact of_driverless h ((hS.cons rfl).cons rfl)

theorem settle (h : m.fibers.Seated) (hS : Driverless m.stack) (answer : String) (v : Value)
    (kept : List Holding) : m'.Seats (m.settle answer v kept) := by
  unfold Machine.settle
  split
  · exact of_driverless h hS
  · simp only
    split <;> exact of_driverless h hS

/-- The return clause of an installation starts where its driver was. -/
theorem finish (h : m.fibers.Seated) (hS : Driverless m.stack) (i : InstallationId) (v : Value) :
    m'.Seats (m.finish Γ i v) := by
  unfold Machine.finish
  split
  · exact of_driverless h hS
  · simp only
    split
    · exact of_driverless h hS
    · exact of_driverless h (hS.cons rfl)

/-- A value is given to the top activation, or to the driver of a fiber that has finished. -/
theorem give (h : m.Seated) {v : Value} (hreleasing : m.releasing = [])
    (hcontrol : m.control = .ret v) : m.Seats (m.give Γ v) := by
  unfold Machine.give
  split
  · rename_i hnil
    split
    · exact of_passes h.fibers (by simp [goOn, hnil, Driverless]) rfl
    · rename_i m₁ hback
      obtain ⟨journal, hwarn⟩ := exists_warn_eq { m₁ with pool := m₁.pool.giveBack.1 }
        m₁.pool.giveBack.2
      show m.Seats (({ m₁ with pool := m₁.pool.giveBack.1 } : Machine ω).warn m₁.pool.giveBack.2)
      rw [hwarn]
      obtain ⟨⟨S, fs⟩, hfs, rfl⟩ := Option.map_eq_some_iff.mp hback
      obtain ⟨hseated, i, f, T, rfl, hT, hcurrent⟩ := h.fibers.handBack hfs
      refine ⟨hseated, hT, fun i' f' S' hS => ?_⟩
      obtain ⟨hhead, -⟩ := List.cons.inj hS
      obtain ⟨rfl, rfl⟩ := Activation.driving.inj hhead
      exact .inr ⟨v, rfl, hreleasing, hreleasing, hcontrol, hnil, hcurrent⟩
  · rename_i a S hstack
    have hS : Driverless S := by
      have htail := h.stack
      rwa [hstack] at htail
    cases a with
    | driving i f => exact finish (m := { m with stack := S }) h.fibers hS i v
    | returning i answer | calling answer =>
      exact settle (m := { m with stack := S }) h.fibers hS answer v _
    | looping body next =>
      simp only
      split
      · exact of_driverless h.fibers (hS.cons rfl)
      · exact of_driverless h.fibers hS
      · exact of_driverless h.fibers hS
    | _ => exact of_driverless h.fibers hS

/-- A request is passed on, or its continuation is captured. -/
theorem forward (h : m.Seated) (r : Request) : m.Seats (m.forward Γ r) := by
  unfold Machine.forward
  split
  · exact of_passes h.fibers h.stack rfl
  · rename_i S fs hsuspend
    obtain ⟨hseated, i, f, T, rfl, hT⟩ := h.fibers.suspend h.stack hsuspend
    simp only
    split
    · exact capture (m := { m with fibers := fs, stack := T }) hseated hT i f r
    · exact of_passes hseated hT rfl

theorem wake (h : m.Seated) : m.Seats m.wake := by
  have hS : ∀ {a S}, m.stack = a :: S → Driverless S := by
    intro a S hstack
    have htail := h.stack
    rwa [hstack] at htail
  unfold Machine.wake
  split
  · rename_i body S hstack
    exact of_driverless h.fibers (hS hstack)
  · rename_i i f S hstack
    exact enter (m := { m with stack := S }) h.fibers (hS hstack) i f
  · rename_i i e modifier command S hstack
    split
    · exact of_passes h.fibers h.stack rfl
    · split
      · exact of_driverless h.fibers (hS hstack)
      · exact of_passes h.fibers h.stack rfl
  · exact of_passes h.fibers h.stack rfl

theorem unwind (h : m.Seated) (message : String) : m.Seats (m.unwind message) := by
  unfold Machine.unwind
  split
  · rename_i hnil
    cases hback : m.handBack (.unwind message) with
    | none => exact of_passes h.fibers h.stack rfl
    | some m₁ =>
      obtain ⟨⟨S, fs⟩, hfs, rfl⟩ := Option.map_eq_some_iff.mp hback
      obtain ⟨hseated, i, f, T, rfl, hT, -⟩ := h.fibers.handBack hfs
      exact of_passes hseated hT rfl
  · rename_i next S hstack
    have htail := h.stack
    rw [hstack] at htail
    exact of_driverless h.fibers htail
  · rename_i a S hstack
    have htail := h.stack
    rw [hstack] at htail
    exact of_driverless h.fibers htail

variable [Contents ω]

theorem releaseOne (h : m.Seated) {x : Holding} {hs : List Holding}
    (hreleasing : m.releasing = x :: hs) :
    m.Seats (({ m with releasing := hs } : Machine ω).releaseOne x) := by
  -- nothing is being released when a driver on top gets a value
  have htop : ∀ i f S, m.stack = .driving i f :: S → m.control.passes := by
    intro i f S hS
    rcases h.top i f S hS with hp | ⟨v, -, hnil⟩
    · exact hp
    · simp [hreleasing] at hnil
  have hkeep : ∀ m' : Machine ω, m'.fibers = m.fibers → m'.stack = m.stack →
      m'.control = m.control → m.Seats m' := by
    intro m' hfibers hstack hcontrol
    exact ⟨hfibers ▸ h.fibers, hstack ▸ h.stack, fun i f S hS =>
      .inl (hcontrol ▸ htop i f S (hstack ▸ hS))⟩
  cases x with
  | asset o =>
    cases o with
    | cell c =>
      simp only [Machine.releaseOne, releaseAsset, releaseCell]
      split
      · exact hkeep _ rfl rfl rfl
      · split <;> exact hkeep _ rfl rfl rfl
    | notice n => exact hkeep _ rfl rfl rfl
    | _ =>
      simp only [Machine.releaseOne, releaseAsset]
      split <;> exact hkeep _ rfl rfl rfl
  | installation j =>
    simp only [Machine.releaseOne, releaseInstallation]
    split
    · exact hkeep _ rfl rfl rfl
    · split <;> exact hkeep _ rfl rfl rfl
  | fiber g =>
    simp only [Machine.releaseOne]
    split
    · exact hkeep _ rfl rfl rfl
    · rename_i S fs hdrop
      exact ⟨h.fibers.drop hdrop, h.stack, fun i f S hS => .inl (htop i f S hS)⟩
  | exchange e =>
    simp only [Machine.releaseOne]
    split <;> exact hkeep _ rfl rfl rfl

/-- An operation, in code without a driver. -/
theorem eval {c : Comp ω} (h : m.fibers.Seated) (hS : Driverless m.stack) :
    m.Seats (m.eval Γ c) := by
  have hpush : ∀ a : Activation ω, a.isDriver = false → Driverless (a :: m.stack) := fun _ ha =>
    hS.cons ha
  cases c with
  | handle x body next =>
    have hbind := hpush (.bind next) rfl
    obtain ⟨nextLabel, declared, pool, counters, journal, hinstall⟩ :=
      exists_install_eq (Γ := Γ) (m.push (.bind next)) x body
    simp only [Machine.eval]
    rcases hinstall with ⟨f, heq⟩ | heq | ⟨label, -, heq⟩
    · rw [heq]
      exact of_driverless h hbind
    · rw [heq]
      exact of_driverless h hbind
    · rw [heq]
      refine of_driverless ⟨⟨rfl, h.linked⟩, fun r hr => ?_, h.parked⟩
        ((Driverless.nil.cons rfl).cons rfl)
      rcases List.mem_cons.mp hr with rfl | hr
      · exact ⟨_, _, rfl, hbind.cons rfl⟩
      · exact h.resumers r hr
  | invoke target command next =>
    have hbind := hpush (.bind next) rfl
    simp only [Machine.eval]
    split
    · exact of_driverless h hS
    · rename_i i position hfound
      unfold Machine.send
      simp only
      split
      · rcases sendInPlace_cases (Γ := Γ) (m.push (.bind next)) i position command with
          ⟨text, heq⟩ | ⟨run, -, heq⟩ | ⟨run, hidden, c', -, -, heq⟩
        · rw [heq]
          exact of_driverless h hbind
        · rw [heq]
          exact of_driverless h hbind
        · rw [heq]
          exact of_driverless h ((hbind.cons rfl).cons rfl)
      · exact of_driverless h (hbind.cons rfl)
  | apply f arg next =>
    simp only [Machine.eval, applyClosure]
    split <;> exact of_driverless h (hpush _ rfl)
  | find search next =>
    simp only [Machine.eval]
    split <;> exact of_driverless h hS
  | copy r next =>
    simp only [Machine.eval]
    split <;> exact of_driverless h hS
  | function answer f next =>
    simp only [Machine.eval]
    split <;> exact of_driverless h hS
  | take r next =>
    simp only [Machine.eval]
    split <;> exact of_driverless h hS
  | resume r v next =>
    have hbind := hpush (.bind next) rfl
    simp only [Machine.eval, Machine.resume]
    split
    · exact of_driverless h hbind
    · rename_i k m' harm
      obtain ⟨hstack, hfibers⟩ := of_arm harm
      refine of_driverless (hfibers ▸ h) ?_
      show Driverless (.stepping :: m'.stack)
      exact hstack ▸ hbind.cons rfl
  | tailResume r v next =>
    simp only [Machine.eval, Machine.tailResume]
    split
    · exact of_driverless h hS
    · rename_i k m' harm
      obtain ⟨hstack, hfibers⟩ := of_arm harm
      split
      · exact of_driverless (hfibers ▸ h) (hstack ▸ hS)
      · exact of_driverless (hfibers ▸ h) (hstack ▸ hS)
  | ask q next =>
    obtain ⟨nextLabel, hanswer⟩ := exists_answer_eq m q
    simp only [Machine.eval, hanswer]
    exact of_driverless h hS
  | view v next =>
    obtain ⟨pool, journal, hview⟩ := exists_view_eq m v
    simp only [Machine.eval, hview]
    exact of_driverless h hS
  | print p next =>
    obtain ⟨pool, journal, errors, hprint⟩ := exists_print_eq m p
    simp only [Machine.eval, hprint]
    exact of_driverless h hS
  | retain o next =>
    cases o <;> exact of_driverless h hS
  | scope os body next => exact of_driverless h ((hpush (.bind next) rfl).cons rfl)
  | catching body next => exact of_driverless h (hpush _ rfl)
  | loop seed body next => exact of_driverless h (hpush _ rfl)
  | call procedure arg next => exact of_driverless h (hpush _ rfl)
  | popBare next =>
    simp only [Machine.eval]
    split <;> exact of_driverless h hS
  | _ => exact of_driverless h hS

end Seats

/-- Drivers wait for their fibers after every step. -/
theorem Seated.step [Contents ω] (h : m.Seated) : m.Seats (m.step Γ) := by
  cases hreleasing : m.releasing with
  | cons x hs =>
    rw [step_releasing hreleasing]
    exact .releaseOne h hreleasing
  | nil =>
    have hfree : ∀ {c : Control ω}, m.control = c → c.passes = false → (∀ v, c ≠ .ret v) →
        Driverless m.stack := fun heq hpass hret => h.driverless (heq ▸ hpass) (heq ▸ hret)
    cases hcontrol : m.control with
    | eval c =>
      simp only [Machine.step, hreleasing, hcontrol]
      exact .eval h.fibers (hfree hcontrol rfl (by simp))
    | ret v =>
      simp only [Machine.step, hreleasing, hcontrol]
      exact .give h hreleasing hcontrol
    | deliver s =>
      have hS := hfree hcontrol rfl (by simp)
      simp only [Machine.step, hreleasing, hcontrol]
      unfold Machine.deliver
      split
      · rename_i S hstack
        cases s with
        | done v =>
          rw [hstack] at hS
          exact .of_driverless h.fibers hS.tail
        | tail k => exact .stepCont h.fibers hS k
      · exact .of_driverless h.fibers hS
    | settle answer v =>
      simp only [Machine.step, hreleasing, hcontrol]
      exact .settle h.fibers (hfree hcontrol rfl (by simp)) answer v []
    | request r =>
      simp only [Machine.step, hreleasing, hcontrol]
      exact .forward h r
    | wake =>
      simp only [Machine.step, hreleasing, hcontrol]
      exact .wake h
    | unwind message =>
      simp only [Machine.step, hreleasing, hcontrol]
      exact .unwind h message
    | fault f =>
      simp only [Machine.step, hreleasing, hcontrol]
      exact .of_passes h.fibers h.stack rfl
    | halted o =>
      rw [step_halted hcontrol hreleasing]
      exact .of_passes h.fibers h.stack (by rw [hcontrol]; rfl)

end Machine

end EffectHandlers
