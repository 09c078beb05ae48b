import EffectHandlers.Proofs.Holdings
import EffectHandlers.Proofs.Posts
import EffectHandlers.Proofs.Seats
/-!
# What a step does to the spine

The spine of a thread is the running code on top of all code that waits below it. A step puts
activations on the spine or takes them off, or moves the code of a whole fiber onto it or away from
it; a clause takes the place of the driver of its installation.
-/

namespace EffectHandlers

variable {ω : Type} {Γ : Library ω} {R S : List (Activation ω)} {a : Activation ω}

/-- The running code and the code that waits below it, top first. -/
def Machine.spine (m : Machine ω) : List (Activation ω) := m.stack ++ m.waiting

/-- On this code, the activation is no driver, and it does not hold anything for a clause. -/
def Activation.LooseOn : Activation ω → List (Activation ω) → Prop
  | driving .., _ => False
  | owning _, clause .. :: _ => False
  | _, _ => True

/-- Activations that are put on this code are loose. -/
def Loose (R : List (Activation ω)) : List (Activation ω) → Prop
  | [] => True
  | a :: X => a.LooseOn (X ++ R) ∧ Loose R X

namespace Machine

variable {m m' : Machine ω}

/-- What a step does to the spine and to parked code. -/
inductive Shifts (m m' : Machine ω) : Prop
  /-- Activations are taken off the running code, and loose ones are put on it. -/
  | onTop {U X R} (h : m.spine = U ++ R) (h' : m'.spine = X ++ R) (hX : Loose R X)
      (hparked : m'.fibers.parked.entries ⊆ m.fibers.parked.entries)
  /-- A new driver waits for a new fiber. -/
  | installs {x body X next} (hinstalls : m.Evaluates (.handle x body next))
      (h' : m'.spine = X ++ .driving m.chain.installations.next m.fibers.parked.next ::
        .stepping :: .bind next :: m.spine)
      (hX : ∀ R, Loose (.driving m.chain.installations.next m.fibers.parked.next :: R) X)
      (hparked : m'.fibers.parked.entries ⊆ m.fibers.parked.entries)
      (hcontrol : m'.control.conts = [])
  /-- A driver on top waits for its fiber again, which goes on. -/
  | enters {i f C R} (h : m.spine = .driving i f :: R) (hC : (f, C) ∈ m.fibers.parked.entries)
      (h' : m'.spine = C ++ .driving i f :: R)
      (hparked : m'.fibers.parked.entries ⊆ m.fibers.parked.entries)
  /-- A continuation that was captured goes on. -/
  | starts {answer f s e C} (hcontrol : m.control = .deliver (.tail (.captured answer f s e)))
      (hC : (f, C) ∈ m.fibers.parked.entries) (h' : m'.spine = C ++ .driving s.lowest f :: m.spine)
      (hparked : m'.fibers.parked.entries ⊆ m.fibers.parked.entries)
  /-- The running fiber is parked under the driver that waits for it. -/
  | parks {C i f R} (h : m.spine = C ++ .driving i f :: R) (h' : m'.spine = .driving i f :: R)
      (hparked : m'.fibers.parked.entries = (f, C) :: m.fibers.parked.entries)
  /-- A clause takes the place of the driver, with the continuation. -/
  | captures {C i f R answer s e keep os} (h : m.spine = C ++ .driving i f :: R)
      (h' : m'.spine =
        .owning (.resumption m.resumptions.next :: os) :: .clause keep answer :: R)
      (hkeep : ∀ j ∈ keep, j = i) (hs : s.lowest = i)
      (hk : m'.resumptions.find? m.resumptions.next = some (.captured answer f s e))
      (hparked : m'.fibers.parked.entries = (f, C) :: m.fibers.parked.entries)
  /-- A clause takes the place of the driver, and the continuation is released. -/
  | discards {C i f R answer os} (h : m.spine = C ++ .driving i f :: R)
      (h' : m'.spine = .owning os :: .clause (some i) answer :: R)
      (hreleasing : .fiber f ∈ m'.releasing)
      (hparked : m'.fibers.parked.entries = (f, C) :: m.fibers.parked.entries)
  /-- There is no clause. -/
  | loses {C i f R} (h : m.spine = C ++ .driving i f :: R) (h' : m'.spine = R)
      (hparked : m'.fibers.parked.entries = (f, C) :: m.fibers.parked.entries)

/-- Releasing parks no fiber. -/
theorem parked_releaseOne [Contents ω] (m : Machine ω) (x : Holding) :
    (m.releaseOne x).fibers.parked.entries ⊆ m.fibers.parked.entries := by
  obtain ⟨os, m', hgives, heq⟩ := releaseOne_gives m x
  rw [heq]
  cases hgives with
  | fiber => exact fun _ => List.mem_of_mem_eraseP
  | _ => exact List.Subset.refl _

namespace Shifts

variable {T U X : List (Activation ω)}

/-- The stack changes on top, and fibers stay as they are. -/
theorem of_stack (h : m.stack = U ++ S) (h' : m'.stack = X ++ S)
    (hX : Loose (S ++ m.waiting) X) (hfibers : m'.fibers = m.fibers) : Shifts m m' := by
  refine .onTop (U := U) (X := X) (R := S ++ m.waiting) ?_ ?_ hX (hfibers ▸ List.Subset.refl _)
  · rw [spine, h, List.append_assoc]
  · rw [spine, h', waiting, hfibers, List.append_assoc]
    rfl

/-- Activations are put on the stack. -/
theorem push (h' : m'.stack = X ++ m.stack) (hX : Loose (m.stack ++ m.waiting) X)
    (hfibers : m'.fibers = m.fibers) : Shifts m m' := of_stack (U := []) rfl h' hX hfibers

/-- Activations are taken off the stack. -/
theorem pop (h : m.stack = U ++ m'.stack) (hfibers : m'.fibers = m.fibers) : Shifts m m' :=
  of_stack (X := []) h rfl trivial hfibers

/-- The stack stays as it is. -/
theorem same (h : m'.stack = m.stack) (hfibers : m'.fibers = m.fibers) : Shifts m m' :=
  pop (U := []) h.symm hfibers

/-- The code that waits gets control back. -/
theorem handBack {fs : Fibers (List (Activation ω))} (hstack : m.stack = [])
    (hback : m.fibers.handBack? = some (m'.stack, fs)) (hfibers : m'.fibers = fs) :
    Shifts m m' := by
  unfold Fibers.handBack? at hback
  split at hback
  · cases hback
  · rename_i r rest hresumers
    obtain ⟨hcode, rfl⟩ := Prod.mk.inj (Option.some.inj hback)
    have hspine : m'.spine = m.spine := by
      simp only [spine, waiting, hstack, hresumers, ← hcode, hfibers, List.nil_append,
        List.flatMap_cons]
    exact .onTop (U := []) (X := []) rfl hspine trivial (by simp [hfibers])

/-- The code of a parked fiber goes on the spine, under which a driver waits for it. -/
theorem of_resume {fs : Fibers (List (Activation ω))} {C : List (Activation ω)}
    {i : InstallationId} {f : FiberId}
    (hresume : m.fibers.resume? f (.driving i f :: S) = some (C, fs)) :
    (f, C) ∈ m.fibers.parked.entries ∧
      fs.resumers.flatMap (·.code) = .driving i f :: (S ++ m.waiting) ∧
        fs.parked.entries ⊆ m.fibers.parked.entries := by
  obtain ⟨C', hC, heq⟩ := Option.map_eq_some_iff.mp hresume
  obtain ⟨rfl, rfl⟩ := Prod.mk.inj heq
  exact ⟨Store.mem_of_find? hC, rfl, fun _ => List.mem_of_mem_eraseP⟩

/-- A continuation starts, or the closure of a function resumption. -/
theorem stepCont {k : Cont ω} (hcontrol : m.control = .deliver (.tail k)) :
    Shifts m (m.stepCont k) := by
  cases k with
  | captured answer f s e =>
    simp only [Machine.stepCont]
    unfold Machine.enter
    split
    · rename_i C fs hresume
      obtain ⟨hC, hwaiting, hparked⟩ := of_resume hresume
      exact .starts hcontrol hC (congrArg (C ++ ·) hwaiting) hparked
    · exact same rfl rfl
  | function answer g arg =>
    cases arg with
    | none => exact same rfl rfl
    | some v => exact push (X := [.calling answer]) rfl ⟨trivial, trivial⟩ rfl

/-- An answer becomes a step for the loop below the code that has given it. -/
theorem settle (m' : Machine ω) (h : m.stack = U ++ m'.stack) (hfibers : m'.fibers = m.fibers)
    (answer : String) (v : Value) (kept : List Holding) :
    Shifts m (m'.settle answer v kept) := by
  unfold Machine.settle
  split
  · exact pop h hfibers
  · simp only
    split
    · exact pop h hfibers
    · exact pop h hfibers

/-- The return clause of an installation starts where its driver was. -/
theorem finish (m' : Machine ω) (h : m.stack = U ++ m'.stack) (hfibers : m'.fibers = m.fibers)
    (i : InstallationId) (v : Value) : Shifts m (m'.finish Γ i v) := by
  unfold Machine.finish
  split
  · exact pop h hfibers
  · simp only
    split
    · exact pop h hfibers
    · exact of_stack (X := [.returning i _]) h rfl ⟨trivial, trivial⟩ hfibers

/-- A value is given to the top activation, or to the driver of a fiber that has finished. -/
theorem give (v : Value) : Shifts m (m.give Γ v) := by
  unfold Machine.give
  split
  · rename_i hnil
    split
    · exact same rfl rfl
    · rename_i m₁ hback
      obtain ⟨journal, hwarn⟩ := exists_warn_eq { m₁ with pool := m₁.pool.giveBack.1 }
        m₁.pool.giveBack.2
      show Shifts m (({ m₁ with pool := m₁.pool.giveBack.1 } : Machine ω).warn m₁.pool.giveBack.2)
      rw [hwarn]
      obtain ⟨⟨S, fs⟩, hfs, rfl⟩ := Option.map_eq_some_iff.mp hback
      exact handBack hnil hfs rfl
  · rename_i a S hstack
    have hone : m.stack = [a] ++ S := hstack
    cases a with
    | driving i f => exact finish { m with stack := S } hone rfl i v
    | returning i answer | calling answer =>
      exact settle { m with stack := S } hone rfl answer v _
    | looping body next =>
      simp only
      split
      · exact same hstack.symm rfl
      · exact pop hone rfl
      · exact pop hone rfl
    | _ => exact pop hone rfl

/-- A step is given to the loop on top. -/
theorem deliver {s : Step (Cont ω) Value} (hcontrol : m.control = .deliver s) :
    Shifts m (m.deliver s) := by
  unfold Machine.deliver
  split
  · rename_i S hstack
    cases s with
    | done v => exact pop (U := [.stepping]) hstack rfl
    | tail k => exact stepCont hcontrol
  · exact same rfl rfl

theorem wake : Shifts m m.wake := by
  unfold Machine.wake
  split
  · rename_i body S hstack
    exact pop (U := [.start body]) hstack rfl
  · rename_i i f S hstack
    unfold Machine.enter
    split
    · rename_i C fs hresume
      obtain ⟨hC, hwaiting, hparked⟩ := of_resume hresume
      exact .enters (by rw [spine, hstack]; rfl) hC (congrArg (C ++ ·) hwaiting) hparked
    · exact pop (U := [.driving i f]) hstack rfl
  · rename_i i e modifier command S hstack
    split
    · exact same rfl rfl
    · split
      · exact pop (U := [.sending i e modifier command]) hstack rfl
      · exact same rfl rfl
  · exact same rfl rfl

theorem unwind (message : String) : Shifts m (m.unwind message) := by
  unfold Machine.unwind
  split
  · rename_i hnil
    cases hback : m.handBack (.unwind message) with
    | none => exact same rfl rfl
    | some m₁ =>
      obtain ⟨⟨S, fs⟩, hfs, rfl⟩ := Option.map_eq_some_iff.mp hback
      exact handBack hnil hfs rfl
  · rename_i next S hstack
    exact pop (U := [.catching next]) hstack rfl
  · rename_i a S _ hstack
    exact pop (U := [a]) hstack rfl

/-- The running fiber is parked, and the driver that waits for it gets control. -/
theorem of_suspend {fs : Fibers (List (Activation ω))} (h : m.fibers.Seated)
    (hsuspend : m.fibers.suspend? m.stack = some (S, fs)) :
    ∃ i f T, S = .driving i f :: T ∧
      m.spine = m.stack ++ .driving i f :: (T ++ fs.resumers.flatMap (·.code)) ∧
        fs.parked.entries = (f, m.stack) :: m.fibers.parked.entries := by
  obtain ⟨g, hcurrent, hback⟩ := Option.bind_eq_some_iff.mp hsuspend
  unfold Fibers.handBack? at hback
  split at hback
  · cases hback
  · rename_i r rest hresumers
    replace hresumers : m.fibers.resumers = r :: rest := hresumers
    obtain ⟨rfl, rfl⟩ := Prod.mk.inj (Option.some.inj hback)
    obtain ⟨i, T, hcode, -⟩ := h.resumers r (by simp [hresumers])
    have hlinked := h.linked
    rw [hresumers] at hlinked
    obtain rfl : g = r.fiber := Option.some.inj (hcurrent.symm.trans hlinked.1)
    exact ⟨i, r.fiber, T, hcode, by simp [spine, waiting, hresumers, hcode], rfl⟩

/-- A clause starts in place of the driver, or there is none. -/
theorem capture (m' : Machine ω) {C : List (Activation ω)} {i : InstallationId} {f : FiberId}
    {r : Request} (h : m.spine = C ++ .driving i f :: m'.spine)
    (hresumptions : m'.resumptions = m.resumptions)
    (hparked : m'.fibers.parked.entries = (f, C) :: m.fibers.parked.entries) :
    Shifts m (m'.capture Γ i f r) := by
  rcases capture_cases (Γ := Γ) m' i f r with ⟨text, heq⟩ | heq | ⟨code, s, c', -, hsplit, heq⟩
  · rw [heq]
    exact .loses h rfl hparked
  · rw [heq]
    exact .loses h rfl hparked
  · rcases heq with ⟨counters, journal, heq⟩ | ⟨y, command, counters, journal, -, -, heq⟩
    · rw [heq]
      exact .loses h rfl hparked
    · rw [heq]
      have hkeep : ∀ j ∈ code.keeps i, j = i := by
        cases code <;> simp [ClauseCode.keeps, eq_comm]
      cases htakes : code.takes with
      | true =>
        simp only [hresumptions, if_true]
        exact .captures h rfl hkeep (Chain.lowest_of_split hsplit)
          (Store.find?_insert_self ..) hparked
      | false =>
        have hkeeps : code.keeps i = some i := by cases code <;> first | rfl | cases htakes
        simp only [hkeeps]
        exact .discards h rfl (List.mem_append_left _ List.mem_cons_self) hparked

/-- A request is passed on, or its continuation is captured. -/
theorem forward (h : m.fibers.Seated) (r : Request) : Shifts m (m.forward Γ r) := by
  unfold Machine.forward
  split
  · exact same rfl rfl
  · rename_i S fs hsuspend
    obtain ⟨i, f, T, rfl, hspine, hparked⟩ := of_suspend h hsuspend
    simp only
    split
    · exact capture { m with fibers := fs, stack := T } hspine rfl hparked
    · exact .parks hspine rfl hparked

variable [Contents ω]

theorem releaseOne (m : Machine ω) (x : Holding) (hs : List Holding) :
    Shifts m (({ m with releasing := hs } : Machine ω).releaseOne x) := by
  obtain ⟨hstack, hresumers, -⟩ := releaseOne_same ({ m with releasing := hs } : Machine ω) x
  have hspine : (({ m with releasing := hs } : Machine ω).releaseOne x).spine = m.spine := by
    simp only [spine, waiting, hstack, hresumers]
  exact .onTop (U := []) (X := []) rfl hspine trivial (parked_releaseOne _ x)

/-- An operation works on top of the spine. -/
theorem eval {c : Comp ω} (hm : m.Evaluates c) : Shifts m (m.eval Γ c) := by
  cases c with
  | handle x body next =>
    obtain ⟨nextLabel, declared, pool, counters, journal, hinstall⟩ :=
      exists_install_eq (Γ := Γ) (m.push (.bind next)) x body
    simp only [Machine.eval]
    rcases hinstall with ⟨f, heq⟩ | heq | ⟨label, -, heq⟩
    · rw [heq]
      exact push (X := [.bind next]) rfl ⟨trivial, trivial⟩ rfl
    · rw [heq]
      exact push (X := [.bind next]) rfl ⟨trivial, trivial⟩ rfl
    · rw [heq]
      exact .installs hm (X := [.start _, .owning _]) rfl (fun _ => ⟨trivial, trivial, trivial⟩)
        (List.Subset.refl _) rfl
  | invoke target command next =>
    simp only [Machine.eval]
    split
    · exact same rfl rfl
    · rename_i i position hfound
      unfold Machine.send
      simp only
      split
      · rcases sendInPlace_cases (Γ := Γ) (m.push (.bind next)) i position command with
          ⟨text, heq⟩ | ⟨run, -, heq⟩ | ⟨run, hidden, c', -, -, heq⟩
        · rw [heq]
          exact push (X := [.bind next]) rfl ⟨trivial, trivial⟩ rfl
        · rw [heq]
          exact push (X := [.bind next]) rfl ⟨trivial, trivial⟩ rfl
        · rw [heq]
          exact push (X := [.owning _, .inPlace .., .bind next]) rfl
            ⟨trivial, trivial, trivial, trivial⟩ rfl
      · exact push (X := [.sending .., .bind next]) rfl ⟨trivial, trivial, trivial⟩ rfl
  | apply f arg next =>
    simp only [Machine.eval, applyClosure]
    split <;> exact push (X := [.bind next]) rfl ⟨trivial, trivial⟩ rfl
  | find search next | copy r next | function answer f next | take r next | popBare next =>
    simp only [Machine.eval]
    split <;> exact same rfl rfl
  | resume r v next =>
    simp only [Machine.eval, Machine.resume]
    split
    · exact push (X := [.bind next]) rfl ⟨trivial, trivial⟩ rfl
    · rename_i k m' harm
      obtain ⟨hstack, hfibers⟩ := of_arm harm
      refine push (X := [.stepping, .bind next]) ?_ ⟨trivial, trivial, trivial⟩ hfibers
      exact congrArg (Activation.stepping :: ·) hstack
  | tailResume r v next =>
    simp only [Machine.eval, Machine.tailResume]
    split
    · exact same rfl rfl
    · rename_i k m' harm
      obtain ⟨hstack, hfibers⟩ := of_arm harm
      split <;> exact same hstack hfibers
  | ask q next =>
    obtain ⟨nextLabel, hanswer⟩ := exists_answer_eq m q
    simp only [Machine.eval, hanswer]
    exact same rfl rfl
  | view v next =>
    obtain ⟨pool, journal, hview⟩ := exists_view_eq m v
    simp only [Machine.eval, hview]
    exact same rfl rfl
  | print p next =>
    obtain ⟨pool, journal, errors, hprint⟩ := exists_print_eq m p
    simp only [Machine.eval, hprint]
    exact same rfl rfl
  | retain o next =>
    cases o <;> exact same rfl rfl
  | scope os body next =>
    exact push (X := [.owning os, .bind next]) rfl ⟨trivial, trivial, trivial⟩ rfl
  | catching body next => exact push (X := [.catching next]) rfl ⟨trivial, trivial⟩ rfl
  | loop seed body next => exact push (X := [.looping body next]) rfl ⟨trivial, trivial⟩ rfl
  | call procedure arg next => exact push (X := [.bind next]) rfl ⟨trivial, trivial⟩ rfl
  | _ => exact same rfl rfl

end Shifts

/-- Every step shifts the spine in one of these ways. -/
theorem step_shifts [Contents ω] (h : m.fibers.Seated) : Shifts m (m.step Γ) := by
  cases hreleasing : m.releasing with
  | cons x hs =>
    rw [step_releasing hreleasing]
    exact .releaseOne m x hs
  | nil =>
    cases hcontrol : m.control with
    | eval c =>
      simp only [step, hreleasing, hcontrol]
      exact .eval ⟨hreleasing, hcontrol⟩
    | ret v =>
      simp only [step, hreleasing, hcontrol]
      exact .give v
    | deliver s =>
      simp only [step, hreleasing, hcontrol]
      exact .deliver hcontrol
    | settle answer v =>
      simp only [step, hreleasing, hcontrol]
      exact .settle (U := []) m rfl rfl answer v []
    | request r =>
      simp only [step, hreleasing, hcontrol]
      exact .forward h r
    | wake =>
      simp only [step, hreleasing, hcontrol]
      exact .wake
    | unwind message =>
      simp only [step, hreleasing, hcontrol]
      exact .unwind message
    | fault f =>
      simp only [step, hreleasing, hcontrol]
      exact .same rfl rfl
    | halted o =>
      rw [step_halted hcontrol hreleasing]
      exact .same rfl rfl

end Machine

end EffectHandlers
