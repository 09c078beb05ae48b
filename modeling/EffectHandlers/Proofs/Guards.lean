import EffectHandlers.Proofs.History
import EffectHandlers.Proofs.Holders
/-!
# Guards are not lost

Code notices the end of its guards, however it ends: a guard that code owns stays with that code,
wherever the code goes, until it is released and noticed. No step of any thread makes one
disappear.
-/

namespace EffectHandlers

variable {ω : Type} {Γ : Library ω}

/-- The guards that code owns. -/
def guardsOf (S : List (Activation ω)) : List Notice := (ownedBy S).filterMap Holding.notice?

theorem guardsOf_append (S T : List (Activation ω)) :
    guardsOf (S ++ T) = guardsOf S ++ guardsOf T := by
  simp only [guardsOf, ownedBy, List.flatMap_append, List.filterMap_append]

theorem guardsOf_cons (a : Activation ω) (S : List (Activation ω)) :
    guardsOf (a :: S) = a.owned.filterMap Holding.notice? ++ guardsOf S :=
  List.filterMap_append ..

namespace Machine

variable {m m' : Machine ω} {n : Notice} {S : List (Activation ω)}
  {fs : Fibers (List (Activation ω))}

/-- How often code owns a guard, running, waiting or parked. -/
def guards (m : Machine ω) (n : Notice) : Nat :=
  (guardsOf m.stack).count n + (guardsOf m.waiting).count n +
    (m.fibers.parked.gather guardsOf).count n

/-- How often a guard has been noticed, or will be at some time. -/
def due (m : Machine ω) (n : Notice) : Nat :=
  m.guards n + (m.releasing.filterMap Holding.notice?).count n + m.noticed.count n

/-- The code may get more guards, and more may be released and noticed. -/
theorem due_le (hstack : m.stack <:+ m'.stack) (hfibers : m'.fibers = m.fibers)
    (hreleasing : m.releasing <:+ m'.releasing) (hnoticed : m.noticed <:+ m'.noticed) :
    m.due n ≤ m'.due n := by
  obtain ⟨S, hS⟩ := hstack
  have hreleased := (hreleasing.filterMap Holding.notice?).sublist.count_le n
  have hpast := hnoticed.sublist.count_le n
  simp only [due, guards, waiting, hfibers, ← hS, guardsOf_append, List.count_append]
  omega

/-- Guards are in code, or they are released or noticed. -/
theorem due_congr (hstack : m'.stack = m.stack) (hfibers : m'.fibers = m.fibers)
    (hreleasing : m'.releasing = m.releasing) (hjournal : m'.journal = m.journal) :
    m'.due n = m.due n := by
  simp only [due, guards, waiting, noticed, hstack, hfibers, hreleasing, hjournal]

/-- Guards of the running code may be released. -/
theorem due_release (m : Machine ω) (hs : List Holding) :
    (m.release hs).due n = m.due n + (hs.filterMap Holding.notice?).count n := by
  simp only [due, release, guards, waiting, noticed, List.filterMap_append, List.count_append]
  omega

theorem due_push (m : Machine ω) (a : Activation ω) :
    (m.push a).due n = m.due n + (a.owned.filterMap Holding.notice?).count n := by
  simp only [due, push, guards, waiting, noticed, guardsOf_cons, List.count_append]
  omega

theorem due_pop {a : Activation ω} (h : m.stack = a :: S) :
    m.due n = ({ m with stack := S } : Machine ω).due n +
      (a.owned.filterMap Holding.notice?).count n := by
  have hsame : m = ({ m with stack := S } : Machine ω).push a := by simp only [push, ← h]
  have hpush := due_push (n := n) ({ m with stack := S } : Machine ω) a
  rwa [← hsame] at hpush

theorem due_drop {a : Activation ω} (h : m.stack = a :: S)
    (ha : a.owned.filterMap Holding.notice? = []) :
    ({ m with stack := S } : Machine ω).due n = m.due n := by
  rw [due_pop h, ha, List.count_nil, Nat.add_zero]

/-! ### Notes -/

@[simp] theorem due_goOn (m : Machine ω) (c : Control ω) : (m.goOn c).due n = m.due n := rfl

@[simp] theorem due_trace (m : Machine ω) (e : TraceEvent) : (m.trace e).due n = m.due n := rfl

@[simp] theorem due_bump (m : Machine ω) (c : Counter) : (m.bump c).due n = m.due n := rfl

@[simp] theorem due_warn (m : Machine ω) (ws : List SettingsWarning) :
    (m.warn ws).due n = m.due n := by
  unfold warn
  induction ws generalizing m with
  | nil => rfl
  | cons w ws ih => exact ih (m.trace (.warning w))

theorem due_record (m : Machine ω) (e : Event) : m.due n ≤ (m.record e).due n :=
  due_le List.suffix_rfl rfl List.suffix_rfl ((List.suffix_cons e m.journal).filterMap _)

theorem due_reportLines (m : Machine ω) : m.reportLines.2.due n = m.due n :=
  due_warn { m with pool := { m.pool with settings := m.pool.settings.use.2.1 } } _

theorem due_view (m : Machine ω) (v : View) : m.due n ≤ (m.view v).due n := by
  cases v with
  | report =>
    rw [← due_reportLines m]
    exact due_record _ _
  | _ => exact due_record _ _

theorem due_print (m : Machine ω) (p : Printout) : (m.print p).due n = m.due n := by
  cases p with
  | report =>
    rw [← due_reportLines m, print]
    generalize m.reportLines = p
    rfl
  | _ => rfl

theorem due_declare (m : Machine ω) (name : String) (h : HandlerType ω) :
    (m.declare name h).2.due n = m.due n := by
  unfold declare
  split
  · rfl
  · split <;> rfl

theorem due_acquireStack (m : Machine ω) : m.acquireStack.2.due n = m.due n := by
  have hwarn := due_warn (n := n) { m with pool := m.pool.acquire.2.1 } m.pool.acquire.2.2
  unfold acquireStack
  simp only
  split
  · exact hwarn
  · rw [due_bump]
    exact hwarn
  · rw [due_bump, due_bump]
    exact hwarn

theorem due_answer (m : Machine ω) (q : Query) : (m.answer q).2.due n = m.due n := by
  cases q <;> rfl

theorem due_retain (m : Machine ω) (o : Owned) : (m.retain o).due n = m.due n := by
  cases o <;> rfl

theorem due_arm {r : ResumptionId} {v : Value} {k : Cont ω} (h : m.arm r v = some (k, m')) :
    m'.due n = m.due n := by
  obtain ⟨k', -, heq⟩ := Option.map_eq_some_iff.mp h
  cases k' <;> obtain ⟨-, rfl⟩ := Prod.mk.inj heq <;> rfl

theorem due_takeCommand {e : ExchangeId} {command : Command}
    (h : m.takeCommand e = some (command, m')) : m'.due n = m.due n := by
  obtain ⟨x, -, h⟩ := Option.bind_eq_some_iff.mp h
  obtain ⟨command', -, h⟩ := Option.bind_eq_some_iff.mp h
  obtain ⟨-, rfl⟩ := Prod.mk.inj (Option.some.inj h)
  rfl

/-! ### Fibers -/

theorem due_create (m : Machine ω) (code : List (Activation ω)) :
    ({ m with fibers := (m.fibers.create code).2 } : Machine ω).due n =
      m.due n + (guardsOf code).count n := by
  have hcount := Store.count_gather_insert guardsOf m.fibers.parked code n
  simp only [due, guards, waiting, noticed, Fibers.create, hcount]
  omega

/-- The running code gives way to a parked fiber, and waits. -/
theorem due_resume {f : FiberId} {code : List (Activation ω)}
    (h : m.fibers.resume? f code = some (S, fs)) :
    ({ m with fibers := fs, stack := S } : Machine ω).due n + (guardsOf m.stack).count n =
      m.due n + (guardsOf code).count n := by
  obtain ⟨S', hS, heq⟩ := Option.map_eq_some_iff.mp h
  obtain ⟨rfl, rfl⟩ := Prod.mk.inj heq
  have hcount := Store.count_gather_erase guardsOf hS n
  simp only [due, guards, waiting, noticed, List.flatMap_cons, guardsOf_append, List.count_append]
  omega

/-- Whoever waits for the running fiber gets control back. -/
theorem due_handBack (h : m.fibers.handBack? = some (S, fs)) :
    ({ m with fibers := fs, stack := S } : Machine ω).due n + (guardsOf m.stack).count n =
      m.due n := by
  unfold Fibers.handBack? at h
  split at h
  · cases h
  · rename_i r rest hresumers
    obtain ⟨rfl, rfl⟩ := Prod.mk.inj (Option.some.inj h)
    simp only [due, guards, waiting, noticed, hresumers, List.flatMap_cons, guardsOf_append,
      List.count_append]
    omega

/-- The running code is parked. -/
theorem due_suspend (h : m.fibers.suspend? m.stack = some (S, fs)) :
    ({ m with fibers := fs, stack := S } : Machine ω).due n = m.due n := by
  obtain ⟨f, -, h⟩ := Option.bind_eq_some_iff.mp h
  let parked : Store (List (Activation ω)) :=
    ⟨m.fibers.parked.next, (f, m.stack) :: m.fibers.parked.entries⟩
  have hback := due_handBack (n := n) (m := { m with fibers := { m.fibers with parked } }) h
  have hparked : (parked.gather guardsOf).count n =
      (guardsOf m.stack).count n + (m.fibers.parked.gather guardsOf).count n := by
    simp only [parked, Store.gather, List.flatMap_cons, List.count_append]
  simp only [due, guards, waiting, noticed] at hback hparked ⊢
  omega

theorem due_enter (m : Machine ω) (i : InstallationId) (f : FiberId) :
    (m.enter i f).due n = m.due n := by
  unfold enter
  split
  · rename_i S fs hresume
    have hdue := due_resume (n := n) hresume
    have hdriver : guardsOf (.driving i f :: m.stack) = guardsOf m.stack := rfl
    rw [hdriver] at hdue
    change ({ m with fibers := fs, stack := S } : Machine ω).due n = _
    omega
  · rfl

theorem due_stepCont (m : Machine ω) (k : Cont ω) : (m.stepCont k).due n = m.due n := by
  cases k with
  | captured answer f s e =>
    exact due_enter { m.trace _ with chain := m.chain.splice s } s.lowest f
  | function answer g arg => cases arg <;> rfl

/-! ### Operations -/

theorem due_install (m : Machine ω) (x : Installing) (body : ReferenceId → Comp ω) :
    m.due n ≤ (m.install Γ x body).due n := by
  have hlabel : (m.chooseLabel x.label).2.due n = m.due n := by cases x.label <;> rfl
  unfold install
  simp only
  split
  · rename_i f m₁ heq
    rw [heq] at hlabel
    exact hlabel.ge
  · rename_i label m₁ heq
    rw [heq] at hlabel
    have hdeclare := due_declare (n := n) m₁ x.handlerType (Γ.handlerType x.handlerType)
    split
    · rename_i f m₂ heq
      rw [heq] at hdeclare
      exact (hdeclare.trans hlabel).ge
    · rename_i m₂ heq
      rw [heq] at hdeclare
      have hacquire := due_acquireStack (n := n) m₂
      split
      · rename_i m₃ heq
        rw [heq] at hacquire
        exact (hacquire.trans (hdeclare.trans hlabel)).ge
      · rename_i m₃ heq
        rw [heq] at hacquire
        refine (hacquire.trans (hdeclare.trans hlabel)).ge.trans ?_
        rw [due_goOn, discard, due_release]
        exact Nat.le_add_right _ _
      · rename_i m₃ heq
        rw [heq] at hacquire
        refine (hacquire.trans (hdeclare.trans hlabel)).ge.trans ?_
        rw [due_enter]
        exact (Nat.le_add_right _ _).trans (due_create m₃ _).ge

theorem due_sendInPlace (m : Machine ω) (i : InstallationId) (position : Nat) (command : Command) :
    m.due n ≤ (m.sendInPlace Γ i position command).due n := by
  unfold sendInPlace
  split
  · simp only
    have hsame : m.due n ≤ ((m.hold i).retain (.cell (m.chain.get i).handler)).due n :=
      (due_congr rfl rfl rfl rfl).ge
    split
    · rw [due_goOn, due_release]
      exact (due_congr rfl rfl rfl rfl).ge.trans (Nat.le_add_right _ _)
    · split
      · exact hsame
      · rename_i command' m₁ htaken
        have htake := due_takeCommand (n := n) htaken
        rw [due_goOn, due_push, due_push, htake]
        exact hsame.trans (Nat.le_add_right_of_le (Nat.le_add_right _ _))
  · exact Nat.le_refl _

theorem due_send (m : Machine ω) (i : InstallationId) (position : Nat) (command : Command) :
    m.due n ≤ (m.send Γ i position command).due n := by
  unfold send
  simp only
  split
  · exact due_sendInPlace m i position command
  · rw [due_goOn, due_push, due_trace]
    exact (due_congr rfl rfl rfl rfl).ge.trans (Nat.le_add_right _ _)

theorem due_runClause (m : Machine ω) (handler : CellId) (answer : String) (f : FiberId)
    (s : Segment) (e : ExchangeId) (command : Command) (code : ClauseCode ω) :
    m.due n ≤ (m.runClause handler answer f s e command code).due n := by
  cases code with
  | resumptive code | noManage code =>
    rw [runClause, due_goOn, due_push]
    exact (due_congr rfl rfl rfl rfl).ge.trans (Nat.le_add_right _ _)
  | noResume code | plain code =>
    simp only [runClause, due_goOn, due_release, due_push, due_trace]
    exact Nat.le_add_right_of_le (Nat.le_add_right _ _)

theorem due_capture (m : Machine ω) (i : InstallationId) (f : FiberId) (r : Request) :
    m.due n ≤ (m.capture Γ i f r).due n := by
  unfold capture
  simp only
  split
  · exact Nat.le_refl _
  · exact Nat.le_refl _
  · rename_i code _ hcode
    split
    · rw [due_goOn, due_release]
      exact Nat.le_add_right _ _
    · rename_i s c hsplit
      have hkept : ∀ m₁ : Machine ω, m₁.due n ≤
          (if code.modifier = .noManage then m₁.release [.installation i] else m₁).due n := by
        intro m₁
        split
        · rw [due_release]
          exact Nat.le_add_right _ _
        · exact Nat.le_refl _
      have hcut : ((({ m with chain := c }.hold i).bump .captures).trace
          (.captured (m.chain.get i).label (m.chain.get i).name (c.segmentLength s)
            code.modifier)).due n = m.due n := by
        rw [due_trace, due_bump]
        exact due_congr rfl rfl rfl rfl
      refine (hcut.ge.trans (hkept _)).trans ?_
      split
      all_goals
        split
        · exact Nat.le_refl _
        · rename_i command m₁ htaken
          have htake := due_takeCommand (n := n) htaken
          refine htake.ge.trans (le_trans ?_ (due_runClause ..))
          rw [due_push]
          exact Nat.le_add_right _ _

theorem due_finish (m : Machine ω) (i : InstallationId) (v : Value) :
    m.due n ≤ (m.finish Γ i v).due n := by
  unfold finish
  split
  · exact Nat.le_refl _
  · simp only
    split <;> exact Nat.le_refl _

theorem due_settle (m : Machine ω) (answer : String) (v : Value) (kept : List Holding) :
    m.due n ≤ (m.settle answer v kept).due n := by
  unfold settle
  split
  · rw [due_goOn, due_release]
    exact Nat.le_add_right _ _
  · simp only
    split
    · rw [due_goOn, due_release]
      exact Nat.le_add_right _ _
    · exact Nat.le_refl _

theorem due_eval [Contents ω] (m : Machine ω) (c : Comp ω) : m.due n ≤ (m.eval Γ c).due n := by
  have hpush : ∀ a, m.due n ≤ (m.push a).due n := fun a => by
    rw [due_push]
    exact Nat.le_add_right _ _
  cases c with
  | record e next => exact due_record m e
  | retain o next => exact (due_retain m o).ge
  | release os next =>
    simp only [eval, due_goOn, discard, due_release]
    exact Nat.le_add_right _ _
  | scope os body next =>
    simp only [eval, due_goOn, due_push]
    exact Nat.le_add_right_of_le (Nat.le_add_right _ _)
  | catching body next | loop seed body next | call procedure arg next => exact hpush _
  | apply f arg next =>
    simp only [eval, applyClosure]
    split <;> exact hpush _
  | handle i body next => exact (hpush _).trans (due_install ..)
  | invoke target command next =>
    simp only [eval]
    split
    · exact Nat.le_refl _
    · exact (hpush _).trans (due_send ..)
  | find search next | copy r next | function answer f next | take r next =>
    simp only [eval]
    split <;> exact Nat.le_refl _
  | resume r v next =>
    simp only [eval, resume]
    split
    · exact hpush _
    · rename_i k m₁ harm
      exact (hpush _).trans (due_arm harm).ge
  | tailResume r v next =>
    simp only [eval, tailResume]
    split
    · exact Nat.le_refl _
    · rename_i k m₁ harm
      have hsame := (due_arm (n := n) harm).ge
      split
      · exact hsame
      · refine hsame.trans ?_
        rw [due_goOn, due_release]
        exact Nat.le_add_right _ _
  | ask q next => exact (due_answer m q).ge
  | view v next => exact due_view m v
  | print p next => exact (due_print m p).ge
  | popBare next =>
    simp only [eval]
    split
    · exact Nat.le_refl _
    · rw [due_goOn, due_release]
      exact Nat.le_add_right _ _
  | _ => exact Nat.le_refl _

/-! ### Control -/

theorem due_handsBack {control : Control ω} (h : m.handBack control = some m')
    (hstack : m.stack = []) : m'.due n = m.due n := by
  obtain ⟨⟨S, fs⟩, hback, rfl⟩ := Option.map_eq_some_iff.mp h
  have hdue := due_handBack (n := n) hback
  rw [hstack] at hdue
  exact hdue

theorem due_give (m : Machine ω) (v : Value) : m.due n ≤ (m.give Γ v).due n := by
  unfold give
  split
  · rename_i hnil
    split
    · exact Nat.le_refl _
    · rename_i m₁ hback
      have hwarn := due_warn (n := n) { m₁ with pool := m₁.pool.giveBack.1 } m₁.pool.giveBack.2
      exact ((hwarn.trans (due_handsBack hback hnil : m₁.due n = m.due n))).ge
  · rename_i a S hstack
    have hpop := due_pop (n := n) hstack
    have hnone : a.owned.filterMap Holding.notice? = [] → m.due n ≤
        ({ m with stack := S } : Machine ω).due n := fun ha => (due_drop hstack ha).ge
    cases a with
    | owning os =>
      rw [hpop]
      exact (due_release { m with stack := S } (os.map .asset)).ge
    | driving i f => exact (hnone rfl).trans (due_finish ..)
    | returning i answer => exact (hnone rfl).trans (due_settle ..)
    | calling answer => exact (hnone rfl).trans (due_settle ..)
    | clause keep answer =>
      rw [hpop]
      exact (due_release { m with stack := S } (keep.map Holding.installation).toList).ge
    | inPlace i handler hidden exchange =>
      refine (hnone rfl).trans ?_
      simp only [due_release]
      exact Nat.le_add_right _ _
    | looping body next =>
      refine (hnone rfl).trans ?_
      simp only
      split
      · rw [due_goOn, due_push]
        exact Nat.le_add_right _ _
      · exact Nat.le_refl _
      · exact Nat.le_refl _
    | _ => exact hnone rfl

theorem due_deliver (m : Machine ω) (s : Step (Cont ω) Value) :
    m.due n ≤ (m.deliver s).due n := by
  unfold deliver
  split
  · rename_i S hstack
    cases s with
    | done v => exact (due_drop hstack rfl).ge
    | tail k => exact (due_stepCont m k).ge
  · exact Nat.le_refl _

theorem due_wake (m : Machine ω) : m.due n ≤ m.wake.due n := by
  unfold wake
  split
  · rename_i body S hstack
    exact (due_drop hstack rfl).ge
  · rename_i i f S hstack
    exact ((due_enter ..).trans (due_drop hstack rfl)).ge
  · rename_i i e modifier command S hstack
    split
    · exact Nat.le_refl _
    · split
      · rw [due_release]
        refine (due_drop hstack rfl).ge.trans (Nat.le_add_right_of_le ?_)
        exact (due_congr rfl rfl rfl rfl).ge
      · exact Nat.le_refl _
  · exact Nat.le_refl _

theorem due_forward (m : Machine ω) (r : Request) : m.due n ≤ (m.forward Γ r).due n := by
  unfold forward
  split
  · exact Nat.le_refl _
  · rename_i S fs hsuspend
    have hdue := (due_suspend (n := n) hsuspend).ge
    simp only
    split
    · rename_i i f rest
      split
      · refine hdue.trans (le_trans ?_ (due_capture ..))
        exact (due_drop (m := { m with fibers := fs, stack := .driving i f :: rest }) rfl rfl).ge
      · exact hdue
    · exact hdue

theorem due_unwind (m : Machine ω) (message : String) : m.due n ≤ (m.unwind message).due n := by
  unfold unwind
  split
  · rename_i hnil
    cases hback : m.handBack (.unwind message) with
    | none => exact Nat.le_refl _
    | some m₁ => exact (due_handsBack hback hnil).ge
  · rename_i next S hstack
    exact (due_drop hstack rfl).ge
  · rename_i a S _ hstack
    rw [due_pop hstack]
    exact (due_release { m with stack := S } a.owned).ge

theorem due_exit (m : Machine ω) (f : Fault) : m.due n ≤ (m.exit f).due n := by
  simp only [exit, due_goOn, due_release, due_trace]
  exact Nat.le_add_right _ _

variable [Contents ω]

/-- What is released is unwound, or noticed. -/
theorem due_releaseOne {x : Holding} {hs : List Holding} (hreleasing : m.releasing = x :: hs) :
    m.due n ≤ (({ m with releasing := hs } : Machine ω).releaseOne x).due n := by
  let m₁ : Machine ω := { m with releasing := hs }
  have hless : m.due n = m₁.due n + x.notice?.toList.count n := by
    simp only [m₁, due, guards, waiting, noticed, hreleasing, List.filterMap_cons]
    cases x.notice? with
    | none => simp
    | some n' =>
      simp only [List.count_cons, Option.toList_some, List.count_nil]
      omega
  have hnone : x.notice? = none → m.due n ≤ m₁.due n := by
    intro hnotice
    rw [hless, hnotice]
    exact Nat.le_refl _
  have hmore : ∀ (m₂ : Machine ω) hs, x.notice? = none → m₂.due n = m₁.due n →
      m.due n ≤ (m₂.release hs).due n := by
    intro m₂ hs hnotice hsame
    rw [due_release, hsame]
    exact (hnone hnotice).trans (Nat.le_add_right _ _)
  change m.due n ≤ (m₁.releaseOne x).due n
  cases x with
  | asset o =>
    cases o with
    | notice n' =>
      rw [hless]
      refine Nat.le_of_eq ?_
      simp only [releaseOne, releaseAsset, due, guards, waiting, noticed, record, Holding.notice?,
        List.filterMap_cons, Notice.notice?_event, List.count_cons, Option.toList_some,
        List.count_nil]
      omega
    | cell c =>
      simp only [releaseOne, releaseAsset, releaseCell]
      split
      · exact hnone rfl
      · split
        · exact hmore _ _ rfl rfl
        · exact hnone rfl
    | _ =>
      simp only [releaseOne, releaseAsset]
      split
      · exact hnone rfl
      · exact hmore _ _ rfl rfl
  | installation i =>
    simp only [releaseOne, releaseInstallation]
    split
    · exact hnone rfl
    · split
      · exact hmore _ _ rfl rfl
      · exact hnone rfl
  | fiber f =>
    simp only [releaseOne]
    split
    · exact hnone rfl
    · rename_i S fs hdrop
      obtain ⟨S', hS, heq⟩ := Option.map_eq_some_iff.mp hdrop
      obtain ⟨rfl, rfl⟩ := Prod.mk.inj heq
      have hcount := Store.count_gather_erase guardsOf hS n
      refine (hnone rfl).trans ?_
      rw [due_release]
      simp only [due, guards, waiting, noticed, m₁] at hcount ⊢
      change _ ≤ _ + (guardsOf S').count n
      omega
  | exchange e =>
    simp only [releaseOne]
    split
    · exact hnone rfl
    · exact hmore _ _ rfl rfl

/-- A guard that is owned stays owned until it is noticed. -/
theorem due_step (m : Machine ω) : m.due n ≤ (m.step Γ).due n := by
  unfold step
  split
  · rename_i x hs hreleasing
    exact due_releaseOne hreleasing
  · split
    · exact due_eval ..
    · exact due_give ..
    · exact due_deliver ..
    · exact due_settle ..
    · exact due_forward ..
    · exact due_wake ..
    · exact due_unwind ..
    · exact due_exit ..
    · exact Nat.le_refl _

/-- Over any stretch of a run, no guard gets lost. -/
theorem due_run (m : Machine ω) {k l : Nat} (h : k ≤ l) :
    (run Γ k m).due n ≤ (run Γ l m).due n := by
  induction h with
  | refl => exact Nat.le_refl _
  | step _ ih =>
    rw [run_succ]
    exact ih.trans (due_step _)

/-- Where no code is left, all guards that code has ever owned are noticed. -/
theorem count_noticed (m : Machine ω) {k l : Nat} (h : k ≤ l) (hguards : (run Γ l m).guards n = 0)
    (hreleasing : (run Γ l m).releasing = []) :
    (run Γ k m).guards n ≤ (run Γ l m).noticed.count n := by
  have hdue := due_run (n := n) (Γ := Γ) m h
  simp only [due, hguards, hreleasing, List.filterMap_nil, List.count_nil] at hdue
  omega

end Machine

end EffectHandlers
