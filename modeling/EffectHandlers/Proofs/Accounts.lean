import EffectHandlers.Proofs.Evaluating
/-!
# Accounts of continuations and exchanges

What happens to continuations and results is entered into accounts: which continuations are held
under a number, which were resumed and have not started, what lies in the exchanges, and who waits
for what. A `Dealing` is what a step does with a resumption on purpose. Any other step gives up
some of the accounts at most, or takes part in sending a command.
-/

namespace EffectHandlers

variable {ω : Type} {Γ : Library ω} {m m' : Machine ω} {a : Activation ω}
  {S S' : List (Activation ω)} {k : Cont ω}

/-! ### Who waits -/

/-- Code that waits at an exchange. -/
structure Wait (ω : Type) where
  exchange : ExchangeId
  /-- Whether a plain clause runs in the place of the invocation. -/
  inPlace : Bool
  /-- The code that gets the result. -/
  below : List (Activation ω)

/-- The exchange at which an activation waits, and whether it waits for a plain clause. -/
def Activation.wait? : Activation ω → Option (ExchangeId × Bool)
  | sending _ e .. => some (e, false)
  | inPlace _ _ _ e => some (e, true)
  | _ => none

/-- What waits in a piece of code. -/
def waitsIn : List (Activation ω) → List (Wait ω)
  | [] => []
  | a :: S => (a.wait?.map fun w => ⟨w.1, w.2, S⟩).toList ++ waitsIn S

theorem waitsIn_of_wait? (h : a.wait? = none) (S : List (Activation ω)) :
    waitsIn (a :: S) = waitsIn S := by
  simp [waitsIn, h]

theorem waitsIn_subperm (a : Activation ω) (S : List (Activation ω)) :
    (waitsIn S).Subperm (waitsIn (a :: S)) :=
  (List.sublist_append_right _ _).subperm

namespace Fibers

/-- What waits in the code that is not running. -/
def waits (fs : Fibers (List (Activation ω))) : List (Wait ω) :=
  fs.resumers.flatMap (waitsIn ·.code) ++ fs.parked.entries.flatMap (waitsIn ·.2)

variable {f : FiberId} {fs fs' : Fibers (List (Activation ω))} {code running : List (Activation ω)}

/-- The entry of a parked fiber is the only one that goes. -/
theorem waits_erase (h : fs.parked.find? f = some code) :
    fs.waits.Perm (waitsIn code ++ ({ fs with parked := fs.parked.erase f } : Fibers _).waits) := by
  have hperm := (Store.entries_perm_erase h).flatMap_right (waitsIn ·.2)
  simp only [List.flatMap_cons] at hperm
  refine (hperm.append_left _).trans ?_
  simp only [waits, ← List.append_assoc]
  exact List.perm_append_comm.append_right _

/-- Code that is resumed changes its place. -/
theorem waits_resume (h : fs.resume? f running = some (code, fs')) :
    (waitsIn code ++ fs'.waits).Perm (waitsIn running ++ fs.waits) := by
  simp only [resume?, Option.map_eq_some_iff, Prod.mk.injEq] at h
  obtain ⟨code', hfound, rfl, rfl⟩ := h
  refine List.Perm.trans ?_ ((waits_erase hfound).append_left _).symm
  simp only [waits, List.flatMap_cons, ← List.append_assoc]
  exact (List.perm_append_comm.append_right _).append_right _

/-- Code that gets control back changes its place. -/
theorem waits_handBack (h : fs.handBack? = some (code, fs')) :
    fs.waits = waitsIn code ++ fs'.waits := by
  unfold handBack? at h
  split at h
  · cases h
  · rename_i r rest hresumers
    obtain ⟨rfl, rfl⟩ := Prod.mk.inj (Option.some.inj h)
    simp only [waits, hresumers, List.flatMap_cons, List.append_assoc]

/-- Code that is parked changes its place. -/
theorem waits_suspend (h : fs.suspend? running = some (code, fs')) :
    (waitsIn code ++ fs'.waits).Perm (waitsIn running ++ fs.waits) := by
  simp only [suspend?, Option.bind_eq_some_iff] at h
  obtain ⟨f, -, h⟩ := h
  rw [← waits_handBack h]
  simp only [waits, List.flatMap_cons, ← List.append_assoc]
  exact List.perm_append_comm.append_right _

theorem length_resumers_suspend (h : fs.suspend? running = some (code, fs')) :
    fs'.resumers.length < fs.resumers.length := by
  simp only [suspend?, handBack?, Option.bind_eq_some_iff] at h
  obtain ⟨f, -, h⟩ := h
  split at h
  · cases h
  · rename_i r rest hresumers
    obtain ⟨rfl, rfl⟩ := Prod.mk.inj (Option.some.inj h)
    simp [show fs.resumers = r :: rest from hresumers]

end Fibers

/-! ### The accounts -/

/-- The exchange at which the invoker of a captured continuation waits. -/
def Cont.exchange? : Cont ω → Option ExchangeId
  | captured _ _ _ e => some e
  | function .. => none

theorem Cont.exchange?_arm (k : Cont ω) (v : Value) : (k.arm v).exchange? = k.exchange? := by
  cases k <;> rfl

/-- What a thread has that continuations and their results pass through. -/
@[ext]
structure Accounts (ω : Type) where
  resumptions : Store (Cont ω)
  exchanges : Store Exchange
  /-- The continuations that were resumed and have not started. -/
  armed : List (Cont ω)
  /-- Who waits for a result. -/
  waits : List (Wait ω)
  captures : Nat
  resumes : Nat
  tailResumes : Nat
  discarded : Nat

/-- Nothing is entered into the accounts. Waits, exchanges and resumed continuations may be given
up, and a number of the resumptions may be left out. -/
structure Accounts.Fades (a a' : Accounts ω) : Prop where
  resumptions : a'.resumptions = a.resumptions ∨
    a'.resumptions = { a.resumptions with next := a.resumptions.next + 1 }
  exchanges : a'.exchanges = a.exchanges ∨ ∃ e, a'.exchanges = a.exchanges.erase e
  armed : a'.armed.Sublist a.armed
  waits : a'.waits.Subperm a.waits
  captures : a'.captures = a.captures
  resumes : a'.resumes = a.resumes
  tailResumes : a'.tailResumes = a.tailResumes
  discarded : a'.discarded = a.discarded

theorem Accounts.Fades.refl (a : Accounts ω) : a.Fades a :=
  ⟨.inl rfl, .inl rfl, .refl _, .refl _, rfl, rfl, rfl, rfl⟩

theorem Accounts.Fades.of_eq {a a' : Accounts ω} (h : a' = a) : a.Fades a' := h ▸ .refl a

/-- The request that control hands to a driver. -/
def Control.request? : Control ω → Option Request
  | request r => some r
  | _ => none

namespace Machine

/-- Who waits for a result. -/
def waits (m : Machine ω) : List (Wait ω) := waitsIn m.stack ++ m.fibers.waits

/-- The accounts of a thread. -/
def accounts (m : Machine ω) : Accounts ω where
  resumptions := m.resumptions
  exchanges := m.exchanges
  armed := m.armed
  waits := m.waits
  captures := m.counters.captures
  resumes := m.counters.resumes
  tailResumes := m.counters.tailResumes
  discarded := m.counters.discarded

theorem armed_of_eval {c : Comp ω} (h : m.control = .eval c) : m.armed = m.pending.toList := by
  simp [armed, h, Control.conts]

/-- A machine without what neither continuations nor results pass through. -/
def traffic (m : Machine ω) : Machine ω :=
  { m with
    chain := Chain.initial, cells := {}, closures := {}, references := {}, declared := []
    pool := {}
    counters :=
      { captures := m.counters.captures, resumes := m.counters.resumes
        tailResumes := m.counters.tailResumes, discarded := m.counters.discarded }
    journal := [], errors := [], statics := [], releasing := [] }

theorem of_traffic (h : m'.traffic = m.traffic) : m'.accounts = m.accounts ∧ m'.fibers = m.fibers ∧
    m'.stack = m.stack ∧ m'.control = m.control := by
  simp only [traffic, Machine.mk.injEq, Tally.mk.injEq, true_and, and_true] at h
  obtain ⟨fibers, exchanges, resumptions, pending, ⟨c, r, t, d⟩, stack, control⟩ := h
  refine ⟨?_, fibers, stack, control⟩
  simp only [accounts, waits, armed, fibers, exchanges, resumptions, pending, c, r, t, d, stack,
    control]

theorem traffic_warn (m : Machine ω) (ws : List SettingsWarning) : (m.warn ws).traffic = m.traffic := by
  unfold warn
  induction ws generalizing m with
  | nil => rfl
  | cons w ws ih => exact ih (m.trace (.warning w))

theorem traffic_reportLines (m : Machine ω) : m.reportLines.2.traffic = m.traffic :=
  traffic_warn { m with pool := { m.pool with settings := m.pool.settings.use.2.1 } } _

theorem traffic_view (m : Machine ω) (v : View) : (m.view v).traffic = m.traffic := by
  cases v with
  | report => exact m.traffic_reportLines
  | _ => rfl

theorem traffic_print (m : Machine ω) (p : Printout) : (m.print p).traffic = m.traffic := by
  cases p with
  | report => exact m.traffic_reportLines
  | _ => rfl

theorem traffic_answer (m : Machine ω) (q : Query) : (m.answer q).2.traffic = m.traffic := by
  cases q <;> rfl

theorem traffic_retain (m : Machine ω) (o : Owned) : (m.retain o).traffic = m.traffic := by
  cases o <;> rfl

theorem traffic_chooseLabel (m : Machine ω) (label : Option Int) :
    (m.chooseLabel label).2.traffic = m.traffic := by
  cases label <;> rfl

theorem traffic_declare (m : Machine ω) (name : String) (h : HandlerType ω) :
    (m.declare name h).2.traffic = m.traffic := by
  unfold declare
  split
  · rfl
  · split <;> rfl

theorem traffic_acquireStack (m : Machine ω) : m.acquireStack.2.traffic = m.traffic := by
  have hwarned : (({ m with pool := m.pool.acquire.2.1 } : Machine ω).warn
      m.pool.acquire.2.2).traffic = m.traffic := traffic_warn _ _
  unfold acquireStack
  rw [← hwarned]
  simp only
  split <;> rfl

end Machine

/-! ### Dealings -/

/-- What a step does with a resumption on purpose. -/
inductive Dealing (ω : Type) where
  /-- A closure becomes a continuation. -/
  | makes (k : Cont ω)
  /-- The continuation moves to a new number. -/
  | takes (r : ResumptionId) (k : Cont ω)
  | resumes (r : ResumptionId) (k : Cont ω) (v : Value)
  | tailResumes (r : ResumptionId) (k : Cont ω) (v : Value)
  | discards (r : ResumptionId) (k : Cont ω)

namespace Dealing

/-- The number that a dealing uses up, with its continuation. -/
def used? : Dealing ω → Option (ResumptionId × Cont ω)
  | makes _ => none
  | takes r k | resumes r k _ | tailResumes r k _ | discards r k => some (r, k)

/-- The continuation that a dealing resumes, and the value for its invoker. -/
def resumed? : Dealing ω → Option (Cont ω × Value)
  | resumes _ k v | tailResumes _ k v => some (k, v)
  | _ => none

/-- The continuation that is to be started, with its value. -/
def armed? : Dealing ω → Option (Cont ω)
  | resumes _ k v | tailResumes _ k v => some (k.arm v)
  | _ => none

/-- What a dealing enters into the accounts. -/
def enter (d : Dealing ω) (a : Accounts ω) : Accounts ω :=
  match d with
  | makes k => { a with resumptions := (a.resumptions.insert k).2 }
  | takes r k => { a with resumptions := ((a.resumptions.erase r).insert k).2 }
  | resumes r k v =>
    { a with
      resumptions := a.resumptions.erase r, exchanges := k.armExchanges a.exchanges v
      armed := a.armed ++ [k.arm v], resumes := a.resumes + 1 }
  | tailResumes r k v =>
    { a with
      resumptions := a.resumptions.erase r, exchanges := k.armExchanges a.exchanges v
      armed := a.armed ++ [k.arm v], tailResumes := a.tailResumes + 1 }
  | discards r _ =>
    { a with resumptions := a.resumptions.erase r, discarded := a.discarded + 1 }

end Dealing

/-- What the next step does with a resumption. -/
def Machine.dealing? (m : Machine ω) : Option (Dealing ω) :=
  match m.releasing, m.control with
  | .asset (.resumption r) :: _, _ => (m.resumptions.find? r).map (.discards r)
  | [], .eval (.function answer f _) =>
    (m.closures.find? f).map fun c => .makes (.function answer c none)
  | [], .eval (.take r _) => (m.resumptions.find? r).map (.takes r)
  | [], .eval (.resume r v _) => (m.resumptions.find? r).map (.resumes r · v)
  | [], .eval (.tailResume r v _) => (m.resumptions.find? r).map (.tailResumes r · v)
  | _, _ => none

/-- What a dealing uses up was there. -/
theorem Machine.find?_of_dealing {d : Dealing ω} {r : ResumptionId} (h : m.dealing? = some d)
    (hd : d.used? = some (r, k)) : m.resumptions.find? r = some k := by
  unfold dealing? at h
  split at h
  all_goals first
    | obtain ⟨x, hx, rfl⟩ := Option.map_eq_some_iff.mp h
    | cases h
  all_goals simp_all [Dealing.used?]

/-- A dealing is entered into the accounts. -/
theorem Machine.step_deals [Contents ω] {d : Dealing ω} (h : m.dealing? = some d) :
    (d.enter m.accounts).Fades (m.step Γ).accounts ∧
      ((m.step Γ).control.request? = none ∨ m.releasing ≠ []) := by
  unfold dealing? at h
  split at h
  · rename_i r hs hreleasing
    obtain ⟨x, hx, rfl⟩ := Option.map_eq_some_iff.mp h
    rw [step_releasing hreleasing]
    simp only [releaseOne, releaseAsset, hx]
    exact ⟨.refl _, .inr (by simp [hreleasing])⟩
  · rename_i answer f next hreleasing hcontrol
    obtain ⟨x, hx, rfl⟩ := Option.map_eq_some_iff.mp h
    simp only [step, hreleasing, hcontrol, eval, hx]
    refine ⟨.of_eq (Accounts.ext rfl rfl ?_ rfl rfl rfl rfl rfl), .inl rfl⟩
    exact (List.append_nil _).trans (armed_of_eval hcontrol).symm
  · rename_i r next hreleasing hcontrol
    obtain ⟨x, hx, rfl⟩ := Option.map_eq_some_iff.mp h
    simp only [step, hreleasing, hcontrol, eval, hx]
    refine ⟨.of_eq (Accounts.ext rfl rfl ?_ rfl rfl rfl rfl rfl), .inl rfl⟩
    exact (List.append_nil _).trans (armed_of_eval hcontrol).symm
  · rename_i r v next hreleasing hcontrol
    obtain ⟨x, hx, rfl⟩ := Option.map_eq_some_iff.mp h
    simp only [step, hreleasing, hcontrol, eval, resume, arm_eq (m := m.push (.bind next)) hx]
    refine ⟨.of_eq (Accounts.ext rfl rfl ?_ rfl rfl rfl rfl rfl), .inl rfl⟩
    exact congrArg (· ++ [x.arm v]) (armed_of_eval hcontrol).symm
  · rename_i r v next hreleasing hcontrol
    obtain ⟨x, hx, rfl⟩ := Option.map_eq_some_iff.mp h
    simp only [step, hreleasing, hcontrol, eval, tailResume, arm_eq hx, bump]
    have harmed := armed_of_eval hcontrol
    split
    · rename_i hpending
      refine ⟨.of_eq (Accounts.ext rfl rfl ?_ rfl rfl rfl rfl rfl), .inl rfl⟩
      show [x.arm v] = m.armed ++ [x.arm v]
      rw [harmed, show m.pending = none from hpending]
      rfl
    · -- the slot is not free, and the continuation is given up
      refine ⟨⟨.inl rfl, .inl rfl, ?_, .refl _, rfl, rfl, rfl, rfl⟩, .inl rfl⟩
      show (m.pending.toList ++ []).Sublist (m.armed ++ [x.arm v])
      rw [harmed]
      exact (List.nil_sublist _).append_left _
  · cases h

end EffectHandlers
