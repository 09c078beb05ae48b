import EffectHandlers.Proofs.Ledger
import EffectHandlers.Proofs.Suspended
/-!
# Parked fibers and sound states

## Parked fibers

The parked fibers of a thread are the fibers of some towers, each in one tower only, and none of
them is waited for. There is one lemma for each way of switching between fibers.
-/

namespace EffectHandlers

variable {ω : Type} {fs : Fibers (List (Activation ω))} {ts ts' : List (Tower ω)} {t : Tower ω}
  {f : FiberId} {i : InstallationId} {code : List (Activation ω)}

/-- The parked fibers are those of these towers; the others that exist are waited for. -/
structure Parks (fs : Fibers (List (Activation ω))) (ts : List (Tower ω)) : Prop where
  entries : fs.parked.entries.Perm (ts.flatMap Tower.entries)
  wellFormed : fs.parked.WellFormed
  distinct : (fs.resumers.map (·.fiber) ++ fs.parked.entries.map (·.1)).Nodup
  issued : ∀ r ∈ fs.resumers, r.fiber < fs.parked.next
  waiters : Waiters fs.current fs.resumers

namespace Parks

/-- The order of the towers does not matter. -/
theorem perm (h : Parks fs ts) (hperm : ts.Perm ts') : Parks fs ts' :=
  { h with entries := h.entries.trans (hperm.flatMap_right _) }

/-- The fiber at the bottom of a tower is parked with its stack. -/
theorem find?_root (h : Parks fs (t :: ts)) : fs.parked.find? t.root = some t.stack := by
  rw [Store.find?_eq_some_iff h.wellFormed]
  refine h.entries.mem_iff.mpr ?_
  rw [List.flatMap_cons, Tower.entries_eq]
  exact List.mem_append_left _ (List.mem_cons_self ..)

/-- Taking the fiber at the bottom of a tower out leaves the rest of the tower. -/
theorem entries_erase (h : Parks fs (t :: ts)) :
    (fs.parked.erase t.root).entries.Perm ((t.rest ++ ts).flatMap Tower.entries) := by
  have hout := (Store.entries_perm_erase h.find?_root).symm.trans h.entries
  rw [List.flatMap_cons, Tower.entries_eq, List.cons_append] at hout
  rw [List.flatMap_append]
  exact hout.cons_inv

/-- A parked fiber is distinct from those that are waited for and from the other parked ones. -/
theorem distinct_erase (h : Parks fs (t :: ts)) :
    (fs.resumers.map (·.fiber) ++ t.root :: (fs.parked.erase t.root).entries.map (·.1)).Nodup := by
  have hkeys := (Store.entries_perm_erase h.find?_root).map (·.1)
  exact (hkeys.append_left _).nodup h.distinct

/-- Dropping the fiber at the bottom of a tower. -/
theorem drop (h : Parks fs (t :: ts)) :
    ∃ fs', fs.drop? t.root = some (t.stack, fs') ∧ fs'.current = fs.current ∧
      fs'.resumers = fs.resumers ∧ Parks fs' (t.rest ++ ts) := by
  have hdrop : fs.drop? t.root =
      some (t.stack, { fs with parked := fs.parked.erase t.root }) := by
    simp [Fibers.drop?, h.find?_root]
  refine ⟨_, hdrop, rfl, rfl, ?_⟩
  exact
    { entries := h.entries_erase
      wellFormed := Store.wellFormed_erase h.wellFormed _
      distinct := h.distinct_erase.sublist ((List.sublist_cons_self _ _).append_left _)
      issued := h.issued
      waiters := h.waiters }

/-- Resuming the fiber at the bottom of a tower. -/
theorem resume (h : Parks fs (t :: ts)) (hcode : Driving i t.root code) :
    ∃ fs', fs.resume? t.root code = some (t.stack, fs') ∧ fs'.current = some t.root ∧
      fs'.resumers = ⟨t.root, fs.current, code⟩ :: fs.resumers ∧ Parks fs' (t.rest ++ ts) := by
  refine ⟨{ parked := fs.parked.erase t.root, current := some t.root,
            resumers := ⟨t.root, fs.current, code⟩ :: fs.resumers }, ?_, rfl, rfl, ?_⟩
  · simp [Fibers.resume?, h.find?_root]
  · refine
      { entries := h.entries_erase
        wellFormed := Store.wellFormed_erase h.wellFormed _
        distinct := List.perm_middle.nodup h.distinct_erase
        issued := ?_
        waiters := .fiber hcode h.waiters }
    intro r hr
    rcases List.mem_cons.mp hr with rfl | hr
    · exact Store.lt_next h.wellFormed h.find?_root
    · exact h.issued r hr

/-- Making a fiber and resuming it at once. -/
theorem start (h : Parks fs ts) (body : List (Activation ω))
    (hcode : Driving i fs.parked.next code) :
    ∃ fs', (fs.create body).2.resume? (fs.create body).1 code = some (body, fs') ∧
      fs'.current = some fs.parked.next ∧
      fs'.resumers = ⟨fs.parked.next, fs.current, code⟩ :: fs.resumers ∧ Parks fs' ts := by
  have herase : ((fs.parked.insert body).2.erase fs.parked.next).entries = fs.parked.entries := by
    simp [Store.erase, Store.insert]
  refine ⟨{ parked := (fs.parked.insert body).2.erase fs.parked.next
            current := some fs.parked.next
            resumers := ⟨fs.parked.next, fs.current, code⟩ :: fs.resumers }, ?_, rfl, rfl, ?_⟩
  · simp [Fibers.resume?, Fibers.create]
  · refine
      { entries := herase ▸ h.entries
        wellFormed := Store.wellFormed_erase (Store.wellFormed_insert h.wellFormed body) _
        distinct := ?_
        issued := ?_
        waiters := .fiber hcode h.waiters }
    · simp only [herase, List.map_cons, List.cons_append, List.nodup_cons]
      refine ⟨fun hmem => ?_, h.distinct⟩
      rcases List.mem_append.mp hmem with hmem | hmem
      · obtain ⟨r, hr, heq⟩ := List.mem_map.mp hmem
        exact absurd (h.issued r hr) (Nat.not_lt.mpr (Nat.le_of_eq heq.symm))
      · obtain ⟨e, he, heq⟩ := List.mem_map.mp hmem
        exact absurd (h.wellFormed.2 e he) (Nat.not_lt.mpr (Nat.le_of_eq heq.symm))
    · intro r hr
      show r.fiber < fs.parked.next + 1
      rcases List.mem_cons.mp hr with rfl | hr
      · exact Nat.lt_succ_self _
      · exact Nat.lt_succ_of_lt (h.issued r hr)

/-- Suspending the running fiber puts it under the tower of the fibers above it. -/
theorem suspend (h : Parks fs (t.rest ++ ts)) (hcurrent : fs.current = some t.root) :
    ∃ code cur rs fs', fs.resumers = ⟨t.root, cur, code⟩ :: rs ∧
      (∃ i, Driving i t.root code) ∧ fs.suspend? t.stack = some (code, fs') ∧
      fs'.current = cur ∧ fs'.resumers = rs ∧ Parks fs' (t :: ts) := by
  have hw := h.waiters
  have hd := h.distinct
  have hissued := h.issued
  obtain ⟨parked, current, resumers⟩ := fs
  simp only at hcurrent hw hd hissued
  subst hcurrent
  cases hw with
  | @fiber i f cur rs code hcode hrest =>
    refine ⟨code, cur, rs, ⟨⟨parked.next, (t.root, t.stack) :: parked.entries⟩, cur, rs⟩, rfl,
      ⟨_, hcode⟩, ?_, rfl, rfl, ?_⟩
    · simp [Fibers.suspend?, Fibers.handBack?]
    · refine
        { entries := ?_
          wellFormed := ?_
          distinct := List.perm_middle.symm.nodup hd
          issued := fun r hr => hissued r (List.mem_cons_of_mem _ hr)
          waiters := hrest }
      · have hentries := h.entries
        simp only [List.flatMap_append] at hentries
        simpa [Tower.entries_eq t] using hentries
      · refine ⟨(List.perm_middle.symm.nodup hd).sublist (List.sublist_append_right _ _), ?_⟩
        intro e he
        rcases List.mem_cons.mp he with rfl | he
        · exact hissued _ (List.mem_cons_self ..)
        · exact h.wellFormed.2 e he

/-- A fiber that finishes hands control back to the code that waits for it. -/
theorem handBack {r : Resumer (List (Activation ω))} {rs : List (Resumer (List (Activation ω)))}
    (h : Parks fs ts) (hrs : fs.resumers = r :: rs) :
    ∃ fs', fs.handBack? = some (r.code, fs') ∧ fs'.current = r.current ∧ fs'.resumers = rs ∧
      Parks fs' ts ∧ ∃ i f, Driving i f r.code := by
  have hw := h.waiters
  have hd := h.distinct
  rw [hrs] at hw hd
  cases hcur : fs.current with
  | none =>
    rw [hcur] at hw
    cases hw
  | some f =>
    rw [hcur] at hw
    cases hw with
    | @fiber i f cur _ code hcode hrest =>
      refine ⟨{ fs with current := cur, resumers := rs }, ?_, rfl, rfl, ?_, _, _, hcode⟩
      · simp [Fibers.handBack?, hrs]
      · exact
          { entries := h.entries
            wellFormed := h.wellFormed
            distinct := (List.nodup_cons.mp hd).2
            issued := fun r hr => h.issued r (hrs ▸ List.mem_cons_of_mem _ hr)
            waiters := hrest }

end Parks

end EffectHandlers

/-!
## Sound states

The states that orderly programs reach. A layout names what the machine does not write down:
which parked fibers belong together, which of them the continuations go on with, and the code
that lies above the running fiber while a request or a resume is passed along. `Sound` relates a
machine to its layout.
-/

namespace EffectHandlers

variable {ω : Type}

/-- The fiber that is held, if it is a fiber. -/
def Holding.fiber? : Holding → Option FiberId
  | fiber f => some f
  | _ => none

@[simp] theorem Holding.fiber?_asset (o : Owned) : (asset o).fiber? = none := rfl

@[simp] theorem Holding.fiber?_installation (i : InstallationId) :
    (installation i).fiber? = none := rfl

@[simp] theorem Holding.fiber?_fiber (f : FiberId) : (fiber f).fiber? = some f := rfl

@[simp] theorem Holding.fiber?_exchange (e : ExchangeId) : (exchange e).fiber? = none := rfl

/-- Whether a continuation was captured, rather than made of a closure. -/
def Cont.isCaptured : Cont ω → Bool
  | captured .. => true
  | function .. => false

/-- A continuation that finds the value it is resumed with. -/
def Cont.Armed (x : Store Exchange) : Cont ω → Prop
  | captured _ _ _ e => ∃ y, x.find? e = some y ∧ y.result.isSome
  | function _ _ arg => arg.isSome

/-- The continuation that control is about to go on with. -/
def Control.conts : Control ω → List (Cont ω)
  | deliver (.tail k) => [k]
  | _ => []

namespace Machine

/-- The code of all resumers, the latest first. -/
def waiting (m : Machine ω) : List (Activation ω) := m.fibers.resumers.flatMap (·.code)

/-- The continuations that were resumed and have not started. -/
def armed (m : Machine ω) : List (Cont ω) := m.pending.toList ++ m.control.conts

/-- All continuations. -/
def conts (m : Machine ω) : List (Cont ω) := m.resumptions.entries.map (·.2) ++ m.armed

/-- The size of the stacks that new fibers get. -/
def stackSize (m : Machine ω) : Nat := m.pool.settings.use.1.stackSize

end Machine

/-- How the suspended code of a thread belongs together. -/
structure Layout (ω : Type) where
  /-- The running code, and above it that of the fibers that are passed a resume or have passed
  on a request. -/
  front : List (Activation ω)
  /-- The tower above the running fiber. -/
  lifted : List (Tower ω) := []
  /-- The captured continuations that can still be resumed. -/
  kept : List (Kept ω)
  /-- The towers whose lowest fibers are about to be released. -/
  dropped : List (Tower ω)

namespace Layout

/-- The towers that are cut off from the running code. -/
def towers (l : Layout ω) : List (Tower ω) := l.kept.map (·.tower) ++ l.dropped

/-- All code, running or not. -/
def code (l : Layout ω) (m : Machine ω) : List (Activation ω) :=
  l.front ++ m.waiting ++ l.towers.flatMap Tower.code

/-- Everything that is held, apart from what the chain itself holds. -/
def ledger (l : Layout ω) (m : Machine ω) : List Holding :=
  (l.code m).flatMap Activation.owned ++ m.conts.flatMap Cont.owned ++ m.releasing ++
    m.references.entries.map fun e => .installation e.2

/-- How often something is held, by those who can hold it. -/
theorem count_ledger (l : Layout ω) (m : Machine ω) (h : Holding) :
    (l.ledger m).count h = (l.front.flatMap Activation.owned).count h +
      (m.waiting.flatMap Activation.owned).count h +
      ((l.towers.flatMap Tower.code).flatMap Activation.owned).count h +
      (m.conts.flatMap Cont.owned).count h + m.releasing.count h +
      (m.references.entries.map fun e => Holding.installation e.2).count h := by
  simp only [ledger, code, List.flatMap_append, List.count_append]

end Layout

/-- A resume is passed up a tower to its invoker, which will find a result. -/
structure Woken (m : Machine ω) (t : Tower ω) : Prop where
  control : m.control = .wake
  releasing : m.releasing = []
  stack : m.stack = t.stack
  ready : t.Ready
  modifier : t.modifier ≠ .noResume
  result : ∃ y, m.exchanges.find? t.exchange = some y ∧ y.result.isSome

/-- A request is passed down from the invoker of a tower to a driver on the live chain, where a
clause waits for it that captures the continuation. -/
structure Requested (Γ : Library ω) (m : Machine ω) (r : Request) (t : Tower ω) : Prop where
  control : m.control = .request r
  releasing : m.releasing = []
  stack : m.stack = t.stack
  current : m.fibers.current = some t.root
  ready : t.Ready
  exchange : r.exchange = t.exchange
  code : ∃ code, m.codeAt Γ r.target r.entry = some code ∧ code.modifier ≠ .plain ∧
    code.modifier = t.modifier
  command : ∃ y, m.exchanges.find? t.exchange = some y ∧ y.command.isSome
  driver : r.target ∈ drivers m.waiting
  live : r.target ∈ exposed [] (t.code ++ m.waiting)

/-- What the control of a sound state allows on the stack, with the code in front and the tower
above the running fiber. -/
inductive Tip (Γ : Library ω) (m : Machine ω) : List (Activation ω) → List (Tower ω) → Prop
  | eval {c} (hcontrol : m.control = .eval c) (hc : c.Orderly) (hstack : Ready m.stack) :
      Tip Γ m m.stack []
  | ret {v} (hcontrol : m.control = .ret v) (hstack : Ready m.stack) : Tip Γ m m.stack []
  /-- The body of the installation has returned. -/
  | returned {v i f} (hcontrol : m.control = .ret v) (hstack : Driving i f m.stack) :
      Tip Γ m m.stack []
  | deliver {s S} (hcontrol : m.control = .deliver s) (hstack : m.stack = .stepping :: S)
      (hS : Ready S) : Tip Γ m m.stack []
  | settle {answer v S} (hcontrol : m.control = .settle answer v)
      (hstack : m.stack = .stepping :: S) (hS : Ready S) : Tip Γ m m.stack []
  /-- A fiber starts. -/
  | start {body S} (hcontrol : m.control = .wake) (hstack : m.stack = .start body :: S)
      (hbody : body.Orderly) (hS : Ready S) : Tip Γ m m.stack []
  | wake {t : Tower ω} (h : Woken m t) : Tip Γ m t.code t.rest
  | request {r : Request} {t : Tower ω} (h : Requested Γ m r t) : Tip Γ m t.code t.rest

/-- What each control allows. -/
theorem Tip.allows {Γ : Library ω} {m : Machine ω} {F : List (Activation ω)} {T : List (Tower ω)}
    (h : Tip Γ m F T) :
    match m.control with
    | .eval c => F = m.stack ∧ T = [] ∧ c.Orderly ∧ Ready m.stack
    | .ret _ => F = m.stack ∧ T = [] ∧ (Ready m.stack ∨ ∃ i f, Driving i f m.stack)
    | .deliver _ | .settle .. => F = m.stack ∧ T = [] ∧ ∃ S, m.stack = .stepping :: S ∧ Ready S
    | .wake =>
      (∃ body S, F = m.stack ∧ T = [] ∧ m.stack = .start body :: S ∧ body.Orderly ∧ Ready S) ∨
        ∃ t : Tower ω, F = t.code ∧ T = t.rest ∧ Woken m t
    | .request r => ∃ t : Tower ω, F = t.code ∧ T = t.rest ∧ Requested Γ m r t
    | _ => False := by
  cases h with
  | eval hc hx hs => simp only [hc, hx, hs, true_and]
  | ret hc hs => simp only [hc, hs, true_or, true_and]
  | returned hc hs =>
    simp only [hc, true_and]
    exact .inr ⟨_, _, hs⟩
  | deliver hc hs hS | settle hc hs hS =>
    simp only [hc, true_and]
    exact ⟨_, hs, hS⟩
  | start hc hs hb hS =>
    simp only [hc, true_and]
    exact .inl ⟨_, _, hs, hb, hS⟩
  | wake hw =>
    simp only [hw.control]
    exact .inr ⟨_, rfl, rfl, hw⟩
  | request hr =>
    simp only [hr.control]
    exact ⟨_, rfl, rfl, hr⟩

/-- Installations declare what their handler types say, apart from the bottom one. -/
def Declares (Γ : Library ω) (c : Chain) : Prop :=
  ∀ i a, i ≠ 0 → c.installations.find? i = some a →
    a.clauses = (Γ.handlerType a.handlerType).entries

namespace Declares

variable {Γ : Library ω} {c c' : Chain} {i : InstallationId}

theorem modify (f : Installation → Installation) (hclauses : ∀ a, (f a).clauses = a.clauses)
    (htype : ∀ a, (f a).handlerType = a.handlerType) (h : Declares Γ c) :
    Declares Γ (c.modify i f) := by
  intro j a hj ha
  simp only [Chain.modify, Store.find?_modify] at ha
  split at ha
  · obtain ⟨b, hb, rfl⟩ := Option.map_eq_some_iff.mp ha
    rw [hclauses, htype]
    exact h j b hj hb
  · exact h j a hj ha

theorem erase (hwf : c.installations.WellFormed) (h : Declares Γ c) :
    Declares Γ { c with installations := c.installations.erase i } := by
  intro j a hj ha
  simp only [Store.find?_erase hwf] at ha
  split at ha
  · cases ha
  · exact h j a hj ha

theorem relink {b : Option InstallationId} (hr : c.Relinks i b c') (h : Declares Γ c) :
    Declares Γ c' := by
  have hmod := h.modify (i := i) (fun x => { x with below := b }) (fun _ => rfl) fun _ => rfl
  intro j a hj ha
  exact hmod j a hj (by simpa [Chain.modify, hr.installations] using ha)

theorem create {x : Installation} (hx : x.clauses = (Γ.handlerType x.handlerType).entries)
    (h : Declares Γ c) : Declares Γ (c.create x).2 := by
  intro j a hj ha
  simp only [Chain.create, Store.find?_insert] at ha
  split at ha
  · obtain rfl : x = a := by simpa using ha
    exact hx
  · exact h j a hj ha

end Declares

/-- What holds of the tables of a thread whatever happens: they are well-formed, code is orderly,
installations declare what their handler types say, and stacks are not too large to have a size. -/
structure Regular (Γ : Library ω) (m : Machine ω) : Prop where
  exchanges : m.exchanges.WellFormed
  closures : ∀ e ∈ m.closures.entries, ∀ v, (e.2.body v).Orderly
  conts : ∀ k ∈ m.conts, k.Orderly
  declares : Declares Γ m.chain
  stackSize : m.stackSize + StackPool.margin < Word.count

/-- A machine that agrees with its layout. -/
structure Sound (Γ : Library ω) (m : Machine ω) (l : Layout ω) : Prop where
  tip : Tip Γ m l.front l.lifted
  placed : Placed m.chain (l.front ++ m.waiting) l.kept
  parks : Parks m.fibers (l.lifted ++ l.towers)
  captured : (m.conts.filter Cont.isCaptured).Perm (l.kept.map Kept.cont)
  ready : ∀ t ∈ l.towers, t.Ready
  resumable : ∀ k ∈ l.kept, k.tower.modifier ≠ .noResume
  dropping : (m.releasing.filterMap Holding.fiber?).Perm (l.dropped.map Tower.root)
  covers : m.chain.Covers (l.ledger m)
  heldOnce : HeldOnce m.exchanges (l.ledger m)
  armed : ∀ k ∈ m.armed, k.Armed m.exchanges
  regular : Regular Γ m

namespace Sound

variable {Γ : Library ω} {m : Machine ω} {l : Layout ω}

/-- What control allows while code is being evaluated. -/
theorem of_eval (h : Sound Γ m l) {c : Comp ω} (hcontrol : m.control = .eval c) :
    l.front = m.stack ∧ l.lifted = [] ∧ c.Orderly ∧ Ready m.stack := by
  simpa only [hcontrol] using h.tip.allows

/-- What control allows while a value is given to the running code. -/
theorem of_ret (h : Sound Γ m l) {v : Value} (hcontrol : m.control = .ret v) :
    l.front = m.stack ∧ l.lifted = [] ∧ (Ready m.stack ∨ ∃ i f, Driving i f m.stack) := by
  simpa only [hcontrol] using h.tip.allows

/-- What control allows while a step is delivered. -/
theorem of_deliver (h : Sound Γ m l) {s : Step (Cont ω) Value}
    (hcontrol : m.control = .deliver s) :
    l.front = m.stack ∧ l.lifted = [] ∧ ∃ S, m.stack = .stepping :: S ∧ Ready S := by
  simpa only [hcontrol] using h.tip.allows

/-- What control allows while an answer is turned into a step. -/
theorem of_settle (h : Sound Γ m l) {answer : String} {v : Value}
    (hcontrol : m.control = .settle answer v) :
    l.front = m.stack ∧ l.lifted = [] ∧ ∃ S, m.stack = .stepping :: S ∧ Ready S := by
  simpa only [hcontrol] using h.tip.allows

/-- What control allows while a resume is passed on, or a fiber starts. -/
theorem of_wake (h : Sound Γ m l) (hcontrol : m.control = .wake) :
    (∃ body S, l.front = m.stack ∧ l.lifted = [] ∧ m.stack = .start body :: S ∧ body.Orderly ∧
      Ready S) ∨ ∃ t : Tower ω, l.front = t.code ∧ l.lifted = t.rest ∧ Woken m t := by
  simpa only [hcontrol] using h.tip.allows

/-- What control allows while a request is passed on. -/
theorem of_request (h : Sound Γ m l) {r : Request} (hcontrol : m.control = .request r) :
    ∃ t : Tower ω, l.front = t.code ∧ l.lifted = t.rest ∧ Requested Γ m r t := by
  simpa only [hcontrol] using h.tip.allows

end Sound

/-- The faults that report a broken invariant of the runtime. -/
def Fault.isInternal : Fault → Bool
  | internal _ => true
  | malformedNoResume _ => true
  | notInFiber _ => true
  | _ => false

/-- An outcome that is neither a panic nor a broken invariant. -/
def Outcome.Regular : Outcome → Prop
  | finished _ => True
  | panicked _ => False
  | fatal f _ => f.isInternal = false

/-- A sound state, or one in which a thread ends that did nothing wrong. -/
inductive Good (Γ : Library ω) (m : Machine ω) : Prop
  | sound (l : Layout ω) (h : Sound Γ m l)
  | fault {f} (hcontrol : m.control = .fault f) (hf : f.isInternal = false)
  | halted {o} (hcontrol : m.control = .halted o) (ho : o.Regular)

end EffectHandlers
