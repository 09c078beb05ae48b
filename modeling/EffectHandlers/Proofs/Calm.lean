import EffectHandlers.Proofs.Sound
/-!
# Steps that touch neither installations nor fibers

Most operations only work on cells, closures and the top of the running code. Activations that
neither drive, hide nor hold anything but assets do not matter to a layout; two pieces of code
with the same skeleton fit the same layout.
-/

namespace EffectHandlers

variable {ω : Type} {Γ : Library ω} {m m' : Machine ω} {l : Layout ω} {c : Chain}
  {B : List InstallationId} {S S' : List (Activation ω)} {h : Holding}

/-- Whether something held is an asset of a computation. -/
def Holding.isAsset : Holding → Bool
  | asset _ => true
  | _ => false

/-- Whether an activation neither drives nor hides, nor holds anything but assets. -/
def Activation.isInert : Activation ω → Bool
  | start _ | bind _ | owning _ | catching _ | looping .. | stepping | calling _ => true
  | _ => false

/-- The activations that matter to a layout. -/
def skeleton (S : List (Activation ω)) : List (Activation ω) := S.filter fun a => !a.isInert

theorem skeleton_cons (a : Activation ω) (S : List (Activation ω)) :
    skeleton (a :: S) = if a.isInert then skeleton S else a :: skeleton S := by
  cases h : a.isInert <;> simp [skeleton, h]

theorem drivers_skeleton (S : List (Activation ω)) : drivers (skeleton S) = drivers S := by
  induction S with
  | nil => rfl
  | cons a S ih =>
    rw [skeleton_cons]
    cases a <;> simp [Activation.isInert, Activation.driver?, drivers_cons, ih]

theorem exposed_skeleton (B : List InstallationId) (S : List (Activation ω)) :
    exposed B (skeleton S) = exposed B S := by
  induction S with
  | nil => rfl
  | cons a S ih =>
    rw [skeleton_cons]
    cases a <;> simp [Activation.isInert, Activation.expose, ih]

theorem hides_skeleton : Hides c B (skeleton S) ↔ Hides c B S := by
  induction S with
  | nil => rfl
  | cons a S ih =>
    rw [skeleton_cons]
    cases a <;> simp [Activation.isInert, Hides, exposed_skeleton, ih]

/-- Assets are not among the holdings that are counted. -/
@[simp] theorem count_map_asset (hh : h.isAsset = false) (os : List Owned) :
    (os.map Holding.asset).count h = 0 := by
  rw [List.count_eq_zero]
  intro hmem
  obtain ⟨o, -, rfl⟩ := List.mem_map.mp hmem
  simp [Holding.isAsset] at hh

@[simp] theorem filterMap_fiber_asset (os : List Owned) :
    (os.map Holding.asset).filterMap Holding.fiber? = [] := by
  simp [List.filterMap_map, Function.comp_def, Holding.fiber?]

theorem count_owned_inert (hh : h.isAsset = false) {a : Activation ω} (ha : a.isInert) :
    a.owned.count h = 0 := by
  cases a <;> simp_all [Activation.isInert, Activation.owned]

/-- Code with the same skeleton holds the same. -/
theorem count_owned_skeleton (hh : h.isAsset = false) (S : List (Activation ω)) :
    ((skeleton S).flatMap Activation.owned).count h = (S.flatMap Activation.owned).count h := by
  induction S with
  | nil => rfl
  | cons a S ih =>
    rw [skeleton_cons]
    cases ha : a.isInert with
    | true => simp [ih, count_owned_inert hh ha]
    | false => simp [ih]

/-- Placement depends on the skeleton of the code only. -/
theorem Placed.of_skeleton {kept : List (Kept ω)} (hS : skeleton S' = skeleton S)
    (h : Placed c S kept) : Placed c S' kept := by
  refine h.of_code ?_ ?_ fun hhides => ?_
  · rw [← drivers_skeleton, hS, drivers_skeleton]
  · rw [← exposed_skeleton, hS, exposed_skeleton]
  · rw [← hides_skeleton, hS, hides_skeleton]
    exact hhides

theorem skeleton_append : skeleton (S ++ S') = skeleton S ++ skeleton S' := List.filter_append ..

/-- A machine without what does not matter to a layout: cells, statics, counters, what was
written, and numbers that were left out. -/
def Machine.calm (m : Machine ω) : Machine ω :=
  { m with
    cells := {}, references := { m.references with next := 0 }
    resumptions := { m.resumptions with next := 0 }, declared := [], counters := {}
    pool := { settings := { fixed := some m.pool.settings.use.1 } }
    journal := [], errors := [], statics := [] }

/-- A calm machine without closures, and without what is running or being released. -/
def Machine.still (m : Machine ω) : Machine ω :=
  { m.calm with closures := {}, stack := [], releasing := [], control := .wake }

theorem Machine.of_still (h : m'.still = m.still) :
    m'.chain = m.chain ∧ m'.fibers = m.fibers ∧ m'.references.entries = m.references.entries ∧
      m'.exchanges = m.exchanges ∧ m'.resumptions.entries = m.resumptions.entries ∧
      m'.pending = m.pending ∧ m'.stackSize = m.stackSize := by
  simp only [still, calm, Machine.mk.injEq, Store.mk.injEq, StackPool.mk.injEq,
    SettingsSlot.mk.injEq, Option.some.injEq, true_and, and_true] at h
  obtain ⟨chain, fibers, references, exchanges, resumptions, pending, settings⟩ := h
  exact ⟨chain, fibers, references, exchanges, resumptions, pending,
    congrArg Settings.stackSize settings⟩

/-- Two states that differ at most in cells, counters and what was written. -/
def Agrees (m m' : Machine ω) : Prop := m'.calm = m.calm

namespace Agrees

theorem still (h : Agrees m m') : m'.still = m.still := by
  unfold Machine.still
  rw [show m'.calm = m.calm from h]

theorem fields (h : Agrees m m') : m'.closures = m.closures ∧ m'.stack = m.stack ∧
    m'.releasing = m.releasing ∧ m'.control = m.control := by
  simp only [Agrees, Machine.calm, Machine.mk.injEq, true_and] at h
  obtain ⟨-, -, closures, -, -, -, -, -, stack, releasing, control⟩ := h
  exact ⟨closures, stack, releasing, control⟩

theorem stack (h : Agrees m m') : m'.stack = m.stack := h.fields.2.1

theorem releasing (h : Agrees m m') : m'.releasing = m.releasing := h.fields.2.2.1

theorem control (h : Agrees m m') : m'.control = m.control := h.fields.2.2.2

end Agrees

/-- Two states between which neither the chain, the fibers nor any continuation changed, and only
assets were given up. -/
structure Undisturbed (m m' : Machine ω) : Prop where
  still : m'.still = m.still
  releasing : ∃ (os os' : List Owned) (hs : List Holding),
    m.releasing = os.map .asset ++ hs ∧ m'.releasing = os'.map .asset ++ hs

theorem Undisturbed.of_still (hstill : m'.still = m.still) (hreleasing : m'.releasing = m.releasing) :
    Undisturbed m m' := ⟨hstill, [], [], m.releasing, rfl, hreleasing⟩

/-- Cells, counters and what was written do not matter to a layout. -/
theorem Sound.agrees (hsound : Sound Γ m l) (h : Agrees m m') : Sound Γ m' l := by
  obtain ⟨chain, fibers, references, exchanges, resumptions, pending, stackSize⟩ :=
    Machine.of_still h.still
  obtain ⟨closures, stack, releasing, control⟩ := h.fields
  obtain ⟨front, lifted, kept, dropped⟩ := l
  have hwaiting : m'.waiting = m.waiting := by simp only [Machine.waiting, fibers]
  have harmed : m'.armed = m.armed := by simp only [Machine.armed, pending, control]
  have hconts : m'.conts = m.conts := by simp only [Machine.conts, resumptions, harmed]
  have hledger : (⟨front, lifted, kept, dropped⟩ : Layout ω).ledger m' =
      (⟨front, lifted, kept, dropped⟩ : Layout ω).ledger m := by
    simp only [Layout.ledger, Layout.code, hwaiting, hconts, releasing, references]
  have hcode : ∀ i e, m'.codeAt Γ i e = m.codeAt Γ i e := by
    intro i e
    simp only [Machine.codeAt, chain]
  exact
    { tip := by
        have htip := hsound.tip
        simp only at htip ⊢
        cases htip with
        | eval hc h hs => exact stack ▸ .eval (control.trans hc) h (stack ▸ hs)
        | ret hc hs => exact stack ▸ .ret (control.trans hc) (stack ▸ hs)
        | returned hc hs => exact stack ▸ .returned (control.trans hc) (stack ▸ hs)
        | deliver hc hs hS => exact stack ▸ .deliver (control.trans hc) (stack.trans hs) hS
        | settle hc hs hS => exact stack ▸ .settle (control.trans hc) (stack.trans hs) hS
        | start hc hs hb hS => exact stack ▸ .start (control.trans hc) (stack.trans hs) hb hS
        | wake h =>
          exact .wake
            { control := control.trans h.control
              releasing := releasing.trans h.releasing
              stack := stack.trans h.stack
              ready := h.ready
              modifier := h.modifier
              result := exchanges ▸ h.result }
        | request h =>
          exact .request
            { control := control.trans h.control
              releasing := releasing.trans h.releasing
              stack := stack.trans h.stack
              current := fibers ▸ h.current
              ready := h.ready
              exchange := h.exchange
              code := by simpa only [hcode] using h.code
              command := exchanges ▸ h.command
              driver := hwaiting ▸ h.driver
              live := hwaiting ▸ h.live }
      placed := by rw [chain, hwaiting]; exact hsound.placed
      parks := fibers ▸ hsound.parks
      captured := hconts ▸ hsound.captured
      ready := hsound.ready
      resumable := hsound.resumable
      dropping := releasing ▸ hsound.dropping
      covers := by rw [chain, hledger]; exact hsound.covers
      heldOnce := by rw [exchanges, hledger]; exact hsound.heldOnce
      armed := by rw [harmed, exchanges]; exact hsound.armed
      regular :=
        { exchanges := exchanges ▸ hsound.regular.exchanges
          closures := closures ▸ hsound.regular.closures
          conts := hconts ▸ hsound.regular.conts
          declares := chain ▸ hsound.regular.declares
          stackSize := stackSize ▸ hsound.regular.stackSize } }

/-- A step that disturbs nothing leads from a sound state to a sound one. -/
theorem Sound.undisturbed (m' : Machine ω) (hsound : Sound Γ m l) (hfront : l.front = m.stack)
    (hlifted : l.lifted = []) (hconts : m'.control.conts = m.control.conts)
    (hsame : Undisturbed m m') (hskeleton : skeleton m'.stack = skeleton m.stack)
    (hclosures : ∀ e ∈ m'.closures.entries, ∀ v, (e.2.body v).Orderly)
    (htip : Tip Γ m' m'.stack []) : ∃ l', Sound Γ m' l' := by
  obtain ⟨front, lifted, kept, dropped⟩ := l
  obtain rfl : front = m.stack := hfront
  obtain rfl : lifted = [] := hlifted
  obtain ⟨hstill, os, os', hs, hos, hos'⟩ := hsame
  obtain ⟨chain, fibers, references, exchanges, resumptions, pending, stackSize⟩ :=
    Machine.of_still hstill
  have hwaiting : m'.waiting = m.waiting := by simp only [Machine.waiting, fibers]
  have harmed : m'.armed = m.armed := by simp only [Machine.armed, pending, hconts]
  have hall : m'.conts = m.conts := by simp only [Machine.conts, resumptions, harmed]
  have hledger : ∀ h : Holding, h.isAsset = false →
      ((⟨m'.stack, [], kept, dropped⟩ : Layout ω).ledger m').count h =
        ((⟨m.stack, [], kept, dropped⟩ : Layout ω).ledger m).count h := by
    intro h hh
    have hstack := count_owned_skeleton hh m'.stack
    rw [hskeleton, count_owned_skeleton hh] at hstack
    simp only [Layout.ledger, Layout.code, Layout.towers, hwaiting, hall, hos, hos',
      references, List.flatMap_append, List.count_append, count_map_asset hh, hstack]
  refine ⟨⟨m'.stack, [], kept, dropped⟩, ?_⟩
  exact
    { tip := htip
      placed := by
        rw [chain, hwaiting]
        refine hsound.placed.of_skeleton ?_
        rw [skeleton_append, hskeleton, skeleton_append]
      parks := fibers ▸ hsound.parks
      captured := hall ▸ hsound.captured
      ready := hsound.ready
      resumable := hsound.resumable
      dropping := by
        have hsame := hsound.dropping
        rw [hos, List.filterMap_append, filterMap_fiber_asset] at hsame
        rw [hos', List.filterMap_append, filterMap_fiber_asset]
        exact hsame
      covers := by
        rw [chain]
        exact hsound.covers.mono fun i => Nat.le_of_eq (hledger (.installation i) rfl)
      heldOnce := by
        rw [exchanges]
        exact hsound.heldOnce.mono fun e => Nat.le_of_eq (hledger (.exchange e) rfl)
      armed := by
        rw [harmed, exchanges]
        exact hsound.armed
      regular :=
        { exchanges := exchanges ▸ hsound.regular.exchanges
          closures := hclosures
          conts := hall ▸ hsound.regular.conts
          declares := chain ▸ hsound.regular.declares
          stackSize := stackSize ▸ hsound.regular.stackSize } }

end EffectHandlers
