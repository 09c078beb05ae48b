import EffectHandlers.Fiber.Pool
import EffectHandlers.Proofs.Crew
import EffectHandlers.Proofs.Reports
import Mathlib.Data.Multiset.Range
/-!
# The stacks of threads and of fiber scripts

## The stacks of a thread

A thread only counts its stacks. Here every stack gets a number when it is allocated, and a ledger
follows it: to the fiber that owns it, to the pool, to the next fiber, and to where it is freed.
What happens to fibers is told by events, and each event is entered into the ledger.
-/

namespace EffectHandlers

/-! ### Events -/

/-- Something that happens to a fiber, as far as its stack is concerned. -/
inductive StackEvent where
  | made (f : FiberId)
  /-- A fiber could not be made, because no stack was to be had. -/
  | refused
  | finished (f : FiberId)
  /-- A fiber was dropped before it finished, or a panic has ended it. -/
  | dropped (f : FiberId)
  deriving DecidableEq

/-- What a thread knows about stacks. -/
structure StackState where
  /-- The fibers that were made and have neither finished nor been dropped. -/
  live : Multiset FiberId
  /-- Stacks that wait for reuse. -/
  pooled : Nat
  /-- Fibers that were made. -/
  created : Nat
  /-- Those among them that got their stacks from the pool. -/
  reused : Nat

namespace StackState

/-- Before any fiber is made. -/
def initial : StackState := ⟨0, 0, 0, 0⟩

/-- What one event does under some settings. A new fiber takes a stack from the pool if there is
one, and only then that is counted. If the pool is empty, a stack is allocated; if that fails,
nothing changes. A finished fiber leaves its stack to the pool, unless the pool is full. -/
inductive Turn (c : Settings) (s : StackState) : StackEvent → StackState → Prop
  | reuses {f} (hnew : f ∉ s.live) (hpool : 0 < s.pooled) :
      Turn c s (.made f) ⟨f ::ₘ s.live, s.pooled - 1, s.created + 1, s.reused + 1⟩
  | allocates {f} (hnew : f ∉ s.live) (hpool : s.pooled = 0)
      (hfresh : StackPool.allocate c.stackSize = .fresh) :
      Turn c s (.made f) ⟨f ::ₘ s.live, s.pooled, s.created + 1, s.reused⟩
  | refuses (hpool : s.pooled = 0) (hfailed : StackPool.allocate c.stackSize ≠ .fresh) :
      Turn c s .refused s
  | finishes {f live} (hlive : s.live = f ::ₘ live) :
      Turn c s (.finished f)
        ⟨live, if s.pooled < c.poolCapacity then s.pooled + 1 else s.pooled, s.created, s.reused⟩
  | drops {f live} (hlive : s.live = f ::ₘ live) :
      Turn c s (.dropped f) ⟨live, s.pooled, s.created, s.reused⟩

/-- What several events do, one after the other. -/
inductive Turns (c : Settings) : StackState → List StackEvent → StackState → Prop
  | nil {s} : Turns c s [] s
  | cons {s s' s'' e es} (h : Turn c s e s') (hs : Turns c s' es s'') : Turns c s (e :: es) s''

variable {c : Settings} {s s' s'' : StackState} {e : StackEvent} {es es' : List StackEvent}

theorem Turn.turns (h : Turn c s e s') : Turns c s [e] s' := .cons h .nil

theorem Turns.trans (h : Turns c s es s') (h' : Turns c s' es' s'') :
    Turns c s (es ++ es') s'' := by
  induction h with
  | nil => exact h'
  | cons h _ ih => exact .cons h (ih h')

end StackState

/-! ### The ledger -/

/-- Where the stacks of a thread are, which are numbered as they are allocated. -/
structure StackLedger where
  /-- How many stacks were allocated. -/
  allocated : Nat := 0
  /-- The stacks that wait for reuse, the next one first. -/
  pooled : List Nat := []
  /-- The stacks of fibers. -/
  owned : List (FiberId × Nat) := []
  freed : List Nat := []

namespace StackLedger

/-- Take away the stack of a fiber and put it into the pool or free it. -/
def yield (l : StackLedger) (f : FiberId) (pools : Bool) : StackLedger :=
  match l.owned.lookup f with
  | none => l
  | some stack =>
    let owned := l.owned.eraseP (·.1 == f)
    if pools then { l with owned, pooled := stack :: l.pooled }
    else { l with owned, freed := stack :: l.freed }

/-- Enter an event. -/
def enter (c : Settings) (l : StackLedger) : StackEvent → StackLedger
  | .made f =>
    match l.pooled with
    | [] => { l with allocated := l.allocated + 1, owned := (f, l.allocated) :: l.owned }
    | stack :: pooled => { l with pooled, owned := (f, stack) :: l.owned }
  | .refused => l
  | .finished f => l.yield f (l.pooled.length < c.poolCapacity)
  | .dropped f => l.yield f false

/-- The ledger of a thread to which all this has happened. -/
def ofEvents (c : Settings) (es : List StackEvent) : StackLedger := es.foldl (enter c) {}

/-- All stacks with a place. -/
def placed (l : StackLedger) : Multiset Nat := ↑l.pooled + ↑(l.owned.map (·.2)) + ↑l.freed

/-- A ledger and what a thread knows fit together. -/
structure Tells (c : Settings) (l : StackLedger) (s : StackState) : Prop where
  pooled : l.pooled.length = s.pooled
  bounded : s.pooled ≤ c.poolCapacity
  /-- Each live fiber owns a stack, and nobody else does. -/
  owners : (↑(l.owned.map (·.1)) : Multiset FiberId) = s.live
  distinct : s.live.Nodup
  /-- Each stack that was allocated is in one place. -/
  places : l.placed = Multiset.range l.allocated
  created : s.created = s.reused + l.allocated

variable {c : Settings} {l : StackLedger} {s s' : StackState} {e : StackEvent} {f : FiberId}
  {live : Multiset FiberId} {es : List StackEvent}

/-- The entry of a fiber is the only one that goes. -/
theorem owned_perm_eraseP {owned : List (FiberId × Nat)} {stack : Nat}
    (h : owned.lookup f = some stack) :
    owned.Perm ((f, stack) :: owned.eraseP (·.1 == f)) :=
  Store.entries_perm_erase (s := ⟨0, owned⟩) h

namespace Tells

theorem initial (c : Settings) : Tells c {} .initial where
  pooled := rfl
  bounded := Nat.zero_le _
  owners := rfl
  distinct := Multiset.nodup_zero
  places := rfl
  created := rfl

/-- A live fiber has a stack. -/
theorem exists_stack (h : l.Tells c s) (hlive : s.live = f ::ₘ live) :
    ∃ stack, l.owned.lookup f = some stack ∧
      (↑((l.owned.eraseP (·.1 == f)).map (·.1)) : Multiset FiberId) = live ∧
      (↑(l.owned.map (·.2)) : Multiset Nat) =
        stack ::ₘ ↑((l.owned.eraseP (·.1 == f)).map (·.2)) := by
  have hmem : f ∈ l.owned.map (·.1) := by
    rw [← Multiset.mem_coe, h.owners, hlive]
    exact Multiset.mem_cons_self ..
  obtain ⟨stack, hstack⟩ : ∃ stack, l.owned.lookup f = some stack := by
    obtain ⟨e, he, rfl⟩ := List.mem_map.mp hmem
    cases hlookup : l.owned.lookup e.1 with
    | some stack => exact ⟨stack, rfl⟩
    | none => exact absurd (List.lookup_eq_none_iff.mp hlookup e he) (by simp)
  have hperm := owned_perm_eraseP hstack
  have howners : (↑(l.owned.map (·.1)) : Multiset FiberId) =
      f ::ₘ ↑((l.owned.eraseP (·.1 == f)).map (·.1)) := Multiset.coe_eq_coe.mpr (hperm.map (·.1))
  refine ⟨stack, hstack, ?_, Multiset.coe_eq_coe.mpr (hperm.map (·.2))⟩
  rw [h.owners, hlive] at howners
  exact ((Multiset.cons_inj_right f).mp howners).symm

/-- A new fiber takes a stack from the pool. -/
theorem reuses (h : l.Tells c s) (hnew : f ∉ s.live) (hpool : 0 < s.pooled) :
    (l.enter c (.made f)).Tells c ⟨f ::ₘ s.live, s.pooled - 1, s.created + 1, s.reused + 1⟩ := by
  obtain ⟨stack, pooled, hpooled⟩ := List.exists_cons_of_length_pos (h.pooled.symm ▸ hpool)
  have hlength := h.pooled
  have hplaces := h.places
  have hcreated := h.created
  simp only [enter, placed, hpooled, List.length_cons] at hlength hplaces ⊢
  exact
    { pooled := by simp only; omega
      bounded := Nat.le_trans (Nat.sub_le ..) h.bounded
      owners := congrArg (f ::ₘ ·) h.owners
      distinct := Multiset.nodup_cons.mpr ⟨hnew, h.distinct⟩
      places := by
        rw [← hplaces]
        simp only [placed, List.map_cons, ← Multiset.cons_coe, Multiset.cons_add, Multiset.add_cons]
      created := by simp only; omega }

/-- A new fiber gets a fresh stack. -/
theorem allocates (h : l.Tells c s) (hnew : f ∉ s.live) (hpool : s.pooled = 0) :
    (l.enter c (.made f)).Tells c ⟨f ::ₘ s.live, s.pooled, s.created + 1, s.reused⟩ := by
  have hpooled : l.pooled = [] := List.length_eq_zero_iff.mp (h.pooled.trans hpool)
  have hcreated := h.created
  have hplaces := h.places
  simp only [enter, hpooled]
  exact
    { pooled := by simp only [hpool, List.length_nil]
      bounded := h.bounded
      owners := congrArg (f ::ₘ ·) h.owners
      distinct := Multiset.nodup_cons.mpr ⟨hnew, h.distinct⟩
      places := by
        rw [Multiset.range_succ, ← hplaces]
        simp only [placed, hpooled, List.map_cons, ← Multiset.cons_coe, Multiset.cons_add,
          Multiset.add_cons]
      created := by simp only; omega }

/-- The stack of a fiber that is gone goes to the pool if there is room, or is freed. -/
theorem yield (h : l.Tells c s) (hlive : s.live = f ::ₘ live) (pools : Bool)
    (hroom : pools → s.pooled < c.poolCapacity) :
    (l.yield f pools).Tells c
      ⟨live, if pools then s.pooled + 1 else s.pooled, s.created, s.reused⟩ := by
  obtain ⟨stack, hstack, howners, htaken⟩ := h.exists_stack hlive
  have hdistinct : live.Nodup := (Multiset.nodup_cons.mp (hlive ▸ h.distinct)).2
  have hplaces := h.places
  simp only [placed, htaken] at hplaces
  simp only [StackLedger.yield, hstack]
  cases pools with
  | true =>
    simp only [if_true]
    exact
      { pooled := congrArg (· + 1) h.pooled
        bounded := hroom rfl
        owners := howners
        distinct := hdistinct
        places := by
          rw [← hplaces]
          simp only [placed, ← Multiset.cons_coe, Multiset.cons_add, Multiset.add_cons]
        created := h.created }
  | false =>
    simp only [Bool.false_eq_true, if_false]
    exact
      { pooled := h.pooled
        bounded := h.bounded
        owners := howners
        distinct := hdistinct
        places := by
          rw [← hplaces]
          simp only [placed, ← Multiset.cons_coe, Multiset.cons_add, Multiset.add_cons]
        created := h.created }

/-- Every event is entered rightly. -/
theorem enter (h : l.Tells c s) (hturn : s.Turn c e s') : (l.enter c e).Tells c s' := by
  cases hturn with
  | reuses hnew hpool => exact h.reuses hnew hpool
  | allocates hnew hpool => exact h.allocates hnew hpool
  | refuses => exact h
  | finishes hlive =>
    have hyield := h.yield hlive (l.pooled.length < c.poolCapacity)
    simp only [h.pooled, decide_eq_true_eq] at hyield
    simp only [StackLedger.enter, h.pooled]
    exact hyield fun hroom => hroom
  | drops hlive => exact h.yield hlive false nofun

theorem foldl (h : l.Tells c s) (hturns : s.Turns c es s') :
    (es.foldl (StackLedger.enter c) l).Tells c s' := by
  induction hturns generalizing l with
  | nil => exact h
  | cons hturn _ ih => exact ih (h.enter hturn)

/-- Stacks that were allocated wait for reuse, belong to a live fiber, or are freed. -/
theorem balance (h : l.Tells c s) :
    s.created = s.reused + (s.pooled + s.live.card + l.freed.length) := by
  have hcard := congrArg Multiset.card h.places
  rw [placed, Multiset.card_range, Multiset.card_add, Multiset.card_add, Multiset.coe_card,
    Multiset.coe_card, Multiset.coe_card, List.length_map, h.pooled] at hcard
  have hlive : s.live.card = l.owned.length := by
    rw [← h.owners, Multiset.coe_card, List.length_map]
  have hcreated := h.created
  omega

end Tells

/-- Two fibers finish with a pool of one stack, and the next one gets the stack that stayed. -/
example : ofEvents ⟨16384, 1⟩ [.made 0, .made 1, .finished 1, .finished 0, .made 2] =
    { allocated := 2, owned := [(2, 1)], freed := [0] } := rfl

end StackLedger

/-! ### Runs -/

/-- What a thread knows about stacks after so many steps, as long as it runs, and the events of the
step that comes then. -/
abbrev StackRun : Type := Nat → Option (StackState × List StackEvent)

namespace StackRun

/-- All events of the first steps. -/
def events (run : StackRun) (n : Nat) : List StackEvent :=
  (List.range n).flatMap fun k => ((run k).map (·.2)).getD []

/-- The ledger after so many steps. -/
def ledger (run : StackRun) (c : Settings) (n : Nat) : StackLedger :=
  .ofEvents c (run.events n)

variable {run : StackRun} {c : Settings} {n : Nat} {s s' : StackState}
  {es es' : List StackEvent}

theorem ledger_succ (h : run n = some (s, es)) :
    run.ledger c (n + 1) = es.foldl (StackLedger.enter c) (run.ledger c n) := by
  simp only [ledger, StackLedger.ofEvents, events, List.range_succ, List.flatMap_append,
    List.foldl_append, List.flatMap_singleton, h, Option.map_some, Option.getD_some]

/-- What it means that the stacks of a run are accounted for under some settings. -/
structure Accounted (c : Settings) (run : StackRun) : Prop where
  /-- Each step does what its events do: new fibers take stacks from the pool as long as there are
  any, and a fiber that is refused a stack leaves everything as it was. -/
  turns : ∀ {n s es s' es'}, run n = some (s, es) → run (n + 1) = some (s', es') → s.Turns c es s'
  /-- The pool is never above its capacity. -/
  bounded : ∀ {n s es}, run n = some (s, es) → s.pooled ≤ c.poolCapacity
  /-- The stacks that were allocated are pooled, or belong to a live fiber, or were freed. -/
  balance : ∀ {n s es}, run n = some (s, es) → s.reused ≤ s.created ∧
    s.created - s.reused = s.pooled + s.live.card + (run.ledger c n).freed.length
  /-- The ledger has the same pool, one stack for each live fiber, and no stack in two places. -/
  places : ∀ {n s es}, run n = some (s, es) →
    (run.ledger c n).pooled.length = s.pooled ∧
    (↑((run.ledger c n).owned.map (·.1)) : Multiset FiberId) = s.live ∧ s.live.Nodup ∧
    (run.ledger c n).placed.Nodup

/-- The ledger tells what a run knows if every step does what its events do. -/
theorem tells (hstart : ∃ es, run 0 = some (.initial, es))
    (hsteps : ∀ {n s' es'}, run (n + 1) = some (s', es') →
      ∃ s es, run n = some (s, es) ∧ s.Turns c es s')
    (h : run n = some (s, es)) : (run.ledger c n).Tells c s := by
  induction n generalizing s es with
  | zero =>
    obtain ⟨es₀, hzero⟩ := hstart
    obtain ⟨rfl, -⟩ := Prod.mk.inj (Option.some.inj (hzero.symm.trans h))
    exact .initial c
  | succ n ih =>
    obtain ⟨t, es', ht, hturns⟩ := hsteps h
    rw [ledger_succ ht]
    exact (ih ht).foldl hturns

theorem accounted (hstart : ∃ es, run 0 = some (.initial, es))
    (hsteps : ∀ {n s' es'}, run (n + 1) = some (s', es') →
      ∃ s es, run n = some (s, es) ∧ s.Turns c es s') : run.Accounted c where
  turns h h' := by
    obtain ⟨t, es, ht, hturns⟩ := hsteps h'
    obtain ⟨rfl, rfl⟩ := Prod.mk.inj (Option.some.inj (h.symm.trans ht))
    exact hturns
  bounded h := (tells hstart hsteps h).bounded
  balance h := by
    have hbalance := (tells hstart hsteps h).balance
    omega
  places h := by
    have htells := tells hstart hsteps h
    exact ⟨htells.pooled, htells.owners, htells.distinct,
      htells.places ▸ Multiset.nodup_range _⟩

end StackRun

/-! ### The pool -/

namespace StackPool

variable {p : StackPool} {live : Multiset FiberId} {f : FiberId}

theorem turn_of_reused (h : p.acquire.1 = .reused) (hnew : f ∉ live) (created reused : Nat) :
    (⟨live, p.pooled, created, reused⟩ : StackState).Turn p.settings.use.1 (.made f)
      ⟨f ::ₘ live, p.acquire.2.1.pooled, created + 1, reused + 1⟩ := by
  by_cases hpool : 0 < p.pooled
  · rw [acquire_of_pos hpool]
    exact .reuses hnew hpool
  · rw [acquire_of_not_pos hpool] at h
    dsimp only at h
    exact absurd h (allocate_ne_reused _)

theorem turn_of_fresh (h : p.acquire.1 = .fresh) (hnew : f ∉ live) (created reused : Nat) :
    (⟨live, p.pooled, created, reused⟩ : StackState).Turn p.settings.use.1 (.made f)
      ⟨f ::ₘ live, p.acquire.2.1.pooled, created + 1, reused⟩ := by
  by_cases hpool : 0 < p.pooled
  · rw [acquire_of_pos hpool] at h
    cases h
  · rw [acquire_of_not_pos hpool] at h ⊢
    dsimp only at h
    exact .allocates hnew (Nat.eq_zero_of_not_pos hpool) h

theorem turn_of_failed {why : Failure} (h : p.acquire.1 = .failed why)
    (live : Multiset FiberId) (created reused : Nat) :
    (⟨live, p.pooled, created, reused⟩ : StackState).Turn p.settings.use.1 .refused
      ⟨live, p.acquire.2.1.pooled, created, reused⟩ := by
  by_cases hpool : 0 < p.pooled
  · rw [acquire_of_pos hpool] at h
    cases h
  · rw [acquire_of_not_pos hpool] at h ⊢
    dsimp only at h
    refine .refuses (Nat.eq_zero_of_not_pos hpool) fun hfresh => ?_
    cases hfresh.symm.trans h

end StackPool

/-! ### The live fibers -/

namespace Fibers

variable {κ : Type} {fs fs' : Fibers κ} {code S : κ} {f : FiberId} {r : Resumer κ}
  {rs : List (Resumer κ)}

/-- The fibers that are running, waiting or parked. -/
def live (fs : Fibers κ) : Multiset FiberId :=
  ↑(fs.resumers.map (·.fiber)) + ↑(fs.parked.entries.map (·.1))

/-- Each fiber is running, waiting or parked once, under a number that was handed out. -/
def Tidy (fs : Fibers κ) : Prop := fs.Kept (fs.parked.entries.map (·.1))

theorem Kept.tidy {ids : List FiberId} (h : fs.Kept ids) : fs.Tidy := h.perm h.parked.symm

theorem live_create (fs : Fibers κ) (code : κ) :
    (fs.create code).2.live = fs.parked.next ::ₘ fs.live := by
  simp only [live, Fibers.create, Store.insert, List.map_cons, ← Multiset.cons_coe,
    Multiset.add_cons]

theorem live_erase (h : fs.parked.find? f = some S) :
    fs.live = f ::ₘ (↑(fs.resumers.map (·.fiber)) + ↑((fs.parked.erase f).entries.map (·.1))) := by
  have hentries : (↑(fs.parked.entries.map (·.1)) : Multiset FiberId) =
      f ::ₘ ↑((fs.parked.erase f).entries.map (·.1)) :=
    Multiset.coe_eq_coe.mpr ((Store.entries_perm_erase h).map (·.1))
  rw [live, hentries, Multiset.add_cons]

theorem live_drop (h : fs.drop? f = some (S, fs')) : fs.live = f ::ₘ fs'.live := by
  obtain ⟨S', hS, heq⟩ := Option.map_eq_some_iff.mp h
  obtain ⟨rfl, rfl⟩ := Prod.mk.inj heq
  exact live_erase hS

theorem live_resume (h : fs.resume? f code = some (S, fs')) : fs'.live = fs.live := by
  obtain ⟨S', hS, heq⟩ := Option.map_eq_some_iff.mp h
  obtain ⟨rfl, rfl⟩ := Prod.mk.inj heq
  rw [live_erase hS]
  simp only [live, List.map_cons, ← Multiset.cons_coe, Multiset.cons_add]

theorem live_finish (hresumers : fs.resumers = r :: rs) :
    fs.live = r.fiber ::ₘ ({ fs with current := r.current, resumers := rs } : Fibers κ).live := by
  simp only [live, hresumers, List.map_cons, ← Multiset.cons_coe, Multiset.cons_add]

namespace Tidy

theorem next_notMem (h : fs.Tidy) : fs.parked.next ∉ fs.live := by
  intro hmem
  rcases Multiset.mem_add.mp hmem with hmem | hmem
  · obtain ⟨r, hr, heq⟩ := List.mem_map.mp (Multiset.mem_coe.mp hmem)
    exact absurd (heq ▸ h.issued r hr) (Nat.lt_irrefl _)
  · exact absurd (h.lt_next (Multiset.mem_coe.mp hmem)) (Nat.lt_irrefl _)

theorem create (h : fs.Tidy) (code : κ) : (fs.create code).2.Tidy := (Kept.create h code).tidy

theorem drop (h : fs.Tidy) (hdrop : fs.drop? f = some (S, fs')) : fs'.Tidy := by
  obtain ⟨S', hS, -⟩ := Option.map_eq_some_iff.mp hdrop
  exact (Kept.drop (h.perm ((Store.entries_perm_erase hS).map (·.1))) hdrop).tidy

theorem resume (h : fs.Tidy) (hresume : fs.resume? f code = some (S, fs')) : fs'.Tidy := by
  obtain ⟨S', hS, -⟩ := Option.map_eq_some_iff.mp hresume
  exact (Kept.resume (h.perm ((Store.entries_perm_erase hS).map (·.1))) hresume).1.tidy

theorem finish (h : fs.Tidy) (hresumers : fs.resumers = r :: rs) :
    ({ fs with current := r.current, resumers := rs } : Fibers κ).Tidy :=
  (Kept.finish h hresumers).tidy

/-- The running fiber is parked and stays alive. -/
theorem live_suspend (h : fs.Tidy) (code : κ) (hresumers : fs.resumers = r :: rs)
    (hcurrent : fs.current = some f) :
    ({ parked := ⟨fs.parked.next, (f, code) :: fs.parked.entries⟩
       current := r.current
       resumers := rs } : Fibers κ).live = fs.live := by
  have hnamed := h.named
  rw [hresumers] at hnamed
  obtain rfl : f = r.fiber := Option.some.inj (hcurrent.symm.trans hnamed.1)
  simp only [live, hresumers, List.map_cons, ← Multiset.cons_coe, Multiset.cons_add,
    Multiset.add_cons]

theorem suspend (h : fs.Tidy) (hsuspend : fs.suspend? code = some (S, fs')) :
    fs'.Tidy ∧ fs'.live = fs.live := by
  obtain ⟨f, hcurrent, hback⟩ := Option.bind_eq_some_iff.mp hsuspend
  cases hresumers : fs.resumers with
  | nil => simp [handBack?, hresumers] at hback
  | cons r rs =>
    simp only [handBack?, hresumers, Option.some.injEq, Prod.mk.injEq] at hback
    obtain ⟨rfl, rfl⟩ := hback
    exact ⟨(Kept.suspend h code hresumers hcurrent).1.tidy,
      h.live_suspend code hresumers hcurrent⟩

end Tidy

end Fibers

end EffectHandlers

/-!
## The stacks of fiber scripts

Each step of a fiber script does what its events do to the stacks of fibers. A fiber that comes
back to the table replaces whatever has been put into its slot meanwhile, so a step that makes,
parks or ends a fiber may drop another one.
-/

namespace EffectHandlers.FiberScript

/-- A fiber that is parked in a slot is dropped when the slot is emptied. -/
def emptied (old : Option Slot) : List StackEvent := (Slot.fibers old).map .dropped

/-- A slot that is emptied loses its fiber. -/
theorem Drops.turns {old : Option Slot} {fs fs' : Fibers Strand} {ids : List FiberId}
    (hdrops : Drops old fs fs') (h : fs.Kept (Slot.fibers old ++ ids)) (c : Settings)
    (pooled created reused : Nat) :
    StackState.Turns c ⟨fs.live, pooled, created, reused⟩ (emptied old)
      ⟨fs'.live, pooled, created, reused⟩ := by
  cases hdrops with
  | parked hdrop => exact (StackState.Turn.drops (Fibers.live_drop hdrop)).turns
  | nothing hnone =>
    cases old with
    | none => exact .nil
    | some x =>
      cases x with
      | finished => exact .nil
      | parked f =>
        -- what is parked in a slot is there to be dropped
        obtain ⟨code, hcode⟩ := h.mem_parked (f := f) (by simp [Slot.fibers])
        have hgone := hnone f rfl
        simp [Fibers.drop?, hcode] at hgone

namespace State

/-- What a run knows about stacks. -/
def stackState (s : State) : StackState :=
  ⟨s.fibers.live, s.pool.pooled, s.counters.fibersCreated, s.counters.stacksReused⟩

/-- What the next step does to the stacks of fibers. -/
def stackEvents (s : State) : List StackEvent :=
  match s.running.rest, s.fibers.resumers with
  | [], r :: _ | .ret _ :: _, r :: _ =>
    .finished r.fiber :: emptied (s.table.lookup r.code.waiting)
  | .suspend .. :: _, r :: _ | .forward _ :: _, r :: _ =>
    emptied (s.table.lookup r.code.waiting)
  | .make slot _ :: _, _ =>
    match s.pool.acquire.1 with
    | .failed _ => [.refused]
    | _ => .made s.fibers.parked.next :: emptied (s.table.lookup slot)
  | .drop slot :: _, _ => emptied (s.table.lookup slot)
  | _, _ => []

/-- A step does what its events do, under settings that stay. -/
structure Handles (s : State) (es : List StackEvent) (s' : State) : Prop where
  turns : s.stackState.Turns s.pool.settings.use.1 es s'.stackState
  settings : s'.pool.settings.use.1 = s.pool.settings.use.1

variable {main rest script : List Action} {p : Past} {s s' : State} {slot : Int} {a : Action}

/-- Nothing happens to stacks. -/
theorem Handles.of_eq (hfibers : s'.fibers = s.fibers) (hpool : s'.pool = s.pool)
    (hcounters : s'.counters = s.counters) : s.Handles [] s' where
  turns := by
    unfold stackState
    rw [hfibers, hpool, hcounters]
    exact .nil
  settings := by rw [hpool]

/-- Whatever is parked in a slot is parked. -/
theorem kept_slot (h : Sound main p s) (slot : Int) :
    s.fibers.Kept (Slot.fibers (s.table.lookup slot) ++
      parkedIn (s.table.filter (·.1 != slot))) :=
  h.kept.perm (parkedIn_perm h.slots slot)

theorem handles_of_drop (h : Sound main p s) :
    s.Handles (emptied (s.table.lookup slot)) ((dropSlot { s with
      running := { s.running with rest }
      table := s.table.filter (·.1 != slot) } (s.table.lookup slot)).record .dropped) := by
  obtain ⟨fs, log, heq, hdrops, -⟩ := dropSlot_eq { s with
    running := { s.running with rest }
    table := s.table.filter (·.1 != slot) } (s.table.lookup slot)
  rw [heq]
  exact ⟨hdrops.turns (kept_slot h slot) _ _ _ _, rfl⟩

/-- A new fiber goes into its slot. -/
theorem handles_of_place (h : Sound main p s) {t : State} {code : Strand}
    (hfibers : t.fibers = (s.fibers.create code).2) (htable : t.table = s.table)
    (hsettings : t.pool.settings.use.1 = s.pool.settings.use.1)
    (hmade : s.stackState.Turn s.pool.settings.use.1 (.made s.fibers.parked.next) t.stackState) :
    s.Handles (.made s.fibers.parked.next :: emptied (s.table.lookup slot))
      ((t.place slot (.parked s.fibers.parked.next)).record .made) := by
  obtain ⟨fs, log, heq, hdrops, -⟩ := t.place_eq slot (.parked s.fibers.parked.next)
  rw [heq]
  rw [htable] at hdrops
  have hkept : t.fibers.Kept (Slot.fibers (s.table.lookup slot) ++
      s.fibers.parked.next :: parkedIn (s.table.filter (·.1 != slot))) :=
    hfibers ▸ ((kept_slot h slot).create code).perm List.perm_middle.symm
  exact ⟨.cons hmade (hdrops.turns hkept _ _ _ _), hsettings⟩

theorem handles_of_make (h : Sound main p s)
    (hrest : s.running.rest = .make slot script :: rest)
    (hstep : { s with running := { s.running with rest } }.make slot script = .ok s') :
    s.Handles s.stackEvents s' := by
  have hnew := h.kept.tidy.next_notMem
  have hsettings := s.pool.use_acquire
  obtain ⟨outcome, pool, warnings, hacquire⟩ :
    ∃ outcome pool warnings, s.pool.acquire = (outcome, pool, warnings) := ⟨_, _, _, rfl⟩
  have houtcome : s.pool.acquire.1 = outcome := by rw [hacquire]
  have hpool : pool = s.pool.acquire.2.1 := by rw [hacquire]
  rw [← hpool] at hsettings
  unfold make at hstep
  simp only [hacquire] at hstep
  obtain ⟨hwarn, -⟩ := { s with running := { s.running with rest }, pool }.notes_warn warnings
  rw [hwarn] at hstep
  simp only [stackEvents, hrest, hacquire]
  cases outcome with
  | failed why =>
    cases why with
    | overflow => cases hstep
    | outOfMemory =>
      obtain rfl := Except.ok.inj hstep
      subst hpool
      exact ⟨(StackPool.turn_of_failed houtcome _ _ _).turns, hsettings⟩
  | reused =>
    obtain rfl := Except.ok.inj hstep
    have hturn := StackPool.turn_of_reused houtcome hnew s.counters.fibersCreated
      s.counters.stacksReused
    rw [← Fibers.live_create s.fibers { rest := script }, ← hpool] at hturn
    exact handles_of_place h rfl rfl hsettings hturn
  | fresh =>
    obtain rfl := Except.ok.inj hstep
    have hturn := StackPool.turn_of_fresh houtcome hnew s.counters.fibersCreated
      s.counters.stacksReused
    rw [← Fibers.live_create s.fibers { rest := script }, ← hpool] at hturn
    exact handles_of_place h rfl rfl hsettings hturn

theorem handles_of_resume (hrest : s.running.rest = .resume slot :: rest)
    (hstep : { s with running := { s.running with rest } }.resume slot = .ok s') :
    s.Handles s.stackEvents s' := by
  have hevents : s.stackEvents = [] := by simp only [stackEvents, hrest]
  rw [hevents]
  unfold resume at hstep
  split at hstep
  · obtain rfl := Except.ok.inj hstep
    exact .of_eq rfl rfl rfl
  · cases hstep
  · split at hstep
    · obtain rfl := Except.ok.inj hstep
      exact .of_eq rfl rfl rfl
    · rename_i hresume
      obtain rfl := Except.ok.inj hstep
      refine ⟨?_, rfl⟩
      simp only [stackState, Fibers.live_resume hresume]
      exact .nil

/-- When control goes back to a resumer, what became of its fiber fills the slot. -/
theorem turns_handBack {ids : List FiberId} {resumer : Strand} {fs : Fibers Strand}
    (hkept : fs.Kept (Slot.fibers (s.table.lookup resumer.waiting) ++ ids)) (c : Settings)
    (f : Slot) (entry : Int → Entry) (last : Int) :
    StackState.Turns c
        ⟨fs.live, s.pool.pooled, s.counters.fibersCreated, s.counters.stacksReused⟩
        (emptied (s.table.lookup resumer.waiting))
        (s.handBack resumer fs f entry last).stackState ∧
      (s.handBack resumer fs f entry last).pool = s.pool := by
  obtain ⟨fs', log, heq, hdrops, -⟩ := s.handBack_eq resumer fs f entry last
  rw [heq]
  exact ⟨hdrops.turns hkept _ _ _ _, rfl⟩

/-- The running fiber is parked in the slot that it was taken from. -/
theorem handles_of_suspend (h : Sound main p s) {entry : Int} {command : String}
    (hrest : s.running.rest = a :: rest) (ha : a.Asks s.lastEntry entry)
    (hstep : { s with running := { s.running with rest } }.suspend entry command = .ok s') :
    s.Handles s.stackEvents s' := by
  unfold suspend at hstep
  cases hcurrent : s.fibers.current with
  | none => simp [hcurrent] at hstep
  | some f =>
    cases hresumers : s.fibers.resumers with
    | nil => simp [hcurrent, Fibers.suspend?, Fibers.handBack?, hresumers] at hstep
    | cons r rs =>
      have hevents : s.stackEvents = emptied (s.table.lookup r.code.waiting) := by
        cases ha <;> simp only [stackEvents, hrest, hresumers]
      obtain ⟨hkept, -⟩ := h.kept.suspend { s.running with rest } hresumers hcurrent
      have hlive := h.kept.tidy.live_suspend { s.running with rest } hresumers hcurrent
      simp only [hcurrent, Fibers.suspend?, Fibers.handBack?, hresumers, Option.bind_some] at hstep
      obtain rfl := Except.ok.inj hstep
      obtain ⟨hturns, hpool⟩ := turns_handBack
        (s := { s with running := { s.running with rest }, lastEntry := entry })
        (hkept.perm (((parkedIn_perm h.slots r.code.waiting).cons f).trans
          List.perm_middle.symm)) s.pool.settings.use.1 (.parked f) (.suspended · entry) r.code.last
      rw [hlive] at hturns
      rw [hevents]
      exact ⟨hturns, congrArg (·.settings.use.1) hpool⟩

/-- A fiber that ends leaves its stack. -/
theorem handles_of_finish (h : Sound main p s) {t : Strand} {value : Int}
    (hreturns : s.running.Returns value)
    (hstep : { s with running := t }.finish value = .ok s') : s.Handles s.stackEvents s' := by
  unfold finish at hstep
  obtain ⟨hguards, -⟩ := { s with running := t }.notes_dropGuards t
  rw [hguards] at hstep
  cases hresumers : s.fibers.resumers with
  | nil => simp [Fibers.handBack?, hresumers] at hstep
  | cons r rs =>
    have hevents : s.stackEvents =
        .finished r.fiber :: emptied (s.table.lookup r.code.waiting) := by
      cases hreturns with
      | ret hrest | last hrest => simp only [stackEvents, hrest, hresumers]
    simp only [Fibers.handBack?, hresumers] at hstep
    obtain rfl := Except.ok.inj hstep
    set u : State := { s with
      running := t, log := ({ s with running := t }.dropGuards t).log, pool := s.pool.giveBack.1 }
    obtain ⟨hwarn, -⟩ := u.notes_warn s.pool.giveBack.2
    rw [hwarn]
    obtain ⟨hturns, hpool⟩ := turns_handBack
      (s := { u with log := (u.warn s.pool.giveBack.2).log })
      ((h.kept.finish hresumers).perm (parkedIn_perm h.slots r.code.waiting))
      s.pool.settings.use.1 .finished (.finished · value) value
    rw [hevents]
    refine ⟨.cons (.finishes (Fibers.live_finish hresumers)) hturns, ?_⟩
    rw [hpool]
    exact s.pool.use_giveBack

/-- Every step does what its events do. -/
theorem handles_of_step (h : Sound main p s) (hstep : s.step = .ok s') :
    s.Handles s.stackEvents s' := by
  unfold step at hstep
  cases hrest : s.running.rest with
  | nil =>
    simp only [hrest] at hstep
    exact handles_of_finish h (.last hrest) (ok_of_mapError hstep)
  | cons a rest =>
    simp only [hrest] at hstep
    cases a with
    | make slot script => exact handles_of_make h hrest hstep
    | resume slot => exact handles_of_resume hrest (ok_of_mapError hstep)
    | suspend entry command =>
      exact handles_of_suspend h hrest (.suspend entry command) (ok_of_mapError hstep)
    | forward command =>
      exact handles_of_suspend h hrest (.forward command) (ok_of_mapError hstep)
    | drop slot =>
      have hevents : s.stackEvents = emptied (s.table.lookup slot) := by
        simp only [stackEvents, hrest]
      obtain rfl := Except.ok.inj hstep
      rw [hevents]
      exact handles_of_drop h
    | panic text => cases hstep
    | ret value => exact handles_of_finish h (.ret hrest) (ok_of_mapError hstep)
    | isFinished _ | inFiber | pooled | tally | log _ | guard _ =>
      have hevents : s.stackEvents = [] := by simp only [stackEvents, hrest]
      obtain rfl := Except.ok.inj hstep
      rw [hevents]
      exact .of_eq rfl rfl rfl

/-! ### Refusals and runs -/

theorem notes_unwind (s : State) : s.Notes s.unwind := by
  unfold unwind
  generalize s.fibers.resumers = rs
  have hrunning := s.notes_dropGuards s.running
  generalize s.dropGuards s.running = t at hrunning
  induction rs generalizing t with
  | nil => exact hrunning
  | cons r rs ih => exact ih _ (hrunning.trans (t.notes_dropGuards r.code))

/-- Only an action that makes a fiber is refused a stack. -/
theorem exists_make_of_refused (h : .refused ∈ s.stackEvents) :
    ∃ slot script rest why, s.running.rest = .make slot script :: rest ∧
      s.pool.acquire.1 = .failed why := by
  have hemptied : ∀ old, .refused ∉ emptied old := by simp [emptied]
  unfold stackEvents at h
  split at h
  iterate 4 simp [hemptied] at h
  · rename_i slot script rest hrest
    split at h
    · exact ⟨slot, script, rest, _, hrest, ‹_›⟩
    · simp [hemptied] at h
  · simp [hemptied] at h
  · simp at h

/-- A script that is refused a stack for a fiber loses nothing else, whether it goes on or not. -/
theorem keeps_of_refused (h : .refused ∈ s.stackEvents)
    (hstep : s.step = .ok s' ∨ ∃ outcome, s.step = .error (outcome, s')) :
    s'.counters = s.counters ∧ s'.pool.pooled = s.pool.pooled ∧ s'.fibers = s.fibers ∧
      s'.table = s.table := by
  obtain ⟨slot, script, rest, why, hrest, hfailed⟩ := exists_make_of_refused h
  obtain ⟨outcome, pool, warnings, hacquire⟩ :
    ∃ outcome pool warnings, s.pool.acquire = (outcome, pool, warnings) := ⟨_, _, _, rfl⟩
  obtain rfl : outcome = .failed why := by rw [← hfailed, hacquire]
  have hpooled : pool.pooled = s.pool.pooled := by
    rw [← StackPool.pooled_of_failed hfailed, hacquire]
  obtain ⟨hwarn, -⟩ := { s with running := { s.running with rest }, pool }.notes_warn warnings
  simp only [step, hrest, act, make, hacquire] at hstep
  rw [hwarn] at hstep
  cases why with
  | outOfMemory =>
    obtain hstep | ⟨_, hstep⟩ := hstep
    · obtain rfl := Except.ok.inj hstep
      exact ⟨rfl, hpooled, rfl, rfl⟩
    · cases hstep
  | overflow =>
    obtain hstep | ⟨_, hstep⟩ := hstep
    · cases hstep
    · obtain ⟨-, rfl⟩ := Prod.mk.inj (Except.error.inj hstep)
      rw [(notes_unwind _).1]
      exact ⟨rfl, hpooled, rfl, rfl⟩

/-- What a script knows about stacks after so many steps, and the events of its next step. -/
def stackRun (settings : SettingsSlot) (main : List Action) : StackRun := fun n =>
  ((launch { settings } main).after n).map fun r => (r.1.stackState, r.1.stackEvents)

variable {settings : SettingsSlot} {n : Nat}

/-- The settings in use stay the same. -/
theorem settings_after (h : (launch { settings } main).after n = some (s, p)) :
    s.pool.settings.use.1 = settings.use.1 := by
  induction n generalizing s p with
  | zero =>
    obtain ⟨rfl, -⟩ := Prod.mk.inj (Option.some.inj h)
    rfl
  | succ n ih =>
    obtain ⟨t, q, ht, hstep, -⟩ := exists_of_after_succ h
    exact (handles_of_step (Sound.after ht) hstep).settings.trans (ih ht)

/-- The stacks of every script are accounted for. -/
theorem accounted (settings : SettingsSlot) (main : List Action) :
    (stackRun settings main).Accounted settings.use.1 := by
  refine StackRun.accounted ⟨_, rfl⟩ fun {n s' es'} h => ?_
  obtain ⟨⟨t', p'⟩, hafter, heq⟩ := Option.map_eq_some_iff.mp h
  obtain ⟨rfl, -⟩ := Prod.mk.inj heq
  obtain ⟨t, p, ht, hstep, -⟩ := exists_of_after_succ hafter
  refine ⟨t.stackState, t.stackEvents, by rw [stackRun, ht]; rfl, ?_⟩
  rw [← settings_after ht]
  exact (handles_of_step (Sound.after ht) hstep).turns

end State

end EffectHandlers.FiberScript
