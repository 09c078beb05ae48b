import EffectHandlers.Proofs.Crew
import EffectHandlers.Proofs.Switching
import Mathlib.Data.List.Induction
/-!
# What resumes come back with

In a run of fiber scripts, what the resumes of a fiber come back with are the requests of the
fiber's own script, in order, and then its value. The invariant is about all code of the thread:
each piece is what is left of its own script, and what it did before has been reported.
-/

namespace EffectHandlers

namespace FiberScript

/-! ### What resumes came back with -/

/-- The entry that was received last, after one more report. -/
def Report.entry (latest : Int) (rep : Report) : Int :=
  match rep.result with
  | .suspended entry => entry
  | .finished _ => latest

/-- The value that some code saw last, after one more report. -/
def Report.value (o : Option FiberId) (last : Int) (rep : Report) : Int :=
  match rep.result with
  | .suspended _ => last
  | .finished value => if rep.receiver = o then value else last

/-- The entry that a resume received last, or 0. -/
def received (reports : List Report) : Int := reports.foldl Report.entry 0

/-- The value of the last fiber that the code of `o` saw finish, or 0. -/
def seen (o : Option FiberId) (reports : List Report) : Int := reports.foldl (Report.value o) 0

@[simp] theorem received_append (reports : List Report) (rep : Report) :
    received (reports ++ [rep]) = rep.entry (received reports) := by
  simp [received]

@[simp] theorem seen_append (o : Option FiberId) (reports : List Report) (rep : Report) :
    seen o (reports ++ [rep]) = rep.value o (seen o reports) := by
  simp [seen]

/-- What code has done so far, action by action, beside all reports so far: those about its own
fiber are the requests it made, unchanged and in order. -/
inductive Asked (o : Option FiberId) : List Report → List Action → Prop
  | start : Asked o [] []
  | stays {reports done a} (h : Asked o reports done) (ha : a.Stays) : Asked o reports (done ++ [a])
  | asks {reports done a rep entry} (h : Asked o reports done)
      (ha : a.Asks (received reports) entry) (hfiber : some rep.fiber = o)
      (hresult : rep.result = .suspended entry) : Asked o (reports ++ [rep]) (done ++ [a])
  | other {reports done rep} (h : Asked o reports done) (hne : some rep.fiber ≠ o) :
      Asked o (reports ++ [rep]) done

/-- All reports about a fiber with this script that has finished: the requests of the actions it
got to, and at last, once, the value that it returned. -/
inductive Ended (f : FiberId) : List Report → List Action → Prop
  | returns {reports done rest rep value} (h : Asked (some f) reports done)
      (hreturns : Strand.Returns { rest, last := seen (some f) reports } value)
      (hfiber : rep.fiber = f) (hresult : rep.result = .finished value) :
      Ended f (reports ++ [rep]) (done ++ rest)
  | other {reports script rep} (h : Ended f reports script) (hne : rep.fiber ≠ f) :
      Ended f (reports ++ [rep]) script

/-- The reports about a fiber with this script, whatever has become of it. -/
def Lived (f : FiberId) (reports : List Report) (script : List Action) : Prop :=
  (∃ done rest, script = done ++ rest ∧ Asked (some f) reports done) ∨ Ended f reports script

theorem Lived.other {f : FiberId} {reports : List Report} {script : List Action} {rep : Report}
    (h : Lived f reports script) (hne : rep.fiber ≠ f) : Lived f (reports ++ [rep]) script := by
  rcases h with ⟨done, rest, hscript, h⟩ | h
  · exact .inl ⟨done, rest, hscript, h.other fun heq => hne (Option.some.inj heq)⟩
  · exact .inr (h.other hne)

/-- No report is about code that has just been made. -/
theorem Asked.of_fresh {o : Option FiberId} {reports : List Report}
    (h : ∀ rep ∈ reports, some rep.fiber ≠ o) : Asked o reports [] := by
  induction reports using List.reverseRecOn with
  | nil => exact .start
  | append_singleton reports rep ih =>
    exact (ih fun q hq => h q (List.mem_append_left _ hq)).other (h rep (by simp))

theorem seen_of_fresh {o : Option FiberId} {reports : List Report}
    (h : ∀ rep ∈ reports, rep.receiver ≠ o) : seen o reports = 0 := by
  induction reports using List.reverseRecOn with
  | nil => rfl
  | append_singleton reports rep ih =>
    rw [seen_append, ih fun q hq => h q (List.mem_append_left _ hq)]
    have hne := h rep (by simp)
    unfold Report.value
    split <;> simp [hne]

/-! ### Code and its fiber -/

/-- The script that the code of a fiber, or the native code, started with. -/
def Past.script? (main : List Action) (p : Past) : Option FiberId → Option (List Action)
  | none => some main
  | some f => p.scripts[f]?

@[simp] theorem Past.script?_reports (main : List Action) (p : Past) (reports : List Report)
    (o : Option FiberId) : ({ p with reports } : Past).script? main o = p.script? main o := by
  cases o <;> rfl

/-- This code is what is left of the script of `o`, and it has been told what the reports say. -/
structure Carried (main : List Action) (p : Past) (o : Option FiberId) (t : Strand) : Prop where
  executed : ∃ done, p.script? main o = some (done ++ t.rest) ∧ Asked o p.reports done
  last : t.last = seen o p.reports

/-- The fibers parked in a table. -/
def parkedIn (table : List (Int × Slot)) : List FiberId :=
  table.filterMap fun e =>
    match e.2 with
    | .parked f => some f
    | .finished => none

/-- Reports, scripts, code and table of a run fit together. -/
structure Sound (main : List Action) (p : Past) (s : State) : Prop where
  kept : s.fibers.Kept (parkedIn s.table)
  slots : (s.table.map (·.1)).Nodup
  numbered : p.scripts.length = s.fibers.parked.next
  issued : ∀ rep ∈ p.reports, rep.fiber < p.scripts.length ∧
    ∀ f, rep.receiver = some f → f < p.scripts.length
  carried : ∀ x ∈ s.fibers.crew s.running, Carried main p x.1 x.2
  lived : ∀ f script, p.scripts[f]? = some script → Lived f p.reports script
  received : s.lastEntry = received p.reports

/-! ### The table -/

/-- The fiber parked in a slot, if there is one. -/
def Slot.fibers : Option Slot → List FiberId
  | some (.parked f) => [f]
  | _ => []

theorem parkedIn_cons (slot : Int) (x : Slot) (table : List (Int × Slot)) :
    parkedIn ((slot, x) :: table) = Slot.fibers (some x) ++ parkedIn table := by
  cases x <;> rfl

/-- Emptying a slot leaves the fibers in the other slots. -/
theorem parkedIn_perm {table : List (Int × Slot)} (h : (table.map (·.1)).Nodup) (slot : Int) :
    (parkedIn table).Perm
      (Slot.fibers (table.lookup slot) ++ parkedIn (table.filter (·.1 != slot))) := by
  induction table with
  | nil => exact .refl _
  | cons e table ih =>
    obtain ⟨k, x⟩ := e
    obtain ⟨hout, hrest⟩ := List.nodup_cons.mp h
    by_cases hk : slot = k
    · subst hk
      have hfilter : table.filter (·.1 != slot) = table := by
        refine List.filter_eq_self.mpr fun e he => ?_
        have hne : e.1 ≠ slot := fun heq => hout (List.mem_map.mpr ⟨e, he, heq⟩)
        simpa using hne
      simp [parkedIn_cons, hfilter]
    · have hne : (slot == k) = false := by simpa using hk
      have hne' : (k != slot) = true := by simpa using fun heq => hk heq.symm
      simp only [List.lookup_cons, hne, List.filter_cons, hne', if_true, parkedIn_cons]
      exact ((ih hrest).append_left _).trans (by
        simp only [← List.append_assoc]
        exact (List.perm_append_comm.append_right _))

theorem nodup_filter {table : List (Int × Slot)} (h : (table.map (·.1)).Nodup) (slot : Int) :
    ((table.filter (·.1 != slot)).map (·.1)).Nodup :=
  h.sublist (List.filter_sublist.map _)

theorem nodup_place {table : List (Int × Slot)} (h : (table.map (·.1)).Nodup) (slot : Int)
    (x : Slot) : (((slot, x) :: table.filter (·.1 != slot)).map (·.1)).Nodup := by
  refine List.nodup_cons.mpr ⟨fun hmem => ?_, nodup_filter h slot⟩
  obtain ⟨e, he, heq⟩ := List.mem_map.mp hmem
  simp [heq] at he

/-- Emptying a slot leaves all code but that of the fiber in it. -/
theorem Drops.kept {old : Option Slot} {fs fs' : Fibers Strand} {ids : List FiberId}
    (hdrops : Drops old fs fs') (h : fs.Kept (Slot.fibers old ++ ids)) :
    fs'.Kept ids ∧ (∀ t, fs'.crew t ⊆ fs.crew t) ∧ fs'.parked.next = fs.parked.next := by
  cases hdrops with
  | @parked id strand _ _ hdrop =>
    refine ⟨h.drop hdrop, fun t => ?_, ?_⟩
    · exact fun x hx =>
        (Fibers.Kept.crew_drop hdrop t).mem_iff.mpr (List.mem_cons_of_mem _ hx)
    · obtain ⟨S, -, heq⟩ := Option.map_eq_some_iff.mp hdrop
      rw [← (Prod.mk.inj heq).2]
      rfl
  | nothing hnone =>
    refine ⟨?_, fun _ _ => id, rfl⟩
    cases old with
    | none => exact h
    | some x =>
      cases x with
      | finished => exact h
      | parked id =>
        obtain ⟨code, hcode⟩ := h.mem_parked (List.mem_append_left _ (List.mem_cons_self ..))
        have := hnone id rfl
        simp [Fibers.drop?, hcode] at this

/-- The resumers and what they get back stay when a slot is emptied. -/
theorem Drops.waiting {old : Option Slot} {fs fs' : Fibers Strand} (hdrops : Drops old fs fs') :
    fs'.current = fs.current ∧ fs'.resumers = fs.resumers := by
  cases hdrops with
  | parked hdrop =>
    obtain ⟨S, -, heq⟩ := Option.map_eq_some_iff.mp hdrop
    rw [← (Prod.mk.inj heq).2]
    exact ⟨rfl, rfl⟩
  | nothing => exact ⟨rfl, rfl⟩

/-! ### One step -/

section Step

variable {main : List Action} {p : Past} {s s' : State} {o : Option FiberId} {t t' : Strand}

theorem State.born_eq_nil (h : s'.fibers.parked.next = s.fibers.parked.next) : s.born s' = [] := by
  unfold State.born
  split
  · simp [h]
  · rfl

theorem State.reported_eq_nil (h : Tells s.log s'.log []) : s.reported s' = [] := by
  simp [State.reported, State.results_eq h]

theorem State.reported_eq_singleton {result : Result} {r : Resumer Strand}
    {rs : List (Resumer Strand)} (h : Tells s.log s'.log [result])
    (hresumers : s.fibers.resumers = r :: rs) :
    s.reported s' = [⟨s'.fibers.front, r.fiber, result⟩] := by
  simp [State.reported, State.results_eq h, hresumers]

theorem Past.next_eq_self (hnext : s'.fibers.parked.next = s.fibers.parked.next)
    (htells : Tells s.log s'.log []) : p.next s s' = p := by
  simp [Past.next, State.born_eq_nil hnext, State.reported_eq_nil htells]

namespace Carried

/-- Code that does an action and keeps control. -/
theorem advance (h : Carried main p o t) {a : Action} (hrest : t.rest = a :: t'.rest)
    (ha : a.Stays) (hlast : t'.last = t.last) : Carried main p o t' := by
  obtain ⟨⟨done, hscript, hasked⟩, hseen⟩ := h
  refine ⟨⟨done ++ [a], ?_, hasked.stays ha⟩, hlast.trans hseen⟩
  simp [hscript, hrest]

/-- Code that is not told of, and sees no value. -/
theorem other (h : Carried main p o t) {rep : Report} (hfiber : some rep.fiber ≠ o)
    (hvalue : rep.value o t.last = t.last) :
    Carried main { p with reports := p.reports ++ [rep] } o t := by
  obtain ⟨⟨done, hscript, hasked⟩, hseen⟩ := h
  exact ⟨⟨done, by simpa using hscript, hasked.other hfiber⟩, by rw [seen_append, ← hseen, hvalue]⟩

/-- The scripts of more fibers do not matter. -/
theorem made (h : Carried main p o t) (script : List Action) :
    Carried main { p with scripts := p.scripts ++ [script] } o t := by
  obtain ⟨⟨done, hscript, hasked⟩, hseen⟩ := h
  refine ⟨⟨done, ?_, hasked⟩, hseen⟩
  cases o with
  | none => exact hscript
  | some f =>
    obtain ⟨hlt, -⟩ := List.getElem?_eq_some_iff.mp hscript
    simpa [Past.script?, List.getElem?_append_left hlt] using hscript

end Carried

theorem forall_crew {fs : Fibers Strand} {q : Option FiberId × Strand → Prop}
    (h : ∀ x ∈ fs.crew t, q x) (ht : q (fs.current, t')) : ∀ x ∈ fs.crew t', q x := by
  intro x hx
  rcases List.mem_cons.mp hx with rfl | hx
  · exact ht
  · exact h x (List.mem_cons_of_mem _ hx)

namespace Sound

theorem running (h : Sound main p s) : Carried main p s.fibers.current s.running :=
  h.carried _ (List.mem_cons_self ..)

theorem stay (h : Sound main p s) {a : Action} (hrest : s.running.rest = a :: s'.running.rest)
    (ha : a.Stays) (hlast : s'.running.last = s.running.last) (hfibers : s'.fibers = s.fibers)
    (htable : s'.table = s.table) (hentry : s'.lastEntry = s.lastEntry) : Sound main p s' where
  kept := by rw [hfibers, htable]; exact h.kept
  slots := htable ▸ h.slots
  numbered := by rw [hfibers]; exact h.numbered
  issued := h.issued
  carried := by
    rw [hfibers]
    exact forall_crew h.carried (h.running.advance hrest ha hlast)
  lived := h.lived
  received := hentry.trans h.received

theorem drop (h : Sound main p s) {slot : Int}
    (hrest : s.running.rest = .drop slot :: s'.running.rest)
    (hlast : s'.running.last = s.running.last)
    (hfibers : Drops (s.table.lookup slot) s.fibers s'.fibers)
    (htable : s'.table = s.table.filter (·.1 != slot)) (hentry : s'.lastEntry = s.lastEntry) :
    Sound main p s' := by
  obtain ⟨hkept, hcrew, hnext⟩ := hfibers.kept (h.kept.perm (parkedIn_perm h.slots slot))
  exact
    { kept := htable ▸ hkept
      slots := htable ▸ nodup_filter h.slots slot
      numbered := h.numbered.trans hnext.symm
      issued := h.issued
      carried := fun x hx =>
        forall_crew h.carried (h.running.advance hrest trivial hlast) x (hcrew _ hx)
      lived := h.lived
      received := hentry.trans h.received }

theorem resume (h : Sound main p s) {slot : Int} {f : FiberId} {rest : List Action}
    (hrest : s.running.rest = .resume slot :: rest)
    (hlookup : s.table.lookup slot = some (.parked f))
    (hfibers : s.fibers.resume? f { s.running with rest, waiting := slot } =
      some (s'.running, s'.fibers))
    (htable : s'.table = s.table.filter (·.1 != slot)) (hentry : s'.lastEntry = s.lastEntry) :
    Sound main p s' ∧ s'.fibers.parked.next = s.fibers.parked.next := by
  have hperm := parkedIn_perm h.slots slot
  rw [hlookup] at hperm
  obtain ⟨hkept, hcrew, -⟩ := (h.kept.perm hperm).resume hfibers
  have hnext : s'.fibers.parked.next = s.fibers.parked.next := by
    obtain ⟨S, -, heq⟩ := Option.map_eq_some_iff.mp hfibers
    rw [← (Prod.mk.inj heq).2]
    rfl
  have hwaits : Carried main p s.fibers.current { s.running with rest, waiting := slot } :=
    h.running.advance hrest trivial rfl
  refine ⟨?_, hnext⟩
  exact
    { kept := htable ▸ hkept
      slots := htable ▸ nodup_filter h.slots slot
      numbered := h.numbered.trans hnext.symm
      issued := h.issued
      carried := fun x hx => forall_crew h.carried hwaits x (hcrew.mem_iff.mp hx)
      lived := h.lived
      received := hentry.trans h.received }

/-- A fiber that was just made has its whole script before it. -/
theorem made (h : Sound main p s) (script : List Action) :
    Carried main { p with scripts := p.scripts ++ [script] } (some s.fibers.parked.next)
      { rest := script } := by
  refine ⟨⟨[], ?_, .of_fresh fun rep hrep heq => ?_⟩, (seen_of_fresh fun rep hrep heq => ?_).symm⟩
  · simp [Past.script?, ← h.numbered]
  · have hlt := (h.issued rep hrep).1
    rw [h.numbered, Option.some.inj heq] at hlt
    exact Nat.lt_irrefl _ hlt
  · have hlt := (h.issued rep hrep).2 _ heq
    rw [h.numbered] at hlt
    exact Nat.lt_irrefl _ hlt

theorem make (h : Sound main p s) {slot : Int} {script : List Action}
    (hrest : s.running.rest = .make slot script :: s'.running.rest)
    (hlast : s'.running.last = s.running.last)
    (hfibers : Drops (s.table.lookup slot) (s.fibers.create { rest := script }).2 s'.fibers)
    (htable : s'.table = (slot, .parked s.fibers.parked.next) :: s.table.filter (·.1 != slot))
    (hentry : s'.lastEntry = s.lastEntry) :
    Sound main { p with scripts := p.scripts ++ [script] } s' ∧
      s'.fibers.parked.next = s.fibers.parked.next + 1 := by
  have hperm : (s.fibers.parked.next :: parkedIn s.table).Perm
      (Slot.fibers (s.table.lookup slot) ++
        s.fibers.parked.next :: parkedIn (s.table.filter (·.1 != slot))) :=
    ((parkedIn_perm h.slots slot).cons _).trans List.perm_middle.symm
  obtain ⟨hkept, hcrew, hnext⟩ :=
    hfibers.kept ((h.kept.create { rest := script }).perm hperm)
  refine ⟨?_, hnext⟩
  refine
    { kept := htable ▸ hkept
      slots := htable ▸ nodup_place h.slots slot _
      numbered := ?_
      issued := ?_
      carried := ?_
      lived := ?_
      received := hentry.trans h.received }
  · rw [hnext, List.length_append, h.numbered]
    rfl
  · intro rep hrep
    obtain ⟨hfiber, hreceiver⟩ := h.issued rep hrep
    simp only [List.length_append, List.length_singleton]
    exact ⟨Nat.lt_succ_of_lt hfiber, fun f hf => Nat.lt_succ_of_lt (hreceiver f hf)⟩
  · intro x hx
    have hx := (Fibers.Kept.crew_create s.fibers _ _).mem_iff.mp (hcrew _ hx)
    rcases List.mem_cons.mp hx with rfl | hx
    · exact h.made script
    · exact (forall_crew h.carried (h.running.advance hrest trivial hlast) x hx).made script
  · intro f script' hscript
    by_cases hf : f < p.scripts.length
    · exact h.lived f script' (by simpa [List.getElem?_append_left hf] using hscript)
    · obtain ⟨hlt, -⟩ := List.getElem?_eq_some_iff.mp hscript
      obtain rfl : f = s.fibers.parked.next := by
        rw [← h.numbered]
        simp only [List.length_append, List.length_singleton] at hlt
        exact Nat.le_antisymm (Nat.le_of_lt_succ hlt) (Nat.le_of_not_lt hf)
      obtain ⟨done, hdone, hasked⟩ := (h.made script).executed
      exact .inl ⟨done, script, Option.some.inj (hscript.symm.trans hdone), hasked⟩

/-- The fiber whose code runs has been made, and no other code is its own. -/
theorem front (h : Sound main p s) {r : Resumer Strand} {rs : List (Resumer Strand)}
    (hresumers : s.fibers.resumers = r :: rs) :
    s.fibers.current = some r.fiber ∧ r.fiber < p.scripts.length := by
  have hnamed := h.kept.named
  rw [hresumers] at hnamed
  refine ⟨hnamed.1, ?_⟩
  rw [h.numbered]
  exact h.kept.issued r (by simp [hresumers])

/-- A report about the fiber whose code has run, to the code that goes on. -/
theorem issued_report (h : Sound main p s) {r : Resumer Strand} {rs : List (Resumer Strand)}
    (hresumers : s.fibers.resumers = r :: rs) (result : Result) :
    ∀ rep ∈ p.reports ++ [⟨r.current, r.fiber, result⟩], rep.fiber < p.scripts.length ∧
      ∀ f, rep.receiver = some f → f < p.scripts.length := by
  intro rep hrep
  rcases List.mem_append.mp hrep with hrep | hrep
  · exact h.issued rep hrep
  · obtain rfl := List.mem_singleton.mp hrep
    refine ⟨(h.front hresumers).2, fun f hf => ?_⟩
    have hnamed := h.kept.named
    rw [hresumers] at hnamed
    have hfront := hnamed.2.eq_front
    cases rs with
    | nil => simp [hfront] at hf
    | cons q qs =>
      obtain rfl : q.fiber = f := by simpa [hfront] using hf
      rw [h.numbered]
      exact h.kept.issued q (by simp [hresumers])

/-- The reports about other fibers are the same after this one. -/
theorem lived_report (h : Sound main p s) {rep : Report}
    (hlived : ∀ script, p.scripts[rep.fiber]? = some script →
      Lived rep.fiber (p.reports ++ [rep]) script) :
    ∀ f script, p.scripts[f]? = some script → Lived f (p.reports ++ [rep]) script := by
  intro f script hscript
  by_cases hf : rep.fiber = f
  · subst hf
    exact hlived script hscript
  · exact (h.lived f script hscript).other hf

theorem suspend (h : Sound main p s) {a : Action} {rest : List Action} {entry : Int}
    {r : Resumer Strand} {rs : List (Resumer Strand)} (hrest : s.running.rest = a :: rest)
    (ha : a.Asks s.lastEntry entry) (hresumers : s.fibers.resumers = r :: rs)
    (hrunning : s'.running = r.code)
    (hfibers : Drops (s.table.lookup r.code.waiting)
      { parked := ⟨s.fibers.parked.next,
          (r.fiber, { s.running with rest }) :: s.fibers.parked.entries⟩
        current := r.current
        resumers := rs } s'.fibers)
    (htable : s'.table =
      (r.code.waiting, .parked r.fiber) :: s.table.filter (·.1 != r.code.waiting))
    (hentry : s'.lastEntry = entry) :
    Sound main { p with reports := p.reports ++ [⟨r.current, r.fiber, .suspended entry⟩] } s' ∧
      s'.fibers.parked.next = s.fibers.parked.next ∧ s'.fibers.current = r.current := by
  obtain ⟨hcurrent, -⟩ := h.front hresumers
  obtain ⟨hkept, hcrew⟩ := h.kept.suspend { s.running with rest } hresumers hcurrent
  have hperm := (((parkedIn_perm h.slots r.code.waiting).cons r.fiber).trans
    List.perm_middle.symm)
  obtain ⟨hkept', hcrew', hnext⟩ := hfibers.kept (hkept.perm hperm)
  -- What is parked has asked for the entry; the other code is not concerned.
  have hparks : Carried main
      { p with reports := p.reports ++ [⟨r.current, r.fiber, .suspended entry⟩] }
      (some r.fiber) { s.running with rest } := by
    obtain ⟨⟨done, hscript, hasked⟩, hseen⟩ := hcurrent ▸ h.running
    rw [h.received] at ha
    refine ⟨⟨done ++ [a], ?_, hasked.asks ha rfl rfl⟩, ?_⟩
    · simpa [hrest, Past.script?] using hscript
    · rw [seen_append]
      exact hseen
  refine ⟨?_, hnext, hfibers.waiting.1⟩
  refine
    { kept := htable ▸ hkept'
      slots := htable ▸ nodup_place h.slots _ _
      numbered := h.numbered.trans hnext.symm
      issued := h.issued_report hresumers _
      carried := ?_
      lived := ?_
      received := ?_ }
  · intro x hx
    rw [hrunning] at hx
    have hx := hcrew.mem_iff.mp (hcrew' _ hx)
    have hdistinct := h.kept.crew_distinct { s.running with rest }
    rcases List.mem_cons.mp hx with rfl | hx'
    · simpa [hcurrent] using hparks
    · have hne : x.1 ≠ s.fibers.current := by
        intro heq
        exact (List.nodup_cons.mp hdistinct).1 (List.mem_map.mpr ⟨x, hx', heq⟩)
      refine (h.carried x (List.mem_cons_of_mem _ hx')).other ?_ rfl
      rw [← hcurrent]
      exact hne.symm
  · refine h.lived_report fun script hscript => .inl ?_
    obtain ⟨done, hdone, hasked⟩ := hparks.executed
    exact ⟨done, rest, Option.some.inj (hscript.symm.trans hdone), hasked⟩
  · rw [received_append]
    exact hentry

theorem finish (h : Sound main p s) {value : Int} {r : Resumer Strand} {rs : List (Resumer Strand)}
    (hreturns : s.running.Returns value) (hresumers : s.fibers.resumers = r :: rs)
    (hrunning : s'.running = { r.code with last := value })
    (hfibers : Drops (s.table.lookup r.code.waiting)
      { s.fibers with current := r.current, resumers := rs } s'.fibers)
    (htable : s'.table =
      (r.code.waiting, .finished) :: s.table.filter (·.1 != r.code.waiting))
    (hentry : s'.lastEntry = s.lastEntry) :
    Sound main { p with reports := p.reports ++ [⟨r.current, r.fiber, .finished value⟩] } s' ∧
      s'.fibers.parked.next = s.fibers.parked.next ∧ s'.fibers.current = r.current := by
  obtain ⟨hcurrent, -⟩ := h.front hresumers
  have hkept := h.kept.finish hresumers
  obtain ⟨hkept', hcrew', hnext⟩ :=
    hfibers.kept (hkept.perm (parkedIn_perm h.slots r.code.waiting))
  have hcrew : s.fibers.crew s.running = _ :: _ := Fibers.Kept.crew_finish hresumers
  refine ⟨?_, hnext, hfibers.waiting.1⟩
  refine
    { kept := htable ▸ hkept'
      slots := htable ▸ nodup_place h.slots _ _
      numbered := h.numbered.trans hnext.symm
      issued := h.issued_report hresumers _
      carried := ?_
      lived := ?_
      received := ?_ }
  · have hdistinct := h.kept.crew_distinct s.running
    rw [hcrew] at hdistinct
    obtain ⟨hout, hdistinct⟩ := List.nodup_cons.mp hdistinct
    intro x hx
    rw [hrunning] at hx
    rcases List.mem_cons.mp (hcrew' _ hx) with rfl | hx'
    · -- The code that goes on has seen the value.
      obtain ⟨⟨done, hdone, hasked⟩, -⟩ : Carried main p r.current r.code :=
        h.carried _ (hcrew ▸ List.mem_cons_of_mem _ (List.mem_cons_self ..))
      have hne : some r.fiber ≠ r.current := fun heq =>
        hout (List.mem_map.mpr ⟨_, List.mem_cons_self .., (hcurrent.trans heq).symm⟩)
      exact ⟨⟨done, by simpa using hdone, hasked.other hne⟩, by simp [Report.value]⟩
    · have hmem : x ∈ s.fibers.crew s.running :=
        hcrew ▸ List.mem_cons_of_mem _ (List.mem_cons_of_mem _ hx')
      refine (h.carried x hmem).other (fun heq => ?_) (if_neg fun heq => ?_)
      · exact hout (List.mem_map.mpr
          ⟨x, List.mem_cons_of_mem _ hx', (hcurrent.trans heq).symm⟩)
      · exact (List.nodup_cons.mp hdistinct).1 (List.mem_map.mpr ⟨x, hx', heq.symm⟩)
  · refine h.lived_report fun script hscript => .inr ?_
    obtain ⟨⟨done, hdone, hasked⟩, hseen⟩ := hcurrent ▸ h.running
    obtain rfl : script = done ++ s.running.rest := Option.some.inj (hscript.symm.trans hdone)
    refine .returns hasked ?_ rfl rfl
    cases hreturns with
    | ret hrest => exact .ret hrest
    | last hrest => exact hseen ▸ .last hrest
  · rw [received_append]
    exact hentry.trans h.received

/-- Everything fits together one step later. -/
theorem step (h : Sound main p s) (hmoves : s.Moves s') : Sound main (p.next s s') s' := by
  -- A report names the code that has regained control by the fiber that it belongs to.
  have hback : ∀ {r rs result}, s.fibers.resumers = r :: rs → Tells s.log s'.log [result] →
      Sound main { p with reports := p.reports ++ [⟨r.current, r.fiber, result⟩] } s' ∧
        s'.fibers.parked.next = s.fibers.parked.next ∧ s'.fibers.current = r.current →
      Sound main (p.next s s') s' := by
    rintro r rs result hresumers htells ⟨hsound, hnext, hcurrent⟩
    have hfront : s'.fibers.front = r.current :=
      (hsound.kept.named.eq_front).symm.trans hcurrent
    simpa [Past.next, State.born_eq_nil hnext, State.reported_eq_singleton htells hresumers,
      hfront] using hsound
  cases hmoves with
  | stay hrest ha hlast hfibers htable hentry htells =>
    rw [Past.next_eq_self (by rw [hfibers]) htells]
    exact h.stay hrest ha hlast hfibers htable hentry
  | make hrest hlast hfibers htable hentry htells =>
    obtain ⟨hsound, hnext⟩ := h.make hrest hlast hfibers htable hentry
    simpa [Past.next, State.born, hrest, hnext, State.reported_eq_nil htells] using hsound
  | drop hrest hlast hfibers htable hentry htells =>
    have hnext := (hfibers.kept (h.kept.perm (parkedIn_perm h.slots _))).2.2
    rw [Past.next_eq_self hnext htells]
    exact h.drop hrest hlast hfibers htable hentry
  | resume hrest hlookup hfibers htable hentry htells =>
    obtain ⟨hsound, hnext⟩ := h.resume hrest hlookup hfibers htable hentry
    rwa [Past.next_eq_self hnext htells]
  | suspend hrest ha hresumers hcurrent hrunning hfibers htable hentry htells =>
    obtain rfl := Option.some.inj (hcurrent.symm.trans (h.front hresumers).1)
    exact hback hresumers htells
      (h.suspend hrest ha hresumers hrunning hfibers htable hentry)
  | finish hreturns hresumers hrunning hfibers htable hentry htells =>
    exact hback hresumers htells (h.finish hreturns hresumers hrunning hfibers htable hentry)

theorem launch (pool : StackPool) (main : List Action) :
    Sound main {} (State.launch pool main) where
  kept :=
    { wellFormed := Store.wellFormed_empty
      parked := .refl _
      distinct := List.nodup_nil
      issued := fun _ h => nomatch h
      named := rfl }
  slots := List.nodup_nil
  numbered := rfl
  issued := fun _ h => nomatch h
  carried := by
    intro x hx
    obtain rfl : x = (none, { rest := main }) := by
      simpa [Fibers.crew, State.launch] using hx
    exact ⟨⟨[], rfl, .start⟩, rfl⟩
  lived := fun _ _ h => by simp at h
  received := rfl

/-- In every run everything fits together after any number of steps. -/
theorem after {pool : StackPool} {n : Nat} (h : (State.launch pool main).after n = some (s, p)) :
    Sound main p s := by
  induction n generalizing s p with
  | zero =>
    obtain ⟨rfl, rfl⟩ := Prod.mk.inj (Option.some.inj h)
    exact launch pool main
  | succ n ih =>
    obtain ⟨t, q, ht, hstep, rfl⟩ := State.exists_of_after_succ h
    exact (ih ht).step (State.moves_of_step hstep)

end Sound

end Step

end FiberScript

end EffectHandlers
