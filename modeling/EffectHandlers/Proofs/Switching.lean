import EffectHandlers.Fiber.Script
import EffectHandlers.Proofs.Entries
/-!
# The steps of fiber scripts

What one step of a fiber script can do to the code that runs, waits and is parked. Beside the run
goes its past: the scripts that fibers were made with, and what each resume came back with, read
off the log.
-/

namespace EffectHandlers

/-- The fiber that the latest resumer waits for: the one whose code is running. -/
def Fibers.front {κ : Type} (fs : Fibers κ) : Option FiberId := fs.resumers.head?.map (·.fiber)

namespace FiberScript

/-- What a resume comes back with. -/
inductive Result where
  | suspended (entry : Int)
  | finished (value : Int)
  deriving DecidableEq

/-- The result that an entry of the log tells. -/
def Entry.result? : Entry → Option Result
  | suspended _ entry => some (.suspended entry)
  | finished _ value => some (.finished value)
  | _ => none

/-- A resume that came back. -/
structure Report where
  /-- The fiber whose code had resumed; `none` for native code. -/
  receiver : Option FiberId
  fiber : FiberId
  result : Result
  deriving DecidableEq

/-- What has come of the fibers of a run. -/
structure Past where
  /-- The scripts that fibers were made with, in the order of their numbers. -/
  scripts : List (List Action) := []
  /-- The resumes that came back, in their order. -/
  reports : List Report := []

namespace State

/-- The script of the fiber that was made between two states, if one was. -/
def born (s s' : State) : List (List Action) :=
  match s.running.rest with
  | .make _ script :: _ => if s.fibers.parked.next < s'.fibers.parked.next then [script] else []
  | _ => []

/-- The results that the log of a later state tells of. -/
def results (s s' : State) : List Result :=
  (s'.log.take (s'.log.length - s.log.length)).filterMap Entry.result?

/-- The resume that came back between two states, if one did. -/
def reported (s s' : State) : List Report :=
  (s.results s').flatMap fun result =>
    s.fibers.resumers.head?.toList.map fun r => ⟨s'.fibers.front, r.fiber, result⟩

end State

/-- The past one step later. -/
def Past.next (p : Past) (s s' : State) : Past where
  scripts := p.scripts ++ s.born s'
  reports := p.reports ++ s.reported s'

namespace State

/-- The native code of a thread before it starts. -/
def launch (pool : StackPool) (script : List Action) : State :=
  { running := { rest := script }, pool }

/-- The state after some steps, and the past up to then; `none` when the run has ended before. -/
def after (s : State) : Nat → Option (State × Past)
  | 0 => some (s, {})
  | n + 1 => (s.after n).bind fun (t, p) =>
    match t.step with
    | .ok t' => some (t', p.next t t')
    | .error _ => none

variable {s s' t : State} {p p' : Past} {n k : Nat}

theorem after_succ (h : s.after n = some (t, p)) (hstep : t.step = .ok s') :
    s.after (n + 1) = some (s', p.next t s') := by
  simp [after, h, hstep]

theorem exists_of_after_succ (h : s.after (n + 1) = some (s', p')) :
    ∃ t p, s.after n = some (t, p) ∧ t.step = .ok s' ∧ p' = p.next t s' := by
  obtain ⟨⟨t, p⟩, ht, heq⟩ := Option.bind_eq_some_iff.mp h
  refine ⟨t, p, ht, ?_⟩
  cases hstep : t.step with
  | ok t' =>
    simp only [hstep, Option.some.injEq, Prod.mk.injEq] at heq
    exact ⟨by rw [heq.1], by rw [← heq.1]; exact heq.2.symm⟩
  | error e => simp [hstep] at heq

/-- A run goes through the states that are counted here. -/
theorem run_of_after (h : s.after n = some (t, p)) : State.run (n + k) s = State.run k t := by
  induction n generalizing t p k with
  | zero =>
    obtain ⟨rfl, -⟩ := Prod.mk.inj (Option.some.inj h)
    simp
  | succ n ih =>
    obtain ⟨u, q, hu, hstep, -⟩ := exists_of_after_succ h
    rw [show n + 1 + k = n + (k + 1) by omega, ih hu]
    simp [State.run, hstep]

end State

/-! ### What is logged -/

/-- A log has grown to another, with these results in it. -/
def Tells (log log' : List Entry) (rs : List Result) : Prop :=
  ∃ news, log' = news ++ log ∧ news.filterMap Entry.result? = rs

namespace Tells

variable {log log' log'' : List Entry} {rs rs' : List Result}

theorem refl (log : List Entry) : Tells log log [] := ⟨[], rfl, rfl⟩

theorem trans (h : Tells log log' rs) (h' : Tells log' log'' rs') : Tells log log'' (rs' ++ rs) := by
  obtain ⟨news, rfl, rfl⟩ := h
  obtain ⟨news', rfl, rfl⟩ := h'
  exact ⟨news' ++ news, by simp, by simp⟩

theorem cons (log : List Entry) (e : Entry) : Tells log (e :: log) e.result?.toList :=
  ⟨[e], rfl, by cases h : e.result? <;> simp [h]⟩

end Tells

namespace State

variable {s s' : State}

theorem results_eq {rs : List Result} (h : Tells s.log s'.log rs) : s.results s' = rs := by
  obtain ⟨news, hnews, rfl⟩ := h
  simp [results, hnews]

/-- A state in which nothing but the log has grown, by entries that tell no result. -/
def Notes (s s' : State) : Prop :=
  s' = { s with log := s'.log } ∧ Tells s.log s'.log []

theorem notes_record (s : State) {e : Entry} (he : e.result? = none) : s.Notes (s.record e) :=
  ⟨rfl, by simpa [record, he] using Tells.cons s.log e⟩

theorem Notes.trans {s'' : State} (h : s.Notes s') (h' : s'.Notes s'') : s.Notes s'' := by
  refine ⟨?_, h.2.trans h'.2⟩
  rw [h'.1, h.1]

theorem notes_foldl {α : Type} (f : α → Entry) (hf : ∀ a, (f a).result? = none) (as : List α)
    (s : State) : s.Notes (as.foldl (fun s a => s.record (f a)) s) := by
  induction as generalizing s with
  | nil => exact ⟨rfl, .refl s.log⟩
  | cons a as ih => exact (s.notes_record (hf a)).trans (ih _)

theorem notes_warn (s : State) (ws : List SettingsWarning) : s.Notes (s.warn ws) :=
  notes_foldl _ (fun _ => rfl) ws s

theorem notes_dropGuards (s : State) (t : Strand) : s.Notes (s.dropGuards t) :=
  notes_foldl _ (fun _ => rfl) t.guards s

end State

/-! ### What a step does -/

/-- The fibers when a slot has been emptied: one that was parked there is dropped. -/
inductive Drops : Option Slot → Fibers Strand → Fibers Strand → Prop
  | parked {id strand fs fs'} (h : fs.drop? id = some (strand, fs')) :
      Drops (some (.parked id)) fs fs'
  | nothing {old fs} (h : ∀ id, old = some (.parked id) → fs.drop? id = none) : Drops old fs fs

/-- An action that asks for this entry, where the latest entry that was received is known. -/
inductive Action.Asks (latest : Int) : Action → Int → Prop
  | suspend (entry : Int) (command : String) : Asks latest (.suspend entry command) entry
  | forward (command : String) : Asks latest (.forward command) latest

/-- An action that does not end the control of its fiber. -/
def Action.Stays : Action → Prop
  | .suspend .. | .forward _ | .ret _ | .panic _ => False
  | _ => True

/-- The next thing a script does is to return a value. -/
inductive Strand.Returns (t : Strand) : Int → Prop
  | ret {value rest} (h : t.rest = .ret value :: rest) : Returns t value
  | last (h : t.rest = []) : Returns t t.last

namespace State

variable {s s' : State}

/-- What one step does to the code that runs, waits and is parked, to the table, and to the last
entry that was received. -/
inductive Moves (s s' : State) : Prop
  | stay {a} (hrest : s.running.rest = a :: s'.running.rest) (ha : a.Stays)
      (hlast : s'.running.last = s.running.last) (hfibers : s'.fibers = s.fibers)
      (htable : s'.table = s.table) (hentry : s'.lastEntry = s.lastEntry) (htells : Tells s.log s'.log [])
  | make {slot script} (hrest : s.running.rest = .make slot script :: s'.running.rest)
      (hlast : s'.running.last = s.running.last)
      (hfibers : Drops (s.table.lookup slot) (s.fibers.create { rest := script }).2 s'.fibers)
      (htable : s'.table =
        (slot, .parked s.fibers.parked.next) :: s.table.filter (·.1 != slot))
      (hentry : s'.lastEntry = s.lastEntry) (htells : Tells s.log s'.log [])
  | drop {slot} (hrest : s.running.rest = .drop slot :: s'.running.rest)
      (hlast : s'.running.last = s.running.last)
      (hfibers : Drops (s.table.lookup slot) s.fibers s'.fibers)
      (htable : s'.table = s.table.filter (·.1 != slot))
      (hentry : s'.lastEntry = s.lastEntry) (htells : Tells s.log s'.log [])
  | resume {slot f rest} (hrest : s.running.rest = .resume slot :: rest)
      (hlookup : s.table.lookup slot = some (.parked f))
      (hfibers : s.fibers.resume? f { s.running with rest, waiting := slot } =
        some (s'.running, s'.fibers))
      (htable : s'.table = s.table.filter (·.1 != slot))
      (hentry : s'.lastEntry = s.lastEntry) (htells : Tells s.log s'.log [])
  | suspend {a rest entry r rs f} (hrest : s.running.rest = a :: rest)
      (ha : a.Asks s.lastEntry entry) (hresumers : s.fibers.resumers = r :: rs)
      (hcurrent : s.fibers.current = some f) (hrunning : s'.running = r.code)
      (hfibers : Drops (s.table.lookup r.code.waiting)
        { parked := ⟨s.fibers.parked.next, (f, { s.running with rest }) :: s.fibers.parked.entries⟩
          current := r.current
          resumers := rs } s'.fibers)
      (htable : s'.table =
        (r.code.waiting, .parked f) :: s.table.filter (·.1 != r.code.waiting))
      (hentry : s'.lastEntry = entry) (htells : Tells s.log s'.log [.suspended entry])
  | finish {value r rs} (hreturns : s.running.Returns value)
      (hresumers : s.fibers.resumers = r :: rs)
      (hrunning : s'.running = { r.code with last := value })
      (hfibers : Drops (s.table.lookup r.code.waiting)
        { s.fibers with current := r.current, resumers := rs } s'.fibers)
      (htable : s'.table =
        (r.code.waiting, .finished) :: s.table.filter (·.1 != r.code.waiting))
      (hentry : s'.lastEntry = s.lastEntry) (htells : Tells s.log s'.log [.finished value])

/-- Emptying a slot changes the parked fibers and the log. -/
theorem dropSlot_eq (s : State) (old : Option Slot) :
    ∃ fs log, s.dropSlot old = { s with fibers := fs, log } ∧ Drops old s.fibers fs ∧
      Tells s.log (s.dropSlot old).log [] := by
  have hsame : ∀ {fs : Fibers Strand}, fs = s.fibers → s = { s with fibers := fs, log := s.log } :=
    fun h => by rw [h]
  cases old with
  | none => exact ⟨_, _, hsame rfl, .nothing (fun _ h => nomatch h), .refl s.log⟩
  | some slot =>
    cases slot with
    | finished => exact ⟨_, _, hsame rfl, .nothing (fun _ h => nomatch h), .refl s.log⟩
    | parked id =>
      cases hdrop : s.fibers.drop? id with
      | none =>
        refine ⟨s.fibers, s.log, by simp [dropSlot, hdrop], .nothing fun id' h => ?_, ?_⟩
        · obtain rfl : id = id' := by simpa using h
          exact hdrop
        · simpa [dropSlot, hdrop] using Tells.refl s.log
      | some r =>
        obtain ⟨strand, fs⟩ := r
        obtain ⟨heq, htells⟩ := { s with fibers := fs }.notes_dropGuards strand
        refine ⟨fs, ({ s with fibers := fs }.dropGuards strand).log, ?_, .parked hdrop, ?_⟩
        · simpa [dropSlot, hdrop] using heq
        · simpa [dropSlot, hdrop] using htells

/-- Filling a slot drops what was in it. -/
theorem place_eq (s : State) (slot : Int) (f : Slot) :
    ∃ fs log, s.place slot f =
        { s with fibers := fs, log, table := (slot, f) :: s.table.filter (·.1 != slot) } ∧
      Drops (s.table.lookup slot) s.fibers fs ∧ Tells s.log (s.place slot f).log [] :=
  dropSlot_eq { s with table := (slot, f) :: s.table.filter (·.1 != slot) } (s.table.lookup slot)

/-- The fiber that was just made goes into its slot. -/
theorem moves_of_place {slot : Int} {script rest : List Action} {t : State}
    (hrest : s.running.rest = .make slot script :: rest)
    (hfibers : t.fibers = (s.fibers.create { rest := script }).2)
    (hrunning : t.running = { s.running with rest }) (htable : t.table = s.table)
    (hentry : t.lastEntry = s.lastEntry) (hlog : Tells s.log t.log []) :
    s.Moves ((t.place slot (.parked s.fibers.parked.next)).record .made) := by
  obtain ⟨fs, log, heq, hdrops, htells⟩ := t.place_eq slot (.parked s.fibers.parked.next)
  rw [heq] at htells ⊢
  rw [htable, hfibers] at hdrops
  exact .make (by simp [record, hrunning, hrest]) (by simp [record, hrunning]) hdrops
    (by simp [record, htable]) hentry ((hlog.trans htells).trans (.cons _ _))

theorem moves_of_make {slot : Int} {script rest : List Action}
    (hrest : s.running.rest = .make slot script :: rest)
    (hstep : { s with running := { s.running with rest } }.make slot script = .ok s') :
    s.Moves s' := by
  unfold make at hstep
  cases hacquire : s.pool.acquire with
  | mk outcome next =>
    obtain ⟨pool, warnings⟩ := next
    simp only [hacquire] at hstep
    obtain ⟨hwarn, htells⟩ :=
      { s with running := { s.running with rest }, pool }.notes_warn warnings
    rw [hwarn] at hstep
    split at hstep
    · obtain rfl := Except.ok.inj hstep
      exact .stay hrest trivial rfl rfl rfl rfl (htells.trans (.cons _ _))
    · cases hstep
    · obtain rfl := Except.ok.inj hstep
      exact moves_of_place hrest rfl rfl rfl rfl htells

/-- Control goes back to the latest resumer. -/
theorem handBack_eq (s : State) (resumer : Strand) (fibers : Fibers Strand) (f : Slot)
    (entry : Int → Entry) (last : Int) :
    ∃ fs log, s.handBack resumer fibers f entry last =
        { s with
          fibers := fs
          running := { resumer with last }
          table := (resumer.waiting, f) :: s.table.filter (·.1 != resumer.waiting)
          log } ∧
      Drops (s.table.lookup resumer.waiting) fibers fs ∧
      Tells s.log log (entry resumer.waiting).result?.toList := by
  obtain ⟨fs, log, heq, hdrops, htells⟩ :=
    ({ s with fibers, running := { resumer with last } }.record (entry resumer.waiting)).place_eq
      resumer.waiting f
  refine ⟨fs, log, heq, hdrops, ?_⟩
  have hlog : log = (s.handBack resumer fibers f entry last).log := by
    unfold handBack
    rw [heq]
  rw [hlog]
  exact (Tells.cons s.log _).trans htells

theorem moves_of_suspend {a : Action} {rest : List Action} {entry : Int} {command : String}
    (hrest : s.running.rest = a :: rest) (ha : a.Asks s.lastEntry entry)
    (hstep : { s with running := { s.running with rest } }.suspend entry command = .ok s') :
    s.Moves s' := by
  unfold suspend at hstep
  cases hcurrent : s.fibers.current with
  | none => simp [hcurrent] at hstep
  | some f =>
    cases hresumers : s.fibers.resumers with
    | nil => simp [hcurrent, Fibers.suspend?, Fibers.handBack?, hresumers] at hstep
    | cons r rs =>
      simp only [hcurrent, Fibers.suspend?, Fibers.handBack?, hresumers, Option.bind_some] at hstep
      obtain rfl := Except.ok.inj hstep
      obtain ⟨fs, log, heq, hdrops, htells⟩ :=
        { s with running := { s.running with rest }, lastEntry := entry }.handBack_eq r.code
          { parked := ⟨s.fibers.parked.next, (f, { s.running with rest }) :: s.fibers.parked.entries⟩
            current := r.current
            resumers := rs } (.parked f) (.suspended · entry) r.code.last
      simp only [heq]
      exact .suspend hrest ha hresumers hcurrent rfl hdrops rfl rfl htells

theorem moves_of_finish {t : Strand} {value : Int} (hreturns : s.running.Returns value)
    (hstep : { s with running := t }.finish value = .ok s') : s.Moves s' := by
  unfold finish at hstep
  obtain ⟨hguards, htells⟩ := { s with running := t }.notes_dropGuards t
  rw [hguards] at hstep
  cases hresumers : s.fibers.resumers with
  | nil => simp [Fibers.handBack?, hresumers] at hstep
  | cons r rs =>
    simp only [Fibers.handBack?, hresumers] at hstep
    obtain rfl := Except.ok.inj hstep
    set u : State := { s with
      running := t, log := ({ s with running := t }.dropGuards t).log, pool := s.pool.giveBack.1 }
    obtain ⟨hwarn, htells'⟩ := u.notes_warn s.pool.giveBack.2
    rw [hwarn]
    obtain ⟨fs, log, heq, hdrops, htells''⟩ :=
      { u with log := (u.warn s.pool.giveBack.2).log }.handBack_eq r.code
        { s.fibers with current := r.current, resumers := rs } .finished (.finished · value) value
    rw [heq]
    exact .finish hreturns hresumers rfl hdrops rfl rfl ((htells.trans htells').trans htells'')

theorem moves_of_drop {slot : Int} {rest : List Action}
    (hrest : s.running.rest = .drop slot :: rest) :
    s.Moves ((dropSlot { s with
      running := { s.running with rest }
      table := s.table.filter (·.1 != slot) } (s.table.lookup slot)).record .dropped) := by
  obtain ⟨fs, log, heq, hdrops, htells⟩ := dropSlot_eq { s with
    running := { s.running with rest }
    table := s.table.filter (·.1 != slot) } (s.table.lookup slot)
  rw [heq] at htells ⊢
  exact .drop hrest rfl hdrops rfl rfl (htells.trans (.cons _ _))

theorem moves_of_resume {slot : Int} {rest : List Action}
    (hrest : s.running.rest = .resume slot :: rest)
    (hstep : { s with running := { s.running with rest } }.resume slot = .ok s') : s.Moves s' := by
  unfold resume at hstep
  split at hstep
  · obtain rfl := Except.ok.inj hstep
    exact .stay hrest trivial rfl rfl rfl rfl (.cons _ _)
  · cases hstep
  · rename_i f hlookup
    split at hstep
    · obtain rfl := Except.ok.inj hstep
      exact .stay hrest trivial rfl rfl rfl rfl (.refl _)
    · rename_i hresume
      obtain rfl := Except.ok.inj hstep
      exact .resume hrest hlookup hresume rfl rfl (.refl _)

theorem ok_of_mapError {ε ε' α : Type} {f : ε → ε'} {x : Except ε α} {a : α}
    (h : x.mapError f = .ok a) : x = .ok a := by
  cases x with
  | ok b => exact congrArg _ (Except.ok.inj h)
  | error e => cases h

/-- Each step is one of these moves. -/
theorem moves_of_step (hstep : s.step = .ok s') : s.Moves s' := by
  unfold step at hstep
  cases hrest : s.running.rest with
  | nil =>
    simp only [hrest] at hstep
    exact moves_of_finish (.last hrest) (ok_of_mapError hstep)
  | cons a rest =>
    simp only [hrest] at hstep
    cases a with
    | make slot script => exact moves_of_make hrest hstep
    | resume slot => exact moves_of_resume hrest (ok_of_mapError hstep)
    | suspend entry command =>
      exact moves_of_suspend hrest (.suspend entry command) (ok_of_mapError hstep)
    | forward command => exact moves_of_suspend hrest (.forward command) (ok_of_mapError hstep)
    | drop slot =>
      obtain rfl := Except.ok.inj hstep
      exact moves_of_drop hrest
    | panic text => cases hstep
    | ret value => exact moves_of_finish (.ret hrest) (ok_of_mapError hstep)
    | guard text =>
      obtain rfl := Except.ok.inj hstep
      exact .stay hrest trivial rfl rfl rfl rfl (.refl _)
    | isFinished _ | inFiber | pooled | tally | log _ =>
      obtain rfl := Except.ok.inj hstep
      exact .stay hrest trivial rfl rfl rfl rfl (.cons _ _)

end State

end FiberScript

end EffectHandlers
