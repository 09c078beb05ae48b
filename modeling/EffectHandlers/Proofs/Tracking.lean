import EffectHandlers.Proofs.Entries
import EffectHandlers.Proofs.Lookup
/-!
# Stores that forget nothing, and what a thread shows of an evaluation

## Stores that forget nothing

A store from which entries are dropped, beside one that keeps them. As long as a number was not
dropped, both find something under it or neither does, and what they find matches.
-/

namespace EffectHandlers.Store

variable {α β : Type} {gone gone' : Nat → Prop} {rel rel' : α → β → Prop} {s : Store α}
  {t : Store β} {id : Nat} {a : α} {b : β}

/-- The second store has a match for each entry of the first; whatever else it has is gone. -/
structure Shadows (gone : Nat → Prop) (rel : α → β → Prop) (s : Store α) (t : Store β) : Prop where
  next : t.next = s.next
  left : s.WellFormed
  right : t.WellFormed
  forth : ∀ {id a}, s.find? id = some a → ∃ b, t.find? id = some b ∧ rel a b
  back : ∀ {id b}, t.find? id = some b → (s.find? id).isSome ∨ gone id

namespace Shadows

/-- What is not gone is found in both stores or in neither. -/
theorem find? (h : Shadows gone rel s t) (hgone : ¬ gone id) :
    (s.find? id = none ∧ t.find? id = none) ∨
      ∃ a b, s.find? id = some a ∧ t.find? id = some b ∧ rel a b := by
  cases hs : s.find? id with
  | some a =>
    obtain ⟨b, hb, hrel⟩ := h.forth hs
    exact .inr ⟨a, b, rfl, hb, hrel⟩
  | none =>
    cases ht : t.find? id with
    | none => exact .inl ⟨rfl, rfl⟩
    | some b =>
      rcases h.back ht with hsome | hg
      · simp [hs] at hsome
      · exact absurd hg hgone

theorem contains_eq (h : Shadows gone rel s t) (hgone : ¬ gone id) :
    t.contains id = s.contains id := by
  rcases h.find? hgone with ⟨hs, ht⟩ | ⟨a, b, hs, ht, -⟩ <;> simp [contains, hs, ht]

/-- More may be gone, and entries that are there may match in another way. -/
theorem mono (h : Shadows gone rel s t) (hgone : ∀ id, gone id → gone' id)
    (hrel : ∀ id a b, s.find? id = some a → rel a b → rel' a b) : Shadows gone' rel' s t where
  next := h.next
  left := h.left
  right := h.right
  forth hs := by
    obtain ⟨b, hb, hab⟩ := h.forth hs
    exact ⟨b, hb, hrel _ _ _ hs hab⟩
  back ht := (h.back ht).imp_right (hgone _)

theorem insert (h : Shadows gone rel s t) (hab : rel a b) :
    Shadows gone rel (s.insert a).2 (t.insert b).2 where
  next := by simp [Store.insert, h.next]
  left := wellFormed_insert h.left a
  right := wellFormed_insert h.right b
  forth {id a'} hs := by
    rw [find?_insert] at hs ⊢
    rw [h.next]
    split at hs
    · rename_i hid
      obtain rfl : a = a' := by simpa using hs
      exact ⟨b, by simp [hid], hab⟩
    · rename_i hid
      simpa [hid] using h.forth hs
  back {id b'} ht := by
    rw [find?_insert, h.next] at ht
    rw [find?_insert]
    split at ht
    · rename_i hid
      simp [hid]
    · rename_i hid
      simpa [hid] using h.back ht

/-- Stores without entries. -/
theorem empty (next : Nat) : Shadows gone rel ({ next } : Store α) ({ next } : Store β) where
  next := rfl
  left := by simp [WellFormed]
  right := by simp [WellFormed]
  forth h := by cases h
  back h := by cases h

/-- Entries that are made one after the other. -/
theorem insertAll {γ : Type} (f : γ → α) (g : γ → β) (hfg : ∀ x, rel (f x) (g x)) (xs : List γ)
    (h : Shadows gone rel s t) :
    Shadows gone rel (xs.foldl (fun s x => (s.insert (f x)).2) s)
      (xs.foldl (fun t x => (t.insert (g x)).2) t) := by
  induction xs generalizing s t with
  | nil => exact h
  | cons x xs ih => exact ih (h.insert (hfg x))

theorem modify (h : Shadows gone rel s t) (f : α → α) (g : β → β)
    (hfg : ∀ a b, rel a b → rel (f a) (g b)) :
    Shadows gone rel (s.modify id f) (t.modify id g) where
  next := h.next
  left := wellFormed_modify h.left _ _
  right := wellFormed_modify h.right _ _
  forth {id' a'} hs := by
    rw [find?_modify] at hs ⊢
    split at hs
    · rename_i hid
      obtain ⟨a, ha, rfl⟩ := Option.map_eq_some_iff.mp hs
      obtain ⟨b, hb, hab⟩ := h.forth ha
      exact ⟨g b, by simp [hid, hid ▸ hb], hfg a b hab⟩
    · rename_i hid
      simpa [hid] using h.forth hs
  back {id' b'} ht := by
    rw [find?_modify] at ht ⊢
    split at ht
    · rename_i hid
      obtain ⟨b, hb, -⟩ := Option.map_eq_some_iff.mp ht
      simpa [hid] using h.back (hid ▸ hb)
    · rename_i hid
      simpa [hid] using h.back ht

/-- Changes that do not show. -/
theorem modify_left (h : Shadows gone rel s t) (f : α → α)
    (hf : ∀ a b, rel a b → rel (f a) b) : Shadows gone rel (s.modify id f) t where
  next := h.next
  left := wellFormed_modify h.left _ _
  right := h.right
  forth {id' a'} hs := by
    rw [find?_modify] at hs
    split at hs
    · obtain ⟨a, ha, rfl⟩ := Option.map_eq_some_iff.mp hs
      obtain ⟨b, hb, hab⟩ := h.forth ha
      exact ⟨b, hb, hf a b hab⟩
    · exact h.forth hs
  back {id' b'} ht := by
    rw [find?_modify]
    split
    · rename_i hid
      simpa using h.back ht
    · exact h.back ht

theorem erase (h : Shadows gone rel s t) : Shadows gone rel (s.erase id) (t.erase id) where
  next := h.next
  left := wellFormed_erase h.left _
  right := wellFormed_erase h.right _
  forth {id' a'} hs := by
    rw [find?_erase h.left] at hs
    rw [find?_erase h.right]
    split at hs
    · cases hs
    · rename_i hid
      simpa [hid] using h.forth hs
  back {id' b'} ht := by
    rw [find?_erase h.right] at ht
    rw [find?_erase h.left]
    split at ht
    · cases ht
    · rename_i hid
      simpa [hid] using h.back ht

/-- Dropping an entry. -/
theorem drop (h : Shadows gone rel s t) (hgone : ∀ id', gone id' → gone' id') (hid : gone' id) :
    Shadows gone' rel (s.erase id) t where
  next := h.next
  left := wellFormed_erase h.left _
  right := h.right
  forth {id' a'} hs := by
    rw [find?_erase h.left] at hs
    split at hs
    · cases hs
    · exact h.forth hs
  back {id' b'} ht := by
    rw [find?_erase h.left]
    split
    · rename_i heq
      exact .inr (heq ▸ hid)
    · exact (h.back ht).imp_right (hgone _)

/-- Leaving a number out. -/
theorem skip (h : Shadows gone rel s t) :
    Shadows gone rel { s with next := s.next + 1 } { t with next := t.next + 1 } where
  next := by simp [h.next]
  left := wellFormed_skip h.left
  right := wellFormed_skip h.right
  forth := h.forth
  back := h.back

end Shadows

end EffectHandlers.Store

/-!
## Threads and evaluations

How the state of a thread shows the state of an evaluation. `Tracks` compares what they have
stored: apart from what was dropped, and from what belongs to the runtime alone, they have the
same. `Stage` compares how they go on; the number with it bounds the steps that the thread can
take before the evaluation takes one.
-/

namespace EffectHandlers

variable {ω : Type} {Γ : Library ω} {m m' : Machine ω} {s s' : Evaluation ω} {c c' : Chain}
  {t : Store Handler} {gone gone' : Owned → Prop} {i : InstallationId} {n : Nat}

/-! ### What is observed -/

/-- What a thread ended with, unless it panicked. -/
def Outcome.result : Outcome → Option (Except Fault Value)
  | finished v => some (.ok v)
  | fatal f _ => some (.error f)
  | panicked _ => none

/-- How a thread has ended: with a value or with a fault. -/
def Machine.ending (m : Machine ω) : Option (Except Fault Value) :=
  match m.control with
  | .halted o => o.result
  | _ => none

/-- What is observed of a thread: the actions of the program so far, and how it has ended. -/
def Machine.observed (m : Machine ω) : List Event × Option (Except Fault Value) :=
  (m.actions, m.ending)

/-- What is observed of an evaluation. -/
def Evaluation.observed (s : Evaluation ω) : List Event × Option (Except Fault Value) :=
  (s.actions, s.ending)

/-! ### Installations -/

/-- All installations of a chain show handlers that were installed. -/
structure Installs (c : Chain) (t : Store Handler) : Prop where
  next : t.next = c.installations.next
  found : ∀ i a, i ≠ 0 → c.installations.find? i = some a → t.find? i = some a.shown
  bottom : (c.get 0).shown = Handler.bottom
  nothing : t.find? 0 = none

namespace Installs

/-- Installations may go, and change in what is not shown. -/
theorem mono (h : Installs c t) (hnext : c'.installations.next = c.installations.next)
    (hsame : ∀ i a', c'.installations.find? i = some a' →
      ∃ a, c.installations.find? i = some a ∧ a'.shown = a.shown) : Installs c' t where
  next := h.next.trans hnext.symm
  found i a' hi ha' := by
    obtain ⟨a, ha, heq⟩ := hsame i a' ha'
    rw [heq]
    exact h.found i a hi ha
  bottom := by
    cases ha' : c'.installations.find? 0 with
    | none => simp only [Chain.get, ha', Option.getD_none]; rfl
    | some a' =>
      obtain ⟨a, ha, heq⟩ := hsame 0 a' ha'
      have hbottom := h.bottom
      simp only [Chain.get, ha', ha, Option.getD_some] at hbottom ⊢
      rw [heq, hbottom]
  nothing := h.nothing

/-- A change of what is not shown. -/
theorem modify (f : Installation → Installation) (hf : ∀ a, (f a).shown = a.shown)
    (h : Installs c t) (hc : c'.installations = c.installations.modify i f) : Installs c' t := by
  refine h.mono (by rw [hc]; rfl) fun j a' ha' => ?_
  rw [hc, Store.find?_modify] at ha'
  split at ha'
  · obtain ⟨a, ha, rfl⟩ := Option.map_eq_some_iff.mp ha'
    exact ⟨a, ha, hf a⟩
  · exact ⟨a', ha', rfl⟩

theorem erase (h : Installs c t) (hwf : c.installations.WellFormed)
    (hc : c'.installations = c.installations.erase i) : Installs c' t := by
  refine h.mono (by rw [hc]; rfl) fun j a' ha' => ?_
  rw [hc, Store.find?_erase hwf] at ha'
  split at ha'
  · cases ha'
  · exact ⟨a', ha', rfl⟩

/-- A new installation shows the new handler. -/
theorem create (h : Installs c t) (hpos : 0 < c.installations.next) (a : Installation)
    (hc : c'.installations = (c.installations.insert a).2) :
    Installs c' (t.insert a.shown).2 where
  next := by
    rw [hc]
    simp [Store.insert, h.next]
  found j a' hj ha' := by
    rw [hc, Store.find?_insert] at ha'
    rw [Store.find?_insert, h.next]
    split at ha'
    · rename_i heq
      obtain rfl : a = a' := by simpa using ha'
      simp [heq]
    · rename_i hne
      simpa [hne] using h.found j a' hj ha'
  bottom := by
    have hne : (0 : Nat) ≠ c.installations.next := Nat.ne_of_lt hpos
    rw [Chain.get, hc, Store.find?_insert, if_neg hne]
    exact h.bottom
  nothing := by
    have hne : (0 : Nat) ≠ t.next := by
      rw [h.next]
      exact Nat.ne_of_lt hpos
    rw [Store.find?_insert, if_neg hne]
    exact h.nothing

/-- An installation whose return clause starts. -/
theorem retire (h : Installs c t) (hi : i ≠ 0) :
    Installs (c.retire i) (t.modify i fun x => { x with label := retiredLabel }) where
  next := h.next
  found j a' hj ha' := by
    simp only [Chain.retire, Chain.modify, Store.find?_modify] at ha' ⊢
    split at ha'
    · rename_i heq
      obtain ⟨a, ha, rfl⟩ := Option.map_eq_some_iff.mp ha'
      simp [heq, h.found _ a (heq ▸ hj) (heq ▸ ha), Installation.shown]
    · rename_i hne
      simpa [hne] using h.found j a' hj ha'
  bottom := by
    rw [Chain.retire, Chain.get_modify_of_ne _ (Ne.symm hi)]
    exact h.bottom
  nothing := by
    rw [Store.find?_modify, if_neg (Ne.symm hi)]
    exact h.nothing

/-- What is found under a number is shown by its installation. -/
theorem handler_eq (h : Installs m.chain s.installed)
    (hi : i = 0 ∨ (m.chain.installations.find? i).isSome) :
    s.handler i = (m.chain.get i).shown := by
  by_cases hzero : i = 0
  · subst hzero
    rw [h.bottom, Evaluation.handler, h.nothing]
    rfl
  · obtain ⟨a, ha⟩ := Option.isSome_iff_exists.mp (hi.resolve_left hzero)
    simp [Evaluation.handler, h.found i a hzero ha, Chain.get, ha]

end Installs

/-! ### What is stored -/

/-- What a thread has stored shows what an evaluation has stored. -/
structure Tracks (gone : Owned → Prop) (m : Machine ω) (s : Evaluation ω) : Prop where
  cells : m.cells.Shadows (fun c => gone (.cell c)) (fun x content => content = x.content) s.cells
  closures : m.closures.Shadows (fun f => gone (.closure f)) (fun x body => body = x.body)
    s.closures
  references : m.references.Shadows (fun r => gone (.reference r)) (fun i j => j = i) s.references
  resumptions : m.resumptions.Shadows (fun r => gone (.resumption r)) (Cont.Stands m.fibers)
    s.resumptions
  pending : Option.Rel (fun k p => k.Holds m.fibers m.exchanges p.1 p.2) m.pending s.pending
  installed : Installs m.chain s.installed
  nextLabel : s.nextLabel = m.chain.nextLabel
  declared : s.declared = m.declared
  actions : s.actions = m.actions
  /-- Stacks of this size can be allocated. -/
  room : m.stackSize < StackPool.addressSpace

/-- A thread without its counters, and without what was written apart from actions. -/
def Machine.bare (m : Machine ω) : Machine ω :=
  { m with
    counters := {}, journal := m.actions, errors := []
    pool := { settings := { fixed := some m.pool.settings.use.1 } } }

/-- Two states of a thread that differ at most in counters, in the pool, and in what was written
apart from actions. -/
def Alike (m m' : Machine ω) : Prop := m'.bare = m.bare

namespace Alike

theorem trans {m'' : Machine ω} (h : Alike m m') (h' : Alike m' m'') : Alike m m'' :=
  Eq.trans h' h

/-- All of the rest is the same. -/
theorem fields (h : Alike m m') : m'.chain = m.chain ∧ m'.fibers = m.fibers ∧
    m'.cells = m.cells ∧ m'.closures = m.closures ∧ m'.references = m.references ∧
    m'.exchanges = m.exchanges ∧ m'.resumptions = m.resumptions ∧ m'.pending = m.pending ∧
    m'.declared = m.declared ∧ m'.stackSize = m.stackSize ∧ m'.actions = m.actions ∧
    m'.stack = m.stack ∧ m'.releasing = m.releasing ∧ m'.control = m.control := by
  simp only [Alike, Machine.bare, Machine.mk.injEq, StackPool.mk.injEq, SettingsSlot.mk.injEq,
    Option.some.injEq, true_and] at h
  obtain ⟨chain, fibers, cells, closures, references, exchanges, resumptions, pending, declared,
    settings, actions, stack, -, releasing, control⟩ := h
  exact ⟨chain, fibers, cells, closures, references, exchanges, resumptions, pending, declared,
    congrArg Settings.stackSize settings, actions, stack, releasing, control⟩

/-- States that are alike differ in nothing else. -/
theorem exists_eq (h : Alike m m') : ∃ pool counters journal errors,
    m' = { m with pool, counters, journal, errors } ∧
      journal.filter Event.isAction = m.actions ∧
      pool.settings.use.1 = m.pool.settings.use.1 := by
  refine ⟨m'.pool, m'.counters, m'.journal, m'.errors, ?_⟩
  obtain ⟨⟩ := m
  obtain ⟨⟩ := m'
  simp only [Alike, Machine.bare, Machine.mk.injEq, StackPool.mk.injEq, SettingsSlot.mk.injEq,
    Option.some.injEq, true_and] at h
  obtain ⟨rfl, rfl, rfl, rfl, rfl, rfl, rfl, rfl, rfl, hsettings, hactions, rfl, rfl, rfl, rfl⟩ := h
  exact ⟨rfl, hactions, hsettings⟩

end Alike

theorem Tracks.alike (h : Tracks gone m s) (ha : Alike m m') : Tracks gone m' s := by
  obtain ⟨chain, fibers, cells, closures, references, exchanges, resumptions, pending, declared,
    stackSize, actions, -⟩ := ha.fields
  exact
    { cells := cells ▸ h.cells
      closures := closures ▸ h.closures
      references := references ▸ h.references
      resumptions := by rw [resumptions, fibers]; exact h.resumptions
      pending := by rw [pending, fibers, exchanges]; exact h.pending
      installed := chain ▸ h.installed
      nextLabel := chain ▸ h.nextLabel
      declared := declared ▸ h.declared
      actions := actions ▸ h.actions
      room := stackSize ▸ h.room }

/-! ### How they go on -/

/-- The steps that a thread can take before a value that it gives reaches the context. -/
def Machine.depth (m : Machine ω) : Nat :=
  m.stack.length + m.waiting.length + m.fibers.resumers.length

/-- How a thread and an evaluation go on, with a bound for the steps that do not show. -/
inductive Stage (Γ : Library ω) (m : Machine ω) (s : Evaluation ω) : Nat → Prop
  | eval {body} (hm : m.control = .eval body) (hs : s.phase = .eval body)
      (hframes : s.frames = context (m.stack ++ m.waiting)) :
      Stage Γ m s (m.fibers.resumers.length + 1)
  | ret {v} (hm : m.control = .ret v) (hs : s.phase = .ret v)
      (hframes : s.frames = context (m.stack ++ m.waiting)) : Stage Γ m s (m.depth + 1)
  | done {v} (hm : m.control = .deliver (.done v)) (hs : s.phase = .ret v)
      (hframes : s.frames = context (m.stack ++ m.waiting)) : Stage Γ m s (m.depth + 1)
  | tail {k κ v} (hm : m.control = .deliver (.tail k)) (hs : s.phase = .resume κ v)
      (hk : k.Holds m.fibers m.exchanges κ v) (hframes : s.frames = context (m.stack ++ m.waiting)) : Stage Γ m s 1
  /-- The frame of the code that has answered is still there. -/
  | settle {answer v} (hm : m.control = .settle answer v) (hs : s.phase = .ret v)
      (hframes : s.frames = .answering answer :: context (m.stack ++ m.waiting)) :
      Stage Γ m s (m.depth + 1)
  | start {body S} (hm : m.control = .wake) (hstack : m.stack = .start body :: S)
      (hs : s.phase = .eval body) (hframes : s.frames = context (m.stack ++ m.waiting)) :
      Stage Γ m s (m.fibers.resumers.length + 2)
  /-- A resume is passed to the invoker whose wait comes first. -/
  | wake {i e modifier command rest code v} (hm : m.control = .wake)
      (hcarries : m.fibers.Carries m.stack code)
      (hcode : code = .sending i e modifier command :: rest)
      (hvalue : (m.exchanges.find? e).bind (·.result) = some v) (hs : s.phase = .ret v)
      (hframes : s.frames = context (code ++ m.waiting)) :
      Stage Γ m s (code.length + m.waiting.length + m.fibers.resumers.length +
        2 * (drivers code).length + 2)
  /-- A request is passed to the driver of the target. -/
  | request {r target command next clause y code} (hm : m.control = .request r)
      (hcarries : m.fibers.Carries m.stack code)
      (hclause : m.codeAt Γ r.target r.entry = some clause)
      (hy : m.exchanges.find? r.exchange = some y) (hcommand : y.command = some command)
      (hs : s.phase = .eval (.invoke target command next))
      (hdispatch : s.dispatch Γ command.name target = .ok (r.target, clause))
      (hframes : .bind next :: s.frames = context (code ++ m.waiting)) :
      Stage Γ m s m.fibers.resumers.length

/-- A thread shows an evaluation: both go on in the same way, or have ended in the same way. -/
inductive Simulates [Contents ω] (Γ : Library ω) (gone : Owned → Prop) (m : Machine ω) (s : Evaluation ω) :
    Nat → Prop
  | running {l n} (hsound : Sound Γ m l) (htracks : Tracks gone m s) (hstage : Stage Γ m s n) :
      Simulates Γ gone m s n
  /-- The thread has found the fault that the evaluation is about to end with. -/
  | faulting {f} (hm : m.control = .fault f) (hstep : (s.step Γ).phase = .failed f)
      (hsame : (s.step Γ).actions = s.actions) (hending : s.ending = none)
      (hactions : s.actions = m.actions) : Simulates Γ gone m s 0
  | ended {o x} (hm : m.control = .halted o) (ho : o.result = some x) (hs : s.ending = some x)
      (hactions : s.actions = m.actions) : Simulates Γ gone m s 0

theorem Stage.alike (h : Stage Γ m s n) (ha : Alike m m') : Stage Γ m' s n := by
  obtain ⟨chain, fibers, -, -, -, exchanges, -, -, -, -, -, stack, -, control⟩ := ha.fields
  have hwaiting : m'.waiting = m.waiting := by simp only [Machine.waiting, fibers]
  have hdepth : m'.depth = m.depth := by simp only [Machine.depth, stack, hwaiting, fibers]
  cases h with
  | eval hm hs hframes =>
    rw [← fibers]
    exact .eval (control.trans hm) hs (by rw [stack, hwaiting, hframes])
  | ret hm hs hframes =>
    rw [← hdepth]
    exact .ret (control.trans hm) hs (by rw [stack, hwaiting, hframes])
  | done hm hs hframes =>
    rw [← hdepth]
    exact .done (control.trans hm) hs (by rw [stack, hwaiting, hframes])
  | tail hm hs hk hframes =>
    refine .tail (control.trans hm) hs ?_ (by rw [stack, hwaiting, hframes])
    rw [fibers, exchanges]
    exact hk
  | settle hm hs hframes =>
    rw [← hdepth]
    exact .settle (control.trans hm) hs (by rw [stack, hwaiting, hframes])
  | start hm hstart hs hframes =>
    rw [← fibers]
    exact .start (control.trans hm) (stack.trans hstart) hs (by rw [stack, hwaiting, hframes])
  | wake hm hcarries hcode hvalue hs hframes =>
    rw [← hwaiting, ← fibers]
    refine .wake (control.trans hm) ?_ hcode (by rw [exchanges, hvalue]) hs
      (by rw [hwaiting, hframes])
    rw [fibers, stack]
    exact hcarries
  | request hm hcarries hclause hy hcommand hs hdispatch hframes =>
    rw [← fibers]
    refine .request (control.trans hm) ?_ ?_ (by rw [exchanges, hy]) hcommand hs hdispatch
      (by rw [hwaiting, hframes])
    · rw [fibers, stack]
      exact hcarries
    · simpa only [Machine.codeAt, chain] using hclause

/-- A thread that goes on has not faulted, so it is sound where it is good. -/
theorem Good.simulates [Contents ω] (hgood : Good Γ m') (htracks : Tracks gone m s)
    (hstage : Stage Γ m s n) (ha : Alike m m') : Simulates Γ gone m' s n := by
  have hstage' := hstage.alike ha
  cases hgood with
  | sound l hsound => exact .running hsound (htracks.alike ha) hstage'
  | fault hcontrol => cases hstage' <;> simp_all
  | halted hcontrol => cases hstage' <;> simp_all

/-- The same is observed of a thread and of the evaluation that it shows. -/
theorem Simulates.observed [Contents ω] (h : Simulates Γ gone m s n) :
    m.observed = s.observed := by
  cases h with
  | running hsound htracks hstage =>
    have hactions := htracks.actions
    cases hstage <;> simp_all [Machine.observed, Evaluation.observed, Machine.ending,
      Evaluation.ending]
  | faulting hm hstep hsame hending hactions =>
    simp [Machine.observed, Evaluation.observed, Machine.ending, hm, hending, hactions]
  | ended hm ho hs hactions =>
    simp [Machine.observed, Evaluation.observed, Machine.ending, hm, ho, hs, hactions]

/-- The next step of a thread leads to a state that shows the same evaluation, but not for ever,
or the next state of the evaluation. -/
def Advances [Contents ω] (Γ : Library ω) (gone : Owned → Prop) (m : Machine ω)
    (s : Evaluation ω) (n : Nat) : Prop :=
  (∃ n' < n, Simulates Γ gone (m.step Γ) s n') ∨ ∃ n', Simulates Γ gone (m.step Γ) (s.step Γ) n'

end EffectHandlers
