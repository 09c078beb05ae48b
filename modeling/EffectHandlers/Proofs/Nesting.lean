import EffectHandlers.Client.Library
import EffectHandlers.Proofs.Contents
import EffectHandlers.Proofs.Discarding
/-!
# Nested captures

A capture sets the transcript aside and puts it back when its body returns. What a thread writes
while it runs is added to the transcript, where each capture that begins on the way also ends, and
the captures inside of it before it.
-/

namespace EffectHandlers.Transcript

variable {Γ : Library Content} {m m' : Machine Content} {outer text t : String} {α : Type}

/-- The transcript of a thread holds this text. -/
def Reads (m : Machine Content) (text : String) : Prop :=
  m.contents cell = some (.value (.text text))

instance (m : Machine Content) (text : String) : Decidable (Reads m text) :=
  inferInstanceAs (Decidable (_ = _))

/-- What a capture does when its body has returned. -/
def closing (outer : String) (v : α) : Task (String × α) := do
  let text ← Task.readText cell
  Task.writeText cell outer
  return (text, v)

/-- The thread leaves its transcript as it is: it neither writes to it nor gives it up. -/
structure Idle (m : Machine Content) : Prop where
  write : m.releasing = [] → ∀ content next, m.control ≠ .eval (.write cell content next)
  release : ∀ rest, m.releasing ≠ .asset (.cell cell) :: rest

/-- What a thread writes: a text that is added to what was written before, unless that was lost. -/
structure Writing where
  lost : Bool
  text : String
  deriving DecidableEq

/-- The transcript after the writing. -/
def Writing.after (w : Writing) (before : String) : String :=
  if w.lost then w.text else before ++ w.text

variable (Γ) in
/-- A thread writes on its way from one state to another one. A capture that begins on the way
either ends on the way, and then what it has set aside is there again; or it is abandoned, and what
was written before it is lost. -/
inductive Utters : Machine Content → Writing → Machine Content → Prop
  | here (m : Machine Content) : Utters m ⟨false, ""⟩ m
  | idle {m m' : Machine Content} {w : Writing} (h : Idle m) (rest : Utters (m.step Γ) w m') :
    Utters m w m'
  | emits {m m' : Machine Content} {w : Writing} {text : String} {k : Unit → Comp Content}
    (h : m.Evaluates (emit text k)) (rest : Utters (m.run Γ 2) w m') :
    Utters m ⟨w.lost, w.after text⟩ m'
  | captures {m m₁ m' : Machine Content} {α : Type} {w w₁ : Writing} {outer : String}
    {body : Task α} {v : α} {next : String × α → Comp Content} (h : m.Evaluates (capture body next))
    (houter : Reads m outer) (inside : Utters (m.run Γ 2) w₁ m₁)
    (ends : m₁.Evaluates (closing outer v next)) (rest : Utters (m₁.run Γ 2) w m') : Utters m w m'
  | abandons {m m' : Machine Content} {α : Type} {w : Writing} {body : Task α}
    {next : String × α → Comp Content} (h : m.Evaluates (capture body next))
    (rest : Utters (m.run Γ 2) w m') : Utters m ⟨true, w.text⟩ m'

variable {w : Writing}

/-! ### What steps do to the transcript -/

theorem reads_injective (h : Reads m text) (h' : Reads m outer) : text = outer := by
  have hsame : Content.value (.text text) = .value (.text outer) :=
    Option.some.inj (h.symm.trans h')
  injection hsame with hsame
  injection hsame

/-- The thread has written this text to its transcript, and goes on. -/
def written (m : Machine Content) (text : String) (next : Comp Content) : Machine Content :=
  { m with cells := m.cells.modify cell fun y => { y with content := .value (.text text) } }.goOn
    (.eval next)

theorem reads_written {next : Comp Content} (h : Reads m outer) :
    Reads (written m text next) text := by
  obtain ⟨y, hy, -⟩ := Option.map_eq_some_iff.mp h
  show ((m.cells.modify cell _).find? cell).map _ = _
  rw [Store.find?_modify, if_pos rfl, hy]
  rfl

theorem evaluates_written {next : Comp Content} (h : m.releasing = []) :
    (written m text next).Evaluates next := ⟨h, rfl⟩

theorem step_eval {c : Comp Content} (h : m.Evaluates c) : m.step Γ = m.eval Γ c := by
  simp only [Machine.step, h.1, h.2]

theorem step_read {c : CellId} {next : Content → Comp Content} (h : m.Evaluates (.read c next)) :
    m.step Γ = m.goOn (.eval (next (m.content c))) := step_eval h

/-- The transcript is read, and replaced depending on what it was. -/
theorem run_exchange {f : String → String} {k : String → Comp Content}
    (h : m.Evaluates (Task.readText cell fun text => Task.writeText cell (f text) fun _ => k text))
    (hreads : Reads m text) : m.run Γ 2 = written m (f text) (k text) := by
  have hcontent : m.content cell = .value (.text text) := congrArg (Option.getD · default) hreads
  have hread : m.step Γ = m.goOn (.eval (Task.writeText cell (f text) fun _ => k text)) := by
    refine (step_read h).trans ?_
    rw [hcontent]
    rfl
  have hready : (m.goOn (.eval (Task.writeText cell (f text) fun _ => k text))).Evaluates
      (.write cell (.value (.text (f text))) (k text)) := ⟨h.1, rfl⟩
  have hwrite : (m.goOn (.eval (Task.writeText cell (f text) fun _ => k text))).step Γ =
      written m (f text) (k text) := step_eval hready
  rw [Machine.run_succ, Machine.run_succ, Machine.run, hread, hwrite]

theorem run_emit {k : Unit → Comp Content} (h : m.Evaluates (emit t k)) (hreads : Reads m text) :
    m.run Γ 2 = written m (text ++ t) (k ()) :=
  run_exchange (f := (· ++ t)) (k := fun _ => k ()) h hreads

theorem run_capture {body : Task α} {next : String × α → Comp Content}
    (h : m.Evaluates (capture body next)) (hreads : Reads m outer) :
    m.run Γ 2 = written m "" (body fun v => closing outer v next) :=
  run_exchange (f := fun _ => "") (k := fun outer => body fun v => closing outer v next) h hreads

theorem run_closing {v : α} {next : String × α → Comp Content}
    (h : m.Evaluates (closing outer v next)) (hreads : Reads m text) :
    m.run Γ 2 = written m outer (next (text, v)) :=
  run_exchange (f := fun _ => outer) (k := fun text => next (text, v)) h hreads

theorem goes_emit {k : Unit → Comp Content} (h : m.Evaluates (emit t k)) (hreads : Reads m text) :
    (m.run Γ 2).Evaluates (k ()) ∧ Reads (m.run Γ 2) (text ++ t) := by
  rw [run_emit h hreads]
  exact ⟨evaluates_written h.1, reads_written hreads⟩

theorem goes_capture {body : Task α} {next : String × α → Comp Content}
    (h : m.Evaluates (capture body next)) (hreads : Reads m outer) :
    (m.run Γ 2).Evaluates (body fun v => closing outer v next) ∧ Reads (m.run Γ 2) "" := by
  rw [run_capture h hreads]
  exact ⟨evaluates_written h.1, reads_written hreads⟩

theorem goes_closing {v : α} {next : String × α → Comp Content}
    (h : m.Evaluates (closing outer v next)) (hreads : Reads m text) :
    (m.run Γ 2).Evaluates (next (text, v)) ∧ Reads (m.run Γ 2) outer := by
  rw [run_closing h hreads]
  exact ⟨evaluates_written h.1, reads_written hreads⟩

theorem Idle.reads (h : Idle m) (hcells : m.cells.WellFormed) (hreads : Reads m text) :
    Reads (m.step Γ) text := Machine.Leaves.step hcells h.write h.release _ hreads

theorem Writing.after_empty (w : Writing) : w.after "" = w.text := by
  unfold Writing.after
  split
  · rfl
  · exact String.empty_append

theorem Writing.after_after (w : Writing) (before text : String) :
    (Writing.mk w.lost (w.after text)).after before = w.after (before ++ text) := by
  unfold Writing.after
  cases w.lost
  · exact String.append_assoc.symm
  · rfl

theorem wellFormed_run (n : Nat) (hcells : m.cells.WellFormed) : (m.run Γ n).cells.WellFormed :=
  (Machine.run_ages n m).cells.wellFormed hcells

theorem Utters.wellFormed (h : Utters Γ m w m') (hcells : m.cells.WellFormed) :
    m'.cells.WellFormed := by
  induction h with
  | here m => exact hcells
  | @idle m _ _ _ _ ih =>
    have hstep := wellFormed_run (Γ := Γ) 1 hcells
    rw [Machine.run_succ] at hstep
    exact ih hstep
  | @emits m _ _ _ _ _ _ ih => exact ih (wellFormed_run 2 hcells)
  | @captures m m₁ _ _ _ _ _ _ _ _ _ _ _ _ _ ih ih' =>
    exact ih' (wellFormed_run 2 (ih (wellFormed_run 2 hcells)))
  | @abandons m _ _ _ _ _ _ _ ih => exact ih (wellFormed_run 2 hcells)

/-- What a thread writes is what its transcript then holds. -/
theorem Utters.reads (h : Utters Γ m w m') (hcells : m.cells.WellFormed) (hreads : Reads m text) :
    Reads m' (w.after text) := by
  induction h generalizing text with
  | here m =>
    exact hreads.trans (by rw [Writing.after, if_neg Bool.false_ne_true, String.append_empty])
  | @idle m _ _ h _ ih =>
    have hstep := wellFormed_run (Γ := Γ) 1 hcells
    rw [Machine.run_succ] at hstep
    exact ih hstep (h.reads hcells hreads)
  | @emits m _ w _ _ h _ ih =>
    rw [Writing.after_after]
    refine ih (wellFormed_run 2 hcells) ?_
    rw [run_emit h hreads]
    exact reads_written hreads
  | @captures m m₁ _ _ _ w₁ outer _ _ _ h houter inside ends rest ih ih' =>
    obtain rfl := reads_injective hreads houter
    have hcells' := wellFormed_run (Γ := Γ) 2 hcells
    have hbegins : Reads (m.run Γ 2) "" := run_capture h hreads ▸ reads_written hreads
    have hwritten := ih hcells' hbegins
    refine ih' (wellFormed_run 2 (inside.wellFormed hcells')) ?_
    rw [run_closing ends hwritten]
    exact reads_written hwritten
  | @abandons m _ _ w _ _ h _ ih =>
    have hbegins : Reads (m.run Γ 2) "" := run_capture h hreads ▸ reads_written hreads
    have hwritten := ih (wellFormed_run 2 hcells) hbegins
    rwa [Writing.after_empty] at hwritten

/-- A capture begins with an empty transcript, and what is written then is what the transcript
holds. When the body returns, the capture returns what was written and puts back what was set aside.
A body that is abandoned leaves what it has written, and what was set aside does not come back. -/
theorem captures_nest {body : Task α} {next : String × α → Comp Content}
    (hcells : m.cells.WellFormed) (hat : m.Evaluates (capture body next)) (houter : Reads m outer) :
    m.run Γ 2 = written m "" (body fun v => closing outer v next) ∧
      ∀ w m₁, Utters Γ (m.run Γ 2) w m₁ → Reads m₁ w.text ∧
        ∀ v, m₁.Evaluates (closing outer v next) →
          m₁.run Γ 2 = written m₁ outer (next (w.text, v)) ∧ Reads (m₁.run Γ 2) outer := by
  have hbegins := run_capture (Γ := Γ) hat houter
  refine ⟨hbegins, fun w m₁ hutters => ?_⟩
  have hempty : Reads (m.run Γ 2) "" := hbegins ▸ reads_written houter
  have hwritten := hutters.reads (wellFormed_run 2 hcells) hempty
  rw [Writing.after_empty] at hwritten
  refine ⟨hwritten, fun v hends => ?_⟩
  have hcloses := run_closing (Γ := Γ) hends hwritten
  exact ⟨hcloses, hcloses ▸ reads_written hwritten⟩

/-- What is done with a captured text. -/
def quote (k : Unit → Comp Content) (x : String × Unit) : Comp Content := emit ("[" ++ x.1 ++ "]") k

/-- What is captured, with another capture in between. -/
def nested : Task Unit := fun k => emit "a" fun _ => capture (emit "b") (quote k)

/-- A capture inside of another one: the text of the outer one is set aside and comes back. -/
theorem captures_nest_nested :
    let m := Machine.start {} Client.cells [] (capture nested fun x => .done (.text x.1))
    Reads (m.run Client.library 12) "a[b]" ∧
      (m.run Client.library 14).Evaluates (.done (.text "a[b]")) ∧
      Reads (m.run Client.library 14) "" := by
  intro m
  have hat : m.Evaluates (capture nested fun x => .done (.text x.1)) := ⟨rfl, rfl⟩
  obtain ⟨h₂, r₂⟩ := goes_capture (Γ := Client.library) hat rfl
  obtain ⟨h₄, r₄⟩ := goes_emit (Γ := Client.library) h₂ r₂
  obtain ⟨h₆, r₆⟩ := goes_capture (Γ := Client.library) h₄ r₄
  obtain ⟨h₈, r₈⟩ := goes_emit (Γ := Client.library) h₆ r₆
  obtain ⟨h₁₀, r₁₀⟩ := goes_closing (Γ := Client.library) h₈ r₈
  obtain ⟨h₁₂, -⟩ := goes_emit (Γ := Client.library) h₁₀ r₁₀
  have hutters := Utters.emits h₂ (.captures h₄ r₄ (.emits h₆ (.here _)) h₈ (.emits h₁₀ (.here _)))
  have htext : (⟨false, "a" ++ ("[" ++ ("" ++ "b") ++ "]" ++ "")⟩ : Writing) = ⟨false, "a[b]"⟩ := by
    decide +kernel
  obtain ⟨-, hwrites⟩ :=
    captures_nest (Γ := Client.library) (m := m) (Machine.cells_start ..) hat rfl
  obtain ⟨hreads, hcloses⟩ := hwrites _ _ (htext ▸ hutters)
  obtain ⟨hrun, hout⟩ := hcloses () h₁₂
  have hends : (((((((m.run Client.library 2).run Client.library 2).run Client.library 2).run
      Client.library 2).run Client.library 2).run Client.library 2).run Client.library 2).Evaluates
        (.done (.text "a[b]")) := by
    rw [hrun]
    exact evaluates_written h₁₂.1
  simp only [← Machine.run_add, Nat.reduceAdd] at hreads hends hout
  exact ⟨hreads, hends, hout⟩

/-- A handler whose clause gives up what has asked for it. -/
def leaver : HandlerType Content where
  answer := "i64"
  clauses := [{ command := "Leave", code := .noResume fun _ _ => .done (.int 7) }]

/-- A library with this handler. -/
def leaving : Library Content := Client.libraryOf [("Leaver", leaver)] []

/-- What is captured and then given up. -/
def givenUp : Task Value := do
  emit "inner"
  Prog.invoke { name := "Leave" }

/-- A program that captures what it writes, with another capture that is abandoned in between. -/
def abandoned : Comp Content := Prog.toComp do
  let (text, _) ← capture do
    emit "before"
    let c ← Prog.alloc (.value .unit)
    let _ ← Prog.handle { handlerType := "Leaver", handler := c } fun _ => do
      let (_, v) ← capture givenUp
      return v
    emit "after"
  return .text text

/-- What was written before an abandoned capture is lost, and what was written in it stays. -/
theorem abandoned_capture_loses :
    let m := Machine.start {} Client.cells [] abandoned
    ((∃ next, (m.run leaving 7).Evaluates (capture givenUp next)) ∧
      Reads (m.run leaving 7) "before") ∧
    ((∃ next, (m.run leaving 28).Evaluates (emit "after" next)) ∧
      Reads (m.run leaving 28) "inner") ∧
    (m.run leaving 34).control = .halted (.finished (.text "innerafter")) :=
  ⟨⟨⟨_, rfl, rfl⟩, by decide +kernel⟩, ⟨⟨_, rfl, rfl⟩, by decide +kernel⟩, rfl⟩

end EffectHandlers.Transcript
