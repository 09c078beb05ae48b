import EffectHandlers.CommandLine.Run
import EffectHandlers.Proofs.Calming
import EffectHandlers.Proofs.Endings
import EffectHandlers.Proofs.Lockstep
import EffectHandlers.Proofs.Nesting
import EffectHandlers.Proofs.Rerunning
/-!
# Presentations, and threads at the outset

## Presenting demonstrations

A process presents its demonstrations one after another. Each presentation writes the heading and sets
the transcript aside; then the demonstration runs; and in the end what it wrote is written out.
-/

namespace EffectHandlers

/-- The text that content stands for. -/
def Content.toText : Content → String
  | .value v => v.toText
  | _ => ""

namespace Demo

/-- The handlers that a demonstration installs. -/
def handlers : Demo → List String
  | state => ["()", "&str"].flatMap fun t => [MutableState.cellName t, MutableState.functionName t]
  | generators => ["i32", "&str"].map Generator.handlerName
  | exceptions => [Fallback.handlerName]
  | fuel _ => [Fuel.boundedName, Fuel.measureName]
  | threads .. => [RoundRobin.handlerName]
  | actors _ => [Actor.handlerName]
  | asyncAwait _ => ["()", "i32"].map Promise.handlerName
  | shift => [Delimited.handlerName .sentence]
  | rollback => [Transaction.handlerName]
  | logging => [Sink.handlerName]

/-- The procedures that a demonstration calls. -/
def procedures : Demo → List String
  | fuel _ => [Fuel.fibName]
  | logging => [Sink.fibName]
  | _ => []

/-- What a demonstration is going to do once random choices have been seeded. -/
def body : Demo → Task (Option (String × String))
  | asyncAwait _ => withoutSinks Rerun.Futures.seeded
  | d => d.program

/-- The random choices that a demonstration begins with, if it makes any. -/
def choices : Demo → Option Draws
  | asyncAwait seed => some (Draws.ofSeed seed)
  | _ => none

/-- The cells of the thread as a whole that a demonstration uses, with what they hold when its body
begins. -/
def cells : Demo → List (CellId × Content)
  | threads .. => [(Transcript.cell, .value (.text "")), (RoundRobin.queue, .list [])]
  | asyncAwait seed =>
    [(Transcript.cell, .value (.text "")), (Promise.queue, .list []),
      (Promise.choices, .draws (some (Draws.ofSeed seed)))]
  | _ => [(Transcript.cell, .value (.text ""))]

/-- First random choices are seeded, if the demonstration makes any. -/
def seeding (d : Demo) (c : Comp Content) : Comp Content :=
  match d.choices with
  | some draws => .write Promise.choices (.draws (some draws)) c
  | none => c

theorem program_eq (d : Demo) (k : Option (String × String) → Comp Content) :
    d.program k = d.seeding (d.body k) := by
  cases d <;> rfl

theorem calm_seeding (d : Demo) (c : Comp Content) : (d.seeding c).calm = d.seeding c.calm := by
  cases d <;> rfl

end Demo

namespace CommandLine

/-- What is written when a demonstration has ended. -/
def conclude (x : String × Option (String × String)) : Task Unit :=
  match x.2 with
  | some (out, err) => do
    Prog.log out
    Prog.print (.lines (linesOf err))
  | none => Prog.log x.1

/-- The text that goes to standard output then. -/
def outputOf (x : String × Option (String × String)) : String :=
  match x.2 with
  | some (out, _) => out
  | none => x.1

/-- What comes after a demonstration: its transcript is taken and written out, and then something else
comes. -/
def ending (k : Unit → Comp Content) (v : Option (String × String)) : Comp Content :=
  Transcript.closing "" v fun x => conclude x k

/-- The heading of a demonstration. -/
def heading (d : Demo) : String := "--- " ++ d.name ++ " ---\n"

theorem present_eq (d : Demo) (k : Unit → Comp Content) :
    present d k = .record (.text (heading d)) (Transcript.capture d.program fun x => conclude x k) := by
  refine congrArg (Comp.record _) (congrArg (Transcript.capture d.program) (funext fun x => ?_))
  obtain ⟨text, sinks⟩ := x
  cases sinks <;> rfl

end CommandLine

namespace Machine

variable {Γ : Library Content} {m : Machine Content}

/-- The content of a cell is replaced. -/
def put (m : Machine Content) (c : CellId) (x : Content) : Machine Content :=
  { m with cells := m.cells.modify c fun y => { y with content := x } }

theorem contents_put (m : Machine Content) (c k : CellId) (x : Content) :
    (m.put c x).contents k = if k = c then (m.contents k).map fun _ => x else m.contents k := by
  simp only [Machine.contents, put, Store.find?_modify]
  split
  · rw [Option.map_map, Option.map_map]
    rfl
  · rfl

/-- Random choices have been seeded, if a demonstration makes any. -/
def seeded (m : Machine Content) (d : Demo) : Machine Content :=
  match d.choices with
  | some draws => m.put Promise.choices (.draws (some draws))
  | none => m

/-- The thread where the body of a demonstration begins that is presented. -/
def begun (m : Machine Content) (d : Demo) : Machine Content :=
  ((m.record (.text (CommandLine.heading d))).put Transcript.cell (.value (.text ""))).seeded d

/-- The thread where the text of a demonstration has been written out. -/
def concluded (m : Machine Content) (x : String × Option (String × String)) : Machine Content :=
  (m.put Transcript.cell (.value (.text ""))).record (.text (CommandLine.outputOf x))

theorem exists_run_seeding {d : Demo} {c : Comp Content} (hm : m.Evaluates (d.seeding c)) :
    ∃ n, m.run Γ n = (m.seeded d).goOn (.eval c) := by
  cases hdraws : d.choices with
  | none =>
    refine ⟨0, ?_⟩
    rw [Demo.seeding, hdraws] at hm
    rw [run, seeded, hdraws, goOn, ← hm.2]
  | some draws =>
    refine ⟨1, ?_⟩
    rw [Demo.seeding, hdraws] at hm
    rw [run_succ, run, seeded, hdraws]
    exact Transcript.step_eval hm

/-- The thread has come to a value, and nothing is left to be dropped. -/
structure Finished (m : Machine Content) : Prop where
  finished : ∃ v, m.control = .halted (.finished v)
  released : m.releasing = []

/-- A thread ends in one way. -/
theorem Finished.eq {n k : Nat} (hn : (m.run Γ n).Finished) (hk : (m.run Γ k).Finished) :
    m.run Γ n = m.run Γ k := by
  obtain ⟨⟨v, hv⟩, hreleasing⟩ := hn
  obtain ⟨⟨w, hw⟩, hreleasing'⟩ := hk
  rw [← run_halted (Γ := Γ) hv hreleasing k, ← run_halted (Γ := Γ) hw hreleasing' n, ← run_add,
    ← run_add, Nat.add_comm]

/-- A presentation begins. -/
theorem exists_run_begun {d : Demo} {k : Unit → Comp Content}
    (hm : m.Evaluates (CommandLine.present d k)) (htext : Transcript.Reads m "") :
    ∃ n, m.run Γ n = (m.begun d).goOn (.eval (d.body (CommandLine.ending k))) := by
  rw [CommandLine.present_eq] at hm
  let next : String × Option (String × String) → Comp Content := fun x => CommandLine.conclude x k
  have hrecord : m.run Γ 1 = (m.record (.text (CommandLine.heading d))).goOn
      (.eval (Transcript.capture d.program next)) := by
    rw [run_succ, run, Transcript.step_eval hm]
    rfl
  have hat : (m.run Γ 1).Evaluates (Transcript.capture d.program next) := by
    rw [hrecord]
    exact ⟨hm.1, rfl⟩
  have hcapture : m.run Γ 3 = (((m.record (.text (CommandLine.heading d))).put Transcript.cell
      (.value (.text ""))).goOn (.eval (d.program fun v => Transcript.closing "" v next))) := by
    rw [show 3 = 1 + 2 from rfl, run_add, Transcript.run_capture hat (by rw [hrecord]; exact htext),
      hrecord]
    rfl
  have hseeding : (m.run Γ 3).Evaluates
      (d.seeding (d.body fun v => Transcript.closing "" v next)) := by
    rw [hcapture, Demo.program_eq]
    exact ⟨hm.1, rfl⟩
  obtain ⟨n, hn⟩ := exists_run_seeding (Γ := Γ) hseeding
  refine ⟨3 + n, ?_⟩
  rw [run_add, hn, hcapture, begun, seeded, seeded]
  cases d.choices <;> rfl

/-- A text is read from a cell, whatever the cell holds. -/
theorem readText_eq (c : CellId) (k : String → Comp Content) :
    Task.readText c k = .read c fun x => k x.toText := by
  have hnext : (fun x : Content => k x.toText) = fun x =>
      ((match x with
        | .value v => pure v
        | _ => pure Value.unit : Task Value) fun v => k v.toText) := by
    funext x
    cases x <;> rfl
  rw [hnext]
  rfl

/-- A presentation is concluded. Some lines may go to standard error. -/
theorem exists_run_concluded {v : Option (String × String)} {k : Unit → Comp Content}
    (hm : m.Evaluates (CommandLine.ending k v)) :
    ∃ n errors, m.run Γ n =
      { m.concluded ((m.content Transcript.cell).toText, v) with errors }.goOn (.eval (k ())) := by
  let x : String × Option (String × String) := ((m.content Transcript.cell).toText, v)
  let out := (m.put Transcript.cell (.value (.text ""))).goOn (.eval (CommandLine.conclude x k))
  have hread : (m.step Γ).Evaluates (.write Transcript.cell (.value (.text ""))
      (CommandLine.conclude x k)) ∧ (m.step Γ).step Γ = out := by
    have hat : m.Evaluates (.read Transcript.cell fun y => Task.writeText Transcript.cell "" fun _ =>
        CommandLine.conclude (y.toText, v) k) := by
      have hclosing := readText_eq Transcript.cell fun text => Task.writeText Transcript.cell "" fun _ =>
        CommandLine.conclude (text, v) k
      exact ⟨hm.1, hm.2.trans (congrArg Control.eval hclosing)⟩
    have hgoes : m.step Γ = m.goOn (.eval (.write Transcript.cell (.value (.text ""))
        (CommandLine.conclude x k))) := Transcript.step_read hat
    rw [hgoes]
    have hwrite : (m.goOn (.eval (.write Transcript.cell (.value (.text ""))
        (CommandLine.conclude x k)))).Evaluates (.write Transcript.cell (.value (.text ""))
        (CommandLine.conclude x k)) := ⟨hm.1, rfl⟩
    exact ⟨hwrite, Transcript.step_eval hwrite⟩
  have hout : m.run Γ 2 = out := by rw [run_succ, run_succ, run, hread.2]
  have hat : out.Evaluates (CommandLine.conclude x k) := ⟨hm.1, rfl⟩
  cases v with
  | none =>
    refine ⟨3, m.errors, ?_⟩
    rw [run_succ, hout]
    exact Transcript.step_eval hat
  | some texts =>
    refine ⟨4, (CommandLine.linesOf texts.2).reverse ++ m.errors, ?_⟩
    have hlog : (out.step Γ) = (out.record (.text texts.1)).goOn
        (.eval (.print (.lines (CommandLine.linesOf texts.2)) (k ()))) := Transcript.step_eval hat
    have hprint : ((out.record (.text texts.1)).goOn
        (.eval (.print (.lines (CommandLine.linesOf texts.2)) (k ())))).Evaluates
        (.print (.lines (CommandLine.linesOf texts.2)) (k ())) := ⟨hm.1, rfl⟩
    rw [run_succ, run_succ, hout, hlog]
    exact Transcript.step_eval hprint

/-- Code without anything left to do ends the thread. -/
theorem run_done {v : Value} (hm : m.Evaluates (.done v)) (hstack : m.stack = [])
    (hresumers : m.fibers.resumers = []) : m.run Γ 2 = m.goOn (.halted (.finished v)) := by
  have hret : m.step Γ = m.goOn (.ret v) := Transcript.step_eval hm
  have hend : (m.goOn (.ret v)).AtEnd v := ⟨hm.1, rfl, hstack, hresumers⟩
  rw [run_succ, run_succ, run, hret, hend.step]
  rfl

/-- A process ends, with a report if one is asked for. -/
theorem exists_run_ended {diagnostics : Bool} (hm : m.Evaluates (CommandLine.code [] diagnostics))
    (hstack : m.stack = []) (hresumers : m.fibers.resumers = []) :
    ∃ n, (m.run Γ n).Finished ∧ (m.run Γ n).texts = m.texts ∧ (m.run Γ n).chain = m.chain ∧
      (m.run Γ n).cells = m.cells := by
  cases diagnostics with
  | false =>
    refine ⟨2, ?_⟩
    rw [run_done hm hstack hresumers]
    exact ⟨⟨⟨_, rfl⟩, hm.1⟩, rfl, rfl, rfl⟩
  | true =>
    obtain ⟨pool, journal, errors, hprint⟩ := m.exists_print_eq .report
    have hstep : m.step Γ = (m.print .report).goOn (.eval (.done .unit)) := Transcript.step_eval hm
    have htexts : (m.print .report).texts = m.texts :=
      { m with pool := { m.pool with settings := m.pool.settings.use.2.1 } }.texts_warn
        m.pool.settings.use.2.2
    rw [hprint] at hstep htexts
    have hone : m.run Γ 1 = m.step Γ := run_succ 0 m
    have hlast : (({ m with pool, journal, errors } : Machine Content).goOn
        (.eval (.done .unit))).Evaluates (.done .unit) := ⟨hm.1, rfl⟩
    refine ⟨1 + 2, ?_⟩
    rw [run_add, hone, hstep, run_done hlast hstack hresumers]
    exact ⟨⟨⟨_, rfl⟩, hm.1⟩, htexts, rfl, rfl⟩

/-- A presentation is concluded that was the last one. -/
theorem exists_run_closed {diagnostics : Bool} {v : Option (String × String)}
    (hm : m.Evaluates (CommandLine.ending (fun _ => CommandLine.code [] diagnostics) v))
    (hstack : m.stack = []) (hresumers : m.fibers.resumers = []) :
    ∃ n, (m.run Γ n).Finished ∧ (m.run Γ n).chain = m.chain ∧
      (∀ k, k ≠ Transcript.cell → (m.run Γ n).contents k = m.contents k) ∧ (m.run Γ n).texts =
        CommandLine.outputOf ((m.content Transcript.cell).toText, v) :: m.texts := by
  obtain ⟨n₁, errors, hconcluded⟩ := exists_run_concluded (Γ := Γ) hm
  have hlast : (m.run Γ n₁).Evaluates (CommandLine.code [] diagnostics) := by
    rw [hconcluded]
    exact ⟨hm.1, rfl⟩
  obtain ⟨n₂, hends, htexts, hchain, hcells⟩ := exists_run_ended (Γ := Γ) hlast
    (by rw [hconcluded]; exact hstack) (by rw [hconcluded]; exact hresumers)
  rw [← run_add] at hends htexts hchain hcells
  rw [hconcluded] at htexts hchain hcells
  refine ⟨n₁ + n₂, hends, hchain, fun k hk => ?_, htexts⟩
  rw [Machine.contents, hcells]
  show (m.put Transcript.cell (.value (.text ""))).contents k = m.contents k
  rw [contents_put, if_neg hk]

end Machine

end EffectHandlers

/-!
## Threads at the outset

Where nothing is under way, nothing that was made before can be met again, apart from the cells of the
thread as a whole. So a thread that is at rest can run code as a fresh one does.
-/

namespace EffectHandlers

namespace Machine

variable {m : Machine Content}

/-- The thread has these contents in its cells. -/
def Has (m : Machine Content) (xs : List (CellId × Content)) : Prop :=
  ∀ x ∈ xs, m.contents x.1 = some x.2

/-- Nothing is under way, and the chain and the cells of the thread as a whole are as they were at
first. -/
structure Rested (m : Machine Content) : Prop where
  filed : m.Filed
  releasing : m.releasing = []
  stack : m.stack = []
  resumers : m.fibers.resumers = []
  current : m.fibers.current = none
  pending : m.pending = none
  top : m.chain.top = 0
  bottom : m.chain.installations.find? 0 = some Installation.bottom
  unissued : m.chain.nextLabel < 0
  installations : 1 ≤ m.chain.installations.next
  references : 1 ≤ m.references.next
  resumptions : 1 ≤ m.resumptions.next
  cells : firstCell ≤ m.cells.next
  noCell : m.cells.find? 0 = none
  text : Transcript.Reads m ""
  threads : m.contents RoundRobin.queue = some (.list [])
  futures : m.contents Promise.queue = some (.list [])
  choices : ∃ x, m.contents Promise.choices = some x

/-- Nothing was made yet. -/
structure Fresh (m : Machine Content) : Prop extends m.Rested where
  firstLabel : m.chain.nextLabel = -1
  firstInstallation : m.chain.installations.next = 1
  firstReference : m.references.next = 1
  firstResumption : m.resumptions.next = 1
  firstCell : m.cells.next = firstCell
  firstClosure : m.closures.next = 0
  firstExchange : m.exchanges.next = 0
  firstFiber : m.fibers.parked.next = 0

theorem fresh_start (settings : SettingsSlot) (c : Comp Content) :
    (start settings Client.cells [] c).Fresh where
  filed := (ordinary_run (Γ := Client.library) settings Client.cells [] c 0).filed
  releasing := rfl
  stack := rfl
  resumers := rfl
  current := rfl
  pending := rfl
  top := rfl
  bottom := rfl
  unissued := show (-1 : Int) < 0 by decide
  installations := Nat.le_refl 1
  references := Nat.le_refl 1
  resumptions := Nat.le_refl 1
  cells := Nat.le_refl _
  noCell := rfl
  text := rfl
  threads := rfl
  futures := rfl
  choices := ⟨_, rfl⟩
  firstLabel := rfl
  firstInstallation := rfl
  firstReference := rfl
  firstResumption := rfl
  firstCell := rfl
  firstClosure := rfl
  firstExchange := rfl
  firstFiber := rfl

theorem Rested.record (h : m.Rested) (e : Event) : (m.record e).Rested :=
  { h with filed := { h.filed with } }

theorem Rested.goOn (h : m.Rested) (control : Control Content) : (m.goOn control).Rested :=
  { h with filed := { h.filed with } }

theorem contents_put_of_ne {c k : CellId} (h : k ≠ c) (x : Content) :
    (m.put c x).contents k = m.contents k := by
  rw [contents_put, if_neg h]

theorem contents_put_self {c : CellId} {x y : Content} (h : m.contents c = some y) :
    (m.put c x).contents c = some x := by
  rw [contents_put, if_pos rfl, h]
  rfl

/-- What is put into the cell of the transcript or of the choices does not count as under way. -/
theorem Rested.put (h : m.Rested) {c : CellId} {x : Content}
    (hx : c = Transcript.cell ∧ x = .value (.text "") ∨ c = Promise.choices) : (m.put c x).Rested :=
  { h with
    filed := { h.filed with cells := Store.wellFormed_modify h.filed.cells _ _ }
    noCell := by
      show (m.cells.modify c _).find? 0 = none
      rw [Store.find?_modify, h.noCell]
      split <;> rfl
    text := by
      rcases hx with ⟨rfl, rfl⟩ | rfl
      · exact contents_put_self h.text
      · exact (contents_put_of_ne (by decide) x).trans h.text
    threads := by
      refine (contents_put_of_ne ?_ x).trans h.threads
      rcases hx with ⟨rfl, -⟩ | rfl <;> decide
    futures := by
      refine (contents_put_of_ne ?_ x).trans h.futures
      rcases hx with ⟨rfl, -⟩ | rfl <;> decide
    choices := by
      obtain ⟨y, hy⟩ := h.choices
      rcases hx with ⟨rfl, -⟩ | rfl
      · exact ⟨y, (contents_put_of_ne (by decide) x).trans hy⟩
      · exact ⟨x, contents_put_self hy⟩ }

theorem Rested.seeded (h : m.Rested) (d : Demo) : (m.seeded d).Rested := by
  unfold Machine.seeded
  split
  · exact h.put (.inr rfl)
  · exact h

theorem Rested.begun (h : m.Rested) (d : Demo) : (m.begun d).Rested :=
  ((h.record _).put (.inl ⟨rfl, rfl⟩)).seeded d

theorem Fresh.goOn (h : m.Fresh) (control : Control Content) : (m.goOn control).Fresh :=
  { h with toRested := h.toRested.goOn control }

theorem Fresh.seeded (h : m.Fresh) (d : Demo) : (m.seeded d).Fresh := by
  have hrested := h.toRested.seeded d
  unfold Machine.seeded at hrested ⊢
  split
  · next draws hdraws =>
    rw [hdraws] at hrested
    exact { h with toRested := hrested }
  · exact h

theorem Fresh.begun (h : m.Fresh) (d : Demo) : (m.begun d).Fresh := by
  refine Fresh.seeded ?_ d
  exact { h with toRested := (h.toRested.record _).put (.inl ⟨rfl, rfl⟩) }

/-- The cells that a demonstration uses hold what they are to hold. -/
theorem Rested.has_seeded (h : m.Rested) (d : Demo) : (m.seeded d).Has d.cells := by
  have hs := h.seeded d
  cases d with
  | threads workers steps =>
    intro x hx
    simp only [Demo.cells, List.mem_cons, List.not_mem_nil, or_false] at hx
    rcases hx with rfl | rfl
    · exact hs.text
    · exact hs.threads
  | asyncAwait seed =>
    intro x hx
    simp only [Demo.cells, List.mem_cons, List.not_mem_nil, or_false] at hx
    rcases hx with rfl | rfl | rfl
    · exact hs.text
    · exact hs.futures
    · obtain ⟨y, hy⟩ := h.choices
      exact contents_put_self hy
  | _ =>
    intro x hx
    obtain rfl := List.mem_singleton.mp hx
    exact hs.text

end Machine

namespace Rerun

/-- The entries of two stores, where nothing is related to anything yet. -/
theorem MapsStore.fresh {α β : Type} {R : α → β → Prop} {s : Store α} {t : Store β} {first : Nat}
    (hs : s.WellFormed) (ht : t.WellFormed) (hfirst : s.next = first) (hle : first ≤ t.next) :
    MapsStore first (t.next - first) R s t where
  start := hfirst.ge
  next := by omega
  entries i hi := by
    have hnone : s.find? i = none := by
      cases hfound : s.find? i with
      | none => rfl
      | some a =>
        have := Store.lt_next hs hfound
        omega
    have hnone' : t.find? (i + (t.next - first)) = none := by
      cases hfound : t.find? (i + (t.next - first)) with
      | none => rfl
      | some b =>
        have := Store.lt_next ht hfound
        omega
    rw [hnone, hnone']
    exact .none

/-- How a thread at rest differs from a fresh one, both of which are about to run a demonstration. -/
def outset (d : Demo) (m m' : Machine Content) : Rerun where
  cells := m'.cells.next - firstCell
  closures := m'.closures.next - 0
  references := m'.references.next - 1
  exchanges := m'.exchanges.next - 0
  resumptions := m'.resumptions.next - 1
  installations := m'.chain.installations.next - 1
  fibers := m'.fibers.parked.next - 0
  labels := (-1 - m'.chain.nextLabel).toNat
  kept := d.cells.map (·.1)
  handlers := d.handlers
  procedures := d.procedures
  settings := m'.pool.settings.use.1
  told := m.texts
  texts := m'.texts
  others := m'.cells.find?

variable {d : Demo} {m m' : Machine Content} {rest : Comp Content → Comp Content → Prop}

/-- What the cells of a demonstration hold at first is the same in any thread. -/
theorem mapsContent_cells (σ : Rerun) {x : CellId × Content} (hx : x ∈ d.cells) :
    (0 < x.1 ∧ x.1 < firstCell) ∧ σ.MapsContent x.2 x.2 := by
  cases d with
  | threads workers steps =>
    simp only [Demo.cells, List.mem_cons, List.not_mem_nil, or_false] at hx
    rcases hx with rfl | rfl
    · exact ⟨by decide, .value (.text "")⟩
    · exact ⟨by decide, .list .nil⟩
  | asyncAwait seed =>
    simp only [Demo.cells, List.mem_cons, List.not_mem_nil, or_false] at hx
    rcases hx with rfl | rfl | rfl
    · exact ⟨by decide, .value (.text "")⟩
    · exact ⟨by decide, .list .nil⟩
    · exact ⟨show 0 < Promise.choices ∧ Promise.choices < firstCell by decide, .draws _⟩
  | _ =>
    obtain rfl := List.mem_singleton.mp hx
    exact ⟨by decide, .value (.text "")⟩

/-- A fresh thread and one that is at rest are abreast where they begin with the same code. -/
theorem abreast_outset (hm : m.Fresh) (hm' : m'.Rested) (hhas : m.Has d.cells)
    (hhas' : m'.Has d.cells)
    (hpool : StackPool.Suffices m'.pool.settings.use.1 m.pool m'.pool) {c c' : Comp Content}
    (hc : m.control = .eval c) (hc' : m'.control = .eval c')
    (hcode : (outset d m m').MapsCode rest .outer c c') : (outset d m m').Abreast rest m m' where
  tables :=
    { chain :=
        { top := .inl ⟨hm.top, hm'.top⟩
          unissued := hm.unissued
          nextLabel := by
            have hlabel := hm'.unissued
            rw [hm.firstLabel]
            show _ = -1 - ((-1 - m'.chain.nextLabel).toNat : Int)
            omega
          installations := .fresh hm.filed.installations hm'.filed.installations hm.firstInstallation
            hm'.installations
          bottom := hm.bottom
          bottom' := hm'.bottom }
      parked := .fresh hm.filed.parked hm'.filed.parked hm.firstFiber (Nat.zero_le _)
      current := by
        rw [hm.current, hm'.current]
        exact .none
      cells := .fresh hm.filed.cells hm'.filed.cells hm.firstCell hm'.cells
      noCell := hm.noCell
      noCell' := hm'.noCell
      kept := fun k hk => by
        obtain ⟨x, hx, rfl⟩ := List.mem_map.mp hk
        obtain ⟨⟨hpos, hlt⟩, hcontent⟩ := mapsContent_cells (outset d m m') hx
        exact ⟨hpos, hlt, _, _, hhas x hx, hhas' x hx, hcontent⟩
      others := fun _ _ _ _ => rfl
      closures := .fresh hm.filed.closures hm'.filed.closures hm.firstClosure (Nat.zero_le _)
      references := .fresh hm.filed.references hm'.filed.references hm.firstReference hm'.references
      exchanges := .fresh hm.filed.exchanges hm'.filed.exchanges hm.firstExchange (Nat.zero_le _)
      resumptions := .fresh hm.filed.resumptions hm'.filed.resumptions hm.firstResumption
        hm'.resumptions
      pool := hpool
      texts := ⟨[], rfl, rfl⟩
      releasing := by
        rw [hm.releasing, hm'.releasing]
        exact .nil }
  running := by
    refine ⟨.outer, .code .outer, ?_, ?_, ?_⟩
    · rw [hm.stack, hm'.stack]
      exact .nil
    · rw [hm.resumers, hm'.resumers]
      exact .nil
    · rw [hm.pending, hm'.pending, hc, hc']
      exact .eval hcode

end Rerun

end EffectHandlers
