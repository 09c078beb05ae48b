import EffectHandlers.Client.Transcript
import EffectHandlers.Proofs.Bodies
import EffectHandlers.Proofs.Following
/-!
# Variables of bodies

Bodies write to the transcript, and read and assign to cells that hold values. What they do to their
variables depends on nothing else; a handler under which they run has a cell of its own beside them.
-/

namespace EffectHandlers

/-- What cells hold, with their shares. -/
abbrev Memory : Type := CellId → Option (Shared Content)

namespace Memory

/-- The value of a variable. -/
def value (μ : Memory) (x : CellId) : Value :=
  match (μ x).map Shared.content with
  | some (.value v) => v
  | _ => .unit

/-- The text that a variable holds. -/
def text (μ : Memory) (x : CellId) : String := (μ.value x).toText

/-- A variable gets another value, if it is there. -/
def assign (μ : Memory) (x : CellId) (v : Value) : Memory := fun y =>
  if y = x then (μ y).map fun s => { s with content := .value v } else μ y

variable {μ : Memory} {x h : CellId} {v : Value}

theorem assign_eq_none (hnone : μ h = none) : μ.assign x v h = none := by
  unfold assign
  split
  · rw [hnone]
    rfl
  · exact hnone

end Memory

/-- The world of a body: what its variables hold, and what else belongs to it. -/
structure World (σ : Type) where
  memory : Memory
  state : σ

/-- What bodies do, beside sending commands of some kind. Their variables are the first cells. -/
inductive Deed (κ : Type) (n : Nat) where
  /-- Write to the transcript. -/
  | emit (text : String)
  | look (x : Fin n)
  | assign (x : Fin n) (v : Value)
  | send (command : κ)

namespace Deed

variable {κ σ : Type} {n : Nat}

/-- What bodies do, as programs. -/
def perform (send : κ → Task Value) : Deed κ n → Task Value
  | emit text => do
    Transcript.emit text
    return .unit
  | look x => Task.readValue x
  | assign x v => do
    Task.writeValue x v
    return .unit
  | .send command => send command

variable {π : Type} in
/-- What bodies do, with procedures that they may call. -/
def vocabulary (send : κ → Task Value) (name : π → String)
    (code : π → Value → Body (Deed κ n) π) : Vocabulary Content (Deed κ n) π where
  perform := perform send
  name
  code

/-- What bodies do to their world. -/
def acts (serve : κ → World σ → Option (Value × World σ)) :
    Deed κ n → World σ → Option (Value × World σ)
  | emit text, w =>
    some (.unit, { w with
      memory := w.memory.assign Transcript.cell (.text (w.memory.text Transcript.cell ++ text)) })
  | look x, w => some (w.memory.value x, w)
  | assign x v, w => some (.unit, { w with memory := w.memory.assign x v })
  | send command, w => serve command w

end Deed

/-- The cells hold what the variables hold, with extra shares of some of them. Beside that there is
the cell of a handler, and nobody else has a share of it. -/
structure Store.Holds (cells : Store (Shared Content)) (h : CellId) (own : Content)
    (extra : CellId → Nat) (μ : Memory) : Prop where
  own : cells.find? h = some ⟨own, 1⟩
  others : ∀ x, x ≠ h → cells.find? x = (μ x).map fun y => { y with shares := y.shares + extra x }
  fresh : μ h = none

namespace Store.Holds

variable {cells : Store (Shared Content)} {h x : CellId} {own own' : Content} {extra : CellId → Nat}
  {μ : Memory} {v : Value}

theorem content_eq (hholds : cells.Holds h own extra μ) (hx : x ≠ h) :
    (cells.find? x).map Shared.content = (μ x).map Shared.content := by
  rw [hholds.others x hx]
  cases μ x <;> rfl

theorem value_eq (hholds : cells.Holds h own extra μ) (hx : x ≠ h) :
    Memory.value cells.find? x = μ.value x := by
  unfold Memory.value
  rw [hholds.content_eq hx]

theorem assign (hholds : cells.Holds h own extra μ) (hx : x ≠ h) :
    (cells.modify x fun y => { y with content := .value v }).Holds h own extra (μ.assign x v) where
  own := by
    rw [find?_modify, if_neg hx.symm]
    exact hholds.own
  others := fun y hy => by
    rw [find?_modify, hholds.others y hy]
    unfold Memory.assign
    split
    · cases μ y <;> rfl
    · rfl
  fresh := Memory.assign_eq_none hholds.fresh

/-- The handler changes its own cell. -/
theorem keep (hholds : cells.Holds h own extra μ) :
    (cells.modify h fun y => { y with content := own' }).Holds h own' extra μ where
  own := by
    rw [find?_modify, if_pos rfl, hholds.own]
    rfl
  others := fun y hy => by
    rw [find?_modify, if_neg hy]
    exact hholds.others y hy
  fresh := hholds.fresh

/-- A new cell for a handler. -/
theorem start (hcells : cells.WellFormed) (own : Content) :
    (cells.insert ⟨own, 1⟩).2.Holds cells.next own (fun _ => 0) cells.find? where
  own := cells.find?_insert_self _
  others := fun x hx => by
    rw [find?_insert, if_neg hx]
    cases cells.find? x <;> rfl
  fresh := Option.eq_none_iff_forall_ne_some.mpr fun _ hy =>
    Nat.lt_irrefl _ (Store.lt_next hcells hy)

/-- The cell of the handler goes. -/
theorem erase (hholds : cells.Holds h own (fun _ => 0) μ) (hcells : cells.WellFormed) :
    (cells.erase h).find? = μ := by
  funext x
  rw [find?_erase hcells]
  split
  · rename_i heq
    rw [heq, hholds.fresh]
  · rename_i hne
    rw [hholds.others x hne]
    cases μ x <;> rfl

end Store.Holds

namespace Outline.Gets

variable {Γ : Library Content} {s : Outline Content} {S : List (Activation Content)} {x : CellId}
  {v : Value} {Q : Outline Content → Prop}

theorem reads {k : Value → Comp Content} : (s.on S (.eval (Task.readValue x k))).Gets Γ fun s' =>
    s' = s.on S (.eval (k (Memory.value s.cells.find? x))) := by
  refine .last (fun y _ => ?_) fun _ => rfl
  have hcontent : ((s.on S (.eval (Task.readValue x k))).machine y).content x =
      ((s.cells.find? x).map Shared.content).getD default := rfl
  show (Machine.eval Γ _ (.read x _)).outline = _
  simp only [Machine.eval, hcontent, Memory.value]
  rcases (s.cells.find? x).map Shared.content with - | content
  · rfl
  · cases content <;> rfl

theorem readValue {k : Value → Comp Content} (hv : Memory.value s.cells.find? x = v)
    (h : (s.on S (.eval (k v))).Gets Γ Q) : (s.on S (.eval (Task.readValue x k))).Gets Γ Q :=
  reads.via (hv ▸ h)

theorem writes {k : Unit → Comp Content} :
    (s.on S (.eval (Task.writeValue x v k))).Gets Γ fun s' =>
      s' = (s.storing (s.cells.modify x fun y => { y with content := .value v })).on S
        (.eval (k ())) :=
  .last (fun _ _ => rfl) fun _ => rfl

theorem writeValue {k : Unit → Comp Content}
    (h : ((s.storing (s.cells.modify x fun y => { y with content := .value v })).on S
      (.eval (k ()))).Gets Γ Q) : (s.on S (.eval (Task.writeValue x v k))).Gets Γ Q := writes.via h

end Outline.Gets

namespace Deed

variable {Γ : Library Content} {s : Outline Content} {S : List (Activation Content)} {κ σ : Type}
  {n : Nat} {send : κ → Task Value} {serve : κ → World σ → Option (Value × World σ)}
  {w w' : World σ} {v : Value} {h : CellId} {own : Content} {extra : CellId → Nat}
  {next : Value → Comp Content}

/-- What bodies do without sending commands shows in their variables alone. -/
theorem gets {d : Deed κ n} (hplain : ∀ command, d ≠ .send command)
    (hacts : d.acts serve w = some (v, w')) (hholds : s.cells.Holds h own extra w.memory)
    (hn : n ≤ h) (htranscript : Transcript.cell < n) :
    (s.on S (.eval (d.perform send next))).Gets Γ fun s' => ∃ cells,
      s' = (s.storing cells).on S (.eval (next v)) ∧
        cells.Holds h own extra w'.memory ∧ w'.state = w.state := by
  have hne : ∀ {x : Nat}, x < n → x ≠ h := fun hx => Nat.ne_of_lt (Nat.lt_of_lt_of_le hx hn)
  cases d with
  | emit text =>
    obtain ⟨rfl, rfl⟩ := Prod.mk.inj (Option.some.inj hacts)
    have hwrites := Outline.Gets.writes (Γ := Γ) (s := s) (S := S) (x := Transcript.cell)
      (v := .text (w.memory.text Transcript.cell ++ text)) (k := fun _ => next .unit)
    exact .readValue (hholds.value_eq (hne htranscript))
      (hwrites.mono fun s' heq _ => ⟨_, heq, hholds.assign (hne htranscript), rfl⟩)
  | look x =>
    obtain ⟨rfl, rfl⟩ := Prod.mk.inj (Option.some.inj hacts)
    refine Outline.Gets.reads.mono fun s' heq _ => ⟨s.cells, ?_, hholds, rfl⟩
    rw [heq, hholds.value_eq (hne x.isLt)]
    rfl
  | assign x v =>
    obtain ⟨rfl, rfl⟩ := Prod.mk.inj (Option.some.inj hacts)
    have hwrites := Outline.Gets.writes (Γ := Γ) (s := s) (S := S) (x := x) (v := v)
      (k := fun _ => next .unit)
    exact hwrites.mono fun s' heq _ => ⟨_, heq, hholds.assign (hne x.isLt), rfl⟩
  | send command => exact absurd rfl (hplain command)

end Deed

/-! ### Bodies in threads -/

/-- The thread goes on with this code. Nothing has changed but what the cells hold. -/
structure Machine.ComesBack (m m' : Machine Content) (μ : Memory) (code : Comp Content) : Prop where
  outline : m'.outline = (m.outline.storing m'.cells).on m.stack (.eval code)
  memory : m'.cells.find? = μ

theorem Machine.Numbered.exists_comesBack {Γ : Library Content} {m m' : Machine Content}
    {s : Outline Content} {μ : Memory} {code : Comp Content} (hm : m'.Numbered)
    (hs : m'.outline = s) (h : s.Gets Γ fun s' => ∃ cells : Store (Shared Content),
      cells.find? = μ ∧ s' = (m.outline.storing cells).on m.stack (.eval code)) :
    ∃ k, m.ComesBack (m'.run Γ k) μ code := by
  obtain ⟨k, -, cells, hcells, hk⟩ := h m' hm hs
  have hsame : (m'.run Γ k).cells = cells := congrArg Outline.cells hk
  exact ⟨k, hk.trans (by rw [hsame]), by rw [hsame, hcells]⟩

/-- The course of a body with the variables of a thread. -/
def Course.start {κ π σ : Type} {n : Nat} (m : Machine Content) (body : Body (Deed κ n) π)
    (state : σ) : Course (Deed κ n) π (World σ) where
  body
  world := ⟨m.cells.find?, state⟩

section

variable {κ π σ : Type} {n : Nat} {Γ : Library Content} {voc : Vocabulary Content (Deed κ n) π}
  {acts : Deed κ n → World σ → Option (Value × World σ)} {c : Course (Deed κ n) π (World σ)}
  {m m' : Machine Content} {answer : World σ → Value → Comp Content}

variable (voc c) in
/-- A thread is where this body is: it has the same to do, and the variables hold the same. -/
structure Course.Reached (m : Machine Content) : Prop where
  control : m.control = .eval (c.body.code voc)
  contents : ∀ x < n, m.contents x = (c.world.memory x).map Shared.content

variable (Γ voc acts c) in
/-- A thread runs a body along its course. -/
structure Course.Performed (m : Machine Content) (clock : Nat → Nat) : Prop where
  increasing : StrictMono clock
  reaches : ∀ t, c.Lasts voc.code acts t → (c.run voc.code acts t).Reached voc (m.run Γ (clock t))

variable (Γ voc acts c m m' answer) in
/-- A thread performs a body. Once the body has returned, the thread goes on with an answer, and
nothing but the variables has changed. -/
structure Course.Completed (clock : Nat → Nat) : Prop extends c.Performed Γ voc acts m' clock where
  returns : ∀ t v, (c.run voc.code acts t).result? = some v → ∃ k, m.ComesBack (m'.run Γ k)
    (c.run voc.code acts t).world.memory (answer (c.run voc.code acts t).world v)

variable (Γ voc acts c m m' answer) in
/-- A thread performs a body, which may be given up at some of its deeds. Then the thread at once
goes on with another answer, in a memory that depends on the world. -/
structure Course.Concluded (gives : Deed κ n → World σ → Prop) (undone : World σ → Memory)
    (refusal : Comp Content) (clock : Nat → Nat) : Prop extends
    c.Completed Γ voc acts m m' answer clock where
  stops : ∀ t d k, c.Lasts voc.code acts t → (c.run voc.code acts t).body = .act d k →
    gives d (c.run voc.code acts t).world → ∃ j, m.ComesBack (m'.run Γ (clock t + j))
      (undone (c.run voc.code acts t).world) refusal

theorem Course.Completed.congr {acts' : Deed κ n → World σ → Option (Value × World σ)}
    {clock : Nat → Nat} (h : c.Completed Γ voc acts' m m' answer clock)
    (hsame : ∀ t, (c.run voc.code acts t).next? voc.code acts' =
      (c.run voc.code acts t).next? voc.code acts) :
    c.Completed Γ voc acts m m' answer clock where
  increasing := h.increasing
  reaches t ht := by
    rw [← Course.run_congr fun u _ => hsame u]
    exact h.reaches t ((Course.lasts_congr fun u _ => hsame u).mpr ht)
  returns t v hv := by
    rw [← Course.run_congr fun u _ => hsame u] at hv ⊢
    exact h.returns t v hv

variable {At : World σ → Outline Content → Prop} {B : List (Activation Content)} {k : Nat}

theorem Course.Shown.exists_performed (h : c.Shown voc At B (m.run Γ k).outline) (hm : m.Numbered)
    (henacts : voc.Enacts Γ acts At)
    (hvisible : ∀ w s, At w s → ∀ x < n,
      (s.cells.find? x).map Shared.content = (w.memory x).map Shared.content) :
    ∃ clock, c.Performed Γ voc acts m clock ∧ ∀ t, c.Lasts voc.code acts t →
      (c.run voc.code acts t).Shown voc At B (m.run Γ (clock t)).outline := by
  obtain ⟨clock, hincreasing, hshown⟩ := h.exists_clock (hm.run k) henacts
  simp only [← Machine.run_add] at hshown
  refine ⟨fun t => k + clock t, ⟨fun t u htu => ?_, fun t ht => ?_⟩, hshown⟩
  · exact Nat.add_lt_add_left (hincreasing htu) k
  · obtain ⟨s₀, hat, heq⟩ := hshown t ht
    refine ⟨congrArg Outline.control heq, fun x hx => ?_⟩
    rw [← hvisible _ _ hat x hx]
    exact congrArg (fun s : Outline Content => (s.cells.find? x).map Shared.content) heq

theorem Course.Shown.exists_concluded (h : c.Shown voc At B (m'.run Γ k).outline)
    (hm : m'.Numbered) (henacts : voc.Enacts Γ acts At)
    (hvisible : ∀ w s, At w s → ∀ x < n,
      (s.cells.find? x).map Shared.content = (w.memory x).map Shared.content)
    (hends : ∀ w v s, At w s → (s.on B (.eval (.done v))).Gets Γ fun s' =>
      ∃ cells : Store (Shared Content), cells.find? = w.memory ∧
        s' = (m.outline.storing cells).on m.stack (.eval (answer w v)))
    (gives : Deed κ n → World σ → Prop) (undone : World σ → Memory) (refusal : Comp Content)
    (hgives : ∀ d w s T k, gives d w → At w s → T.flatMap Activation.owned = [] →
      (s.on (T ++ B) (.eval (voc.perform d k))).Gets Γ fun s' =>
        ∃ cells : Store (Shared Content), cells.find? = undone w ∧
          s' = (m.outline.storing cells).on m.stack (.eval refusal)) :
    ∃ clock, c.Concluded Γ voc acts m m' answer gives undone refusal clock := by
  obtain ⟨clock, hperformed, hshown⟩ := h.exists_performed hm henacts hvisible
  refine ⟨clock, { hperformed with
    returns := fun t v hv => ?_, stops := fun t d k hlasts hbody hd => ?_ }⟩
  · obtain ⟨t', -, hlasts, heq⟩ := Course.exists_lasts voc.code acts c t
    rw [← heq] at hv ⊢
    obtain ⟨s₀, hat, hs⟩ := hshown t' hlasts
    obtain ⟨hbody, hblocks⟩ := Course.eq_of_result? hv
    rw [hbody, hblocks] at hs
    obtain ⟨k', hback⟩ := (hm.run (clock t')).exists_comesBack hs (hends _ v s₀ hat)
    rw [← Machine.run_add] at hback
    exact ⟨clock t' + k', hback⟩
  · obtain ⟨s₀, hat, hs⟩ := hshown t hlasts
    rw [hbody] at hs
    obtain ⟨j, hback⟩ := (hm.run (clock t)).exists_comesBack hs
      (hgives d _ s₀ _ _ hd hat (Block.flatMap_owned _))
    rw [← Machine.run_add] at hback
    exact ⟨j, hback⟩

theorem Course.Shown.exists_completed (h : c.Shown voc At B (m'.run Γ k).outline)
    (hm : m'.Numbered) (henacts : voc.Enacts Γ acts At)
    (hvisible : ∀ w s, At w s → ∀ x < n,
      (s.cells.find? x).map Shared.content = (w.memory x).map Shared.content)
    (hends : ∀ w v s, At w s → (s.on B (.eval (.done v))).Gets Γ fun s' =>
      ∃ cells : Store (Shared Content), cells.find? = w.memory ∧
        s' = (m.outline.storing cells).on m.stack (.eval (answer w v))) :
    ∃ clock, c.Completed Γ voc acts m m' answer clock := by
  obtain ⟨clock, hconcluded⟩ := h.exists_concluded hm henacts hvisible hends (fun _ _ => False)
    World.memory (.done .unit) fun _ _ _ _ _ hnever => hnever.elim
  exact ⟨clock, hconcluded.toCompleted⟩

/-- A handler gets a cell, and a body starts under it. -/
theorem Machine.exists_installed (hm : m.Numbered) (hreleasing : m.releasing = []) {name : String}
    (hclauses : HandlerType.duplicate? [] ((Γ.handlerType name).clauses.map (·.command)) = none)
    (hsize : m.stackSize < StackPool.addressSpace) (own : Content)
    (body : ReferenceId → Comp Content) (next : Value → Comp Content) :
    ∃ g : Guest, g.handlerType = name ∧ g.handler = m.cells.next ∧
      ∃ cells, cells.Holds g.handler own (fun _ => 0) m.cells.find? ∧
        ((m.goOn (.eval (.alloc own fun cell =>
          .handle { handlerType := name, handler := cell } body next))).run Γ 3).outline =
            (m.outline.hosting Γ g cells 3 (.stepping :: .bind next :: m.stack)).on
              [.owning [.reference g.this]] (.eval (body g.this)) := by
  let m₁ := ({ m with cells := (m.cells.insert ⟨own, 1⟩).2 } : Machine Content).goOn
    (.eval (.handle { handlerType := name, handler := m.cells.next } body next))
  have hstep : (m.goOn (.eval (.alloc own fun cell =>
      .handle { handlerType := name, handler := cell } body next))).step Γ = m₁ := by
    simp only [Machine.step, Machine.goOn, hreleasing, m₁, Machine.eval]
    rfl
  have houtline : m₁.outline = (m.outline.storing m₁.cells).on m.stack
      (.eval (.handle { handlerType := name, handler := m.cells.next } body next)) := by
    simp [Machine.outline, m₁, Outline.storing, Outline.on, Machine.goOn, hreleasing]
  obtain ⟨g, hname, hhandler, hrun⟩ := Machine.exists_hosting (Γ := Γ) houtline rfl hclauses hsize
  refine ⟨g, hname, hhandler, m₁.cells, hhandler ▸ .start hm.cells own, ?_⟩
  rw [show 3 = 1 + 2 from rfl, Machine.run_add, Machine.run_succ 0]
  exact (congrArg (fun m => (Machine.run Γ 2 m).outline) hstep).trans hrun

/-! ### Handlers that keep something in their cell -/

variable {own : σ → Content} {o s : Outline Content} {g : Guest} {next : Value → Comp Content}
  {S T : List (Activation Content)} {w : World σ} {v : Value}

variable (Γ) in
/-- A body runs under a handler that keeps this in its cell. -/
def Keeping (own : σ → Content) (o : Outline Content) (g : Guest) (next : Value → Comp Content)
    (S : List (Activation Content)) (w : World σ) (s : Outline Content) : Prop :=
  ∃ cells, cells.Holds g.handler (own w.state) (fun _ => 0) w.memory ∧
    s = o.hosting Γ g cells 3 (.stepping :: .bind next :: S)

namespace Keeping

theorem visible (hs : Keeping Γ own o g next S w s) {x : CellId} (hx : x ≠ g.handler) :
    (s.cells.find? x).map Shared.content = (w.memory x).map Shared.content := by
  obtain ⟨cells, hholds, rfl⟩ := hs
  exact hholds.content_eq hx

/-- A body under the handler does what it does in its world, if the handler does so. -/
theorem enacts {send : κ → Task Value} {serve : κ → World σ → Option (Value × World σ)}
    {name : π → String} {code : π → Value → Body (Deed κ n) π}
    (hvoc : (Deed.vocabulary send name code).Known Γ) (hn : n ≤ g.handler)
    (htranscript : Transcript.cell < n)
    (hserves : ∀ {command w w' v s T k}, Keeping Γ own o g next S w s →
      serve command w = some (v, w') → (s.on T (.eval (send command k))).Gets Γ fun s' =>
        ∃ s'', Keeping Γ own o g next S w' s'' ∧ s' = s''.on T (.eval (k v))) :
    (Deed.vocabulary send name code).Enacts Γ (Deed.acts serve) (Keeping Γ own o g next S) where
  known := hvoc
  act {w w' d v s S k} hs hacts := by
    by_cases hplain : ∀ command, d ≠ .send command
    · obtain ⟨cells, hholds, rfl⟩ := hs
      refine (Deed.gets hplain hacts hholds hn htranscript).mono ?_
      rintro s' ⟨cells', rfl, hholds', hstate⟩ -
      exact ⟨_, ⟨cells', hstate ▸ hholds', rfl⟩, rfl⟩
    · obtain ⟨command, rfl⟩ : ∃ command, d = .send command := by simpa using hplain
      exact hserves hs hacts

/-- The body returns, and the handler goes with its cell once the return clause has ended. -/
theorem gets_answered (hs : Keeping Γ own o g next S w s) (hpending : o.pending = none)
    (howned : Contents.owned (own w.state) = []) {u : Value}
    (hreturn : ∀ {s' : Outline Content} {U Q}, s'.cells.find? g.handler = some ⟨own w.state, 1⟩ →
      (s'.on U (.ret u)).Gets Γ Q →
        (s'.on U (.eval ((Γ.handlerType g.handlerType).onReturn g.handler v))).Gets Γ Q) :
    (s.on [.owning [.reference g.this]] (.eval (.done v))).Gets Γ fun s' =>
      ∃ cells : Store (Shared Content), cells.find? = w.memory ∧
        s' = (o.storing cells).on S (.eval (next u)) := by
  obtain ⟨cells, hholds, rfl⟩ := hs
  refine .done (Outline.gets_returning.trans ?_)
  rintro s' rfl hcells
  refine hreturn hholds.own ((Outline.gets_answered hpending hholds.own (Nat.le_refl 1)
    howned).mono ?_)
  rintro s' rfl -
  exact ⟨_, hholds.erase hcells, rfl⟩

end Keeping

end

end EffectHandlers
