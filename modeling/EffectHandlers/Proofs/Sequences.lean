import EffectHandlers.Client.Generator
import EffectHandlers.Proofs.Loops
import EffectHandlers.Proofs.Updates
/-!
# Families of generators and their sequences

## Families of generators

What a program does that makes generators and asks them for values, where the bodies of the
generators may do so as well: without handlers and continuations. A generator that is asked runs in
the place of the code that has asked it, until it yields or ends; so those who run are a stack of
calls.
-/

namespace EffectHandlers.Generator

/-! ### What code does -/

/-- An item type whose handler a library knows. -/
def Known (Γ : Library Content) : Type :=
  { item : String // Γ.handlerType (handlerName item) = handler item }

/-- The name of an item type. -/
def Known.name {Γ : Library Content} (item : Known Γ) : String := item.1

/-- What the body of a generator does, or a whole program. -/
inductive Behaviour (Γ : Library Content) where
  /-- The end of a block, and outside of blocks the end of the code. -/
  | done (v : Value)
  /-- Code outside of generators yields to nobody, and goes on at once. -/
  | yield (v : Value) (next : Behaviour Γ)
  /-- A new generator owns what its body uses. -/
  | make (item : Known Γ) (owned : List Owned) (body : Behaviour Γ) (next : CellId → Behaviour Γ)
  | ask (g : CellId) (next : Option Value → Behaviour Γ)
  | drop (g : CellId) (next : Behaviour Γ)
  | loop (seed : Value) (body next : Value → Behaviour Γ)
  | scope (owned : List Owned) (body : Behaviour Γ) (next : Value → Behaviour Γ)
  | retain (o : Owned) (next : Behaviour Γ)
  | release (os : List Owned) (next : Behaviour Γ)
  | log (text : String) (next : Behaviour Γ)

/-- Ask the generator whose state is in a cell. The state is not there until it has answered. -/
def ask (g : CellId) : Task (Option Value) := do
  let state ← Task.readValue g
  Task.writeValue g .absent
  match ← next state with
  | none => return none
  | some (v, state) =>
    Task.writeValue g state
    return some v

/-- Drop the generator whose state is in a cell. -/
def drop (g : CellId) : Task Unit := do
  match ← Task.readValue g with
  | .present (.pair v (.resumption r)) =>
    Task.writeValue g .absent
    let r ← Prog.take r
    Prog.release (v.owned ++ [.resumption r])
  | _ => return ()

/-- The generator that code is the body of, if it is one: its item type and its label. -/
abbrev Home : Type := Option (String × Int)

/-- Yield a value to one's own generator. Where there is none, the value is dropped. -/
def yieldHome : Home → Value → Task Unit
  | some (item, label), v => yield item label v
  | none, v => Prog.release v.owned

namespace Behaviour

variable {Γ : Library Content}

/-- The program that does this, as the body of a generator or on its own. -/
def toTask : Behaviour Γ → Home → Task Value
  | done v, _ => return v
  | yield v next, home => do
    yieldHome home v
    next.toTask home
  | make item owned body next, home => do
    let state ← Generator.make item.name owned fun label => do
      let _ ← body.toTask (some (item.name, label))
      return ()
    let g ← Prog.alloc (.value state)
    (next g).toTask home
  | ask g next, home => do (next (← Generator.ask g)).toTask home
  | drop g next, home => do
    Generator.drop g
    next.toTask home
  | loop seed body next, home => do
    let v ← Prog.loop seed fun v => (body v).toTask home
    (next v).toTask home
  | scope owned body next, home => do
    let v ← Prog.scope owned (body.toTask home)
    (next v).toTask home
  | retain o next, home => do
    Prog.retain o
    next.toTask home
  | release os next, home => do
    Prog.release os
    next.toTask home
  | log text next, home => do
    Prog.log text
    next.toTask home

/-- The computation that does this. -/
def code (home : Home) (b : Behaviour Γ) : Comp Content := (b.toTask home).toComp

/-- Do the same, and end without a result. -/
def void : Behaviour Γ → Behaviour Γ
  | done _ => done .unit
  | yield v next => yield v next.void
  | make item owned body next => make item owned body fun g => (next g).void
  | ask g next => ask g fun x => (next x).void
  | drop g next => drop g next.void
  | loop seed body next => loop seed body fun v => (next v).void
  | scope owned body next => scope owned body fun v => (next v).void
  | retain o next => retain o next.void
  | release os next => release os next.void
  | log text next => log text next.void

theorem toTask_void (b : Behaviour Γ) (home : Home) (k : Value → Comp Content) :
    b.void.toTask home k = b.toTask home fun _ => k .unit := by
  induction b generalizing k with
  | done v => rfl
  | yield v next ih => exact congrArg (yieldHome home v) (funext fun _ => ih k)
  | make item owned body next _ ih =>
    let run (label : Int) : Task Unit := do
      let _ ← body.toTask (some (item.name, label))
    have hnext := funext fun g => ih g k
    exact congrArg (fun f => Generator.make item.name owned run fun state =>
      .alloc (.value state) f) hnext
  | ask g next ih => exact congrArg (Generator.ask g) (funext fun x => ih x k)
  | drop g next ih => exact congrArg (Generator.drop g) (funext fun _ => ih k)
  | loop seed body next _ ih => exact congrArg (Comp.loop seed _) (funext fun v => ih v k)
  | scope owned body next _ ih => exact congrArg (Comp.scope owned _) (funext fun v => ih v k)
  | retain o next ih => exact congrArg (Comp.retain o) (ih k)
  | release os next ih => exact congrArg (Comp.release os) (ih k)
  | log text next ih => exact congrArg (Comp.record (.text text)) (ih k)

/-- Yield the value of a sequence with this number, if it is there, and go on with the next one. -/
def round (f : Nat → Option Value) (n : Value) : Behaviour Γ :=
  match f n.toInt.toNat with
  | some v => yield v (done (Comp.again (.int (n.toInt + 1))))
  | none => done (Comp.stop .unit)

/-- Yield the values of a sequence, up to the first that is not there. -/
def each (f : Nat → Option Value) : Behaviour Γ := loop (.int 0) (round f) done

end Behaviour

/-! ### One body on its own -/

/-- What a body is told while it runs. -/
inductive Reply where
  /-- A generator that it has asked has answered. -/
  | answer (x : Option Value)
  /-- A generator that it has made is in this cell. -/
  | made (g : CellId)
  deriving DecidableEq

/-- A body on its own, with all that it is still to be told. -/
structure Solo (Γ : Library Content) where
  code : Behaviour Γ
  blocks : List (Block (Behaviour Γ)) := []
  /-- The values that it has yielded. -/
  yields : List Value := []
  replies : List Reply

namespace Solo

variable {Γ : Library Content}

/-- What a body does next, as long as it is told what it has to know. -/
def step (s : Solo Γ) : Solo Γ :=
  match s.code, s.replies with
  | .done v, _ =>
    match Block.after v s.blocks with
    | some (code, blocks) => { s with code, blocks }
    | none => s
  | .yield v next, _ => { s with code := next, yields := s.yields ++ [v] }
  | .make _ _ _ next, .made g :: replies => { s with code := next g, replies }
  | .ask _ next, .answer x :: replies => { s with code := next x, replies }
  | .make .., _ | .ask .., _ => s
  | .loop seed body next, _ =>
    { s with code := body seed, blocks := .loop ⟨body, next⟩ :: s.blocks }
  | .scope _ body next, _ => { s with code := body, blocks := .scope next :: s.blocks }
  | .drop _ next, _ | .retain _ next, _ | .release _ next, _ | .log _ next, _ =>
    { s with code := next }

end Solo

/-! ### Generators -/

/-- How far the body of a generator has got. -/
inductive Progress (Γ : Library Content) where
  /-- It runs, or it has called another one and waits. -/
  | running
  /-- It rests at a yield, with the value that nobody has got yet. -/
  | resting (v : Value) (rest : Behaviour Γ) (blocks : List (Block (Behaviour Γ)))
  | ended
  | dropped

/-- A generator. -/
structure Producer (Γ : Library Content) where
  item : Known Γ
  body : Behaviour Γ
  /-- The cell of its state, once it has been made. -/
  cell : Option CellId := none
  progress : Progress Γ := .running
  /-- What its body was told, in order. -/
  heard : List Reply := []
  /-- The values that its body has yielded, in order. -/
  yields : List Value := []
  /-- What it has answered to those who asked it, in order. -/
  answers : List (Option Value) := []

namespace Producer

variable {Γ : Library Content}

/-- How a generator goes on. -/
def goOn (p : Progress Γ) (a : Producer Γ) : Producer Γ := { a with progress := p }

/-- The body is told something. -/
def hear (x : Reply) (a : Producer Γ) : Producer Γ := { a with heard := a.heard ++ [x] }

/-- The body yields a value. -/
def rest (v : Value) (b : Behaviour Γ) (blocks : List (Block (Behaviour Γ))) (a : Producer Γ) :
    Producer Γ :=
  { a with progress := .resting v b blocks, yields := a.yields ++ [v] }

/-- The generator answers to who has asked it. -/
def answer (x : Option Value) (a : Producer Γ) : Producer Γ :=
  { a with answers := a.answers ++ [x] }

end Producer

/-- What code waits for that has let a generator run. -/
inductive Awaits (Γ : Library Content) where
  /-- The generator itself, which is new. -/
  | generator (next : CellId → Behaviour Γ)
  /-- That the generator in a cell goes on, whose value this was. -/
  | value (g : CellId) (v : Value) (next : Option Value → Behaviour Γ)

namespace Awaits

variable {Γ : Library Content}

/-- What the code is told, where the next cell is this one. -/
def reply (g : CellId) : Awaits Γ → Reply
  | generator _ => .made g
  | value _ v _ => .answer (some v)

/-- What the code does next, where the next cell is this one. -/
def onward (g : CellId) : Awaits Γ → Behaviour Γ
  | generator next => next g
  | value _ v next => next (some v)

/-- How many cells are made for that: a new generator gets one for its state. -/
def cells : Awaits Γ → Nat
  | generator _ => 1
  | value .. => 0

end Awaits

/-- The generator has done what it was called for: it has been made, or it answers. -/
def Producer.fulfil {Γ : Library Content} (g : CellId) : Awaits Γ → Producer Γ → Producer Γ
  | .generator _, a => { a with cell := some g }
  | .value _ v _, a => a.answer (some v)

/-- A generator that runs, and the code that waits for it. -/
structure Call (Γ : Library Content) where
  callee : Nat
  item : Known Γ
  awaits : Awaits Γ
  blocks : List (Block (Behaviour Γ))

/-- What happens next. -/
inductive Phase (Γ : Library Content) where
  /-- Code runs: the body of the generator that was called last, or the program itself. -/
  | running (b : Behaviour Γ) (blocks : List (Block (Behaviour Γ)))
  | finished (v : Value)

/-- All generators of a program, and who runs. -/
structure Family (Γ : Library Content) where
  /-- In the order in which they were begun. -/
  producers : List (Producer Γ) := []
  /-- The last call first. -/
  calls : List (Call Γ) := []
  /-- The next cell to be made. -/
  nextCell : CellId
  phase : Phase Γ

namespace Family

variable {Γ : Library Content}

/-- Change a generator. -/
def modify (r : Family Γ) (j : Nat) (f : Producer Γ → Producer Γ) : Family Γ :=
  { r with producers := r.producers.modify j f }

/-- The generator with its state in this cell. -/
def seat? (r : Family Γ) (g : CellId) : Option Nat :=
  r.producers.findIdx? fun a => a.cell == some g

/-- The generator with its state in this cell, after its number. -/
def find? (r : Family Γ) (g : CellId) : Option (Nat × Producer Γ) := do
  let j ← r.seat? g
  return (j, ← r.producers[j]?)

/-- The code that runs goes on. -/
def goOn (r : Family Γ) (b : Behaviour Γ) (blocks : List (Block (Behaviour Γ))) : Family Γ :=
  { r with phase := .running b blocks }

/-- The code that runs is told something. -/
def hear (r : Family Γ) (x : Reply) : Family Γ :=
  match r.calls with
  | [] => r
  | c :: _ => r.modify c.callee (.hear x)

/-- The generator that was called last does not run any more, and the code that has called it goes
on. -/
def giveBack (r : Family Γ) : Family Γ :=
  match r.calls with
  | [] => r
  | c :: calls =>
    ({ r.modify c.callee (.fulfil r.nextCell c.awaits) with
      calls, nextCell := r.nextCell + c.awaits.cells }.hear (c.awaits.reply r.nextCell)).goOn
        (c.awaits.onward r.nextCell) c.blocks

/-- The next action of the code that runs. -/
def act (r : Family Γ) (b : Behaviour Γ) (blocks : List (Block (Behaviour Γ))) : Family Γ :=
  match b with
  | .done v =>
    match Block.after v blocks with
    | some (b', blocks') => r.goOn b' blocks'
    | none =>
      match r.calls with
      | [] => { r with phase := .finished v }
      | c :: _ => (r.modify c.callee (.goOn .ended)).giveBack
  | .yield v next =>
    match r.calls with
    | [] => r.goOn next blocks
    | c :: _ => (r.modify c.callee (.rest v next blocks)).giveBack
  | .make item _ body next =>
    { producers := r.producers ++ [{ item, body := body.void }]
      calls := ⟨r.producers.length, item, .generator next, blocks⟩ :: r.calls
      -- the handler of the generator gets a cell
      nextCell := r.nextCell + 1
      phase := .running body.void [] }
  | .ask g next =>
    match r.find? g with
    | none => (r.hear (.answer none)).goOn (next none) blocks
    | some (j, a) =>
      match a.progress with
      | .resting v b' blocks' =>
        { r.modify j (.goOn .running) with
          calls := ⟨j, a.item, .value g v next, blocks⟩ :: r.calls, phase := .running b' blocks' }
      | .ended => ((r.modify j (.answer none)).hear (.answer none)).goOn (next none) blocks
      | .running | .dropped => (r.hear (.answer none)).goOn (next none) blocks
  | .drop g next =>
    match r.find? g with
    | none => r.goOn next blocks
    | some (j, a) =>
      match a.progress with
      | .resting .. => (r.modify j (.goOn .dropped)).goOn next blocks
      | .running | .ended | .dropped => r.goOn next blocks
  | .loop seed body next => r.goOn (body seed) (.loop ⟨body, next⟩ :: blocks)
  | .scope _ body next => r.goOn body (.scope next :: blocks)
  | .retain _ next | .release _ next | .log _ next => r.goOn next blocks

/-- What happens next. -/
def step (r : Family Γ) : Family Γ :=
  match r.phase with
  | .running b blocks => r.act b blocks
  | .finished _ => r

/-- A program alone, which has not made any generator. -/
def start (nextCell : CellId) (main : Behaviour Γ) : Family Γ where
  nextCell
  phase := .running main []

/-- What has become of a family after so many steps. -/
def run (r : Family Γ) (t : Nat) : Family Γ := step^[t] r

theorem run_succ (r : Family Γ) (t : Nat) : r.run (t + 1) = (r.run t).step :=
  Function.iterate_succ_apply' ..

theorem run_add (r : Family Γ) (t d : Nat) : r.run (t + d) = (r.run t).run d := by
  rw [Nat.add_comm]
  exact Function.iterate_add_apply ..

end Family

end EffectHandlers.Generator

/-!
## Generators yield their own sequences

Whoever asks a generator, and whatever other generators do meanwhile, its body does what it does on
its own: it only depends on what it is told itself. The generator is one value ahead of those who
ask it, so the answers are the values that its body yields.
-/

namespace EffectHandlers.Generator

variable {Γ : Library Content} {a a' : Producer Γ} {b b' : Behaviour Γ}
  {blocks blocks' : List (Block (Behaviour Γ))} {ys ys' : List Value} {v : Value} {x : Reply}
  {c : Call Γ} {calls : List (Call Γ)} {ps ps' : List (Producer Γ)} {r r' : Family Γ} {i j : Nat}
  {g : CellId} {w : Awaits Γ} {f : Producer Γ → Producer Γ}

/-! ### One generator -/

namespace Producer

/-- On its own, the body gets here, and has yielded these values, if it is told what it was told. -/
def Reaches (a : Producer Γ) (ys : List Value) (b : Behaviour Γ)
    (blocks : List (Block (Behaviour Γ))) : Prop :=
  ∃ n, ∀ replies, Solo.step^[n] { code := a.body, replies := a.heard ++ replies } =
    { code := b, blocks, yields := ys, replies }

namespace Reaches

theorem start (item : Known Γ) (body : Behaviour Γ) :
    ({ item, body } : Producer Γ).Reaches [] body [] := ⟨0, fun _ => rfl⟩

theorem step (h : a.Reaches ys b blocks)
    (hstep : ∀ replies, Solo.step ⟨b, blocks, ys, replies⟩ = ⟨b', blocks', ys', replies⟩) :
    a.Reaches ys' b' blocks' := by
  obtain ⟨n, hn⟩ := h
  exact ⟨n + 1, fun replies => by rw [Function.iterate_succ_apply', hn, hstep]⟩

theorem hear (h : a.Reaches ys b blocks)
    (hstep : ∀ replies, Solo.step ⟨b, blocks, ys, x :: replies⟩ = ⟨b', blocks', ys', replies⟩) :
    (a.hear x).Reaches ys' b' blocks' := by
  obtain ⟨n, hn⟩ := h
  refine ⟨n + 1, fun replies => ?_⟩
  have hheard : (a.hear x).heard ++ replies = a.heard ++ x :: replies := by simp [Producer.hear]
  rw [Function.iterate_succ_apply', hheard]
  exact (congrArg Solo.step (hn (x :: replies))).trans (hstep replies)

/-- Only what the body is and what it was told matters. -/
theorem congr (h : a.Reaches ys b blocks) (hbody : a'.body = a.body) (hheard : a'.heard = a.heard) :
    a'.Reaches ys b blocks := by
  unfold Reaches at h ⊢
  rwa [hbody, hheard]

end Reaches

/-- A generator that runs was called for this. It has answered with all that its body has yielded
before the value that is waited for. -/
def Called (a : Producer Γ) : Awaits Γ → Prop
  | .generator _ => a.cell = none ∧ a.answers = [] ∧ a.yields = []
  | .value g v _ => a.cell = some g ∧ a.answers ++ [some v] = a.yields.map some

section Fulfil

variable (g : CellId) (w : Awaits Γ) (a : Producer Γ)

@[simp] theorem fulfil_progress : (a.fulfil g w).progress = a.progress := by cases w <;> rfl

@[simp] theorem fulfil_body : (a.fulfil g w).body = a.body := by cases w <;> rfl

@[simp] theorem fulfil_item : (a.fulfil g w).item = a.item := by cases w <;> rfl

@[simp] theorem fulfil_heard : (a.fulfil g w).heard = a.heard := by cases w <;> rfl

@[simp] theorem fulfil_yields : (a.fulfil g w).yields = a.yields := by cases w <;> rfl

variable {a} in
theorem Reaches.fulfil (h : a.Reaches ys b blocks) : (a.fulfil g w).Reaches ys b blocks :=
  h.congr (fulfil_body g w a) (fulfil_heard g w a)

end Fulfil

/-- A generator that has done what it was called for has answered with all that its body had yielded
before. -/
theorem Called.answers (h : a.Called w) (hsame : a'.answers = a.answers) (g : CellId) :
    (a'.fulfil g w).answers = a.yields.map some := by
  cases w with
  | generator next => simp [fulfil, hsame, h.2.1, h.2.2]
  | value g v next => simp [fulfil, answer, hsame, h.2]

/-- What a generator that does not run has yielded and answered. -/
inductive Settled (a : Producer Γ) : Prop
  | resting {v : Value} {b : Behaviour Γ} {blocks : List (Block (Behaviour Γ))} {ys : List Value}
      (hp : a.progress = .resting v b blocks) (hyields : a.yields = ys ++ [v])
      (hanswers : a.answers = ys.map some) (hreaches : a.Reaches ys (.yield v b) blocks)
  | ended {n : Nat} {v : Value} (hp : a.progress = .ended)
      (hanswers : a.answers = a.yields.map some ++ List.replicate n none)
      (hreaches : a.Reaches a.yields (.done v) [])
  | dropped {v : Value} {b : Behaviour Γ} {blocks : List (Block (Behaviour Γ))} {ys : List Value}
      (hp : a.progress = .dropped) (hyields : a.yields = ys ++ [v])
      (hanswers : a.answers = ys.map some) (hreaches : a.Reaches ys (.yield v b) blocks)

/-- A generator never forgets what it has yielded and answered, and one that has ended or was
dropped yields nothing any more. -/
structure Grows (a a' : Producer Γ) : Prop where
  body : a'.body = a.body
  item : a'.item = a.item
  cell : ∀ g, a.cell = some g → a'.cell = some g
  heard : a.heard <+: a'.heard
  yields : a.yields <+: a'.yields
  answers : a.answers <+: a'.answers
  ended : a.progress = .ended → a'.progress = .ended ∧ a'.yields = a.yields
  dropped : a.progress = .dropped → a' = a

namespace Grows

theorem refl (a : Producer Γ) : a.Grows a :=
  ⟨rfl, rfl, fun _ h => h, List.prefix_rfl, List.prefix_rfl, List.prefix_rfl, fun h => ⟨h, rfl⟩,
    fun _ => rfl⟩

theorem trans {a'' : Producer Γ} (h : a.Grows a') (h' : a'.Grows a'') : a.Grows a'' where
  body := h'.body.trans h.body
  item := h'.item.trans h.item
  cell g hg := h'.cell g (h.cell g hg)
  heard := h.heard.trans h'.heard
  yields := h.yields.trans h'.yields
  answers := h.answers.trans h'.answers
  ended hp := by
    obtain ⟨hp', hyields⟩ := h.ended hp
    obtain ⟨hp'', hyields'⟩ := h'.ended hp'
    exact ⟨hp'', hyields'.trans hyields⟩
  dropped hp := by
    obtain rfl := h.dropped hp
    exact h'.dropped hp

theorem hear (hp : a.progress = .running) : a.Grows (a.hear x) where
  body := rfl
  item := rfl
  cell _ hg := hg
  heard := ⟨[x], rfl⟩
  yields := List.prefix_rfl
  answers := List.prefix_rfl
  ended hended := by cases hp.symm.trans hended
  dropped hdropped := by cases hp.symm.trans hdropped

theorem answer (hp : a.progress ≠ .dropped) (x : Option Value) : a.Grows (a.answer x) where
  body := rfl
  item := rfl
  cell _ hg := hg
  heard := List.prefix_rfl
  yields := List.prefix_rfl
  answers := ⟨[x], rfl⟩
  ended hended := ⟨hended, rfl⟩
  dropped hdropped := absurd hdropped hp

theorem goOn {p : Progress Γ} (hended : a.progress ≠ .ended) (hdropped : a.progress ≠ .dropped) :
    a.Grows (a.goOn p) where
  body := rfl
  item := rfl
  cell _ hg := hg
  heard := List.prefix_rfl
  yields := List.prefix_rfl
  answers := List.prefix_rfl
  ended hp := absurd hp hended
  dropped hp := absurd hp hdropped

theorem rest (hp : a.progress = .running) : a.Grows (a.rest v b blocks) where
  body := rfl
  item := rfl
  cell _ hg := hg
  heard := List.prefix_rfl
  yields := ⟨[v], rfl⟩
  answers := List.prefix_rfl
  ended hended := by cases hp.symm.trans hended
  dropped hdropped := by cases hp.symm.trans hdropped

/-- A generator does what it was called for. -/
theorem fulfil (hcalled : a.Called w) (hp : a'.progress ≠ .dropped) (h : a.Grows a') (g : CellId) :
    a.Grows (a'.fulfil g w) := by
  cases w with
  | generator next => exact { h with
      cell := fun g' hg' => by simp [hcalled.1] at hg'
      dropped := fun hdropped => by
        obtain rfl := h.dropped hdropped
        exact absurd hdropped hp }
  | value g' v next => exact h.trans (.answer hp (some v))

end Grows

/-- The answers of a generator are what its body yields on its own. -/
structure Delivers (a : Producer Γ) : Prop where
  /-- The body does what it does on its own. -/
  alone : ∃ b blocks, a.Reaches a.yields b blocks
  /-- The answer to the call with this number is the value that was yielded with this number, or
  nothing where nothing was. -/
  answers : ∀ k (hk : k < a.answers.length), a.answers[k] = a.yields[k]?
  /-- Where nothing was answered, the body has ended. -/
  nothing : none ∈ a.answers → a.progress = .ended
  /-- The body rests at the yield that comes next, and has done nothing beyond. -/
  resting : ∀ v b blocks, a.progress = .resting v b blocks →
    a.yields.length = a.answers.length + 1 ∧ a.yields.getLast? = some v ∧
      a.Reaches a.yields.dropLast (.yield v b) blocks
  /-- The body has ended, and all that it has yielded was answered. -/
  ended : a.progress = .ended → a.yields.length ≤ a.answers.length ∧
    ∃ v, a.Reaches a.yields (.done v) []
  /-- The answers to a body that yields a sequence are the sequence. -/
  sequence : ∀ f, a.body = (Behaviour.each f).void → ∀ k (hk : k < a.answers.length) v,
    a.answers[k] = some v ↔ (∀ i < k, (f i).isSome = true) ∧ f k = some v

end Producer

/-! ### Bodies that yield a sequence -/

/-- These are the first values of a sequence. -/
def Begins (f : Nat → Option Value) (ys : List Value) : Prop := ∀ i < ys.length, f i = ys[i]?

theorem begins_nil (f : Nat → Option Value) : Begins f [] :=
  fun _ hi => absurd hi (Nat.not_lt_zero _)

theorem Begins.concat {f : Nat → Option Value} (h : Begins f ys) (hv : f ys.length = some v) :
    Begins f (ys ++ [v]) := by
  intro i hi
  rw [List.length_append, List.length_singleton] at hi
  rcases Nat.lt_succ_iff_lt_or_eq.mp hi with hlt | rfl
  · rw [h i hlt, List.getElem?_append_left hlt]
  · rw [hv, List.getElem?_concat_length]

/-- How far the body has got that yields a sequence. -/
inductive Enumerates (f : Nat → Option Value) : Solo Γ → Prop
  | start {replies} : Enumerates f ⟨(Behaviour.each f).void, [], [], replies⟩
  | round {ys replies} (h : Begins f ys) : Enumerates f
      ⟨.round f (.int ys.length), [.loop ⟨.round f, fun _ => .done .unit⟩], ys, replies⟩
  | yielded {ys replies} (h : Begins f ys) : Enumerates f
      ⟨.done (Comp.again (.int ys.length)), [.loop ⟨.round f, fun _ => .done .unit⟩], ys, replies⟩
  | stopped {ys replies} (h : Begins f ys) (hend : f ys.length = none) : Enumerates f
      ⟨.done (Comp.stop .unit), [.loop ⟨.round f, fun _ => .done .unit⟩], ys, replies⟩
  | ended {ys replies} (h : Begins f ys) (hend : f ys.length = none) : Enumerates f
      ⟨.done .unit, [], ys, replies⟩

namespace Enumerates

variable {s : Solo Γ} {f : Nat → Option Value}

theorem step (h : Enumerates f s) : Enumerates f s.step := by
  cases h with
  | start => exact .round (begins_nil f)
  | @round ys replies h =>
    have hnumber : (Value.int ys.length).toInt.toNat = ys.length := Int.toNat_natCast _
    cases hv : f ys.length with
    | none =>
      simp only [Solo.step, Behaviour.round, hnumber, hv, Block.after, Loop.after, Comp.stop]
      exact .ended h hv
    | some v =>
      simp only [Solo.step, Behaviour.round, hnumber, hv]
      have hyielded : Enumerates (Γ := Γ) f ⟨.done (Comp.again (.int (ys ++ [v]).length)),
          [.loop ⟨.round f, fun _ => .done .unit⟩], ys ++ [v], replies⟩ := .yielded (h.concat hv)
      rw [List.length_append] at hyielded
      exact hyielded
  | yielded h => exact .round h
  | stopped h hend => exact .ended h hend
  | ended h hend => exact .ended h hend

theorem iterate (h : Enumerates f s) (n : Nat) : Enumerates f (Solo.step^[n] s) := by
  induction n with
  | zero => exact h
  | succ n ih =>
    rw [Function.iterate_succ_apply']
    exact ih.step

theorem begins (h : Enumerates f s) : Begins f s.yields := by
  cases h with
  | start => exact begins_nil f
  | round h | yielded h | stopped h | ended h => exact h

/-- A sequence that the body has yielded to the end is over. -/
theorem exhausted (h : Enumerates f s) (hcode : s.code = .done v) (hblocks : s.blocks = []) :
    f s.yields.length = none := by
  cases h with
  | start => cases hcode
  | round | yielded | stopped => cases hblocks
  | ended h hend => exact hend

end Enumerates

theorem Producer.Reaches.enumerates {f : Nat → Option Value} (h : a.Reaches ys b blocks)
    (hbody : a.body = (Behaviour.each f).void) :
    Enumerates (Γ := Γ) f ⟨b, blocks, ys, []⟩ := by
  obtain ⟨n, hn⟩ := h
  rw [← hn, hbody]
  exact Enumerates.start.iterate n

/-! ### Answers -/

namespace Producer

theorem answers_getElem {n : Nat} (h : a.answers <+: a.yields.map some ++ List.replicate n none)
    {k : Nat} (hk : k < a.answers.length) : a.answers[k] = a.yields[k]? := by
  have hfound : (a.yields.map some ++ List.replicate n none)[k]? = some a.answers[k] := by
    obtain ⟨rest, hrest⟩ := h
    rw [← hrest, List.getElem?_append_left hk, List.getElem?_eq_getElem hk]
  rw [List.getElem?_append] at hfound
  split at hfound
  · rename_i hlt
    rw [List.length_map] at hlt
    rw [List.getElem?_map, List.getElem?_eq_getElem hlt] at hfound
    rw [List.getElem?_eq_getElem hlt]
    exact (Option.some.inj hfound).symm
  · rename_i hge
    rw [List.length_map] at hge
    rw [List.getElem?_eq_none (Nat.le_of_not_lt hge)]
    exact (List.mem_replicate.mp (List.mem_of_getElem? hfound)).2

namespace Delivers

/-- The answers are those to a sequence if the body yields one, as they are what it has yielded. -/
theorem of_answers {n : Nat} (halone : ∃ b blocks, a.Reaches a.yields b blocks)
    (hanswers : a.answers <+: a.yields.map some ++ List.replicate n none)
    (hnothing : none ∈ a.answers → a.progress = .ended)
    (hresting : ∀ v b blocks, a.progress = .resting v b blocks →
      a.yields.length = a.answers.length + 1 ∧ a.yields.getLast? = some v ∧
        a.Reaches a.yields.dropLast (.yield v b) blocks)
    (hended : a.progress = .ended → a.yields.length ≤ a.answers.length ∧
      ∃ v, a.Reaches a.yields (.done v) []) : a.Delivers where
  alone := halone
  answers _ hk := answers_getElem hanswers hk
  nothing := hnothing
  resting := hresting
  ended := hended
  sequence f hbody k hk v := by
    obtain ⟨b, blocks, hreaches⟩ := halone
    have hbegins := (hreaches.enumerates hbody).begins
    rw [answers_getElem hanswers hk]
    constructor
    · intro hv
      have hlt := (List.getElem?_eq_some_iff.mp hv).1
      refine ⟨fun i hi => ?_, (hbegins k hlt).trans hv⟩
      rw [hbegins i (hi.trans hlt), List.getElem?_eq_getElem (hi.trans hlt)]
      rfl
    · rintro ⟨hbefore, hv⟩
      by_cases hlt : k < a.yields.length
      · exact (hbegins k hlt).symm.trans hv
      · -- the body has ended, so the sequence is over
        have hnone : a.answers[k] = none := by
          rw [answers_getElem hanswers hk, List.getElem?_eq_none (Nat.le_of_not_lt hlt)]
        obtain ⟨-, w, hend⟩ := hended (hnothing (hnone ▸ List.getElem_mem hk))
        have hover : f a.yields.length = none := (hend.enumerates hbody).exhausted rfl rfl
        rcases Nat.lt_or_eq_of_le (Nat.le_of_not_lt hlt) with hbeyond | heq
        · exact absurd (hbefore _ hbeyond) (by simp [hover])
        · rw [heq, hv] at hover
          cases hover

end Delivers

theorem Settled.delivers (h : a.Settled) : a.Delivers := by
  have hwaiting : ∀ {v : Value} {b : Behaviour Γ} {blocks : List (Block (Behaviour Γ))}
      {ys : List Value}, a.yields = ys ++ [v] → a.answers = ys.map some →
      a.Reaches ys (.yield v b) blocks → (∃ b blocks, a.Reaches a.yields b blocks) ∧
        a.answers <+: a.yields.map some ++ List.replicate 0 none ∧ none ∉ a.answers := by
    intro v b blocks ys hyields hanswers hreaches
    refine ⟨⟨b, blocks, ?_⟩, ?_, ?_⟩
    · rw [hyields]
      exact hreaches.step fun _ => rfl
    · rw [hyields, hanswers]
      simp
    · simp [hanswers]
  cases h with
  | @resting v b blocks ys hp hyields hanswers hreaches =>
    obtain ⟨halone, hbegin, hsome⟩ := hwaiting hyields hanswers hreaches
    refine .of_answers halone hbegin (fun hnone => absurd hnone hsome) (fun v' b' blocks' hp' => ?_)
      fun hp' => by cases hp.symm.trans hp'
    cases hp.symm.trans hp'
    simp [hyields, hanswers, hreaches]
  | @ended n v hp hanswers hreaches =>
    refine .of_answers ⟨_, _, hreaches⟩ (n := n) (by rw [hanswers]) (fun _ => hp)
      (fun v' b' blocks' hp' => by cases hp.symm.trans hp')
      fun _ => ⟨by simp [hanswers], v, hreaches⟩
  | @dropped v b blocks ys hp hyields hanswers hreaches =>
    obtain ⟨halone, hbegin, hsome⟩ := hwaiting hyields hanswers hreaches
    exact .of_answers halone hbegin (fun hnone => absurd hnone hsome)
      (fun v' b' blocks' hp' => by cases hp.symm.trans hp') fun hp' => by cases hp.symm.trans hp'

theorem Called.delivers (h : a.Called w) (hp : a.progress = .running)
    (hreaches : a.Reaches a.yields b blocks) : a.Delivers := by
  have hbegin : a.answers <+: a.yields.map some := by
    cases w with
    | generator next => simp [h.2.1]
    | value g v next => exact ⟨_, h.2⟩
  have hsome : none ∉ a.answers := by
    intro hnone
    obtain ⟨y, -, hy⟩ := List.mem_map.mp (hbegin.subset hnone)
    cases hy
  exact .of_answers ⟨b, blocks, hreaches⟩ (n := 0) (by simpa using hbegin)
    (fun hnone => absurd hnone hsome) (fun _ _ _ hp' => by cases hp.symm.trans hp')
    fun hp' => by cases hp.symm.trans hp'

end Producer

end EffectHandlers.Generator
