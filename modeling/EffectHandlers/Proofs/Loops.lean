import EffectHandlers.Proofs.Leading
/-!
# Loops of scripted programs

A script says what a program does, action by action. Where a script loops, the loops that are running
are kept beside it, the innermost first.
-/

namespace EffectHandlers

/-- A loop that is running: what its body does, and what is done after it. -/
structure Loop (β : Type) where
  body : Value → β
  next : Value → β

namespace Loop

variable {ω β : Type}

/-- How a script goes on after the end of a loop body, if it was one. -/
def after (v : Value) : List (Loop β) → Option (β × List (Loop β))
  | [] => none
  | l :: rest =>
    match v with
    | .pair (.bool true) seed => some (l.body seed, l :: rest)
    | .pair _ result => some (l.next result, rest)
    | _ => some (l.next v, rest)

theorem after_eq_none {v : Value} {loops : List (Loop β)} : after v loops = none ↔ loops = [] := by
  cases loops with
  | nil => simp [after]
  | cons l rest =>
    simp only [after]
    split <;> simp

/-- The frame of a loop, where scripts are programs. -/
def frame (code : β → Prog ω Value) (l : Loop β) : Frame ω :=
  .looping (fun v => (code (l.body v)).toComp) fun v => (code (l.next v)).toComp

theorem frame_code (code : β → Prog ω Value) (loops : List (Loop β)) :
    ∀ f ∈ loops.map (frame code), f.isCode = true := by
  intro f hf
  obtain ⟨l, -, rfl⟩ := List.mem_map.mp hf
  rfl

end Loop

/-- What is under way in a scripted program: a loop, or a part that is done before what follows. -/
inductive Block (β : Type) where
  | loop (l : Loop β)
  | scope (next : Value → β)

namespace Block

variable {ω β : Type}

/-- How a script goes on after the end of its innermost block, if there was one. -/
def after (v : Value) : List (Block β) → Option (β × List (Block β))
  | [] => none
  | .scope next :: rest => some (next v, rest)
  | .loop l :: rest => (Loop.after v [l]).map fun x => (x.1, x.2.map .loop ++ rest)

theorem after_eq_none {v : Value} {blocks : List (Block β)} : after v blocks = none ↔ blocks = [] := by
  cases blocks with
  | nil => simp [after]
  | cons b rest =>
    cases b with
    | scope next => simp [after]
    | loop l => simp [after, Loop.after_eq_none]

/-- The frame of a block, where scripts are programs. -/
def frame (code : β → Prog ω Value) : Block β → Frame ω
  | .loop l => l.frame code
  | .scope next => .bind fun v => (code (next v)).toComp

theorem frame_code (code : β → Prog ω Value) (blocks : List (Block β)) :
    ∀ f ∈ blocks.map (frame code), f.isCode = true := by
  intro f hf
  obtain ⟨b, -, rfl⟩ := List.mem_map.mp hf
  cases b <;> rfl

end Block

namespace Evaluation

variable {ω β : Type} [Inhabited ω] {Γ : Library ω} {P : Store ω → Prop} {R : Evaluation ω → Prop}
  {s : Evaluation ω} {F : List (Frame ω)}

/-- The body of a loop has ended. -/
theorem Leads.after {code : β → Prog ω Value} {v : Value} {loops loops' : List (Loop β)} {b : β}
    (hP : P s.cells) (hframes : s.frames = loops.map (Loop.frame code) ++ F)
    (hafter : Loop.after v loops = some (b, loops'))
    (h : Leads Γ P R (({ s with frames := loops'.map (Loop.frame code) ++ F } : Evaluation ω).goOn
      (.eval (code b).toComp))) : Leads Γ P R (s.goOn (.ret v)) := by
  cases loops with
  | nil => cases hafter
  | cons l rest =>
    refine .of_step hP ?_ h
    simp only [step, give, goOn, hframes, List.map_cons, List.cons_append, Loop.frame]
    cases v with
    | pair flag seed =>
      cases flag with
      | bool b' =>
        cases b' <;>
          · obtain ⟨rfl, rfl⟩ := Prod.mk.inj (Option.some.inj hafter)
            rfl
      | _ =>
        obtain ⟨rfl, rfl⟩ := Prod.mk.inj (Option.some.inj hafter)
        rfl
    | _ =>
      obtain ⟨rfl, rfl⟩ := Prod.mk.inj (Option.some.inj hafter)
      rfl

/-- A block has ended. -/
theorem Leads.after_block {code : β → Prog ω Value} {v : Value} {blocks blocks' : List (Block β)}
    {b : β} (hP : P s.cells) (hframes : s.frames = blocks.map (Block.frame code) ++ F)
    (hafter : Block.after v blocks = some (b, blocks'))
    (h : Leads Γ P R (({ s with frames := blocks'.map (Block.frame code) ++ F } :
      Evaluation ω).goOn (.eval (code b).toComp))) : Leads Γ P R (s.goOn (.ret v)) := by
  cases blocks with
  | nil => cases hafter
  | cons block rest =>
    cases block with
    | scope next =>
      obtain ⟨rfl, rfl⟩ := Prod.mk.inj (Option.some.inj hafter)
      exact .bind hP hframes h
    | loop l =>
      obtain ⟨⟨b', loops⟩, hloop, heq⟩ := Option.map_eq_some_iff.mp hafter
      obtain ⟨rfl, rfl⟩ := Prod.mk.inj heq
      have hframes' : s.frames = [l].map (Loop.frame code) ++ (rest.map (Block.frame code) ++ F) :=
        hframes
      refine .after hP hframes' hloop ?_
      have hsame : loops.map (Loop.frame code) ++ (rest.map (Block.frame code) ++ F) =
          (loops.map Block.loop ++ rest).map (Block.frame code) ++ F := by
        simp [Block.frame, Function.comp_def]
      rw [hsame]
      exact h

end Evaluation

end EffectHandlers
