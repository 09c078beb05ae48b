import EffectHandlers.Proofs.Hosting
import EffectHandlers.Proofs.Loops
/-!
# Bodies and their courses

A body does things of its own, one after the other, each depending on what came of those before; it
may loop, and call procedures. Where it is known what each of these things does to a world, the body
has a course, which no thread takes part in. A thread runs the body along this course as soon as it
does each single thing rightly.
-/

namespace EffectHandlers

/-- What a body does. -/
inductive Body (α π : Type) where
  | done (v : Value)
  | panic (message : String)
  | act (a : α) (next : Value → Body α π)
  | loop (seed : Value) (body next : Value → Body α π)
  | call (p : π) (arg : Value) (next : Value → Body α π)

/-- What the single acts of bodies are in programs, and what their procedures are. -/
structure Vocabulary (ω α π : Type) where
  perform : α → Prog ω Value
  name : π → String
  code : π → Value → Body α π

variable {ω α π σ : Type} {voc : Vocabulary ω α π}

namespace Body

/-- What is done with the result of checked arithmetic. -/
def checked : Except String Int → (Int → Body α π) → Body α π
  | .ok n, next => next n
  | .error text, _ => panic text

/-- The program of a body. -/
def toProg (voc : Vocabulary ω α π) : Body α π → Prog ω Value
  | done v => pure v
  | panic message => Prog.panic message
  | act a next => do (next (← voc.perform a)).toProg voc
  | loop seed body next => do
    (next (← Prog.loop seed fun v => (body v).toProg voc)).toProg voc
  | call p arg next => do (next (← Prog.call (voc.name p) arg)).toProg voc

theorem toProg_checked (r : Except String Int) (next : Int → Body α π) :
    (checked r next).toProg voc = Prog.checked r >>= fun i => (next i).toProg voc := by
  cases r <;> rfl

/-- The code of a body. -/
def code (voc : Vocabulary ω α π) (b : Body α π) : Comp ω := (b.toProg voc).toComp

end Body

/-- The library has the procedures under their names. -/
def Vocabulary.Known (voc : Vocabulary ω α π) (Γ : Library ω) : Prop :=
  ∀ p arg, Γ.procedure (voc.name p) arg = (voc.code p arg).code voc

/-- A body that is under way, in a world of its own. What the acts of a body do in a world, and what
comes of them, is up to a function, which may end the course. -/
structure Course (α π σ : Type) where
  body : Body α π
  blocks : List (Block (Body α π)) := []
  world : σ

namespace Course

variable {procedure : π → Value → Body α π} {acts : α → σ → Option (Value × σ)}
  {c c' : Course α π σ}

/-- The course one step later, unless it is over. -/
def next? (procedure : π → Value → Body α π) (acts : α → σ → Option (Value × σ))
    (c : Course α π σ) :
    Option (Course α π σ) :=
  match c.body with
  | .done v => (Block.after v c.blocks).map fun x => { c with body := x.1, blocks := x.2 }
  | .panic _ => none
  | .act a next => (acts a c.world).map fun x => { c with body := next x.1, world := x.2 }
  | .loop seed body next =>
    some { c with body := body seed, blocks := .loop ⟨body, next⟩ :: c.blocks }
  | .call p arg next => some { c with body := procedure p arg, blocks := .scope next :: c.blocks }

/-- The course some steps later; once it is over, it stays as it is. -/
def run (procedure : π → Value → Body α π) (acts : α → σ → Option (Value × σ)) (c : Course α π σ)
    (t : Nat) : Course α π σ :=
  (fun c => (c.next? procedure acts).getD c)^[t] c

theorem run_succ (c : Course α π σ) (t : Nat) : c.run procedure acts (t + 1) =
    ((c.run procedure acts t).next? procedure acts).getD (c.run procedure acts t) :=
  Function.iterate_succ_apply' ..

theorem run_add (c : Course α π σ) (t u : Nat) :
    c.run procedure acts (t + u) = (c.run procedure acts t).run procedure acts u := by
  rw [Nat.add_comm]
  exact Function.iterate_add_apply ..

/-- The course is not over before this moment. -/
def Lasts (procedure : π → Value → Body α π) (acts : α → σ → Option (Value × σ)) (c : Course α π σ)
    (t : Nat) : Prop := ∀ u < t, ((c.run procedure acts u).next? procedure acts).isSome

theorem run_of_over {t : Nat} (h : (c.run procedure acts t).next? procedure acts = none) (d : Nat) :
    c.run procedure acts (t + d) = c.run procedure acts t := by
  induction d with
  | zero => rfl
  | succ d ih => rw [← Nat.add_assoc, run_succ, ih, h, Option.getD_none]

/-- A course that goes on was not over before. -/
theorem lasts_of_isSome {t : Nat} (h : ((c.run procedure acts t).next? procedure acts).isSome) :
    c.Lasts procedure acts t := by
  intro u hu
  by_contra hover
  obtain ⟨d, hd⟩ := Nat.exists_eq_add_of_lt hu
  rw [hd, Nat.add_assoc, run_of_over (Option.not_isSome_iff_eq_none.mp hover)] at h
  exact hover h

/-- Courses are the same as long as the same comes of what is done on the way. -/
theorem run_congr {acts' : α → σ → Option (Value × σ)} {t : Nat}
    (h : ∀ u < t, (c.run procedure acts u).next? procedure acts' =
      (c.run procedure acts u).next? procedure acts) :
    c.run procedure acts' t = c.run procedure acts t := by
  induction t with
  | zero => rfl
  | succ t ih =>
    rw [run_succ, run_succ, ih fun u hu => h u (Nat.lt_succ_of_lt hu), h t (Nat.lt_succ_self t)]

theorem lasts_congr {acts' : α → σ → Option (Value × σ)} {t : Nat}
    (h : ∀ u < t, (c.run procedure acts u).next? procedure acts' =
      (c.run procedure acts u).next? procedure acts) :
    c.Lasts procedure acts' t ↔ c.Lasts procedure acts t := by
  refine forall₂_congr fun u hu => ?_
  rw [run_congr fun i hi => h i (Nat.lt_trans hi hu), h u hu]

variable (procedure acts) in
/-- Whatever a course gets to, it gets to before it is over. -/
theorem exists_lasts (c : Course α π σ) (t : Nat) :
    ∃ t' ≤ t, c.Lasts procedure acts t' ∧ c.run procedure acts t' = c.run procedure acts t := by
  by_cases hlasts : c.Lasts procedure acts t
  · exact ⟨t, Nat.le_refl t, hlasts, rfl⟩
  have hover : ∃ u, ¬ ((c.run procedure acts u).next? procedure acts).isSome := by
    simp only [Lasts, not_forall] at hlasts
    obtain ⟨u, -, hu⟩ := hlasts
    exact ⟨u, hu⟩
  have hfirst := Nat.find_spec hover
  have hle : Nat.find hover ≤ t := by
    by_contra hlt
    exact hlasts fun u hu => not_not.mp (Nat.find_min hover (by omega))
  refine ⟨Nat.find hover, hle, fun u hu => not_not.mp (Nat.find_min hover hu), ?_⟩
  obtain ⟨d, hd⟩ := Nat.exists_eq_add_of_le hle
  conv => rhs; rw [hd]
  exact (run_of_over (Option.not_isSome_iff_eq_none.mp hfirst) d).symm

/-- What the body has returned. -/
def result? (c : Course α π σ) : Option Value :=
  match c.body, c.blocks with
  | .done v, [] => some v
  | _, _ => none

theorem eq_of_result? {v : Value} (h : c.result? = some v) : c.body = .done v ∧ c.blocks = [] := by
  unfold result? at h
  split at h
  · rename_i hbody hblocks
    exact ⟨Option.some.inj h ▸ hbody, hblocks⟩
  · cases h

end Course

/-! ### Bodies in threads -/

/-- The activation of a block. -/
def Block.activation (voc : Vocabulary ω α π) : Block (Body α π) → Activation ω
  | .loop l => .looping (fun v => (l.body v).code voc) fun v => (l.next v).code voc
  | .scope next => .bind fun v => (next v).code voc

/-- Blocks own nothing. -/
theorem Block.flatMap_owned (blocks : List (Block (Body α π))) :
    (blocks.map (Block.activation voc)).flatMap Activation.owned = [] := by
  induction blocks with
  | nil => rfl
  | cons b rest ih => cases b <;> exact ih

variable [Contents ω] {Γ : Library ω} {s : Outline ω}

/-- The activations of blocks go on as the blocks do. -/
theorem Outline.Gets.after {v : Value} {blocks blocks' : List (Block (Body α π))} {b : Body α π}
    {B : List (Activation ω)} (h : Block.after v blocks = some (b, blocks')) :
    (s.on (blocks.map (Block.activation voc) ++ B) (.ret v)).Gets Γ fun s' =>
      s' = s.on (blocks'.map (Block.activation voc) ++ B) (.eval (b.code voc)) := by
  cases blocks with
  | nil => cases h
  | cons block rest =>
    cases block with
    | scope next =>
      obtain ⟨rfl, rfl⟩ := Prod.mk.inj (Option.some.inj h)
      exact .last (fun _ _ => rfl) fun _ => rfl
    | loop l =>
      obtain ⟨⟨b', loops⟩, hloop, heq⟩ := Option.map_eq_some_iff.mp h
      obtain ⟨rfl, rfl⟩ := Prod.mk.inj heq
      have hstep : ∀ y, ((s.on ((Block.loop l :: rest).map (Block.activation voc) ++ B)
          (.ret v)).machine y).step Γ =
          (s.on ((loops.map Block.loop ++ rest).map (Block.activation voc) ++ B)
            (.eval (b'.code voc))).machine y := by
        intro y
        cases v with
        | pair flag seed =>
          cases flag with
          | bool again =>
            cases again <;>
              · obtain ⟨rfl, rfl⟩ := Prod.mk.inj (Option.some.inj hloop)
                rfl
          | _ =>
            obtain ⟨rfl, rfl⟩ := Prod.mk.inj (Option.some.inj hloop)
            rfl
        | _ =>
          obtain ⟨rfl, rfl⟩ := Prod.mk.inj (Option.some.inj hloop)
          rfl
      refine .last (fun y _ => ?_) fun _ => rfl
      rw [hstep]
      rfl

/-- Where this outline is a picture of a world, threads do what the acts of bodies do. -/
structure Vocabulary.Enacts (voc : Vocabulary ω α π) (Γ : Library ω)
    (acts : α → σ → Option (Value × σ)) (At : σ → Outline ω → Prop) : Prop where
  known : voc.Known Γ
  act : ∀ {w w' : σ} {a : α} {v : Value} {s : Outline ω} {S : List (Activation ω)}
    {next : Value → Comp ω}, At w s → acts a w = some (v, w') →
      (s.on S (.eval (voc.perform a next))).Gets Γ fun s' =>
        ∃ s'', At w' s'' ∧ s' = s''.on S (.eval (next v))

namespace Course

variable {acts : α → σ → Option (Value × σ)} {At : σ → Outline ω → Prop} {B : List (Activation ω)}
  {c c' : Course α π σ}

/-- The outline shows a body under way, with its world. -/
def Shown (voc : Vocabulary ω α π) (At : σ → Outline ω → Prop) (B : List (Activation ω))
    (c : Course α π σ) (s : Outline ω) : Prop :=
  ∃ s₀, At c.world s₀ ∧
    s = s₀.on (c.blocks.map (Block.activation voc) ++ B) (.eval (c.body.code voc))

/-- A thread takes one step of a course after the other. -/
theorem Shown.gets (h : c.Shown voc At B s) (henacts : voc.Enacts Γ acts At)
    (hnext : c.next? voc.code acts = some c') : s.Gets Γ (c'.Shown voc At B) := by
  obtain ⟨s₀, hat, rfl⟩ := h
  obtain ⟨body, blocks, w⟩ := c
  cases body with
  | done v =>
    obtain ⟨⟨b, blocks'⟩, hafter, rfl⟩ := Option.map_eq_some_iff.mp hnext
    exact .done ((Outline.Gets.after hafter).mono fun s' heq _ => ⟨s₀, hat, heq⟩)
  | panic message => cases hnext
  | act a next =>
    obtain ⟨⟨v, w'⟩, hacts, rfl⟩ := Option.map_eq_some_iff.mp hnext
    exact (henacts.act hat hacts).mono fun s' h _ => h
  | loop seed body next =>
    obtain rfl := Option.some.inj hnext
    exact .last (fun _ _ => rfl) fun _ => ⟨s₀, hat, rfl⟩
  | call p arg next =>
    obtain rfl := Option.some.inj hnext
    refine .last (t := s₀.on ((.scope next :: blocks).map (Block.activation voc) ++ B)
      (.eval (Γ.procedure (voc.name p) arg))) (fun _ _ => rfl) fun _ => ⟨s₀, hat, ?_⟩
    rw [henacts.known]

/-- A thread runs a body along its course. -/
theorem Shown.exists_clock {m : Machine ω} (h : c.Shown voc At B m.outline) (hm : m.Numbered)
    (henacts : voc.Enacts Γ acts At) : ∃ clock : Nat → Nat, StrictMono clock ∧
      ∀ t, c.Lasts voc.code acts t →
        (c.run voc.code acts t).Shown voc At B (m.run Γ (clock t)).outline := by
  have hstep : ∀ t n, ∃ n', n < n' ∧
      ∀ c', (c.run voc.code acts t).next? voc.code acts = some c' →
        (c.run voc.code acts t).Shown voc At B (m.run Γ n).outline →
        c'.Shown voc At B (m.run Γ n').outline := by
    intro t n
    by_cases hshown : (c.run voc.code acts t).Shown voc At B (m.run Γ n).outline
    · cases hnext : (c.run voc.code acts t).next? voc.code acts with
      | none => exact ⟨n + 1, Nat.lt_succ_self n, fun c' h => by cases h⟩
      | some c' =>
        obtain ⟨k, hk, hgets⟩ := hshown.gets henacts hnext _ (hm.run n) rfl
        rw [← Machine.run_add] at hgets
        refine ⟨n + k, Nat.lt_add_of_pos_right hk, fun c'' heq _ => ?_⟩
        exact Option.some.inj heq ▸ hgets
    · exact ⟨n + 1, Nat.lt_succ_self n, fun _ _ h => absurd h hshown⟩
  choose later hlater hgets using hstep
  let clock : Nat → Nat := fun t => Nat.rec 0 (fun t n => later t n) t
  refine ⟨clock, strictMono_nat_of_lt_succ fun t => hlater t (clock t), fun t ht => ?_⟩
  induction t with
  | zero => exact h
  | succ t ih =>
    obtain ⟨c', hc'⟩ := Option.isSome_iff_exists.mp (ht t (Nat.lt_succ_self t))
    rw [run_succ, hc']
    exact hgets t (clock t) c' hc' (ih fun u hu => ht u (Nat.lt_succ_of_lt hu))

end Course

end EffectHandlers
