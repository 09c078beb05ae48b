import EffectHandlers.Proofs.Calls
/-!
# Evaluations that keep families of generators

## Evaluations keep families of generators

What an evaluation looks like while it does what a family says. A cell holds the state of each
generator. One that rests has a resumption, of the code in which it has yielded, below which its
installation stands. Those who run stand one upon the other in the context, each on its own
installation and on the code that waits for it.
-/

namespace EffectHandlers.Generator

open Evaluation (Leads Turns)

variable {Γ : Library Content} {a a' : Producer Γ} {b : Behaviour Γ}
  {blocks : List (Block (Behaviour Γ))} {v : Value} {x : Reply} {c : Call Γ}
  {calls : List (Call Γ)} {r r' : Family Γ} {i j : Nat} {g : CellId} {w : Awaits Γ}
  {item : Known Γ} {s s' : Evaluation Content} {ρ ρ' : Nat → ResumptionId}
  {ids ids' : Nat → InstallationId}

/-! ### Code -/

/-- The label of the generator with this number. -/
def label (j : Nat) : Int := -1 - j

/-- The generator with this number, as its body knows it. -/
def home (j : Nat) (item : Known Γ) : Home := some (item.name, label j)

/-- The generator that runs, as its body knows it. -/
def homeOf : List (Call Γ) → Home
  | [] => none
  | c :: _ => home c.callee c.item

/-- The frames of the blocks that are under way. -/
def frames (self : Home) (blocks : List (Block (Behaviour Γ))) : List (Frame Content) :=
  blocks.map (Block.frame fun b => b.toTask self)

theorem frames_code (self : Home) (blocks : List (Block (Behaviour Γ))) :
    ∀ f ∈ frames self blocks, f.isCode = true := Block.frame_code _ blocks

/-- What code does with the state of the generator that it has waited for. -/
def Awaits.back (self : Home) : Awaits Γ → Value → Comp Content
  | .generator next, state => .alloc (.value state) fun g => (next g).code self
  | .value g v next, state => .write g (.value state) ((next (some v)).code self)

/-- The frames below the code that runs. -/
def under (ids : Nat → InstallationId) : List (Call Γ) → List (Frame Content)
  | [] => []
  | c :: calls =>
    .handling (ids c.callee) :: .bind (c.awaits.back (homeOf calls)) ::
      (frames (homeOf calls) c.blocks ++ under ids calls)

/-- What a generator goes on with that rests. -/
def continuation (j : Nat) (item : Known Γ) (id : InstallationId) (b : Behaviour Γ)
    (blocks : List (Block (Behaviour Γ))) : Continuation Content :=
  .context (handler item.name).answer
    (.bind (fun _ => b.code (home j item)) :: frames (home j item) blocks ++ [.handling id])

/-- The state of a generator, where it goes on with this resumption if it rests. -/
def stateOf (ρ : ResumptionId) : Progress Γ → Value
  | .resting v _ _ => .present (.pair v (.resumption ρ))
  | _ => .absent

/-- Whether a cell holds the state of a generator that rests. -/
def holdsState : Content → Bool
  | .value (.present (.pair _ (.resumption _))) => true
  | _ => false

/-- The handler of a generator, with its instance in this cell. -/
def handlerAt (j : Nat) (item : Known Γ) (c : CellId) : Handler :=
  ⟨label j, handlerName item.name, handlerName item.name, c⟩

/-- Whether a generator has not ended and was not dropped. -/
def Progress.isAlive : Progress Γ → Bool
  | .running | .resting .. => true
  | .ended | .dropped => false

/-! ### What is stored -/

/-- What is kept of one generator: its state, its resumption and its handler. -/
structure Kept (cells : Store Content) (resumptions : Store (Continuation Content))
    (installed : Store Handler) (ρ : ResumptionId) (id : InstallationId) (j : Nat)
    (a : Producer Γ) : Prop where
  state : ∀ g, a.cell = some g → cells.find? g = some (.value (stateOf ρ a.progress))
  rest : ∀ v b blocks, a.progress = .resting v b blocks →
    resumptions.find? ρ = some (continuation j a.item id b blocks)
  handled : a.progress.isAlive = true → ∃ c, installed.find? id = some (handlerAt j a.item c)

/-- What an evaluation keeps that enacts a family. -/
structure Keeps (r : Family Γ) (s : Evaluation Content) (ρ : Nat → ResumptionId)
    (ids : Nat → InstallationId) : Prop where
  each : ∀ (j : Nat) (a : Producer Γ), r.producers[j]? = some a →
    Kept s.cells s.resumptions s.installed (ρ j) (ids j) j a
  others : ∀ c x, s.cells.find? c = some x → holdsState x = true →
    ∃ (j : Nat) (a : Producer Γ), r.producers[j]? = some a ∧ a.cell = some c
  nextCell : s.cells.next = r.nextCell
  nextLabel : s.nextLabel = label r.producers.length
  pending : s.pending = none
  cells : s.cells.WellFormed
  resumptions : s.resumptions.WellFormed
  installed : s.installed.WellFormed

/-- Contents of cells show a family, as far as the cells are there. -/
def Family.Visible (r : Family Γ) (contents : CellId → Option Content) : Prop :=
  ∃ ρ : Nat → ResumptionId, ∀ (j : Nat) (a : Producer Γ) (g : CellId), r.producers[j]? = some a →
    a.cell = some g → ∀ x, contents g = some x → x = .value (stateOf (ρ j) a.progress)

/-- Cells show a family, as far as they are there. -/
def Family.Shown (r : Family Γ) (cells : Store Content) : Prop := r.Visible cells.find?

/-- An evaluation enacts a family. -/
inductive Enacted (r : Family Γ) (s : Evaluation Content) : Prop
  | running {b : Behaviour Γ} {blocks : List (Block (Behaviour Γ))} {ρ : Nat → ResumptionId}
      {ids : Nat → InstallationId} (hphase : r.phase = .running b blocks) (h : Keeps r s ρ ids)
      (hframes : s.frames = frames (homeOf r.calls) blocks ++ under ids r.calls)
      (hs : s.phase = .eval (b.code (homeOf r.calls)))
  | finished {v : Value} (hphase : r.phase = .finished v) (h : r.Shown s.cells)
      (hs : s.phase = .finished v)

/-! ### One generator -/

namespace Kept

variable {cells cells' : Store Content} {resumptions resumptions' : Store (Continuation Content)}
  {installed installed' : Store Handler} {ρ : ResumptionId} {id : InstallationId}

/-- Only where it is, how far it has got, and what it yields matters of a generator. -/
theorem congr (h : Kept cells resumptions installed ρ id j a) (hcell : a'.cell = a.cell)
    (hitem : a'.item = a.item) (hprogress : a'.progress = a.progress) :
    Kept cells resumptions installed ρ id j a' where
  state := by rw [hcell, hprogress]; exact h.state
  rest := by rw [hitem, hprogress]; exact h.rest
  handled := by rw [hitem, hprogress]; exact h.handled

/-- What does not belong to the generator may change. -/
theorem mono (h : Kept cells resumptions installed ρ id j a)
    (hcells : ∀ g, a.cell = some g → cells'.find? g = cells.find? g)
    (hresumptions : ∀ v b blocks, a.progress = .resting v b blocks → ∀ k,
      resumptions.find? ρ = some k → resumptions'.find? ρ = some k)
    (hinstalled : a.progress.isAlive = true → ∀ h₀, installed.find? id = some h₀ →
      installed'.find? id = some h₀) : Kept cells' resumptions' installed' ρ id j a where
  state g hg := (hcells g hg).trans (h.state g hg)
  rest v b blocks hp := hresumptions v b blocks hp _ (h.rest v b blocks hp)
  handled halive := by
    obtain ⟨c, hc⟩ := h.handled halive
    exact ⟨c, hinstalled halive _ hc⟩

end Kept

/-! ### All of them -/

theorem label_injective (h : label i = label j) : i = j := by
  unfold label at h
  omega

namespace Keeps

theorem shown (h : Keeps r s ρ ids) : r.Shown s.cells :=
  ⟨ρ, fun j a g ha hg _ hx => Option.some.inj (hx.symm.trans ((h.each j a ha).state g hg))⟩

/-- Generators that are alive have different installations. -/
theorem ids_ne (h : Keeps r s ρ ids) (ha : r.producers[i]? = some a)
    (ha' : r.producers[j]? = some a') (halive : a.progress.isAlive = true)
    (halive' : a'.progress.isAlive = true) (hij : i ≠ j) : ids i ≠ ids j := by
  obtain ⟨c, hc⟩ := (h.each i a ha).handled halive
  obtain ⟨c', hc'⟩ := (h.each j a' ha').handled halive'
  intro heq
  rw [heq, hc'] at hc
  exact hij (label_injective (congrArg Handler.label (Option.some.inj hc)).symm)

/-- Generators that rest have different resumptions. -/
theorem resumption_ne {v' : Value} {b' : Behaviour Γ} {blocks' : List (Block (Behaviour Γ))}
    (h : Keeps r s ρ ids) (ha : r.producers[i]? = some a) (ha' : r.producers[j]? = some a')
    (hp : a.progress = .resting v b blocks) (hp' : a'.progress = .resting v' b' blocks')
    (hij : i ≠ j) : ρ i ≠ ρ j := by
  intro heq
  have hrest := (h.each i a ha).rest v b blocks hp
  rw [heq, (h.each j a' ha').rest v' b' blocks' hp'] at hrest
  have hlast := congrArg List.getLast? (Continuation.context.inj (Option.some.inj hrest)).2
  rw [List.getLast?_concat, List.getLast?_concat] at hlast
  exact h.ids_ne ha ha' (by rw [hp]; rfl) (by rw [hp']; rfl) hij
    (Frame.handling.inj (Option.some.inj hlast)).symm

/-- The code that runs goes on. -/
theorem goOn (h : Keeps r s ρ ids) : Keeps (r.goOn b blocks) s ρ ids := { h with }

/-- What does not show may change in a generator. -/
theorem modify {f : Producer Γ → Producer Γ} (h : Keeps r s ρ ids)
    (hf : ∀ a, (f a).cell = a.cell ∧ (f a).item = a.item ∧ (f a).progress = a.progress) :
    Keeps (r.modify j f) s ρ ids := by
  refine { h with
    each := fun i a ha => ?_
    others := fun k y hy hstate => ?_
    nextLabel := ?_ }
  · rcases of_getElem?_modify ha with ⟨rfl, a₀, ha₀, rfl⟩ | ⟨-, ha⟩
    · obtain ⟨hcell, hitem, hprogress⟩ := hf a₀
      exact (h.each _ a₀ ha₀).congr hcell hitem hprogress
    · exact h.each i a ha
  · obtain ⟨i, a, ha, hcell⟩ := h.others k y hy hstate
    refine ⟨i, _, exists_getElem?_modify ha, ?_⟩
    split
    · exact (hf a).1.trans hcell
    · exact hcell
  · show s.nextLabel = label (r.producers.modify _ _).length
    rw [List.length_modify]
    exact h.nextLabel

/-- The code that runs is told something. -/
theorem hear (h : Keeps r s ρ ids) : Keeps (r.hear x) s ρ ids := by
  unfold Family.hear
  cases r.calls with
  | nil => exact h
  | cons c calls => exact h.modify fun _ => ⟨rfl, rfl, rfl⟩

/-- Where there is no state of a generator that rests, nothing is lost. -/
theorem clear (h : Keeps r s ρ ids)
    (hg : ∀ x, s.cells.find? g = some x → holdsState x = false) :
    Keeps r { s with cells := s.cells.modify g fun _ => .value .absent } ρ ids := by
  refine { h with
    each := fun j a ha => ?_
    others := fun k x hx hstate => ?_
    cells := Store.wellFormed_modify h.cells _ _ }
  · have hkept := h.each j a ha
    refine { hkept with state := fun k hk => ?_ }
    have hstate := hkept.state k hk
    show Store.find? (s.cells.modify g _) k = _
    rw [Store.find?_modify]
    split
    · rename_i heq
      have hnone := hg _ (heq ▸ hstate)
      rw [hstate]
      cases hp : a.progress with
      | resting v b blocks => simp [hp, stateOf, holdsState] at hnone
      | running | ended | dropped => rfl
    · exact hstate
  · have hx' : (s.cells.modify g fun _ => .value .absent).find? k = some x := hx
    rw [Store.find?_modify] at hx'
    split at hx'
    · obtain ⟨y, -, rfl⟩ := Option.map_eq_some_iff.mp hx'
      cases hstate
    · exact h.others k x hx' hstate

end Keeps

theorem Enacted.shown (h : Enacted r s) : r.Shown s.cells := by
  cases h with
  | running _ hkeeps => exact hkeeps.shown
  | finished _ h => exact h

end EffectHandlers.Generator

/-!
## How generators are asked

Each step of a family is followed in the evaluation that enacts it. The cells show the family before
the step up to one operation, and the family after the step from then on.
-/

namespace EffectHandlers.Generator

open Evaluation (Leads Turns)

variable {Γ : Library Content} {P Q : Store Content → Prop} {R : Evaluation Content → Prop}
  {a a' : Producer Γ} {b b' : Behaviour Γ} {blocks blocks' : List (Block (Behaviour Γ))}
  {v : Value} {c : Call Γ} {calls : List (Call Γ)} {r r' : Family Γ} {i j : Nat} {g : CellId}
  {item : Known Γ} {s s' : Evaluation Content} {ρ ρ' : Nat → ResumptionId}
  {ids ids' : Nat → InstallationId} {f : Producer Γ → Producer Γ} {self : Home}

/-! ### Handlers -/

/-- The clause for yielding. -/
def yieldClause (v : Value) (k : ResumptionId) : Comp Content :=
  .take k fun k => .done (.present (.pair v (.resumption k)))

theorem clauseFor_yield (j : Nat) (item : Known Γ) (c : CellId) :
    (handlerAt j item c).clauseFor? Γ (yieldCommand item.name) =
      some (.noManage fun _ v k => yieldClause v k) := by
  have hfound : (handler item.name).clauses.find? (·.command == yieldCommand item.name) =
      (handler item.name).clauses.head? := List.find?_cons_of_pos (beq_self_eq_true _)
  simp only [handlerAt, Handler.clauseFor?]
  rw [Known.name, item.2, ← Known.name, hfound]
  rfl

theorem answer_handler (j : Nat) (item : Known Γ) (c : CellId) :
    (Γ.handlerType (handlerAt j item c).handlerType).answer = (handler item.name).answer := by
  simp only [handlerAt, Known.name, item.2]

theorem onReturn_handler (j : Nat) (item : Known Γ) (c : CellId) :
    (Γ.handlerType (handlerAt j item c).handlerType).onReturn (handlerAt j item c).cell v =
      .done .absent := by
  simp only [handlerAt, Known.name, item.2]
  rfl

theorem exists_declare (s : Evaluation Content) (item : Known Γ) :
    ∃ declared, s.declare (handlerName item.name) (Γ.handlerType (handlerName item.name)) =
      .ok declared := by
  simp only [Known.name, item.2]
  unfold Evaluation.declare
  split
  · exact ⟨_, rfl⟩
  · exact ⟨_, rfl⟩

/-! ### Labels -/

/-- So many labels can be handed out. -/
def labelCount : Nat := 9223372036854775807

theorem label_real (h : j < labelCount) : label j ≠ bottomLabel ∧ label j ≠ retiredLabel := by
  unfold labelCount at h
  unfold label bottomLabel retiredLabel
  omega

theorem chooseLabel_label (h : j < labelCount) (hs : s.nextLabel = label (j + 1)) :
    s.chooseLabel (some (label j)) = .ok (label j, label (j + 1)) := by
  obtain ⟨hbottom, hretired⟩ := label_real h
  have hissued : s.isIssued (label j) = true := by
    have hlt : label j > s.nextLabel := by
      rw [hs]
      unfold label
      omega
    simp [Evaluation.isIssued, hretired, hlt]
  simp [Evaluation.chooseLabel, hbottom, hretired, hissued, hs]

/-! ### Giving back -/

/-- The cells after the state was put where it belongs. -/
def Awaits.stored (state : Value) (cells : Store Content) : Awaits Γ → Store Content
  | .generator _ => (cells.insert (.value state)).2
  | .value g _ _ => cells.modify g fun _ => .value state

/-- The cell to which it belongs, where the next cell is this one. -/
def Awaits.place (n : CellId) : Awaits Γ → CellId
  | .generator _ => n
  | .value g _ _ => g

section Stored

variable {w : Awaits Γ} {cells : Store Content} {state : Value} {n : CellId}

theorem Awaits.find?_stored (h : ∀ g v next, w = .value g v next → (cells.find? g).isSome = true)
    (k : CellId) : (w.stored state cells).find? k =
      if k = w.place cells.next then some (.value state) else cells.find? k := by
  cases w with
  | generator next => exact Store.find?_insert ..
  | value g v next =>
    obtain ⟨x, hx⟩ := Option.isSome_iff_exists.mp (h g v next rfl)
    refine (Store.find?_modify ..).trans ?_
    by_cases hk : k = g
    · simp [Awaits.place, hk, hx]
    · simp [Awaits.place, hk]

theorem Awaits.stored_next : (w.stored state cells).next = cells.next + w.cells := by
  cases w <;> rfl

theorem Awaits.wellFormed_stored (h : cells.WellFormed) : (w.stored state cells).WellFormed := by
  cases w with
  | generator next => exact Store.wellFormed_insert h _
  | value g v next => exact Store.wellFormed_modify h _ _

theorem Producer.Called.cell_fulfil (h : a.Called w) (hcell : a'.cell = a.cell) (n : CellId) :
    (a'.fulfil n w).cell = some (w.place n) := by
  cases w with
  | generator next => rfl
  | value g v next => exact hcell.trans h.1

/-- A generator that was called keeps the cell that it has, if it has one. -/
theorem Producer.Called.place_eq (h : a.Called w) (hcell : a.cell = some g) (n : CellId) :
    w.place n = g := by
  cases w with
  | generator next => simp [h.1] at hcell
  | value g' v next => exact Option.some.inj (h.1.symm.trans hcell)

theorem Housed.place_ne {ps : List (Producer Γ)} (h : Housed ps n) (ha : ps[i]? = some a)
    (hcalled : a.Called w) (ha' : ps[j]? = some a') (hcell : a'.cell = some g) (hij : i ≠ j) :
    g ≠ w.place n := by
  cases w with
  | generator next => exact Nat.ne_of_lt (h.older j a' g ha' hcell)
  | value g' v next =>
    rintro rfl
    exact hij (h.distinct i j a a' _ ha ha' hcalled.1 hcell)

end Stored

theorem turns_back (w : Awaits Γ) {state : Value} (hP : P s.cells)
    (h : Leads Γ Q R (({ s with cells := w.stored state s.cells } : Evaluation Content).goOn
      (.eval ((w.onward s.cells.next).code self)))) :
    Turns Γ P Q R (s.goOn (.eval (w.back self state))) := by
  cases w with
  | generator next => exact .turns hP rfl h
  | value g v next => exact .turns hP rfl h

/-- The code below the generator that was called last. -/
theorem under_cons (ids : Nat → InstallationId) (c : Call Γ) (calls : List (Call Γ)) :
    under ids (c :: calls) = .handling (ids c.callee) :: .bind (c.awaits.back (homeOf calls)) ::
      (frames (homeOf calls) c.blocks ++ under ids calls) := rfl

theorem under_congr (h : ∀ c ∈ calls, ids' c.callee = ids c.callee) :
    under ids' calls = under ids calls := by
  induction calls with
  | nil => rfl
  | cons c calls ih =>
    rw [under_cons, under_cons, h c List.mem_cons_self,
      ih fun c' hc' => h c' (List.mem_cons_of_mem _ hc')]

namespace Keeps

/-- A generator has stopped and given back control: its state is where it belongs. -/
theorem pop (h : Keeps r s ρ ids) (hhoused : Housed r.producers r.nextCell)
    (ha : r.producers[c.callee]? = some a) (hcalled : a.Called c.awaits)
    (hf : (f a).cell = a.cell ∧ (f a).item = a.item)
    (hcells : s'.cells = c.awaits.stored (stateOf (ρ' c.callee) (f a).progress) s.cells)
    (hothers : ∀ k, k ≠ c.callee → ρ' k = ρ k)
    (hrest : ∀ v b blocks, (f a).progress = .resting v b blocks →
      s'.resumptions.find? (ρ' c.callee) =
        some (continuation c.callee a.item (ids c.callee) b blocks))
    (hhandled : (f a).progress.isAlive = true →
      ∃ k, s'.installed.find? (ids c.callee) = some (handlerAt c.callee a.item k))
    (hresumptions : ∀ k x, s.resumptions.find? k = some x → s'.resumptions.find? k = some x)
    (hinstalled : ∀ (j : Nat) (a' : Producer Γ), r.producers[j]? = some a' → j ≠ c.callee →
      a'.progress.isAlive = true → ∀ h₀, s.installed.find? (ids j) = some h₀ →
        s'.installed.find? (ids j) = some h₀)
    (hlabel : s'.nextLabel = s.nextLabel) (hpending : s'.pending = none)
    (hwf : s'.resumptions.WellFormed) (hwf' : s'.installed.WellFormed) :
    Keeps (r.pop c calls f) s' ρ' ids := by
  have hplace : ((r.pop c calls f).producers)[c.callee]? =
      some ((f a).fulfil r.nextCell c.awaits) := getElem?_modify_self ha
  have hcell := hcalled.cell_fulfil hf.1 r.nextCell
  have hfind : ∀ k, s'.cells.find? k = if k = c.awaits.place r.nextCell then
      some (.value (stateOf (ρ' c.callee) (f a).progress)) else s.cells.find? k := by
    intro k
    rw [hcells, ← h.nextCell]
    refine Awaits.find?_stored (fun g v next hw => ?_) k
    rw [hw] at hcalled
    rw [(h.each _ a ha).state g hcalled.1]
    rfl
  refine
    { each := fun j a' ha' => ?_
      others := fun k x hx hstate => ?_
      nextCell := ?_
      nextLabel := ?_
      pending := hpending
      cells := by
        rw [hcells]
        exact Awaits.wellFormed_stored h.cells
      resumptions := hwf
      installed := hwf' }
  · rcases of_getElem?_modify ha' with ⟨rfl, a₀, ha₀, rfl⟩ | ⟨hj, ha'⟩
    · obtain rfl := Option.some.inj (ha.symm.trans ha₀)
      refine ⟨fun g hg => ?_, ?_, ?_⟩
      · rw [Producer.fulfil_progress, hfind, if_pos (Option.some.inj (hg.symm.trans hcell))]
      · rw [Producer.fulfil_progress, Producer.fulfil_item, hf.2]
        exact hrest
      · rw [Producer.fulfil_progress, Producer.fulfil_item, hf.2]
        exact hhandled
    · rw [hothers j (Ne.symm hj)]
      refine (h.each j a' ha').mono (fun g hg => ?_) (fun _ _ _ _ x hx => hresumptions _ x hx)
        (hinstalled j a' ha' (Ne.symm hj))
      rw [hfind, if_neg (hhoused.place_ne ha hcalled ha' hg hj)]
  · rw [hfind] at hx
    split at hx
    · rename_i hk
      exact ⟨_, _, hplace, hcell.trans (congrArg some hk.symm)⟩
    · rename_i hk
      obtain ⟨j, a', ha', hk'⟩ := h.others k x hx hstate
      have hj : c.callee ≠ j := by
        rintro rfl
        obtain rfl := Option.some.inj (ha.symm.trans ha')
        exact hk (hcalled.place_eq hk' r.nextCell).symm
      exact ⟨j, _, exists_getElem?_modify ha', by rw [if_neg hj]; exact hk'⟩
  · rw [hcells, Awaits.stored_next, h.nextCell]
    rfl
  · show s'.nextLabel = label (r.producers.modify _ _).length
    rw [List.length_modify, hlabel]
    exact h.nextLabel

end Keeps

/-- The evaluation does the next action of the code that runs. -/
def Acts (r : Family Γ) (s : Evaluation Content) (ids : Nat → InstallationId) (b : Behaviour Γ)
    (blocks : List (Block (Behaviour Γ))) : Prop :=
  Turns Γ r.Shown (r.act b blocks).Shown (Enacted (r.act b blocks)) (({ s with
    frames := frames (homeOf r.calls) blocks ++ under ids r.calls } : Evaluation Content).goOn
      (.eval (b.code (homeOf r.calls))))

/-- The code that runs has done an action. -/
theorem Keeps.enacted (h : Keeps r s ρ ids) (hcalls : r.calls = calls) :
    Enacted (r.goOn b blocks) (({ s with
      frames := frames (homeOf calls) blocks ++ under ids calls } : Evaluation Content).goOn
        (.eval (b.code (homeOf calls)))) := by
  subst hcalls
  have hkeeps : Keeps (r.goOn b blocks) (({ s with
      frames := frames (homeOf r.calls) blocks ++ under ids r.calls } : Evaluation Content).goOn
        (.eval (b.code (homeOf r.calls)))) ρ ids := { h with }
  exact .running rfl hkeeps rfl rfl

/-- The code goes on that has waited for the generator which was called last. -/
theorem enacted_giveBack (hcalls : r.calls = c :: calls) (h : Keeps (r.pop c calls f) s ρ ids) :
    Enacted (r.modify c.callee f).giveBack (({ s with
      frames := frames (homeOf calls) c.blocks ++ under ids calls } : Evaluation Content).goOn
        (.eval ((c.awaits.onward r.nextCell).code (homeOf calls)))) := by
  have hsame : ({ r.pop c calls f with phase := r.phase } : Family Γ) = r.pop c calls f := rfl
  rw [Family.giveBack_eq hcalls r.phase, hsame]
  have hkeeps : Keeps ((r.pop c calls f).hear (c.awaits.reply r.nextCell)) s ρ ids := h.hear
  exact hkeeps.enacted Family.hear_calls

/-! ### Yielding -/

section Steps

variable {next : Behaviour Γ}

/-- The generator that runs yields, and rests. -/
theorem Keeps.yields (h : Keeps r s ρ ids) (hsound : r.Sound)
    (hlabels : r.producers.length ≤ labelCount)
    (hphase : r.phase = .running (.yield v next) blocks) (hcalls : r.calls = c :: calls) :
    Acts r s ids (.yield v next) blocks := by
  have hact : r.act (.yield v next) blocks =
      (r.modify c.callee (.rest v next blocks)).giveBack := by
    simp only [Family.act, hcalls]
  unfold Acts
  rw [hact]
  have hstacked := hsound.stacked _ _ hphase
  rw [hcalls] at hstacked ⊢
  cases hstacked with
  | @call _ _ _ a _ _ ha hitem hp hcalled _ hnew _ _ =>
    obtain ⟨home', hid⟩ := (h.each _ a ha).handled (by rw [hp]; rfl)
    have hlt : c.callee < labelCount := (List.getElem?_eq_some_iff.mp ha).1.trans_le hlabels
    have hcode := frames_code (homeOf (c :: calls)) blocks
    have hdispatch := Evaluation.dispatch_labelledOfType (Γ := Γ) (s := { s with
      frames := frames (homeOf (c :: calls)) blocks ++ under ids (c :: calls) }) rfl hcode hid rfl
      (label_real hlt) rfl (clauseFor_yield ..)
    rw [hitem] at hdispatch hid
    -- the code that goes on later is parked
    let κ := continuation c.callee c.item (ids c.callee) next blocks
    let resumptions := (((s.resumptions.insert κ).2.erase s.resumptions.next).insert κ).2
    let ρ' := Function.update ρ c.callee (s.resumptions.next + 1)
    let state : Value := .present (.pair v (.resumption (s.resumptions.next + 1)))
    have hself : ρ' c.callee = s.resumptions.next + 1 := Function.update_self ..
    have hkeeps : Keeps (r.pop c calls (.rest v next blocks))
        { s with resumptions, cells := c.awaits.stored state s.cells } ρ' ids := by
      refine h.pop hsound.housed ha hcalled ⟨rfl, rfl⟩ ?_ (fun k hk => Function.update_of_ne hk ..)
        (fun v' b' blocks' hrests => ?_) (fun _ => ⟨home', hitem ▸ hid⟩)
        (fun k x hx => Store.find?_moved_of_some h.resumptions hx) (fun _ _ _ _ _ _ hx => hx) rfl
        h.pending (Store.wellFormed_moved h.resumptions κ) h.installed
      · rw [hself]
        rfl
      · obtain ⟨rfl, rfl, rfl⟩ := Progress.resting.inj hrests
        rw [hself, hitem]
        exact Store.find?_moved s.resumptions κ
    have henacted := enacted_giveBack hcalls hkeeps
    rw [← h.nextCell] at henacted
    have hP := h.shown
    exact .invoke_noManage hP hdispatch hid (answer_handler ..) rfl hcode (.take hP
      (Store.find?_insert_self ..) (.done hP (.answering hP rfl h.pending (.bind hP rfl
        (turns_back c.awaits hP (.here henacted.shown henacted))))))

/-- The body of the generator that runs ends. -/
theorem Keeps.ends (h : Keeps r s ρ ids) (hsound : r.Sound)
    (hphase : r.phase = .running (.done v) []) (hcalls : r.calls = c :: calls) :
    Acts r s ids (.done v) [] := by
  have hact : r.act (.done v) [] = (r.modify c.callee (.goOn .ended)).giveBack := by
    simp only [Family.act, Block.after, hcalls]
  unfold Acts
  rw [hact]
  have hstacked := hsound.stacked _ _ hphase
  rw [hcalls] at hstacked ⊢
  cases hstacked with
  | @call _ _ _ a _ _ ha hitem hp hcalled _ hnew _ _ =>
    have halive : a.progress.isAlive = true := by rw [hp]; rfl
    obtain ⟨home', hid⟩ := (h.each _ a ha).handled halive
    have hkeeps : Keeps (r.pop c calls (.goOn .ended)) { s with
        installed := s.installed.modify (ids c.callee) fun x => { x with label := retiredLabel }
        cells := c.awaits.stored .absent s.cells } ρ ids := by
      refine h.pop hsound.housed ha hcalled ⟨rfl, rfl⟩ rfl (fun _ _ => rfl)
        (fun v' b' blocks' hrests => by cases hrests) (fun hends => by cases hends)
        (fun k x hx => hx) (fun j a' ha' hj halive' h₀ hh₀ => ?_) rfl h.pending h.resumptions
        (Store.wellFormed_modify h.installed _ _)
      rw [Store.find?_modify, if_neg (h.ids_ne ha' ha halive' halive hj)]
      exact hh₀
    have henacted := enacted_giveBack hcalls hkeeps
    rw [← h.nextCell] at henacted
    have hP := h.shown
    have hreturn := onReturn_handler (v := v) c.callee a.item home'
    have hanswer := answer_handler c.callee a.item home'
    refine .done hP (.returning hP rfl hid ?_)
    rw [hreturn, hanswer]
    exact .done hP (.answering hP rfl h.pending (.bind hP rfl
      (turns_back c.awaits hP (.here henacted.shown henacted))))

/-! ### Making -/

/-- The code that runs makes a generator, whose body runs first. -/
theorem Keeps.makes {owned : List Owned} {body : Behaviour Γ} {next : CellId → Behaviour Γ}
    (h : Keeps r s ρ ids) (hsound : r.Sound) (hlt : r.producers.length < labelCount)
    (hphase : r.phase = .running (.make item owned body next) blocks) :
    Acts r s ids (.make item owned body next) blocks := by
  unfold Acts
  generalize hr : r.act (.make item owned body next) blocks = r'
  obtain ⟨declared, hdeclare⟩ := exists_declare s item
  let n := r.producers.length
  let ids' := Function.update ids n s.installed.next
  have hcallees : ∀ c ∈ r.calls, ids' c.callee = ids c.callee := fun c hc => by
    obtain ⟨a, ha, -⟩ := (hsound.stacked _ _ hphase).running hc
    exact Function.update_of_ne (Nat.ne_of_lt (List.getElem?_eq_some_iff.mp ha).1) ..
  have hkeeps : Keeps r' { s with
      cells := (s.cells.insert (.value .unit)).2
      installed := (s.installed.insert (handlerAt n item s.cells.next)).2
      nextLabel := label (n + 1) } ρ ids' := by
    subst hr
    refine
      { each := fun j a ha => ?_
        others := fun k x hx hstate => ?_
        nextCell := congrArg (· + 1) h.nextCell
        nextLabel := by simp [Family.act, n]
        pending := h.pending
        cells := Store.wellFormed_insert h.cells _
        resumptions := h.resumptions
        installed := Store.wellFormed_insert h.installed _ }
    · rcases of_getElem?_append ha with ha | ⟨rfl, rfl⟩
      · have hj : j ≠ n := Nat.ne_of_lt (List.getElem?_eq_some_iff.mp ha).1
        have hkept := h.each j a ha
        have hids : ids' j = ids j := Function.update_of_ne hj ..
        rw [hids]
        refine hkept.mono (fun g hg => ?_) (fun _ _ _ _ _ hk => hk) fun _ h₀ hh₀ => ?_
        · rw [Store.find?_insert, if_neg (Nat.ne_of_lt (Store.lt_next h.cells (hkept.state g hg)))]
        · rw [Store.find?_insert, if_neg (Nat.ne_of_lt (Store.lt_next h.installed hh₀))]
          exact hh₀
      · have hids : ids' r.producers.length = s.installed.next := Function.update_self ..
        refine ⟨fun g hg => (by cases hg), fun v b blocks hp => (by cases hp), fun _ => ?_⟩
        rw [hids]
        exact ⟨s.cells.next, Store.find?_insert_self ..⟩
    · have hx' : (s.cells.insert (.value .unit)).2.find? k = some x := hx
      rw [Store.find?_insert] at hx'
      split at hx'
      · obtain rfl := Option.some.inj hx'
        cases hstate
      · obtain ⟨j, a, ha, hk⟩ := h.others k x hx' hstate
        exact ⟨j, a, getElem?_append_of_some ha, hk⟩
  have hQ : r'.Shown s.cells := by
    subst hr
    refine ⟨ρ, fun j a g ha hg x hx => ?_⟩
    rcases of_getElem?_append ha with ha | ⟨-, rfl⟩
    · exact Option.some.inj (hx.symm.trans ((h.each j a ha).state g hg))
    · cases hg
  have hself := h.nextLabel
  have hchosen : Evaluation.chooseLabel (({ s with
      frames := frames (homeOf r.calls) blocks ++ under ids r.calls
      cells := (s.cells.insert (.value .unit)).2
      nextLabel := s.nextLabel - 1 } : Evaluation Content)) (some s.nextLabel) =
        .ok (label n, label (n + 1)) := by
    rw [hself]
    refine chooseLabel_label hlt ?_
    show label n - 1 = label (n + 1)
    unfold label
    omega
  have hbody : body.toTask (some (item.name, s.nextLabel)) (fun _ => .done .unit) =
      body.void.code (home n item) := by
    rw [hself]
    exact (body.toTask_void (home n item) Comp.done).symm
  have hunder : under ids' r'.calls = .handling s.installed.next ::
      .bind ((Awaits.generator next).back (homeOf r.calls)) ::
        (frames (homeOf r.calls) blocks ++ under ids r.calls) := by
    subst hr
    show under ids' (⟨n, item, .generator next, blocks⟩ :: r.calls) = _
    rw [under_cons, under_congr hcallees]
    simp [ids']
  have hinside : r'.phase = .running body.void [] := by
    subst hr
    rfl
  have hhome : homeOf r'.calls = home n item := by
    subst hr
    rfl
  refine .turns h.shown rfl (.alloc hQ (.handle hkeeps.shown hchosen hdeclare (.here ?_ ?_)))
  · exact hkeeps.shown
  · refine .running hinside (show Keeps r' _ ρ ids' from { hkeeps with }) ?_ ?_
    · rw [hunder]
      rfl
    · rw [hhome, ← hbody]
      rfl

end Steps

end EffectHandlers.Generator
