import EffectHandlers.Proofs.Following
import EffectHandlers.Proofs.Numbers
/-!
# What cells hold

The contents of a cell change only where running code writes to it, or where a share of it is
released.
-/

namespace EffectHandlers.Machine

variable {ω : Type} {Γ : Library ω} {m m' m'' : Machine ω} {x : CellId}

/-- What is in a cell stays there. -/
def Leaves (x : CellId) (m m' : Machine ω) : Prop :=
  ∀ content, m.contents x = some content → m'.contents x = some content

namespace Leaves

theorem refl (x : CellId) (m : Machine ω) : m.Leaves x m := fun _ h => h

theorem trans (h : m.Leaves x m') (h' : m'.Leaves x m'') : m.Leaves x m'' :=
  fun content hc => h' content (h content hc)

theorem of_cells (h : m'.cells = m.cells) : m.Leaves x m' := by
  intro content hc
  rwa [contents, h]

theorem of_tables (h : m'.tables = m.tables) : m.Leaves x m' := .of_cells (congrArg Prod.fst h)

/-- The shares of some cell change. -/
theorem of_modify {y : CellId} {f : Shared ω → Shared ω} (hf : ∀ s, (f s).content = s.content)
    (h : m'.cells = m.cells.modify y f) : m.Leaves x m' := by
  intro content hc
  rw [contents, h, Store.find?_modify]
  split
  · rw [Option.map_map, show Shared.content ∘ f = Shared.content from funext hf]
    exact hc
  · exact hc

theorem enter (h : m.Leaves x m') (i : InstallationId) (f : FiberId) :
    m.Leaves x (m'.enter i f) := by
  refine h.trans ?_
  unfold Machine.enter
  split <;> exact .of_cells rfl

theorem install (i : Installing) (body : ReferenceId → Comp ω) :
    m.Leaves x (m.install Γ i body) := by
  unfold Machine.install
  have h₁ := tables_chooseLabel m i.label
  generalize m.chooseLabel i.label = chosen at h₁
  obtain ⟨_ | label, m₁⟩ := chosen
  · exact .of_tables h₁
  have h₂ := (tables_declare m₁ i.handlerType (Γ.handlerType i.handlerType)).trans h₁
  simp only
  generalize m₁.declare i.handlerType (Γ.handlerType i.handlerType) = declared at h₂
  obtain ⟨_ | _, m₂⟩ := declared
  · exact .of_tables h₂
  have h₃ := (tables_acquireStack m₂).trans h₂
  simp only
  generalize m₂.acquireStack = acquired at h₃
  obtain ⟨why | _, m₃⟩ := acquired
  · cases why <;> exact .of_tables h₃
  · have hsame : m.Leaves x m₃ := .of_tables h₃
    refine enter ?_ _ _
    exact hsame.trans (.of_cells rfl)

theorem send (i : InstallationId) (entry : Nat) (command : Command) :
    m.Leaves x (m.send Γ i entry command) := by
  have hretained : m.Leaves x ((m.hold i).retain (.cell (m.chain.get i).handler)) :=
    .of_modify (f := fun s => { s with shares := s.shares + 1 }) (fun _ => rfl) rfl
  simp only [Machine.send]
  split
  · unfold sendInPlace
    split
    · simp only
      split
      · exact hretained.trans (.of_cells rfl)
      · simp only [takeCommand, bump, hold, retain, Store.insert_fst, Store.find?_insert_self,
          Option.bind_eq_bind, Option.bind_some, Store.modify_insert, Option.pure_def]
        exact hretained.trans (.of_cells rfl)
    · exact .of_tables rfl
  · exact .of_cells rfl

theorem settle (answer : String) (v : Value) (kept : List Holding) :
    m.Leaves x (m.settle answer v kept) := by
  unfold Machine.settle
  split
  · exact .of_cells rfl
  · simp only
    split <;> exact .of_cells rfl

theorem give (v : Value) : m.Leaves x (m.give Γ v) := by
  unfold Machine.give
  split
  · split
    · exact .of_cells rfl
    · rename_i m' hback
      obtain ⟨⟨S, fs⟩, -, rfl⟩ := Option.map_eq_some_iff.mp hback
      exact .of_cells (congrArg Prod.fst (tables_warn _ _))
  · rename_i a S hS
    cases a with
    | driving i f =>
      unfold finish
      simp only
      split
      · exact .of_cells rfl
      · split <;> exact .of_cells rfl
    | returning i answer => exact settle (m := { m with stack := S }) answer v _
    | calling answer => exact settle (m := { m with stack := S }) answer v _
    | looping body next =>
      simp only
      split <;> exact .of_cells rfl
    | _ => exact .of_cells rfl

theorem deliver (s : Step (Cont ω) Value) : m.Leaves x (m.deliver s) := by
  unfold Machine.deliver
  split
  · split
    · exact .of_cells rfl
    · rename_i k
      cases k with
      | captured answer f segment e =>
        refine enter ?_ _ _
        exact .of_cells rfl
      | function answer f arg => cases arg <;> exact .of_cells rfl
  · exact .of_cells rfl

theorem wake : m.Leaves x m.wake := by
  unfold Machine.wake
  split
  · exact .of_cells rfl
  · refine enter ?_ _ _
    exact .of_cells rfl
  · split
    · exact .of_cells rfl
    · split <;> exact .of_cells rfl
  · exact .of_cells rfl

theorem forward (r : Request) : m.Leaves x (m.forward Γ r) := by
  unfold Machine.forward
  split
  · exact .of_cells rfl
  · simp only
    split
    · split
      · unfold capture
        split
        · exact .of_cells rfl
        · exact .of_cells rfl
        · split
          · exact .of_cells rfl
          · simp only
            split
            · split <;> exact .of_cells rfl
            · rename_i htaken
              refine .of_cells ((congrArg Prod.fst (tables_runClause _ _ _ _ _ _ _ _)).trans ?_)
              refine (congrArg Prod.fst (tables_takeCommand htaken)).trans ?_
              split <;> rfl
      · exact .of_cells rfl
    · exact .of_cells rfl

theorem unwind (message : String) : m.Leaves x (m.unwind message) := by
  unfold Machine.unwind
  split
  · cases hback : m.handBack (.unwind message) with
    | none => exact .of_tables rfl
    | some m' =>
      obtain ⟨⟨S, fs⟩, -, rfl⟩ := Option.map_eq_some_iff.mp hback
      exact .of_cells rfl
  · exact .of_cells rfl
  · exact .of_cells rfl

variable [Contents ω]

theorem eval {c : Comp ω} (hcells : m.cells.WellFormed)
    (hwrite : ∀ content next, c ≠ .write x content next) : m.Leaves x (m.eval Γ c) := by
  cases c with
  | alloc content next =>
    intro content' hc
    obtain ⟨s, hs, -⟩ := Option.map_eq_some_iff.mp hc
    have hne : x ≠ m.cells.next := Nat.ne_of_lt (Store.lt_next hcells hs)
    show ((m.cells.insert _).2.find? x).map _ = _
    rwa [Store.find?_insert, if_neg hne]
  | write y content next =>
    intro content' hc
    have hne : x ≠ y := fun heq => hwrite content next (heq ▸ rfl)
    show ((m.cells.modify y _).find? x).map _ = _
    rwa [Store.find?_modify, if_neg hne]
  | retain o next =>
    cases o with
    | cell y =>
      exact .of_modify (f := fun s => { s with shares := s.shares + 1 }) (fun _ => rfl) rfl
    | _ => exact .of_cells rfl
  | apply f arg next =>
    simp only [Machine.eval, applyClosure]
    split <;> exact .of_cells rfl
  | handle i body next => exact install (m := m.push (.bind next)) i body
  | invoke target command next =>
    simp only [Machine.eval]
    split
    · exact .of_cells rfl
    · exact send (m := m.push (.bind next)) _ _ _
  | find search next =>
    simp only [Machine.eval]
    split <;> exact .of_cells rfl
  | copy r next =>
    simp only [Machine.eval]
    split <;> exact .of_cells rfl
  | function answer f next =>
    simp only [Machine.eval]
    split <;> exact .of_cells rfl
  | take r next =>
    simp only [Machine.eval]
    split <;> exact .of_cells rfl
  | resume r v next =>
    simp only [Machine.eval, Machine.resume]
    split
    · exact .of_cells rfl
    · rename_i harm
      have hsame := tables_arm harm
      exact .of_tables hsame
  | tailResume r v next =>
    simp only [Machine.eval, Machine.tailResume]
    split
    · exact .of_cells rfl
    · rename_i harm
      have hsame := tables_arm harm
      split <;> exact .of_tables hsame
  | ask q next => exact .of_tables (m.tables_answer q)
  | view v next => exact .of_tables (m.tables_view v)
  | print p next => exact .of_tables (m.tables_print p)
  | popBare next =>
    simp only [Machine.eval]
    split <;> exact .of_cells rfl
  | _ => exact .of_cells rfl

theorem releaseOne {h : Holding} (hcells : m.cells.WellFormed) (hrelease : h ≠ .asset (.cell x)) :
    m.Leaves x (m.releaseOne h) := by
  cases h with
  | asset o =>
    cases o with
    | cell y =>
      have hne : x ≠ y := fun heq => hrelease (heq ▸ rfl)
      simp only [Machine.releaseOne, releaseAsset, releaseCell]
      split
      · exact refl x m
      · split
        · intro content hc
          show ((m.cells.erase y).find? x).map _ = _
          rwa [Store.find?_erase hcells, if_neg hne]
        · exact .of_modify (f := fun s => { s with shares := s.shares - 1 }) (fun _ => rfl) rfl
    | notice n => exact .of_cells rfl
    | _ =>
      simp only [Machine.releaseOne, releaseAsset]
      split <;> exact .of_cells rfl
  | installation i =>
    simp only [Machine.releaseOne, releaseInstallation]
    split
    · exact refl x m
    · split <;> exact .of_cells rfl
  | _ =>
    simp only [Machine.releaseOne]
    split <;> exact .of_cells rfl

/-- A step leaves what is in a cell, unless it writes to the cell or releases a share of it. -/
theorem step (hcells : m.cells.WellFormed)
    (hwrite : m.releasing = [] → ∀ content next, m.control ≠ .eval (.write x content next))
    (hrelease : ∀ rest, m.releasing ≠ .asset (.cell x) :: rest) : m.Leaves x (m.step Γ) := by
  unfold Machine.step
  split
  · rename_i h rest hreleasing
    have hpopped : m.Leaves x { m with releasing := rest } := .of_cells rfl
    exact hpopped.trans (releaseOne hcells fun heq => hrelease rest (heq ▸ hreleasing))
  · rename_i hreleasing
    split
    · rename_i c hcontrol
      exact eval hcells fun content next heq => hwrite hreleasing content next (heq ▸ hcontrol)
    · exact give _
    · exact deliver _
    · exact settle _ _ _
    · exact forward _
    · exact wake
    · exact unwind _
    · exact .of_cells rfl
    · exact refl x m

end Leaves

end EffectHandlers.Machine
