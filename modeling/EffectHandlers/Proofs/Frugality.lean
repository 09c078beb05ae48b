import EffectHandlers.Proofs.Agreement
import EffectHandlers.Proofs.Spending
/-!
# Frugal programs

A program is frugal if it keeps its resumptions and closures in cells that belong to the thread, and
if its clauses take up what they are given before they do anything else. Of such a program nothing is
ever dropped that it could use, whatever else is dropped.
-/

namespace EffectHandlers

variable {ω : Type} {Γ : Library ω}

/-- Whether this is the name of something that can be used once. -/
def Owned.isName : Owned → Bool
  | closure _ | resumption _ => true
  | _ => false

/-- Code that takes up all names in a list before it does anything that could release them. -/
def Comp.Clears : Comp ω → List Owned → Prop
  | .take r next, os =>
    (∀ o ∈ os, o.isName = false) ∨ ∀ r', (next r').Clears (os.erase (.resumption r))
  | .function _ f next, os =>
    (∀ o ∈ os, o.isName = false) ∨ ∀ r', (next r').Clears (os.erase (.closure f))
  | .read _ next, os => (∀ o ∈ os, o.isName = false) ∨ ∀ x, (next x).Clears os
  | .write _ _ next, os => (∀ o ∈ os, o.isName = false) ∨ next.Clears os
  | _, os => ∀ o ∈ os, o.isName = false

/-! ### Evaluations -/

namespace Evaluation

variable {s : Evaluation ω} {o : Owned}

/-- Whether a name stands for something that can still be used. -/
def valid (s : Evaluation ω) : Owned → Bool
  | .closure f => s.closures.contains f
  | .resumption r => s.resumptions.contains r
  | _ => false

/-- The name was made before. -/
def Issued (s : Evaluation ω) : Owned → Prop
  | .closure f => f < s.closures.next
  | .resumption r => r < s.resumptions.next
  | _ => True

/-- What is owned by the contents of some cells. -/
def kept [Contents ω] (K : List CellId) (s : Evaluation ω) : List Owned :=
  K.flatMap fun c => Contents.owned ((s.cells.find? c).getD default)

/-- The operation that is evaluated next hands over no name, other than to a cell that is kept or to a
clause that takes it up, and uses nothing but names and such cells. -/
structure Frugal [Contents ω] (Γ : Library ω) (K : List CellId) (s : Evaluation ω) : Prop where
  pool : ∀ c, s.phase = .eval c → c.asksPool = false
  uses : ∀ c, s.phase = .eval c → ∀ o ∈ c.uses, o.isName = true ∨ ∃ k ∈ K, o = .cell k
  spends : ∀ c, s.phase = .eval c → ∀ o ∈ c.spends, (∀ k ∈ K, o ≠ .cell k) ∧
    (o.isName = true → s.Issued o ∧ ((∃ k ∈ K, ∃ x next, c = .write k x next) ∨
      ∃ target command next, c = .invoke target command next))
  clears : ∀ target command next, s.phase = .eval (.invoke target command next) → ∀ i code,
    s.dispatch Γ command.name target = .ok (i, code) → ∃ run, code = .resumptive run ∧
      ∀ cell r, (run cell command.payload r).Clears (.resumption r :: command.owned)

theorem isName_of_valid (h : s.valid o = true) : o.isName = true := by
  cases o <;> first | rfl | cases h

section Step

variable [Inhabited ω]

/-- Closures and resumptions are never made anew. -/
theorem ages_step (Γ : Library ω) (s : Evaluation ω) :
    s.closures.Ages (s.step Γ).closures ∧ s.resumptions.Ages (s.step Γ).resumptions := by
  have hrefl : s.closures.Ages s.closures ∧ s.resumptions.Ages s.resumptions := ⟨.refl _, .refl _⟩
  unfold step
  split
  · rename_i c hphase
    cases c with
    | closure owned body next => exact ⟨.insert _ _, .refl _⟩
    | apply f arg next =>
      simp only [eval]
      split
      · exact ⟨.erase _ _, .refl _⟩
      · exact hrefl
    | function answer f next =>
      simp only [eval]
      split
      · exact ⟨.refl _, .skip _⟩
      · exact ⟨.erase _ _, .insert _ _⟩
    | take r next =>
      simp only [eval]
      split
      · exact ⟨.refl _, .skip _⟩
      · exact ⟨.refl _, (Store.Ages.erase _ _).trans (.insert _ _)⟩
    | resume r v next =>
      simp only [eval]
      split
      · exact hrefl
      · exact ⟨.refl _, .erase _ _⟩
    | tailResume r v next =>
      simp only [eval]
      split
      · exact hrefl
      · exact ⟨.refl _, .erase _ _⟩
      · exact hrefl
    | invoke target command next =>
      simp only [eval]
      split
      · exact hrefl
      · rename_i i code hdispatch
        cases code with
        | plain run => exact hrefl
        | resumptive run | noManage run => exact ⟨.refl _, .insert _ _⟩
        | noResume run => exact hrefl
    | handle i body next =>
      simp only [eval, install]
      split
      · exact hrefl
      · split <;> exact hrefl
    | find search next | copy r next =>
      simp only [eval]
      split <;> exact hrefl
    | ask q next => cases q <;> exact hrefl
    | _ => exact hrefl
  · rename_i v hphase
    unfold give
    split
    · exact hrefl
    · rename_i f frames hframes
      cases f with
      | looping body next =>
        simp only
        split <;> exact hrefl
      | answering answer =>
        simp only
        split
        · exact hrefl
        · split <;> exact hrefl
      | _ => exact hrefl
  · rename_i k v hphase
    cases k <;> exact hrefl
  · exact hrefl
  · exact hrefl

/-- No step makes a name valid that was made before. -/
theorem valid_step (h : (s.step Γ).valid o = true) : s.valid o = true ∨ ¬ s.Issued o := by
  obtain ⟨hclosures, hresumptions⟩ := ages_step Γ s
  by_cases hissued : s.Issued o
  · left
    by_contra hinvalid
    cases o with
    | closure f =>
      have hgone := hclosures.gone f hissued (by simpa [valid, Store.contains] using hinvalid)
      simp [valid, Store.contains, hgone] at h
    | resumption r =>
      have hgone := hresumptions.gone r hissued (by simpa [valid, Store.contains] using hinvalid)
      simp [valid, Store.contains, hgone] at h
    | _ => cases h
  · exact .inr hissued

theorem Issued.step (h : s.Issued o) : (s.step Γ).Issued o := by
  obtain ⟨hclosures, hresumptions⟩ := ages_step Γ s
  cases o with
  | closure f => exact Nat.lt_of_lt_of_le h hclosures.next
  | resumption r => exact Nat.lt_of_lt_of_le h hresumptions.next
  | _ => trivial

/-- What is moved out of a resumption is not there any more. -/
theorem not_valid_take {r : ResumptionId} {next : ResumptionId → Comp ω}
    (hwf : s.resumptions.WellFormed) (hphase : s.phase = .eval (.take r next))
    (hr : s.valid (.resumption r) = true) : (s.step Γ).valid (.resumption r) = false := by
  simp only [step, hphase, eval]
  cases hfind : s.resumptions.find? r with
  | none => simp [valid, Store.contains, hfind] at hr
  | some k =>
    have hold : r ≠ (s.resumptions.erase r).next := Nat.ne_of_lt (Store.lt_next hwf hfind)
    simp [valid, Store.contains, goOn, Store.find?_insert, hold, Store.find?_erase hwf]

/-- A closure that was made a resumption of is used up. -/
theorem not_valid_function {answer : String} {f : ClosureId} {next : ResumptionId → Comp ω}
    (hwf : s.closures.WellFormed) (hphase : s.phase = .eval (.function answer f next))
    (hf : s.valid (.closure f) = true) : (s.step Γ).valid (.closure f) = false := by
  simp only [step, hphase, eval]
  cases hfind : s.closures.find? f with
  | none => simp [valid, Store.contains, hfind] at hf
  | some body => simp [valid, Store.contains, goOn, Store.find?_erase hwf]

/-- Cells change only where they are written. -/
theorem cells_step (hwrite : ∀ c x next, s.phase ≠ .eval (.write c x next)) {c : CellId}
    (hc : c < s.cells.next) : (s.step Γ).cells.find? c = s.cells.find? c := by
  unfold step
  split
  · rename_i op hphase
    cases op with
    | write c' x next => exact absurd hphase (hwrite c' x next)
    | alloc x next =>
      show (s.cells.insert x).2.find? c = _
      rw [Store.find?_insert, if_neg (Nat.ne_of_lt hc)]
    | invoke target command next =>
      simp only [eval]
      split
      · rfl
      · rename_i i code hdispatch
        cases code <;> rfl
    | handle i body next =>
      simp only [eval, install]
      split
      · rfl
      · split <;> rfl
    | apply | function | take | resume | tailResume | find | copy =>
      simp only [eval]
      split <;> rfl
    | ask q next => cases q <;> rfl
    | _ => rfl
  · rename_i v hphase
    unfold give
    split
    · rfl
    · rename_i f frames hframes
      cases f with
      | looping body next =>
        simp only
        split <;> rfl
      | answering answer =>
        simp only
        split
        · rfl
        · split <;> rfl
      | _ => rfl
  · rename_i k v hphase
    cases k <;> rfl
  · rfl
  · rfl

end Step

/-- What is kept changes only where it is written. -/
theorem kept_step [Contents ω] {K : List CellId} (hK : ∀ k ∈ K, k < s.cells.next)
    (hwrite : ∀ c x next, s.phase ≠ .eval (.write c x next)) :
    (s.step Γ).kept K = s.kept K := by
  unfold kept
  exact List.flatMap_congr fun k hk => by rw [cells_step hwrite (hK k hk)]

/-- What is written into other cells is not kept. -/
theorem kept_write [Contents ω] {K : List CellId} {k : CellId} (hk : k ∉ K) {x : ω} {t : Evaluation ω}
    (ht : t.cells = s.cells.modify k fun _ => x) : t.kept K = s.kept K :=
  List.flatMap_congr fun c hc => by
    rw [ht, Store.find?_modify, if_neg (show c ≠ k from fun heq => hk (heq ▸ hc))]

/-- A cell that is kept owns what is written into it, instead of what it owned before. -/
theorem count_kept_write [Contents ω] {K : List CellId} (hnodup : K.Nodup) {k : CellId}
    (hk : k ∈ K) {x y : ω} (hy : s.cells.find? k = some y) {t : Evaluation ω}
    (ht : t.cells = s.cells.modify k fun _ => x) (o : Owned) :
    (t.kept K).count o + (Contents.owned y).count o =
      (s.kept K).count o + (Contents.owned x).count o := by
  have hcell : ∀ c, t.cells.find? c = if c = k then some x else s.cells.find? c := by
    intro c
    rw [ht, Store.find?_modify]
    split
    · rename_i heq
      rw [heq, hy]
      rfl
    · rfl
  induction K with
  | nil => cases hk
  | cons c K ih =>
    obtain ⟨hc, hnodup⟩ := List.nodup_cons.mp hnodup
    have hsplit : ∀ s : Evaluation ω, (s.kept (c :: K)).count o =
        (Contents.owned ((s.cells.find? c).getD default)).count o + (s.kept K).count o :=
      fun s => by simp [kept]
    rw [hsplit, hsplit, hcell]
    rcases List.mem_cons.mp hk with rfl | hmem
    · rw [if_pos rfl, kept_write hc ht, hy]
      simp only [Option.getD_some]
      omega
    · have hne : c ≠ k := fun heq => hc (heq ▸ hmem)
      have hrest := ih hnodup hmem
      rw [if_neg hne]
      omega

end Evaluation

/-! ### Code that clears -/

namespace Comp

variable {c : Comp ω} {os : List Owned}

theorem Clears.of_nameless (hos : ∀ o ∈ os, o.isName = false) : c.Clears os := by
  cases c with
  | take | function | read | write => exact .inl hos
  | _ => exact hos

end Comp

end EffectHandlers
