import EffectHandlers.Client.Library
import EffectHandlers.Proofs.Budgets
import Mathlib.Data.Nat.Fib.Basic
/-!
# The fuel of Fibonacci numbers

What a body uses is known from its course, without any handler. A budget is enough for it when each
sum on the way is, and the calls of the procedure for Fibonacci numbers are counted by Fibonacci
numbers again.
-/

namespace EffectHandlers.Fuel

variable {Γ : Library Content} {n : Nat} {π : Type} {name : π → String}
  {code : π → Value → Body (Deed Int n) π} {c c' c'' : Course (Deed Int n) π (World Int)}
  {m : Machine Content} {body : Body (Deed Int n) π} {next : Value → Comp Content} {budget : Int}

/-! ### A budget and what is used -/

/-- A budget is enough if it is enough for each sum on the way. -/
theorem budgeted_completes (hbounded : Γ.handlerType boundedName = bounded)
    (hvoc : (Deed.vocabulary ask name code).Known Γ) (hm : m.Numbered)
    (hreleasing : m.releasing = []) (hpending : m.pending = none)
    (hsize : m.stackSize < StackPool.addressSpace) (hn : n ≤ m.cells.next)
    (htranscript : Transcript.cell < n) (body : Body (Deed Int n) π) (next : Value → Comp Content)
    (hleft : ∀ t total, Sums ((Course.start m body 0).run code (Deed.acts count) t) total →
      total ≤ budget ∧ Word.Fits (budget - total)) :
    ∃ clock, (Course.start m body 0).Completed Γ (Deed.vocabulary ask name code) (Deed.acts count) m
      (m.goOn (.eval (withBudget budget [] (body.toProg (Deed.vocabulary ask name code)) next)))
      (fun _ v => next (.present v)) clock := by
  obtain ⟨clock, hconcluded⟩ := budgeted_concludes hbounded hvoc hm hreleasing hpending hsize
    hn htranscript budget body next
  exact ⟨clock, hconcluded.toCompleted.congr fun t => next?_charge (hleft t)⟩

/-- A body is stopped where it asks for more than the budget in all for the first time. -/
theorem budgeted_stops (hbounded : Γ.handlerType boundedName = bounded)
    (hvoc : (Deed.vocabulary ask name code).Known Γ) (hm : m.Numbered)
    (hreleasing : m.releasing = []) (hpending : m.pending = none)
    (hsize : m.stackSize < StackPool.addressSpace) (hn : n ≤ m.cells.next)
    (htranscript : Transcript.cell < n) (body : Body (Deed Int n) π) (next : Value → Comp Content)
    {t : Nat} {total : Int}
    (hsums : Sums ((Course.start m body 0).run code (Deed.acts count) t) total)
    (hmore : budget < total)
    (hleft : ∀ u < t, ∀ total, Sums ((Course.start m body 0).run code (Deed.acts count) u) total →
      total ≤ budget ∧ Word.Fits (budget - total)) :
    ∃ clock : Nat → Nat, StrictMono clock ∧
      (∀ u ≤ t, ((Course.start m body 0).run code (Deed.acts count) u).Reached
        (Deed.vocabulary ask name code) ((m.goOn (.eval (withBudget budget []
          (body.toProg (Deed.vocabulary ask name code)) next))).run Γ (clock u))) ∧
      ∃ j, m.ComesBack ((m.goOn (.eval (withBudget budget []
          (body.toProg (Deed.vocabulary ask name code)) next))).run Γ (clock t + j))
        ((Course.start m body 0).run code (Deed.acts count) t).world.memory (next .absent) := by
  obtain ⟨clock, hconcluded⟩ := budgeted_concludes hbounded hvoc hm hreleasing hpending hsize
    hn htranscript budget body next
  let acts : Deed Int n → World Int → Option (Value × World Int) :=
    Deed.acts (charge fun total => total ≤ budget ∧ Word.Fits (budget - total))
  have hsame : ∀ u < t, (((Course.start m body 0).run code (Deed.acts count) u).next? code acts) =
      ((Course.start m body 0).run code (Deed.acts count) u).next? code (Deed.acts count) :=
    fun u hu => next?_charge (hleft u hu)
  have hrun : ∀ u ≤ t, (Course.start m body 0).run code acts u =
      (Course.start m body 0).run code (Deed.acts count) u :=
    fun u hu => Course.run_congr fun i hi => hsame i (Nat.lt_of_lt_of_le hi hu)
  have hlasts : (Course.start m body 0).Lasts code acts t := by
    refine (Course.lasts_congr hsame).mpr (Course.lasts_of_isSome ?_)
    obtain ⟨amount, k, hbody, -⟩ := hsums
    simp [Course.next?, hbody, Deed.acts, count]
  refine ⟨clock, hconcluded.increasing, fun u hu => ?_, ?_⟩
  · rw [← hrun u hu]
    exact hconcluded.reaches u fun i hi => hlasts i (Nat.lt_of_lt_of_le hi hu)
  · rw [← hrun t (Nat.le_refl t)] at hsums ⊢
    obtain ⟨amount, k, hbody, rfl⟩ := hsums
    exact hconcluded.stops t _ k hlasts hbody ⟨amount, rfl, hmore⟩

/-! ### Rising sums -/

variable (code) in
/-- A course gets to another one. The sums on the way are all between, and the variables stay as
they are. -/
structure Rises (c c' : Course (Deed Int n) π (World Int)) : Prop where
  le : c.world.state ≤ c'.world.state
  memory : c'.world.memory = c.world.memory
  gets : ∃ t, c.run code (Deed.acts count) t = c' ∧
    ∀ u < t, (c.run code (Deed.acts count) u).world.memory = c.world.memory ∧
      ∀ total, Sums (c.run code (Deed.acts count) u) total →
        c.world.state < total ∧ total ≤ c'.world.state

theorem Rises.trans (h : Rises code c c') (h' : Rises code c' c'') : Rises code c c'' := by
  obtain ⟨hle, hmemory, t, rfl, hway⟩ := h
  obtain ⟨hle', hmemory', t', rfl, hway'⟩ := h'
  refine ⟨hle.trans hle', hmemory'.trans hmemory, t + t', Course.run_add .., fun u hu => ?_⟩
  rcases Nat.lt_or_ge u t with hlt | hge
  · obtain ⟨hkept, hsums⟩ := hway u hlt
    exact ⟨hkept, fun total htotal => (hsums total htotal).imp_right (·.trans hle')⟩
  · obtain ⟨d, rfl⟩ := Nat.exists_eq_add_of_le hge
    obtain ⟨hkept, hsums⟩ := hway' d (by omega)
    rw [Course.run_add]
    exact ⟨hkept.trans hmemory, fun total htotal => (hsums total htotal).imp_left hle.trans_lt⟩

theorem Rises.of_next (hnext : c.next? code (Deed.acts count) = some c')
    (hle : c.world.state ≤ c'.world.state) (hmemory : c'.world.memory = c.world.memory)
    (hsums : ∀ total, Sums c total → c.world.state < total ∧ total ≤ c'.world.state) :
    Rises code c c' := by
  refine ⟨hle, hmemory, 1, ?_, fun u hu => ?_⟩
  · rw [Course.run_succ]
    exact congrArg (Option.getD · c) hnext
  · obtain rfl := Nat.lt_one_iff.mp hu
    exact ⟨rfl, hsums⟩

/-- One unit of fuel is used. -/
theorem Rises.unit {f : Value → Body (Deed Int n) π} {blocks : List (Block (Body (Deed Int n) π))}
    {w : World Int} : Rises code ⟨.act (.send 1) f, blocks, w⟩
      ⟨f .unit, blocks, { w with state := w.state + 1 }⟩ := by
  refine .of_next rfl (by simp) rfl fun total htotal => ?_
  obtain ⟨amount, k, hbody, rfl⟩ := htotal
  cases hbody
  exact ⟨Int.lt_succ w.state, Int.le_refl _⟩

/-- A procedure is called and returns. -/
theorem Rises.call {p : π} {arg v : Value} {f : Value → Body (Deed Int n) π}
    {blocks : List (Block (Body (Deed Int n) π))} {w w' : World Int}
    (h : Rises code ⟨code p arg, .scope f :: blocks, w⟩ ⟨.done v, .scope f :: blocks, w'⟩) :
    Rises code ⟨.call p arg f, blocks, w⟩ ⟨f v, blocks, w'⟩ := by
  have hcalls : Rises code ⟨.call p arg f, blocks, w⟩ ⟨code p arg, .scope f :: blocks, w⟩ := by
    refine .of_next rfl (Int.le_refl _) rfl fun total htotal => ?_
    obtain ⟨amount, k, hbody, -⟩ := htotal
    cases hbody
  have hreturns : Rises code ⟨.done v, .scope f :: blocks, w'⟩ ⟨f v, blocks, w'⟩ := by
    refine .of_next rfl (Int.le_refl _) rfl fun total htotal => ?_
    obtain ⟨amount, k, hbody, -⟩ := htotal
    cases hbody
  exact hcalls.trans (h.trans hreturns)

/-- What holds on the way always holds, if the course ends there. -/
theorem Rises.always (h : Rises code c c') (hover : c'.next? code (Deed.acts count) = none)
    (t : Nat) :
    (c.run code (Deed.acts count) t).world.memory = c.world.memory ∧
      ∀ total, Sums (c.run code (Deed.acts count) t) total →
        c.world.state < total ∧ total ≤ c'.world.state := by
  obtain ⟨-, hmemory, t', rfl, hway⟩ := h
  rcases Nat.lt_or_ge t t' with hlt | hge
  · exact hway t hlt
  · obtain ⟨d, rfl⟩ := Nat.exists_eq_add_of_le hge
    rw [Course.run_of_over hover]
    refine ⟨hmemory, fun total htotal => ?_⟩
    obtain ⟨amount, k, hbody, -⟩ := htotal
    simp [Course.next?, hbody, Deed.acts, count] at hover

/-- What has been used in the end was a sum on the way. -/
theorem exists_sums (c : Course (Deed Int n) π (World Int)) (t : Nat)
    (h : (c.run code (Deed.acts count) t).world.state ≠ c.world.state) :
    ∃ u, Sums (c.run code (Deed.acts count) u) (c.run code (Deed.acts count) t).world.state := by
  induction t with
  | zero => exact absurd rfl h
  | succ t ih =>
    rw [Course.run_succ] at h ⊢
    generalize hc : c.run code (Deed.acts count) t = c' at h ih ⊢
    obtain ⟨body, blocks, w⟩ := c'
    cases body with
    | act d next =>
      cases d with
      | send amount =>
        refine ⟨t, ?_⟩
        rw [hc]
        exact ⟨amount, next, rfl, rfl⟩
      | _ => exact ih h
    | done v =>
      cases hafter : Block.after v blocks with
      | none =>
        simp only [Course.next?, hafter, Option.map_none, Option.getD_none] at h ⊢
        exact ih h
      | some x =>
        simp only [Course.next?, hafter, Option.map_some, Option.getD_some] at h ⊢
        exact ih h
    | _ => exact ih h

/-! ### Fibonacci numbers -/

/-- One call of the procedure for Fibonacci numbers, when it has used its fuel. -/
def fibRest (x : Value) : Body (Deed Int n) Unit :=
  if x = .int 0 ∨ x = .int 1 then .done x
  else
    .checked (Word.sub? x.toInt 1) fun i => .call () (.int i) fun a =>
      .checked (Word.sub? x.toInt 2) fun j => .call () (.int j) fun b =>
        .checked (Word.add? a.toInt b.toInt) fun k => .done (.int k)

/-- One call of the procedure for Fibonacci numbers, as a body. -/
def fibBody (x : Value) : Body (Deed Int n) Unit := .act (.send 1) fun _ => fibRest x

variable (n) in
/-- Bodies that call the procedure for Fibonacci numbers. -/
def fibVocabulary : Vocabulary Content (Deed Int n) Unit :=
  Deed.vocabulary ask (fun _ => fibName) fun _ => fibBody

theorem fibVocabulary_known (hfib : ∀ arg, Γ.procedure fibName arg = (fibStep arg).toComp) :
    (fibVocabulary n).Known Γ := by
  intro p arg
  refine (hfib arg).trans ?_
  show _ = ((fibBody arg).toProg (fibVocabulary n)).toComp
  simp only [fibBody, fibRest, Body.toProg, Body.toProg_checked, apply_ite]
  rfl

theorem fibRest_of_lt {i : Nat} (hi : i < 2) :
    fibRest (.int i) = (.done (.int i) : Body (Deed Int n) Unit) := by
  refine if_pos ?_
  rcases (show i = 0 ∨ i = 1 by omega) with rfl | rfl
  · exact .inl rfl
  · exact .inr rfl

theorem checked_of_fits {operation : String} {k : Int} {f : Int → Body (Deed Int n) π}
    (hfits : Word.Fits k) : Body.checked (Word.checked operation k) f = f k := by
  rw [Word.checked, if_pos hfits]
  rfl

theorem fibRest_of_ge {i : Nat} (hfits : Word.Fits ((i + 1 : Nat) : Int)) :
    fibRest (.int ((i + 2 : Nat) : Int)) = (.call () (.int ((i + 1 : Nat) : Int)) fun a =>
      .call () (.int i) fun b => .checked (Word.add? a.toInt b.toInt) fun k => .done (.int k) :
        Body (Deed Int n) Unit) := by
  have hless : ((i + 2 : Nat) : Int) - 1 = ((i + 1 : Nat) : Int) := by omega
  have hless' : ((i + 2 : Nat) : Int) - 2 = i := by omega
  have hfits' : Word.Fits (i : Int) := by
    simp only [Word.Fits, Word.min, Word.max] at hfits ⊢
    omega
  have hstep :
      ¬ (Value.int ((i + 2 : Nat) : Int) = .int 0 ∨ Value.int ((i + 2 : Nat) : Int) = .int 1) := by
    simp only [Value.int.injEq]
    omega
  rw [fibRest, if_neg hstep]
  simp only [Word.sub?, Value.toInt, hless, hless', checked_of_fits hfits, checked_of_fits hfits']

/-- The fuel that a call uses. -/
def fibFuel (i : Nat) : Int := 2 * Nat.fib (i + 1) - 1

theorem fibFuel_add_two (i : Nat) : fibFuel (i + 2) = 1 + fibFuel (i + 1) + fibFuel i := by
  have hfib : Nat.fib (i + 3) = Nat.fib (i + 1) + Nat.fib (i + 2) := Nat.fib_add_two
  simp only [fibFuel, hfib]
  push_cast
  ring

theorem fibFuel_pos (i : Nat) : 0 < fibFuel i := by
  have hpos : 0 < Nat.fib (i + 1) := Nat.fib_pos.mpr i.succ_pos
  simp only [fibFuel]
  omega

theorem fib_le_fibFuel (i : Nat) : (Nat.fib i : Int) ≤ fibFuel i := by
  have hpos : 0 < Nat.fib (i + 1) := Nat.fib_pos.mpr i.succ_pos
  have hmono : Nat.fib i ≤ Nat.fib (i + 1) := Nat.fib_le_fib_succ
  simp only [fibFuel]
  omega

/-- A call returns the Fibonacci number, and the sums rise by the fuel that it uses. -/
theorem rises_fib (i : Nat) (hfits : Word.Fits (fibFuel i))
    {blocks : List (Block (Body (Deed Int n) Unit))} {w : World Int} :
    Rises (fun _ => fibBody) ⟨fibBody (.int i), blocks, w⟩
      ⟨.done (.int (Nat.fib i)), blocks, { w with state := w.state + fibFuel i }⟩ := by
  induction i using Nat.twoStepInduction generalizing blocks w with
  | zero =>
    have hunit : Rises (fun _ => fibBody) ⟨fibBody (.int (0 : Nat)), blocks, w⟩
        ⟨fibRest (.int (0 : Nat)), blocks, _⟩ := .unit
    rwa [fibRest_of_lt (by omega)] at hunit
  | one =>
    have hunit : Rises (fun _ => fibBody) ⟨fibBody (.int (1 : Nat)), blocks, w⟩
        ⟨fibRest (.int (1 : Nat)), blocks, _⟩ := .unit
    rwa [fibRest_of_lt (by omega)] at hunit
  | more i ih ih' =>
    have hfuel := fibFuel_add_two i
    have hpos := fibFuel_pos i
    have hpos' := fibFuel_pos (i + 1)
    have hless : (i + 1 : Nat) ≤ fibFuel (i + 2) := by
      have hle : i + 2 + 1 ≤ Nat.fib (i + 2 + 1) + 1 := Nat.le_fib_add_one _
      simp only [fibFuel]
      omega
    have hsum : ((Nat.fib (i + 1) : Int) + Nat.fib i) = Nat.fib (i + 2) := by
      rw [Nat.fib_add_two]
      push_cast
      ring
    have hresult := fib_le_fibFuel (i + 2)
    have hfits' : Word.Fits ((i + 1 : Nat) : Int) ∧ Word.Fits (fibFuel (i + 1)) ∧
        Word.Fits (fibFuel i) ∧ Word.Fits (Nat.fib (i + 2) : Int) := by
      simp only [Word.Fits, Word.min, Word.max] at hfits ⊢
      omega
    obtain ⟨hsmaller, hfirst, hsecond, hlast⟩ := hfits'
    have hunit : Rises (fun _ => fibBody) ⟨fibBody (.int (i + 2 : Nat)), blocks, w⟩
        ⟨fibRest (.int (i + 2 : Nat)), blocks, _⟩ := .unit
    rw [fibRest_of_ge hsmaller] at hunit
    have hcalled := hunit.trans ((Rises.call (ih' hfirst)).trans (.call (ih hsecond)))
    simp only [Word.add?, Value.toInt, hsum, checked_of_fits hlast] at hcalled
    rw [hfuel]
    simpa only [Int.add_assoc] using hcalled

variable (n m) in
/-- The course of a call for a Fibonacci number. -/
def fibCourse (i : Nat) : Nat → Course (Deed Int n) Unit (World Int) :=
  (Course.start m (.call () (.int i) .done) 0).run (fun _ => fibBody) (Deed.acts count)

theorem exists_fibCourse_result (i : Nat) (hfits : Word.Fits (fibFuel i)) :
    ∃ t, (fibCourse n m i t).result? = some (.int (Nat.fib i)) ∧
      (fibCourse n m i t).world = ⟨m.cells.find?, fibFuel i⟩ ∧
      ∀ u, (fibCourse n m i u).world.memory = m.cells.find? ∧
        ∀ total, Sums (fibCourse n m i u) total → 0 < total ∧ total ≤ fibFuel i := by
  have hrises : Rises (fun _ => fibBody) (Course.start (n := n) m (.call () (.int i) .done) 0)
      ⟨.done (.int (Nat.fib i)), [], ⟨m.cells.find?, 0 + fibFuel i⟩⟩ := .call (rises_fib i hfits)
  rw [Int.zero_add] at hrises
  obtain ⟨t, ht, -⟩ := hrises.gets
  refine ⟨t, ?_, ?_, hrises.always rfl⟩
  · exact (congrArg Course.result? ht).trans rfl
  · exact congrArg Course.world ht

/-! ### The result -/

section

variable (hm : m.Numbered) (hreleasing : m.releasing = []) (hpending : m.pending = none)
  (hsize : m.stackSize < StackPool.addressSpace) (hn : n ≤ m.cells.next)
  (htranscript : Transcript.cell < n)
include hm hreleasing hpending hsize hn htranscript

/-- The calls for a Fibonacci number are measured. -/
theorem measured_fib (hmeasure : Γ.handlerType measureName = measure)
    (hvoc : (fibVocabulary n).Known Γ) {i : Nat} (hfits : Word.Fits (fibFuel i))
    (next : Value → Comp Content) :
    ∃ k, m.ComesBack ((m.goOn (.eval (measured [] (fib i) next))).run Γ k) m.cells.find?
      (next (.pair (.int (Nat.fib i)) (.int (fibFuel i)))) := by
  obtain ⟨t, hresult, hworld, hway⟩ := exists_fibCourse_result (n := n) (m := m) i hfits
  have hcompleted := measured_completes hmeasure hvoc hm hreleasing hpending hsize hn htranscript
    (.call () (.int i) .done) next fun u total h => by
      have hbetween := (hway u).2 total h
      simp only [Word.Fits, Word.min, Word.max] at hfits ⊢
      omega
  obtain ⟨clock, hcompleted⟩ := hcompleted
  have hback : ∃ k, m.ComesBack ((m.goOn (.eval (measured [] (fib i) next))).run Γ k)
      (fibCourse n m i t).world.memory
      (next (.pair (.int (Nat.fib i)) (.int (fibCourse n m i t).world.state))) :=
    hcompleted.returns t _ hresult
  rwa [hworld] at hback

/-- The calls for a Fibonacci number with a budget. -/
theorem budgeted_fib (hbounded : Γ.handlerType boundedName = bounded)
    (hvoc : (fibVocabulary n).Known Γ) {i : Nat} (hbudget : Word.Fits budget)
    (hfits : Word.Fits (fibFuel i)) (next : Value → Comp Content) :
    ∃ k, m.ComesBack ((m.goOn (.eval (withBudget budget [] (fib i) next))).run Γ k) m.cells.find?
      (next (if fibFuel i ≤ budget then .present (.int (Nat.fib i)) else .absent)) := by
  obtain ⟨t, hresult, hworld, hway⟩ := exists_fibCourse_result (n := n) (m := m) i hfits
  have hleft : ∀ total, 0 < total → total ≤ budget →
      total ≤ budget ∧ Word.Fits (budget - total) := by
    intro total hpos hle
    simp only [Word.Fits, Word.min, Word.max] at hbudget ⊢
    omega
  split
  · rename_i hle
    obtain ⟨clock, hcompleted⟩ := budgeted_completes hbounded hvoc hm hreleasing hpending hsize hn
      htranscript (.call () (.int i) .done) next fun u total h =>
        hleft total ((hway u).2 total h).1 (((hway u).2 total h).2.trans hle)
    have hback : ∃ k, m.ComesBack ((m.goOn (.eval (withBudget budget [] (fib i) next))).run Γ k)
        (fibCourse n m i t).world.memory (next (.present (.int (Nat.fib i)))) :=
      hcompleted.returns t _ hresult
    rwa [hworld] at hback
  · rename_i hmore
    have hrisen : (fibCourse n m i t).world.state ≠ 0 := by
      rw [hworld]
      exact (fibFuel_pos i).ne'
    obtain ⟨u, hu⟩ := exists_sums (Course.start m (.call () (.int i) .done) 0) t hrisen
    have hused : Sums (fibCourse n m i u) (fibFuel i) := by
      have heq : (fibCourse n m i t).world.state = fibFuel i := by rw [hworld]
      exact heq ▸ hu
    classical
    have hsome : ∃ u total, Sums (fibCourse n m i u) total ∧ budget < total :=
      ⟨u, fibFuel i, hused, by omega⟩
    obtain ⟨total, hsums, htotal⟩ := Nat.find_spec hsome
    obtain ⟨clock, -, -, j, hback⟩ := budgeted_stops hbounded hvoc hm hreleasing hpending hsize hn
      htranscript (.call () (.int i) .done) next hsums htotal fun u hu total h =>
        hleft total ((hway u).2 total h).1 (by
          by_contra hlt
          exact Nat.find_min hsome hu ⟨total, h, by omega⟩)
    have hmemory : (fibCourse n m i (Nat.find hsome)).world.memory = m.cells.find? := (hway _).1
    exact ⟨_, hmemory ▸ hback⟩

end

/-- A budget is enough for a body exactly if all sums of what it uses are in the budget; otherwise
the body is stopped where a sum exceeds the budget for the first time. What the calls for Fibonacci
numbers use is known. -/
theorem budgets_agree_with_measures (hbounded : Γ.handlerType boundedName = bounded)
    (hmeasure : Γ.handlerType measureName = measure)
    (hfib : ∀ arg, Γ.procedure fibName arg = (fibStep arg).toComp) (hm : m.Numbered)
    (hreleasing : m.releasing = []) (hpending : m.pending = none)
    (hsize : m.stackSize < StackPool.addressSpace) (hn : n ≤ m.cells.next)
    (htranscript : Transcript.cell < n) (budget : Int) (next : Value → Comp Content) :
    (∀ (π : Type) (name : π → String) (code : π → Value → Body (Deed Int n) π)
      (body : Body (Deed Int n) π),
      let voc := Deed.vocabulary ask name code
      let course := (Course.start m body 0).run code (Deed.acts count)
      let measuring := m.goOn (.eval (measured [] (body.toProg voc) next))
      let budgeted := m.goOn (.eval (withBudget budget [] (body.toProg voc) next))
      voc.Known Γ →
        (∀ t total, Sums (course t) total → Word.Fits total ∧ Word.Fits (budget - total)) →
        (∃ clock, (Course.start m body 0).Completed Γ voc (Deed.acts count) m measuring
          (fun w v => next (.pair v (.int w.state))) clock) ∧
        ((∀ t total, Sums (course t) total → total ≤ budget) →
          ∃ clock, (Course.start m body 0).Completed Γ voc (Deed.acts count) m budgeted
            (fun _ v => next (.present v)) clock) ∧
        ∀ t total, Sums (course t) total → budget < total →
          (∀ u < t, ∀ total, Sums (course u) total → total ≤ budget) →
          ∃ clock : Nat → Nat, StrictMono clock ∧
            (∀ u ≤ t, (course u).Reached voc (budgeted.run Γ (clock u))) ∧
            ∃ j, m.ComesBack (budgeted.run Γ (clock t + j)) (course t).world.memory
              (next .absent)) ∧
    ∀ i : Nat, Word.Fits budget → Word.Fits (2 * Nat.fib (i + 1) - 1) →
      (∃ k, m.ComesBack ((m.goOn (.eval (measured [] (fib i) next))).run Γ k) m.cells.find?
        (next (.pair (.int (Nat.fib i)) (.int (2 * Nat.fib (i + 1) - 1))))) ∧
      ∃ k, m.ComesBack ((m.goOn (.eval (withBudget budget [] (fib i) next))).run Γ k) m.cells.find?
        (next (if 2 * Nat.fib (i + 1) - 1 ≤ budget then .present (.int (Nat.fib i))
          else .absent)) := by
  constructor
  · intro π name code body voc course measuring budgeted hvoc hfits
    refine ⟨?_, fun hle => ?_, fun t total hsums hmore hle => ?_⟩
    · exact measured_completes hmeasure hvoc hm hreleasing hpending hsize hn htranscript
        body next fun t total h => (hfits t total h).1
    · exact budgeted_completes hbounded hvoc hm hreleasing hpending hsize hn htranscript
        body next fun t total h => ⟨hle t total h, (hfits t total h).2⟩
    · exact budgeted_stops hbounded hvoc hm hreleasing hpending hsize hn htranscript body
        next hsums hmore fun u hu total h => ⟨hle u hu total h, (hfits u total h).2⟩
  · intro i hbudget hfits
    have hvoc : (fibVocabulary n).Known Γ := fibVocabulary_known hfib
    exact ⟨measured_fib hm hreleasing hpending hsize hn htranscript hmeasure hvoc hfits next,
      budgeted_fib hm hreleasing hpending hsize hn htranscript hbounded hvoc hbudget hfits next⟩

/-- A body that uses fuel three times, and gains some in between. -/
def spending : Body (Deed Int 5) Empty :=
  .act (.send 1) fun _ => .act (.send (-3)) fun _ => .act (.send 5) fun _ => .done (.int 7)

/-- The course of the body with three uses of fuel. -/
def spendingCourse : Nat → Course (Deed Int 5) Empty (World Int) :=
  (Course.start (Machine.start {} Client.cells [] (.done .unit)) spending 0).run (fun p _ => p.elim)
    (Deed.acts count)

theorem spendingCourse_sums {t : Nat} {total : Int} (h : Sums (spendingCourse t) total) :
    t = 0 ∧ total = 1 ∨ t = 1 ∧ total = -2 ∨ t = 2 ∧ total = 3 := by
  match t with
  | 0 | 1 | 2 =>
    obtain ⟨amount, k, hbody, rfl⟩ := h
    cases hbody
    decide
  | t + 3 =>
    rw [spendingCourse, Nat.add_comm, Course.run_of_over rfl] at h
    obtain ⟨amount, k, hbody, -⟩ := h
    cases hbody

/-- With a budget of two the third use is denied. The call for the fifth number takes fifteen
units. -/
theorem budgets_agree_with_measures_examples :
    let Γ := Client.libraryOf handlers procedures
    let voc := Deed.vocabulary (n := 5) ask Empty.elim fun p _ => p.elim
    let m := Machine.start {} Client.cells [] (.done .unit)
    let budgeted := m.goOn (.eval (withBudget 2 [] (spending.toProg voc) .done))
    (∃ clock : Nat → Nat, StrictMono clock ∧
      (∀ u ≤ 2, (spendingCourse u).Reached voc (budgeted.run Γ (clock u))) ∧
      ∃ j, m.ComesBack (budgeted.run Γ (clock 2 + j)) (spendingCourse 2).world.memory
        (.done .absent)) ∧
    (∃ k, m.ComesBack ((m.goOn (.eval (measured [] (fib 5) .done))).run Γ k) m.cells.find?
      (.done (.pair (.int 5) (.int 15)))) ∧
    ∃ k, m.ComesBack ((m.goOn (.eval (withBudget 2 [] (fib 5) .done))).run Γ k) m.cells.find?
      (.done .absent) := by
  intro Γ voc m budgeted
  have h := budgets_agree_with_measures (Γ := Γ) (n := 5) rfl rfl (fun _ => rfl)
    (Machine.numbered_start {} Client.cells [] (.done .unit)) rfl rfl (by decide) (by decide)
    (by decide) 2 .done
  have hfits : ∀ t total, Sums (spendingCourse t) total →
      Word.Fits total ∧ Word.Fits (2 - total) := by
    intro t total hsums
    rcases spendingCourse_sums hsums with ⟨-, rfl⟩ | ⟨-, rfl⟩ | ⟨-, rfl⟩ <;> decide
  obtain ⟨-, -, hstops⟩ := h.1 Empty Empty.elim (fun p _ => p.elim) spending (fun p => p.elim) hfits
  refine ⟨hstops 2 3 ⟨5, _, rfl, rfl⟩ (by decide) fun u hu total hsums => ?_,
    h.2 5 (by decide) (by decide)⟩
  rcases spendingCourse_sums hsums with ⟨-, rfl⟩ | ⟨-, rfl⟩ | ⟨rfl, -⟩
  · decide
  · decide
  · exact absurd hu (Nat.lt_irrefl 2)

end EffectHandlers.Fuel
