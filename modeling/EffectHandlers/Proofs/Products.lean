import Mathlib.Algebra.BigOperators.Ring.List
import EffectHandlers.Client.Library
import EffectHandlers.Proofs.Allotting
import EffectHandlers.Proofs.Budgets
/-!
# Products up to the first zero

A product is computed under a fallback: at the first zero the body gives up, and is gone. Whether
the numbers in front of the zero can be multiplied is decided by their products from the left, each
of which has to be a word.
-/

namespace EffectHandlers

variable {Γ : Library Content} {o : Outline Content} {g : Guest} {cells : Store (Shared Content)}

/-- A fiber that is waited for is not parked. -/
theorem Fibers.Tidy.notMem_parked {κ : Type} {fs : Fibers κ} (h : fs.Tidy) {r : Resumer κ}
    (hr : r ∈ fs.resumers) : r.fiber ∉ fs.parked.entries.map (·.1) := by
  obtain ⟨-, -, hdisjoint⟩ := List.nodup_append.mp h.distinct
  intro hmem
  exact hdisjoint _ (List.mem_map_of_mem hr) _ hmem rfl

/-- A panic with this message goes on in the code below the one that was about to run. The slot for
tail resumes is as it was, and nothing is left to release. -/
structure Machine.Fails (m m' : Machine Content) (message : String) : Prop where
  control : m'.control = .unwind message
  stack : m'.stack = m.stack
  fiber : m'.fibers.current = m.fibers.current
  resumers : m'.fibers.resumers = m.fibers.resumers
  pending : m'.pending = m.pending
  idle : m'.releasing = []

theorem Machine.Numbered.exists_fails {m m' : Machine Content} {s : Outline Content} {shares : Nat}
    {message : String} (hm : m'.Numbered) (hs : m'.outline = s) (h : s.Gets Γ fun s' =>
      s' = (m.outline.stranded Γ g cells shares).on m.stack (.unwind message)) :
    ∃ k, m.Fails (m'.run Γ k) message := by
  obtain ⟨k, -, hk⟩ := h m' hm hs
  exact ⟨k,
    { control := congrArg Outline.control hk
      stack := congrArg Outline.stack hk
      fiber := congrArg Outline.current hk
      resumers := congrArg Outline.resumers hk
      pending := congrArg Outline.pending hk
      idle := congrArg Outline.releasing hk }⟩

namespace Fallback

/-- The numbers in front of the first zero. -/
def front (xs : List Int) : List Int := xs.takeWhile (· ≠ 0)

/-- A product from the left of the numbers in front of the first zero is no word. -/
def Overflows (acc : Int) (xs : List Int) : Prop :=
  ∃ p, p <+: front xs ∧ ¬ Word.Fits (acc * p.prod)

variable {acc x : Int} {xs : List Int}

theorem not_overflows_nil (hacc : Word.Fits acc) : ¬ Overflows acc [] := by
  rintro ⟨p, hp, hlarge⟩
  obtain rfl := List.prefix_nil.mp hp
  exact hlarge (by simpa using hacc)

/-- Nothing behind a zero matters. -/
theorem not_overflows_zero (hacc : Word.Fits acc) : ¬ Overflows acc (0 :: xs) := by
  rintro ⟨p, hp, hlarge⟩
  obtain rfl := List.prefix_nil.mp (show p <+: [] from hp)
  exact hlarge (by simpa using hacc)

theorem overflows_cons (hacc : Word.Fits acc) (hx : x ≠ 0) :
    Overflows acc (x :: xs) ↔ Overflows (acc * x) xs := by
  have hfront : front (x :: xs) = x :: front xs := by simp [front, hx]
  unfold Overflows
  rw [hfront]
  constructor
  · rintro ⟨p, hp, hlarge⟩
    rcases List.prefix_cons_iff.mp hp with rfl | ⟨p', rfl, hp'⟩
    · exact absurd (by simpa using hacc) hlarge
    · exact ⟨p', hp', by rwa [List.prod_cons, ← mul_assoc] at hlarge⟩
  · rintro ⟨p, hp, hlarge⟩
    exact ⟨x :: p, List.cons_prefix_cons.mpr ⟨rfl, hp⟩, by rwa [List.prod_cons, ← mul_assoc]⟩

/-- The first product is the one that is no word, or a later one is. -/
theorem overflows_of_not_fits (hx : x ≠ 0) (h : ¬ Word.Fits (acc * x)) :
    Overflows acc (x :: xs) := by
  refine ⟨[x], ?_, by simpa using h⟩
  simp [front, hx, List.cons_prefix_cons]

/-! ### The loop -/

variable {next : Value → Comp Content} {S : List (Activation Content)} {μ : Memory}

theorem handler_error : handler.Serves errorCommand (.noResume fun cell _ =>
    Prog.toComp (Task.readValue cell)) := ⟨0, _, rfl, rfl⟩

theorem multiply_cons (hx : x ≠ 0) (k : Value → Comp Content) :
    multiply acc (x :: xs) k = Prog.checked (Word.mul? acc x) fun n => multiply n xs k := by
  simp only [multiply, if_neg hx]
  rfl

/-- At a zero, the rest of the body is abandoned, and the answer is the fallback. -/
theorem gets_fallback (hhandler : Γ.handlerType g.handlerType = handler)
    (hpending : o.pending = none)
    (hholds : cells.Holds g.handler (.value (.int 0)) (fun _ => 0) μ) :
    ((o.hosting Γ g cells 3 (.stepping :: .bind next :: S)).on [.owning [.reference g.this]]
      (.eval (multiply acc (0 :: xs) .done))).Gets Γ fun s' =>
        ∃ cells : Store (Shared Content), cells.find? = μ ∧
          s' = (o.storing cells).on S (.eval (next (.int 0))) := by
  have hvalue : Memory.value cells.find? g.handler = .int 0 := by
    simp [Memory.value, hholds.own]
  refine (Outline.gets_forsaken (U := []) (hhandler ▸ handler_error) rfl).trans ?_
  rintro s' rfl hcells
  refine .readValue hvalue (.done (.owning (.lastClauseEnds hpending hholds.own (Nat.le_refl 1) rfl
    (.last (t := (o.storing (cells.erase g.handler)).on S (.eval (next (.int 0))))
      (fun _ _ => rfl) fun _ => ⟨_, hholds.erase hcells, rfl⟩))))

/-- As long as the products are words, the loop goes on to the end or to the first zero. -/
theorem gets_multiplied (hhandler : Γ.handlerType g.handlerType = handler)
    (hpending : o.pending = none)
    (hholds : cells.Holds g.handler (.value (.int 0)) (fun _ => 0) μ) (hacc : Word.Fits acc)
    (hfits : ¬ Overflows acc xs) :
    ((o.hosting Γ g cells 3 (.stepping :: .bind next :: S)).on [.owning [.reference g.this]]
      (.eval (multiply acc xs .done))).Gets Γ fun s' =>
        ∃ cells : Store (Shared Content), cells.find? = μ ∧
          s' = (o.storing cells).on S (.eval (next (.int (acc * xs.prod)))) := by
  induction xs generalizing acc with
  | nil =>
    have hkeeping : Keeping Γ (fun _ => .value (.int 0)) o g next S ⟨μ, ()⟩
        (o.hosting Γ g cells 3 (.stepping :: .bind next :: S)) := ⟨cells, hholds, rfl⟩
    rw [List.prod_nil, mul_one]
    refine hkeeping.gets_answered hpending rfl fun _ h => ?_
    rw [hhandler]
    exact .done h
  | cons x xs ih =>
    by_cases hx : x = 0
    · subst hx
      rw [List.prod_cons, zero_mul, mul_zero]
      exact gets_fallback hhandler hpending hholds
    · have hword : Word.Fits (acc * x) := by
        by_contra hlarge
        exact hfits (overflows_of_not_fits hx hlarge)
      rw [multiply_cons hx, List.prod_cons, ← mul_assoc]
      exact Fuel.gets_checked hword (ih hword fun h => hfits ((overflows_cons hacc hx).mpr h))

/-- The first product that is no word ends the loop with a panic. -/
theorem gets_overflowed (hfiber : g.fiber ∉ o.parked.map (·.1)) (hacc : Word.Fits acc)
    (h : Overflows acc xs) :
    ((o.hosting Γ g cells 3 (.stepping :: .bind next :: S)).on [.owning [.reference g.this]]
      (.eval (multiply acc xs .done))).Gets Γ fun s' =>
        s' = (o.stranded Γ g cells 1).on S (.unwind (Word.overflow "multiply")) := by
  induction xs generalizing acc with
  | nil => exact absurd h (not_overflows_nil hacc)
  | cons x xs ih =>
    by_cases hx : x = 0
    · subst hx
      exact absurd h (not_overflows_zero hacc)
    rw [multiply_cons hx]
    by_cases hword : Word.Fits (acc * x)
    · exact Fuel.gets_checked hword (ih hword ((overflows_cons hacc hx).mp h))
    · rw [Word.mul?, Word.checked, if_neg hword]
      exact .next (fun _ _ => rfl) (Outline.gets_stranded hfiber)

/-! ### Products in threads -/

/-- In every state of every program: a product from the left that is no word ends the call in a
panic. Otherwise the call returns 0 if there is a zero among the numbers, and their product if there
is none; then nothing has changed for the code that called. -/
theorem product_ends_at_zero {xs : List Int} {next : Value → Comp Content}
    (hhandler : Γ.handlerType handlerName = handler) (settings : SettingsSlot)
    (cells : List Content) (statics : List Owned) (main : Comp Content) (n : Nat)
    (hcall : (Machine.run Γ n (.start settings cells statics main)).Evaluates (product xs next))
    (hpending : (Machine.run Γ n (.start settings cells statics main)).pending = none)
    (hsize : (Machine.run Γ n (.start settings cells statics main)).stackSize <
      StackPool.addressSpace) :
    let m := Machine.run Γ n (.start settings cells statics main)
    ((∃ p, p <+: front xs ∧ ¬ Word.Fits p.prod) →
      ∃ k, m.Fails (m.run Γ k) "attempt to multiply with overflow") ∧
    ((∀ p, p <+: front xs → Word.Fits p.prod) →
      ∃ k, m.ComesBack (m.run Γ k) m.cells.find? (next (.int (if 0 ∈ xs then 0 else xs.prod)))) := by
  intro m
  have hnumbered : m.Numbered := (Machine.numbered_start settings cells statics main).run n
  have hsame : m.goOn (.eval (product xs next)) = m := by
    rw [← hcall.2]
    rfl
  obtain ⟨g, hname, hcell, cells', hholds, hrun⟩ := Machine.exists_installed (Γ := Γ) hnumbered
    hcall.1 (by rw [hhandler]; rfl) hsize (.value (.int 0)) (fun _ => multiply 1 xs .done) next
  replace hrun : (m.run Γ 3).outline = _ := hsame ▸ hrun
  have hone : Word.Fits 1 := by decide
  refine ⟨fun ⟨p, hp, hlarge⟩ => ?_, fun hfits => ?_⟩
  · have htidy := (Machine.run_tidy Γ settings cells statics main (n + 3)).1
    rw [Machine.run_add] at htidy
    have hparked : (m.run Γ 3).fibers.parked.entries = m.outline.parked :=
      congrArg Outline.parked hrun
    have hwaiting : ∃ r ∈ (m.run Γ 3).fibers.resumers, r.fiber = g.fiber := by
      rw [show (m.run Γ 3).fibers.resumers = _ from congrArg Outline.resumers hrun]
      exact ⟨_, List.mem_cons_self, rfl⟩
    obtain ⟨r, hr, hfiber⟩ := hwaiting
    have hfresh : g.fiber ∉ m.outline.parked.map (·.1) :=
      hfiber ▸ hparked ▸ htidy.notMem_parked hr
    have hoverflows : Overflows 1 xs := ⟨p, hp, by rwa [one_mul]⟩
    obtain ⟨k, hk⟩ := (hnumbered.run 3).exists_fails hrun (m := m)
      (gets_overflowed hfresh hone hoverflows)
    rw [← Machine.run_add] at hk
    exact ⟨3 + k, hk⟩
  · have hnot : ¬ Overflows 1 xs := by
      rintro ⟨p, hp, hlarge⟩
      exact hlarge (by simpa using hfits p hp)
    have hproduct : 1 * xs.prod = if 0 ∈ xs then 0 else xs.prod := by
      split
      · rw [one_mul, List.prod_eq_zero ‹_›]
      · exact one_mul _
    obtain ⟨k, hk⟩ := (hnumbered.run 3).exists_comesBack hrun (m := m)
      (gets_multiplied (hname ▸ hhandler) hpending hholds hone hnot)
    rw [← Machine.run_add, hproduct] at hk
    exact ⟨3 + k, hk⟩

/-- A product with a zero in it, and one that overflows in front of its zero. -/
theorem product_ends_at_zero_demo :
    let Γ := Client.libraryOf handlers []
    let first := Machine.start {} Client.cells [] (product [1, 2, 0, 4, 5] .done)
    let second := Machine.start {} Client.cells [] (product [4611686018427387904, -3, 0] .done)
    (first.Evaluates (product [1, 2, 0, 4, 5] .done) ∧ first.pending = none ∧
      first.stackSize < StackPool.addressSpace) ∧
    (∃ k, first.ComesBack (first.run Γ k) first.cells.find? (.done (.int 0))) ∧
    ∃ k, second.Fails (second.run Γ k) "attempt to multiply with overflow" := by
  intro Γ first second
  have hsize : ({} : SettingsSlot).use.1.stackSize < StackPool.addressSpace := by decide
  have hfirst : ∀ p ∈ [1, 2].inits, Word.Fits p.prod := by decide
  have hsecond : ¬ Word.Fits [4611686018427387904, -3].prod := by decide
  refine ⟨⟨⟨rfl, rfl⟩, rfl, hsize⟩, ?_, ?_⟩
  · refine (product_ends_at_zero (Γ := Γ) rfl {} Client.cells [] (product [1, 2, 0, 4, 5] .done) 0
      ⟨rfl, rfl⟩ rfl hsize).2 fun p hp => ?_
    exact hfirst p ((List.mem_inits p [1, 2]).mpr hp)
  · refine (product_ends_at_zero (Γ := Γ) rfl {} Client.cells []
      (product [4611686018427387904, -3, 0] .done) 0 ⟨rfl, rfl⟩ rfl hsize).1 ?_
    exact ⟨[4611686018427387904, -3], List.prefix_rfl, hsecond⟩

end Fallback

end EffectHandlers
