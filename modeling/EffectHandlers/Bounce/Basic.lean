/-!
# Running steps in a loop

A suspended computation takes one step at a time: it is done, or it names the computation that
runs in its place. Running steps in one loop keeps a long chain of such hand-overs from nesting.
-/

namespace EffectHandlers

/-- What one step of a suspended computation leads to. -/
inductive Step (κ α : Type) where
  /-- The computation has its answer. -/
  | done (answer : α)
  /-- Another computation runs in its place. -/
  | tail (rest : κ)

namespace Step

variable {κ α σ : Type}

/-- Take steps until one is done, at most this many; `none` when they did not suffice. -/
def run (step : κ → σ → Step κ α × σ) : Nat → Step κ α → σ → Option (α × σ)
  | _, .done answer, s => some (answer, s)
  | 0, .tail _, _ => none
  | n + 1, .tail rest, s =>
    let (next, s) := step rest s
    run step n next s

/-- More steps than needed change nothing. -/
theorem run_mono (step : κ → σ → Step κ α × σ) {n m : Nat} (hnm : n ≤ m) {t : Step κ α} {s : σ}
    {r : α × σ} (hrun : run step n t s = some r) : run step m t s = some r := by
  induction n generalizing m t s with
  | zero =>
    cases t with
    | done a => cases m <;> simpa [run] using hrun
    | tail k => simp [run] at hrun
  | succ n ih =>
    cases t with
    | done a => cases m <;> simpa [run] using hrun
    | tail k =>
      obtain ⟨m, rfl⟩ : ∃ m', m = m' + 1 := ⟨m - 1, by omega⟩
      simp only [run] at hrun ⊢
      exact ih (by omega) hrun

end Step

end EffectHandlers
