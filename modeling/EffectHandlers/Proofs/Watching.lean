import EffectHandlers.Proofs.Careful
import EffectHandlers.Proofs.Conservation
/-!
# Watching a run

Whether a thread that halts is careful can be seen while it runs.
-/

namespace EffectHandlers.Machine

variable {ω : Type} [Contents ω] {Γ : Library ω} {m : Machine ω}

/-- What the next step drops. -/
def dropping (Γ : Library ω) (m : Machine ω) : Option Owned :=
  match m.releasing with
  | .asset o :: _ => if m.holds o && !(m.step Γ).holds o then some o else none
  | _ => none

/-- Whether a thread has halted. -/
def hasHalted (m : Machine ω) : Bool :=
  match m.control with
  | .halted _ => true
  | _ => false

/-- Whether a thread halts after so many steps and is careful until then, where something was
dropped before. -/
def watch (Γ : Library ω) : Nat → List Owned → Machine ω → Bool
  | 0, _, m => m.hasHalted
  | n + 1, dropped, m =>
    m.uses.all (fun o => !dropped.contains o) && !m.asksPool &&
      watch Γ n ((m.dropping Γ).toList ++ dropped) (m.step Γ)

theorem dropping_of_drops {o : Owned} (h : m.Drops Γ o) : m.dropping Γ = some o := by
  obtain ⟨hhead, hholds, hgone⟩ := h
  cases hreleasing : m.releasing with
  | nil => simp [hreleasing] at hhead
  | cons x rest =>
    rw [hreleasing] at hhead
    obtain rfl := Option.some.inj hhead
    simp [dropping, hreleasing, hholds, hgone]

/-- A thread that has halted evaluates nothing. -/
theorem idle_of_hasHalted (h : m.hasHalted = true) (n : Nat) :
    (m.run Γ n).uses = [] ∧ (m.run Γ n).asksPool = false := by
  unfold hasHalted at h
  split at h
  · rename_i o hcontrol
    have hlater := control_run_halted (Γ := Γ) hcontrol n
    constructor <;> simp only [uses, asksPool, hlater] <;> split <;> simp_all
  · cases h

/-- A thread is careful if it was watched until it halted. -/
theorem careful_of_watch {N : Nat} (h : watch Γ N [] m = true) : m.Careful Γ := by
  have hlater : ∀ N i dropped, (∀ o, m.Dropped Γ i o → o ∈ dropped) →
      watch Γ N dropped (m.run Γ i) = true → ∀ n ≥ i,
        (∀ o ∈ (m.run Γ n).uses, ¬ m.Dropped Γ n o) ∧ (m.run Γ n).asksPool = false := by
    intro N
    induction N with
    | zero =>
      intro i dropped _ hwatch n hn
      obtain ⟨d, rfl⟩ := Nat.exists_eq_add_of_le hn
      obtain ⟨huses, hpool⟩ := idle_of_hasHalted (Γ := Γ) hwatch d
      rw [run_add, huses]
      exact ⟨fun o ho => absurd ho List.not_mem_nil, hpool⟩
    | succ N ih =>
      intro i dropped hdropped hwatch n hn
      simp only [watch, Bool.and_eq_true, List.all_eq_true, Bool.not_eq_true'] at hwatch
      obtain ⟨⟨huses, hpool⟩, hwatch⟩ := hwatch
      rcases Nat.eq_or_lt_of_le hn with rfl | hn
      · refine ⟨fun o ho hgone => ?_, hpool⟩
        have := huses o ho
        simp [hdropped o hgone] at this
      · rw [← run_succ] at hwatch
        refine ih (i + 1) _ (fun o ho => ?_) hwatch n hn
        obtain ⟨k, hk, hdrops⟩ := ho
        rcases Nat.eq_or_lt_of_le (Nat.le_of_lt_succ hk) with rfl | hk
        · rw [dropping_of_drops hdrops]
          exact List.mem_cons_self
        · exact List.mem_append_right _ (hdropped o ⟨k, hk, hdrops⟩)
  exact fun n => hlater N 0 [] (fun o ⟨k, hk, _⟩ => absurd hk (Nat.not_lt_zero k)) h n (Nat.zero_le n)

end EffectHandlers.Machine
