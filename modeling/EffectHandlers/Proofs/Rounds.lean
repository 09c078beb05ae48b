import EffectHandlers.Client.RoundRobin
import Mathlib.Data.List.Basic
import Mathlib.Data.List.Count
import Mathlib.Data.List.Nodup
/-!
# Rounds

The queue of round-robin threads, told by what its entries go on with. In each round every entry is
taken out once, and what the threads put in behind them is the next round: the main thread with one
more worker as long as there are workers to fork, and each worker until it has taken all its steps.
-/

namespace EffectHandlers.RoundRobin

/-- What an entry of the queue goes on with. -/
inductive Job where
  /-- The main thread, with so many workers forked. -/
  | main (forked : Nat)
  /-- A worker that has taken so many steps. -/
  | worker (k taken : Nat)
  deriving DecidableEq

namespace Job

/-- What is put into the queue when a job goes on. -/
def pushes (workers steps : Nat) : Job → List Job
  | main k => if k < workers then [main (k + 1), worker k 0] else []
  | worker k d => if d < steps then [worker k (d + 1)] else []

/-- The numbers that are written when a job goes on. -/
def writes (steps : Nat) : Job → List Nat
  | main _ => []
  | worker k d => if d < steps then [k] else []

end Job

/-- Jobs that are served until none is left write these numbers. -/
inductive Serves (workers steps : Nat) : List Job → List Nat → Prop
  | empty : Serves workers steps [] []
  | next {job : Job} {jobs : List Job} {out : List Nat}
      (h : Serves workers steps (jobs ++ job.pushes workers steps) out) :
      Serves workers steps (job :: jobs) (job.writes steps ++ out)

/-- The workers that write their numbers in a round, the last one first. -/
def round (workers steps j : Nat) : List Nat :=
  ((List.range workers).filter fun k => k ≤ j ∧ j < k + steps).reverse

/-- The numbers that workers write, round by round. -/
def turns (workers steps : Nat) : List Nat :=
  (List.range (workers + steps - 1)).flatMap (round workers steps)

/-- The queue after so many rounds. -/
def queueAt (workers steps j : Nat) : List Job :=
  (if j ≤ workers then [.main j] else []) ++
    (List.range (min j workers)).reverse.flatMap fun k =>
      if j - 1 - k ≤ steps then [.worker k (j - 1 - k)] else []

variable {workers steps j k : Nat}

/-! ### One round -/

/-- A round is over when each entry has been served once. -/
theorem Serves.round {jobs rest : List Job} {out : List Nat}
    (h : Serves workers steps (rest ++ jobs.flatMap (Job.pushes workers steps)) out) :
    Serves workers steps (jobs ++ rest) (jobs.flatMap (Job.writes steps) ++ out) := by
  induction jobs generalizing rest with
  | nil => simpa using h
  | cons job jobs ih =>
    rw [List.flatMap_cons, List.append_assoc, List.cons_append]
    refine .next ?_
    rw [List.append_assoc]
    refine ih ?_
    rwa [List.append_assoc, ← List.flatMap_cons]

theorem queueAt_succ (workers steps j : Nat) :
    queueAt workers steps (j + 1) =
      (queueAt workers steps j).flatMap (Job.pushes workers steps) := by
  have hworkers : ∀ k < j, (if j - 1 - k ≤ steps then [Job.worker k (j - 1 - k)] else []).flatMap
      (Job.pushes workers steps) = if j - k ≤ steps then [.worker k (j - k)] else [] := by
    intro k hk
    have hnext : j - 1 - k + 1 = j - k := by omega
    by_cases hsteps : j - k ≤ steps
    · simp [Job.pushes, hsteps, hnext, show j - 1 - k ≤ steps by omega,
        show j - 1 - k < steps by omega]
    · by_cases hlast : j - 1 - k ≤ steps
      · simp [Job.pushes, hsteps, hlast, show ¬ j - 1 - k < steps by omega]
      · simp [hsteps, hlast]
  have hrest : ∀ n ≤ j, ((List.range n).reverse.flatMap fun k =>
      if j - 1 - k ≤ steps then [Job.worker k (j - 1 - k)] else []).flatMap
        (Job.pushes workers steps) =
      (List.range n).reverse.flatMap fun k => if j - k ≤ steps then [.worker k (j - k)] else [] := by
    intro n hn
    rw [List.flatMap_assoc]
    refine List.flatMap_congr fun k hk => hworkers k ?_
    exact Nat.lt_of_lt_of_le (List.mem_range.mp (List.mem_reverse.mp hk)) hn
  unfold queueAt
  rw [List.flatMap_append, hrest _ (Nat.min_le_left j workers), Nat.add_sub_cancel]
  rcases Nat.lt_trichotomy j workers with hlt | rfl | hlt
  · -- one more worker is forked
    rw [Nat.min_eq_left hlt, Nat.min_eq_left (Nat.le_of_lt hlt), List.range_succ]
    simp [Job.pushes, hlt, Nat.le_of_lt hlt, Nat.succ_le_of_lt hlt]
  · simp [Job.pushes]
  · rw [Nat.min_eq_right (by omega), Nat.min_eq_right (Nat.le_of_lt hlt)]
    simp [Nat.not_le_of_lt hlt, show ¬ j + 1 ≤ workers by omega]

theorem filter_range_lt (m n : Nat) : (List.range n).filter (· < m) = List.range (min m n) := by
  induction n with
  | zero => simp
  | succ n ih =>
    rw [List.range_succ, List.filter_append, ih]
    by_cases hlt : n < m
    · rw [Nat.min_eq_right (Nat.le_of_lt hlt), Nat.min_eq_right hlt, List.range_succ]
      simp [hlt]
    · rw [Nat.min_eq_left (by omega), Nat.min_eq_left (by omega)]
      simp [hlt]

/-- Who is in the queue writes in this round, as long as there are steps to take. -/
theorem writes_queueAt (workers steps j : Nat) :
    (queueAt workers steps (j + 1)).flatMap (Job.writes steps) = round workers steps j := by
  have hwrites : ∀ k, (if j - k ≤ steps then [Job.worker k (j - k)] else []).flatMap
      (Job.writes steps) = if j - k < steps then [k] else [] := by
    intro k
    by_cases hless : j - k < steps
    · simp [Job.writes, hless, Nat.le_of_lt hless]
    · by_cases hlast : j - k ≤ steps
      · simp [Job.writes, hless, hlast]
      · simp [hless, hlast]
  have hmain : (if j + 1 ≤ workers then [Job.main (j + 1)] else []).flatMap (Job.writes steps) =
      [] := by
    split <;> simp [Job.writes]
  unfold queueAt round
  rw [List.flatMap_append, hmain, List.nil_append, List.flatMap_assoc, Nat.add_sub_cancel,
    List.flatMap_congr fun k _ => hwrites k]
  have hfilter : ∀ ks : List Nat, (ks.flatMap fun k => if j - k < steps then [k] else []) =
      ks.filter fun k => j - k < steps := by
    intro ks
    induction ks with
    | nil => rfl
    | cons k ks ih =>
      rw [List.flatMap_cons, List.filter_cons, ih]
      by_cases hk : j - k < steps <;> simp [hk]
  rw [hfilter, List.filter_reverse, ← filter_range_lt, List.filter_filter]
  refine congrArg List.reverse (List.filter_congr fun k _ => ?_)
  simp only [← Bool.decide_and, decide_eq_decide]
  omega

/-- After the last round the queue is empty. -/
theorem queueAt_end (workers steps : Nat) : queueAt workers steps (workers + steps + 1) = [] := by
  have hnone : ∀ k ∈ (List.range (min (workers + steps + 1) workers)).reverse,
      (if workers + steps + 1 - 1 - k ≤ steps then [Job.worker k (workers + steps + 1 - 1 - k)]
        else []) = [] := by
    intro k hk
    have hlt := List.mem_range.mp (List.mem_reverse.mp hk)
    exact if_neg (by omega)
  rw [queueAt, if_neg (by omega), List.flatMap_eq_nil_iff.mpr hnone]
  rfl

theorem round_last (h : workers + steps = j + 1) : round workers steps j = [] := by
  refine List.reverse_eq_nil_iff.mpr (List.filter_eq_nil_iff.mpr fun k hk => ?_)
  have hlt := List.mem_range.mp hk
  simp only [decide_eq_true_eq]
  omega

/-! ### All rounds -/

theorem serves_queueAt (n : Nat) (h : j + n = workers + steps) :
    Serves workers steps (queueAt workers steps (j + 1))
      ((List.range' j n).flatMap (round workers steps)) := by
  induction n generalizing j with
  | zero =>
    obtain rfl : j = workers + steps := by omega
    rw [queueAt_end]
    exact .empty
  | succ n ih =>
    have hnext : Serves workers steps
        ([] ++ (queueAt workers steps (j + 1)).flatMap (Job.pushes workers steps))
        ((List.range' (j + 1) n).flatMap (round workers steps)) := by
      rw [List.nil_append, ← queueAt_succ]
      exact ih (by omega)
    have hserves := hnext.round
    rwa [List.append_nil, writes_queueAt] at hserves

/-- Workers write their numbers turn by turn. -/
theorem serves_turns (workers steps : Nat) :
    Serves workers steps (Job.pushes workers steps (.main 0)) (turns workers steps) := by
  have hfirst : queueAt workers steps 1 = Job.pushes workers steps (.main 0) := by
    rw [show (1 : Nat) = 0 + 1 from rfl, queueAt_succ]
    simp [queueAt]
  have hserves : Serves workers steps (queueAt workers steps 1)
      ((List.range' 0 (workers + steps)).flatMap (round workers steps)) :=
    serves_queueAt (workers + steps) (Nat.zero_add _)
  rw [← hfirst, turns]
  rw [← List.range_eq_range'] at hserves
  cases htotal : workers + steps with
  | zero => simpa [htotal] using hserves
  | succ n =>
    rw [htotal, List.range_succ, List.flatMap_append, List.flatMap_singleton, round_last htotal,
      List.append_nil] at hserves
    exact hserves

theorem count_round (hk : k < workers) :
    (round workers steps j).count k = if k ≤ j ∧ j < k + steps then 1 else 0 := by
  rw [round, List.count_reverse]
  split
  · rename_i hturn
    rw [List.count_filter (by simpa using hturn)]
    exact List.count_eq_one_of_mem List.nodup_range (List.mem_range.mpr hk)
  · rename_i hturn
    refine List.count_eq_zero.mpr fun hmem => hturn ?_
    simpa using (List.mem_filter.mp hmem).2

/-- Each worker writes its number once a step. -/
theorem count_turns (hk : k < workers) : (turns workers steps).count k = steps := by
  have hrounds : ∀ n, ((List.range n).flatMap (round workers steps)).count k =
      min n (k + steps) - k := by
    intro n
    induction n with
    | zero => simp
    | succ n ih =>
      rw [List.range_succ, List.flatMap_append, List.count_append, ih, List.flatMap_singleton,
        count_round hk]
      split <;> omega
  rw [turns, hrounds]
  omega

end EffectHandlers.RoundRobin
