import Mathlib.Data.Set.Card
import EffectHandlers.Proofs.History
/-!
# Conservation of continuations

Every continuation that is captured, or made from a closure, is resumed, discarded, or still there
under exactly one number. A number is valid until it is first used and never again, and using one
that is not valid is fatal.
-/

namespace EffectHandlers

variable {ω : Type} {Γ : Library ω} {m : Machine ω} {r : ResumptionId}

/-! ### What is counted -/

namespace Dealing

/-- Whether a continuation is made from a closure. -/
def isMade : Dealing ω → Bool
  | makes _ => true
  | _ => false

end Dealing

namespace Accounts

/-- How many continuations are resumed, discarded, or still there. -/
def spent (a : Accounts ω) : Nat :=
  a.resumes + a.tailResumes + a.discarded + a.resumptions.entries.length

theorem Fades.spent_eq {a a' : Accounts ω} (h : a.Fades a') : a'.spent = a.spent := by
  have hentries : a'.resumptions.entries = a.resumptions.entries := by
    rcases h.resumptions with heq | heq <;> rw [heq]
  simp only [spent, hentries, h.resumes, h.tailResumes, h.discarded]

/-- What a dealing adds to the continuations that are accounted for. -/
theorem spent_enter {a : Accounts ω} {d : Dealing ω}
    (hd : ∀ r k, d.used? = some (r, k) → a.resumptions.find? r = some k) :
    (d.enter a).captures = a.captures ∧ (d.enter a).spent = a.spent + d.isMade.toNat := by
  have hlength : ∀ r k, d.used? = some (r, k) →
      a.resumptions.entries.length = (a.resumptions.erase r).entries.length + 1 := by
    intro r k hk
    simpa using (Store.entries_perm_erase (hd r k hk)).length_eq
  refine ⟨by cases d <;> rfl, ?_⟩
  cases d with
  | makes k => simp [Dealing.enter, spent, Dealing.isMade, Store.insert, Nat.add_assoc]
  | takes r k | resumes r k v | tailResumes r k v | discards r k =>
    have := hlength r k rfl
    simp only [Dealing.enter, spent, Dealing.isMade, Store.insert, List.length_cons,
      Bool.toNat_false]
    omega

end Accounts

namespace Machine

/-- Whether the next step makes a continuation from a closure. -/
def makes (m : Machine ω) : Bool := (m.dealing?.map Dealing.isMade).getD false

/-- The continuation that the next step starts. -/
def starting? (m : Machine ω) : Option (Cont ω) :=
  match m.releasing, m.control, m.stack with
  | [], .deliver (.tail k), .stepping :: _ => some k
  | _, _, _ => none

/-- A resumption that is asked for and found valid. -/
def IsValid (m : Machine ω) (r : ResumptionId) : Prop := (m.answer (.isValid r)).1 = .bool true

/-- The next step resumes, tail-resumes, takes away or discards what the number holds. -/
def Uses (m : Machine ω) (r : ResumptionId) : Prop :=
  ∃ d k, m.dealing? = some d ∧ d.used? = some (r, k)

theorem isValid_iff : m.IsValid r ↔ ∃ k, m.resumptions.find? r = some k := by
  simp [IsValid, answer, Store.contains, Option.isSome_iff_exists]

theorem Uses.isValid (h : m.Uses r) : m.IsValid r := by
  obtain ⟨d, k, hm, hd⟩ := h
  exact isValid_iff.mpr ⟨k, find?_of_dealing hm hd⟩

/-- As many numbers are valid as there are continuations under a number. -/
theorem ncard_isValid (h : m.resumptions.WellFormed) :
    {r | m.IsValid r}.ncard = m.resumptions.entries.length := by
  have hset : {r | m.IsValid r} = ↑(m.resumptions.entries.map (·.1)).toFinset := by
    ext r
    simp only [Set.mem_ofPred_eq, isValid_iff, List.coe_toFinset, List.mem_map]
    constructor
    · rintro ⟨k, hk⟩
      exact ⟨(r, k), Store.mem_of_find? hk, rfl⟩
    · rintro ⟨⟨r', k⟩, hmem, rfl⟩
      exact ⟨k, (Store.find?_eq_some_iff h).mpr hmem⟩
  rw [hset, Set.ncard_coe_finset, List.toFinset_card_of_nodup h.1, List.length_map]

/-- A dealing touches the number that it uses up, and no other that was handed out. -/
theorem find?_enter (h : m.Tidy) (hr : r < m.resumptions.next) {d : Dealing ω}
    (hm : m.dealing? = some d) :
    r < (d.enter m.accounts).resumptions.next ∧
      (m.Uses r → (d.enter m.accounts).resumptions.find? r = none) ∧
      (¬ m.Uses r → (d.enter m.accounts).resumptions.find? r = m.resumptions.find? r) := by
  have huses : ∀ {r' k}, d.used? = some (r', k) → (m.Uses r ↔ r = r') := by
    intro r' k hd
    constructor
    · rintro ⟨d', k', hm', hd'⟩
      obtain rfl := Option.some.inj (hm.symm.trans hm')
      exact (Prod.mk.inj (Option.some.inj (hd'.symm.trans hd))).1
    · rintro rfl
      exact ⟨d, k, hm, hd⟩
  have herased : ∀ {r' k}, d.used? = some (r', k) →
      (m.Uses r → (m.resumptions.erase r').find? r = none) ∧
        (¬ m.Uses r → (m.resumptions.erase r').find? r = m.resumptions.find? r) := by
    intro r' k hd
    have hwf : m.resumptions.WellFormed := h.accounts.resumptions
    rw [Store.find?_erase hwf, huses hd]
    exact ⟨fun hu => if_pos hu, fun hu => if_neg hu⟩
  have hinserted : ∀ (s : Store (Cont ω)) k, s.next = m.resumptions.next →
      (s.insert k).2.find? r = s.find? r := fun s k hs =>
    (Store.find?_insert s k r).trans (if_neg (hs ▸ Nat.ne_of_lt hr))
  cases d with
  | makes k =>
    refine ⟨Nat.lt_succ_of_lt hr, ?_, fun _ => hinserted _ k rfl⟩
    rintro ⟨d', k', hm', hd'⟩
    obtain rfl := Option.some.inj (hm.symm.trans hm')
    cases hd'
  | takes r' k =>
    refine ⟨Nat.lt_succ_of_lt hr, fun hu => ?_, fun hu => ?_⟩
    · exact (hinserted (m.resumptions.erase r') k rfl).trans ((herased rfl).1 hu)
    · exact (hinserted (m.resumptions.erase r') k rfl).trans ((herased rfl).2 hu)
  | resumes r' k v | tailResumes r' k v | discards r' k => exact ⟨hr, herased rfl⟩

variable [Contents ω]

/-- How many continuations the first steps of a run make from closures. -/
def made (Γ : Library ω) (m : Machine ω) (n : Nat) : Nat :=
  (List.range n).countP fun j => (run Γ j m).makes

/-- The continuations that the first steps of a run start. -/
def started (Γ : Library ω) (m : Machine ω) (n : Nat) : List (Cont ω) :=
  (List.range n).filterMap fun j => (run Γ j m).starting?

/-- The continuations, with their values, that the first steps of a run resume or tail-resume. -/
def resumed (Γ : Library ω) (m : Machine ω) (n : Nat) : List (Cont ω) :=
  (List.range n).filterMap fun j => (run Γ j m).dealing?.bind Dealing.armed?

/-! ### One step -/

/-- Every step counts for itself. -/
theorem step_balance (h : m.Tidy) :
    (m.step Γ).accounts.captures + m.makes.toNat + m.accounts.spent =
      m.accounts.captures + (m.step Γ).accounts.spent := by
  obtain ⟨a, ha, hf⟩ := step_enters (Γ := Γ) h.request
  rw [hf.captures, hf.spent_eq]
  have hnone : m.dealing? = none → m.makes = false := by
    intro hd
    simp [makes, hd]
  cases ha with
  | nothing hd => simp [hnone hd]
  | @deals d hm =>
    obtain ⟨hcaptures, hspent⟩ :=
      Accounts.spent_enter (a := m.accounts) fun r k hd => find?_of_dealing hm hd
    rw [hcaptures, hspent]
    simp only [makes, hm, Option.map_some, Option.getD_some]
    omega
  | sends hm _ _ _ _ =>
    rw [hnone hm.dealing?_eq_none]
    rfl
  | captures hm _ _ =>
    rw [hnone hm.dealing?_eq_none]
    simp only [Accounts.spent, Store.insert, List.length_cons, accounts, Bool.toNat_false]
    omega
  | abandons hm _ =>
    rw [hnone hm.dealing?_eq_none]
    simp only [Accounts.spent, accounts, Bool.toNat_false]
    omega
  | returns hm =>
    rw [hnone hm.dealing?_eq_none]
    rfl

/-- A number that was handed out keeps what it holds exactly until it is used. -/
theorem step_find? (h : m.Tidy) (hr : r < m.resumptions.next) :
    r < (m.step Γ).resumptions.next ∧
      (m.Uses r → (m.step Γ).resumptions.find? r = none) ∧
      (¬ m.Uses r → (m.step Γ).resumptions.find? r = m.resumptions.find? r) := by
  obtain ⟨a, ha, hf⟩ := step_enters (Γ := Γ) h.request
  have hnext : a.resumptions.next ≤ (m.step Γ).accounts.resumptions.next := by
    rcases hf.resumptions with heq | heq <;> rw [heq]
    exact Nat.le_succ _
  have hfound : (m.step Γ).resumptions.find? r = a.resumptions.find? r := hf.find?_eq r
  rw [hfound]
  suffices hentered : r < a.resumptions.next ∧ (m.Uses r → a.resumptions.find? r = none) ∧
      (¬ m.Uses r → a.resumptions.find? r = m.resumptions.find? r) from
    ⟨Nat.lt_of_lt_of_le hentered.1 hnext, hentered.2⟩
  have hunused : m.dealing? = none → m.Uses r → a.resumptions.find? r = none := by
    rintro hd ⟨d, k, hm, -⟩
    cases hd.symm.trans hm
  cases ha with
  | nothing hd => exact ⟨hr, hunused hd, fun _ => rfl⟩
  | deals hm => exact find?_enter h hr hm
  | sends hm => exact ⟨hr, hunused hm.dealing?_eq_none, fun _ => rfl⟩
  | captures hm =>
    refine ⟨Nat.lt_succ_of_lt hr, hunused hm.dealing?_eq_none, fun _ => ?_⟩
    exact (Store.find?_insert _ _ _).trans (if_neg (Nat.ne_of_lt hr))
  | abandons hm => exact ⟨hr, hunused hm.dealing?_eq_none, fun _ => rfl⟩
  | returns hm => exact ⟨hr, hunused hm.dealing?_eq_none, fun _ => rfl⟩

/-- A continuation that starts was armed, and is so no longer. -/
theorem step_starting {k : Cont ω} (h : m.starting? = some k) :
    m.dealing? = none ∧ m.armed = m.pending.toList ++ [k] ∧
      (m.step Γ).armed = m.pending.toList := by
  unfold starting? at h
  split at h
  · rename_i k' S hreleasing hcontrol hstack
    obtain rfl := Option.some.inj h
    refine ⟨by simp [dealing?, hreleasing, hcontrol], ?_, ?_⟩
    · simp [armed, hcontrol, Control.conts]
    · simp only [step, hreleasing, hcontrol, deliver, hstack, stepCont]
      split
      · unfold enter
        split <;> exact List.append_nil _
      · split <;> exact List.append_nil _
  · cases h

/-! ### Runs -/

/-- What a thread that has halted did last stays. -/
theorem control_run_halted {o : Outcome} (h : m.control = .halted o) (n : Nat) :
    (run Γ n m).control = .halted o := by
  induction n with
  | zero => exact h
  | succ n ih =>
    rw [run_succ]
    cases hreleasing : (run Γ n m).releasing with
    | nil => rw [step_halted ih hreleasing, ih]
    | cons x hs => rw [step_releasing hreleasing, releaseOne_control]; exact ih

/-- The books of a run balance. -/
theorem run_balance (h : m.Tidy) (n : Nat) :
    (run Γ n m).accounts.captures + made Γ m n + m.accounts.spent =
      m.accounts.captures + (run Γ n m).accounts.spent := by
  induction n with
  | zero => rfl
  | succ n ih =>
    have hstep := step_balance (Γ := Γ) (h.run (Γ := Γ) n)
    have hmade : made Γ m (n + 1) = made Γ m n + (run Γ n m).makes.toNat := by
      simp only [made, List.range_succ, List.countP_append, List.countP_singleton]
      cases (run Γ n m).makes <;> simp
    rw [run_succ, hmade]
    omega

/-- A number keeps what it holds as long as it is not used, and then holds nothing. -/
theorem run_find? (h : m.Tidy) (hr : r < m.resumptions.next) (n : Nat) :
    r < (run Γ n m).resumptions.next ∧
      ((∃ j < n, (run Γ j m).Uses r) → (run Γ n m).resumptions.find? r = none) ∧
      ((∀ j < n, ¬ (run Γ j m).Uses r) →
        (run Γ n m).resumptions.find? r = m.resumptions.find? r) := by
  induction n with
  | zero => exact ⟨hr, by simp, fun _ => rfl⟩
  | succ n ih =>
    obtain ⟨hlt, hused, hunused⟩ := ih
    obtain ⟨hlt', hgone, hkept⟩ := step_find? (Γ := Γ) (h.run (Γ := Γ) n) hlt
    rw [run_succ]
    refine ⟨hlt', ?_, fun hj => ?_⟩
    · rintro ⟨j, hj, hu⟩
      rcases Nat.lt_succ_iff_lt_or_eq.mp hj with hj | rfl
      · by_cases hn : (run Γ n m).Uses r
        · exact hgone hn
        · exact (hkept hn).trans (hused ⟨j, hj, hu⟩)
      · exact hgone hu
    · rw [hkept (hj n (Nat.lt_succ_self n)), hunused fun j hj' => hj j (Nat.lt_succ_of_lt hj')]

/-- What starts, or is about to, was resumed, once for each time. -/
theorem run_starts (h : m.Tidy) (hnone : m.armed = []) (n : Nat) :
    (started Γ m n ++ (run Γ n m).armed).Subperm (resumed Γ m n) := by
  induction n with
  | zero =>
    show m.armed.Subperm []
    rw [hnone]
  | succ n ih =>
    have hstarted : started Γ m (n + 1) = started Γ m n ++ (run Γ n m).starting?.toList := by
      simp only [started, List.range_succ, List.filterMap_append]
      cases hs : (run Γ n m).starting? <;> simp [hs]
    have hresumed : resumed Γ m (n + 1) =
        resumed Γ m n ++ ((run Γ n m).dealing?.bind Dealing.armed?).toList := by
      simp only [resumed, List.range_succ, List.filterMap_append]
      cases hs : (run Γ n m).dealing?.bind Dealing.armed? <;> simp [hs]
    rw [hstarted, hresumed, run_succ]
    cases hs : (run Γ n m).starting? with
    | some k =>
      obtain ⟨hd, harmed, harmed'⟩ := step_starting (Γ := Γ) hs
      rw [harmed] at ih
      rw [hd, harmed', List.append_assoc]
      refine List.Subperm.trans (List.Perm.subperm ?_) (ih.trans (List.sublist_append_left _ _).subperm)
      exact List.perm_append_comm.append_left _
    | none =>
      rw [Option.toList_none, List.append_nil]
      refine List.Subperm.trans ?_ ((List.subperm_append_right _).mpr ih)
      rw [List.append_assoc]
      exact ((step_arms (h.run (Γ := Γ) n)).append_left _).subperm

/-- A captured continuation that has started is held no longer. -/
theorem not_held_of_starting (h : m.Tidy) {k : Cont ω} {e : ExchangeId}
    (hk : m.starting? = some k) (hke : k.exchange? = some e) :
    m.Past e ∧ e ∈ m.accounts.held ∧ e ∉ (m.step Γ).accounts.held := by
  obtain ⟨-, harmed, harmed'⟩ := step_starting (Γ := Γ) hk
  have hheld : m.accounts.held = m.accounts.stored ++ m.pending.toList.filterMap Cont.exchange? ++ [e] := by
    have harmed : m.accounts.armed = m.pending.toList ++ [k] := harmed
    simp [Accounts.held, harmed, List.filterMap_append, hke]
  have hmem : e ∈ m.accounts.held := by simp [hheld]
  have hpast := h.past hmem
  refine ⟨hpast, hmem, fun hmem' => ?_⟩
  have hnodup := hheld ▸ h.accounts.held
  have hnot : e ∉ m.accounts.stored ++ m.pending.toList.filterMap Cont.exchange? := by
    intro hin
    exact (List.nodup_append.mp hnodup).2.2 e hin e (by simp) rfl
  rcases List.mem_append.mp hmem' with hstored | harmed''
  · rcases step_stores h hstored with hstored | ⟨r, command, -, -, hs⟩
    · exact hnot (List.mem_append_left _ hstored)
    · exact hpast.not_starts hs
  · have harmed' : (m.step Γ).accounts.armed = m.pending.toList := harmed'
    rw [harmed'] at harmed''
    exact hnot (List.mem_append_right _ harmed'')

/-- What is past and no longer held stays so. -/
theorem run_past (h : m.Tidy) {e : ExchangeId} (hp : m.Past e) (he : e ∉ m.accounts.held) (n : Nat) :
    (run Γ n m).Past e ∧ e ∉ (run Γ n m).accounts.held := by
  induction n with
  | zero => exact ⟨hp, he⟩
  | succ n ih =>
    rw [run_succ]
    exact ⟨ih.1.step (h.run n), ih.1.step_held (h.run n) ih.2⟩

/-- No continuation of a run is used twice, and all of them are accounted for. -/
structure Conserves (Γ : Library ω) (m : Machine ω) : Prop where
  /-- What was captured or made from closures is resumed, tail-resumed, discarded, or still valid. -/
  balance : ∀ n, (run Γ n m).counters.captures + made Γ m n =
    (run Γ n m).counters.resumes + (run Γ n m).counters.tailResumes +
      (run Γ n m).counters.discarded + {r | (run Γ n m).IsValid r}.ncard
  /-- A valid resumption is valid until it is used, and then no more. -/
  valid : ∀ r n n', n ≤ n' → (run Γ n m).IsValid r →
    ((run Γ n' m).IsValid r ↔ ∀ j, n ≤ j → j < n' → ¬ (run Γ j m).Uses r)
  once : ∀ r n n', (run Γ n m).Uses r → (run Γ n' m).Uses r → n = n'
  /-- What starts was resumed, and every resume starts at most one continuation. -/
  starts : ∀ n, (started Γ m n ++ (run Γ n m).armed).Subperm (resumed Γ m n)
  /-- No captured continuation starts twice. -/
  startsOnce : ∀ n n' k k' e, (run Γ n m).starting? = some k → (run Γ n' m).starting? = some k' →
    k.exchange? = some e → k'.exchange? = some e → n = n'
  /-- To resume what is not valid is fatal, and nothing runs any more. -/
  empty : ∀ n r v, (¬ (run Γ n m).IsValid r) →
    ((∃ next, (run Γ n m).Evaluates (.resume r v next)) ∨
      ∃ next, (run Γ n m).Evaluates (.tailResume r v next)) →
    (run Γ (n + 1) m).control = .fault .resumeEmpty ∧
      ∃ listing, ∀ k, (run Γ (n + 2 + k) m).control = .halted (.fatal .resumeEmpty listing)

/-- A use is the end of a valid number. -/
theorem isValid_run_iff (h : m.Tidy) {n n' : Nat} (hn : n ≤ n') (hr : (run Γ n m).IsValid r) :
    (run Γ n' m).IsValid r ↔ ∀ j, n ≤ j → j < n' → ¬ (run Γ j m).Uses r := by
  obtain ⟨k, hk⟩ := isValid_iff.mp hr
  have hlt := Store.lt_next (h.run (Γ := Γ) n).accounts.resumptions hk
  obtain ⟨d, rfl⟩ := Nat.exists_eq_add_of_le hn
  obtain ⟨-, hused, hunused⟩ := run_find? (Γ := Γ) (h.run (Γ := Γ) n) hlt d
  simp only [← run_add] at hused hunused
  constructor
  · intro hvalid j hj hj' hu
    obtain ⟨i, rfl⟩ := Nat.exists_eq_add_of_le hj
    obtain ⟨k', hk'⟩ := isValid_iff.mp hvalid
    cases hk'.symm.trans (hused ⟨i, by omega, hu⟩)
  · intro hnot
    exact isValid_iff.mpr ⟨k, (hunused fun j hj => hnot (n + j) (by omega) (by omega)).trans hk⟩

/-- Resuming what is not valid is fatal. -/
theorem step_empty {v : Value} (hr : ¬ m.IsValid r)
    (hm : (∃ next, m.Evaluates (.resume r v next)) ∨ ∃ next, m.Evaluates (.tailResume r v next)) :
    (m.step Γ).control = .fault .resumeEmpty ∧ (m.step Γ).releasing = [] := by
  have hnone : m.resumptions.find? r = none := by
    cases hk : m.resumptions.find? r with
    | none => rfl
    | some k => exact absurd (isValid_iff.mpr ⟨k, hk⟩) hr
  rcases hm with ⟨next, hreleasing, hcontrol⟩ | ⟨next, hreleasing, hcontrol⟩
  · simp only [step, hreleasing, hcontrol, eval, resume, arm, push, hnone, Option.map_none]
    exact ⟨rfl, rfl⟩
  · simp only [step, hreleasing, hcontrol, eval, tailResume, arm, hnone, Option.map_none]
    exact ⟨rfl, hreleasing⟩

/-- Continuations are conserved along every run of every program. -/
theorem continuations_conserved (settings : SettingsSlot) (cells : List ω) (statics : List Owned)
    (main : Comp ω) : Conserves Γ (start settings cells statics main) := by
  have htidy := tidy_start settings cells statics main
  generalize hm : start settings cells statics main = m at htidy
  have hempty : m.armed = [] ∧ m.accounts.captures = 0 ∧ m.accounts.spent = 0 := by
    subst hm
    exact ⟨rfl, rfl, rfl⟩
  have hrun : ∀ n, (run Γ n m).Tidy := fun n => htidy.run n
  have hvalid : ∀ r n n', n ≤ n' → (run Γ n m).IsValid r →
      ((run Γ n' m).IsValid r ↔ ∀ j, n ≤ j → j < n' → ¬ (run Γ j m).Uses r) :=
    fun r n n' hn hr => isValid_run_iff htidy hn hr
  have honce : ∀ r n n', n < n' → (run Γ n m).Uses r → ¬ (run Γ n' m).Uses r := by
    intro r n n' hlt hu hu'
    exact (hvalid r n n' (Nat.le_of_lt hlt) hu.isValid).mp hu'.isValid n (Nat.le_refl n) hlt hu
  have hstarts : ∀ n n' k k' e, n < n' → (run Γ n m).starting? = some k →
      (run Γ n' m).starting? = some k' → k.exchange? = some e → k'.exchange? = some e → False := by
    intro n n' k k' e hlt hk hk' hke hke'
    obtain ⟨hpast, -, hgone⟩ := not_held_of_starting (Γ := Γ) (hrun n) hk hke
    obtain ⟨d, rfl⟩ := Nat.exists_eq_add_of_le (Nat.succ_le_of_lt hlt)
    have hlater := run_past (Γ := Γ) (hrun (n + 1)) (run_succ n m ▸ hpast.step (hrun n))
      (run_succ n m ▸ hgone) d
    rw [← run_add] at hlater
    exact hlater.2 (not_held_of_starting (Γ := Γ) (hrun _) hk' hke').2.1
  exact
    { balance := fun n => by
        have hbalance := run_balance (Γ := Γ) htidy n
        rw [hempty.2.1, hempty.2.2, Nat.add_zero, Nat.zero_add] at hbalance
        rw [ncard_isValid (hrun n).accounts.resumptions]
        exact hbalance
      valid := hvalid
      once := fun r n n' hu hu' => by
        rcases Nat.lt_trichotomy n n' with hlt | heq | hlt
        · exact absurd hu' (honce r n n' hlt hu)
        · exact heq
        · exact absurd hu (honce r n' n hlt hu')
      starts := run_starts htidy hempty.1
      startsOnce := fun n n' k k' e hk hk' hke hke' => by
        rcases Nat.lt_trichotomy n n' with hlt | heq | hlt
        · exact (hstarts n n' k k' e hlt hk hk' hke hke').elim
        · exact heq
        · exact (hstarts n' n k' k e hlt hk' hk hke' hke).elim
      empty := fun n r v hr hm => by
        obtain ⟨hfault, hreleasing⟩ := step_empty (Γ := Γ) hr hm
        rw [← run_succ] at hfault hreleasing
        refine ⟨hfault, (run Γ (n + 1) m).chain.listing, fun k => ?_⟩
        rw [run_add (n + 2), run_succ (n + 1)]
        refine control_run_halted ?_ k
        simp only [step, hreleasing, hfault, exit]
        rfl }

end Machine

end EffectHandlers
