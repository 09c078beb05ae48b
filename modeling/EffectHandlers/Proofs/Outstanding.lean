import EffectHandlers.Proofs.Asides
import EffectHandlers.Proofs.Conservation
import EffectHandlers.Proofs.Mirror
/-!
# The outstanding continuations of a report

The report subtracts what was settled from what was captured. A continuation that was made from a
closure is never captured, but it is counted when it is settled, so every one of them hides an
outstanding continuation from the report.
-/

namespace EffectHandlers

variable {ω : Type} {Γ : Library ω} {m : Machine ω}

/-! ### Settled closures -/

namespace Dealing

/-- The continuation that a dealing resumes, tail-resumes or discards. -/
def settled? : Dealing ω → Option (Cont ω)
  | makes _ | takes .. => none
  | resumes _ k _ | tailResumes _ k _ | discards _ k => some k

/-- Whether a dealing settles a continuation that was made from a closure. -/
def settlesFunction (d : Dealing ω) : Bool := d.settled?.any fun k => !k.isCaptured

end Dealing

namespace Accounts

/-- How many captured continuations are held under a number. -/
def outstanding (a : Accounts ω) : Nat := a.resumptions.entries.countP (·.2.isCaptured)

/-- How many continuations are settled, or captured and outstanding. -/
def charged (a : Accounts ω) : Nat := a.resumes + a.tailResumes + a.discarded + a.outstanding

theorem Fades.charged_eq {a a' : Accounts ω} (h : a.Fades a') : a'.charged = a.charged := by
  have hentries : a'.resumptions.entries = a.resumptions.entries := by
    rcases h.resumptions with heq | heq <;> rw [heq]
  simp only [charged, outstanding, hentries, h.resumes, h.tailResumes, h.discarded]

/-- A settled closure is charged, though it was not outstanding. -/
theorem charged_enter {a : Accounts ω} {d : Dealing ω}
    (hused : ∀ r k, d.used? = some (r, k) → a.resumptions.find? r = some k)
    (hmakes : ∀ k, d = .makes k → k.isCaptured = false) :
    (d.enter a).captures = a.captures ∧
      (d.enter a).charged = a.charged + d.settlesFunction.toNat := by
  have hcount : ∀ r k, d.used? = some (r, k) →
      a.outstanding = (a.resumptions.erase r).entries.countP (·.2.isCaptured) +
        k.isCaptured.toNat := by
    intro r k hk
    have hperm := Store.entries_perm_erase (hused r k hk)
    rw [outstanding, hperm.countP_eq, List.countP_cons]
    cases k.isCaptured <;> rfl
  refine ⟨by cases d <;> rfl, ?_⟩
  cases d with
  | makes k =>
    have hk := hmakes k rfl
    simp [Dealing.enter, charged, outstanding, Dealing.settlesFunction, Dealing.settled?,
      Store.insert, hk]
  | takes r k =>
    have hk := hcount r k rfl
    simp only [charged, hk]
    cases hcaptured : k.isCaptured <;>
      simp [Dealing.enter, outstanding, Dealing.settlesFunction, Dealing.settled?, Store.insert,
        hcaptured]
  | resumes r k v | tailResumes r k v | discards r k =>
    have hk := hcount r k rfl
    simp only [charged, hk]
    cases hcaptured : k.isCaptured <;>
      simp [Dealing.enter, outstanding, Dealing.settlesFunction, Dealing.settled?, hcaptured] <;>
      omega

end Accounts

namespace Machine

/-- Whether the next step settles a continuation that was made from a closure. -/
def settlesFunction (m : Machine ω) : Bool := m.dealing?.any Dealing.settlesFunction

/-- A number under which a captured continuation is held. -/
def HoldsCaptured (m : Machine ω) (r : ResumptionId) : Prop :=
  ∃ k, m.resumptions.find? r = some k ∧ k.isCaptured

/-- As many numbers hold captured continuations as such continuations are outstanding. -/
theorem ncard_holdsCaptured (h : m.resumptions.WellFormed) :
    {r | m.HoldsCaptured r}.ncard = m.accounts.outstanding := by
  have hset : {r | m.HoldsCaptured r} =
      ↑((m.resumptions.entries.filter (·.2.isCaptured)).map (·.1)).toFinset := by
    ext r
    simp only [Set.mem_ofPred_eq, HoldsCaptured, List.coe_toFinset, List.mem_map, List.mem_filter]
    constructor
    · rintro ⟨k, hk, hcaptured⟩
      exact ⟨(r, k), ⟨Store.mem_of_find? hk, hcaptured⟩, rfl⟩
    · rintro ⟨⟨r', k⟩, ⟨hmem, hcaptured⟩, rfl⟩
      exact ⟨k, (Store.find?_eq_some_iff h).mpr hmem, hcaptured⟩
  have hnodup : ((m.resumptions.entries.filter (·.2.isCaptured)).map (·.1)).Nodup :=
    h.1.sublist (List.filter_sublist.map _)
  rw [hset, Set.ncard_coe_finset, List.toFinset_card_of_nodup hnodup, List.length_map,
    ← List.countP_eq_length_filter]
  rfl

variable [Contents ω]

/-- How many continuations that were made from closures the first steps of a run settle. -/
def settledFunctions (Γ : Library ω) (m : Machine ω) (n : Nat) : Nat :=
  (List.range n).countP fun j => (run Γ j m).settlesFunction

/-! ### Runs -/

/-- Every step charges what it captures, and the closures that it settles. -/
theorem step_charges (h : m.Tidy) :
    (m.step Γ).accounts.captures + m.settlesFunction.toNat + m.accounts.charged =
      m.accounts.captures + (m.step Γ).accounts.charged := by
  obtain ⟨a, ha, hf⟩ := step_enters (Γ := Γ) h.request
  rw [hf.captures, hf.charged_eq]
  have hnone : m.dealing? = none → m.settlesFunction = false := by
    intro hd
    simp [settlesFunction, hd]
  cases ha with
  | nothing hd => simp [hnone hd]
  | @deals d hm =>
    have hmakes : ∀ k, d = .makes k → k.isCaptured = false := by
      rintro k rfl
      have hk := exchange?_of_makes hm
      cases k with
      | captured answer f segment e => cases hk
      | function answer f arg => rfl
    obtain ⟨hcaptures, hcharged⟩ :=
      Accounts.charged_enter (a := m.accounts) (fun r k hd => find?_of_dealing hm hd) hmakes
    rw [hcaptures, hcharged]
    simp only [settlesFunction, hm, Option.any_some]
    omega
  | sends hm _ _ _ _ =>
    rw [hnone hm.dealing?_eq_none]
    rfl
  | @captures r command k hm _ hk =>
    have hcaptured : k.isCaptured = true := by
      cases k with
      | captured answer f segment e => rfl
      | function answer f arg => cases hk
    rw [hnone hm.dealing?_eq_none]
    simp only [Accounts.charged, Accounts.outstanding, Store.insert, List.countP_cons, hcaptured,
      if_true, accounts, Bool.toNat_false]
    omega
  | abandons hm _ =>
    rw [hnone hm.dealing?_eq_none]
    simp only [Accounts.charged, Accounts.outstanding, accounts, Bool.toNat_false]
    omega
  | returns hm =>
    rw [hnone hm.dealing?_eq_none]
    rfl

/-- What was captured, and the closures that were settled, are settled or outstanding. -/
theorem run_charges (h : m.Tidy) (n : Nat) :
    (run Γ n m).accounts.captures + settledFunctions Γ m n + m.accounts.charged =
      m.accounts.captures + (run Γ n m).accounts.charged := by
  induction n with
  | zero => rfl
  | succ n ih =>
    have hstep := step_charges (Γ := Γ) (h.run (Γ := Γ) n)
    have hsettled : settledFunctions Γ m (n + 1) =
        settledFunctions Γ m n + (run Γ n m).settlesFunction.toNat := by
      simp only [settledFunctions, List.range_succ, List.countP_append, List.countP_singleton]
      cases (run Γ n m).settlesFunction <;> simp
    rw [run_succ, hsettled]
    omega

end Machine

/-! ### The line of the report -/

/-- The line about continuations that are not yet settled. -/
def Report.outstandingLine (n : Nat) : String :=
  "  Outstanding:          " ++ toString n ++ " captured continuation(s) not yet settled"

/-- The lines of a tally behind its numbers. -/
theorem Report.drop_tallyLines (t : Tally) :
    (Report.tallyLines t).drop 7 =
      if t.settled < t.captures then [Report.outstandingLine (t.captures - t.settled)] else [] := by
  rfl

namespace Machine

/-- The tally of the process is that of its only thread. -/
theorem reportLines_fst (m : Machine ω) : m.reportLines.1 =
    Report.lines m.counters m.counters m.pool.settings.use.1 m.chain.listing := by
  obtain ⟨_, _, hlines⟩ := m.exists_reportLines_eq
  rw [hlines]

variable [Contents ω]

/-- At every point of a run, the report of the thread, and of its process, shows the number of
captured continuations that are still held, less the number of closures that were settled as
continuations; there is no line when nothing remains. So the number is right as long as nothing
is outstanding, or no closure was settled. -/
theorem report_outstanding (settings : SettingsSlot) (cells : List ω) (statics : List Owned)
    (main : Comp ω) (n : Nat) :
    let m := run Γ n (start settings cells statics main)
    let held := {r | m.HoldsCaptured r}.ncard
    let settled := settledFunctions Γ (start settings cells statics main) n
    m.reportLines.1 = Report.lines m.counters m.counters m.pool.settings.use.1 m.chain.listing ∧
      (Report.tallyLines m.counters).drop 7 =
        if settled < held then [Report.outstandingLine (held - settled)] else [] := by
  have htidy := tidy_start settings cells statics main
  have hcharges := run_charges (Γ := Γ) htidy n
  have hnew : (start settings cells statics main).accounts.charged = 0 ∧
      (start settings cells statics main).accounts.captures = 0 := ⟨rfl, rfl⟩
  have hheld := ncard_holdsCaptured (htidy.run (Γ := Γ) n).accounts.resumptions
  intro m held settled
  refine ⟨reportLines_fst m, ?_⟩
  have hbalance : m.counters.captures + settled = m.counters.settled + held := by
    rw [hnew.1, hnew.2, Nat.add_zero, Nat.zero_add, Accounts.charged, ← hheld] at hcharges
    exact hcharges
  have hless : m.counters.settled < m.counters.captures ↔ settled < held := by omega
  have hrest : m.counters.captures - m.counters.settled = held - settled := by omega
  rw [Report.drop_tallyLines, hrest]
  simp only [hless]

/-- A library with one handler type, whose clause settles a closure and asks for a report while it
holds the continuation. -/
def reporting : Library Unit where
  handlerType _ :=
    { answer := "i64"
      clauses := [⟨"Ask", .resumptive fun _ _ r =>
        .closure [] .done fun f =>
          .function "i64" f fun g => .resume g (.int 1) fun _ =>
            .view .report (.resume r (.int 7) .done)⟩] }

/-- While the clause of `asking` holds the continuation, the report says that none is held: the
closure that was settled hides it. -/
theorem report_hides_outstanding :
    (∃ next, (run reporting 12 (start {} [()] [] asking)).Evaluates (.view .report next)) ∧
      (run reporting 12 (start {} [()] [] asking)).HoldsCaptured 1 ∧
      (Report.tallyLines (run reporting 12 (start {} [()] [] asking)).counters).drop 7 = [] := by
  refine ⟨⟨_, rfl, rfl⟩, ⟨_, rfl, rfl⟩, ?_⟩
  rw [Report.drop_tallyLines]
  rfl

end Machine

end EffectHandlers
