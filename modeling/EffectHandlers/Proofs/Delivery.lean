import EffectHandlers.Proofs.Conservation
import EffectHandlers.Proofs.Untroubled
/-!
# Results reach the invocation they were meant for

Every dispatch gets an exchange of its own. The clause that starts for it gets the command that was
sent, one continuation belongs to it, and what is returned to the code that follows is the value
with which that continuation was resumed, or what the plain clause returned.
-/

namespace EffectHandlers.Machine

variable {ω : Type} {Γ : Library ω} {m : Machine ω} {e : ExchangeId} {command : Command}
  {i : InstallationId} {position : Nat} {next : Value → Comp ω} {r : Request} {w : Wait ω}
  {v : Value}

/-! ### From the dispatch to the clause -/

/-- The thread is about to end with the fault or the panic of a broken invariant. -/
def Broken (m : Machine ω) : Prop :=
  (∃ f, m.control = .fault f ∧ f.isInternal) ∨ m.control = .unwind splitFailed

theorem Hands.not_sends (h : m.Hands r) : ¬ m.Sends e command i position next := by
  rintro ⟨target, ⟨-, hcontrol⟩, -⟩
  cases h.2.symm.trans hcontrol

/-- What is sent depends on the state only. -/
theorem Sends.unique (h : m.Sends e command i position next) {e' : ExchangeId} {command' : Command}
    {i' : InstallationId} {position' : Nat} {next' : Value → Comp ω}
    (h' : m.Sends e' command' i' position' next') :
    e = e' ∧ command = command' ∧ i = i' ∧ position = position' ∧ next = next' := by
  obtain ⟨target, ⟨-, hcontrol⟩, hfound, rfl⟩ := h
  obtain ⟨target', ⟨-, hcontrol'⟩, hfound', rfl⟩ := h'
  cases hcontrol.symm.trans hcontrol'
  cases hfound.symm.trans hfound'
  exact ⟨rfl, rfl, rfl, rfl, rfl⟩

theorem mem_stored {k : Cont ω} {n : ResumptionId} (hk : m.resumptions.find? n = some k)
    (he : k.exchange? = some e) : e ∈ m.accounts.stored :=
  List.mem_filterMap.mpr ⟨k, List.mem_map.mpr ⟨_, Store.mem_of_find? hk, rfl⟩, he⟩

/-- One number at most holds the continuation of an exchange. -/
theorem Tidy.holder_unique (h : m.Tidy) {k k' : Cont ω} {n n' : ResumptionId}
    (hk : m.resumptions.find? n = some k) (hk' : m.resumptions.find? n' = some k')
    (he : k.exchange? = some e) (he' : k'.exchange? = some e) : n' = n := by
  by_contra hne
  have hwf : m.resumptions.WellFormed := h.accounts.resumptions
  have hperm := Accounts.stored_perm_erase (a := m.accounts) hk
  rw [he] at hperm
  have hnodup : m.accounts.stored.Nodup := (List.nodup_append.mp h.accounts.held).1
  -- the other one would still be there without the first
  have hleft : (m.resumptions.erase n).find? n' = some k' := by
    rw [Store.find?_erase hwf, if_neg hne, hk']
  exact (List.nodup_cons.mp (hperm.nodup_iff.mp hnodup)).1
    (mem_stored (m := { m with resumptions := m.resumptions.erase n }) hleft he')

variable [Contents ω]

theorem Returns.not_sends (h : m.Returns Γ w v) : ¬ m.Sends e command i position next := by
  rintro ⟨target, ⟨-, hcontrol⟩, -⟩
  obtain ⟨-, -, h, -⟩ := h
  split at h <;> cases h.symm.trans hcontrol

theorem Returns.not_hands (h : m.Returns Γ w v) : ¬ m.Hands r := by
  rintro ⟨-, hcontrol⟩
  obtain ⟨-, -, h, -⟩ := h
  split at h <;> cases h.symm.trans hcontrol

/-- A dispatch leaves the command for a driver, or starts a plain clause. -/
theorem Sends.step (hm : m.Sends e command i position next) :
    ((m.step Γ).Hands ⟨i, position, e, command.name⟩ ∧
        (m.step Γ).exchanges = (m.exchanges.insert { command := some command }).2) ∨
      (m.Starts Γ e command i position ∧
        (m.step Γ).exchanges = (m.exchanges.insert { command := none }).2) ∨
      (m.step Γ).Broken := by
  cases m.step_does Γ with
  | idles _ _ hsends _ => exact absurd hm (hsends _ _ _ _ _)
  | deals hd => cases hm.dealing?_eq_none.symm.trans hd
  | sends hm' hhands hf =>
    obtain ⟨rfl, rfl, rfl, rfl, rfl⟩ := hm.unique hm'
    exact .inl ⟨hhands, congrArg Accounts.exchanges hf⟩
  | performs hm' hs hf =>
    obtain ⟨rfl, rfl, rfl, rfl, rfl⟩ := hm.unique hm'
    exact .inr (.inl ⟨hs, congrArg Accounts.exchanges hf⟩)
  | refuses _ hcontrol hf _ => exact .inr (.inr (.inl ⟨_, hcontrol, hf⟩))
  | panics _ hcontrol _ => exact .inr (.inr (.inr hcontrol))
  | passes hh | fails hh | misses hh | captures hh | abandons hh => exact absurd hm hh.not_sends
  | returns hr => exact absurd hm hr.not_sends

/-- The exchange of a dispatch is not used for another one, unless the thread ends. -/
theorem Sends.issued (hm : m.Sends e command i position next) :
    e < (m.step Γ).exchanges.next ∨ ∃ f, (m.step Γ).control = .fault f := by
  have hinsert : ∀ {y}, (m.step Γ).exchanges = (m.exchanges.insert y).2 →
      e < (m.step Γ).exchanges.next := by
    intro y heq
    obtain ⟨target, -, -, rfl⟩ := hm
    exact heq ▸ Nat.lt_succ_self _
  cases m.step_does Γ with
  | idles _ _ hsends _ => exact absurd hm (hsends _ _ _ _ _)
  | deals hd => cases hm.dealing?_eq_none.symm.trans hd
  | sends _ _ hf | performs _ _ hf | panics _ _ hf =>
    exact .inl (hinsert (congrArg Accounts.exchanges hf))
  | refuses _ hcontrol _ _ => exact .inr ⟨_, hcontrol⟩
  | passes hh | fails hh | misses hh | captures hh | abandons hh => exact absurd hm hh.not_sends
  | returns hr => exact absurd hm hr.not_sends

/-- A request goes to the next driver, or starts the clause. -/
theorem Hands.step (hm : m.Hands r) (h : m.Tidy) :
    ((m.step Γ).Hands r ∧ (m.step Γ).exchanges = m.exchanges ∧
        (m.step Γ).fibers.resumers.length < m.fibers.resumers.length) ∨
      (∃ command, m.Starts Γ r.exchange command r.target r.entry ∧ (m.step Γ).Past r.exchange) ∨
      (m.step Γ).Broken := by
  have hunique : ∀ {r'}, m.Hands r' → r' = r := fun hm' =>
    Control.request.inj (hm'.2.symm.trans hm.2)
  -- the command goes with the clause
  have htaken : ∀ {a : Accounts ω}, a.Fades (m.step Γ).accounts →
      (a.exchanges = m.exchanges.modify r.exchange fun x => { x with command := none }) →
      (m.step Γ).Past r.exchange := by
    intro a hf heq
    obtain ⟨-, y, command, hy, -⟩ := h.request r hm.2
    have hwf := Store.wellFormed_modify h.accounts.exchanges r.exchange
      fun x => { x with command := none }
    have hnext : (m.step Γ).exchanges.next = a.exchanges.next := hf.next_exchange
    refine ⟨?_, fun y' hy' => ?_⟩
    · rw [hnext, heq]
      exact Store.lt_next h.accounts.exchanges hy
    · have hy' := hf.find?_exchange (heq ▸ hwf) hy'
      rw [heq, Store.find?_modify, if_pos rfl, hy] at hy'
      obtain rfl := Option.some.inj hy'
      rfl
  cases m.step_does Γ with
  | idles _ _ _ hhands => exact absurd hm (hhands r)
  | deals hd => cases hm.dealing?_eq_none.symm.trans hd
  | sends hs | performs hs | refuses hs | panics hs => exact absurd hs hm.not_sends
  | passes hm' hhands hresumers hexchanges _ =>
    obtain rfl := hunique hm'
    exact .inl ⟨hhands, hexchanges, hresumers⟩
  | fails _ hcontrol _ => exact .inr (.inr hcontrol)
  | misses hm' _ ht =>
    obtain rfl := hunique hm'
    obtain ⟨-, y, command, hy, hcommand⟩ := h.request _ hm.2
    simp [hy, hcommand] at ht
  | captures hm' hs _ _ _ hf | abandons hm' hs _ _ hf =>
    obtain rfl := hunique hm'
    exact .inr (.inl ⟨_, hs, htaken hf rfl⟩)
  | returns hr => exact absurd hm hr.not_hands

/-- A clause that starts has taken its command. -/
theorem Starts.past (hs : m.Starts Γ e command i position) (h : m.Tidy) : (m.step Γ).Past e := by
  obtain ⟨code, ⟨-, hcontrol, -⟩, hstarts⟩ := hs
  have hnotHands : ∀ {r}, ¬ (m.step Γ).Hands r := fun hh => by cases hh.2.symm.trans hcontrol
  have hnotBroken : ¬ (m.step Γ).Broken := by
    rintro (⟨f, hf, -⟩ | hu)
    · cases hf.symm.trans hcontrol
    · cases hu.symm.trans hcontrol
  split at hstarts
  · obtain ⟨next, hm⟩ := hstarts
    rcases hm.step (Γ := Γ) with ⟨hh, -⟩ | ⟨-, heq⟩ | hb
    · exact absurd hh hnotHands
    · obtain ⟨target, -, -, rfl⟩ := hm
      refine ⟨heq ▸ Nat.lt_succ_self _, fun y hy => ?_⟩
      rw [heq, Store.find?_insert_self] at hy
      obtain rfl := Option.some.inj hy
      rfl
    · exact absurd hb hnotBroken
  · obtain ⟨name, y, hm, -, -⟩ := hstarts
    rcases hm.step (Γ := Γ) h with ⟨hh, -⟩ | ⟨-, -, hpast⟩ | hb
    · exact absurd hh hnotHands
    · exact hpast
    · exact absurd hb hnotBroken

/-- The continuation of a dispatch comes under the number that its clause gets. -/
theorem Starts.created (hs : m.Starts Γ e command i position) {code : ClauseCode ω}
    (hcode : m.codeAt Γ i position = some code) (htakes : code.takes = true) :
    ∃ k, (m.step Γ).resumptions.find? m.resumptions.next = some k ∧ k.exchange? = some e := by
  obtain ⟨code', ⟨hcode', hcontrol, -⟩, hstarts⟩ := hs
  obtain rfl := Option.some.inj (hcode.symm.trans hcode')
  have hplain : code.modifier ≠ .plain := by
    cases code <;> simp_all [ClauseCode.takes, ClauseCode.modifier]
  rw [if_neg hplain] at hstarts
  obtain ⟨name, y, hm, -, -⟩ := hstarts
  have hunique : ∀ {r'}, m.Hands r' → r' = ⟨i, position, e, name⟩ := fun hm' =>
    Control.request.inj (hm'.2.symm.trans hm.2)
  cases m.step_does Γ with
  | captures hm' _ _ _ hk hf =>
    obtain rfl := hunique hm'
    refine ⟨_, ?_, hk⟩
    exact (hf.find?_eq _).trans (Store.find?_insert_self m.resumptions _)
  | abandons hm' _ hcode'' htakes' _ =>
    obtain rfl := hunique hm'
    obtain rfl := Option.some.inj (hcode.symm.trans hcode'')
    cases htakes.symm.trans htakes'
  | idles _ _ _ hhands => exact absurd hm (hhands _)
  | deals hd => cases hm.dealing?_eq_none.symm.trans hd
  | sends hs | performs hs | refuses hs | panics hs => exact absurd hs hm.not_sends
  | passes _ hhands => cases hhands.2.symm.trans hcontrol
  | fails _ hc _ => rcases hc with ⟨f, hc, -⟩ | hc <;> cases hc.symm.trans hcontrol
  | misses _ hc _ => cases hc.symm.trans hcontrol
  | returns hr => exact absurd hm hr.not_hands

/-- A request that is under way starts the clause for its command in the end. -/
theorem Hands.starts (hm : m.Hands r) (h : m.Tidy) {y : Exchange}
    (hy : m.exchanges.find? r.exchange = some y) (hcommand : y.command = some command) :
    ∃ k, (∀ j ≤ k, (run Γ j m).Hands r) ∧
      ((run Γ k m).Starts Γ r.exchange command r.target r.entry ∨ (run Γ (k + 1) m).Broken) := by
  -- each driver that passes it on is one less
  induction hn : m.fibers.resumers.length using Nat.strong_induction_on generalizing m with
  | _ n ih =>
    have hhere : ∀ j ≤ 0, (run Γ j m).Hands r := by
      intro j hj
      obtain rfl := Nat.le_zero.mp hj
      exact hm
    rcases hm.step (Γ := Γ) h with ⟨hh, hexchanges, hlt⟩ | ⟨command', hs, -⟩ | hb
    · obtain ⟨k, hhands, hk⟩ := ih _ (hn ▸ hlt) hh h.step (hexchanges ▸ hy) rfl
      have hshift : ∀ j, run Γ (j + 1) m = run Γ j (m.step Γ) := by
        intro j
        rw [Nat.add_comm, run_add]
        exact congrArg _ (run_succ 0 m)
      refine ⟨k + 1, fun j hj => ?_, ?_⟩
      · cases j with
        | zero => exact hm
        | succ j => exact hshift j ▸ hhands j (Nat.le_of_succ_le_succ hj)
      · rw [hshift, hshift]
        exact hk
    · refine ⟨0, hhere, .inl ?_⟩
      obtain ⟨code, hcode, hstarts⟩ := id hs
      split at hstarts
      · obtain ⟨next, hsends⟩ := hstarts
        exact absurd hsends hm.not_sends
      · obtain ⟨name, y', -, hy', hcommand'⟩ := hstarts
        cases hy.symm.trans hy'
        cases hcommand.symm.trans hcommand'
        exact hs
    · exact ⟨0, hhere, .inr (run_succ 0 m ▸ hb)⟩

/-- A request that is under way comes from a dispatch or from another driver. -/
theorem hands_of_step (h : m.Tidy) (hh : (m.step Γ).Hands r) :
    (∃ command next, m.Sends r.exchange command r.target r.entry next ∧
        (m.step Γ).exchanges = (m.exchanges.insert { command := some command }).2) ∨
      (m.Hands r ∧ (m.step Γ).exchanges = m.exchanges) := by
  have hquiet : ¬ ((m.step Γ).control.request? = none ∨ m.releasing ≠ []) := by
    rintro (hnone | hne)
    · rw [hh.2] at hnone
      cases hnone
    · cases hreleasing : m.releasing with
      | nil => exact hne hreleasing
      | cons x hs =>
        have hcontrol := hh.2
        rw [step_releasing hreleasing, releaseOne_control] at hcontrol
        exact hne (h.request r hcontrol).1.1
  have hstarts : ∀ {e command i position}, ¬ m.Starts Γ e command i position := by
    rintro e command i position ⟨code, ⟨-, hcontrol, -⟩, -⟩
    cases hcontrol.symm.trans hh.2
  cases m.step_does Γ with
  | idles hi _ _ _ => exact absurd hi.request hquiet
  | deals _ _ hrequest => exact absurd hrequest hquiet
  | sends hm hhands hf =>
    obtain rfl := Control.request.inj (hhands.2.symm.trans hh.2)
    exact .inl ⟨_, _, hm, congrArg Accounts.exchanges hf⟩
  | passes hm hhands _ hx _ =>
    obtain rfl := Control.request.inj (hhands.2.symm.trans hh.2)
    exact .inr ⟨hm, hx⟩
  | performs _ hs _ => exact absurd hs hstarts
  | captures _ hs => exact absurd hs hstarts
  | abandons _ hs => exact absurd hs hstarts
  | refuses _ hc _ _ => cases hc.symm.trans hh.2
  | panics _ hc _ => cases hc.symm.trans hh.2
  | misses _ hc _ => cases hc.symm.trans hh.2
  | fails _ hc _ => rcases hc with ⟨f, hc, -⟩ | hc <;> cases hc.symm.trans hh.2
  | returns hm _ _ _ _ => cases hm.2.2.2.1.symm.trans hh.2

/-! ### Where everything comes from -/

/-- A request that is under way, with its command, was sent. -/
theorem run_hands (h : m.Tidy) (hnone : ∀ r, m.control ≠ .request r) (n : Nat)
    (hh : (run Γ n m).Hands r) :
    ∃ k < n, ∃ command next, (run Γ k m).Sends r.exchange command r.target r.entry next ∧
      (run Γ n m).exchanges.find? r.exchange = some { command := some command } := by
  induction n with
  | zero => exact absurd hh.2 (hnone r)
  | succ n ih =>
    rw [run_succ] at hh ⊢
    rcases hands_of_step (h.run n) hh with ⟨command, next, hm, hexchanges⟩ | ⟨hh, hexchanges⟩
    · refine ⟨n, Nat.lt_succ_self n, command, next, hm, ?_⟩
      obtain ⟨target, -, -, he⟩ := hm
      rw [hexchanges, he, Store.find?_insert_self]
    · obtain ⟨k, hk, command, next, hm, hy⟩ := ih hh
      exact ⟨k, Nat.lt_succ_of_lt hk, command, next, hm, hexchanges ▸ hy⟩

/-- The continuation of an exchange is there only after its clause has started. -/
theorem run_stored (h : m.Tidy) (hnone : m.accounts.stored = []) (n : Nat)
    (he : e ∈ (run Γ n m).accounts.stored) :
    ∃ k < n, ∃ r command, (run Γ k m).Hands r ∧ e = r.exchange ∧
      (run Γ k m).Starts Γ e command r.target r.entry := by
  induction n with
  | zero =>
    have he : e ∈ m.accounts.stored := he
    rw [hnone] at he
    cases he
  | succ n ih =>
    rw [run_succ] at he
    rcases step_stores (h.run n) he with he | ⟨r, command, hm, he, hs⟩
    · obtain ⟨k, hk, hs⟩ := ih he
      exact ⟨k, Nat.lt_succ_of_lt hk, hs⟩
    · exact ⟨n, Nat.lt_succ_self n, r, command, hm, he, hs⟩

/-- A result in an exchange is the value of a resume. -/
theorem run_result (h : m.Tidy) (hnone : ∀ e y, m.exchanges.find? e = some y → y.result = none)
    (n : Nat) {y : Exchange} (hy : (run Γ n m).exchanges.find? e = some y)
    (hv : y.result = some v) : ∃ k < n, (run Γ k m).Resumes e v := by
  induction n generalizing y with
  | zero => cases (hnone e y hy).symm.trans hv
  | succ n ih =>
    rw [run_succ] at hy
    cases step_finds (h.run n) hy with
    | @kept y₀ hy₀ _ hresult =>
      rcases hresult with heq | heq
      · obtain ⟨k, hk, hr⟩ := ih hy₀ (heq.symm.trans hv)
        exact ⟨k, Nat.lt_succ_of_lt hk, hr⟩
      · cases heq.symm.trans hv
    | resumed _ hm _ hresult =>
      obtain rfl := Option.some.inj (hresult.symm.trans hv)
      exact ⟨n, Nat.lt_succ_self n, hm⟩
    | sent _ _ hresult => cases hresult.symm.trans hv

/-- Who waits has sent a command, and nothing has touched the code below since. -/
theorem run_waits (h : m.Tidy) (hnone : m.waits = []) (n : Nat) (hw : w ∈ (run Γ n m).waits) :
    ∃ k < n, ∃ command i position next,
      (run Γ k m).Sends w.exchange command i position next ∧
        w.below = .bind next :: (run Γ k m).stack ∧
        (w.inPlace = true → (run Γ k m).Starts Γ w.exchange command i position) := by
  induction n with
  | zero =>
    have hw : w ∈ m.waits := hw
    rw [hnone] at hw
    cases hw
  | succ n ih =>
    rw [run_succ] at hw
    rcases step_waits (h.run n) hw with hw | ⟨command, i, position, next, hm⟩
    · obtain ⟨k, hk, hm⟩ := ih hw
      exact ⟨k, Nat.lt_succ_of_lt hk, hm⟩
    · exact ⟨n, Nat.lt_succ_self n, command, i, position, next, hm⟩

/-! ### What happens once -/

theorem run_issues (h : m.Tidy) (n : Nat) : m.exchanges.next ≤ (run Γ n m).exchanges.next := by
  induction n with
  | zero => exact Nat.le_refl _
  | succ n ih =>
    rw [run_succ]
    exact Nat.le_trans ih (step_issues (h.run n))

theorem Past.run (hp : m.Past e) (h : m.Tidy) (n : Nat) : (run Γ n m).Past e := by
  induction n with
  | zero => exact hp
  | succ n ih => exact run_succ n m ▸ ih.step (h.run n)

/-- What is resumed was held under a number, and is so no longer. -/
theorem Resumes.stored (hm : m.Resumes e v) (h : m.Tidy) :
    e ∈ m.accounts.stored ∧ e ∉ (m.step Γ).accounts.stored := by
  obtain ⟨d, k, hd, hresumed, hk⟩ := hm
  obtain ⟨r, hused, henter⟩ : ∃ r, d.used? = some (r, k) ∧
      (d.enter m.accounts).stored =
        ({ m.accounts with resumptions := m.resumptions.erase r } : Accounts ω).stored := by
    cases d with
    | resumes r k' v' | tailResumes r k' v' =>
      obtain ⟨rfl, rfl⟩ := Prod.mk.inj (Option.some.inj hresumed)
      exact ⟨r, rfl, rfl⟩
    | makes | takes | discards => cases hresumed
  have hperm := Accounts.stored_perm_erase (a := m.accounts) (find?_of_dealing hd hused)
  rw [hk] at hperm
  refine ⟨hperm.mem_iff.mpr List.mem_cons_self, ?_⟩
  rw [(step_deals hd).1.stored_eq, henter]
  have hnodup : m.accounts.stored.Nodup := (List.nodup_append.mp h.accounts.held).1
  exact (List.nodup_cons.mp (hperm.nodup_iff.mp hnodup)).1

/-- Once its continuation was resumed, an exchange is not resumed again. -/
theorem run_not_stored (hp : m.Past e) (h : m.Tidy) (he : e ∉ m.accounts.stored) (n : Nat) :
    e ∉ (run Γ n m).accounts.stored := by
  induction n with
  | zero => exact he
  | succ n ih =>
    rw [run_succ]
    intro hmem
    rcases step_stores (h.run n) hmem with hmem | ⟨r, command, -, -, hs⟩
    · exact ih hmem
    · exact (hp.run h n).not_starts hs

/-- Who gets a result waits no longer, and the result of an invoker that was parked was in the
exchange. -/
theorem Returns.step (hm : m.Returns Γ w v) : m.waits = w :: (m.step Γ).waits ∧
    (w.inPlace = false → ∃ y, m.exchanges.find? w.exchange = some y ∧ y.result = some v) := by
  obtain ⟨hreleasing, ⟨a, hstack, ha⟩, hcontrol, hret, hbelow⟩ := hm
  suffices hstep : (m.step Γ).fibers = m.fibers ∧ (w.inPlace = false →
      ∃ y, m.exchanges.find? w.exchange = some y ∧ y.result = some v) by
    refine ⟨?_, hstep.2⟩
    rw [Machine.waits, Machine.waits, hstep.1, hbelow, hstack]
    simp [waitsIn, ha]
  obtain ⟨e, inPlace, S⟩ := w
  cases inPlace with
  | true =>
    obtain ⟨i, handler, hidden, rfl⟩ : ∃ i handler hidden, a = .inPlace i handler hidden e := by
      cases a <;> simp_all [Activation.wait?]
    have hstep : m.step Γ = m.give Γ v := by
      simp only [Machine.step, hreleasing]
      rw [if_pos rfl] at hcontrol
      rw [hcontrol]
    refine ⟨?_, by simp⟩
    rw [hstep]
    simp only [give, hstack]
    rfl
  | false =>
    obtain ⟨i, modifier, command, rfl⟩ : ∃ i modifier command,
        a = .sending i e modifier command := by
      cases a <;> simp_all [Activation.wait?]
    have hstep : m.step Γ = m.wake := by
      simp only [Machine.step, hreleasing]
      rw [if_neg Bool.false_ne_true] at hcontrol
      rw [hcontrol]
    rw [hstep] at hret ⊢
    simp only [wake, hstack] at hret ⊢
    split at hret
    · cases hret
    · rename_i hmodifier
      rw [if_neg hmodifier]
      split at hret
      · rename_i v' hv'
        obtain rfl := Control.ret.inj hret
        exact ⟨rfl, fun _ => Option.bind_eq_some_iff.mp hv'⟩
      · cases hret

/-- Who does not wait for a result never waits for it again. -/
theorem run_not_waits (h : m.Tidy) (hlt : e < m.exchanges.next)
    (hnone : ∀ w ∈ m.waits, w.exchange ≠ e) (n : Nat) :
    ∀ w ∈ (run Γ n m).waits, w.exchange ≠ e := by
  induction n with
  | zero => exact hnone
  | succ n ih =>
    rw [run_succ]
    intro w hw heq
    rcases step_waits (h.run n) hw with hw | ⟨command, i, position, next, hm, -⟩
    · exact ih w hw heq
    · obtain ⟨target, -, -, he⟩ := hm
      exact Nat.lt_irrefl _ (Nat.lt_of_lt_of_le hlt
        (Nat.le_trans (run_issues h n) (Nat.le_of_eq (he.symm.trans heq))))

/-- A thread that has ended evaluates nothing any more. -/
theorem run_ended (hended : (∃ f, m.control = .fault f) ∨ ∃ o, m.control = .halted o) (n : Nat) :
    (∃ f, (run Γ n m).control = .fault f) ∨ ∃ o, (run Γ n m).control = .halted o := by
  induction n with
  | zero => exact hended
  | succ n ih =>
    rw [run_succ]
    generalize run Γ n m = m' at ih
    cases hreleasing : m'.releasing with
    | cons x hs =>
      rw [step_releasing hreleasing, releaseOne_control]
      exact ih
    | nil =>
      rcases ih with ⟨f, hf⟩ | ⟨o, ho⟩
      · refine .inr ⟨.fatal f m'.chain.listing, ?_⟩
        simp only [Machine.step, hreleasing, hf]
        rfl
      · rw [step_halted ho hreleasing]
        exact .inr ⟨o, ho⟩

/-! ### Every run -/

/-- What is sent reaches a clause, and results reach who has sent it. -/
structure Delivers (Γ : Library ω) (m : Machine ω) : Prop where
  /-- Every dispatch has an exchange of its own. -/
  sentOnce : ∀ n n' e command command' i i' position position' next next',
    (run Γ n m).Sends e command i position next →
      (run Γ n' m).Sends e command' i' position' next' → n = n'
  /-- A dispatch starts the clause, at once or after the drivers in between have passed the request
  on, unless an invariant of the runtime is broken. -/
  starts : ∀ n e command i position next, (run Γ n m).Sends e command i position next →
    ∃ k, (∀ j < k, (run Γ (n + j + 1) m).Hands ⟨i, position, e, command.name⟩) ∧
      ((run Γ (n + k) m).Starts Γ e command i position ∨ (run Γ (n + k + 1) m).Broken)
  /-- No clause starts twice for a dispatch. -/
  startsOnce : ∀ n n' e command command' i i' position position',
    (run Γ n m).Starts Γ e command i position →
      (run Γ n' m).Starts Γ e command' i' position' → n = n'
  /-- A clause starts only for a dispatch, with the command that was sent. -/
  started : ∀ n e command i position, (run Γ n m).Starts Γ e command i position →
    ∃ n' ≤ n, ∃ next, (run Γ n' m).Sends e command i position next
  /-- The continuation of a dispatch comes under the number that the clause gets. -/
  created : ∀ n e command i position code, (run Γ n m).Starts Γ e command i position →
    (run Γ n m).codeAt Γ i position = some code → code.takes = true →
      ∃ k, (run Γ (n + 1) m).resumptions.find? (run Γ n m).resumptions.next = some k ∧
        k.exchange? = some e
  /-- A resumption holds the continuation of a dispatch only once the clause has started, and no
  other resumption holds it then. -/
  held : ∀ n e r k, (run Γ n m).resumptions.find? r = some k → k.exchange? = some e →
    (∃ n' < n, ∃ command i position, (run Γ n' m).Starts Γ e command i position) ∧
      ∀ r' k', (run Γ n m).resumptions.find? r' = some k' → k'.exchange? = some e → r' = r
  /-- The continuation of a dispatch is resumed at most once. -/
  resumedOnce : ∀ n n' e v v', (run Γ n m).Resumes e v → (run Γ n' m).Resumes e v' → n = n'
  /-- What a dispatch returns to the code that follows it is the value with which its continuation
  was resumed, or what the plain clause returned. -/
  returned : ∀ n w v, (run Γ n m).Returns Γ w v →
    ∃ n' < n, ∃ command i position next, (run Γ n' m).Sends w.exchange command i position next ∧
      w.below = .bind next :: (run Γ n' m).stack ∧
      if w.inPlace then (run Γ n' m).Starts Γ w.exchange command i position
      else ∃ j, n' < j ∧ j < n ∧ (run Γ j m).Resumes w.exchange v
  returnedOnce : ∀ n n' w w' v v', (run Γ n m).Returns Γ w v → (run Γ n' m).Returns Γ w' v' →
    w.exchange = w'.exchange → n = n'

/-- An exchange is used for one dispatch. -/
theorem not_sends_later (h : m.Tidy) {n n' : Nat} (hlt : n < n')
    (hm : (run Γ n m).Sends e command i position next) {command' : Command} {i' : InstallationId}
    {position' : Nat} {next' : Value → Comp ω} :
    ¬ (run Γ n' m).Sends e command' i' position' next' := by
  obtain ⟨d, rfl⟩ := Nat.exists_eq_add_of_le (Nat.succ_le_of_lt hlt)
  rintro ⟨target, ⟨-, hcontrol⟩, -, he⟩
  rw [run_add, run_succ] at he hcontrol
  rcases hm.issued (Γ := Γ) with hissued | hended
  · exact Nat.lt_irrefl _ (Nat.lt_of_lt_of_le hissued
      (Nat.le_trans (run_issues (h.run n).step d) (Nat.le_of_eq he.symm)))
  · rcases run_ended (Γ := Γ) (.inl hended) d with ⟨f, hf⟩ | ⟨o, ho⟩
    · cases hf.symm.trans hcontrol
    · cases ho.symm.trans hcontrol

/-- A dispatch starts its clause, or breaks the run. -/
theorem Sends.starts (hm : m.Sends e command i position next) (h : m.Tidy) :
    ∃ k, (∀ j < k, (run Γ (j + 1) m).Hands ⟨i, position, e, command.name⟩) ∧
      ((run Γ k m).Starts Γ e command i position ∨ (run Γ (k + 1) m).Broken) := by
  have hone : run Γ 1 m = m.step Γ := run_succ 0 m
  rcases hm.step (Γ := Γ) with ⟨hh, heq⟩ | ⟨hs, -⟩ | hb
  · have hy : (m.step Γ).exchanges.find? e = some { command := some command } := by
      obtain ⟨target, -, -, he⟩ := hm
      rw [heq, he, Store.find?_insert_self]
    obtain ⟨k, hhands, hk⟩ := hh.starts (Γ := Γ) h.step hy rfl
    have hshift : ∀ j, run Γ (j + 1) m = run Γ j (m.step Γ) := by
      intro j
      rw [Nat.add_comm, run_add, hone]
    refine ⟨k + 1, fun j hj => ?_, ?_⟩
    · rw [hshift]
      exact hhands j (Nat.le_of_lt_succ hj)
    · rw [hshift, hshift]
      exact hk
  · exact ⟨0, by simp, .inl hs⟩
  · exact ⟨0, by simp, .inr (hone ▸ hb)⟩

/-- Commands and results are delivered along every run of every program. -/
theorem delivers_start (settings : SettingsSlot) (cells : List ω) (statics : List Owned)
    (main : Comp ω) : Delivers Γ (start settings cells statics main) := by
  have htidy := tidy_start settings cells statics main
  generalize hm : start settings cells statics main = m at htidy
  have hcontrol : ∀ r, m.control ≠ .request r := by
    subst hm
    simp [start]
  have hstored : m.accounts.stored = [] := by
    subst hm
    rfl
  have hresult : ∀ e y, m.exchanges.find? e = some y → y.result = none := by
    subst hm
    simp [start, Store.find?]
  have hwaits : m.waits = [] := by
    subst hm
    rfl
  have hrun : ∀ n, (run Γ n m).Tidy := fun n => htidy.run n
  -- what cannot happen at a later time happens once
  have honce : ∀ {P : Nat → Prop}, (∀ n n', n < n' → P n → ¬ P n') → ∀ n n', P n → P n' → n = n' := by
    intro P hnot n n' hn hn'
    rcases Nat.lt_trichotomy n n' with hlt | heq | hlt
    · exact absurd hn' (hnot n n' hlt hn)
    · exact heq
    · exact absurd hn (hnot n' n hlt hn')
  have hwaiting : ∀ n w v, (run Γ n m).Returns Γ w v → w ∈ (run Γ n m).waits := by
    intro n w v hr
    rw [hr.step.1]
    exact List.mem_cons_self
  exact
    { sentOnce := fun n n' e command command' i i' position position' next next' hs hs' =>
        honce (P := fun n => ∃ command i position next,
            (run Γ n m).Sends e command i position next)
          (by
            rintro n n' hlt ⟨_, _, _, _, hs⟩ ⟨_, _, _, _, hs'⟩
            exact not_sends_later htidy hlt hs hs')
          n n' ⟨_, _, _, _, hs⟩ ⟨_, _, _, _, hs'⟩
      starts := fun n e command i position next hs => by
        obtain ⟨k, hhands, hk⟩ := hs.starts (Γ := Γ) (hrun n)
        simp only [← run_add, ← Nat.add_assoc] at hhands hk
        exact ⟨k, hhands, hk⟩
      startsOnce := fun n n' e command command' i i' position position' hs hs' =>
        honce (P := fun n => ∃ command i position, (run Γ n m).Starts Γ e command i position)
          (by
            rintro n n' hlt ⟨_, _, _, hs⟩ ⟨_, _, _, hs'⟩
            obtain ⟨d, rfl⟩ := Nat.exists_eq_add_of_le (Nat.succ_le_of_lt hlt)
            rw [run_add, run_succ] at hs'
            exact ((hs.past (hrun n)).run (hrun n).step d).not_starts hs')
          n n' ⟨_, _, _, hs⟩ ⟨_, _, _, hs'⟩
      started := fun n e command i position hs => by
        obtain ⟨code, -, hstarts⟩ := hs
        split at hstarts
        · exact ⟨n, Nat.le_refl n, hstarts⟩
        · obtain ⟨name, y, hh, hy, hcommand⟩ := hstarts
          obtain ⟨k, hk, command', next, hs, hy'⟩ := run_hands htidy hcontrol n hh
          obtain rfl := Option.some.inj (hy'.symm.trans hy)
          obtain rfl := Option.some.inj hcommand
          exact ⟨k, Nat.le_of_lt hk, next, hs⟩
      created := fun n e command i position code hs hcode htakes => by
        rw [run_succ]
        exact hs.created hcode htakes
      held := fun n e r k hk he => by
        obtain ⟨n', hn', r', command, -, -, hs⟩ := run_stored htidy hstored n (mem_stored hk he)
        exact ⟨⟨n', hn', command, _, _, hs⟩,
          fun r' k' hk' he' => (hrun n).holder_unique hk hk' he he'⟩
      resumedOnce := fun n n' e v v' hr hr' =>
        honce (P := fun n => ∃ v, (run Γ n m).Resumes e v)
          (by
            rintro n n' hlt ⟨_, hr⟩ ⟨_, hr'⟩
            obtain ⟨d, rfl⟩ := Nat.exists_eq_add_of_le (Nat.succ_le_of_lt hlt)
            obtain ⟨hmem, hgone⟩ := hr.stored (Γ := Γ) (hrun n)
            have hpast := (hrun n).past (List.mem_append_left _ hmem)
            have hlater := run_not_stored (Γ := Γ) (hpast.step (hrun n)) (hrun n).step hgone d
            rw [← run_succ, ← run_add] at hlater
            exact hlater (hr'.stored (Γ := Γ) (hrun _)).1)
          n n' ⟨_, hr⟩ ⟨_, hr'⟩
      returned := fun n w v hr => by
        obtain ⟨n', hn', command, i, position, next, hs, hbelow, hplain⟩ :=
          run_waits htidy hwaits n (hwaiting n w v hr)
        refine ⟨n', hn', command, i, position, next, hs, hbelow, ?_⟩
        cases hplace : w.inPlace with
        | true => exact hplain hplace
        | false =>
          obtain ⟨y, hy, hv⟩ := hr.step.2 hplace
          obtain ⟨j, hj, hj'⟩ := run_result htidy hresult n hy hv
          refine ⟨j, ?_, hj, hj'⟩
          -- the exchange was not there before the dispatch
          have hissued := ((hrun j).past (List.mem_append_left _ (hj'.stored (Γ := Γ) (hrun j)).1)).issued
          obtain ⟨target, -, -, he⟩ := hs
          by_contra hle
          obtain ⟨d, rfl⟩ := Nat.exists_eq_add_of_le (Nat.le_of_not_lt hle)
          have hgrows := run_issues (Γ := Γ) (hrun j) d
          rw [← run_add, ← he] at hgrows
          exact Nat.lt_irrefl _ (Nat.lt_of_lt_of_le hissued hgrows)
      returnedOnce := fun n n' w w' v v' hr hr' he =>
        honce (P := fun n => ∃ w' v, (run Γ n m).Returns Γ w' v ∧ w'.exchange = w.exchange)
          (by
            rintro n n' hlt ⟨w₁, v₁, hr, he⟩ ⟨w₂, v₂, hr', he'⟩
            obtain ⟨d, rfl⟩ := Nat.exists_eq_add_of_le (Nat.succ_le_of_lt hlt)
            have hwaits := hr.step.1
            have hissued := (hrun n).accounts.issued w₁ (hwaiting n w₁ v₁ hr)
            have hnodup : ((run Γ n m).waits.map (·.exchange)).Nodup := (hrun n).accounts.waits
            rw [hwaits, List.map_cons, List.nodup_cons] at hnodup
            have hnone := run_not_waits (Γ := Γ) (hrun n).step
              (Nat.lt_of_lt_of_le hissued (step_issues (hrun n)))
              (fun w hw heq => hnodup.1 (List.mem_map.mpr ⟨w, hw, heq⟩)) d
            rw [← run_succ, ← run_add] at hnone
            exact hnone w₂ (hwaiting _ w₂ v₂ hr') (he'.trans he.symm))
          n n' ⟨w, v, hr, rfl⟩ ⟨w', v', hr', he.symm⟩ }

/-- In every run of every program, what is sent reaches a clause and results reach who has sent it;
and no dispatch of an orderly program breaks an invariant of the runtime instead. -/
theorem results_delivered (settings : SettingsSlot) (cells : List ω) (statics : List Owned)
    (main : Comp ω) : Delivers Γ (start settings cells statics main) ∧
      (Γ.Orderly → main.Orderly →
        settings.use.1.stackSize + StackPool.margin < Word.count →
          ∀ n, ¬ (run Γ n (start settings cells statics main)).Broken) := by
  refine ⟨delivers_start settings cells statics main, fun hΓ hmain hsize n => ?_⟩
  have huntroubled : (run Γ n (start settings cells statics main)).Untroubled Γ :=
    no_internal_fault hΓ hmain hsize n
  rintro (⟨f, hcontrol, hf⟩ | hcontrol)
  · cases (huntroubled.fault f hcontrol).symm.trans hf
  · exact huntroubled.unwind _ hcontrol

/-- The command of `asking` is sent after two steps, and its result is delivered. -/
theorem results_delivered_asking :
    (run reader 2 (start {} [()] [] asking)).Sends 0 { name := "Ask" } 1 0 .done ∧
      Delivers reader (start {} [()] [] asking) ∧
      ∀ n, ¬ (run reader n (start {} [()] [] asking)).Broken :=
  ⟨⟨.innermost, ⟨rfl, rfl⟩, rfl, rfl⟩, (results_delivered {} [()] [] asking).1,
    (results_delivered {} [()] [] asking).2 reader_orderly asking_orderly (by decide)⟩

end EffectHandlers.Machine
