import EffectHandlers.Proofs.Entering
/-!
# Tidy accounts

Along any run the accounts stay tidy: nobody waits twice at an exchange, at most one continuation
belongs to an exchange, and the command is out of the exchange by then. A request that is under
way finds its command.
-/

namespace EffectHandlers

variable {ω : Type} {Γ : Library ω} {m : Machine ω}

namespace Accounts

/-- The exchanges whose continuations are held under a number. -/
def stored (a : Accounts ω) : List ExchangeId :=
  (a.resumptions.entries.map (·.2)).filterMap Cont.exchange?

/-- The exchanges whose continuations are held under a number, or were resumed and have not
started. -/
def held (a : Accounts ω) : List ExchangeId := a.stored ++ a.armed.filterMap Cont.exchange?

/-- Accounts in which every exchange serves one invocation. -/
structure Tidy (a : Accounts ω) : Prop where
  resumptions : a.resumptions.WellFormed
  exchanges : a.exchanges.WellFormed
  waits : (a.waits.map (·.exchange)).Nodup
  issued : ∀ w ∈ a.waits, w.exchange < a.exchanges.next
  held : a.held.Nodup
  /-- The command of a continuation has been taken. -/
  taken : ∀ e ∈ a.held, e < a.exchanges.next ∧
    ∀ y, a.exchanges.find? e = some y → y.command = none

variable {a a' : Accounts ω} {r : ResumptionId} {k : Cont ω} {e : ExchangeId}

theorem stored_insert {s : Accounts ω} (hs : s.resumptions = (a.resumptions.insert k).2) :
    s.stored = k.exchange?.toList ++ a.stored := by
  unfold stored
  rw [hs]
  cases h : k.exchange? <;> simp [Store.insert, h]

/-- A continuation that goes takes its exchange with it. -/
theorem stored_perm_erase (h : a.resumptions.find? r = some k) :
    a.stored.Perm (k.exchange?.toList ++
      ({ a with resumptions := a.resumptions.erase r } : Accounts ω).stored) := by
  refine (((Store.entries_perm_erase h).map (·.2)).filterMap Cont.exchange?).trans ?_
  unfold stored
  cases h : k.exchange? <;> simp [h]

namespace Fades

theorem stored_eq (h : a.Fades a') : a'.stored = a.stored := by
  have hentries : a'.resumptions.entries = a.resumptions.entries := by
    rcases h.resumptions with heq | heq <;> rw [heq]
  rw [stored, stored, hentries]

theorem find?_exchange (h : a.Fades a') (hwf : a.exchanges.WellFormed) {y : Exchange}
    (hy : a'.exchanges.find? e = some y) : a.exchanges.find? e = some y := by
  rcases h.exchanges with heq | ⟨e', heq⟩
  · rwa [heq] at hy
  · rw [heq, Store.find?_erase hwf] at hy
    split at hy
    · cases hy
    · exact hy

theorem find?_eq (h : a.Fades a') (r : ResumptionId) :
    a'.resumptions.find? r = a.resumptions.find? r := by
  rcases h.resumptions with heq | heq <;> rw [heq]
  rfl

theorem next_exchange (h : a.Fades a') : a'.exchanges.next = a.exchanges.next := by
  rcases h.exchanges with heq | ⟨e', heq⟩ <;> rw [heq]
  rfl

end Fades

/-- Giving something up keeps accounts tidy. -/
theorem Tidy.fades (h : a.Tidy) (hfades : a.Fades a') : a'.Tidy := by
  have hnext := hfades.next_exchange
  have hheld : a'.held.Sublist a.held := by
    rw [Accounts.held, Accounts.held, hfades.stored_eq]
    exact (hfades.armed.filterMap _).append_left _
  exact
    { resumptions := by
        rcases hfades.resumptions with heq | heq <;> rw [heq]
        · exact h.resumptions
        · exact Store.wellFormed_skip h.resumptions
      exchanges := by
        rcases hfades.exchanges with heq | ⟨e, heq⟩ <;> rw [heq]
        · exact h.exchanges
        · exact Store.wellFormed_erase h.exchanges e
      waits := by
        obtain ⟨ws, hperm, hsub⟩ := hfades.waits
        exact (hperm.map _).nodup_iff.mp ((hsub.map _).nodup h.waits)
      issued := fun w hw => hnext ▸ h.issued w (hfades.waits.subset hw)
      held := hheld.nodup h.held
      taken := fun e he => by
        obtain ⟨hlt, hnone⟩ := h.taken e (hheld.subset he)
        exact ⟨hnext ▸ hlt, fun y hy => hnone y (hfades.find?_exchange h.exchanges hy)⟩ }

/-- A new exchange. -/
theorem Tidy.insert (h : a.Tidy) (y : Exchange) :
    ({ a with exchanges := (a.exchanges.insert y).2 } : Accounts ω).Tidy where
  resumptions := h.resumptions
  exchanges := Store.wellFormed_insert h.exchanges y
  waits := h.waits
  issued := fun w hw => Nat.lt_succ_of_lt (h.issued w hw)
  held := h.held
  taken := by
    intro e he
    obtain ⟨hlt, hnone⟩ := h.taken e he
    refine ⟨Nat.lt_succ_of_lt hlt, fun y' hy' => hnone y' ?_⟩
    rwa [Store.find?_insert, if_neg (Nat.ne_of_lt hlt)] at hy'

/-- Somebody waits at a new exchange. -/
theorem Tidy.await (h : a.Tidy) {w : Wait ω} (hw : w.exchange = a.exchanges.next) (y : Exchange) :
    ({ a with exchanges := (a.exchanges.insert y).2, waits := w :: a.waits } : Accounts ω).Tidy :=
  { h.insert y with
    waits := by
      rw [List.map_cons, List.nodup_cons]
      refine ⟨fun hmem => ?_, h.waits⟩
      obtain ⟨w', hw', heq⟩ := List.mem_map.mp hmem
      exact Nat.lt_irrefl _ (heq.trans hw ▸ h.issued w' hw')
    issued := by
      intro w' hw'
      show w'.exchange < a.exchanges.next + 1
      rcases List.mem_cons.mp hw' with rfl | hw'
      · exact hw ▸ Nat.lt_succ_self _
      · exact Nat.lt_succ_of_lt (h.issued w' hw') }

/-- An exchange changes, but its command stays or goes. -/
theorem Tidy.modify (h : a.Tidy) (e : ExchangeId) {f : Exchange → Exchange}
    (hf : ∀ y, y.command = none → (f y).command = none) :
    ({ a with exchanges := a.exchanges.modify e f } : Accounts ω).Tidy where
  resumptions := h.resumptions
  exchanges := Store.wellFormed_modify h.exchanges e f
  waits := h.waits
  issued := h.issued
  held := h.held
  taken := by
    intro e' he'
    obtain ⟨hlt, hnone⟩ := h.taken e' he'
    refine ⟨hlt, fun y' hy' => ?_⟩
    rw [Store.find?_modify] at hy'
    split at hy'
    · obtain ⟨y, hy, rfl⟩ := Option.map_eq_some_iff.mp hy'
      exact hf y (hnone y (by simp_all))
    · exact hnone y' hy'

/-- Continuations change their places, and some go. -/
theorem Tidy.move (h : a.Tidy) (hresumptions : a'.resumptions.WellFormed)
    (hexchanges : a'.exchanges = a.exchanges) (hwaits : a'.waits = a.waits)
    (hheld : a'.held.Subperm a.held) : a'.Tidy where
  resumptions := hresumptions
  exchanges := hexchanges ▸ h.exchanges
  waits := hwaits ▸ h.waits
  issued := by rw [hwaits, hexchanges]; exact h.issued
  held := by
    obtain ⟨l, hperm, hsub⟩ := hheld
    exact hperm.nodup_iff.mp (hsub.nodup h.held)
  taken := by
    intro e he
    rw [hexchanges]
    exact h.taken e (hheld.subset he)

/-- A continuation comes under a new number. -/
theorem Tidy.capture (h : a.Tidy) {k : Cont ω} {e : ExchangeId} (hk : k.exchange? = some e)
    {y : Exchange} {command : Command} (hy : a.exchanges.find? e = some y)
    (hcommand : y.command = some command) :
    ({ a with
      exchanges := a.exchanges.modify e fun x => { x with command := none }
      resumptions := (a.resumptions.insert k).2 } : Accounts ω).Tidy := by
  have htidy := h.modify e (f := fun x => { x with command := none }) fun _ _ => rfl
  refine { htidy with
    resumptions := Store.wellFormed_insert h.resumptions k
    held := ?_
    taken := fun e' he' => ?_ }
  · rw [Accounts.held, stored_insert (a := a) rfl, hk]
    show (e :: a.held).Nodup
    rw [List.nodup_cons]
    refine ⟨fun hmem => ?_, h.held⟩
    -- the command was still there
    have := (h.taken e hmem).2 y hy
    simp_all
  · rw [Accounts.held, stored_insert (a := a) rfl, hk] at he'
    rcases List.mem_cons.mp he' with rfl | he'
    · refine ⟨Store.lt_next h.exchanges hy, fun y' hy' => ?_⟩
      rw [Store.find?_modify, if_pos rfl, hy] at hy'
      obtain rfl := Option.some.inj hy'
      rfl
    · exact htidy.taken e' he'

/-- What resuming enters keeps accounts tidy. -/
theorem Tidy.arm (h : a.Tidy) (v : Value) (hk : a.resumptions.find? r = some k) :
    ({ a with
      resumptions := a.resumptions.erase r, exchanges := k.armExchanges a.exchanges v
      armed := a.armed ++ [k.arm v] } : Accounts ω).Tidy := by
  have hexchanges : ({ a with exchanges := k.armExchanges a.exchanges v } : Accounts ω).Tidy := by
    cases k with
    | captured answer f segment e =>
      exact h.modify e (f := fun y => { y with result := some v }) fun _ hy => hy
    | function answer f arg => exact h
  refine hexchanges.move (Store.wellFormed_erase h.resumptions r) rfl rfl (List.Perm.subperm ?_)
  -- the continuation changes its place
  refine List.Perm.trans ?_ ((stored_perm_erase hk).append_right _).symm
  have hone : [k.arm v].filterMap Cont.exchange? = k.exchange?.toList := by
    rw [← k.exchange?_arm v]
    cases h : (k.arm v).exchange? <;> simp [h]
  simp only [Accounts.held, List.filterMap_append, hone]
  rw [← List.append_assoc]
  exact List.perm_append_comm.trans (List.append_assoc .. ▸ .refl _)

/-- What is done with resumptions keeps accounts tidy. -/
theorem Tidy.enter (h : a.Tidy) {d : Dealing ω}
    (hd : ∀ r k, d.used? = some (r, k) → a.resumptions.find? r = some k)
    (hmakes : ∀ k, d = .makes k → k.exchange? = none) : (d.enter a).Tidy := by
  cases d with
  | makes k =>
    refine h.move (Store.wellFormed_insert h.resumptions k) rfl rfl ?_
    rw [Accounts.held, stored_insert (k := k) rfl, hmakes k rfl]
    exact .refl _
  | takes r k =>
    have hwf := Store.wellFormed_erase h.resumptions r
    refine h.move (Store.wellFormed_insert hwf k) rfl rfl ?_
    rw [Accounts.held, stored_insert (a := { a with resumptions := a.resumptions.erase r }) (k := k) rfl]
    exact ((stored_perm_erase (hd r k rfl)).symm.append_right _).subperm
  | resumes r k v => exact { h.arm v (hd r k rfl) with }
  | tailResumes r k v => exact { h.arm v (hd r k rfl) with }
  | discards r k =>
    refine h.move (Store.wellFormed_erase h.resumptions r) rfl rfl ?_
    refine List.Sublist.subperm (List.Sublist.append_right (List.Sublist.filterMap _ ?_) _)
    exact (List.eraseP_sublist).map _

end Accounts

namespace Machine

/-- What `makes` makes is not captured. -/
theorem exchange?_of_makes {k : Cont ω} (h : m.dealing? = some (.makes k)) :
    k.exchange? = none := by
  unfold dealing? at h
  split at h
  · obtain ⟨x, -, heq⟩ := Option.map_eq_some_iff.mp h
    cases heq
  · obtain ⟨x, -, heq⟩ := Option.map_eq_some_iff.mp h
    cases heq
    rfl
  all_goals first
    | cases h
    | obtain ⟨x, -, heq⟩ := Option.map_eq_some_iff.mp h
      cases heq

/-- The accounts are tidy, and a request that is under way finds its command. -/
structure Tidy (m : Machine ω) : Prop where
  accounts : m.accounts.Tidy
  request : ∀ r, m.control = .request r → m.Hands r ∧
    ∃ y command, m.exchanges.find? r.exchange = some y ∧ y.command = some command

theorem tidy_start (settings : SettingsSlot) (cells : List ω) (statics : List Owned)
    (main : Comp ω) : (start settings cells statics main).Tidy where
  accounts :=
    { resumptions := ⟨.nil, by simp [accounts, start]⟩
      exchanges := ⟨.nil, by simp [accounts, start]⟩
      waits := .nil
      issued := by simp [accounts, waits, start, waitsIn, Fibers.waits]
      held := by simp [Accounts.held, Accounts.stored, accounts, armed, start, Control.conts]
      taken := by simp [Accounts.held, Accounts.stored, accounts, armed, start, Control.conts] }
  request := by simp [start]

/-- The command that was sent with an exchange has been taken. -/
structure Past (m : Machine ω) (e : ExchangeId) : Prop where
  issued : e < m.exchanges.next
  taken : ∀ y, m.exchanges.find? e = some y → y.command = none

/-- A continuation that is held has been taken away from its invoker. -/
theorem Tidy.past (h : m.Tidy) {e : ExchangeId} (he : e ∈ m.accounts.held) : m.Past e :=
  ⟨(h.accounts.taken e he).1, (h.accounts.taken e he).2⟩

variable [Contents ω]

/-- What a step enters into the accounts before it gives something up. -/
inductive Enters (Γ : Library ω) (m : Machine ω) : Accounts ω → Prop
  | nothing (hd : m.dealing? = none) : m.Enters Γ m.accounts
  | deals {d} (hm : m.dealing? = some d) : m.Enters Γ (d.enter m.accounts)
  | sends {e command i position next y ws inPlace} (hm : m.Sends e command i position next)
      (hcommand : ∀ c, y.command = some c → c = command) (hresult : y.result = none)
      (hws : ws.Sublist [⟨e, inPlace, .bind next :: m.stack⟩])
      (hstarts : ∀ w ∈ ws, w.inPlace = true → m.Starts Γ e command i position) :
      m.Enters Γ { m.accounts with
        exchanges := (m.exchanges.insert y).2, waits := ws ++ m.waits }
  | captures {r command k} (hm : m.Hands r)
      (hstarts : m.Starts Γ r.exchange command r.target r.entry)
      (hk : k.exchange? = some r.exchange) :
      m.Enters Γ { m.accounts with
        exchanges := m.exchanges.modify r.exchange fun x => { x with command := none }
        resumptions := (m.resumptions.insert k).2
        captures := m.counters.captures + 1 }
  | abandons {r command} (hm : m.Hands r)
      (hstarts : m.Starts Γ r.exchange command r.target r.entry) :
      m.Enters Γ { m.accounts with
        exchanges := m.exchanges.modify r.exchange fun x => { x with command := none }
        captures := m.counters.captures + 1
        discarded := m.counters.discarded + 1 }
  | returns {w v} (hm : m.Returns Γ w v) :
      m.Enters Γ { m.accounts with
        exchanges := m.exchanges.modify w.exchange fun x => { x with result := none } }

/-- Where requests find their commands, every step enters something and then only gives up. -/
theorem step_enters (hrequest : ∀ r, m.control = .request r → m.Hands r ∧
    ∃ y command, m.exchanges.find? r.exchange = some y ∧ y.command = some command) :
    ∃ a, m.Enters Γ a ∧ a.Fades (m.step Γ).accounts := by
  cases m.step_does Γ with
  | idles hi hd => exact ⟨_, .nothing hd, hi.fades⟩
  | deals hm hf => exact ⟨_, .deals hm, hf⟩
  | @sends e command i position next hm _ hf =>
    exact ⟨_, .sends hm (fun c hc => (Option.some.inj hc).symm) rfl (.refl _) (by simp), .of_eq hf⟩
  | @performs e command i position next hm hs hf =>
    exact ⟨_, .sends hm (fun c hc => by cases hc) rfl (.refl _) fun _ _ _ => hs, .of_eq hf⟩
  | @panics e command i position next hm _ hf =>
    have hnone : ([] : List (Wait ω)).Sublist [⟨e, true, .bind next :: m.stack⟩] :=
      List.nil_sublist _
    exact ⟨_, .sends hm (fun c hc => (Option.some.inj hc).symm) rfl hnone (by simp), .of_eq hf⟩
  | refuses hm _ _ hf => exact ⟨_, .nothing hm.dealing?_eq_none, hf⟩
  | passes hm _ _ _ hf | fails hm _ hf => exact ⟨_, .nothing hm.dealing?_eq_none, hf⟩
  | misses hm _ ht =>
    obtain ⟨-, y, command, hy, hcommand⟩ := hrequest _ hm.2
    simp [hy, hcommand] at ht
  | captures hm hs _ _ hk hf => exact ⟨_, .captures hm hs hk, hf⟩
  | abandons hm hs _ _ hf => exact ⟨_, .abandons hm hs, hf⟩
  | returns hm _ _ _ hf => exact ⟨_, .returns hm, hf⟩

/-- What a step enters keeps the accounts tidy. -/
theorem Tidy.enters (h : m.Tidy) {a : Accounts ω} (ha : m.Enters Γ a) : a.Tidy := by
  cases ha with
  | nothing hd => exact h.accounts
  | deals hm =>
    exact h.accounts.enter (fun r k hd => find?_of_dealing hm hd)
      fun k hk => exchange?_of_makes (hk ▸ hm)
  | @sends e command i position next y ws inPlace hm hcommand hresult hws _ =>
    obtain ⟨target, -, -, rfl⟩ := hm
    have hawait := h.accounts.await (w := ⟨m.exchanges.next, inPlace, .bind next :: m.stack⟩) rfl y
    refine hawait.fades { Accounts.Fades.refl _ with waits := ?_ }
    exact (hws.append_right m.waits).subperm
  | captures hm hs hk =>
    obtain ⟨-, y, command, hy, hcommand⟩ := h.request _ hm.2
    exact { h.accounts.capture hk hy hcommand with }
  | abandons hm hs =>
    exact { h.accounts.modify _ (f := fun x => { x with command := none }) fun _ _ => rfl with }
  | returns hm =>
    exact h.accounts.modify _ (f := fun x => { x with result := none }) fun _ hx => hx

/-- Every step keeps the accounts tidy. -/
theorem Tidy.step (h : m.Tidy) : (m.step Γ).Tidy := by
  obtain ⟨a, ha, hf⟩ := step_enters (Γ := Γ) h.request
  refine ⟨(h.enters ha).fades hf, ?_⟩
  have hnone : (m.step Γ).control.request? = none → ∀ r, (m.step Γ).control ≠ .request r := by
    intro hm' r heq
    rw [heq] at hm'
    cases hm'
  have hreleasing : m.releasing ≠ [] → ∀ r, (m.step Γ).control ≠ .request r := by
    -- what is released does not change a request, and none is under way then
    intro hne r heq
    cases hreleasing : m.releasing with
    | nil => exact hne hreleasing
    | cons x hs =>
      rw [step_releasing hreleasing, releaseOne_control] at heq
      exact hne (h.request r heq).1.1
  have hstarts : ∀ {e command i position}, m.Starts Γ e command i position →
      ∀ r, (m.step Γ).control ≠ .request r := by
    rintro e command i position ⟨code, ⟨-, hcontrol, -⟩, -⟩ r heq
    cases hcontrol.symm.trans heq
  intro r hr
  cases m.step_does Γ with
  | idles hi _ => exact absurd hr (hi.request.elim (hnone · r) (hreleasing · r))
  | deals _ _ hrequest => exact absurd hr (hrequest.elim (hnone · r) (hreleasing · r))
  | @sends e command i position next hm hhands hf =>
    obtain rfl := Control.request.inj (hhands.2.symm.trans hr)
    obtain ⟨target, -, -, rfl⟩ := hm
    have hexchanges : (m.step Γ).exchanges = _ := congrArg Accounts.exchanges hf
    refine ⟨hhands, { command := some command }, command, ?_, rfl⟩
    rw [hexchanges]
    exact Store.find?_insert_self _ _
  | passes hm hhands _ hx _ =>
    obtain rfl := Control.request.inj (hhands.2.symm.trans hr)
    exact ⟨hhands, hx ▸ (h.request _ hm.2).2⟩
  | performs _ hs _ => exact absurd hr (hstarts hs r)
  | captures _ hs => exact absurd hr (hstarts hs r)
  | abandons _ hs => exact absurd hr (hstarts hs r)
  | refuses _ hc _ _ => cases hc.symm.trans hr
  | panics _ hc _ => cases hc.symm.trans hr
  | misses _ hc _ => cases hc.symm.trans hr
  | fails _ hc _ => rcases hc with ⟨f, hc, -⟩ | hc <;> cases hc.symm.trans hr
  | returns hm _ _ _ _ => cases hm.2.2.2.1.symm.trans hr

/-- A thread that has halted and has nothing left to release takes no step. -/
theorem step_halted {o : Outcome} (hcontrol : m.control = .halted o) (hreleasing : m.releasing = []) :
    m.step Γ = m := by
  simp only [step, hreleasing, hcontrol]

/-- One more step of a run. -/
theorem run_succ (n : Nat) (m : Machine ω) : run Γ (n + 1) m = (run Γ n m).step Γ := by
  induction n generalizing m with
  | zero =>
    simp only [run]
    split
    · rename_i hcontrol hreleasing
      exact (step_halted hcontrol hreleasing).symm
    · rfl
  | succ n ih =>
    rw [run.eq_def Γ (n + 1 + 1), run.eq_def Γ (n + 1)]
    simp only
    split
    · rename_i hcontrol hreleasing
      exact (step_halted hcontrol hreleasing).symm
    · exact ih (m.step Γ)

theorem run_add (n k : Nat) (m : Machine ω) : run Γ (n + k) m = run Γ k (run Γ n m) := by
  induction k with
  | zero => rfl
  | succ k ih => rw [← Nat.add_assoc, run_succ, run_succ, ih]

theorem Tidy.run (h : m.Tidy) (n : Nat) : (run Γ n m).Tidy := by
  induction n with
  | zero => exact h
  | succ n ih => exact run_succ n m ▸ ih.step

/-! ### What becomes of an exchange -/

/-- The next step resumes or tail-resumes the continuation of an exchange with a value. -/
def Resumes (m : Machine ω) (e : ExchangeId) (v : Value) : Prop :=
  ∃ d k, m.dealing? = some d ∧ d.resumed? = some (k, v) ∧ k.exchange? = some e

/-- Where that which the next state finds in an exchange comes from. -/
inductive Finds (m : Machine ω) (e : ExchangeId) (y' : Exchange) : Prop
  | kept {y} (hy : m.exchanges.find? e = some y)
      (hcommand : y'.command = y.command ∨ y'.command = none)
      (hresult : y'.result = y.result ∨ y'.result = none)
  | resumed {y v} (hy : m.exchanges.find? e = some y) (hm : m.Resumes e v)
      (hcommand : y'.command = y.command) (hresult : y'.result = some v)
  | sent {command i position next} (hm : m.Sends e command i position next)
      (hcommand : ∀ c, y'.command = some c → c = command) (hresult : y'.result = none)

theorem step_finds (h : m.Tidy) {e : ExchangeId} {y' : Exchange}
    (hy' : (m.step Γ).exchanges.find? e = some y') : m.Finds e y' := by
  obtain ⟨a, ha, hf⟩ := step_enters (Γ := Γ) h.request
  replace hy' := hf.find?_exchange (h.enters ha).exchanges hy'
  have hmodified : ∀ {e' f}, (m.exchanges.modify e' f).find? e = some y' →
      ∃ y, m.exchanges.find? e = some y ∧ (y' = y ∨ e = e' ∧ y' = f y) := by
    intro e' f hy'
    rw [Store.find?_modify] at hy'
    split at hy'
    · rename_i he
      obtain ⟨y, hy, rfl⟩ := Option.map_eq_some_iff.mp hy'
      exact ⟨y, hy, .inr ⟨he, rfl⟩⟩
    · exact ⟨y', hy', .inl rfl⟩
  cases ha with
  | nothing => exact .kept hy' (.inl rfl) (.inl rfl)
  | @deals d hm =>
    have harmed : ∀ {k v}, d.resumed? = some (k, v) →
        (k.armExchanges m.exchanges v).find? e = some y' → m.Finds e y' := by
      intro k v hd hy'
      cases k with
      | function answer f arg => exact .kept hy' (.inl rfl) (.inl rfl)
      | captured answer f segment e' =>
        obtain ⟨y, hy, rfl | ⟨rfl, rfl⟩⟩ := hmodified hy'
        · exact .kept hy (.inl rfl) (.inl rfl)
        · exact .resumed hy ⟨d, _, hm, hd, rfl⟩ rfl rfl
    cases d with
    | makes k | takes r k | discards r k => exact .kept hy' (.inl rfl) (.inl rfl)
    | resumes r k v | tailResumes r k v => exact harmed rfl hy'
  | sends hm hcommand hresult _ _ =>
    rw [Store.find?_insert] at hy'
    split at hy'
    · rename_i he
      obtain rfl := Option.some.inj hy'
      obtain ⟨target, hm', hfound, rfl⟩ := id hm
      exact .sent (he ▸ hm) hcommand hresult
    · exact .kept hy' (.inl rfl) (.inl rfl)
  | captures | abandons =>
    obtain ⟨y, hy, rfl | ⟨rfl, rfl⟩⟩ := hmodified hy'
    · exact .kept hy (.inl rfl) (.inl rfl)
    · exact .kept hy (.inr rfl) (.inl rfl)
  | returns =>
    obtain ⟨y, hy, rfl | ⟨rfl, rfl⟩⟩ := hmodified hy'
    · exact .kept hy (.inl rfl) (.inl rfl)
    · exact .kept hy (.inl rfl) (.inr rfl)

/-- Numbers of exchanges only grow. -/
theorem step_issues (h : m.Tidy) : m.exchanges.next ≤ (m.step Γ).exchanges.next := by
  obtain ⟨a, ha, hf⟩ := step_enters (Γ := Γ) h.request
  have hnext : (m.step Γ).exchanges.next = a.exchanges.next := hf.next_exchange
  rw [hnext]
  cases ha with
  | @deals d hm =>
    cases d with
    | makes k | takes r k | discards r k => exact Nat.le_refl _
    | resumes r k v | tailResumes r k v => cases k <;> exact Nat.le_refl _
  | sends => exact Nat.le_succ _
  | _ => exact Nat.le_refl _

/-- The continuation of an exchange comes under a number when the clause starts. -/
theorem step_stores (h : m.Tidy) {e : ExchangeId} (he : e ∈ (m.step Γ).accounts.stored) :
    e ∈ m.accounts.stored ∨
      ∃ r command, m.Hands r ∧ e = r.exchange ∧ m.Starts Γ e command r.target r.entry := by
  obtain ⟨a, ha, hf⟩ := step_enters (Γ := Γ) h.request
  rw [hf.stored_eq] at he
  cases ha with
  | @deals d hm =>
    have hfound := fun r k hd => find?_of_dealing (m := m) (r := r) (k := k) hm hd
    refine .inl ?_
    cases d with
    | makes k =>
      rw [Accounts.stored_insert (a := m.accounts) (k := k) rfl, exchange?_of_makes hm] at he
      exact he
    | takes r k =>
      rw [Accounts.stored_insert (k := k)
        (a := { m.accounts with resumptions := m.resumptions.erase r }) rfl] at he
      exact (Accounts.stored_perm_erase (a := m.accounts) (hfound r k rfl)).mem_iff.mpr he
    | resumes r k v | tailResumes r k v | discards r k =>
      exact (Accounts.stored_perm_erase (a := m.accounts) (hfound r k rfl)).mem_iff.mpr
        (List.mem_append_right _ he)
  | @captures r command k hm hs hk =>
    rw [Accounts.stored_insert (a := m.accounts) rfl, hk] at he
    rcases List.mem_cons.mp he with rfl | he
    · exact .inr ⟨r, command, hm, rfl, hs⟩
    · exact .inl he
  | _ => exact .inl he

/-- A continuation that is to be started waited already, or is resumed now. -/
theorem step_arms (h : m.Tidy) :
    (m.step Γ).armed.Sublist (m.armed ++ (m.dealing?.bind Dealing.armed?).toList) := by
  obtain ⟨a, ha, hf⟩ := step_enters (Γ := Γ) h.request
  refine hf.armed.trans ?_
  cases ha with
  | @deals d hm =>
    rw [hm]
    cases d with
    | makes k | takes r k | discards r k => exact List.sublist_append_left _ _
    | resumes r k v | tailResumes r k v => exact .refl _
  | _ => exact List.sublist_append_left _ _

/-- Who waits for a result waited already, or has just sent a command. -/
theorem step_waits (h : m.Tidy) {w : Wait ω} (hw : w ∈ (m.step Γ).waits) :
    w ∈ m.waits ∨ ∃ command i position next, m.Sends w.exchange command i position next ∧
      w.below = .bind next :: m.stack ∧
        (w.inPlace = true → m.Starts Γ w.exchange command i position) := by
  obtain ⟨a, ha, hf⟩ := step_enters (Γ := Γ) h.request
  have hw : w ∈ a.waits := hf.waits.subset hw
  cases ha with
  | deals hm =>
    rename_i d
    refine .inl ?_
    cases d <;> exact hw
  | sends hm hcommand hresult hws hstarts =>
    rcases List.mem_append.mp hw with hw | hw
    · have hplain := hstarts w hw
      obtain rfl := List.mem_singleton.mp (hws.subset hw)
      exact .inr ⟨_, _, _, _, hm, rfl, hplain⟩
    · exact .inl hw
  | _ => exact .inl hw

/-- A command is taken once. -/
theorem Past.step {e : ExchangeId} (hp : m.Past e) (h : m.Tidy) : (m.step Γ).Past e where
  issued := Nat.lt_of_lt_of_le hp.issued (step_issues h)
  taken := by
    intro y' hy'
    cases step_finds h hy' with
    | kept hy hcommand _ => exact hcommand.elim (fun heq => heq.trans (hp.taken _ hy)) id
    | resumed hy _ hcommand _ => exact hcommand.trans (hp.taken _ hy)
    | sent hm _ _ =>
      obtain ⟨target, -, -, rfl⟩ := hm
      exact absurd hp.issued (Nat.lt_irrefl _)

/-- Once the command was taken, no clause starts for it. -/
theorem Past.not_starts {e : ExchangeId} (hp : m.Past e) {command : Command}
    {i : InstallationId} {position : Nat} : ¬ m.Starts Γ e command i position := by
  rintro ⟨code, -, hstarts⟩
  split at hstarts
  · obtain ⟨next, target, -, -, rfl⟩ := hstarts
    exact absurd hp.issued (Nat.lt_irrefl _)
  · obtain ⟨name, y, -, hy, hcommand⟩ := hstarts
    cases (hp.taken y hy).symm.trans hcommand

/-- A continuation that is held no longer is never held again. -/
theorem Past.step_held {e : ExchangeId} (hp : m.Past e) (h : m.Tidy) (he : e ∉ m.accounts.held) :
    e ∉ (m.step Γ).accounts.held := by
  intro hmem
  rcases List.mem_append.mp hmem with hmem | hmem
  · rcases step_stores h hmem with hstored | ⟨r, command, -, -, hs⟩
    · exact he (List.mem_append_left _ hstored)
    · exact hp.not_starts hs
  · have harmed := ((step_arms (Γ := Γ) h).filterMap Cont.exchange?).subset hmem
    rw [List.filterMap_append] at harmed
    rcases List.mem_append.mp harmed with harmed | harmed
    · exact he (List.mem_append_right _ harmed)
    · -- what is resumed was held under a number
      obtain ⟨k, hk, hke⟩ := List.mem_filterMap.mp harmed
      obtain ⟨d, hd, hdk⟩ := Option.bind_eq_some_iff.mp (Option.mem_toList.mp hk)
      obtain ⟨r, k₀, hused, hexchange⟩ : ∃ r k₀, d.used? = some (r, k₀) ∧ k₀.exchange? = some e := by
        cases d with
        | resumes r k₀ v | tailResumes r k₀ v =>
          obtain rfl := Option.some.inj hdk
          exact ⟨r, k₀, rfl, (k₀.exchange?_arm v).symm.trans hke⟩
        | makes | takes | discards => cases hdk
      have hfound := Store.mem_of_find? (find?_of_dealing hd hused)
      exact he (List.mem_append_left _ (List.mem_filterMap.mpr
        ⟨k₀, List.mem_map.mpr ⟨_, hfound, rfl⟩, hexchange⟩))

end Machine

end EffectHandlers
