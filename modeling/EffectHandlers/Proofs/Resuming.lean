import EffectHandlers.Proofs.Capturing
/-!
# Resuming and returning keep states sound

## Resuming keeps states sound

Resuming arms a continuation: its value waits in the exchange of the invoker. Stepping a captured
continuation puts its segment back and passes the resume up its tower, one fiber at a time.
-/

namespace EffectHandlers

variable {ω : Type} {Γ : Library ω} {m m' : Machine ω} {l : Layout ω} {k k' : Cont ω} {v : Value}
  {r : ResumptionId} {t : Tower ω} {S : List (Activation ω)}

/-- A continuation with its value, as it is stepped. -/
def Cont.arm (v : Value) : Cont ω → Cont ω
  | captured answer fiber segment exchange => captured answer fiber segment exchange
  | function answer f _ => function answer f (some v)

/-- The exchanges once a continuation was given its value. -/
def Cont.armExchanges (x : Store Exchange) (v : Value) : Cont ω → Store Exchange
  | captured _ _ _ e => x.modify e fun y => { y with result := some v }
  | function .. => x

/-- Arming takes the continuation out of its resumption. -/
theorem Machine.arm_eq (hfound : m.resumptions.find? r = some k) (v : Value) :
    m.arm r v = some (k.arm v, { m with
      resumptions := m.resumptions.erase r, exchanges := k.armExchanges m.exchanges v }) := by
  unfold Machine.arm
  rw [hfound]
  cases k <;> rfl

namespace Sound

/-- The exchange of a captured continuation has not been freed. -/
theorem exchange_found (h : Sound Γ m l) (hk : k ∈ m.conts) {answer : String} {f : FiberId}
    {segment : Segment} {e : ExchangeId} (heq : k = .captured answer f segment e) :
    (m.exchanges.find? e).isSome := by
  subst heq
  obtain ⟨K, hK, hcont⟩ := h.exists_kept hk rfl
  have he : K.tower.exchange = e := by
    simp only [Kept.cont, Cont.captured.injEq] at hcont
    exact hcont.2.2.2
  have hheld : .exchange K.tower.exchange ∈ l.ledger m := by
    simp only [Layout.ledger, Layout.code, List.append_assoc, List.flatMap_append]
    refine List.mem_append_right _ (List.mem_append_right _ (List.mem_append_left _ ?_))
    obtain ⟨a, ha, hin⟩ := List.mem_flatMap.mp K.tower.exchange_mem
    refine List.mem_flatMap.mpr ⟨a, List.mem_flatMap.mpr ⟨K.tower, ?_, ha⟩, hin⟩
    exact List.mem_append_left _ (List.mem_map_of_mem hK)
  exact he ▸ (h.heldOnce.contains hheld).1

/-- A continuation that is taken out of its resumption and armed is about to be stepped, at once
or when the running clause has ended. -/
theorem arm (h : Sound Γ m l) (hfront : l.front = m.stack) (hlifted : l.lifted = [])
    (hfound : m.resumptions.find? r = some k) (v : Value)
    (hchain : m'.chain = m.chain) (hfibers : m'.fibers = m.fibers)
    (hclosures : m'.closures = m.closures) (hreferences : m'.references = m.references)
    (hexchanges : m'.exchanges = k.armExchanges m.exchanges v)
    (hresumptions : m'.resumptions = m.resumptions.erase r)
    (hsize : m'.stackSize = m.stackSize) (hskeleton : skeleton m'.stack = skeleton m.stack)
    (hreleasing : m'.releasing = m.releasing) (harmed : m'.armed.Perm (k.arm v :: m.armed))
    (htip : Tip Γ m' m'.stack []) : Sound Γ m' { l with front := m'.stack } := by
  obtain ⟨front, lifted, kept, dropped⟩ := l
  obtain rfl : front = m.stack := hfront
  obtain rfl : lifted = [] := hlifted
  have hwaiting : m'.waiting = m.waiting := by simp only [Machine.waiting, hfibers]
  have herase : (m.resumptions.entries.map (·.2)).Perm
      (k :: (m.resumptions.erase r).entries.map (·.2)) :=
    (Store.entries_perm_erase hfound).map (·.2)
  have hbefore : m.conts.Perm
      (k :: ((m.resumptions.erase r).entries.map (·.2) ++ m.armed)) :=
    herase.append_right m.armed
  have hafter : m'.conts.Perm
      (k.arm v :: ((m.resumptions.erase r).entries.map (·.2) ++ m.armed)) := by
    simp only [Machine.conts, hresumptions]
    exact (harmed.append_left _).trans List.perm_middle
  have hk : k ∈ m.conts := hbefore.mem_iff.mpr (List.mem_cons_self ..)
  have hcaptured : (k.arm v :: ((m.resumptions.erase r).entries.map (·.2) ++ m.armed)).filter
      Cont.isCaptured =
        (k :: ((m.resumptions.erase r).entries.map (·.2) ++ m.armed)).filter Cont.isCaptured := by
    cases k <;> simp [Cont.arm, Cont.isCaptured, List.filter_cons]
  have howned : ∀ x : Holding, x.isAsset = false →
      (k.arm v).owned.count x = k.owned.count x := by
    intro x hx
    cases k with
    | captured => rfl
    | function answer f arg => simp only [Cont.arm, Cont.owned, count_map_asset hx]
  have hledger : ∀ x : Holding, x.isAsset = false →
      ((⟨m'.stack, [], kept, dropped⟩ : Layout ω).ledger m').count x =
        ((⟨m.stack, [], kept, dropped⟩ : Layout ω).ledger m).count x := by
    intro x hx
    have hstack := count_owned_skeleton hx m'.stack
    rw [hskeleton, count_owned_skeleton hx] at hstack
    have hcount := (hbefore.flatMap_right Cont.owned).count_eq x
    have hcount' := (hafter.flatMap_right Cont.owned).count_eq x
    rw [Layout.count_ledger, Layout.count_ledger, hwaiting, hreferences, hreleasing, ← hstack,
      hcount, hcount']
    simp only [Layout.towers, List.flatMap_cons, List.count_append, howned x hx]
  have hstays : ∀ k' ∈ m.armed, k'.Armed m'.exchanges := by
    intro k' hk'
    rw [hexchanges]
    cases k with
    | captured => exact (h.armed k' hk').modify _ fun _ _ => rfl
    | function => exact h.armed k' hk'
  have harms : (k.arm v).Armed m'.exchanges := by
    rw [hexchanges]
    cases k with
    | function => rfl
    | captured answer f segment e =>
      obtain ⟨y, hy⟩ := Option.isSome_iff_exists.mp (h.exchange_found hk rfl)
      exact ⟨{ y with result := some v }, by simp [Cont.armExchanges, Store.find?_modify, hy], rfl⟩
  exact
    { tip := htip
      placed := by
        rw [hchain, hwaiting]
        refine h.placed.of_skeleton ?_
        rw [skeleton_append, hskeleton, skeleton_append]
      parks := hfibers ▸ h.parks
      captured := by
        have hfilter := hafter.filter Cont.isCaptured
        rw [hcaptured] at hfilter
        exact hfilter.trans ((hbefore.filter _).symm.trans h.captured)
      ready := h.ready
      resumable := h.resumable
      dropping := hreleasing ▸ h.dropping
      covers := by
        rw [hchain]
        exact h.covers.mono fun i => Nat.le_of_eq (hledger (.installation i) rfl)
      heldOnce := by
        have hheld : HeldOnce m.exchanges
            ((⟨m'.stack, [], kept, dropped⟩ : Layout ω).ledger m') :=
          h.heldOnce.mono fun e => Nat.le_of_eq (hledger (.exchange e) rfl)
        rw [hexchanges]
        cases k with
        | captured => exact hheld.modify _
        | function => exact hheld
      armed := by
        intro k' hk'
        rcases List.mem_cons.mp (harmed.mem_iff.mp hk') with rfl | hk'
        · exact harms
        · exact hstays k' hk'
      regular :=
        { exchanges := by
            rw [hexchanges]
            cases k with
            | captured => exact Store.wellFormed_modify h.regular.exchanges _ _
            | function => exact h.regular.exchanges
          closures := hclosures ▸ h.regular.closures
          conts := by
            intro k' hk'
            rcases List.mem_cons.mp (hafter.mem_iff.mp hk') with rfl | hk'
            · have horderly := h.regular.conts k hk
              cases k with
              | captured => trivial
              | function => exact horderly
            · exact h.regular.conts k' (hbefore.mem_iff.mpr (List.mem_cons_of_mem _ hk'))
          declares := hchain ▸ h.regular.declares
          stackSize := hsize ▸ h.regular.stackSize } }

/-- Stepping a captured continuation puts its segment back and wakes its tower. -/
theorem stepped (h : Sound Γ m l) (hfront : l.front = m.stack) (hlifted : l.lifted = [])
    {answer : String} {f : FiberId} {segment : Segment} {e : ExchangeId}
    (hcontrol : m.control = .deliver (.tail (.captured answer f segment e)))
    (hreleasing : m.releasing = []) (hstack : m.stack = .stepping :: S) (hS : Ready S) :
    ∃ code fs l', m.fibers.resume? f (.driving segment.lowest f :: m.stack) = some (code, fs) ∧
      Sound Γ { m with
        chain := m.chain.splice segment, fibers := fs, stack := code, control := .wake } l' := by
  obtain ⟨front, lifted, kept, dropped⟩ := l
  obtain rfl : front = m.stack := hfront
  obtain rfl : lifted = [] := hlifted
  have harmed : m.armed = m.pending.toList ++ [.captured answer f segment e] := by
    simp only [Machine.armed, hcontrol, Control.conts]
  have hk : .captured answer f segment e ∈ m.armed := by simp [harmed]
  have hmem : .captured answer f segment e ∈ m.conts := List.mem_append_right _ hk
  obtain ⟨K, hK, hcont⟩ := h.exists_kept hmem rfl
  obtain ⟨rfl, rfl, rfl, rfl⟩ := Cont.captured.inj hcont
  obtain ⟨kept', hkept⟩ := exists_perm_cons hK
  have htowers : (kept.map (·.tower) ++ dropped).Perm
      (K.tower :: (kept'.map (·.tower) ++ dropped)) :=
    (hkept.map (·.tower)).append_right dropped
  have hdriving : Driving K.segment.lowest K.tower.root
      (.driving K.segment.lowest K.tower.root :: m.stack) := ⟨S, by rw [hstack], hS⟩
  obtain ⟨fs, hresume, -, hresumers, hparks⟩ := (h.parks.perm htowers).resume hdriving
  refine ⟨K.tower.stack, fs, ⟨K.tower.code, K.tower.rest, kept', dropped⟩, hresume, ?_⟩
  generalize hm' : ({ m with
    chain := m.chain.splice K.segment, fibers := fs, stack := K.tower.stack, control := .wake } :
    Machine ω) = m'
  have hwaiting : m'.waiting =
      .driving K.segment.lowest K.tower.root :: (m.stack ++ m.waiting) := by
    subst hm'
    simp [Machine.waiting, hresumers]
  have hconts : m.conts.Perm (K.cont :: m'.conts) := by
    have heq : m.conts = m'.conts ++ [K.cont] := by
      subst hm'
      rw [Machine.conts, harmed]
      simp [Machine.conts, Machine.armed, Control.conts, Kept.cont]
    rw [heq]
    exact List.perm_append_singleton _ _
  have hledger : ∀ x : Holding,
      ((⟨K.tower.code, K.tower.rest, kept', dropped⟩ : Layout ω).ledger m').count x +
          [Holding.installation K.segment.top].count x =
        ((⟨m.stack, [], kept, dropped⟩ : Layout ω).ledger m).count x := by
    intro x
    have hcode := ((htowers.flatMap_right Tower.code).flatMap_right Activation.owned).count_eq x
    have hcount := (hconts.flatMap_right Cont.owned).count_eq x
    have hreferences : m'.references = m.references := by subst hm'; rfl
    have hreleasing' : m'.releasing = m.releasing := by subst hm'; rfl
    rw [Layout.count_ledger, Layout.count_ledger, hwaiting, hreferences, hreleasing']
    simp only [Layout.towers, List.flatMap_cons, List.flatMap_append, Activation.owned, Kept.cont,
      Cont.owned, Segment.owned, List.count_append, List.count_cons, List.count_nil] at hcode hcount ⊢
    omega
  have hplaced := (h.placed.perm hkept).resume K.tower.root
  have hfound : (m.chain.installations.find? K.segment.lowest).isSome := by
    refine h.placed.found _ (List.mem_append_right _ (List.mem_flatMap.mpr ⟨K, hK, ?_⟩))
    simp [Kept.installations]
  subst hm'
  exact
    { tip := .wake
        { control := rfl
          releasing := hreleasing
          stack := rfl
          ready := h.ready K.tower (List.mem_append_left _ (List.mem_map_of_mem hK))
          modifier := h.resumable K hK
          result := h.armed _ hk }
      placed := by
        rw [hwaiting]
        exact hplaced
      parks := hparks
      captured := by
        have hfilter := (hconts.filter Cont.isCaptured).symm.trans
          (h.captured.trans (hkept.map Kept.cont))
        exact hfilter.cons_inv
      ready := fun t ht => h.ready t (htowers.mem_iff.mpr (List.mem_cons_of_mem _ ht))
      resumable := fun K' hK' => h.resumable K' (hkept.mem_iff.mpr (List.mem_cons_of_mem _ hK'))
      dropping := h.dropping
      covers := h.covers.splice hfound fun j => by
        rw [← hledger]
        by_cases hj : K.segment.top = j
        · simp [hj]
        · simp [hj]
      heldOnce := h.heldOnce.mono fun x =>
        Nat.le_of_add_right_le (Nat.le_of_eq (hledger (.exchange x)))
      armed := fun k hk => h.armed k (by
        rw [harmed]
        exact List.mem_append_left _ (by simpa [Machine.armed, Control.conts] using hk))
      regular :=
        { h.regular with
          conts := fun k hk => h.regular.conts k (hconts.mem_iff.mpr (List.mem_cons_of_mem _ hk))
          declares := h.regular.declares.relink ⟨rfl⟩ } }

/-- Stepping a closure runs it under the loop. -/
theorem called (h : Sound Γ m l) (hfront : l.front = m.stack) (hlifted : l.lifted = [])
    {answer : String} {f : Closure ω}
    (hcontrol : m.control = .deliver (.tail (.function answer f (some v))))
    (hstack : m.stack = .stepping :: S) (hS : Ready S) :
    Sound Γ { m with stack := .calling answer :: m.stack, control := .eval (f.body v) }
      { l with front := .calling answer :: m.stack } := by
  obtain ⟨front, lifted, kept, dropped⟩ := l
  obtain rfl : front = m.stack := hfront
  obtain rfl : lifted = [] := hlifted
  generalize hm' : ({ m with stack := .calling answer :: m.stack, control := .eval (f.body v) } :
    Machine ω) = m'
  have harmed : m.armed = m'.armed ++ [.function answer f (some v)] := by
    subst hm'
    simp [Machine.armed, hcontrol, Control.conts]
  have hconts : m.conts.Perm (.function answer f (some v) :: m'.conts) := by
    have heq : m.conts = m'.conts ++ [.function answer f (some v)] := by
      rw [Machine.conts, harmed, ← List.append_assoc]
      subst hm'
      rfl
    rw [heq]
    exact List.perm_append_singleton _ _
  have hk : .function answer f (some v) ∈ m.conts := hconts.mem_iff.mpr (List.mem_cons_self ..)
  have hbody : (f.body v).Orderly := h.regular.conts _ hk v
  have hledger : ∀ x : Holding, x.isAsset = false →
      ((⟨.calling answer :: m.stack, [], kept, dropped⟩ : Layout ω).ledger m').count x =
        ((⟨m.stack, [], kept, dropped⟩ : Layout ω).ledger m).count x := by
    intro x hx
    have hcount := (hconts.flatMap_right Cont.owned).count_eq x
    rw [List.flatMap_cons, List.count_append, Cont.owned, count_map_asset hx] at hcount
    have hwaiting : m'.waiting = m.waiting := by subst hm'; rfl
    have hreferences : m'.references = m.references := by subst hm'; rfl
    have hreleasing : m'.releasing = m.releasing := by subst hm'; rfl
    rw [Layout.count_ledger, Layout.count_ledger, hwaiting, hreferences, hreleasing, hcount]
    simp [Layout.towers, Activation.owned]
  have hfilter := hconts.filter Cont.isCaptured
  subst hm'
  exact
    { h with
      tip := .eval rfl hbody (hstack ▸ .answers trivial hS)
      placed := h.placed.of_code rfl rfl id
      captured := hfilter.symm.trans h.captured
      covers := h.covers.mono fun i => Nat.le_of_eq (hledger (.installation i) rfl)
      heldOnce := h.heldOnce.mono fun e => Nat.le_of_eq (hledger (.exchange e) rfl)
      armed := fun k hk => h.armed k (harmed ▸ List.mem_append_left _ hk)
      regular :=
        { h.regular with
          conts := fun k hk =>
            h.regular.conts k (hconts.mem_iff.mpr (List.mem_cons_of_mem _ hk)) } }

/-- Stepping the continuation on top leads to a good state. -/
theorem stepCont (h : Sound Γ m l) (hfront : l.front = m.stack) (hlifted : l.lifted = [])
    (hcontrol : m.control = .deliver (.tail k)) (hreleasing : m.releasing = [])
    (hstack : m.stack = .stepping :: S) (hS : Ready S) : Good Γ (m.stepCont k) := by
  have hk : k ∈ m.armed := by simp [Machine.armed, hcontrol, Control.conts]
  cases k with
  | captured answer f segment e =>
    obtain ⟨code, fs, l', hresume, hsound⟩ := h.stepped hfront hlifted hcontrol hreleasing hstack hS
    simp only [Machine.stepCont, Machine.enter, Machine.trace, Machine.record, hresume]
    exact .sound l' (hsound.agrees rfl)
  | function answer f arg =>
    obtain ⟨v, rfl⟩ := Option.isSome_iff_exists.mp (h.armed _ hk)
    exact .sound _ ((h.called hfront hlifted hcontrol hstack hS).agrees rfl)

/-- A driver on top of a woken fiber passes the resume on. -/
theorem passedOn {f : FiberId} {i : InstallationId} {above : Tower ω} (h : Sound Γ m l)
    (htower : l.front = (Tower.driver f i above S).code) (hlifted : l.lifted = [above])
    (hw : Woken m (.driver f i above S)) :
    ∃ code fs l', m.fibers.resume? above.root (.driving i above.root :: .stepping :: S) =
        some (code, fs) ∧ Sound Γ { m with fibers := fs, stack := code } l' := by
  obtain ⟨front, lifted, kept, dropped⟩ := l
  obtain rfl : front = (Tower.driver f i above S).code := htower
  obtain rfl : lifted = [above] := hlifted
  have hready : above.Ready ∧ Ready S := hw.ready
  have hdriving : Driving i above.root (.driving i above.root :: .stepping :: S) :=
    ⟨S, rfl, hready.2⟩
  obtain ⟨fs, hresume, -, hresumers, hparks⟩ := h.parks.resume hdriving
  refine ⟨above.stack, fs, ⟨above.code, above.rest, kept, dropped⟩, hresume, ?_⟩
  generalize hm' : ({ m with fibers := fs, stack := above.stack } : Machine ω) = m'
  have hwaiting : m'.waiting = .driving i above.root :: .stepping :: S ++ m.waiting := by
    subst hm'
    simp [Machine.waiting, hresumers]
  have hall : above.code ++ m'.waiting = (Tower.driver f i above S).code ++ m.waiting := by
    rw [hwaiting]
    simp [Tower.code, Tower.stack]
  have hledger : (⟨above.code, above.rest, kept, dropped⟩ : Layout ω).ledger m' =
      (⟨(Tower.driver f i above S).code, [above], kept, dropped⟩ : Layout ω).ledger m := by
    have hconts : m'.conts = m.conts := by subst hm'; rfl
    have hreferences : m'.references = m.references := by subst hm'; rfl
    have hreleasing : m'.releasing = m.releasing := by subst hm'; rfl
    simp only [Layout.ledger, Layout.code, Layout.towers, hall, hconts, hreferences, hreleasing]
  subst hm'
  exact
    { h with
      tip := .wake { hw with stack := rfl, ready := hready.1 }
      placed := hall ▸ h.placed
      parks := hparks
      covers := hledger ▸ h.covers
      heldOnce := hledger ▸ h.heldOnce
      regular := { h.regular with } }

/-- The invoker on top of a woken fiber finds its result and goes on with it. -/
theorem answered {f : FiberId} {i : InstallationId} {e : ExchangeId} {modifier : Modifier}
    {command : String} (h : Sound Γ m l)
    (htower : l.front = (Tower.invoker f i e modifier command S).code) (hlifted : l.lifted = [])
    (hw : Woken m (.invoker f i e modifier command S)) (v : Value) :
    Sound Γ { m with
      exchanges := m.exchanges.modify e fun x => { x with result := none }
      stack := S, control := .ret v
      releasing := .exchange e :: .installation i :: m.releasing } { l with front := S } := by
  obtain ⟨front, lifted, kept, dropped⟩ := l
  obtain rfl : front = .sending i e modifier command :: S := htower
  obtain rfl : lifted = [] := hlifted
  generalize hm' : ({ m with
    exchanges := m.exchanges.modify e fun x => { x with result := none }
    stack := S, control := .ret v
    releasing := .exchange e :: .installation i :: m.releasing } : Machine ω) = m'
  have hready : Ready S := hw.ready
  have harmed : m'.armed = m.armed := by
    subst hm'
    simp [Machine.armed, hw.control, Control.conts]
  have hconts : m'.conts = m.conts := by
    rw [Machine.conts, harmed]
    subst hm'
    rfl
  have hledger : ∀ x : Holding,
      ((⟨S, [], kept, dropped⟩ : Layout ω).ledger m').count x =
        ((⟨.sending i e modifier command :: S, [], kept, dropped⟩ : Layout ω).ledger m).count x := by
    intro x
    have hwaiting : m'.waiting = m.waiting := by subst hm'; rfl
    have hreferences : m'.references = m.references := by subst hm'; rfl
    have hreleasing : m'.releasing = .exchange e :: .installation i :: m.releasing := by
      subst hm'
      rfl
    rw [Layout.count_ledger, Layout.count_ledger, hwaiting, hreferences, hreleasing, hconts]
    simp only [Layout.towers, List.flatMap_cons, Activation.owned, List.count_append,
      List.count_cons, List.count_nil]
    omega
  -- the exchange is the invoker's own, so no armed continuation loses its result
  have hother : ∀ k ∈ m.armed, k.Armed (m.exchanges.modify e fun x => { x with result := none }) := by
    intro k hk
    have hold := h.armed k hk
    cases k with
    | function => exact hold
    | captured answer g segment e' =>
      obtain ⟨y, hy, hresult⟩ := hold
      obtain ⟨K, hK, hcont⟩ := h.exists_kept (List.mem_append_right _ hk) rfl
      have hexchange : K.tower.exchange = e' := by
        simp only [Kept.cont, Cont.captured.injEq] at hcont
        exact hcont.2.2.2
      have hne : e' ≠ e := by
        rintro rfl
        have hin : Holding.exchange e' ∈
            (K.tower.code).flatMap Activation.owned := hexchange ▸ K.tower.exchange_mem
        have hpos : 0 < (((⟨.sending i e' modifier command :: S, [], kept, dropped⟩ :
            Layout ω).towers.flatMap Tower.code).flatMap Activation.owned).count
              (.exchange e') := by
          rw [List.count_pos_iff]
          obtain ⟨a, ha, hina⟩ := List.mem_flatMap.mp hin
          refine List.mem_flatMap.mpr ⟨a, List.mem_flatMap.mpr ⟨K.tower, ?_, ha⟩, hina⟩
          exact List.mem_append_left _ (List.mem_map_of_mem hK)
        have hone := (h.heldOnce.contains (e := e') (by
          simp [Layout.ledger, Layout.code, Activation.owned])).2
        rw [Layout.count_ledger] at hone
        simp only [List.flatMap_cons, Activation.owned, List.count_append, List.count_cons,
          beq_self_eq_true, if_true] at hone
        omega
      exact ⟨y, by simp [Store.find?_modify, hne, hy], hresult⟩
  subst hm'
  exact
    { h with
      tip := .ret rfl hready
      placed := h.placed.of_code rfl rfl id
      captured := hconts ▸ h.captured
      dropping := h.dropping
      covers := h.covers.mono fun i => Nat.le_of_eq (hledger (.installation i))
      heldOnce := (h.heldOnce.mono fun e => Nat.le_of_eq (hledger (.exchange e))).modify _
      armed := fun k hk => hother k (harmed ▸ hk)
      regular :=
        { h.regular with
          exchanges := Store.wellFormed_modify h.regular.exchanges _ _
          conts := hconts ▸ h.regular.conts } }

/-- Waking a fiber leads to a good state. -/
theorem wake (h : Sound Γ m l) (hcontrol : m.control = .wake) : Good Γ m.wake := by
  rcases h.of_wake hcontrol with ⟨body, S, hfront, hlifted, hstack, hbody, hS⟩ | ⟨t, htower, hlifted, hw⟩
  · have hconts : m.control.conts = [] := by rw [hcontrol]; rfl
    unfold Machine.wake
    simp only [hstack]
    obtain ⟨l', hsound⟩ := h.undisturbed { m with stack := S, control := .eval body }
      hfront hlifted hconts.symm (.of_still rfl rfl) (by simp [hstack, skeleton_cons, Activation.isInert])
      h.regular.closures (.eval rfl hbody hS)
    exact .sound l' hsound
  · cases t with
    | driver f i above S =>
      obtain ⟨code, fs, l', hresume, hsound⟩ := h.passedOn htower hlifted hw
      have hstack : m.stack = .driving i above.root :: .stepping :: S := hw.stack
      unfold Machine.wake
      simp only [hstack, Machine.enter, hresume]
      exact .sound l' (hcontrol ▸ hsound)
    | invoker f i e modifier command S =>
      have hstack : m.stack = .sending i e modifier command :: S := hw.stack
      obtain ⟨y, hy, hresult⟩ := hw.result
      obtain ⟨v, hv⟩ := Option.isSome_iff_exists.mp hresult
      have hy' : m.exchanges.find? e = some y := hy
      have hmodifier : modifier ≠ .noResume := hw.modifier
      unfold Machine.wake
      simp only [hstack, if_neg hmodifier, hy', Option.bind_some, hv]
      exact .sound _ ((h.answered htower hlifted hw v).agrees rfl)

end Sound

end EffectHandlers

/-!
## Returning keeps states sound

A value goes down the running code: through the activations of computations, out of a clause to
the loop below it, out of a fiber to the driver that waits for it, and from there into the return
clause.
-/

namespace EffectHandlers

variable {ω : Type} {Γ : Library ω} {m m' : Machine ω} {l : Layout ω} {v : Value}
  {S : List (Activation ω)} {a : Activation ω}

/-- What an answering activation gives up goes to the release list. -/
theorem Activation.Answers.frame (ha : a.Answers) (B : List InstallationId) (c : Chain)
    (S : List (Activation ω)) : drivers (a :: S) = drivers S ∧ exposed B (a :: S) = exposed B S ∧
      (Hides c B (a :: S) ↔ Hides c B S) := by
  cases a with
  | clause keep answer => exact ⟨rfl, rfl, .rfl⟩
  | returning i answer => exact ⟨rfl, rfl, .rfl⟩
  | calling answer => exact ⟨rfl, rfl, .rfl⟩
  | _ => cases ha

namespace Sound

/-- Answering activations that end give up what they hold; the loop below goes on. -/
theorem yielded (m' : Machine ω) (h : Sound Γ m l) (hfront : l.front = m.stack)
    (hlifted : l.lifted = []) {as : List (Activation ω)} (has : ∀ a ∈ as, a.Answers)
    (hstack : m.stack = as ++ .stepping :: S) (hstack' : m'.stack = .stepping :: S)
    (hchain : m'.chain = m.chain) (hfibers : m'.fibers = m.fibers)
    (hclosures : m'.closures = m.closures) (hreferences : m'.references = m.references)
    (hexchanges : m'.exchanges = m.exchanges) (hresumptions : m'.resumptions = m.resumptions)
    (hsize : m'.stackSize = m.stackSize) (harmed : m'.armed = m.armed) (os : List Owned)
    {hs : List Holding} (hreleasing : m'.releasing = os.map .asset ++ (hs ++ m.releasing))
    (hfiber : hs.filterMap Holding.fiber? = [])
    (hcount : ∀ x, hs.count x = (as.flatMap Activation.owned).count x)
    (htip : Tip Γ m' m'.stack []) : Sound Γ m' { l with front := m'.stack } := by
  obtain ⟨front, lifted, kept, dropped⟩ := l
  obtain rfl : front = m.stack := hfront
  obtain rfl : lifted = [] := hlifted
  have hwaiting : m'.waiting = m.waiting := by simp only [Machine.waiting, hfibers]
  have hconts : m'.conts = m.conts := by simp only [Machine.conts, hresumptions, harmed]
  have hledger : ∀ x : Holding, x.isAsset = false →
      ((⟨m'.stack, [], kept, dropped⟩ : Layout ω).ledger m').count x =
        ((⟨m.stack, [], kept, dropped⟩ : Layout ω).ledger m).count x := by
    intro x hx
    have hchange := hcount x
    rw [Layout.count_ledger, Layout.count_ledger, hwaiting, hreferences, hreleasing, hconts,
      hstack, hstack']
    simp only [Layout.towers, List.flatMap_append, List.count_append, count_map_asset hx]
    omega
  have hplaced : Placed m.chain (m'.stack ++ m.waiting) kept := by
    have hbefore := h.placed
    simp only [hstack, hstack', List.append_assoc] at hbefore ⊢
    clear hstack hcount
    induction as with
    | nil => exact hbefore
    | cons a as ih =>
      have hframe := (has a (List.mem_cons_self ..)).frame
      refine ih (fun b hb => has b (List.mem_cons_of_mem _ hb)) ?_
      exact hbefore.of_code (hframe [] m.chain _).1.symm (hframe [] m.chain _).2.1.symm
        (hframe [] m.chain _).2.2.mp
  exact
    { tip := htip
      placed := by
        rw [hchain, hwaiting]
        exact hplaced
      parks := hfibers ▸ h.parks
      captured := hconts ▸ h.captured
      ready := h.ready
      resumable := h.resumable
      dropping := by
        rw [hreleasing, List.filterMap_append, List.filterMap_append, filterMap_fiber_asset, hfiber]
        exact h.dropping
      covers := by
        rw [hchain]
        exact h.covers.mono fun i => Nat.le_of_eq (hledger (.installation i) rfl)
      heldOnce := by
        rw [hexchanges]
        exact h.heldOnce.mono fun e => Nat.le_of_eq (hledger (.exchange e) rfl)
      armed := by
        rw [harmed, hexchanges]
        exact h.armed
      regular :=
        { exchanges := hexchanges ▸ h.regular.exchanges
          closures := hclosures ▸ h.regular.closures
          conts := hconts ▸ h.regular.conts
          declares := hchain ▸ h.regular.declares
          stackSize := hsize ▸ h.regular.stackSize } }

/-- Turning an answer into a step leads to a good state. -/
theorem settle (h : Sound Γ m l) (hfront : l.front = m.stack) (hlifted : l.lifted = [])
    {as : List (Activation ω)} (has : ∀ a ∈ as, a.Answers)
    (hstack : m.stack = as ++ .stepping :: S) (hS : Ready S) (hconts : m.control.conts = [])
    {hs : List Holding} (hfiber : hs.filterMap Holding.fiber? = [])
    (hcount : ∀ x, hs.count x = (as.flatMap Activation.owned).count x) (answer : String)
    (v : Value) : Good Γ (({ m with stack := .stepping :: S } : Machine ω).settle answer v hs) := by
  unfold Machine.settle
  split
  · rename_i hpending
    refine .sound _ (h.yielded _ hfront hlifted has hstack (by rfl) (by rfl) (by rfl) (by rfl)
      (by rfl) (by rfl) (by rfl) (by rfl) ?_ [] (by rfl) hfiber hcount (.deliver rfl rfl hS))
    simp only [Machine.armed, hconts]
    rfl
  · rename_i k hpending
    have hpending' : m.pending = some k := hpending
    split
    · refine .sound _ (h.yielded _ hfront hlifted has hstack (by rfl) (by rfl) (by rfl) (by rfl)
        (by rfl) (by rfl) (by rfl) (by rfl) ?_ v.owned ?_ hfiber hcount (.deliver rfl rfl hS))
      · have harmed : m.armed = [k] := by
          simp only [Machine.armed, hconts, hpending']
          rfl
        rw [harmed]
        rfl
      · simp [Machine.goOn, Machine.release]
    · exact .fault rfl rfl

/-- A body that returns takes its installation off the chain, and the return clause starts. -/
theorem finished (h : Sound Γ m l) (hfront : l.front = m.stack) (hlifted : l.lifted = [])
    {i : InstallationId} {f : FiberId} (hcontrol : m.control = .ret v)
    (hstack : m.stack = .driving i f :: .stepping :: S) (hS : Ready S) {body : Comp ω}
    (hbody : body.Orderly) (answer : String) :
    ∃ c' l', m.chain.pop? = some (i, c') ∧ Sound Γ { m with
      chain := c'.retire i, stack := .returning i answer :: .stepping :: S
      control := .eval body } l' := by
  obtain ⟨front, lifted, kept, dropped⟩ := l
  obtain rfl : front = m.stack := hfront
  obtain rfl : lifted = [] := hlifted
  have hbefore := h.placed
  simp only [hstack, List.cons_append] at hbefore
  obtain ⟨c', hpop, hrelinks, -, hbelow, hplaced⟩ := hbefore.finish
  refine ⟨c', ⟨.returning i answer :: .stepping :: S, [], kept, dropped⟩, hpop, ?_⟩
  generalize hm' : ({ m with
    chain := c'.retire i, stack := .returning i answer :: .stepping :: S
    control := .eval body } : Machine ω) = m'
  have hwaiting : m'.waiting = m.waiting := by subst hm'; rfl
  have hconts : m'.conts = m.conts := by
    subst hm'
    simp [Machine.conts, Machine.armed, hcontrol, Control.conts]
  have htop : m.chain.top = i := by
    simp only [Chain.pop?, Option.map_eq_some_iff, Prod.mk.injEq] at hpop
    obtain ⟨b, -, htop, -⟩ := hpop
    exact htop
  have hzero : i ≠ 0 := by
    rintro rfl
    exact hbefore.nonzero (List.mem_append_left _ (List.mem_cons_self ..))
  have hledger : ∀ x : Holding, x.fiber? = none →
      ((⟨.returning i answer :: .stepping :: S, [], kept, dropped⟩ : Layout ω).ledger m').count x =
        ((⟨m.stack, [], kept, dropped⟩ : Layout ω).ledger m).count x +
          [Holding.installation i].count x := by
    intro x hx
    have hreferences : m'.references = m.references := by subst hm'; rfl
    have hreleasing : m'.releasing = m.releasing := by subst hm'; rfl
    have hfiber : ((Holding.fiber f) == x) = false := by
      cases x <;> simp_all
    rw [Layout.count_ledger, Layout.count_ledger, hwaiting, hreferences, hreleasing, hconts]
    simp only [hstack, Layout.towers, List.flatMap_cons, Activation.owned, List.count_append,
      List.count_cons, List.count_nil, hfiber, Bool.false_eq_true, if_false]
    omega
  have hplaced' : Placed c' (.returning i answer :: .stepping :: S ++ m.waiting) kept :=
    hplaced.of_code rfl rfl id
  have hcovers : c'.Covers ((⟨.returning i answer :: .stepping :: S, [], kept, dropped⟩ :
      Layout ω).ledger m') := h.covers.split hrelinks hbelow fun j => by
    rw [hledger _ rfl, htop]
    by_cases hj : i = j
    · simp [hj]
    · simp [hj]
  have hdeclares := (h.regular.declares.relink hrelinks).modify (i := i)
    (fun x => { x with label := retiredLabel }) (fun _ => rfl) fun _ => rfl
  subst hm'
  exact
    { h with
      tip := .eval rfl hbody (.answers trivial hS)
      placed := hplaced'.modify _ (fun _ => rfl) (.inl hzero)
      captured := hconts ▸ h.captured
      covers := hcovers.modify _ (fun _ => rfl) fun _ => rfl
      heldOnce := h.heldOnce.mono fun e => by
        rw [hledger _ rfl]
        simp
      armed := by
        have harmed := h.armed
        rw [Machine.armed, hcontrol] at harmed
        exact harmed
      regular :=
        { h.regular with
          conts := hconts ▸ h.regular.conts
          declares := hdeclares } }

/-- A plain clause that ends puts back the installations that it has hidden. -/
theorem revealed (h : Sound Γ m l) (hfront : l.front = m.stack) (hlifted : l.lifted = [])
    {i : InstallationId} {handler : CellId} {hidden : Segment} {e : ExchangeId}
    (hcontrol : m.control = .ret v)
    (hstack : m.stack = .inPlace i handler hidden e :: S) (hS : Ready S) :
    Sound Γ { m with
      chain := m.chain.splice hidden, stack := S
      releasing := [.installation i, .exchange e, .asset (.cell handler), .installation i] ++
        m.releasing } { l with front := S } := by
  obtain ⟨front, lifted, kept, dropped⟩ := l
  obtain rfl : front = m.stack := hfront
  obtain rfl : lifted = [] := hlifted
  have hbefore := h.placed
  simp only [hstack, List.cons_append] at hbefore
  have hlowest : hidden.lowest = i := hbefore.hides.1
  have hexposed : i ∈ exposed [] (S ++ m.waiting) := hbefore.hides.2.1
  have hfound : (m.chain.installations.find? hidden.lowest).isSome := by
    refine hbefore.found _ (List.mem_append_left _ ?_)
    rw [hlowest]
    simpa [drivers_cons, Activation.driver?] using
      (exposed_sublist [] (S ++ m.waiting)).subset hexposed
  generalize hm' : ({ m with
    chain := m.chain.splice hidden, stack := S
    releasing := [.installation i, .exchange e, .asset (.cell handler), .installation i] ++
      m.releasing } : Machine ω) = m'
  have hwaiting : m'.waiting = m.waiting := by subst hm'; rfl
  have hconts : m'.conts = m.conts := by subst hm'; rfl
  have hledger : ∀ x : Holding,
      ((⟨S, [], kept, dropped⟩ : Layout ω).ledger m').count x +
          [Holding.installation hidden.top].count x =
        ((⟨m.stack, [], kept, dropped⟩ : Layout ω).ledger m).count x := by
    intro x
    have hreferences : m'.references = m.references := by subst hm'; rfl
    have hreleasing : m'.releasing = [.installation i, .exchange e, .asset (.cell handler),
        .installation i] ++ m.releasing := by subst hm'; rfl
    rw [Layout.count_ledger, Layout.count_ledger, hwaiting, hreferences, hreleasing, hconts]
    simp only [hstack, Layout.towers, List.flatMap_cons, Activation.owned, Segment.owned, hlowest,
      List.count_append, List.count_cons, List.count_nil]
    omega
  subst hm'
  exact
    { h with
      tip := .ret hcontrol hS
      placed := hbefore.reveal
      dropping := by
        have hsame := h.dropping
        rw [List.filterMap_append]
        exact hsame
      covers := h.covers.splice hfound fun j => by
        rw [← hledger]
        by_cases hj : hidden.top = j
        · simp [hj]
        · simp [hj]
      heldOnce := h.heldOnce.mono fun x =>
        Nat.le_of_add_right_le (Nat.le_of_eq (hledger (.exchange x)))
      regular := { h.regular with declares := h.regular.declares.relink ⟨rfl⟩ } }

/-- A fiber that has finished hands its value to the driver that waits for it. -/
theorem handedBack (h : Sound Γ m l) (hfront : l.front = m.stack) (hlifted : l.lifted = [])
    (hcontrol : m.control = .ret v) (hstack : m.stack = [])
    {r : Resumer (List (Activation ω))} {rs : List (Resumer (List (Activation ω)))}
    (hrs : m.fibers.resumers = r :: rs) :
    ∃ fs, m.fibers.handBack? = some (r.code, fs) ∧
      Sound Γ { m with fibers := fs, stack := r.code } { l with front := r.code } := by
  obtain ⟨front, lifted, kept, dropped⟩ := l
  obtain rfl : front = m.stack := hfront
  obtain rfl : lifted = [] := hlifted
  obtain ⟨fs, hback, -, hresumers, hparks, i, f, hdriving⟩ := h.parks.handBack hrs
  refine ⟨fs, hback, ?_⟩
  generalize hm' : ({ m with fibers := fs, stack := r.code } : Machine ω) = m'
  have hwaiting : r.code ++ m'.waiting = m.stack ++ m.waiting := by
    subst hm'
    simp [Machine.waiting, hresumers, hrs, hstack]
  have hledger : (⟨r.code, [], kept, dropped⟩ : Layout ω).ledger m' =
      (⟨m.stack, [], kept, dropped⟩ : Layout ω).ledger m := by
    have hconts : m'.conts = m.conts := by subst hm'; rfl
    have hreferences : m'.references = m.references := by subst hm'; rfl
    have hreleasing : m'.releasing = m.releasing := by subst hm'; rfl
    simp only [Layout.ledger, Layout.code, Layout.towers, hwaiting, hconts, hreferences, hreleasing]
  subst hm'
  exact
    { h with
      tip := .returned hcontrol hdriving
      placed := hwaiting ▸ h.placed
      parks := hparks
      covers := hledger ▸ h.covers
      heldOnce := hledger ▸ h.heldOnce
      regular := { h.regular with } }

/-- Delivering a step leads to a good state. -/
theorem deliver (h : Sound Γ m l) {s : Step (Cont ω) Value} (hcontrol : m.control = .deliver s)
    (hreleasing : m.releasing = []) : Good Γ (m.deliver s) := by
  obtain ⟨hfront, hlifted, S, hstack, hS⟩ := h.of_deliver hcontrol
  unfold Machine.deliver
  simp only [hstack]
  cases s with
  | done v =>
    have hconts : m.control.conts = [] := by rw [hcontrol]; rfl
    obtain ⟨l', hsound⟩ := h.undisturbed { m with stack := S, control := .ret v }
      hfront hlifted hconts.symm (.of_still rfl rfl) (by simp [hstack, skeleton_cons, Activation.isInert])
      h.regular.closures (.ret rfl hS)
    exact .sound l' hsound
  | tail k => exact h.stepCont hfront hlifted hcontrol hreleasing hstack hS

/-- A value that reaches a driver makes a good state. -/
theorem finish (h : Sound Γ m l) (hΓ : Γ.Orderly) (hfront : l.front = m.stack)
    (hlifted : l.lifted = []) {i : InstallationId} {f : FiberId} (hcontrol : m.control = .ret v)
    (hstack : m.stack = .driving i f :: .stepping :: S) (hS : Ready S) :
    Good Γ (({ m with stack := .stepping :: S } : Machine ω).finish Γ i v) := by
  obtain ⟨c', l', hpop, hsound⟩ := h.finished hfront hlifted hcontrol hstack hS
    (hΓ.onReturn (m.chain.get i).handlerType (m.chain.get i).handler v)
    (Γ.handlerType (m.chain.get i).handlerType).answer
  have hfields : (c'.get i).handlerType = (m.chain.get i).handlerType ∧
      (c'.get i).handler = (m.chain.get i).handler := by
    simp only [Chain.pop?, Option.map_eq_some_iff, Prod.mk.injEq] at hpop
    obtain ⟨b, -, rfl, rfl⟩ := hpop
    exact ⟨Chain.get_modify_congr Installation.handlerType (fun x => { x with below := none })
      fun _ => rfl, Chain.get_modify_congr Installation.handler (fun x => { x with below := none })
        fun _ => rfl⟩
  unfold Machine.finish
  simp only [hpop, ne_eq, not_true_eq_false, if_false, hfields.1, hfields.2]
  exact .sound l' (hsound.agrees rfl)

/-- Giving a value to the running code leads to a good state. -/
theorem give (h : Sound Γ m l) (hΓ : Γ.Orderly) (hcontrol : m.control = .ret v) :
    Good Γ (m.give Γ v) := by
  obtain ⟨hfront, hlifted, hready⟩ := h.of_ret hcontrol
  have hconts : m.control.conts = [] := by rw [hcontrol]; rfl
  -- an activation of a computation ends
  have hinner : ∀ (m' : Machine ω) (a : Activation ω) (S : List (Activation ω)),
      m.stack = a :: S → a.isInert → m'.control.conts = [] → Undisturbed m m' →
      skeleton m'.stack = skeleton S → m'.closures = m.closures → Tip Γ m' m'.stack [] →
      Good Γ m' := by
    intro m' a S hstack ha hcontrol' hsame hskeleton hclosures htip
    obtain ⟨l', hsound⟩ := h.undisturbed m' hfront hlifted (hcontrol'.trans hconts.symm) hsame
      (by rw [hstack, skeleton_cons, ha, hskeleton]; rfl) (hclosures ▸ h.regular.closures) htip
    exact .sound l' hsound
  rcases hready with hready | ⟨i, f, S, hstack, hS⟩
  · cases hstack : m.stack with
    | nil =>
      unfold Machine.give
      simp only [hstack, Machine.handBack]
      cases hrs : m.fibers.resumers with
      | nil =>
        simp only [Fibers.handBack?, hrs, Option.map_none]
        exact .halted rfl trivial
      | cons r rs =>
        obtain ⟨fs, hback, hsound⟩ := h.handedBack hfront hlifted hcontrol hstack hrs
        simp only [hback, Option.map_some]
        have hpooled : Agrees { m with fibers := fs, stack := r.code }
            { m with
              fibers := fs, stack := r.code, pool := m.pool.giveBack.1, control := .ret v } := by
          simp only [Agrees, Machine.calm, StackPool.use_giveBack, hcontrol]
        exact .sound _ ((hsound.agrees hpooled).agrees (Machine.agrees_warn _ _))
    | cons a S =>
      rw [hstack] at hready
      unfold Machine.give
      simp only [hstack]
      cases hready with
      | inner ha hS =>
        cases a with
        | bind next => exact hinner _ _ S hstack rfl rfl (.of_still rfl rfl) rfl rfl (.eval rfl (ha v) hS)
        | owning os =>
          exact hinner _ _ S hstack rfl hconts ⟨rfl, [], os, _, rfl, rfl⟩ rfl rfl
            (.ret hcontrol hS)
        | catching next =>
          exact hinner _ _ S hstack rfl rfl (.of_still rfl rfl) rfl rfl (.eval rfl (ha (.ok v)) hS)
        | looping body next =>
          simp only
          split
          · exact hinner _ _ S hstack rfl rfl (.of_still rfl rfl) rfl rfl (.eval rfl (ha.1 _) (.inner ha hS))
          · exact hinner _ _ S hstack rfl rfl (.of_still rfl rfl) rfl rfl (.eval rfl (ha.2 _) hS)
          · exact hinner _ _ S hstack rfl rfl (.of_still rfl rfl) rfl rfl (.eval rfl (ha.2 _) hS)
        | inPlace i handler hidden e =>
          exact .sound _ ((h.revealed hfront hlifted hcontrol hstack hS).agrees rfl)
        | _ => cases ha
      | @answers _ S ha hS =>
        have has : ∀ b ∈ [a], b.Answers := by simpa using ha
        cases a with
        | clause keep answer =>
          refine .sound _ (h.yielded _ hfront hlifted has hstack (by rfl) (by rfl) (by rfl)
            (by rfl) (by rfl) (by rfl) (by rfl) (by rfl) ?_ [] (by rfl) ?_ ?_ (.settle rfl rfl hS))
          · simp only [Machine.armed, hconts]
            rfl
          · cases keep <;> rfl
          · simp [Activation.owned]
        | returning i answer =>
          exact h.settle hfront hlifted has hstack hS hconts (by rfl)
            (by simp [Activation.owned]) answer v
        | calling answer =>
          exact h.settle hfront hlifted has hstack hS hconts (by rfl)
            (by simp [Activation.owned]) answer v
        | _ => cases ha
  · unfold Machine.give
    simp only [hstack]
    exact h.finish hΓ hfront hlifted hcontrol hstack hS

end Sound

end EffectHandlers
