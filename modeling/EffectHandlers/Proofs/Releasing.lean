import EffectHandlers.Proofs.Calm
/-!
# Releasing keeps states sound

Whatever is released, what the code in front and the captured continuations rely on is not freed:
their installations and exchanges are held by activations or continuations, besides what is being
released.
-/

namespace EffectHandlers

variable {ω : Type} {Γ : Library ω} {m m' : Machine ω} {l : Layout ω}
  {o : Holding} {hs : List Holding} {F : List (Activation ω)} {T : List (Tower ω)}

/-- While something is being released, no fiber is being switched, and the tip does not depend on
anything but control and stack. -/
theorem Tip.releasing (m' : Machine ω) (htip : Tip Γ m F T) (hreleasing : m.releasing ≠ [])
    (hcontrol : m'.control = m.control) (hstack : m'.stack = m.stack) :
    F = m.stack ∧ T = [] ∧ Tip Γ m' m'.stack [] := by
  cases htip with
  | eval hc h hs => exact ⟨rfl, rfl, .eval (hcontrol.trans hc) h (hstack ▸ hs)⟩
  | ret hc hs => exact ⟨rfl, rfl, .ret (hcontrol.trans hc) (hstack ▸ hs)⟩
  | returned hc hs => exact ⟨rfl, rfl, .returned (hcontrol.trans hc) (hstack ▸ hs)⟩
  | deliver hc hs hS => exact ⟨rfl, rfl, .deliver (hcontrol.trans hc) (hstack.trans hs) hS⟩
  | settle hc hs hS => exact ⟨rfl, rfl, .settle (hcontrol.trans hc) (hstack.trans hs) hS⟩
  | start hc hs hb hS => exact ⟨rfl, rfl, .start (hcontrol.trans hc) (hstack.trans hs) hb hS⟩
  | wake h => exact absurd h.releasing hreleasing
  | request h => exact absurd h.releasing hreleasing

/-- The invoker of a tower holds the exchange that it waits for. -/
theorem Tower.exchange_mem (t : Tower ω) :
    .exchange t.exchange ∈ t.code.flatMap Activation.owned := by
  induction t with
  | invoker f i e mod cmd S => simp [Tower.code, Tower.stack, Tower.exchange, Activation.owned]
  | driver f i above S ih =>
    simp only [Tower.code, Tower.exchange, List.flatMap_append]
    exact List.mem_append_left _ ih

/-- A driver holds its installation. -/
theorem count_owned_of_driver {i : InstallationId} {S : List (Activation ω)} (hi : i ∈ drivers S) :
    0 < (S.flatMap Activation.owned).count (.installation i) := by
  rw [List.count_pos_iff]
  obtain ⟨a, ha, hdriver⟩ := List.mem_filterMap.mp hi
  refine List.mem_flatMap.mpr ⟨a, ha, ?_⟩
  cases a <;> simp_all [Activation.driver?, Activation.owned]

@[simp] theorem owned_stepping : (Activation.stepping : Activation ω).owned = [] := rfl

theorem Activation.Inner.filterMap_fiber {a : Activation ω} (ha : a.Inner) :
    a.owned.filterMap Holding.fiber? = [] := by
  cases a <;> simp_all [Activation.Inner, Activation.owned, Segment.owned, Holding.fiber?]

theorem Activation.Answers.filterMap_fiber {a : Activation ω} (ha : a.Answers) :
    a.owned.filterMap Holding.fiber? = [] := by
  cases a with
  | clause keep answer => cases keep <;> simp [Activation.owned, Holding.fiber?]
  | returning i answer => simp [Activation.owned, Holding.fiber?]
  | calling answer => rfl
  | _ => cases ha

/-- Ready code waits for no fiber. -/
theorem Ready.filterMap_fiber {S : List (Activation ω)} (h : Ready S) :
    (S.flatMap Activation.owned).filterMap Holding.fiber? = [] := by
  induction h with
  | nil => rfl
  | inner ha hS ih =>
    rw [List.flatMap_cons, List.filterMap_append, ha.filterMap_fiber, ih, List.append_nil]
  | answers ha hS ih =>
    rw [List.flatMap_cons, List.flatMap_cons, owned_stepping, List.nil_append,
      List.filterMap_append, ha.filterMap_fiber, ih, List.append_nil]

/-- The lowest fiber of a tower waits for the next one. -/
theorem Tower.filterMap_fiber {t : Tower ω} (h : t.Ready) :
    (t.stack.flatMap Activation.owned).filterMap Holding.fiber? = t.rest.map Tower.root := by
  cases t with
  | invoker f i e mod cmd S =>
    have hS : EffectHandlers.Ready S := h
    rw [Tower.stack, List.flatMap_cons, List.filterMap_append, hS.filterMap_fiber]
    rfl
  | driver f i above S =>
    have hS : EffectHandlers.Ready S := h.2
    rw [Tower.stack, List.flatMap_cons, List.flatMap_cons, owned_stepping, List.nil_append,
      List.filterMap_append, hS.filterMap_fiber]
    rfl

/-- A member of a list can be listed first. -/
theorem exists_perm_cons {α : Type} {a : α} {as : List α} (h : a ∈ as) :
    ∃ rest, as.Perm (a :: rest) := by
  obtain ⟨front, rest, rfl⟩ := List.append_of_mem h
  exact ⟨front ++ rest, List.perm_middle⟩

theorem count_singleton_installation (i j : InstallationId) :
    [Holding.installation i].count (.installation j) = if j = i then 1 else 0 := by
  by_cases h : j = i
  · simp [h]
  · simp [h, Ne.symm h]

namespace Sound

/-- A captured continuation has its place in the layout. -/
theorem exists_kept (h : Sound Γ m l) {k : Cont ω} (hk : k ∈ m.conts) (hcaptured : k.isCaptured) :
    ∃ K ∈ l.kept, K.cont = k := by
  have hmem : k ∈ m.conts.filter Cont.isCaptured := List.mem_filter.mpr ⟨hk, hcaptured⟩
  simpa using h.captured.mem_iff.mp hmem

/-- What is driven is held by an activation or a continuation. -/
theorem count_driven (h : Sound Γ m l) {i : InstallationId}
    (hi : i ∈ driven (l.front ++ m.waiting) l.kept) :
    0 < ((l.code m).flatMap Activation.owned).count (.installation i) +
      (m.conts.flatMap Cont.owned).count (.installation i) := by
  rcases List.mem_append.mp hi with hi | hi
  · have := count_owned_of_driver hi
    simp only [Layout.code, List.flatMap_append, List.count_append] at this ⊢
    omega
  · obtain ⟨k, hk, hi⟩ := List.mem_flatMap.mp hi
    rcases List.mem_append.mp hi with hi | hi
    · have hcode : i ∈ drivers (l.towers.flatMap Tower.code) := by
        obtain ⟨a, ha, hdriver⟩ := List.mem_filterMap.mp hi
        refine List.mem_filterMap.mpr ⟨a, List.mem_flatMap.mpr ⟨k.tower, ?_, ha⟩, hdriver⟩
        exact List.mem_append_left _ (List.mem_map_of_mem hk)
      have := count_owned_of_driver hcode
      simp only [Layout.code, List.flatMap_append, List.count_append] at this ⊢
      omega
    · have hcont : k.cont ∈ m.conts := by
        have hmem : k.cont ∈ l.kept.map Kept.cont := List.mem_map_of_mem hk
        exact (List.mem_filter.mp (h.captured.mem_iff.mpr hmem)).1
      have hheld : .installation i ∈ m.conts.flatMap Cont.owned := by
        refine List.mem_flatMap.mpr ⟨_, hcont, ?_⟩
        rw [List.mem_singleton] at hi
        simp [Kept.cont, Cont.owned, Segment.owned, hi]
      have := List.count_pos_iff.mpr hheld
      omega

/-- The exchange that an invoker waits for is not released. -/
theorem exchange_notMem (h : Sound Γ m l) {t : Tower ω} (ht : t ∈ l.towers) :
    .exchange t.exchange ∉ m.releasing := by
  intro hmem
  have hcode : .exchange t.exchange ∈ (l.code m).flatMap Activation.owned := by
    simp only [Layout.code, List.flatMap_append]
    refine List.mem_append_right _ ?_
    obtain ⟨a, ha, hin⟩ := List.mem_flatMap.mp t.exchange_mem
    exact List.mem_flatMap.mpr ⟨a, List.mem_flatMap.mpr ⟨t, ht, ha⟩, hin⟩
  have hone := (h.heldOnce.contains (e := t.exchange) (by simp [Layout.ledger, hmem])).2
  have hleft := List.count_pos_iff.mpr hcode
  have hright := List.count_pos_iff.mpr hmem
  simp only [Layout.ledger, List.count_append] at hone
  omega

/-- Releasing a reference gives up its share of the installation. -/
theorem release_reference (h : Sound Γ m l) {r : ReferenceId} {i : InstallationId}
    (hreleasing : m.releasing = .asset (.reference r) :: hs)
    (hfound : m.references.find? r = some i) :
    Sound Γ { m with references := m.references.erase r, releasing := .installation i :: hs } l := by
  obtain ⟨hfront, hlifted, htip⟩ := h.tip.releasing ({ m with
    references := m.references.erase r, releasing := .installation i :: hs }) (by simp [hreleasing])
    rfl rfl
  have hcount : ∀ x : Holding, x.isAsset = false → (l.ledger { m with
      references := m.references.erase r, releasing := .installation i :: hs }).count x =
        (l.ledger m).count x := by
    intro x hx
    have hperm := ((Store.entries_perm_erase hfound).map
      fun e => Holding.installation e.2).count_eq x
    have hasset : ((Holding.asset (.reference r)) == x) = false := by
      cases x <;> simp_all [Holding.isAsset]
    simp only [Layout.count_ledger, hreleasing, List.map_cons, List.count_cons, hasset] at hperm ⊢
    simp only [show ∀ m' : Machine ω, m'.waiting = m'.fibers.resumers.flatMap (·.code) from
      fun _ => rfl, Machine.conts, Machine.armed]
    simp only [Bool.false_eq_true, if_false]
    omega
  exact
    { h with
      tip := by
        rw [hfront, hlifted]
        exact htip
      dropping := by simpa [hreleasing, List.filterMap_cons] using h.dropping
      covers := h.covers.mono fun j => Nat.le_of_eq (hcount (.installation j) rfl)
      heldOnce := h.heldOnce.mono fun e => Nat.le_of_eq (hcount (.exchange e) rfl)
      regular := { h.regular with } }

/-- Releasing a valid resumption gives up what its continuation owns. -/
theorem release_resumption (h : Sound Γ m l) {r : ResumptionId} {k : Cont ω}
    (hreleasing : m.releasing = .asset (.resumption r) :: hs)
    (hfound : m.resumptions.find? r = some k) :
    ∃ l', Sound Γ { m with
      resumptions := m.resumptions.erase r, releasing := k.owned ++ hs } l' := by
  obtain ⟨front, lifted, kept, dropped⟩ := l
  generalize hm' : ({ m with
    resumptions := m.resumptions.erase r, releasing := k.owned ++ hs } : Machine ω) = m'
  obtain ⟨hfront, hlifted, htip⟩ := h.tip.releasing m' (by simp [hreleasing])
    (by rw [← hm']) (by rw [← hm'])
  obtain rfl : front = m.stack := hfront
  obtain rfl : lifted = [] := hlifted
  have hconts : m.conts.Perm (k :: m'.conts) := by
    have hperm := (Store.entries_perm_erase hfound).map (·.2)
    subst hm'
    exact hperm.append_right _
  have hcovered : ∀ x : Holding, x.isAsset = false →
      (m'.conts.flatMap Cont.owned).count x + m'.releasing.count x =
        (m.conts.flatMap Cont.owned).count x + m.releasing.count x := by
    intro x hx
    have hcount := (hconts.flatMap_right Cont.owned).count_eq x
    have hasset : ((Holding.asset (.resumption r)) == x) = false := by
      cases x <;> simp_all [Holding.isAsset]
    rw [List.flatMap_cons, List.count_append] at hcount
    subst hm'
    simp only [hreleasing, List.count_append, List.count_cons, hasset, Bool.false_eq_true,
      if_false]
    omega
  have hregular : Regular Γ m' :=
    { h.regular with
      closures := by subst hm'; exact h.regular.closures
      exchanges := by subst hm'; exact h.regular.exchanges
      declares := by subst hm'; exact h.regular.declares
      stackSize := by subst hm'; exact h.regular.stackSize
      conts := fun k' hk' => h.regular.conts k' (hconts.mem_iff.mpr (List.mem_cons_of_mem _ hk')) }
  have harmed : m'.armed = m.armed := by subst hm'; rfl
  have hwaiting : m'.waiting = m.waiting := by subst hm'; rfl
  have hreferences : m'.references = m.references := by subst hm'; rfl
  have hfilter := hconts.filter Cont.isCaptured
  cases hcaptured : k.isCaptured with
  | false =>
    -- a closure: the layout stays
    have howned : k.owned.filterMap Holding.fiber? = [] := by
      cases k with
      | captured => simp [Cont.isCaptured] at hcaptured
      | function answer f arg => exact filterMap_fiber_asset _
    have hall : ∀ x : Holding, x.isAsset = false →
        ((⟨m.stack, [], kept, dropped⟩ : Layout ω).ledger m').count x =
          ((⟨m.stack, [], kept, dropped⟩ : Layout ω).ledger m).count x := by
      intro x hx
      have hcount := hcovered x hx
      rw [Layout.count_ledger, Layout.count_ledger, hwaiting, hreferences]
      simp only [Layout.towers]
      omega
    refine ⟨⟨m.stack, [], kept, dropped⟩, ?_⟩
    subst hm'
    exact
      { h with
        tip := htip
        captured := by
          rw [List.filter_cons, hcaptured] at hfilter
          exact hfilter.symm.trans h.captured
        dropping := by
          have hsame := h.dropping
          rw [hreleasing] at hsame
          simpa [List.filterMap_cons, howned] using hsame
        covers := h.covers.mono fun i => Nat.le_of_eq (hall (.installation i) rfl)
        heldOnce := h.heldOnce.mono fun e => Nat.le_of_eq (hall (.exchange e) rfl)
        regular := hregular }
  | true =>
    obtain ⟨K, hK, rfl⟩ := h.exists_kept (hconts.mem_iff.mpr (List.mem_cons_self ..)) hcaptured
    obtain ⟨kept', hkept⟩ := exists_perm_cons hK
    have htowers : (kept.map (·.tower) ++ dropped).Perm
        (kept'.map (·.tower) ++ K.tower :: dropped) :=
      ((hkept.map (·.tower)).append_right dropped).trans List.perm_middle.symm
    have hall : ∀ x : Holding, x.isAsset = false →
        ((⟨m.stack, [], kept', K.tower :: dropped⟩ : Layout ω).ledger m').count x =
          ((⟨m.stack, [], kept, dropped⟩ : Layout ω).ledger m).count x := by
      intro x hx
      have hcount := hcovered x hx
      have hcode := ((htowers.flatMap_right Tower.code).flatMap_right Activation.owned).count_eq x
      rw [Layout.count_ledger, Layout.count_ledger, hwaiting, hreferences]
      simp only [Layout.towers] at hcode ⊢
      omega
    refine ⟨⟨m.stack, [], kept', K.tower :: dropped⟩, ?_⟩
    subst hm'
    exact
      { tip := htip
        placed := (h.placed.perm hkept).forget
        parks := h.parks.perm htowers
        captured := by
          rw [List.filter_cons, hcaptured] at hfilter
          have hboth := hfilter.symm.trans (h.captured.trans (hkept.map Kept.cont))
          exact hboth.cons_inv
        ready := fun t ht => h.ready t (htowers.mem_iff.mpr ht)
        resumable := fun K' hK' => h.resumable K' (hkept.mem_iff.mpr (List.mem_cons_of_mem _ hK'))
        dropping := by
          have hsame := h.dropping
          rw [hreleasing] at hsame
          simpa [List.filterMap_cons, Kept.cont, Cont.owned, Segment.owned] using hsame
        covers := h.covers.mono fun i => Nat.le_of_eq (hall (.installation i) rfl)
        heldOnce := h.heldOnce.mono fun e => Nat.le_of_eq (hall (.exchange e) rfl)
        armed := h.armed
        regular := hregular }

/-- Releasing a parked fiber gives up what its activations hold. -/
theorem release_fiber (h : Sound Γ m l) {f : FiberId} (hreleasing : m.releasing = .fiber f :: hs) :
    ∃ stack fs l', m.fibers.drop? f = some (stack, fs) ∧
      Sound Γ { m with fibers := fs, releasing := stack.flatMap Activation.owned ++ hs } l' := by
  obtain ⟨front, lifted, kept, dropped⟩ := l
  have hmem : f ∈ dropped.map Tower.root := by
    refine h.dropping.mem_iff.mp ?_
    simp [hreleasing]
  obtain ⟨t, ht, rfl⟩ := List.mem_map.mp hmem
  obtain ⟨dropped', hdropped⟩ := exists_perm_cons ht
  have hready : t.Ready := h.ready t (List.mem_append_right _ ht)
  have htowers : (kept.map (·.tower) ++ dropped).Perm
      (t :: (kept.map (·.tower) ++ dropped')) :=
    (hdropped.append_left _).trans List.perm_middle
  have hlift := h.tip.releasing m (by simp [hreleasing]) rfl rfl
  obtain rfl : front = m.stack := hlift.1
  obtain rfl : lifted = [] := hlift.2.1
  obtain ⟨fs, hdrop, hcurrent, hresumers, hparks⟩ := (h.parks.perm htowers).drop
  have hrest : (t.rest ++ (kept.map (·.tower) ++ dropped')).Perm
      (kept.map (·.tower) ++ (t.rest ++ dropped')) := by
    rw [← List.append_assoc, ← List.append_assoc]
    exact List.perm_append_comm.append_right _
  refine ⟨t.stack, fs, ⟨m.stack, [], kept, t.rest ++ dropped'⟩, hdrop, ?_⟩
  generalize hm' : ({ m with
    fibers := fs, releasing := t.stack.flatMap Activation.owned ++ hs } : Machine ω) = m'
  obtain ⟨-, -, htip⟩ := h.tip.releasing m' (by simp [hreleasing])
    (by rw [← hm']) (by rw [← hm'])
  have hwaiting : m'.waiting = m.waiting := by
    subst hm'
    simp only [Machine.waiting, hresumers]
  have hall : ∀ x : Holding, x.fiber? = none →
      ((⟨m.stack, [], kept, t.rest ++ dropped'⟩ : Layout ω).ledger m').count x =
        ((⟨m.stack, [], kept, dropped⟩ : Layout ω).ledger m).count x := by
    intro x hx
    have hcode := ((htowers.flatMap_right Tower.code).flatMap_right Activation.owned).count_eq x
    have hcode' := ((hrest.flatMap_right Tower.code).flatMap_right Activation.owned).count_eq x
    have hfiber : ((Holding.fiber t.root) == x) = false := by
      cases x <;> simp_all
    have hconts : m'.conts = m.conts := by subst hm'; rfl
    have hreferences : m'.references = m.references := by subst hm'; rfl
    have hreleasing' : m'.releasing = t.stack.flatMap Activation.owned ++ hs := by subst hm'; rfl
    rw [Layout.count_ledger, Layout.count_ledger, hwaiting, hconts, hreferences, hreleasing,
      hreleasing']
    simp only [Layout.towers, List.flatMap_cons, List.flatMap_append, List.count_append,
      Tower.code_eq t, List.count_cons, hfiber, Bool.false_eq_true, if_false] at hcode hcode' ⊢
    omega
  subst hm'
  exact
    { h with
      tip := htip
      placed := hwaiting ▸ h.placed
      parks := hparks.perm hrest
      ready := by
        intro t' ht'
        rcases List.mem_append.mp (hrest.mem_iff.mpr ht') with ht' | ht'
        · exact hready.rest t' ht'
        · exact h.ready t' (htowers.mem_iff.mpr (List.mem_cons_of_mem _ ht'))
      dropping := by
        have hsame := h.dropping.trans (hdropped.map Tower.root)
        simp only [hreleasing, List.filterMap_cons, Holding.fiber?_fiber, List.map_cons] at hsame
        rw [List.filterMap_append, Tower.filterMap_fiber hready, List.map_append]
        exact hsame.cons_inv.append_left _
      covers := h.covers.mono fun i => Nat.le_of_eq (hall (.installation i) rfl)
      heldOnce := h.heldOnce.mono fun e => Nat.le_of_eq (hall (.exchange e) rfl)
      regular := { h.regular with } }

/-- Releasing a share of an installation. The last share goes only when nothing drives the
installation any more. -/
theorem release_installation (h : Sound Γ m l) {i : InstallationId}
    (hreleasing : m.releasing = .installation i :: hs) :
    Sound Γ (({ m with releasing := hs } : Machine ω).releaseInstallation i) l := by
  have hlift := h.tip.releasing m (by simp [hreleasing]) rfl rfl
  have htip : ∀ m' : Machine ω, m'.control = m.control → m'.stack = m.stack →
      Tip Γ m' l.front l.lifted := by
    intro m' hcontrol hstack
    have htip := (h.tip.releasing m' (by simp [hreleasing]) hcontrol hstack).2.2
    rw [hlift.1, hlift.2.1]
    exact hstack ▸ htip
  have hheld : .installation i ∈ l.ledger m := by
    simp [Layout.ledger, hreleasing]
  have hcount : ∀ x : Holding, (l.ledger { m with releasing := hs }).count x +
      [Holding.installation i].count x = (l.ledger m).count x := by
    intro x
    rw [Layout.count_ledger, Layout.count_ledger, hreleasing]
    simp only [show ({ m with releasing := hs } : Machine ω).waiting = m.waiting from rfl,
      show ({ m with releasing := hs } : Machine ω).conts = m.conts from rfl, List.count_cons,
      List.count_nil]
    omega
  obtain ⟨a, ha⟩ := Option.isSome_iff_exists.mp (h.covers.found hheld)
  unfold Machine.releaseInstallation
  simp only [ha]
  split
  · rename_i hlast
    have hnot : i ∉ driven (l.front ++ m.waiting) l.kept := by
      intro hdriven
      have hone := h.count_driven hdriven
      have hcover := h.covers i
      rw [Chain.shares_of_find? ha, Layout.count_ledger] at hcover
      simp only [Layout.code, List.flatMap_append, List.count_append] at hone
      have hpos : 0 < m.releasing.count (.installation i) := by simp [hreleasing]
      omega
    have hall : ∀ x : Holding, x.isAsset = false → (l.ledger (({ m with
        releasing := hs, chain := { m.chain with
          installations := m.chain.installations.erase i } } : Machine ω).release
        ((a.below.map Holding.installation).toList ++ [Holding.asset (.cell a.handler)]))).count x +
          [Holding.installation i].count x =
        (l.ledger m).count x + (a.below.map Holding.installation).toList.count x := by
      intro x hx
      have hbefore := hcount x
      have hasset : ((Holding.asset (.cell a.handler)) == x) = false := by
        cases x <;> simp_all [Holding.isAsset]
      rw [Layout.count_ledger] at hbefore ⊢
      simp only [Machine.waiting, Machine.conts, Machine.armed, Machine.release,
        List.count_append, List.count_cons, List.count_nil, hasset] at hbefore ⊢
      simp only [Bool.false_eq_true, if_false]
      omega
    have hbelow : ∀ j, (a.below.map Holding.installation).toList.count (.installation j) =
        a.below.toList.count j := by
      intro j
      cases a.below with
      | none => rfl
      | some b => simp [List.count_cons]
    have hexchange : ∀ e, (a.below.map Holding.installation).toList.count (.exchange e) = 0 := by
      intro e
      cases a.below with
      | none => rfl
      | some b => simp
    have hfiber : (a.below.map Holding.installation).toList.filterMap Holding.fiber? = [] := by
      cases a.below with
      | none => rfl
      | some b => rfl
    exact
      { h with
        tip := htip _ rfl rfl
        placed := h.placed.erase hnot
        dropping := by
          have hsame := h.dropping
          simp only [hreleasing, List.filterMap_cons, Holding.fiber?_installation] at hsame
          simpa [Machine.release, List.filterMap_cons, hfiber] using hsame
        covers := h.covers.free h.placed.wellFormed ha hlast hheld fun j => by
          have := hall (.installation j) rfl
          rw [hbelow, count_singleton_installation] at this
          exact Nat.le_of_eq this
        heldOnce := h.heldOnce.mono fun e => by
          have := hall (.exchange e) rfl
          rw [hexchange] at this
          exact Nat.le_of_add_right_le (Nat.le_of_eq this)
        regular := { h.regular with declares := h.regular.declares.erase h.placed.wellFormed } }
  · exact
      { h with
        tip := htip _ rfl rfl
        placed := h.placed.modify _ (fun _ => rfl) (.inr fun _ => rfl)
        dropping := by
          have hsame := h.dropping
          simpa [hreleasing, List.filterMap_cons] using hsame
        covers := h.covers.unhold fun j => by
          rw [← count_singleton_installation]
          exact Nat.le_of_eq (hcount (.installation j))
        heldOnce := h.heldOnce.mono fun e =>
          Nat.le_of_add_right_le (Nat.le_of_eq (hcount (.exchange e)))
        regular :=
          { h.regular with
            declares := h.regular.declares.modify _ (fun _ => rfl) fun _ => rfl } }

/-- Releasing an exchange. No armed continuation waits for it. -/
theorem release_exchange (h : Sound Γ m l) {e : ExchangeId}
    (hreleasing : m.releasing = .exchange e :: hs) (os : List Owned) :
    Sound Γ { m with exchanges := m.exchanges.erase e, releasing := os.map .asset ++ hs } l := by
  have htip := h.tip.releasing ({ m with
    exchanges := m.exchanges.erase e, releasing := os.map .asset ++ hs }) (by simp [hreleasing])
    rfl rfl
  have hwf := h.regular.exchanges
  have hcount : ∀ x : Holding, x.isAsset = false → (l.ledger { m with
      exchanges := m.exchanges.erase e, releasing := os.map .asset ++ hs }).count x +
        [Holding.exchange e].count x = (l.ledger m).count x := by
    intro x hx
    rw [Layout.count_ledger, Layout.count_ledger, hreleasing]
    simp only [Machine.waiting, Machine.conts, Machine.armed, List.count_append,
      count_map_asset hx, List.count_cons, List.count_nil]
    omega
  exact
    { h with
      tip := by
        rw [htip.1, htip.2.1]
        exact htip.2.2
      dropping := by
        have hsame := h.dropping
        simp only [hreleasing, List.filterMap_cons, Holding.fiber?_exchange] at hsame
        rw [List.filterMap_append, filterMap_fiber_asset]
        exact hsame
      covers := h.covers.mono fun i =>
        Nat.le_of_add_right_le (Nat.le_of_eq (hcount (.installation i) rfl))
      heldOnce := h.heldOnce.erase hwf fun e' => by
        have := hcount (.exchange e') rfl
        by_cases he : e' = e
        · subst he
          simp at this ⊢
          omega
        · simp [he, Ne.symm he] at this ⊢
          omega
      armed := by
        intro k hk
        have harmed := h.armed k hk
        cases k with
        | function answer f arg => exact harmed
        | captured answer f seg x =>
          obtain ⟨y, hy, hresult⟩ := harmed
          have hmem : .captured answer f seg x ∈ m.conts := List.mem_append_right _ hk
          obtain ⟨K, hK, heq⟩ := h.exists_kept hmem rfl
          have hx : K.tower.exchange = x := by
            simp only [Kept.cont, Cont.captured.injEq] at heq
            exact heq.2.2.2
          have hne : x ≠ e := by
            rintro rfl
            have hnot := h.exchange_notMem (List.mem_append_left _ (List.mem_map_of_mem hK))
            simp [hx, hreleasing] at hnot
          exact ⟨y, by rw [Store.find?_erase hwf, if_neg hne, hy], hresult⟩
      regular :=
        { h.regular with exchanges := Store.wellFormed_erase hwf e } }

/-- Releasing an asset. -/
theorem releaseAsset [Contents ω] (h : Sound Γ m l) {o : Owned}
    (hreleasing : m.releasing = .asset o :: hs) :
    ∃ l', Sound Γ (({ m with releasing := hs } : Machine ω).releaseAsset o) l' := by
  have hlift := h.tip.releasing m (by simp [hreleasing]) rfl rfl
  -- cells, closures and notices
  have hquiet : ∀ (m' : Machine ω) (os : List Owned),
      m'.still = m.still → m'.releasing = os.map .asset ++ hs →
      m'.control = m.control → m'.stack = m.stack →
      (∀ e ∈ m'.closures.entries, e ∈ m.closures.entries) → ∃ l', Sound Γ m' l' := by
    intro m' os hsame hrel hcontrol hstack hclosures
    exact h.undisturbed m' hlift.1 hlift.2.1 (by rw [hcontrol])
      ⟨hsame, [o], os, hs, hreleasing, hrel⟩ (by rw [hstack])
      (fun e he => h.regular.closures e (hclosures e he))
      (h.tip.releasing m' (by simp [hreleasing]) hcontrol hstack).2.2
  have hsame : ∃ l', Sound Γ { m with releasing := hs } l' :=
    hquiet _ [] rfl rfl rfl rfl fun _ he => he
  cases o with
  | cell c =>
    simp only [Machine.releaseAsset, Machine.releaseCell]
    split
    · exact hsame
    · rename_i s _
      split
      · exact hquiet _ (Contents.owned s.content) rfl rfl rfl rfl fun _ he => he
      · exact hquiet _ [] rfl rfl rfl rfl fun _ he => he
  | reference r =>
    simp only [Machine.releaseAsset]
    split
    · exact hsame
    · rename_i i hfound
      exact ⟨l, (h.release_reference hreleasing hfound).agrees rfl⟩
  | closure f =>
    simp only [Machine.releaseAsset]
    split
    · exact hsame
    · rename_i c hfound
      exact hquiet _ c.owned rfl rfl rfl rfl fun _ he => List.mem_of_mem_eraseP he
  | resumption r =>
    simp only [Machine.releaseAsset]
    split
    · exact hsame
    · rename_i k hfound
      obtain ⟨l', h'⟩ := h.release_resumption hreleasing hfound
      exact ⟨l', h'.agrees rfl⟩
  | notice n => exact hquiet _ [] rfl rfl rfl rfl fun _ he => he

/-- Releasing anything keeps a state sound. -/
theorem releaseOne [Contents ω] (h : Sound Γ m l) (hreleasing : m.releasing = o :: hs) :
    ∃ l', Sound Γ (({ m with releasing := hs } : Machine ω).releaseOne o) l' := by
  cases o with
  | asset o => exact h.releaseAsset hreleasing
  | installation i => exact ⟨l, h.release_installation hreleasing⟩
  | fiber f =>
    obtain ⟨stack, fs, l', hdrop, h'⟩ := h.release_fiber hreleasing
    refine ⟨l', ?_⟩
    simp only [Machine.releaseOne, hdrop]
    exact h'.agrees rfl
  | exchange e =>
    have hheld : .exchange e ∈ l.ledger m := by simp [Layout.ledger, hreleasing]
    obtain ⟨x, hx⟩ := Option.isSome_iff_exists.mp (h.heldOnce.contains hheld).1
    refine ⟨l, ?_⟩
    simp only [Machine.releaseOne, hx]
    exact (h.release_exchange hreleasing _).agrees rfl

end Sound

end EffectHandlers
