import EffectHandlers.Proofs.Mirror
import EffectHandlers.Proofs.Numbers
import EffectHandlers.Proofs.Teardown
/-!
# Discarding tears down what was captured

A discarded continuation goes to the release list, its lowest fiber first. Clearing the list up to
there tears down what was captured and leaves the rest of the thread as it was.
-/

namespace EffectHandlers

variable {ω : Type} {Γ : Library ω}

/-! ### Parked fibers do not run -/

/-- Only fibers that are waited for run or are gone back to. -/
theorem Waiters.mem {cur : Option FiberId} {rs : List (Resumer (List (Activation ω)))}
    (h : Waiters cur rs) :
    (∀ f, cur = some f → f ∈ rs.map (·.fiber)) ∧
      ∀ r ∈ rs, ∀ f, r.current = some f → f ∈ rs.map (·.fiber) := by
  induction h with
  | native => simp
  | @fiber i f cur rs code hcode hrest ih =>
    obtain ⟨hcur, hrs⟩ := ih
    constructor
    · rintro g hg
      obtain rfl := Option.some.inj hg
      exact List.mem_cons_self
    · intro r hr g hg
      rcases List.mem_cons.mp hr with rfl | hr
      · exact List.mem_cons_of_mem _ (hcur g hg)
      · exact List.mem_cons_of_mem _ (hrs r hr g hg)

/-- A parked fiber does not run and is not waited for. -/
theorem Parks.idle {fs : Fibers (List (Activation ω))} {ts : List (Tower ω)} (h : Parks fs ts)
    {f : FiberId} {S : List (Activation ω)} (hf : fs.parked.find? f = some S) :
    fs.current ≠ some f ∧ ∀ r ∈ fs.resumers, r.fiber ≠ f ∧ r.current ≠ some f := by
  have hnot : f ∉ fs.resumers.map (·.fiber) := fun hmem =>
    (List.nodup_append.mp h.distinct).2.2 f hmem f
      (List.mem_map_of_mem (Store.mem_of_find? hf)) rfl
  obtain ⟨hcurrent, hresumers⟩ := h.waiters.mem
  refine ⟨fun heq => hnot (hcurrent f heq), fun r hr => ⟨?_, fun heq => hnot (hresumers r hr f heq)⟩⟩
  rintro rfl
  exact hnot (List.mem_map_of_mem hr)

/-- The fibers of a tower are parked, each of them once. -/
theorem Parks.tower_parked {fs : Fibers (List (Activation ω))} {ts : List (Tower ω)}
    (h : Parks fs ts) {t : Tower ω} (ht : t ∈ ts) : t.Parked fs where
  found := h.parked ht
  distinct := by
    have hsub : t.entries.Sublist (ts.flatMap Tower.entries) := by
      obtain ⟨before, behind, rfl⟩ := List.append_of_mem ht
      simp only [List.flatMap_append, List.flatMap_cons]
      exact (List.sublist_append_left _ _).trans (List.sublist_append_right _ _)
    have hkeys : ((ts.flatMap Tower.entries).map (·.1)).Nodup :=
      (h.entries.map (·.1)).nodup h.wellFormed.1
    have hfibers : t.fibers.Sublist ((ts.flatMap Tower.entries).map (·.1)) := hsub.map _
    exact hkeys.sublist hfibers

/-- No fiber is switched while something is released, and none is being switched then. -/
theorem Tip.stays {m m' : Machine ω} {F F' : List (Activation ω)} {T T' : List (Tower ω)}
    (htip : Tip Γ m F T) (htip' : Tip Γ m' F' T') (hreleasing : m.releasing ≠ [])
    (hcontrol : m'.control = m.control) (hstack : m'.stack = m.stack) : F' = m'.stack := by
  cases htip' with
  | @wake t h' =>
    have hsame := h'.control.symm.trans hcontrol
    cases htip with
    | start hc hs =>
      have hstart := h'.stack.symm.trans (hstack.trans hs)
      cases t <;> cases hstart
    | wake h | request h => exact absurd h.releasing hreleasing
    | eval hc | ret hc | returned hc | deliver hc | settle hc => simp [hc] at hsame
  | request h' =>
    have hsame := h'.control.symm.trans hcontrol
    cases htip with
    | wake h | request h => exact absurd h.releasing hreleasing
    | eval hc | ret hc | returned hc | deliver hc | settle hc | start hc => simp [hc] at hsame
  | _ => rfl

namespace Machine

variable [Contents ω] {m m' m₁ m₀ : Machine ω} {l l' : Layout ω} {k : Cont ω} {K : Kept ω}
  {ks : List (Kept ω)} {us zs hs : List Holding}

/-! ### What a discard begins with -/

/-- A continuation was put on the release list. -/
structure Discarded (m : Machine ω) (k : Cont ω) (ks : List (Kept ω)) (hs : List Holding) :
    Prop where
  captured : ks.map Kept.cont = [k].filter Cont.isCaptured
  parked : ∀ K ∈ ks, K.tower.Parked m.fibers
  fits : ∀ K ∈ ks, K.Fits m.chain
  begins : m.releasing = k.owned ++ hs

omit [Contents ω] in
theorem Discarded.of_kept (hparked : K.tower.Parked m.fibers) (hfits : K.Fits m.chain)
    (hbegins : m.releasing = K.cont.owned ++ hs) : m.Discarded K.cont [K] hs where
  captured := rfl
  parked := by simpa using hparked
  fits := by simpa using hfits
  begins := hbegins

/-- What is discarded is put on the release list, and counted. -/
theorem Discards.step (hd : m.Discards Γ k) (h : Sound Γ m l) (hΓ : Γ.Orderly) :
    (∃ ks hs, (m.step Γ).Discarded k ks hs) ∧ (∃ l', Sound Γ (m.step Γ) l') ∧
      (m.step Γ).counters.discarded = m.counters.discarded + 1 := by
  cases hd with
  | @released r k hs hreleasing hk =>
    have hgives : Gives { m with releasing := hs } (.asset (.resumption r)) k.owned _ :=
      .resumption hk
    have hsound := h.releaseOne hreleasing
    rw [hgives.eq] at hsound
    rw [(step_releasing hreleasing).trans hgives.eq]
    refine ⟨?_, hsound, rfl⟩
    cases hcaptured : k.isCaptured with
    | false => exact ⟨[], hs, by simp [hcaptured], by simp, by simp, rfl⟩
    | true =>
      have hmem : k ∈ m.conts :=
        List.mem_append_left _ (List.mem_map_of_mem (f := (·.2)) (Store.mem_of_find? hk))
      obtain ⟨K, hK, rfl⟩ := h.exists_kept hmem hcaptured
      have hin : K.tower ∈ l.lifted ++ l.towers :=
        List.mem_append_right _ (List.mem_append_left _ (List.mem_map_of_mem hK))
      exact ⟨[K], hs, .of_kept (h.parks.tower_parked hin) (h.placed.fits K hK) rfl⟩
  | @unresumed q f S fs run hreleasing hcontrol hsuspend hcode =>
    obtain ⟨t, htower, hlifted, hr⟩ := h.of_request hcontrol
    have hparks := h.parks
    rw [hlifted] at hparks
    obtain ⟨code, cur, rs, fs', hresumers, ⟨i, S', rfl, hS⟩, hsuspend', -, hrest, hparks'⟩ :=
      hparks.suspend hr.current
    rw [hr.stack, hsuspend'] at hsuspend
    obtain ⟨⟨⟨rfl, rfl⟩, rfl⟩, rfl⟩ : ((i = q.target ∧ t.root = f) ∧ _ = S) ∧ fs' = fs := by
      simpa using hsuspend
    obtain ⟨code, y, command, c', hcode', hplain, -, hy, hcommand, hsplit, -, -, hcut⟩ :=
      h.capturable hr htower hresumers (Γ.handlerType (m.chain.get q.target).handlerType).answer
    obtain rfl : code = .noResume run := Option.some.inj (hcode'.symm.trans hcode)
    obtain ⟨counters, events, -, hcounted, heq⟩ := capture_eq
      (m := { m with fibers := fs', stack := .stepping :: S' }) (f := t.root) hcode hplain hsplit hy
      hcommand
    have hstep : m.step Γ = m.forward Γ q := by simp only [step, hreleasing, hcontrol]
    have hsound := h.capture hΓ hr htower hresumers hS hrest hparks'
    let K : Kept ω := ⟨(Γ.handlerType (m.chain.get q.target).handlerType).answer,
      ⟨m.chain.top, q.target⟩, t⟩
    have hkept : Cont.captured K.answer t.root K.segment q.exchange = K.cont := by
      rw [Kept.cont, hr.exchange]
    rw [hstep, forward, hr.stack, hsuspend']
    simp only [if_true, heq] at hsound ⊢
    refine ⟨⟨[K], [], hkept ▸ .of_kept (hparks'.tower_parked List.mem_cons_self) ?_ ?_⟩, hsound,
      hcounted⟩
    · exact (hcut.fits _ List.mem_cons_self).congr fun j _ => Chain.below_modify _ fun _ => rfl
    · simp [K, ClauseCode.takes, ClauseCode.keeps, hreleasing, Kept.cont, Cont.owned]

namespace Discarded

omit [Contents ω] in
/-- There is at most one captured computation. -/
theorem eq_singleton (h : m.Discarded k ks hs) (hK : K ∈ ks) : ks = [K] ∧ K.cont = k := by
  have hcaptured := h.captured
  cases hk : k.isCaptured with
  | false =>
    obtain rfl : ks = [] := by simpa [hk] using hcaptured
    cases hK
  | true =>
    obtain ⟨K', rfl, rfl⟩ : ∃ K', ks = [K'] ∧ K'.cont = k := by
      simpa [hk, List.map_eq_singleton_iff] using hcaptured
    obtain rfl := List.mem_singleton.mp hK
    exact ⟨rfl, rfl⟩

/-- The captured code is unwound first: its fibers go, and what they owned is to be released. -/
theorem unwound (h : m.Discarded k ks hs) (hm : m.Filed) :
    ∃ us m₁, Releases hs m ((ks.flatMap (·.tower.fibers)).map .fiber) m₁ ∧
      m₁.releasing = us ++ hs ∧ (∀ K ∈ ks, us = K.owned) ∧
      us.filterMap Holding.notice? =
        (ownedBy (ks.flatMap (·.tower.code)) ++ k.owned).filterMap Holding.notice? ∧
      ∀ o, .asset o ∈ ownedBy (ks.flatMap (·.tower.code)) ++ k.owned → .asset o ∈ us := by
  have hcaptured := h.captured
  cases hk : k.isCaptured with
  | false =>
    obtain rfl : ks = [] := by simpa [hk] using hcaptured
    exact ⟨k.owned, m, .refl m, h.begins, by simp, by simp [ownedBy], by simp [ownedBy]⟩
  | true =>
    obtain ⟨K, rfl, rfl⟩ : ∃ K, ks = [K] ∧ K.cont = k := by
      simpa [hk, List.map_eq_singleton_iff] using hcaptured
    have hbegins : m.releasing = .fiber K.tower.root :: (K.segment.owned ++ hs) := h.begins
    obtain ⟨m₁, hfibers, hafter⟩ := Releases.tower hm (h.parked K List.mem_cons_self) hbegins
    refine ⟨K.owned, m₁, by simpa using hfibers, by simpa [Kept.owned] using hafter, by simp, ?_, ?_⟩
    · simp [Kept.owned, Kept.cont, Cont.owned, Segment.owned, Tower.notices_owned,
        List.filterMap_cons, Holding.notice?]
    · intro o ho
      simp only [List.flatMap_cons, List.flatMap_nil, List.append_nil, Kept.cont, Cont.owned,
        Segment.owned, List.mem_append, List.mem_cons, List.not_mem_nil, reduceCtorEq, or_false] at ho
      exact List.mem_append_left _ (Tower.mem_owned ho rfl)

end Discarded

namespace Releases

/-- What is reached in so many steps is reached by as many releases. -/
theorem exists_between (h : Releases hs m zs m') {p : Nat} (hp : p ≤ zs.length) :
    Releases hs m (zs.take p) (Machine.run Γ p m) := by
  obtain ⟨m₁, hleft, -⟩ := (List.take_append_drop p zs ▸ h).split
  have hrun := hleft.run (Γ := Γ)
  rw [List.length_take_of_le hp] at hrun
  exact hrun ▸ hleft

/-- Until everything is released, something is left to release. -/
theorem busy (h : Releases hs m zs m') {p : Nat} (hp : p < zs.length) :
    (Machine.run Γ p m).releasing ≠ [] := by
  obtain ⟨m₁, hleft, hright⟩ := (List.take_append_drop p zs ▸ h).split
  have hrun := hleft.run (Γ := Γ)
  rw [List.length_take_of_le (Nat.le_of_lt hp)] at hrun
  rw [hrun]
  rw [List.drop_eq_getElem_cons hp] at hright
  cases hright with
  | next hreleasing => simp [hreleasing]

/-- A parked fiber that is released never runs again. -/
theorem silent (h : Releases hs m zs m') (hm : m.Filed) (hsound : Sound Γ m l) {f : FiberId}
    {S : List (Activation ω)} (hparked : m.fibers.parked.find? f = some S) (hf : .fiber f ∈ zs)
    (p : Nat) : ¬ (Machine.run Γ p m).Runs f ∧
      (zs.length ≤ p → (Machine.run Γ p m).fibers.parked.find? f = none) := by
  obtain ⟨hcurrent, hresumers⟩ := hsound.parks.idle hparked
  have hloses := h.loses hm
  have hgone : m'.fibers.Gone f :=
    { issued := by
        rw [hloses.issued]
        exact Store.lt_next hm.parked hparked
      parked := by
        simpa [Machine.has, Store.contains] using h.gone hm hf (.inr (.inr ⟨f, rfl⟩))
      current := by
        rw [hloses.current]
        exact hcurrent
      resumers := by
        rw [hloses.resumers]
        exact hresumers }
  rcases Nat.lt_or_ge p zs.length with hp | hp
  · -- until it is released, it stays parked
    have hbetween := (h.exists_between (Γ := Γ) (Nat.le_of_lt hp)).loses hm
    refine ⟨?_, fun hle => absurd hp (Nat.not_lt.mpr hle)⟩
    rintro (hruns | hruns)
    · exact hcurrent (hbetween.current ▸ hruns)
    · rw [hbetween.resumers] at hruns
      obtain ⟨r, hr, heq⟩ := List.mem_map.mp hruns
      exact (hresumers r hr).1 heq
  · obtain ⟨d, rfl⟩ := Nat.exists_eq_add_of_le hp
    have hlater := (run_ages (Γ := Γ) d m').fibers.gone f hgone
    rw [run_add, h.run]
    refine ⟨?_, fun _ => hlater.parked⟩
    rintro (hruns | hruns)
    · exact hlater.current hruns
    · obtain ⟨r, hr, heq⟩ := List.mem_map.mp hruns
      exact (hlater.resumers r hr).1 heq

/-- A resumption that is released is discarded, once. -/
theorem nested (h : Releases hs m zs m') (hm : m.Filed) {r : ResumptionId} {k' : Cont ω}
    (hr : .asset (.resumption r) ∈ zs) (hk : m.resumptions.find? r = some k') :
    ∃ p < zs.length, (Machine.run Γ p m).releasing.head? = some (.asset (.resumption r)) ∧
      (Machine.run Γ p m).resumptions.find? r = some k' := by
  have hthere : m.has (.asset (.resumption r)) = true := by
    simp [Machine.has, holds, Store.contains, hk]
  obtain ⟨zs₁, zs₂, m₁, m₂, rfl, hbefore, hhas, hone, -, -⟩ :=
    h.lost hm hthere (h.gone hm hr (.inr (.inl ⟨r, rfl⟩)))
  refine ⟨zs₁.length, by simp, ?_⟩
  rw [hbefore.run]
  obtain ⟨k'', hk''⟩ := Option.isSome_iff_exists.mp hhas
  obtain rfl := Option.some.inj (hk.symm.trans ((hbefore.loses hm).resumptions r k'' hk''))
  refine ⟨?_, hk''⟩
  cases hone with
  | next hreleasing => simp [hreleasing]

/-- A cell that is dropped does not come back: numbers are not reused. -/
theorem cell_gone {x : Holding} (h : Releases hs m [x] m') (hm : m.Filed) {c : CellId}
    (hhas : m.has (.asset (.cell c)) = true) (hgone : m'.has (.asset (.cell c)) = false) (d : Nat) :
    (Machine.run Γ (d + 1) m).cells.contains c = false := by
  have hrun := h.run (Γ := Γ)
  obtain ⟨y, hy⟩ := Option.isSome_iff_exists.mp hhas
  have hissued : c < m'.cells.next :=
    Nat.lt_of_lt_of_le (Store.lt_next hm.cells hy) (hrun ▸ run_ages (Γ := Γ) 1 m).cells.next
  have hnone : m'.cells.find? c = none := by simpa [Machine.has, holds, Store.contains] using hgone
  have hlater := (run_ages (Γ := Γ) d m').cells.gone c hissued hnone
  rw [Nat.add_comm, run_add, show Machine.run Γ 1 m = m' from hrun]
  simp [Store.contains, hlater]

/-- What cannot be reached from what is released stays. -/
theorem spared (h : Releases hs m zs m') (hm : m.Filed) {us : List Holding}
    (hbegins : m.releasing = us ++ hs) {r : ResumptionId} {k' : Cont ω}
    (hk : m.resumptions.find? r = some k')
    (hnot : ∀ x ∈ us, ¬ m.LeadsTo x (.asset (.resumption r))) :
    m'.resumptions.find? r = some k' := by
  have hnotMem : .asset (.resumption r) ∉ zs := fun hmem => by
    obtain ⟨x, hx, hreach⟩ := h.leadsTo hm hbegins hmem
    exact hnot x hx hreach
  have hhas : m'.has (.asset (.resumption r)) = true := by
    rw [h.has hm hnotMem]
    simp [Machine.has, holds, Store.contains, hk]
  obtain ⟨k'', hk''⟩ := Option.isSome_iff_exists.mp hhas
  have hsame := (h.loses hm).resumptions r k'' hk''
  rw [hk] at hsame
  rw [hk'', hsame]

end Releases

omit [Contents ω] in
/-- The waiting code is that of all resumers. -/
theorem Loses.waiting (h : m.Loses m') : m'.waiting = m.waiting := by
  rw [Machine.waiting, h.resumers, ← Machine.waiting]

omit [Contents ω] in
/-- An installation that is found is the same apart from its shares. -/
theorem Loses.sameInstallation (h : m.Loses m') {i : InstallationId}
    (hi : (m'.chain.installations.find? i).isSome) : m.SameInstallation m' i := by
  obtain ⟨a', ha'⟩ := Option.isSome_iff_exists.mp hi
  obtain ⟨a, ha, heq⟩ := h.installations i a' ha'
  exact ⟨a, a', ha, ha', heq⟩

/-- The live chain stays, since code drives it or it is the bottom. -/
theorem Releases.live (h : Releases hs m zs m') (hm : m.Filed) (hsound : Sound Γ m l) :
    m'.chain.toList = m.chain.toList ∧ ∀ i ∈ m'.chain.live, m.SameInstallation m' i := by
  have hloses := h.loses hm
  obtain ⟨l', hsound', hfront⟩ : ∃ l', Sound Γ m' l' ∧ l'.front = l.front := by
    obtain ⟨l', hsound'⟩ := h.sound hsound
    cases h with
    | refl => exact ⟨l, hsound, rfl⟩
    | next hreleasing =>
      have hbusy : m.releasing ≠ [] := by simp [hreleasing]
      refine ⟨l', hsound', ?_⟩
      rw [hsound.tip.stays hsound'.tip hbusy hloses.control hloses.stack, hloses.stack]
      exact (hsound.tip.releasing m hbusy rfl rfl).1.symm
  have hread := hsound.placed.reads
  have hread' := hsound'.placed.reads
  rw [hfront, hloses.waiting] at hread'
  refine ⟨by rw [hread.toList_eq, hread'.toList_eq], fun i hi => ?_⟩
  rw [hread'.live_eq] at hi
  refine hloses.sameInstallation (hsound'.placed.found i ?_)
  rw [hfront, hloses.waiting]
  exact Placed.exposed_subset _ _ hi

omit [Contents ω] in
/-- Continuations that stay go on with the same fibers and installations. -/
theorem Loses.intact (h : m.Loses m') (hm' : m'.Filed) (hsound' : Sound Γ m' l')
    {k' : Cont ω} (hk : k' ∈ m'.conts) : k' ∈ m.conts ∧ (k'.isCaptured →
      ∃ K' : Kept ω, K'.cont = k' ∧ K'.tower.Parked m.fibers ∧ K'.tower.Parked m'.fibers ∧
        ∀ i ∈ K'.installations, m.SameInstallation m' i) := by
  constructor
  · rcases List.mem_append.mp hk with hk | hk
    · obtain ⟨⟨r, k''⟩, he, rfl⟩ := List.mem_map.mp hk
      have hfound := (Store.find?_eq_some_iff hm'.resumptions).mpr he
      exact List.mem_append_left _ (List.mem_map.mpr
        ⟨_, Store.mem_of_find? (h.resumptions r k'' hfound), rfl⟩)
    · refine List.mem_append_right _ ?_
      rwa [armed, h.pending, h.control, ← armed] at hk
  · intro hcaptured
    obtain ⟨K', hK', rfl⟩ := hsound'.exists_kept hk hcaptured
    have hparked := hsound'.parks.tower_parked (List.mem_append_right _
      (List.mem_append_left _ (List.mem_map_of_mem hK')))
    refine ⟨K', rfl, ⟨fun e he => h.parked _ _ (hparked.found e he), hparked.distinct⟩, hparked,
      fun i hi => ?_⟩
    refine h.sameInstallation (hsound'.placed.found i (List.mem_append_right _ ?_))
    exact List.mem_flatMap.mpr ⟨K', hK', hi⟩

/-- What was discarded is torn down, and nothing else. -/
theorem Discarded.tearsDown {n : Nat} (h : (run Γ n m₀).Discarded k ks hs)
    (hm : (run Γ n m₀).Filed) (hsound : Sound Γ (run Γ n m₀) l) :
    ∃ N, TearsDown Γ m₀ k ks hs n N := by
  obtain ⟨us, m₁, hfibers, hafter, howned, hnotices, hassets⟩ := h.unwound hm
  obtain ⟨zs, m', hrest, hend⟩ := Releases.exists_clear hafter
  have hall := hfibers.trans hrest
  have hm' := hall.filed hm
  have hloses := hall.loses hm
  obtain ⟨l', hsound'⟩ := hall.sound hsound
  have hus := hrest.sublist_of_end hafter hend
  generalize hfs : (ks.flatMap (·.tower.fibers)).map Holding.fiber = fs at *
  have hN : run Γ (n + (fs ++ zs).length) m₀ = m' := by rw [run_add, hall.run]
  have hlater : ∀ p, n ≤ p → run Γ p m₀ = run Γ (p - n) (run Γ n m₀) := fun p hp => by
    rw [← run_add, Nat.add_sub_cancel' hp]
  refine ⟨n + (fs ++ zs).length, ?_⟩
  generalize hn : run Γ n m₀ = m at *
  exact
    { captured := h.captured
      parked := hn ▸ h.parked
      begins := hn ▸ h.begins
      ends := hN ▸ hend
      le := Nat.le_add_right _ _
      busy := fun p hp hlt => by
        rw [hlater p hp]
        exact hall.busy (by omega)
      silent := fun K hK f hf p hp => by
        obtain ⟨e, he, rfl⟩ := List.mem_map.mp hf
        have hmem : .fiber e.1 ∈ fs ++ zs := by
          rw [← hfs]
          exact List.mem_append_left _ (List.mem_map_of_mem (List.mem_flatMap.mpr ⟨K, hK, hf⟩))
        obtain ⟨hruns, hgone⟩ := hall.silent (Γ := Γ) hm hsound ((h.parked K hK).found e he) hmem (p - n)
        rw [hlater p hp]
        exact ⟨hruns, fun hle => hgone (by omega)⟩
      noticed := by
        rw [hN, hn]
        refine ⟨(fs ++ zs).filterMap Holding.notice?, hall.noticed, ?_, ?_⟩
        · rw [← hnotices, List.filterMap_append]
          exact (hus.filterMap _).trans (List.sublist_append_right _ _)
        · rw [← List.filterMap_append]
          exact hall.held.filterMap _
      nested := fun r k' hr hk => by
        rw [hn] at hk
        obtain ⟨p, hp, hhead, hfound⟩ := hall.nested (Γ := Γ) hm
          (List.mem_append_right _ (hus.subset (hassets _ hr))) hk
        rw [← hn, ← run_add] at hhead hfound
        exact ⟨n + p, Nat.le_add_right _ _, Nat.add_lt_add_left hp n, hhead, hfound⟩
      counted := by
        rw [hN, hn]
        exact hall.counted
      same := by
        rw [hN, hn]
        exact ⟨hloses.control, hloses.stack, hloses.current, hloses.resumers, hloses.pending⟩
      live := by
        rw [hN, hn]
        exact hall.live hm hsound
      others := fun r k' hk hnot => by
        rw [hn] at hk hnot
        rw [hN]
        exact hall.spared hm h.begins hk hnot
      intact := fun k' hk => by
        rw [hN] at hk
        rw [hn, hN]
        exact hloses.intact hm' hsound' hk
      handlers := fun K hK hprivate A i f B hcode => by
        rw [hn] at hprivate ⊢
        obtain ⟨rfl, rfl⟩ := h.eq_singleton hK
        obtain rfl := howned K hK
        obtain rfl : K.tower.fibers.map Holding.fiber = fs := by simpa using hfs
        obtain ⟨zs₁, zs₂, m₂, m₃, rfl, hbefore, hhas, hone, hgone, -, hsub⟩ :=
          hprivate.handler_dropped hm (h.fits K hK) h.begins (h.parked K hK) hfibers hafter hrest
            hend hcode
        have huntil := hfibers.trans hbefore
        have hp : run Γ (n + (K.tower.fibers.map Holding.fiber ++ zs₁).length) m₀ = m₂ := by
          rw [run_add, hn, huntil.run]
        refine ⟨n + (K.tower.fibers.map Holding.fiber ++ zs₁).length, Nat.le_add_right _ _, ?_, ?_,
          fun q hq => ?_, ?_⟩
        · exact Nat.add_lt_add_left (by simp) n
        · rw [hp]
          exact hhas
        · obtain ⟨d, rfl⟩ := Nat.exists_eq_add_of_lt hq
          rw [Nat.add_assoc, run_add, hp]
          exact hone.cell_gone (huntil.filed hm) hhas hgone d
        · rw [hp]
          refine ⟨_, huntil.noticed, ?_⟩
          rw [List.filterMap_append]
          exact hsub.trans (List.sublist_append_right _ _) }

/-- A continuation that is about to be released is discarded in its turn, and torn down then. -/
theorem exists_discards {n : Nat} {r : ResumptionId} (hΓ : Γ.Orderly)
    (hsound : Sound Γ (run Γ n m₀) l) (hm : (run Γ n m₀).Filed)
    (hreleasing : (run Γ n m₀).releasing = us ++ hs) (hr : .asset (.resumption r) ∈ us)
    (hk : (run Γ n m₀).resumptions.find? r = some k) :
    ∃ p ≥ n, (run Γ p m₀).Discards Γ k ∧ ∃ ks hs N, TearsDown Γ m₀ k ks hs (p + 1) N := by
  obtain ⟨zs, m', hclears, hend⟩ := Releases.exists_clear hreleasing
  obtain ⟨p, hp, hhead, hfound⟩ :=
    hclears.nested (Γ := Γ) hm ((hclears.sublist_of_end hreleasing hend).subset hr) hk
  obtain ⟨l₁, hsound₁⟩ := (hclears.exists_between (Γ := Γ) (Nat.le_of_lt hp)).sound hsound
  have hm₂ := (hclears.exists_between (Γ := Γ) (Nat.succ_le_of_lt hp)).filed hm
  rw [← run_add] at hhead hfound hsound₁ hm₂
  obtain ⟨hs', hreleasing'⟩ := List.head?_eq_some_iff.mp hhead
  have hdiscards : (run Γ (n + p) m₀).Discards Γ k := .released hreleasing' hfound
  obtain ⟨⟨ks, hs₁, hdiscarded⟩, ⟨l₂, hsound₂⟩, -⟩ := hdiscards.step hsound₁ hΓ
  rw [← run_succ] at hdiscarded hsound₂
  exact ⟨n + p, Nat.le_add_right n p, hdiscards, ks, hs₁, hdiscarded.tearsDown hm₂ hsound₂⟩

omit [Contents ω] in
/-- A new thread has numbered its cells in order. -/
theorem cells_start (settings : SettingsSlot) (cells : List ω) (statics : List Owned)
    (main : Comp ω) : (start settings cells statics main).cells.WellFormed := by
  have hinsert : ∀ (cells : List ω) (s : Store (Shared ω)), s.WellFormed →
      (cells.foldl (fun s content => (s.insert ⟨content, 1⟩).2) s).WellFormed := by
    intro cells
    induction cells with
    | nil => exact fun s hs => hs
    | cons content cells ih => exact fun s hs => ih _ (Store.wellFormed_insert hs _)
  exact hinsert cells _ (Store.wellFormed_skip Store.wellFormed_empty)

/-- The tables of a thread that runs are well-formed. -/
theorem filed_run {settings : SettingsSlot} {cells : List ω} {statics : List Owned} {main : Comp ω}
    {n : Nat} (hsound : Sound Γ (run Γ n (start settings cells statics main)) l) :
    (run Γ n (start settings cells statics main)).Filed := by
  have hages := run_ages (Γ := Γ) n (start settings cells statics main)
  have htidy := (tidy_start settings cells statics main).run (Γ := Γ) n
  exact
    { cells := hages.cells.wellFormed (cells_start settings cells statics main)
      installations := hsound.placed.wellFormed
      references := hages.references.wellFormed (Store.wellFormed_skip Store.wellFormed_empty)
      closures := hages.closures.wellFormed Store.wellFormed_empty
      resumptions := htidy.accounts.resumptions
      parked := hsound.parks.wellFormed
      exchanges := htidy.accounts.exchanges }

/-- Whatever way a continuation is discarded, it is counted once, and it is torn down with all that
its fibers own, while the rest of the thread stays as it is. This is said of all states of a thread
that has not ended. -/
theorem discarding_tears_down {settings : SettingsSlot} {cells : List ω} {statics : List Owned}
    {main : Comp ω} (hΓ : Γ.Orderly) (hmain : main.Orderly)
    (hsize : settings.use.1.stackSize + StackPool.margin < Word.count) (n : Nat)
    (hfault : ∀ f, (run Γ n (start settings cells statics main)).control ≠ .fault f)
    (hhalted : ∀ o, (run Γ n (start settings cells statics main)).control ≠ .halted o)
    (hdiscards : (run Γ n (start settings cells statics main)).Discards Γ k) :
    (run Γ (n + 1) (start settings cells statics main)).counters.discarded =
        (run Γ n (start settings cells statics main)).counters.discarded + 1 ∧
      ∃ ks hs N, TearsDown Γ (start settings cells statics main) k ks hs (n + 1) N := by
  have hgood : Good Γ (start settings cells statics main) :=
    .sound _ (Sound.start cells statics hmain hsize)
  cases hgood.run n hΓ with
  | fault hcontrol => exact absurd hcontrol (hfault _)
  | halted hcontrol => exact absurd hcontrol (hhalted _)
  | sound l hsound =>
    obtain ⟨⟨ks, hs, hdiscarded⟩, ⟨l', hsound'⟩, hcounted⟩ := hdiscards.step hsound hΓ
    rw [← run_succ] at hdiscarded hsound' hcounted
    exact ⟨hcounted, ks, hs, hdiscarded.tearsDown (filed_run hsound') hsound'⟩

/-- A library with one handler type, whose clause gives the continuation out. -/
def leaver : Library Unit where
  handlerType _ :=
    { answer := "()"
      clauses := [⟨"Leave", .resumptive fun _ _ r => .take r fun r' => .done (.resumption r')⟩] }

/-- A program that leaves the body of a handler, where a guard is alive, and drops the rest of the
body once the handler has answered. -/
def leaving : Comp Unit :=
  .handle { handlerType := "Leaver", handler := 1 }
    (fun _ => .scope [.notice (.guardDropped "guard")]
      (.invoke .innermost { name := "Leave" } .done) .done) fun v => .release v.owned (.done .unit)

theorem leaver_orderly : leaver.Orderly where
  clauses t c hc := by
    simp only [leaver, List.mem_singleton] at hc
    subst hc
    exact fun _ _ _ _ => trivial
  onReturn _ _ _ := trivial
  procedure _ _ := trivial

theorem leaving_orderly : leaving.Orderly :=
  ⟨fun _ => ⟨fun _ => trivial, fun _ => trivial⟩, fun _ => trivial⟩

/-- Nothing but the captured body holds its installation and handler when `leaving` drops it. -/
theorem private_leaving : (run leaver 16 (start {} [()] [] leaving)).Private
    ⟨"()", ⟨1, 1⟩, .invoker 0 1 0 .resumptive "Leave"
      [.bind .done, .owning [.notice (.guardDropped "guard")], .bind .done,
        .owning [.reference 1]]⟩ [] where
  shares := by decide +kernel
  rooted := by decide +kernel
  holders := by
    intro x hx y hy
    have hall : ∀ x ∈ (run leaver 16 (start {} [()] [] leaving)).frames
        ⟨"()", ⟨1, 1⟩, .invoker 0 1 0 .resumptive "Leave" []⟩,
        ∀ e ∈ (run leaver 16 (start {} [()] [] leaving)).owners, x ∈ e.2 →
          e.1 = .fiber 0 ∨ e.1 = .installation 1 ∨ e.1 = .asset (.reference 1) := by
      decide +kernel
    rcases hall x hx _ (mem_owners hy) hy with rfl | rfl | rfl
    · exact .inl ⟨0, by decide, rfl⟩
    · exact .inr (.inl ⟨1, by decide, rfl⟩)
    · exact .inr (.inr ⟨by decide, 1, rfl⟩)

/-- When the handler of `leaving` has answered, the continuation that it gave out is dropped. -/
theorem discarding_tears_down_leaving :
    (run leaver 15 (start {} [()] [] leaving)).Discards leaver (.captured "()" 0 ⟨1, 1⟩ 0) ∧
      (run leaver 16 (start {} [()] [] leaving)).counters.discarded =
        (run leaver 15 (start {} [()] [] leaving)).counters.discarded + 1 ∧
      ∃ ks hs N, TearsDown leaver (start {} [()] [] leaving) (.captured "()" 0 ⟨1, 1⟩ 0) ks hs 16 N :=
  have hreleasing : (run leaver 15 (start {} [()] [] leaving)).releasing =
      [.asset (.resumption 2)] := rfl
  have hdiscards : (run leaver 15 (start {} [()] [] leaving)).Discards leaver
      (.captured "()" 0 ⟨1, 1⟩ 0) := .released hreleasing rfl
  have hcontrol : (run leaver 15 (start {} [()] [] leaving)).control = .eval (.done .unit) := rfl
  ⟨hdiscards, discarding_tears_down leaver_orderly leaving_orderly (by decide) 15
    (by simp [hcontrol]) (by simp [hcontrol]) hdiscards⟩

end Machine

end EffectHandlers
