import EffectHandlers.Proofs.Asides
import EffectHandlers.Proofs.Reruns
/-!
# Threads and chains abreast do the same

## Threads abreast release the same

What one thread releases, the other one releases too, under its numbers, and it lets go of the same.
-/

namespace EffectHandlers

namespace StackPool.Suffices

variable {s : Settings} {p p' : StackPool}

/-- Where there is a stack in one pool, there is one in the other. -/
theorem acquire (h : Suffices s p p') (hp : ∀ why, p.acquire.1 ≠ .failed why) :
    (∀ why, p'.acquire.1 ≠ .failed why) ∧ Suffices s p.acquire.2.1 p'.acquire.2.1 := by
  obtain ⟨hsettings', henough⟩ := h
  have hkept : p'.acquire.2.1.settings.use.1 = s := (use_acquire p').trans hsettings'
  rcases henough with ⟨hsettings, hpooled⟩ | hfresh
  · have hmine : p.acquire.2.1.settings.use.1 = s := (use_acquire p).trans hsettings
    by_cases hpos : 0 < p.pooled
    · have hpos' : 0 < p'.pooled := by omega
      refine ⟨by rw [acquire_of_pos hpos']; exact nofun, hkept, .inl ⟨hmine, ?_⟩⟩
      rw [acquire_of_pos hpos, acquire_of_pos hpos']
      exact Nat.sub_le_sub_right hpooled 1
    · rw [acquire_of_not_pos hpos] at hp
      refine ⟨?_, hkept, .inl ⟨hmine, ?_⟩⟩
      · by_cases hpos' : 0 < p'.pooled
        · rw [acquire_of_pos hpos']
          exact nofun
        · rw [acquire_of_not_pos hpos', hsettings', ← hsettings]
          exact hp
      · rw [acquire_of_not_pos hpos]
        show p.pooled ≤ _
        omega
  · refine ⟨?_, hkept, .inr hfresh⟩
    by_cases hpos' : 0 < p'.pooled
    · rw [acquire_of_pos hpos']
      exact nofun
    · rw [acquire_of_not_pos hpos', hsettings', hfresh]
      exact nofun

/-- Both pools get a stack back. -/
theorem giveBack (h : Suffices s p p') : Suffices s p.giveBack.1 p'.giveBack.1 := by
  obtain ⟨hsettings', henough⟩ := h
  refine ⟨(use_giveBack p').trans hsettings', henough.imp_left fun ⟨hsettings, hpooled⟩ => ?_⟩
  refine ⟨(use_giveBack p).trans hsettings, ?_⟩
  simp only [StackPool.giveBack, hsettings, hsettings']
  split <;> split <;> omega

end StackPool.Suffices

namespace Rerun

variable {σ : Rerun} {rest : Comp Content → Comp Content → Prop} {m m' : Machine Content}

/-! ### Lists of what is held -/

theorem MapsOwneds.holdings {os os' : List Owned} (h : σ.MapsOwneds os os') :
    σ.MapsHoldings (os.map .asset) (os'.map .asset) :=
  List.forall₂_map_left_iff.mpr (List.forall₂_map_right_iff.mpr (h.imp fun _ _ ho => .asset ho))

theorem MapsHolding.of_installation {i i' : InstallationId} (h : σ.MapsInstallation i i') :
    σ.MapsHolding (.installation i) (.installation i') := .installation (.inr h)

theorem MapsSegment.owned {s s' : Segment} (h : σ.MapsSegment s s') :
    σ.MapsHoldings s.owned s'.owned :=
  .cons (.of_installation h.top) (.cons (.of_installation h.lowest) .nil)

theorem MapsCont.owned {k k' : Cont Content} (h : σ.MapsCont rest k k') :
    σ.MapsHoldings k.owned k'.owned := by
  cases h with
  | captured answer hf hs he => exact .cons (.fiber hf) hs.owned
  | function answer hf harg =>
    exact MapsOwneds.holdings
      (List.rel_append (forall₂_getD (fun _ _ hv => hv.owned) harg) hf.owned)

theorem MapsCont.answer {k k' : Cont Content} (h : σ.MapsCont rest k k') : k'.answer = k.answer := by
  cases h <;> rfl

/-- What is kept alive is the same. -/
theorem mapsHoldings_keep {keep keep' : Option InstallationId}
    (h : Option.Rel σ.MapsInstallation keep keep') :
    σ.MapsHoldings (keep.map Holding.installation).toList (keep'.map Holding.installation).toList := by
  cases h with
  | none => exact .nil
  | some hi => exact .cons (.of_installation hi) .nil

theorem MapsStack.owned {base : Role} {spot : Spot} {S S' : List (Activation Content)}
    (h : σ.MapsStack rest base spot S S') :
    σ.MapsHoldings (S.flatMap Activation.owned) (S'.flatMap Activation.owned) := by
  induction h with
  | nil => exact .nil
  | bind _ _ ih | looping _ _ _ ih | stepping _ ih | calling _ _ ih | start _ _ ih =>
    simpa only [List.flatMap_cons, Activation.owned, List.nil_append] using ih
  | owning _ ho _ ih => exact List.rel_append ho.holdings ih
  | driving hi hf _ ih => exact .cons (.fiber hf) (.cons (.of_installation hi) ih)
  | clause _ hkeep _ ih => exact List.rel_append (mapsHoldings_keep hkeep) ih
  | returning _ hi _ ih => exact .cons (.of_installation hi) (.cons (.of_installation hi) ih)
  | sending _ _ hi he _ ih => exact .cons (.exchange he) (.cons (.of_installation hi) ih)

/-- What an installation lets go when it is freed. -/
theorem MapsInstalled.owned {a a' : Installation}
    (h : σ.MapsInstalled a a') :
    σ.MapsHoldings ((a.below.map Holding.installation).toList ++ [.asset (.cell a.handler)])
      ((a'.below.map Holding.installation).toList ++ [.asset (.cell a'.handler)]) := by
  refine List.rel_append ?_ (.cons (.asset (.cell h.handler)) .nil)
  have hbelow := h.below
  generalize a.below = b at hbelow
  generalize a'.below = b' at hbelow
  cases hbelow with
  | none => exact .nil
  | some hi => exact .cons (.installation hi) .nil

/-! ### Tables -/

namespace MapsTables

theorem release (h : σ.MapsTables rest m m') {hs hs' : List Holding} (hhs : σ.MapsHoldings hs hs') :
    σ.MapsTables rest (m.release hs) (m'.release hs') :=
  { h with releasing := List.rel_append hhs h.releasing }

theorem discard (h : σ.MapsTables rest m m') {os os' : List Owned} (hos : σ.MapsOwneds os os') :
    σ.MapsTables rest (m.discard os) (m'.discard os') := h.release hos.holdings

/-- Events other than texts do not matter. -/
theorem record (h : σ.MapsTables rest m m') {e e' : Event} (he : ∀ s, e ≠ .text s)
    (he' : ∀ s, e' ≠ .text s) : σ.MapsTables rest (m.record e) (m'.record e') :=
  { h with
    texts := by
      obtain ⟨ts, hts, hts'⟩ := h.texts
      have hskip : ∀ (m : Machine Content) (e : Event), (∀ s, e ≠ .text s) →
          (m.record e).texts = m.texts := by
        intro m e he
        cases e with
        | text s => exact absurd rfl (he s)
        | _ => rfl
      exact ⟨ts, (hskip m e he).trans hts, (hskip m' e' he').trans hts'⟩ }

theorem trace (h : σ.MapsTables rest m m') (e e' : TraceEvent) :
    σ.MapsTables rest (m.trace e) (m'.trace e') := h.record nofun nofun

theorem recordSame (h : σ.MapsTables rest m m') (e : Event) :
    σ.MapsTables rest (m.record e) (m'.record e) := by
  cases e with
  | text s =>
    exact { h with
      texts := by
        obtain ⟨ts, hts, hts'⟩ := h.texts
        exact ⟨s :: ts, congrArg (s :: ·) hts, congrArg (s :: ·) hts'⟩ }
  | _ => exact h.record nofun nofun

/-- The cells that belong to the thread are not among those that code has made. -/
theorem cell_ne_kept {c c' k : CellId} (hc : Later firstCell σ.cells c c') (hk : k < firstCell) :
    k ≠ c ∧ k ≠ c' := by
  obtain ⟨hc, rfl⟩ := hc
  have hlt : k < c := Nat.lt_of_lt_of_le hk hc
  exact ⟨Nat.ne_of_lt hlt, Nat.ne_of_lt (Nat.lt_of_lt_of_le hlt (Nat.le_add_right _ _))⟩

/-- A cell that code has made changes. -/
theorem changeCell (h : σ.MapsTables rest m m') {c c' : CellId} (hc : Later firstCell σ.cells c c')
    {cells cells' : Store (Shared Content)} (hcells : MapsStore firstCell σ.cells σ.MapsShared cells cells')
    (hsame : ∀ k, k ≠ c → cells.find? k = m.cells.find? k)
    (hsame' : ∀ k, k ≠ c' → cells'.find? k = m'.cells.find? k) :
    σ.MapsTables rest { m with cells } { m' with cells := cells' } :=
  { h with
    cells := hcells
    noCell := (hsame 0 (cell_ne_kept hc (Nat.succ_pos _)).1).trans h.noCell
    noCell' := (hsame' 0 (cell_ne_kept hc (Nat.succ_pos _)).2).trans h.noCell'
    kept := fun k hk => by
      obtain ⟨hpos, hlt, hrel⟩ := h.kept k hk
      refine ⟨hpos, hlt, ?_⟩
      simp only [Machine.contents, hsame k (cell_ne_kept hc hlt).1, hsame' k (cell_ne_kept hc hlt).2]
      exact hrel
    others := fun k hpos hlt hk =>
      (hsame' k (cell_ne_kept hc hlt).2).trans (h.others k hpos hlt hk) }

theorem releaseCell (h : σ.MapsTables rest m m') (hm : m.cells.WellFormed)
    (hm' : m'.cells.WellFormed) {c c' : CellId} (hc : σ.MapsCell c c') :
    σ.MapsTables rest (m.releaseCell c) (m'.releaseCell c') := by
  rcases hc with ⟨rfl, rfl⟩ | hc
  · simpa only [Machine.releaseCell, h.noCell, h.noCell'] using h
  · cases hy : m.cells.find? c with
    | none => simpa only [Machine.releaseCell, hy, h.cells.find?_eq_none hc hy] using h
    | some y =>
      obtain ⟨y', hy', hshared⟩ := h.cells.exists_find? hc hy
      simp only [Machine.releaseCell, hy, hy', hshared.shares]
      split
      · refine (h.changeCell hc (h.cells.erase hm hm' hc) (fun k hk => ?_) fun k hk => ?_).discard
          hshared.content.owned
        · rw [Store.find?_erase hm, if_neg hk]
        · rw [Store.find?_erase hm', if_neg hk]
      · refine h.changeCell hc (h.cells.modify hc fun hab => ⟨hab.content, ?_⟩) (fun k hk => ?_)
          fun k hk => ?_
        · exact congrArg (· - 1) hab.shares
        · rw [Store.find?_modify, if_neg hk]
        · rw [Store.find?_modify, if_neg hk]

/-- Installations of the code change. -/
theorem changeInstallations (h : σ.MapsTables rest m m') {s s' : Store Installation}
    (hs : MapsStore 1 σ.installations σ.MapsInstalled s s')
    (hsame : s.find? 0 = m.chain.installations.find? 0)
    (hsame' : s'.find? 0 = m'.chain.installations.find? 0) :
    σ.MapsTables rest { m with chain := { m.chain with installations := s } }
      { m' with chain := { m'.chain with installations := s' } } :=
  { h with
    chain := { h.chain with
      installations := hs
      bottom := hsame.trans h.chain.bottom
      bottom' := hsame'.trans h.chain.bottom' } }

/-- The bottom is not among the installations of the code. -/
theorem place_ne_bottom {i i' : InstallationId} (hi : σ.MapsInstallation i i') : 0 ≠ i ∧ 0 ≠ i' := by
  obtain ⟨hpos, rfl⟩ := hi
  exact ⟨Nat.ne_of_lt hpos, Nat.ne_of_lt (Nat.lt_of_lt_of_le hpos (Nat.le_add_right _ _))⟩

/-- An installation of the code changes. -/
theorem modifyInstallation (h : σ.MapsTables rest m m') {i i' : InstallationId}
    (hi : σ.MapsInstallation i i') {f f' : Installation → Installation}
    (hf : ∀ {a a'}, σ.MapsInstalled a a' → σ.MapsInstalled (f a) (f' a')) :
    σ.MapsTables rest { m with chain := m.chain.modify i f }
      { m' with chain := m'.chain.modify i' f' } :=
  h.changeInstallations (h.chain.installations.modify hi hf)
    (by rw [Store.find?_modify, if_neg (place_ne_bottom hi).1])
    (by rw [Store.find?_modify, if_neg (place_ne_bottom hi).2])

theorem releaseInstallation (h : σ.MapsTables rest m m') (hm : m.Filed) (hm' : m'.Filed)
    {i i' : InstallationId} (hi : σ.MapsInstallation i i') :
    σ.MapsTables rest (m.releaseInstallation i) (m'.releaseInstallation i') := by
  cases ha : m.chain.installations.find? i with
  | none =>
    simpa only [Machine.releaseInstallation, ha, h.chain.installations.find?_eq_none hi ha] using h
  | some a =>
    obtain ⟨a', ha', hinstalled⟩ := h.chain.installations.exists_find? hi ha
    simp only [Machine.releaseInstallation, ha, ha', hinstalled.shares]
    split
    · refine (h.changeInstallations (h.chain.installations.erase hm.installations hm'.installations hi)
        ?_ ?_).release hinstalled.owned
      · rw [Store.find?_erase hm.installations, if_neg (place_ne_bottom hi).1]
      · rw [Store.find?_erase hm'.installations, if_neg (place_ne_bottom hi).2]
    · exact h.modifyInstallation hi fun ha => { ha with shares := congrArg (· - 1) ha.shares }

theorem releaseAsset (h : σ.MapsTables rest m m') (hm : m.Filed) (hm' : m'.Filed) {o o' : Owned}
    (ho : σ.MapsOwned o o') : σ.MapsTables rest (m.releaseAsset o) (m'.releaseAsset o') := by
  cases ho with
  | cell hc => exact h.releaseCell hm.cells hm'.cells hc
  | @reference r r' hr =>
    cases hi : m.references.find? r with
    | none => simpa only [Machine.releaseAsset, hi, h.references.find?_eq_none hr hi] using h
    | some i =>
      obtain ⟨i', hi', hmaps⟩ := h.references.exists_find? hr hi
      simp only [Machine.releaseAsset, hi, hi']
      refine release ?_ (.cons (.of_installation hmaps) .nil)
      exact { h with references := h.references.erase hm.references hm'.references hr }
  | @closure f f' hf =>
    cases hx : m.closures.find? f with
    | none => simpa only [Machine.releaseAsset, hx, h.closures.find?_eq_none hf hx] using h
    | some x =>
      obtain ⟨x', hx', hmaps⟩ := h.closures.exists_find? hf hx
      simp only [Machine.releaseAsset, hx, hx']
      refine discard ?_ hmaps.owned
      exact { h with closures := h.closures.erase hm.closures hm'.closures hf }
  | @resumption r r' hr =>
    cases hk : m.resumptions.find? r with
    | none => simpa only [Machine.releaseAsset, hk, h.resumptions.find?_eq_none hr hk] using h
    | some k =>
      obtain ⟨k', hk', hmaps⟩ := h.resumptions.exists_find? hr hk
      simp only [Machine.releaseAsset, hk, hk']
      refine release (trace ?_ _ _) hmaps.owned
      exact { h with resumptions := h.resumptions.erase hm.resumptions hm'.resumptions hr }
  | notice n => exact h.recordSame n.event

theorem releaseOne (h : σ.MapsTables rest m m') (hm : m.Filed) (hm' : m'.Filed) {x x' : Holding}
    (hx : σ.MapsHolding x x') (hbottom : x ≠ .installation 0) :
    σ.MapsTables rest (m.releaseOne x) (m'.releaseOne x') := by
  cases hx with
  | asset ho => exact h.releaseAsset hm hm' ho
  | installation hi =>
    rcases hi with ⟨rfl, -⟩ | hi
    · exact absurd rfl hbottom
    · exact h.releaseInstallation hm hm' hi
  | @fiber f f' hf =>
    cases hS : m.fibers.parked.find? f with
    | none =>
      simpa only [Machine.releaseOne, Fibers.drop?, hS, h.parked.find?_eq_none hf hS,
        Option.map_none] using h
    | some S =>
      obtain ⟨S', hS', spot, -, hmaps⟩ := h.parked.exists_find? hf hS
      simp only [Machine.releaseOne, Fibers.drop?, hS, hS', Option.map_some]
      refine release ?_ hmaps.owned
      exact { h with parked := h.parked.erase hm.parked hm'.parked hf }
  | @exchange e e' he =>
    cases hy : m.exchanges.find? e with
    | none => simpa only [Machine.releaseOne, hy, h.exchanges.find?_eq_none he hy] using h
    | some y =>
      obtain ⟨y', hy', hmaps⟩ := h.exchanges.exists_find? he hy
      simp only [Machine.releaseOne, hy, hy']
      refine discard ?_ (List.rel_append (forall₂_getD (fun _ _ hc => hc.owned) hmaps.command)
        (forall₂_getD (fun _ _ hv => hv.owned) hmaps.result))
      exact { h with exchanges := h.exchanges.erase hm.exchanges hm'.exchanges he }

/-! ### Cells -/

/-- Code reads the same. -/
theorem content (h : σ.MapsTables rest m m') {c c' : CellId} (hc : σ.MapsAccess c c') :
    σ.MapsContent (m.content c) (m'.content c') := by
  have hread : ∀ {y : Option Content} {y' : Option Content}, Option.Rel σ.MapsContent y y' →
      σ.MapsContent (y.getD default) (y'.getD default) := by
    rintro _ _ (hx | _)
    · exact hx
    · exact .value .unit
  change σ.MapsContent ((m.contents c).getD default) ((m'.contents c').getD default)
  refine hread ?_
  rcases hc with (⟨rfl, rfl⟩ | hc) | ⟨hkept, rfl⟩
  · simpa only [Machine.contents, h.noCell, h.noCell'] using .none
  · cases hy : m.cells.find? c with
    | none => simpa only [Machine.contents, hy, h.cells.find?_eq_none hc hy] using .none
    | some y =>
      obtain ⟨y', hy', hshared⟩ := h.cells.exists_find? hc hy
      simpa only [Machine.contents, hy, hy'] using .some hshared.content
  · obtain ⟨-, -, x, x', hx, hx', hmaps⟩ := h.kept c' hkept
    rw [hx, hx']
    exact .some hmaps

/-- Cells change in the same way. -/
theorem changeShared (h : σ.MapsTables rest m m') {c c' : CellId} (hc : σ.MapsCell c c')
    {f f' : Shared Content → Shared Content}
    (hf : ∀ {y y'}, σ.MapsShared y y' → σ.MapsShared (f y) (f' y')) :
    σ.MapsTables rest { m with cells := m.cells.modify c f }
      { m' with cells := m'.cells.modify c' f' } := by
  rcases hc with ⟨rfl, rfl⟩ | hc
  · rw [Store.modify_of_find?_eq_none f h.noCell, Store.modify_of_find?_eq_none f' h.noCell']
    exact h
  · refine h.changeCell hc (h.cells.modify hc hf) (fun k hk => ?_) fun k hk => ?_
    · rw [Store.find?_modify, if_neg hk]
    · rw [Store.find?_modify, if_neg hk]

/-- Code writes the same. -/
theorem writeContent (h : σ.MapsTables rest m m') {c c' : CellId} (hc : σ.MapsAccess c c')
    {x x' : Content} (hx : σ.MapsContent x x') :
    σ.MapsTables rest { m with cells := m.cells.modify c fun y => { y with content := x } }
      { m' with cells := m'.cells.modify c' fun y => { y with content := x' } } := by
  rcases hc with hc | ⟨hkept, rfl⟩
  · exact h.changeShared hc fun hy => { hy with content := hx }
  obtain ⟨hpos, hlt, -⟩ := h.kept c' hkept
  have hlater : ∀ k, firstCell ≤ k → k ≠ c' := fun k hk heq => Nat.not_lt.mpr (heq ▸ hk) hlt
  exact { h with
    cells :=
      { start := h.cells.start
        next := h.cells.next
        entries := fun k hk => by
          rw [Store.find?_modify, Store.find?_modify, if_neg (hlater k hk),
            if_neg (hlater _ (Nat.le_trans hk (Nat.le_add_right _ _)))]
          exact h.cells.entries k hk }
    noCell := by rw [Store.find?_modify, if_neg (Nat.ne_of_lt hpos), h.noCell]
    noCell' := by rw [Store.find?_modify, if_neg (Nat.ne_of_lt hpos), h.noCell']
    kept := fun k hk => by
      obtain ⟨hk₀, hk₁, y, y', hy, hy', hmaps⟩ := h.kept k hk
      refine ⟨hk₀, hk₁, ?_⟩
      simp only [Machine.contents, Store.find?_modify] at hy hy' ⊢
      by_cases heq : k = c'
      · obtain ⟨z, hz, -⟩ := Option.map_eq_some_iff.mp hy
        obtain ⟨z', hz', -⟩ := Option.map_eq_some_iff.mp hy'
        exact ⟨x, x', by simp [heq ▸ hz, heq], by simp [heq ▸ hz', heq], hx⟩
      · exact ⟨y, y', by rwa [if_neg heq], by rwa [if_neg heq], hmaps⟩
    others := fun k hk₀ hk₁ hk => by
      have hne : k ≠ c' := fun heq => hk (heq ▸ hkept)
      rw [Store.find?_modify, if_neg hne]
      exact h.others k hk₀ hk₁ hk }

/-- Code makes the same cell. -/
theorem alloc (h : σ.MapsTables rest m m') {x x' : Content} (hx : σ.MapsContent x x') :
    σ.MapsTables rest { m with cells := (m.cells.insert ⟨x, 1⟩).2 }
      { m' with cells := (m'.cells.insert ⟨x', 1⟩).2 } := by
  refine h.changeCell h.cells.later (h.cells.insert ⟨hx, rfl⟩) (fun k hk => ?_) fun k hk => ?_
  · rw [Store.find?_insert, if_neg hk]
  · rw [Store.find?_insert, if_neg hk]

/-- Code gets a share of the same. -/
theorem retain (h : σ.MapsTables rest m m') {o o' : Owned} (ho : σ.MapsOwned o o') :
    σ.MapsTables rest (m.retain o) (m'.retain o') := by
  cases ho with
  | cell hc => exact h.changeShared hc fun hy => { hy with shares := congrArg (· + 1) hy.shares }
  | _ => exact h

/-! ### Stacks -/

/-- The second thread has a stack where the first one has one. -/
theorem changePool (h : σ.MapsTables rest m m') {p p' : StackPool}
    (hpool : StackPool.Suffices σ.settings p p') :
    σ.MapsTables rest { m with pool := p } { m' with pool := p' } := { h with pool := hpool }

theorem warn (h : σ.MapsTables rest m m') (ws ws' : List SettingsWarning) :
    σ.MapsTables rest (m.warn ws) (m'.warn ws') := by
  obtain ⟨journal, hwarn⟩ := m.exists_warn_eq ws
  obtain ⟨journal', hwarn'⟩ := m'.exists_warn_eq ws'
  have hsame := m.texts_warn ws
  have hsame' := m'.texts_warn ws'
  rw [hwarn] at hsame ⊢
  rw [hwarn'] at hsame' ⊢
  exact { h with
    texts := by
      rw [hsame, hsame']
      exact h.texts }

end MapsTables

end Rerun

end EffectHandlers

/-!
## Chains abreast

Two chains that are the same under other numbers are read alike: the same is found on both, and
cutting, putting back, pushing and taking off keeps them the same.
-/

namespace EffectHandlers.Rerun

variable {σ : Rerun} {c c' : Chain} {i i' : InstallationId} {is is' : List InstallationId}

theorem MapsPlace.installation (h : σ.MapsPlace i i') (hi : i ≠ 0) : σ.MapsInstallation i i' :=
  h.resolve_left fun hzero => hi hzero.1

theorem MapsInstallation.ne_zero (h : σ.MapsInstallation i i') : i ≠ 0 ∧ i' ≠ 0 :=
  ⟨(MapsTables.place_ne_bottom h).1.symm, (MapsTables.place_ne_bottom h).2.symm⟩

namespace MapsChain

/-- An installation of the code is there in both chains, or was freed in both. -/
theorem get (h : σ.MapsChain c c') (hi : σ.MapsInstallation i i') :
    σ.MapsInstalled (c.get i) (c'.get i') ∨
      c.get i = Installation.bottom ∧ c'.get i' = Installation.bottom := by
  cases ha : c.installations.find? i with
  | none =>
    have ha' := h.installations.find?_eq_none hi ha
    exact .inr ⟨by simp [Chain.get, ha], by simp [Chain.get, ha']⟩
  | some a =>
    obtain ⟨a', ha', hmaps⟩ := h.installations.exists_find? hi ha
    exact .inl (by simpa [Chain.get, ha, ha'] using hmaps)

theorem get_zero (h : σ.MapsChain c c') :
    c.get 0 = Installation.bottom ∧ c'.get 0 = Installation.bottom := by
  simp [Chain.get, h.bottom, h.bottom']

/-- Something is below in both chains or in neither, and it is the same. -/
theorem below (h : σ.MapsChain c c') (hi : σ.MapsPlace i i') :
    Option.Rel σ.MapsPlace (c.get i).below (c'.get i').below := by
  rcases hi with ⟨rfl, rfl⟩ | hi
  · rw [h.get_zero.1, h.get_zero.2]
    exact .none
  · rcases h.get hi with hmaps | ⟨hbottom, hbottom'⟩
    · exact hmaps.below
    · rw [hbottom, hbottom']
      exact .none

theorem linked {s s' : Option InstallationId} (h : σ.MapsChain c c')
    (hs : Option.Rel σ.MapsPlace s s') (hlinked : c.Linked s is (some 0))
    (hlinked' : c'.Linked s' is' (some 0)) (hzero : 0 ∉ is) (hzero' : 0 ∉ is') :
    List.Forall₂ σ.MapsInstallation is is' := by
  induction is generalizing s s' is' with
  | nil =>
    obtain rfl : s = some 0 := hlinked
    cases hs with
    | @some _ j hj =>
      obtain rfl : j = 0 := (hj.resolve_right fun hi => hi.ne_zero.1 rfl).2
      cases is' with
      | nil => exact .nil
      | cons k ks => exact absurd (Option.some.inj hlinked'.1 ▸ List.mem_cons_self) hzero'
  | cons k ks ih =>
    obtain ⟨rfl, hrest⟩ := hlinked
    cases hs with
    | @some _ j hj =>
      have hk : σ.MapsInstallation k j :=
        hj.installation fun hk => hzero (hk ▸ List.mem_cons_self)
      cases is' with
      | nil => exact absurd (Option.some.inj hlinked') hk.ne_zero.2
      | cons k' ks' =>
        obtain ⟨hk', hrest'⟩ := hlinked'
        obtain rfl := Option.some.inj hk'
        exact .cons hk (ih (h.below (.inr hk)) hrest hrest'
          (fun hmem => hzero (List.mem_cons_of_mem _ hmem))
          fun hmem => hzero' (List.mem_cons_of_mem _ hmem))

/-- The same installations are live. -/
theorem live (h : σ.MapsChain c c') (hr : c.Reads is) (hr' : c'.Reads is') :
    List.Forall₂ σ.MapsInstallation is is' :=
  h.linked (.some h.top) hr.linked hr'.linked (fun hz => hr.ne_zero hz rfl)
    fun hz => hr'.ne_zero hz rfl

/-! ### Searches -/

/-- Searches for the same find the same. -/
theorem search (h : σ.MapsChain c c') (hr : c.Reads is) (hr' : c'.Reads is')
    {p q : InstallationId → Installation → Bool}
    (hp : ∀ i i', σ.MapsInstallation i i' → p i (c.get i) = q i' (c'.get i')) :
    Option.Rel σ.MapsInstallation (c.search? p) (c'.search? q) := by
  rw [hr.search?_eq, hr'.search?_eq]
  have hlive := h.live hr hr'
  clear hr hr'
  induction hlive with
  | nil => exact .none
  | cons hi _ ih =>
    simp only [List.find?_cons, hp _ _ hi]
    split
    · exact .some hi
    · exact ih

theorem isLive (h : σ.MapsChain c c') (hr : c.Reads is) (hr' : c'.Reads is')
    (hi : σ.MapsInstallation i i') : c'.isLive i' = c.isLive i := by
  have hsearch := h.search hr hr' (p := fun n _ => n == i) (q := fun n _ => n == i')
    fun j j' hj => by
      rw [Bool.eq_iff_iff]
      simp only [beq_iff_eq, hj.eq_iff hi]
  unfold Chain.isLive
  generalize c.search? _ = x at hsearch
  generalize c'.search? _ = x' at hsearch
  cases hsearch <;> rfl

theorem clauseFor (h : σ.MapsChain c c') (hi : σ.MapsInstallation i i') (command : String) :
    (c'.get i').clauseFor? command = (c.get i).clauseFor? command := by
  rcases h.get hi with hmaps | ⟨hbottom, hbottom'⟩
  · simp only [Installation.clauseFor?, hmaps.clauses]
  · rw [hbottom, hbottom']

theorem handlerType (h : σ.MapsChain c c') (hi : σ.MapsInstallation i i') :
    (c'.get i').handlerType = (c.get i).handlerType := by
  rcases h.get hi with hmaps | ⟨hbottom, hbottom'⟩
  · exact hmaps.handlerType
  · rw [hbottom, hbottom']

theorem label (h : σ.MapsChain c c') (hi : σ.MapsInstallation i i') :
    σ.MapsLabel (c.get i).label (c'.get i').label := by
  rcases h.get hi with hmaps | ⟨hbottom, hbottom'⟩
  · exact hmaps.label
  · rw [hbottom, hbottom']
    exact .inr (.inl ⟨rfl, rfl⟩)

theorem findLabel (h : σ.MapsChain c c') (hr : c.Reads is) (hr' : c'.Reads is') {l l' : Int}
    (hl : σ.MapsLabel l l') :
    Option.Rel σ.MapsInstallation (c.findLabel? l) (c'.findLabel? l') := by
  have hreserved : (l' == bottomLabel || l' == retiredLabel) =
      (l == bottomLabel || l == retiredLabel) := by
    rw [Bool.eq_iff_iff]
    simp only [Bool.or_eq_true, beq_iff_eq, hl.eq_bottom, hl.eq_retired]
  unfold Chain.findLabel?
  rw [hreserved]
  split
  · exact .none
  · refine h.search hr hr' fun i i' hi => ?_
    rw [Bool.eq_iff_iff]
    simp only [beq_iff_eq, (h.label hi).eq_iff hl]

/-- A command that is sent to a clause of one chain is sent to the same clause of the other. -/
theorem dispatch (h : σ.MapsChain c c') (hr : c.Reads is) (hr' : c'.Reads is')
    {referent : ReferenceId → InstallationId} (referent' : ReferenceId → InstallationId)
    {command : String} {t t' : Target} (ht : σ.MapsTarget t t') {position : Nat}
    (hfound : c.dispatch referent command t = .ok (i, position)) :
    ∃ i', c'.dispatch referent' command t' = .ok (i', position) ∧ σ.MapsInstallation i i' := by
  have hposition : ∀ {j j'}, σ.MapsInstallation j j' →
      c.clausePosition command j = .ok (i, position) →
      ∃ i', c'.clausePosition command j' = .ok (i', position) ∧ σ.MapsInstallation i i' := by
    intro j j' hj hfound
    unfold Chain.clausePosition at hfound ⊢
    rw [h.clauseFor hj]
    split at hfound
    · rename_i entry hentry
      obtain ⟨rfl, rfl⟩ := Prod.mk.inj (Except.ok.inj hfound)
      exact ⟨j', rfl, hj⟩
    · cases hfound
  have hlocate : ∀ {l l' j}, σ.MapsLabel l l' → c.locateLabel l command = .ok j →
      ∃ j', c'.locateLabel l' command = .ok j' ∧ σ.MapsInstallation j j' := by
    intro l l' j hl hj
    have hlabel := h.findLabel hr hr' hl
    unfold Chain.locateLabel at hj ⊢
    cases hx : c.findLabel? l with
    | none =>
      rw [hx] at hj
      cases hj
    | some k =>
      rw [hx] at hj hlabel
      obtain rfl := Except.ok.inj hj
      generalize c'.findLabel? l' = x' at hlabel
      cases hlabel with
      | @some _ k' hk => exact ⟨k', rfl, hk⟩
  cases ht with
  | innermost =>
    have hsearch := h.search hr hr' (p := fun _ i => (i.clauseFor? command).isSome)
      (q := fun _ i => (i.clauseFor? command).isSome) fun j j' hj => by rw [h.clauseFor hj]
    unfold Chain.dispatch Chain.findCommand? at hfound ⊢
    generalize c.search? _ = x at hsearch hfound
    generalize c'.search? _ = x' at hsearch ⊢
    cases hsearch with
    | none => cases hfound
    | @some j j' hj =>
      simp only [Option.bind_eq_bind, Option.bind_some, h.clauseFor hj] at hfound ⊢
      cases hentry : (c.get j).clauseFor? command with
      | none =>
        rw [hentry] at hfound
        cases hfound
      | some entry =>
        rw [hentry] at hfound
        obtain ⟨rfl, rfl⟩ := Prod.mk.inj (Except.ok.inj hfound)
        exact ⟨j', rfl, hj⟩
  | labelled hl =>
    simp only [Chain.dispatch, bind, Except.bind] at hfound ⊢
    split at hfound
    · cases hfound
    · rename_i j hj
      obtain ⟨j', hj', hmaps⟩ := hlocate hl hj
      rw [hj']
      exact hposition hmaps hfound
  | labelledOfType t hl =>
    simp only [Chain.dispatch, bind, Except.bind] at hfound ⊢
    split at hfound
    · cases hfound
    · rename_i j hj
      obtain ⟨j', hj', hmaps⟩ := hlocate hl hj
      rw [hj']
      simp only [Chain.expectType, h.handlerType hmaps] at hfound ⊢
      split at hfound
      · cases hfound
      · rename_i k hk
        split at hk
        · rename_i htype
          obtain rfl := Except.ok.inj hk
          rw [if_pos htype]
          exact hposition hmaps hfound
        · cases hk

/-! ### Changes -/

/-- Relinking an installation of the code, with something else on top. -/
theorem relink (h : σ.MapsChain c c') (hi : σ.MapsInstallation i i')
    {b b' : Option InstallationId} (hb : Option.Rel σ.MapsPlace b b') {top top' : InstallationId}
    (htop : σ.MapsPlace top top') :
    σ.MapsChain { c.modify i fun a => { a with below := b } with top }
      { c'.modify i' fun a => { a with below := b' } with top := top' } :=
  { h with
    top := htop
    installations := h.installations.modify hi fun ha => { ha with below := hb }
    bottom := by
      show (c.installations.modify i _).find? 0 = _
      rw [Store.find?_modify, if_neg hi.ne_zero.1.symm, h.bottom]
    bottom' := by
      show (c'.installations.modify i' _).find? 0 = _
      rw [Store.find?_modify, if_neg hi.ne_zero.2.symm, h.bottom'] }

theorem push (h : σ.MapsChain c c') (hi : σ.MapsInstallation i i') :
    σ.MapsChain (c.push i) (c'.push i') := h.relink hi (.some h.top) (.inr hi)

theorem create (h : σ.MapsChain c c') {a b : Installation} (hab : σ.MapsInstalled a b) :
    σ.MapsChain (c.create a).2 (c'.create b).2 :=
  { h with
    installations := h.installations.insert hab
    bottom := by
      rw [Chain.create, Store.find?_insert, if_neg, h.bottom]
      exact (MapsInstallation.ne_zero h.installations.later).1.symm
    bottom' := by
      rw [Chain.create, Store.find?_insert, if_neg, h.bottom']
      exact (MapsInstallation.ne_zero h.installations.later).2.symm }

theorem splice (h : σ.MapsChain c c') {s s' : Segment} (hs : σ.MapsSegment s s') :
    σ.MapsChain (c.splice s) (c'.splice s') :=
  h.relink hs.lowest (.some h.top) (.inr hs.top)

/-- A segment that is cut off one chain is cut off the other. -/
theorem split (h : σ.MapsChain c c') (hr : c.Reads is) (hr' : c'.Reads is')
    (hi : σ.MapsInstallation i i') {s : Segment} {d : Chain} (hsplit : c.split i = .ok (s, d)) :
    ∃ s' d', c'.split i' = .ok (s', d') ∧ σ.MapsSegment s s' ∧ σ.MapsChain d d' := by
  have hbelow := h.below (.inr hi)
  unfold Chain.split at hsplit ⊢
  rw [h.isLive hr hr' hi]
  split at hsplit
  · rename_i hlive
    rw [if_pos hlive]
    generalize (c.get i).below = b at hbelow hsplit
    generalize (c'.get i').below = b' at hbelow ⊢
    cases hbelow with
    | none => cases hsplit
    | @some b b' hb =>
      obtain ⟨rfl, rfl⟩ := Prod.mk.inj (Except.ok.inj hsplit)
      refine ⟨_, _, rfl, ⟨h.top.installation fun hzero => ?_, hi⟩, h.relink hi .none hb⟩
      -- with the bottom on top, nothing is live
      have hempty : is = [] := by
        cases is with
        | nil => rfl
        | cons k ks =>
          obtain ⟨hk, -⟩ := hr.linked
          exact absurd ((Option.some.inj hk).symm.trans hzero) (hr.ne_zero List.mem_cons_self)
      rw [hr.isLive_iff, hempty] at hlive
      cases hlive
  · cases hsplit

theorem pop (h : σ.MapsChain c c') {d : Chain} (hpop : c.pop? = some (i, d)) :
    ∃ i' d', c'.pop? = some (i', d') ∧ σ.MapsInstallation i i' ∧ σ.MapsChain d d' := by
  have hbelow := h.below h.top
  unfold Chain.pop? at hpop ⊢
  have htop : c.top ≠ 0 := by
    intro hzero
    rw [hzero, h.get_zero.1] at hpop
    cases hpop
  generalize (c.get c.top).below = b at hbelow hpop
  generalize (c'.get c'.top).below = b' at hbelow ⊢
  cases hbelow with
  | none => cases hpop
  | @some b b' hb =>
    obtain ⟨rfl, rfl⟩ := Prod.mk.inj (Option.some.inj hpop)
    have htop' := h.top.installation htop
    exact ⟨_, _, rfl, htop', h.relink htop' .none hb⟩

/-- What was taken off is there in both chains. -/
theorem popped {d d' : Chain} (h : σ.MapsChain d d') (hpop : c.pop? = some (i, d))
    (hi : σ.MapsInstallation i i') : σ.MapsInstalled (d.get i) (d'.get i') := by
  obtain ⟨b, hb, hpair⟩ := Option.map_eq_some_iff.mp hpop
  obtain ⟨rfl, rfl⟩ := Prod.mk.inj hpair
  obtain ⟨a, ha⟩ : ∃ a, c.installations.find? c.top = some a := by
    cases ha : c.installations.find? c.top with
    | none => simp [Chain.get, ha, Installation.bottom] at hb
    | some a => exact ⟨a, rfl⟩
  have hfound : (c.installations.modify c.top fun a => { a with below := none }).find? c.top =
      some { a with below := none } := by simp [Store.find?_modify, ha]
  obtain ⟨a', ha', hmaps⟩ := h.installations.exists_find? hi hfound
  simpa only [Chain.get, Chain.modify, hfound, ha', Option.getD_some] using hmaps

theorem retire (h : σ.MapsChain c c') (hi : σ.MapsInstallation i i') :
    σ.MapsChain (c.retire i) (c'.retire i') :=
  { h with
    installations := h.installations.modify hi fun ha =>
      { ha with label := .inr (.inr ⟨rfl, rfl⟩) }
    bottom := by
      show (c.installations.modify i _).find? 0 = _
      rw [Store.find?_modify, if_neg hi.ne_zero.1.symm, h.bottom]
    bottom' := by
      show (c'.installations.modify i' _).find? 0 = _
      rw [Store.find?_modify, if_neg hi.ne_zero.2.symm, h.bottom'] }

/-- A label is handed out by both chains. -/
theorem freshLabel (h : σ.MapsChain c c')
    (hword : σ.labels ≠ 0 → retiredLabel ≤ c'.freshLabel.2.nextLabel) :
    σ.MapsLabel c.freshLabel.1 c'.freshLabel.1 ∧ σ.MapsChain c.freshLabel.2 c'.freshLabel.2 := by
  have hnext := h.nextLabel
  have hunissued := h.unissued
  simp only [Chain.freshLabel] at hword ⊢
  refine ⟨.inl ⟨hunissued, fun hlabels => ?_, hnext⟩, { h with unissued := ?_, nextLabel := ?_ }⟩
  · have := hword hlabels
    omega
  · show c.nextLabel - 1 < 0
    omega
  · show c'.nextLabel - 1 = c.nextLabel - 1 - σ.labels
    omega

/-- A label that can be chosen for an installation of one chain can be chosen for the other. -/
theorem checkLabel (h : σ.MapsChain c c') {l l' : Int} (hl : σ.MapsLabel l l')
    (hcheck : c.checkLabel l = .ok ()) : c'.checkLabel l' = .ok () := by
  have hnext := h.nextLabel
  unfold Chain.checkLabel at hcheck ⊢
  rw [show (l' == bottomLabel || l' == retiredLabel) = (l == bottomLabel || l == retiredLabel) by
    rw [Bool.eq_iff_iff]
    simp only [Bool.or_eq_true, beq_iff_eq, hl.eq_bottom, hl.eq_retired]]
  split at hcheck
  · cases hcheck
  · rename_i hreserved
    split at hcheck
    · rename_i hissued
      simp only [Bool.or_eq_true, beq_iff_eq, not_or] at hreserved
      have hissued' : c'.isIssued l' = true := by
        rcases hl with ⟨hneg, hword, hl⟩ | ⟨hl, -⟩ | ⟨hl, -⟩
        · simp only [Chain.isIssued, Bool.or_eq_true, Bool.and_eq_true, decide_eq_true_eq,
            bne_iff_ne] at hissued ⊢
          omega
        · exact absurd hl hreserved.1
        · exact absurd hl hreserved.2
      rw [if_neg (by simp [hreserved]), if_pos hissued']
    · cases hcheck

end MapsChain

end EffectHandlers.Rerun
