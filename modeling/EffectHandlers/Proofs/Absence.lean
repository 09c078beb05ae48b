import EffectHandlers.Proofs.Outliving
import EffectHandlers.Proofs.Segments
/-!
# Installations that cannot be reached

Every installation that is live or in a segment is held, so it is not freed. An installation that
is off the live chain stays off it, as long as no segment that has it is put back.
-/

namespace EffectHandlers

variable {ω : Type} {Γ : Library ω} {m : Machine ω} {live : List InstallationId}
  {cuts : List (Tie × List InstallationId)} {i : InstallationId}

/-! ### What is in a list is held -/

/-- Following the links arrives at an installation from another one, unless it is the first. -/
theorem Chain.Linked.first_or_below {c : Chain} {s t : Option InstallationId}
    {is : List InstallationId} (h : c.Linked s is t) (hi : i ∈ is) :
    s = some i ∨ ∃ j ∈ is, (c.get j).below = some i := by
  induction is generalizing s with
  | nil => cases hi
  | cons k is ih =>
    obtain ⟨hs, hrest⟩ := h
    rcases List.mem_cons.mp hi with rfl | hi
    · exact .inl hs
    · rcases ih hrest hi with hk | ⟨j, hj, hbelow⟩
      · exact .inr ⟨k, List.mem_cons_self, hk⟩
      · exact .inr ⟨j, List.mem_cons_of_mem _ hj, hbelow⟩

namespace Machine

variable [Contents ω]

theorem holders_of_latent {k : Cont ω} (hk : k ∈ m.latent) {x : Holding} (hx : x ∈ k.owned) :
    0 < m.holders x := by
  have hshelved : x ∈ m.shelved := by
    obtain ⟨e, he, rfl⟩ := List.mem_map.mp (List.mem_filter.mp hk).1
    simp only [shelved, List.mem_append]
    exact .inl (.inl (.inr (List.mem_flatMap.mpr ⟨e, he, hx⟩)))
  have hcount := List.count_pos_iff.mpr hshelved
  simp only [holders]
  omega

theorem holders_of_roused {k : Cont ω} (hk : k ∈ m.roused) {x : Holding} (hx : x ∈ k.owned) :
    0 < m.holders x := by
  simp only [holders, Control.load]
  rcases List.mem_append.mp (List.mem_filter.mp hk).1 with hk | hk
  · have hcount := List.count_pos_iff.mpr (List.mem_flatMap.mpr ⟨k, hk, hx⟩)
    omega
  · have hcount := List.count_pos_iff.mpr (List.mem_flatMap.mpr ⟨k, hk, hx⟩)
    omega

/-- The top of a segment is held. -/
theorem holders_of_bonds {b : Tie × Segment} (hb : b ∈ m.bonds) :
    0 < m.holders (.installation b.2.top) := by
  have hcont : ∀ {tie : ExchangeId → Tie} {k : Cont ω}, k.bond? tie = some b →
      .installation b.2.top ∈ k.owned := by
    intro tie k hk
    cases k with
    | captured answer f s e =>
      obtain rfl := Option.some.inj hk
      simp [Cont.owned, Segment.owned]
    | function => cases hk
  rcases List.mem_append.mp hb with hb | hb
  · obtain ⟨a, ha, hab⟩ := List.mem_filterMap.mp hb
    refine holders_of_mem_posts ha ?_
    cases a with
    | inPlace j handler s e =>
      obtain rfl := Option.some.inj hab
      simp [Activation.owned, Segment.owned]
    | _ => cases hab
  · rcases List.mem_append.mp hb with hb | hb
    · obtain ⟨k, hk, hkb⟩ := List.mem_filterMap.mp hb
      exact holders_of_latent hk (hcont hkb)
    · obtain ⟨k, hk, hkb⟩ := List.mem_filterMap.mp hb
      exact holders_of_roused hk (hcont hkb)

/-- Every installation that is live or in a segment is held. -/
theorem Lays.held (h : m.Lays live cuts) (hfatal : m.control.isFatal = false)
    (hi : i ∈ live ++ (cuts.map (·.2)).flatten) : 0 < m.holders (.installation i) := by
  have hbelow : ∀ j ∈ live ++ (cuts.map (·.2)).flatten, (m.chain.get j).below = some i →
      0 < m.holders (.installation i) := by
    intro j hj hji
    obtain ⟨a, ha⟩ := Option.isSome_iff_exists.mp (h.arranged.found j hj)
    have ha' : a.below = some i := by simpa [Chain.get, ha] using hji
    have hcount := shelved_of_installation ha (x := .installation i)
      (by simp [Installation.owned, ha'])
    simp only [holders]
    omega
  rcases List.mem_append.mp hi with hi | hi
  · rcases h.arranged.linked.first_or_below hi with htop | ⟨j, hj, hji⟩
    · have hanchor : .installation i ∈ m.anchors := by
        simp [anchors, hfatal, Option.some.inj htop]
      have hcount := List.count_pos_iff.mpr hanchor
      simp only [holders]
      omega
    · exact hbelow j (List.mem_append_left _ hj) hji
  · obtain ⟨is, his, hi⟩ := List.mem_flatten.mp hi
    rcases (h.arranged.cut is his).first_or_below hi with hhead | ⟨j, hj, hji⟩
    · obtain ⟨c, hc, rfl⟩ := List.mem_map.mp his
      obtain ⟨b, hb, heq⟩ := List.mem_map.mp
        (h.bonds.mem_iff.mp (List.mem_map.mpr ⟨c, hc, rfl⟩))
      have htop : b.2.top = i := by
        have hends : some b.2.top = c.2.head? := congrArg (·.2.1) heq
        exact Option.some.inj (hends.trans hhead)
      exact htop ▸ holders_of_bonds hb
    · exact hbelow j (List.mem_append_right _ (List.mem_flatten.mpr ⟨is, his, hj⟩)) hji

/-- What is freed is in no list. -/
theorem Lays.notMem_of_frees (h : m.Lays live cuts) (hfatal : m.control.isFatal = false)
    (hspare : 0 ≤ m.spare (.installation i)) {hs : List Holding} {a : Installation}
    (hreleasing : m.releasing = .installation i :: hs)
    (ha : m.chain.installations.find? i = some a) (hlast : a.shares ≤ 1) :
    i ∉ live ++ (cuts.map (·.2)).flatten := by
  intro hi
  have hlays : ({ m with releasing := [] } : Machine ω).Lays live cuts := ⟨h.arranged, h.bonds⟩
  have hheld := hlays.held hfatal hi
  have hshares : m.shares (.installation i) = a.shares := Store.sharesOf_eq ha
  -- the share that is being released is another one
  have hspare' := spare_release (x := .installation i) ({ m with releasing := [] } : Machine ω)
    (.installation i :: hs)
  have hsame : ({ m with releasing := [] } : Machine ω).release (.installation i :: hs) = m := by
    simp [release, ← hreleasing]
  have hshares' : ({ m with releasing := [] } : Machine ω).shares (.installation i) =
    m.shares (.installation i) := rfl
  rw [hsame, List.count_cons_self] at hspare'
  simp only [spare] at hspare hspare'
  omega

/-! ### Lists along a run -/

/-- Releasing takes no installation onto the chain. -/
theorem fades_releaseOne (hwf : m.chain.installations.WellFormed) (x : Holding) :
    m.chain.Fades (m.releaseOne x).chain := by
  have hsame : ∀ m' : Machine ω, m'.chain = m.chain → m.chain.Fades m'.chain := by
    intro m' heq
    exact ⟨by rw [heq], by rw [heq], fun j a ha => ⟨a, by rwa [heq] at ha, rfl⟩⟩
  cases x with
  | asset o =>
    cases o with
    | cell c =>
      simp only [releaseOne, releaseAsset, releaseCell]
      split
      · exact hsame _ rfl
      · split <;> exact hsame _ rfl
    | notice n => exact hsame _ rfl
    | _ =>
      simp only [releaseOne, releaseAsset]
      split <;> exact hsame _ rfl
  | installation j =>
    simp only [releaseOne, releaseInstallation]
    split
    · exact hsame _ rfl
    · split
      · refine ⟨rfl, rfl, fun k a ha => ⟨a, ?_, rfl⟩⟩
        have ha' : (m.chain.installations.erase j).find? k = some a := ha
        rw [Store.find?_erase hwf] at ha'
        split at ha'
        · cases ha'
        · exact ha'
      · refine ⟨rfl, rfl, fun k a ha => ?_⟩
        have ha' : (m.chain.installations.modify j _).find? k = some a := ha
        rw [Store.find?_modify] at ha'
        split at ha'
        · obtain ⟨a₀, ha₀, rfl⟩ := Option.map_eq_some_iff.mp ha'
          exact ⟨a₀, ha₀, rfl⟩
        · exact ⟨a, ha', rfl⟩
  | fiber f =>
    simp only [releaseOne]
    split <;> exact hsame _ rfl
  | exchange e =>
    simp only [releaseOne]
    split <;> exact hsame _ rfl

/-- What a run keeps: shares are counted, every installation has enough of them, and as long as
there was no fault, the chain and its segments can be read as lists. -/
structure Orders (m : Machine ω) : Prop where
  counts : m.Counts
  spare : ∀ j, 0 ≤ m.spare (.installation j)
  laid : m.control.isFatal = false → ∃ live cuts, m.Lays live cuts

/-- A fault that has ended the thread stays. -/
theorem isFatal_step (h : m.control.isFatal) : (m.step Γ).control.isFatal := by
  cases hreleasing : m.releasing with
  | cons x hs => rwa [step_releasing hreleasing, releaseOne_control]
  | nil =>
    cases hcontrol : m.control with
    | halted o => rwa [step_halted hcontrol hreleasing]
    | _ => simp [hcontrol, Control.isFatal] at h

theorem Orders.free (h : m.Orders) (hfatal : m.control.isFatal = false) (hlays : m.Lays live cuts) :
    ∀ i a hs, m.releasing = .installation i :: hs → m.chain.installations.find? i = some a →
      a.shares ≤ 1 → i ∉ live ++ (cuts.map (·.2)).flatten :=
  fun i _ _ hreleasing ha hlast => hlays.notMem_of_frees hfatal (h.spare i) hreleasing ha hlast

theorem Orders.step (h : m.Orders) : (m.step Γ).Orders where
  counts := h.counts.step
  spare j := spare_step_installation h.counts (h.spare j)
  laid hfatal' := by
    have hfatal : m.control.isFatal = false := by
      by_contra hfatal
      simp [isFatal_step (Γ := Γ) (Bool.eq_true_of_not_eq_false hfatal)] at hfatal'
    obtain ⟨live, cuts, hlays⟩ := h.laid hfatal
    obtain ⟨live', cuts', hlays', -⟩ := hlays.step (Γ := Γ) (h.free hfatal hlays)
    exact ⟨live', cuts', hlays'⟩

theorem orders_start (settings : SettingsSlot) (cells : List ω) (statics : List Owned)
    (main : Comp ω) : (start settings cells statics main).Orders where
  counts := counts_start settings cells statics main
  spare := spare_start_installation settings cells statics main
  laid _ := ⟨[], [], Chain.Arranged.initial, .nil⟩

theorem Orders.run (h : m.Orders) (n : Nat) : (run Γ n m).Orders := by
  induction n with
  | zero => exact h
  | succ n ih => exact run_succ n m ▸ ih.step

/-! ### Installations off the chain -/

/-- The installation is not on the live chain, and only in segments with certain ties. After a fault
it is just not on the chain. -/
structure Absent (m : Machine ω) (T : Tie → Prop) (i : InstallationId) : Prop where
  issued : i < m.chain.installations.next
  dead : m.chain.isLive i = false
  off : m.control.isFatal = false → ∃ live cuts, m.Lays live cuts ∧ Off T live cuts i

omit [Contents ω] in
theorem Absent.of_lays {T : Tie → Prop} (hissued : i < m.chain.installations.next)
    (h : m.Lays live cuts) (hoff : Off T live cuts i) : m.Absent T i where
  issued := hissued
  dead := by
    rw [Bool.eq_false_iff]
    exact fun hlive => hoff.1 (h.arranged.reads.isLive_iff.mp hlive)
  off _ := ⟨live, cuts, h, hoff⟩

theorem Absent.step {T : Tie → Prop} (h : m.Absent T i) (hm : m.Orders)
    (hsteady : m.Steady Γ T) : (m.step Γ).Absent T i := by
  have hissued : i < (m.step Γ).chain.installations.next :=
    Nat.lt_of_lt_of_le h.issued (Ages.step m).chain.installations.next
  cases hfatal : m.control.isFatal with
  | false =>
    obtain ⟨live, cuts, hlays, hoff⟩ := h.off hfatal
    obtain ⟨live', cuts', hlays', hall⟩ := hlays.step (Γ := Γ) (hm.free hfatal hlays)
    exact .of_lays hissued hlays' (hall T i hsteady h.issued hoff)
  | true =>
    refine ⟨hissued, ?_, fun hfatal' => ?_⟩
    · cases hreleasing : m.releasing with
      | cons x hs =>
        rw [step_releasing hreleasing, Bool.eq_false_iff]
        have hfades := fades_releaseOne (m := { m with releasing := hs }) hm.counts.installations x
        exact fun hlive => absurd (hfades.isLive hlive) (by simp [h.dead])
      | nil =>
        cases hcontrol : m.control with
        | halted o => rw [step_halted hcontrol hreleasing]; exact h.dead
        | _ => simp [hcontrol, Control.isFatal] at hfatal
    · simp [isFatal_step (Γ := Γ) hfatal] at hfatal'

/-- What is absent stays so, while no segment that has it is put back. -/
theorem Absent.run {T : Tie → Prop} (h : m.Absent T i) (hm : m.Orders) (n : Nat)
    (hsteady : ∀ k < n, (run Γ k m).Steady Γ T) : (run Γ n m).Absent T i := by
  induction n with
  | zero => exact h
  | succ n ih =>
    rw [run_succ]
    exact (ih fun k hk => hsteady k (Nat.lt_succ_of_lt hk)).step (hm.run n)
      (hsteady n (Nat.lt_succ_self n))

/-! ### Installations that leave the chain -/

section Leaving

variable {e : ExchangeId} {command : Command} {position : Nat} {v : Value}

theorem Lays.issued (h : m.Lays live cuts) (hi : i ∈ live) :
    i < (m.step Γ).chain.installations.next := by
  obtain ⟨a, ha⟩ := Option.isSome_iff_exists.mp (h.arranged.found i (List.mem_append_left _ hi))
  exact Nat.lt_of_lt_of_le (Store.lt_next h.arranged.wellFormed ha)
    (Ages.step m).chain.installations.next

omit [Contents ω] in
/-- What is cut off with the lowest installation of a segment is in that segment only. -/
theorem Lays.off_cut {T : Tie → Prop} {tie : Tie} {is js : List InstallationId}
    {cuts' : List (Tie × List InstallationId)} (h : m.Lays (is ++ i :: js) cuts) (htie : T tie)
    (hsub : cuts' ⊆ (tie, is ++ [i]) :: cuts) : Off T js cuts' i := by
  have hnodup := (List.nodup_append.mp h.nodup_live).2.1
  refine ⟨(List.nodup_cons.mp hnodup).1, fun c hc hmem => ?_⟩
  rcases List.mem_cons.mp (hsub hc) with rfl | hc
  · exact htie
  · exact absurd hmem (h.notMem_of_mem (by simp) hc)

/-- An installation whose return clause starts is nowhere any more. -/
theorem StartsReturn.absent (h : m.StartsReturn Γ i v) (hm : m.Orders) :
    (m.step Γ).Absent (fun _ => False) i := by
  obtain ⟨live, cuts, hlays⟩ := hm.laid (by rw [h.2.1]; rfl)
  obtain ⟨js, cuts', rfl, hsub, hlays'⟩ := hlays.retires h.retires
  refine .of_lays (hlays.issued List.mem_cons_self) hlays'
    ⟨(List.nodup_cons.mp hlays.nodup_live).1, fun c hc hmem => ?_⟩
  exact hlays.notMem_of_mem List.mem_cons_self (hsub hc) hmem

/-- An installation whose clause starts is in the segment that the clause cuts off, if it is
anywhere. -/
theorem Starts.absent {code : ClauseCode ω} (h : m.Starts Γ e command i position)
    (hcode : m.codeAt Γ i position = some code) (hm : m.Orders) :
    (m.step Γ).Absent (· = code.tie e) i := by
  by_cases hplain : code.modifier = .plain
  · obtain ⟨s, hhides⟩ := h.hides hcode hplain
    obtain ⟨_, _, _, _, ⟨-, hcontrol⟩, -⟩ := hhides.sends
    obtain ⟨live, cuts, hlays⟩ := hm.laid (by rw [hcontrol]; rfl)
    obtain ⟨is, js, rfl, cuts', hsub, hlays'⟩ := hlays.hides hhides
    exact .of_lays (hlays.issued (by simp)) hlays' (hlays.off_cut (by simp [ClauseCode.tie, hplain]) hsub)
  · obtain ⟨name, s, hcaptures⟩ := h.captures hcode hplain
    obtain ⟨live, cuts, hlays⟩ := hm.laid (by rw [hcaptures.hands.2]; rfl)
    obtain ⟨is, js, rfl, cuts', hsub, hlays'⟩ := hlays.captures hcaptures
    exact .of_lays (hlays.issued (by simp)) hlays' (hlays.off_cut (by simp [ClauseCode.tie, hplain]) hsub)

end Leaving

end Machine

end EffectHandlers
