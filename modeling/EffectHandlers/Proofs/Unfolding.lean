import EffectHandlers.Proofs.LifeCycle
import EffectHandlers.Proofs.Shifting
import Mathlib.Logic.Relation
/-!
# Fibers for bodies, and code that is to go on

## Each body has a fiber of its own

The fiber that was made for the body of an installation is held by one driver, by one continuation
or by nothing at all. An installation that nothing drives is never driven again.
-/

namespace EffectHandlers

variable {ω : Type} {Γ : Library ω} {C R S : List (Activation ω)} {i : InstallationId}
  {f g : FiberId}

theorem ownedBy_append (S R : List (Activation ω)) : ownedBy (S ++ R) = ownedBy S ++ ownedBy R :=
  List.flatMap_append

theorem ownedBy_cons (a : Activation ω) (S : List (Activation ω)) :
    ownedBy (a :: S) = a.owned ++ ownedBy S := rfl

/-- What has one holder at most. -/
inductive Holding.Single : Holding → Prop
  | fiber (f : FiberId) : Single (.fiber f)
  | exchange (e : ExchangeId) : Single (.exchange e)

namespace Machine

variable {m m' : Machine ω}

/-- Whether the number of a fiber or an exchange was handed out. -/
def hasMade (m : Machine ω) : Holding → Bool
  | .fiber f => f < m.fibers.parked.next
  | .exchange e => e < m.exchanges.next
  | _ => false

/-- Nothing goes on with the body of the installation, now or later. -/
structure Undriven (m : Machine ω) (i : InstallationId) : Prop where
  issued : i < m.chain.installations.next
  none : ∀ f, ¬ m.Drives i f

/-- No parked code and no continuation goes on with the fiber. -/
structure Lone (m : Machine ω) (f : FiberId) : Prop where
  parked : ∀ e ∈ m.fibers.parked.entries, .fiber f ∉ ownedBy e.2
  resumptions : ∀ e ∈ m.resumptions.entries, .fiber f ∉ e.2.owned
  armed : ∀ k ∈ m.armed, .fiber f ∉ k.owned

variable [Contents ω]

/-! ### Fibers and exchanges have one holder at most -/

omit [Contents ω] in
/-- A step brings nothing but what it makes. -/
theorem count_brings_single (m m' : Machine ω) {x : Holding} (hx : x.Single) :
    (m.brings m').count x ≤ if m.hasMade x = false ∧ m'.hasMade x = true then 1 else 0 := by
  have hothers : ∀ (p : Prop) [Decidable p] (y : Holding), y ≠ x →
      (if p then [y] else []).count x = 0 := by
    intro p _ y hy
    split
    · simp [hy]
    · rfl
  simp only [brings, List.count_append]
  cases hx with
  | fiber f =>
    rw [hothers _ (.exchange _) (by simp)]
    by_cases hmade : m.fibers.parked.next < m'.fibers.parked.next
    · by_cases hf : f = m.fibers.parked.next
      · simp [hasMade, hmade, hf]
      · simp [hmade, Ne.symm hf]
    · simp [hmade]
  | exchange e =>
    rw [hothers _ (.fiber _) (by simp)]
    by_cases hmade : m.exchanges.next < m'.exchanges.next
    · by_cases he : e = m.exchanges.next
      · simp [hasMade, hmade, he]
      · simp [hmade, Ne.symm he]
    · simp [hmade]

/-- Only a step that makes a fiber or an exchange brings a holder of it. -/
theorem holders_step_single (h : m.Counts) {x : Holding} (hx : x.Single) :
    (m.step Γ).holders x ≤ m.holders x + (m.brings (m.step Γ)).count x := by
  have haudited : x.Audited := by cases hx <;> constructor
  have hzero : x ≠ .asset (.cell 0) := by cases hx <;> simp
  have hspare := spare_step (Γ := Γ) h haudited hzero fun hcounted => by
    cases hx <;> cases hcounted
  have hassets : ∀ os : List Owned, (os.map Holding.asset).count x = 0 :=
    fun os => List.count_eq_zero.mpr (by cases hx <;> simp)
  have hshares : ∀ m : Machine ω, m.shares x = 0 := by cases hx <;> intro m <;> rfl
  simp only [hassets, spare, hshares] at hspare
  omega

/-- A new thread has neither fibers nor exchanges. -/
theorem holders_start_single (settings : SettingsSlot) (cells : List ω) (statics : List Owned)
    (main : Comp ω) {x : Holding} (hx : x.Single) :
    (start settings cells statics main).holders x = 0 := by
  have hassets : ∀ os : List Owned, (os.map Holding.asset).count x = 0 :=
    fun os => List.count_eq_zero.mpr (by cases hx <;> simp)
  have hcells : ((start settings cells statics main).cells.gather Shared.owned).count x = 0 := by
    refine List.count_eq_zero.mpr fun hmem => ?_
    obtain ⟨id, y, -, hy⟩ := Store.mem_gather hmem
    cases hx <;> simp [Shared.owned] at hy
  have hshelved : (start settings cells statics main).shelved.count x = 0 := by
    simp only [shelved, List.count_append, hcells]
    cases hx <;> rfl
  have hanchors : (start settings cells statics main).anchors.count x = 0 := by
    have heq : (start settings cells statics main).anchors =
      [Holding.installation 0] ++ statics.map .asset := rfl
    rw [heq, List.count_append, hassets]
    cases hx <;> rfl
  simp only [holders, hshelved, hanchors]
  rfl

/-- Each body of an installation is run on a fiber of its own. -/
structure Lodged (m : Machine ω) : Prop where
  counts : m.Counts
  once : ∀ f, m.holders (.fiber f) ≤ 1
  fresh : ∀ f, m.fibers.parked.next ≤ f → m.holders (.fiber f) = 0
  issued : ∀ i f, m.Drives i f → i < m.chain.installations.next
  alone : ∀ i f g, m.Drives i f → m.Drives i g → f = g

/-- An installation has its number once its body starts. -/
theorem Installs.issued {x : Installing} {body : ReferenceId → Comp ω}
    (h : m.Installs Γ x body i f) : i < (m.step Γ).chain.installations.next := by
  obtain ⟨⟨next, hm⟩, rfl, -, -, hcontrol, -⟩ := h
  have hstep : m.step Γ = (m.push (.bind next)).install Γ x body := by
    simp only [step, hm.1, hm.2, eval]
  obtain ⟨nextLabel, declared, pool, counters, journal, hinstall⟩ :=
    exists_install_eq (Γ := Γ) (m.push (.bind next)) x body
  rw [hstep] at hcontrol ⊢
  rcases hinstall with ⟨f, heq⟩ | heq | ⟨label, -, heq⟩
  · simp [heq] at hcontrol
  · simp [heq] at hcontrol
  · rw [heq]
    exact Nat.lt_succ_self _

/-! ### Fibers that are held once -/

/-- What only the spine may hold. -/
theorem lone_of_holders (h : m.holders (.fiber f) ≤ (ownedBy m.spine).count (.fiber f)) :
    m.Lone f := by
  simp only [spine, ownedBy_append, List.count_append, holders, Control.load] at h
  have hshelved : .fiber f ∉ m.shelved := List.count_eq_zero.mp (by omega)
  simp only [shelved, List.mem_append, not_or] at hshelved
  refine ⟨fun e he hmem => ?_, fun e he hmem => ?_, fun k hk hmem => ?_⟩
  · exact hshelved.1.2 (List.mem_flatMap.mpr ⟨e, he, hmem⟩)
  · exact hshelved.1.1.2 (List.mem_flatMap.mpr ⟨e, he, hmem⟩)
  · rcases List.mem_append.mp hk with hk | hk <;>
      have hcount := List.count_pos_iff.mpr (List.mem_flatMap.mpr ⟨k, hk, hmem⟩) <;>
      omega

theorem holders_of_drives (h : m.Drives i f) : 0 < m.holders (.fiber f) := by
  rcases h with hi | ⟨answer, s, e, hk, -⟩
  · exact holders_of_mem_posts hi (by simp [Activation.owned])
  · rcases List.mem_append.mp hk with hk | hk
    · exact holders_of_latent hk (by simp [Cont.owned])
    · exact holders_of_roused hk (by simp [Cont.owned])

namespace Lodged

/-- A driver on the spine is all that holds its fiber. -/
theorem driver (h : m.Lodged) (hspine : m.spine = C ++ .driving i f :: R) :
    m.Lone f ∧ .fiber f ∉ ownedBy C ∧ .fiber f ∉ ownedBy R := by
  have hcount : (ownedBy m.spine).count (.fiber f) =
      (ownedBy C).count (.fiber f) + (1 + (ownedBy R).count (.fiber f)) := by
    simp [hspine, ownedBy_append, ownedBy_cons, Activation.owned, Nat.add_comm]
  have hless : (ownedBy m.spine).count (.fiber f) ≤ m.holders (.fiber f) := by
    simp only [spine, ownedBy_append, List.count_append, holders]
    omega
  have honce := h.once f
  exact ⟨lone_of_holders (by omega), List.count_eq_zero.mp (by omega),
    List.count_eq_zero.mp (by omega)⟩

/-- Nothing holds a fiber that was not made yet. -/
theorem next (h : m.Lodged) : m.Lone m.fibers.parked.next ∧
    .fiber m.fibers.parked.next ∉ ownedBy m.spine := by
  have hnone := h.fresh _ (Nat.le_refl _)
  refine ⟨lone_of_holders (by omega), List.count_eq_zero.mp ?_⟩
  simp only [holders] at hnone
  simp only [spine, ownedBy_append, List.count_append]
  omega

/-- An installation whose fiber is to be released is not driven any more. -/
theorem undriven (h : m.Lodged) (hissued : i < m.chain.installations.next)
    (hf : ∀ g, m.Drives i g → g = f) (hreleasing : .fiber f ∈ m.releasing) : m.Undriven i := by
  refine ⟨hissued, fun g hg => ?_⟩
  obtain rfl := hf g hg
  -- what is being released is one holder, what drives the installation would be another
  have hother : 0 < ({ m with releasing := [] } : Machine ω).holders (.fiber g) :=
    holders_of_drives hg
  have hone := List.count_pos_iff.mpr hreleasing
  have honce := h.once g
  have hsplit : m.holders (.fiber g) = m.releasing.count (.fiber g) +
      ({ m with releasing := [] } : Machine ω).holders (.fiber g) := by
    have hanchors : ({ m with releasing := [] } : Machine ω).anchors = m.anchors := rfl
    have hshelved : ({ m with releasing := [] } : Machine ω).shelved = m.shelved := rfl
    have hwaiting : ({ m with releasing := [] } : Machine ω).waiting = m.waiting := rfl
    simp only [holders, hanchors, hshelved, hwaiting, List.count_nil]
    omega
  omega

/-! ### Runs -/

theorem holders_step (h : m.Lodged) (f : FiberId) :
    (m.step Γ).holders (.fiber f) ≤
      m.holders (.fiber f) + (m.brings (m.step Γ)).count (.fiber f) :=
  holders_step_single h.counts (.fiber f)

theorem step (h : m.Lodged) : (m.step Γ).Lodged := by
  have hnext : m.fibers.parked.next ≤ (m.step Γ).fibers.parked.next := (Ages.step m).fibers.issued
  have hissued : m.chain.installations.next ≤ (m.step Γ).chain.installations.next :=
    (Ages.step m).chain.installations.next
  refine ⟨h.counts.step, fun f => ?_, fun f hf => ?_, fun i f hi => ?_, fun i f g hf hg => ?_⟩
  · have hstep := h.holders_step (Γ := Γ) f
    have hmade := count_brings_single m (m.step Γ) (.fiber f)
    have honce := h.once f
    split at hmade
    · rename_i hf
      have hnone := h.fresh f (by simpa [hasMade] using hf.1)
      omega
    · omega
  · have hstep := h.holders_step (Γ := Γ) f
    have hmade := count_brings_single m (m.step Γ) (.fiber f)
    have hnone := h.fresh f (Nat.le_trans hnext hf)
    rw [if_neg (by simp [hasMade, Nat.not_lt.mpr hf])] at hmade
    omega
  · rcases step_drives hi with hi | ⟨x, body, hinstalls⟩
    · exact Nat.lt_of_lt_of_le (h.issued i f hi) hissued
    · exact hinstalls.issued
  · rcases step_drives hf with hf | ⟨x, body, hinstalls⟩ <;>
      rcases step_drives hg with hg | ⟨x', body', hinstalls'⟩
    · exact h.alone i f g hf hg
    · exact absurd (hinstalls'.2.1 ▸ h.issued i f hf) (Nat.lt_irrefl _)
    · exact absurd (hinstalls.2.1 ▸ h.issued i g hg) (Nat.lt_irrefl _)
    · exact hinstalls.2.2.1.trans hinstalls'.2.2.1.symm

theorem run (h : m.Lodged) (n : Nat) : (run Γ n m).Lodged := by
  induction n with
  | zero => exact h
  | succ n ih => exact run_succ n m ▸ ih.step

end Lodged

omit [Contents ω] in
theorem not_drives_start (settings : SettingsSlot) (cells : List ω) (statics : List Owned)
    (main : Comp ω) (i : InstallationId) (f : FiberId) :
    ¬ (start settings cells statics main).Drives i f := by
  rintro (hi | ⟨answer, s, e, hk, -⟩)
  · cases hi
  · cases hk

/-- A new thread has no fibers. -/
theorem lodged_start (settings : SettingsSlot) (cells : List ω) (statics : List Owned)
    (main : Comp ω) : (start settings cells statics main).Lodged := by
  have hnone : ∀ f, (start settings cells statics main).holders (.fiber f) = 0 := fun f =>
    holders_start_single settings cells statics main (.fiber f)
  exact
    { counts := counts_start settings cells statics main
      once := fun f => by simp [hnone f]
      fresh := fun f _ => hnone f
      issued := fun i f h => absurd h (not_drives_start settings cells statics main i f)
      alone := fun i f g h => absurd h (not_drives_start settings cells statics main i f) }

theorem Undriven.step (h : m.Undriven i) : (m.step Γ).Undriven i := by
  refine ⟨Nat.lt_of_lt_of_le h.issued (Ages.step m).chain.installations.next, fun f hf => ?_⟩
  rcases step_drives hf with hf | ⟨x, body, hinstalls⟩
  · exact h.none f hf
  · exact absurd (hinstalls.2.1 ▸ h.issued) (Nat.lt_irrefl _)

end Machine

end EffectHandlers

/-!
## Code that is to go on

Code goes on with what stands below it, and with what is parked on top of it. A clause may put the
continuation that it was started with in its own place, as long as it has not been used. What can be
unfolded from a piece of code in these ways does not grow while the code waits.
-/

namespace EffectHandlers

variable {ω : Type} {Γ : Library ω} {C P R S T X : List (Activation ω)} {a : Activation ω}
  {i : InstallationId} {f : FiberId}

namespace Machine

variable {m m' : Machine ω}

/-! ### Clauses and their resumptions -/

/-- Where a clause stands in this code on top of which a resumption is owned first, the number of
the resumption was handed out. If it was not, no continuation belongs to the clause. -/
def Dated (m : Machine ω) (S : List (Activation ω)) : Prop :=
  ∀ r os keep answer T, .owning (.resumption r :: os) :: .clause keep answer :: T <:+ S →
    r < m.resumptions.next ∨ ∃ j, keep = some j ∧ m.Undriven j

namespace Dated

theorem nil : m.Dated [] := by
  intro r os keep answer T h
  cases List.suffix_nil.mp h

theorem suffix (h : m.Dated S) (hT : T <:+ S) : m.Dated T :=
  fun r os keep answer U hU => h r os keep answer U (hU.trans hT)

theorem cons (h : m.Dated S) (ha : a.LooseOn S) : m.Dated (a :: S) := by
  intro r os keep answer T hT
  rcases List.suffix_cons_iff.mp hT with heq | hT
  · obtain ⟨rfl, rfl⟩ := List.cons.inj heq
    cases ha
  · exact h r os keep answer T hT

theorem driving (h : m.Dated S) (i : InstallationId) (f : FiberId) :
    m.Dated (.driving i f :: S) := by
  intro r os keep answer T hT
  rcases List.suffix_cons_iff.mp hT with heq | hT
  · cases heq
  · exact h r os keep answer T hT

theorem loose (h : m.Dated R) (hX : Loose R X) : m.Dated (X ++ R) := by
  induction X with
  | nil => exact h
  | cons a X ih => exact (ih hX.2).cons hX.1

theorem append (hC : m.Dated C) (h : m.Dated (.driving i f :: R)) :
    m.Dated (C ++ .driving i f :: R) := by
  induction C with
  | nil => exact h
  | cons a C ih =>
    intro r os keep answer T hT
    rcases List.suffix_cons_iff.mp hT with heq | hT
    · obtain ⟨rfl, -⟩ := List.cons.inj heq
      cases C with
      | nil => cases heq
      | cons b C =>
        obtain ⟨rfl, -⟩ := List.cons.inj (List.cons.inj heq).2
        exact hC r os keep answer C (List.suffix_refl _)
    · exact ih (hC.suffix (List.suffix_cons _ _)) r os keep answer T hT

/-- The code above a driver is as well dated as all of it. -/
theorem above (h : m.Dated (C ++ .driving i f :: R)) : m.Dated C := by
  intro r os keep answer T hT
  obtain ⟨U, rfl⟩ := hT
  refine h r os keep answer (T ++ .driving i f :: R) ⟨U, ?_⟩
  simp

end Dated

/-- The exchanges for which the continuations that a resumption has held were captured. -/
abbrev Origins := ResumptionId → ExchangeId → Prop

variable {o o' : Origins}

/-- A later state: what resumptions were made for is known, continuations that are there were there,
and what was not driven is not driven. -/
structure Precedes (m : Machine ω) (o : Origins) (m' : Machine ω) (o' : Origins) : Prop where
  issued : m.resumptions.next ≤ m'.resumptions.next
  origins : ∀ r e, r < m.resumptions.next → o' r e → o r e
  latent : ∀ r answer f s e, o r e → .captured answer f s e ∈ m'.latent →
    .captured answer f s e ∈ m.latent
  undriven : ∀ i, m.Undriven i → m'.Undriven i

theorem Dated.mono (h : m.Dated S) (hm : m.Precedes o m' o') : m'.Dated S := by
  intro r os keep answer T hT
  rcases h r os keep answer T hT with hr | ⟨j, rfl, hj⟩
  · exact .inl (Nat.lt_of_lt_of_le hr hm.issued)
  · exact .inr ⟨j, rfl, hm.undriven j hj⟩

theorem drives_of_latent {answer : String} {s : Segment} {e : ExchangeId}
    (hk : .captured answer f s e ∈ m.latent) : m.Drives s.lowest f :=
  .inr ⟨answer, s, e, List.mem_append_left _ hk, rfl⟩

/-- All code is dated. -/
structure Dates (m : Machine ω) : Prop where
  spine : m.Dated m.spine
  parked : ∀ e ∈ m.fibers.parked.entries, m.Dated e.2

/-! ### Unfolding -/

/-- Code that goes on once this code is over, or before it does. -/
inductive Unfolds (m : Machine ω) (o : Origins) : List (Activation ω) → List (Activation ω) → Prop
  | below (a : Activation ω) (S : List (Activation ω)) : Unfolds m o (a :: S) S
  /-- A driver waits for a fiber that is parked. -/
  | above (i : InstallationId) {f : FiberId} {C : List (Activation ω)} (S : List (Activation ω))
      (hC : (f, C) ∈ m.fibers.parked.entries) :
      Unfolds m o (.driving i f :: S) (C ++ .driving i f :: S)
  /-- A clause leaves its place to the continuation that it was started with. -/
  | resumed {r : ResumptionId} {answer' : String} {f : FiberId} {s : Segment} {e : ExchangeId}
      {keep : Option InstallationId} (os : List Owned) (answer : String)
      (S : List (Activation ω)) (ho : o r e) (hk : .captured answer' f s e ∈ m.latent)
      (hkeep : ∀ j ∈ keep, j = s.lowest) :
      Unfolds m o (.owning (.resumption r :: os) :: .clause keep answer :: S)
        (.driving s.lowest f :: S)

namespace Unfolds

/-- What an activation on top of code unfolds to. -/
theorem of_cons (h : m.Unfolds o (a :: S) T) :
    T = S ∨ (∃ j g C, a = .driving j g ∧ (g, C) ∈ m.fibers.parked.entries ∧
      T = C ++ .driving j g :: S) ∨
    ∃ r os keep answer answer' g s e S', a = .owning (.resumption r :: os) ∧
      S = .clause keep answer :: S' ∧
      o r e ∧ .captured answer' g s e ∈ m.latent ∧ (∀ j ∈ keep, j = s.lowest) ∧
      T = .driving s.lowest g :: S' := by
  cases h with
  | below => exact .inl rfl
  | above j _ hC => exact .inr (.inl ⟨j, _, _, rfl, hC, rfl⟩)
  | resumed os answer S ho hk hkeep =>
    exact .inr (.inr ⟨_, os, _, answer, _, _, _, _, S, rfl, rfl, ho, hk, hkeep, rfl⟩)

end Unfolds

/-- All code that can be unfolded. -/
def Harbours (m : Machine ω) (o : Origins) : List (Activation ω) → List (Activation ω) → Prop :=
  Relation.ReflTransGen (m.Unfolds o)

namespace Harbours

theorem refl : m.Harbours o S S := Relation.ReflTransGen.refl

theorem tail (h : m.Harbours o R S) (hstep : m.Unfolds o S T) : m.Harbours o R T :=
  Relation.ReflTransGen.tail h hstep

theorem trans (h : m.Harbours o R S) (h' : m.Harbours o S T) : m.Harbours o R T :=
  Relation.ReflTransGen.trans h h'

theorem below (P S : List (Activation ω)) : m.Harbours o (P ++ S) S := by
  induction P with
  | nil => exact .refl
  | cons a P ih => exact .head (.below a _) ih

/-- Loose activations harbour no driver but those below them. -/
theorem of_loose (hX : Loose R X) (h : m.Harbours o (X ++ R) (.driving i f :: S)) :
    m.Harbours o R (.driving i f :: S) := by
  induction X with
  | nil => exact h
  | cons a X ih =>
    obtain ⟨hloose, hX⟩ := hX
    refine ih hX ?_
    rcases Relation.ReflTransGen.cases_head h with heq | ⟨T, hstep, hrest⟩
    · obtain ⟨rfl, -⟩ := List.cons.inj heq
      exact hloose.elim
    · rcases hstep.of_cons with rfl | ⟨j, g, C, rfl, -⟩ |
        ⟨r, os, keep, answer, answer', g, s, e, S', rfl, hbelow, -⟩
      · exact hrest
      · exact hloose.elim
      · replace hbelow : X ++ R = .clause keep answer :: S' := hbelow
        rw [hbelow] at hloose
        exact hloose.elim

/-- What is unfolded from a clause stands below it, or is unfolded from the continuation that it was
started with. -/
theorem of_clause {os : List Owned} {keep : Option InstallationId} {answer : String}
    (h : m.Harbours o (.owning os :: .clause keep answer :: R) (.driving i f :: S)) :
    m.Harbours o R (.driving i f :: S) ∨ ∃ r os' answer' g s e, os = .resumption r :: os' ∧
      o r e ∧ .captured answer' g s e ∈ m.latent ∧ (∀ j ∈ keep, j = s.lowest) ∧
        m.Harbours o (.driving s.lowest g :: R) (.driving i f :: S) := by
  rcases Relation.ReflTransGen.cases_head h with heq | ⟨T, hstep, hrest⟩
  · cases heq
  · rcases hstep.of_cons with rfl | ⟨j, g, C, heq, -⟩ |
      ⟨r, os', keep', answer₁, answer', g, s, e, S', heq, hbelow, ho, hk, hkeep, rfl⟩
    · exact .inl (of_loose (X := [.clause keep answer]) ⟨trivial, trivial⟩ hrest)
    · cases heq
    · cases heq
      cases hbelow
      exact .inr ⟨r, os', answer', g, s, e, rfl, ho, hk, hkeep, hrest⟩

/-- What is unfolded from a driver on top of code stands above that code, or is unfolded from it. -/
theorem of_driving (h : m.Harbours o (.driving i f :: R) T) :
    (∃ P, T = P ++ .driving i f :: R ∧ m.Harbours o [.driving i f] (P ++ [.driving i f])) ∨
      m.Harbours o R T := by
  induction h with
  | refl => exact .inl ⟨[], rfl, .refl⟩
  | tail _ hstep ih =>
    rcases ih with ⟨P, rfl, hP⟩ | hR
    · cases P with
      | nil =>
        rcases hstep.of_cons with rfl | ⟨j, g, C, heq, hC, rfl⟩ |
          ⟨_, _, _, _, _, _, _, _, _, heq, -⟩
        · exact .inr .refl
        · obtain ⟨rfl, rfl⟩ := Activation.driving.inj heq
          exact .inl ⟨C, rfl, hP.tail (.above _ _ hC)⟩
        · cases heq
      | cons a P =>
        rcases hstep.of_cons with rfl | ⟨j, g, C, rfl, hC, rfl⟩ |
          ⟨r, os, keep, answer, answer', g, s, e, S', rfl, hbelow, ho, hk, hkeep, rfl⟩
        · exact .inl ⟨P, rfl, hP.tail (.below _ _)⟩
        · refine .inl ⟨C ++ .driving j g :: P, by simp, ?_⟩
          rw [List.append_assoc]
          exact hP.tail (.above _ _ hC)
        · cases P with
          | nil => cases hbelow
          | cons b P =>
            obtain ⟨rfl, rfl⟩ := List.cons.inj hbelow
            exact .inl ⟨_ :: P, rfl, hP.tail (.resumed _ _ _ ho hk hkeep)⟩
    · exact .inr (hR.tail hstep)

end Harbours

/-! ### Unfolding later -/

/-- Code that no fiber parked next and no resumption made next has to do with. -/
structure Clear (m : Machine ω) (f : FiberId) (S : List (Activation ω)) : Prop where
  dated : m.Dated S
  free : .fiber f ∉ ownedBy S

theorem Clear.tail (h : m.Clear f (a :: S)) : m.Clear f S :=
  ⟨h.dated.suffix (List.suffix_cons _ _), fun hmem => h.free (List.mem_append_right _ hmem)⟩

theorem Clear.append {g : FiberId} (hC : m.Clear f C) (h : m.Clear f (.driving i g :: R)) :
    m.Clear f (C ++ .driving i g :: R) := by
  refine ⟨hC.dated.append h.dated, ?_⟩
  rw [ownedBy_append, List.mem_append, not_or]
  exact ⟨hC.free, h.free⟩

theorem Clear.driving {g : FiberId} (h : m.Clear f S) (hg : g ≠ f) (i : InstallationId) :
    m.Clear f (.driving i g :: S) := by
  refine ⟨h.dated.driving i g, ?_⟩
  rw [ownedBy_cons, List.mem_append, not_or]
  refine ⟨fun hmem => hg ?_, h.free⟩
  simpa [Activation.owned, eq_comm] using hmem

/-- A state in which nothing more is parked than before, apart from one fiber. -/
structure Succeeds (m : Machine ω) (o : Origins) (m' : Machine ω) (o' : Origins) (f : FiberId) :
    Prop where
  precedes : m.Precedes o m' o'
  dates : m.Dates
  lone : m.Lone f
  parked : ∀ e ∈ m'.fibers.parked.entries, e ∈ m.fibers.parked.entries ∨ e.1 = f

namespace Succeeds

/-- A continuation that a clause of dated code was started with was there before. -/
theorem latent (h : m.Succeeds o m' o' f) {r : ResumptionId} {os : List Owned}
    {keep : Option InstallationId} {answer answer' : String} {g : FiberId} {s : Segment}
    {e : ExchangeId} (hS : m.Dated (.owning (.resumption r :: os) :: .clause keep answer :: S))
    (ho : o' r e) (hk : .captured answer' g s e ∈ m'.latent) (hkeep : ∀ j ∈ keep, j = s.lowest) :
    o r e ∧ .captured answer' g s e ∈ m.latent ∧ g ≠ f := by
  rcases hS r os keep answer S (List.suffix_refl _) with hr | ⟨j, rfl, hj⟩
  · have hold := h.precedes.origins r e hr ho
    have hfound := h.precedes.latent r answer' g s e hold hk
    refine ⟨hold, hfound, ?_⟩
    rintro rfl
    obtain ⟨e', he', heq⟩ := List.mem_map.mp (List.mem_filter.mp hfound).1
    exact h.lone.resumptions e' he' (by simp [heq, Cont.owned])
  · -- an installation that is not driven is the lowest of no segment
    have hdrives := drives_of_latent hk
    rw [← hkeep j rfl] at hdrives
    exact absurd hdrives ((h.precedes.undriven j hj).none g)

/-- What was parked before is clear. -/
theorem clear (h : m.Succeeds o m' o' f) {g : FiberId} (hC : (g, C) ∈ m.fibers.parked.entries) :
    m.Clear f C := ⟨h.dates.parked _ hC, h.lone.parked _ hC⟩

/-- Where a later state unfolds clear code, it is as it was. -/
theorem unfolds (h : m.Succeeds o m' o' f) (hstep : m'.Unfolds o' S T) (hS : m.Clear f S) :
    m.Unfolds o S T ∧ m.Clear f T := by
  cases hstep with
  | below a S => exact ⟨.below _ _, hS.tail⟩
  | @above j g C S hC =>
    rcases h.parked _ hC with hC | rfl
    · exact ⟨.above _ _ hC, (h.clear hC).append hS⟩
    · exact absurd (by simp [ownedBy_cons, Activation.owned]) hS.free
  | resumed os answer S ho hk hkeep =>
    obtain ⟨ho, hfound, hne⟩ := h.latent hS.dated ho hk hkeep
    exact ⟨.resumed _ _ _ ho hfound hkeep, hS.tail.tail.driving hne _⟩

theorem harbours (h : m.Succeeds o m' o' f) (hT : m'.Harbours o' S T) (hS : m.Clear f S) :
    m.Harbours o S T ∧ m.Clear f T := by
  induction hT with
  | refl => exact ⟨.refl, hS⟩
  | tail _ hstep ih =>
    obtain ⟨hold, hclear⟩ := ih
    obtain ⟨hstep, hclear⟩ := h.unfolds hstep hclear
    exact ⟨hold.tail hstep, hclear⟩

/-- What is unfolded from a driver whose fiber was parked just now was on the spine, or could be
unfolded from there. -/
theorem harbours_parked (h : m.Succeeds o m' o' f) (hT : m'.Harbours o' (.driving i f :: R) T)
    (hentries : m'.fibers.parked.entries = (f, C) :: m.fibers.parked.entries)
    (hdated : m.Dated (C ++ .driving i f :: R)) (hC : .fiber f ∉ ownedBy C)
    (hR : .fiber f ∉ ownedBy R) : m.Harbours o (C ++ .driving i f :: R) T := by
  have hRclear : m.Clear f R := ⟨hdated.suffix ⟨C ++ [.driving i f], by simp⟩, hR⟩
  -- either the driver has been left behind, or the code stands on it
  suffices hall : m.Harbours o (C ++ .driving i f :: R) T ∧
      (m.Clear f T ∨ ∃ P, T = P ++ .driving i f :: R ∧ m.Clear f P) from hall.1
  induction hT with
  | refl => exact ⟨.below _ _, .inr ⟨[], rfl, .nil, by simp [ownedBy]⟩⟩
  | tail _ hstep ih =>
    obtain ⟨hold, hclear | ⟨P, rfl, hP⟩⟩ := ih
    · obtain ⟨hstep, hclear⟩ := h.unfolds hstep hclear
      exact ⟨hold.tail hstep, .inl hclear⟩
    · cases P with
      | nil =>
        rcases hstep.of_cons with rfl | ⟨j, g, C', heq, hC', rfl⟩ |
          ⟨_, _, _, _, _, _, _, _, _, heq, -⟩
        · exact ⟨hold.tail (.below _ _), .inl hRclear⟩
        · obtain ⟨rfl, rfl⟩ := Activation.driving.inj heq
          rw [hentries, List.mem_cons] at hC'
          rcases hC' with heq | hC'
          · obtain ⟨-, rfl⟩ := Prod.mk.inj heq
            exact ⟨.refl, .inr ⟨C', rfl, hdated.above, hC⟩⟩
          · exact ⟨hold.tail (.above _ _ hC'), .inr ⟨C', rfl, h.clear hC'⟩⟩
        · cases heq
      | cons a P =>
        rcases hstep.of_cons with rfl | ⟨j, g, C', rfl, hC', rfl⟩ |
          ⟨r, os, keep, answer, answer', g, s, e, S', rfl, hbelow, ho, hk, hkeep, rfl⟩
        · exact ⟨hold.tail (.below _ _), .inr ⟨P, rfl, hP.tail⟩⟩
        · have hg : g ≠ f := by
            rintro rfl
            exact hP.free (by simp [ownedBy_cons, Activation.owned])
          have hold' : (g, C') ∈ m.fibers.parked.entries := by
            rcases h.parked _ hC' with hC' | heq
            · exact hC'
            · exact absurd heq hg
          exact ⟨hold.tail (.above _ _ hold'),
            .inr ⟨C' ++ .driving j g :: P, by simp, (h.clear hold').append hP⟩⟩
        · cases P with
          | nil => cases hbelow
          | cons b P =>
            obtain ⟨rfl, rfl⟩ := List.cons.inj hbelow
            obtain ⟨ho, hfound, hne⟩ := h.latent hP.dated ho hk hkeep
            exact ⟨hold.tail (.resumed _ _ _ ho hfound hkeep),
              .inr ⟨_ :: P, rfl, hP.tail.tail.driving hne _⟩⟩

end Succeeds

end Machine

end EffectHandlers
