import EffectHandlers.Proofs.Clearing
import EffectHandlers.Proofs.Conservation
/-!
# Captured code that is unwound or discarded

## Unwinding captured code

What is released when the fibers of a captured continuation are unwound, and in which order: the
fibers go first, from the bottom of their tower up, and then what they owned, from the top down.
-/

namespace EffectHandlers

variable {ω : Type}

/-! ### Unwinding a tower of fibers -/

namespace Tower

/-- All fibers, from the bottom up. -/
def fibers (t : Tower ω) : List FiberId := t.entries.map (·.1)

/-- What is released when a tower is unwound, in order, apart from the fibers. -/
def owned : Tower ω → List Holding
  | t@(invoker ..) => ownedBy t.stack
  | driver _ i above rest => above.owned ++ .installation i :: ownedBy rest

/-- All fibers are parked. -/
structure Parked (fs : Fibers (List (Activation ω))) (t : Tower ω) : Prop where
  found : ∀ e ∈ t.entries, fs.parked.find? e.1 = some e.2
  distinct : t.fibers.Nodup

theorem fibers_eq (t : Tower ω) : t.fibers = t.root :: t.rest.flatMap fibers := by
  unfold fibers
  rw [entries_eq, List.map_cons, List.map_flatMap]

namespace Parked

variable {fs fs' : Fibers (List (Activation ω))} {t t' : Tower ω}

theorem root (h : t.Parked fs) : fs.parked.find? t.root = some t.stack :=
  h.found (t.root, t.stack) (by simp [entries_eq t])

/-- The fibers above the lowest one stay parked without it. -/
theorem rest (h : t.Parked fs) (ht : t' ∈ t.rest)
    (hsame : ∀ f, f ≠ t.root → fs'.parked.find? f = fs.parked.find? f) : t'.Parked fs' := by
  have hdistinct := h.distinct
  rw [fibers_eq, List.nodup_cons] at hdistinct
  have hsub : t'.fibers.Sublist (t.rest.flatMap fibers) := by
    cases t with
    | invoker => cases ht
    | driver f i above rest =>
      obtain rfl : t' = above := by simpa [Tower.rest] using ht
      simp [Tower.rest]
  refine ⟨fun e he => ?_, hdistinct.2.sublist hsub⟩
  have hfiber : e.1 ∈ t'.fibers := List.mem_map_of_mem he
  rw [hsame e.1 fun heq => hdistinct.1 (heq ▸ hsub.subset hfiber)]
  refine h.found e ?_
  rw [entries_eq t]
  exact List.mem_cons_of_mem _ (List.mem_flatMap.mpr ⟨t', ht, he⟩)

end Parked

@[simp] theorem ownedBy_append (S S' : List (Activation ω)) :
    ownedBy (S ++ S') = ownedBy S ++ ownedBy S' := List.flatMap_append

@[simp] theorem ownedBy_cons (a : Activation ω) (S : List (Activation ω)) :
    ownedBy (a :: S) = a.owned ++ ownedBy S := rfl

theorem notices_owned (t : Tower ω) :
    t.owned.filterMap Holding.notice? = (ownedBy t.code).filterMap Holding.notice? := by
  induction t with
  | invoker => rfl
  | driver f i above rest ih =>
    simp [owned, code, stack, Activation.owned, List.filterMap_cons, Holding.notice?, ih]

/-- The code of a tower is that of its fibers. -/
theorem mem_code {t : Tower ω} {a : Activation ω} (ha : a ∈ t.code) : ∃ e ∈ t.entries, a ∈ e.2 := by
  induction t with
  | invoker f i e modifier command rest =>
    exact ⟨_, List.mem_cons_self, ha⟩
  | driver f i above rest ih =>
    rcases List.mem_append.mp ha with ha | ha
    · obtain ⟨e, he, hin⟩ := ih ha
      exact ⟨e, List.mem_cons_of_mem _ he, hin⟩
    · exact ⟨_, List.mem_cons_self, ha⟩

/-- Everything but fibers is released with the tower. -/
theorem mem_owned {t : Tower ω} {x : Holding} (hx : x ∈ ownedBy t.code) (hfiber : x.fiber? = none) :
    x ∈ t.owned := by
  induction t with
  | invoker => exact hx
  | driver f i above rest ih =>
    simp only [code, stack, ownedBy_append, ownedBy_cons, List.mem_append, Activation.owned,
      List.mem_cons, List.not_mem_nil, or_false, false_or] at hx
    rcases hx with hx | (rfl | rfl) | hx
    · exact List.mem_append_left _ (ih hx)
    · simp at hfiber
    · simp [owned]
    · exact List.mem_append_right _ (List.mem_cons_of_mem _ hx)

/-- The share of a driver is released after everything that its body owns. -/
theorem owned_eq_append {t : Tower ω} {A B : List (Activation ω)} {i : InstallationId} {f : FiberId}
    (h : t.code = A ++ .driving i f :: B) : ∃ P Q, t.owned = P ++ .installation i :: Q ∧
      P.filterMap Holding.notice? = (ownedBy A).filterMap Holding.notice? := by
  induction t generalizing A B with
  | invoker g j e modifier command rest =>
    refine ⟨ownedBy A ++ [.fiber f], ownedBy B, ?_, by simp [Holding.notice?]⟩
    rw [owned, show stack _ = _ from h]
    simp [Activation.owned]
  | driver g j above rest ih =>
    rcases List.append_eq_append_iff.mp h with ⟨A', rfl, hstack⟩ | ⟨C, habove, hstack⟩
    · cases A' with
      | nil =>
        obtain ⟨heq, -⟩ := List.cons.inj hstack
        obtain ⟨rfl, -⟩ := Activation.driving.inj heq
        exact ⟨above.owned, ownedBy rest, rfl, by simp [notices_owned]⟩
      | cons a A' =>
        obtain ⟨rfl, hrest⟩ := List.cons.inj hstack
        have howned : ownedBy rest = ownedBy (.stepping :: rest) := by simp
        refine ⟨above.owned ++ .installation j :: (ownedBy A' ++ [.fiber f]), ownedBy B, ?_, ?_⟩
        · rw [owned, howned, hrest]
          simp [Activation.owned]
        · simp [notices_owned, Activation.owned, List.filterMap_cons, Holding.notice?]
    · cases C with
      | nil =>
        obtain ⟨heq, -⟩ := List.cons.inj hstack
        obtain ⟨rfl, -⟩ := Activation.driving.inj heq
        refine ⟨above.owned, ownedBy rest, rfl, ?_⟩
        rw [notices_owned, habove, List.append_nil]
      | cons a C =>
        obtain ⟨rfl, -⟩ := List.cons.inj hstack
        obtain ⟨P, Q, hPQ, hnotices⟩ := ih habove
        exact ⟨P, Q ++ .installation j :: ownedBy rest, by simp [owned, hPQ], hnotices⟩

end Tower

namespace Machine

variable [Contents ω] {m m' : Machine ω} {t : Tower ω} {xs hs : List Holding}

/-- The fibers of a tower are dropped first, from the bottom up; what they own follows. -/
theorem Releases.tower (hm : m.Filed) (ht : t.Parked m.fibers)
    (hreleasing : m.releasing = .fiber t.root :: (xs ++ hs)) :
    ∃ m', Releases hs m (t.fibers.map .fiber) m' ∧ m'.releasing = t.owned ++ xs ++ hs := by
  have hfirst : ∀ {m : Machine ω} {f : FiberId} {S : List (Activation ω)} {xs : List Holding},
      m.Filed → m.fibers.parked.find? f = some S → m.releasing = .fiber f :: (xs ++ hs) →
      ∃ m', Releases hs m [.fiber f] m' ∧ m'.releasing = ownedBy S ++ xs ++ hs ∧
        ∀ g, g ≠ f → m'.fibers.parked.find? g = m.fibers.parked.find? g := by
    intro m f S xs hm hS hreleasing
    refine ⟨_, .next hreleasing (.fiber hS) (.refl _), by simp [release], fun g hg => ?_⟩
    simp [release, Store.find?_erase hm.parked, hg]
  induction t generalizing m xs with
  | invoker f i e modifier command rest =>
    obtain ⟨m', hrel, hafter, -⟩ := hfirst hm ht.root hreleasing
    exact ⟨m', hrel, hafter⟩
  | driver f i above rest ih =>
    obtain ⟨m₁, hfiber, hafter, hsame⟩ := hfirst hm ht.root hreleasing
    have habove : above.Parked m₁.fibers := ht.rest (by simp [Tower.rest]) hsame
    have hnext : m₁.releasing =
        .fiber above.root :: ((.installation i :: ownedBy rest ++ xs) ++ hs) := by
      rw [hafter]
      simp [Tower.stack, Activation.owned]
    obtain ⟨m', hrest, hend⟩ := ih (hfiber.filed hm) habove hnext
    refine ⟨m', ?_, ?_⟩
    · rw [Tower.fibers_eq]
      simpa [Tower.rest] using hfiber.trans hrest
    · rw [hend]
      simp [Tower.owned]

end Machine

/-! ### What a captured computation consists of -/

/-- The code of a captured computation, with the driver of its lowest installation. -/
def Kept.code (k : Kept ω) : List (Activation ω) :=
  k.tower.code ++ [.driving k.segment.lowest k.tower.root]

/-- What the stacks and the links of a captured computation hold, in the order of its release. -/
def Kept.owned (k : Kept ω) : List Holding := k.tower.owned ++ k.segment.owned

/-- The share of a driver is released after everything that its body owns. -/
theorem Kept.owned_eq_append {k : Kept ω} {A B : List (Activation ω)} {i : InstallationId}
    {f : FiberId} (h : k.code = A ++ .driving i f :: B) :
    ∃ P Q, k.owned = P ++ .installation i :: Q ∧
      P.filterMap Holding.notice? = (ownedBy A).filterMap Holding.notice? := by
  rcases List.append_eq_append_iff.mp h with ⟨A', rfl, hlast⟩ | ⟨C, hcode, hlast⟩
  · cases A' with
    | nil =>
      obtain ⟨heq, -⟩ := List.cons.inj hlast
      obtain ⟨rfl, -⟩ := Activation.driving.inj heq
      refine ⟨k.tower.owned ++ [.installation k.segment.top], [], by simp [owned, Segment.owned], ?_⟩
      simp [Tower.notices_owned, Holding.notice?]
    | cons a A' => simp at hlast
  · cases C with
    | nil =>
      obtain ⟨heq, -⟩ := List.cons.inj hlast
      obtain ⟨rfl, -⟩ := Activation.driving.inj heq
      refine ⟨k.tower.owned ++ [.installation k.segment.top], [], by simp [owned, Segment.owned], ?_⟩
      simp [Tower.notices_owned, Holding.notice?, hcode]
    | cons a C =>
      obtain ⟨rfl, -⟩ := List.cons.inj hlast
      obtain ⟨P, Q, hPQ, hnotices⟩ := Tower.owned_eq_append hcode
      exact ⟨P, Q ++ k.segment.owned, by simp [owned, hPQ], hnotices⟩

/-- Every installation that a captured computation drives leads down to the end of a segment. -/
theorem Kept.Fits.ends {c : Chain} {k : Kept ω} (h : k.Fits c) {i : InstallationId}
    (hi : i ∈ k.installations) : ∃ is, c.Linked (some i) is none := by
  have hcut : ∀ {s : Option InstallationId} {is : List InstallationId} {j : InstallationId},
      c.Linked s is none → j ∈ is → ∃ js, c.Linked (some j) js none := by
    intro s is j hlinked hj
    obtain ⟨front, rest, rfl⟩ := List.append_of_mem hj
    exact ⟨j :: rest, rfl, (Chain.linked_cut hlinked).2⟩
  have hall : ∀ (S : List (Activation ω)) (B : List InstallationId), Hides c B S →
      ∀ j ∈ drivers S ++ B, j ∈ exposed B S ∨ ∃ js, c.Linked (some j) js none := by
    intro S B hhides
    induction S with
    | nil => exact fun j hj => .inl (by simpa using hj)
    | cons a S ih =>
      cases a
      case driving j f =>
        intro j' hj'
        rcases List.mem_cons.mp hj' with rfl | hj'
        · exact .inl List.mem_cons_self
        · exact (ih hhides j' hj').imp_left (List.mem_cons_of_mem _)
      case inPlace j hd hidden e =>
        obtain ⟨-, -, hlinked, hrest⟩ := hhides
        intro j' hj'
        rcases ih hrest j' hj' with hmem | hends
        · rw [← takeThrough_append_dropThrough j (exposed B S)] at hmem
          rcases List.mem_append.mp hmem with hmem | hmem
          · exact .inr (hcut hlinked hmem)
          · exact .inl hmem
        · exact .inr hends
      all_goals exact ih hhides
  rcases hall k.tower.code [k.segment.lowest] h.hides i hi with hmem | hends
  · exact hcut h.linked hmem
  · exact hends

/-- Links lead down in one way only. -/
theorem Chain.Linked.unique {c : Chain} {s : Option InstallationId} {is js : List InstallationId}
    (h : c.Linked s is none) (h' : c.Linked s js none) : is = js := by
  induction is generalizing s js with
  | nil =>
    cases js with
    | nil => rfl
    | cons j js => exact absurd ((show s = none from h).symm.trans h'.1) (by simp)
  | cons i is ih =>
    obtain ⟨rfl, hrest⟩ := h
    cases js with
    | nil => cases h'
    | cons j js =>
      obtain ⟨heq, hrest'⟩ := h'
      obtain rfl := Option.some.inj heq
      rw [ih hrest hrest']

/-- Among some installations, one leads down the longest way. -/
theorem Chain.exists_longest (c : Chain) (js : List InstallationId) : ∃ b, ∀ j ∈ js, ∀ is,
    c.Linked (some j) is none → is.length ≤ b := by
  induction js with
  | nil => exact ⟨0, by simp⟩
  | cons j js ih =>
    obtain ⟨b, hb⟩ := ih
    by_cases hj : ∃ is, c.Linked (some j) is none
    · obtain ⟨is, his⟩ := hj
      refine ⟨max b is.length, fun j' hj' is' his' => ?_⟩
      rcases List.mem_cons.mp hj' with rfl | hj'
      · rw [his'.unique his]
        exact Nat.le_max_right _ _
      · exact Nat.le_trans (hb j' hj' is' his') (Nat.le_max_left _ _)
    · refine ⟨b, fun j' hj' is' his' => ?_⟩
      rcases List.mem_cons.mp hj' with rfl | hj'
      · exact absurd ⟨is', his'⟩ hj
      · exact hb j' hj' is' his'

end EffectHandlers

/-!
## Discarded continuations

A continuation is discarded when its resumption is released, or when a clause that does not resume
is called. Here is what that means for the thread: which fibers go, what is noticed and in which
order, and what stays. The installations and handlers of a captured computation go with it where
nothing else holds them.
-/

namespace EffectHandlers

variable {ω : Type} {Γ : Library ω}

/-- Whether a computation holds a reference that way. -/
def Holding.isReference : Holding → Bool
  | asset (.reference _) => true
  | _ => false

theorem Holding.isReference_iff {x : Holding} :
    x.isReference = true ↔ ∃ r, x = .asset (.reference r) := by
  constructor
  · intro h
    cases x with
    | asset o => cases o <;> simp_all [isReference]
    | _ => cases h
  · rintro ⟨r, rfl⟩
    rfl

/-- What a captured computation consists of, as far as that can hold installations and handlers: its
fibers, its installations, and the references on its stacks. -/
def Kept.parts (k : Kept ω) : List Holding :=
  k.tower.fibers.map .fiber ++ k.installations.map .installation ++
    (ownedBy k.tower.code).filter Holding.isReference

namespace Machine

/-- A continuation that the next step discards: its resumption is released, or a clause that does
not resume is called. -/
inductive Discards (Γ : Library ω) (m : Machine ω) : Cont ω → Prop
  | released {r k hs} (hreleasing : m.releasing = .asset (.resumption r) :: hs)
      (hk : m.resumptions.find? r = some k) : Discards Γ m k
  | unresumed {q f S fs code} (hreleasing : m.releasing = []) (hcontrol : m.control = .request q)
      (hsuspend : m.fibers.suspend? m.stack = some (.driving q.target f :: S, fs))
      (hcode : m.codeAt Γ q.target q.entry = some (.noResume code)) :
      Discards Γ m (.captured (Γ.handlerType (m.chain.get q.target).handlerType).answer f
        ⟨m.chain.top, q.target⟩ q.exchange)

/-- A fiber runs, or waits for code that it resumed. -/
def Runs (m : Machine ω) (f : FiberId) : Prop :=
  m.fibers.current = some f ∨ f ∈ m.fibers.resumers.map (·.fiber)

/-- The installations of a captured computation, with their handlers. -/
def frames (m : Machine ω) (K : Kept ω) : List Holding :=
  K.installations.flatMap fun i => [.installation i, .asset (.cell (m.chain.get i).handler)]

variable [Contents ω]

/-- Every share of the installations and handlers of a captured computation is held, and nothing
holds one apart from its own stacks, the references on them, and the links of its own segment. -/
structure Private (m : Machine ω) (K : Kept ω) (hs : List Holding) : Prop where
  shares : ∀ x ∈ m.frames K, m.shares x = m.held.count x
  rooted : ∀ x ∈ m.frames K, x ∉ hs ∧ x ∉ m.rooted
  holders : ∀ x ∈ m.frames K, ∀ y, x ∈ m.owns y →
    (∃ f ∈ K.tower.fibers, y = .fiber f) ∨ (∃ i ∈ K.installations, y = .installation i) ∨
      y ∈ ownedBy K.tower.code ∧ ∃ r, y = .asset (.reference r)

/-- Every share of something is held, and nothing holds one apart from what a captured computation
consists of. -/
structure Exclusive (m : Machine ω) (K : Kept ω) (hs : List Holding) (x : Holding) : Prop where
  shares : m.shares x = m.held.count x
  rooted : x ∉ hs ∧ x ∉ m.rooted
  holders : ∀ y, x ∈ m.owns y → y ∈ K.parts

/-- An installation is there with nothing changed but its shares. -/
def SameInstallation (m m' : Machine ω) (i : InstallationId) : Prop :=
  ∃ a a', m.chain.installations.find? i = some a ∧ m'.chain.installations.find? i = some a' ∧
    a' = { a with shares := a'.shares }

/-- Between `n` and `N`, a continuation is torn down that was just discarded, and nothing else. -/
structure TearsDown (Γ : Library ω) (m₀ : Machine ω) (k : Cont ω) (ks : List (Kept ω))
    (hs : List Holding) (n N : Nat) : Prop where
  /-- What was captured goes on with these fibers. -/
  captured : ks.map Kept.cont = [k].filter Cont.isCaptured
  parked : ∀ K ∈ ks, K.tower.Parked (run Γ n m₀).fibers
  begins : (run Γ n m₀).releasing = k.owned ++ hs
  ends : (run Γ N m₀).releasing = hs
  le : n ≤ N
  /-- No code runs meanwhile. -/
  busy : ∀ p, n ≤ p → p < N → (run Γ p m₀).releasing ≠ []
  /-- No code of the captured computation ever runs again. -/
  silent : ∀ K ∈ ks, ∀ f ∈ K.tower.fibers, ∀ p, n ≤ p →
    ¬ (run Γ p m₀).Runs f ∧ (N ≤ p → (run Γ p m₀).fibers.parked.find? f = none)
  /-- Whatever was to be noticed is noticed once or still there, and what the stacks owned is
  noticed in order, the inner fibers first. -/
  noticed : ∃ ns, (run Γ N m₀).noticed = ns.reverse ++ (run Γ n m₀).noticed ∧
    ((ownedBy (ks.flatMap (·.tower.code)) ++ k.owned).filterMap Holding.notice?).Sublist ns ∧
    ((run Γ n m₀).held.filterMap Holding.notice?).Perm
      (ns ++ (run Γ N m₀).held.filterMap Holding.notice?)
  /-- The resumptions on the stacks are discarded too. -/
  nested : ∀ r k', .asset (.resumption r) ∈ ownedBy (ks.flatMap (·.tower.code)) ++ k.owned →
    (run Γ n m₀).resumptions.find? r = some k' → ∃ p, n ≤ p ∧ p < N ∧
      (run Γ p m₀).releasing.head? = some (.asset (.resumption r)) ∧
      (run Γ p m₀).resumptions.find? r = some k'
  /-- Every resumption that goes is counted. -/
  counted : (run Γ N m₀).counters =
      { (run Γ n m₀).counters with discarded := (run Γ N m₀).counters.discarded } ∧
    (run Γ N m₀).counters.discarded + (run Γ N m₀).resumptions.entries.length =
      (run Γ n m₀).counters.discarded + (run Γ n m₀).resumptions.entries.length
  /-- The running and the waiting code, the tail slot and the live chain stay. -/
  same : (run Γ N m₀).control = (run Γ n m₀).control ∧ (run Γ N m₀).stack = (run Γ n m₀).stack ∧
    (run Γ N m₀).fibers.current = (run Γ n m₀).fibers.current ∧
    (run Γ N m₀).fibers.resumers = (run Γ n m₀).fibers.resumers ∧
    (run Γ N m₀).pending = (run Γ n m₀).pending
  live : (run Γ N m₀).chain.toList = (run Γ n m₀).chain.toList ∧
    ∀ i ∈ (run Γ N m₀).chain.live, (run Γ n m₀).SameInstallation (run Γ N m₀) i
  /-- A resumption that the continuation does not own stays valid. -/
  others : ∀ r k', (run Γ n m₀).resumptions.find? r = some k' →
    (∀ x ∈ k.owned, ¬ (run Γ n m₀).LeadsTo x (.asset (.resumption r))) →
    (run Γ N m₀).resumptions.find? r = some k'
  /-- The continuations that stay keep their fibers and installations. -/
  intact : ∀ k' ∈ (run Γ N m₀).conts, k' ∈ (run Γ n m₀).conts ∧ (k'.isCaptured →
    ∃ K' : Kept ω, K'.cont = k' ∧ K'.tower.Parked (run Γ n m₀).fibers ∧
      K'.tower.Parked (run Γ N m₀).fibers ∧
      ∀ i ∈ K'.installations, (run Γ n m₀).SameInstallation (run Γ N m₀) i)
  /-- A handler that nothing else holds is dropped once, after everything its body owns. -/
  handlers : ∀ K ∈ ks, (run Γ n m₀).Private K hs →
    ∀ A i f B, K.code = A ++ .driving i f :: B → ∃ p, n ≤ p ∧ p < N ∧
      (run Γ p m₀).cells.contains ((run Γ n m₀).chain.get i).handler = true ∧
      (∀ q, p < q → (run Γ q m₀).cells.contains ((run Γ n m₀).chain.get i).handler = false) ∧
      ∃ ns, (run Γ p m₀).noticed = ns.reverse ++ (run Γ n m₀).noticed ∧
        ((ownedBy A).filterMap Holding.notice?).Sublist ns

variable {m m' : Machine ω} {K : Kept ω} {l l' : Layout ω} {x : Holding} {zs hs : List Holding}
  {i : InstallationId}

/-- What an entry owns can be found from its number. -/
theorem exists_owns (hm : m.Filed) (hx : x ∈ m.shelved) : ∃ y, x ∈ m.owns y := by
  have hfound : ∀ {α : Type} {s : Store α} {g : α → List Holding}, s.WellFormed → x ∈ s.gather g →
      ∃ id, x ∈ (s.find? id).elim [] g := by
    intro α s g hs hx
    obtain ⟨id, a, he, ha⟩ := Store.mem_gather hx
    exact ⟨id, by simpa [(Store.find?_eq_some_iff hs).mpr he] using ha⟩
  simp only [shelved, List.mem_append] at hx
  obtain (((((hx | hx) | hx) | hx) | hx) | hx) | hx := hx
  · exact (hfound hm.cells hx).imp' (fun c => .asset (.cell c)) fun _ => id
  · exact (hfound hm.installations hx).imp' .installation fun _ => id
  · exact (hfound hm.references hx).imp' (fun r => .asset (.reference r)) fun _ => id
  · exact (hfound hm.closures hx).imp' (fun f => .asset (.closure f)) fun _ => id
  · exact (hfound hm.resumptions hx).imp' (fun r => .asset (.resumption r)) fun _ => id
  · exact (hfound hm.parked hx).imp' .fiber fun _ => id
  · exact (hfound hm.exchanges hx).imp' .exchange fun _ => id

/-- What owns something is there. -/
theorem has_of_owns {y : Holding} (hx : x ∈ m.owns y) : m.has y = true := by
  have hfound : ∀ {α : Type} {s : Store α} {id : Nat} {g : α → List Holding},
      x ∈ (s.find? id).elim [] g → s.contains id = true := by
    intro α s id g hx
    cases hs : s.find? id with
    | none => simp [hs] at hx
    | some a => simp [Store.contains, hs]
  cases y with
  | asset o =>
    cases o with
    | notice n => simp [owns] at hx
    | _ => exact hfound hx
  | _ => exact hfound hx

/-- The entries of all tables, with what they own. -/
def owners (m : Machine ω) : List (Holding × List Holding) :=
  m.cells.entries.map (fun e => (.asset (.cell e.1), e.2.owned)) ++
    m.chain.installations.entries.map (fun e => (.installation e.1, e.2.owned)) ++
    m.references.entries.map (fun e => (.asset (.reference e.1), [.installation e.2])) ++
    m.closures.entries.map (fun e => (.asset (.closure e.1), e.2.owned.map .asset)) ++
    m.resumptions.entries.map (fun e => (.asset (.resumption e.1), e.2.owned)) ++
    m.fibers.parked.entries.map (fun e => (.fiber e.1, ownedBy e.2)) ++
    m.exchanges.entries.map fun e => (.exchange e.1, e.2.owned.map .asset)

/-- What owns something is listed with it. -/
theorem mem_owners {y : Holding} (hx : x ∈ m.owns y) : (y, m.owns y) ∈ m.owners := by
  have hfound : ∀ {α : Type} {s : Store α} {id : Nat} {g : α → List Holding} {c : Nat → Holding},
      x ∈ (s.find? id).elim [] g →
      (c id, (s.find? id).elim [] g) ∈ s.entries.map fun e => (c e.1, g e.2) := by
    intro α s id g c hx
    cases hs : s.find? id with
    | none => simp [hs] at hx
    | some a => exact List.mem_map.mpr ⟨_, Store.mem_of_find? hs, rfl⟩
  simp only [owners, List.mem_append]
  match y with
  | .asset (.cell _) =>
    exact .inl (.inl (.inl (.inl (.inl (.inl (hfound (c := fun c => .asset (.cell c)) hx))))))
  | .installation _ => exact .inl (.inl (.inl (.inl (.inl (.inr (hfound hx))))))
  | .asset (.reference _) =>
    exact .inl (.inl (.inl (.inl (.inr (hfound (c := fun r => .asset (.reference r)) hx)))))
  | .asset (.closure _) =>
    exact .inl (.inl (.inl (.inr (hfound (c := fun f => .asset (.closure f)) hx))))
  | .asset (.resumption _) =>
    exact .inl (.inl (.inr (hfound (c := fun r => .asset (.resumption r)) hx)))
  | .fiber _ => exact .inl (.inr (hfound hx))
  | .exchange _ => exact .inr (hfound hx)
  | .asset (.notice n) => simp [owns] at hx

/-- What is owned is held. -/
theorem mem_held {y : Holding} (hx : x ∈ m.owns y) : x ∈ m.held := by
  have hshelved : m.shelved = m.owners.flatMap (·.2) := by
    simp [shelved, owners, Store.gather, List.flatMap_append, List.flatMap_map]
  refine List.mem_append_right _ (List.mem_append_left _ ?_)
  rw [hshelved]
  exact List.mem_flatMap.mpr ⟨_, mem_owners hx, hx⟩

omit [Contents ω] in
/-- What has shares is there. -/
theorem has_of_shares (hx : 0 < m.shares x) : m.has x = true := by
  have hfound : ∀ {α : Type} {s : Store α} {id : Nat} {g : α → Nat},
      0 < s.sharesOf g id → s.contains id = true := by
    intro α s id g hpos
    by_contra hnot
    rw [Store.sharesOf_eq_zero g (by simpa using hnot)] at hpos
    exact Nat.lt_irrefl 0 hpos
  match x with
  | .asset (.cell _) | .installation _ => exact hfound hx
  | .asset (.reference _) | .asset (.closure _) | .asset (.resumption _) | .asset (.notice _)
  | .fiber _ | .exchange _ => exact absurd hx (Nat.lt_irrefl 0)

omit [Contents ω] in
theorem mem_frames_installation (hi : i ∈ K.installations) : .installation i ∈ m.frames K :=
  List.mem_flatMap.mpr ⟨i, hi, List.mem_cons_self⟩

omit [Contents ω] in
theorem mem_frames_handler (hi : i ∈ K.installations) :
    .asset (.cell (m.chain.get i).handler) ∈ m.frames K :=
  List.mem_flatMap.mpr ⟨i, hi, List.mem_cons_of_mem _ List.mem_cons_self⟩

namespace Exclusive

/-- As long as everything is released from above `hs`, shares are held. -/
theorem shares_eq (h : m.Exclusive K hs x) (hm : m.Filed) (hrel : Releases hs m zs m') :
    m'.shares x = m'.held.count x := by
  have hcount := hrel.held.count_eq x
  rw [List.count_append] at hcount
  rw [hrel.shares hm, h.shares]
  omega

/-- What is held is there. -/
theorem has_of_mem (h : m.Exclusive K hs x) (hm : m.Filed) (hrel : Releases hs m zs m')
    (hheld : x ∈ m'.held) : m'.has x = true := by
  refine has_of_shares ?_
  rw [h.shares_eq hm hrel]
  exact List.count_pos_iff.mpr hheld

/-- What is left when the computation is gone is held by an installation of it that is left. -/
theorem exists_holder (h : m.Exclusive K hs x) (hm : m.Filed) (hheld : x ∈ m.held)
    (hrel : Releases hs m zs m') (hend : m'.releasing = hs)
    (hfibers : ∀ f ∈ K.tower.fibers, m'.has (.fiber f) = false)
    (hreferences : ∀ r, .asset (.reference r) ∈ ownedBy K.tower.code →
      m'.has (.asset (.reference r)) = false) (hhas : m'.has x = true) :
    ∃ j ∈ K.installations, m'.has (.installation j) = true ∧ x ∈ m.owns (.installation j) := by
  have hloses := hrel.loses hm
  have hshares : 0 < m.shares x := by
    rw [h.shares]
    exact List.count_pos_iff.mpr hheld
  have hpos := hrel.shares_pos hm hshares hhas
  rw [h.shares_eq hm hrel, List.count_pos_iff] at hpos
  obtain ⟨hrest, hroot⟩ := h.rooted
  have hrooted : m'.rooted = m.rooted := by
    simp only [Machine.rooted, Machine.waiting, Machine.armed, hloses.stack, hloses.resumers,
      hloses.pending, hloses.control, hloses.top, hloses.statics]
  simp only [Machine.held, hend, hrooted, List.mem_append, hrest, hroot, false_or, or_false] at hpos
  obtain ⟨y, hy⟩ := exists_owns (hrel.filed hm) hpos
  have hthere := has_of_owns hy
  have hy' := hloses.mem_owns hy
  rcases List.mem_append.mp (h.holders y hy') with hpart | hpart
  · rcases List.mem_append.mp hpart with hpart | hpart
    · obtain ⟨f, hf, rfl⟩ := List.mem_map.mp hpart
      simp [hfibers f hf] at hthere
    · obtain ⟨j, hj, rfl⟩ := List.mem_map.mp hpart
      exact ⟨j, hj, hthere, hy'⟩
  · obtain ⟨hmem, hreference⟩ := List.mem_filter.mp hpart
    obtain ⟨r, rfl⟩ := Holding.isReference_iff.mp hreference
    simp [hreferences r hmem] at hthere

end Exclusive

/-- The installations of a captured computation are held by what drives them. -/
theorem mem_held_installation (hbegin : m.releasing = K.cont.owned ++ hs)
    (hparked : K.tower.Parked m.fibers) (hi : i ∈ K.installations) : .installation i ∈ m.held := by
  rcases List.mem_append.mp hi with hi | hi
  · obtain ⟨a, ha, hdriver⟩ := List.mem_filterMap.mp hi
    obtain ⟨e, he, hin⟩ := Tower.mem_code ha
    refine mem_held (y := .fiber e.1) ?_
    simp only [owns, hparked.found e he, Option.elim_some]
    refine List.mem_flatMap.mpr ⟨a, hin, ?_⟩
    cases a <;> simp_all [Activation.driver?, Activation.owned]
  · rw [List.mem_singleton] at hi
    refine List.mem_append_left _ ?_
    rw [hbegin, hi]
    simp [Kept.cont, Cont.owned, Segment.owned]

/-- A handler is held by its installation. -/
theorem mem_held_handler (hhas : m.has (.installation i) = true) :
    .asset (.cell (m.chain.get i).handler) ∈ m.held := by
  obtain ⟨a, ha⟩ := Option.isSome_iff_exists.mp hhas
  refine mem_held (y := .installation i) ?_
  simp [owns, ha, Installation.owned, Chain.get]

/-- An installation that nothing holds apart from a captured computation goes with it, unless one
stays from which links lead down to it. -/
theorem installation_freed (hm : m.Filed) (hfits : K.Fits m.chain)
    (hbegin : m.releasing = K.cont.owned ++ hs) (hparked : K.tower.Parked m.fibers)
    (hrel : Releases hs m zs m') (hend : m'.releasing = hs)
    (hfibers : ∀ f ∈ K.tower.fibers, m'.has (.fiber f) = false)
    (hreferences : ∀ r, .asset (.reference r) ∈ ownedBy K.tower.code →
      m'.has (.asset (.reference r)) = false) (hi : i ∈ K.installations)
    (habove : ∀ j ∈ K.installations, (∃ is, m.chain.Linked (some j) is (some i)) →
      m.Exclusive K hs (.installation j)) : m'.has (.installation i) = false := by
  by_contra hleft
  have hhas : m'.has (.installation i) = true := by simpa using hleft
  -- what holds an installation that is left is one that is left above it
  have hup : ∀ n, ∃ j ∈ K.installations, m'.has (.installation j) = true ∧
      (∃ is, m.chain.Linked (some j) is (some i)) ∧
      ∃ is, m.chain.Linked (some j) is none ∧ n ≤ is.length := by
    intro n
    induction n with
    | zero =>
      obtain ⟨is, his⟩ := hfits.ends hi
      exact ⟨i, hi, hhas, ⟨[], rfl⟩, is, his, Nat.zero_le _⟩
    | succ n ih =>
      obtain ⟨j, hj, hthere, ⟨js, hdown⟩, is, his, hlen⟩ := ih
      obtain ⟨j', hj', hthere', howns⟩ := (habove j hj ⟨js, hdown⟩).exists_holder hm
        (mem_held_installation hbegin hparked hj) hrel hend hfibers hreferences hthere
      obtain ⟨a, ha⟩ := Option.isSome_iff_exists.mp (has_of_owns howns)
      have hbelow : (m.chain.get j').below = some j := by
        cases hb : a.below with
        | none => simp [owns, ha, Installation.owned, hb] at howns
        | some b => simpa [owns, ha, Installation.owned, hb, eq_comm, Chain.get] using howns
      refine ⟨j', hj', hthere', ⟨j' :: js, rfl, ?_⟩, j' :: is, ⟨rfl, ?_⟩, Nat.succ_le_succ hlen⟩
      · rwa [hbelow]
      · rwa [hbelow]
  -- links do not go up without end
  obtain ⟨b, hb⟩ := m.chain.exists_longest K.installations
  obtain ⟨j, hj, -, -, is, his, hlen⟩ := hup (b + 1)
  exact absurd (Nat.le_trans hlen (hb j hj is his)) (Nat.not_succ_le_self b)

/-- A handler that nothing holds apart from a captured computation goes with it, unless one of its
installations stays, or one from which links lead down to them. -/
theorem handler_freed (hm : m.Filed) (hfits : K.Fits m.chain)
    (hbegin : m.releasing = K.cont.owned ++ hs) (hparked : K.tower.Parked m.fibers)
    (hrel : Releases hs m zs m') (hend : m'.releasing = hs)
    (hfibers : ∀ f ∈ K.tower.fibers, m'.has (.fiber f) = false)
    (hreferences : ∀ r, .asset (.reference r) ∈ ownedBy K.tower.code →
      m'.has (.asset (.reference r)) = false) {c : CellId}
    (hc : m.Exclusive K hs (.asset (.cell c)))
    (habove : ∀ i ∈ K.installations, (m.chain.get i).handler = c → ∀ j ∈ K.installations,
      (∃ is, m.chain.Linked (some j) is (some i)) → m.Exclusive K hs (.installation j))
    (hi : i ∈ K.installations) (hhandler : (m.chain.get i).handler = c) :
    m'.has (.asset (.cell c)) = false := by
  by_contra hleft
  have hhas : m'.has (.asset (.cell c)) = true := by simpa using hleft
  have hthere := (habove i hi hhandler i hi ⟨[], rfl⟩).has_of_mem hm (.refl m)
    (mem_held_installation hbegin hparked hi)
  obtain ⟨j, hj, hstays, howns⟩ := hc.exists_holder hm (hhandler ▸ mem_held_handler hthere) hrel hend
    hfibers hreferences hhas
  obtain ⟨a, ha⟩ := Option.isSome_iff_exists.mp (has_of_owns howns)
  have hown : (m.chain.get j).handler = c := by
    cases hb : a.below <;> simp_all [owns, Installation.owned, Chain.get]
  have hgone := installation_freed hm hfits hbegin hparked hrel hend hfibers hreferences hj
    (habove j hj hown)
  simp [hgone] at hstays

namespace Private

/-- Nothing holds any part of it. -/
theorem exclusive (h : m.Private K hs) (hx : x ∈ m.frames K) : m.Exclusive K hs x where
  shares := h.shares x hx
  rooted := h.rooted x hx
  holders y hy := by
    simp only [Kept.parts, List.mem_append, List.mem_map, List.mem_filter]
    rcases h.holders x hx y hy with ⟨f, hf, rfl⟩ | ⟨i, hi, rfl⟩ | ⟨hmem, r, rfl⟩
    · exact .inl (.inl ⟨f, hf, rfl⟩)
    · exact .inl (.inr ⟨i, hi, rfl⟩)
    · exact .inr ⟨hmem, rfl⟩

/-- While an installation of the computation is there, so is its handler. -/
theorem has_handler (h : m.Private K hs) (hm : m.Filed) (hrel : Releases hs m zs m')
    (hi : i ∈ K.installations) (hhas : m'.has (.installation i) = true) :
    m'.has (.asset (.cell (m.chain.get i).handler)) = true := by
  obtain ⟨a', ha'⟩ := Option.isSome_iff_exists.mp hhas
  obtain ⟨a, ha, heq⟩ := (hrel.loses hm).installations i a' ha'
  have hhandler : a'.handler = a.handler := by rw [heq]
  refine (h.exclusive (mem_frames_handler hi)).has_of_mem hm hrel
    (mem_held (y := .installation i) ?_)
  simp [owns, ha', Installation.owned, Chain.get, ha, hhandler]

/-- The handlers that the computation alone held are not left after it. -/
theorem freed (h : m.Private K hs) (hm : m.Filed) (hfits : K.Fits m.chain)
    (hbegin : m.releasing = K.cont.owned ++ hs) (hparked : K.tower.Parked m.fibers)
    (hrel : Releases hs m zs m') (hend : m'.releasing = hs)
    (hfibers : ∀ f ∈ K.tower.fibers, m'.has (.fiber f) = false)
    (hreferences : ∀ r, .asset (.reference r) ∈ ownedBy K.tower.code →
      m'.has (.asset (.reference r)) = false) (hi : i ∈ K.installations) :
    m'.has (.asset (.cell (m.chain.get i).handler)) = false :=
  handler_freed hm hfits hbegin hparked hrel hend hfibers hreferences
    (h.exclusive (mem_frames_handler hi))
    (fun _ _ _ _ hj _ => h.exclusive (mem_frames_installation hj)) hi rfl

end Private

/-- A list that is to be released is released in order, once everything is. -/
theorem Releases.sublist_of_end (h : Releases hs m zs m') {us : List Holding}
    (hbegin : m.releasing = us ++ hs) (hend : m'.releasing = hs) : us.Sublist zs := by
  obtain ⟨ys, hys, hsub⟩ := h.sublist hbegin
  obtain rfl : ys = [] := by simpa [hend] using hys.symm
  simpa using hsub

/-- Of two parts of a list, the first comes before or something of the second behind. -/
theorem sublist_or_mem {α : Type} {P Q R T : List α} {a : α} (h : (P ++ a :: Q).Sublist (R ++ T)) :
    P.Sublist R ∨ a ∈ T := by
  obtain ⟨L₁, L₂, heq, h₁, h₂⟩ := List.sublist_append_iff.mp h
  rcases List.append_eq_append_iff.mp heq with ⟨A, rfl, -⟩ | ⟨C, rfl, rfl⟩
  · exact .inl ((List.sublist_append_left _ _).trans h₁)
  · exact .inr (h₂.subset (by simp))

namespace Private

/-- A handler that only the computation holds is dropped after what its body owns. -/
theorem handler_dropped (h : m.Private K hs) (hm : m.Filed) {m₁ : Machine ω}
    (hfits : K.Fits m.chain) (hbegin : m.releasing = K.cont.owned ++ hs)
    (hparked : K.tower.Parked m.fibers) (hfibers : Releases hs m (K.tower.fibers.map .fiber) m₁)
    (hafter : m₁.releasing = K.owned ++ hs) (hrel : Releases hs m₁ zs m') (hend : m'.releasing = hs)
    {A B : List (Activation ω)} {f : FiberId} (hcode : K.code = A ++ .driving i f :: B) :
    ∃ zs₁ zs₂ m₂ m₃, zs = zs₁ ++ .asset (.cell (m.chain.get i).handler) :: zs₂ ∧
      Releases hs m₁ zs₁ m₂ ∧ m₂.has (.asset (.cell (m.chain.get i).handler)) = true ∧
      Releases hs m₂ [.asset (.cell (m.chain.get i).handler)] m₃ ∧
      m₃.has (.asset (.cell (m.chain.get i).handler)) = false ∧ Releases hs m₃ zs₂ m' ∧
      ((ownedBy A).filterMap Holding.notice?).Sublist (zs₁.filterMap Holding.notice?) := by
  have hall := hfibers.trans hrel
  have hi : i ∈ K.installations := by
    have hmem : .driving i f ∈ K.code := by simp [hcode]
    have hdriver : i ∈ drivers K.code := List.mem_filterMap.mpr ⟨_, hmem, rfl⟩
    simpa [Kept.code, drivers_append, drivers, Activation.driver?, Kept.installations] using hdriver
  have howned := hrel.sublist_of_end hafter hend
  have hgone : m'.has (.asset (.cell (m.chain.get i).handler)) = false := by
    refine h.freed hm hfits hbegin hparked hall hend (fun f hf => ?_) (fun r hr => ?_) hi
    · exact hall.gone hm (List.mem_append_left _ (List.mem_map_of_mem hf)) (.inr (.inr ⟨f, rfl⟩))
    · refine hall.gone hm (List.mem_append_right _ (howned.subset ?_)) (.inl ⟨r, rfl⟩)
      exact List.mem_append_left _ (Tower.mem_owned hr rfl)
  have hthere : m₁.has (.asset (.cell (m.chain.get i).handler)) = true := by
    rw [hfibers.has hm (by simp)]
    have hfound := (h.exclusive (mem_frames_installation hi)).has_of_mem hm (.refl m)
      (mem_held_installation hbegin hparked hi)
    exact h.has_handler hm (.refl m) hi hfound
  obtain ⟨zs₁, zs₂, m₂, m₃, hzs, hbefore, hhas, hone, habsent, hrest⟩ :=
    hrel.lost (hfibers.filed hm) hthere hgone
  refine ⟨zs₁, zs₂, m₂, m₃, hzs, hbefore, hhas, hone, habsent, hrest, ?_⟩
  -- the installation was freed, so its driver's share was released
  have huntil := hbefore.trans hone
  obtain ⟨ys, hys, hsub⟩ := huntil.sublist hafter
  obtain ⟨P, Q, hPQ, hnotices⟩ := Kept.owned_eq_append hcode
  rw [hPQ] at hsub
  rcases sublist_or_mem hsub with hP | hmem
  · have hfirst := hP.filterMap Holding.notice?
    rw [hnotices, List.filterMap_append] at hfirst
    simpa [List.filterMap_cons, Holding.notice?] using hfirst
  · have hheld : .installation i ∈ m₃.held := by
      refine List.mem_append_left _ ?_
      rw [hys]
      exact List.mem_append_left _ hmem
    have huntil' := hfibers.trans huntil
    have hfound := (h.exclusive (mem_frames_installation hi)).has_of_mem hm huntil' hheld
    rw [h.has_handler hm huntil' hi hfound] at habsent
    cases habsent

end Private

end Machine

end EffectHandlers
