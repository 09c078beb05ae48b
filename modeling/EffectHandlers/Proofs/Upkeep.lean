import EffectHandlers.Proofs.Honesty
import EffectHandlers.Proofs.Profiles
import EffectHandlers.Proofs.Sparing
/-!
# Honest code in a thread

The code of a thread that runs, waits or is parked is honest, given what the activations below it
lend. What is lent is held, so it is there; and the thread is solvent, which means that the hand of the
code that runs is covered by shares that nobody else holds.
-/

namespace EffectHandlers

variable {ω : Type} {Γ : Library ω}

/-! ### All fibers -/

/-- All code that waits or is parked satisfies the condition. -/
structure Fibers.All {κ : Type} (p : κ → Prop) (fs : Fibers κ) : Prop where
  waiting : ∀ r ∈ fs.resumers, p r.code
  parked : ∀ e ∈ fs.parked.entries, p e.2

namespace Fibers.All

variable {κ : Type} {p q : κ → Prop} {fs fs' : Fibers κ} {S running : κ} {f : FiberId}

theorem imp (h : fs.All p) (hpq : ∀ S, p S → q S) : fs.All q :=
  ⟨fun r hr => hpq _ (h.waiting r hr), fun e he => hpq _ (h.parked e he)⟩

theorem create (h : fs.All p) (hS : p S) : (fs.create S).2.All p where
  waiting := h.waiting
  parked e he := by
    rcases List.mem_cons.mp he with rfl | he
    · exact hS
    · exact h.parked e he

theorem drop (h : fs.All p) (hdrop : fs.drop? f = some (S, fs')) : fs'.All p := by
  obtain ⟨S', -, heq⟩ := Option.map_eq_some_iff.mp hdrop
  obtain ⟨rfl, rfl⟩ := Prod.mk.inj heq
  exact ⟨h.waiting, fun e he => h.parked e (List.mem_of_mem_eraseP he)⟩

/-- The fiber that is resumed runs, and the code that has resumed it waits. -/
theorem resume (h : fs.All p) (hrunning : p running)
    (hresume : fs.resume? f running = some (S, fs')) : p S ∧ fs'.All p := by
  obtain ⟨S', hS, heq⟩ := Option.map_eq_some_iff.mp hresume
  obtain ⟨rfl, rfl⟩ := Prod.mk.inj heq
  refine ⟨h.parked _ (Store.mem_of_find? hS), fun r hr => ?_,
    fun e he => h.parked e (List.mem_of_mem_eraseP he)⟩
  rcases List.mem_cons.mp hr with rfl | hr
  · exact hrunning
  · exact h.waiting r hr

/-- The latest resumer goes on. -/
theorem handBack (h : fs.All p) (hback : fs.handBack? = some (S, fs')) : p S ∧ fs'.All p := by
  unfold handBack? at hback
  split at hback
  · cases hback
  · rename_i r rest hresumers
    obtain ⟨rfl, rfl⟩ := Prod.mk.inj (Option.some.inj hback)
    refine ⟨h.waiting r (by simp [hresumers]), fun r' hr' => h.waiting r' ?_, h.parked⟩
    rw [hresumers]
    exact List.mem_cons_of_mem _ hr'

/-- The running code is parked, and the latest resumer goes on. -/
theorem suspend (h : fs.All p) (hrunning : p running)
    (hsuspend : fs.suspend? running = some (S, fs')) : p S ∧ fs'.All p := by
  obtain ⟨f, -, hback⟩ := Option.bind_eq_some_iff.mp hsuspend
  have hparks : ({ fs with
      parked := ⟨fs.parked.next, (f, running) :: fs.parked.entries⟩ } : Fibers κ).All p := by
    refine ⟨h.waiting, fun e he => ?_⟩
    rcases List.mem_cons.mp he with rfl | he
    · exact hrunning
    · exact h.parked e he
  exact hparks.handBack hback

end Fibers.All

namespace Machine

/-- The installation has this handler and is of this type, as long as it is there. -/
def Recalls (m : Machine ω) (i : InstallationId) (c : CellId) (t : String) : Prop :=
  i < m.chain.installations.next ∧
    ∀ a, m.chain.installations.find? i = some a → a.handler = c ∧ a.handlerType = t

theorem Recalls.ages {m m' : Machine ω} {i : InstallationId} {c : CellId} {t : String}
    (h : m.Recalls i c t) (hwf : m.chain.installations.WellFormed) (hages : m.chain.Ages m'.chain) :
    m'.Recalls i c t := by
  refine ⟨Nat.lt_of_lt_of_le h.1 hages.installations.next, fun a' ha' => ?_⟩
  obtain ⟨a, ha, hservice⟩ := hages.kept hwf i h.1 a' ha'
  obtain ⟨rfl, rfl⟩ := h.2 a ha
  simp only [Installation.service, Prod.mk.injEq] at hservice
  exact ⟨hservice.1, hservice.2.1⟩

end Machine

variable [Contents ω]

/-! ### Honest stacks -/

section Code

variable (ρ : Regime ω) (P : InstallationId → CellId → String → Prop)

/-- Honest code that lends `B` to what runs above it, and goes on with a value, besides which it gets
`X`. -/
inductive HonestCode : List (Activation ω) → List Owned → List Owned → Prop
  | nil {X} : HonestCode [] ρ.base X
  | start {S B X body} (X' : List Owned) (hbody : body.Honest ρ B [] [] [] X')
      (h : HonestCode S B X') : HonestCode (.start body :: S) B X
  | bind {S B X next} (X' : List Owned)
      (hnext : ∀ v, ρ.value v → (next v).Honest ρ B [] (v.owned ++ X) [] X')
      (h : HonestCode S B X') : HonestCode (.bind next :: S) B X
  | owning {S B X os} (h : HonestCode S B X) : HonestCode (.owning os :: S) (os ++ B) X
  | looping {S B X body next} (X' : List Owned)
      (hbody : ∀ v, ρ.value v → (body v).Honest ρ B [] v.owned [] [])
      (hnext : ∀ v, ρ.value v → (next v).Honest ρ B [] v.owned [] X') (h : HonestCode S B X') :
      HonestCode (.looping body next :: S) B X
  | stepping {S B X} (h : HonestCode S B []) : HonestCode (.stepping :: S) B X
  | driving {S B X i f c t} (hi : P i c t) (htype : ρ.types t) (hc : c ∉ ρ.kept)
      (h : HonestCode S B []) : HonestCode (.driving i f :: S) B X
  | clause {S B X i c t answer} (hi : P i c t) (h : HonestCode S B []) :
      HonestCode (.clause (some i) answer :: S) (.cell c :: B) X
  | returning {S B X i c t answer} (hi : P i c t) (h : HonestCode S B []) :
      HonestCode (.returning i answer :: S) (.cell c :: B) X
  | calling {S B X answer} (h : HonestCode S B []) : HonestCode (.calling answer :: S) B X
  | sending {S B X i e modifier command} (h : HonestCode S B []) :
      HonestCode (.sending i e modifier command :: S) B X

end Code

/-- The code of a closure is honest, once it has what the closure owns. -/
def Closure.Honest (ρ : Regime ω) (y : Closure ω) : Prop :=
  ∀ v, ρ.value v → (y.body v).Honest ρ ρ.base [] (y.owned ++ v.owned) [] []

/-- A continuation goes on honestly. -/
def Cont.Honest (ρ : Regime ω) (P : InstallationId → CellId → String → Prop) : Cont ω → Prop
  | .captured _ _ segment _ => ∃ c t, P segment.lowest c t ∧ ρ.types t ∧ c ∉ ρ.kept
  | .function _ y arg => y.Honest ρ ∧ ∀ v, arg = some v → ρ.value v

theorem Cont.Honest.mono {ρ : Regime ω} {P P' : InstallationId → CellId → String → Prop}
    {k : Cont ω} (h : k.Honest ρ P) (hP : ∀ i c t, P i c t → P' i c t) : k.Honest ρ P' := by
  cases k with
  | captured answer f segment e =>
    obtain ⟨c, t, hi, hrest⟩ := h
    exact ⟨c, t, hP _ _ _ hi, hrest⟩
  | function answer y arg => exact h

/-- A continuation with its value goes on honestly. -/
theorem Cont.Honest.arm {ρ : Regime ω} {P : InstallationId → CellId → String → Prop} {k : Cont ω}
    {v : Value} (h : k.Honest ρ P) (hv : ρ.value v) : (k.arm v).Honest ρ P := by
  cases k with
  | captured => exact h
  | function => exact ⟨h.1, fun v' heq => Option.some.inj heq ▸ hv⟩

namespace HonestCode

variable {ρ : Regime ω} {P P' : InstallationId → CellId → String → Prop}
  {S : List (Activation ω)} {B X : List Owned} {o : Owned}

theorem mono (h : HonestCode ρ P S B X) (hP : ∀ i c t, P i c t → P' i c t) :
    HonestCode ρ P' S B X := by
  induction h with
  | nil => exact .nil
  | start X' hbody _ ih => exact .start X' hbody ih
  | bind X' hnext _ ih => exact .bind X' hnext ih
  | owning _ ih => exact .owning ih
  | looping X' hbody hnext _ ih => exact .looping X' hbody hnext ih
  | stepping _ ih => exact .stepping ih
  | driving hi htype hc _ ih => exact .driving (hP _ _ _ hi) htype hc ih
  | clause hi _ ih => exact .clause (hP _ _ _ hi) ih
  | returning hi _ ih => exact .returning (hP _ _ _ hi) ih
  | calling _ ih => exact .calling ih
  | sending _ ih => exact .sending ih

theorem base_subset (h : HonestCode ρ P S B X) : ρ.base ⊆ B := by
  induction h with
  | nil => exact List.Subset.refl _
  | owning _ ih => exact fun o ho => List.mem_append_right _ (ih ho)
  | clause _ _ ih | returning _ _ ih => exact fun o ho => List.mem_cons_of_mem _ (ih ho)
  | start _ _ _ ih | bind _ _ _ ih | looping _ _ _ _ ih | stepping _ ih | driving _ _ _ _ ih
  | calling _ ih | sending _ ih => exact ih

/-- What is lent belongs to the thread, or to an activation, or it is the handler of an installation
that an activation holds. -/
theorem lent (h : HonestCode ρ P S B X) (ho : o ∈ B) :
    o ∈ ρ.base ∨ ∃ a ∈ S, .asset o ∈ a.owned ∨
      ∃ i c t, o = .cell c ∧ P i c t ∧ .installation i ∈ a.owned := by
  have hcons : ∀ {a S}, (∃ a' ∈ S, .asset o ∈ a'.owned ∨
      ∃ i c t, o = .cell c ∧ P i c t ∧ .installation i ∈ a'.owned) →
      ∃ a' ∈ a :: S, .asset o ∈ a'.owned ∨
        ∃ i c t, o = .cell c ∧ P i c t ∧ .installation i ∈ (a' : Activation ω).owned :=
    fun ⟨a', ha', hown⟩ => ⟨a', List.mem_cons_of_mem _ ha', hown⟩
  induction h with
  | nil => exact .inl ho
  | owning _ ih =>
    rcases List.mem_append.mp ho with ho | ho
    · exact .inr ⟨_, List.mem_cons_self, .inl (List.mem_map_of_mem ho)⟩
    · exact (ih ho).imp_right hcons
  | clause hi _ ih | returning hi _ ih =>
    rcases List.mem_cons.mp ho with rfl | ho
    · exact .inr ⟨_, List.mem_cons_self, .inr ⟨_, _, _, rfl, hi, by simp [Activation.owned]⟩⟩
    · exact (ih ho).imp_right hcons
  | start _ _ _ ih | bind _ _ _ ih | looping _ _ _ _ ih | stepping _ ih | driving _ _ _ _ ih
  | calling _ ih | sending _ ih => exact (ih ho).imp_right hcons

end HonestCode

/-! ### Solvency -/

namespace Machine

/-- The name was made before. -/
def Issued (m : Machine ω) : Owned → Prop
  | .closure f => f < m.closures.next
  | .resumption r => r < m.resumptions.next
  | _ => True

/-- There is a spare share of each cell for each share in the hand, and for the thread itself where it
keeps the cell. No name is held twice, be it in the hand or elsewhere, but for debts; and none that
is gone or was not made yet is held at all. -/
structure Solvent (kept : List CellId) (gone : Owned → Prop) (m : Machine ω) (H D : List Owned) :
    Prop where
  cells : ∀ c ≠ 0, ((H.count (.cell c) + kept.count c : Nat) : Int) ≤ m.spare (.asset (.cell c))
  names : ∀ o, o.isName = true → (H.count o : Int) ≤ m.spare (.asset o) + 1 + D.count o
  absent : ∀ o, o.isName = true → gone o ∨ ¬ m.Issued o → (H.count o : Int) ≤ m.spare (.asset o)
  debts : ∀ o ∈ D, o.isName = true ∧ m.Issued o ∧ ¬ gone o
  past : ∀ o, gone o → m.Issued o

namespace Solvent

variable {m m' : Machine ω} {kept : List CellId} {gone gone' : Owned → Prop}
  {H H' D D' N : List Owned} {o : Owned}

/-- The hand grows no more than what is spare does, but for new names. -/
theorem next (h : m.Solvent kept gone H D)
    (hspare : ∀ o : Owned, o.Matters → m.spare (.asset o) + H'.count o + D.count o ≤
      m'.spare (.asset o) + H.count o + D'.count o + N.count o)
    (hissued : ∀ o, m.Issued o → m'.Issued o)
    (hnew : ∀ o ∈ N, o.isName = true ∧ ¬ m.Issued o ∧ m'.Issued o) (hnodup : N.Nodup)
    (hdebts : ∀ o ∈ D', o.isName = true ∧ m.Issued o ∧ ¬ gone o) :
    m'.Solvent kept gone H' D' := by
  have hcell : ∀ {L : List Owned} (c : CellId), (∀ o ∈ L, o.isName = true) →
      L.count (.cell c) = 0 := fun c hL =>
    List.count_eq_zero.mpr fun hmem => by cases hL _ hmem
  refine ⟨fun c hc => ?_, fun o ho => ?_, fun o ho habsent => ?_,
    fun o ho => ⟨(hdebts o ho).1, hissued o (hdebts o ho).2.1, (hdebts o ho).2.2⟩,
    fun o ho => hissued o (h.past o ho)⟩
  · have hcells := h.cells c hc
    have hless := hspare (.cell c) hc
    rw [hcell c fun o ho => (hdebts o ho).1, hcell c fun o ho => (hnew o ho).1] at hless
    omega
  · have hless := hspare o (Owned.matters_of_isName ho)
    by_cases hminted : o ∈ N
    · have hfresh := (hnew o hminted).2.1
      have habsent := h.absent o ho (.inr hfresh)
      have honce : N.count o ≤ 1 := List.nodup_iff_count_le_one.mp hnodup o
      omega
    · rw [List.count_eq_zero.mpr hminted] at hless
      have hnames := h.names o ho
      omega
  · have hless := hspare o (Owned.matters_of_isName ho)
    have hold : gone o ∨ ¬ m.Issued o := habsent.imp_right fun hnot hm => hnot (hissued o hm)
    have hnew' : o ∉ N := fun hmem => by
      obtain ⟨-, hfresh, hthere⟩ := hnew o hmem
      exact habsent.elim (fun hgone => hfresh (h.past o hgone)) fun hnot => hnot hthere
    have hnone : o ∉ D' := fun hmem => by
      obtain ⟨-, hthere, hstays⟩ := hdebts o hmem
      exact hold.elim hstays fun hnot => hnot hthere
    rw [List.count_eq_zero.mpr hnew', List.count_eq_zero.mpr hnone] at hless
    have := h.absent o ho hold
    omega

/-- A part of the hand is forgotten. -/
theorem forget (h : m.Solvent kept gone H []) (hH : Affords H H') : m.Solvent kept gone H' [] := by
  refine h.next (N := []) (fun o ho => ?_) (fun _ h => h) (by simp) .nil (by simp)
  have := hH o ho
  omega

/-- A cell of which there is a spare share, or whose holders have all they need, is there. -/
theorem contains {c : CellId} (h : m.Solvent kept gone H D) (hc : c ≠ 0)
    (hheld : .cell c ∈ H ∨ c ∈ kept ∨ 0 < m.holders (.asset (.cell c))) :
    m.cells.contains c := by
  by_contra hnone
  have hzero : m.shares (.asset (.cell c)) = 0 := Store.sharesOf_eq_zero _ (by simpa using hnone)
  have hcells := h.cells c hc
  simp only [spare, hzero] at hcells
  have hpositive : 0 < H.count (.cell c) + kept.count c + m.holders (.asset (.cell c)) := by
    rcases hheld with hmem | hmem | hheld
    · have := List.count_pos_iff.mpr hmem
      omega
    · have := List.count_pos_iff.mpr hmem
      omega
    · omega
  omega

/-- A name that is in the hand or held elsewhere is not gone. -/
theorem there (h : m.Solvent kept gone H D) (ho : o.isName = true)
    (hheld : o ∈ H ∨ 0 < m.holders (.asset o)) : m.Issued o ∧ ¬ gone o := by
  have hpositive : 0 < H.count o + m.holders (.asset o) := by
    rcases hheld with hmem | hheld
    · have := List.count_pos_iff.mpr hmem
      omega
    · omega
  have hnot : ¬ (gone o ∨ ¬ m.Issued o) := fun habsent => by
    have := h.absent o ho habsent
    rw [spare_name _ ho] at this
    omega
  exact ⟨by by_contra hfresh; exact hnot (.inr hfresh), fun hgone => hnot (.inl hgone)⟩

end Solvent

end Machine

end EffectHandlers

/-!
## Honest threads

What is true of a thread all code of which is honest, and what is enough for it to be true after the
next step. Releasing takes no share from anybody who has one, and drops no name that is held.
-/

namespace EffectHandlers

/-! ### Tables -/

namespace Store

variable {α : Type} {p q : α → Prop} {s : Store α} {id : Nat} {a : α}

/-- All entries satisfy the condition. -/
def All (p : α → Prop) (s : Store α) : Prop := ∀ e ∈ s.entries, p e.2

namespace All

theorem imp (h : s.All p) (hpq : ∀ a, p a → q a) : s.All q := fun e he => hpq _ (h e he)

theorem find (h : s.All p) (ha : s.find? id = some a) : p a := h _ (mem_of_find? ha)

theorem insert (h : s.All p) (ha : p a) : (s.insert a).2.All p := by
  intro e he
  rcases List.mem_cons.mp he with rfl | he
  · exact ha
  · exact h e he

theorem erase (h : s.All p) (id : Nat) : (s.erase id).All p :=
  fun e he => h e (List.mem_of_mem_eraseP he)

theorem modify {f : α → α} (h : s.All p) (hf : ∀ a, s.find? id = some a → p (f a)) :
    (s.modify id f).All p := by
  cases hfound : s.find? id with
  | none =>
    rw [modify_of_find?_eq_none f hfound]
    exact h
  | some a =>
    intro e he
    rcases List.mem_cons.mp ((entries_perm_modify f hfound).mem_iff.mp he) with rfl | he
    · exact hf a hfound
    · exact h.erase id e he

end All

end Store

/-! ### Installations -/

/-- The installations that declare something are of handler types in use. -/
def Chain.Manned {ω : Type} [Inhabited ω] (Γ : Library ω) (ρ : Regime ω) (c : Chain) : Prop :=
  ∀ i, (c.get i).clauses = [] ∨ ρ.types (c.get i).handlerType ∧
    (c.get i).clauses = (Γ.handlerType (c.get i).handlerType).entries

theorem Chain.Manned.of_profile {ω : Type} [Inhabited ω] {Γ : Library ω} {ρ : Regime ω} {c c' : Chain}
    (h : c.Manned Γ ρ) (hprofile : ∀ j, (c'.get j).profile = (c.get j).profile ∨
      (c'.get j).profile = Installation.bottom.profile ∨
      ρ.types (c'.get j).handlerType ∧
        (c'.get j).clauses = (Γ.handlerType (c'.get j).handlerType).entries) : c'.Manned Γ ρ := by
  intro j
  rcases hprofile j with hsame | hbottom | hmanned
  · simp only [Installation.profile, Prod.mk.injEq] at hsame
    obtain ⟨htype, -, hclauses⟩ := hsame
    rw [htype, hclauses]
    exact h j
  · simp only [Installation.profile, Prod.mk.injEq] at hbottom
    exact .inl hbottom.2.2
  · exact .inr hmanned

/-- What a command carries comes with it, and its result is like all values. -/
structure Exchange.Honest {ω : Type} [Inhabited ω] (ρ : Regime ω) (y : Exchange) : Prop where
  command : ∀ command, y.command = some command → Affords command.owned command.payload.owned
  result : ∀ v, y.result = some v → ρ.value v

namespace Machine

variable {ω : Type} [Contents ω] {Γ : Library ω} {m m' : Machine ω} {ρ : Regime ω}
  {gone : Owned → Prop} {P P' : InstallationId → CellId → String → Prop} {o : Owned}

/-- What the content of a cell owns, if the cell is there. -/
def stored (m : Machine ω) (c : CellId) : List Owned :=
  ((m.cells.find? c).map fun y => Contents.owned y.content).getD []

/-- All code that does not run is honest, and all contents are of the agreed shape. -/
structure Furnished (ρ : Regime ω) (P : InstallationId → CellId → String → Prop) (m : Machine ω) :
    Prop where
  fibers : m.fibers.All fun S => ∃ B, HonestCode ρ P S B []
  cells : m.cells.All fun y => ρ.shape y.content
  closures : m.closures.All (Closure.Honest ρ)
  resumptions : m.resumptions.All (Cont.Honest ρ P)
  pending : ∀ k, m.pending = some k → k.Honest ρ P
  exchanges : m.exchanges.All (Exchange.Honest ρ)

/-- How an honest thread goes on. -/
inductive Running (ρ : Regime ω) (gone : Owned → Prop) (P : InstallationId → CellId → String → Prop)
    (m : Machine ω) : Prop
  | eval {c B K H D X} (hcontrol : m.control = .eval c) (hcode : HonestCode ρ P m.stack B X)
      (hc : c.Honest ρ B K H D X) (hhand : m.Solvent ρ.kept gone H D)
      (hknown : ∀ k ∈ K, Affords (m.stored k.1) k.2) (hcalm : m.releasing = [] ∨ K = [] ∧ D = [])
  | ret {v B X} (hcontrol : m.control = .ret v) (hv : ρ.value v)
      (hcode : HonestCode ρ P m.stack B X) (hhand : m.Solvent ρ.kept gone X [])
  | done {v B} (hcontrol : m.control = .deliver (.done v)) (hv : ρ.value v)
      (hcode : HonestCode ρ P m.stack B []) (hhand : m.Solvent ρ.kept gone [] [])
  | tail {k B} (hcontrol : m.control = .deliver (.tail k)) (hk : k.Honest ρ P)
      (hcode : HonestCode ρ P m.stack B []) (hhand : m.Solvent ρ.kept gone [] [])
  | settle {answer v B} (hcontrol : m.control = .settle answer v) (hv : ρ.value v)
      (hcode : HonestCode ρ P m.stack B []) (hhand : m.Solvent ρ.kept gone [] [])
  | request {r B} (hcontrol : m.control = .request r) (hcode : HonestCode ρ P m.stack B [])
      (hhand : m.Solvent ρ.kept gone [] [])
  | wake {B} (hcontrol : m.control = .wake) (hcode : HonestCode ρ P m.stack B [])
      (hhand : m.Solvent ρ.kept gone [] [])
  | unwind {message B X} (hcontrol : m.control = .unwind message)
      (hcode : HonestCode ρ P m.stack B X)
  | ended (h : m.Over)

/-- All code is honest. -/
structure Upright (ρ : Regime ω) (gone : Owned → Prop) (P : InstallationId → CellId → String → Prop)
    (m : Machine ω) : Prop where
  furnished : m.Furnished ρ P
  running : m.Running ρ gone P

/-- All code of the thread is honest, and there is a share for everyone who holds one. -/
structure Honest (Γ : Library ω) (ρ : Regime ω) (gone : Owned → Prop) (m : Machine ω) : Prop where
  counts : m.Counts
  tidy : m.Tidy
  closures : m.closures.WellFormed
  spare : ∀ i, 0 ≤ m.spare (.installation i)
  manned : m.chain.Manned Γ ρ
  upright : m.Upright ρ gone m.Recalls

theorem Furnished.mono (h : m.Furnished ρ P) (hP : ∀ i c t, P i c t → P' i c t) :
    m.Furnished ρ P' :=
  { h with
    fibers := h.fibers.imp fun _ ⟨B, hS⟩ => ⟨B, hS.mono hP⟩
    resumptions := h.resumptions.imp fun _ hk => hk.mono hP
    pending := fun k hk => (h.pending k hk).mono hP }

/-- Changes of the running code leave the rest honest. -/
theorem Furnished.congr (h : m.Furnished ρ P) (hfibers : m'.fibers = m.fibers)
    (hcells : m'.cells = m.cells) (hclosures : m'.closures = m.closures)
    (hresumptions : m'.resumptions = m.resumptions) (hpending : m'.pending = m.pending)
    (hexchanges : m'.exchanges = m.exchanges) : m'.Furnished ρ P where
  fibers := hfibers ▸ h.fibers
  cells := hcells ▸ h.cells
  closures := hclosures ▸ h.closures
  resumptions := hresumptions ▸ h.resumptions
  pending := hpending ▸ h.pending
  exchanges := hexchanges ▸ h.exchanges

theorem Running.mono (h : m.Running ρ gone P) (hP : ∀ i c t, P i c t → P' i c t) :
    m.Running ρ gone P' := by
  cases h with
  | eval hcontrol hcode hc hhand hknown hcalm =>
    exact .eval hcontrol (hcode.mono hP) hc hhand hknown hcalm
  | ret hcontrol hv hcode hhand => exact .ret hcontrol hv (hcode.mono hP) hhand
  | done hcontrol hv hcode hhand => exact .done hcontrol hv (hcode.mono hP) hhand
  | tail hcontrol hk hcode hhand => exact .tail hcontrol (hk.mono hP) (hcode.mono hP) hhand
  | settle hcontrol hv hcode hhand => exact .settle hcontrol hv (hcode.mono hP) hhand
  | request hcontrol hcode hhand => exact .request hcontrol (hcode.mono hP) hhand
  | wake hcontrol hcode hhand => exact .wake hcontrol (hcode.mono hP) hhand
  | unwind hcontrol hcode => exact .unwind hcontrol (hcode.mono hP)
  | ended hover => exact .ended hover

theorem Upright.mono (h : m.Upright ρ gone P) (hP : ∀ i c t, P i c t → P' i c t) :
    m.Upright ρ gone P' := ⟨h.furnished.mono hP, h.running.mono hP⟩

theorem Recalls.step (h : m.Counts) {i : InstallationId} {c : CellId} {t : String}
    (hi : m.Recalls i c t) : (m.step Γ).Recalls i c t :=
  hi.ages h.installations (Ages.step m).chain

theorem Issued.step (h : m.Tidy) (ho : m.Issued o) : (m.step Γ).Issued o := by
  cases o with
  | closure f => exact Nat.lt_of_lt_of_le ho (Ages.step (Γ := Γ) m).closures.next
  | resumption r => exact (step_find? h ho).1
  | _ => trivial

/-! ### Steps -/

namespace Honest

/-- What is to be seen of a thread after a step. -/
theorem next (h : m.Honest Γ ρ gone) (hmanned : (m.step Γ).chain.Manned Γ ρ)
    (hupright : (m.step Γ).Upright ρ (fun o => gone o ∨ m.Drops Γ o) (m.step Γ).Recalls) :
    (m.step Γ).Honest Γ ρ fun o => gone o ∨ m.Drops Γ o where
  counts := h.counts.step
  tidy := h.tidy.step
  closures := (Ages.step m).closures.wellFormed h.closures
  spare _ := spare_step_installation h.counts (h.spare _)
  manned := hmanned
  upright := hupright

/-- Where nothing is released, nothing is dropped. -/
theorem next_of_idle (h : m.Honest Γ ρ gone) (hreleasing : m.releasing = [])
    (hmanned : (m.step Γ).chain.Manned Γ ρ)
    (hupright : (m.step Γ).Upright ρ gone (m.step Γ).Recalls) :
    (m.step Γ).Honest Γ ρ fun o => gone o ∨ m.Drops Γ o := by
  have hgone : (fun o => gone o ∨ m.Drops Γ o) = gone := by
    funext o
    simp [Drops, hreleasing]
  exact h.next hmanned (hgone.symm ▸ hupright)

/-- Where no handler is installed, installations stay what they are. -/
theorem next_of_same (h : m.Honest Γ ρ gone) (hreleasing : m.releasing = [])
    (hsame : m.chain.SameProfiles (m.step Γ).chain)
    (hupright : (m.step Γ).Upright ρ gone m.Recalls) :
    (m.step Γ).Honest Γ ρ fun o => gone o ∨ m.Drops Γ o :=
  h.next_of_idle hreleasing (h.manned.of_profile fun j => (hsame.profile j).imp_right .inl)
    (hupright.mono fun _ _ _ => Recalls.step h.counts)

end Honest

/-! ### Releasing -/

/-- What a release leaves was there before. -/
theorem Furnished.gives (h : m.Furnished ρ P) {x : Holding} {os : List Holding}
    (hgives : m.Gives x os m') : m'.Furnished ρ P := by
  cases hgives with
  | nothing => exact h
  | notice | installationShare | installation | reference =>
    exact h.congr rfl rfl rfl rfl rfl rfl
  | cellShare =>
    have hshape := h.cells
    exact { h with cells := hshape.modify fun y hy => (hshape.find hy : ρ.shape y.content) }
  | cell => exact { h with cells := h.cells.erase _ }
  | closure => exact { h with closures := h.closures.erase _ }
  | resumption => exact { h with resumptions := h.resumptions.erase _ }
  | fiber =>
    exact { h with fibers := ⟨h.fibers.waiting, fun e he =>
      h.fibers.parked e (List.mem_of_mem_eraseP he)⟩ }
  | exchange => exact { h with exchanges := h.exchanges.erase _ }

/-- A name that is released while it can be used has one holder less. -/
theorem spare_drops (h : m.Drops Γ o) (ho : o.isName = true) :
    (m.step Γ).spare (.asset o) = m.spare (.asset o) + 1 := by
  obtain ⟨hhead, hholds, -⟩ := h
  obtain ⟨hs, hreleasing⟩ : ∃ hs, m.releasing = .asset o :: hs := by
    cases hreleasing : m.releasing with
    | nil => simp [hreleasing] at hhead
    | cons y hs =>
      rw [hreleasing] at hhead
      exact ⟨hs, by rw [Option.some.inj hhead]⟩
  let m₀ : Machine ω := { m with releasing := hs }
  have h₀ : m.spare (.asset o) = m₀.spare (.asset o) - [Holding.asset o].count (.asset o) := by
    have hsame : m = m₀.release [.asset o] := by simp [m₀, release, ← hreleasing]
    exact (congrArg (fun m : Machine ω => m.spare (.asset o)) hsame).trans (spare_release m₀ _)
  rw [List.count_singleton_self] at h₀
  rw [step_releasing hreleasing]
  change (m₀.releaseOne (.asset o)).spare (.asset o) = _
  cases o with
  | closure f =>
    obtain ⟨y, hy⟩ := Option.isSome_iff_exists.mp hholds
    have hy' : m₀.closures.find? f = some y := hy
    let m₁ : Machine ω := { m₀ with closures := m₀.closures.erase f }
    have h₁ : m₁.spare (.asset (.closure f)) = _ := spare_closure_erase hy'
    have h₂ : (m₁.discard y.owned).spare (.asset (.closure f)) = _ := spare_release m₁ _
    simp only [releaseOne, releaseAsset, hy']
    change (m₁.discard y.owned).spare _ = _
    omega
  | resumption r =>
    obtain ⟨k, hk⟩ := Option.isSome_iff_exists.mp hholds
    have hk' : m₀.resumptions.find? r = some k := hk
    let m₁ : Machine ω := { m₀ with resumptions := m₀.resumptions.erase r }
    have h₁ : m₁.spare (.asset (.resumption r)) = _ := spare_resumption_erase hk'
    have h₂ : (m₁.release k.owned).spare (.asset (.resumption r)) = _ := spare_release m₁ _
    have h₃ : (((m₁.bump .discarded).trace (.discarding k.answer)).release k.owned).spare
        (.asset (.resumption r)) = (m₁.release k.owned).spare (.asset (.resumption r)) :=
      spare_congr rfl
    simp only [releaseOne, releaseAsset, hk']
    change (((m₁.bump .discarded).trace (.discarding k.answer)).release k.owned).spare _ = _
    omega
  | cell | reference | notice => cases ho

/-- Releasing takes nothing out of the hand. -/
theorem Solvent.releasing {kept : List CellId} {H : List Owned} (h : m.Solvent kept gone H [])
    (hcounts : m.Counts) (htidy : m.Tidy) (hclosures : m.closures.WellFormed) {y : Holding}
    {hs : List Holding} (hreleasing : m.releasing = y :: hs) :
    (m.step Γ).Solvent kept (fun o => gone o ∨ m.Drops Γ o) H [] := by
  have hspare : ∀ o : Owned, m.spare (.asset o) ≤ (m.step Γ).spare (.asset o) := fun o => by
    rw [step_releasing hreleasing]
    exact spare_releaseOne hcounts.cells hcounts.installations hreleasing
  have hissued : ∀ o, m.Issued o → (m.step Γ).Issued o := fun o => Issued.step htidy
  have hkept : (m.step Γ).Solvent kept gone H [] := by
    refine h.next (N := []) (fun o _ => ?_) hissued (by simp) .nil (by simp)
    have := hspare o
    omega
  refine { hkept with absent := fun o ho habsent => ?_, debts := by simp, past := fun o hgone => ?_ }
  · rcases habsent with (hgone | hdrops) | hfresh
    · exact hkept.absent o ho (.inl hgone)
    · have hnames := h.names o ho
      rw [spare_drops hdrops ho]
      simpa using hnames
    · exact hkept.absent o ho (.inr hfresh)
  · rcases hgone with hgone | ⟨-, hholds, -⟩
    · exact hkept.past o hgone
    · refine hissued o ?_
      cases o with
      | closure f =>
        obtain ⟨y, hy⟩ := Option.isSome_iff_exists.mp hholds
        exact Store.lt_next hclosures hy
      | resumption r =>
        obtain ⟨k, hk⟩ := Option.isSome_iff_exists.mp hholds
        exact Store.lt_next htidy.accounts.resumptions hk
      | _ => trivial

/-- A thread stays honest when something is released. -/
theorem Honest.releasing (h : m.Honest Γ ρ gone) {y : Holding} {hs : List Holding}
    (hreleasing : m.releasing = y :: hs) :
    (m.step Γ).Honest Γ ρ fun o => gone o ∨ m.Drops Γ o := by
  have hstep : m.step Γ = ({ m with releasing := hs } : Machine ω).releaseOne y :=
    step_releasing hreleasing
  have hcontrol : (m.step Γ).control = m.control := by
    rw [hstep, releaseOne_control]
  have hstack : (m.step Γ).stack = m.stack := by
    rw [hstep]
    exact (releaseOne_same _ _).1
  have hsame : m.chain.SameProfiles (m.step Γ).chain := by
    rw [hstep]
    exact sameProfiles_releaseOne (m := { m with releasing := hs }) h.counts.installations y
  refine h.next (h.manned.of_profile fun j => (hsame.profile j).imp_right .inl)
    (Upright.mono ⟨?_, ?_⟩ fun _ _ _ => Recalls.step h.counts)
  · obtain ⟨os, m', hgives, heq⟩ := releaseOne_gives ({ m with releasing := hs } : Machine ω) y
    have hfurnished : ({ m with releasing := hs } : Machine ω).Furnished ρ m.Recalls :=
      h.upright.furnished.congr rfl rfl rfl rfl rfl rfl
    rw [hstep, heq]
    exact (hfurnished.gives hgives).congr rfl rfl rfl rfl rfl rfl
  · have hhands : ∀ {H}, m.Solvent ρ.kept gone H [] →
        (m.step Γ).Solvent ρ.kept (fun o => gone o ∨ m.Drops Γ o) H [] :=
      fun hhand => hhand.releasing h.counts h.tidy h.closures hreleasing
    cases h.upright.running with
    | eval hm hcode hc hhand hknown hcalm =>
      obtain ⟨rfl, rfl⟩ := hcalm.resolve_left (by simp [hreleasing])
      exact .eval (hcontrol.trans hm) (hstack ▸ hcode) hc (hhands hhand) (by simp)
        (.inr ⟨rfl, rfl⟩)
    | ret hm hv hcode hhand => exact .ret (hcontrol.trans hm) hv (hstack ▸ hcode) (hhands hhand)
    | done hm hv hcode hhand => exact .done (hcontrol.trans hm) hv (hstack ▸ hcode) (hhands hhand)
    | tail hm hk hcode hhand => exact .tail (hcontrol.trans hm) hk (hstack ▸ hcode) (hhands hhand)
    | settle hm hv hcode hhand =>
      exact .settle (hcontrol.trans hm) hv (hstack ▸ hcode) (hhands hhand)
    | request hm hcode hhand => exact .request (hcontrol.trans hm) (hstack ▸ hcode) (hhands hhand)
    | wake hm hcode hhand => exact .wake (hcontrol.trans hm) (hstack ▸ hcode) (hhands hhand)
    | unwind hm hcode => exact .unwind (hcontrol.trans hm) (hstack ▸ hcode)
    | ended hover => exact .ended hover.step

end Machine

end EffectHandlers
