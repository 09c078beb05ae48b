import EffectHandlers.Client.Library
import EffectHandlers.Machine.State
import EffectHandlers.Proofs.Absence
import EffectHandlers.Proofs.Entries
import EffectHandlers.Proofs.Following
import EffectHandlers.Proofs.Orderly
import Mathlib.Data.List.Forall2
/-!
# Reruns: the same code under other numbers

## Reruns

Code runs in a fresh thread, and once more in a thread that ran other code before. There, whatever the
code makes has a later number, and what was made before is never met. The relations below say that
what one run has is what the other one has, under the numbers that it has there.
-/

namespace EffectHandlers

/-- How a thread that ran other code before differs from a fresh one. -/
structure Rerun where
  /-- How many cells were made before. -/
  cells : Nat
  closures : Nat
  references : Nat
  exchanges : Nat
  resumptions : Nat
  installations : Nat
  fibers : Nat
  /-- How many labels were handed out before. -/
  labels : Nat
  /-- The cells of the thread as a whole that the code uses. -/
  kept : List CellId
  /-- The handler types that the code installs. -/
  handlers : List String
  /-- The procedures that the code calls. -/
  procedures : List String
  /-- The settings of the other thread. -/
  settings : Settings
  /-- The texts that are in the journal of the fresh thread already, newest first. -/
  told : List String
  /-- The texts that are in the journal of the other thread already. -/
  texts : List String
  /-- The cells of the thread as a whole that the code does not use. -/
  others : CellId → Option (Shared Content)

/-- Numbers from the first one on are later by an offset. -/
def Later (first offset i j : Nat) : Prop := first ≤ i ∧ j = i + offset

/-- The first cell that does not belong to the thread as a whole. -/
def firstCell : CellId := Client.cells.length + 1

namespace Rerun

variable (σ : Rerun)

/-! ### Numbers -/

/-- The number of a cell that code has made; there is no cell with the number zero. -/
def MapsCell (c c' : CellId) : Prop := c = 0 ∧ c' = 0 ∨ Later firstCell σ.cells c c'

/-- The number of a cell that code can use. -/
def MapsAccess (c c' : CellId) : Prop := σ.MapsCell c c' ∨ c ∈ σ.kept ∧ c' = c

def MapsClosure (f f' : ClosureId) : Prop := Later 0 σ.closures f f'

def MapsReference (r r' : ReferenceId) : Prop := Later 1 σ.references r r'

def MapsExchange (e e' : ExchangeId) : Prop := Later 0 σ.exchanges e e'

def MapsResumption (r r' : ResumptionId) : Prop := Later 1 σ.resumptions r r'

def MapsInstallation (i i' : InstallationId) : Prop := Later 1 σ.installations i i'

/-- An installation of the code, or the bottom. -/
def MapsPlace (i i' : InstallationId) : Prop := i = 0 ∧ i' = 0 ∨ σ.MapsInstallation i i'

def MapsFiber (f f' : FiberId) : Prop := Later 0 σ.fibers f f'

/-- A label that was handed out, that of the bottom, or that of retired installations. -/
def MapsLabel (l l' : Int) : Prop :=
  l < 0 ∧ (σ.labels ≠ 0 → retiredLabel < l') ∧ l' = l - σ.labels ∨ l = bottomLabel ∧ l' = bottomLabel ∨
    l = retiredLabel ∧ l' = retiredLabel

/-! ### Data -/

inductive MapsValue : Value → Value → Prop
  | unit : MapsValue .unit .unit
  | int (n : Int) : MapsValue (.int n) (.int n)
  | bool (b : Bool) : MapsValue (.bool b) (.bool b)
  | text (s : String) : MapsValue (.text s) (.text s)
  | absent : MapsValue .absent .absent
  | present {v v'} (h : MapsValue v v') : MapsValue (.present v) (.present v')
  | pair {a a' b b'} (ha : MapsValue a a') (hb : MapsValue b b') :
    MapsValue (.pair a b) (.pair a' b')
  | cell {c c'} (h : σ.MapsCell c c') : MapsValue (.cell c) (.cell c')
  | reference {r r'} (h : σ.MapsReference r r') : MapsValue (.reference r) (.reference r')
  | closure {f f'} (h : σ.MapsClosure f f') : MapsValue (.closure f) (.closure f')
  | resumption {r r'} (h : σ.MapsResumption r r') : MapsValue (.resumption r) (.resumption r')

inductive MapsOwned : Owned → Owned → Prop
  | cell {c c'} (h : σ.MapsCell c c') : MapsOwned (.cell c) (.cell c')
  | reference {r r'} (h : σ.MapsReference r r') : MapsOwned (.reference r) (.reference r')
  | closure {f f'} (h : σ.MapsClosure f f') : MapsOwned (.closure f) (.closure f')
  | resumption {r r'} (h : σ.MapsResumption r r') : MapsOwned (.resumption r) (.resumption r')
  | notice (n : Notice) : MapsOwned (.notice n) (.notice n)

/-- Lists of what is owned. -/
abbrev MapsOwneds : List Owned → List Owned → Prop := List.Forall₂ σ.MapsOwned

structure MapsCommand (c c' : Command) : Prop where
  name : c'.name = c.name
  payload : σ.MapsValue c.payload c'.payload
  owned : σ.MapsOwneds c.owned c'.owned

structure MapsActor (a a' : ParkedActor) : Prop where
  waiting : σ.MapsCell a.waiting a'.waiting
  resumption : σ.MapsResumption a.resumption a'.resumption

structure MapsPool (p p' : ActorPool) : Prop where
  label : σ.MapsLabel p.label p'.label
  current : σ.MapsCell p.current p'.current
  active : List.Forall₂ σ.MapsActor p.active p'.active
  deadlock : p'.deadlock = p.deadlock

structure MapsFuture (f f' : Future) : Prop where
  value : Option.Rel σ.MapsValue f.value f'.value
  waiting : List.Forall₂ σ.MapsResumption f.waiting f'.waiting

/-- The contents that the demonstrations have. -/
inductive MapsContent : Content → Content → Prop
  | value {v v'} (h : σ.MapsValue v v') : MapsContent (.value v) (.value v')
  | list {vs vs'} (h : List.Forall₂ σ.MapsValue vs vs') : MapsContent (.list vs) (.list vs')
  | pool {p p'} (h : σ.MapsPool p p') : MapsContent (.pool p) (.pool p')
  | future {f f'} (h : σ.MapsFuture f f') : MapsContent (.future f) (.future f')
  | draws (d : Option Draws) : MapsContent (.draws d) (.draws d)

structure MapsInstalling (x x' : Installing) : Prop where
  handlerType : x'.handlerType = x.handlerType
  used : x.handlerType ∈ σ.handlers
  label : Option.Rel σ.MapsLabel x.label x'.label
  handler : σ.MapsCell x.handler x'.handler
  owned : σ.MapsOwneds x.owned x'.owned

/-- The ways in which the demonstrations send commands. -/
inductive MapsTarget : Target → Target → Prop
  | innermost : MapsTarget .innermost .innermost
  | labelled {l l'} (h : σ.MapsLabel l l') : MapsTarget (.labelled l) (.labelled l')
  | labelledOfType {l l'} (t : String) (h : σ.MapsLabel l l') :
    MapsTarget (.labelledOfType t l) (.labelledOfType t l')

variable {σ}

/-! ### What related data has in common -/

section Data

variable {l l₁ l₂ l' l₁' l₂' : Int} {v v' : Value}

theorem MapsLabel.eq_iff (h₁ : σ.MapsLabel l₁ l₁') (h₂ : σ.MapsLabel l₂ l₂') :
    l₁ = l₂ ↔ l₁' = l₂' := by
  simp only [MapsLabel, bottomLabel, retiredLabel] at h₁ h₂
  omega

theorem MapsLabel.eq_bottom (h : σ.MapsLabel l l') : l = bottomLabel ↔ l' = bottomLabel :=
  h.eq_iff (.inr (.inl ⟨rfl, rfl⟩))

theorem MapsLabel.eq_retired (h : σ.MapsLabel l l') : l = retiredLabel ↔ l' = retiredLabel :=
  h.eq_iff (.inr (.inr ⟨rfl, rfl⟩))

theorem MapsInstallation.eq_iff {i j i' j' : InstallationId} (hi : σ.MapsInstallation i i')
    (hj : σ.MapsInstallation j j') : i = j ↔ i' = j' := by
  obtain ⟨-, rfl⟩ := hi
  obtain ⟨-, rfl⟩ := hj
  exact Nat.add_right_cancel_iff.symm

theorem MapsValue.toInt (h : σ.MapsValue v v') : v'.toInt = v.toInt := by
  cases h <;> rfl

theorem MapsValue.toText (h : σ.MapsValue v v') : v'.toText = v.toText := by
  cases h <;> rfl

theorem MapsValue.isTrue (h : σ.MapsValue v v') : v'.isTrue = v.isTrue := by
  cases h <;> rfl

/-- Numbers are the same in both runs. -/
theorem MapsValue.eq_int (h : σ.MapsValue v v') (n : Int) : v = .int n ↔ v' = .int n := by
  cases h <;> simp

theorem MapsValue.owned (h : σ.MapsValue v v') : σ.MapsOwneds v.owned v'.owned := by
  induction h with
  | present _ ih => exact ih
  | pair _ _ iha ihb => exact List.rel_append iha ihb
  | cell h => exact .cons (.cell h) .nil
  | reference h => exact .cons (.reference h) .nil
  | closure h => exact .cons (.closure h) .nil
  | resumption h => exact .cons (.resumption h) .nil
  | _ => exact .nil

theorem MapsActor.owned {a a' : ParkedActor} (h : σ.MapsActor a a') :
    σ.MapsOwneds a.owned a'.owned :=
  .cons (.cell h.waiting) (.cons (.resumption h.resumption) .nil)

/-- Parts that are there or not, and own related things, own related things. -/
theorem forall₂_getD {α β γ δ : Type} {R : α → β → Prop} {S : γ → δ → Prop} {f : α → List γ}
    {g : β → List δ} (hfg : ∀ a b, R a b → List.Forall₂ S (f a) (g b)) {x : Option α} {y : Option β}
    (h : Option.Rel R x y) : List.Forall₂ S ((x.map f).getD []) ((y.map g).getD []) := by
  cases h with
  | none => exact .nil
  | some hab => exact hfg _ _ hab

theorem MapsPool.owned {p p' : ActorPool} (h : σ.MapsPool p p') :
    σ.MapsOwneds (Content.pool p).owned (Content.pool p').owned :=
  .cons (.cell h.current) (List.rel_flatMap h.active fun _ _ ha => ha.owned)

theorem MapsFuture.owned {f f' : Future} (h : σ.MapsFuture f f') :
    σ.MapsOwneds (Content.future f).owned (Content.future f').owned := by
  refine List.rel_append (forall₂_getD (fun _ _ hv => hv.owned) h.value) ?_
  exact List.forall₂_map_left_iff.mpr (List.forall₂_map_right_iff.mpr
    (h.waiting.imp fun _ _ hr => .resumption hr))

theorem MapsContent.owned {x x' : Content} (h : σ.MapsContent x x') :
    σ.MapsOwneds (Contents.owned x) (Contents.owned x') := by
  cases h with
  | value h => exact h.owned
  | list h => exact List.rel_flatMap h fun _ _ hv => hv.owned
  | pool h => exact h.owned
  | future h => exact h.owned
  | draws => exact .nil

end Data

/-! ### Stores -/

/-- The entries from some number on are related to those that are later by an offset. -/
structure MapsStore {α β : Type} (first offset : Nat) (R : α → β → Prop) (s : Store α) (t : Store β) :
    Prop where
  start : first ≤ s.next
  next : t.next = s.next + offset
  entries : ∀ i, first ≤ i → Option.Rel R (s.find? i) (t.find? (i + offset))

namespace MapsStore

variable {α β : Type} {first offset : Nat} {R : α → β → Prop} {s : Store α} {t : Store β} {i j : Nat}
  {a : α} {b : β}

theorem later (h : MapsStore first offset R s t) : Later first offset s.next t.next :=
  ⟨h.start, h.next⟩

theorem find? (h : MapsStore first offset R s t) (hij : Later first offset i j) :
    Option.Rel R (s.find? i) (t.find? j) := hij.2 ▸ h.entries i hij.1

/-- What is found in one store is found in the other. -/
theorem exists_find? (h : MapsStore first offset R s t) (hij : Later first offset i j)
    (ha : s.find? i = some a) : ∃ b, t.find? j = some b ∧ R a b := by
  have hrel := h.find? hij
  rw [ha] at hrel
  cases hb : t.find? j with
  | none =>
    rw [hb] at hrel
    cases hrel
  | some b =>
    rw [hb] at hrel
    cases hrel with
    | some hab => exact ⟨b, rfl, hab⟩

theorem find?_eq_none (h : MapsStore first offset R s t) (hij : Later first offset i j)
    (ha : s.find? i = none) : t.find? j = none := by
  have hrel := h.find? hij
  rw [ha] at hrel
  cases hb : t.find? j with
  | none => rfl
  | some b =>
    rw [hb] at hrel
    cases hrel

theorem insert (h : MapsStore first offset R s t) (hab : R a b) :
    MapsStore first offset R (s.insert a).2 (t.insert b).2 where
  start := Nat.le_succ_of_le h.start
  next := by
    simp only [Store.insert, h.next]
    omega
  entries i hi := by
    rw [Store.find?_insert, Store.find?_insert, h.next]
    by_cases heq : i = s.next
    · rw [if_pos heq, if_pos (by omega)]
      exact .some hab
    · rw [if_neg heq, if_neg (by omega)]
      exact h.entries i hi

/-- A number is skipped in both stores. -/
theorem skip (h : MapsStore first offset R s t) :
    MapsStore first offset R { s with next := s.next + 1 } { t with next := t.next + 1 } where
  start := Nat.le_succ_of_le h.start
  next := by
    show t.next + 1 = s.next + 1 + offset
    rw [h.next]
    omega
  entries := h.entries

/-- An entry is put back under its number. -/
theorem put (h : MapsStore first offset R s t) (hij : Later first offset i j) (hab : R a b) :
    MapsStore first offset R ⟨s.next, (i, a) :: s.entries⟩ ⟨t.next, (j, b) :: t.entries⟩ where
  start := h.start
  next := h.next
  entries k hk := by
    obtain ⟨hi, rfl⟩ := hij
    have hrel := h.entries k hk
    unfold Store.find? at hrel ⊢
    by_cases heq : k = i
    · subst heq
      simp only [List.lookup_cons, beq_self_eq_true]
      exact .some hab
    · have hne : (k == i) = false := by simpa using heq
      have hne' : (k + offset == i + offset) = false := by simpa using heq
      simpa only [List.lookup_cons, hne, hne'] using hrel

theorem modify (h : MapsStore first offset R s t) (hij : Later first offset i j) {f : α → α}
    {g : β → β} (hfg : ∀ {a b}, R a b → R (f a) (g b)) :
    MapsStore first offset R (s.modify i f) (t.modify j g) where
  start := h.start
  next := h.next
  entries k hk := by
    obtain ⟨hi, rfl⟩ := hij
    rw [Store.find?_modify, Store.find?_modify]
    have hrel := h.entries k hk
    by_cases heq : k = i
    · rw [if_pos heq, if_pos (by omega)]
      cases hs : s.find? k with
      | none =>
        rw [hs] at hrel
        cases ht : t.find? (k + offset) with
        | none => exact .none
        | some b =>
          rw [ht] at hrel
          cases hrel
      | some a =>
        obtain ⟨b, hb, hab⟩ := h.exists_find? ⟨hk, rfl⟩ hs
        rw [hb]
        exact .some (hfg hab)
    · rw [if_neg heq, if_neg (by omega)]
      exact hrel

theorem erase (h : MapsStore first offset R s t) (hs : s.WellFormed) (ht : t.WellFormed)
    (hij : Later first offset i j) : MapsStore first offset R (s.erase i) (t.erase j) where
  start := h.start
  next := h.next
  entries k hk := by
    obtain ⟨hi, rfl⟩ := hij
    rw [Store.find?_erase hs, Store.find?_erase ht]
    by_cases heq : k = i
    · rw [if_pos heq, if_pos (by omega)]
      exact .none
    · rw [if_neg heq, if_neg (by omega)]
      exact h.entries k hk

end MapsStore

end Rerun

end EffectHandlers

/-!
## Code under other numbers

The same code does the same under other numbers. What counts as the same code is said operation by
operation, for all related values that it can get. Code that panics does not matter: it is related to
any code, since a run in which nothing stops a panic is over then.
-/

namespace EffectHandlers

/-- What comes after code: other code of the same fiber, the answer of a clause or of a closure that was
resumed, or the rest of what the thread is to do. -/
inductive Role where
  | inner
  | answer
  | outer
  deriving DecidableEq

namespace Rerun

section

variable (σ : Rerun) (rest : Comp Content → Comp Content → Prop)

/-- The same code. When the code of the thread itself comes to its end, the rest is related. -/
inductive MapsCode : Role → Comp Content → Comp Content → Prop
  | last {c c'} (h : rest c c') : MapsCode .outer c c'
  | done {ℓ v v'} (hℓ : ℓ ≠ .outer) (hv : σ.MapsValue v v') : MapsCode ℓ (.done v) (.done v')
  | panic {ℓ} (message : String) (c' : Comp Content) : MapsCode ℓ (.panic message) c'
  | record {ℓ n n'} (e : Event) (h : MapsCode ℓ n n') : MapsCode ℓ (.record e n) (.record e n')
  | alloc {ℓ x x' n n'} (hx : σ.MapsContent x x')
    (h : ∀ c c', σ.MapsCell c c' → MapsCode ℓ (n c) (n' c')) : MapsCode ℓ (.alloc x n) (.alloc x' n')
  | read {ℓ c c' n n'} (hc : σ.MapsAccess c c')
    (h : ∀ x x', σ.MapsContent x x' → MapsCode ℓ (n x) (n' x')) : MapsCode ℓ (.read c n) (.read c' n')
  | write {ℓ c c' x x' n n'} (hc : σ.MapsAccess c c') (hx : σ.MapsContent x x')
    (h : MapsCode ℓ n n') : MapsCode ℓ (.write c x n) (.write c' x' n')
  | retain {ℓ o o' n n'} (ho : σ.MapsOwned o o') (h : MapsCode ℓ n n') :
    MapsCode ℓ (.retain o n) (.retain o' n')
  | release {ℓ os os' n n'} (ho : σ.MapsOwneds os os') (h : MapsCode ℓ n n') :
    MapsCode ℓ (.release os n) (.release os' n')
  | scope {ℓ os os' b b' n n'} (ho : σ.MapsOwneds os os') (hb : MapsCode .inner b b')
    (h : ∀ v v', σ.MapsValue v v' → MapsCode ℓ (n v) (n' v')) :
    MapsCode ℓ (.scope os b n) (.scope os' b' n')
  | loop {ℓ s s' b b' n n'} (hs : σ.MapsValue s s')
    (hb : ∀ v v', σ.MapsValue v v' → MapsCode .inner (b v) (b' v'))
    (h : ∀ v v', σ.MapsValue v v' → MapsCode ℓ (n v) (n' v')) :
    MapsCode ℓ (.loop s b n) (.loop s' b' n')
  | call {ℓ p v v' n n'} (hp : p ∈ σ.procedures) (hv : σ.MapsValue v v')
    (h : ∀ v v', σ.MapsValue v v' → MapsCode ℓ (n v) (n' v')) :
    MapsCode ℓ (.call p v n) (.call p v' n')
  | closure {ℓ os os' b b' n n'} (ho : σ.MapsOwneds os os')
    (hb : ∀ v v', σ.MapsValue v v' → MapsCode .inner (b v) (b' v'))
    (h : ∀ f f', σ.MapsClosure f f' → MapsCode ℓ (n f) (n' f')) :
    MapsCode ℓ (.closure os b n) (.closure os' b' n')
  | apply {ℓ f f' v v' n n'} (hf : σ.MapsClosure f f') (hv : σ.MapsValue v v')
    (h : ∀ v v', σ.MapsValue v v' → MapsCode ℓ (n v) (n' v')) :
    MapsCode ℓ (.apply f v n) (.apply f' v' n')
  | handle {ℓ x x' b b' n n'} (hx : σ.MapsInstalling x x')
    (hb : ∀ r r', σ.MapsReference r r' → MapsCode .inner (b r) (b' r'))
    (h : ∀ v v', σ.MapsValue v v' → MapsCode ℓ (n v) (n' v')) :
    MapsCode ℓ (.handle x b n) (.handle x' b' n')
  | invoke {ℓ t t' c c' n n'} (ht : σ.MapsTarget t t') (hc : σ.MapsCommand c c')
    (h : ∀ v v', σ.MapsValue v v' → MapsCode ℓ (n v) (n' v')) :
    MapsCode ℓ (.invoke t c n) (.invoke t' c' n')
  | function {ℓ f f' n n'} (answer : String) (hf : σ.MapsClosure f f')
    (h : ∀ r r', σ.MapsResumption r r' → MapsCode ℓ (n r) (n' r')) :
    MapsCode ℓ (.function answer f n) (.function answer f' n')
  | take {ℓ r r' n n'} (hr : σ.MapsResumption r r')
    (h : ∀ r r', σ.MapsResumption r r' → MapsCode ℓ (n r) (n' r')) :
    MapsCode ℓ (.take r n) (.take r' n')
  | resume {ℓ r r' v v' n n'} (hr : σ.MapsResumption r r') (hv : σ.MapsValue v v')
    (h : ∀ v v', σ.MapsValue v v' → MapsCode ℓ (n v) (n' v')) :
    MapsCode ℓ (.resume r v n) (.resume r' v' n')
  | tail {r r' v v' w w'} (hr : σ.MapsResumption r r') (hv : σ.MapsValue v v')
    (hw : σ.MapsValue w w') :
    MapsCode .answer (.tailResume r v (.done w)) (.tailResume r' v' (.done w'))
  | label {ℓ n n'} (h : ∀ l l', σ.MapsLabel l l' → MapsCode ℓ (n (.int l)) (n' (.int l'))) :
    MapsCode ℓ (.ask .freshLabel n) (.ask .freshLabel n')

/-- The same code of clauses. -/
inductive MapsClause : ClauseCode Content → ClauseCode Content → Prop
  | resumptive {run run'} (h : ∀ c c' v v' r r', σ.MapsCell c c' → σ.MapsValue v v' →
    σ.MapsResumption r r' → MapsCode σ rest .answer (run c v r) (run' c' v' r')) :
    MapsClause (.resumptive run) (.resumptive run')
  | noManage {run run'} (h : ∀ c c' v v' r r', σ.MapsCell c c' → σ.MapsValue v v' →
    σ.MapsResumption r r' → MapsCode σ rest .answer (run c v r) (run' c' v' r')) :
    MapsClause (.noManage run) (.noManage run')
  | noResume {run run'} (h : ∀ c c' v v', σ.MapsCell c c' → σ.MapsValue v v' →
    MapsCode σ rest .answer (run c v) (run' c' v')) : MapsClause (.noResume run) (.noResume run')

/-- The same handler type. -/
structure MapsHandler (h h' : HandlerType Content) : Prop where
  answer : h'.answer = h.answer
  clauses : List.Forall₂ (fun c c' => c'.command = c.command ∧ σ.MapsClause rest c.code c'.code)
    h.clauses h'.clauses
  onReturn : ∀ c c' v v', σ.MapsCell c c' → σ.MapsValue v v' →
    σ.MapsCode rest .answer (h.onReturn c v) (h'.onReturn c' v')
  distinct : HandlerType.duplicate? [] (h.clauses.map (·.command)) = none

/-- The same handler types and procedures, as far as they are used. -/
structure MapsLibrary (Γ Γ' : Library Content) : Prop where
  handlers : ∀ t ∈ σ.handlers, σ.MapsHandler rest (Γ.handlerType t) (Γ'.handlerType t)
  procedures : ∀ p ∈ σ.procedures, ∀ v v', σ.MapsValue v v' →
    σ.MapsCode rest .inner (Γ.procedure p v) (Γ'.procedure p v')

end

variable {σ : Rerun} {rest : Comp Content → Comp Content → Prop} {ℓ : Role}
  {c c' : Comp Content}

/-- Code whose value goes to other code can also give an answer. -/
theorem MapsCode.answers (h : σ.MapsCode rest .inner c c') : σ.MapsCode rest .answer c c' := by
  generalize hℓ : Role.inner = ℓ at h
  induction h with
  | last => cases hℓ
  | done _ hv => exact .done nofun hv
  | panic message c' => exact .panic message c'
  | record e _ ih => exact .record e (ih hℓ)
  | alloc hx _ ih => exact .alloc hx fun c c' hc => ih c c' hc hℓ
  | read hc _ ih => exact .read hc fun x x' hx => ih x x' hx hℓ
  | write hc hx _ ih => exact .write hc hx (ih hℓ)
  | retain ho _ ih => exact .retain ho (ih hℓ)
  | release ho _ ih => exact .release ho (ih hℓ)
  | scope ho hb _ _ ih => exact .scope ho hb fun v v' hv => ih v v' hv hℓ
  | loop hs hb _ _ ih => exact .loop hs hb fun v v' hv => ih v v' hv hℓ
  | call hp hv _ ih => exact .call hp hv fun v v' hv => ih v v' hv hℓ
  | closure ho hb _ _ ih => exact .closure ho hb fun f f' hf => ih f f' hf hℓ
  | apply hf hv _ ih => exact .apply hf hv fun v v' hv => ih v v' hv hℓ
  | handle hx hb _ _ ih => exact .handle hx hb fun v v' hv => ih v v' hv hℓ
  | invoke ht hc _ ih => exact .invoke ht hc fun v v' hv => ih v v' hv hℓ
  | function answer hf _ ih => exact .function answer hf fun r r' hr => ih r r' hr hℓ
  | take hr _ ih => exact .take hr fun r r' hr => ih r r' hr hℓ
  | resume hr hv _ ih => exact .resume hr hv fun v v' hv => ih v v' hv hℓ
  | tail => cases hℓ
  | label _ ih => exact .label fun l l' hl => ih l l' hl hℓ

/-- Clauses that are the same are declared in the same way, and do not run in place. -/
theorem MapsClause.modifier {x x' : ClauseCode Content} (h : σ.MapsClause rest x x') :
    x'.modifier = x.modifier ∧ x.modifier ≠ .plain := by
  cases h <;> exact ⟨rfl, nofun⟩

/-- Handler types that are the same declare the same. -/
theorem MapsHandler.entries {h h' : HandlerType Content} (hh : σ.MapsHandler rest h h') :
    h'.entries = h.entries := by
  have hclauses := hh.clauses
  unfold HandlerType.entries
  generalize h.clauses = cs at hclauses
  generalize h'.clauses = cs' at hclauses
  induction hclauses with
  | nil => rfl
  | @cons a b _ _ hc _ ih =>
    obtain ⟨command, code⟩ := a
    obtain ⟨command', code'⟩ := b
    obtain ⟨rfl, hcode⟩ := hc
    rw [List.map_cons, List.map_cons, ih]
    cases hcode <;> rfl

/-- None of their clauses runs in place. -/
theorem MapsHandler.resuming {h h' : HandlerType Content} (hh : σ.MapsHandler rest h h') :
    ∀ e ∈ h.entries, e.modifier ≠ .plain := by
  intro e he
  obtain ⟨c, hc, rfl⟩ := List.mem_map.mp he
  have hclauses := hh.clauses
  generalize h.clauses = cs at hclauses hc
  generalize h'.clauses = cs' at hclauses
  induction hclauses with
  | nil => cases hc
  | cons hab _ ih =>
    rcases List.mem_cons.mp hc with rfl | hc
    · exact hab.2.modifier.2
    · exact ih hc

/-! ### Programs -/

/-- The same program, whatever the code is to which its results go. -/
def MapsProg {α β : Type} (σ : Rerun) (rest : Comp Content → Comp Content → Prop) (R : α → β → Prop)
    (p : Task α) (p' : Task β) : Prop :=
  ∀ ℓ k k', (∀ a b, R a b → σ.MapsCode rest ℓ (k a) (k' b)) → σ.MapsCode rest ℓ (p k) (p' k')

/-- The same program where its result is the answer of a clause or of a closure. -/
def MapsAnswer (σ : Rerun) (rest : Comp Content → Comp Content → Prop) (p p' : Task Value) : Prop :=
  σ.MapsCode rest .answer p.toComp p'.toComp

section Programs

variable {α β α' β' : Type} {R : α → β → Prop} {S : α' → β' → Prop} {p p' : Task Value}

theorem MapsProg.answer (h : σ.MapsProg rest σ.MapsValue p p') : σ.MapsAnswer rest p p' :=
  h .answer _ _ fun _ _ hv => .done nofun hv

theorem MapsProg.toComp (h : σ.MapsProg rest σ.MapsValue p p') :
    σ.MapsCode rest .inner p.toComp p'.toComp :=
  h .inner _ _ fun _ _ hv => .done nofun hv

theorem mapsProg_pure {a : α} {b : β} (h : R a b) : σ.MapsProg rest R (pure a) (pure b) :=
  fun _ _ _ hk => hk a b h

theorem MapsProg.bind {q : Task α} {q' : Task β} {f : α → Task α'} {f' : β → Task β'}
    (h : σ.MapsProg rest R q q') (hf : ∀ a b, R a b → σ.MapsProg rest S (f a) (f' b)) :
    σ.MapsProg rest S (q >>= f) (q' >>= f') :=
  fun ℓ k k' hk => h ℓ _ _ fun a b hab => hf a b hab ℓ k k' hk

theorem MapsProg.bindAnswer {q : Task α} {q' : Task β} {f : α → Task Value} {f' : β → Task Value}
    (h : σ.MapsProg rest R q q') (hf : ∀ a b, R a b → σ.MapsAnswer rest (f a) (f' b)) :
    σ.MapsAnswer rest (q >>= f) (q' >>= f') :=
  h .answer _ _ hf

theorem MapsProg.bindSame {q q' : Task α} {f f' : α → Task α'} {S : α' → α' → Prop}
    (h : σ.MapsProg rest Eq q q') (hf : ∀ a, σ.MapsProg rest S (f a) (f' a)) :
    σ.MapsProg rest S (q >>= f) (q' >>= f') := h.bind fun a _ hab => hab ▸ hf a

theorem MapsProg.bindSameAnswer {q q' : Task α} {f f' : α → Task Value} (h : σ.MapsProg rest Eq q q')
    (hf : ∀ a, σ.MapsAnswer rest (f a) (f' a)) : σ.MapsAnswer rest (q >>= f) (q' >>= f') :=
  h.bindAnswer fun a _ hab => hab ▸ hf a

theorem MapsProg.mono {q : Task α} {q' : Task β} {R' : α → β → Prop} (h : σ.MapsProg rest R q q')
    (hR : ∀ a b, R a b → R' a b) : σ.MapsProg rest R' q q' :=
  fun ℓ k k' hk => h ℓ k k' fun a b hab => hk a b (hR a b hab)

theorem mapsProg_panic (message : String) (q : Task β) :
    σ.MapsProg rest R (Prog.panic message) q := fun _ _ _ _ => .panic message _

theorem mapsProg_record (e : Event) : σ.MapsProg rest Eq (Prog.record e) (Prog.record e) :=
  fun _ _ _ hk => .record e (hk () () rfl)


theorem mapsProg_alloc {x x' : Content} (hx : σ.MapsContent x x') :
    σ.MapsProg rest σ.MapsCell (Prog.alloc x) (Prog.alloc x') := fun _ _ _ hk => .alloc hx hk

theorem mapsProg_read {c c' : CellId} (hc : σ.MapsAccess c c') :
    σ.MapsProg rest σ.MapsContent (Prog.read c) (Prog.read c') := fun _ _ _ hk => .read hc hk

theorem mapsProg_write {c c' : CellId} {x x' : Content} (hc : σ.MapsAccess c c')
    (hx : σ.MapsContent x x') : σ.MapsProg rest Eq (Prog.write c x) (Prog.write c' x') :=
  fun _ _ _ hk => .write hc hx (hk () () rfl)

theorem mapsProg_retain {o o' : Owned} (ho : σ.MapsOwned o o') :
    σ.MapsProg rest Eq (Prog.retain o) (Prog.retain o') := fun _ _ _ hk => .retain ho (hk () () rfl)

theorem mapsProg_release {os os' : List Owned} (ho : σ.MapsOwneds os os') :
    σ.MapsProg rest Eq (Prog.release os) (Prog.release os') :=
  fun _ _ _ hk => .release ho (hk () () rfl)

theorem mapsProg_retainAll {os os' : List Owned} (ho : σ.MapsOwneds os os') :
    σ.MapsProg rest Eq (Prog.retainAll os) (Prog.retainAll os') := by
  induction ho with
  | nil => exact mapsProg_pure rfl
  | cons ho _ ih => exact (mapsProg_retain ho).bind fun _ _ _ => ih

theorem MapsProg.scope {os os' : List Owned} (ho : σ.MapsOwneds os os')
    (h : σ.MapsProg rest σ.MapsValue p p') :
    σ.MapsProg rest σ.MapsValue (Prog.scope os p) (Prog.scope os' p') :=
  fun _ _ _ hk => .scope ho h.toComp hk

theorem MapsProg.loop {s s' : Value} {body body' : Value → Task Value} (hs : σ.MapsValue s s')
    (h : ∀ v v', σ.MapsValue v v' → σ.MapsProg rest σ.MapsValue (body v) (body' v')) :
    σ.MapsProg rest σ.MapsValue (Prog.loop s body) (Prog.loop s' body') :=
  fun _ _ _ hk => .loop hs (fun v v' hv => (h v v' hv).toComp) hk

theorem mapsProg_call {procedure : String} {v v' : Value} (hp : procedure ∈ σ.procedures)
    (hv : σ.MapsValue v v') :
    σ.MapsProg rest σ.MapsValue (Prog.call procedure v) (Prog.call procedure v') :=
  fun _ _ _ hk => .call hp hv hk

theorem MapsProg.closure {os os' : List Owned} {body body' : Value → Task Value}
    (ho : σ.MapsOwneds os os')
    (h : ∀ v v', σ.MapsValue v v' → σ.MapsProg rest σ.MapsValue (body v) (body' v')) :
    σ.MapsProg rest σ.MapsClosure (Prog.closure os body) (Prog.closure os' body') :=
  fun _ _ _ hk => .closure ho (fun v v' hv => (h v v' hv).toComp) hk

theorem mapsProg_apply {f f' : ClosureId} {v v' : Value} (hf : σ.MapsClosure f f')
    (hv : σ.MapsValue v v') : σ.MapsProg rest σ.MapsValue (Prog.apply f v) (Prog.apply f' v') :=
  fun _ _ _ hk => .apply hf hv hk

theorem MapsProg.handle {x x' : Installing} {body body' : ReferenceId → Task Value}
    (hx : σ.MapsInstalling x x')
    (h : ∀ r r', σ.MapsReference r r' → σ.MapsProg rest σ.MapsValue (body r) (body' r')) :
    σ.MapsProg rest σ.MapsValue (Prog.handle x body) (Prog.handle x' body') :=
  fun _ _ _ hk => .handle hx (fun r r' hr => (h r r' hr).toComp) hk

theorem mapsProg_invoke {c c' : Command} {t t' : Target} (hc : σ.MapsCommand c c')
    (ht : σ.MapsTarget t t') :
    σ.MapsProg rest σ.MapsValue (Prog.invoke c t) (Prog.invoke c' t') :=
  fun _ _ _ hk => .invoke ht hc hk

theorem mapsProg_function (answer : String) {f f' : ClosureId} (hf : σ.MapsClosure f f') :
    σ.MapsProg rest σ.MapsResumption (Prog.function answer f) (Prog.function answer f') :=
  fun _ _ _ hk => .function answer hf hk

theorem mapsProg_take {r r' : ResumptionId} (hr : σ.MapsResumption r r') :
    σ.MapsProg rest σ.MapsResumption (Prog.take r) (Prog.take r') := fun _ _ _ hk => .take hr hk

theorem mapsProg_resume {r r' : ResumptionId} {v v' : Value} (hr : σ.MapsResumption r r')
    (hv : σ.MapsValue v v') : σ.MapsProg rest σ.MapsValue (Prog.resume r v) (Prog.resume r' v') :=
  fun _ _ _ hk => .resume hr hv hk

theorem mapsAnswer_tail {r r' : ResumptionId} {v v' : Value} (hr : σ.MapsResumption r r')
    (hv : σ.MapsValue v v') : σ.MapsAnswer rest (Prog.tail r v) (Prog.tail r' v') :=
  .tail hr hv .unit

theorem mapsProg_forEach {ι κ : Type} {Q : ι → κ → Prop} {f : ι → Task Unit} {f' : κ → Task Unit}
    {xs : List ι} {ys : List κ} (hxs : List.Forall₂ Q xs ys)
    (h : ∀ x y, Q x y → σ.MapsProg rest Eq (f x) (f' y)) :
    σ.MapsProg rest Eq (Prog.forEach f xs) (Prog.forEach f' ys) := by
  induction hxs with
  | nil => exact mapsProg_pure rfl
  | cons hxy _ ih => exact (h _ _ hxy).bind fun _ _ _ => ih

/-- The same for each element of a list. -/
theorem mapsProg_forEachSame {ι : Type} {f f' : ι → Task Unit} (xs : List ι)
    (h : ∀ x, σ.MapsProg rest Eq (f x) (f' x)) :
    σ.MapsProg rest Eq (Prog.forEach f xs) (Prog.forEach f' xs) :=
  mapsProg_forEach (List.forall₂_same.mpr fun _ _ => rfl) fun x _ hxy => hxy ▸ h x

/-- Checked arithmetic goes on only when there is a result. -/
theorem mapsProg_checked (r : Except String Int) :
    σ.MapsProg rest Eq (Prog.checked r) (Prog.checked r) := by
  cases r with
  | ok n => exact mapsProg_pure rfl
  | error text => exact mapsProg_panic text _

end Programs

end Rerun

end EffectHandlers

/-!
## Threads abreast

A fresh thread and one that ran other code before, with the same code to run: what both have is the same
under other numbers. Of what was there before, nothing is related to anything.
-/

namespace EffectHandlers

/-- What a stack of activations waits for: code in some role, a step for the loop on top, the value of
the fiber that a driver waits for, or that the fiber is resumed. -/
inductive Spot where
  | code (ℓ : Role)
  | step
  | drive
  | wake

/-- Where one pool has a stack, the other one has one too: it has the same settings, which are these, and
as many to reuse, or there is room for another one at any time. -/
structure StackPool.Suffices (s : Settings) (p p' : StackPool) : Prop where
  settings : p'.settings.use.1 = s
  enough : p.settings.use.1 = s ∧ p.pooled ≤ p'.pooled ∨ StackPool.allocate s.stackSize = .fresh

namespace Rerun

section

variable (σ : Rerun) (rest : Comp Content → Comp Content → Prop)

/-! ### Code that is under way -/

/-- The same activations. The code of a fiber ends with the value of the fiber, that of the thread with
the rest of what it is to do. -/
inductive MapsStack (base : Role) :
    Spot → List (Activation Content) → List (Activation Content) → Prop
  | nil : MapsStack base (.code base) [] []
  | bind {ℓ n n' S S'} (h : ∀ v v', σ.MapsValue v v' → σ.MapsCode rest ℓ (n v) (n' v'))
    (hS : MapsStack base (.code ℓ) S S') :
    MapsStack base (.code .inner) (.bind n :: S) (.bind n' :: S')
  | looping {ℓ b b' n n' S S'} (hb : ∀ v v', σ.MapsValue v v' → σ.MapsCode rest .inner (b v) (b' v'))
    (h : ∀ v v', σ.MapsValue v v' → σ.MapsCode rest ℓ (n v) (n' v'))
    (hS : MapsStack base (.code ℓ) S S') :
    MapsStack base (.code .inner) (.looping b n :: S) (.looping b' n' :: S')
  | owning {ℓ os os' S S'} (hℓ : ℓ ≠ .outer) (ho : σ.MapsOwneds os os')
    (hS : MapsStack base (.code ℓ) S S') :
    MapsStack base (.code ℓ) (.owning os :: S) (.owning os' :: S')
  | stepping {S S'} (hS : MapsStack base (.code .inner) S S') :
    MapsStack base .step (.stepping :: S) (.stepping :: S')
  | driving {i i' f f' S S'} (hi : σ.MapsInstallation i i') (hf : σ.MapsFiber f f')
    (hS : MapsStack base .step S S') : MapsStack base .drive (.driving i f :: S) (.driving i' f' :: S')
  | clause {keep keep' S S'} (answer : String) (hkeep : Option.Rel σ.MapsInstallation keep keep')
    (hS : MapsStack base .step S S') :
    MapsStack base (.code .answer) (.clause keep answer :: S) (.clause keep' answer :: S')
  | returning {i i' S S'} (answer : String) (hi : σ.MapsInstallation i i')
    (hS : MapsStack base .step S S') :
    MapsStack base (.code .answer) (.returning i answer :: S) (.returning i' answer :: S')
  | calling {S S'} (answer : String) (hS : MapsStack base .step S S') :
    MapsStack base (.code .answer) (.calling answer :: S) (.calling answer :: S')
  | start {b b' S S'} (hb : σ.MapsCode rest .inner b b') (hS : MapsStack base (.code .inner) S S') :
    MapsStack base .wake (.start b :: S) (.start b' :: S')
  | sending {i i' e e' S S'} (modifier : Modifier) (command : String)
    (hi : σ.MapsInstallation i i') (he : σ.MapsExchange e e') (hS : MapsStack base (.code .inner) S S') :
    MapsStack base .wake (.sending i e modifier command :: S) (.sending i' e' modifier command :: S')

/-- The same code of a fiber that is not running. -/
def MapsParked (S S' : List (Activation Content)) : Prop :=
  ∃ spot, (spot = .drive ∨ spot = .wake) ∧ σ.MapsStack rest .inner spot S S'

/-- The same code that waits for fibers. The last to wait is the code of the thread itself. -/
inductive MapsWaiting : Role → List (Resumer (List (Activation Content))) →
    List (Resumer (List (Activation Content))) → Prop
  | nil : MapsWaiting .outer [] []
  | cons {base r r' rs rs'} (hf : σ.MapsFiber r.fiber r'.fiber)
    (hcurrent : Option.Rel σ.MapsFiber r.current r'.current)
    (hcode : σ.MapsStack rest base .drive r.code r'.code) (h : MapsWaiting base rs rs') :
    MapsWaiting .inner (r :: rs) (r' :: rs')

structure MapsClosureCode (f f' : Closure Content) : Prop where
  owned : σ.MapsOwneds f.owned f'.owned
  body : ∀ v v', σ.MapsValue v v' → σ.MapsCode rest .inner (f.body v) (f'.body v')

structure MapsSegment (s s' : Segment) : Prop where
  top : σ.MapsInstallation s.top s'.top
  lowest : σ.MapsInstallation s.lowest s'.lowest

inductive MapsCont : Cont Content → Cont Content → Prop
  | captured {f f' s s' e e'} (answer : String) (hf : σ.MapsFiber f f') (hs : σ.MapsSegment s s')
    (he : σ.MapsExchange e e') : MapsCont (.captured answer f s e) (.captured answer f' s' e')
  | function {f f' arg arg'} (answer : String) (hf : σ.MapsClosureCode rest f f')
    (harg : Option.Rel σ.MapsValue arg arg') :
    MapsCont (.function answer f arg) (.function answer f' arg')

structure MapsExchanged (x x' : Exchange) : Prop where
  command : Option.Rel σ.MapsCommand x.command x'.command
  result : Option.Rel σ.MapsValue x.result x'.result

structure MapsRequest (r r' : Request) : Prop where
  target : σ.MapsInstallation r.target r'.target
  entry : r'.entry = r.entry
  exchange : σ.MapsExchange r.exchange r'.exchange
  command : r'.command = r.command

inductive MapsStep : Step (Cont Content) Value → Step (Cont Content) Value → Prop
  | done {v v'} (hv : σ.MapsValue v v') : MapsStep (.done v) (.done v')
  | tail {k k'} (hk : σ.MapsCont rest k k') : MapsStep (.tail k) (.tail k')

/-- The same way to go on, at a spot. A tail resume waits only where code has answered. -/
inductive MapsControl : Spot → Option (Cont Content) → Option (Cont Content) → Control Content →
    Control Content → Prop
  | eval {ℓ c c'} (hc : σ.MapsCode rest ℓ c c') : MapsControl (.code ℓ) none none (.eval c) (.eval c')
  | leave {k k' v v'} (hk : Option.Rel (σ.MapsCont rest) k k') (hv : σ.MapsValue v v') :
    MapsControl (.code .answer) k k' (.eval (.done v)) (.eval (.done v'))
  | ret {v v'} (hv : σ.MapsValue v v') : MapsControl (.code .inner) none none (.ret v) (.ret v')
  | answered {k k' v v'} (hk : Option.Rel (σ.MapsCont rest) k k') (hv : σ.MapsValue v v') :
    MapsControl (.code .answer) k k' (.ret v) (.ret v')
  | returned {v v'} (hv : σ.MapsValue v v') : MapsControl .drive none none (.ret v) (.ret v')
  | deliver {s s'} (hs : σ.MapsStep rest s s') : MapsControl .step none none (.deliver s) (.deliver s')
  | settle {k k' v v'} (answer : String) (hk : Option.Rel (σ.MapsCont rest) k k')
    (hv : σ.MapsValue v v') : MapsControl .step k k' (.settle answer v) (.settle answer v')
  | request {spot r r'} (hspot : spot = .drive ∨ spot = .wake) (hr : σ.MapsRequest r r') :
    MapsControl spot none none (.request r) (.request r')
  | wake {spot} (hspot : spot = .drive ∨ spot = .wake) : MapsControl spot none none .wake .wake

/-- The same code is running, and waits for fibers. -/
def MapsRunning (m m' : Machine Content) : Prop :=
  ∃ base spot, σ.MapsStack rest base spot m.stack m'.stack ∧
    σ.MapsWaiting rest base m.fibers.resumers m'.fibers.resumers ∧
      σ.MapsControl rest spot m.pending m'.pending m.control m'.control

/-! ### Tables -/

structure MapsInstalled (a a' : Installation) : Prop where
  label : σ.MapsLabel a.label a'.label
  below : Option.Rel σ.MapsPlace a.below a'.below
  handler : σ.MapsCell a.handler a'.handler
  handlerType : a'.handlerType = a.handlerType
  used : a.handlerType ∈ σ.handlers
  name : a'.name = a.name
  clauses : a'.clauses = a.clauses
  resuming : ∀ e ∈ a.clauses, e.modifier ≠ .plain
  shares : a'.shares = a.shares

structure MapsShared (y y' : Shared Content) : Prop where
  content : σ.MapsContent y.content y'.content
  shares : y'.shares = y.shares

inductive MapsHolding : Holding → Holding → Prop
  | asset {o o'} (h : σ.MapsOwned o o') : MapsHolding (.asset o) (.asset o')
  | installation {i i'} (h : σ.MapsPlace i i') : MapsHolding (.installation i) (.installation i')
  | fiber {f f'} (h : σ.MapsFiber f f') : MapsHolding (.fiber f) (.fiber f')
  | exchange {e e'} (h : σ.MapsExchange e e') : MapsHolding (.exchange e) (.exchange e')

/-- Lists of what is held. -/
abbrev MapsHoldings : List Holding → List Holding → Prop := List.Forall₂ σ.MapsHolding

/-- The same chain. -/
structure MapsChain (c c' : Chain) : Prop where
  top : σ.MapsPlace c.top c'.top
  unissued : c.nextLabel < 0
  nextLabel : c'.nextLabel = c.nextLabel - σ.labels
  installations : MapsStore 1 σ.installations σ.MapsInstalled c.installations c'.installations
  bottom : c.installations.find? 0 = some Installation.bottom
  bottom' : c'.installations.find? 0 = some Installation.bottom

end

end Rerun

/-- The texts in the journal of a thread, newest first. -/
def Machine.texts {ω : Type} (m : Machine ω) : List String :=
  m.journal.filterMap fun
    | .text s => some s
    | _ => none

theorem Machine.texts_warn {ω : Type} (m : Machine ω) (ws : List SettingsWarning) :
    (m.warn ws).texts = m.texts := by
  unfold Machine.warn
  induction ws generalizing m with
  | nil => rfl
  | cons w ws ih => exact ih (m.trace (.warning w))

namespace Rerun

section

variable (σ : Rerun) (rest : Comp Content → Comp Content → Prop)

/-- The same tables. -/
structure MapsTables (m m' : Machine Content) : Prop where
  chain : σ.MapsChain m.chain m'.chain
  parked : MapsStore 0 σ.fibers (σ.MapsParked rest) m.fibers.parked m'.fibers.parked
  current : Option.Rel σ.MapsFiber m.fibers.current m'.fibers.current
  cells : MapsStore firstCell σ.cells σ.MapsShared m.cells m'.cells
  noCell : m.cells.find? 0 = none
  noCell' : m'.cells.find? 0 = none
  kept : ∀ k ∈ σ.kept, 0 < k ∧ k < firstCell ∧
    ∃ x x', m.contents k = some x ∧ m'.contents k = some x' ∧ σ.MapsContent x x'
  others : ∀ k, 0 < k → k < firstCell → k ∉ σ.kept → m'.cells.find? k = σ.others k
  closures : MapsStore 0 σ.closures (σ.MapsClosureCode rest) m.closures m'.closures
  references : MapsStore 1 σ.references σ.MapsInstallation m.references m'.references
  exchanges : MapsStore 0 σ.exchanges σ.MapsExchanged m.exchanges m'.exchanges
  resumptions : MapsStore 1 σ.resumptions (σ.MapsCont rest) m.resumptions m'.resumptions
  pool : StackPool.Suffices σ.settings m.pool m'.pool
  texts : ∃ ts, m.texts = ts ++ σ.told ∧ m'.texts = ts ++ σ.texts
  releasing : σ.MapsHoldings m.releasing m'.releasing

end

end Rerun

end EffectHandlers
