import EffectHandlers.Proofs.Sequences
/-!
# Who runs for whom

Those generators run that were called and have not given back control, each of them once, and each
of them has got to the call above it. All others rest, have ended or were dropped. So whatever a
family does, each of its generators delivers what its own body yields.
-/

namespace EffectHandlers.Generator

variable {Γ : Library Content} {a a' : Producer Γ} {b b' : Behaviour Γ}
  {blocks blocks' : List (Block (Behaviour Γ))} {ys ys' : List Value} {v : Value} {x : Reply}
  {c : Call Γ} {calls : List (Call Γ)} {ps ps' : List (Producer Γ)} {r r' : Family Γ} {i j : Nat}
  {g : CellId} {w : Awaits Γ} {f : Producer Γ → Producer Γ}

/-! ### Calls -/

/-- This is what the code asks for. -/
def Awaits.AskedBy : Awaits Γ → Behaviour Γ → Prop
  | .generator next, b => ∃ item owned body, b = .make item owned body next
  | .value g _ next, b => b = .ask g next

theorem Awaits.AskedBy.step (h : w.AskedBy b) (replies : List Reply) :
    Solo.step ⟨b, blocks, ys, w.reply g :: replies⟩ = ⟨w.onward g, blocks, ys, replies⟩ := by
  cases w with
  | generator next =>
    obtain ⟨item, owned, body, rfl⟩ := h
    rfl
  | value g v next =>
    obtain rfl : b = .ask g next := h
    rfl

/-- Each call finds its generator running, at the code that runs or at the call that comes after
it. -/
inductive Stacked (ps : List (Producer Γ)) :
    Behaviour Γ → List (Block (Behaviour Γ)) → List (Call Γ) → Prop
  | main {b : Behaviour Γ} {blocks : List (Block (Behaviour Γ))} : Stacked ps b blocks []
  | call {b b' : Behaviour Γ} {blocks : List (Block (Behaviour Γ))} {a : Producer Γ} {c : Call Γ}
      {calls : List (Call Γ)} (ha : ps[c.callee]? = some a) (hitem : a.item = c.item)
      (hp : a.progress = .running) (hcalled : a.Called c.awaits)
      (hreaches : a.Reaches a.yields b blocks) (hnew : ∀ c' ∈ calls, c'.callee ≠ c.callee)
      (hasked : c.awaits.AskedBy b') (hrest : Stacked ps b' c.blocks calls) :
      Stacked ps b blocks (c :: calls)

namespace Stacked

/-- Generators may change that do not run. -/
theorem congr (h : Stacked ps b blocks calls)
    (hsame : ∀ c ∈ calls, ∀ a, ps[c.callee]? = some a → ps'[c.callee]? = some a) :
    Stacked ps' b blocks calls := by
  induction h with
  | main => exact .main
  | call ha hitem hp hcalled hreaches hnew hasked _ ih =>
    exact .call (hsame _ List.mem_cons_self _ ha) hitem hp hcalled hreaches hnew hasked
      (ih fun c hc => hsame c (List.mem_cons_of_mem _ hc))

theorem running (h : Stacked ps b blocks calls) (hc : c ∈ calls) :
    ∃ a, ps[c.callee]? = some a ∧ a.progress = .running ∧ a.Called c.awaits ∧
      ∃ b blocks, a.Reaches a.yields b blocks := by
  induction h with
  | main => cases hc
  | call ha _ hp hcalled hreaches _ _ _ ih =>
    rcases List.mem_cons.mp hc with rfl | hc
    · exact ⟨_, ha, hp, hcalled, _, _, hreaches⟩
    · exact ih hc

/-- The code that runs goes on. -/
theorem goOn (h : Stacked ps b blocks calls)
    (hstep : ∀ ys replies, Solo.step ⟨b, blocks, ys, replies⟩ = ⟨b', blocks', ys, replies⟩) :
    Stacked ps b' blocks' calls := by
  cases h with
  | main => exact .main
  | call ha hitem hp hcalled hreaches hnew hasked hrest =>
    exact .call ha hitem hp hcalled (hreaches.step fun _ => hstep _ _) hnew hasked hrest

end Stacked

namespace Family

@[simp] theorem hear_calls : (r.hear x).calls = r.calls := by
  unfold hear
  split <;> rfl

@[simp] theorem hear_nextCell : (r.hear x).nextCell = r.nextCell := by
  unfold hear
  split <;> rfl

@[simp] theorem hear_phase : (r.hear x).phase = r.phase := by
  unfold hear
  split <;> rfl

theorem of_getElem?_hear (ha : (r.hear x).producers[j]? = some a) :
    r.producers[j]? = some a ∨
      ∃ c a₀, c ∈ r.calls ∧ c.callee = j ∧ r.producers[j]? = some a₀ ∧ a = a₀.hear x := by
  unfold hear at ha
  cases hcalls : r.calls with
  | nil =>
    rw [hcalls] at ha
    exact .inl ha
  | cons c calls =>
    rw [hcalls] at ha
    rcases of_getElem?_modify ha with ⟨hj, a₀, ha₀, rfl⟩ | ⟨-, ha⟩
    · exact .inr ⟨c, a₀, List.mem_cons_self, hj, ha₀, rfl⟩
    · exact .inl ha

end Family

/-- The code that runs goes on after it was told something. -/
theorem Stacked.hear (h : Stacked r.producers b blocks r.calls)
    (hstep : ∀ ys replies, Solo.step ⟨b, blocks, ys, x :: replies⟩ = ⟨b', blocks', ys, replies⟩) :
    Stacked (r.hear x).producers b' blocks' r.calls := by
  unfold Family.hear
  cases hcalls : r.calls with
  | nil => exact .main
  | cons c calls =>
    rw [hcalls] at h
    cases h with
    | @call _ _ a _ _ _ ha hitem hp hcalled hreaches hnew hasked hrest =>
      refine .call (getElem?_modify_self ha) hitem hp ?_ (hreaches.hear fun _ => hstep _ _) hnew
        hasked (hrest.congr fun c' hc' a' ha' => ?_)
      · unfold Producer.Called at hcalled ⊢
        exact hcalled
      · exact (exists_getElem?_modify ha').trans (by rw [if_neg (Ne.symm (hnew c' hc'))])

/-! ### Cells -/

/-- Each generator that has been made has a cell of its own. -/
structure Housed (ps : List (Producer Γ)) (n : CellId) : Prop where
  distinct : ∀ (i j : Nat) (a a' : Producer Γ) (g : CellId), ps[i]? = some a → ps[j]? = some a' →
    a.cell = some g → a'.cell = some g → i = j
  older : ∀ (j : Nat) (a : Producer Γ) (g : CellId), ps[j]? = some a → a.cell = some g → g < n

namespace Housed

variable {n n' : CellId}

theorem congr (h : Housed ps n) (hn : n ≤ n')
    (hbefore : ∀ (i : Nat) (a' : Producer Γ) (g : CellId), ps'[i]? = some a' → a'.cell = some g →
      ∃ a, ps[i]? = some a ∧ a.cell = some g) : Housed ps' n' where
  distinct i j a a' g ha ha' hg hg' := by
    obtain ⟨b, hb, hbg⟩ := hbefore i a g ha hg
    obtain ⟨b', hb', hbg'⟩ := hbefore j a' g ha' hg'
    exact h.distinct i j b b' g hb hb' hbg hbg'
  older j a g ha hg := by
    obtain ⟨b, hb, hbg⟩ := hbefore j a g ha hg
    exact (h.older j b g hb hbg).trans_le hn

/-- A generator changes that keeps its cell. -/
theorem modify (h : Housed ps n) (hf : ∀ a, (f a).cell = a.cell) : Housed (ps.modify j f) n :=
  h.congr (Nat.le_refl n) fun i a' g ha' hg => by
    rcases of_getElem?_modify ha' with ⟨rfl, a, ha, rfl⟩ | ⟨-, ha'⟩
    · exact ⟨a, ha, (hf a).symm.trans hg⟩
    · exact ⟨a', ha', hg⟩

/-- A generator gets the next cell. -/
theorem settle (h : Housed ps n) (hf : ∀ a, (f a).cell = some n) :
    Housed (ps.modify j f) (n + 1) := by
  have hold : ∀ {i : Nat} {a : Producer Γ} {g : CellId}, (ps.modify j f)[i]? = some a →
      a.cell = some g → i = j ∧ g = n ∨ i ≠ j ∧ ps[i]? = some a := by
    intro i a g ha hg
    rcases of_getElem?_modify ha with ⟨rfl, a₀, -, rfl⟩ | ⟨hij, ha⟩
    · exact .inl ⟨rfl, Option.some.inj (hg.symm.trans (hf a₀))⟩
    · exact .inr ⟨Ne.symm hij, ha⟩
  constructor
  · intro i k a a' g ha ha' hg hg'
    rcases hold ha hg with ⟨hi, hn⟩ | ⟨-, hb⟩ <;> rcases hold ha' hg' with ⟨hk, hn'⟩ | ⟨-, hb'⟩
    · exact hi.trans hk.symm
    · exact absurd (h.older k a' g hb' hg') (hn ▸ Nat.lt_irrefl _)
    · exact absurd (h.older i a g hb hg) (hn' ▸ Nat.lt_irrefl _)
    · exact h.distinct i k a a' g hb hb' hg hg'
  · intro i a g ha hg
    rcases hold ha hg with ⟨-, rfl⟩ | ⟨-, ha⟩
    · exact Nat.lt_succ_self g
    · exact Nat.lt_succ_of_lt (h.older i a g ha hg)

end Housed

/-! ### Sound families -/

namespace Family

/-- Who runs, and where the states of generators are, is in order. -/
structure Sound (r : Family Γ) : Prop where
  stacked : ∀ b blocks, r.phase = .running b blocks → Stacked r.producers b blocks r.calls
  finished : ∀ v, r.phase = .finished v → r.calls = []
  placed : ∀ (j : Nat) (a : Producer Γ), r.producers[j]? = some a →
    a.Settled ∧ a.cell.isSome = true ∨ a.progress = .running ∧ ∃ c ∈ r.calls, c.callee = j
  housed : Housed r.producers r.nextCell

/-- No generator forgets anything. -/
def Grows (r r' : Family Γ) : Prop :=
  ∀ (j : Nat) (a : Producer Γ), r.producers[j]? = some a →
    ∃ a', r'.producers[j]? = some a' ∧ a.Grows a'

namespace Grows

theorem refl (r : Family Γ) : r.Grows r := fun _ a ha => ⟨a, ha, .refl a⟩

theorem trans {r'' : Family Γ} (h : r.Grows r') (h' : r'.Grows r'') : r.Grows r'' := by
  intro j a ha
  obtain ⟨a', ha', hgrows⟩ := h j a ha
  obtain ⟨a'', ha'', hgrows'⟩ := h' j a' ha'
  exact ⟨a'', ha'', hgrows.trans hgrows'⟩

theorem length_le (h : r.Grows r') : r.producers.length ≤ r'.producers.length := by
  by_contra hlt
  obtain ⟨a', ha', -⟩ := h _ _ (List.getElem?_eq_getElem (Nat.lt_of_not_le hlt))
  exact absurd (List.getElem?_eq_some_iff.mp ha').1 (Nat.lt_irrefl _)

theorem modify (hf : ∀ a, r.producers[j]? = some a → a.Grows (f a)) : r.Grows (r.modify j f) := by
  intro i a ha
  refine ⟨_, exists_getElem?_modify ha, ?_⟩
  split
  · rename_i hij
    exact hf a (hij ▸ ha)
  · exact .refl a

end Grows

/-- The generator that was called last has stopped in some way, and has done what it was called
for. -/
def pop (r : Family Γ) (c : Call Γ) (calls : List (Call Γ)) (f : Producer Γ → Producer Γ) :
    Family Γ :=
  { r with
    producers := r.producers.modify c.callee fun a => (f a).fulfil r.nextCell c.awaits
    calls
    nextCell := r.nextCell + c.awaits.cells }

theorem giveBack_eq (hcalls : r.calls = c :: calls) (φ : Phase Γ) :
    (r.modify c.callee f).giveBack =
      ({ r.pop c calls f with phase := φ }.hear (c.awaits.reply r.nextCell)).goOn
        (c.awaits.onward r.nextCell) c.blocks := by
  simp only [giveBack, modify, hcalls, pop, List.modify_modify_eq]
  unfold hear
  cases calls <;> rfl

theorem find?_eq_some (h : r.find? g = some (j, a)) :
    r.producers[j]? = some a ∧ a.cell = some g := by
  simp only [find?, Option.bind_eq_bind, Option.bind_eq_some_iff, Option.pure_def,
    Option.some.injEq, Prod.mk.injEq] at h
  obtain ⟨k, hk, a', ha', rfl, rfl⟩ := h
  obtain ⟨hlt, hcell, -⟩ := List.findIdx?_eq_some_iff_getElem.mp hk
  obtain ⟨_, heq⟩ := List.getElem?_eq_some_iff.mp ha'
  exact ⟨ha', by simpa [heq] using hcell⟩

theorem find?_eq_none (h : r.find? g = none) (ha : r.producers[j]? = some a) :
    a.cell ≠ some g := by
  intro hcell
  cases hseat : r.seat? g with
  | none =>
    have hall := List.findIdx?_eq_none_iff.mp hseat a (List.mem_of_getElem? ha)
    simp [hcell] at hall
  | some k =>
    obtain ⟨hlt, -⟩ := List.findIdx?_eq_some_iff_getElem.mp hseat
    simp [find?, hseat, List.getElem?_eq_getElem hlt] at h

namespace Sound

theorem start (n : CellId) (main : Behaviour Γ) : (start n main).Sound where
  stacked _ _ _ := .main
  finished _ _ := rfl
  placed j a ha := by simp [Family.start] at ha
  housed := ⟨fun i j a a' g ha => by simp [Family.start] at ha,
    fun j a g ha => by simp [Family.start] at ha⟩

theorem of_settled (h : r.Sound) (hphase : r.phase = .running b blocks)
    (ha : r.producers[j]? = some a) (hp : a.progress ≠ .running) (hc : c ∈ r.calls) :
    c.callee ≠ j := by
  rintro rfl
  obtain ⟨a', ha', hp', -⟩ := (h.stacked b blocks hphase).running hc
  obtain rfl := Option.some.inj (ha.symm.trans ha')
  exact hp hp'

/-- A generator that does not run may change, and stays where it is. -/
theorem modify (h : r.Sound) (ha : r.producers[j]? = some a) (hp : a.progress ≠ .running)
    (hsettled : (f a).Settled) (hcell : ∀ a, (f a).cell = a.cell) (hsome : a.cell.isSome = true) :
    (r.modify j f).Sound := by
  refine
    { stacked := fun b blocks hphase => (h.stacked b blocks hphase).congr fun c hc a' ha' => ?_
      finished := h.finished
      placed := fun i a' ha' => ?_
      housed := h.housed.modify hcell }
  · exact (exists_getElem?_modify ha').trans
      (by rw [if_neg (Ne.symm (h.of_settled hphase ha hp hc))])
  · rcases of_getElem?_modify ha' with ⟨rfl, a₀, ha₀, rfl⟩ | ⟨-, ha'⟩
    · obtain rfl := Option.some.inj (ha.symm.trans ha₀)
      exact .inl ⟨hsettled, (hcell a).symm ▸ hsome⟩
    · exact h.placed i a' ha'

/-- The code that runs goes on. -/
theorem goOn (h : r.Sound) (hstacked : Stacked r.producers b blocks r.calls) :
    (r.goOn b blocks).Sound where
  stacked b' blocks' hphase := by
    cases hphase
    exact hstacked
  finished v hphase := by cases hphase
  placed := h.placed
  housed := h.housed

/-- The code that runs is told something, and goes on. -/
theorem tell (h : r.Sound) (hphase : r.phase = .running b blocks)
    (hstep : ∀ ys replies, Solo.step ⟨b, blocks, ys, x :: replies⟩ = ⟨b', blocks', ys, replies⟩) :
    ((r.hear x).goOn b' blocks').Sound := by
  have hstacked := (h.stacked b blocks hphase).hear hstep
  refine
    { stacked := fun b₁ blocks₁ hphase₁ => ?_
      finished := fun v hphase₁ => by cases hphase₁
      placed := fun i a' ha' => ?_
      housed := h.housed.congr (Nat.le_of_eq hear_nextCell.symm) fun i a' g ha' hg => ?_ }
  · cases hphase₁
    exact (hear_calls (r := r) (x := x)).symm ▸ hstacked
  · rcases of_getElem?_hear ha' with ha' | ⟨c, a₀, hc, rfl, ha₀, rfl⟩
    · have hplaced := h.placed i a' ha'
      rwa [← hear_calls (r := r) (x := x)] at hplaced
    · obtain ⟨a₁, ha₁, hp, -⟩ := (h.stacked b blocks hphase).running hc
      obtain rfl := Option.some.inj (ha₀.symm.trans ha₁)
      exact .inr ⟨hp, c, (hear_calls (r := r) (x := x)).symm ▸ hc, rfl⟩
  · rcases of_getElem?_hear ha' with ha' | ⟨c, a₀, -, -, ha₀, rfl⟩
    · exact ⟨a', ha', hg⟩
    · exact ⟨a₀, ha₀, hg⟩

/-- A generator that rests goes on for the code that has asked it. -/
theorem ask {next : Option Value → Behaviour Γ} (h : r.Sound)
    (hphase : r.phase = .running (.ask g next) blocks) (ha : r.producers[j]? = some a)
    (hcell : a.cell = some g) (hp : a.progress = .resting v b' blocks') :
    ({ r.modify j (.goOn .running) with
      calls := ⟨j, a.item, .value g v next, blocks⟩ :: r.calls
      phase := .running b' blocks' } : Family Γ).Sound := by
  have hrests : a.progress ≠ .running := by simp [hp]
  obtain ⟨ys, hyields, hanswers, hreaches⟩ : ∃ ys, a.yields = ys ++ [v] ∧ a.answers = ys.map some ∧
      a.Reaches ys (.yield v b') blocks' := by
    rcases h.placed j a ha with ⟨hsettled, -⟩ | ⟨hrunning, -⟩
    · cases hsettled with
      | resting hp' hyields hanswers hreaches =>
        cases hp.symm.trans hp'
        exact ⟨_, hyields, hanswers, hreaches⟩
      | ended hp' | dropped hp' => cases hp.symm.trans hp'
    · exact absurd hrunning hrests
  have hothers : ∀ c ∈ r.calls, ∀ a', r.producers[c.callee]? = some a' →
      (r.producers.modify j (.goOn .running))[c.callee]? = some a' := fun c hc a' ha' =>
    (exists_getElem?_modify ha').trans (by rw [if_neg (Ne.symm (h.of_settled hphase ha hrests hc))])
  refine
    { stacked := fun b₁ blocks₁ hphase₁ => ?_
      finished := fun v hphase₁ => by cases hphase₁
      placed := fun i a' ha' => ?_
      housed := h.housed.modify fun _ => rfl }
  · cases hphase₁
    refine .call (getElem?_modify_self ha) rfl rfl ⟨hcell, ?_⟩ ?_
      (fun c hc => h.of_settled hphase ha hrests hc) rfl ((h.stacked _ _ hphase).congr hothers)
    · show a.answers ++ [some v] = a.yields.map some
      rw [hyields, hanswers, List.map_append]
      rfl
    · have hyielded : a.Reaches a.yields b' blocks' := by
        rw [hyields]
        exact hreaches.step fun _ => rfl
      exact hyielded.congr rfl rfl
  · rcases of_getElem?_modify ha' with ⟨rfl, a₀, ha₀, rfl⟩ | ⟨-, ha'⟩
    · exact .inr ⟨rfl, _, List.mem_cons_self, rfl⟩
    · exact (h.placed i a' ha').imp_right fun ⟨hp', c, hc, hi⟩ =>
        ⟨hp', c, List.mem_cons_of_mem _ hc, hi⟩

/-- A new generator runs for the code that makes it. -/
theorem make {item : Known Γ} {owned : List Owned} {body : Behaviour Γ}
    {next : CellId → Behaviour Γ} (h : r.Sound)
    (hphase : r.phase = .running (.make item owned body next) blocks) :
    (r.act (.make item owned body next) blocks).Sound := by
  have hstacked := h.stacked _ _ hphase
  have hlt : ∀ c ∈ r.calls, c.callee < r.producers.length := fun c hc => by
    obtain ⟨a, ha, -⟩ := hstacked.running hc
    exact (List.getElem?_eq_some_iff.mp ha).1
  refine
    { stacked := fun b₁ blocks₁ hphase₁ => ?_
      finished := fun v hphase₁ => by cases hphase₁
      placed := fun i a' ha' => ?_
      housed := h.housed.congr (Nat.le_succ _) fun i a' g ha' hg => ?_ }
  · cases hphase₁
    exact .call List.getElem?_concat_length rfl rfl ⟨rfl, rfl, rfl⟩ (.start item body.void)
      (fun c hc => Nat.ne_of_lt (hlt c hc)) ⟨item, owned, body, rfl⟩
      (hstacked.congr fun c hc a' ha' => getElem?_append_of_some ha')
  · rcases of_getElem?_append ha' with ha' | ⟨rfl, rfl⟩
    · exact (h.placed i a' ha').imp_right fun ⟨hp', c, hc, hi⟩ =>
        ⟨hp', c, List.mem_cons_of_mem _ hc, hi⟩
    · exact .inr ⟨rfl, _, List.mem_cons_self, rfl⟩
  · rcases of_getElem?_append ha' with ha' | ⟨-, rfl⟩
    · exact ⟨a', ha', hg⟩
    · cases hg

theorem grows_hear (h : r.Sound) (hphase : r.phase = .running b blocks) : r.Grows (r.hear x) := by
  unfold Family.hear
  cases hcalls : r.calls with
  | nil => exact .refl r
  | cons c calls =>
    refine .modify fun a ha => .hear ?_
    obtain ⟨a', ha', hp, -⟩ :=
      (h.stacked b blocks hphase).running (hcalls ▸ List.mem_cons_self : c ∈ r.calls)
    obtain rfl := Option.some.inj (ha.symm.trans ha')
    exact hp

/-- The generator that was called last stops, and the code that has called it goes on. -/
theorem giveBack (h : r.Sound) (hphase : r.phase = .running b blocks)
    (hcalls : r.calls = c :: calls) (hcell : ∀ a, (f a).cell = a.cell)
    (hdropped : ∀ a, (f a).progress ≠ .dropped)
    (hgrows : ∀ a : Producer Γ, a.progress = .running → a.Grows (f a))
    (hsettled : ∀ a, a.Called c.awaits → a.Reaches a.yields b blocks →
      ((f a).fulfil r.nextCell c.awaits).Settled) :
    (r.modify c.callee f).giveBack.Sound ∧ r.Grows (r.modify c.callee f).giveBack := by
  have hstacked := h.stacked b blocks hphase
  rw [hcalls] at hstacked
  cases hstacked with
  | @call _ b' _ a _ _ ha hitem hp hcalled hreaches hnew hasked hrest =>
    -- the caller still stands at what it has asked for
    let popped : Family Γ := { r.pop c calls f with phase := .running b' c.blocks }
    have hpopped : popped.Sound := by
      refine
        { stacked := fun b₁ blocks₁ hphase₁ => ?_
          finished := fun v hphase₁ => by cases hphase₁
          placed := fun i a' ha' => ?_
          housed := ?_ }
      · cases hphase₁
        exact hrest.congr fun c' hc' a' ha' =>
          (exists_getElem?_modify ha').trans (by rw [if_neg (Ne.symm (hnew c' hc'))])
      · rcases of_getElem?_modify ha' with ⟨rfl, a₀, ha₀, rfl⟩ | ⟨hi, ha'⟩
        · obtain rfl := Option.some.inj (ha.symm.trans ha₀)
          refine .inl ⟨hsettled a hcalled hreaches, ?_⟩
          cases hawaits : c.awaits with
          | generator next => rfl
          | value g v next =>
            rw [hawaits] at hcalled
            simp [Producer.fulfil, Producer.answer, hcell, hcalled.1]
        · rcases h.placed i a' ha' with hplaced | ⟨hp', c', hc', hi'⟩
          · exact .inl hplaced
          · rcases List.mem_cons.mp (hcalls ▸ hc') with rfl | hc'
            · exact absurd hi' hi
            · exact .inr ⟨hp', c', hc', hi'⟩
      · show Housed (r.producers.modify _ _) (r.nextCell + c.awaits.cells)
        cases c.awaits with
        | generator next => exact h.housed.settle fun _ => rfl
        | value g v next => exact h.housed.modify hcell
    have hpop : r.Grows popped := Grows.modify fun a' ha' => by
      obtain rfl := Option.some.inj (ha.symm.trans ha')
      exact .fulfil hcalled (hdropped a) (hgrows a hp) r.nextCell
    rw [giveBack_eq hcalls (.running b' c.blocks)]
    exact ⟨hpopped.tell rfl fun _ _ => hasked.step _, hpop.trans (hpopped.grows_hear rfl)⟩

/-- Whatever the code does that runs, the family stays sound, and no generator forgets anything. -/
theorem act (h : r.Sound) (hphase : r.phase = .running b blocks) :
    (r.act b blocks).Sound ∧ r.Grows (r.act b blocks) := by
  have hstacked := h.stacked b blocks hphase
  have hquiet : ∀ {b' blocks'}, (∀ ys replies,
      Solo.step ⟨b, blocks, ys, replies⟩ = ⟨b', blocks', ys, replies⟩) →
        (r.goOn b' blocks').Sound ∧ r.Grows (r.goOn b' blocks') :=
    fun hstep => ⟨h.goOn (hstacked.goOn hstep), .refl r⟩
  cases b with
  | done v =>
    cases hafter : Block.after v blocks with
    | some x =>
      simp only [Family.act, hafter]
      exact hquiet fun ys replies => by simp only [Solo.step, hafter]
    | none =>
      obtain rfl := Block.after_eq_none.mp hafter
      cases hcalls : r.calls with
      | nil =>
        simp only [Family.act, hafter, hcalls]
        refine ⟨?_, .refl r⟩
        exact
          { stacked := fun _ _ hphase' => by cases hphase'
            finished := fun _ _ => rfl
            placed := fun j a ha => hcalls ▸ h.placed j a ha
            housed := h.housed }
      | cons c calls =>
        simp only [Family.act, hafter, hcalls]
        refine h.giveBack hphase hcalls (fun _ => rfl) (fun a hp => by cases hp)
          (fun a hp => .goOn (by simp [hp]) (by simp [hp])) fun a hcalled hreaches => ?_
        have hsame : (a.goOn .ended).answers = a.answers := rfl
        have hends : (a.goOn .ended).Reaches a.yields (.done v) [] := hreaches.congr rfl rfl
        refine .ended (n := 0) (v := v) (Producer.fulfil_progress ..) ?_ ?_
        · simpa [Producer.goOn] using hcalled.answers hsame r.nextCell
        · rw [Producer.fulfil_yields]
          exact hends.fulfil ..
  | yield v next =>
    cases hcalls : r.calls with
    | nil =>
      simp only [Family.act, hcalls]
      exact ⟨h.goOn (hcalls ▸ .main), .refl r⟩
    | cons c calls =>
      simp only [Family.act, hcalls]
      refine h.giveBack hphase hcalls (fun _ => rfl) (fun a hp => by cases hp)
        (fun a hp => .rest hp) fun a hcalled hreaches => ?_
      have hsame : (a.rest v next blocks).answers = a.answers := rfl
      have hrests : (a.rest v next blocks).Reaches a.yields (.yield v next) blocks :=
        hreaches.congr rfl rfl
      exact .resting (Producer.fulfil_progress ..) (Producer.fulfil_yields ..)
        (hcalled.answers hsame r.nextCell) (hrests.fulfil ..)
  | make item owned body next =>
    exact ⟨h.make hphase, fun j a ha => ⟨a, getElem?_append_of_some ha, .refl a⟩⟩
  | ask g next =>
    have hnothing : ((r.hear (.answer none)).goOn (next none) blocks).Sound ∧
        r.Grows ((r.hear (.answer none)).goOn (next none) blocks) :=
      ⟨h.tell hphase fun _ _ => rfl, h.grows_hear hphase⟩
    cases hfind : r.find? g with
    | none =>
      simp only [Family.act, hfind]
      exact hnothing
    | some x =>
      obtain ⟨j, a⟩ := x
      obtain ⟨ha, hcell⟩ := find?_eq_some hfind
      cases hp : a.progress with
      | resting v b' blocks' =>
        simp only [Family.act, hfind, hp]
        refine ⟨h.ask hphase ha hcell hp, .modify fun a' ha' => ?_⟩
        obtain rfl := Option.some.inj (ha.symm.trans ha')
        exact .goOn (by simp [hp]) (by simp [hp])
      | ended =>
        simp only [Family.act, hfind, hp]
        have hmodified : (r.modify j (.answer none)).Sound := by
          refine h.modify ha (by simp [hp]) ?_ (fun _ => rfl) (by simp [hcell])
          rcases h.placed j a ha with ⟨hsettled, -⟩ | ⟨hrunning, -⟩
          · cases hsettled with
            | @ended n w hp' hanswers hreaches =>
              refine .ended (n := n + 1) hp' ?_ (hreaches.congr rfl rfl)
              show a.answers ++ [none] = _
              rw [hanswers, List.append_assoc, ← List.replicate_succ']
              rfl
            | resting hp' | dropped hp' => cases hp.symm.trans hp'
          · cases hp.symm.trans hrunning
        have hgrows : r.Grows (r.modify j (.answer none)) := .modify fun a' ha' => by
          obtain rfl := Option.some.inj (ha.symm.trans ha')
          exact .answer (by simp [hp]) none
        exact ⟨hmodified.tell hphase fun _ _ => rfl, hgrows.trans (hmodified.grows_hear hphase)⟩
      | running | dropped =>
        simp only [Family.act, hfind, hp]
        exact hnothing
  | drop g next =>
    have hnothing : (r.goOn next blocks).Sound ∧ r.Grows (r.goOn next blocks) :=
      hquiet fun _ _ => rfl
    cases hfind : r.find? g with
    | none =>
      simp only [Family.act, hfind]
      exact hnothing
    | some x =>
      obtain ⟨j, a⟩ := x
      obtain ⟨ha, hcell⟩ := find?_eq_some hfind
      cases hp : a.progress with
      | resting v b' blocks' =>
        simp only [Family.act, hfind, hp]
        have hmodified : (r.modify j (.goOn .dropped)).Sound := by
          refine h.modify ha (by simp [hp]) ?_ (fun _ => rfl) (by simp [hcell])
          rcases h.placed j a ha with ⟨hsettled, -⟩ | ⟨hrunning, -⟩
          · cases hsettled with
            | resting hp' hyields hanswers hreaches =>
              exact .dropped rfl hyields hanswers (hreaches.congr rfl rfl)
            | ended hp' | dropped hp' => cases hp.symm.trans hp'
          · cases hp.symm.trans hrunning
        refine ⟨hmodified.goOn ((hmodified.stacked _ _ hphase).goOn fun _ _ => rfl),
          Grows.modify fun a' ha' => ?_⟩
        obtain rfl := Option.some.inj (ha.symm.trans ha')
        exact .goOn (by simp [hp]) (by simp [hp])
      | running | ended | dropped =>
        simp only [Family.act, hfind, hp]
        exact hnothing
  | loop | scope | retain | release | log => exact hquiet fun _ _ => rfl

theorem step (h : r.Sound) : r.step.Sound ∧ r.Grows r.step := by
  unfold Family.step
  split
  · exact h.act ‹_›
  · exact ⟨h, .refl r⟩

theorem run (h : r.Sound) (t : Nat) : (r.run t).Sound := by
  induction t with
  | zero => exact h
  | succ t ih =>
    rw [run_succ]
    exact ih.step.1

theorem grows_run (h : r.Sound) (t : Nat) : r.Grows (r.run t) := by
  induction t with
  | zero => exact .refl r
  | succ t ih =>
    rw [run_succ]
    exact ih.trans (h.run t).step.2

/-- A family has all its generators when its program has ended. -/
theorem length_le_of_finished {v : Value} {N : Nat} (h : r.Sound)
    (hover : (r.run N).phase = .finished v) (t : Nat) :
    (r.run t).producers.length ≤ (r.run N).producers.length := by
  have hstays : ∀ d, r.run (N + d) = r.run N := fun d => by
    induction d with
    | zero => rfl
    | succ d ih =>
      rw [← Nat.add_assoc, run_succ, ih]
      simp only [Family.step, hover]
  rcases Nat.le_total t N with hle | hle
  · obtain ⟨d, rfl⟩ := Nat.exists_eq_add_of_le hle
    rw [run_add]
    exact ((h.run t).grows_run d).length_le
  · obtain ⟨d, rfl⟩ := Nat.exists_eq_add_of_le hle
    rw [hstays]

/-- Each generator of a sound family delivers what its body yields. -/
theorem delivers (h : r.Sound) (ha : r.producers[j]? = some a) : a.Delivers := by
  rcases h.placed j a ha with ⟨hsettled, -⟩ | ⟨hp, c, hc, rfl⟩
  · exact hsettled.delivers
  · cases hphase : r.phase with
    | running b blocks =>
      obtain ⟨a', ha', hp', hcalled, b', blocks', hreaches⟩ :=
        (h.stacked b blocks hphase).running hc
      obtain rfl := Option.some.inj (ha.symm.trans ha')
      exact hcalled.delivers hp hreaches
    | finished v =>
      rw [h.finished v hphase] at hc
      cases hc

end Sound

end Family

end EffectHandlers.Generator
