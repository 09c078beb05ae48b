import Mathlib.Data.List.Nodup
import Mathlib.Data.List.Perm.Basic
import Mathlib.Logic.Function.Iterate
import EffectHandlers.Proofs.Agenda
import EffectHandlers.Proofs.Updates
/-!
# Who is parked where

In every agenda that can be reached, a computation that has not ended runs or is parked in one
place: in the queue, or at the future of one that has not ended either. So a result is there when a
computation goes on that has awaited it.
-/

namespace EffectHandlers.Promise

variable {Γ : Library Content} {χ : Chooser} {r : Agenda Γ χ} {i j k : Nat} {a b : Job Γ}
  {p : Progress Γ} {v : Value}

/-! ### Computations -/

theorem Progress.value?_of_isStarted (h : p.isStarted = true) : p.value? = none := by
  cases p with
  | acting | awaiting => rfl
  | fresh | ended => cases h

theorem Progress.isFresh_of_isStarted (h : p.isStarted = true) : p.isFresh = false := by
  cases p with
  | acting | awaiting => rfl
  | fresh | ended => cases h

theorem Progress.value?_eq_some : p.value? = some v ↔ p = .ended v := by
  cases p <;> simp [value?]

/-- A computation was started if it is not fresh any more, and it has waiters only before it ends. -/
structure Job.Sound (a : Job Γ) : Prop where
  starts : a.starts = if a.progress.isFresh then 0 else 1
  settled : a.progress.value?.isSome = true → a.waiters = []

namespace Job.Sound

theorem goOn (h : a.Sound) (hstarted : a.progress.isStarted = true) (hp : p.isStarted = true) :
    (a.goOn p).Sound where
  starts := by
    have hstarts := h.starts
    rw [Progress.isFresh_of_isStarted hstarted] at hstarts
    simpa [Job.goOn, Progress.isFresh_of_isStarted hp] using hstarts
  settled hv := by simp [Job.goOn, Progress.value?_of_isStarted hp] at hv

theorem await (h : a.Sound) (hv : a.progress.value? = none) (i : Nat) : (a.await i).Sound where
  starts := h.starts
  settled hs := by simp [Job.await, hv] at hs

theorem finish (h : a.Sound) (hstarted : a.progress.isStarted = true) (v : Value) :
    (a.finish v).Sound where
  starts := by
    have hstarts := h.starts
    rw [Progress.isFresh_of_isStarted hstarted] at hstarts
    exact hstarts
  settled _ := rfl

theorem start (h : a.Sound) : a.start.Sound := by
  unfold Job.start
  split
  · rename_i hfresh
    exact ⟨by simp [h.starts, hfresh, Progress.isFresh], fun hv => by simp [Progress.value?] at hv⟩
  · exact h

end Job.Sound

namespace Job

@[simp] theorem start_future : a.start.future = a.future := by
  unfold start
  split <;> rfl

@[simp] theorem start_waiters : a.start.waiters = a.waiters := by
  unfold start
  split <;> rfl

@[simp] theorem start_value? : a.start.progress.value? = a.progress.value? := by
  unfold start
  split
  · simp [*, Progress.value?]
  · rfl

theorem isStarted_start (hv : a.progress.value? = none) : a.start.progress.isStarted = true := by
  unfold start
  split
  · rfl
  · cases hp : a.progress <;> simp_all [Progress.value?, Progress.isStarted]

/-- A computation that was picked starts, unless it has started already. -/
theorem fresh_or_started (hv : a.progress.value? = none) :
    (∃ b, a.progress = .fresh b) ∨ a.progress.isStarted = true := by
  cases hp : a.progress with
  | fresh b => exact .inl ⟨b, rfl⟩
  | acting | awaiting => exact .inr rfl
  | ended => simp [hp, Progress.value?] at hv

theorem start_of_isStarted (h : a.progress.isStarted = true) : a.start = a := by
  unfold start
  split
  · rename_i hfresh
    rw [hfresh] at h
    cases h
  · rfl

theorem start_eq_awaiting {future : CellId} {next : Option Value → Routine Γ}
    {blocks : List (Block (Routine Γ))} (h : a.start.progress = .awaiting future next blocks) :
    a.progress = .awaiting future next blocks := by
  unfold start at h
  split at h
  · cases h
  · exact h

end Job

namespace Agenda

variable {f : Job Γ → Job Γ}

/-- The computation that runs. -/
def current (r : Agenda Γ χ) : Option Nat :=
  match r.phase with
  | .running i => some i
  | _ => none

@[simp] theorem modify_length : (r.modify i f).jobs.length = r.jobs.length := List.length_modify ..

theorem places_modify (hf : ∀ a, (f a).waiters = a.waiters) : (r.modify i f).places = r.places := by
  show r.queue ++ (r.jobs.modify i f).flatMap Job.waiters = _
  rw [flatMap_modify_of_eq hf]
  rfl

theorem futures_modify (hf : ∀ a, (f a).future = a.future) :
    (r.modify i f).jobs.map Job.future = r.jobs.map Job.future := by
  refine List.ext_getElem? fun j => ?_
  simp only [modify, List.getElem?_map, List.getElem?_modify]
  cases r.jobs[j]? with
  | none => rfl
  | some a =>
    by_cases hij : i = j
    · simp [hij, hf]
    · simp [hij]

theorem mem_places_of_waiter (hb : r.jobs[j]? = some b) (hi : i ∈ b.waiters) : i ∈ r.places :=
  List.mem_append_right _ (List.mem_flatMap.mpr ⟨b, List.mem_of_getElem? hb, hi⟩)

/-! ### Futures -/

theorem seat?_eq_some {future : CellId} (h : r.seat? future = some j) :
    ∃ b, r.jobs[j]? = some b ∧ b.future = future := by
  obtain ⟨hj, heq, -⟩ := List.findIdx?_eq_some_iff_getElem.mp h
  exact ⟨_, List.getElem?_eq_getElem hj, by simpa using heq⟩

theorem seat?_future (hnodup : (r.jobs.map Job.future).Nodup) (hb : r.jobs[j]? = some b) :
    r.seat? b.future = some j := by
  obtain ⟨hj, rfl⟩ := List.getElem?_eq_some_iff.mp hb
  refine List.findIdx?_eq_some_iff_getElem.mpr ⟨hj, by simp, fun k hk => ?_⟩
  have hk' : k < r.jobs.length := hk.trans hj
  simp only [beq_iff_eq]
  intro heq
  have hsame : k = j := (List.getElem?_inj (by simpa using hk') hnodup).mp (by
    rw [List.getElem?_map, List.getElem?_map, List.getElem?_eq_getElem hk',
      List.getElem?_eq_getElem hj]
    exact congrArg some heq)
  exact Nat.ne_of_lt hk hsame

theorem value?_future (hnodup : (r.jobs.map Job.future).Nodup) (hb : r.jobs[j]? = some b) :
    r.value? b.future = b.progress.value? := by
  simp [value?, seat?_future hnodup hb, hb]

/-! ### Picking -/

theorem wake_eq_ending (hqueue : r.queue = []) : r.wake = { r with phase := .ending } := by
  simp only [wake, hqueue, List.getElem?_nil]

theorem wake_eq_running (hj : r.queue[(χ.choose r.queue.length r.choices).1]? = some j) :
    r.wake = { r.modify j Job.start with
      queue := r.queue.eraseIdx (χ.choose r.queue.length r.choices).1
      choices := (χ.choose r.queue.length r.choices).2
      nextCell := if (r.jobs[j]?).any (·.progress.isFresh) then r.nextCell + 1 else r.nextCell
      phase := .running j } := by
  simp only [wake, hj]

/-! ### Sound agendas -/

/-- Who runs, who is parked and who waits for whom is in order. -/
structure Sound (r : Agenda Γ χ) : Prop where
  jobs : ∀ (i : Nat) (a : Job Γ), r.jobs[i]? = some a → a.Sound
  nodup : r.places.Nodup
  apart : ∀ i, r.current = some i → i ∉ r.places
  started : ∀ i, r.current = some i → ∃ a, r.jobs[i]? = some a ∧ a.progress.isStarted = true
  parked : ∀ j ∈ r.places, ∃ a, r.jobs[j]? = some a ∧ a.progress.value? = none
  placed : ∀ (i : Nat) (a : Job Γ), r.jobs[i]? = some a → a.progress.value? = none →
    r.current = some i ∨ i ∈ r.places
  waits : ∀ (j : Nat) (b : Job Γ), r.jobs[j]? = some b → ∀ i ∈ b.waiters,
    ∃ a next blocks, r.jobs[i]? = some a ∧ a.progress = .awaiting b.future next blocks
  awaited : ∀ (i : Nat) (a : Job Γ), r.jobs[i]? = some a → ∀ future next blocks,
    a.progress = .awaiting future next blocks → ∃ (j : Nat) (b : Job Γ), r.jobs[j]? = some b ∧
      b.future = future ∧ (i ∈ b.waiters ∨ b.progress.value?.isSome = true)
  idle : r.phase = .ending ∨ r.phase = .finished → r.queue = []
  futures : (r.jobs.map Job.future).Nodup
  older : ∀ (i : Nat) (a : Job Γ), r.jobs[i]? = some a → a.future < r.nextCell

namespace Sound

theorem current_eq (hphase : r.phase = .running i) : r.current = some i := by
  simp [current, hphase]

theorem isStarted (h : r.Sound) (hphase : r.phase = .running i) (ha : r.jobs[i]? = some a) :
    a.progress.isStarted = true := by
  obtain ⟨b, hb, hstarted⟩ := h.started i (current_eq hphase)
  obtain rfl := Option.some.inj (ha.symm.trans hb)
  exact hstarted

/-- The computation that runs goes on. Where it looks at a result, the result is there. -/
theorem goOn (h : r.Sound) (hphase : r.phase = .running i) (hp : p.isStarted = true)
    (hthere : ∀ future next blocks, p = .awaiting future next blocks →
      ∃ (j : Nat) (b : Job Γ), r.jobs[j]? = some b ∧ b.future = future ∧
        b.progress.value?.isSome = true) :
    (r.modify i (.goOn p)).Sound := by
  have hplaces : (r.modify i (.goOn p)).places = r.places := places_modify fun _ => rfl
  have hgone := h.apart i (current_eq hphase)
  obtain ⟨a, ha, hstarted⟩ := h.started i (current_eq hphase)
  have hself := getElem?_modify_self (f := Job.goOn p) ha
  have hother : ∀ {j b}, r.jobs[j]? = some b → j ≠ i →
      (r.modify i (.goOn p)).jobs[j]? = some b := by
    intro j b hb hne
    refine (exists_getElem?_modify hb).trans ?_
    rw [if_neg (Ne.symm hne)]
  have hended : ∀ {j b}, r.jobs[j]? = some b → b.progress.value?.isSome = true → j ≠ i := by
    rintro j b hb hv rfl
    obtain rfl := Option.some.inj (ha.symm.trans hb)
    simp [Progress.value?_of_isStarted hstarted] at hv
  exact
    { jobs := fun j b hb => by
        rcases of_getElem?_modify hb with ⟨rfl, c, hc, rfl⟩ | ⟨-, hb⟩
        · obtain rfl := Option.some.inj (ha.symm.trans hc)
          exact (h.jobs _ _ ha).goOn hstarted hp
        · exact h.jobs j b hb
      nodup := hplaces ▸ h.nodup
      apart := fun j hj => hplaces ▸ h.apart j hj
      started := fun j hj => by
        obtain rfl : i = j := Option.some.inj ((current_eq hphase).symm.trans hj)
        exact ⟨_, hself, hp⟩
      parked := fun j hj => by
        rw [hplaces] at hj
        obtain ⟨b, hb, hv⟩ := h.parked j hj
        exact ⟨b, hother hb fun heq => hgone (heq ▸ hj), hv⟩
      placed := fun j b hb hv => by
        rcases of_getElem?_modify hb with ⟨rfl, -⟩ | ⟨-, hb⟩
        · exact .inl (current_eq hphase)
        · exact hplaces ▸ h.placed j b hb hv
      waits := fun j b hb k hk => by
        obtain ⟨c, hc, hfuture, hwaiters⟩ : ∃ c, r.jobs[j]? = some c ∧ b.future = c.future ∧
            b.waiters = c.waiters := by
          rcases of_getElem?_modify hb with ⟨rfl, c, hc, rfl⟩ | ⟨-, hb⟩
          · exact ⟨c, hc, rfl, rfl⟩
          · exact ⟨b, hb, rfl, rfl⟩
        rw [hwaiters] at hk
        obtain ⟨d, next, blocks, hd, hawaits⟩ := h.waits j c hc k hk
        refine ⟨d, next, blocks, hother hd fun heq => hgone ?_, hfuture ▸ hawaits⟩
        exact heq ▸ mem_places_of_waiter hc hk
      awaited := fun j b hb future next blocks hawaits => by
        rcases of_getElem?_modify hb with ⟨rfl, c, hc, rfl⟩ | ⟨-, hb⟩
        · obtain ⟨k, d, hd, hfuture, hv⟩ := hthere future next blocks hawaits
          exact ⟨k, d, hother hd (hended hd hv), hfuture, .inr hv⟩
        · obtain ⟨k, d, hd, hfuture, hor⟩ := h.awaited j b hb future next blocks hawaits
          by_cases hk : k = i
          · subst hk
            refine ⟨k, _, getElem?_modify_self hd, hfuture, .inl ?_⟩
            exact hor.resolve_right fun hv => hended hd hv rfl
          · exact ⟨k, d, hother hd hk, hfuture, hor⟩
      idle := h.idle
      futures := by
        rw [futures_modify (f := .goOn p) fun _ => rfl]
        exact h.futures
      older := fun j b hb => by
        rcases of_getElem?_modify hb with ⟨rfl, c, hc, rfl⟩ | ⟨-, hb⟩
        · exact h.older _ c hc
        · exact h.older j b hb }

/-- The computation that runs goes into the queue. -/
theorem park (h : r.Sound) (hphase : r.phase = .running i) :
    ({ r with queue := r.queue ++ [i], phase := .waking } : Agenda Γ χ).Sound := by
  have hperm : ({ r with queue := r.queue ++ [i], phase := .waking } : Agenda Γ χ).places.Perm
      (i :: r.places) := by
    simp only [places, List.append_assoc, List.singleton_append]
    exact List.perm_middle
  have hcurrent := current_eq hphase
  exact
    { h with
      nodup := hperm.nodup_iff.mpr (List.nodup_cons.mpr ⟨h.apart i hcurrent, h.nodup⟩)
      apart := fun j hj => by simp [current] at hj
      started := fun j hj => by simp [current] at hj
      parked := fun j hj => by
        rcases List.mem_cons.mp (hperm.mem_iff.mp hj) with rfl | hj
        · obtain ⟨a, ha, hstarted⟩ := h.started j hcurrent
          exact ⟨a, ha, Progress.value?_of_isStarted hstarted⟩
        · exact h.parked j hj
      placed := fun j a ha hv => by
        refine .inr (hperm.mem_iff.mpr (List.mem_cons.mpr ?_))
        exact (h.placed j a ha hv).imp_left fun hj => Option.some.inj (hj.symm.trans hcurrent)
      idle := fun hidle => by simp at hidle }

/-- The computation that runs awaits a result that is not there. -/
theorem await {future : CellId} {next : Option Value → Routine Γ}
    {blocks : List (Block (Routine Γ))} (h : r.Sound) (hphase : r.phase = .running i)
    (hb : r.jobs[j]? = some b) (hfuture : b.future = future) (hv : b.progress.value? = none) :
    ({ (r.modify i (.goOn (.awaiting future next blocks))).modify j (.await i) with
      phase := .waking } : Agenda Γ χ).Sound := by
  subst hfuture
  have hcurrent := current_eq hphase
  obtain ⟨a, ha, hstarted⟩ := h.started i hcurrent
  have hgone := h.apart i hcurrent
  let p : Progress Γ := .awaiting b.future next blocks
  -- the computation waits at the future, and all others are where they were
  obtain ⟨b', hb', hsame⟩ : ∃ b', (r.modify i (.goOn p)).jobs[j]? = some b' ∧
      b'.waiters = b.waiters := by
    refine ⟨_, exists_getElem?_modify hb, ?_⟩
    split <;> rfl
  obtain ⟨rest, hrest, hmoved⟩ := exists_flatMap_perm Job.waiters hb'
  have hkept : (r.modify i (.goOn p)).jobs.flatMap Job.waiters = r.jobs.flatMap Job.waiters :=
    flatMap_modify_of_eq fun _ => rfl
  have hperm : ({ (r.modify i (.goOn p)).modify j (.await i) with
      phase := .waking } : Agenda Γ χ).places.Perm (i :: r.places) := by
    have hwaiters : (((r.modify i (.goOn p)).jobs.modify j (.await i)).flatMap Job.waiters).Perm
        (i :: r.jobs.flatMap Job.waiters) := by
      refine (hmoved (.await i)).trans ?_
      rw [hkept] at hrest
      refine List.Perm.trans ?_ (hrest.symm.cons i)
      simp only [Job.await, List.append_assoc, List.singleton_append]
      exact List.perm_middle
    refine (hwaiters.append_left r.queue).trans ?_
    exact List.perm_middle
  have hof : ∀ {k c}, ((r.modify i (.goOn p)).jobs.modify j (.await i))[k]? = some c →
      c.Sound ∧ ∃ d, r.jobs[k]? = some d ∧ c.future = d.future ∧
        c.progress = (if i = k then p else d.progress) ∧
        c.waiters = (if j = k then d.waiters ++ [i] else d.waiters) := by
    intro k c hc
    rcases of_getElem?_modify hc with ⟨rfl, d, hd, rfl⟩ | ⟨hjk, hd⟩ <;>
      rcases of_getElem?_modify hd with ⟨rfl, e, he, rfl⟩ | ⟨hik, he⟩
    · obtain rfl := Option.some.inj (ha.symm.trans he)
      exact ⟨((h.jobs _ _ he).goOn hstarted rfl).await rfl i, a, he, rfl, (if_pos rfl).symm,
        (if_pos rfl).symm⟩
    · obtain rfl := Option.some.inj (hb.symm.trans he)
      exact ⟨(h.jobs _ _ he).await hv i, b, he, rfl, (if_neg hik).symm, (if_pos rfl).symm⟩
    · obtain rfl := Option.some.inj (ha.symm.trans he)
      exact ⟨(h.jobs _ _ he).goOn hstarted rfl, a, he, rfl, (if_pos rfl).symm, (if_neg hjk).symm⟩
    · exact ⟨h.jobs _ _ he, c, he, rfl, (if_neg hik).symm, (if_neg hjk).symm⟩
  have hto : ∀ {k d}, r.jobs[k]? = some d →
      ∃ c, ((r.modify i (.goOn p)).jobs.modify j (.await i))[k]? = some c ∧
        c.future = d.future ∧ c.progress = (if i = k then p else d.progress) ∧
        c.waiters = (if j = k then d.waiters ++ [i] else d.waiters) := by
    intro k d hd
    refine ⟨_, exists_getElem?_modify (exists_getElem?_modify hd), ?_⟩
    by_cases hik : i = k <;> by_cases hjk : j = k <;> simp [hik, hjk, Job.await, Job.goOn]
  exact
    { jobs := fun k c hc => (hof hc).1
      nodup := hperm.nodup_iff.mpr (List.nodup_cons.mpr ⟨hgone, h.nodup⟩)
      apart := fun k hk => by simp [current] at hk
      started := fun k hk => by simp [current] at hk
      parked := fun k hk => by
        rcases List.mem_cons.mp (hperm.mem_iff.mp hk) with rfl | hk
        · obtain ⟨c, hc, -, hprogress, -⟩ := hto ha
          exact ⟨c, hc, by rw [hprogress, if_pos rfl]; rfl⟩
        · obtain ⟨d, hd, hdv⟩ := h.parked k hk
          obtain ⟨c, hc, -, hprogress, -⟩ := hto hd
          refine ⟨c, hc, ?_⟩
          rw [hprogress, if_neg fun heq : i = k => hgone (heq ▸ hk)]
          exact hdv
      placed := fun k c hc hcv => by
        refine .inr (hperm.mem_iff.mpr (List.mem_cons.mpr ?_))
        obtain ⟨-, d, hd, -, hprogress, -⟩ := hof hc
        by_cases hik : i = k
        · exact .inl hik.symm
        · rw [hprogress, if_neg hik] at hcv
          exact (h.placed k d hd hcv).imp_left fun hk => Option.some.inj (hk.symm.trans hcurrent)
      waits := fun k c hc l hl => by
        obtain ⟨-, d, hd, hfuture, -, hwaiters⟩ := hof hc
        have hsplit : l ∈ d.waiters ∨ j = k ∧ l = i := by
          rw [hwaiters] at hl
          split at hl
          · rename_i hjk
            simpa [hjk] using hl
          · exact .inl hl
        rcases hsplit with hl | ⟨rfl, rfl⟩
        · obtain ⟨e, next', blocks', he, hawaits⟩ := h.waits k d hd l hl
          obtain ⟨c', hc', -, hprogress, -⟩ := hto he
          refine ⟨c', next', blocks', hc', ?_⟩
          rw [hprogress, if_neg fun heq : i = l => hgone (heq ▸ mem_places_of_waiter hd hl), hawaits,
            hfuture]
        · obtain rfl := Option.some.inj (hb.symm.trans hd)
          obtain ⟨c', hc', -, hprogress, -⟩ := hto ha
          exact ⟨c', next, blocks, hc', by rw [hprogress, if_pos rfl, hfuture]⟩
      awaited := fun k c hc future next' blocks' hawaits => by
        obtain ⟨-, d, hd, -, hprogress, -⟩ := hof hc
        by_cases hik : i = k
        · subst hik
          rw [hprogress, if_pos rfl] at hawaits
          obtain ⟨rfl, -, -⟩ := Progress.awaiting.inj hawaits
          obtain ⟨c', hc', hfuture, -, hwaiters⟩ := hto hb
          exact ⟨j, c', hc', hfuture, .inl (by simp [hwaiters])⟩
        · rw [hprogress, if_neg hik] at hawaits
          obtain ⟨l, e, he, hfuture, hor⟩ := h.awaited k d hd future next' blocks' hawaits
          obtain ⟨c', hc', hfuture', hprogress', hwaiters⟩ := hto he
          refine ⟨l, c', hc', hfuture'.trans hfuture, hor.imp (fun hk => ?_) fun hev => ?_⟩
          · rw [hwaiters]
            split
            · exact List.mem_append_left _ hk
            · exact hk
          · rw [hprogress', if_neg]
            · exact hev
            · rintro rfl
              obtain rfl := Option.some.inj (ha.symm.trans he)
              simp [Progress.value?_of_isStarted hstarted] at hev
      idle := fun hidle => by simp at hidle
      futures := by
        show (((r.modify i (.goOn p)).modify j (.await i)).jobs.map Job.future).Nodup
        rw [futures_modify (f := .await i) fun _ => rfl, futures_modify (f := .goOn p) fun _ => rfl]
        exact h.futures
      older := fun k c hc => by
        obtain ⟨-, d, hd, hfuture, -⟩ := hof hc
        exact hfuture ▸ h.older k d hd }

/-- The computation that runs has ended, and those who waited for it go into the queue. -/
theorem finish (h : r.Sound) (hphase : r.phase = .running i) (ha : r.jobs[i]? = some a)
    (v : Value) :
    ({ r.modify i (.finish v) with
      queue := r.queue ++ a.waiters, phase := .settling i a.waiters } : Agenda Γ χ).Sound := by
  have hcurrent := current_eq hphase
  have hstarted := h.isStarted hphase ha
  have hgone := h.apart i hcurrent
  have hperm : ({ r.modify i (.finish v) with
      queue := r.queue ++ a.waiters, phase := .settling i a.waiters } : Agenda Γ χ).places.Perm
      r.places := by
    obtain ⟨rest, hrest, hmoved⟩ := exists_flatMap_perm Job.waiters ha
    show (r.queue ++ a.waiters ++ (r.jobs.modify i (.finish v)).flatMap Job.waiters).Perm
      (r.queue ++ r.jobs.flatMap Job.waiters)
    rw [List.append_assoc]
    refine List.Perm.append_left _ (List.Perm.trans ?_ hrest.symm)
    exact (hmoved (.finish v)).append_left _
  have hother : ∀ {k d}, r.jobs[k]? = some d → k ≠ i →
      (r.jobs.modify i (.finish v))[k]? = some d := by
    intro k d hd hne
    rw [exists_getElem?_modify hd, if_neg (Ne.symm hne)]
  exact
    { jobs := fun k c hc => by
        rcases of_getElem?_modify hc with ⟨rfl, d, hd, rfl⟩ | ⟨-, hd⟩
        · obtain rfl := Option.some.inj (ha.symm.trans hd)
          exact (h.jobs _ _ ha).finish hstarted v
        · exact h.jobs k c hd
      nodup := hperm.nodup_iff.mpr h.nodup
      apart := fun k hk => by simp [current] at hk
      started := fun k hk => by simp [current] at hk
      parked := fun k hk => by
        have hk := hperm.mem_iff.mp hk
        obtain ⟨d, hd, hdv⟩ := h.parked k hk
        exact ⟨d, hother hd fun heq => hgone (heq ▸ hk), hdv⟩
      placed := fun k c hc hcv => by
        rcases of_getElem?_modify hc with ⟨rfl, d, hd, rfl⟩ | ⟨hne, hd⟩
        · simp [Job.finish, Progress.value?] at hcv
        · refine .inr (hperm.mem_iff.mpr ((h.placed k c hd hcv).resolve_left fun hk => ?_))
          exact hne (Option.some.inj (hcurrent.symm.trans hk))
      waits := fun k c hc l hl => by
        rcases of_getElem?_modify hc with ⟨rfl, d, hd, rfl⟩ | ⟨-, hd⟩
        · exact absurd hl List.not_mem_nil
        · obtain ⟨e, next, blocks, he, hawaits⟩ := h.waits k c hd l hl
          exact ⟨e, next, blocks, hother he fun heq => hgone (heq ▸ mem_places_of_waiter hd hl),
            hawaits⟩
      awaited := fun k c hc future next blocks hawaits => by
        rcases of_getElem?_modify hc with ⟨rfl, d, hd, rfl⟩ | ⟨-, hd⟩
        · cases hawaits
        · obtain ⟨l, e, he, hfuture, hor⟩ := h.awaited k c hd future next blocks hawaits
          by_cases hl : l = i
          · subst hl
            exact ⟨l, _, getElem?_modify_self he, hfuture, .inr rfl⟩
          · exact ⟨l, e, hother he hl, hfuture, hor⟩
      idle := fun hidle => by simp at hidle
      futures := by
        show ((r.modify i (.finish v)).jobs.map Job.future).Nodup
        rw [futures_modify (f := .finish v) fun _ => rfl]
        exact h.futures
      older := fun k c hc => by
        rcases of_getElem?_modify hc with ⟨rfl, d, hd, rfl⟩ | ⟨-, hd⟩
        · exact h.older _ d hd
        · exact h.older k c hd }

/-- A new computation goes into the queue. -/
theorem spawn (h : r.Sound) (hphase : r.phase = .running i) (body : Routine Γ) :
    ({ r with
      jobs := r.jobs ++ [{ future := r.nextCell, progress := .fresh body }]
      queue := r.queue ++ [r.jobs.length]
      nextCell := r.nextCell + 1 } : Agenda Γ χ).Sound := by
  let m : Job Γ := { future := r.nextCell, progress := .fresh body }
  have hperm : ({ r with
      jobs := r.jobs ++ [m]
      queue := r.queue ++ [r.jobs.length]
      nextCell := r.nextCell + 1 } : Agenda Γ χ).places.Perm (r.jobs.length :: r.places) := by
    simp only [places, List.flatMap_append, List.append_assoc, List.singleton_append]
    simp [m]
  have hnew : r.jobs.length ∉ r.places := fun hmem => by
    obtain ⟨b, hb, -⟩ := h.parked _ hmem
    exact Nat.lt_irrefl _ (List.getElem?_eq_some_iff.mp hb).1
  have hold : ∀ {k d}, r.jobs[k]? = some d → (r.jobs ++ [m])[k]? = some d :=
    fun hd => getElem?_append_of_some hd
  exact
    { jobs := fun k c hc => by
        rcases of_getElem?_append hc with hd | ⟨rfl, rfl⟩
        · exact h.jobs k c hd
        · exact ⟨rfl, fun hv => by simp [Progress.value?] at hv⟩
      nodup := hperm.nodup_iff.mpr (List.nodup_cons.mpr ⟨hnew, h.nodup⟩)
      apart := fun k hk hmem => by
        rcases List.mem_cons.mp (hperm.mem_iff.mp hmem) with rfl | hmem
        · obtain ⟨b, hb, -⟩ := h.started _ hk
          exact Nat.lt_irrefl _ (List.getElem?_eq_some_iff.mp hb).1
        · exact h.apart k hk hmem
      started := fun k hk => by
        obtain ⟨d, hd, hstarted⟩ := h.started k hk
        exact ⟨d, hold hd, hstarted⟩
      parked := fun k hk => by
        rcases List.mem_cons.mp (hperm.mem_iff.mp hk) with rfl | hk
        · exact ⟨m, List.getElem?_concat_length, rfl⟩
        · obtain ⟨d, hd, hdv⟩ := h.parked k hk
          exact ⟨d, hold hd, hdv⟩
      placed := fun k c hc hcv => by
        rcases of_getElem?_append hc with hd | ⟨rfl, -⟩
        · exact (h.placed k c hd hcv).imp_right fun hk =>
            hperm.mem_iff.mpr (List.mem_cons_of_mem _ hk)
        · exact .inr (hperm.mem_iff.mpr List.mem_cons_self)
      waits := fun k c hc l hl => by
        rcases of_getElem?_append hc with hd | ⟨-, rfl⟩
        · obtain ⟨e, next, blocks, he, hawaits⟩ := h.waits k c hd l hl
          exact ⟨e, next, blocks, hold he, hawaits⟩
        · exact absurd hl List.not_mem_nil
      awaited := fun k c hc future next blocks hawaits => by
        rcases of_getElem?_append hc with hd | ⟨-, rfl⟩
        · obtain ⟨l, e, he, hfuture, hor⟩ := h.awaited k c hd future next blocks hawaits
          exact ⟨l, e, hold he, hfuture, hor⟩
        · cases hawaits
      idle := fun hidle => by simp [hphase] at hidle
      futures := by
        rw [List.map_append, List.nodup_append]
        refine ⟨h.futures, List.nodup_singleton _, fun c hc d hd => ?_⟩
        obtain ⟨e, he, rfl⟩ := List.mem_map.mp hc
        obtain ⟨k, hk, rfl⟩ := List.mem_iff_getElem.mp he
        obtain rfl : d = r.nextCell := by simpa using hd
        exact Nat.ne_of_lt (h.older k _ (List.getElem?_eq_getElem hk))
      older := fun k c hc => by
        rcases of_getElem?_append hc with hd | ⟨-, rfl⟩
        · exact Nat.lt_succ_of_lt (h.older k c hd)
        · exact Nat.lt_succ_self _ }

/-- A computation of the queue goes on. -/
theorem pick {c : χ.State} {n : CellId} (h : r.Sound) (hphase : r.phase = .waking)
    (hk : r.queue[k]? = some j) (hn : r.nextCell ≤ n) :
    ({ r.modify j Job.start with
      queue := r.queue.eraseIdx k, choices := c, nextCell := n, phase := .running j } :
      Agenda Γ χ).Sound := by
  have hperm : r.places.Perm (j :: (r.queue.eraseIdx k ++ r.jobs.flatMap Job.waiters)) := by
    obtain ⟨hlt, rfl⟩ := List.getElem?_eq_some_iff.mp hk
    exact (List.getElem_cons_eraseIdx_perm hlt).symm.append_right _
  have hplaces : ({ r.modify j Job.start with
      queue := r.queue.eraseIdx k, choices := c, nextCell := n, phase := .running j } :
      Agenda Γ χ).places = r.queue.eraseIdx k ++ r.jobs.flatMap Job.waiters := by
    show r.queue.eraseIdx k ++ (r.jobs.modify j Job.start).flatMap Job.waiters = _
    rw [flatMap_modify_of_eq fun _ => Job.start_waiters]
  obtain ⟨hnot, hnodup⟩ := List.nodup_cons.mp (hperm.nodup_iff.mp h.nodup)
  have hsub : ∀ {l}, l ∈ r.queue.eraseIdx k ++ r.jobs.flatMap Job.waiters → l ∈ r.places :=
    fun hl => hperm.mem_iff.mpr (List.mem_cons_of_mem _ hl)
  obtain ⟨a, ha, hv⟩ := h.parked j (hperm.mem_iff.mpr List.mem_cons_self)
  have hof : ∀ {l c}, (r.jobs.modify j Job.start)[l]? = some c → ∃ d, r.jobs[l]? = some d ∧
      c = if j = l then d.start else d := by
    intro l c hc
    rcases of_getElem?_modify hc with ⟨rfl, d, hd, rfl⟩ | ⟨hne, hd⟩
    · exact ⟨d, hd, (if_pos rfl).symm⟩
    · exact ⟨c, hd, (if_neg hne).symm⟩
  have hto : ∀ {l d}, r.jobs[l]? = some d →
      (r.jobs.modify j Job.start)[l]? = some (if j = l then d.start else d) :=
    fun hd => exists_getElem?_modify hd
  exact
    { jobs := fun l c hc => by
        obtain ⟨d, hd, rfl⟩ := hof hc
        split
        · exact (h.jobs l d hd).start
        · exact h.jobs l d hd
      nodup := hplaces ▸ hnodup
      apart := fun l hl => by
        obtain rfl : j = l := by simpa [current] using hl
        exact hplaces ▸ hnot
      started := fun l hl => by
        obtain rfl : j = l := by simpa [current] using hl
        exact ⟨_, hto ha, by rw [if_pos rfl]; exact Job.isStarted_start hv⟩
      parked := fun l hl => by
        rw [hplaces] at hl
        obtain ⟨d, hd, hdv⟩ := h.parked l (hsub hl)
        refine ⟨_, hto hd, ?_⟩
        split
        · rw [Job.start_value?]
          exact hdv
        · exact hdv
      placed := fun l c hc hcv => by
        obtain ⟨d, hd, rfl⟩ := hof hc
        by_cases hl : j = l
        · exact .inl (by simp [current, hl])
        · rw [if_neg hl] at hcv
          have hmem := (h.placed l d hd hcv).resolve_left (by simp [current, hphase])
          rw [hplaces]
          exact .inr ((List.mem_cons.mp (hperm.mem_iff.mp hmem)).resolve_left (Ne.symm hl))
      waits := fun l c hc o ho => by
        obtain ⟨d, hd, rfl⟩ := hof hc
        have hsame : (if j = l then d.start else d).waiters = d.waiters ∧
            (if j = l then d.start else d).future = d.future := by split <;> simp
        rw [hsame.1] at ho
        obtain ⟨e, next, blocks, he, hawaits⟩ := h.waits l d hd o ho
        refine ⟨_, next, blocks, hto he, ?_⟩
        rw [hsame.2]
        split
        · rw [Job.start_of_isStarted (by rw [hawaits]; rfl)]
          exact hawaits
        · exact hawaits
      awaited := fun l c hc future next blocks hawaits => by
        obtain ⟨d, hd, rfl⟩ := hof hc
        have hawaits : d.progress = .awaiting future next blocks := by
          split at hawaits
          · exact Job.start_eq_awaiting hawaits
          · exact hawaits
        obtain ⟨o, e, he, hfuture, hor⟩ := h.awaited l d hd future next blocks hawaits
        refine ⟨o, _, hto he, ?_⟩
        split
        · simpa using ⟨hfuture, hor⟩
        · exact ⟨hfuture, hor⟩
      idle := fun hidle => by simp at hidle
      futures := by
        show ((r.modify j Job.start).jobs.map Job.future).Nodup
        rw [futures_modify fun _ => Job.start_future]
        exact h.futures
      older := fun l c hc => by
        obtain ⟨d, hd, rfl⟩ := hof hc
        refine Nat.lt_of_lt_of_le ?_ hn
        split
        · rw [Job.start_future]
          exact h.older l d hd
        · exact h.older l d hd }

/-- Nothing happens but that the phase changes. -/
theorem enter {φ : Phase} (h : r.Sound) (hcurrent : r.current = none)
    (hφ : ∀ i, φ ≠ .running i) (hidle : φ = .ending ∨ φ = .finished → r.queue = []) :
    ({ r with phase := φ } : Agenda Γ χ).Sound := by
  have hnone : ({ r with phase := φ } : Agenda Γ χ).current = none := by
    cases φ with
    | running i => exact absurd rfl (hφ i)
    | settling | waking | ending | finished => rfl
  exact
    { h with
      apart := fun i hi => by simp [hnone] at hi
      started := fun i hi => by simp [hnone] at hi
      placed := fun i a ha hv => .inr ((h.placed i a ha hv).resolve_left (by simp [hcurrent]))
      idle := hidle }

/-- An index that is picked is one of the queue. -/
theorem pick_eq_none (h : r.queue[(χ.choose r.queue.length r.choices).1]? = none) :
    r.queue = [] := by
  rw [List.getElem?_eq_none_iff] at h
  by_contra hne
  exact absurd (χ.lt r.choices (List.length_pos_iff.mpr hne)) (Nat.not_lt.mpr h)

theorem wake (h : r.Sound) (hphase : r.phase = .waking) : r.wake.Sound := by
  cases hj : r.queue[(χ.choose r.queue.length r.choices).1]? with
  | none =>
    have hqueue := pick_eq_none hj
    rw [wake_eq_ending hqueue]
    exact h.enter (by simp [current, hphase]) (by simp) fun _ => hqueue
  | some j =>
    rw [wake_eq_running hj]
    refine h.pick hphase hj ?_
    split
    · exact Nat.le_succ _
    · exact Nat.le_refl _

theorem act (h : r.Sound) (hphase : r.phase = .running i) (ha : r.jobs[i]? = some a) :
    (r.act i a).Sound := by
  have hgo : ∀ (b : Routine Γ) (blocks : List (Block (Routine Γ))),
      (r.modify i (.goOn (.acting b blocks))).Sound :=
    fun b blocks => h.goOn hphase rfl fun _ _ _ heq => by cases heq
  unfold Agenda.act
  cases hp : a.progress with
  | fresh | ended => exact h
  | awaiting => exact hgo _ _
  | acting b blocks =>
    cases b with
    | done v =>
      simp only
      split
      · exact hgo _ _
      · exact h.finish hphase ha v
    | spawn result owned body next =>
      have hspawned := (hgo (next r.nextCell) blocks).spawn (i := i) hphase body
      rw [modify_length] at hspawned
      exact hspawned
    | yield next => exact (hgo next blocks).park hphase
    | await future next =>
      simp only
      split
      · exact h
      · rename_i j v hseat hvalue
        obtain ⟨b, hb, rfl⟩ := seat?_eq_some hseat
        rw [value?_future h.futures hb] at hvalue
        refine h.goOn hphase rfl fun future next blocks heq => ?_
        obtain ⟨rfl, -, -⟩ := Progress.awaiting.inj heq
        exact ⟨j, b, hb, rfl, by simp [hvalue]⟩
      · rename_i j hseat hvalue
        obtain ⟨b, hb, rfl⟩ := seat?_eq_some hseat
        rw [value?_future h.futures hb] at hvalue
        exact h.await hphase hb rfl hvalue
    | value | loop | scope | retain | release | log | emit => exact hgo _ _

/-- Agendas stay sound. -/
theorem step (h : r.Sound) : r.step.Sound := by
  unfold Agenda.step
  cases hphase : r.phase with
  | running i =>
    obtain ⟨a, ha, -⟩ := h.started i (current_eq hphase)
    simp only [ha]
    exact h.act hphase ha
  | settling => exact h.enter (by simp [current, hphase]) (by simp) (by simp)
  | waking => exact h.wake hphase
  | ending =>
    exact h.enter (by simp [current, hphase]) (by simp) fun _ => h.idle (.inl hphase)
  | finished => exact h

theorem of_getElem?_start {c : χ.State} {first : CellId} {main : Routine Γ}
    (ha : (Agenda.start c first main).jobs[j]? = some a) :
    j = 0 ∧ a = { future := first, progress := .acting main [], starts := 1 } := by
  obtain ⟨hj, rfl⟩ := List.getElem?_eq_some_iff.mp ha
  obtain rfl : j = 0 := by simpa [Agenda.start] using hj
  exact ⟨rfl, rfl⟩

theorem start (c : χ.State) (first : CellId) (main : Routine Γ) :
    (Agenda.start c first main).Sound := by
  exact
    { jobs := fun j a ha => by
        obtain ⟨-, rfl⟩ := of_getElem?_start ha
        exact ⟨rfl, fun hv => by simp [Progress.value?] at hv⟩
      nodup := List.nodup_nil
      apart := fun _ _ hmem => absurd hmem List.not_mem_nil
      started := fun i hi => by
        obtain rfl : 0 = i := Option.some.inj hi
        exact ⟨_, rfl, rfl⟩
      parked := fun _ hj => absurd hj List.not_mem_nil
      placed := fun j a ha _ => by
        obtain ⟨rfl, -⟩ := of_getElem?_start ha
        exact .inl rfl
      waits := fun j b hb i hi => by
        obtain ⟨-, rfl⟩ := of_getElem?_start hb
        exact absurd hi List.not_mem_nil
      awaited := fun j a ha future next blocks hawaits => by
        obtain ⟨-, rfl⟩ := of_getElem?_start ha
        cases hawaits
      idle := fun hidle => by simp [Agenda.start] at hidle
      futures := List.nodup_singleton _
      older := fun j a ha => by
        obtain ⟨-, rfl⟩ := of_getElem?_start ha
        exact Nat.lt_succ_of_lt (Nat.lt_succ_self _) }

theorem run (h : r.Sound) (t : Nat) : (r.run t).Sound := by
  induction t with
  | zero => exact h
  | succ t ih =>
    rw [Agenda.run, Function.iterate_succ_apply']
    exact ih.step

end Sound

theorem run_succ (r : Agenda Γ χ) (t : Nat) : r.run (t + 1) = (r.run t).step :=
  Function.iterate_succ_apply' ..

/-! ### What becomes of all computations -/

/-- No wake-up of a computation is lost. -/
structure Accounted (r : Agenda Γ χ) : Prop where
  /-- Whoever goes on after it has awaited a result gets what was returned. -/
  answered : ∀ (i : Nat) (a : Job Γ), r.phase = .running i → r.jobs[i]? = some a →
    ∀ future next blocks, a.progress = .awaiting future next blocks →
      ∃ (j : Nat) (b : Job Γ) (v : Value), r.jobs[j]? = some b ∧ b.future = future ∧
        b.progress = .ended v ∧ r.step = r.modify i (.goOn (.acting (next (some v)) blocks))
  /-- Whoever has not ended runs, or is parked in one place. -/
  once : ∀ (i : Nat) (a : Job Γ), r.jobs[i]? = some a → a.progress.value? = none →
    r.current = some i ∧ i ∉ r.places ∨ r.current ≠ some i ∧ r.places.count i = 1
  /-- Nobody is parked who has ended. -/
  parked : ∀ i ∈ r.places, ∃ a, r.jobs[i]? = some a ∧ a.progress.value? = none
  /-- Whoever is parked at a future awaits its result, which is not there. -/
  waits : ∀ (j : Nat) (b : Job Γ), r.jobs[j]? = some b → ∀ i ∈ b.waiters,
    b.progress.value? = none ∧ ∃ a next blocks, r.jobs[i]? = some a ∧
      a.progress = .awaiting b.future next blocks
  started : ∀ (i : Nat) (a : Job Γ), r.jobs[i]? = some a → a.starts ≤ 1
  /-- In the end the queue is empty, and whoever has not ended waits for one that has not ended
  either. -/
  stuck : r.phase = .ending ∨ r.phase = .finished → r.queue = [] ∧
    ∀ (i : Nat) (a : Job Γ), r.jobs[i]? = some a → a.progress.value? = none →
      ∃ (j : Nat) (b : Job Γ), r.jobs[j]? = some b ∧ i ∈ b.waiters ∧ b.progress.value? = none

theorem Sound.accounted (h : r.Sound) : r.Accounted := by
  have hwaits : ∀ (j : Nat) (b : Job Γ), r.jobs[j]? = some b → ∀ i ∈ b.waiters,
      b.progress.value? = none := by
    intro j b hb i hi
    by_contra hv
    rw [(h.jobs j b hb).settled (by simpa [Option.isSome_iff_ne_none] using hv)] at hi
    exact absurd hi List.not_mem_nil
  exact
    { answered := fun i a hphase ha future next blocks hawaits => by
        obtain ⟨j, b, hb, rfl, hor⟩ := h.awaited i a ha future next blocks hawaits
        have hv := hor.resolve_left fun hi =>
          h.apart i (Sound.current_eq hphase) (mem_places_of_waiter hb hi)
        obtain ⟨v, hv⟩ := Option.isSome_iff_exists.mp hv
        refine ⟨j, b, v, hb, rfl, Progress.value?_eq_some.mp hv, ?_⟩
        simp only [Agenda.step, hphase, ha, Agenda.act, hawaits, value?_future h.futures hb, hv]
      once := fun i a ha hv => by
        rcases h.placed i a ha hv with hcurrent | hmem
        · exact .inl ⟨hcurrent, h.apart i hcurrent⟩
        · exact .inr ⟨fun hcurrent => h.apart i hcurrent hmem,
            List.count_eq_one_of_mem h.nodup hmem⟩
      parked := h.parked
      waits := fun j b hb i hi => ⟨hwaits j b hb i hi, h.waits j b hb i hi⟩
      started := fun i a ha => by
        rw [(h.jobs i a ha).starts]
        split <;> omega
      stuck := fun hover => by
        have hnone : r.current = none := by rcases hover with hφ | hφ <;> simp [current, hφ]
        have hqueue := h.idle hover
        refine ⟨hqueue, fun i a ha hv => ?_⟩
        have hmem := (h.placed i a ha hv).resolve_left (by simp [hnone])
        rw [places, hqueue, List.nil_append] at hmem
        obtain ⟨b, hb, hi⟩ := List.mem_flatMap.mp hmem
        obtain ⟨j, hj⟩ := List.mem_iff_getElem?.mp hb
        exact ⟨j, b, hj, hi, hwaits j b hj i hi⟩ }

/-- No computation is forgotten, and no result changes. -/
def Grows (r r' : Agenda Γ χ) : Prop :=
  ∀ (i : Nat) (a : Job Γ), r.jobs[i]? = some a → ∃ b, r'.jobs[i]? = some b ∧
    b.future = a.future ∧ a.starts ≤ b.starts ∧ ∀ v, a.progress = .ended v → b = a

theorem Grows.refl (r : Agenda Γ χ) : r.Grows r := fun _ a ha => ⟨a, ha, rfl, Nat.le_refl _, fun _ _ => rfl⟩

theorem Grows.trans {r' r'' : Agenda Γ χ} (h : r.Grows r') (h' : r'.Grows r'') : r.Grows r'' := by
  intro i a ha
  obtain ⟨b, hb, hfuture, hstarts, hended⟩ := h i a ha
  obtain ⟨c, hc, hfuture', hstarts', hended'⟩ := h' i b hb
  refine ⟨c, hc, hfuture'.trans hfuture, hstarts.trans hstarts', fun v hv => ?_⟩
  obtain rfl := hended v hv
  exact hended' v hv

/-- A computation that has not ended may change. -/
theorem grows_modify (ha : r.jobs[i]? = some a) (hv : a.progress.value? = none)
    (hfuture : (f a).future = a.future) (hstarts : a.starts ≤ (f a).starts) :
    r.Grows (r.modify i f) := by
  intro j b hb
  refine ⟨_, exists_getElem?_modify hb, ?_⟩
  split
  · subst j
    obtain rfl := Option.some.inj (ha.symm.trans hb)
    exact ⟨hfuture, hstarts, fun v hended => by simp [hended, Progress.value?] at hv⟩
  · exact ⟨rfl, Nat.le_refl _, fun _ _ => rfl⟩

theorem Sound.grows_act (h : r.Sound) (hphase : r.phase = .running i) (ha : r.jobs[i]? = some a) :
    r.Grows (r.act i a) := by
  have hv := Progress.value?_of_isStarted (h.isStarted hphase ha)
  have hgo : ∀ p, r.Grows (r.modify i (.goOn p)) := fun p =>
    grows_modify (f := .goOn p) ha hv rfl (Nat.le_refl _)
  cases hp : a.progress with
  | fresh | ended =>
    simp only [Agenda.act, hp]
    exact Grows.refl r
  | awaiting =>
    simp only [Agenda.act, hp]
    exact hgo _
  | acting b blocks =>
    cases b with
    | done v =>
      simp only [Agenda.act, hp]
      split
      · exact hgo _
      · exact grows_modify (r := r) (f := .finish v) ha hv rfl (Nat.le_refl _)
    | spawn result owned body next =>
      simp only [Agenda.act, hp]
      refine (hgo (.acting (next r.nextCell) blocks)).trans fun j b hb => ?_
      exact ⟨b, getElem?_append_of_some hb, rfl, Nat.le_refl _, fun _ _ => rfl⟩
    | yield next =>
      simp only [Agenda.act, hp]
      exact hgo (.acting next blocks)
    | await future next =>
      simp only [Agenda.act, hp]
      split
      · exact Grows.refl r
      · exact hgo _
      · rename_i j hseat hvalue
        obtain ⟨b, hb, rfl⟩ := seat?_eq_some hseat
        rw [value?_future h.futures hb] at hvalue
        have hb' := exists_getElem?_modify (i := i) (f := .goOn (.awaiting b.future next blocks)) hb
        refine (hgo (.awaiting b.future next blocks)).trans ?_
        refine grows_modify (r := r.modify i (.goOn (.awaiting b.future next blocks)))
          (f := .await i) hb' ?_ ?_ ?_
        · split
          · rfl
          · exact hvalue
        all_goals split <;> simp [Job.await, Job.goOn]
    | value | loop | scope | retain | release | log | emit =>
      simp only [Agenda.act, hp]
      exact hgo _

theorem Sound.grows_step (h : r.Sound) : r.Grows r.step := by
  unfold Agenda.step
  cases hphase : r.phase with
  | running i =>
    obtain ⟨a, ha, -⟩ := h.started i (Sound.current_eq hphase)
    simp only [ha]
    exact h.grows_act hphase ha
  | waking =>
    show r.Grows r.wake
    cases hj : r.queue[(χ.choose r.queue.length r.choices).1]? with
    | none =>
      rw [wake_eq_ending (Sound.pick_eq_none hj)]
      exact Grows.refl r
    | some j =>
      rw [wake_eq_running hj]
      obtain ⟨a, ha, hv⟩ := h.parked j (List.mem_append_left _ (List.mem_of_getElem? hj))
      refine grows_modify (r := r) (f := .start) ha hv Job.start_future ?_
      unfold Job.start
      split
      · exact Nat.le_succ _
      · exact Nat.le_refl _
  | settling | ending | finished => exact Grows.refl r

theorem Sound.grows_run (h : r.Sound) (t d : Nat) : (r.run t).Grows (r.run (t + d)) := by
  induction d with
  | zero => exact Grows.refl _
  | succ d ih =>
    rw [← Nat.add_assoc, run_succ]
    exact ih.trans (h.run (t + d)).grows_step

theorem run_of_finished {t : Nat} (h : (r.run t).phase = .finished) (d : Nat) :
    r.run (t + d) = r.run t := by
  induction d with
  | zero => rfl
  | succ d ih => rw [← Nat.add_assoc, run_succ, ih, step, h]

/-- What the main computation has returned, if it has ended. -/
def result? (r : Agenda Γ χ) : Option Value := (r.jobs[0]?).bind (·.progress.value?)

/-- In the end the main computation has returned what it returns at any time. -/
theorem Sound.result?_eq (h : r.Sound) {t : Nat} (hover : (r.run t).phase = .finished) (v : Value) :
    (r.run t).result? = some v ↔ ∃ t, (r.run t).result? = some v := by
  refine ⟨fun hv => ⟨t, hv⟩, fun ⟨t', hv⟩ => ?_⟩
  rcases Nat.le_total t t' with hle | hle
  · obtain ⟨d, rfl⟩ := Nat.exists_eq_add_of_le hle
    rwa [run_of_finished hover d] at hv
  · obtain ⟨d, rfl⟩ := Nat.exists_eq_add_of_le hle
    obtain ⟨a, ha, hended⟩ := Option.bind_eq_some_iff.mp hv
    obtain ⟨b, hb, -, -, hsame⟩ := h.grows_run t' d 0 a ha
    rw [hsame v (Progress.value?_eq_some.mp hended)] at hb
    exact Option.bind_eq_some_iff.mpr ⟨a, hb, hended⟩

end Agenda

end EffectHandlers.Promise
