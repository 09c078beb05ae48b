import EffectHandlers.Proofs.Mail
/-!
# No actor is overtaken

The first parked actor that does not wait for mail gets control, and an actor is parked behind all
others when it stops. A parked actor that does not wait keeps its place, whatever messages are sent
and whatever actors are added, so nobody gets control twice before it.
-/

namespace EffectHandlers.Actor

/-- What is picked is the first element that satisfies the test. -/
theorem exists_eq_of_pick {α : Type} {p : α → Bool} {l others : List α} {x : α}
    (h : pick p l = some (x, others)) :
    ∃ before after, l = before ++ x :: after ∧ others = before ++ after ∧
      (∀ y ∈ before, p y = false) ∧ p x = true := by
  induction l generalizing others with
  | nil => cases h
  | cons y l ih =>
    rw [pick] at h
    split at h
    · rename_i hy
      cases h
      exact ⟨[], l, rfl, rfl, fun _ hz => absurd hz List.not_mem_nil, hy⟩
    · rename_i hy
      obtain ⟨⟨x', others'⟩, hpick, heq⟩ := Option.map_eq_some_iff.mp h
      cases heq
      obtain ⟨before, after, rfl, rfl, hbefore, hx⟩ := ih hpick
      refine ⟨y :: before, after, rfl, rfl, fun z hz => ?_, hx⟩
      rcases List.mem_cons.mp hz with rfl | hz
      · simpa using hy
      · exact hbefore z hz

namespace Roster

variable {r : Roster} {i j : Nat} {a : Member} {f : Member → Member}

/-! ### The order of the parked actors -/

/-- How the order of the parked actors changes in one step. -/
inductive Reorders (r : Roster) : Prop
  | same (hphase : r.phase ≠ .waking) (hactive : r.step.active = r.active)
  /-- The actor that stops goes behind the others. -/
  | parks {i : Nat} (hcurrent : r.current = some i) (hphase : r.step.phase = .waking)
      (hactive : r.step.active = r.active ++ [i])
  /-- A new actor goes behind the others, and the one that adds it keeps control. -/
  | adds {i : Nat} (hcurrent : r.current = some i) (hkeeps : r.step.current = some i)
      (hactive : r.step.active = r.active ++ [r.members.length])
  /-- The first actor that does not wait gets control; the others keep their order. -/
  | wakes {before after : List Nat} {i : Nat} (hphase : r.phase = .waking) (hbefore : r.active = before ++ i :: after)
      (hwaiting : ∀ j ∈ before, r.isReady j = false) (hready : r.isReady i = true)
      (hcurrent : r.step.phase = .running i) (hactive : r.step.active = before ++ after)
  /-- All wait, and that is the end. -/
  | ends (hphase : r.phase = .waking) (hwaiting : ∀ j ∈ r.active, r.isReady j = false)
      (hended : r.step.phase = .ending) (hdeadlock : r.step.deadlock = some r.active.length)

theorem reorders_wake (hphase : r.phase = .waking) : r.Reorders := by
  have hstep : r.step = r.wake := by simp only [step, hphase]
  cases hpick : pick r.isReady r.active with
  | none =>
    refine .ends hphase (pick_eq_none.mp hpick) ?_ ?_ <;>
      simp only [hstep, wake, hpick]
  | some x =>
    obtain ⟨i, others⟩ := x
    obtain ⟨before, after, hactive, hothers, hwaiting, hready⟩ := exists_eq_of_pick hpick
    refine .wakes hphase hactive hwaiting hready ?_ ?_ <;>
      simp only [hstep, wake, hpick]
    exact hothers

theorem reorders_act (hphase : r.phase = .running i) (ha : r.members[i]? = some a) :
    r.Reorders := by
  have hcurrent : r.current = some i := by simp [current, hphase]
  have hstep : r.step = r.act i a := by simp only [step, hphase, ha]
  have hne : r.phase ≠ .waking := by simp [hphase]
  cases hp : a.progress with
  | acting b loops =>
    cases b with
    | yield next =>
      exact .parks hcurrent (by simp [hstep, act, hp, park])
        (by simp [hstep, act, hp, park, modify])
    | spawn owned body next =>
      exact .adds hcurrent (by simp [hstep, act, hp, modify, current, hphase])
        (by simp [hstep, act, hp])
    | done v =>
      refine .same hne ?_
      simp only [hstep, act, hp]
      split <;> rfl
    | send | receive | loop | retain | release | log =>
      exact .same hne (by simp [hstep, act, hp, modify])
  | polling next loops =>
    refine .same hne ?_
    simp only [hstep, act, hp]
    split <;> rfl
  | fresh | ended => exact .same hne (by simp [hstep, act, hp])

/-- Parked actors change their order in these ways only. -/
theorem reorders (r : Roster) : r.Reorders := by
  cases hphase : r.phase with
  | running i =>
    cases ha : r.members[i]? with
    | some a => exact reorders_act hphase ha
    | none => exact .same (by simp [hphase]) (by simp [step, hphase, ha])
  | parking i =>
    exact .parks (i := i) (by simp [current, hphase]) (by simp [step, hphase, park])
      (by simp [step, hphase, park])
  | waking => exact reorders_wake hphase
  | pushing | ending | finished => exact .same (by simp [hphase]) (by simp [step, hphase, modify])

/-! ### Keeping one's place -/

theorem isReady_iff : r.isReady j = true ↔ ∃ a, r.members[j]? = some a ∧ a.waiting = false := by
  unfold isReady
  cases r.members[j]? <;> simp

theorem isReady_modify (hready : r.isReady j = true)
    (hf : i = j → ∀ a, a.waiting = false → (f a).waiting = false) :
    (r.modify i f).isReady j = true := by
  obtain ⟨a, ha, hwaiting⟩ := isReady_iff.mp hready
  refine isReady_iff.mpr ⟨_, exists_getElem?_modify ha, ?_⟩
  split
  · rename_i heq
    exact hf heq a hwaiting
  · exact hwaiting

theorem isReady_append {b : Member} (hready : r.isReady j = true) :
    ({ r with members := r.members ++ [b] } : Roster).isReady j = true := by
  obtain ⟨a, ha, hwaiting⟩ := isReady_iff.mp hready
  exact isReady_iff.mpr ⟨a, getElem?_append_of_some ha, hwaiting⟩

theorem isReady_act (hij : i ≠ j) (hready : r.isReady j = true) :
    (r.act i a).isReady j = true := by
  have hgoOn : ∀ p, (r.modify i (.goOn p)).isReady j = true := fun p =>
    isReady_modify hready fun _ _ hw => hw
  cases hp : a.progress with
  | acting b loops =>
    cases b with
    | done v =>
      simp only [act, hp]
      split
      · exact hgoOn _
      · exact hgoOn _
    | send receiver message next =>
      simp only [act, hp]
      exact isReady_modify (hgoOn _) fun _ _ _ => rfl
    | spawn owned body next =>
      simp only [act, hp]
      exact isReady_append (hgoOn _)
    | receive | yield | loop | retain | release | log =>
      simp only [act, hp]
      exact hgoOn _
  | polling next loops =>
    simp only [act, hp]
    split
    · exact isReady_modify hready fun heq => absurd heq hij
    · exact isReady_modify hready fun heq => absurd heq hij
  | fresh | ended =>
    simp only [act, hp]
    exact hready

/-- Only the actor that has control can begin to wait. -/
theorem isReady_step (hcurrent : r.current ≠ some j) (hready : r.isReady j = true) :
    r.step.isReady j = true := by
  cases hphase : r.phase with
  | running i =>
    have hij : i ≠ j := by
      rintro rfl
      exact hcurrent (by simp [current, hphase])
    cases ha : r.members[i]? with
    | some a =>
      simp only [step, hphase, ha]
      exact isReady_act hij hready
    | none =>
      simp only [step, hphase, ha]
      exact hready
  | pushing i receiver message =>
    simp only [step, hphase]
    exact isReady_modify (f := .push message) hready fun _ _ hw => hw
  | waking =>
    simp only [step, hphase, wake]
    split
    · exact isReady_modify hready fun _ _ hw => by simpa using hw
    · exact hready
  | parking | ending | finished =>
    simp only [step, hphase]
    exact hready

/-- An actor is given control. -/
def Gets (r : Roster) (i : Nat) : Prop := r.phase = .waking ∧ r.step.phase = .running i

/-- A parked actor does not wait, and another one is not parked before it. -/
structure Ahead (r : Roster) (j i : Nat) : Prop where
  ready : r.isReady j = true
  place : ∃ before after, r.active = before ++ j :: after ∧ i ∉ before

namespace Ahead

theorem mem (h : r.Ahead j i) : j ∈ r.active := by
  obtain ⟨before, after, hactive, -⟩ := h.place
  simp [hactive]

/-- What is added to the parked actors is added behind. -/
theorem place_append {k : Nat} (h : r.Ahead j i) :
    ∃ before after, r.active ++ [k] = before ++ j :: after ∧ i ∉ before := by
  obtain ⟨before, after, hactive, hi⟩ := h.place
  exact ⟨before, after ++ [k], by simp [hactive], hi⟩

/-- Whoever gets control instead of an actor that is ready was parked before it. -/
theorem place_of_wakes {before after : List Nat} {k : Nat} (h : r.Ahead j i)
    (hactive : r.active = before ++ k :: after) (hwaiting : ∀ l ∈ before, r.isReady l = false)
    (hk : k ≠ j) :
    k ≠ i ∧ ∃ before' after', before ++ after = before' ++ j :: after' ∧ i ∉ before' := by
  obtain ⟨front, rear, hfront, hi⟩ := h.place
  rcases List.append_eq_append_iff.mp (hactive.symm.trans hfront) with
    ⟨mid, rfl, hmid⟩ | ⟨mid, rfl, hmid⟩
  · cases mid with
    | nil => exact absurd (List.cons.inj hmid).1 hk
    | cons x mid =>
      obtain ⟨rfl, rfl⟩ := List.cons.inj hmid
      refine ⟨fun heq => hi (by simp [heq]), before ++ mid, rear, by simp, fun hmem => hi ?_⟩
      rcases List.mem_append.mp hmem with hmem | hmem
      · exact List.mem_append_left _ hmem
      · exact List.mem_append_right _ (List.mem_cons_of_mem _ hmem)
  · -- Nobody before the one that gets control is ready.
    cases mid with
    | nil => exact absurd (List.cons.inj hmid).1.symm hk
    | cons x mid =>
      obtain ⟨rfl, -⟩ := List.cons.inj hmid
      have hready := h.ready
      rw [hwaiting j (by simp)] at hready
      cases hready

/-- An actor stays ahead of another one until it gets control, and the other one does not. -/
theorem step (h : r.Ahead j i) (hsound : r.Sound) (hgets : ¬ r.Gets j) :
    r.step.Ahead j i ∧ ¬ r.Gets i := by
  have hready := isReady_step (fun hj => hsound.apart j hj h.mem) h.ready
  have hbusy : ∀ {k l}, r.current = some l → ¬ r.Gets k := fun hcurrent hgets => by
    simp [current, hgets.1] at hcurrent
  cases r.reorders with
  | same hphase hactive =>
    exact ⟨⟨hready, hactive ▸ h.place⟩, fun hgets => absurd hgets.1 hphase⟩
  | parks hcurrent hphase hactive => exact ⟨⟨hready, hactive ▸ h.place_append⟩, hbusy hcurrent⟩
  | adds hcurrent hkeeps hactive => exact ⟨⟨hready, hactive ▸ h.place_append⟩, hbusy hcurrent⟩
  | @wakes before after k hphase hbefore hwaiting _ hcurrent hactive =>
    obtain ⟨hi, hplace⟩ :=
      h.place_of_wakes hbefore hwaiting fun heq => hgets ⟨hphase, heq ▸ hcurrent⟩
    refine ⟨⟨hready, hactive ▸ hplace⟩, fun hgets' => hi ?_⟩
    exact Phase.running.inj (hcurrent.symm.trans hgets'.2)
  | ends hphase hwaiting =>
    have hready := h.ready
    rw [hwaiting j h.mem] at hready
    cases hready

end Ahead

/-- Whoever is parked and ready when another actor gets control is ahead of it from then on. -/
theorem Gets.ahead (hgets : r.Gets i) (hsound : r.Sound) (hj : j ∈ r.active) (hne : j ≠ i)
    (hready : r.isReady j = true) : r.step.Ahead j i := by
  have hready' := isReady_step (fun hj' => hsound.apart j hj' hj) hready
  cases r.reorders with
  | same hphase => exact absurd hgets.1 hphase
  | parks hcurrent | adds hcurrent => simp [current, hgets.1] at hcurrent
  | @wakes before after k hphase hbefore hwaiting _ hcurrent hactive =>
    obtain rfl : k = i := Phase.running.inj (hcurrent.symm.trans hgets.2)
    have hnodup := hsound.nodup
    rw [hbefore] at hnodup
    have hk := (List.nodup_cons.mp (List.perm_middle.nodup_iff.mp hnodup)).1
    have hj' : j ∈ before ++ after := by
      rw [hbefore] at hj
      exact (List.mem_cons.mp (List.perm_middle.mem_iff.mp hj)).resolve_left hne
    obtain ⟨front, rear, hfront⟩ := List.append_of_mem hj'
    refine ⟨hready', front, rear, hactive.trans hfront, fun hmem => hk ?_⟩
    rw [hfront]
    exact List.mem_append_left _ hmem
  | ends hphase hwaiting =>
    rw [hwaiting j hj] at hready
    cases hready

/-- As long as an actor that is ahead does not get control, it stays ahead. -/
theorem Ahead.run (h : r.Ahead j i) (hsound : r.Sound) {t : Nat}
    (hnot : ∀ t' < t, ¬ (r.run t').Gets j) :
    (r.run t).Ahead j i ∧ ∀ t' < t, ¬ (r.run t').Gets i := by
  induction t with
  | zero => exact ⟨h, fun t' ht => absurd ht (Nat.not_lt_zero t')⟩
  | succ t ih =>
    obtain ⟨hahead, hbefore⟩ := ih fun t' ht => hnot t' (Nat.lt_succ_of_lt ht)
    obtain ⟨hahead', hgets⟩ := hahead.step (hsound.run t) (hnot t (Nat.lt_succ_self t))
    rw [run_succ]
    refine ⟨hahead', fun t' ht => ?_⟩
    rcases Nat.lt_succ_iff_lt_or_eq.mp ht with ht | rfl
    · exact hbefore t' ht
    · exact hgets

/-- Nobody gets control twice while another actor is parked and does not wait for mail. -/
theorem exists_gets_between (hsound : r.Sound) {t₁ t₂ : Nat} (ht : t₁ < t₂)
    (hfirst : (r.run t₁).Gets i) (hagain : (r.run t₂).Gets i) (hj : j ∈ (r.run t₁).active)
    (hne : j ≠ i) (hready : (r.run t₁).isReady j = true) :
    ∃ t, t₁ < t ∧ t < t₂ ∧ (r.run t).Gets j := by
  by_contra hnone
  have hahead : (r.run (t₁ + 1)).Ahead j i :=
    run_succ r t₁ ▸ hfirst.ahead (hsound.run t₁) hj hne hready
  have hshift : ∀ d, (r.run (t₁ + 1)).run d = r.run (t₁ + 1 + d) := by
    intro d
    rw [Roster.run, Roster.run, Roster.run, ← Function.iterate_add_apply, Nat.add_comm d]
  have hnot : ∀ t' < t₂ - t₁, ¬ ((r.run (t₁ + 1)).run t').Gets j := by
    intro t' ht' hgets
    rw [hshift] at hgets
    by_cases hlast : t₁ + 1 + t' = t₂
    · rw [hlast] at hgets
      exact hne (Phase.running.inj (hgets.2.symm.trans hagain.2))
    · exact hnone ⟨_, by omega, by omega, hgets⟩
  refine (hahead.run (hsound.run (t₁ + 1)) hnot).2 (t₂ - (t₁ + 1)) (by omega) ?_
  rw [hshift, show t₁ + 1 + (t₂ - (t₁ + 1)) = t₂ by omega]
  exact hagain

end Roster

section Threads

variable {Γ : Library Content} {settings : SettingsSlot} {cells : List Content}
  {statics owned : List Owned} {main : Mailbox → Behaviour}

/-- In a careful thread no actor is overtaken: the first parked actor that does not wait for mail
gets control, whoever stops goes behind the others, and between two moments at which an actor gets
control every other one gets it that was parked at the first of them and did not wait. -/
theorem nobody_is_overtaken (hΓ : Γ.Orderly) (hhandler : Γ.handlerType handlerName = handler)
    (hsize : settings.use.1.stackSize < StackPool.addressSpace)
    (hcareful : (Machine.start settings cells statics (program owned main)).Careful Γ)
    (haddressed : ∀ t, ((Roster.start (cells.length + 2) main).run t).Addressed) :
    (∃ clock, (Machine.start settings cells statics (program owned main)).Follows Γ
      (Roster.start (cells.length + 2) main).plan clock) ∧
    (∀ t, ((Roster.start (cells.length + 2) main).run t).Reorders) ∧
    ∀ t₁ t₂ i j, t₁ < t₂ → ((Roster.start (cells.length + 2) main).run t₁).Gets i →
      ((Roster.start (cells.length + 2) main).run t₂).Gets i → j ≠ i →
      j ∈ ((Roster.start (cells.length + 2) main).run t₁).active →
      ((Roster.start (cells.length + 2) main).run t₁).isReady j = true →
      ∃ t, t₁ < t ∧ t < t₂ ∧ ((Roster.start (cells.length + 2) main).run t).Gets j := by
  refine ⟨Machine.exists_follows hΓ (program_orderly owned main) hsize hcareful
    (follows_plan owned hhandler haddressed), fun t => Roster.reorders _, ?_⟩
  intro t₁ t₂ i j ht hfirst hagain hne hj hready
  exact Roster.exists_gets_between (Roster.Sound.start (cells.length + 2) main) ht hfirst hagain hj
    hne hready

end Threads

/-! ### Two actors that take turns -/

/-- An actor and the one that it adds give up control twice each. -/
def pair (_ : Mailbox) : Behaviour :=
  .spawn [] (fun _ => .yield (.yield (.done .unit))) fun child =>
    .release child.owned (.yield (.yield (.done .unit)))

theorem addressed_pair (t : Nat) : ((Roster.start 2 pair).run t).Addressed :=
  Roster.addressed_of_over (N := 14) rfl (by decide +kernel) t

theorem careful_pair : (Machine.start {} [] [] (program [] pair)).Careful library :=
  Machine.careful_of_watch (N := 224) (by decide +kernel)

/-- The actor that was added gets control at the third moment and at the seventh, and the other one
in between. -/
theorem nobody_is_overtaken_pair :
    (∃ clock, (Machine.start {} [] [] (program [] pair)).Follows library
      (Roster.start 2 pair).plan clock) ∧
    ((Roster.start 2 pair).run 3).Gets 1 ∧ ((Roster.start 2 pair).run 7).Gets 1 ∧
    ∃ t, 3 < t ∧ t < 7 ∧ ((Roster.start 2 pair).run t).Gets 0 := by
  obtain ⟨hfollows, -, hbetween⟩ := nobody_is_overtaken library_orderly library_handler
    (by decide) careful_pair addressed_pair
  have hfirst : ((Roster.start 2 pair).run 3).Gets 1 := ⟨rfl, rfl⟩
  have hagain : ((Roster.start 2 pair).run 7).Gets 1 := ⟨rfl, rfl⟩
  exact ⟨hfollows, hfirst, hagain,
    hbetween 3 7 1 0 (by decide) hfirst hagain (by decide) (by decide) rfl⟩

end EffectHandlers.Actor
