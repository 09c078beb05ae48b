import EffectHandlers.Proofs.Agreement
import EffectHandlers.Proofs.Lingering
import EffectHandlers.Proofs.Unfolding
/-!
# Threads that release nothing

A thread whose code uses nothing that was dropped is not changed by what it releases: it does the same,
and ends in the same way, as one that releases nothing at all.
-/

namespace EffectHandlers

namespace Machine

variable {ω : Type} {Γ : Library ω} {m m' l : Machine ω} {x : Holding} {gone gone' : Holding → Prop}

/-! ### Fibers and exchanges are held once -/

section Single

variable [Contents ω]

/-- Each fiber and each exchange has one holder at most, and none before it is made. -/
structure Singular (m : Machine ω) : Prop where
  counts : m.Counts
  tidy : m.Tidy
  once : ∀ x, x.Single → m.holders x ≤ 1
  fresh : ∀ x, x.Single → m.hasMade x = false → m.holders x = 0

namespace Singular

/-- What nothing holds, once it is made, is never held again. -/
theorem unheld_step (h : m.Singular) (hx : x.Single) (hmade : m.hasMade x = true)
    (hnone : m.holders x = 0) : (m.step Γ).holders x = 0 := by
  have hstep := holders_step_single (Γ := Γ) h.counts hx
  have hbrings := count_brings_single m (m.step Γ) hx
  simp only [hmade, Bool.true_eq_false, false_and, if_false] at hbrings
  omega

theorem hasMade_step (h : m.Singular) (x : Holding) (hmade : m.hasMade x = true) :
    (m.step Γ).hasMade x = true := by
  cases x with
  | fiber f =>
    simp only [hasMade, decide_eq_true_eq] at hmade ⊢
    exact Nat.lt_of_lt_of_le hmade (Ages.step m).fibers.issued
  | exchange e =>
    simp only [hasMade, decide_eq_true_eq] at hmade ⊢
    exact Nat.lt_of_lt_of_le hmade (step_issues h.tidy)
  | _ => cases hmade

theorem step (h : m.Singular) : (m.step Γ).Singular := by
  refine ⟨h.counts.step, h.tidy.step, fun x hx => ?_, fun x hx hmade => ?_⟩
  · have hstep := holders_step_single (Γ := Γ) h.counts hx
    have hbrings := count_brings_single m (m.step Γ) hx
    have honce := h.once x hx
    split at hbrings
    · rename_i hnew
      have hnone := h.fresh x hx hnew.1
      omega
    · omega
  · have hold : m.hasMade x = false := by
      by_contra hmade'
      simp [h.hasMade_step (Γ := Γ) x (Bool.eq_true_of_not_eq_false hmade')] at hmade
    have hstep := holders_step_single (Γ := Γ) h.counts hx
    have hbrings := count_brings_single m (m.step Γ) hx
    have hnone := h.fresh x hx hold
    simp only [hmade, Bool.false_eq_true, and_false, if_false] at hbrings
    omega

theorem run (h : m.Singular) (n : Nat) : (run Γ n m).Singular := by
  induction n with
  | zero => exact h
  | succ n ih => exact run_succ n m ▸ ih.step

end Singular

/-- A new thread has neither fibers nor exchanges. -/
theorem singular_start (settings : SettingsSlot) (cells : List ω) (statics : List Owned)
    (main : Comp ω) : (start settings cells statics main).Singular := by
  exact
    { counts := counts_start settings cells statics main
      tidy := tidy_start settings cells statics main
      once := fun x hx => by simp [holders_start_single settings cells statics main hx]
      fresh := fun x hx _ => holders_start_single settings cells statics main hx }

end Single

/-! ### What code reaches is there -/

section Reached

variable [Contents ω]

/-- Until a fault has ended the thread, its chain is whole. -/
theorem Orders.whole (h : m.Orders) (hfatal : m.control.isFatal = false) : m.chain.Whole := by
  obtain ⟨live, cuts, hlays⟩ := h.laid hfatal
  have hreads := hlays.arranged.reads
  have hheld : 0 < m.holders (.installation 0) := by
    rcases hlays.arranged.linked.end_or_below with htop | ⟨j, hj, hbelow⟩
    · have hanchor : .installation 0 ∈ m.anchors := by
        simp [anchors, hfatal, Option.some.inj htop]
      have hcount := List.count_pos_iff.mpr hanchor
      simp only [holders]
      omega
    · obtain ⟨a, ha⟩ := Option.isSome_iff_exists.mp
        (hlays.arranged.found j (List.mem_append_left _ hj))
      have ha' : a.below = some 0 := by simpa [Chain.get, ha] using hbelow
      have hcount := shelved_of_installation ha (x := .installation 0)
        (by simp [Installation.owned, ha'])
      simp only [holders]
      omega
  exact
    { reads := hreads.live_eq.symm ▸ hreads
      found := fun i hi => hlays.arranged.found i
        (List.mem_append_left _ (hreads.live_eq ▸ hi))
      bottom := contains_of_spare (h.spare 0) hheld }

theorem Orders.referent (h : m.Orders) (hfatal : m.control.isFatal = false) (r : ReferenceId) :
    m.chain.installations.contains (m.referent r) := by
  unfold Machine.referent
  cases hr : m.references.find? r with
  | none => exact (h.whole hfatal).bottom
  | some i => exact contains_of_reference hr (h.spare i)

/-- A step with nothing to release does the same to both threads, if it uses nothing that is gone. -/
theorem Hoarded.works (h : m.Hoarded gone l) (hm : m.releasing = []) (hl : l.releasing = [])
    (horders : m.Orders) (htidy : m.Tidy)
    (hunheld : ∀ x, x.Single → gone x → m.holders x = 0)
    (huses : ∀ o ∈ m.uses, ¬ gone (.asset o)) :
    (m.step Γ).Hoarded gone (l.step Γ) := by
  have hfound : ∀ {i : InstallationId} {a : Activation ω}, a ∈ m.stack ∨ a ∈ m.waiting →
      .installation i ∈ a.owned → m.chain.installations.contains i := fun ha hi =>
    contains_of_spare (horders.spare _) (holders_running ha hi)
  have hheld : ∀ {p : Prop} {x : Holding} {a : Activation ω}, a ∈ m.stack → x.Single → x ∈ a.owned →
      gone x → p := fun ha hsingle hx hgone => by
    have hpos := holders_running (m := m) (.inl ha) hx
    have hzero := hunheld _ hsingle hgone
    omega
  unfold Machine.step
  rw [hm, hl]
  simp only [h.control]
  cases hcontrol : m.control with
  | eval c =>
    have hfatal : m.control.isFatal = false := by rw [hcontrol]; rfl
    refine h.eval (horders.whole hfatal) c (fun o ho => huses o ?_) (horders.referent hfatal)
    simpa only [uses, hm, hcontrol] using ho
  | ret v =>
    have hfatal : m.control.isFatal = false := by rw [hcontrol]; rfl
    exact h.give (horders.whole hfatal) (fun i f ha => hfound (.inl ha) (by simp [Activation.owned])) v
  | deliver s =>
    refine h.deliver s fun k f hk hf hgone => ?_
    have hload : 0 < m.control.load (.fiber f) := by
      have hcount := List.count_pos_iff.mpr hf
      rw [hcontrol, hk, load_deliver_tail]
      exact hcount
    have hzero := hunheld _ (.fiber f) hgone
    simp only [holders] at hzero
    omega
  | settle answer v => exact h.settle answer v []
  | request r =>
    have hfatal : m.control.isFatal = false := by rw [hcontrol]; rfl
    obtain ⟨-, y, -, hy, -⟩ := htidy.request r hcontrol
    exact h.forward (horders.whole hfatal) (by simp [Store.contains, hy])
      fun i f ha => hfound (.inr ha) (by simp [Activation.owned])
  | wake =>
    exact h.wake (fun i f ha => hheld ha (.fiber f) (by simp [Activation.owned]))
      fun i e modifier command ha => hheld ha (.exchange e) (by simp [Activation.owned])
  | unwind message => exact h.unwind message
  | fault f =>
    have hfatal : m.control.isFatal = false := by rw [hcontrol]; rfl
    exact h.exit (horders.whole hfatal) f
  | halted o => exact h

end Reached

/-! ### Releases -/

section Releases

variable [Contents ω] {os : List Holding} {dropped dropped' : Owned → Prop}

/-- What a release gives up is held as often as before. -/
theorem Gives.holders (h : m.Gives x os m') (y : Holding) : (m'.release os).holders y = m.holders y := by
  have hheld := h.held.count_eq y
  have hsame : (m'.release os).rooted = m.rooted ∧ (m'.release os).stack = m.stack ∧
      (m'.release os).waiting = m.waiting ∧ (m'.release os).pending = m.pending ∧
        (m'.release os).control = m.control ∧ (m'.release os).anchors = m.anchors := by
    cases h <;> exact ⟨rfl, rfl, rfl, rfl, rfl, rfl⟩
  obtain ⟨hrooted, hstack, hwaiting, hpending, hcontrol, hanchors⟩ := hsame
  simp only [Machine.held, List.count_append, hrooted] at hheld
  simp only [Machine.holders, hstack, hwaiting, hpending, hcontrol, hanchors]
  omega

/-- What the first thread releases, the second one keeps. -/
theorem Hoarded.releases (h : m.Hoarded gone l) (hgives : m.Gives x os m')
    (hgone : ∀ y, gone y → gone' y) (hx : m.has x = true → m'.has x = false → gone' x) :
    (m'.release os).Hoarded gone' l := by
  have hmore := h.mono hgone
  have hfound : ∀ {α : Type} {s : Store α} {id : Nat} {a : α}, s.find? id = some a →
      s.contains id = true := fun ha => by simp [Store.contains, ha]
  have herased : ∀ {α : Type} {s : Store α} {id : Nat}, s.WellFormed →
      (s.erase id).contains id = false := fun hs => by simp [Store.contains, Store.find?_erase hs]
  cases hgives with
  | nothing => exact { hmore with }
  | notice n =>
    have hquiet : (m.record n.event).actions = m.actions := by
      rw [actions_record]
      cases n <;> rfl
    exact { hmore with actions := hmore.actions.trans hquiet.symm }
  | cellShare hy hshares =>
    exact { hmore with cells := hmore.cells.modify_left _ fun _ _ hab => hab }
  | installationShare ha hshares =>
    exact { hmore with chain := h.chain.modify_left _ fun _ => rfl }
  | cell hy hshares =>
    exact { hmore with cells := h.cells.drop (fun _ => hgone _) (hx (hfound hy) (herased h.cells.left)) }
  | installation ha hshares =>
    exact { hmore with chain := h.chain.erase_left _ }
  | reference hi =>
    exact
      { hmore with
        references := h.references.drop (fun _ => hgone _) (hx (hfound hi) (herased h.references.left)) }
  | closure hy =>
    exact
      { hmore with
        closures := h.closures.drop (fun _ => hgone _) (hx (hfound hy) (herased h.closures.left)) }
  | resumption hk =>
    exact
      { hmore with
        resumptions := h.resumptions.drop (fun _ => hgone _)
          (hx (hfound hk) (herased h.resumptions.left)) }
  | @fiber f S hS =>
    have hdrop : m.fibers.drop? f = some (S, { m.fibers with parked := m.fibers.parked.erase f }) := by
      simp only [Fibers.drop?, hS, Option.map_some]
    exact
      { hmore with
        fibers := h.fibers.drop hdrop (fun _ => hgone _) (hx (hfound hS) (herased h.fibers.parked.left)) }
  | exchange hy =>
    exact
      { hmore with
        exchanges := h.exchanges.drop (fun _ => hgone _) (hx (hfound hy) (herased h.exchanges.left)) }

omit [Contents ω] in
/-- What is there has been made. -/
theorem hasMade_of_has (hfibers : m.fibers.parked.WellFormed) (hexchanges : m.exchanges.WellFormed)
    (hx : x.Single) (hhas : m.has x = true) : m.hasMade x = true := by
  cases hx with
  | fiber f =>
    obtain ⟨S, hS⟩ := Option.isSome_iff_exists.mp hhas
    exact decide_eq_true (Store.lt_next hfibers hS)
  | exchange e =>
    obtain ⟨y, hy⟩ := Option.isSome_iff_exists.mp hhas
    exact decide_eq_true (Store.lt_next hexchanges hy)

/-- What is to be released next is held for that. -/
theorem holders_dequeue {hs : List Holding} (h : m.releasing = x :: hs) :
    ({ m with releasing := hs } : Machine ω).holders x + 1 = m.holders x := by
  have hcount : m.releasing.count x = hs.count x + 1 := by rw [h, List.count_cons_self]
  have hshelved : ({ m with releasing := hs } : Machine ω).shelved = m.shelved := rfl
  have hwaiting : ({ m with releasing := hs } : Machine ω).waiting = m.waiting := rfl
  have hanchors : ({ m with releasing := hs } : Machine ω).anchors = m.anchors := rfl
  simp only [holders, hshelved, hwaiting, hanchors]
  omega

/-! ### Runs -/

/-- A thread with nothing to release. -/
def idle (m : Machine ω) : Machine ω := { m with releasing := [] }

/-- A step of a thread that releases nothing. -/
def linger (Γ : Library ω) (m : Machine ω) : Machine ω := (m.step Γ).idle

/-- How a thread has ended. -/
def outcome (m : Machine ω) : Option Outcome :=
  match m.control with
  | .halted o => some o
  | _ => none

/-- What a thread shows: the actions of the program so far, and how it has ended. -/
def shown (m : Machine ω) : List Event × Option Outcome := (m.actions, m.outcome)

/-- The operations that a thread evaluates use nothing that was dropped before. -/
def Heedful (Γ : Library ω) (m : Machine ω) : Prop :=
  ∀ n, ∀ o ∈ (m.run Γ n).uses, ¬ m.Dropped Γ n o

theorem Careful.heedful (h : m.Careful Γ) : m.Heedful Γ := fun n => (h n).1

/-- What may be gone: what was dropped, and what was made and is not held any more. Of installations
nothing is said, since those that are reached are there. -/
def Forgone (dropped : Owned → Prop) (m : Machine ω) : Holding → Prop
  | .asset o => dropped o
  | .installation _ => True
  | x => m.hasMade x = true ∧ m.holders x = 0

/-- What is gone stays so. -/
theorem Forgone.step (hm : m.Singular) (hdropped : ∀ o, dropped o → dropped' o)
    (hx : m.Forgone dropped x) : (m.step Γ).Forgone dropped' x := by
  cases x with
  | asset o => exact hdropped o hx
  | installation i => trivial
  | fiber f => exact ⟨hm.hasMade_step _ hx.1, hm.unheld_step (.fiber f) hx.1 hx.2⟩
  | exchange e => exact ⟨hm.hasMade_step _ hx.1, hm.unheld_step (.exchange e) hx.1 hx.2⟩

/-- The second thread has done what the first one did in so many steps, but has released nothing. -/
structure Trails (Γ : Library ω) (m : Machine ω) (i : Nat) (l : Machine ω) : Prop where
  hoarded : (m.run Γ i).Hoarded ((m.run Γ i).Forgone (m.Dropped Γ i)) l
  idle : l.releasing = []

omit [Contents ω] in
theorem Hoarded.shown (h : m.Hoarded gone l) : l.shown = m.shown := by
  simp only [Machine.shown, outcome, h.actions, h.control]

/-- A release is only a step of the first thread. -/
theorem Trails.release {i : Nat} {hs : List Holding} (h : m.Trails Γ i l) (hm : (m.run Γ i).Singular)
    (hreleasing : (m.run Γ i).releasing = x :: hs) : m.Trails Γ (i + 1) l := by
  refine ⟨?_, h.idle⟩
  rw [run_succ]
  have hstep : (m.run Γ i).step Γ = ({ m.run Γ i with releasing := hs } : Machine ω).releaseOne x :=
    step_releasing hreleasing
  have hhoarded : ({ m.run Γ i with releasing := hs } : Machine ω).Hoarded
      ((m.run Γ i).Forgone (m.Dropped Γ i)) l := { h.hoarded with }
  obtain ⟨os, m', hgives, heq⟩ := releaseOne_gives ({ m.run Γ i with releasing := hs } : Machine ω) x
  rw [hstep, heq]
  refine hhoarded.releases hgives (fun y hy => ?_) fun hhas hhas' => ?_
  · rw [← heq, ← hstep]
    exact hy.step hm fun o ho => dropped_succ (.inl ho)
  · -- one holder was the release itself
    have hlast : x.Single → (m'.release os).holders x = 0 := by
      intro hx
      have honce := hm.once x hx
      have hless : ({ m.run Γ i with releasing := hs } : Machine ω).holders x + 1 =
          (m.run Γ i).holders x := holders_dequeue hreleasing
      rw [hgives.holders]
      omega
    have hmade : x.Single → (m'.release os).hasMade x = true := by
      intro hx
      rw [← heq, ← hstep]
      exact hm.hasMade_step x (hasMade_of_has h.hoarded.fibers.parked.left h.hoarded.exchanges.left hx hhas)
    cases x with
    | asset o =>
      refine dropped_succ (.inr ⟨by rw [hreleasing]; rfl, hhas, ?_⟩)
      rw [hstep, heq]
      exact hhas'
    | installation j => trivial
    | fiber f => exact ⟨hmade (.fiber f), hlast (.fiber f)⟩
    | exchange e => exact ⟨hmade (.exchange e), hlast (.exchange e)⟩

/-- With nothing to release, both threads take a step. -/
theorem Trails.works {i : Nat} (h : m.Trails Γ i l) (hm : (m.run Γ i).Singular)
    (horders : (m.run Γ i).Orders) (hreleasing : (m.run Γ i).releasing = [])
    (hheedful : m.Heedful Γ) : m.Trails Γ (i + 1) (linger Γ l) := by
  refine ⟨?_, rfl⟩
  rw [run_succ]
  have hsteps := h.hoarded.works (Γ := Γ) hreleasing h.idle horders hm.tidy
    (fun x hx hgone => by cases hx <;> exact hgone.2) (hheedful i)
  have hsteps' : ((m.run Γ i).step Γ).Hoarded ((m.run Γ i).Forgone (m.Dropped Γ i)) (linger Γ l) :=
    { hsteps with }
  exact hsteps'.mono fun x hx => hx.step hm fun o ho => dropped_succ (.inl ho)

/-- After a while the second thread takes the next step; until then, nothing new is shown. -/
theorem Trails.next {i : Nat} (h : m.Trails Γ i l) (hm : m.Singular) (horders : m.Orders)
    (hheedful : m.Heedful Γ) :
    ∃ j, i < j ∧ m.Trails Γ j (linger Γ l) ∧ ∀ k, i ≤ k → k < j → (m.run Γ k).shown = l.shown := by
  -- by induction on what is left to release
  induction hb : (m.run Γ i).burden using Nat.strong_induction_on generalizing i with
  | _ b ih =>
    have hsame : (m.run Γ i).shown = l.shown := h.hoarded.shown.symm
    cases hreleasing : (m.run Γ i).releasing with
    | nil =>
      refine ⟨i + 1, Nat.lt_succ_self i, h.works (hm.run i) (horders.run i) hreleasing hheedful,
        fun k hk hki => ?_⟩
      obtain rfl : k = i := by omega
      exact hsame
    | cons x hs =>
      have hless : (m.run Γ (i + 1)).burden < b := by
        rw [run_succ, step_releasing hreleasing, ← hb]
        exact burden_releaseOne hreleasing
      obtain ⟨j, hj, hnext, hquiet⟩ := ih _ hless (h.release (hm.run i) hreleasing) rfl
      refine ⟨j, Nat.lt_of_succ_lt hj, hnext, fun k hk hkj => ?_⟩
      rcases Nat.eq_or_lt_of_le hk with rfl | hk
      · exact hsame
      · exact hquiet k hk hkj

end Releases

variable [Contents ω]

omit [Contents ω] in
/-- The tables of a new thread are well-formed. -/
theorem filed_start (settings : SettingsSlot) (cells : List ω) (statics : List Owned) (main : Comp ω) :
    (start settings cells statics main).Filed where
  cells := (start_cells settings cells statics main).1
  installations := Store.wellFormed_insert Store.wellFormed_empty _
  references := Store.wellFormed_skip Store.wellFormed_empty
  closures := Store.wellFormed_empty
  resumptions := Store.wellFormed_skip Store.wellFormed_empty
  parked := Store.wellFormed_empty
  exchanges := Store.wellFormed_empty

theorem trails_start (settings : SettingsSlot) (cells : List ω) (statics : List Owned) (main : Comp ω) :
    (start settings cells statics main).Trails Γ 0 (start settings cells statics main) :=
  ⟨.refl (filed_start settings cells statics main) (run_tidy Γ settings cells statics main 0).1, rfl⟩

/-- Releasing changes nothing for code that uses nothing that was dropped: a thread shows the same
actions in the same order, and the same end, if nothing is ever released. -/
theorem range_linger {settings : SettingsSlot} {cells : List ω} {statics : List Owned} {main : Comp ω}
    (hheedful : (start settings cells statics main).Heedful Γ) :
    (Set.range fun n => (run Γ n (start settings cells statics main)).shown) =
      Set.range fun n => ((linger Γ)^[n] (start settings cells statics main)).shown := by
  refine range_eq_iterate (R := (start settings cells statics main).Trails Γ)
    (fun h => h.hoarded.shown.symm) (fun h => ?_) (trails_start settings cells statics main)
  exact h.next (singular_start settings cells statics main) (orders_start settings cells statics main)
    hheedful

end Machine

end EffectHandlers
