import EffectHandlers.Proofs.Tracking
import Mathlib.Algebra.Ring.Nat
/-!
# Releasing ends and does not show

Whatever is released gives up what it owned in turn, but every share is given up once. So nothing
is left to release after a while, and then the thread goes on as it would have before. What is
released is gone from the thread's stores only.
-/

namespace EffectHandlers

variable {ω : Type} {Γ : Library ω} {m m' : Machine ω} {s : Evaluation ω} {l l' : Layout ω}
  {gone gone' : Owned → Prop} {x : Holding} {hs : List Holding} {n : Nat}

/-! ### How much there is to release -/

/-- The sum of a measure over the entries of a store. -/
def Store.total {α : Type} (f : α → Nat) (s : Store α) : Nat := (s.entries.map fun e => f e.2).sum

theorem Store.total_erase {α : Type} (f : α → Nat) {s : Store α} {id : Nat} {a : α}
    (h : s.find? id = some a) : s.total f = f a + (s.erase id).total f := by
  have hperm := (entries_perm_erase h).map fun e => f e.2
  simpa [total] using hperm.sum_nat

theorem Store.total_modify {α : Type} (f : α → Nat) (s : Store α) (id : Nat) (g : α → α)
    (hg : ∀ a, f (g a) = f a) : (s.modify id g).total f = s.total f := by
  unfold total modify
  induction s.entries with
  | nil => rfl
  | cons e rest ih =>
    obtain ⟨n, a⟩ := e
    by_cases hn : n = id
    · simp [modifyEntries, hn, hg]
    · simpa [modifyEntries, hn] using ih

/-- What an exchange owns. -/
def Exchange.owned (x : Exchange) : List Owned :=
  (x.command.map Command.owned).getD [] ++ (x.result.map Value.owned).getD []

/-- How many things are waiting to be released, or would be if all that is stored were. -/
def Machine.burden [Contents ω] (m : Machine ω) : Nat :=
  m.releasing.length + m.cells.total (fun x => (Contents.owned x.content).length) +
    m.chain.installations.total (fun a => a.below.toList.length + 1) +
    m.references.total (fun _ => 1) + m.closures.total (fun x => x.owned.length) +
    m.resumptions.total (fun k => k.owned.length) +
    m.fibers.parked.total (fun S => (S.flatMap Activation.owned).length) +
    m.exchanges.total (fun x => x.owned.length)

/-- Each release takes something off the burden. -/
theorem Machine.burden_releaseOne [Contents ω] (hreleasing : m.releasing = x :: hs) :
    (({ m with releasing := hs } : Machine ω).releaseOne x).burden < m.burden := by
  have hless : ({ m with releasing := hs } : Machine ω).burden < m.burden := by
    simp only [burden, hreleasing, List.length_cons]
    omega
  cases x with
  | asset o =>
    cases o with
    | cell c =>
      simp only [releaseOne, releaseAsset, releaseCell]
      split
      · exact hless
      · rename_i y hy
        have htotal := Store.total_erase (fun x : Shared ω => (Contents.owned x.content).length) hy
        split
        · simp only [burden, discard, release, hreleasing, List.length_append, List.length_map,
            List.length_cons] at htotal ⊢
          omega
        · have hsame := Store.total_modify
            (fun x : Shared ω => (Contents.owned x.content).length) m.cells c
            (fun s => { s with shares := s.shares - 1 }) fun _ => rfl
          simp only [burden, hreleasing, List.length_cons]
          omega
    | reference r =>
      simp only [releaseOne, releaseAsset]
      split
      · exact hless
      · rename_i i hi
        have htotal := Store.total_erase (fun _ : InstallationId => 1) hi
        simp only [burden, release, hreleasing, List.length_append, List.length_cons,
          List.length_nil] at htotal ⊢
        omega
    | closure f =>
      simp only [releaseOne, releaseAsset]
      split
      · exact hless
      · rename_i y hy
        have htotal := Store.total_erase (fun x : Closure ω => x.owned.length) hy
        simp only [burden, discard, release, hreleasing, List.length_append, List.length_map,
          List.length_cons] at htotal ⊢
        omega
    | resumption r =>
      simp only [releaseOne, releaseAsset]
      split
      · exact hless
      · rename_i k hk
        have htotal := Store.total_erase (fun k : Cont ω => k.owned.length) hk
        simp only [burden, release, bump, trace, record, hreleasing, List.length_append,
          List.length_cons] at htotal ⊢
        omega
    | notice n => exact hless
  | installation i =>
    simp only [releaseOne, releaseInstallation]
    split
    · exact hless
    · rename_i a ha
      have htotal := Store.total_erase
        (fun a : Installation => a.below.toList.length + 1) ha
      split
      · simp only [burden, release, hreleasing, List.length_append, List.length_cons,
          List.length_nil, Option.toList_map, List.length_map] at htotal ⊢
        omega
      · have hsame := Store.total_modify
          (fun a : Installation => a.below.toList.length + 1) m.chain.installations i
          (fun s => { s with shares := s.shares - 1 }) fun _ => rfl
        simp only [burden, Chain.modify, hreleasing, List.length_cons]
        omega
  | fiber f =>
    simp only [releaseOne, Fibers.drop?]
    split
    · exact hless
    · rename_i S fs hdrop
      obtain ⟨S', hS, heq⟩ := Option.map_eq_some_iff.mp hdrop
      obtain ⟨rfl, rfl⟩ := Prod.mk.inj heq
      have htotal := Store.total_erase
        (fun S : List (Activation ω) => (S.flatMap Activation.owned).length) hS
      simp only [burden, release, hreleasing, List.length_append, List.length_cons] at htotal ⊢
      omega
  | exchange e =>
    simp only [releaseOne]
    split
    · exact hless
    · rename_i y hy
      have htotal := Store.total_erase (fun x : Exchange => x.owned.length) hy
      simp only [burden, discard, release, hreleasing, List.length_append, List.length_map,
        List.length_cons, Exchange.owned] at htotal ⊢
      omega

/-! ### What releasing keeps -/

namespace Machine

variable [Contents ω]

/-- Neither the running nor the waiting code notices what is released, and no action is taken. -/
theorem releaseOne_same (m : Machine ω) (x : Holding) :
    (m.releaseOne x).stack = m.stack ∧ (m.releaseOne x).fibers.resumers = m.fibers.resumers ∧
      (m.releaseOne x).actions = m.actions := by
  cases x with
  | asset o =>
    cases o with
    | cell c =>
      simp only [releaseOne, releaseAsset, releaseCell]
      split
      · exact ⟨rfl, rfl, rfl⟩
      · split <;> exact ⟨rfl, rfl, rfl⟩
    | notice n => cases n <;> exact ⟨rfl, rfl, rfl⟩
    | _ =>
      simp only [releaseOne, releaseAsset]
      split <;> exact ⟨rfl, rfl, rfl⟩
  | installation i =>
    simp only [releaseOne, releaseInstallation]
    split
    · exact ⟨rfl, rfl, rfl⟩
    · split <;> exact ⟨rfl, rfl, rfl⟩
  | fiber f =>
    simp only [releaseOne]
    split
    · exact ⟨rfl, rfl, rfl⟩
    · rename_i S fs hdrop
      obtain ⟨S', -, heq⟩ := Option.map_eq_some_iff.mp hdrop
      obtain ⟨rfl, rfl⟩ := Prod.mk.inj heq
      exact ⟨rfl, rfl, rfl⟩
  | exchange e =>
    simp only [releaseOne]
    split <;> exact ⟨rfl, rfl, rfl⟩

/-- Parked fibers and exchanges are only taken away. -/
theorem releaseOne_loses (m : Machine ω) (x : Holding) (hparked : m.fibers.parked.WellFormed)
    (hexchanges : m.exchanges.WellFormed) :
    (∀ f S, (m.releaseOne x).fibers.parked.find? f = some S → m.fibers.parked.find? f = some S) ∧
      ∀ e y, (m.releaseOne x).exchanges.find? e = some y → m.exchanges.find? e = some y := by
  cases x with
  | asset o =>
    cases o with
    | cell c =>
      simp only [releaseOne, releaseAsset, releaseCell]
      split
      · exact ⟨fun _ _ h => h, fun _ _ h => h⟩
      · split <;> exact ⟨fun _ _ h => h, fun _ _ h => h⟩
    | notice n => exact ⟨fun _ _ h => h, fun _ _ h => h⟩
    | _ =>
      simp only [releaseOne, releaseAsset]
      split <;> exact ⟨fun _ _ h => h, fun _ _ h => h⟩
  | installation i =>
    simp only [releaseOne, releaseInstallation]
    split
    · exact ⟨fun _ _ h => h, fun _ _ h => h⟩
    · split <;> exact ⟨fun _ _ h => h, fun _ _ h => h⟩
  | fiber f =>
    simp only [releaseOne]
    split
    · exact ⟨fun _ _ h => h, fun _ _ h => h⟩
    · rename_i S fs hdrop
      obtain ⟨S', -, heq⟩ := Option.map_eq_some_iff.mp hdrop
      obtain ⟨rfl, rfl⟩ := Prod.mk.inj heq
      refine ⟨fun g T hg => ?_, fun _ _ h => h⟩
      simp only [release, Store.find?_erase hparked] at hg
      split at hg
      · cases hg
      · exact hg
  | exchange e =>
    simp only [releaseOne]
    split
    · exact ⟨fun _ _ h => h, fun _ _ h => h⟩
    · refine ⟨fun _ _ h => h, fun e' y hy => ?_⟩
      simp only [discard, release, Store.find?_erase hexchanges] at hy
      split at hy
      · cases hy
      · exact hy

end Machine

/-- A continuation that was given a value still has it, when parked fibers and exchanges were only
taken away. -/
theorem Sound.holds (h : Sound Γ m' l') {k : Cont ω} {κ : Continuation ω} {v : Value}
    (hk : k ∈ m'.armed)
    (hholds : k.Holds m.fibers m.exchanges κ v)
    (hfibers : ∀ f S, m'.fibers.parked.find? f = some S → m.fibers.parked.find? f = some S)
    (hexchanges : ∀ e y, m'.exchanges.find? e = some y → m.exchanges.find? e = some y) :
    k.Holds m'.fibers m'.exchanges κ v where
  stands := h.stands (List.mem_append_right _ hk) hholds.stands hfibers
  value := by
    have hvalue := hholds.value
    have harmed := h.armed k hk
    cases k with
    | function => exact hvalue
    | captured answer f segment e =>
      obtain ⟨y, hy, -⟩ := harmed
      simp only [Cont.value?, hexchanges e y hy, hy] at hvalue ⊢
      exact hvalue

/-- What is related stays related in a way that it implies. -/
theorem Option.Rel.weaken {α β : Type} {R R' : α → β → Prop} {x : Option α} {y : Option β}
    (h : Option.Rel R x y) (himp : ∀ a b, x = some a → R a b → R' a b) : Option.Rel R' x y := by
  cases h with
  | none => exact .none
  | some hab => exact .some (himp _ _ rfl hab)

namespace Tracks

/-- More may be gone. -/
theorem forget (h : Tracks gone m s) (hgone : ∀ o, gone o → gone' o) : Tracks gone' m s :=
  { h with
    cells := h.cells.mono (fun _ => hgone _) fun _ _ _ _ hab => hab
    closures := h.closures.mono (fun _ => hgone _) fun _ _ _ _ hab => hab
    references := h.references.mono (fun _ => hgone _) fun _ _ _ _ hab => hab
    resumptions := h.resumptions.mono (fun _ => hgone _) fun _ _ _ _ hab => hab }

/-- Some parked fibers or exchanges were taken away. -/
theorem lose (h : Tracks gone m s) (hsound : Sound Γ m' l')
    (hfibers : ∀ f S, m'.fibers.parked.find? f = some S → m.fibers.parked.find? f = some S)
    (hexchanges : ∀ e y, m'.exchanges.find? e = some y → m.exchanges.find? e = some y)
    (hresumptions : m'.resumptions = m.resumptions) (hpending : m'.pending = m.pending) :
    m'.resumptions.Shadows (fun r => gone (.resumption r)) (Cont.Stands m'.fibers) s.resumptions ∧
      Option.Rel (fun k p => k.Holds m'.fibers m'.exchanges p.1 p.2) m'.pending s.pending := by
  refine ⟨?_, ?_⟩
  · rw [hresumptions]
    refine h.resumptions.mono (fun _ hg => hg) fun r k κ hk hstands => ?_
    refine hsound.stands ?_ hstands hfibers
    refine List.mem_append_left _ ?_
    rw [hresumptions]
    exact List.mem_map_of_mem (Store.mem_of_find? hk)
  · rw [hpending]
    refine Option.Rel.weaken h.pending fun k p hk hholds => ?_
    refine hsound.holds (List.mem_append_left _ ?_) hholds hfibers hexchanges
    simp [hpending, hk]

variable [Contents ω]

/-- What is released is gone from the thread only. -/
theorem releaseOne (h : Tracks gone m s) (hsound : Sound Γ m l)
    (hreleasing : m.releasing = x :: hs) :
    Tracks (fun o => gone o ∨ m.Drops Γ o) (m.step Γ) s := by
  obtain ⟨l', hsound'⟩ := hsound.releaseOne hreleasing
  have hdrops : ∀ o, x = .asset o → m.holds o = true →
      (({ m with releasing := hs } : Machine ω).releaseOne x).holds o = false → m.Drops Γ o := by
    intro o hx hholds hgone
    refine ⟨by simp [hreleasing, hx], hholds, ?_⟩
    rw [Machine.step_releasing hreleasing]
    exact hgone
  have hforget : Tracks (fun o => gone o ∨ m.Drops Γ o) m s := h.forget fun _ => .inl
  rw [Machine.step_releasing hreleasing]
  have hkeep : Tracks (fun o => gone o ∨ m.Drops Γ o) { m with releasing := hs } s :=
    { hforget with }
  have hholds : ∀ {α : Type} {t : Store α} {id : Nat} {a : α}, t.find? id = some a →
      t.contains id = true := by
    intro α t id a ha
    simp [Store.contains, ha]
  have hnot : ∀ {α : Type} {t : Store α} {id : Nat}, t.WellFormed →
      (t.erase id).contains id = false := by
    intro α t id ht
    simp [Store.contains, Store.find?_erase ht]
  cases x with
  | asset o =>
    cases o with
    | cell c =>
      have hdrops := hdrops _ rfl
      simp only [Machine.releaseOne, Machine.releaseAsset, Machine.releaseCell] at hdrops ⊢
      split
      · exact hkeep
      · rename_i y hy
        simp only [hy] at hdrops
        split
        · rename_i hlast
          rw [if_pos hlast] at hdrops
          exact
            { hforget with
              cells := h.cells.drop (fun _ => .inl)
                (.inr (hdrops (hholds hy) (hnot h.cells.left))) }
        · exact
            { hforget with
              cells := hforget.cells.modify_left (fun s => { s with shares := s.shares - 1 })
                fun _ _ hab => hab }
    | reference r =>
      have hdrops := hdrops _ rfl
      simp only [Machine.releaseOne, Machine.releaseAsset] at hdrops ⊢
      split
      · exact hkeep
      · rename_i i hi
        simp only [hi] at hdrops
        exact
          { hforget with
            references := h.references.drop (fun _ => .inl)
              (.inr (hdrops (hholds hi) (hnot h.references.left))) }
    | closure f =>
      have hdrops := hdrops _ rfl
      simp only [Machine.releaseOne, Machine.releaseAsset] at hdrops ⊢
      split
      · exact hkeep
      · rename_i y hy
        simp only [hy] at hdrops
        exact
          { hforget with
            closures := h.closures.drop (fun _ => .inl)
              (.inr (hdrops (hholds hy) (hnot h.closures.left))) }
    | resumption r =>
      have hdrops := hdrops _ rfl
      simp only [Machine.releaseOne, Machine.releaseAsset] at hdrops ⊢
      split
      · exact hkeep
      · rename_i k hk
        simp only [hk] at hdrops
        exact
          { hforget with
            resumptions := h.resumptions.drop (fun _ => .inl)
              (.inr (hdrops (hholds hk) (hnot h.resumptions.left))) }
    | notice n =>
      exact { hforget with actions := by cases n <;> exact hforget.actions }
  | installation i =>
    simp only [Machine.releaseOne, Machine.releaseInstallation]
    split
    · exact hkeep
    · split
      · exact
          { hforget with
            installed := h.installed.erase hsound.placed.wellFormed rfl }
      · exact
          { hforget with
            installed := h.installed.modify (fun s => { s with shares := s.shares - 1 })
              (fun _ => rfl) rfl }
  | fiber f =>
    have hloses := ({ m with releasing := hs } : Machine ω).releaseOne_loses (.fiber f)
      hsound.parks.wellFormed hsound.regular.exchanges
    simp only [Machine.releaseOne] at hsound' hloses ⊢
    split
    · exact hkeep
    · rename_i S fs hdrop
      simp only [hdrop] at hsound' hloses
      obtain ⟨hresumptions, hpending⟩ := hforget.lose hsound' hloses.1 hloses.2 rfl rfl
      obtain ⟨S', hS, heq⟩ := Option.map_eq_some_iff.mp hdrop
      obtain ⟨rfl, rfl⟩ := Prod.mk.inj heq
      exact { hforget with resumptions := hresumptions, pending := hpending }
  | exchange e =>
    have hloses := ({ m with releasing := hs } : Machine ω).releaseOne_loses (.exchange e)
      hsound.parks.wellFormed hsound.regular.exchanges
    simp only [Machine.releaseOne] at hsound' hloses ⊢
    split
    · exact hkeep
    · rename_i y hy
      simp only [hy] at hsound' hloses
      obtain ⟨hresumptions, hpending⟩ := hforget.lose hsound' hloses.1 hloses.2 rfl rfl
      exact { hforget with resumptions := hresumptions, pending := hpending }

end Tracks

/-- Control goes on from where it was once something was released. -/
theorem Stage.releaseOne [Contents ω] (h : Stage Γ m s n) (hsound : Sound Γ m l)
    (hreleasing : m.releasing = x :: hs) : Stage Γ (m.step Γ) s n := by
  obtain ⟨l', hsound'⟩ := hsound.releaseOne hreleasing
  have hcontrol : (m.step Γ).control = m.control := by
    rw [Machine.step_releasing hreleasing, Machine.releaseOne_control]
  have hsame := ({ m with releasing := hs } : Machine ω).releaseOne_same x
  rw [← Machine.step_releasing (Γ := Γ) hreleasing] at hsame hsound'
  obtain ⟨hstack, hresumers, -⟩ := hsame
  have hwaiting : (m.step Γ).waiting = m.waiting := by simp only [Machine.waiting, hresumers]
  have hdepth : (m.step Γ).depth = m.depth := by
    simp only [Machine.depth, hstack, hwaiting, hresumers]
  cases h with
  | eval hm hphase hframes =>
    rw [← hresumers]
    exact .eval (hcontrol.trans hm) hphase (by rw [hstack, hwaiting, hframes])
  | ret hm hphase hframes =>
    rw [← hdepth]
    exact .ret (hcontrol.trans hm) hphase (by rw [hstack, hwaiting, hframes])
  | done hm hphase hframes =>
    rw [← hdepth]
    exact .done (hcontrol.trans hm) hphase (by rw [hstack, hwaiting, hframes])
  | tail hm hphase hk hframes =>
    have hloses := ({ m with releasing := hs } : Machine ω).releaseOne_loses x
      hsound.parks.wellFormed hsound.regular.exchanges
    rw [← Machine.step_releasing (Γ := Γ) hreleasing] at hloses
    refine .tail (hcontrol.trans hm) hphase (hsound'.holds ?_ hk hloses.1 hloses.2)
      (by rw [hstack, hwaiting, hframes])
    simp [Machine.armed, hcontrol, hm, Control.conts]
  | settle hm hphase hframes =>
    rw [← hdepth]
    exact .settle (hcontrol.trans hm) hphase (by rw [hstack, hwaiting, hframes])
  | start hm hstart hphase hframes =>
    rw [← hresumers]
    exact .start (hcontrol.trans hm) (hstack.trans hstart) hphase (by rw [hstack, hwaiting, hframes])
  | wake hm hcarries hcode =>
    rcases hsound.of_wake hm with ⟨body, S, -, -, hstart, -⟩ | ⟨t, -, -, hw⟩
    · rw [hstart] at hcarries
      cases hcarries
    · simp [hw.releasing] at hreleasing
  | request hm =>
    obtain ⟨t, -, -, hr⟩ := hsound.of_request hm
    simp [hr.releasing] at hreleasing

/-- What is observed does not change by a release, and the thread shows the same evaluation. -/
theorem Simulates.releaseOne [Contents ω] (h : Simulates Γ gone m s n)
    (hreleasing : m.releasing = x :: hs) :
    Simulates Γ (fun o => gone o ∨ m.Drops Γ o) (m.step Γ) s n := by
  have hcontrol : (m.step Γ).control = m.control := by
    rw [Machine.step_releasing hreleasing, Machine.releaseOne_control]
  have hactions : (m.step Γ).actions = m.actions := by
    rw [Machine.step_releasing hreleasing]
    exact (({ m with releasing := hs } : Machine ω).releaseOne_same x).2.2
  cases h with
  | running hsound htracks hstage =>
    obtain ⟨l', hsound'⟩ := hsound.releaseOne hreleasing
    rw [← Machine.step_releasing (Γ := Γ) hreleasing] at hsound'
    exact .running hsound' (htracks.releaseOne hsound hreleasing)
      (hstage.releaseOne hsound hreleasing)
  | faulting hm hstep hsame hending hs =>
    exact .faulting (hcontrol.trans hm) hstep hsame hending (hs.trans hactions.symm)
  | ended hm ho hs hs' => exact .ended (hcontrol.trans hm) ho hs (hs'.trans hactions.symm)

end EffectHandlers
