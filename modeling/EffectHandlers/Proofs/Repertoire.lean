import EffectHandlers.Proofs.Outset
import EffectHandlers.Proofs.Rerunning
import EffectHandlers.Proofs.TakingTurns
import EffectHandlers.Proofs.Wakeups
/-!
# The repertoire under other numbers

Each demonstration does the same under other numbers, with the handlers and procedures that it uses.
-/

namespace EffectHandlers.Rerun

variable {σ : Rerun} {rest : Comp Content → Comp Content → Prop} {d : Demo}

/-- What is related is what a demonstration uses. -/
structure Plays (σ : Rerun) (d : Demo) : Prop where
  kept : σ.kept = d.cells.map (·.1)
  handlers : σ.handlers = d.handlers
  procedures : σ.procedures = d.procedures

theorem mapsProg_withoutSinks {p p' : Task Unit} (h : σ.MapsProg rest Eq p p') :
    σ.MapsProg rest Eq (Demo.withoutSinks p) (Demo.withoutSinks p') :=
  h.bind fun _ _ _ => mapsProg_pure rfl

/-- A demonstration that is to run does the same. -/
theorem mapsProg_body (h : σ.Plays d) : σ.MapsProg rest Eq d.body d.body := by
  have hkept : ∀ k ∈ d.cells.map (·.1), k ∈ σ.kept := fun _ hk => h.kept ▸ hk
  have hused : ∀ t ∈ d.handlers, t ∈ σ.handlers := fun _ ht => h.handlers ▸ ht
  have hcalled : ∀ p ∈ d.procedures, p ∈ σ.procedures := fun _ hp => h.procedures ▸ hp
  have hcell : Transcript.cell ∈ σ.kept := hkept _ (by cases d <;> exact List.mem_cons_self)
  cases d with
  | state =>
    refine mapsProg_withoutSinks (State.mapsProg_demo hcell fun t ht => ?_)
    have hin : ∀ n ∈ [MutableState.cellName t, MutableState.functionName t], n ∈ σ.handlers :=
      fun n hn => hused n (List.mem_flatMap.mpr ⟨t, ht, hn⟩)
    exact ⟨hin _ (by simp), hin _ (by simp)⟩
  | generators =>
    exact mapsProg_withoutSinks (Generators.mapsProg_demo hcell fun item hitem =>
      hused _ (List.mem_map_of_mem hitem))
  | exceptions =>
    exact mapsProg_withoutSinks (Fallbacks.mapsProg_demo hcell (hused _ (by simp [Demo.handlers])))
  | fuel budget =>
    exact mapsProg_withoutSinks (Fuels.mapsProg_demo hcell (hused _ (by simp [Demo.handlers]))
      (hused _ (by simp [Demo.handlers])) (hcalled _ (by simp [Demo.procedures])) budget)
  | threads workers steps =>
    exact mapsProg_withoutSinks (Threads.mapsProg_demo hcell (hkept _ (by simp [Demo.cells]))
      (hused _ (by simp [Demo.handlers])) workers steps)
  | actors rounds =>
    exact mapsProg_withoutSinks (Actors.mapsProg_demo hcell (hused _ (by simp [Demo.handlers])) rounds)
  | asyncAwait seed =>
    exact mapsProg_withoutSinks (Futures.mapsProg_seeded hcell (hkept _ (by simp [Demo.cells]))
      (hused _ (by simp [Demo.handlers])) (hused _ (by simp [Demo.handlers])))
  | shift =>
    exact mapsProg_withoutSinks (Delimits.mapsProg_demo hcell (hused _ (by simp [Demo.handlers])))
  | rollback =>
    exact mapsProg_withoutSinks (Transactions.mapsProg_demo hcell (hused _ (by simp [Demo.handlers])))
  | logging =>
    exact (Sinks.mapsProg_demo (hused _ (by simp [Demo.handlers]))
      (hcalled _ (by simp [Demo.procedures]))).bindSame fun _ => mapsProg_pure rfl

/-- The handlers of client programs are the same as far as a demonstration uses them. -/
theorem mapsHandler_library (h : σ.Plays d) {t : String} (ht : t ∈ d.handlers) :
    σ.MapsHandler rest (Client.library.handlerType t) (Client.library.handlerType t) := by
  have hkept : ∀ k ∈ d.cells.map (·.1), k ∈ σ.kept := fun _ hk => h.kept ▸ hk
  cases d with
  | state =>
    simp only [Demo.handlers, List.flatMap_cons, List.flatMap_nil, List.append_nil, List.cons_append,
      List.nil_append, List.mem_cons, List.not_mem_nil, or_false] at ht
    rcases ht with rfl | rfl | rfl | rfl
    · exact State.mapsHandler_cell "()"
    · exact State.mapsHandler_function "()"
    · exact State.mapsHandler_cell "&str"
    · exact State.mapsHandler_function "&str"
  | generators =>
    simp only [Demo.handlers, List.map_cons, List.map_nil, List.mem_cons, List.not_mem_nil,
      or_false] at ht
    rcases ht with rfl | rfl
    · exact Generators.mapsHandler "i32"
    · exact Generators.mapsHandler "&str"
  | exceptions =>
    obtain rfl := List.mem_singleton.mp ht
    exact Fallbacks.mapsHandler
  | fuel budget =>
    simp only [Demo.handlers, List.mem_cons, List.not_mem_nil, or_false] at ht
    rcases ht with rfl | rfl
    · exact Fuels.mapsHandler_bounded
    · exact Fuels.mapsHandler_measure
  | threads workers steps =>
    obtain rfl := List.mem_singleton.mp ht
    exact Threads.mapsHandler (hkept _ (by simp [Demo.cells]))
  | actors rounds =>
    obtain rfl := List.mem_singleton.mp ht
    exact Actors.mapsHandler
  | asyncAwait seed =>
    simp only [Demo.handlers, List.map_cons, List.map_nil, List.mem_cons, List.not_mem_nil,
      or_false] at ht
    rcases ht with rfl | rfl
    · exact Futures.mapsHandler (hkept _ (by simp [Demo.cells])) (hkept _ (by simp [Demo.cells]))
    · exact Futures.mapsHandler (hkept _ (by simp [Demo.cells])) (hkept _ (by simp [Demo.cells]))
  | shift =>
    obtain rfl := List.mem_singleton.mp ht
    exact Delimits.mapsHandler .sentence
  | rollback =>
    obtain rfl := List.mem_singleton.mp ht
    exact Transactions.mapsHandler
  | logging =>
    obtain rfl := List.mem_singleton.mp ht
    exact Sinks.mapsHandler

/-- The procedures of client programs are the same as far as a demonstration uses them. -/
theorem mapsCode_library (h : σ.Plays d) {p : String} (hp : p ∈ d.procedures) {v v' : Value}
    (hv : σ.MapsValue v v') :
    σ.MapsCode rest .inner (Client.library.procedure p v) (Client.library.procedure p v') := by
  have hcalled : ∀ p ∈ d.procedures, p ∈ σ.procedures := fun _ hp => h.procedures ▸ hp
  cases d with
  | fuel budget =>
    obtain rfl := List.mem_singleton.mp hp
    exact (Fuels.mapsProg_fibStep (hcalled _ hp) hv).toComp
  | logging =>
    obtain rfl := List.mem_singleton.mp hp
    exact (Sinks.mapsProg_fibStep (hcalled _ hp) hv).toComp
  | _ => cases hp

/-- A library that has the same handlers and procedures as the client programs, as far as a demonstration
uses them. -/
structure Serves (Γ : Library Content) (d : Demo) : Prop where
  handlers : ∀ t ∈ d.handlers, Γ.handlerType t = Client.library.handlerType t
  procedures : ∀ p ∈ d.procedures, Γ.procedure p = Client.library.procedure p

theorem serves_library (d : Demo) : Serves Client.library d := ⟨fun _ _ => rfl, fun _ _ => rfl⟩

theorem serves_threads (workers steps : Nat) :
    Serves RoundRobin.library (.threads workers steps) where
  handlers t ht := by
    obtain rfl := List.mem_singleton.mp ht
    rfl
  procedures _ hp := by cases hp

theorem serves_asyncAwait (seed : Nat) : Serves Promise.library (.asyncAwait seed) where
  handlers t ht := by
    simp only [Demo.handlers, List.map_cons, List.map_nil, List.mem_cons, List.not_mem_nil,
      or_false] at ht
    rcases ht with rfl | rfl <;> rfl
  procedures _ hp := by cases hp

theorem mapsLibrary_of_serves (h : σ.Plays d) {Γ : Library Content} (hΓ : Serves Γ d) :
    σ.MapsLibrary rest Client.library Γ where
  handlers t ht := by
    have ht' : t ∈ d.handlers := h.handlers ▸ ht
    rw [hΓ.handlers t ht']
    exact mapsHandler_library h ht'
  procedures p hp v v' hv := by
    have hp' : p ∈ d.procedures := h.procedures ▸ hp
    rw [hΓ.procedures p hp']
    exact mapsCode_library h hp' hv

end EffectHandlers.Rerun
