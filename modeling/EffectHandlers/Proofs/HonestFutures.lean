import EffectHandlers.Client.Library
import EffectHandlers.Client.Promise
import EffectHandlers.Proofs.HonestPrograms
import EffectHandlers.Proofs.Picking
/-!
# Computations with futures are honest

The queue and the futures own the resumptions of those who wait in them. When a computation ends, its
waiters move from the future to the queue, and for one moment they are in both.
-/

namespace EffectHandlers.Promise

/-- The cells that belong to the thread. -/
abbrev kept : List CellId := [Transcript.cell, queue, choices]

/-- What is known of the contents of cells: results own nothing, and nothing owns the cells that belong
to the thread. -/
def Tidy : Content → Prop
  | .value v => ∀ k ∈ kept, .cell k ∉ v.owned
  | .future f => ∀ v, f.value = some v → v.owned = []
  | _ => True

/-- What is agreed on between computations. -/
def regime : Regime Content where
  types t := t = handlerName "()" ∨ t = handlerName "i32"
  kept := kept
  zero_not_mem := by decide
  value v := v.owned = []
  shape := Tidy
  value_snd := fun h => (List.append_eq_nil_iff.mp h).2
  shape_default := fun _ _ => List.not_mem_nil

variable {B G H X : List Owned} {K : Knowledge} {c : CellId}

theorem mem_of_kept (hB : regime.base ⊆ B) {c : CellId} (hc : c ∈ kept) : .cell c ∈ B :=
  hB (List.mem_map_of_mem hc)

/-! ### Futures -/

/-- The future that is seen in a cell with these contents. -/
def asFuture : Content → Future
  | .future f => f
  | _ => {}

theorem readFuture_eq (c : CellId) (k : Future → Comp Content) :
    readFuture c k = .read c fun y => k (asFuture y) :=
  congrArg (Comp.read c) (funext fun y => by cases y <;> rfl)

/-- A future without a result is tidy. -/
theorem tidy_open (waiting : List ResumptionId) : Tidy (.future { waiting }) :=
  fun _ hv => absurd hv.symm (Option.some_ne_none _)

theorem honest_readFuture {k : Future → Comp Content} (hc : InReach B K H (.cell c))
    (h : ∀ f, Tidy (.future f) → (k f).Honest regime B ((c, (Content.future f).owned) :: K) H [] X) :
    (readFuture c k).Honest regime B K H [] X := by
  rw [readFuture_eq]
  refine .read (fun y => (Content.future (asFuture y)).owned) hc (fun y _ => ?_) fun y hy => h _ ?_
  · cases y with
    | future f => exact .refl _
    | _ => exact .nil _
  · cases y with
    | future f => exact hy
    | _ => exact tidy_open []

theorem honest_value {k : Option Value → Comp Content} (hc : InReach B K H (.cell c))
    (h : ∀ o : Option Value, (∀ v, o = some v → v.owned = []) → (k o).Honest regime B [] H [] X) :
    (value c k).Honest regime B K H [] X :=
  honest_readFuture hc fun f hf => (h f.value hf).forget

/-! ### Picks -/

theorem honest_chooseBy {draw : Draws → Nat × Draws} {k : Nat → Comp Content}
    (hB : regime.base ⊆ B)
    (h : ∀ i, (k i).Honest regime B (K.filter (·.1 ≠ choices)) H [] X) :
    (Agenda.chooseBy draw k).Honest regime B K H [] X := by
  have hchoices : InReach B K H (.cell choices) := .lent (mem_of_kept hB (by decide))
  have hfilter : K.filter (·.1 ≠ choices) ⊆ (choices, []) :: K :=
    fun x hx => List.mem_cons_of_mem _ (List.mem_of_mem_filter hx)
  refine .read (fun _ => []) hchoices (fun y _ => .nil _) fun y _ => ?_
  have hnone : (k 0).Honest regime B ((choices, []) :: K) H [] X :=
    (h 0).mono (List.Subset.refl _) hfilter (.refl _)
  match y with
  | .draws (some d) =>
    refine .write [] H [] trivial
      (hchoices.mono (List.Subset.refl _) (List.subset_cons_self ..) (.refl _))
      (.inl rfl) (by simp) (by simpa [Contents.owned, Content.owned] using .refl _) ?_
    exact (h _).mono (List.Subset.refl _) (by simp) (.refl _)
  | .draws none | .value _ | .list _ | .table _ | .pool _ | .future _ | .scope _ | .handler .. =>
    exact hnone

theorem honest_choose {n : Nat} {k : Nat → Comp Content} (hB : regime.base ⊆ B)
    (h : ∀ i, (k i).Honest regime B (K.filter (·.1 ≠ choices)) H [] X) :
    (choose n k).Honest regime B K H [] X := by
  rw [Agenda.choose_eq]
  exact honest_chooseBy hB h

/-- What a queue owns is owned by the one that is picked, or by the others. -/
theorem count_picked (waiting : List Value) (i : Nat) (o : Owned) :
    (((waiting.eraseIdx i).flatMap Value.owned) ++ (waiting[i]?.map Value.owned).getD []).count o =
      (waiting.flatMap Value.owned).count o := by
  by_cases hi : i < waiting.length
  · have hperm := (List.getElem_cons_eraseIdx_perm hi).flatMap_right Value.owned
    rw [List.getElem?_eq_getElem hi, ← hperm.count_eq o]
    simp only [Option.map_some, Option.getD_some, List.flatMap_cons, List.count_append]
    omega
  · have hle := Nat.le_of_not_lt hi
    simp [List.eraseIdx_of_length_le hle, List.getElem?_eq_none hle]

/-- One of the queue is taken out and resumed. -/
theorem honest_wakeRandom {k : Unit → Comp Content} (hB : regime.base ⊆ B)
    (h : (k ()).Honest regime B [] [] [] X) : (wakeRandom k).Honest regime B K H [] X := by
  have hqueue : ∀ {K H}, InReach B K H (.cell queue) := .lent (mem_of_kept hB (by decide))
  have hk : ∀ {K H}, (k ()).Honest regime B K H [] X :=
    h.forget.mono (List.Subset.refl _) (List.Subset.refl _) (.nil _)
  refine Task.honest_readList hqueue fun waiting _ => ?_
  show Comp.Honest _ _ _ _ _ _ ((if waiting.isEmpty then pure () else _ : Task Unit) k)
  split
  · exact hk
  · refine honest_choose hB fun i => .write (waiting.flatMap Value.owned)
      ((waiting[i]?.map Value.owned).getD []) [] trivial hqueue (.inr ?_) (by simp) ?_ ?_
    · have hne : queue ≠ choices := by decide
      exact List.mem_filter.mpr ⟨List.mem_cons_self, by simpa using hne⟩
    · exact .of_count fun o => by
        have hcount := count_picked waiting i o
        simp only [Contents.owned, Content.owned, List.append_nil, List.count_append] at hcount ⊢
        omega
    · cases hpicked : waiting[i]? with
      | none => exact hk
      | some v =>
        cases v with
        | resumption r =>
          exact .resume (.hand (by simp [Value.owned])) rfl (.nil _) fun _ _ => hk
        | _ => exact hk

/-! ### The handler -/

theorem honest_yieldClause {r : ResumptionId} (hB : regime.base ⊆ B) (hr : .resumption r ∈ B) :
    (yieldClause r).Honest regime B K H [] [] :=
  .take (.lent hr) fun _ => Task.honest_pushBack (G := []) (fun _ _ => trivial)
    (.lent (mem_of_kept hB (by decide))) (.of_count fun o => by simp [Value.owned, List.count_cons])
    (honest_wakeRandom hB (.done rfl (.nil _)))

theorem honest_awaitClause {v : Value} {r : ResumptionId} {os : List Owned} (hB : regime.base ⊆ B)
    (hos : Affords os v.owned) (hlent : os ⊆ B) (hr : .resumption r ∈ B) :
    (awaitClause v r).Honest regime B K H [] [] := by
  have hwakes : ∀ {K H}, (wakeRandom fun _ => .done .unit).Honest regime B K H [] [] :=
    honest_wakeRandom hB (.done rfl (.nil _))
  cases v with
  | cell c =>
    have hc : ∀ {K H}, InReach B K H (.cell c) := fun ho =>
      .inr (.inl (hlent (hos.mem ho (List.mem_singleton.mpr rfl))))
    refine honest_readFuture hc fun f hf => .take (.lent hr) fun r' => .write (Content.future f).owned
      H [] hf hc (.inr List.mem_cons_self) (by simp) (.of_count fun o => ?_) hwakes
    simp only [Contents.owned, Content.owned, List.map_append, List.map_cons, List.map_nil,
      List.count_append, List.count_cons, List.count_nil]
    omega
  | _ => exact hwakes

/-- The waiters of a computation that has ended go over to the queue. -/
theorem honest_returnClause {home : CellId} {v : Value} (hB : regime.base ⊆ B) (hv : v.owned = [])
    (hhome : .cell home ∈ B) (hkept : home ∉ kept) :
    (returnClause home v).Honest regime B K H [] [] := by
  have hqueue : ∀ {K H}, InReach B K H (.cell queue) := .lent (mem_of_kept hB (by decide))
  refine Task.honest_readValue (.lent hhome) fun w hw => ?_
  have hsettle : ∀ c, c ∉ kept → (c = 0 ∨ .cell c ∈ w.owned) →
      (readFuture c fun x => Task.readList queue fun queued =>
        .write queue (.list (queued ++ x.waiting.map .resumption))
          (.write c (.future { value := some v }) (wakeRandom fun _ => .done .unit))).Honest regime B
        ((home, w.owned) :: K) H [] [] := by
    intro c hc hmem
    have hreach : ∀ {K H}, (home, w.owned) ∈ K → InReach B K H (.cell c) := fun hknown ho =>
      hmem.elim (fun hzero => absurd hzero ho) fun hmem => .inr (.inr ⟨_, hknown, hmem⟩)
    have hne : home ≠ queue ∧ c ≠ queue :=
      ⟨fun heq => hkept (heq ▸ by decide), fun heq => hc (heq ▸ by decide)⟩
    refine honest_readFuture (hreach List.mem_cons_self) fun f hf => Task.honest_readList hqueue
      fun queued _ => .write (queued.flatMap Value.owned) H (f.waiting.map .resumption) trivial hqueue
        (.inr List.mem_cons_self) (fun o ho => ?_) (.of_count fun o => ?_) ?_
    · obtain ⟨r, hr, rfl⟩ := List.mem_map.mp ho
      exact ⟨rfl, .known (k := (c, (Content.future f).owned)) (by simp)
        (List.mem_append_right _ (List.mem_map_of_mem hr))⟩
    · have hwaiting : (f.waiting.map Value.resumption).flatMap Value.owned =
          f.waiting.map .resumption := by
        rw [List.flatMap_map]
        exact List.flatMap_pure_eq_map Owned.resumption f.waiting
      simp only [Contents.owned, Content.owned, List.flatMap_append, hwaiting, List.count_append,
        List.append_nil]
      omega
    · -- the waiters are in the future as well, until it has the result
      refine .write (Content.future f).owned H [] (fun w hw => ?_) (hreach ?_) (.inr ?_) (by simp)
        (.of_count fun o => ?_) (honest_wakeRandom hB (.done rfl (.nil _)))
      · obtain rfl := Option.some.inj hw
        exact hv
      · exact List.mem_filter.mpr ⟨by simp, by simpa using hne.1⟩
      · exact List.mem_filter.mpr ⟨by simp, by simpa using hne.2⟩
      · simp only [Contents.owned, Content.owned, Option.map_some, Option.getD_some, hv,
          List.count_append, List.append_nil, List.map_nil, List.count_nil]
        omega
  cases w with
  | cell c =>
    have htidy : Tidy (.value (.cell c)) := hw.resolve_right (by simp)
    have hmem : .cell c ∈ (Value.cell c).owned := List.mem_singleton.mpr rfl
    exact hsettle c (fun hc => htidy c hc hmem) (.inr hmem)
  | _ => exact hsettle 0 (by decide) (.inl rfl)

theorem library_honest {Γ : Library Content} (hmain : Γ.handlerType (handlerName "()") = handler)
    (hworker : Γ.handlerType (handlerName "i32") = handler) : Γ.Honest regime := by
  have hhandler : ∀ t, regime.types t → Γ.handlerType t = handler := by
    rintro t (rfl | rfl) <;> assumption
  refine ⟨fun t ht clause hclause => ?_, fun t ht home hhome v hv => ?_⟩
  · rw [hhandler t ht] at hclause
    simp only [handler, List.mem_cons, List.not_mem_nil, or_false] at hclause
    rcases hclause with rfl | rfl
    · exact ⟨_, rfl, fun home _ payload os r _ => honest_yieldClause (fun o ho => by simp [ho])
        (by simp)⟩
    · exact ⟨_, rfl, fun home _ payload os r hos => honest_awaitClause (fun o ho => by simp [ho]) hos
        (fun o ho => by simp [ho]) (by simp)⟩
  · rw [hhandler t ht]
    exact honest_returnClause (List.subset_cons_self ..) hv List.mem_cons_self hhome

/-! ### Computations -/

variable {result : String} {owned : List Owned} {body : Task Value}

/-- A computation that runs pays with a share of its future and what its body owns. -/
theorem honest_runInto {k : Value → Comp Content} (htype : regime.types (handlerName result))
    (hfuture : c ∉ kept) (hpays : Affords H (.cell c :: owned))
    (hbody : ∀ this, body.toComp.Honest regime ((owned ++ [.reference this]) ++ regime.base)
      [] [] [] [])
    (h : ∀ v, v.owned = [] → (k v).Honest regime B [] [] [] X) :
    (runInto result c owned body k).Honest regime B K H [] X := by
  refine .alloc owned (fun x hx hmem => ?_) hpays fun home hhome =>
    .handle htype hhome (.of_count fun o => ?_) hbody fun v hv => ?_
  · obtain rfl : x = c := by simpa [Value.owned] using hmem
    exact hfuture hx
  · simp only [List.count_append, List.count_cons, List.count_nil]
    omega
  · rw [show v.owned = [] from hv]
    exact h v hv

/-- A computation that is queued owns a share of its future, and so does the caller. -/
theorem honest_spawn {k : CellId → Comp Content} (hB : regime.base ⊆ B)
    (htype : regime.types (handlerName result)) (hpays : Affords H owned)
    (hbody : ∀ this, body.toComp.Honest regime ((owned ++ [.reference this]) ++ regime.base)
      [] [] [] [])
    (h : ∀ c, (k c).Honest regime B [] [.cell c] [] X) :
    (spawn result owned body k).Honest regime B K H [] X := by
  refine .alloc H (tidy_open []) (.refl _) fun c hc => .retain (.hand List.mem_cons_self)
    (.closure [.cell c] ?_ (fun v hv => honest_runInto htype hc (.of_append (.refl _)) hbody
      fun v hv => .done hv (.of_count fun o => by simp [hv])) fun f =>
        .function (.hand List.mem_cons_self) fun r => Task.honest_pushBack (G := [.cell c])
          (fun _ _ => trivial) (.lent (mem_of_kept hB (by decide))) ?_ (h c))
  · intro o ho
    have := hpays o ho
    simp only [List.cons_append, List.count_append, List.count_cons, List.count_nil] at this ⊢
    omega
  · refine .of_count fun o => ?_
    simp only [Value.owned, List.count_append, List.count_cons, List.count_nil]
    omega

theorem honest_yield {k : Unit → Comp Content} (h : (k ()).Honest regime B [] [] [] X) :
    (yield k).Honest regime B K H [] X :=
  .invoke rfl (.nil _) (.refl _) fun _ _ =>
    h.mono (List.Subset.refl _) (List.Subset.refl _) (.nil _)

theorem honest_await {k : Option Value → Comp Content} (hc : .cell c ∈ B)
    (h : ∀ o, (k o).Honest regime B [] [] [] X) : (await c k).Honest regime B K H [] X := by
  have hvalue : ∀ {K H}, (value c k).Honest regime B K H [] X := honest_value (.lent hc)
    fun o _ => (h o).mono (List.Subset.refl _) (List.Subset.refl _) (.nil _)
  rw [Agenda.await_eq]
  refine honest_readFuture (.lent hc) fun f _ => ?_
  split
  · exact hvalue
  · exact .retain (.lent hc) (.invoke rfl (.of_count fun o => by simp [List.count_cons]) (.refl _)
      fun _ _ => hvalue)

/-- A program starts with the main computation. -/
theorem honest_run {seed : Nat} {k : Value → Comp Content} (hB : regime.base ⊆ B)
    (htype : regime.types (handlerName result))
    (hbody : ∀ this, body.toComp.Honest regime (([] ++ [.reference this]) ++ regime.base) [] [] [] [])
    (h : ∀ v, v.owned = [] → (k v).Honest regime B [] [] [] X) :
    (run result seed body k).Honest regime B K H [] X := by
  refine .overwrite trivial (.lent (mem_of_kept hB (by decide))) (.of_count fun o => by
    simp [Contents.owned, Content.owned]) (.alloc H (tidy_open []) (.refl _) fun c hc =>
      .retain (.hand List.mem_cons_self) (.scope (.cell c :: H) [] (.refl _) ?_ fun v hv => ?_))
  · have hfuture : Affords (.cell c :: H) [.cell c] := .of_count fun o => by simp [List.count_cons]
    refine honest_runInto htype hc hfuture hbody fun v _ =>
      honest_value (.lent List.mem_cons_self) fun o ho => ?_
    cases o with
    | none => exact .done rfl (.nil _)
    | some v => exact .done (ho v rfl) (.of_count fun o => by simp [Value.owned, ho v rfl])
  · exact (h v hv).mono (List.Subset.refl _) (List.Subset.refl _) (.nil _)

/-! ### A worker -/

theorem text_tidy (s : String) : Tidy (.value (.text s)) := fun _ _ => List.not_mem_nil

theorem honest_forEach {α : Type} {f : α → Task Unit} {as : List α} {k : Unit → Comp Content}
    (hf : ∀ a {k : Unit → Comp Content} {K H}, (k ()).Honest regime B [] [] [] X →
      (f a k).Honest regime B K H [] X)
    (h : (k ()).Honest regime B [] [] [] X) : (Prog.forEach f as k).Honest regime B K H [] X := by
  induction as generalizing K H with
  | nil => exact h.mono (List.Subset.refl _) (List.nil_subset _) (.nil _)
  | cons a as ih => exact hf a ih

theorem honest_worker (hB : regime.base ⊆ B) : worker.toComp.Honest regime B K H [] [] :=
  honest_forEach (fun _ _ _ _ hk => Transcript.honest_emit text_tidy (mem_of_kept hB (by decide))
    (honest_yield hk)) (.done rfl (.nil _))

theorem honest_starter (hB : regime.base ⊆ B) : starter.toComp.Honest regime B K H [] [] := by
  refine honest_spawn hB (.inr rfl) (.nil _) (fun this => honest_worker (List.subset_append_right ..))
    fun c => .scope [] [] (by simpa using .refl _) ?_ fun v hv => .done hv (.refl _)
  have hc : Owned.cell c ∈ [Owned.cell c] ++ B := List.mem_append_left _ List.mem_cons_self
  have htranscript : Owned.cell Transcript.cell ∈ [Owned.cell c] ++ B :=
    List.mem_append_right _ (mem_of_kept hB (by decide))
  refine Transcript.honest_emit text_tidy htranscript (honest_forEach (fun _ k K H hk => ?_)
    (Transcript.honest_emit text_tidy htranscript (honest_await hc fun o => ?_)))
  · refine honest_value (.lent hc) fun o _ => ?_
    cases o with
    | none => exact Transcript.honest_emit text_tidy htranscript (honest_yield hk)
    | some v => exact hk.mono (List.Subset.refl _) (List.Subset.refl _) (.nil _)
  · cases o with
    | none => exact Transcript.honest_emit text_tidy htranscript (.done rfl (.nil _))
    | some v => exact Transcript.honest_emit text_tidy htranscript (.done rfl (.nil _))

/-- The program of a worker and a computation that waits for it is honest. -/
theorem honest_demo (seed : Nat) {k : Unit → Comp Content} (hB : regime.base ⊆ B)
    (h : (k ()).Honest regime B [] [] [] X) : (demo seed k).Honest regime B K H [] X :=
  honest_run hB (.inl rfl) (fun this => honest_starter (List.subset_append_right ..)) fun v _ =>
    Transcript.honest_emit text_tidy (mem_of_kept hB (by decide)) h

end EffectHandlers.Promise
