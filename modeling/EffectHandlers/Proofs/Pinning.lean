import EffectHandlers.Proofs.Discarding
/-!
# What a reference keeps of a discarded continuation

A reference keeps its installation alive, and an installation keeps the one below it. So what is
referred to from outside stays when its continuation is discarded, together with everything below
it in the same continuation. Nothing else does: a handler goes with the continuation when its
installations, and those above them, are held by the continuation alone.
-/

namespace EffectHandlers

variable {ω : Type} {Γ : Library ω}

/-- The parked fibers determine the tower on a fiber. -/
theorem Tower.Parked.unique {fs : Fibers (List (Activation ω))} {t t' : Tower ω} (h : t.Parked fs)
    (h' : t'.Parked fs) (hroot : t.root = t'.root) : t = t' := by
  induction t generalizing t' with
  | invoker f i e modifier command rest =>
    have hstack := h'.root
    rw [← hroot, h.root] at hstack
    cases t' with
    | invoker => simp_all [Tower.root, Tower.stack]
    | driver => simp [Tower.stack] at hstack
  | driver f i above rest ih =>
    have hstack := h'.root
    rw [← hroot, h.root] at hstack
    cases t' with
    | invoker => simp [Tower.stack] at hstack
    | driver f' i' above' rest' =>
      obtain ⟨⟨rfl, habove⟩, rfl⟩ : (i = i' ∧ above.root = above'.root) ∧ rest = rest' := by
        simpa [Tower.stack] using hstack
      have hparked : ∀ {g : FiberId} {j : InstallationId} {t : Tower ω} {S : List (Activation ω)},
          (Tower.driver g j t S).Parked fs → t.Parked fs := fun hp =>
        hp.rest (List.mem_singleton.mpr rfl) fun _ _ => rfl
      obtain rfl := ih (hparked h) (hparked h') habove
      obtain rfl : f = f' := hroot
      rfl

namespace Machine

variable [Contents ω] {m m' m₀ : Machine ω} {l : Layout ω} {k : Cont ω} {K : Kept ω}
  {ks : List (Kept ω)} {zs hs : List Holding} {i : InstallationId} {c : CellId}

/-- A continuation goes to the release list at `n`, and `N` is the first moment when everything
that is released with it is. -/
structure Clears (Γ : Library ω) (m₀ : Machine ω) (k : Cont ω) (hs : List Holding) (n N : Nat) :
    Prop where
  begins : (run Γ n m₀).releasing = k.owned ++ hs
  le : n ≤ N
  busy : ∀ p, n ≤ p → p < N → ∃ x xs, (run Γ p m₀).releasing = x :: (xs ++ hs)
  ends : (run Γ N m₀).releasing = hs

/-- Nothing outside of a captured computation holds one of the handler's installations, or an
installation from which links lead down to one of them. -/
def Unpinned (m : Machine ω) (K : Kept ω) (hs : List Holding) (c : CellId) : Prop :=
  ∀ i ∈ K.installations, (m.chain.get i).handler = c → ∀ j ∈ K.installations,
    (∃ is, m.chain.Linked (some j) is (some i)) → m.Exclusive K hs (.installation j)

/-- A cell that is gone does not come back. -/
theorem cell_gone_run (hm : m.Filed) (hthere : m.has (.asset (.cell c)) = true) {p d : Nat}
    (hgone : (run Γ p m).has (.asset (.cell c)) = false) :
    (run Γ (p + d) m).cells.contains c = false := by
  obtain ⟨y, hy⟩ := Option.isSome_iff_exists.mp hthere
  have hissued : c < (run Γ p m).cells.next :=
    Nat.lt_of_lt_of_le (Store.lt_next hm.cells hy) (run_ages (Γ := Γ) p m).cells.next
  have hnone : (run Γ p m).cells.find? c = none := by
    simpa [Machine.has, holds, Store.contains] using hgone
  have hlater := (run_ages (Γ := Γ) d (run Γ p m)).cells.gone c hissued hnone
  rw [run_add]
  simp [Store.contains, hlater]

/-- A captured computation that is put on the release list goes, with every handler that is
neither held from outside nor pinned. -/
theorem Discarded.clears {n : Nat} (h : (run Γ n m₀).Discarded k ks hs) (hm : (run Γ n m₀).Filed) :
    ∃ N, Clears Γ m₀ k hs n N ∧ ∀ K ∈ ks, ∀ i ∈ K.installations,
      (run Γ n m₀).Exclusive K hs (.asset (.cell ((run Γ n m₀).chain.get i).handler)) →
      (run Γ n m₀).Unpinned K hs ((run Γ n m₀).chain.get i).handler →
      ∀ p, N ≤ p → (run Γ p m₀).cells.contains ((run Γ n m₀).chain.get i).handler = false := by
  obtain ⟨us, m₁, hfibers, hafter, howned, -, -⟩ := h.unwound hm
  obtain ⟨zs, m', hrest, hend⟩ := Releases.exists_clear hafter
  have hall := hfibers.trans hrest
  have hus := hrest.sublist_of_end hafter hend
  generalize hfs : (ks.flatMap (·.tower.fibers)).map Holding.fiber = fs at *
  have hlater : ∀ p, n ≤ p → run Γ p m₀ = run Γ (p - n) (run Γ n m₀) := fun p hp => by
    rw [← run_add, Nat.add_sub_cancel' hp]
  have hN : run Γ (n + (fs ++ zs).length) m₀ = m' := by rw [run_add, hall.run]
  refine ⟨n + (fs ++ zs).length, ⟨h.begins, Nat.le_add_right _ _, fun p hp hlt => ?_, hN ▸ hend⟩, ?_⟩
  · rw [hlater p hp]
    exact hall.exists_next (by omega)
  · intro K hK i hi hexclusive hunpinned p hp
    have hgone : m'.has (.asset (.cell ((run Γ n m₀).chain.get i).handler)) = false := by
      refine handler_freed hm (h.fits K hK) ?_ (h.parked K hK) hall hend (fun f hf => ?_)
        (fun r hr => ?_) hexclusive hunpinned hi rfl
      · rw [(h.eq_singleton hK).2]
        exact h.begins
      · refine hall.gone hm (List.mem_append_left _ ?_) (.inr (.inr ⟨f, rfl⟩))
        rw [← hfs]
        exact List.mem_map_of_mem (List.mem_flatMap.mpr ⟨K, hK, hf⟩)
      · refine hall.gone hm (List.mem_append_right _ (hus.subset ?_)) (.inl ⟨r, rfl⟩)
        rw [howned K hK]
        exact List.mem_append_left _ (Tower.mem_owned hr rfl)
    have hthere := (hunpinned i hi rfl i hi ⟨[], rfl⟩).has_of_mem hm (.refl _)
      (mem_held_installation (by rw [(h.eq_singleton hK).2]; exact h.begins) (h.parked K hK) hi)
    have hcell := hexclusive.has_of_mem hm (.refl _) (mem_held_handler hthere)
    obtain ⟨d, rfl⟩ := Nat.exists_eq_add_of_le hp
    rw [Nat.add_assoc, run_add]
    exact cell_gone_run hm hcell (by rw [hall.run]; exact hgone)

/-- What a discarded continuation leaves behind: at most the handlers that something else holds,
and those whose installations, or installations above them, something else holds. In particular
references to its other installations do not keep a handler. -/
theorem unpinned_handlers_dropped {settings : SettingsSlot} {cells : List ω} {statics : List Owned}
    {main : Comp ω} (hΓ : Γ.Orderly) (hmain : main.Orderly)
    (hsize : settings.use.1.stackSize + StackPool.margin < Word.count) (n : Nat)
    (hfault : ∀ f, (run Γ n (start settings cells statics main)).control ≠ .fault f)
    (hhalted : ∀ o, (run Γ n (start settings cells statics main)).control ≠ .halted o)
    (hdiscards : (run Γ n (start settings cells statics main)).Discards Γ k) :
    ∃ hs N, Clears Γ (start settings cells statics main) k hs (n + 1) N ∧
      ∀ K : Kept ω, K.cont = k →
        K.tower.Parked (run Γ (n + 1) (start settings cells statics main)).fibers →
        ∀ i ∈ K.installations, ∀ c,
          ((run Γ (n + 1) (start settings cells statics main)).chain.get i).handler = c →
          (run Γ (n + 1) (start settings cells statics main)).Exclusive K hs (.asset (.cell c)) →
          (run Γ (n + 1) (start settings cells statics main)).Unpinned K hs c →
          ∀ p, N ≤ p → (run Γ p (start settings cells statics main)).cells.contains c = false := by
  have hgood : Good Γ (start settings cells statics main) :=
    .sound _ (Sound.start cells statics hmain hsize)
  cases hgood.run n hΓ with
  | fault hcontrol => exact absurd hcontrol (hfault _)
  | halted hcontrol => exact absurd hcontrol (hhalted _)
  | sound l hsound =>
    obtain ⟨⟨ks, hs, hdiscarded⟩, ⟨l', hsound'⟩, -⟩ := hdiscards.step hsound hΓ
    rw [← run_succ] at hdiscarded hsound'
    obtain ⟨N, hclears, hdropped⟩ := hdiscarded.clears (filed_run hsound')
    refine ⟨hs, N, hclears, fun K hK hparked i hi c hc => ?_⟩
    have hcaptured : ks.map Kept.cont = [k] := by
      rw [hdiscarded.captured, ← hK]
      rfl
    obtain ⟨K', rfl, hK'⟩ := List.map_eq_singleton_iff.mp hcaptured
    obtain rfl : K = K' := by
      obtain ⟨answer, segment, t⟩ := K
      obtain ⟨answer', segment', t'⟩ := K'
      obtain ⟨rfl, hroot, rfl, -⟩ : answer = answer' ∧ t.root = t'.root ∧ segment = segment' ∧
          t.exchange = t'.exchange := by
        simpa [Kept.cont] using hK.trans hK'.symm
      obtain rfl := hparked.unique (hdiscarded.parked _ List.mem_cons_self) hroot
      rfl
    rw [← hc]
    exact hdropped K List.mem_cons_self i hi

/-! ### A reference from outside -/

/-- What holds something is found among the entries of the tables. -/
theorem Exclusive.of_owners {x : Holding} (hshares : m.shares x = m.held.count x)
    (hrooted : x ∉ hs ∧ x ∉ m.rooted) (howners : ∀ e ∈ m.owners, x ∈ e.2 → e.1 ∈ K.parts) :
    m.Exclusive K hs x where
  shares := hshares
  rooted := hrooted
  holders _ hy := howners _ (mem_owners hy) hy

/-- A library with a handler type whose clause gives out the continuation and what it was sent, and
handler types without clauses. -/
def keeper : Library Unit where
  handlerType
    | "Keeper" =>
      { answer := "()"
        clauses := [⟨"Keep", .resumptive fun _ payload r =>
          .take r fun k => .done (.pair (.resumption k) payload)⟩] }
    | _ => { answer := "()", clauses := [] }

/-- A program that leaves two nested bodies with a reference to one of their handlers. It drops the
rest of the bodies, and the reference after that. -/
def keeping (target : ReferenceId → ReferenceId → ReferenceId) : Comp Unit :=
  .handle { handlerType := "Keeper", handler := 1 }
    (fun outer => .handle { handlerType := "Inner", handler := 2 }
      (fun inner => .copy (target outer inner) fun r =>
        .invoke .innermost { name := "Keep", payload := .reference r } .done) .done)
    fun
    | .pair (.resumption k) payload =>
      .scope payload.owned (.release [.resumption k] (.done .unit)) .done
    | v => .release v.owned (.done .unit)

/-- The rest of the two bodies. -/
def bodies : Kept Unit :=
  ⟨"()", ⟨2, 1⟩, .driver 0 2 (.invoker 1 1 0 .resumptive "Keep" [.bind .done, .owning [.reference 2]])
    [.bind .done, .owning [.reference 1]]⟩

theorem keeper_orderly : keeper.Orderly where
  clauses t c hc := by
    simp only [keeper] at hc
    split at hc
    · obtain rfl := List.mem_singleton.mp hc
      exact fun _ _ _ _ => trivial
    · cases hc
  onReturn t _ _ := by
    simp only [keeper]
    split <;> trivial
  procedure _ _ := trivial

theorem keeping_orderly (target : ReferenceId → ReferenceId → ReferenceId) :
    (keeping target).Orderly := by
  refine ⟨fun _ => ⟨fun _ _ _ => trivial, fun _ => trivial⟩, fun v => ?_⟩
  dsimp only
  split
  · exact ⟨trivial, fun _ => trivial⟩
  · trivial

/-- Nothing but the bodies holds the lower handler or its installation when they are dropped. Yet
both are left then: the reference keeps the upper installation, and that one keeps the lower. -/
theorem reference_keeps_below :
    (run keeper 19 (start {} [(), ()] [] (keeping fun _ inner => inner))).Discards keeper
        bodies.cont ∧
      Clears keeper (start {} [(), ()] [] (keeping fun _ inner => inner)) bodies.cont [] 20 31 ∧
      1 ∈ bodies.installations ∧
      ((run keeper 20 (start {} [(), ()] [] (keeping fun _ inner => inner))).chain.get 1).handler = 1 ∧
      (run keeper 20 (start {} [(), ()] [] (keeping fun _ inner => inner))).Exclusive bodies []
        (.asset (.cell 1)) ∧
      (run keeper 20 (start {} [(), ()] [] (keeping fun _ inner => inner))).Exclusive bodies []
        (.installation 1) ∧
      (run keeper 31 (start {} [(), ()] [] (keeping fun _ inner => inner))).cells.contains 1 = true := by
  have hreleasing : (run keeper 19 (start {} [(), ()] [] (keeping fun _ inner => inner))).releasing =
      [.asset (.resumption 2)] := rfl
  have hbusy : ∀ p < 31, 20 ≤ p →
      (run keeper p (start {} [(), ()] [] (keeping fun _ inner => inner))).releasing ≠ [] := by
    decide +kernel
  refine ⟨.released hreleasing rfl, ⟨rfl, by decide, fun p hle hlt => ?_, rfl⟩, by decide, rfl,
    .of_owners (by decide +kernel) (by decide +kernel) (by decide +kernel),
    .of_owners (by decide +kernel) (by decide +kernel) (by decide +kernel), rfl⟩
  obtain ⟨x, xs, hxs⟩ := List.exists_cons_of_ne_nil (hbusy p hlt hle)
  exact ⟨x, xs, by simpa using hxs⟩

/-- With a reference to the lower handler, the upper one is dropped. -/
theorem unpinned_handlers_dropped_keeping :
    (run keeper 19 (start {} [(), ()] [] (keeping fun outer _ => outer))).Discards keeper
        bodies.cont ∧
      ∃ hs N, Clears keeper (start {} [(), ()] [] (keeping fun outer _ => outer)) bodies.cont hs 20 N ∧
        ∀ p, N ≤ p →
          (run keeper p (start {} [(), ()] [] (keeping fun outer _ => outer))).cells.contains 2 =
            false := by
  have hreleasing : (run keeper 19 (start {} [(), ()] [] (keeping fun outer _ => outer))).releasing =
      [.asset (.resumption 2)] := rfl
  have hdiscards : (run keeper 19 (start {} [(), ()] [] (keeping fun outer _ => outer))).Discards
      keeper bodies.cont := .released hreleasing rfl
  have hcontrol : (run keeper 19 (start {} [(), ()] [] (keeping fun outer _ => outer))).control =
      .eval (.done .unit) := rfl
  have hfault : ∀ f, (run keeper 19 (start {} [(), ()] [] (keeping fun outer _ => outer))).control ≠
      .fault f := by simp [hcontrol]
  have hhalted : ∀ o, (run keeper 19 (start {} [(), ()] [] (keeping fun outer _ => outer))).control ≠
      .halted o := by simp [hcontrol]
  obtain ⟨hs, N, hclears, hdropped⟩ := unpinned_handlers_dropped keeper_orderly
    (keeping_orderly fun outer _ => outer) (by decide) 19 hfault hhalted hdiscards
  obtain rfl : hs = [] := by
    have hbegins : bodies.cont.owned = bodies.cont.owned ++ hs := hclears.begins
    simpa using hbegins
  have hparked : bodies.tower.Parked
      (run keeper 20 (start {} [(), ()] [] (keeping fun outer _ => outer))).fibers := by
    refine ⟨fun e he => ?_, by decide⟩
    rcases List.mem_cons.mp he with rfl | he
    · rfl
    · obtain rfl := List.mem_singleton.mp he
      rfl
  refine ⟨hdiscards, [], N, hclears, hdropped bodies rfl hparked 2 (by decide) 2 rfl
    (.of_owners (by decide +kernel) (by decide +kernel) (by decide +kernel)) ?_⟩
  -- no link leads down to the upper installation
  intro i hi hhandler j hj ⟨is, his⟩
  have hupper : ∀ i ∈ bodies.installations, ((run keeper 20
      (start {} [(), ()] [] (keeping fun outer _ => outer))).chain.get i).handler = 2 → i = 2 := by
    decide +kernel
  obtain rfl := hupper i hi hhandler
  have hbelow : ((run keeper 20
      (start {} [(), ()] [] (keeping fun outer _ => outer))).chain.get 1).below = none := rfl
  obtain rfl | rfl : j = 2 ∨ j = 1 := by
    simpa using (show j ∈ [2, 1] from hj)
  · exact .of_owners (by decide +kernel) (by decide +kernel) (by decide +kernel)
  · cases is with
    | nil => cases his
    | cons x is =>
      obtain ⟨heq, hrest⟩ := his
      obtain rfl := Option.some.inj heq
      rw [hbelow] at hrest
      cases is with
      | nil => cases hrest
      | cons y is => cases hrest.1

end Machine

end EffectHandlers
