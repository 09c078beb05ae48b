import EffectHandlers.Proofs.Dealings
/-!
# Honest threads stay honest

Between operations control goes from one piece of honest code to another: values are handed over,
continuations and clauses start with what they are given. So a thread that is honest at first is
honest at each step. It uses nothing that was dropped before, and the cells that it keeps stay.
-/

namespace EffectHandlers.Machine

variable {ω : Type} [Contents ω] {Γ : Library ω} {m : Machine ω} {ρ : Regime ω}
  {gone : Owned → Prop} {P : InstallationId → CellId → String → Prop} {B H H' X : List Owned}
  {S : List (Activation ω)} {v : Value} {k : Cont ω} {i : InstallationId} {f : FiberId}

/-! ### Hands between operations -/

/-- A step that evaluates nothing takes nothing out of the hand. -/
theorem Solvent.step (h : m.Solvent ρ.kept gone H []) (hhonest : m.Honest Γ ρ gone)
    (hidle : m.releasing = []) (heval : ∀ c, m.control ≠ .eval c)
    (hrequest : ∀ r, m.control ≠ .request r) (hH : Affords H H') :
    (m.step Γ).Solvent ρ.kept gone H' [] := by
  refine h.next (N := []) (fun o ho => ?_) (fun o => Issued.step hhonest.tidy) (by simp) .nil
    (by simp)
  have hspare := spare_control (Γ := Γ) (x := .asset o) hhonest.counts hidle (.inr hrequest) heval
  have := hH o ho
  simp only [List.count_nil]
  omega

/-- Code that goes on with something gets what that owns. -/
theorem Solvent.receive (h : m.Solvent ρ.kept gone X []) (hhonest : m.Honest Γ ρ gone)
    (os : List Owned) (hspare : ∀ o : Owned,
      m.spare (.asset o) + os.count o ≤ (m.step Γ).spare (.asset o)) :
    (m.step Γ).Solvent ρ.kept gone (os ++ X) [] := by
  refine h.next (N := []) (fun o ho => ?_) (fun o => Issued.step hhonest.tidy) (by simp) .nil
    (by simp)
  have := hspare o
  simp only [List.count_append, List.count_nil]
  omega

/-- A value that was on its way is with the code that goes on with it. -/
theorem spare_received {c : Comp ω} {a : Activation ω} (hcontrol : m.control = .ret v)
    (hstack : m.stack = a :: S) (ha : a.owned = []) (o : Owned) :
    (({ m with stack := S } : Machine ω).goOn (.eval c)).spare (.asset o) =
      m.spare (.asset o) + v.owned.count o := by
  let m₁ : Machine ω := { m with stack := S }
  have h₁ : m₁.spare (.asset o) = _ := spare_pop hstack
  have h₂ : (m₁.goOn (.eval c)).spare (.asset o) = _ :=
    spare_goOn m₁ _ (by simp [m₁, hcontrol, Control.isFatal]) rfl
  have hload : m₁.control.load (.asset o) = v.owned.count o := by
    simp only [m₁, hcontrol, load_ret, count_asset]
  rw [h₁, ha, hload, load_eval] at h₂
  simpa using h₂

/-! ### Parts of steps -/

theorem upright_of_fault (h : m.Furnished ρ P) {fault : Fault} :
    (m.goOn (.fault fault)).Upright ρ gone P :=
  ⟨h.congr rfl rfl rfl rfl rfl rfl, .ended (.inl ⟨_, rfl⟩)⟩

theorem upright_of_enter (h : m.Furnished ρ P) (hcode : HonestCode ρ P (.driving i f :: m.stack) B [])
    (hhand : (m.enter i f).Solvent ρ.kept gone [] []) : (m.enter i f).Upright ρ gone P := by
  unfold enter at hhand ⊢
  split at hhand
  · rename_i S fs hresume
    obtain ⟨⟨B', hcode'⟩, hfibers⟩ := h.fibers.resume ⟨B, hcode⟩ hresume
    exact ⟨{ h with fibers := hfibers }, .wake rfl hcode' hhand⟩
  · exact upright_of_fault h

theorem upright_of_settle (h : m.Furnished ρ P) (hcode : HonestCode ρ P m.stack B []) (hv : ρ.value v)
    {answer : String} {kept : List Holding}
    (hhand : (m.settle answer v kept).Solvent ρ.kept gone [] []) :
    (m.settle answer v kept).Upright ρ gone P := by
  unfold settle at hhand ⊢
  split at hhand
  · exact ⟨h.congr rfl rfl rfl rfl rfl rfl, .done rfl hv hcode hhand⟩
  · rename_i k hk
    have hfree : ({ m with pending := none } : Machine ω).Furnished ρ P :=
      { h with pending := by simp }
    by_cases hanswer : k.answer = answer
    · simp only [if_pos hanswer] at hhand ⊢
      exact ⟨hfree.congr rfl rfl rfl rfl rfl rfl, .tail rfl (h.pending k hk) hcode hhand⟩
    · simp only [if_neg hanswer]
      exact upright_of_fault hfree

omit [Contents ω] in
/-- What is known of an installation that is there. -/
theorem Recalls.get {c : CellId} {t : String} (h : m.Recalls i c t)
    (hthere : m.chain.installations.contains i) :
    (m.chain.get i).handler = c ∧ (m.chain.get i).handlerType = t := by
  obtain ⟨a, ha⟩ := Option.isSome_iff_exists.mp hthere
  simpa [Chain.get, ha] using h.2 a ha

/-! ### Steps -/

namespace Honest

/-- A step that evaluates nothing keeps a thread honest if it keeps its code honest. -/
theorem next_of_control (h : m.Honest Γ ρ gone) (hidle : m.releasing = [])
    (heval : ∀ c, m.control ≠ .eval c) (hupright : (m.step Γ).Upright ρ gone m.Recalls) :
    (m.step Γ).Honest Γ ρ fun o => gone o ∨ m.Drops Γ o :=
  h.next_of_same hidle (sameProfiles_step h.counts.installations (fun _ _ _ hm => heval _ hm.2)
    fun _ _ _ _ hm => heval _ hm.2) hupright

/-- Code that goes on with a value gets what the value owns. -/
theorem receives (h : m.Honest Γ ρ gone) (hidle : m.releasing = [])
    (hhand : m.Solvent ρ.kept gone X []) {c : Comp ω} {X' : List Owned}
    (hH : Affords (v.owned ++ X) H) (hcode : HonestCode ρ m.Recalls S B X')
    (hc : c.Honest ρ B [] H [] X')
    (hspare : ∀ o, (({ m with stack := S } : Machine ω).goOn (.eval c)).spare (.asset o) =
      m.spare (.asset o) + v.owned.count o)
    (hstep : m.step Γ = ({ m with stack := S } : Machine ω).goOn (.eval c)) :
    (m.step Γ).Upright ρ gone m.Recalls := by
  have hsolvent := (hhand.receive h v.owned fun o => by rw [hstep, hspare]).forget hH
  rw [hstep] at hsolvent ⊢
  exact ⟨h.upright.furnished.congr rfl rfl rfl rfl rfl rfl,
    .eval rfl hcode hc hsolvent (by simp) (.inl hidle)⟩

/-- The last code of a fiber hands its value back; that of the thread itself ends with it. -/
theorem give_last (h : m.Honest Γ ρ gone) (hidle : m.releasing = []) (hcontrol : m.control = .ret v)
    (hv : ρ.value v) (hstack : m.stack = []) (hhand : m.Solvent ρ.kept gone X []) :
    (m.step Γ).Upright ρ gone m.Recalls := by
  have hstep : m.step Γ = m.give Γ v := by simp only [step, hidle, hcontrol]
  have hfurnished := h.upright.furnished
  cases hback : m.fibers.handBack? with
  | none =>
    have hgive : m.step Γ = m.goOn (.halted (.finished v)) := by
      rw [hstep]
      simp [Machine.give, hstack, handBack, hback]
    rw [hgive]
    exact ⟨hfurnished.congr rfl rfl rfl rfl rfl rfl, .ended (.inr ⟨_, rfl⟩)⟩
  | some p =>
    obtain ⟨S, fs⟩ := p
    obtain ⟨⟨B', hcode'⟩, hfibers⟩ := hfurnished.fibers.handBack hback
    obtain ⟨pool, journal, hgive⟩ : ∃ pool journal, m.step Γ =
        { m with fibers := fs, stack := S, control := .ret v, pool, journal } := by
      obtain ⟨journal, hwarn⟩ := exists_warn_eq ({ m with
        fibers := fs, stack := S, control := .ret v, pool := m.pool.giveBack.1 } : Machine ω)
        m.pool.giveBack.2
      refine ⟨m.pool.giveBack.1, journal, ?_⟩
      rw [hstep]
      simp only [Machine.give, hstack, handBack, hback, Option.map_some]
      exact hwarn
    have hsolvent := hhand.step h hidle (by simp [hcontrol]) (by simp [hcontrol]) (.nil X)
    rw [hgive] at hsolvent ⊢
    exact ⟨{ hfurnished with fibers := hfibers }, .ret rfl hv hcode' hsolvent⟩

/-- A loop goes on with the value of its body, or ends with it. -/
theorem give_looping (h : m.Honest Γ ρ gone) (hidle : m.releasing = []) (hcontrol : m.control = .ret v)
    (hv : ρ.value v) {body next : Value → Comp ω} (hstack : m.stack = .looping body next :: S)
    (hcode : HonestCode ρ m.Recalls (.looping body next :: S) B X)
    (hhand : m.Solvent ρ.kept gone X []) : (m.step Γ).Upright ρ gone m.Recalls := by
  have hstep : m.step Γ = m.give Γ v := by simp only [step, hidle, hcontrol]
  cases hcode with
  | looping X' hbody hnext hrest =>
    by_cases hagain : ∃ seed, v = .pair (.bool true) seed
    · obtain ⟨seed, rfl⟩ := hagain
      refine h.receives (v := .pair (.bool true) seed) hidle hhand (.of_append (L := X) (.refl _))
        (.looping X' hbody hnext hrest) (hbody seed (ρ.value_snd hv)) (fun o => ?_) ?_
      · rw [← hstack]
        have hgoOn : (m.goOn (.eval (body seed))).spare (.asset o) = _ :=
          spare_goOn m _ (by simp [hcontrol, Control.isFatal]) rfl
        rw [hcontrol, load_ret, count_asset, load_eval] at hgoOn
        change (m.goOn (.eval (body seed))).spare (.asset o) = _
        omega
      · rw [hstep]
        simp only [Machine.give, hstack]
        rfl
    · have hends : ∃ w, ρ.value w ∧ Affords v.owned w.owned ∧
          m.give Γ v = ({ m with stack := S } : Machine ω).goOn (.eval (next w)) := by
        cases v with
        | pair b w =>
          refine ⟨w, ρ.value_snd hv, fun o _ => by simp [Value.owned, List.count_append], ?_⟩
          cases b with
          | bool t =>
            cases t with
            | true => exact absurd ⟨w, rfl⟩ hagain
            | false => simp only [Machine.give, hstack]
          | _ => simp only [Machine.give, hstack]
        | _ => exact ⟨_, hv, .refl _, by simp only [Machine.give, hstack]⟩
      obtain ⟨w, hw, howned, hgive⟩ := hends
      exact h.receives hidle hhand (.of_append (L := X) (howned.append_right X)) hrest
        (hnext w hw) (fun o => spare_received hcontrol hstack rfl o) (hstep.trans hgive)

/-- The return clause of a handler starts with the value of the body. -/
theorem give_driving (h : m.Honest Γ ρ gone) (hΓ : Γ.Honest ρ) (hidle : m.releasing = [])
    (hcontrol : m.control = .ret v) (hv : ρ.value v) {c : CellId} {t : String}
    (hstack : m.stack = .driving i f :: S) (hi : m.Recalls i c t) (htype : ρ.types t)
    (hc : c ∉ ρ.kept) (hrest : HonestCode ρ m.Recalls S B []) (hhand : m.Solvent ρ.kept gone X []) :
    (m.step Γ).Upright ρ gone m.Recalls := by
  have hstep : m.step Γ = m.give Γ v := by simp only [step, hidle, hcontrol]
  have hfurnished := h.upright.furnished
  let m₁ : Machine ω := { m with stack := S }
  have hfinish : m.step Γ = m₁.finish Γ i v := by
    rw [hstep]
    simp only [Machine.give, hstack, m₁]
  have hsolvent := (hhand.receive h v.owned fun o => by
    have h₁ : m₁.spare (.asset o) = _ := spare_pop hstack
    have h₂ := spare_finish (Γ := Γ) (m := m₁) (x := .asset o)
      (by simp [m₁, hcontrol, Control.isFatal]) i v
    have hload : m₁.control.load (.asset o) = v.owned.count o := by
      simp only [m₁, hcontrol, load_ret, count_asset]
    rw [hload] at h₂
    simp only [Activation.owned, List.count_cons, List.count_nil] at h₁ h₂
    rw [hfinish]
    simp at h₁ h₂
    omega).forget (.of_append (.refl _))
  have hthere : m.chain.installations.contains i :=
    contains_of_spare (h.spare i) (holders_running (a := .driving i f) (.inl (by simp [hstack]))
      (by simp [Activation.owned]))
  rw [hfinish] at hsolvent ⊢
  unfold finish at hsolvent ⊢
  split at hsolvent
  · exact upright_of_fault (m := m₁) (hfurnished.congr rfl rfl rfl rfl rfl rfl)
  · rename_i top c' hpop
    by_cases htop : top ≠ i
    · simp only [if_pos htop]
      exact upright_of_fault (m := { m₁ with chain := c' })
        (hfurnished.congr rfl rfl rfl rfl rfl rfl)
    · simp only [if_neg htop] at hsolvent ⊢
      obtain rfl : top = i := Decidable.not_not.mp htop
      have hstill : c'.installations.contains top := by
        obtain ⟨b, -, heq⟩ := Option.map_eq_some_iff.mp hpop
        obtain ⟨-, rfl⟩ := Prod.mk.inj heq
        exact (contains_modify _ _ _ _).trans hthere
      have hi' : ({ m₁ with chain := c' } : Machine ω).Recalls top c t :=
        hi.ages h.counts.installations (Chain.Ages.pop hpop)
      obtain ⟨hhandler, htype'⟩ := hi'.get hstill
      rw [htype'] at hsolvent ⊢
      rw [hhandler] at hsolvent ⊢
      have hreturn := (hΓ.onReturn t htype c hc v hv).mono
        (List.cons_subset_cons _ hrest.base_subset) (List.Subset.refl _) (.refl _)
      exact ⟨hfurnished.congr rfl rfl rfl rfl rfl rfl,
        .eval rfl (.returning hi hrest) hreturn hsolvent (by simp) (.inl hidle)⟩

theorem give (h : m.Honest Γ ρ gone) (hΓ : Γ.Honest ρ) (hidle : m.releasing = [])
    (hcontrol : m.control = .ret v) (hv : ρ.value v) (hcode : HonestCode ρ m.Recalls m.stack B X)
    (hhand : m.Solvent ρ.kept gone X []) : (m.step Γ).Upright ρ gone m.Recalls := by
  have hstep : m.step Γ = m.give Γ v := by simp only [step, hidle, hcontrol]
  have hfurnished := h.upright.furnished
  have hkeep : ∀ {H'}, Affords X H' → (m.step Γ).Solvent ρ.kept gone H' [] :=
    fun hH => hhand.step h hidle (by simp [hcontrol]) (by simp [hcontrol]) hH
  cases hstack : m.stack with
  | nil => exact h.give_last hidle hcontrol hv hstack hhand
  | cons a S =>
    rw [hstack] at hcode
    cases hcode with
    | start | stepping | sending =>
      rw [hstep]
      simp only [Machine.give, hstack]
      exact upright_of_fault (m := { m with stack := S }) (hfurnished.congr rfl rfl rfl rfl rfl rfl)
    | @bind _ _ _ next X' hnext hrest =>
      refine h.receives hidle hhand (.refl _) hrest (hnext v hv)
        (fun o => spare_received hcontrol hstack rfl o) ?_
      rw [hstep]
      simp only [Machine.give, hstack]
    | owning hrest =>
      have hsolvent := hkeep (.refl X)
      rw [hstep] at hsolvent ⊢
      simp only [Machine.give, hstack] at hsolvent ⊢
      exact ⟨hfurnished.congr rfl rfl rfl rfl rfl rfl, .ret hcontrol hv hrest hsolvent⟩
    | looping X' hbody hnext hrest =>
      exact h.give_looping hidle hcontrol hv hstack (.looping X' hbody hnext hrest) hhand
    | driving hi htype hc hrest =>
      exact h.give_driving hΓ hidle hcontrol hv hstack hi htype hc hrest hhand
    | clause hi hrest =>
      have hsolvent := hkeep (.nil X)
      rw [hstep] at hsolvent ⊢
      simp only [Machine.give, hstack] at hsolvent ⊢
      exact ⟨hfurnished.congr rfl rfl rfl rfl rfl rfl, .settle rfl hv hrest hsolvent⟩
    | returning hi hrest | calling hrest =>
      have hsolvent := hkeep (.nil X)
      rw [hstep] at hsolvent ⊢
      simp only [Machine.give, hstack] at hsolvent ⊢
      exact upright_of_settle (m := { m with stack := S })
        (hfurnished.congr rfl rfl rfl rfl rfl rfl) hrest hv hsolvent

/-- A continuation starts with what it owns. -/
theorem deliver (h : m.Honest Γ ρ gone) (hidle : m.releasing = [])
    (hcontrol : m.control = .deliver (.tail k)) (hk : k.Honest ρ m.Recalls)
    (hcode : HonestCode ρ m.Recalls m.stack B []) (hhand : m.Solvent ρ.kept gone [] []) :
    (m.step Γ).Upright ρ gone m.Recalls := by
  have hstep : m.step Γ = m.deliver (.tail k) := by simp only [step, hidle, hcontrol]
  have hfurnished := h.upright.furnished
  have hsolvent := hhand.step h hidle (by simp [hcontrol]) (by simp [hcontrol]) (.refl _)
  by_cases hloop : ∃ S, m.stack = .stepping :: S
  · obtain ⟨S, hstack⟩ := hloop
    have hstep' : m.step Γ = m.stepCont k := by
      rw [hstep]
      simp only [Machine.deliver, hstack]
    cases k with
    | captured answer f segment e =>
      obtain ⟨c, t, hi, htype, hc⟩ := hk
      rw [hstep'] at hsolvent ⊢
      exact upright_of_enter (m := { m.trace (.resumed (m.chain.get segment.lowest).label
        (m.chain.get segment.lowest).name (m.chain.segmentLength segment)) with
          chain := m.chain.splice segment }) (hfurnished.congr rfl rfl rfl rfl rfl rfl)
        (.driving hi htype hc hcode) hsolvent
    | function answer y arg =>
      cases arg with
      | none =>
        rw [hstep']
        exact upright_of_fault hfurnished
      | some v =>
        have hgoes : m.step Γ = (m.push (.calling answer)).goOn (.eval (y.body v)) := hstep'
        have hreceived := hhand.receive h (y.owned ++ v.owned) fun o => by
          have h₁ : (m.push (.calling answer)).spare (.asset o) = _ := spare_push m _
          have h₂ : ((m.push (.calling answer)).goOn (.eval (y.body v))).spare (.asset o) = _ :=
            spare_goOn _ _ (by simp [push, hcontrol, Control.isFatal]) rfl
          have hload : (m.push (.calling answer)).control.load (.asset o) =
              v.owned.count o + y.owned.count o := by
            simp only [push, hcontrol, load_deliver_tail, Cont.owned, Option.map_some,
              Option.getD_some, count_asset, List.count_append]
          simp only [Activation.owned, List.count_nil] at h₁
          rw [hload, load_eval, h₁] at h₂
          rw [hgoes, h₂]
          simp only [List.count_append]
          omega
        rw [hgoes, List.append_nil] at hreceived
        rw [hgoes]
        exact ⟨hfurnished.congr rfl rfl rfl rfl rfl rfl, .eval rfl (.calling hcode)
          ((hk.1 v (hk.2 v rfl)).mono hcode.base_subset (List.Subset.refl _) (.refl _)) hreceived
          (by simp) (.inl hidle)⟩
  · have hfault : m.step Γ = m.goOn (.fault misplaced) := by
      rw [hstep]
      unfold Machine.deliver
      split
      · exact absurd ⟨_, ‹_›⟩ hloop
      · rfl
    rw [hfault]
    exact upright_of_fault hfurnished

/-- Code that is resumed gets its result, or passes the resume on. -/
theorem wake (h : m.Honest Γ ρ gone) (hidle : m.releasing = []) (hcontrol : m.control = .wake)
    (hcode : HonestCode ρ m.Recalls m.stack B []) (hhand : m.Solvent ρ.kept gone [] []) :
    (m.step Γ).Upright ρ gone m.Recalls := by
  have hstep : m.step Γ = m.wake := by simp only [step, hidle, hcontrol]
  have hfurnished := h.upright.furnished
  have hsolvent := hhand.step h hidle (by simp [hcontrol]) (by simp [hcontrol]) (.refl _)
  rw [hstep] at hsolvent ⊢
  unfold Machine.wake at hsolvent ⊢
  cases hstack : m.stack with
  | nil =>
    rw [hstack] at hsolvent
    exact upright_of_fault hfurnished
  | cons a S =>
    rw [hstack] at hcode hsolvent
    cases hcode with
    | start X' hbody hrest =>
      exact ⟨hfurnished.congr rfl rfl rfl rfl rfl rfl,
        .eval rfl hrest hbody hsolvent (by simp) (.inl hidle)⟩
    | driving hi htype hc hrest =>
      exact upright_of_enter (m := { m with stack := S }) (hfurnished.congr rfl rfl rfl rfl rfl rfl)
        (.driving hi htype hc hrest) hsolvent
    | @sending _ _ _ i e modifier command hrest =>
      simp only at hsolvent ⊢
      by_cases hmodifier : modifier = .noResume
      · simp only [if_pos hmodifier]
        exact upright_of_fault hfurnished
      · simp only [if_neg hmodifier] at hsolvent ⊢
        split at hsolvent
        · rename_i v hresult
          obtain ⟨y, hy, hv⟩ := Option.bind_eq_some_iff.mp hresult
          refine ⟨{ hfurnished with exchanges := ?_ }, .ret rfl ?_ hrest hsolvent⟩
          · exact hfurnished.exchanges.modify fun y hy =>
              ⟨(hfurnished.exchanges.find hy).command, by simp⟩
          · exact (hfurnished.exchanges.find hy).result v hv
        · exact upright_of_fault hfurnished
    | _ => exact upright_of_fault hfurnished

theorem unwind (h : m.Honest Γ ρ gone) (hidle : m.releasing = []) {message : String}
    (hcontrol : m.control = .unwind message) (hcode : HonestCode ρ m.Recalls m.stack B X) :
    (m.step Γ).Upright ρ gone m.Recalls := by
  have hstep : m.step Γ = m.unwind message := by simp only [step, hidle, hcontrol]
  have hfurnished := h.upright.furnished
  rw [hstep]
  unfold Machine.unwind
  cases hstack : m.stack with
  | nil =>
    cases hback : m.fibers.handBack? with
    | none =>
      simp only [handBack, hback, Option.map_none, Option.getD_none]
      exact ⟨hfurnished.congr rfl rfl rfl rfl rfl rfl, .ended (.inr ⟨_, rfl⟩)⟩
    | some p =>
      obtain ⟨⟨B', hcode'⟩, hfibers⟩ := hfurnished.fibers.handBack hback
      simp only [handBack, hback, Option.map_some, Option.getD_some]
      exact ⟨{ hfurnished with fibers := hfibers }, .unwind rfl hcode'⟩
  | cons a S =>
    rw [hstack] at hcode
    cases hcode
    all_goals exact ⟨hfurnished.congr rfl rfl rfl rfl rfl rfl, .unwind hcontrol ‹_›⟩

/-- A clause starts with its resumption and what comes with the command. -/
theorem capture (h : m.Honest Γ ρ gone) (hΓ : Γ.Honest ρ) (hidle : m.releasing = []) {r : Request}
    (hcontrol : m.control = .request r) {m₁ : Machine ω} (hfurnished : m₁.Furnished ρ m.Recalls)
    (hstep : m.step Γ = m₁.capture Γ i f r)
    (hsame : m₁.chain = m.chain ∧ m₁.resumptions = m.resumptions ∧ m₁.releasing = m.releasing)
    {c : CellId} {t : String} (hi : m.Recalls i c t) (htype : ρ.types t) (hc : c ∉ ρ.kept)
    (hcode : HonestCode ρ m.Recalls m₁.stack B []) (hhand : m.Solvent ρ.kept gone [] []) :
    (m.step Γ).Upright ρ gone m.Recalls := by
  obtain ⟨hchain, hresumptions, hreleasing⟩ := hsame
  rcases capture_cases (Γ := Γ) m₁ i f r with ⟨text, heq⟩ | heq | ⟨code, segment, c', hrun, hsplit,
    ⟨counters, journal, heq⟩ | ⟨y, command, counters, journal, hy, hcommand, heq⟩⟩
  · rw [hstep, heq]
    exact upright_of_fault hfurnished
  · rw [hstep, heq]
    exact ⟨hfurnished.congr rfl rfl rfl rfl rfl rfl, .unwind rfl hcode⟩
  · rw [hstep, heq]
    exact ⟨hfurnished.congr rfl rfl rfl rfl rfl rfl, .ended (.inl ⟨_, rfl⟩)⟩
  · have hthere : m.chain.installations.contains i :=
      Chain.contains_of_isLive (hchain ▸ Chain.isLive_of_split hsplit)
    obtain ⟨hhandler, htype'⟩ := hi.get hthere
    rw [← hchain] at hhandler htype'
    obtain ⟨-, clause, -, -, hclause, rfl⟩ := exists_clause_of_codeAt hrun
    rw [htype'] at hclause
    obtain ⟨run, hresumptive, hhonest⟩ :=
      hΓ.clauses t htype clause (List.mem_of_getElem? hclause)
    simp only [hresumptive, ClauseCode.takes, ClauseCode.keeps, ClauseCode.body, hhandler,
      Option.isSome_some, if_true, List.nil_append, List.singleton_append] at heq
    have hsolvent : (m.step Γ).Solvent ρ.kept gone [] [] := by
      have hmade : (m.step Γ).Issued (.resumption m.resumptions.next) := by
        rw [hstep, heq, ← hresumptions]
        exact Nat.lt_succ_self _
      refine hhand.next (N := [.resumption m.resumptions.next]) (fun o ho => ?_)
        (fun o => Issued.step h.tidy)
        (fun o ho => List.mem_singleton.mp ho ▸ ⟨rfl, Nat.lt_irrefl m.resumptions.next, hmade⟩)
        (List.nodup_singleton _) (by simp)
      have hspare := spare_forward (Γ := Γ) (x := .asset o) hcontrol
      have hcount : [Holding.asset (.resumption m.resumptions.next)].count (.asset o) =
        [Owned.resumption m.resumptions.next].count o := count_asset [_] o
      rw [hcount] at hspare
      have hforward : m.step Γ = m.forward Γ r := by simp only [step, hidle, hcontrol]
      rw [hforward]
      simp only [List.count_nil]
      omega
    rw [hstep, heq] at hsolvent ⊢
    have hlowest : segment.lowest = i := Chain.lowest_of_split hsplit
    have hy' := hfurnished.exchanges.find hy
    refine ⟨{ hfurnished with
        resumptions := hfurnished.resumptions.insert ⟨c, t, hlowest ▸ hi, htype, hc⟩
        exchanges := hfurnished.exchanges.modify fun y hy =>
          ⟨by simp, (hfurnished.exchanges.find hy).result⟩ },
      .eval rfl (.owning (.clause (X := []) hi hcode)) ?_ hsolvent (by simp) (.inr ⟨rfl, rfl⟩)⟩
    have hbody := hhonest c hc command.payload command.owned m₁.resumptions.next
      (hy'.command command hcommand)
    exact hbody.mono (List.append_subset.mpr ⟨List.subset_append_left .., fun o ho =>
      List.mem_append_right _ (List.cons_subset_cons _ hcode.base_subset ho)⟩)
      (List.Subset.refl _) (.refl _)

theorem forward (h : m.Honest Γ ρ gone) (hΓ : Γ.Honest ρ) (hidle : m.releasing = []) {r : Request}
    (hcontrol : m.control = .request r) (hcode : HonestCode ρ m.Recalls m.stack B [])
    (hhand : m.Solvent ρ.kept gone [] []) : (m.step Γ).Upright ρ gone m.Recalls := by
  have hstep : m.step Γ = m.forward Γ r := by simp only [step, hidle, hcontrol]
  have hfurnished := h.upright.furnished
  cases hsuspend : m.fibers.suspend? m.stack with
  | none =>
    have hfault : m.step Γ = m.goOn (.fault (.notInFiber r.command)) := by
      rw [hstep]
      simp only [Machine.forward, hsuspend]
    rw [hfault]
    exact upright_of_fault hfurnished
  | some p =>
    obtain ⟨S, fs⟩ := p
    obtain ⟨⟨B', hcode'⟩, hfibers⟩ := hfurnished.fibers.suspend ⟨B, hcode⟩ hsuspend
    by_cases hdriver : ∃ i f rest, S = .driving i f :: rest
    · obtain ⟨i, f, rest, rfl⟩ := hdriver
      by_cases htarget : i = r.target
      · cases hcode' with
        | driving hi htype hc hrest =>
          have hcapture : m.step Γ =
              ({ m with fibers := fs, stack := rest } : Machine ω).capture Γ i f r := by
            rw [hstep]
            simp only [Machine.forward, hsuspend, if_pos htarget]
          have hmoved : ({ m with fibers := fs, stack := rest } : Machine ω).Furnished ρ m.Recalls :=
            { hfurnished with fibers := hfibers }
          exact h.capture hΓ hidle hcontrol hmoved hcapture ⟨rfl, rfl, rfl⟩ hi htype hc hrest hhand
      · have hpass : m.step Γ = ({ m with fibers := fs, stack := .driving i f :: rest } :
            Machine ω).goOn (.request r) := by
          rw [hstep]
          simp only [Machine.forward, hsuspend, if_neg htarget]
          rfl
        have hsolvent : (m.step Γ).Solvent ρ.kept gone [] [] := by
          refine hhand.next (N := []) (fun o ho => ?_) (fun o => Issued.step h.tidy) (by simp) .nil
            (by simp)
          let m₁ : Machine ω := { m with fibers := fs, stack := .driving i f :: rest }
          have h₁ : m₁.spare (.asset o) = _ := spare_suspend hsuspend
          have h₂ : (m₁.goOn (.request r)).spare (.asset o) = _ :=
            spare_goOn m₁ _ (by simp [m₁, hcontrol, Control.isFatal]) rfl
          have hload : m₁.control.load (.asset o) = 0 := by simp only [m₁, hcontrol, load_request]
          rw [h₁, hload, load_request] at h₂
          change _ ≤ _ + _ + _ + _
          rw [hpass]
          change _ ≤ (m₁.goOn (.request r)).spare (.asset o) + _ + _ + _
          simp only [List.count_nil]
          omega
        rw [hpass] at hsolvent ⊢
        exact ⟨{ hfurnished with fibers := hfibers }, .request rfl hcode' hsolvent⟩
    · have hfault : m.step Γ = ({ m with fibers := fs, stack := S } : Machine ω).goOn
          (.fault misplaced) := by
        rw [hstep]
        simp only [Machine.forward, hsuspend]
        split
        · exact absurd ⟨_, _, _, rfl⟩ hdriver
        · rfl
      rw [hfault]
      exact upright_of_fault (m := { m with fibers := fs, stack := S })
        { hfurnished with fibers := hfibers }

/-- An honest thread stays honest. -/
theorem step (h : m.Honest Γ ρ gone) (hΓ : Γ.Honest ρ)
    (hdefault : Contents.owned (default : ω) = []) :
    (m.step Γ).Honest Γ ρ fun o => gone o ∨ m.Drops Γ o := by
  cases hreleasing : m.releasing with
  | cons y hs => exact h.releasing hreleasing
  | nil =>
    have hfurnished := h.upright.furnished
    cases h.upright.running with
    | eval hcontrol hcode hc hhand hknown =>
      exact AtWork.step ⟨h, hreleasing, hcontrol, hcode, hhand, hknown⟩ hc hΓ hdefault
    | ret hcontrol hv hcode hhand =>
      exact h.next_of_control hreleasing (by simp [hcontrol])
        (h.give hΓ hreleasing hcontrol hv hcode hhand)
    | @done v B hcontrol hv hcode hhand =>
      refine h.next_of_control hreleasing (by simp [hcontrol]) ?_
      have hstep : m.step Γ = m.deliver (.done v) := by simp only [Machine.step, hreleasing, hcontrol]
      have hsolvent := hhand.step h hreleasing (by simp [hcontrol]) (by simp [hcontrol]) (.refl _)
      rw [hstep] at hsolvent ⊢
      unfold Machine.deliver at hsolvent ⊢
      split at hsolvent
      · rename_i S hstack
        rw [hstack] at hcode
        cases hcode with
        | stepping hrest => exact ⟨hfurnished.congr rfl rfl rfl rfl rfl rfl, .ret rfl hv hrest hsolvent⟩
      · exact upright_of_fault hfurnished
    | tail hcontrol hk hcode hhand =>
      exact h.next_of_control hreleasing (by simp [hcontrol])
        (h.deliver hreleasing hcontrol hk hcode hhand)
    | @settle answer v B hcontrol hv hcode hhand =>
      refine h.next_of_control hreleasing (by simp [hcontrol]) ?_
      have hsolvent := hhand.step h hreleasing (by simp [hcontrol]) (by simp [hcontrol]) (.refl _)
      have hstep : m.step Γ = m.settle answer v [] := by simp only [Machine.step, hreleasing, hcontrol]
      rw [hstep] at hsolvent ⊢
      exact upright_of_settle hfurnished hcode hv hsolvent
    | request hcontrol hcode hhand =>
      exact h.next_of_control hreleasing (by simp [hcontrol])
        (h.forward hΓ hreleasing hcontrol hcode hhand)
    | wake hcontrol hcode hhand =>
      exact h.next_of_control hreleasing (by simp [hcontrol])
        (h.wake hreleasing hcontrol hcode hhand)
    | unwind hcontrol hcode =>
      exact h.next_of_control hreleasing (by simp [hcontrol]) (h.unwind hreleasing hcontrol hcode)
    | ended hover =>
      refine h.next_of_control hreleasing (fun c hc => ?_) ⟨?_, .ended hover.step⟩
      · rcases hover with ⟨f, hf⟩ | ⟨o, ho⟩
        · cases hf.symm.trans hc
        · cases ho.symm.trans hc
      · rcases hover with ⟨f, hf⟩ | ⟨o, ho⟩
        · have hstep : m.step Γ = m.exit f := by simp only [Machine.step, hreleasing, hf]
          rw [hstep]
          exact { hfurnished with pending := by simp [exit, release, goOn, trace, record] }
        · rw [step_halted ho hreleasing]
          exact hfurnished

/-- An honest thread stays honest all the time. -/
theorem run (h : m.Honest Γ ρ (m.Dropped Γ 0)) (hΓ : Γ.Honest ρ)
    (hdefault : Contents.owned (default : ω) = []) (n : Nat) :
    (m.run Γ n).Honest Γ ρ (m.Dropped Γ n) := by
  induction n with
  | zero => exact h
  | succ n ih =>
    have hdropped : m.Dropped Γ (n + 1) = fun o => m.Dropped Γ n o ∨ (m.run Γ n).Drops Γ o := by
      funext o
      refine propext ⟨fun ⟨k, hk, ho⟩ => ?_, dropped_succ⟩
      rcases Nat.eq_or_lt_of_le (Nat.le_of_lt_succ hk) with rfl | hk
      · exact .inr ho
      · exact .inl ⟨k, hk, ho⟩
    rw [hdropped, run_succ]
    exact ih.step hΓ hdefault

end Honest

end EffectHandlers.Machine
