import EffectHandlers.Proofs.Reports
/-!
# Fibers keep their identity

However fibers are nested, the one that a suspension would park is the one whose code is running,
and control comes back to the code that had resumed the fiber. What the resumes of a fiber come
back with are the requests of its own script, in order, and then its value.
-/

namespace EffectHandlers.FiberScript

/-! ### Control comes back -/

/-- What a slot holds when a resume of its fiber has come back. -/
def Result.slot (f : FiberId) : Result → Slot
  | .suspended _ => .parked f
  | .finished _ => .finished

/-- The code that had resumed a fiber regains control as it was, with what became of the fiber. -/
structure State.HandsBack (s : State) (r : Resumer Strand) (result : Result) (s' : State) :
    Prop where
  resumers : s.fibers.resumers = r :: s'.fibers.resumers
  left : s.fibers.current = some r.fiber
  code : s'.running = { r.code with last := s'.running.last }
  current : s'.fibers.current = r.current
  reported : s.reported s' = [⟨r.current, r.fiber, result⟩]
  table : s'.table.lookup r.code.waiting = some (result.slot r.fiber)

theorem Action.Asks.not_returns {a : Action} {latest entry value : Int} {t : Strand}
    {rest : List Action} (h : a.Asks latest entry) (hrest : t.rest = a :: rest) :
    ¬ t.Returns value := by
  intro hreturns
  cases hreturns with
  | ret hrest' =>
    obtain ⟨rfl, -⟩ := List.cons.inj (hrest.symm.trans hrest')
    cases h
  | last hrest' => simp [hrest'] at hrest

theorem Strand.Returns.unique {t : Strand} {value value' : Int} (h : t.Returns value)
    (h' : t.Returns value') : value = value' := by
  cases h with
  | ret hrest =>
    cases h' with
    | ret hrest' => exact Action.ret.inj (List.cons.inj (hrest.symm.trans hrest')).1
    | last hrest' => simp [hrest'] at hrest
  | last hrest =>
    cases h' with
    | ret hrest' => simp [hrest'] at hrest
    | last => rfl

namespace State

variable {s : State}

/-- What the running code comes to with its next step: a request, or a value. -/
inductive Comes (s : State) : Result → Prop
  | asks {a rest entry} (hrest : s.running.rest = a :: rest) (ha : a.Asks s.lastEntry entry) :
      Comes s (.suspended entry)
  | returns {value} (h : s.running.Returns value) : Comes s (.finished value)

theorem Comes.not_stays {result : Result} (h : s.Comes result) {a : Action} {rest : List Action}
    (hrest : s.running.rest = a :: rest) : ¬ a.Stays := by
  intro ha
  cases h with
  | asks hrest' hasks =>
    obtain ⟨rfl, rfl⟩ := List.cons.inj (hrest.symm.trans hrest')
    cases hasks <;> exact ha
  | returns h =>
    cases h with
    | ret hrest' =>
      obtain ⟨rfl, rfl⟩ := List.cons.inj (hrest.symm.trans hrest')
      exact ha
    | last hrest' => simp [hrest'] at hrest

theorem Comes.unique {result result' : Result} (h : s.Comes result) (h' : s.Comes result') :
    result = result' := by
  cases h with
  | asks hrest ha =>
    cases h' with
    | asks hrest' ha' =>
      obtain ⟨rfl, rfl⟩ := List.cons.inj (hrest.symm.trans hrest')
      cases ha <;> cases ha' <;> rfl
    | returns h' => exact absurd h' (ha.not_returns hrest)
  | returns h =>
    cases h' with
    | asks hrest' ha' => exact absurd h (ha'.not_returns hrest')
    | returns h' => rw [h.unique h']

theorem exists_suspend {a : Action} {rest : List Action} {entry : Int} {f : FiberId}
    {r : Resumer Strand} {rs : List (Resumer Strand)} (hrest : s.running.rest = a :: rest)
    (ha : a.Asks s.lastEntry entry) (hcurrent : s.fibers.current = some f)
    (hresumers : s.fibers.resumers = r :: rs) : ∃ s', s.step = .ok s' := by
  cases ha <;>
    exact ⟨_, by
      simp only [step, hrest, act, suspend, hcurrent, Fibers.suspend?, Fibers.handBack?, hresumers,
        Option.bind_some]
      rfl⟩

theorem exists_finish {value : Int} {r : Resumer Strand} {rs : List (Resumer Strand)}
    (h : s.running.Returns value) (hresumers : s.fibers.resumers = r :: rs) :
    ∃ s', s.step = .ok s' := by
  have hfinish : ∀ t : State, t.fibers = s.fibers → ∃ s', t.finish value = .ok s' := by
    intro t ht
    unfold finish
    rw [(t.notes_dropGuards t.running).1]
    simp only [ht, Fibers.handBack?, hresumers]
    exact ⟨_, rfl⟩
  cases h with
  | @ret _ rest hrest =>
    obtain ⟨s', hs'⟩ := hfinish { s with running := { s.running with rest } } rfl
    refine ⟨s', ?_⟩
    simp only [step, hrest, act]
    rw [hs']
    rfl
  | last hrest =>
    obtain ⟨s', hs'⟩ := hfinish s rfl
    refine ⟨s', ?_⟩
    simp only [step, hrest]
    rw [hs']
    rfl

end State

section Returning

variable {main : List Action} {p : Past} {s s' : State} {r : Resumer Strand}
  {rs : List (Resumer Strand)}

/-- What hands control back in a step. -/
theorem Sound.handsBack (h : Sound main p s) (hmoves : s.Moves s') {result : Result}
    (hresumers : s.fibers.resumers = r :: s'.fibers.resumers)
    (hcode : s'.running = { r.code with last := s'.running.last })
    (hcurrent : s'.fibers.current = r.current) (htells : Tells s.log s'.log [result])
    (htable : s'.table = (r.code.waiting, result.slot r.fiber) ::
      s.table.filter (·.1 != r.code.waiting)) : s.HandsBack r result s' := by
  refine ⟨hresumers, (h.front hresumers).1, hcode, hcurrent, ?_, by simp [htable]⟩
  have hfront : s'.fibers.front = r.current :=
    ((h.step hmoves).kept.named.eq_front).symm.trans hcurrent
  rw [State.reported_eq_singleton htells hresumers, hfront]

/-- Code that keeps control, with at most one more piece of code waiting, or code that hands over
what it has come to. -/
theorem Sound.control (h : Sound main p s) (hmoves : s.Moves s') :
    (∃ a rest, s.running.rest = a :: rest ∧ a.Stays ∧
      (s'.fibers.resumers = s.fibers.resumers ∨ ∃ r, s'.fibers.resumers = r :: s.fibers.resumers)) ∨
    ∃ r result, s.Comes result ∧ s.HandsBack r result s' := by
  have hmoves' := hmoves
  cases hmoves' with
  | stay hrest ha hlast hfibers => exact .inl ⟨_, _, hrest, ha, .inl (by rw [hfibers])⟩
  | make hrest hlast hfibers => exact .inl ⟨_, _, hrest, trivial, .inl hfibers.waiting.2⟩
  | drop hrest hlast hfibers => exact .inl ⟨_, _, hrest, trivial, .inl hfibers.waiting.2⟩
  | resume hrest hlookup hfibers =>
    obtain ⟨S, -, heq⟩ := Option.map_eq_some_iff.mp hfibers
    rw [← (Prod.mk.inj heq).2]
    exact .inl ⟨_, _, hrest, trivial, .inr ⟨_, rfl⟩⟩
  | suspend hrest ha hresumers hcurrent hrunning hfibers htable hentry htells =>
    obtain rfl := Option.some.inj (hcurrent.symm.trans (h.front hresumers).1)
    exact .inr ⟨_, _, .asks hrest ha, h.handsBack hmoves (hfibers.waiting.2 ▸ hresumers)
      (by rw [hrunning]) hfibers.waiting.1 htells htable⟩
  | finish hreturns hresumers hrunning hfibers htable hentry htells =>
    exact .inr ⟨_, _, .returns hreturns, h.handsBack hmoves (hfibers.waiting.2 ▸ hresumers)
      (by rw [hrunning]) hfibers.waiting.1 htells htable⟩

/-- Code that comes to something hands it over. -/
theorem Sound.comes (h : Sound main p s) (hmoves : s.Moves s') {result : Result}
    (hcomes : s.Comes result) : ∃ r result', s.Comes result' ∧ s.HandsBack r result' s' := by
  rcases h.control hmoves with ⟨a, rest, hrest, ha, -⟩ | hback
  · exact absurd ha (hcomes.not_stays hrest)
  · exact hback

/-- Code of a fiber that suspends or ends hands control to the code that resumed the fiber. -/
theorem Sound.handsBack_of_comes (h : Sound main p s) {result : Result} (hcomes : s.Comes result)
    (hresumers : s.fibers.resumers = r :: rs) :
    ∃ s', s.step = .ok s' ∧ s.HandsBack r result s' := by
  have hok : ∃ s', s.step = .ok s' := by
    obtain ⟨hcurrent, -⟩ := h.front hresumers
    cases hcomes with
    | asks hrest ha => exact State.exists_suspend hrest ha hcurrent hresumers
    | returns hreturns => exact State.exists_finish hreturns hresumers
  obtain ⟨s', hstep⟩ := hok
  refine ⟨s', hstep, ?_⟩
  obtain ⟨r', result', hcomes', hback⟩ := h.comes (State.moves_of_step hstep) hcomes
  obtain rfl : r = r' := (List.cons.inj (hresumers.symm.trans hback.resumers)).1
  rwa [hcomes.unique hcomes']

/-- A resume goes on with the code of the fiber, and the code that resumes waits. -/
theorem Sound.exists_resume (h : Sound main p s) {slot : Int} {rest : List Action} {f : FiberId}
    (hrest : s.running.rest = .resume slot :: rest)
    (hlookup : s.table.lookup slot = some (.parked f)) :
    ∃ s', s.step = .ok s' ∧ s'.fibers.current = some f ∧
      s'.fibers.resumers =
        ⟨f, s.fibers.current, { s.running with rest, waiting := slot }⟩ :: s.fibers.resumers ∧
      s.fibers.parked.find? f = some s'.running := by
  have hparked : f ∈ parkedIn s.table := by
    refine (parkedIn_perm h.slots slot).mem_iff.mpr (List.mem_append_left _ ?_)
    rw [hlookup]
    exact List.mem_cons_self ..
  obtain ⟨code, hcode⟩ := h.kept.mem_parked hparked
  have hstep : s.step = .ok { s with
      running := code
      fibers :=
        { parked := s.fibers.parked.erase f
          current := some f
          resumers := ⟨f, s.fibers.current, { s.running with rest, waiting := slot }⟩ ::
            s.fibers.resumers }
      table := s.table.filter (·.1 != slot) } := by
    simp only [State.step, hrest, State.act, State.resume, hlookup, Fibers.resume?, hcode,
      Option.map_some]
    rfl
  exact ⟨_, hstep, rfl, rfl, hcode⟩

/-! ### Finished fibers -/

/-- A further resume of a finished fiber is fatal. -/
theorem State.step_resume_finished {slot : Int} {rest : List Action}
    (hrest : s.running.rest = .resume slot :: rest)
    (hlookup : s.table.lookup slot = some .finished) :
    ∃ t, s.step = .error (.fatal (.internal "resumed a finished fiber"), t) := by
  simp only [State.step, hrest, State.act, State.resume, hlookup]
  exact ⟨_, rfl⟩

theorem State.step_isFinished {slot : Int} {rest : List Action}
    (hrest : s.running.rest = .isFinished slot :: rest)
    (hlookup : s.table.lookup slot = some .finished) :
    ∃ s', s.step = .ok s' ∧ s'.log = .flag (some true) :: s.log := by
  simp only [State.step, hrest, State.act, hlookup]
  exact ⟨_, rfl, rfl⟩

theorem lookup_filter {table : List (Int × Slot)} {slot other : Int} (hne : slot ≠ other) :
    (table.filter (·.1 != other)).lookup slot = table.lookup slot := by
  induction table with
  | nil => rfl
  | cons e table ih =>
    obtain ⟨k, x⟩ := e
    by_cases hk : k = other
    · subst hk
      have hslot : (slot == k) = false := by simpa using hne
      simpa [List.lookup_cons, hslot] using ih
    · have hkeep : (k != other) = true := by simpa using hk
      simp only [List.filter_cons, hkeep, if_true, List.lookup_cons, ih]

theorem lookup_place {table : List (Int × Slot)} {slot other : Int} {x : Slot}
    (hne : slot ≠ other) :
    ((other, x) :: table.filter (·.1 != other)).lookup slot = table.lookup slot := by
  have hslot : (slot == other) = false := by simpa using hne
  rw [List.lookup_cons, hslot]
  exact lookup_filter hne

/-- A finished fiber stays where it is until something is put there or it is dropped. -/
theorem Sound.finished_stays (h : Sound main p s) (hmoves : s.Moves s') {slot : Int}
    (hlookup : s.table.lookup slot = some .finished) :
    s'.table.lookup slot = some .finished ∨
      (∃ script rest, s.running.rest = .make slot script :: rest) ∨
      (∃ rest, s.running.rest = .drop slot :: rest) ∨
      ∃ r result, s.HandsBack r result s' ∧ r.code.waiting = slot := by
  have hmoves' := hmoves
  cases hmoves' with
  | stay hrest ha hlast hfibers htable => exact .inl (htable ▸ hlookup)
  | @make other script hrest hlast hfibers htable =>
    by_cases hslot : slot = other
    · exact .inr (.inl ⟨script, _, hslot ▸ hrest⟩)
    · exact .inl (by rw [htable, lookup_place hslot, hlookup])
  | @drop other hrest hlast hfibers htable =>
    by_cases hslot : slot = other
    · exact .inr (.inr (.inl ⟨_, hslot ▸ hrest⟩))
    · exact .inl (by rw [htable, lookup_filter hslot, hlookup])
  | @resume other f rest hrest hparked hfibers htable =>
    have hslot : slot ≠ other := by
      rintro rfl
      simp [hlookup] at hparked
    exact .inl (by rw [htable, lookup_filter hslot, hlookup])
  | @suspend _ _ _ r _ _ hrest ha hresumers hcurrent hrunning hfibers htable hentry htells =>
    by_cases hslot : slot = r.code.waiting
    · obtain ⟨r', result, -, hback⟩ := h.comes hmoves (.asks hrest ha)
      obtain rfl : r = r' := (List.cons.inj (hresumers.symm.trans hback.resumers)).1
      exact .inr (.inr (.inr ⟨r, result, hback, hslot.symm⟩))
    · exact .inl (by rw [htable, lookup_place hslot, hlookup])
  | @finish _ r _ hreturns hresumers hrunning hfibers htable hentry htells =>
    by_cases hslot : slot = r.code.waiting
    · obtain ⟨r', result, -, hback⟩ := h.comes hmoves (.returns hreturns)
      obtain rfl : r = r' := (List.cons.inj (hresumers.symm.trans hback.resumers)).1
      exact .inr (.inr (.inr ⟨r, result, hback, hslot.symm⟩))
    · exact .inl (by rw [htable, lookup_place hslot, hlookup])

/-! ### Whole runs -/

/-- What it means, over a whole run, that fibers keep their identity. -/
structure KeepIdentity (main : List Action) (run : Nat → Option (State × Past)) : Prop where
  /-- The fiber that a suspension would park is the one whose code is running; there is none
  exactly on the native stack. -/
  current : ∀ {n s p}, run n = some (s, p) →
    s.fibers.current = s.fibers.front ∧ (s.fibers.current = none ↔ s.fibers.resumers = [])
  /-- Each piece of code, running, waiting or parked, is what is left of the script of its fiber,
  and no two pieces belong to one fiber. -/
  code : ∀ {n s p}, run n = some (s, p) →
    (∀ x ∈ s.fibers.crew s.running, Carried main p x.1 x.2) ∧
      ((s.fibers.crew s.running).map (·.1)).Nodup
  /-- The resumes of a fiber come back with the requests of its script, in order, and then, once,
  with its value. -/
  results : ∀ {n s p}, run n = some (s, p) → ∀ f script, p.scripts[f]? = some script →
    Lived f p.reports script
  /-- A resume wakes the code of that fiber. -/
  wakes : ∀ {n s p}, run n = some (s, p) → ∀ {slot rest f},
    s.running.rest = .resume slot :: rest → s.table.lookup slot = some (.parked f) →
    ∃ s' p', run (n + 1) = some (s', p') ∧ s'.fibers.current = some f ∧
      s'.fibers.resumers =
        ⟨f, s.fibers.current, { s.running with rest, waiting := slot }⟩ :: s.fibers.resumers ∧
      s.fibers.parked.find? f = some s'.running
  /-- A fiber that suspends or ends hands control, with its request or its value, to the code that
  waits for it. -/
  comes : ∀ {n s p}, run n = some (s, p) → ∀ {result r rs}, s.Comes result →
    s.fibers.resumers = r :: rs →
    ∃ s' p', run (n + 1) = some (s', p') ∧ s.HandsBack r result s'
  /-- Code that resumes a fiber waits until that very fiber suspends or ends, and then goes on. -/
  returns : ∀ {n s p}, run n = some (s, p) → ∀ {slot rest f},
    s.running.rest = .resume slot :: rest → s.table.lookup slot = some (.parked f) →
    ∀ {m t q}, n < m → run m = some (t, q) →
    let r : Resumer Strand := ⟨f, s.fibers.current, { s.running with rest, waiting := slot }⟩
    r :: s.fibers.resumers <:+ t.fibers.resumers ∨
      ∃ k u v pu pv result, n < k ∧ k < m ∧ run k = some (u, pu) ∧ run (k + 1) = some (v, pv) ∧
        u.Comes result ∧ u.HandsBack r result v ∧ v.fibers.resumers = s.fibers.resumers
  /-- Where a finished fiber is, a further resume is fatal, and it counts as finished. -/
  finished : ∀ {n s p}, run n = some (s, p) → ∀ {slot rest},
    s.table.lookup slot = some .finished →
    (s.running.rest = .resume slot :: rest →
      ∃ t, s.step = .error (.fatal (.internal "resumed a finished fiber"), t)) ∧
    (s.running.rest = .isFinished slot :: rest →
      ∃ s' p', run (n + 1) = some (s', p') ∧ s'.log = .flag (some true) :: s.log)
  /-- A finished fiber stays so until it is dropped or another one comes in its place. -/
  stays : ∀ {n s p}, run n = some (s, p) → ∀ {s' p'}, run (n + 1) = some (s', p') → ∀ {slot},
    s.table.lookup slot = some .finished →
    s'.table.lookup slot = some .finished ∨
      (∃ script rest, s.running.rest = .make slot script :: rest) ∨
      (∃ rest, s.running.rest = .drop slot :: rest) ∨
      ∃ r result, s.HandsBack r result s' ∧ r.code.waiting = slot

/-- Code that resumes a fiber waits, whatever the fiber and those above it do, until it regains
control from that fiber. -/
theorem waits_or_returns {pool : StackPool} {n m : Nat} (hwaits : n < m)
    {rs : List (Resumer Strand)}
    (hfirst : ∀ {t q}, (State.launch pool main).after (n + 1) = some (t, q) →
      t.fibers.resumers = r :: rs) {t : State} {q : Past}
    (ht : (State.launch pool main).after m = some (t, q)) :
    r :: rs <:+ t.fibers.resumers ∨
      ∃ k u v pu pv result, n < k ∧ k < m ∧ (State.launch pool main).after k = some (u, pu) ∧
        (State.launch pool main).after (k + 1) = some (v, pv) ∧
        u.Comes result ∧ u.HandsBack r result v ∧ v.fibers.resumers = rs := by
  induction m generalizing t q with
  | zero => omega
  | succ m ih =>
    by_cases hm : n = m
    · subst hm
      exact .inl (hfirst ht ▸ List.suffix_refl _)
    · obtain ⟨u, pu, hu, hstep, rfl⟩ := State.exists_of_after_succ ht
      rcases ih (by omega) hu with hu' | ⟨k, u', v, pu', pv, result, hk, hkm, h⟩
      · rcases (Sound.after hu).control (State.moves_of_step hstep) with
          ⟨a, rest, -, -, hsame | ⟨r', hpush⟩⟩ | ⟨r', result, hcomes, hback⟩
        · exact .inl (hsame ▸ hu')
        · exact .inl (hpush ▸ hu'.trans (List.suffix_cons _ _))
        · rw [hback.resumers] at hu'
          rcases List.suffix_cons_iff.mp hu' with heq | hu'
          · obtain ⟨rfl, rfl⟩ := List.cons.inj heq
            exact .inr ⟨m, u, t, pu, _, result, by omega, by omega, hu, ht, hcomes, hback, rfl⟩
          · exact .inl hu'
      · exact .inr ⟨k, u', v, pu', pv, result, hk, by omega, h⟩

end Returning

/-- **Nested fibers keep their identity**, whatever they do to each other, in every run of every
script up to its end. -/
theorem fibers_keep_identity (pool : StackPool) (main : List Action) :
    KeepIdentity main (State.launch pool main).after where
  current h :=
    have hsound := Sound.after h
    ⟨hsound.kept.named.eq_front, by
      rw [hsound.kept.named.eq_front]
      simp⟩
  code h := ⟨(Sound.after h).carried, (Sound.after h).kept.crew_distinct _⟩
  results h := (Sound.after h).lived
  wakes h := fun hrest hlookup => by
    obtain ⟨s', hstep, h'⟩ := (Sound.after h).exists_resume hrest hlookup
    exact ⟨s', _, State.after_succ h hstep, h'⟩
  comes h := fun hcomes hresumers => by
    obtain ⟨s', hstep, h'⟩ := (Sound.after h).handsBack_of_comes hcomes hresumers
    exact ⟨s', _, State.after_succ h hstep, h'⟩
  returns h := by
    intro slot rest f hrest hlookup m t q hnm ht r
    refine waits_or_returns hnm (fun hnext => ?_) ht
    obtain ⟨s', hstep, -, hresumers, -⟩ := (Sound.after h).exists_resume hrest hlookup
    rw [State.after_succ h hstep] at hnext
    rw [← (Prod.mk.inj (Option.some.inj hnext)).1, hresumers]
  finished h := fun hlookup =>
    ⟨fun hrest => State.step_resume_finished hrest hlookup, fun hrest => by
      obtain ⟨s', hstep, hlog⟩ := State.step_isFinished hrest hlookup
      exact ⟨s', _, State.after_succ h hstep, hlog⟩⟩
  stays h := by
    intro s' p' h' slot hlookup
    obtain ⟨t, q, ht, hstep, -⟩ := State.exists_of_after_succ h'
    obtain ⟨rfl, rfl⟩ := Prod.mk.inj (Option.some.inj (h.symm.trans ht))
    exact (Sound.after h).finished_stays (State.moves_of_step hstep) hlookup

/-- A fiber passes on what the fiber in it asks for, and goes on with it after it was woken. -/
example :
    ((State.launch {} [
      .make 0 [
        .make 1 [.suspend 7 "Inner", .ret 1],
        .resume 1, .forward "Inner", .resume 1, .ret 2],
      .resume 0, .resume 0]).after 10).map (·.2.reports) =
    some [⟨some 0, 1, .suspended 7⟩, ⟨none, 0, .suspended 7⟩, ⟨some 0, 1, .finished 1⟩,
      ⟨none, 0, .finished 2⟩] := by
  rfl

end EffectHandlers.FiberScript
