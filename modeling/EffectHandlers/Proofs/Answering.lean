import EffectHandlers.Proofs.Calls
/-!
# Whoever asks a generator is answered

The generator that was called last is the first to give back control, and the code that has called
it goes on with its answer. Where each body gets to its next yield or to its end whatever it is told,
all calls come back.
-/

namespace EffectHandlers.Generator

variable {Γ : Library Content} {a a' : Producer Γ} {b b' : Behaviour Γ}
  {blocks blocks' : List (Block (Behaviour Γ))} {v : Value} {x : Reply} {c : Call Γ}
  {calls : List (Call Γ)} {r r' r'' : Family Γ} {i j t : Nat} {g : CellId}
  {next : Option Value → Behaviour Γ} {f : Producer Γ → Producer Γ}

/-! ### What a step does to the calls -/

/-- What the generator answers by doing what it was called for. -/
def Awaits.answers : Awaits Γ → List (Option Value)
  | generator _ => []
  | value _ v _ => [some v]

namespace Family

/-- A generator does not answer. -/
def Silent (r r' : Family Γ) (j : Nat) : Prop :=
  ∀ a, r.producers[j]? = some a → ∃ a', r'.producers[j]? = some a' ∧ a'.answers = a.answers

namespace Silent

theorem refl (r : Family Γ) (j : Nat) : r.Silent r j := fun a ha => ⟨a, ha, rfl⟩

theorem trans (h : r.Silent r' j) (h' : r'.Silent r'' j) : r.Silent r'' j := by
  intro a ha
  obtain ⟨a', ha', hsame⟩ := h a ha
  obtain ⟨a'', ha'', hsame'⟩ := h' a' ha'
  exact ⟨a'', ha'', hsame'.trans hsame⟩

theorem modify (h : i = j → ∀ a, (f a).answers = a.answers) : r.Silent (r.modify i f) j := by
  intro a ha
  refine ⟨_, exists_getElem?_modify ha, ?_⟩
  split
  · exact h ‹_› a
  · rfl

theorem hear : r.Silent (r.hear x) j := by
  unfold Family.hear
  cases r.calls with
  | nil => exact .refl r j
  | cons c calls => exact .modify fun _ _ => rfl

end Silent

/-- What becomes of the calls when something happens. -/
inductive Shifts (r r' : Family Γ) : Prop
  | stays (hcalls : r'.calls = r.calls) (hsilent : ∀ c ∈ r.calls, r.Silent r' c.callee)
  | calls {c : Call Γ} (hcalls : r'.calls = c :: r.calls)
      (hsilent : ∀ c ∈ r.calls, r.Silent r' c.callee)
  /-- The last call comes back, and the code that has made it goes on. -/
  | comesBack {c : Call Γ} {calls : List (Call Γ)} (hcalls : r.calls = c :: calls)
      (hback : r'.calls = calls) (hsilent : ∀ c ∈ calls, r.Silent r' c.callee)
      (hphase : r'.phase = .running (c.awaits.onward r.nextCell) c.blocks)
      (hanswers : ∀ a, r.producers[c.callee]? = some a → ∃ a',
        r'.producers[c.callee]? = some a' ∧ a'.answers = a.answers ++ c.awaits.answers)

theorem Sound.shifts_giveBack (h : r.Sound) (hphase : r.phase = .running b blocks)
    (hcalls : r.calls = c :: calls) (hf : ∀ a, (f a).answers = a.answers) :
    r.Shifts (r.modify c.callee f).giveBack := by
  have hstacked := h.stacked b blocks hphase
  rw [hcalls] at hstacked
  rw [giveBack_eq hcalls r.phase]
  cases hstacked with
  | call _ _ _ _ _ hnew =>
    refine .comesBack hcalls hear_calls (fun c' hc' => ?_) rfl fun a ha => ?_
    · have hother : r.Silent (r.pop c calls f) c'.callee :=
        .modify fun heq => absurd heq.symm (hnew c' hc')
      exact hother.trans .hear
    · have hplace : (r.pop c calls f).producers[c.callee]? =
          some ((f a).fulfil r.nextCell c.awaits) := getElem?_modify_self ha
      obtain ⟨a', ha', hsame⟩ := Silent.hear (x := c.awaits.reply r.nextCell) _ hplace
      refine ⟨a', ha', hsame.trans ?_⟩
      cases c.awaits with
      | generator next => exact (hf a).trans (List.append_nil _).symm
      | value g v next => exact congrArg (· ++ [some v]) (hf a)

theorem Sound.shifts_act (h : r.Sound) (hphase : r.phase = .running b blocks) :
    r.Shifts (r.act b blocks) := by
  have hquiet : ∀ b' blocks', r.Shifts (r.goOn b' blocks') := fun b' blocks' =>
    .stays rfl fun c _ => .refl r c.callee
  have hhears : ∀ x b' blocks', r.Shifts ((r.hear x).goOn b' blocks') := fun x b' blocks' =>
    .stays hear_calls fun c _ => .hear
  cases b with
  | done v =>
    cases hafter : Block.after v blocks with
    | some x =>
      simp only [Family.act, hafter]
      exact hquiet _ _
    | none =>
      obtain rfl := Block.after_eq_none.mp hafter
      cases hcalls : r.calls with
      | nil =>
        simp only [Family.act, hafter, hcalls]
        exact .stays hcalls.symm fun c _ => .refl r c.callee
      | cons c calls =>
        simp only [Family.act, hafter, hcalls]
        exact h.shifts_giveBack hphase hcalls fun _ => rfl
  | yield v next =>
    cases hcalls : r.calls with
    | nil =>
      simp only [Family.act, hcalls]
      exact hquiet _ _
    | cons c calls =>
      simp only [Family.act, hcalls]
      exact h.shifts_giveBack hphase hcalls fun _ => rfl
  | make item owned body next =>
    exact .calls rfl fun c _ a ha => ⟨a, getElem?_append_of_some ha, rfl⟩
  | ask g next =>
    cases hfind : r.find? g with
    | none =>
      simp only [Family.act, hfind]
      exact hhears _ _ _
    | some found =>
      obtain ⟨j, a⟩ := found
      obtain ⟨ha, -⟩ := find?_eq_some hfind
      cases hp : a.progress with
      | resting v b' blocks' =>
        simp only [Family.act, hfind, hp]
        exact .calls rfl fun c _ => Silent.modify fun _ _ => rfl
      | ended =>
        simp only [Family.act, hfind, hp]
        refine .stays hear_calls fun c hc => ?_
        have hother : r.Silent (r.modify j (.answer none)) c.callee :=
          .modify fun heq => absurd heq.symm (h.of_settled hphase ha (by simp [hp]) hc)
        exact hother.trans .hear
      | running | dropped =>
        simp only [Family.act, hfind, hp]
        exact hhears _ _ _
  | drop g next =>
    cases hfind : r.find? g with
    | none =>
      simp only [Family.act, hfind]
      exact hquiet _ _
    | some found =>
      obtain ⟨j, a⟩ := found
      cases hp : a.progress with
      | resting v b' blocks' =>
        simp only [Family.act, hfind, hp]
        exact .stays rfl fun c _ => Silent.modify fun _ _ => rfl
      | running | ended | dropped =>
        simp only [Family.act, hfind, hp]
        exact hquiet _ _
  | loop | scope | retain | release | log => exact hquiet _ _

theorem Sound.shifts (h : r.Sound) : r.Shifts r.step := by
  unfold Family.step
  split
  · exact h.shifts_act ‹_›
  · exact .stays rfl fun c _ => .refl r c.callee

/-! ### Calls that come back -/

/-- Until a call comes back, its generator does not answer; then the code that has made it goes
on. -/
theorem Sound.comes_back (h : r.Sound) (hcalls : r.calls = c :: calls) {d : Nat}
    (hbefore : ∀ i < d, (r.run i).calls ≠ calls) :
    (∃ above, (r.run d).calls = above ++ c :: calls ∧ r.Silent (r.run d) c.callee) ∨
      (r.run d).calls = calls ∧
        (∃ n, (r.run d).phase = .running (c.awaits.onward n) c.blocks) ∧
        ∀ a, r.producers[c.callee]? = some a → ∃ a', (r.run d).producers[c.callee]? = some a' ∧
          a'.answers = a.answers ++ c.awaits.answers := by
  induction d with
  | zero => exact .inl ⟨[], hcalls, .refl r c.callee⟩
  | succ d ih =>
    rcases ih fun i hi => hbefore i (Nat.lt_succ_of_lt hi) with
      ⟨above, habove, hsilent⟩ | ⟨hback, -⟩
    · rw [run_succ]
      have hmem : c ∈ (r.run d).calls := by simp [habove]
      cases (h.run d).shifts with
      | stays hcalls' hquiet =>
        exact .inl ⟨above, hcalls'.trans habove, hsilent.trans (hquiet c hmem)⟩
      | @calls c' hcalls' hquiet =>
        exact .inl ⟨c' :: above, by rw [hcalls', habove]; rfl, hsilent.trans (hquiet c hmem)⟩
      | @comesBack c' rest hcalls' hback hquiet hphase hanswers =>
        rw [habove] at hcalls'
        cases above with
        | nil =>
          obtain ⟨rfl, rfl⟩ := List.cons.inj hcalls'
          refine .inr ⟨hback, ⟨_, hphase⟩, fun a ha => ?_⟩
          obtain ⟨a', ha', hsame⟩ := hsilent a ha
          obtain ⟨a'', ha'', hanswers'⟩ := hanswers a' ha'
          exact ⟨a'', ha'', by rw [hanswers', hsame]⟩
        | cons u above =>
          obtain ⟨rfl, rfl⟩ := List.cons.inj hcalls'
          exact .inl ⟨above, hback, hsilent.trans (hquiet c (by simp))⟩
    · exact absurd hback (hbefore d (Nat.lt_succ_self d))

/-- The code that runs asks a generator which neither runs itself nor was dropped. -/
structure Asks (r : Family Γ) (g : CellId) (next : Option Value → Behaviour Γ)
    (blocks : List (Block (Behaviour Γ))) (j : Nat) (a : Producer Γ) : Prop where
  phase : r.phase = .running (.ask g next) blocks
  found : r.find? g = some (j, a)
  idle : a.progress ≠ .running
  kept : a.progress ≠ .dropped

/-- So many steps later, all that was called meanwhile has come back for the first time. -/
structure Resumes (r : Family Γ) (d : Nat) : Prop where
  pos : 0 < d
  back : (r.run d).calls = r.calls
  first : ∀ i, 0 < i → i < d → (r.run i).calls ≠ r.calls

/-- The answer is the value that the body yields next on its own, if it yields one. -/
theorem Sound.answered (h : r.Sound) (hasks : r.Asks g next blocks j a) {d : Nat}
    (hd : r.Resumes d) : (r.run d).phase = .running (next a.yields[a.answers.length]?) blocks ∧
      ∃ a', (r.run d).producers[j]? = some a' ∧
        a'.answers = a.answers ++ [a.yields[a.answers.length]?] := by
  obtain ⟨hphase, hfind, hidle, hkept⟩ := hasks
  obtain ⟨ha, hcell⟩ := find?_eq_some hfind
  obtain ⟨d, rfl⟩ := Nat.exists_eq_succ_of_ne_zero (Nat.ne_of_gt hd.pos)
  have hsettled : a.Settled := by
    rcases h.placed j a ha with ⟨hsettled, -⟩ | ⟨hp, -⟩
    · exact hsettled
    · exact absurd hp hidle
  have hstep : r.step = r.act (.ask g next) blocks := by simp only [Family.step, hphase]
  cases hsettled with
  | @resting v b' blocks' ys hp hyields hanswers _ =>
    have hnext : a.yields[a.answers.length]? = some v := by simp [hyields, hanswers]
    have hact : r.step = { r.modify j (.goOn .running) with
        calls := ⟨j, a.item, .value g v next, blocks⟩ :: r.calls
        phase := .running b' blocks' } := by
      rw [hstep]
      simp only [Family.act, hfind, hp]
    have hcalls : r.step.calls = ⟨j, a.item, .value g v next, blocks⟩ :: r.calls := by rw [hact]
    have hcalled : r.step.producers[j]? = some (a.goOn .running) := by
      rw [hact]
      exact getElem?_modify_self ha
    have hback : (r.step.run d).calls = r.calls := hd.back
    rw [hnext]
    rcases h.step.1.comes_back hcalls (d := d)
        fun i hi => hd.first (i + 1) (Nat.succ_pos i) (Nat.succ_lt_succ hi)
      with ⟨above, habove, -⟩ | ⟨-, ⟨n, hgoes⟩, hanswer⟩
    · have hlength := congrArg List.length (hback.symm.trans habove)
      simp only [List.length_append, List.length_cons] at hlength
      omega
    · have hdone := hanswer _ hcalled
      exact ⟨hgoes, hdone⟩
  | @ended n v hp hanswers _ =>
    have hnext : a.yields[a.answers.length]? = none := by simp [hanswers]
    have hact : r.step =
        ((r.modify j (.answer none)).hear (.answer none)).goOn (next none) blocks := by
      rw [hstep]
      simp only [Family.act, hfind, hp]
    have hone : d = 0 := by
      by_contra hmore
      refine hd.first 1 Nat.one_pos (Nat.succ_lt_succ (Nat.pos_of_ne_zero hmore)) ?_
      show r.step.calls = _
      rw [hact]
      exact hear_calls
    subst hone
    rw [hnext]
    show r.step.phase = _ ∧ ∃ a', r.step.producers[j]? = some a' ∧ _
    rw [hact]
    have hplace : (r.modify j (.answer none)).producers[j]? = some (a.answer none) :=
      getElem?_modify_self ha
    obtain ⟨a', ha', hsame⟩ := Silent.hear (x := .answer none) _ hplace
    exact ⟨rfl, a', ha', hsame⟩
  | dropped hp => exact absurd hp hkept

end Family

/-! ### Bodies that go on -/

/-- Whatever it is told, the code gets to a yield or to its end. -/
inductive Arrives : Behaviour Γ → List (Block (Behaviour Γ)) → Prop
  | ends {v : Value} : Arrives (.done v) []
  | yields {v : Value} {next : Behaviour Γ} {blocks : List (Block (Behaviour Γ))} :
      Arrives (.yield v next) blocks
  | after {v : Value} {b' : Behaviour Γ} {blocks blocks' : List (Block (Behaviour Γ))}
      (hafter : Block.after v blocks = some (b', blocks')) (h : Arrives b' blocks') :
      Arrives (.done v) blocks
  | make {item : Known Γ} {owned : List Owned} {body : Behaviour Γ} {next : CellId → Behaviour Γ}
      {blocks : List (Block (Behaviour Γ))} (h : ∀ g, Arrives (next g) blocks) :
      Arrives (.make item owned body next) blocks
  | ask {g : CellId} {next : Option Value → Behaviour Γ} {blocks : List (Block (Behaviour Γ))}
      (h : ∀ x, Arrives (next x) blocks) : Arrives (.ask g next) blocks
  | drop {g : CellId} {next : Behaviour Γ} {blocks : List (Block (Behaviour Γ))}
      (h : Arrives next blocks) : Arrives (.drop g next) blocks
  | loop {seed : Value} {body next : Value → Behaviour Γ} {blocks : List (Block (Behaviour Γ))}
      (h : Arrives (body seed) (.loop ⟨body, next⟩ :: blocks)) :
      Arrives (.loop seed body next) blocks
  | scope {owned : List Owned} {body : Behaviour Γ} {next : Value → Behaviour Γ}
      {blocks : List (Block (Behaviour Γ))} (h : Arrives body (.scope next :: blocks)) :
      Arrives (.scope owned body next) blocks
  | retain {o : Owned} {next : Behaviour Γ} {blocks : List (Block (Behaviour Γ))}
      (h : Arrives next blocks) : Arrives (.retain o next) blocks
  | release {os : List Owned} {next : Behaviour Γ} {blocks : List (Block (Behaviour Γ))}
      (h : Arrives next blocks) : Arrives (.release os next) blocks
  | log {text : String} {next : Behaviour Γ} {blocks : List (Block (Behaviour Γ))}
      (h : Arrives next blocks) : Arrives (.log text next) blocks

/-- Whatever it is told, a body gets from its start, and from each of its yields, to its next yield
or to its end. -/
structure Productive (body : Behaviour Γ) : Prop where
  start : Arrives body []
  next : ∀ n replies v b blocks ys rest,
    Solo.step^[n] { code := body, replies } = ⟨.yield v b, blocks, ys, rest⟩ → Arrives b blocks

/-- A body that yields a sequence is productive, whether the sequence ends or not. -/
theorem productive_each (f : Nat → Option Value) : Productive (Γ := Γ) (Behaviour.each f).void := by
  have hstop : Block.after (Comp.stop .unit)
      [.loop ⟨Behaviour.round (Γ := Γ) f, fun _ => .done .unit⟩] =
        some (.done .unit, []) := rfl
  have hagain : ∀ n : Value, Block.after (Comp.again n)
      [.loop ⟨Behaviour.round (Γ := Γ) f, fun _ => .done .unit⟩] =
        some (.round f n, [.loop ⟨.round f, fun _ => .done .unit⟩]) := fun _ => rfl
  have hround : ∀ n : Value, Arrives (Γ := Γ) (.round f n)
      [.loop ⟨.round f, fun _ => .done .unit⟩] := by
    intro n
    unfold Behaviour.round
    split
    · exact .yields
    · exact .after hstop .ends
  refine ⟨.loop (hround _), fun n replies v b blocks ys rest hn => ?_⟩
  have henumerates : Enumerates (Γ := Γ) f
      (Solo.step^[n] { code := (Behaviour.each f).void, replies }) := Enumerates.start.iterate n
  rw [hn] at henumerates
  generalize hs : (⟨.yield v b, blocks, ys, rest⟩ : Solo Γ) = s at henumerates
  have hcode : s.code = .yield v b := hs ▸ rfl
  have hblocks : s.blocks = blocks := hs ▸ rfl
  cases henumerates with
  | start | yielded | stopped | ended => cases hcode
  | round =>
    unfold Behaviour.round at hcode
    split at hcode
    · obtain ⟨-, rfl⟩ := Behaviour.yield.inj hcode
      rw [← hblocks]
      exact .after (hagain _) (hround _)
    · cases hcode

/-- A generator that rests goes on to its next yield or to its end. -/
theorem Producer.Settled.arrives (h : a.Settled) (hproductive : Productive a.body)
    (hp : a.progress = .resting v b blocks) : Arrives b blocks := by
  cases h with
  | resting hp' _ _ hreaches =>
    cases hp.symm.trans hp'
    obtain ⟨n, hn⟩ := hreaches
    exact hproductive.next n _ _ _ _ _ _ (hn [])
  | ended hp' | dropped hp' => cases hp.symm.trans hp'

theorem Family.Sound.arrives (h : r.Sound) (ha : r.producers[j]? = some a)
    (hproductive : Productive a.body) (hp : a.progress = .resting v b blocks) :
    Arrives b blocks := by
  rcases h.placed j a ha with ⟨hsettled, -⟩ | ⟨hrunning, -⟩
  · exact hsettled.arrives hproductive hp
  · cases hp.symm.trans hrunning

/-! ### Calls come back -/

/-- No generator is called while it runs. -/
theorem Stacked.length_le {ps : List (Producer Γ)} (h : Stacked ps b blocks calls) :
    calls.length ≤ ps.length := by
  have hnodup : (calls.map Call.callee).Nodup := by
    induction h with
    | main => exact List.nodup_nil
    | call _ _ _ _ _ hnew _ _ ih =>
      refine List.nodup_cons.mpr ⟨fun hmem => ?_, ih⟩
      obtain ⟨c, hc, heq⟩ := List.mem_map.mp hmem
      exact hnew c hc heq
  have hsub : calls.map Call.callee ⊆ List.range ps.length := fun j hj => by
    obtain ⟨c, hc, rfl⟩ := List.mem_map.mp hj
    obtain ⟨a, ha, -⟩ := h.running hc
    exact List.mem_range.mpr (List.getElem?_eq_some_iff.mp ha).1
  simpa using (hnodup.subperm hsub).length_le

namespace Family

/-- A generator that rests is called. Where there is none, the code goes on at once. -/
theorem act_ask_calls (r : Family Γ) (g : CellId) (next : Option Value → Behaviour Γ)
    (blocks : List (Block (Behaviour Γ))) :
    ((r.act (.ask g next) blocks).phase = .running (next none) blocks ∧
        (r.act (.ask g next) blocks).calls = r.calls) ∨
      ∃ (j : Nat) (a : Producer Γ) (v : Value) (b' : Behaviour Γ)
        (blocks' : List (Block (Behaviour Γ))), r.producers[j]? = some a ∧
          a.progress = .resting v b' blocks' ∧
          (r.act (.ask g next) blocks).phase = .running b' blocks' ∧
          (r.act (.ask g next) blocks).calls = ⟨j, a.item, .value g v next, blocks⟩ :: r.calls := by
  cases hfind : r.find? g with
  | none =>
    simp only [act, hfind]
    exact .inl ⟨rfl, hear_calls⟩
  | some found =>
    obtain ⟨j, a⟩ := found
    obtain ⟨ha, -⟩ := find?_eq_some hfind
    cases hp : a.progress with
    | resting v b' blocks' =>
      simp only [act, hfind, hp]
      exact .inr ⟨j, a, v, b', blocks', ha, hp, rfl, rfl⟩
    | ended | running | dropped =>
      simp only [act, hfind, hp]
      exact .inl ⟨rfl, hear_calls⟩

theorem act_drop_calls (r : Family Γ) (g : CellId) (next : Behaviour Γ)
    (blocks : List (Block (Behaviour Γ))) :
    (r.act (.drop g next) blocks).phase = .running next blocks ∧
      (r.act (.drop g next) blocks).calls = r.calls := by
  cases hfind : r.find? g with
  | none =>
    simp only [act, hfind]
    exact ⟨rfl, rfl⟩
  | some found =>
    obtain ⟨j, a⟩ := found
    cases hp : a.progress <;> simp only [act, hfind, hp] <;> exact ⟨rfl, rfl⟩

theorem giveBack_calls (hcalls : r.calls = c :: calls) :
    (r.modify c.callee f).giveBack.calls = calls ∧
      (r.modify c.callee f).giveBack.phase = .running (c.awaits.onward r.nextCell) c.blocks := by
  rw [giveBack_eq hcalls r.phase]
  exact ⟨hear_calls, rfl⟩

section Productive

variable {N : Nat}

/-- The code that runs for a call gets to a yield or to its end, as the generators that it calls do
so meanwhile. There are fewer of them than there are generators, since those below run. -/
theorem Sound.exists_back (h : r.Sound) (hfew : ∀ t, (r.run t).producers.length ≤ N)
    (hproductive : ∀ (t j : Nat) (a : Producer Γ), (r.run t).producers[j]? = some a →
      Productive a.body) (d : Nat) :
    ∀ t c calls b blocks, N < d + (calls.length + 1) → (r.run t).phase = .running b blocks →
      (r.run t).calls = c :: calls → Arrives b blocks → ∃ t' > t, (r.run t').calls = calls ∧
        ∃ n, (r.run t').phase = .running (c.awaits.onward n) c.blocks := by
  induction d with
  | zero =>
    intro t c calls b blocks hN hphase hcalls _
    have hdeep := ((h.run t).stacked b blocks hphase).length_le.trans (hfew t)
    rw [hcalls, List.length_cons] at hdeep
    omega
  | succ d ih =>
    intro t c calls b blocks hN hphase hcalls harrives
    have hlater : ∀ {t₀ t₁ : Nat} {p : Nat → Prop}, t₀ ≤ t₁ → (∃ t' > t₁, p t') → ∃ t' > t₀, p t' :=
      fun hle ⟨t', ht', hp⟩ => ⟨t', Nat.lt_of_le_of_lt hle ht', hp⟩
    induction harrives generalizing t with
    | @ends v =>
      have hnext : r.run (t + 1) = ((r.run t).modify c.callee (.goOn .ended)).giveBack := by
        rw [run_succ]
        simp only [Family.step, hphase, Family.act, Block.after, hcalls]
      obtain ⟨hback, hgoes⟩ := giveBack_calls (f := .goOn .ended) hcalls
      rw [← hnext] at hback hgoes
      exact ⟨t + 1, Nat.lt_succ_self t, hback, _, hgoes⟩
    | @yields v next blocks =>
      have hnext : r.run (t + 1) = ((r.run t).modify c.callee (.rest v next blocks)).giveBack := by
        rw [run_succ]
        simp only [Family.step, hphase, Family.act, hcalls]
      obtain ⟨hback, hgoes⟩ := giveBack_calls (f := .rest v next blocks) hcalls
      rw [← hnext] at hback hgoes
      exact ⟨t + 1, Nat.lt_succ_self t, hback, _, hgoes⟩
    | @after v b' blocks blocks' hafter _ ih' =>
      have hnext : r.run (t + 1) = (r.run t).goOn b' blocks' := by
        rw [run_succ]
        simp only [Family.step, hphase, Family.act, hafter]
      exact hlater (Nat.le_succ t) (ih' (t + 1) (by rw [hnext]; rfl) (by rw [hnext]; exact hcalls))
    | @make item owned body next blocks _ ih' =>
      have hnext : r.run (t + 1) = (r.run t).act (.make item owned body next) blocks := by
        rw [run_succ]
        simp only [Family.step, hphase]
      have hplace : (r.run (t + 1)).producers[(r.run t).producers.length]? =
          some { item, body := body.void } := by
        rw [hnext]
        exact List.getElem?_concat_length
      have hcalls' : (r.run (t + 1)).calls =
          ⟨(r.run t).producers.length, item, .generator next, blocks⟩ :: c :: calls := by
        rw [hnext, ← hcalls]
        rfl
      obtain ⟨t', ht', hback, n, hgoes⟩ := ih (t + 1) _ _ body.void [] (by simp; omega)
        (by rw [hnext]; rfl) hcalls' (hproductive _ _ _ hplace).start
      exact hlater (Nat.le_of_lt (Nat.lt_of_succ_lt ht')) (ih' n t' hgoes hback)
    | @ask g next blocks _ ih' =>
      have hnext : r.run (t + 1) = (r.run t).act (.ask g next) blocks := by
        rw [run_succ]
        simp only [Family.step, hphase]
      have hasked := act_ask_calls (r.run t) g next blocks
      rw [← hnext, hcalls] at hasked
      rcases hasked with ⟨hgoes, hcalls'⟩ | ⟨j, a, v, b', blocks', ha, hp, hgoes, hcalls'⟩
      · exact hlater (Nat.le_succ t) (ih' none (t + 1) hgoes hcalls')
      · obtain ⟨t', ht', hback, n, hgoes'⟩ := ih (t + 1) _ _ b' blocks' (by simp; omega) hgoes
          hcalls' ((h.run t).arrives ha (hproductive t j a ha) hp)
        exact hlater (Nat.le_of_lt (Nat.lt_of_succ_lt ht')) (ih' (some v) t' hgoes' hback)
    | @drop g next blocks _ ih' =>
      have hnext : r.run (t + 1) = (r.run t).act (.drop g next) blocks := by
        rw [run_succ]
        simp only [Family.step, hphase]
      obtain ⟨hgoes, hcalls'⟩ := act_drop_calls (r.run t) g next blocks
      rw [← hnext] at hgoes hcalls'
      exact hlater (Nat.le_succ t) (ih' (t + 1) hgoes (hcalls'.trans hcalls))
    | loop _ ih' | scope _ ih' | retain _ ih' | release _ ih' | log _ ih' =>
      refine hlater (Nat.le_succ t) (ih' (t + 1) ?_ ?_)
      · rw [run_succ]
        simp only [Family.step, hphase]
        rfl
      · rw [run_succ]
        simp only [Family.step, hphase]
        exact hcalls

/-- Whoever asks is answered if all bodies are productive. -/
theorem Sound.exists_resumes (h : r.Sound) (hfew : ∀ t, (r.run t).producers.length ≤ N)
    (hproductive : ∀ (t j : Nat) (a : Producer Γ), (r.run t).producers[j]? = some a →
      Productive a.body) (hphase : r.phase = .running (.ask g next) blocks) :
    ∃ d, r.Resumes d := by
  have hback : ∃ d, 0 < d ∧ (r.run d).calls = r.calls := by
    have hnext : r.run 1 = r.act (.ask g next) blocks := by
      rw [run_succ]
      show r.step = _
      simp only [Family.step, hphase]
    have hasked := act_ask_calls r g next blocks
    rw [← hnext] at hasked
    rcases hasked with ⟨-, hcalls⟩ | ⟨j, a, v, b', blocks', ha, hp, hgoes, hcalls⟩
    · exact ⟨1, Nat.one_pos, hcalls⟩
    · obtain ⟨t, ht, hback, -⟩ := h.exists_back hfew hproductive (N + 1) 1 _ _ b' blocks' (by omega)
        hgoes hcalls (h.arrives ha (hproductive 0 j a ha) hp)
      exact ⟨t, Nat.zero_lt_of_lt ht, hback⟩
  classical
  obtain ⟨hpos, hcalls⟩ := Nat.find_spec hback
  exact ⟨Nat.find hback, hpos, hcalls, fun i hi hlt heq => Nat.find_min hback hlt ⟨hi, heq⟩⟩

end Productive

end Family

end EffectHandlers.Generator
