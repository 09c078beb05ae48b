import EffectHandlers.Proofs.Mail
/-!
# The code of actors

Whatever the actors of a pool do, their continuations are where the pool knows about them. The code
of an actor is anything that works on cells, owns things for a while, loops, gives up control and
adds actors, as long as it does not write pools. Evaluations of such code are followed from one point
at which an actor has control to the next one, down to the end of the run.
-/

namespace EffectHandlers.Actor

open Evaluation (Leads Turns)
open Roster (spawn_eq clauseFor_fork onReturn_shown)

/-- Code that an actor of a pool may run. -/
inductive Acts (pool : CellId) : Comp Content → Prop
  | done (v : Value) : Acts pool (.done v)
  | record {e next} (hnext : Acts pool next) : Acts pool (.record e next)
  | alloc {content next} (hnext : ∀ c, Acts pool (next c)) : Acts pool (.alloc content next)
  | read {c next} (hnext : ∀ content, Acts pool (next content)) : Acts pool (.read c next)
  | write {c content next} (hcontent : ∀ p, content ≠ .pool p) (hnext : Acts pool next) :
      Acts pool (.write c content next)
  | retain {o next} (hnext : Acts pool next) : Acts pool (.retain o next)
  | release {os next} (hnext : Acts pool next) : Acts pool (.release os next)
  /-- Guards are owned while a body runs. -/
  | scope {os body next} (hbody : Acts pool body) (hnext : ∀ v, Acts pool (next v)) :
      Acts pool (.scope os body next)
  | loop {seed body next} (hbody : ∀ v, Acts pool (body v)) (hnext : ∀ v, Acts pool (next v)) :
      Acts pool (.loop seed body next)
  | yield {next} (hnext : Acts pool (next ())) : Acts pool (Actor.yield pool next)
  | spawn {owned body next} (hbody : ∀ child, child.pool = pool → Acts pool (body child).toComp)
      (hnext : ∀ child, child.pool = pool → Acts pool (next child)) :
      Acts pool (Actor.spawn pool owned body next)

/-- A frame of such code. -/
inductive Above (pool : CellId) : Frame Content → Prop
  | bind {next} (hnext : ∀ v, Acts pool (next v)) : Above pool (.bind next)
  | looping {body next} (hbody : ∀ v, Acts pool (body v)) (hnext : ∀ v, Acts pool (next v)) :
      Above pool (.looping body next)

/-- The code that starts an actor. -/
def debut (pool waiting : CellId) (owned : List Owned) (body : Task Value) : Comp Content :=
  (Prog.scope [.cell pool] (start pool waiting owned body)).toComp

/-- The continuation of a parked actor, with the installation under which it runs if it has
started. -/
inductive Rests (pool : CellId) (installed : Store Handler) :
    Option InstallationId → Continuation Content → Prop
  | started {U i} (hU : ∀ f ∈ U, Above pool f) (hi : installed.find? i = some (shown pool)) :
      Rests pool installed (some i) (.context "()" (U ++ [.handling i]))
  | fresh {waiting owned body} (hbody : Acts pool body.toComp) :
      Rests pool installed none (.function "()" fun _ => debut pool waiting owned body)

/-- A parked actor, with the installation under which it runs if it has started. -/
structure Seat where
  actor : ParkedActor
  home : Option InstallationId

/-- The resumption of a parked actor. -/
def Seat.resumption (x : Seat) : ResumptionId := x.actor.resumption

/-- What is stored while a pool is at work: the resumptions are those of its parked actors. -/
structure Pools (pool : CellId) (s : Evaluation Content) (p : ActorPool) (seats : List Seat) :
    Prop where
  stored : s.cells.find? pool = some (.pool p)
  issued : pool < s.cells.next
  label : p.label = -1
  active : p.active = seats.map Seat.actor
  rests : ∀ x ∈ seats, ∃ k, s.resumptions.find? x.resumption = some k ∧
    Rests pool s.installed x.home k
  distinct : (seats.map Seat.resumption).Nodup
  apart : (seats.filterMap Seat.home).Nodup
  only : ∀ ρ k, s.resumptions.find? ρ = some k → ρ ∈ seats.map Seat.resumption
  resumptions : s.resumptions.WellFormed
  installed : s.installed.WellFormed
  closures : s.closures.entries = []
  pending : s.pending = none
  declared : s.declared = [handlerName]
  nextLabel : s.nextLabel = -2

/-- An actor has control, under an installation of its own. -/
structure Has (pool : CellId) (s : Evaluation Content) (p : ActorPool) (seats : List Seat)
    (U : List (Frame Content)) (i : InstallationId) (F : List (Frame Content)) : Prop where
  pools : Pools pool s p seats
  frames : s.frames = U ++ .handling i :: F
  above : ∀ f ∈ U, Above pool f
  home : s.installed.find? i = some (shown pool)
  away : i ∉ seats.filterMap Seat.home
  shell : Shell pool F

/-- An actor has control and goes on. -/
inductive Busy (pool : CellId) (s : Evaluation Content) : Prop
  | code {p S U i F c} (h : Has pool s p S U i F) (hs : s.phase = .eval c) (hc : Acts pool c)
  | value {p S U i F v} (h : Has pool s p S U i F) (hs : s.phase = .ret v)

/-- An evaluation is about to end, and no closure is left. -/
structure Returned (s : Evaluation Content) : Prop where
  frames : s.frames = []
  phase : ∃ v, s.phase = .ret v
  pending : s.pending = none
  closures : s.closures.entries = []

/-- A run is over: no resumption is left, or all that are left are released now. -/
inductive Closes (Γ : Library Content) (s : Evaluation Content) : Prop
  | finished (h : Returned s) (hnone : ∀ ρ, s.resumptions.find? ρ = none)
  | deadlocked {os next} (hs : s.phase = .eval (.release os next))
      (hall : ∀ ρ k, s.resumptions.find? ρ = some k → .resumption ρ ∈ os)
      (hnext : Leads Γ (fun _ => True) (fun t => Returned t ∧ t.resumptions = s.resumptions)
        (s.step Γ))

variable {Γ : Library Content} {R : Evaluation Content → Prop} {pool : CellId}
  {s : Evaluation Content} {p : ActorPool} {seats : List Seat} {U F : List (Frame Content)}
  {i : InstallationId} {c : Comp Content} {v : Value}

/-- The run of a pool goes on, or it is over. -/
def Goes (Γ : Library Content) (pool : CellId) (s : Evaluation Content) : Prop :=
  Leads Γ (fun _ => True) (fun t => Busy pool t ∨ Closes Γ t) s

/-- The run of a pool goes on after some step, or it is over. -/
def Moves (Γ : Library Content) (pool : CellId) (s : Evaluation Content) : Prop :=
  Turns Γ (fun _ => True) (fun _ => True) (fun t => Busy pool t ∨ Closes Γ t) s

theorem Above.isCode {f : Frame Content} (h : Above pool f) : f.isCode = true := by
  cases h <;> rfl

theorem Rests.answer {k : Continuation Content} {installed : Store Handler}
    {home : Option InstallationId} (h : Rests pool installed home k) : k.answer = "()" := by
  cases h <;> rfl

/-- Handlers that are installed later do not matter to a parked actor. -/
theorem Rests.mono {k : Continuation Content} {installed installed' : Store Handler}
    {home : Option InstallationId} (h : Rests pool installed home k)
    (hsame : ∀ j, home = some j → installed'.find? j = installed.find? j) :
    Rests pool installed' home k := by
  cases h with
  | started hU hi => exact .started hU ((hsame _ rfl).trans hi)
  | fresh hbody => exact .fresh hbody

namespace Pools

/-- The home of a parked actor was installed. -/
theorem home_lt (h : Pools pool s p seats) {j : InstallationId}
    (hj : j ∈ seats.filterMap Seat.home) : s.installed.find? j = some (shown pool) := by
  obtain ⟨x, hx, hhome⟩ := List.mem_filterMap.mp hj
  obtain ⟨k, -, hrests⟩ := h.rests x hx
  rw [hhome] at hrests
  cases hrests with
  | started _ hi => exact hi

/-- What is seen of the pool itself is what was written there last. -/
theorem find?_writePool (h : Pools pool s p seats) (p' : ActorPool) :
    (s.cells.modify pool fun _ => .pool p').find? pool = some (.pool p') := by
  rw [Store.find?_modify, if_pos rfl, h.stored]
  rfl

/-- A parked actor is chosen, and its resumption is used up. -/
theorem choose {l₁ l₂ : List Seat} {x : Seat} (h : Pools pool s p (l₁ ++ x :: l₂)) :
    Pools pool { s with
        cells := s.cells.modify pool fun _ =>
          .pool { p with active := (l₁ ++ l₂).map Seat.actor, current := x.actor.waiting }
        resumptions := s.resumptions.erase x.resumption }
      { p with active := (l₁ ++ l₂).map Seat.actor, current := x.actor.waiting } (l₁ ++ l₂) := by
  have hsub : (l₁ ++ l₂).Sublist (l₁ ++ x :: l₂) :=
    List.Sublist.append_left (List.sublist_cons_self x l₂) l₁
  have hdistinct : ((x :: (l₁ ++ l₂)).map Seat.resumption).Nodup :=
    (List.perm_middle.map _).nodup_iff.mp h.distinct
  rw [List.map_cons, List.nodup_cons] at hdistinct
  have hne : ∀ y ∈ l₁ ++ l₂, y.resumption ≠ x.resumption := fun y hy heq =>
    hdistinct.1 (heq ▸ List.mem_map_of_mem hy)
  refine { h with
    stored := h.find?_writePool _
    active := rfl
    rests := fun y hy => ?_
    distinct := hdistinct.2
    apart := h.apart.sublist (hsub.filterMap _)
    only := fun ρ k hk => ?_
    resumptions := Store.wellFormed_erase h.resumptions _ }
  · obtain ⟨k, hk, hrests⟩ := h.rests y (hsub.subset hy)
    refine ⟨k, ?_, hrests⟩
    rw [Store.find?_erase h.resumptions, if_neg (hne y hy)]
    exact hk
  · rw [Store.find?_erase h.resumptions] at hk
    split at hk
    · cases hk
    · rename_i hρ
      have hmem := (List.perm_middle.map Seat.resumption).mem_iff.mp (h.only ρ k hk)
      exact (List.mem_cons.mp hmem).resolve_left hρ

/-- An actor is parked behind the others, with the newest resumption. -/
theorem park {k : Continuation Content} {R : Store (Continuation Content)}
    {C : Store (Value → Comp Content)} {x : Seat} (h : Pools pool s p seats)
    (hρ : s.resumptions.next ≤ x.resumption) (hwf : R.WellFormed)
    (hfound : R.find? x.resumption = some k)
    (hsame : ∀ ρ, ρ ≠ x.resumption → R.find? ρ = s.resumptions.find? ρ)
    (hclosures : C.entries = []) (hk : Rests pool s.installed x.home k)
    (haway : ∀ j, x.home = some j → j ∉ seats.filterMap Seat.home) :
    Pools pool { s with
        cells := s.cells.modify pool fun _ => .pool { p with active := p.active ++ [x.actor] }
        resumptions := R, closures := C }
      { p with active := p.active ++ [x.actor] } (seats ++ [x]) := by
  have hnew : ∀ y ∈ seats, y.resumption ≠ x.resumption := by
    intro y hy heq
    obtain ⟨k', hk', -⟩ := h.rests y hy
    have hlt := Store.lt_next h.resumptions hk'
    rw [heq] at hlt
    exact Nat.lt_irrefl _ (hlt.trans_le hρ)
  refine { h with
    stored := h.find?_writePool _
    active := by simp [h.active]
    rests := fun y hy => ?_
    distinct := ?_
    apart := ?_
    only := fun ρ k' hk' => ?_
    resumptions := hwf
    closures := hclosures }
  · rcases List.mem_append.mp hy with hy | hy
    · obtain ⟨k', hk', hrests⟩ := h.rests y hy
      exact ⟨k', (hsame _ (hnew y hy)).trans hk', hrests⟩
    · obtain rfl := List.mem_singleton.mp hy
      exact ⟨k, hfound, hk⟩
  · rw [List.map_append, List.nodup_append]
    refine ⟨h.distinct, List.nodup_singleton _, fun a ha b hb => ?_⟩
    obtain ⟨y, hy, rfl⟩ := List.mem_map.mp ha
    obtain rfl : b = x.resumption := by simpa using hb
    exact hnew y hy
  · rw [List.filterMap_append]
    cases hhome : x.home with
    | none => simpa [hhome] using h.apart
    | some j =>
      have hj := haway j hhome
      refine List.nodup_append.mpr ⟨h.apart, by simp [hhome], fun a ha b hb => ?_⟩
      obtain rfl : b = j := by simpa [hhome, eq_comm] using hb
      exact fun heq => hj (heq ▸ ha)
  · rw [List.map_append, List.mem_append]
    by_cases hne : ρ = x.resumption
    · exact .inr (by simp [hne])
    · exact .inl (h.only ρ k' ((hsame ρ hne).symm.trans hk'))

end Pools

/-! ### Single operations -/

namespace Has

/-- The actor goes on with other code. -/
theorem goOn (h : Has pool s p seats U i F) (hc : Acts pool c) : Goes Γ pool (s.goOn (.eval c)) :=
  .here trivial (.inl (.code (p := p) (S := seats) (U := U) (i := i) (F := F)
    { h with pools := { h.pools with } } rfl hc))

/-- The actor goes on with a value. -/
theorem goOn_value (h : Has pool s p seats U i F) (v : Value) : Goes Γ pool (s.goOn (.ret v)) :=
  .here trivial (.inl (.value (p := p) (S := seats) (U := U) (i := i) (F := F)
    { h with pools := { h.pools with } } rfl))

/-- The actor pushes a frame, and goes on with other code. -/
theorem push {f : Frame Content} (h : Has pool s p seats U i F) (hf : Above pool f)
    (hc : Acts pool c) : Goes Γ pool ((s.push f).goOn (.eval c)) := by
  have hpushed : Has pool (s.push f) p seats (f :: U) i F :=
    { h with
      pools := { h.pools with }
      frames := by simp [Evaluation.push, h.frames]
      above := fun g hg => by
        rcases List.mem_cons.mp hg with rfl | hg
        · exact hf
        · exact h.above g hg }
  exact hpushed.goOn hc

end Has

/-! ### Giving control to an actor -/

/-- The pool looks at the flags of its actors and finds one of them, or none. -/
theorem leads_find {l : List ParkedActor}
    {k : Option (ParkedActor × List ParkedActor) → Comp Content}
    (hfound : ∀ l₁ a l₂, l = l₁ ++ a :: l₂ →
      Leads Γ (fun _ => True) R (s.goOn (.eval (k (some (a, l₁ ++ l₂))))))
    (hnone : Leads Γ (fun _ => True) R (s.goOn (.eval (k none)))) :
    Leads Γ (fun _ => True) R (s.goOn (.eval (firstReady l k))) := by
  induction l generalizing k with
  | nil => exact hnone
  | cons a l ih =>
    obtain ⟨g, hg, hflag⟩ : ∃ g : (Value → Comp Content) → Content → Comp Content,
        (∀ k, Task.readValue a.waiting k = .read a.waiting (g k)) ∧
          ∀ x, ∃ flag, ∀ k, g k x = k flag :=
      ⟨_, fun _ => rfl, fun x => by cases x <;> exact ⟨_, fun _ => rfl⟩⟩
    obtain ⟨flag, hflag⟩ := hflag ((s.cells.find? a.waiting).getD default)
    have hcode : firstReady (a :: l) k = Task.readValue a.waiting fun flag =>
        if flag.isTrue then firstReady l fun found =>
          found.elim (k none) fun x => k (some (x.1, a :: x.2))
        else k (some (a, l)) := by
      refine congrArg (Task.readValue a.waiting) (funext fun flag => ?_)
      by_cases hflag : flag.isTrue = true
      · simp only [hflag, if_true]
        refine congrArg (firstReady l) (funext fun found => ?_)
        cases found <;> rfl
      · simp only [hflag, Bool.false_eq_true, if_false]
        rfl
    have hstep : (s.goOn (.eval (firstReady (a :: l) k))).step Γ = s.goOn (.eval
        (if flag.isTrue then firstReady l fun found =>
          found.elim (k none) fun x => k (some (x.1, a :: x.2))
        else k (some (a, l)))) := by
      rw [hcode, hg]
      exact congrArg (fun c => s.goOn (.eval c)) (hflag _)
    refine .of_step trivial hstep ?_
    split
    · refine ih (fun l₁ b l₂ hl => ?_) hnone
      exact hfound (a :: l₁) b l₂ (by rw [hl]; rfl)
    · exact hfound [] a l rfl

/-- What is left to do once a handler of the pool has answered. -/
theorem Shell.returns (h : Shell pool F) (hpool : s.cells.find? pool = some (.pool p))
    (hpending : s.pending = none) (hclosures : s.closures.entries = [])
    (hframes : s.frames = F) (hR : ∀ t, Returned t → t.resumptions = s.resumptions → R t) :
    Leads Γ (fun _ => True) R (s.goOn (.ret v)) := by
  induction h generalizing s v with
  | base =>
    refine .bind trivial hframes ?_
    rw [reportTask_eq]
    exact .read trivial hpool (.done trivial (.bind trivial rfl (.done trivial (.here trivial
      (hR _ ⟨rfl, ⟨_, rfl⟩, hpending, hclosures⟩ rfl)))))
  | pass _ ih =>
    exact .bind trivial hframes (.done trivial (ih hpool hpending hclosures rfl hR))
  | answer _ ih => exact .answering trivial hframes hpending (ih hpool hpending hclosures rfl hR)

/-- The installation under which an actor starts is a new one. -/
theorem Pools.start (h : Pools pool s p seats) (waiting : CellId) :
    Pools pool { s with
        cells := s.cells.modify pool fun _ => .pool { p with current := waiting }
        installed := (s.installed.insert (shown pool)).2 }
      { p with current := waiting } seats :=
  { h with
    stored := h.find?_writePool _
    rests := fun x hx => by
      obtain ⟨k, hk, hrests⟩ := h.rests x hx
      refine ⟨k, hk, hrests.mono fun j hj => ?_⟩
      have hlt := Store.lt_next h.installed
        (h.home_lt (List.mem_filterMap.mpr ⟨x, hx, hj⟩))
      rw [Store.find?_insert, if_neg (Nat.ne_of_lt hlt)]
    installed := Store.wellFormed_insert h.installed _ }

/-- The pool gives control to an actor that does not wait, or it is in deadlock and releases all. -/
theorem Pools.wakes (h : Pools pool s p seats)
    (hframes : s.frames = .answering "()" :: F) (hshell : Shell pool F) :
    Goes Γ pool (s.goOn (.eval (Actor.wake pool).toComp)) := by
  refine .read trivial h.stored (leads_find (fun l₁ a l₂ hl => ?_) ?_)
  · obtain ⟨s₁, x, s₂, rfl, rfl, rfl, rfl⟩ : ∃ s₁ x s₂, seats = s₁ ++ x :: s₂ ∧
        l₁ = s₁.map Seat.actor ∧ a = x.actor ∧ l₂ = s₂.map Seat.actor := by
      rw [h.active] at hl
      obtain ⟨s₁, rest, rfl, rfl, hrest⟩ := List.map_eq_append_iff.mp hl
      obtain ⟨x, s₂, rfl, rfl, rfl⟩ := List.map_eq_cons_iff.mp hrest
      exact ⟨s₁, x, s₂, rfl, rfl, rfl, rfl⟩
    obtain ⟨κ, hκ, hrests⟩ := h.rests x (by simp)
    let p' : ActorPool := { p with
      active := s₁.map Seat.actor ++ s₂.map Seat.actor, current := x.actor.waiting }
    have hchosen : Pools pool { s with
        cells := s.cells.modify pool fun _ => .pool p'
        resumptions := s.resumptions.erase x.resumption } p' (s₁ ++ s₂) := by
      have hchoose := h.choose
      rwa [List.map_append] at hchoose
    refine .write trivial (.release trivial (.tailResume trivial hκ h.pending (.done trivial
      (.answering_pending trivial hframes rfl hrests.answer ?_))))
    have haway : ∀ j, x.home = some j → j ∉ (s₁ ++ s₂).filterMap Seat.home := by
      intro j hj
      have hnodup := (List.perm_middle.filterMap Seat.home).nodup_iff.mp h.apart
      rw [List.filterMap_cons, hj] at hnodup
      exact (List.nodup_cons.mp hnodup).1
    cases hhome : x.home with
    | some j =>
      rw [hhome] at hrests
      cases hrests with
      | started hU hi =>
        refine .enter_context trivial (.here trivial (.inl (.value (p := p') (S := s₁ ++ s₂) (F := F)
          ⟨{ hchosen with pending := rfl }, ?_, hU, hi, haway j hhome, hshell⟩ rfl)))
        exact (List.append_assoc ..).trans rfl
    | none =>
      rw [hhome] at hrests
      cases hrests with
      | @fresh waiting owned body hbody =>
        have hdeclare : Evaluation.declare s handlerName (Γ.handlerType handlerName) =
            .ok [handlerName] := by simp [Evaluation.declare, h.declared]
        have hstarted := hchosen.start waiting
        have hnew : s.installed.next ∉ (s₁ ++ s₂).filterMap Seat.home := fun hmem =>
          Nat.lt_irrefl _ (Store.lt_next h.installed (hchosen.home_lt hmem))
        exact .enter_function trivial (.scope trivial (leads_start (p := p') trivial trivial
          hchosen.stored h.label h.nextLabel hdeclare (.here trivial (.inl (.code (U := [])
            (p := { p' with current := waiting })
            ⟨{ hstarted with pending := rfl, declared := rfl, nextLabel := rfl }, rfl,
              fun _ hf => absurd hf List.not_mem_nil, Store.find?_insert_self .., hnew,
              .pass (.pass (.answer hshell))⟩ rfl hbody)))))
  · refine .write trivial (.record trivial (.here trivial (.inr (.deadlocked rfl ?_ ?_))))
    · intro ρ k hk
      obtain ⟨x, hx, rfl⟩ := List.mem_map.mp (h.only ρ k hk)
      rw [h.active]
      exact List.mem_flatMap.mpr ⟨x.actor, List.mem_map_of_mem hx, by simp [ParkedActor.owned, Seat.resumption]⟩
    · exact .done trivial (.answering trivial hframes h.pending
        (hshell.returns (h.find?_writePool _) h.pending h.closures rfl
          fun t ht hsame => ⟨ht, hsame⟩))

/-! ### Operations on the pool -/

/-- An actor that gives up control is parked behind the others. -/
theorem Has.yields {next : Unit → Comp Content} (hΓ : Γ.handlerType handlerName = handler)
    (h : Has pool s p seats U i F) (hnext : Acts pool (next ())) :
    Moves Γ pool (s.goOn (.eval (yield pool next))) := by
  have hcode : ∀ f ∈ U, f.isCode = true := fun f hf => (h.above f hf).isCode
  have hlabel : p.label ≠ bottomLabel ∧ p.label ≠ retiredLabel := by
    rw [h.pools.label]
    decide
  have hdispatch := Evaluation.dispatch_labelled h.frames hcode h.home h.pools.label.symm hlabel
    (clauseFor_yield hΓ pool)
  have hpool := h.pools.stored
  refine .read trivial hpool (.invoke trivial hdispatch h.home (answer_shown hΓ _) h.frames hcode ?_)
  refine .read trivial hpool (.retain trivial (.take trivial (Store.find?_insert_self ..)
    (.read trivial hpool (.write_turns trivial ?_))))
  -- the continuation has moved from one resumption to the next one
  have hparked := h.pools.park (x := ⟨⟨p.current, s.resumptions.next + 1⟩, some i⟩)
    (k := .context "()" (.bind (fun _ => next ()) :: U ++ [.handling i])) (Nat.le_succ _)
    (Store.wellFormed_moved h.pools.resumptions _) (Store.find?_moved ..) (fun ρ hρ => Store.find?_moved_of_ne h.pools.resumptions hρ)
    h.pools.closures (.started (fun f hf => ?_) h.home) (fun j hj => Option.some.inj hj ▸ h.away)
  · exact Pools.wakes { hparked with } rfl h.shell
  · rcases List.mem_cons.mp hf with rfl | hf
    · exact .bind fun _ => hnext
    · exact h.above f hf

/-- New cells have nothing to do with the pool. -/
theorem Pools.alloc (h : Pools pool s p seats) (content : Content) :
    Pools pool { s with cells := (s.cells.insert content).2 } p seats :=
  { h with
    stored := by rw [Store.find?_insert, if_neg (Nat.ne_of_lt h.issued), h.stored]
    issued := Nat.lt_succ_of_lt h.issued }

/-- A new actor is parked behind the others, and the one that has control goes on. -/
theorem Has.spawns {owned : List Owned} {body : Mailbox → Task Value}
    {next : Mailbox → Comp Content} (hΓ : Γ.handlerType handlerName = handler)
    (h : Has pool s p seats U i F)
    (hbody : ∀ child, child.pool = pool → Acts pool (body child).toComp)
    (hnext : ∀ child, child.pool = pool → Acts pool (next child)) :
    Moves Γ pool (s.goOn (.eval (spawn pool owned body next))) := by
  have hcode : ∀ f ∈ U, f.isCode = true := fun f hf => (h.above f hf).isCode
  have hlabel : p.label ≠ bottomLabel ∧ p.label ≠ retiredLabel := by
    rw [h.pools.label]
    decide
  rw [spawn_eq]
  have hnew := (h.pools.alloc (.list [])).alloc (.value (.bool false))
  let child : Mailbox := ⟨pool, s.cells.next, s.cells.next + 1⟩
  refine .retain trivial (.alloc trivial (.alloc trivial (.read trivial hnew.stored ?_)))
  have hframes : ∀ g : Value → Comp Content, ∀ f ∈ .bind g :: U, f.isCode = true := by
    intro g f hf
    rcases List.mem_cons.mp hf with rfl | hf
    · rfl
    · exact hcode f hf
  refine .retainAll trivial (.closure trivial (.scope trivial (.invoke (U := .bind _ :: U) (F := F)
    trivial (Evaluation.dispatch_labelled (U := .bind _ :: U) (F := F)
      (congrArg (List.cons _) h.frames) (hframes _) h.home
      h.pools.label.symm hlabel (clauseFor_fork hΓ _)) h.home (answer_shown hΓ _)
      (congrArg (List.cons _) h.frames) (hframes _) (.retain trivial ?_))))
  refine .function trivial (Store.find?_insert_self ..) (.read trivial hnew.stored
    (.write_turns trivial ?_))
  refine .tailResume trivial (Store.find?_insert_insert ..) h.pools.pending (.done trivial (.answering_pending
    trivial rfl rfl rfl (.enter_context trivial (.bind trivial rfl (.retainAll trivial
      (.done trivial (.bind trivial rfl (.here trivial (.inl (.code (U := U) (i := i) (F := F)
        (S := seats ++ [⟨⟨child.waiting, s.resumptions.next + 1⟩, none⟩])
        (p := { p with active := p.active ++ [⟨child.waiting, s.resumptions.next + 1⟩] })
        ⟨?_, ?_, h.above, h.home, ?_, h.shell⟩ rfl (hnext child rfl)))))))))))
  · have hwf := h.pools.resumptions
    let k : Continuation Content := .function "()" fun _ =>
      debut pool child.waiting (owned ++ child.owned) (body child)
    have hparked := fun κ => hnew.park
      (R := ((s.resumptions.insert κ).2.insert k).2.erase s.resumptions.next)
      (C := (s.closures.insert fun _ => debut pool child.waiting (owned ++ child.owned)
        (body child)).2.erase s.closures.next)
      (x := ⟨⟨child.waiting, s.resumptions.next + 1⟩, none⟩) (Nat.le_succ _)
      (Store.wellFormed_replaced hwf κ k) (Store.find?_replaced hwf)
      (fun ρ hρ => Store.find?_replaced_of_ne hwf hρ)
      (by simp [Store.erase, Store.insert, h.pools.closures]) (.fresh (hbody child rfl)) (by simp)
    exact { hparked _ with pending := rfl }
  · exact (List.append_assoc ..).trans rfl
  · simpa using h.away

/-- The actor that has control ends. -/
theorem Has.ends (hΓ : Γ.handlerType handlerName = handler) (h : Has pool s p seats [] i F) :
    Moves Γ pool (s.goOn (.ret v)) := by
  have hleft : Pools pool { s with
      installed := s.installed.modify i fun x => { x with label := retiredLabel } } p seats :=
    { h.pools with
      rests := fun x hx => by
        obtain ⟨k, hk, hrests⟩ := h.pools.rests x hx
        refine ⟨k, hk, hrests.mono fun j hj => ?_⟩
        have hne : j ≠ i := fun heq =>
          h.away (List.mem_filterMap.mpr ⟨x, hx, hj.trans (congrArg some heq)⟩)
        rw [Store.find?_modify, if_neg hne]
      installed := Store.wellFormed_modify h.pools.installed _ _ }
  let left : Evaluation Content := { s with
    frames := .answering "()" :: F
    installed := s.installed.modify i fun x => { x with label := retiredLabel } }
  let code : ActorPool → Comp Content := fun p =>
    if p.active.isEmpty then .done .unit else (Actor.wake pool).toComp
  have hstep : (s.goOn (.ret v)).step Γ = left.goOn (.eval (readPool pool code)) := by
    rw [← onReturn_shown hΓ pool v]
    simp [left, Evaluation.step, Evaluation.give, Evaluation.goOn, Evaluation.handler,
      Evaluation.push, h.frames, h.home, answer_shown hΓ pool]
  suffices hcode : Goes Γ pool (left.goOn (.eval (code p))) from
    .turns trivial hstep (.read trivial h.pools.stored hcode)
  by_cases hempty : p.active.isEmpty = true
  · simp only [code, hempty, if_true]
    have hnone : seats = [] := by
      have hactive := h.pools.active
      rw [List.isEmpty_iff.mp hempty] at hactive
      exact List.map_eq_nil_iff.mp hactive.symm
    subst hnone
    refine .done trivial (.answering trivial rfl h.pools.pending (h.shell.returns h.pools.stored
      h.pools.pending h.pools.closures rfl fun t ht hsame => .inr (.finished ht fun ρ => ?_)))
    cases hρ : s.resumptions.find? ρ with
    | none => rw [hsame]; exact hρ
    | some k => exact absurd (h.pools.only ρ k hρ) List.not_mem_nil
  · simp only [code, hempty, Bool.false_eq_true, if_false]
    exact Pools.wakes (s := left) { hleft with } rfl h.shell

/-- Whoever has control goes on. -/
theorem Busy.moves (hΓ : Γ.handlerType handlerName = handler) (h : Busy pool s)
    (hpool : ∀ x, (s.step Γ).cells.find? pool = some x → ∃ p, x = .pool p) : Moves Γ pool s := by
  cases h with
  | @code p seats U i F c h hs hc =>
    rw [s.eq_goOn hs]
    cases hc with
    | done v => exact .turns trivial rfl (h.goOn_value v)
    | record hnext => exact .turns trivial rfl (Has.goOn { h with pools := { h.pools with } } hnext)
    | alloc hnext =>
      exact .turns trivial rfl (Has.goOn { h with pools := { h.pools.alloc _ with } } (hnext _))
    | read hnext => exact .turns trivial rfl (h.goOn (hnext _))
    | @write c content next hcontent hnext =>
      refine .turns trivial rfl (Has.goOn { h with pools := { h.pools with stored := ?_ } } hnext)
      -- code that is no pool's cannot have been written where a pool is
      have hne : pool ≠ c := by
        rintro rfl
        have hwritten : (s.step Γ).cells.find? pool = some content := by
          rw [s.eq_goOn hs]
          refine (Store.find?_modify ..).trans ((if_pos rfl).trans ?_)
          exact congrArg (Option.map fun _ => content) h.pools.stored
        obtain ⟨p', hp'⟩ := hpool content hwritten
        exact hcontent p' hp'
      exact (Store.find?_modify ..).trans (by rw [if_neg hne]; exact h.pools.stored)
    | retain hnext | release hnext => exact .turns trivial rfl (h.goOn hnext)
    | scope hbody hnext => exact .turns trivial rfl (h.push (.bind hnext) hbody)
    | loop hbody hnext => exact .turns trivial rfl (h.push (.looping hbody hnext) (hbody _))
    | yield hnext => exact h.yields hΓ hnext
    | spawn hbody hnext => exact h.spawns hΓ hbody hnext
  | @value p seats U i F v h hs =>
    rw [s.eq_goOn hs]
    cases U with
    | nil => exact h.ends hΓ
    | cons f U =>
      have hbelow : Has pool { s with frames := U ++ .handling i :: F } p seats U i F :=
        { h with
          pools := { h.pools with }
          frames := rfl
          above := fun g hg => h.above g (List.mem_cons_of_mem _ hg) }
      have hf := h.above f List.mem_cons_self
      have hframes : s.frames = f :: (U ++ .handling i :: F) := h.frames
      cases hf with
      | bind hnext =>
        refine .turns trivial ?_ (hbelow.goOn (hnext v))
        simp [Evaluation.step, Evaluation.give, Evaluation.goOn, hframes]
      | @looping body next hbody hnext =>
        refine .here trivial ?_
        simp only [Evaluation.step, Evaluation.give, Evaluation.goOn, hframes]
        split
        · exact hbelow.push (.looping hbody hnext) (hbody _)
        · exact hbelow.goOn (hnext _)
        · exact hbelow.goOn (hnext _)

/-! ### Runs -/

/-- Frames of a program that runs actors. -/
theorem leads_actors (hΓ : Γ.handlerType handlerName = handler) (cells : List Content)
    (owned : List Owned) {main : Mailbox → Task Value}
    (hmain : ∀ me, me.pool = cells.length + 2 → Acts (cells.length + 2) (main me).toComp) :
    Goes Γ (cells.length + 2) (Evaluation.start cells (Actor.run owned main).toComp) := by
  have hwf : (Evaluation.start cells (Actor.run owned main).toComp).cells.WellFormed :=
    Store.wellFormed_insertAll (by simp [Store.WellFormed]) cells
  have hnext : (Evaluation.start cells (Actor.run owned main).toComp).cells.next + 1 =
      cells.length + 2 := by
    rw [Evaluation.start, Store.insertAll_next]
    show 1 + cells.length + 1 = _
    omega
  rw [← hnext] at hmain ⊢
  let s := Evaluation.start cells (Actor.run owned main).toComp
  let opened := (opening s.cells.next).foldl (fun s x => (s.insert x).2) s.cells
  have hpool : opened.find? (s.cells.next + 1) = some (.pool { label := -1, current := s.cells.next }) :=
    Store.find?_insertAll hwf (opening s.cells.next) 1
  have hdeclare : Evaluation.declare (ω := Content) { declared := [], phase := .finished .unit }
      handlerName (Γ.handlerType handlerName) = .ok [handlerName] := by
    rw [hΓ]
    rfl
  have hresumptions : s.resumptions.WellFormed := by simp [s, Store.WellFormed, Evaluation.start]
  have hinstalled : (s.installed.insert (shown (s.cells.next + 1))).2.WellFormed :=
    Store.wellFormed_insert (by simp [s, Store.WellFormed, Evaluation.start]) _
  refine Leads.freshLabel (s := s) trivial (.alloc trivial (.alloc trivial (.retain trivial (.alloc trivial
    (.alloc trivial (.retain trivial (.scope trivial ?_)))))))
  refine leads_start (p := { label := -1, current := s.cells.next }) trivial trivial hpool rfl rfl
    hdeclare (.here trivial (.inl (.code (U := []) (i := 1)
      (p := { label := -1, current := s.cells.next + 3 }) (S := [])
      ⟨?_, rfl, fun _ hf => absurd hf List.not_mem_nil, rfl, List.not_mem_nil, .base⟩ rfl
      (hmain _ rfl))))
  exact {
    stored := by
      refine (Store.find?_modify ..).trans ((if_pos rfl).trans ?_)
      exact congrArg (Option.map _) hpool
    issued := Nat.lt_add_of_pos_right (show 0 < 3 by decide)
    label := rfl
    active := rfl
    rests := fun _ hx => absurd hx List.not_mem_nil
    distinct := List.nodup_nil
    apart := List.nodup_nil
    only := fun ρ k hk => by cases hk
    resumptions := hresumptions
    installed := hinstalled
    closures := rfl
    pending := rfl
    declared := rfl
    nextLabel := rfl }

/-- A run of actors that ends is over at some moment before. -/
theorem Goes.closes (hΓ : Γ.handlerType handlerName = handler) {v : Value} {n : Nat}
    (h : Goes Γ pool s)
    (hpool : ∀ j x, ((Evaluation.step Γ)^[j] s).cells.find? pool = some x → ∃ p, x = .pool p)
    (hend : ((Evaluation.step Γ)^[n] s).phase = .finished v) :
    ∃ j ≤ n, Closes Γ ((Evaluation.step Γ)^[j] s) := by
  have hstays : ∀ d, ((Evaluation.step Γ)^[d + n] s).phase = .finished v := by
    intro d
    induction d with
    | zero => rwa [Nat.zero_add]
    | succ d ih =>
      rw [Nat.succ_add, Function.iterate_succ_apply']
      simp only [Evaluation.step, ih]
  have hlive : ∀ j, Busy pool ((Evaluation.step Γ)^[j] s) ∨ Closes Γ ((Evaluation.step Γ)^[j] s) →
      j ≤ n := by
    intro j hj
    by_contra hlt
    obtain ⟨d, rfl⟩ := Nat.exists_eq_add_of_le' (Nat.le_of_lt (Nat.lt_of_not_le hlt))
    have hover := hstays d
    rcases hj with (⟨_, hs, _⟩ | ⟨_, hs⟩) | (⟨⟨_, ⟨_, hs⟩, _, _⟩, _⟩ | ⟨hs, _, _⟩)
    all_goals
      rw [hs] at hover
      cases hover
  -- the moments at which an actor has control get nearer and nearer to the end
  have hreach : ∀ k j, n - j = k → Busy pool ((Evaluation.step Γ)^[j] s) →
      ∃ j ≤ n, Closes Γ ((Evaluation.step Γ)^[j] s) := by
    intro k
    induction k using Nat.strongRecOn with
    | _ k ih =>
      rintro j rfl hbusy
      have hle := hlive j (.inl hbusy)
      have hkept := hpool (j + 1)
      rw [Function.iterate_succ_apply'] at hkept
      obtain ⟨d, hafter, -⟩ := Leads.exists_steps (hbusy.moves hΓ hkept)
      obtain ⟨d', harrives, -⟩ := hafter.exists_steps
      have heq : (Evaluation.step Γ)^[d'] (((Evaluation.step Γ)^[d] ((Evaluation.step Γ)^[j] s)).step Γ) =
          (Evaluation.step Γ)^[d' + (d + 1) + j] s := by
        rw [← Function.iterate_succ_apply' (Evaluation.step Γ), ← Function.iterate_add_apply,
          ← Function.iterate_add_apply]
      rw [heq] at harrives
      have hle' := hlive _ harrives
      rcases harrives with hnext | hcloses
      · exact ih _ (by omega) _ rfl hnext
      · exact ⟨_, hle', hcloses⟩
  obtain ⟨d, hd, -⟩ := Leads.exists_steps h
  rcases hd with hbusy | hcloses
  · exact hreach _ d rfl hbusy
  · exact ⟨d, hlive d (.inr hcloses), hcloses⟩

end EffectHandlers.Actor
