import EffectHandlers.Client.Library
import EffectHandlers.Proofs.Variables
/-!
# State as a plain variable

A body under one of the handlers of mutable state does what it does with a plain variable, whatever
it reads, writes and prints in between.
-/

namespace EffectHandlers.MutableState

/-- What bodies do with a state. -/
inductive Access where
  | get
  | put (n : Int)

/-- The accesses as programs. -/
def Access.send : Access → Task Value
  | get => do return .int (← MutableState.get)
  | put n => do
    MutableState.put n
    return .unit

/-- What the accesses do to a plain variable. -/
def Access.serve : Access → World Int → Option (Value × World Int)
  | get, w => some (.int w.state, w)
  | put n, w => some (.unit, { w with state := n })

variable {Γ : Library Content} {o s : Outline Content} {g : Guest} {result : String} {n : Nat}
  {next k : Value → Comp Content} {S T : List (Activation Content)} {w w' : World Int} {v : Value}
  {access : Access} {π : Type} {name : π → String} {code : π → Value → Body (Deed Access n) π}

/-! ### State in a cell -/

theorem cellHandler_get : (cellHandler result).Resumes getCommand fun cell _ r =>
    Task.readValue cell fun v => .tailResume r (.int v.toInt) (.done .unit) :=
  ⟨0, _, rfl, rfl⟩

theorem cellHandler_put : (cellHandler result).Resumes putCommand fun cell v r =>
    Task.writeValue cell v fun _ => .tailResume r .unit (.done .unit) :=
  ⟨1, _, rfl, rfl⟩

/-- The handler reads or replaces the state in its cell, and resumes. -/
theorem gets_inCell (hs : Keeping Γ (fun n => .value (.int n)) o g next S w s)
    (hhandler : Γ.handlerType g.handlerType = cellHandler result) (hpending : o.pending = none)
    (hserve : access.serve w = some (v, w')) :
    (s.on T (.eval (access.send k))).Gets Γ fun s' =>
      ∃ s'', Keeping Γ (fun n => .value (.int n)) o g next S w' s'' ∧
        s' = s''.on T (.eval (k v)) := by
  obtain ⟨cells, hholds, rfl⟩ := hs
  have hvalue : Memory.value cells.find? g.handler = .int w.state := by
    simp [Memory.value, hholds.own]
  cases access with
  | get =>
    obtain ⟨rfl, rfl⟩ := Prod.mk.inj (Option.some.inj hserve)
    refine (Outline.gets_captured (hhandler ▸ cellHandler_get)).trans ?_
    rintro s' ⟨r, e, hr, rfl⟩ -
    refine .readValue hvalue ((Outline.gets_tailResumed hpending hr rfl).mono ?_)
    rintro s' rfl -
    exact ⟨_, ⟨cells, hholds, rfl⟩, rfl⟩
  | put n =>
    obtain ⟨rfl, rfl⟩ := Prod.mk.inj (Option.some.inj hserve)
    refine (Outline.gets_captured (hhandler ▸ cellHandler_put)).trans ?_
    rintro s' ⟨r, e, hr, rfl⟩ -
    refine .writeValue ((Outline.gets_tailResumed hpending hr rfl).mono ?_)
    rintro s' rfl -
    exact ⟨_, ⟨_, hholds.keep, rfl⟩, rfl⟩

/-! ### State passed through functions -/

theorem functionHandler_get : (functionHandler result).Resumes getCommand fun _ _ r =>
    deferred r id id .done :=
  ⟨0, _, rfl, rfl⟩

theorem functionHandler_put : (functionHandler result).Resumes putCommand fun _ v r =>
    deferred r (fun _ => .unit) (fun _ => v) .done :=
  ⟨1, _, rfl, rfl⟩

variable (next S) in
/-- Where a function that was applied has returned, its result is what comes of the functions that
were applied before. -/
inductive Nested : (Value → Comp Content) → List (Activation Content) → Prop
  | outermost : Nested next S
  | applied {f : Value → Comp Content} {U : List (Activation Content)} (h : Nested f U) :
    Nested .done (.bind f :: U)

theorem Nested.gets (h : Nested next S k T) :
    (s.on (.bind k :: T) (.ret v)).Gets Γ fun s' => s' = s.on S (.eval (next v)) := by
  induction h with
  | outermost => exact .last (fun _ _ => rfl) fun _ => rfl
  | applied h ih => exact .bind (.done ih)

/-- The clause answers with a function that has taken over the continuation. -/
theorem gets_deferred {cells : Store (Shared Content)} {shares : Nat} {r : ResumptionId}
    {e : ExchangeId} {name : String} {U : List (Activation Content)} {out after : Value → Value} :
    ((o.captured Γ g cells shares r e name U).on T (.eval (deferred r out after .done))).Gets Γ
      fun s' => ∃ r' f, r < r' ∧ s' = (({ o with closures := (f, ⟨[.resumption r'], fun v =>
        .resume r' (out v) fun a => applyAnswer a (after v) .done⟩) :: o.closures } :
          Outline Content).captured Γ g cells shares r' e name U).on T (.ret (.closure f)) := by
  refine (Outline.Gets.takes rfl).trans ?_
  rintro s' ⟨r', hlt, rfl⟩ -
  refine Outline.Gets.closes.trans ?_
  rintro s' ⟨f, rfl⟩ -
  exact .last (fun _ _ => rfl) fun _ => ⟨r', f, hlt, rfl⟩

/-- A clause that defers its continuation: the code that asked for the function applies it to the
state, and the body goes on. -/
theorem gets_applied (hpending : o.pending = none) {cells : Store (Shared Content)}
    {r : ResumptionId} {e : ExchangeId} {name : String} {U : List (Activation Content)}
    {out after : Value → Value} (hr : r ∉ o.resumptions.map (·.1)) {state : Value} :
    ((o.captured Γ g cells 5 r e name (.bind next :: U)).on
      (.owning [.resumption r] :: .clause (some g.id) (Γ.handlerType g.handlerType).answer ::
        .stepping :: .bind (fun f => applyAnswer f state k) :: T)
      (.eval (deferred r out after .done))).Gets Γ fun s' =>
        s' = (o.hosting Γ g cells 3 (.stepping ::
          .bind (fun f => applyAnswer f (after state) .done) :: .bind k :: T)).on U
            (.eval (next (out state))) := by
  refine gets_deferred.trans ?_
  rintro s' ⟨r', f, hlt, rfl⟩ -
  have hresumed : ((o.captured Γ g cells (2 + 2) r' e name (.bind next :: U)).on (.bind k :: T)
      (.eval (.resume r' (out state) fun a => applyAnswer a (after state) .done))).Gets Γ _ :=
    Outline.gets_resumed
  refine .owning (.spent ?_ (.clause (.share rfl (Nat.le_add_left 2 3) (.settle hpending (.delivered
    (.bind (.apply rfl hresumed)))))))
  rintro (_ | ⟨_, hmem⟩)
  · exact Nat.lt_irrefl _ hlt
  · exact hr hmem

variable (Γ) in
/-- A body runs under the handler that answers with functions, and the state is what the function
that was answered last is applied to. -/
def InFunction (o : Outline Content) (g : Guest) (next : Value → Comp Content)
    (S : List (Activation Content)) (w : World Int) (s : Outline Content) : Prop :=
  ∃ cells k T, cells.Holds g.handler (.value .unit) (fun _ => 0) w.memory ∧ Nested next S k T ∧
    s = o.hosting Γ g cells 3 (.stepping :: .bind (fun f => applyAnswer f (.int w.state) k) :: T)

namespace InFunction

/-- The function that was answered last is applied to the state, and the body goes on. -/
theorem gets (hs : InFunction Γ o g next S w s)
    (hhandler : Γ.handlerType g.handlerType = functionHandler result) (hpending : o.pending = none)
    (hserve : access.serve w = some (v, w')) :
    (s.on T (.eval (access.send k))).Gets Γ fun s' =>
      ∃ s'', InFunction Γ o g next S w' s'' ∧ s' = s''.on T (.eval (k v)) := by
  obtain ⟨cells, k₀, T₀, hholds, hnested, rfl⟩ := hs
  cases access with
  | get =>
    obtain ⟨rfl, rfl⟩ := Prod.mk.inj (Option.some.inj hserve)
    refine (Outline.gets_captured (hhandler ▸ functionHandler_get)).trans ?_
    rintro s' ⟨r, e, hr, rfl⟩ -
    refine (gets_applied hpending hr).mono ?_
    rintro s' rfl -
    exact ⟨_, ⟨cells, .done, _, hholds, .applied hnested, rfl⟩, rfl⟩
  | put n =>
    obtain ⟨rfl, rfl⟩ := Prod.mk.inj (Option.some.inj hserve)
    refine (Outline.gets_captured (hhandler ▸ functionHandler_put)).trans ?_
    rintro s' ⟨r, e, hr, rfl⟩ -
    refine (gets_applied hpending hr).mono ?_
    rintro s' rfl -
    exact ⟨_, ⟨cells, .done, _, hholds, .applied hnested, rfl⟩, rfl⟩

/-- The body returns, and all functions that were applied return in turn. -/
theorem gets_answered (hs : InFunction Γ o g next S w s)
    (hhandler : Γ.handlerType g.handlerType = functionHandler result)
    (hpending : o.pending = none) :
    (s.on [.owning [.reference g.this]] (.eval (.done v))).Gets Γ fun s' =>
      ∃ cells : Store (Shared Content), cells.find? = w.memory ∧
        s' = (o.storing cells).on S (.eval (next v)) := by
  obtain ⟨cells, k₀, T₀, hholds, hnested, rfl⟩ := hs
  refine .done (Outline.gets_returning.trans ?_)
  rintro s' rfl hcells
  refine hhandler ▸ Outline.Gets.closes.trans ?_
  rintro s' ⟨f, rfl⟩ -
  let o' : Outline Content := { o with closures := (f, ⟨v.owned, fun _ => .done v⟩) :: o.closures }
  have hcomes : ((o'.storing (cells.erase g.handler)).on
      (.bind (fun f => applyAnswer f (.int w.state) k₀) :: T₀) (.ret (.closure f))).Gets Γ fun s' =>
        s' = (o.storing (cells.erase g.handler)).on S (.eval (next v)) :=
    .bind (.apply rfl (.done hnested.gets))
  have hreturns : ((o'.remaining Γ g.retired cells 2).on
      (.returning g.id (functionHandler result).answer :: .stepping ::
        .bind (fun f => applyAnswer f (.int w.state) k₀) :: T₀) (.ret (.closure f))).Gets Γ _ :=
    .returnsLast (o := o') hpending hholds.own (Nat.le_refl 1) rfl hcomes
  exact .done (hreturns.mono fun s' heq _ => ⟨_, hholds.erase hcells, heq⟩)

theorem visible (hs : InFunction Γ o g next S w s) {x : CellId} (hx : x ≠ g.handler) :
    (s.cells.find? x).map Shared.content = (w.memory x).map Shared.content := by
  obtain ⟨cells, -, -, hholds, -, rfl⟩ := hs
  exact hholds.content_eq hx

/-- A body under the handler does what it does with a plain variable. -/
theorem enacts (hvoc : (Deed.vocabulary Access.send name code).Known Γ)
    (hhandler : Γ.handlerType g.handlerType = functionHandler result) (hpending : o.pending = none)
    (hn : n ≤ g.handler) (htranscript : Transcript.cell < n) :
    (Deed.vocabulary Access.send name code).Enacts Γ (Deed.acts Access.serve)
      (InFunction Γ o g next S) where
  known := hvoc
  act {w w' d v s S k} hs hacts := by
    by_cases hplain : ∀ access, d ≠ .send access
    · obtain ⟨cells, k₀, T₀, hholds, hnested, rfl⟩ := hs
      refine (Deed.gets hplain hacts hholds hn htranscript).mono ?_
      rintro s' ⟨cells', rfl, hholds', hstate⟩ -
      exact ⟨_, ⟨cells', k₀, T₀, hholds', hnested, rfl⟩, hstate ▸ rfl⟩
    · obtain ⟨access, rfl⟩ : ∃ access, d = .send access := by simpa using hplain
      exact hs.gets hhandler hpending hacts

end InFunction

/-! ### Both handlers -/

variable {m : Machine Content}

/-- Both handlers of mutable state give a body a plain variable. -/
theorem handlers_keep_state (hcell : Γ.handlerType (cellName result) = cellHandler result)
    (hfunction : Γ.handlerType (functionName result) = functionHandler result)
    (hvoc : (Deed.vocabulary Access.send name code).Known Γ) (hm : m.Numbered)
    (hreleasing : m.releasing = []) (hpending : m.pending = none)
    (hsize : m.stackSize < StackPool.addressSpace) (hn : n ≤ m.cells.next)
    (htranscript : Transcript.cell < n) (body : Body (Deed Access n) π) (initial : Int)
    (next : Value → Comp Content) :
    let voc := Deed.vocabulary Access.send name code
    let plain := Course.start m body initial
    (∃ clock, plain.Completed Γ voc (Deed.acts Access.serve) m
      (m.goOn (.eval (withCell result initial [] (body.toProg voc) next))) (fun _ v => next v)
        clock) ∧
    ∃ clock, plain.Completed Γ voc (Deed.acts Access.serve) m
      (m.goOn (.eval (withFunction result initial [] (body.toProg voc) next))) (fun _ v => next v)
        clock := by
  intro voc plain
  constructor
  · obtain ⟨g, hname, hhandler, cells, hholds, hrun⟩ := Machine.exists_installed hm hreleasing
      (by rw [hcell]; rfl) hsize (.value (.int initial)) (fun _ => body.code voc) next
    have hle : n ≤ g.handler := hhandler ▸ hn
    have hg : Γ.handlerType g.handlerType = cellHandler result := hname ▸ hcell
    refine Course.Shown.exists_completed ⟨_, ⟨cells, hholds, rfl⟩, hrun⟩ (hm.goOn _)
      (Keeping.enacts hvoc hle htranscript fun hs => gets_inCell hs hg hpending)
      (fun w s hs x hx => hs.visible (Nat.ne_of_lt (Nat.lt_of_lt_of_le hx hle)))
      fun w v s hs => hs.gets_answered hpending rfl fun _ h => ?_
    rw [hg]
    exact .done h
  · obtain ⟨g, hname, hhandler, cells, hholds, hrun⟩ := Machine.exists_installed hm hreleasing
      (by rw [hfunction]; rfl) hsize (.value .unit) (fun _ => body.code voc)
      (fun f => applyAnswer f (.int initial) next)
    have hle : n ≤ g.handler := hhandler ▸ hn
    have hg : Γ.handlerType g.handlerType = functionHandler result := hname ▸ hfunction
    exact Course.Shown.exists_completed
      ⟨_, ⟨cells, next, m.stack, hholds, .outermost, rfl⟩, hrun⟩ (hm.goOn _)
      (InFunction.enacts hvoc hg hpending hle htranscript)
      (fun w s hs x hx => hs.visible (Nat.ne_of_lt (Nat.lt_of_lt_of_le hx hle)))
      fun w v s hs => hs.gets_answered hg hpending

/-- A body that squares what it reads, and goes on only if that has changed the state. -/
def squaring : Body (Deed Access 5) Empty :=
  .act (.send .get) fun v =>
    .act (.send (.put (v.toInt * v.toInt))) fun _ =>
      .act (.send .get) fun w =>
        if v = w then .done w else .act (.emit (toString w.toInt)) fun _ => .done v

theorem handlers_keep_state_squaring :
    let Γ := Client.libraryOf handlers []
    let voc := Deed.vocabulary (n := 5) Access.send Empty.elim fun p _ => p.elim
    let m := Machine.start {} Client.cells [] (.done .unit)
    let plain := Course.start m squaring 3
    ((plain.run voc.code (Deed.acts Access.serve) 4).result? = some (.int 3) ∧
      (plain.run voc.code (Deed.acts Access.serve) 4).world.state = 9 ∧
      (plain.run voc.code (Deed.acts Access.serve) 4).world.memory.text Transcript.cell = "9") ∧
    (∃ clock, plain.Completed Γ voc (Deed.acts Access.serve) m
      (m.goOn (.eval (withCell "i64" 3 [] (squaring.toProg voc) .done))) (fun _ v => .done v)
        clock) ∧
    ∃ clock, plain.Completed Γ voc (Deed.acts Access.serve) m
      (m.goOn (.eval (withFunction "i64" 3 [] (squaring.toProg voc) .done))) (fun _ v => .done v)
        clock :=
  ⟨by decide +kernel, handlers_keep_state rfl rfl (fun p => p.elim) (Machine.numbered_start ..) rfl
    rfl (by decide) (by decide) (by decide) squaring 3 .done⟩

end EffectHandlers.MutableState
