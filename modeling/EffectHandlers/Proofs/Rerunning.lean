import EffectHandlers.Client.Library
import EffectHandlers.Proofs.Picking
import EffectHandlers.Proofs.Reruns
/-!
# Client programs and schedulers under other numbers

## Client programs under other numbers

What client programs read, write and send is the same under other numbers, and so are the programs.
-/

namespace EffectHandlers.Rerun

variable {σ : Rerun} {rest : Comp Content → Comp Content → Prop} {c c' : CellId}

/-! ### Cells -/

/-- A cell that belongs to the thread as a whole. -/
theorem mapsAccess_kept (h : c ∈ σ.kept) : σ.MapsAccess c c := .inr ⟨h, rfl⟩

theorem mapsProg_readValue (hc : σ.MapsAccess c c') :
    σ.MapsProg rest σ.MapsValue (Task.readValue c) (Task.readValue c') :=
  (mapsProg_read hc).bind fun x x' hx => by
    cases hx with
    | value hv => exact mapsProg_pure hv
    | _ => exact mapsProg_pure .unit

theorem mapsProg_readInt (hc : σ.MapsAccess c c') :
    σ.MapsProg rest Eq (Task.readInt c) (Task.readInt c') :=
  (mapsProg_readValue hc).bind fun _ _ hv => mapsProg_pure hv.toInt.symm

theorem mapsProg_readText (hc : σ.MapsAccess c c') :
    σ.MapsProg rest Eq (Task.readText c) (Task.readText c') :=
  (mapsProg_readValue hc).bind fun _ _ hv => mapsProg_pure hv.toText.symm

theorem mapsProg_readList (hc : σ.MapsAccess c c') :
    σ.MapsProg rest (List.Forall₂ σ.MapsValue) (Task.readList c) (Task.readList c') :=
  (mapsProg_read hc).bind fun x x' hx => by
    cases hx with
    | list hvs => exact mapsProg_pure hvs
    | _ => exact mapsProg_pure .nil

theorem mapsProg_writeValue (hc : σ.MapsAccess c c') {v v' : Value} (hv : σ.MapsValue v v') :
    σ.MapsProg rest Eq (Task.writeValue c v) (Task.writeValue c' v') := mapsProg_write hc (.value hv)

theorem mapsProg_writeInt (hc : σ.MapsAccess c c') (n : Int) :
    σ.MapsProg rest Eq (Task.writeInt c n) (Task.writeInt c' n) := mapsProg_writeValue hc (.int n)

theorem mapsProg_writeText (hc : σ.MapsAccess c c') (s : String) :
    σ.MapsProg rest Eq (Task.writeText c s) (Task.writeText c' s) := mapsProg_writeValue hc (.text s)

theorem mapsProg_pushBack (hc : σ.MapsAccess c c') {v v' : Value} (hv : σ.MapsValue v v') :
    σ.MapsProg rest Eq (Task.pushBack c v) (Task.pushBack c' v') :=
  (mapsProg_readList hc).bind fun _ _ hvs =>
    mapsProg_write hc (.list (List.rel_append hvs (.cons hv .nil)))

theorem mapsProg_popFront (hc : σ.MapsAccess c c') :
    σ.MapsProg rest (Option.Rel σ.MapsValue) (Task.popFront c) (Task.popFront c') :=
  (mapsProg_readList hc).bind fun vs vs' hvs => by
    cases hvs with
    | nil => exact mapsProg_pure .none
    | cons hv hvs =>
      exact (mapsProg_write hc (.list hvs)).bind fun _ _ _ => mapsProg_pure (.some hv)

theorem mapsProg_emit (hcell : Transcript.cell ∈ σ.kept) (text : String) :
    σ.MapsProg rest Eq (Transcript.emit text) (Transcript.emit text) :=
  (mapsProg_readText (mapsAccess_kept hcell)).bindSame fun _ =>
    mapsProg_writeText (mapsAccess_kept hcell) _

theorem mapsProg_emitLine (hcell : Transcript.cell ∈ σ.kept) (text : String) :
    σ.MapsProg rest Eq (Transcript.emitLine text) (Transcript.emitLine text) :=
  mapsProg_emit hcell _

/-- A remark, or another event that is not a text of the code. -/
theorem mapsProg_note (level : Level) (message : String) (fields : List (String × String)) :
    σ.MapsProg rest Eq (Prog.note level message fields) (Prog.note level message fields) :=
  mapsProg_record _

/-! ### Commands and handlers -/

theorem mapsCommand {name : String} {v v' : Value} {os os' : List Owned} (hv : σ.MapsValue v v')
    (ho : σ.MapsOwneds os os') : σ.MapsCommand ⟨name, v, os⟩ ⟨name, v', os'⟩ := ⟨rfl, hv, ho⟩

/-- A command without anything that has a number. -/
theorem mapsProg_tell (name : String) {v : Value} (hv : σ.MapsValue v v) :
    σ.MapsProg rest σ.MapsValue (Prog.invoke ⟨name, v, []⟩) (Prog.invoke ⟨name, v, []⟩) :=
  mapsProg_invoke (mapsCommand hv .nil) .innermost

theorem mapsInstalling {handlerType : String} (hused : handlerType ∈ σ.handlers)
    {label label' : Option Int} (hlabel : Option.Rel σ.MapsLabel label label') (hc : σ.MapsCell c c')
    {os os' : List Owned} (ho : σ.MapsOwneds os os') :
    σ.MapsInstalling ⟨handlerType, label, c, os⟩ ⟨handlerType, label', c', os'⟩ :=
  ⟨rfl, hused, hlabel, hc, ho⟩

/-- A body under a handler of its own. -/
theorem mapsProg_hosted {handlerType : String} (hused : handlerType ∈ σ.handlers)
    {x x' : Content} (hx : σ.MapsContent x x') {os os' : List Owned} (ho : σ.MapsOwneds os os')
    {body body' : Task Value} (hbody : σ.MapsProg rest σ.MapsValue body body') :
    σ.MapsProg rest σ.MapsValue
      (do
        let cell ← Prog.alloc x
        Prog.handle { handlerType, handler := cell, owned := os } fun _ => body)
      (do
        let cell ← Prog.alloc x'
        Prog.handle { handlerType, handler := cell, owned := os' } fun _ => body') :=
  (mapsProg_alloc hx).bind fun _ _ hc =>
    .handle (mapsInstalling hused .none hc ho) fun _ _ _ => hbody

/-! ### Mutable state -/

namespace State

open MutableState

theorem mapsProg_get : σ.MapsProg rest Eq get get :=
  (mapsProg_tell _ .unit).bind fun _ _ hv => mapsProg_pure hv.toInt.symm

theorem mapsProg_put (n : Int) : σ.MapsProg rest Eq (put n) (put n) :=
  (mapsProg_tell _ (.int n)).bind fun _ _ _ => mapsProg_pure rfl

theorem mapsHandler_cell (result : String) :
    σ.MapsHandler rest (cellHandler result) (cellHandler result) where
  answer := rfl
  clauses :=
    .cons ⟨rfl, .resumptive fun c c' _ _ r r' hc _ hr =>
      (mapsProg_readInt (.inl hc)).bindSameAnswer fun _ => mapsAnswer_tail hr (.int _)⟩
    (.cons ⟨rfl, .resumptive fun c c' v v' r r' hc hv hr =>
      (mapsProg_writeValue (.inl hc) hv).bindAnswer fun _ _ _ => mapsAnswer_tail hr .unit⟩ .nil)
  onReturn _ _ _ _ _ hv := .done nofun hv
  distinct := show HandlerType.duplicate? [] [getCommand, putCommand] = none by decide

theorem mapsProg_applyAnswer {a a' v v' : Value} (ha : σ.MapsValue a a') (hv : σ.MapsValue v v') :
    σ.MapsProg rest σ.MapsValue (applyAnswer a v) (applyAnswer a' v') := by
  cases ha with
  | closure hf => exact mapsProg_apply hf hv
  | unit => exact mapsProg_pure .unit
  | int n => exact mapsProg_pure (.int n)
  | bool b => exact mapsProg_pure (.bool b)
  | text s => exact mapsProg_pure (.text s)
  | absent => exact mapsProg_pure .absent
  | present h => exact mapsProg_pure (.present h)
  | pair ha hb => exact mapsProg_pure (.pair ha hb)
  | cell h => exact mapsProg_pure (.cell h)
  | reference h => exact mapsProg_pure (.reference h)
  | resumption h => exact mapsProg_pure (.resumption h)

theorem mapsProg_deferred {r r' : ResumptionId} (hr : σ.MapsResumption r r')
    {out out' next next' : Value → Value}
    (hout : ∀ v v', σ.MapsValue v v' → σ.MapsValue (out v) (out' v'))
    (hnext : ∀ v v', σ.MapsValue v v' → σ.MapsValue (next v) (next' v')) :
    σ.MapsProg rest σ.MapsValue (deferred r out next) (deferred r' out' next') :=
  (mapsProg_take hr).bind fun _ _ hr =>
    (MapsProg.closure (.cons (.resumption hr) .nil) fun _ _ hv =>
      (mapsProg_resume hr (hout _ _ hv)).bind fun _ _ ha =>
        mapsProg_applyAnswer ha (hnext _ _ hv)).bind fun _ _ hf => mapsProg_pure (.closure hf)

theorem mapsHandler_function (result : String) :
    σ.MapsHandler rest (functionHandler result) (functionHandler result) where
  answer := rfl
  clauses :=
    .cons ⟨rfl, .resumptive fun _ _ _ _ _ _ _ _ hr =>
      (mapsProg_deferred hr (fun _ _ h => h) fun _ _ h => h).answer⟩
    (.cons ⟨rfl, .resumptive fun _ _ _ _ _ _ _ hv hr =>
      (mapsProg_deferred hr (fun _ _ _ => .unit) fun _ _ _ => hv).answer⟩ .nil)
  onReturn _ _ _ _ _ hv := MapsProg.answer
    ((MapsProg.closure hv.owned fun _ _ _ => mapsProg_pure hv).bind fun _ _ hf =>
      mapsProg_pure (.closure hf))
  distinct := show HandlerType.duplicate? [] [getCommand, putCommand] = none by decide

theorem mapsProg_squares (hcell : Transcript.cell ∈ σ.kept) : σ.MapsProg rest Eq squares squares := by
  refine mapsProg_get.bindSame fun n => (mapsProg_emit hcell _).bind fun _ _ _ => ?_
  refine mapsProg_get.bindSame fun n => (mapsProg_put _).bind fun _ _ _ => ?_
  refine mapsProg_get.bindSame fun n => (mapsProg_emit hcell _).bind fun _ _ _ => ?_
  refine mapsProg_get.bindSame fun n => mapsProg_get.bindSame fun k => ?_
  refine (mapsProg_put _).bind fun _ _ _ => mapsProg_get.bindSame fun n => ?_
  exact mapsProg_emitLine hcell _

theorem mapsProg_demo (hcell : Transcript.cell ∈ σ.kept)
    (hused : ∀ h ∈ ["()", "&str"], cellName h ∈ σ.handlers ∧ functionName h ∈ σ.handlers) :
    σ.MapsProg rest Eq demo demo := by
  have hunit := hused "()" (by decide)
  have htext := hused "&str" (by decide)
  have hsquares : σ.MapsProg rest σ.MapsValue (do squares; return .unit) (do squares; return .unit) :=
    (mapsProg_squares hcell).bind fun _ _ _ => mapsProg_pure .unit
  have hok : σ.MapsProg rest σ.MapsValue squaresOk squaresOk :=
    (mapsProg_squares hcell).bind fun _ _ _ => mapsProg_pure (.text _)
  have hfunction : ∀ {result : String} {p : Task Value}, functionName result ∈ σ.handlers →
      σ.MapsProg rest σ.MapsValue p p →
      σ.MapsProg rest σ.MapsValue (withFunction result 100 [] p) (withFunction result 100 [] p) :=
    fun hname hp => (mapsProg_alloc (.value .unit)).bind fun _ _ hc =>
      (MapsProg.handle (mapsInstalling hname .none hc .nil) fun _ _ _ => hp).bind fun _ _ ha =>
        mapsProg_applyAnswer ha (.int 100)
  refine (mapsProg_note _ _ _).bind fun _ _ _ => ?_
  refine (mapsProg_hosted hunit.1 (.value (.int 100)) .nil hsquares).bind fun _ _ _ => ?_
  refine (mapsProg_hosted htext.1 (.value (.int 100)) .nil hok).bind fun _ _ hv => ?_
  rw [hv.toText]
  refine (mapsProg_emitLine hcell _).bind fun _ _ _ => (mapsProg_note _ _ _).bind fun _ _ _ => ?_
  refine (hfunction hunit.2 hsquares).bind fun _ _ _ => ?_
  refine (hfunction htext.2 hok).bind fun _ _ hv => ?_
  rw [hv.toText]
  exact mapsProg_emitLine hcell _

end State

/-! ### Generators -/

namespace Generators

open Generator

theorem mapsHandler (item : String) : σ.MapsHandler rest (handler item) (handler item) where
  answer := rfl
  clauses :=
    .cons ⟨rfl, .noManage fun _ _ _ _ _ _ _ hv hr => MapsProg.answer
      ((mapsProg_take hr).bind fun _ _ hr => mapsProg_pure (.present (.pair hv (.resumption hr))))⟩
    .nil
  onReturn _ _ _ _ _ _ := .done nofun .absent
  distinct := rfl

theorem mapsProg_yield (item : String) {l l' : Int} (hl : σ.MapsLabel l l') {v v' : Value}
    (hv : σ.MapsValue v v') : σ.MapsProg rest Eq (yield item l v) (yield item l' v') :=
  (mapsProg_invoke (mapsCommand hv .nil) (.labelledOfType _ hl)).bind fun _ _ _ => mapsProg_pure rfl

theorem mapsProg_make {item : String} (hused : handlerName item ∈ σ.handlers)
    {body body' : Int → Task Unit}
    (hbody : ∀ l l', σ.MapsLabel l l' → σ.MapsProg rest Eq (body l) (body' l')) :
    σ.MapsProg rest σ.MapsValue (make item [] body) (make item [] body') :=
  fun ℓ k k' hk => .label fun l l' hl =>
    ((mapsProg_alloc (.value .unit)).bind fun _ _ hc =>
      MapsProg.handle (mapsInstalling hused (.some hl) hc .nil) fun _ _ _ =>
        (hbody l l' hl).bind fun _ _ _ => mapsProg_pure .unit) ℓ k k' hk

theorem mapsProg_next {s s' : Value} (hs : σ.MapsValue s s') :
    σ.MapsProg rest (Option.Rel fun x x' => σ.MapsValue x.1 x'.1 ∧ σ.MapsValue x.2 x'.2)
      (next s) (next s') := by
  cases hs with
  | present h =>
    cases h with
    | pair hv hr =>
      cases hr with
      | resumption hr =>
        exact (mapsProg_resume hr .unit).bind fun _ _ hs => mapsProg_pure (.some ⟨hv, hs⟩)
      | _ => exact mapsProg_pure .none
    | _ => exact mapsProg_pure .none
  | _ => exact mapsProg_pure .none

theorem mapsProg_naturals {l l' : Int} (hl : σ.MapsLabel l l') :
    σ.MapsProg rest Eq (naturals l) (naturals l') :=
  (MapsProg.loop (.int 1) fun _ _ hn => (mapsProg_yield _ hl hn).bind fun _ _ _ =>
    hn.toInt ▸ mapsProg_pure (.pair (.bool true) (.int _))).bind fun _ _ _ => mapsProg_pure rfl

theorem mapsProg_peaks {l l' : Int} (hl : σ.MapsLabel l l') :
    σ.MapsProg rest Eq (peaks l) (peaks l') := by
  unfold peaks
  generalize ["Everest", "K2", "Kangchenjunga", "Lhotse", "Makalu"] = names
  suffices hall : ∀ p p' : Task Unit, σ.MapsProg rest Eq p p' → σ.MapsProg rest Eq
      (names.foldl (fun earlier peak => do earlier; yield "&str" l (.text peak)) p)
      (names.foldl (fun earlier peak => do earlier; yield "&str" l' (.text peak)) p') from
    hall _ _ (mapsProg_pure rfl)
  induction names with
  | nil => exact fun _ _ h => h
  | cons name names ih =>
    exact fun _ _ h => ih _ _ (h.bind fun _ _ _ => mapsProg_yield _ hl (.text name))

theorem mapsProg_demo (hcell : Transcript.cell ∈ σ.kept)
    (hused : ∀ item ∈ ["i32", "&str"], handlerName item ∈ σ.handlers) :
    σ.MapsProg rest Eq demo demo := by
  refine (mapsProg_make (hused _ (by decide)) fun _ _ => mapsProg_naturals).bind fun _ _ hnumbers => ?_
  refine (mapsProg_make (hused _ (by decide)) fun _ _ => mapsProg_peaks).bind fun _ _ hnames => ?_
  refine (MapsProg.loop (.pair hnumbers hnames) fun s s' hs => ?_).bind fun _ _ hv =>
    mapsProg_release hv.owned
  cases hs with
  | pair hnumbers hnames =>
    refine (mapsProg_next hnumbers).bind fun x x' hx => ?_
    cases hx with
    | none => exact mapsProg_pure (.pair (.bool false) hnames)
    | @some x x' hx =>
      refine (mapsProg_next hnames).bind fun y y' hy => ?_
      cases hy with
      | none => exact mapsProg_pure (.pair (.bool false) hx.2)
      | @some y y' hy =>
        dsimp only
        rw [hx.1.toInt, hy.1.toText]
        exact (mapsProg_emitLine hcell _).bind fun _ _ _ =>
          mapsProg_pure (.pair (.bool true) (.pair hx.2 hy.2))
  | unit => exact mapsProg_pure (.pair (.bool false) .unit)
  | int n => exact mapsProg_pure (.pair (.bool false) (.int n))
  | bool b => exact mapsProg_pure (.pair (.bool false) (.bool b))
  | text s => exact mapsProg_pure (.pair (.bool false) (.text s))
  | absent => exact mapsProg_pure (.pair (.bool false) .absent)
  | present h => exact mapsProg_pure (.pair (.bool false) (.present h))
  | cell h => exact mapsProg_pure (.pair (.bool false) (.cell h))
  | reference h => exact mapsProg_pure (.pair (.bool false) (.reference h))
  | closure h => exact mapsProg_pure (.pair (.bool false) (.closure h))
  | resumption h => exact mapsProg_pure (.pair (.bool false) (.resumption h))

end Generators

/-! ### Fallback values -/

namespace Fallbacks

open Fallback

theorem mapsHandler : σ.MapsHandler rest handler handler where
  answer := rfl
  clauses := .cons ⟨rfl, .noResume fun _ _ _ _ hc _ => (mapsProg_readValue (.inl hc)).answer⟩ .nil
  onReturn _ _ _ _ _ hv := .done nofun hv
  distinct := rfl

theorem mapsProg_multiply (acc : Int) (xs : List Int) :
    σ.MapsProg rest σ.MapsValue (multiply acc xs) (multiply acc xs) := by
  induction xs generalizing acc with
  | nil => exact mapsProg_pure (.int acc)
  | cons x xs ih =>
    have hnext : σ.MapsProg rest σ.MapsValue
        (do multiply (← Prog.checked (Word.mul? acc x)) xs)
        (do multiply (← Prog.checked (Word.mul? acc x)) xs) := (mapsProg_checked _).bindSame ih
    unfold multiply
    split
    · exact (mapsProg_tell _ .unit).bind fun _ _ _ => hnext
    · exact hnext

theorem mapsProg_demo (hcell : Transcript.cell ∈ σ.kept) (hused : handlerName ∈ σ.handlers) :
    σ.MapsProg rest Eq demo demo := by
  have hproduct : ∀ xs, σ.MapsProg rest σ.MapsValue (product xs) (product xs) := fun xs =>
    mapsProg_hosted hused (.value (.int 0)) .nil (mapsProg_multiply 1 xs)
  refine (hproduct _).bind fun _ _ hv => ?_
  rw [hv.toInt]
  refine (mapsProg_emitLine hcell _).bind fun _ _ _ => (hproduct _).bind fun _ _ hv => ?_
  rw [hv.toInt]
  exact mapsProg_emitLine hcell _

end Fallbacks

/-! ### Fuel -/

namespace Fuels

open Fuel

theorem mapsProg_consume (amount : Int) : σ.MapsProg rest Eq (consume amount) (consume amount) :=
  (mapsProg_tell _ (.int amount)).bind fun _ _ _ => mapsProg_pure rfl

theorem mapsHandler_bounded : σ.MapsHandler rest bounded bounded where
  answer := rfl
  clauses :=
    .cons ⟨rfl, .resumptive fun c c' v v' r r' hc hv hr => by
      refine (mapsProg_readInt (.inl hc)).bindSameAnswer fun left => ?_
      simp only [hv.toInt]
      split
      · exact ((mapsProg_note _ _ _).bind fun _ _ _ => mapsProg_pure .absent).answer
      · exact (mapsProg_checked _).bindSameAnswer fun _ =>
          (mapsProg_writeInt (.inl hc) _).bindAnswer fun _ _ _ => mapsAnswer_tail hr .unit⟩
    .nil
  onReturn _ _ _ _ _ hv := .done nofun (.present hv)
  distinct := rfl

theorem mapsHandler_measure : σ.MapsHandler rest measure measure where
  answer := rfl
  clauses :=
    .cons ⟨rfl, .resumptive fun c c' v v' r r' hc hv hr => by
      refine (mapsProg_readInt (.inl hc)).bindSameAnswer fun used => ?_
      rw [hv.toInt]
      exact (mapsProg_checked _).bindSameAnswer fun _ =>
        (mapsProg_writeInt (.inl hc) _).bindAnswer fun _ _ _ => mapsAnswer_tail hr .unit⟩
    .nil
  onReturn _ _ _ _ hc hv := MapsProg.answer
    ((mapsProg_readInt (.inl hc)).bindSame fun n => mapsProg_pure (.pair hv (.int n)))
  distinct := rfl

/-- Code that calls a procedure twice, with smaller numbers. -/
theorem mapsProg_branch {procedure : String} (hused : procedure ∈ σ.procedures) {n n' : Value}
    (hn : σ.MapsValue n n') :
    σ.MapsProg rest σ.MapsValue
      (if n = .int 0 ∨ n = .int 1 then
        return n
      else do
        let a ← Prog.call procedure (.int (← Prog.checked (Word.sub? n.toInt 1)))
        let b ← Prog.call procedure (.int (← Prog.checked (Word.sub? n.toInt 2)))
        return .int (← Prog.checked (Word.add? a.toInt b.toInt)))
      (if n' = .int 0 ∨ n' = .int 1 then
        return n'
      else do
        let a ← Prog.call procedure (.int (← Prog.checked (Word.sub? n'.toInt 1)))
        let b ← Prog.call procedure (.int (← Prog.checked (Word.sub? n'.toInt 2)))
        return .int (← Prog.checked (Word.add? a.toInt b.toInt))) := by
  simp only [hn.eq_int, hn.toInt]
  split
  · exact mapsProg_pure hn
  · refine (mapsProg_checked _).bindSame fun _ => ?_
    refine (mapsProg_call hused (.int _)).bind fun _ _ ha => ?_
    refine (mapsProg_checked _).bindSame fun _ => ?_
    refine (mapsProg_call hused (.int _)).bind fun _ _ hb => ?_
    rw [ha.toInt, hb.toInt]
    exact (mapsProg_checked _).bindSame fun _ => mapsProg_pure (.int _)

theorem mapsProg_fibStep (hused : fibName ∈ σ.procedures) {n n' : Value} (hn : σ.MapsValue n n') :
    σ.MapsProg rest σ.MapsValue (fibStep n) (fibStep n') :=
  (mapsProg_consume 1).bind fun _ _ _ => mapsProg_branch hused hn

theorem mapsProg_demo (hcell : Transcript.cell ∈ σ.kept) (hbounded : boundedName ∈ σ.handlers)
    (hmeasure : measureName ∈ σ.handlers) (hfib : fibName ∈ σ.procedures) (budget : Int) :
    σ.MapsProg rest Eq (demo budget) (demo budget) := by
  refine (mapsProg_forEachSame _ fun n => ?_).bind fun _ _ _ => mapsProg_forEachSame _ fun n => ?_
  · refine (mapsProg_hosted hbounded (.value (.int budget)) .nil
      (mapsProg_call hfib (.int n))).bind fun _ _ hv => ?_
    cases hv with
    | present hv =>
      dsimp only
      rw [hv.toInt]
      exact mapsProg_emitLine hcell _
    | _ => exact mapsProg_emitLine hcell _
  · refine (mapsProg_hosted hmeasure (.value (.int 0)) .nil
      (mapsProg_call hfib (.int n))).bind fun _ _ hv => ?_
    cases hv with
    | pair ha hb =>
      dsimp only
      rw [ha.toInt, hb.toInt]
      exact mapsProg_emitLine hcell _
    | _ => exact mapsProg_pure rfl

end Fuels

/-! ### Sinks -/

namespace Sinks

open Sink

theorem mapsHandler : σ.MapsHandler rest handler handler where
  answer := rfl
  clauses := .cons ⟨rfl, .resumptive fun _ _ _ _ _ _ _ _ hr => mapsAnswer_tail hr .unit⟩ .nil
  onReturn _ _ _ _ hc hv := by
    refine (mapsProg_readValue (.inl hc)).bindAnswer fun _ _ hsink => ?_
    cases hsink with
    | cell hsink =>
      dsimp only
      rw [hv.toInt]
      exact ((mapsProg_readText (.inl hsink)).bindSame fun _ =>
        (mapsProg_writeText (.inl hsink) _).bind fun _ _ _ => mapsProg_pure (.present hv)).answer
    | _ => exact (mapsProg_pure (.present hv)).answer
  distinct := rfl

theorem mapsProg_fibStep (hused : fibName ∈ σ.procedures) {n n' : Value} (hn : σ.MapsValue n n') :
    σ.MapsProg rest σ.MapsValue (fibStep n) (fibStep n') :=
  (mapsProg_tell _ .unit).bind fun _ _ _ => Fuels.mapsProg_branch hused hn

theorem mapsProg_withSink (hused : handlerName ∈ σ.handlers) {c c' : CellId} (hc : σ.MapsCell c c')
    {body body' : Task Value} (hbody : σ.MapsProg rest σ.MapsValue body body') :
    σ.MapsProg rest σ.MapsValue (withSink c [] body) (withSink c' [] body') :=
  (mapsProg_retain (.cell hc)).bind fun _ _ _ => mapsProg_hosted hused (.value (.cell hc)) .nil hbody

theorem mapsProg_demo (hused : handlerName ∈ σ.handlers) (hfib : fibName ∈ σ.procedures) :
    σ.MapsProg rest Eq demo demo := by
  refine (mapsProg_alloc (.value (.text ""))).bind fun out out' hout => ?_
  refine (mapsProg_alloc (.value (.text ""))).bind fun err err' herr => ?_
  have hruns : List.Forall₂ (fun x x' => x.1 = x'.1 ∧ σ.MapsCell x.2 x'.2)
      [((5 : Int), out), (10, err), (15, out), (20, err)]
      [((5 : Int), out'), (10, err'), (15, out'), (20, err')] :=
    .cons ⟨rfl, hout⟩ (.cons ⟨rfl, herr⟩ (.cons ⟨rfl, hout⟩ (.cons ⟨rfl, herr⟩ .nil)))
  refine (mapsProg_forEach hruns fun x x' hx => ?_).bind fun _ _ _ => ?_
  · obtain ⟨n, sink⟩ := x
    obtain ⟨n', sink'⟩ := x'
    obtain ⟨rfl, hsink⟩ := hx
    exact (mapsProg_withSink hused hsink (mapsProg_call hfib (.int _))).bind fun _ _ _ =>
      mapsProg_pure rfl
  · refine (mapsProg_readText (.inl hout)).bindSame fun text => ?_
    refine (mapsProg_readText (.inl herr)).bindSame fun text' => ?_
    exact (mapsProg_release (.cons (.cell hout) (.cons (.cell herr) .nil))).bind fun _ _ _ =>
      mapsProg_pure rfl

end Sinks

/-! ### Delimited control -/

namespace Delimits

open Delimited

theorem mapsHandler (k : Kind) : σ.MapsHandler rest (handler k) (handler k) where
  answer := rfl
  clauses :=
    .cons ⟨rfl, .resumptive fun _ _ v v' r r' _ hv hr => by
      cases hv with
      | closure hf => exact MapsProg.answer ((mapsProg_take hr).bind fun _ _ hr =>
          mapsProg_apply hf (.resumption hr))
      | _ => exact (mapsProg_pure .unit).answer⟩
    .nil
  onReturn _ _ _ _ _ hv := .done nofun hv
  distinct := rfl

theorem mapsProg_shift (k : Kind) {f f' : ClosureId → Task Value}
    (hf : ∀ x x', σ.MapsClosure x x' → σ.MapsProg rest σ.MapsValue (f x) (f' x')) :
    σ.MapsProg rest σ.MapsValue (shift k [] f) (shift k [] f') := by
  refine (MapsProg.closure .nil fun v v' hv => ?_).bind fun _ _ hbody =>
    mapsProg_invoke (mapsCommand (.closure hbody) (.cons (.closure hbody) .nil)) .innermost
  cases hv with
  | resumption hr =>
    exact (MapsProg.closure (.cons (.resumption hr) .nil) fun _ _ hv => mapsProg_resume hr hv).bind hf
  | _ => exact mapsProg_pure .unit

theorem mapsProg_demo (hcell : Transcript.cell ∈ σ.kept)
    (hused : handlerName .sentence ∈ σ.handlers) : σ.MapsProg rest Eq demo demo := by
  refine (mapsProg_hosted hused (.value .unit) .nil ?_).bind fun _ _ hv => ?_
  · refine (mapsProg_shift _ fun k k' hk => ?_).bind fun _ _ hn => ?_
    · refine (mapsProg_apply hk (.int 3)).bind fun _ _ hsentence => ?_
      rw [hsentence.toText]
      exact mapsProg_pure (.text _)
    · rw [hn.toInt]
      exact mapsProg_pure (.text _)
  · rw [hv.toText]
    exact mapsProg_emitLine hcell _

end Delimits

/-! ### Transactions -/

namespace Transactions

open Transaction

theorem mapsHandler : σ.MapsHandler rest handler handler where
  answer := rfl
  clauses :=
    .cons ⟨rfl, .resumptive fun _ _ _ _ _ _ _ _ _ => .done nofun (.bool false)⟩
    (.cons ⟨rfl, .resumptive fun _ _ v v' r r' _ hv hr => by
      refine (mapsProg_resume hr .unit).bindAnswer fun w w' hw => ?_
      have hcommitted : σ.MapsAnswer rest (pure w) (pure w') := (mapsProg_pure hw).answer
      rw [hw.isTrue]
      cases hv with
      | pair ha hb =>
        cases ha with
        | cell hc =>
          cases w.isTrue with
          | true => exact hcommitted
          | false =>
            exact (mapsProg_writeValue (.inl hc) hb).bindAnswer fun _ _ _ => hcommitted
        | _ => exact hcommitted
      | _ => exact hcommitted⟩ .nil)
  onReturn _ _ _ _ _ _ := .done nofun (.bool true)
  distinct := show HandlerType.duplicate? [] [rollbackCommand, assignCommand] = none by decide

theorem mapsProg_track {c c' : CellId} (hc : σ.MapsCell c c') {v : Value} (hv : σ.MapsValue v v) :
    σ.MapsProg rest Eq (track c v) (track c' v) :=
  (mapsProg_readValue (.inl hc)).bind fun _ _ hold =>
    (mapsProg_writeValue (.inl hc) hv).bind fun _ _ _ =>
      (mapsProg_retain (.cell hc)).bind fun _ _ _ =>
        (mapsProg_invoke (mapsCommand (.pair (.cell hc) hold) (.cons (.cell hc) .nil))
          .innermost).bind fun _ _ _ => mapsProg_pure rfl

theorem mapsProg_showBoth (hcell : Transcript.cell ∈ σ.kept) {x x' c c' : CellId}
    (hx : σ.MapsCell x x') (hc : σ.MapsCell c c') :
    σ.MapsProg rest Eq (showBoth x c) (showBoth x' c') :=
  (mapsProg_readInt (.inl hx)).bindSame fun _ => (mapsProg_readText (.inl hc)).bindSame fun _ =>
    mapsProg_emitLine hcell _

theorem mapsProg_demo (hcell : Transcript.cell ∈ σ.kept) (hused : handlerName ∈ σ.handlers) :
    σ.MapsProg rest Eq demo demo := by
  refine (mapsProg_alloc (.value (.int 1))).bind fun x x' hx => ?_
  refine (mapsProg_alloc (.value (.text "a"))).bind fun c c' hc => ?_
  have hshow : σ.MapsProg rest Eq (showBoth x c) (showBoth x' c') := mapsProg_showBoth hcell hx hc
  have hnumber : ∀ n, σ.MapsProg rest Eq (track x (.int n)) (track x' (.int n)) := fun n =>
    mapsProg_track hx (.int n)
  have htext : ∀ s, σ.MapsProg rest Eq (track c (.text s)) (track c' (.text s)) := fun s =>
    mapsProg_track hc (.text s)
  refine (mapsProg_hosted hused (.value .unit) .nil ?_).bind fun _ _ hv => ?_
  · refine hshow.bind fun _ _ _ => (hnumber _).bind fun _ _ _ => (htext _).bind fun _ _ _ => ?_
    refine hshow.bind fun _ _ _ => (hnumber _).bind fun _ _ _ => (htext _).bind fun _ _ _ => ?_
    refine hshow.bind fun _ _ _ => (mapsProg_emitLine hcell _).bind fun _ _ _ => ?_
    refine ((mapsProg_tell _ .unit).bind fun _ _ _ => mapsProg_pure rfl).bind fun _ _ _ => ?_
    exact (hnumber _).bind fun _ _ _ => (htext _).bind fun _ _ _ => mapsProg_pure .unit
  · rw [hv.isTrue]
    exact (mapsProg_note _ _ _).bind fun _ _ _ => hshow.bind fun _ _ _ =>
      mapsProg_release (.cons (.cell hx) (.cons (.cell hc) .nil))

end Transactions

/-! ### Round-robin threads -/

namespace Threads

open RoundRobin

theorem mapsProg_enqueue (hqueue : queue ∈ σ.kept) {r r' : ResumptionId}
    (hr : σ.MapsResumption r r') : σ.MapsProg rest Eq (enqueue r) (enqueue r') :=
  mapsProg_pushBack (mapsAccess_kept hqueue) (.resumption hr)

theorem mapsHandler (hqueue : queue ∈ σ.kept) : σ.MapsHandler rest handler handler where
  answer := rfl
  clauses :=
    .cons ⟨rfl, .resumptive fun _ _ _ _ _ _ _ _ hr => MapsProg.answer
      ((mapsProg_take hr).bind fun _ _ hr => (mapsProg_enqueue hqueue hr).bind fun _ _ _ =>
        mapsProg_pure .unit)⟩
    (.cons ⟨rfl, .resumptive fun _ _ v v' r r' _ hv hr => by
      refine MapsProg.answer ((mapsProg_take hr).bind fun _ _ hr =>
        (mapsProg_enqueue hqueue hr).bind fun _ _ _ => ?_)
      cases hv with
      | closure hf =>
        exact (mapsProg_function _ hf).bind fun _ _ hr => (mapsProg_enqueue hqueue hr).bind
          fun _ _ _ => mapsProg_pure .unit
      | _ => exact mapsProg_pure .unit⟩ .nil)
  onReturn _ _ _ _ _ _ := .done nofun .unit
  distinct := show HandlerType.duplicate? [] [yieldCommand, forkCommand] = none by decide

theorem mapsProg_spawn (hused : handlerName ∈ σ.handlers) {p p' : Task Unit}
    (hp : σ.MapsProg rest Eq p p') : σ.MapsProg rest Eq (spawn [] p) (spawn [] p') :=
  (mapsProg_hosted hused (.value .unit) .nil (hp.bind fun _ _ _ => mapsProg_pure .unit)).bind
    fun _ _ _ => mapsProg_pure rfl

theorem mapsProg_fork (hused : handlerName ∈ σ.handlers) {p p' : Task Unit}
    (hp : σ.MapsProg rest Eq p p') : σ.MapsProg rest Eq (fork [] p) (fork [] p') :=
  (MapsProg.closure .nil fun _ _ _ => (mapsProg_spawn hused hp).bind fun _ _ _ =>
    mapsProg_pure .unit).bind fun _ _ hf =>
      (mapsProg_invoke (mapsCommand (.closure hf) (.cons (.closure hf) .nil)) .innermost).bind
        fun _ _ _ => mapsProg_pure rfl

theorem mapsProg_start (hused : handlerName ∈ σ.handlers) (hqueue : queue ∈ σ.kept)
    {p p' : Task Unit} (hp : σ.MapsProg rest Eq p p') :
    σ.MapsProg rest Eq (start p) (start p') := by
  refine (mapsProg_spawn hused hp).bind fun _ _ _ => (MapsProg.loop .unit fun _ _ _ => ?_).bind
    fun _ _ _ => mapsProg_pure rfl
  refine (mapsProg_popFront (mapsAccess_kept hqueue)).bind fun x x' hx => ?_
  have hstop : σ.MapsProg rest σ.MapsValue (pure (Comp.stop .unit)) (pure (Comp.stop .unit)) :=
    mapsProg_pure (.pair (.bool false) .unit)
  cases hx with
  | none => exact hstop
  | some hv =>
    cases hv with
    | resumption hr =>
      exact (mapsProg_resume hr .unit).bind fun _ _ _ => mapsProg_pure (.pair (.bool true) .unit)
    | _ => exact hstop

theorem mapsProg_countTo (bound : Nat) {f : Nat → Task Unit}
    (hf : ∀ k, σ.MapsProg rest Eq (f k) (f k)) :
    σ.MapsProg rest Eq (countTo bound f) (countTo bound f) := by
  refine (MapsProg.loop (.int 0) fun i i' hi => ?_).bind fun _ _ _ => mapsProg_pure rfl
  simp only [hi.toInt]
  split
  · exact (hf _).bind fun _ _ _ => mapsProg_pure (.pair (.bool true) (.int _))
  · exact mapsProg_pure (.pair (.bool false) .unit)

theorem mapsProg_demo (hcell : Transcript.cell ∈ σ.kept) (hqueue : queue ∈ σ.kept)
    (hused : handlerName ∈ σ.handlers) (workers steps : Nat) :
    σ.MapsProg rest Eq (demo workers steps) (demo workers steps) := by
  refine (mapsProg_start hused hqueue (mapsProg_countTo _ fun k => mapsProg_fork hused
    (mapsProg_countTo _ fun _ => ?_))).bind fun _ _ _ => mapsProg_emit hcell _
  exact (mapsProg_emit hcell _).bind fun _ _ _ => (mapsProg_tell _ .unit).bind fun _ _ _ =>
    mapsProg_pure rfl

end Threads

end EffectHandlers.Rerun

/-!
## Schedulers under other numbers

The schedulers that keep their state in cells of their own, and what runs under them, are the same under
other numbers.
-/

namespace EffectHandlers.Rerun

variable {σ : Rerun} {rest : Comp Content → Comp Content → Prop}

/-! ### Actors -/

namespace Actors

open Actor

theorem mapsProg_readPool {c c' : CellId} (hc : σ.MapsCell c c') :
    σ.MapsProg rest σ.MapsPool (readPool c) (readPool c') :=
  (mapsProg_read (.inl hc)).bind fun _ _ hx => by
    cases hx with
    | pool hp => exact mapsProg_pure hp
    | _ =>
      exact mapsProg_pure
        { label := .inr (.inl ⟨rfl, rfl⟩), current := .inl ⟨rfl, rfl⟩, active := .nil, deadlock := rfl }

theorem mapsProg_writePool {c c' : CellId} (hc : σ.MapsCell c c') {p p' : ActorPool}
    (hp : σ.MapsPool p p') : σ.MapsProg rest Eq (writePool c p) (writePool c' p') :=
  mapsProg_write (.inl hc) (.pool hp)

theorem mapsProg_firstReady {as as' : List ParkedActor} (has : List.Forall₂ σ.MapsActor as as') :
    σ.MapsProg rest (Option.Rel fun x x' => σ.MapsActor x.1 x'.1 ∧ List.Forall₂ σ.MapsActor x.2 x'.2)
      (firstReady as) (firstReady as') := by
  induction has with
  | nil => exact mapsProg_pure .none
  | cons ha has ih =>
    refine (mapsProg_readValue (.inl ha.waiting)).bind fun _ _ hv => ?_
    rw [hv.isTrue]
    split
    · refine ih.bind fun x x' hx => ?_
      cases hx with
      | none => exact mapsProg_pure .none
      | some hx => exact mapsProg_pure (.some ⟨hx.1, .cons ha hx.2⟩)
    · exact mapsProg_pure (.some ⟨ha, has⟩)

theorem mapsAnswer_wake {c c' : CellId} (hc : σ.MapsCell c c') :
    σ.MapsAnswer rest (wake c) (wake c') := by
  refine (mapsProg_readPool hc).bindAnswer fun p p' hp => ?_
  refine (mapsProg_firstReady hp.active).bindAnswer fun x x' hx => ?_
  cases hx with
  | none =>
    dsimp only
    rw [hp.active.length_eq]
    refine MapsProg.bindAnswer (mapsProg_writePool hc ⟨hp.label, hp.current, .nil, rfl⟩)
      fun _ _ _ => (mapsProg_note _ _ _).bindAnswer fun _ _ _ => ?_
    exact ((mapsProg_release (List.rel_flatMap hp.active fun _ _ ha => ha.owned)).bind
      fun _ _ _ => mapsProg_pure .unit).answer
  | some hx =>
    refine MapsProg.bindAnswer
      (mapsProg_writePool hc ⟨hp.label, hx.1.waiting, hx.2, hp.deadlock⟩) fun _ _ _ => ?_
    exact (mapsProg_release (.cons (.cell hp.current) .nil)).bindAnswer fun _ _ _ =>
      mapsAnswer_tail hx.1.resumption .unit

theorem mapsProg_park {c c' : CellId} (hc : σ.MapsCell c c') {a a' : ParkedActor}
    (ha : σ.MapsActor a a') : σ.MapsProg rest Eq (park c a) (park c' a') :=
  (mapsProg_readPool hc).bind fun _ _ hp => mapsProg_writePool hc
    ⟨hp.label, hp.current, List.rel_append hp.active (.cons ha .nil), hp.deadlock⟩

theorem mapsHandler : σ.MapsHandler rest handler handler where
  answer := rfl
  clauses :=
    .cons ⟨rfl, .resumptive fun _ _ _ _ _ _ hc _ hr =>
      (mapsProg_readPool hc).bindAnswer fun _ _ hp =>
        (mapsProg_retain (.cell hp.current)).bindAnswer fun _ _ _ =>
          (mapsProg_take hr).bindAnswer fun _ _ hr =>
            (mapsProg_park hc ⟨hp.current, hr⟩).bindAnswer fun _ _ _ => mapsAnswer_wake hc⟩
    (.cons ⟨rfl, .resumptive fun _ _ v v' r r' hc hv hr => by
      have htail : σ.MapsAnswer rest (Prog.tail r .unit) (Prog.tail r' .unit) :=
        mapsAnswer_tail hr .unit
      cases hv with
      | pair ha hb =>
        cases ha with
        | cell hwaiting =>
          cases hb with
          | closure hf =>
            exact (mapsProg_retain (.cell hwaiting)).bindAnswer fun _ _ _ =>
              (mapsProg_function _ hf).bindAnswer fun _ _ hstart =>
                (mapsProg_park hc ⟨hwaiting, hstart⟩).bindAnswer fun _ _ _ => htail
          | _ => exact htail
        | _ => exact htail
      | _ => exact htail⟩ .nil)
  onReturn _ _ _ _ hc _ := by
    refine (mapsProg_readPool hc).bindAnswer fun p p' hp => ?_
    have hempty : p'.active.isEmpty = p.active.isEmpty := by
      have hactive := hp.active
      generalize p.active = as at hactive
      generalize p'.active = as' at hactive
      cases hactive <;> rfl
    rw [hempty]
    split
    · exact (mapsProg_pure .unit).answer
    · exact mapsAnswer_wake hc
  distinct := show HandlerType.duplicate? [] [yieldCommand, forkCommand] = none by decide

/-- The same address. -/
structure MapsMailbox (σ : Rerun) (a a' : Mailbox) : Prop where
  pool : σ.MapsCell a.pool a'.pool
  inbox : σ.MapsCell a.inbox a'.inbox
  waiting : σ.MapsCell a.waiting a'.waiting

theorem MapsMailbox.owned {a a' : Mailbox} (h : MapsMailbox σ a a') : σ.MapsOwneds a.owned a'.owned :=
  .cons (.cell h.pool) (.cons (.cell h.inbox) (.cons (.cell h.waiting) .nil))

theorem MapsMailbox.toValue {a a' : Mailbox} (h : MapsMailbox σ a a') :
    σ.MapsValue a.toValue a'.toValue := .pair (.cell h.pool) (.pair (.cell h.inbox) (.cell h.waiting))

theorem mapsMailbox_ofValue {v v' : Value} (hv : σ.MapsValue v v') :
    Option.Rel (MapsMailbox σ) (Mailbox.ofValue? v) (Mailbox.ofValue? v') := by
  cases hv with
  | pair ha hb =>
    cases ha with
    | cell hpool =>
      cases hb with
      | pair ha hb =>
        cases ha with
        | cell hinbox =>
          cases hb with
          | cell hwaiting => exact .some ⟨hpool, hinbox, hwaiting⟩
          | _ => exact .none
        | _ => exact .none
      | _ => exact .none
    | _ => exact .none
  | _ => exact .none

theorem mapsProg_newMailbox {c c' : CellId} (hc : σ.MapsCell c c') :
    σ.MapsProg rest (MapsMailbox σ) (newMailbox c) (newMailbox c') :=
  (mapsProg_retain (.cell hc)).bind fun _ _ _ => (mapsProg_alloc (.list .nil)).bind fun _ _ hinbox =>
    (mapsProg_alloc (.value (.bool false))).bind fun _ _ hwaiting =>
      mapsProg_pure ⟨hc, hinbox, hwaiting⟩

theorem mapsProg_start (hused : handlerName ∈ σ.handlers) {c c' w w' : CellId}
    (hc : σ.MapsCell c c') (hw : σ.MapsCell w w') {os os' : List Owned} (ho : σ.MapsOwneds os os')
    {body body' : Task Value} (hbody : σ.MapsProg rest σ.MapsValue body body') :
    σ.MapsProg rest σ.MapsValue (start c w os body) (start c' w' os' body') :=
  (mapsProg_readPool hc).bind fun _ _ hp =>
    MapsProg.bind (mapsProg_writePool hc ⟨hp.label, hw, hp.active, hp.deadlock⟩) fun _ _ _ =>
      (mapsProg_release (.cons (.cell hp.current) .nil)).bind fun _ _ _ =>
        (mapsProg_retain (.cell hc)).bind fun _ _ _ =>
          MapsProg.handle (mapsInstalling hused (.some hp.label) hc ho) fun _ _ _ => hbody

theorem mapsProg_run (hused : handlerName ∈ σ.handlers) {main main' : Mailbox → Task Value}
    (hmain : ∀ a a', MapsMailbox σ a a' → σ.MapsProg rest σ.MapsValue (main a) (main' a')) :
    σ.MapsProg rest σ.MapsValue (run [] main) (run [] main') := by
  refine fun ℓ k k' hk => .label fun l l' hl => ?_
  refine MapsProg.bind (S := σ.MapsValue) (mapsProg_alloc (.value (.bool false)))
    (fun current current' hcurrent => ?_) ℓ k k' hk
  refine MapsProg.bind (mapsProg_alloc (.pool ⟨hl, hcurrent, .nil, rfl⟩)) fun pool pool' hpool => ?_
  refine (mapsProg_newMailbox hpool).bind fun me me' hme => ?_
  refine (mapsProg_retain (.cell hme.waiting)).bind fun _ _ _ => .scope (.cons (.cell hpool) .nil) ?_
  refine (mapsProg_start hused hpool hme.waiting hme.owned (hmain _ _ hme)).bind fun _ _ _ => ?_
  refine (mapsProg_readPool hpool).bind fun p p' hp => ?_
  rw [hp.deadlock]
  cases p.deadlock with
  | none => exact mapsProg_pure .absent
  | some parked => exact mapsProg_pure (.present (.int _))

theorem mapsProg_yield {c c' : CellId} (hc : σ.MapsCell c c') :
    σ.MapsProg rest Eq (yield c) (yield c') :=
  (mapsProg_readPool hc).bind fun _ _ hp =>
    (mapsProg_invoke (mapsCommand .unit .nil) (.labelled hp.label)).bind fun _ _ _ => mapsProg_pure rfl

theorem mapsProg_send {a a' : Mailbox} (ha : MapsMailbox σ a a') {v v' : Value}
    (hv : σ.MapsValue v v') : σ.MapsProg rest Eq (send a v) (send a' v') :=
  (mapsProg_writeValue (.inl ha.waiting) (.bool false)).bind fun _ _ _ =>
    (mapsProg_pushBack (.inl ha.inbox) hv).bind fun _ _ _ => mapsProg_yield ha.pool

theorem mapsProg_receive {a a' : Mailbox} (ha : MapsMailbox σ a a') :
    σ.MapsProg rest σ.MapsValue (receive a) (receive a') :=
  .loop .unit fun _ _ _ => (mapsProg_popFront (.inl ha.inbox)).bind fun x x' hx => by
    cases hx with
    | none =>
      exact (mapsProg_writeValue (.inl ha.waiting) (.bool true)).bind fun _ _ _ =>
        (mapsProg_yield ha.pool).bind fun _ _ _ => mapsProg_pure (.pair (.bool true) .unit)
    | some hv => exact mapsProg_pure (.pair (.bool false) hv)

theorem mapsProg_spawn (hused : handlerName ∈ σ.handlers) {c c' : CellId} (hc : σ.MapsCell c c')
    {body body' : Mailbox → Task Value}
    (hbody : ∀ a a', MapsMailbox σ a a' → σ.MapsProg rest σ.MapsValue (body a) (body' a')) :
    σ.MapsProg rest (MapsMailbox σ) (spawn c [] body) (spawn c' [] body') := by
  refine (mapsProg_newMailbox hc).bind fun child child' hchild => ?_
  refine (mapsProg_readPool hc).bind fun p p' hp => ?_
  have hwaiting : σ.MapsOwned (.cell child.waiting) (.cell child'.waiting) := .cell hchild.waiting
  refine (mapsProg_retainAll (List.rel_append hchild.owned
    (.cons (.cell hc) (.cons hwaiting (.cons hwaiting .nil))))).bind fun _ _ _ => ?_
  refine (MapsProg.closure (.cons (.cell hc) (.cons hwaiting hchild.owned)) fun _ _ _ =>
    .scope (.cons (.cell hc) .nil)
      (mapsProg_start hused hc hchild.waiting hchild.owned (hbody _ _ hchild))).bind fun f f' hf => ?_
  refine MapsProg.bind (R := Eq) ?_ fun _ _ _ => mapsProg_pure hchild
  refine (MapsProg.scope hchild.owned ?_).bind fun _ _ _ => mapsProg_pure rfl
  refine MapsProg.bind (R := Eq) ?_ fun _ _ _ =>
    (mapsProg_retainAll hchild.owned).bind fun _ _ _ => mapsProg_pure .unit
  exact (mapsProg_invoke (mapsCommand (.pair (.cell hchild.waiting) (.closure hf))
    (.cons hwaiting (.cons (.closure hf) .nil))) (.labelled hp.label)).bind fun _ _ _ =>
      mapsProg_pure rfl

theorem mapsProg_echo (hcell : Transcript.cell ∈ σ.kept) {a a' : Mailbox} (ha : MapsMailbox σ a a') :
    σ.MapsProg rest σ.MapsValue (echo a) (echo a') := by
  have hagain : σ.MapsProg rest σ.MapsValue (pure (Comp.again .unit)) (pure (Comp.again .unit)) :=
    mapsProg_pure (.pair (.bool true) .unit)
  refine .loop .unit fun _ _ _ => (mapsProg_receive ha).bind fun v v' hv => ?_
  cases hv with
  | pair hsender hn =>
    cases hn with
    | int n =>
      refine .scope hsender.owned ?_
      split
      · exact (mapsProg_emitLine hcell _).bind fun _ _ _ => mapsProg_pure (.pair (.bool false) .unit)
      · have hfound := mapsMailbox_ofValue hsender
        generalize Mailbox.ofValue? _ = x at hfound
        generalize Mailbox.ofValue? _ = x' at hfound
        cases hfound with
        | none => exact hagain
        | some haddress => exact (mapsProg_send haddress (.int n)).bind fun _ _ _ => hagain
    | _ => exact hagain
  | _ => exact hagain

theorem mapsProg_sendNumber {me me' a a' : Mailbox} (hme : MapsMailbox σ me me')
    (ha : MapsMailbox σ a a') (n : Int) :
    σ.MapsProg rest Eq (sendNumber me a n) (sendNumber me' a' n) :=
  (mapsProg_retainAll hme.owned).bind fun _ _ _ => mapsProg_send ha (.pair hme.toValue (.int n))

theorem mapsProg_starter (hcell : Transcript.cell ∈ σ.kept) (hused : handlerName ∈ σ.handlers)
    (rounds : Int) {me me' : Mailbox} (hme : MapsMailbox σ me me') :
    σ.MapsProg rest σ.MapsValue (starter rounds me) (starter rounds me') := by
  refine (mapsProg_spawn hused hme.pool fun _ _ ha => mapsProg_echo hcell ha).bind fun a a' ha => ?_
  refine .scope ha.owned ((MapsProg.loop (.int 0) fun i i' hi => ?_).bind fun _ _ _ =>
    (mapsProg_sendNumber hme ha _).bind fun _ _ _ => mapsProg_pure .unit)
  simp only [hi.toInt]
  split
  · refine (mapsProg_emit hcell _).bind fun _ _ _ => (mapsProg_sendNumber hme ha _).bind fun _ _ _ => ?_
    refine (mapsProg_receive hme).bind fun _ _ hv => ?_
    rw [hv.toInt]
    exact (mapsProg_emitLine hcell _).bind fun _ _ _ => mapsProg_pure (.pair (.bool true) (.int _))
  · exact mapsProg_pure (.pair (.bool false) .unit)

theorem mapsProg_demo (hcell : Transcript.cell ∈ σ.kept) (hused : handlerName ∈ σ.handlers)
    (rounds : Int) : σ.MapsProg rest Eq (demo rounds) (demo rounds) := by
  refine (mapsProg_run hused fun _ _ hme => mapsProg_starter hcell hused rounds hme).bind
    fun _ _ hv => ?_
  cases hv with
  | present hv =>
    dsimp only
    rw [hv.toInt]
    exact mapsProg_emitLine hcell _
  | _ => exact mapsProg_pure rfl

end Actors

/-! ### Futures -/

namespace Futures

open Promise

theorem mapsProg_readFuture {c c' : CellId} (hc : σ.MapsCell c c') :
    σ.MapsProg rest σ.MapsFuture (readFuture c) (readFuture c') :=
  (mapsProg_read (.inl hc)).bind fun _ _ hx => by
    cases hx with
    | future hf => exact mapsProg_pure hf
    | _ => exact mapsProg_pure ⟨.none, .nil⟩

theorem mapsProg_chooseBy (hchoices : choices ∈ σ.kept) (draw : Draws → Nat × Draws) :
    σ.MapsProg rest Eq (Agenda.chooseBy draw) (Agenda.chooseBy draw) :=
  (mapsProg_read (mapsAccess_kept hchoices)).bind fun _ _ hx => by
    cases hx with
    | draws d =>
      cases d with
      | none => exact mapsProg_pure rfl
      | some d =>
        exact (mapsProg_write (mapsAccess_kept hchoices) (.draws _)).bind fun _ _ _ =>
          mapsProg_pure rfl
    | _ => exact mapsProg_pure rfl

theorem mapsProg_choose (hchoices : choices ∈ σ.kept) (length : Nat) :
    σ.MapsProg rest Eq (choose length) (choose length) := by
  rw [Agenda.choose_eq]
  exact mapsProg_chooseBy hchoices _

theorem mapsProg_wakeRandom (hqueue : queue ∈ σ.kept) (hchoices : choices ∈ σ.kept) :
    σ.MapsProg rest Eq wakeRandom wakeRandom := by
  refine (mapsProg_readList (mapsAccess_kept hqueue)).bind fun vs vs' hvs => ?_
  have hempty : vs'.isEmpty = vs.isEmpty := by cases hvs <;> rfl
  rw [hempty, hvs.length_eq]
  split
  · exact mapsProg_pure rfl
  refine (mapsProg_choose hchoices _).bindSame fun i => ?_
  refine (mapsProg_write (mapsAccess_kept hqueue) (.list ?_)).bind fun _ _ _ => ?_
  · rw [List.eraseIdx_eq_take_drop_succ, List.eraseIdx_eq_take_drop_succ]
    exact List.rel_append (List.forall₂_take i hvs) (List.forall₂_drop (i + 1) hvs)
  · have hpick : Option.Rel σ.MapsValue vs[i]? vs'[i]? := by
      rw [← List.head?_drop, ← List.head?_drop]
      have hdrop := List.forall₂_drop i hvs
      generalize vs.drop i = us at hdrop
      generalize vs'.drop i = us' at hdrop
      cases hdrop with
      | nil => exact .none
      | cons hv _ => exact .some hv
    generalize vs[i]? = x at hpick
    generalize vs'[i]? = x' at hpick
    cases hpick with
    | none => exact mapsProg_pure rfl
    | some hv =>
      cases hv with
      | resumption hr =>
        exact (mapsProg_resume hr .unit).bind fun _ _ _ => mapsProg_pure rfl
      | _ => exact mapsProg_pure rfl

theorem mapsProg_futureOf {c c' : CellId} (hc : σ.MapsCell c c') :
    σ.MapsProg rest σ.MapsCell (futureOf c) (futureOf c') :=
  (mapsProg_readValue (.inl hc)).bind fun _ _ hv => by
    cases hv with
    | cell hc => exact mapsProg_pure hc
    | _ => exact mapsProg_pure (.inl ⟨rfl, rfl⟩)

theorem mapsResumptions {rs rs' : List ResumptionId} (h : List.Forall₂ σ.MapsResumption rs rs') :
    List.Forall₂ σ.MapsValue (rs.map .resumption) (rs'.map .resumption) :=
  List.forall₂_map_left_iff.mpr (List.forall₂_map_right_iff.mpr (h.imp fun _ _ hr => .resumption hr))

theorem mapsHandler (hqueue : queue ∈ σ.kept) (hchoices : choices ∈ σ.kept) :
    σ.MapsHandler rest handler handler where
  answer := rfl
  clauses :=
    .cons ⟨rfl, .resumptive fun _ _ _ _ _ _ _ _ hr => MapsProg.answer
      ((mapsProg_take hr).bind fun _ _ hr =>
        (mapsProg_pushBack (mapsAccess_kept hqueue) (.resumption hr)).bind fun _ _ _ =>
          (mapsProg_wakeRandom hqueue hchoices).bind fun _ _ _ => mapsProg_pure .unit)⟩
    (.cons ⟨rfl, .resumptive fun _ _ v v' r r' _ hv hr => by
      have hwake : σ.MapsProg rest σ.MapsValue (do wakeRandom; return .unit)
          (do wakeRandom; return .unit) :=
        (mapsProg_wakeRandom hqueue hchoices).bind fun _ _ _ => mapsProg_pure .unit
      cases hv with
      | cell hc =>
        exact MapsProg.answer ((mapsProg_readFuture hc).bind fun _ _ hf =>
          (mapsProg_take hr).bind fun _ _ hr =>
            MapsProg.bind (mapsProg_write (.inl hc) (.future
              ⟨hf.value, List.rel_append hf.waiting (.cons hr .nil)⟩)) fun _ _ _ => hwake)
      | _ => exact hwake.answer⟩ .nil)
  onReturn _ _ _ _ hc hv := MapsProg.answer
    ((mapsProg_futureOf hc).bind fun _ _ hfuture => (mapsProg_readFuture hfuture).bind fun _ _ hf =>
      (mapsProg_readList (mapsAccess_kept hqueue)).bind fun _ _ hvs =>
        (mapsProg_write (mapsAccess_kept hqueue)
          (.list (List.rel_append hvs (mapsResumptions hf.waiting)))).bind fun _ _ _ =>
            (mapsProg_write (.inl hfuture) (.future ⟨.some hv, .nil⟩)).bind fun _ _ _ =>
              (mapsProg_wakeRandom hqueue hchoices).bind fun _ _ _ => mapsProg_pure .unit)
  distinct := show HandlerType.duplicate? [] [yieldCommand, awaitCommand] = none by decide

theorem mapsProg_runInto {result : String} (hused : handlerName result ∈ σ.handlers)
    {c c' : CellId} (hc : σ.MapsCell c c') {body body' : Task Value}
    (hbody : σ.MapsProg rest σ.MapsValue body body') :
    σ.MapsProg rest σ.MapsValue (runInto result c [] body) (runInto result c' [] body') :=
  mapsProg_hosted hused (.value (.cell hc)) .nil hbody

theorem mapsProg_spawn (hqueue : queue ∈ σ.kept) {result : String}
    (hused : handlerName result ∈ σ.handlers) {body body' : Task Value}
    (hbody : σ.MapsProg rest σ.MapsValue body body') :
    σ.MapsProg rest σ.MapsCell (spawn result [] body) (spawn result [] body') :=
  (mapsProg_alloc (.future ⟨.none, .nil⟩)).bind fun _ _ hc =>
    (mapsProg_retain (.cell hc)).bind fun _ _ _ =>
      (MapsProg.closure (.cons (.cell hc) .nil) fun _ _ _ => mapsProg_runInto hused hc hbody).bind
        fun _ _ hf => (mapsProg_function _ hf).bind fun _ _ hr =>
          (mapsProg_pushBack (mapsAccess_kept hqueue) (.resumption hr)).bind fun _ _ _ =>
            mapsProg_pure hc

theorem mapsProg_value {c c' : CellId} (hc : σ.MapsCell c c') :
    σ.MapsProg rest (Option.Rel σ.MapsValue) (value c) (value c') :=
  (mapsProg_readFuture hc).bind fun _ _ hf => mapsProg_pure hf.value

theorem mapsProg_isReady {c c' : CellId} (hc : σ.MapsCell c c') :
    σ.MapsProg rest Eq (isReady c) (isReady c') :=
  (mapsProg_value hc).bind fun x x' hx => mapsProg_pure (by cases hx <;> rfl)

theorem mapsProg_await {c c' : CellId} (hc : σ.MapsCell c c') :
    σ.MapsProg rest (Option.Rel σ.MapsValue) (await c) (await c') := by
  refine (mapsProg_isReady hc).bindSame fun ready => ?_
  split
  · exact mapsProg_value hc
  · exact (mapsProg_retain (.cell hc)).bind fun _ _ _ =>
      (mapsProg_invoke (mapsCommand (.cell hc) (.cons (.cell hc) .nil)) .innermost).bind
        fun _ _ _ => mapsProg_value hc

theorem mapsProg_yield : σ.MapsProg rest Eq yield yield :=
  (mapsProg_tell _ .unit).bind fun _ _ _ => mapsProg_pure rfl

theorem mapsProg_worker (hcell : Transcript.cell ∈ σ.kept) :
    σ.MapsProg rest σ.MapsValue worker worker :=
  (mapsProg_forEachSame _ fun _ => (mapsProg_emit hcell _).bind fun _ _ _ => mapsProg_yield).bind
    fun _ _ _ => mapsProg_pure (.int 100)

theorem mapsProg_starter (hcell : Transcript.cell ∈ σ.kept) (hqueue : queue ∈ σ.kept)
    (hused : handlerName "i32" ∈ σ.handlers) : σ.MapsProg rest σ.MapsValue starter starter := by
  refine (mapsProg_spawn hqueue hused (mapsProg_worker hcell)).bind fun c c' hc => ?_
  refine .scope (.cons (.cell hc) .nil) ((mapsProg_emit hcell _).bind fun _ _ _ => ?_)
  refine (mapsProg_forEachSame _ fun _ => ?_).bind fun _ _ _ => ?_
  · refine (mapsProg_isReady hc).bindSame fun ready => ?_
    split
    · exact mapsProg_pure rfl
    · exact (mapsProg_emit hcell _).bind fun _ _ _ => mapsProg_yield
  · refine (mapsProg_emit hcell _).bind fun _ _ _ => (mapsProg_await hc).bind fun x x' hx => ?_
    cases hx with
    | none => exact (mapsProg_emit hcell _).bind fun _ _ _ => mapsProg_pure .unit
    | some hv =>
      dsimp only
      rw [hv.toInt]
      exact (mapsProg_emit hcell _).bind fun _ _ _ => mapsProg_pure .unit

/-- The main computation, once the choices have been seeded. -/
def running : Task Value := do
  let future ← Prog.alloc (.future {})
  Prog.retain (.cell future)
  Prog.scope [.cell future] do
    let _ ← runInto "()" future [] starter
    match ← value future with
    | some v => return .present v
    | none => return .absent

/-- The demonstration, once the choices have been seeded. -/
def seeded : Task Unit := do
  let _ ← running
  Transcript.emit "\n"

theorem demo_eq (seed : Nat) :
    demo seed = Prog.write choices (.draws (some (Draws.ofSeed seed))) >>= fun _ => seeded := rfl

theorem mapsProg_seeded (hcell : Transcript.cell ∈ σ.kept) (hqueue : queue ∈ σ.kept)
    (hunit : handlerName "()" ∈ σ.handlers) (hint : handlerName "i32" ∈ σ.handlers) :
    σ.MapsProg rest Eq seeded seeded := by
  refine MapsProg.bind (R := σ.MapsValue) ?_ fun _ _ _ => mapsProg_emit hcell _
  refine (mapsProg_alloc (.future ⟨.none, .nil⟩)).bind fun c c' hc => ?_
  refine (mapsProg_retain (.cell hc)).bind fun _ _ _ => .scope (.cons (.cell hc) .nil) ?_
  refine (mapsProg_runInto hunit hc (mapsProg_starter hcell hqueue hint)).bind fun _ _ _ => ?_
  refine (mapsProg_value hc).bind fun x x' hx => ?_
  cases hx with
  | none => exact mapsProg_pure .absent
  | some hv => exact mapsProg_pure (.present hv)

end Futures

end EffectHandlers.Rerun
