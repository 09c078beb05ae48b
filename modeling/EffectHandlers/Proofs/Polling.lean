import EffectHandlers.Proofs.Wakeups
/-!
# A worker and a computation that looks for its result

A computation looks a few times whether its worker has ended, and then waits for it. Whoever is picked
from the queue, the worker writes all its dots, and the computation gets the result.
-/

namespace EffectHandlers.Promise

open Evaluation (Leads)
open Agenda (wakeTask exists_declare leads_readFuture wakeRandom_eq leads_pickFrom await_eq)

/-! ### Code -/

/-- The cell of the main computation's future. -/
def mainFuture : CellId := 5

/-- The cell of the main computation's handler. -/
def mainHome : CellId := 6

/-- The cell of the worker's future. -/
def future : CellId := 7

/-- The cell of the worker's handler. -/
def workerHome : CellId := 8

/-- What a worker does that has so many dots left to write. -/
def dotting (dots : Nat) : Comp Content :=
  Prog.forEach (fun _ => do
    Transcript.emit "."
    yield) (List.replicate dots ()) fun _ => .done (.int 100)

/-- What the computation does with the result of its worker. -/
def hearing (v : Option Value) : Comp Content :=
  (match v with
    | some v => Transcript.emit ("\n[worker returned " ++ toString v.toInt ++ "]")
    | none => Transcript.emit "\n[worker never returned]" : Task Unit) fun _ => .done .unit

/-- What the computation does that has so many looks left. -/
def polling (looks : Nat) : Comp Content :=
  Prog.forEach (fun _ => do
    if ← isReady future then return ()
    else
      Transcript.emit "\n[no value yet]"
      yield) (List.replicate looks ()) fun _ =>
    Transcript.emit "\n[I'd better wait]" fun _ => await future hearing

theorem dotting_succ (dots : Nat) :
    dotting (dots + 1) = Transcript.emit "." fun _ => yield fun _ => dotting dots := rfl

theorem polling_succ (looks : Nat) : polling (looks + 1) = isReady future fun ready =>
    if ready then polling looks
    else Transcript.emit "\n[no value yet]" fun _ => yield fun _ => polling looks := by
  refine congrArg (isReady future) (funext fun ready => ?_)
  cases ready <;> rfl

theorem starter_eq : starter.toComp = spawn "i32" [] worker fun future => .scope [.cell future]
    (Transcript.emit "[worker started]" fun _ => Prog.forEach (fun _ => do
      if ← isReady future then return ()
      else
        Transcript.emit "\n[no value yet]"
        yield) (List.replicate 5 ()) fun _ =>
      Transcript.emit "\n[I'd better wait]" fun _ => await future hearing) .done := by
  refine congrArg (spawn "i32" [] worker) (funext fun c => congrArg (Comp.scope [.cell c] · .done)
    (congrArg (Transcript.emit _) (funext fun _ => congrArg (Prog.forEach _ _) (funext fun _ =>
      congrArg (Transcript.emit _) (funext fun _ => congrArg (await c) (funext fun v => ?_))))))
  cases v <;> rfl

/-! ### What is stored -/

/-- What the two computations have stored. -/
structure Board where
  text : String
  queue : List ResumptionId
  /-- The future of the worker. -/
  result : Future
  /-- The installation of the worker, once it has started. -/
  seat : Option InstallationId

namespace Board

/-- The cells that belong to the two computations from the start. -/
def contents (b : Board) : List (CellId × Content) :=
  [(Transcript.cell, .value (.text b.text)), (Promise.queue, .list (b.queue.map .resumption)),
    (mainFuture, .future {}), (mainHome, .value (.cell mainFuture)), (future, .future b.result)]

/-- An evaluation of the two computations, of which the main one runs under the first installation. -/
structure Keeps (b : Board) (s : Evaluation Content) : Prop where
  cells : ∀ x ∈ b.contents, s.cells.find? x.1 = some x.2
  choices : ∃ d, s.cells.find? Promise.choices = some (.draws (some d))
  fresh : b.seat = none → s.cells.next = workerHome
  main : ∃ label, s.installed.find? 1 =
    some ⟨label, handlerName "()", handlerName "()", mainHome⟩
  worker : ∀ j, b.seat = some j → j ≠ 1 ∧
    s.cells.find? workerHome = some (.value (.cell future)) ∧
    ∃ label, s.installed.find? j = some ⟨label, handlerName "i32", handlerName "i32", workerHome⟩
  resumptions : s.resumptions.WellFormed
  installed : s.installed.WellFormed
  pending : s.pending = none

end Board

variable {Γ : Library Content} {R : Evaluation Content → Prop} {s : Evaluation Content} {b e : Board}
  {F U : List (Frame Content)} {κ : Continuation Content} {i j : InstallationId} {r : Known Γ}
  {label : Int} {home : CellId}

/-- A computation that has ended goes through the return clause. -/
theorem leads_returning {v : Value} (hframes : s.frames = .handling i :: F)
    (hi : s.installed.find? i = some ⟨label, handlerName r.1, handlerName r.1, home⟩)
    (hR : Leads Γ (fun _ => True) R (({ s with
        frames := .answering "()" :: F
        installed := s.installed.modify i fun x => { x with label := retiredLabel } } :
      Evaluation Content).goOn (.eval (returnClause home v)))) :
    Leads Γ (fun _ => True) R (s.goOn (.ret v)) := by
  refine .returning trivial hframes hi ?_
  rw [answer_handler, onReturn_handler]
  exact hR

namespace Board.Keeps

theorem text (h : b.Keeps s) : s.cells.find? Transcript.cell = some (.value (.text b.text)) :=
  h.cells _ (.head _)

theorem queue (h : b.Keeps s) :
    s.cells.find? Promise.queue = some (.list (b.queue.map .resumption)) :=
  h.cells _ (.tail _ (.head _))

theorem result (h : b.Keeps s) : s.cells.find? Promise.future = some (.future b.result) :=
  h.cells _ (.tail _ (.tail _ (.tail _ (.tail _ (.head _)))))

/-- One of the cells is written. -/
theorem write {c : CellId} {x : Content} (h : b.Keeps s)
    (hc : c ≠ Promise.choices ∧ c ≠ workerHome) (hseat : e.seat = b.seat)
    (he : e.contents = b.contents.map fun y => if y.1 = c then (y.1, x) else y) :
    e.Keeps { s with cells := s.cells.modify c fun _ => x } :=
  { h with
    cells := Store.find?_modify_all h.cells he
    choices := by
      simpa only [Store.find?_modify, if_neg hc.1.symm] using h.choices
    fresh := hseat ▸ h.fresh
    worker := by
      simpa only [Store.find?_modify, if_neg hc.2.symm, hseat] using h.worker }

/-- A choice is made. -/
theorem draw (h : b.Keeps s) (d : Draws) : b.Keeps { s with
    cells := s.cells.modify Promise.choices fun _ => .draws (some d) } :=
  { h with
    cells := Store.find?_modify_all h.cells rfl
    choices := by
      obtain ⟨d', hd'⟩ := h.choices
      exact ⟨d, by simp [Store.find?_modify, hd']⟩
    worker := by
      have hne : workerHome ≠ Promise.choices := by decide
      simpa only [Store.find?_modify, if_neg hne] using h.worker }

/-- A text is written. -/
theorem leads_emit {text : String} {k : Unit → Comp Content} (h : b.Keeps s)
    (hR : ∀ cells, ({ b with text := b.text ++ text } : Board).Keeps { s with cells } →
      Leads Γ (fun _ => True) R (({ s with cells } : Evaluation Content).goOn (.eval (k ())))) :
    Leads Γ (fun _ => True) R (s.goOn (.eval (Transcript.emit text k))) :=
  .read trivial h.text (.write trivial (hR _ (h.write (by decide) rfl rfl)))

/-- Who gives up control goes to the back of the queue. -/
theorem leads_yield {k : Unit → Comp Content} (h : b.Keeps s)
    (hi : s.installed.find? i = some ⟨label, handlerName r.1, handlerName r.1, home⟩)
    (hframes : s.frames = U ++ .handling i :: F) (hU : ∀ f ∈ U, f.isCode = true)
    (hR : ∀ t ρ, t.frames = .answering "()" :: F →
      (∀ ρ κ, s.resumptions.find? ρ = some κ → t.resumptions.find? ρ = some κ) →
      t.resumptions.find? ρ = some (.context "()" (.bind (fun _ => k ()) :: U ++ [.handling i])) →
      ({ b with queue := b.queue ++ [ρ] } : Board).Keeps t →
      Leads Γ (fun _ => True) R (t.goOn (.eval wakeTask.toComp))) :
    Leads Γ (fun _ => True) R (s.goOn (.eval (yield k))) := by
  have hdispatch := Evaluation.dispatch_innermost (Γ := Γ) hframes hU hi clauseFor_yield
  refine .invoke trivial hdispatch hi answer_handler hframes hU (.take trivial
    (Store.find?_insert_self ..) (.read trivial h.queue (.write trivial (hR _ _ rfl
      (fun ρ κ hκ => Store.find?_moved_of_some h.resumptions hκ) (Store.find?_moved ..) ?_))))
  have hqueue : (b.queue.map Value.resumption ++ [.resumption (s.resumptions.next + 1)]) =
      (b.queue ++ [s.resumptions.next + 1]).map .resumption := by simp
  exact { h.write (e := { b with queue := b.queue ++ [s.resumptions.next + 1] })
      (x := .list (b.queue.map .resumption ++ [.resumption (s.resumptions.next + 1)]))
      (by decide) rfl (by rw [hqueue]; rfl) with
    resumptions := Store.wellFormed_moved h.resumptions _ }

/-- The one that waits for the worker gives up control. -/
theorem leads_await {k : Option Value → Comp Content} (h : b.Keeps s)
    (hresult : b.result.value = none)
    (hi : s.installed.find? i = some ⟨label, handlerName r.1, handlerName r.1, home⟩)
    (hframes : s.frames = U ++ .handling i :: F) (hU : ∀ f ∈ U, f.isCode = true)
    (hR : ∀ t ρ, t.frames = .answering "()" :: F →
      (∀ ρ κ, s.resumptions.find? ρ = some κ → t.resumptions.find? ρ = some κ) →
      t.resumptions.find? ρ =
        some (.context "()" (.bind (fun _ => value future k) :: U ++ [.handling i])) →
      ({ b with result := { b.result with waiting := b.result.waiting ++ [ρ] } } : Board).Keeps t →
      Leads Γ (fun _ => True) R (t.goOn (.eval wakeTask.toComp))) :
    Leads Γ (fun _ => True) R (s.goOn (.eval (await future k))) := by
  have hdispatch := Evaluation.dispatch_innermost (Γ := Γ) hframes hU hi clauseFor_await
  have hnone : b.result.value.isSome ≠ true := by simp [hresult]
  rw [await_eq]
  refine .read trivial h.result ?_
  show Leads Γ _ R (s.goOn (.eval (if b.result.value.isSome then _ else _)))
  rw [if_neg hnone]
  refine .retain trivial (.invoke trivial hdispatch hi answer_handler hframes hU (.read trivial
    h.result (.take trivial (Store.find?_insert_self ..) (.write trivial (hR _ _ rfl
      (fun ρ κ hκ => Store.find?_moved_of_some h.resumptions hκ) (Store.find?_moved ..) ?_)))))
  exact { h.write (e := { b with result :=
        { b.result with waiting := b.result.waiting ++ [s.resumptions.next + 1] } })
      (by decide) rfl rfl with
    resumptions := Store.wellFormed_moved h.resumptions _ }

/-- One of the queue gets control. -/
theorem leads_wake (h : b.Keeps s) (hne : b.queue ≠ [])
    (hqueue : ∀ ρ ∈ b.queue, ∃ κ, s.resumptions.find? ρ = some κ)
    (hR : ∀ (n : Nat) ρ κ t, b.queue[n]? = some ρ → s.resumptions.find? ρ = some κ →
      t.frames = .bind (fun _ => .done .unit) :: s.frames →
      t.resumptions = s.resumptions.erase ρ →
      ({ b with queue := b.queue.eraseIdx n } : Board).Keeps t →
      Leads Γ (fun _ => True) R (t.goOn (.resume κ .unit))) :
    Leads Γ (fun _ => True) R (s.goOn (.eval wakeTask.toComp)) := by
  have hcode : wakeTask.toComp = wakeRandom fun _ => .done .unit := rfl
  obtain ⟨d, hd⟩ := h.choices
  -- the one that is picked
  let n := (Draws.below (b.queue.map Value.resumption).length d).1
  have hlt : n < b.queue.length := by
    have hpos : 0 < (b.queue.map Value.resumption).length := by
      simpa using List.length_pos_iff.mpr hne
    have hbelow := Draws.index_lt hpos 4096 d
    simpa [n, Draws.below] using hbelow
  have hn : b.queue[n]? = some b.queue[n] := List.getElem?_eq_getElem hlt
  obtain ⟨κ, hκ⟩ := hqueue _ (List.getElem_mem hlt)
  rw [hcode, wakeRandom_eq]
  refine .read trivial h.queue (Leads.trans (leads_pickFrom (P := fun _ => True)
    (Q := fun _ => True) trivial trivial hd (by rw [List.getElem?_map]; exact congrArg _ hn)
    (.resume trivial hκ (hR n _ κ _ hn hκ rfl rfl ?_))) fun t ht => .next trivial ht)
  have herase : (b.queue.map Value.resumption).eraseIdx n =
      (b.queue.eraseIdx n).map .resumption := by
    rw [List.eraseIdx_map]
  exact { (h.draw _).write (e := { b with queue := b.queue.eraseIdx n })
      (x := .list ((b.queue.map Value.resumption).eraseIdx n)) (by decide) rfl
      (by rw [herase]; rfl) with
    resumptions := Store.wellFormed_erase h.resumptions _ }

end Board.Keeps

/-! ### The worker -/

/-- The continuation of a worker that has so many dots left to write. -/
def workKont (seat : Option InstallationId) (dots : Nat) : Continuation Content :=
  match seat with
  | none => .function "()" fun _ => (runInto "i32" future [] worker).toComp
  | some j => .context "()" [.bind fun _ => dotting dots, .handling j]

namespace Board.Keeps

variable {dots : Nat}

/-- The worker goes on, or starts. -/
theorem leads_work (hworker : Γ.handlerType (handlerName "i32") = handler) (h : b.Keeps s)
    (hfresh : b.seat = none → dots = 30)
    (hR : ∀ t j F, Relays s.frames F → t.frames = .handling j :: F →
      t.resumptions = s.resumptions → ({ b with seat := some j } : Board).Keeps t →
      Leads Γ (fun _ => True) R (t.goOn (.eval (dotting dots)))) :
    Leads Γ (fun _ => True) R (s.goOn (.resume (workKont b.seat dots) .unit)) := by
  obtain ⟨text, queue, result, seat⟩ := b
  cases seat with
  | none =>
    obtain rfl := hfresh rfl
    obtain ⟨declared, hdeclare⟩ := exists_declare s (⟨"i32", hworker⟩ : Known Γ)
    have hnext : s.cells.next = workerHome := h.fresh rfl
    obtain ⟨label, hmain⟩ := h.main
    have hne : s.installed.next ≠ 1 := Nat.ne_of_gt (Store.lt_next h.installed hmain)
    refine .enter_function trivial (.alloc trivial (.handle trivial rfl hdeclare
      (hR _ s.installed.next _ (.pass (.answer .base)) rfl rfl ?_)))
    refine { h with
      cells := fun x hx => ?_
      choices := ?_
      fresh := nofun
      main := ⟨label, (Store.find?_insert ..).trans ((if_neg hne.symm).trans hmain)⟩
      worker := ?_
      installed := Store.wellFormed_insert h.installed _ }
    · have hother : x.1 ≠ workerHome := by
        revert x
        simp [contents, Transcript.cell, Promise.queue, workerHome, mainFuture, mainHome, future]
      exact (Store.find?_insert ..).trans ((if_neg (hnext ▸ hother)).trans (h.cells x hx))
    · obtain ⟨d, hd⟩ := h.choices
      have hother : Promise.choices ≠ workerHome := by decide
      exact ⟨d, (Store.find?_insert ..).trans ((if_neg (hnext ▸ hother)).trans hd)⟩
    · rintro j hj
      obtain rfl := Option.some.inj hj
      rw [← hnext]
      exact ⟨hne, Store.find?_insert_self .., _, Store.find?_insert_self ..⟩
  | some j => exact .enter_context trivial (.bind trivial rfl (hR _ j _ .base rfl rfl { h with }))

/-- Nobody finds the handler of a computation any more that has ended. -/
theorem retire (h : b.Keeps s) (j : InstallationId) : b.Keeps { s with
    installed := s.installed.modify j fun x => { x with label := retiredLabel } } := by
  have hinstalled : ∀ {i home} {name : String},
      (∃ label, s.installed.find? i = some ⟨label, name, name, home⟩) →
      ∃ label, (s.installed.modify j fun x => { x with label := retiredLabel }).find? i =
        some ⟨label, name, name, home⟩ := by
    rintro i home name ⟨label, hi⟩
    rw [Store.find?_modify]
    split
    · exact ⟨retiredLabel, by rw [hi]; rfl⟩
    · exact ⟨label, hi⟩
  exact { h with
    main := hinstalled h.main
    worker := fun j hj => by
      obtain ⟨hne, hhome, hlabel⟩ := h.worker j hj
      exact ⟨hne, hhome, hinstalled hlabel⟩
    installed := Store.wellFormed_modify h.installed _ _ }

/-- The worker has ended, and whoever waits for it is in the queue. -/
theorem leads_finish (hworker : Γ.handlerType (handlerName "i32") = handler) (h : b.Keeps s)
    (hseat : b.seat = some j) (hframes : s.frames = .handling j :: F)
    (hR : ∀ t, t.frames = .answering "()" :: F → t.resumptions = s.resumptions →
      ({ b with
        queue := b.queue ++ b.result.waiting
        result := { value := some (.int 100) } } : Board).Keeps t →
      Leads Γ (fun _ => True) R (t.goOn (.eval wakeTask.toComp))) :
    Leads Γ (fun _ => True) R (s.goOn (.eval (dotting 0))) := by
  obtain ⟨hj, hhome, label, hinstalled⟩ := h.worker j hseat
  have hqueue : b.queue.map Value.resumption ++ b.result.waiting.map .resumption =
      (b.queue ++ b.result.waiting).map .resumption := by simp
  refine .done trivial (leads_returning (r := ⟨"i32", hworker⟩) hframes hinstalled ?_)
  have hqueued := (h.retire j).write (e := { b with queue := b.queue ++ b.result.waiting })
    (c := Promise.queue) (x := .list (b.queue.map .resumption ++ b.result.waiting.map .resumption))
    (by decide) rfl (by rw [hqueue]; rfl)
  have hended := hqueued.write (e := { b with
      queue := b.queue ++ b.result.waiting, result := { value := some (.int 100) } })
    (c := future) (x := .future { value := some (.int 100) }) (by decide) rfl rfl
  refine .read trivial hhome (.read trivial h.result (.read trivial h.queue (.write trivial
    (.write trivial (hR _ rfl rfl { hended with })))))

end Board.Keeps

/-! ### The main computation -/

/-- What the main computation does that has so many looks left, or has waited. -/
def looking : Option Nat → Comp Content
  | some looks => polling looks
  | none => value future hearing

/-- The continuation of the main computation. -/
def mainKont (looks : Option Nat) : Continuation Content :=
  .context "()" [.bind fun _ => looking looks, .bind .done, .handling 1]

/-- The text has so many dots, and this is what it says without them. -/
structure Tells (text : String) (dots : Nat) (plain : String) : Prop where
  dots : text.toList.count '.' = dots
  plain : text.toList.filter (· ≠ '.') = plain.toList

theorem Tells.dot {text plain : String} {dots : Nat} (h : Tells text dots plain) :
    Tells (text ++ ".") (dots + 1) plain where
  dots := by simp [h.dots]
  plain := by simpa using h.plain

theorem Tells.line {text plain line : String} {dots : Nat} (h : Tells text dots plain)
    (hline : '.' ∉ line.toList) : Tells (text ++ line) dots (plain ++ line) where
  dots := by simp [h.dots, List.count_eq_zero.mpr hline]
  plain := by
    have hkept : line.toList.filter (· ≠ '.') = line.toList :=
      List.filter_eq_self.mpr fun c hc => by
        have hne : c ≠ '.' := fun heq => hline (heq ▸ hc)
        simpa using hne
    rw [String.toList_append, List.filter_append, h.plain, hkept, String.toList_append]

/-- What the main computation writes before it waits, where it has looked so many times in vain. -/
def told (looks : Nat) : String :=
  "[worker started]" ++ String.join (List.replicate looks "\n[no value yet]")

theorem told_succ (looks : Nat) : told (looks + 1) = told looks ++ "\n[no value yet]" := by
  unfold told
  rw [List.replicate_succ']
  simp only [String.join, List.foldl_append, List.foldl_cons, List.foldl_nil, String.append_assoc]

/-- What is left when both computations have ended. -/
structure Over (F : List (Frame Content)) (s : Evaluation Content) : Prop where
  frames : s.frames = F
  queue : s.cells.find? Promise.queue = some (.list [])
  result : s.cells.find? mainFuture = some (.future { value := some .unit })
  text : ∃ text looks, s.cells.find? Transcript.cell = some (.value (.text text)) ∧
    1 ≤ looks ∧ looks ≤ 5 ∧
    Tells text 30 (told looks ++ "\n[I'd better wait]" ++ "\n[worker returned 100]")

namespace Board.Keeps

variable {looks : Nat} {v : Value}

/-- The main computation gets the result and ends. -/
theorem leads_hearing {F' : List (Frame Content)} (hmain : Γ.handlerType (handlerName "()") = handler)
    (h : b.Keeps s) (hqueue : b.queue = []) (hframes : s.frames = .bind .done :: .handling 1 :: F')
    (hF : Relays F F') (hlooks : 1 ≤ looks ∧ looks ≤ 5)
    (htells : Tells b.text 30 (told looks ++ "\n[I'd better wait]"))
    (hR : ∀ t w, Over F t → Leads Γ (fun _ => True) R (t.goOn (.ret w))) :
    Leads Γ (fun _ => True) R (s.goOn (.eval (hearing (some (.int 100))))) := by
  have htext : Tells (b.text ++ "\n[worker returned 100]") 30
      (told looks ++ "\n[I'd better wait]" ++ "\n[worker returned 100]") := htells.line (by decide)
  refine h.leads_emit fun cells hsaid => .done trivial (.bind trivial hframes (.done trivial ?_))
  obtain ⟨text, queue, result, seat⟩ := b
  obtain rfl : queue = [] := hqueue
  obtain ⟨label, hlabel⟩ := hsaid.main
  have hhome := hsaid.cells (mainHome, _) (.tail _ (.tail _ (.tail _ (.head _))))
  have hfuture := hsaid.cells (mainFuture, _) (.tail _ (.tail _ (.head _)))
  have hcode : wakeTask.toComp = wakeRandom fun _ => .done .unit := rfl
  refine leads_returning (r := ⟨"()", hmain⟩) rfl hlabel (.read trivial hhome (.read trivial hfuture
    (.read trivial hsaid.queue (.write trivial (.write trivial ?_)))))
  show Leads Γ _ R (Evaluation.goOn _ (.eval wakeTask.toComp))
  rw [hcode, wakeRandom_eq]
  -- nobody is in the queue
  have hidle : ((cells.modify Promise.queue fun _ => .list ([] ++ [])).modify mainFuture fun _ =>
      .future { value := some .unit }).find? Promise.queue = some (.list []) := by
    have hne : Promise.queue ≠ mainFuture := by decide
    rw [Store.find?_modify, if_neg hne, Store.find?_modify, if_pos rfl, hsaid.queue]
    rfl
  refine .read trivial hidle (.done trivial (.answering trivial rfl hsaid.pending
    (.relayed trivial hF rfl hsaid.pending fun w => hR _ w ⟨rfl, hidle, ?_, _, looks, ?_, hlooks.1,
      hlooks.2, htext⟩)))
  · have hne : mainFuture ≠ Promise.queue := by decide
    exact (Store.find?_modify ..).trans ((if_pos rfl).trans (by
      rw [Store.find?_modify, if_neg hne, hfuture]; rfl))
  · have hne : Transcript.cell ≠ mainFuture ∧ Transcript.cell ≠ Promise.queue := by decide
    exact (Store.find?_modify ..).trans ((if_neg hne.1).trans ((Store.find?_modify ..).trans
      ((if_neg hne.2).trans hsaid.text)))

/-- The main computation looks for the result, and it is there. -/
theorem leads_ready (h : b.Keeps s) (hresult : b.result.value = some v)
    (hR : ∀ cells, ({ b with text := b.text ++ "\n[I'd better wait]" } : Board).Keeps { s with cells } →
      Leads Γ (fun _ => True) R (({ s with cells } : Evaluation Content).goOn
        (.eval (hearing (some v))))) :
    Leads Γ (fun _ => True) R (s.goOn (.eval (polling looks))) := by
  have hsome : b.result.value.isSome = true := by simp [hresult]
  induction looks with
  | zero =>
    refine h.leads_emit fun cells hsaid => ?_
    rw [await_eq]
    refine .read trivial hsaid.result ?_
    show Leads Γ _ R (Evaluation.goOn _ (.eval (if b.result.value.isSome then _ else _)))
    rw [if_pos hsome]
    refine .read trivial hsaid.result ?_
    show Leads Γ _ R (Evaluation.goOn _ (.eval (hearing b.result.value)))
    rw [hresult]
    exact hR cells hsaid
  | succ looks ih =>
    rw [polling_succ]
    refine .read trivial h.result ?_
    show Leads Γ _ R (Evaluation.goOn _ (.eval (if b.result.value.isSome then _ else _)))
    rw [if_pos hsome]
    exact ih

/-- The main computation looks for the result in vain, and gives up control. -/
theorem leads_look (hmain : Γ.handlerType (handlerName "()") = handler) (h : b.Keeps s)
    (hresult : b.result = {}) (hframes : s.frames = .bind .done :: .handling 1 :: F)
    (hR : ∀ t ρ, t.frames = .answering "()" :: F →
      (∀ ρ κ, s.resumptions.find? ρ = some κ → t.resumptions.find? ρ = some κ) →
      t.resumptions.find? ρ = some (mainKont (some looks)) →
      ({ b with text := b.text ++ "\n[no value yet]", queue := b.queue ++ [ρ] } : Board).Keeps t →
      Leads Γ (fun _ => True) R (t.goOn (.eval wakeTask.toComp))) :
    Leads Γ (fun _ => True) R (s.goOn (.eval (polling (looks + 1)))) := by
  have hnone : b.result.value.isSome ≠ true := by simp [hresult]
  have hcode : ∀ f ∈ [(Frame.bind .done : Frame Content)], f.isCode = true := by
    simp [Frame.isCode]
  obtain ⟨label, hlabel⟩ := h.main
  rw [polling_succ]
  refine .read trivial h.result ?_
  show Leads Γ _ R (Evaluation.goOn _ (.eval (if b.result.value.isSome then _ else _)))
  rw [if_neg hnone]
  exact h.leads_emit fun cells hsaid => hsaid.leads_yield (r := ⟨"()", hmain⟩) hlabel hframes hcode
    fun t ρ ht hsame hρ hkeeps => hR t ρ ht hsame hρ hkeeps

/-- The main computation waits. -/
theorem leads_wait (hmain : Γ.handlerType (handlerName "()") = handler) (h : b.Keeps s)
    (hresult : b.result = {}) (hframes : s.frames = .bind .done :: .handling 1 :: F)
    (hR : ∀ t ρ, t.frames = .answering "()" :: F →
      (∀ ρ κ, s.resumptions.find? ρ = some κ → t.resumptions.find? ρ = some κ) →
      t.resumptions.find? ρ = some (mainKont none) →
      ({ b with
        text := b.text ++ "\n[I'd better wait]", result := { waiting := [ρ] } } : Board).Keeps t →
      Leads Γ (fun _ => True) R (t.goOn (.eval wakeTask.toComp))) :
    Leads Γ (fun _ => True) R (s.goOn (.eval (polling 0))) := by
  have hcode : ∀ f ∈ [(Frame.bind .done : Frame Content)], f.isCode = true := by
    simp [Frame.isCode]
  obtain ⟨text, queue, result, seat⟩ := b
  obtain rfl : result = {} := hresult
  obtain ⟨label, hlabel⟩ := h.main
  exact h.leads_emit fun cells hsaid => hsaid.leads_await rfl (r := ⟨"()", hmain⟩) hlabel hframes
    hcode fun t ρ ht hsame hρ hkeeps => hR t ρ ht hsame hρ hkeeps

/-- The worker writes a dot, and gives up control. -/
theorem leads_dot (hworker : Γ.handlerType (handlerName "i32") = handler) (h : b.Keeps s)
    {dots : Nat} (hseat : b.seat = some j) (hframes : s.frames = .handling j :: F)
    (hR : ∀ t ρ, t.frames = .answering "()" :: F →
      (∀ ρ κ, s.resumptions.find? ρ = some κ → t.resumptions.find? ρ = some κ) →
      t.resumptions.find? ρ = some (workKont (some j) dots) →
      ({ b with text := b.text ++ ".", queue := b.queue ++ [ρ] } : Board).Keeps t →
      Leads Γ (fun _ => True) R (t.goOn (.eval wakeTask.toComp))) :
    Leads Γ (fun _ => True) R (s.goOn (.eval (dotting (dots + 1)))) := by
  obtain ⟨-, -, label, hlabel⟩ := h.worker j hseat
  rw [dotting_succ]
  exact h.leads_emit fun cells hsaid => hsaid.leads_yield (U := []) (r := ⟨"i32", hworker⟩) hlabel
    hframes (by simp) fun t ρ ht hsame hρ hkeeps => hR t ρ ht hsame hρ hkeeps

end Board.Keeps

end EffectHandlers.Promise
