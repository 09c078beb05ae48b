import EffectHandlers.Proofs.ActorCode
import EffectHandlers.Proofs.HonestActors
import EffectHandlers.Proofs.Trust
/-!
# An actor that echoes

One actor sends numbers to another one, which sends them back. Mail is always there before anybody looks
for it: who sends gives up control to the other one. So nobody ever waits, and each round takes two
turns.
-/

namespace EffectHandlers.Actor

open Evaluation (Leads)
open Roster (clauseFor_fork onReturn_shown)

/-! ### What is stored -/

/-- The address of the actor that sends numbers. -/
def asker : Mailbox := ⟨6, 7, 8⟩

/-- The address of the actor that sends them back. -/
def echoer : Mailbox := ⟨6, 9, 10⟩

/-- What the two actors have stored while nobody waits. -/
structure Desk where
  text : String
  /-- The flag of the actor that has control. -/
  current : CellId
  /-- The actor that is parked. -/
  active : List ParkedActor
  /-- The mail of the actor that echoes. -/
  asked : List Value
  /-- The mail of the other one. -/
  answered : List Value

namespace Desk

/-- The cells that belong to the two actors. -/
def contents (d : Desk) : List (CellId × Content) :=
  [(Transcript.cell, .value (.text d.text)),
    (asker.pool, .pool { label := -1, current := d.current, active := d.active }),
    (asker.inbox, .list d.answered), (asker.waiting, .value (.bool false)),
    (echoer.inbox, .list d.asked), (echoer.waiting, .value (.bool false))]

/-- An evaluation of the two actors, of which the one that sends numbers runs under the first
installation. -/
structure Keeps (d : Desk) (s : Evaluation Content) : Prop where
  cells : ∀ x ∈ d.contents, s.cells.find? x.1 = some x.2
  resumptions : s.resumptions.WellFormed
  installed : s.installed.WellFormed
  home : s.installed.find? 1 = some (shown asker.pool)
  pending : s.pending = none
  declared : s.declared = [handlerName]
  nextLabel : s.nextLabel = -2

end Desk

variable {Γ : Library Content} {R : Evaluation Content → Prop} {s : Evaluation Content} {d e : Desk}
  {F U : List (Frame Content)} {κ : Continuation Content} {ρ : ResumptionId} {i j : InstallationId}
  {a : ParkedActor} {n : Int}

namespace Desk.Keeps

theorem text (h : d.Keeps s) : s.cells.find? Transcript.cell = some (.value (.text d.text)) :=
  h.cells _ (.head _)

theorem pool (h : d.Keeps s) : s.cells.find? asker.pool =
    some (.pool { label := -1, current := d.current, active := d.active }) :=
  h.cells _ (.tail _ (.head _))

theorem answered (h : d.Keeps s) : s.cells.find? asker.inbox = some (.list d.answered) :=
  h.cells _ (.tail _ (.tail _ (.head _)))

theorem asked (h : d.Keeps s) : s.cells.find? echoer.inbox = some (.list d.asked) :=
  h.cells _ (.tail _ (.tail _ (.tail _ (.tail _ (.head _)))))

theorem flag (h : d.Keeps s) {c : CellId} (hc : c = asker.waiting ∨ c = echoer.waiting) :
    s.cells.find? c = some (.value (.bool false)) := by
  rcases hc with rfl | rfl
  · exact h.cells _ (.tail _ (.tail _ (.tail _ (.head _))))
  · exact h.cells _ (.tail _ (.tail _ (.tail _ (.tail _ (.tail _ (.head _))))))

/-- One of the cells is written. -/
theorem write {c : CellId} {x : Content} (h : d.Keeps s)
    (hd : e.contents = d.contents.map fun y => if y.1 = c then (y.1, x) else y) :
    e.Keeps { s with cells := s.cells.modify c fun _ => x } :=
  { h with cells := Store.find?_modify_all h.cells hd }

/-- The actor that was parked first gets control. -/
theorem leads_wake {rest : List ParkedActor} (h : d.Keeps s) (hactive : d.active = a :: rest)
    (ha : a.waiting = asker.waiting ∨ a.waiting = echoer.waiting)
    (hκ : s.resumptions.find? a.resumption = some κ) (hanswer : κ.answer = "()")
    (hframes : s.frames = .answering "()" :: F)
    (hR : ∀ t, t.frames = F → t.installed = s.installed →
      (∀ ρ ≠ a.resumption, t.resumptions.find? ρ = s.resumptions.find? ρ) →
      ({ d with current := a.waiting, active := rest } : Desk).Keeps t →
      Leads Γ (fun _ => True) R (t.goOn (.resume κ .unit))) :
    Leads Γ (fun _ => True) R (s.goOn (.eval (wake asker.pool).toComp)) := by
  obtain ⟨text, current, active, asked, answered⟩ := d
  obtain rfl : active = a :: rest := hactive
  refine .read trivial h.pool (.read trivial
    (h.flag ha) (.write trivial (.release trivial (.tailResume trivial hκ h.pending
      (.done trivial (.answering_pending trivial hframes rfl hanswer (hR _ rfl rfl ?_ ?_)))))))
  · intro ρ hρ
    exact (Store.find?_erase h.resumptions _ _).trans (if_neg hρ)
  · exact { h.write (e := ⟨text, a.waiting, rest, asked, answered⟩) rfl with
      resumptions := Store.wellFormed_erase h.resumptions _
      pending := rfl }

/-- Who gives up control is parked, and the other one gets control. -/
theorem leads_yield {k : Unit → Comp Content} (hΓ : Γ.handlerType handlerName = handler)
    (h : d.Keeps s) (hactive : d.active = [a])
    (ha : a.waiting = asker.waiting ∨ a.waiting = echoer.waiting)
    (hκ : s.resumptions.find? a.resumption = some κ) (hanswer : κ.answer = "()")
    (hi : s.installed.find? i = some (shown asker.pool))
    (hframes : s.frames = U ++ .handling i :: F) (hU : ∀ f ∈ U, f.isCode = true)
    (hR : ∀ t ρ, t.frames = F → t.installed = s.installed →
      t.resumptions.find? ρ = some (.context "()" (.bind (fun _ => k ()) :: U ++ [.handling i])) →
      ({ d with current := a.waiting, active := [⟨d.current, ρ⟩] } : Desk).Keeps t →
      Leads Γ (fun _ => True) R (t.goOn (.resume κ .unit))) :
    Leads Γ (fun _ => True) R (s.goOn (.eval (yield asker.pool k))) := by
  have hreal : (-1 : Int) ≠ bottomLabel ∧ (-1 : Int) ≠ retiredLabel := by decide
  have hdispatch := Evaluation.dispatch_labelled hframes hU hi rfl hreal
    (clauseFor_yield hΓ asker.pool)
  have hlt := Store.lt_next h.resumptions hκ
  obtain ⟨text, current, active, asked, answered⟩ := d
  obtain rfl : active = [a] := hactive
  let κ' : Continuation Content := .context "()" (.bind (fun _ => k ()) :: U ++ [.handling i])
  let ρ := s.resumptions.next + 1
  refine .read trivial h.pool (.invoke trivial hdispatch hi (answer_shown hΓ _) hframes hU
    (.read trivial h.pool (.retain trivial (.take trivial (Store.find?_insert_self ..)
      (.read trivial h.pool (.write trivial ?_))))))
  refine leads_wake (d := ⟨text, current, [a, ⟨current, ρ⟩], asked, answered⟩)
    { h.write rfl with resumptions := Store.wellFormed_moved h.resumptions κ' } rfl ha
    (Store.find?_moved_of_some h.resumptions hκ) hanswer rfl
    fun t ht hinstalled hsame hkept => hR t ρ ht hinstalled ?_ hkept
  exact (hsame ρ (Nat.ne_of_gt (Nat.lt_succ_of_lt hlt))).trans (Store.find?_moved ..)

/-- A text is written. -/
theorem leads_emit {text : String} {k : Unit → Comp Content} (h : d.Keeps s)
    (hR : ∀ cells, ({ d with text := d.text ++ text } : Desk).Keeps { s with cells } →
      Leads Γ (fun _ => True) R (({ s with cells } : Evaluation Content).goOn (.eval (k ())))) :
    Leads Γ (fun _ => True) R (s.goOn (.eval (Transcript.emit text k))) :=
  .read trivial h.text (.write trivial (hR _ (h.write rfl)))

/-- A message that is there is received at once. -/
theorem leads_receive {me : Mailbox} {v : Value} {vs : List Value} {k : Value → Comp Content}
    (h : d.Keeps s) (hinbox : s.cells.find? me.inbox = some (.list (v :: vs)))
    (hd : e.contents = d.contents.map fun y => if y.1 = me.inbox then (y.1, .list vs) else y)
    (hR : ∀ cells, e.Keeps { s with cells } →
      Leads Γ (fun _ => True) R (({ s with cells } : Evaluation Content).goOn (.eval (k v)))) :
    Leads Γ (fun _ => True) R (s.goOn (.eval (receive me k))) :=
  .loop trivial (.read trivial hinbox (.write trivial (.done trivial
    (.stop trivial rfl (hR _ (h.write hd))))))

/-- Who sends a message gives up control to the other one. -/
theorem leads_send {address : Mailbox} {v : Value} {vs : List Value} {k : Unit → Comp Content}
    (hΓ : Γ.handlerType handlerName = handler) (h : d.Keeps s)
    (haddress : address = asker ∨ address = echoer)
    (hinbox : (address.inbox, Content.list vs) ∈ d.contents)
    (hd : e.contents = d.contents.map fun y =>
      if y.1 = address.inbox then (y.1, .list (vs ++ [v])) else y)
    (hactive : e.active = [a]) (ha : a.waiting = asker.waiting ∨ a.waiting = echoer.waiting)
    (hκ : s.resumptions.find? a.resumption = some κ) (hanswer : κ.answer = "()")
    (hi : s.installed.find? i = some (shown asker.pool))
    (hframes : s.frames = U ++ .handling i :: F) (hU : ∀ f ∈ U, f.isCode = true)
    (hR : ∀ t ρ, t.frames = F → t.installed = s.installed →
      t.resumptions.find? ρ = some (.context "()" (.bind (fun _ => k ()) :: U ++ [.handling i])) →
      ({ e with current := a.waiting, active := [⟨e.current, ρ⟩] } : Desk).Keeps t →
      Leads Γ (fun _ => True) R (t.goOn (.resume κ .unit))) :
    Leads Γ (fun _ => True) R (s.goOn (.eval (send address v k))) := by
  have hflag : d.contents = d.contents.map fun y =>
      if y.1 = address.waiting then (y.1, .value (.bool false)) else y := by
    rcases haddress with rfl | rfl <;> rfl
  have hpool : address.pool = asker.pool := by rcases haddress with rfl | rfl <;> rfl
  have hawake := h.write hflag
  refine .write trivial (.read trivial (hawake.cells _ hinbox) (.write trivial ?_))
  rw [hpool]
  exact leads_yield hΓ { hawake.write hd with } hactive ha hκ hanswer hi hframes hU hR

end Desk.Keeps

/-- One turn of the actor that echoes. -/
def echoing (_ : Value) : Comp Content := Prog.toComp do
  let message ← receive echoer
  match message with
  | .pair sender (.int n) =>
    Prog.scope sender.owned do
      if n = -1 then
        Transcript.emitLine "no more echo"
        return Comp.stop .unit
      else
        match Mailbox.ofValue? sender with
        | some address =>
          send address (.int n)
          return Comp.again .unit
        | none => return Comp.again .unit
  | _ => return Comp.again .unit

/-- The end of a turn of the actor that sends numbers, with the number that came back. -/
def hearing (i : Int) : Comp Content := Prog.toComp do
  Transcript.emitLine (", received: " ++ toString (← receive asker).toInt)
  return Comp.again (.int (i + 1))

/-- One turn of the actor that sends numbers. -/
def asking (rounds : Int) (i : Value) : Comp Content := Prog.toComp do
  if i.toInt < rounds then
    Transcript.emit ("sent: " ++ toString i.toInt)
    sendNumber asker echoer i.toInt
    Transcript.emitLine (", received: " ++ toString (← receive asker).toInt)
    return Comp.again (.int (i.toInt + 1))
  else
    return Comp.stop .unit

/-- What the actor that sends numbers does in the end. -/
def parting (_ : Value) : Comp Content := (sendNumber asker echoer (-1) fun _ => .done .unit)

theorem starter_eq (rounds : Int) : (starter rounds asker).toComp =
    spawn asker.pool [] echo fun address => .scope address.owned
      (.loop (.int 0) (fun i => Prog.toComp do
        if i.toInt < rounds then
          Transcript.emit ("sent: " ++ toString i.toInt)
          sendNumber asker address i.toInt
          Transcript.emitLine (", received: " ++ toString (← receive asker).toInt)
          return Comp.again (.int (i.toInt + 1))
        else
          return Comp.stop .unit) fun _ => sendNumber asker address (-1) fun _ => .done .unit)
      .done := rfl

/-! ### Turns -/

/-- The continuation of the actor that echoes while the other one has control. -/
inductive Echoes (installed : Store Handler) : Continuation Content → Prop
  | fresh : Echoes installed
      (.function "()" fun _ => debut asker.pool echoer.waiting echoer.owned (echo echoer))
  | parked {j : InstallationId} (hj : j ≠ 1) (hhandler : installed.find? j = some (shown asker.pool)) :
      Echoes installed (.context "()" [.bind fun _ => .done (Comp.again .unit), .bind .done,
        .looping echoing .done, .handling j])

theorem Echoes.answer {installed : Store Handler} (h : Echoes installed κ) : κ.answer = "()" := by
  cases h <;> rfl

/-- The actor that echoes gets to its next turn. -/
theorem Desk.Keeps.leads_turn (h : d.Keeps s) (hκ : Echoes s.installed κ)
    (hcurrent : d.current = echoer.waiting)
    (hR : ∀ t j F', Relays s.frames F' → t.frames = .looping echoing .done :: .handling j :: F' →
      j ≠ 1 → t.installed.find? j = some (shown asker.pool) → t.resumptions = s.resumptions →
      d.Keeps t → Leads Γ (fun _ => True) R (t.goOn (.eval (echoing .unit)))) :
    Leads Γ (fun _ => True) R (s.goOn (.resume κ .unit)) := by
  cases hκ with
  | fresh =>
    have hdeclare : s.declare handlerName (Γ.handlerType handlerName) = .ok [handlerName] := by
      simp [Evaluation.declare, h.declared]
    have hne : s.installed.next ≠ 1 := Nat.ne_of_gt (Store.lt_next h.installed h.home)
    refine .enter_function trivial (.scope trivial (leads_start trivial trivial h.pool rfl
      h.nextLabel hdeclare (.loop trivial (hR _ _ _ (.pass (.pass (.answer .base))) rfl hne
        (Store.find?_insert_self ..) rfl ?_))))
    exact { h.write (c := asker.pool) (e := d)
        (x := .pool { label := -1, current := echoer.waiting, active := d.active })
        (by rw [← hcurrent]; rfl) with
      installed := Store.wellFormed_insert h.installed _
      home := (Store.find?_insert ..).trans ((if_neg hne.symm).trans h.home)
      declared := rfl
      nextLabel := rfl }
  | parked hj hhandler =>
    exact .enter_context trivial (.bind trivial rfl (.done trivial (.bind trivial rfl (.done trivial
      (.again trivial rfl (hR _ _ _ .base rfl hj hhandler rfl { h with }))))))

/-- What one round writes. -/
def exchange (i : Int) : String := "sent: " ++ toString i ++ (", received: " ++ toString i ++ "\n")

/-- The actor that sends numbers is about to take a turn. -/
structure Turn (rounds : Int) (F : List (Frame Content)) (text : String) (s : Evaluation Content) :
    Prop where
  keeps : ∃ ρ κ, s.resumptions.find? ρ = some κ ∧ Echoes s.installed κ ∧
    (⟨text, asker.waiting, [⟨echoer.waiting, ρ⟩], [], []⟩ : Desk).Keeps s
  frames : ∃ F', Relays F F' ∧
    s.frames = .looping (asking rounds) parting :: .bind .done :: .handling 1 :: F'

theorem asking_of_lt {rounds : Int} (h : n < rounds) : asking rounds (.int n) =
    Transcript.emit ("sent: " ++ toString n) fun _ =>
      sendNumber asker echoer n fun _ => hearing n := by
  have hlt : (Value.int n).toInt < rounds := h
  unfold asking
  rw [if_pos hlt]
  rfl

theorem asking_of_ge {rounds : Int} (h : rounds ≤ n) :
    asking rounds (.int n) = .done (Comp.stop .unit) := by
  have hge : ¬ (Value.int n).toInt < rounds := not_lt.mpr h
  unfold asking
  rw [if_neg hge]
  rfl

/-- What the actor that echoes does with a number that was sent to it. -/
def answering (n : Int) : Comp Content := Prog.toComp do
  if n = -1 then
    Transcript.emitLine "no more echo"
    return Comp.stop .unit
  else
    send asker (.int n)
    return Comp.again .unit

theorem leads_echoing (h : d.Keeps s)
    (hasked : d.asked = [.pair asker.toValue (.int n)])
    (hR : ∀ cells, ({ d with asked := [] } : Desk).Keeps { s with cells } →
      Leads Γ (fun _ => True) R (({ s with cells, frames := .bind .done :: s.frames } :
        Evaluation Content).goOn (.eval (answering n)))) :
    Leads Γ (fun _ => True) R (s.goOn (.eval (echoing .unit))) := by
  obtain ⟨text, current, active, asked, answered⟩ := d
  obtain rfl : asked = _ := hasked
  exact h.leads_receive (e := ⟨text, current, active, [], answered⟩) h.asked rfl
    fun cells hheard => .scope trivial (hR cells hheard)

theorem Turn.leads_next {rounds : Int} {text : String} (hΓ : Γ.handlerType handlerName = handler)
    (h : Turn rounds F text s) (hn : n < rounds) (hnonneg : 0 ≤ n)
    (hR : ∀ t, Turn rounds F (text ++ exchange n) t →
      Leads Γ (fun _ => True) R (t.goOn (.eval (asking rounds (.int (n + 1)))))) :
    Leads Γ (fun _ => True) R (s.goOn (.eval (asking rounds (.int n)))) := by
  obtain ⟨⟨ρ, κ, hκ, hechoes, hkeeps⟩, F', hF', hframes⟩ := h
  have hcode : ∀ f ∈ [Frame.looping (asking rounds) parting, .bind .done], f.isCode = true := by
    simp [Frame.isCode]
  have hcode' : ∀ f ∈ [Frame.bind .done, .looping echoing .done], f.isCode = true := by
    simp [Frame.isCode]
  have hanswering : answering n = send asker (.int n) fun _ => .done (Comp.again .unit) := by
    unfold answering
    rw [if_neg (by omega)]
    rfl
  rw [asking_of_lt hn]
  refine hkeeps.leads_emit fun cells hsent => .retainAll trivial (hsent.leads_send hΓ (.inr rfl)
    (e := ⟨_, _, _, [.pair asker.toValue (.int n)], []⟩)
    (.tail _ (.tail _ (.tail _ (.tail _ (.head _))))) rfl rfl
    (.inr rfl) hκ hechoes.answer hkeeps.home hframes hcode
    fun t ρ₁ ht hinstalled hρ₁ hasked => ?_)
  refine hasked.leads_turn (hinstalled ▸ hechoes) rfl
    fun t' j F'' hF'' hframes' hj hhome hsame hturn => leads_echoing hturn rfl
      fun cells' hheard => ?_
  rw [hanswering]
  refine Desk.Keeps.leads_send hΓ { hheard with } (.inl rfl)
    (e := ⟨_, _, _, [], [.int n]⟩) (.tail _ (.tail _ (.head _))) rfl rfl
    (.inl rfl) (hsame ▸ hρ₁) rfl hhome (congrArg _ hframes') hcode'
    fun t'' ρ₂ ht'' hinstalled' hρ₂ hanswered => ?_
  refine .enter_context trivial (.bind trivial rfl (Desk.Keeps.leads_receive (e := ⟨_, _, _, [], []⟩)
    { hanswered with } hanswered.answered rfl fun cells₁ hreceived => hreceived.leads_emit
      fun cells₂ hwritten => .done trivial (.again trivial rfl (hR _ ⟨⟨ρ₂, _, hρ₂,
        .parked hj (hinstalled' ▸ hhome), ?_⟩, F'', (ht ▸ hF').trans hF'', ?_⟩))))
  · rw [exchange, ← String.append_assoc]
    exact { hwritten with }
  · simp [ht'']

/-- What is left when the actors have ended. -/
structure Over (F : List (Frame Content)) (text : String) (s : Evaluation Content) : Prop where
  frames : s.frames = F
  text : s.cells.find? Transcript.cell = some (.value (.text text))
  pool : ∃ p : ActorPool, s.cells.find? asker.pool = some (.pool p) ∧ p.deadlock = none

theorem Desk.Keeps.returning {v : Value} (hΓ : Γ.handlerType handlerName = handler) (h : d.Keeps s)
    (hi : s.installed.find? i = some (shown asker.pool)) (hframes : s.frames = .handling i :: F)
    (hR : Leads Γ (fun _ => True) R (({ s with
        frames := .answering "()" :: F
        installed := s.installed.modify i fun x => { x with label := retiredLabel } } :
      Evaluation Content).goOn
        (.eval (if d.active.isEmpty then .done .unit else (Actor.wake asker.pool).toComp)))) :
    Leads Γ (fun _ => True) R (s.goOn (.ret v)) := by
  refine .returning trivial hframes hi ?_
  rw [answer_shown hΓ, onReturn_shown hΓ]
  exact .read trivial h.pool hR

/-- The actor that echoes is told that there is no more, and both actors end. -/
theorem Turn.leads_last {rounds : Int} {text : String} (hΓ : Γ.handlerType handlerName = handler)
    (h : Turn rounds F text s) (hn : rounds ≤ n)
    (hR : ∀ t w, Over F (text ++ "no more echo\n") t → Leads Γ (fun _ => True) R (t.goOn (.ret w))) :
    Leads Γ (fun _ => True) R (s.goOn (.eval (asking rounds (.int n)))) := by
  obtain ⟨⟨ρ, κ, hκ, hechoes, hkeeps⟩, F', hF', hframes⟩ := h
  have hcode : ∀ f ∈ [(Frame.bind .done : Frame Content)], f.isCode = true := by
    simp [Frame.isCode]
  have hanswering : answering (-1) = Transcript.emit "no more echo\n" fun _ =>
      .done (Comp.stop .unit) := by
    unfold answering
    rw [if_pos rfl]
    rfl
  rw [asking_of_ge hn]
  refine .done trivial (.stop trivial hframes (.retainAll trivial (Desk.Keeps.leads_send hΓ
    { hkeeps with } (.inr rfl) (e := ⟨_, _, _, [.pair asker.toValue (.int (-1))], []⟩)
    (.tail _ (.tail _ (.tail _ (.tail _ (.head _))))) rfl rfl (.inr rfl) hκ hechoes.answer hkeeps.home
    rfl hcode fun t ρ₁ ht hinstalled hρ₁ hasked => ?_)))
  refine hasked.leads_turn (hinstalled ▸ hechoes) rfl
    fun t' j F'' hF'' hframes' hj hhome hsame hturn => leads_echoing hturn rfl
      fun cells hheard => ?_
  rw [hanswering]
  refine Desk.Keeps.leads_emit { hheard with } fun cells hwritten => .done trivial (.bind trivial rfl
    (.done trivial (.stop trivial hframes' (.done trivial ?_))))
  refine Desk.Keeps.returning hΓ { hwritten with } hhome rfl ?_
  refine Desk.Keeps.leads_wake (a := ⟨asker.waiting, ρ₁⟩) { hwritten with
    installed := Store.wellFormed_modify hwritten.installed _ _
    home := (Store.find?_modify ..).trans ((if_neg hj.symm).trans hwritten.home) } rfl (.inl rfl)
    (hsame ▸ hρ₁) rfl rfl fun t₁ ht₁ _ _ hwoken => ?_
  refine .enter_context trivial (.bind trivial rfl (.done trivial (.bind trivial rfl
    (.done trivial (Desk.Keeps.returning hΓ { hwoken with } hwoken.home
      (congrArg (Frame.handling 1 :: ·) ht₁) (.done trivial (.answering trivial rfl hwoken.pending
        (.relayed trivial ((ht ▸ hF').trans hF'') rfl hwoken.pending
          fun w => hR _ w ⟨rfl, hwoken.text, _, hwoken.pool, rfl⟩))))))))

/-- What all rounds write. -/
def exchanges (rounds : Nat) : String :=
  String.join ((List.range rounds).map fun i => exchange i)

example : exchanges 2 = "sent: 0, received: 0\nsent: 1, received: 1\n" := by decide +kernel

theorem exchanges_succ (n : Nat) : exchanges (n + 1) = exchanges n ++ exchange n := by
  simp [exchanges, List.range_succ, String.join, List.foldl_append]

/-- The rounds that are left are played. -/
theorem Turn.leads_rounds {rounds : Int} (hΓ : Γ.handlerType handlerName = handler) (k : Nat)
    {n : Nat} (hk : rounds.toNat = n + k) (h : Turn rounds F (exchanges n) s)
    (hR : ∀ t w, Over F (exchanges rounds.toNat ++ "no more echo\n") t →
      Leads Γ (fun _ => True) R (t.goOn (.ret w))) :
    Leads Γ (fun _ => True) R (s.goOn (.eval (asking rounds (.int n)))) := by
  induction k generalizing n s with
  | zero =>
    refine h.leads_last hΓ (by omega) ?_
    rwa [hk] at hR
  | succ k ih =>
    refine h.leads_next hΓ (by omega) (by omega) fun t ht => ?_
    rw [← exchanges_succ] at ht
    exact ih (n := n + 1) (by omega) ht

/-! ### The program -/

/-- The program gets to the first turn of the actor that sends numbers. -/
theorem leads_run {K : Value → Comp Content} (hΓ : Γ.handlerType handlerName = handler) (rounds : Int)
    (hR : ∀ t, Turn rounds [.bind fun _ => (reportTask asker.pool).toComp, .bind K] "" t →
      Leads Γ (fun _ => True) R (t.goOn (.eval (asking rounds (.int 0))))) :
    Leads Γ (fun _ => True) R (Evaluation.start Client.cells (run [] (starter rounds) K)) := by
  have hdeclare : Evaluation.declare (ω := Content) { declared := [], phase := .finished .unit }
      handlerName (Γ.handlerType handlerName) = .ok [handlerName] := by
    rw [hΓ]
    rfl
  refine .freshLabel (s := Evaluation.start Client.cells (run [] (starter rounds) K)) trivial
    (.alloc trivial (.alloc trivial (.retain trivial (.alloc trivial
      (.alloc trivial (.retain trivial (.scope trivial ?_)))))))
  refine leads_start (p := { label := -1, current := 5 }) trivial trivial rfl rfl rfl hdeclare ?_
  have hframes : ∀ g : Value → Comp Content, ∀ f ∈ [Frame.bind g], f.isCode = true := by
    simp [Frame.isCode]
  have hreal : (-1 : Int) ≠ bottomLabel ∧ (-1 : Int) ≠ retiredLabel := by decide
  refine .retain trivial (.alloc trivial (.alloc trivial (.read trivial rfl (.retainAll trivial
    (.closure trivial (.scope trivial (.invoke (U := [.bind _]) trivial
      (Evaluation.dispatch_labelled (U := [.bind _]) rfl (hframes _) rfl rfl hreal
        (clauseFor_fork hΓ asker.pool)) rfl (answer_shown hΓ asker.pool) rfl (hframes _)
      (.retain trivial ?_))))))))
  refine .function trivial (Store.find?_insert_self ..) (.read trivial rfl (.write trivial
    (.tailResume trivial (Store.find?_insert_insert ..) rfl (.done trivial (.answering_pending trivial
      rfl rfl rfl (.enter_context trivial (.bind trivial rfl (.retainAll trivial (.done trivial
        (.bind trivial rfl (.scope trivial (.loop trivial (hR _ ?_)))))))))))))
  have hempty : ({ next := emptyResumption + 1 } : Store (Continuation Content)).WellFormed := by
    simp [Store.WellFormed]
  have hempty' : ({ next := 1 } : Store Handler).WellFormed := by simp [Store.WellFormed]
  refine ⟨⟨2, _, Store.find?_replaced hempty, .fresh, ?_⟩, _, .base, rfl⟩
  refine ⟨fun x hx => ?_, Store.wellFormed_replaced hempty _ _,
    Store.wellFormed_insert hempty' _, rfl, rfl, rfl, rfl⟩
  simp only [Desk.contents, List.mem_cons, List.not_mem_nil, or_false] at hx
  rcases hx with rfl | rfl | rfl | rfl | rfl | rfl <;> rfl

/-- What the evaluation comes to. -/
structure Echoed (rounds : Int) (v : Value) (s : Evaluation Content) : Prop where
  phase : s.phase = .ret v
  frames : s.frames = []
  text : s.cells.find? Transcript.cell =
    some (.value (.text (exchanges rounds.toNat ++ "no more echo\n")))

/-- The run of the actors ends, and there is no deadlock. -/
theorem leads_echoed {K : Value → Comp Content} {v : Value}
    (hΓ : Γ.handlerType handlerName = handler) (rounds : Int) (hK : K .absent = .done v) :
    Leads Γ (fun _ => True) (Echoed rounds v)
      (Evaluation.start Client.cells (run [] (starter rounds) K)) := by
  refine leads_run hΓ rounds fun t ht => ht.leads_rounds hΓ rounds.toNat (n := 0)
    (Nat.zero_add _).symm fun t w hover => ?_
  obtain ⟨p, hp, hdeadlock⟩ := hover.pool
  refine .bind trivial hover.frames ?_
  rw [reportTask_eq]
  refine .read trivial hp (.done trivial (.bind trivial rfl ?_))
  rw [hdeadlock]
  show Leads _ _ _ (Evaluation.goOn _ (.eval (K .absent)))
  rw [hK]
  exact .done trivial (.here trivial ⟨rfl, rfl, hover.text⟩)

/-! ### What the thread does -/

section Orderly

variable (me address : Mailbox) (rounds : Int)

theorem orderly_echo : (echo me).Orderly := by
  refine Prog.Orderly.loop fun _ => (orderly_receive me).bind fun message => ?_
  split
  · refine Prog.Orderly.scope ?_
    split
    · exact (Transcript.orderly_emit _).bind fun _ => Prog.orderly_pure _
    · split
      · exact (orderly_send _ _).bind fun _ => Prog.orderly_pure _
      · exact Prog.orderly_pure _
  · exact Prog.orderly_pure _

theorem orderly_sendNumber (n : Int) : (sendNumber me address n).Orderly :=
  (Prog.orderly_retainAll _).bind fun _ => orderly_send _ _

theorem orderly_starter : (starter rounds me).Orderly := by
  refine (orderly_spawn me.pool orderly_echo).bind fun address => Prog.Orderly.scope
    ((Prog.Orderly.loop fun i => ?_).bind fun _ =>
      (orderly_sendNumber me address _).bind fun _ => Prog.orderly_pure _)
  split
  · exact (Transcript.orderly_emit _).bind fun _ => (orderly_sendNumber me address _).bind fun _ =>
      (orderly_receive me).bind fun _ => (Transcript.orderly_emit _).bind fun _ =>
        Prog.orderly_pure _
  · exact Prog.orderly_pure _

theorem orderly_demo : (demo rounds).Orderly := by
  refine (orderly_run [] fun me => orderly_starter me rounds).bind fun v => ?_
  split
  · exact Transcript.orderly_emit _
  · exact Prog.orderly_pure _

end Orderly

variable {settings : SettingsSlot}

/-- A thread that goes on with the result of the run in an honest way ends. -/
theorem ends_of_run {K : Value → Comp Content} {v : Value} {rounds : Int} (hΓ : Γ.Orderly)
    (hhandler : Γ.handlerType handlerName = handler)
    (hsize : settings.use.1.stackSize < StackPool.addressSpace) (hK : K .absent = .done v)
    (horderly : (run [] (starter rounds) K).Orderly)
    (hhonest : (run [] (starter rounds) K).Honest regime regime.base [] [] [] []) :
    ∃ n, ((Machine.start settings Client.cells [] (run [] (starter rounds) K)).run Γ n).control =
        .halted (.finished v) ∧
      ((Machine.start settings Client.cells [] (run [] (starter rounds) K)).run Γ n).releasing = [] ∧
      ((Machine.start settings Client.cells [] (run [] (starter rounds) K)).run Γ n).contents
        Transcript.cell = some (.value (.text (exchanges rounds.toNat ++ "no more echo\n"))) := by
  obtain ⟨t, ht, -⟩ := (leads_echoed hhandler rounds hK).exists_steps
  have hentrusted : Machine.Entrusted Γ regime Client.cells (run [] (starter rounds) K) :=
    { library := library_honest hhandler
      main := ⟨_, hhonest⟩
      nodup := by decide
      kept := by decide
      owned := by decide
      shape := fun _ _ => trivial
      default := rfl }
  obtain ⟨n, hcontrol, hreleasing, hcontents⟩ :=
    hentrusted.ends hΓ horderly hsize ht.phase ht.frames
  exact ⟨n, hcontrol, hreleasing, (hcontents _ (by decide)).trans ht.text⟩

/-- The computation in which one actor sends so many numbers, and another one sends them back. -/
def echoProgram (rounds : Int) : Comp Content := Prog.toComp do
  demo rounds
  return .unit

/-- What is true of a thread in which so many numbers are echoed. -/
structure EchoesAll (Γ : Library Content) (settings : SettingsSlot) (rounds : Int) : Prop where
  /-- The thread ends. Then nothing is left to be done, and the transcript has a line for each number,
  with what was sent and what came back, and a last line. -/
  ends : ∃ n, ((Machine.start settings Client.cells [] (echoProgram rounds)).run Γ n).control =
      .halted (.finished .unit) ∧
    ((Machine.start settings Client.cells [] (echoProgram rounds)).run Γ n).releasing = [] ∧
    ((Machine.start settings Client.cells [] (echoProgram rounds)).run Γ n).contents Transcript.cell =
      some (.value (.text (exchanges rounds.toNat ++ "no more echo\n")))
  /-- The run of the actors has no deadlock to report. -/
  undeadlocked : ∃ n, ((Machine.start settings Client.cells []
    (run [] (starter rounds)).toComp).run Γ n).control = .halted (.finished .absent)

/-- However many rounds there are, all numbers come back, one after the other, and then both actors
end. -/
theorem numbers_are_echoed (hΓ : Γ.Orderly) (hhandler : Γ.handlerType handlerName = handler)
    (hsize : settings.use.1.stackSize < StackPool.addressSpace) (rounds : Int) :
    EchoesAll Γ settings rounds where
  ends := ends_of_run hΓ hhandler hsize rfl
    ((orderly_demo rounds).bind fun _ => Prog.orderly_pure _).toComp
    (honest_demo rounds (List.Subset.refl _) (.done trivial (.nil _)))
  undeadlocked := by
    obtain ⟨n, hcontrol, -⟩ := ends_of_run (K := .done) hΓ hhandler hsize rfl
      (orderly_run [] fun me => orderly_starter me rounds).toComp
      (honest_run (fun me hkept this => honest_starter rounds
        (.of_subset fun o ho => by simp [ho]) hkept (List.subset_append_right ..)) (.nil _)
        fun v => .done trivial (by simpa using .refl _))
    exact ⟨n, hcontrol⟩

/-- Three numbers are echoed. -/
theorem numbers_are_echoed_three : EchoesAll library {} 3 :=
  numbers_are_echoed library_orderly library_handler (by decide) 3

end EffectHandlers.Actor
