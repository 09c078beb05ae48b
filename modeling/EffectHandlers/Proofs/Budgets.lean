import EffectHandlers.Client.Fuel
import EffectHandlers.Proofs.Variables
/-!
# Budgets

A body that asks for fuel is run with a budget, or the fuel that it uses is measured. What it has
asked for at any moment decides whether it can be afforded.
-/

namespace EffectHandlers.Fuel

/-- Asking for an amount of fuel, as a program. -/
def ask (amount : Int) : Task Value := do
  consume amount
  return .unit

/-- The fuel that is used is added up. -/
def count (amount : Int) (w : World Int) : Option (Value × World Int) :=
  some (.unit, { w with state := w.state + amount })

/-- The fuel that is used is added up as long as the sum satisfies a condition. -/
def charge (p : Int → Prop) [DecidablePred p] (amount : Int) (w : World Int) :
    Option (Value × World Int) :=
  if p (w.state + amount) then count amount w else none

theorem of_charge {p : Int → Prop} [DecidablePred p] {amount : Int} {w w' : World Int} {v : Value}
    (h : charge p amount w = some (v, w')) :
    p (w.state + amount) ∧ .unit = v ∧ { w with state := w.state + amount } = w' := by
  unfold charge at h
  split at h
  · rename_i hp
    exact ⟨hp, Prod.mk.inj (Option.some.inj h)⟩
  · cases h

variable {Γ : Library Content} {o s : Outline Content} {g : Guest} {n : Nat}
  {next k : Value → Comp Content} {S T : List (Activation Content)} {w w' : World Int} {v : Value}
  {amount budget : Int}

/-! ### Measured fuel -/

theorem measure_consume : measure.Resumes consumeCommand fun cell v r =>
    Task.readValue cell fun u => Prog.checked (Word.add? u.toInt v.toInt) fun n =>
      Task.writeValue cell (.int n) fun _ => .tailResume r .unit (.done .unit) :=
  ⟨0, _, rfl, rfl⟩

/-- Checked arithmetic whose result fits. -/
theorem gets_checked {operation : String} {m : Int} {f : Int → Comp Content}
    {Q : Outline Content → Prop} (hfits : Word.Fits m) (h : (s.on S (.eval (f m))).Gets Γ Q) :
    (s.on S (.eval (Prog.checked (Word.checked operation m) f))).Gets Γ Q := by
  rw [Word.checked, if_pos hfits]
  exact h

theorem gets_then {c : Prop} [Decidable c] {p q : Task Value} {Q : Outline Content → Prop} (hc : c)
    (h : (s.on S (.eval (p k))).Gets Γ Q) :
    (s.on S (.eval ((if c then p else q) k))).Gets Γ Q := by
  rwa [if_pos hc]

theorem gets_else {c : Prop} [Decidable c] {p q : Task Value} {Q : Outline Content → Prop}
    (hc : ¬ c) (h : (s.on S (.eval (q k))).Gets Γ Q) :
    (s.on S (.eval ((if c then p else q) k))).Gets Γ Q := by
  rwa [if_neg hc]

/-- The handler adds the amount, and resumes. -/
theorem gets_measured (hs : Keeping Γ (fun used => .value (.int used)) o g next S w s)
    (hhandler : Γ.handlerType g.handlerType = measure) (hpending : o.pending = none)
    (hcharge : charge Word.Fits amount w = some (v, w')) :
    (s.on T (.eval (ask amount k))).Gets Γ fun s' =>
      ∃ s'', Keeping Γ (fun used => .value (.int used)) o g next S w' s'' ∧
        s' = s''.on T (.eval (k v)) := by
  obtain ⟨cells, hholds, rfl⟩ := hs
  obtain ⟨hfits, rfl, rfl⟩ := of_charge hcharge
  have hvalue : Memory.value cells.find? g.handler = .int w.state := by
    simp [Memory.value, hholds.own]
  refine (Outline.gets_captured (hhandler ▸ measure_consume)).trans ?_
  rintro s' ⟨r, e, hr, rfl⟩ -
  refine .readValue hvalue (gets_checked hfits (.writeValue
    ((Outline.gets_tailResumed hpending hr rfl).mono ?_)))
  rintro s' rfl -
  exact ⟨_, ⟨_, hholds.keep, rfl⟩, rfl⟩

/-! ### Bounded fuel -/

theorem bounded_consume : bounded.Resumes consumeCommand fun cell v r =>
    Task.readValue cell fun u =>
      (if u.toInt < v.toInt then do
        Prog.note .debug "out of fuel"
          [("left", toString u.toInt), ("amount", toString v.toInt)]
        return .absent
      else fun k => Prog.checked (Word.sub? u.toInt v.toInt) fun n =>
        Task.writeValue cell (.int n) fun _ => .tailResume r .unit (k .unit) : Task Value) .done :=
  ⟨0, _, rfl, rfl⟩

/-- The handler subtracts the amount that is left to use, and resumes. -/
theorem gets_afforded (hs : Keeping Γ (fun used => .value (.int (budget - used))) o g next S w s)
    (hhandler : Γ.handlerType g.handlerType = bounded) (hpending : o.pending = none)
    (hcharge : charge (fun total => total ≤ budget ∧ Word.Fits (budget - total)) amount w =
      some (v, w')) :
    (s.on T (.eval (ask amount k))).Gets Γ fun s' =>
      ∃ s'', Keeping Γ (fun used => .value (.int (budget - used))) o g next S w' s'' ∧
        s' = s''.on T (.eval (k v)) := by
  obtain ⟨cells, hholds, rfl⟩ := hs
  obtain ⟨⟨hle, hfits⟩, rfl, rfl⟩ := of_charge hcharge
  have hvalue : Memory.value cells.find? g.handler = .int (budget - w.state) := by
    simp [Memory.value, hholds.own]
  refine (Outline.gets_captured (hhandler ▸ bounded_consume)).trans ?_
  rintro s' ⟨r, e, hr, rfl⟩ -
  have hless : ¬ budget - w.state < amount := by omega
  have hleft : budget - (w.state + amount) = budget - w.state - amount := by omega
  have hkept : (cells.modify g.handler fun y =>
      { y with content := .value (.int (budget - w.state - amount)) }).Holds g.handler
        (.value (.int (budget - (w.state + amount)))) (fun _ => 0) w.memory := by
    rw [hleft]
    exact hholds.keep
  refine .readValue hvalue (gets_else hless (gets_checked (hleft ▸ hfits) (.writeValue
    ((Outline.gets_tailResumed hpending hr rfl).mono ?_))))
  rintro s' rfl -
  exact ⟨_, ⟨_, hkept, rfl⟩, rfl⟩

/-- The handler gives up a body that asks for more than is left. -/
theorem gets_denied (hs : Keeping Γ (fun used => .value (.int (budget - used))) o g next S w s)
    (hhandler : Γ.handlerType g.handlerType = bounded) (hpending : o.pending = none)
    (hmore : budget < w.state + amount) (hT : T.flatMap Activation.owned = []) :
    (s.on (T ++ [.owning [.reference g.this]]) (.eval (ask amount k))).Gets Γ fun s' =>
      ∃ cells : Store (Shared Content), cells.find? = w.memory ∧
        s' = (o.storing cells).on S (.eval (next .absent)) := by
  obtain ⟨cells, hholds, rfl⟩ := hs
  have hvalue : Memory.value cells.find? g.handler = .int (budget - w.state) := by
    simp [Memory.value, hholds.own]
  refine (Outline.gets_captured (hhandler ▸ bounded_consume)).trans ?_
  rintro s' ⟨r, e, hr, rfl⟩ hcells
  have hless : budget - w.state < amount := by omega
  refine .readValue hvalue (gets_then hless ?_)
  refine .record (.done ((Outline.gets_abandoned hT).via (.lastClauseEnds hpending hholds.own
    (Nat.le_refl 1) rfl (.last
      (t := (o.storing (cells.erase g.handler)).on S (.eval (next .absent)))
      (fun _ _ => rfl) fun _ => ⟨_, hholds.erase hcells, rfl⟩))))

/-! ### Sums of what is used -/

variable {π : Type} {name : π → String} {code : π → Value → Body (Deed Int n) π}
  {c : Course (Deed Int n) π (World Int)} {m : Machine Content} {body : Body (Deed Int n) π}

/-- The body is about to use fuel, and with it has used this much in all. -/
def Sums (c : Course (Deed Int n) π (World Int)) (total : Int) : Prop :=
  ∃ amount next, c.body = .act (.send amount) next ∧ c.world.state + amount = total

/-- A condition that the sum satisfies makes no difference. -/
theorem next?_charge {p : Int → Prop} [DecidablePred p] (h : ∀ total, Sums c total → p total) :
    c.next? code (Deed.acts (charge p)) = c.next? code (Deed.acts count) := by
  obtain ⟨body, blocks, w⟩ := c
  cases body with
  | act d next =>
    cases d with
    | send amount =>
      have hp : p (w.state + amount) := h _ ⟨amount, next, rfl, rfl⟩
      simp only [Course.next?, Deed.acts, charge, if_pos hp]
    | _ => rfl
  | _ => rfl

/-! ### Both handlers -/

/-- A body runs to its end while its fuel is measured. -/
theorem measured_completes (hmeasure : Γ.handlerType measureName = measure)
    (hvoc : (Deed.vocabulary ask name code).Known Γ) (hm : m.Numbered)
    (hreleasing : m.releasing = []) (hpending : m.pending = none)
    (hsize : m.stackSize < StackPool.addressSpace) (hn : n ≤ m.cells.next)
    (htranscript : Transcript.cell < n) (body : Body (Deed Int n) π) (next : Value → Comp Content)
    (hfits : ∀ t total, Sums ((Course.start m body 0).run code (Deed.acts count) t) total →
      Word.Fits total) :
    ∃ clock, (Course.start m body 0).Completed Γ (Deed.vocabulary ask name code) (Deed.acts count) m
      (m.goOn (.eval (measured [] (body.toProg (Deed.vocabulary ask name code)) next)))
      (fun w v => next (.pair v (.int w.state))) clock := by
  obtain ⟨g, hname, hhandler, cells, hholds, hrun⟩ := Machine.exists_installed hm hreleasing
    (by rw [hmeasure]; rfl) hsize (.value (.int 0))
    (fun _ => body.code (Deed.vocabulary ask name code)) next
  have hle : n ≤ g.handler := hhandler ▸ hn
  have hg : Γ.handlerType g.handlerType = measure := hname ▸ hmeasure
  have hcompleted : ∃ clock, (Course.start m body 0).Completed Γ (Deed.vocabulary ask name code)
      (Deed.acts (charge Word.Fits)) m
      (m.goOn (.eval (measured [] (body.toProg (Deed.vocabulary ask name code)) next)))
      (fun w v => next (.pair v (.int w.state))) clock := by
    refine Course.Shown.exists_completed ⟨_, ⟨cells, hholds, rfl⟩, hrun⟩ (hm.goOn _)
      (Keeping.enacts hvoc hle htranscript fun hs => gets_measured hs hg hpending)
      (fun w s hs x hx => hs.visible (Nat.ne_of_lt (Nat.lt_of_lt_of_le hx hle)))
      fun w v s hs => hs.gets_answered hpending rfl fun {s' U Q} hown h => ?_
    have hused : Memory.value s'.cells.find? g.handler = .int w.state := by
      simp [Memory.value, hown]
    rw [hg]
    exact .readValue hused (.done h)
  obtain ⟨clock, hcompleted⟩ := hcompleted
  exact ⟨clock, hcompleted.congr fun t => next?_charge (hfits t)⟩

/-- A body runs with a budget. -/
theorem budgeted_concludes (hbounded : Γ.handlerType boundedName = bounded)
    (hvoc : (Deed.vocabulary ask name code).Known Γ) (hm : m.Numbered)
    (hreleasing : m.releasing = []) (hpending : m.pending = none)
    (hsize : m.stackSize < StackPool.addressSpace) (hn : n ≤ m.cells.next)
    (htranscript : Transcript.cell < n) (budget : Int) (body : Body (Deed Int n) π)
    (next : Value → Comp Content) :
    ∃ clock, (Course.start m body 0).Concluded Γ (Deed.vocabulary ask name code)
      (Deed.acts (charge fun total => total ≤ budget ∧ Word.Fits (budget - total))) m
      (m.goOn (.eval (withBudget budget [] (body.toProg (Deed.vocabulary ask name code)) next)))
      (fun _ v => next (.present v))
      (fun d w => ∃ amount, d = .send amount ∧ budget < w.state + amount) World.memory
      (next .absent) clock := by
  obtain ⟨g, hname, hhandler, cells, hholds, hrun⟩ := Machine.exists_installed hm hreleasing
    (by rw [hbounded]; rfl) hsize (.value (.int budget))
    (fun _ => body.code (Deed.vocabulary ask name code)) next
  have hle : n ≤ g.handler := hhandler ▸ hn
  have hg : Γ.handlerType g.handlerType = bounded := hname ▸ hbounded
  rw [← Int.sub_zero budget] at hholds
  refine Course.Shown.exists_concluded ⟨_, ⟨cells, hholds, rfl⟩, hrun⟩ (hm.goOn _)
    (Keeping.enacts hvoc hle htranscript fun hs => gets_afforded hs hg hpending)
    (fun w s hs x hx => hs.visible (Nat.ne_of_lt (Nat.lt_of_lt_of_le hx hle)))
    (fun w v s hs => hs.gets_answered hpending rfl fun _ h => ?_) _ _ _ ?_
  · rw [hg]
    exact .done h
  · rintro d w s T k ⟨amount, rfl, hmore⟩ hs hT
    exact gets_denied hs hg hpending hmore hT

end EffectHandlers.Fuel
