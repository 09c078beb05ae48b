import EffectHandlers.Proofs.Actions
import EffectHandlers.Proofs.Installing
import EffectHandlers.Proofs.Releasing
/-!
# Passing requests on and capturing keep states sound

A request comes down one driver at a time: the running fiber is parked under the tower that the
request has left behind. The driver of the target cuts off the tower together with the segment
of the chain and runs the clause.
-/

namespace EffectHandlers

variable {ω : Type} {Γ : Library ω} {m m' : Machine ω} {l : Layout ω} {i : InstallationId}
  {t : Tower ω} {S : List (Activation ω)} {c' : Chain} {r : Request}

/-- An armed continuation stays armed as long as no result is taken. -/
theorem Cont.Armed.modify {x : Store Exchange} {k : Cont ω} {e : ExchangeId}
    (f : Exchange → Exchange) (hf : ∀ y, y.result.isSome → (f y).result.isSome)
    (h : k.Armed x) :
    k.Armed (x.modify e f) := by
  cases k with
  | function answer g arg => exact h
  | captured answer g seg e' =>
    obtain ⟨y, hy, hresult⟩ := h
    by_cases he : e' = e
    · exact ⟨f y, by simp [Store.find?_modify, he ▸ hy, he], hf y hresult⟩
    · exact ⟨y, by simp [Store.find?_modify, he, hy], hresult⟩

/-- What a capture leads to, where everything that it looks for is there. -/
theorem Machine.capture_eq {code : ClauseCode ω} {f : FiberId} {segment : Segment} {c' : Chain}
    {y : Exchange} {command : Command} (hcode : m.codeAt Γ i r.entry = some code)
    (hplain : code.modifier ≠ .plain) (hsplit : m.chain.split i = .ok (segment, c'))
    (hy : m.exchanges.find? r.exchange = some y) (hcommand : y.command = some command) :
    ∃ counters events, events.filter Event.isAction = [] ∧
      counters.discarded = m.counters.discarded + (if code.modifier = .noResume then 1 else 0) ∧
      m.capture Γ i f r = { m with
        chain := c'.modify i fun a => { a with shares := a.shares + 1 }
        exchanges := m.exchanges.modify r.exchange fun x => { x with command := none }
        resumptions := if code.takes then (m.resumptions.insert (.captured
          (Γ.handlerType (m.chain.get i).handlerType).answer f segment r.exchange)).2
          else m.resumptions
        releasing := (if code.takes then [] else .fiber f :: segment.owned) ++
          ((if (code.keeps i).isSome then [] else [.installation i]) ++ m.releasing)
        stack := .owning ((if code.takes then [.resumption m.resumptions.next] else []) ++
          command.owned) :: .clause (code.keeps i)
            (Γ.handlerType (m.chain.get i).handlerType).answer :: m.stack
        control := .eval (code.body (m.chain.get i).handler command.payload m.resumptions.next)
        counters, journal := events ++ m.journal } := by
  unfold Machine.capture
  simp only [hcode]
  cases code with
  | plain run => exact absurd rfl hplain
  | resumptive run =>
    refine ⟨m.counters.bump .captures, [.trace (.captured (m.chain.get i).label
      (m.chain.get i).name (c'.segmentLength segment) .resumptive)], rfl, rfl, ?_⟩
    simp only [hsplit, Machine.hold, Machine.bump, Machine.trace, Machine.record, Option.pure_def,
      ClauseCode.modifier, Machine.takeCommand, hy, hcommand, Option.bind_eq_bind,
      Option.bind_some, reduceCtorEq, if_false]
    rfl
  | noManage run =>
    refine ⟨m.counters.bump .captures, [.trace (.captured (m.chain.get i).label
      (m.chain.get i).name (c'.segmentLength segment) .noManage)], rfl, rfl, ?_⟩
    simp only [hsplit, Machine.hold, Machine.bump, Machine.trace, Machine.record, Option.pure_def,
      ClauseCode.modifier, Machine.takeCommand, hy, hcommand, Option.bind_eq_bind,
      Option.bind_some, if_true, Machine.release]
    rfl
  | noResume run =>
    refine ⟨(m.counters.bump .captures).bump .discarded, [.trace (.discardingFor command.name),
      .trace (.captured (m.chain.get i).label (m.chain.get i).name (c'.segmentLength segment)
        .noResume)], rfl, rfl, ?_⟩
    simp only [hsplit, Machine.hold, Machine.bump, Machine.trace, Machine.record, Option.pure_def,
      ClauseCode.modifier, Machine.takeCommand, hy, hcommand, Option.bind_eq_bind,
      Option.bind_some, reduceCtorEq, if_false]
    rfl

namespace Sound

/-- A driver of another installation passes the request on. -/
theorem passed (h : Sound Γ m l) (hr : Requested Γ m r t) (htower : l.front = t.code)
    (hlifted : l.lifted = t.rest)
    {cur : Option FiberId} {rs : List (Resumer (List (Activation ω)))}
    {fs : Fibers (List (Activation ω))}
    (hresumers : m.fibers.resumers = ⟨t.root, cur, .driving i t.root :: .stepping :: S⟩ :: rs)
    (hS : Ready S) (hrest : fs.resumers = rs)
    (hparks : Parks fs (t :: l.towers)) (hi : i ≠ r.target) :
    ∃ l', Sound Γ { m with fibers := fs, stack := .driving i t.root :: .stepping :: S } l' := by
  obtain ⟨front, lifted, kept, dropped⟩ := l
  obtain rfl : front = t.code := htower
  obtain rfl : lifted = t.rest := hlifted
  have hwaiting : m.waiting = .driving i t.root :: .stepping :: S ++ rs.flatMap (·.code) := by
    simp [Machine.waiting, hresumers]
  have hbelow : r.target ∈ drivers (rs.flatMap (·.code)) := by
    have hdriver := hr.driver
    rw [hwaiting, drivers_append, drivers_cons, drivers_cons, hS.drivers_eq] at hdriver
    simpa [Activation.driver?, Ne.symm hi] using hdriver
  obtain ⟨f, hf⟩ := hparks.waiters.current_isSome (hrest ▸ hbelow)
  let t' : Tower ω := .driver f i t S
  generalize hm' : ({ m with fibers := fs, stack := .driving i t.root :: .stepping :: S } :
    Machine ω) = m'
  have hwaiting' : m'.waiting = rs.flatMap (·.code) := by
    subst hm'
    simp only [Machine.waiting, hrest]
  have hall : t'.code ++ m'.waiting = t.code ++ m.waiting := by
    rw [hwaiting, hwaiting']
    simp [t', Tower.code, Tower.stack]
  have hledger : (⟨t'.code, t'.rest, kept, dropped⟩ : Layout ω).ledger m' =
      (⟨t.code, t.rest, kept, dropped⟩ : Layout ω).ledger m := by
    have hconts : m'.conts = m.conts := by subst hm'; rfl
    have hreferences : m'.references = m.references := by subst hm'; rfl
    have hreleasing' : m'.releasing = m.releasing := by subst hm'; rfl
    simp only [Layout.ledger, Layout.code, Layout.towers, hall, hconts, hreferences, hreleasing']
  refine ⟨⟨t'.code, t'.rest, kept, dropped⟩, ?_⟩
  subst hm'
  exact
    { h with
      tip := .request
        { hr with
          stack := rfl
          current := hf
          ready := ⟨hr.ready, hS⟩
          driver := hwaiting' ▸ hbelow
          live := hall ▸ hr.live }
      placed := hall ▸ h.placed
      parks := hparks
      covers := hledger ▸ h.covers
      heldOnce := hledger ▸ h.heldOnce
      regular := { h.regular with } }

/-- The state in which a clause that captures the continuation starts. What the clause, the
continuations and the release list hold besides accounts for what was cut off. -/
theorem caught (h : Sound Γ m l) (htower : l.front = t.code) (hready : t.Ready)
    (hwaiting : m.waiting = .driving i t.root :: .stepping :: S ++ m'.waiting) (hS : Ready S)
    (hcovers : m'.chain.Covers (.installation i :: .installation m.chain.top :: l.ledger m))
    (hdeclares : Declares Γ m'.chain) {keep : Option InstallationId} {answer : String}
    {os : List Owned} {body : Comp ω} (hbody : body.Orderly)
    (hexchanges : m'.exchanges =
      m.exchanges.modify t.exchange fun x => { x with command := none })
    (hclosures : m'.closures = m.closures) (hreferences : m'.references = m.references)
    (hsize : m'.stackSize = m.stackSize) (hpending : m'.pending = m.pending)
    (hconts : m.control.conts = [])
    (hstack : m'.stack = .owning os :: .clause keep answer :: .stepping :: S)
    (hcontrol : m'.control = .eval body) {kept' : List (Kept ω)} {dropped' : List (Tower ω)}
    (hplaced : Placed m'.chain (S ++ m'.waiting) kept')
    (htowers : (kept'.map (·.tower) ++ dropped').Perm (t :: l.towers))
    (hparks : Parks m'.fibers (t :: l.towers))
    (hcaptured : (m'.conts.filter Cont.isCaptured).Perm (kept'.map Kept.cont))
    (horderly : ∀ k ∈ m'.conts, k.Orderly)
    (hresumable : ∀ k ∈ kept', k.tower.modifier ≠ .noResume)
    (hdropping : (m'.releasing.filterMap Holding.fiber?).Perm (dropped'.map Tower.root))
    (hcount : ∀ x : Holding, (keep.map Holding.installation).toList.count x +
        (m'.conts.flatMap Cont.owned).count x + m'.releasing.count x =
      (m.conts.flatMap Cont.owned).count x + m.releasing.count x + [Holding.fiber t.root,
        .installation m.chain.top, .installation i, .installation i].count x) :
    Sound Γ m' ⟨m'.stack, [], kept', dropped'⟩ := by
  obtain ⟨front, lifted, kept, dropped⟩ := l
  obtain rfl : front = t.code := htower
  have hledger : ∀ x : Holding, x.isAsset = false →
      ((⟨m'.stack, [], kept', dropped'⟩ : Layout ω).ledger m').count x =
        ((⟨t.code, lifted, kept, dropped⟩ : Layout ω).ledger m).count x +
          [Holding.installation m.chain.top, .installation i].count x := by
    intro x hx
    have hcode := ((htowers.flatMap_right Tower.code).flatMap_right Activation.owned).count_eq x
    have hchange := hcount x
    rw [Layout.count_ledger, Layout.count_ledger, hwaiting, hreferences, hstack]
    simp only [Layout.towers, List.flatMap_cons, List.flatMap_append, Activation.owned,
      List.count_append, count_map_asset hx, List.count_cons, List.count_nil, List.nil_append] at hcode hchange ⊢
    omega
  exact
    { tip := .eval hcontrol hbody (hstack ▸ .inner trivial (.answers trivial hS))
      placed := by
        rw [hstack]
        exact hplaced.of_code rfl rfl id
      parks := hparks.perm htowers.symm
      captured := hcaptured
      ready := by
        intro t' ht'
        rcases List.mem_cons.mp (htowers.mem_iff.mp ht') with rfl | ht'
        · exact hready
        · exact h.ready t' ht'
      resumable := hresumable
      dropping := hdropping
      covers := hcovers.mono fun j => by
        rw [hledger _ rfl]
        simp only [List.count_cons, List.count_nil]
        omega
      heldOnce := by
        rw [hexchanges]
        refine (h.heldOnce.mono fun e => ?_).modify _
        rw [hledger _ rfl]
        simp
      armed := by
        intro k hk
        rw [hexchanges]
        refine Cont.Armed.modify _ (fun _ hy => hy) (h.armed k ?_)
        rw [Machine.armed, hcontrol, hpending] at hk
        rw [Machine.armed, hconts]
        exact hk
      regular :=
        { exchanges := hexchanges ▸ Store.wellFormed_modify h.regular.exchanges _ _
          closures := hclosures ▸ h.regular.closures
          conts := horderly
          declares := hdeclares
          stackSize := hsize ▸ h.regular.stackSize } }

/-- Where the driver of the target receives a request, everything that a capture looks for is
there. -/
theorem capturable (h : Sound Γ m l) (hr : Requested Γ m r t) (htower : l.front = t.code)
    {cur : Option FiberId} {rs : List (Resumer (List (Activation ω)))}
    (hresumers : m.fibers.resumers =
      ⟨t.root, cur, .driving r.target t.root :: .stepping :: S⟩ :: rs) (answer : String) :
    ∃ code y command c', m.codeAt Γ r.target r.entry = some code ∧ code.modifier ≠ .plain ∧
      code.modifier = t.modifier ∧ m.exchanges.find? r.exchange = some y ∧
      y.command = some command ∧ m.chain.split r.target = .ok (⟨m.chain.top, r.target⟩, c') ∧
      m.chain.Relinks r.target none c' ∧ (m.chain.get r.target).below = some c'.top ∧
      Placed c' (.stepping :: S ++ rs.flatMap (·.code))
        (⟨answer, ⟨m.chain.top, r.target⟩, t⟩ :: l.kept) := by
  obtain ⟨code, hcode, hplain, hmodifier⟩ := hr.code
  obtain ⟨y, hy, hcommand⟩ := hr.command
  obtain ⟨command, hcommand⟩ := Option.isSome_iff_exists.mp hcommand
  have hwaiting : m.waiting =
      .driving r.target t.root :: .stepping :: S ++ rs.flatMap (·.code) := by
    simp [Machine.waiting, hresumers]
  have hplaced := h.placed
  have hlive := hr.live
  rw [htower, hwaiting] at hplaced
  rw [hwaiting] at hlive
  obtain ⟨c', hsplit, hrelinks, -, hbelow, hcut⟩ := hplaced.capture answer hlive
  exact ⟨code, y, command, c', hcode, hplain, hmodifier, hr.exchange ▸ hy, hcommand, hsplit,
    hrelinks, hbelow, hcut⟩

/-- The driver of the target captures the continuation and runs the clause. -/
theorem capture (h : Sound Γ m l) (hΓ : Γ.Orderly) (hr : Requested Γ m r t)
    (htower : l.front = t.code) {cur : Option FiberId}
    {rs : List (Resumer (List (Activation ω)))} {fs : Fibers (List (Activation ω))}
    (hresumers : m.fibers.resumers =
      ⟨t.root, cur, .driving r.target t.root :: .stepping :: S⟩ :: rs)
    (hS : Ready S) (hrest : fs.resumers = rs) (hparks : Parks fs (t :: l.towers)) :
    ∃ l', Sound Γ (({ m with fibers := fs, stack := .stepping :: S } : Machine ω).capture Γ
      r.target t.root r) l' := by
  obtain ⟨code, y, command, c', hcode, hplain, hmodifier, hy, hcommand, hsplit, hrelinks, hbelow,
    hcut⟩ := h.capturable hr htower hresumers (Γ.handlerType (m.chain.get r.target).handlerType).answer
  let K : Kept ω := ⟨(Γ.handlerType (m.chain.get r.target).handlerType).answer,
    ⟨m.chain.top, r.target⟩, t⟩
  have hwaiting : m.waiting =
      .driving r.target t.root :: .stepping :: S ++ rs.flatMap (·.code) := by
    simp [Machine.waiting, hresumers]
  have hcovers : c'.Covers (.installation m.chain.top :: l.ledger m) :=
    h.covers.split hrelinks hbelow fun j => by
      by_cases hj : m.chain.top = j
      · simp [hj]
      · simp [hj]
  have hdriven : r.target ∈ drivers m.waiting := hr.driver
  have hfound : (c'.installations.find? r.target).isSome := by
    refine hrelinks.found (h.placed.found r.target ?_)
    exact List.mem_append_left _ (by rw [drivers_append]; exact List.mem_append_right _ hdriven)
  have hheld : (c'.modify r.target fun a => { a with shares := a.shares + 1 }).Covers
      (.installation r.target :: .installation m.chain.top :: l.ledger m) :=
    hcovers.hold hfound fun j => by
      by_cases hj : j = r.target
      · simp [hj]
      · simp [hj, Ne.symm hj]
  have hdeclares := (h.regular.declares.relink hrelinks).modify (i := r.target)
    (fun a => { a with shares := a.shares + 1 }) (fun _ => rfl) fun _ => rfl
  have hcut' := hcut.modify (i := r.target) (fun a => { a with shares := a.shares + 1 })
    (fun _ => rfl) (.inr fun _ => rfl)
  have hkept : Placed (c'.modify r.target fun a => { a with shares := a.shares + 1 })
      (S ++ rs.flatMap (·.code)) (K :: l.kept) := hcut'.of_code rfl rfl id
  have hconts : m.control.conts = [] := by rw [hr.control]; rfl
  have hall : m.conts = m.resumptions.entries.map (·.2) ++ (m.pending.toList ++ []) := by
    simp only [Machine.conts, Machine.armed, hconts]
  have hcaptured := h.captured
  have hregular := h.regular.conts
  rw [hall] at hregular hcaptured
  have hbody := (hΓ.codeAt hcode).body (m.chain.get r.target).handler command.payload
    m.resumptions.next
  obtain ⟨counters, events, -, -, heq⟩ := Machine.capture_eq
    (m := { m with fibers := fs, stack := .stepping :: S }) (f := t.root) hcode hplain hsplit hy
    hcommand
  rw [hr.exchange] at heq
  rw [heq]
  have hafter : ∀ m' : Machine ω, m'.fibers = fs → m'.waiting = rs.flatMap (·.code) := by
    intro m' hm'
    simp only [Machine.waiting, hm', hrest]
  have hshare : ∀ x : Holding, (((code.keeps r.target).map Holding.installation).toList).count x +
      (if (code.keeps r.target).isSome then [] else [.installation r.target]).count x =
        [Holding.installation r.target].count x := by
    intro x
    cases code <;> simp [ClauseCode.keeps]
  have hnofiber : (if (code.keeps r.target).isSome then [] else
      [Holding.installation r.target]).filterMap Holding.fiber? = [] := by
    split <;> rfl
  cases htakes : code.takes with
  | true =>
    have hresumes : t.modifier ≠ .noResume := hmodifier ▸ ClauseCode.modifier_of_takes htakes
    simp only [if_true]
    refine ⟨⟨_, [], K :: l.kept, l.dropped⟩, h.caught htower hr.ready ?_ hS hheld hdeclares hbody
      (by rfl) (by rfl) (by rfl) (by rfl) (by rfl) hconts (by rfl) (by rfl) ?_ .rfl
      hparks (hcaptured.cons K.cont) (List.forall_mem_cons.mpr ⟨trivial, hregular⟩)
      (List.forall_mem_cons.mpr ⟨hresumes, h.resumable⟩) ?_ ?_⟩
    · rw [hwaiting, hafter _ (by rfl)]
    · rw [hafter _ (by rfl)]
      exact hkept
    · rw [List.nil_append, List.filterMap_append, hnofiber]
      exact h.dropping
    · intro x
      have hshare := hshare x
      rw [hall]
      simp only [Machine.conts, Machine.armed, Control.conts, Store.insert, List.map_cons,
        List.cons_append, List.flatMap_cons, Cont.owned, Segment.owned, List.count_append,
        List.count_cons, List.count_nil, List.nil_append] at hshare ⊢
      omega
  | false =>
    simp only [Bool.false_eq_true, if_false]
    refine ⟨⟨_, [], l.kept, t :: l.dropped⟩, h.caught htower hr.ready ?_ hS hheld hdeclares hbody
      (by rfl) (by rfl) (by rfl) (by rfl) (by rfl) hconts (by rfl) (by rfl) ?_
      List.perm_middle hparks hcaptured hregular h.resumable ?_ ?_⟩
    · rw [hwaiting, hafter _ (by rfl)]
    · rw [hafter _ (by rfl)]
      exact hkept.forget
    · rw [List.filterMap_append, List.filterMap_append, hnofiber]
      exact h.dropping.cons t.root
    · intro x
      have hshare := hshare x
      rw [hall]
      simp only [Machine.conts, Machine.armed, Control.conts, Segment.owned, List.count_append,
        List.count_cons, List.count_nil, List.cons_append, List.nil_append] at hshare ⊢
      omega

/-- Passing a request on leads to a good state. -/
theorem forward (h : Sound Γ m l) (hΓ : Γ.Orderly) (hcontrol : m.control = .request r) :
    Good Γ (m.forward Γ r) := by
  obtain ⟨t, htower, hlifted, hr⟩ := h.of_request hcontrol
  have hparks := h.parks
  rw [hlifted] at hparks
  obtain ⟨code, cur, rs, fs, hresumers, ⟨i, S, rfl, hS⟩, hsuspend, -, hrest, hparks'⟩ :=
    hparks.suspend hr.current
  unfold Machine.forward
  rw [hr.stack, hsuspend]
  simp only
  split
  · rename_i htarget
    subst htarget
    obtain ⟨l', hsound⟩ := h.capture hΓ hr htower hresumers hS hrest hparks'
    exact .sound l' hsound
  · rename_i htarget
    obtain ⟨l', hsound⟩ := h.passed hr htower hlifted hresumers hS hrest hparks' htarget
    rw [← hcontrol]
    exact .sound l' hsound

end Sound

end EffectHandlers
