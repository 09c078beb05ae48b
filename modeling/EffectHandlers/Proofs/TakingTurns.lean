import EffectHandlers.Client.Library
import EffectHandlers.Proofs.Passing
import EffectHandlers.Proofs.Programs
import EffectHandlers.Proofs.Rounds
import EffectHandlers.Proofs.Sparing
/-!
# Workers that take turns

An evaluation of round-robin threads serves the jobs in its queue one by one. Whoever goes on gives up
control again, with what is left to do at the back of the queue, or ends.
-/

namespace EffectHandlers.RoundRobin

open Evaluation

/-- The cells that belong to the scheduler. -/
abbrev kept : List CellId := [Transcript.cell, queue]

/-- One turn of the loop that serves the queue. -/
def serving (_ : Value) : Comp Content := Prog.toComp do
  match ← Task.popFront queue with
  | some (.resumption r) =>
    let _ ← Prog.resume r .unit
    return Comp.again .unit
  | _ => return Comp.stop .unit

/-- One turn of the main thread, with so many workers forked. -/
def forking (workers steps : Nat) (k : Value) : Comp Content := Prog.toComp do
  if k.toInt < workers then
    fork [] (worker k.toInt.toNat steps)
    return Comp.again (.int (k.toInt + 1))
  else
    return Comp.stop .unit

/-- One step of a worker that has taken so many steps. -/
def working (steps k : Nat) (taken : Value) : Comp Content := Prog.toComp do
  if taken.toInt < steps then
    Transcript.emit (toString k)
    yield
    return Comp.again (.int (taken.toInt + 1))
  else
    return Comp.stop .unit

/-- The end of a thread. -/
def leaving (_ : Value) : Comp Content := .done .unit

/-- An installation of the scheduler. -/
def Manned (installed : Store Handler) (i : InstallationId) : Prop :=
  i < installed.next ∧ ∃ h, installed.find? i = some h ∧ h.handlerType = handlerName

/-- What a resumption in the queue goes on with, if it is for this job. -/
inductive Job.Waits (workers steps : Nat) (installed : Store Handler) :
    Job → Continuation Content → Prop
  | main {k i : Nat} (hi : Manned installed i) : Waits workers steps installed (.main k)
      (.context "()" [.bind fun _ => .done (Comp.again (.int k)),
        .looping (forking workers steps) leaving, .handling i])
  | fresh {k : Nat} : Waits workers steps installed (.worker k 0)
      (.function "()" fun _ => spawn [] (RoundRobin.worker k steps) fun _ => .done .unit)
  | worker {k d i : Nat} (hi : Manned installed i) : Waits workers steps installed (.worker k (d + 1))
      (.context "()" [.bind fun _ => .done (Comp.again (.int (d + 1 : Nat))),
        .looping (working steps k) leaving, .handling i])

/-- The text of some numbers. -/
def digits (ks : List Nat) : String := String.join (ks.map toString)

theorem digits_append (ks : List Nat) (k : Nat) : digits (ks ++ [k]) = digits ks ++ toString k := by
  simp [digits, String.join, List.foldl_append]

variable {Γ : Library Content} {workers steps : Nat} {rs : List ResumptionId} {jobs : List Job}
  {job : Job} {printed : List Nat} {s t : Evaluation Content} {i : InstallationId}
  {F : List (Frame Content)} {R : Evaluation Content → Prop} {k d : Nat}

/-- The queue has a resumption for each job, and the transcript has what was written. -/
structure Stock (workers steps : Nat) (rs : List ResumptionId) (jobs : List Job)
    (printed : List Nat) (s : Evaluation Content) : Prop where
  text : s.cells.find? Transcript.cell = some (.value (.text (digits printed)))
  queue : s.cells.find? queue = some (.list (rs.map .resumption))
  distinct : rs.Nodup
  waits : List.Forall₂ (fun r (job : Job) => ∃ κ, s.resumptions.find? r = some κ ∧
    job.Waits workers steps s.installed κ) rs jobs
  room : RoundRobin.queue < s.cells.next
  pending : s.pending = none
  resumptions : s.resumptions.WellFormed

/-! ### What stays as it is -/

theorem Manned.insert {installed : Store Handler} (h : Manned installed i) (x : Handler) :
    Manned (installed.insert x).2 i := by
  obtain ⟨hlt, y, hy, hname⟩ := h
  refine ⟨Nat.lt_succ_of_lt hlt, y, ?_, hname⟩
  rw [Store.find?_insert, if_neg (Nat.ne_of_lt hlt), hy]

theorem Manned.retire {installed : Store Handler} (h : Manned installed i) (j : InstallationId) :
    Manned (installed.modify j fun x => { x with label := retiredLabel }) i := by
  obtain ⟨hlt, y, hy, hname⟩ := h
  by_cases hij : i = j
  · exact ⟨hlt, { y with label := retiredLabel },
      by rw [Store.find?_modify, if_pos hij, hy]; rfl, hname⟩
  · exact ⟨hlt, y, by rw [Store.find?_modify, if_neg hij, hy], hname⟩

theorem Job.Waits.mono {installed installed' : Store Handler} {κ : Continuation Content}
    (h : job.Waits workers steps installed κ)
    (hmanned : ∀ i, Manned installed i → Manned installed' i) :
    job.Waits workers steps installed' κ := by
  cases h with
  | main hi => exact .main (hmanned _ hi)
  | fresh => exact .fresh
  | worker hi => exact .worker (hmanned _ hi)

namespace Stock

/-- Continuations that are kept for jobs are not forgotten. -/
theorem mono (h : Stock workers steps rs jobs printed s) (hcells : t.cells = s.cells)
    (hpending : t.pending = s.pending) (hwf : t.resumptions.WellFormed)
    (hresumptions : ∀ r ∈ rs, ∀ κ, s.resumptions.find? r = some κ → t.resumptions.find? r = some κ)
    (hmanned : ∀ i, Manned s.installed i → Manned t.installed i) :
    Stock workers steps rs jobs printed t where
  text := hcells ▸ h.text
  queue := hcells ▸ h.queue
  distinct := h.distinct
  waits := by
    have hwaits := h.waits
    clear h
    induction hwaits with
    | nil => exact .nil
    | cons hfirst _ ih =>
      obtain ⟨κ, hκ, hjob⟩ := hfirst
      exact .cons ⟨κ, hresumptions _ List.mem_cons_self _ hκ, hjob.mono hmanned⟩
        (ih fun r hr => hresumptions r (List.mem_cons_of_mem _ hr))
  room := hcells ▸ h.room
  pending := hpending.trans h.pending
  resumptions := hwf

/-- A new cell is none of the scheduler's. -/
theorem alloc (h : Stock workers steps rs jobs printed s) (x : Content) :
    Stock workers steps rs jobs printed { s with cells := (s.cells.insert x).2 } where
  text := by
    have hroom : Transcript.cell < s.cells.next := Nat.lt_trans (by decide) h.room
    rw [Store.find?_insert, if_neg (Nat.ne_of_lt hroom), h.text]
  queue := by rw [Store.find?_insert, if_neg (Nat.ne_of_lt h.room), h.queue]
  distinct := h.distinct
  waits := h.waits
  room := Nat.lt_succ_of_lt h.room
  pending := h.pending
  resumptions := h.resumptions

theorem install (h : Stock workers steps rs jobs printed s) (x : Handler) :
    Stock workers steps rs jobs printed { s with installed := (s.installed.insert x).2 } :=
  h.mono rfl rfl h.resumptions (fun _ _ _ hκ => hκ) fun _ hi => hi.insert x

theorem retire (h : Stock workers steps rs jobs printed s) (i : InstallationId) :
    Stock workers steps rs jobs printed { s with
      installed := s.installed.modify i fun x => { x with label := retiredLabel } } :=
  h.mono rfl rfl h.resumptions (fun _ _ _ hκ => hκ) fun _ hj => hj.retire i

/-- A resumption that waits is not the next one. -/
theorem lt_next (h : Stock workers steps rs jobs printed s) {r : ResumptionId} (hr : r ∈ rs) :
    r < s.resumptions.next := by
  have hwaits := h.waits
  have hwf := h.resumptions
  clear h
  induction hwaits with
  | nil => cases hr
  | cons hfirst _ ih =>
    rcases List.mem_cons.mp hr with rfl | hr
    · obtain ⟨κ, hκ, -⟩ := hfirst
      exact Store.lt_next hwf hκ
    · exact ih hr

theorem insert (h : Stock workers steps rs jobs printed s) (κ : Continuation Content) :
    Stock workers steps rs jobs printed { s with resumptions := (s.resumptions.insert κ).2 } :=
  h.mono rfl rfl (Store.wellFormed_insert h.resumptions κ) (fun r hr κ' hκ' => by
    rw [Store.find?_insert, if_neg (Nat.ne_of_lt (h.lt_next hr)), hκ']) fun _ hi => hi

theorem erase (h : Stock workers steps rs jobs printed s) {r : ResumptionId} (hr : r ∉ rs) :
    Stock workers steps rs jobs printed { s with resumptions := s.resumptions.erase r } :=
  h.mono rfl rfl (Store.wellFormed_erase h.resumptions r) (fun r' hr' κ hκ => by
    have hne : r' ≠ r := fun heq => hr (heq ▸ hr')
    rw [Store.find?_erase h.resumptions, if_neg hne, hκ]) fun _ hi => hi

/-- A number is written. -/
theorem write (h : Stock workers steps rs jobs printed s) (k : Nat) :
    Stock workers steps rs jobs (printed ++ [k]) { s with
      cells := s.cells.modify Transcript.cell fun _ =>
        .value (.text (digits printed ++ toString k)) } where
  text := by
    rw [Store.find?_modify, if_pos rfl, h.text, digits_append]
    rfl
  queue := by rw [Store.find?_modify, if_neg (by decide), h.queue]
  distinct := h.distinct
  waits := h.waits
  room := h.room
  pending := h.pending
  resumptions := h.resumptions

/-- A job is put into the queue. -/
theorem push (h : Stock workers steps rs jobs printed s) {r : ResumptionId}
    {κ : Continuation Content} (hr : r ∉ rs) (hκ : s.resumptions.find? r = some κ)
    (hjob : job.Waits workers steps s.installed κ) :
    Stock workers steps (rs ++ [r]) (jobs ++ [job]) printed { s with
      cells := s.cells.modify RoundRobin.queue fun _ =>
        .list (rs.map .resumption ++ [.resumption r]) } where
  text := by rw [Store.find?_modify, if_neg (by decide), h.text]
  queue := by
    rw [Store.find?_modify, if_pos rfl, h.queue]
    simp
  distinct := by
    rw [List.nodup_append]
    refine ⟨h.distinct, List.nodup_singleton r, fun a ha b hb => ?_⟩
    obtain rfl := List.mem_singleton.mp hb
    exact fun heq => hr (heq ▸ ha)
  waits := List.rel_append h.waits (.cons ⟨κ, hκ, hjob⟩ .nil)
  room := h.room
  pending := h.pending
  resumptions := h.resumptions

/-- The first job is taken out of the queue. -/
theorem pop (h : Stock workers steps rs (job :: jobs) printed s) :
    ∃ r rest κ, rs = r :: rest ∧ s.resumptions.find? r = some κ ∧
      job.Waits workers steps s.installed κ ∧
      Stock workers steps rest jobs printed { s with
        cells := s.cells.modify RoundRobin.queue fun _ => .list (rest.map .resumption)
        resumptions := s.resumptions.erase r } := by
  have hwaits := h.waits
  cases hwaits with
  | @cons r _ rest _ hfirst hrest =>
    obtain ⟨κ, hκ, hjob⟩ := hfirst
    obtain ⟨hr, hdistinct⟩ := List.nodup_cons.mp h.distinct
    refine ⟨r, rest, κ, rfl, hκ, hjob, ?_⟩
    have hstock : Stock workers steps rest jobs printed { s with
        cells := s.cells.modify RoundRobin.queue fun _ => .list (rest.map .resumption) } :=
      { text := by rw [Store.find?_modify, if_neg (by decide), h.text]
        queue := by
          rw [Store.find?_modify, if_pos rfl, h.queue]
          rfl
        distinct := hdistinct
        waits := hrest
        room := h.room
        pending := h.pending
        resumptions := h.resumptions }
    exact hstock.erase hr

end Stock

/-! ### Threads that give up control -/

/-- A resumption is put into the queue. -/
theorem passes_enqueue {r : ResumptionId} {κ : Continuation Content} {next : Unit → Comp Content}
    (h : Stock workers steps rs jobs printed s) (hr : r ∉ rs)
    (hκ : s.resumptions.find? r = some κ) (hjob : job.Waits workers steps s.installed κ)
    (hR : ∀ cells, Stock workers steps (rs ++ [r]) (jobs ++ [job]) printed { s with cells } →
      Passes Γ kept R (({ s with cells } : Evaluation Content).goOn (.eval (next ())))) :
    Passes Γ kept R (s.goOn (.eval (enqueue r next))) := by
  refine .read (by decide) h.queue (.write (by decide) ?_ (hR _ (h.push hr hκ hjob)))
  intro o ho
  have hissued : ∃ r', o = .resumption r' ∧ r' < s.resumptions.next := by
    have hmem : o ∈ (rs.map Value.resumption ++ [Value.resumption r]).flatMap Value.owned := ho
    obtain ⟨v, hv, ho⟩ := List.mem_flatMap.mp hmem
    rcases List.mem_append.mp hv with hv | hv
    · obtain ⟨r', hr', rfl⟩ := List.mem_map.mp hv
      exact ⟨r', List.mem_singleton.mp ho, h.lt_next hr'⟩
    · obtain rfl := List.mem_singleton.mp hv
      exact ⟨r, List.mem_singleton.mp ho, Store.lt_next h.resumptions hκ⟩
  obtain ⟨r', rfl, hlt⟩ := hissued
  exact ⟨hlt, fun _ => nofun⟩

/-- A continuation is moved to a resumption in the queue. -/
theorem passes_take {r : ResumptionId} {κ : Continuation Content} {next : Unit → Comp Content}
    (h : Stock workers steps rs jobs printed s) (hr : r ∉ rs)
    (hκ : s.resumptions.find? r = some κ) (hjob : job.Waits workers steps s.installed κ)
    (hR : ∀ cells resumptions,
      Stock workers steps (rs ++ [s.resumptions.next]) (jobs ++ [job]) printed
        { s with cells, resumptions } →
      Passes Γ kept R (({ s with cells, resumptions } : Evaluation Content).goOn
        (.eval (next ())))) :
    Passes Γ kept R (s.goOn (.eval (Prog.take r fun r' => enqueue r' next))) := by
  have hnew : s.resumptions.next ∉ rs := fun hmem => Nat.lt_irrefl _ (h.lt_next hmem)
  exact .take hκ (passes_enqueue ((h.erase hr).insert κ) hnew (Store.find?_insert_self _ κ) hjob
    fun cells => hR cells _)

section Turns

variable (hhandler : Γ.handlerType handlerName = handler)

include hhandler

theorem exists_declare (s : Evaluation Content) :
    ∃ declared, s.declare handlerName (Γ.handlerType handlerName) = .ok declared := by
  rw [hhandler]
  by_cases hmem : handlerName ∈ s.declared
  · exact ⟨s.declared, by simp [declare, hmem]⟩
  · refine ⟨handlerName :: s.declared, ?_⟩
    have hdistinct : HandlerType.duplicate? [] (handler.clauses.map (·.command)) = none := by decide
    simp [declare, hmem, hdistinct]

/-- A thread that gives up control goes to the back of the queue. -/
theorem passes_yield {next : Value → Comp Content} {U : List (Frame Content)}
    (h : Stock workers steps rs jobs printed s) (hi : Manned s.installed i)
    (hframes : s.frames = U ++ .handling i :: F) (hU : ∀ f ∈ U, f.isCode = true)
    (hjob : job.Waits workers steps s.installed
      (.context "()" (.bind next :: U ++ [.handling i])))
    (hR : ∀ t rs', t.frames = F → Stock workers steps rs' (jobs ++ [job]) printed t →
      Passes Γ kept R (t.goOn (.ret .unit))) :
    Passes Γ kept R (s.goOn (.eval (.invoke .innermost { name := yieldCommand } next))) := by
  obtain ⟨-, h₀, hfind, hname⟩ := hi
  have hclause : h₀.clauseFor? Γ yieldCommand = some (.resumptive fun _ _ r => Prog.toComp do
      enqueue (← Prog.take r)
      return .unit) := by
    rw [Handler.clauseFor?, hname, hhandler]
    rfl
  have hnew : s.resumptions.next ∉ rs := fun hmem => Nat.lt_irrefl _ (h.lt_next hmem)
  refine .invoke hfind hclause (by rw [hname, hhandler]) hframes hU (by simp)
    (fun _ r => .inr fun r' => .of_nameless (by simp)) ?_
  refine passes_take { h.insert _ with } hnew (Store.find?_insert_self _ _) hjob
    fun cells resumptions ht => ?_
  exact .done rfl (.answering rfl ht.pending (hR _ _ rfl { ht with }))

/-- A thread that forks goes to the back of the queue, and the new thread goes behind it. -/
theorem passes_fork {next : Value → Comp Content} {U : List (Frame Content)} {f : ClosureId}
    {body : Value → Comp Content} {job' : Job}
    (h : Stock workers steps rs jobs printed s) (hi : Manned s.installed i)
    (hframes : s.frames = U ++ .handling i :: F) (hU : ∀ f ∈ U, f.isCode = true)
    (hf : s.closures.find? f = some body) (hlt : f < s.closures.next)
    (hjob : job.Waits workers steps s.installed
      (.context "()" (.bind next :: U ++ [.handling i])))
    (hjob' : job'.Waits workers steps s.installed (.function "()" body))
    (hR : ∀ t rs', t.frames = F → Stock workers steps rs' (jobs ++ [job, job']) printed t →
      Passes Γ kept R (t.goOn (.ret .unit))) :
    Passes Γ kept R (s.goOn (.eval (.invoke .innermost
      { name := forkCommand, payload := .closure f, owned := [.closure f] } next))) := by
  obtain ⟨-, h₀, hfind, hname⟩ := hi
  obtain ⟨code, hclause, hcode⟩ : ∃ code, h₀.clauseFor? Γ forkCommand = some (.resumptive code) ∧
      ∀ cell r, code cell (.closure f) r = Prog.toComp do
        enqueue (← Prog.take r)
        enqueue (← Prog.function "()" f)
        return .unit := by
    rw [Handler.clauseFor?, hname, hhandler]
    exact ⟨_, rfl, fun _ _ => rfl⟩
  have hnew : s.resumptions.next ∉ rs := fun hmem => Nat.lt_irrefl _ (h.lt_next hmem)
  refine .invoke hfind hclause (by rw [hname, hhandler]) hframes hU
    (by simpa [Evaluation.Issued] using hlt) (fun cell r => ?_) ?_
  · rw [hcode]
    refine .inr fun r' => ?_
    -- the closure is made a resumption of behind the queue's back, whatever the queue is
    have hwrites : ∀ vs, Comp.Clears (.write queue (.list (vs ++ [.resumption r']))
        (.function "()" f fun r'' => enqueue r'' fun _ => .done .unit)) [.closure f] :=
      fun vs => .inr (.inr fun r'' => .of_nameless (by simp))
    have herase : [Owned.resumption r, .closure f].erase (.resumption r) = [.closure f] := by simp
    rw [herase]
    refine .inr fun content => ?_
    cases content <;> exact hwrites _
  rw [hcode]
  refine passes_take { h.insert _ with } hnew (Store.find?_insert_self _ _) hjob
    fun cells resumptions ht => ?_
  have hnext := fun hmem => Nat.lt_irrefl _ (ht.lt_next hmem)
  refine .function hf (passes_enqueue { ht.insert _ with } hnext (Store.find?_insert_self _ _) hjob'
    fun cells' ht' => ?_)
  refine .done rfl (.answering rfl ht'.pending (hR _ _ rfl { ht' with waits := ?_ }))
  simpa using ht'.waits

/-- A thread that has nothing left to do goes through the return clause. -/
theorem passes_leave {body : Value → Comp Content} (h : Stock workers steps rs jobs printed s)
    (hi : Manned s.installed i) (hframes : s.frames = .looping body leaving :: .handling i :: F)
    (hR : ∀ t rs', t.frames = F → Stock workers steps rs' jobs printed t →
      Passes Γ kept R (t.goOn (.ret .unit))) :
    Passes Γ kept R (s.goOn (.ret (Comp.stop .unit))) := by
  obtain ⟨-, h₀, hfind, hname⟩ := hi
  refine .stop hframes (.done rfl (.returning rfl hfind ?_))
  rw [hname, hhandler]
  exact .done rfl (.answering rfl h.pending (hR _ rs rfl { h.retire i with }))

/-! ### What the threads do -/

omit hhandler in
theorem forking_of_lt (hk : k < workers) : forking workers steps (.int k) =
    .closure [] (fun _ => spawn [] (worker k steps) fun _ => .done .unit) fun f =>
      .invoke .innermost { name := forkCommand, payload := .closure f, owned := [.closure f] }
        fun _ => .done (Comp.again (.int (k + 1 : Nat))) := by
  have hlt : (Value.int k).toInt < (workers : Int) := Int.ofNat_lt.mpr hk
  unfold forking
  rw [if_pos hlt]
  rfl

omit hhandler in
theorem forking_of_ge (hk : ¬ k < workers) :
    forking workers steps (.int k) = .done (Comp.stop .unit) := by
  have hge : ¬ (Value.int k).toInt < (workers : Int) := fun hlt => hk (Int.ofNat_lt.mp hlt)
  unfold forking
  rw [if_neg hge]
  rfl

omit hhandler in
theorem working_of_lt (hd : d < steps) : working steps k (.int d) =
    Transcript.emit (toString k) fun _ => .invoke .innermost { name := yieldCommand }
      fun _ => .done (Comp.again (.int (d + 1 : Nat))) := by
  have hlt : (Value.int d).toInt < (steps : Int) := Int.ofNat_lt.mpr hd
  unfold working
  rw [if_pos hlt]
  rfl

omit hhandler in
theorem working_of_ge (hd : ¬ d < steps) : working steps k (.int d) = .done (Comp.stop .unit) := by
  have hge : ¬ (Value.int d).toInt < (steps : Int) := fun hlt => hd (Int.ofNat_lt.mp hlt)
  unfold working
  rw [if_neg hge]
  rfl

/-- The main thread forks a worker, or ends. -/
theorem passes_forking (h : Stock workers steps rs jobs printed s) (hi : Manned s.installed i)
    (hframes : s.frames = .looping (forking workers steps) leaving :: .handling i :: F)
    (hR : ∀ t rs', t.frames = F →
      Stock workers steps rs' (jobs ++ (Job.main k).pushes workers steps) printed t →
      Passes Γ kept R (t.goOn (.ret .unit))) :
    Passes Γ kept R (s.goOn (.eval (forking workers steps (.int k)))) := by
  by_cases hk : k < workers
  · rw [forking_of_lt hk]
    simp only [Job.pushes, if_pos hk] at hR
    refine .closure (passes_fork hhandler { h with } hi hframes (U := [_]) ?_
      (Store.find?_insert_self _ _) (Nat.lt_succ_self _) (.main hi) .fresh hR)
    intro f hf
    obtain rfl := List.mem_singleton.mp hf
    rfl
  · rw [forking_of_ge hk]
    simp only [Job.pushes, if_neg hk, List.append_nil] at hR
    exact .done rfl (passes_leave hhandler h hi hframes hR)

/-- A worker takes a step, or ends. -/
theorem passes_working (h : Stock workers steps rs jobs printed s) (hi : Manned s.installed i)
    (hframes : s.frames = .looping (working steps k) leaving :: .handling i :: F)
    (hR : ∀ t rs', t.frames = F → Stock workers steps rs'
      (jobs ++ (Job.worker k d).pushes workers steps) (printed ++ (Job.worker k d).writes steps) t →
      Passes Γ kept R (t.goOn (.ret .unit))) :
    Passes Γ kept R (s.goOn (.eval (working steps k (.int d)))) := by
  by_cases hd : d < steps
  · rw [working_of_lt hd]
    simp only [Job.pushes, Job.writes, if_pos hd] at hR
    refine .read (by decide) h.text (.write (by decide) (fun o ho => by cases ho) ?_)
    refine passes_yield hhandler { h.write k with } hi hframes (U := [_]) ?_ (.worker hi) hR
    intro f hf
    obtain rfl := List.mem_singleton.mp hf
    rfl
  · rw [working_of_ge hd]
    simp only [Job.pushes, Job.writes, if_neg hd, List.append_nil] at hR
    exact .done rfl (passes_leave hhandler h hi hframes hR)

/-- A new thread runs under an installation of its own. -/
theorem passes_spawn {thread : Task Unit} {next : Unit → Comp Content}
    (h : Stock workers steps rs jobs printed s)
    (hR : ∀ t i, t.frames = .handling i :: .bind (fun _ => next ()) :: s.frames →
      Manned t.installed i → Stock workers steps rs jobs printed t →
      Passes Γ kept R (t.goOn (.eval (thread fun _ => .done .unit)))) :
    Passes Γ kept R (s.goOn (.eval (spawn [] thread next))) := by
  obtain ⟨declared, hdeclare⟩ := exists_declare hhandler s
  have hcell : s.cells.next ∉ kept := by
    have hroom := h.room
    have hcells : Transcript.cell < queue := by decide
    intro hmem
    simp only [List.mem_cons, List.not_mem_nil, or_false] at hmem
    rcases hmem with heq | heq <;> rw [heq] at hroom
    · exact Nat.lt_asymm hroom hcells
    · exact Nat.lt_irrefl _ hroom
  refine .alloc rfl (.handle hcell hdeclare (hR _ _ rfl ?_ { (h.alloc _).install _ with }))
  exact ⟨Nat.lt_succ_self _, _, Store.find?_insert_self _ _, rfl⟩

/-- A job goes on until its thread gives up control or ends. -/
theorem passes_job {κ : Continuation Content} (h : Stock workers steps rs jobs printed s)
    (hjob : job.Waits workers steps s.installed κ)
    (hR : ∀ t rs', t.frames = s.frames → Stock workers steps rs'
      (jobs ++ job.pushes workers steps) (printed ++ job.writes steps) t →
      Passes Γ kept R (t.goOn (.ret .unit))) :
    Passes Γ kept R (s.goOn (.resume κ .unit)) := by
  cases hjob with
  | main hi =>
    rw [show (Job.main _).writes steps = [] from rfl, List.append_nil] at hR
    exact .enter_context (.bind rfl (.done rfl (.again rfl
      (passes_forking hhandler { h with } hi rfl hR))))
  | worker hi =>
    exact .enter_context (.bind rfl (.done rfl (.again rfl
      (passes_working hhandler { h with } hi rfl hR))))
  | fresh =>
    refine .enter_function (passes_spawn hhandler { h with } fun t i ht hi hstock => .loop ?_)
    refine passes_working (d := 0) hhandler { hstock with } hi (congrArg _ ht)
      fun t' rs' ht' hstock' => ?_
    exact .bind ht' (.done rfl (.answering rfl hstock'.pending (hR _ rs' rfl { hstock' with })))

/-- The jobs in the queue are served until none is left. -/
theorem passes_serving {ending : Value → Comp Content} {out : List Nat}
    (hserves : Serves workers steps jobs out) (h : Stock workers steps rs jobs printed s)
    (hframes : s.frames = [.looping serving ending])
    (hR : ∀ t, t.frames = [.looping serving ending] →
      Stock workers steps [] [] (printed ++ out) t →
      Passes Γ kept R (t.goOn (.ret (Comp.stop .unit)))) :
    Passes Γ kept R (s.goOn (.eval (serving .unit))) := by
  induction hserves generalizing rs printed s with
  | empty =>
    obtain rfl : rs = [] := by
      have hwaits := h.waits
      cases hwaits
      rfl
    refine .read (by decide) h.queue (.done rfl (hR _ hframes ?_))
    rw [List.append_nil]
    exact { h with }
  | @next job jobs out _ ih =>
    obtain ⟨r, rest, κ, rfl, hκ, hjob, hrest⟩ := h.pop
    refine .read (by decide) h.queue (.write (by decide) ?_ (.resume rfl hκ ?_))
    · intro o ho
      obtain ⟨v, hv, ho⟩ := List.mem_flatMap.mp (show o ∈ (rest.map Value.resumption).flatMap
        Value.owned from ho)
      obtain ⟨r', hr', rfl⟩ := List.mem_map.mp hv
      obtain rfl := List.mem_singleton.mp ho
      exact ⟨h.lt_next (List.mem_cons_of_mem _ hr'), fun _ => nofun⟩
    · refine passes_job hhandler { hrest with } hjob fun t rs' ht hstock => ?_
      refine .bind (F := [.looping serving ending]) (ht.trans (congrArg _ hframes))
        (.done rfl (.again rfl (ih { hstock with } rfl fun t' ht' hstock' => ?_)))
      rw [List.append_assoc] at hstock'
      exact hR t' ht' hstock'

/-- The computation that runs workers that take turns. -/
def program (workers steps : Nat) : Comp Content := Prog.toComp do
  demo workers steps
  return .unit

/-- What is left when all workers have taken their turns. -/
structure Served (workers steps : Nat) (s : Evaluation Content) : Prop where
  phase : s.phase = .ret .unit
  frames : s.frames = []
  queue : s.cells.find? queue = some (.list [])
  text : s.cells.find? Transcript.cell =
    some (.value (.text (digits (turns workers steps) ++ "\n")))

/-- An evaluation of workers serves all their turns. -/
theorem passes_program (workers steps : Nat) :
    Passes Γ kept (Served workers steps) (Evaluation.start Client.cells (program workers steps)) := by
  have hstock : Stock workers steps [] [] []
      (Evaluation.start Client.cells (program workers steps)) :=
    { text := rfl
      queue := rfl
      distinct := .nil
      waits := .nil
      room := show (2 : Nat) < 5 by decide
      pending := rfl
      resumptions := by simp [Store.WellFormed, Evaluation.start] }
  refine passes_spawn (s := Evaluation.start Client.cells (program workers steps)) hhandler hstock
    fun t i ht hi hstock => .loop ?_
  refine passes_forking (k := 0) hhandler { hstock with } hi (congrArg _ ht)
    fun t rs ht hstock => .bind ht (.loop ?_)
  refine passes_serving hhandler (serves_turns workers steps) { hstock with } rfl
    fun t ht hstock => .stop ht ?_
  refine .read (by decide) hstock.text (.write (by decide) (fun o ho => by cases ho)
    (.done rfl (.here ⟨rfl, rfl, ?_, ?_⟩)))
  · exact (Store.find?_modify ..).trans ((if_neg (by decide)).trans hstock.queue)
  · refine (Store.find?_modify ..).trans ((if_pos rfl).trans ?_)
    rw [hstock.text]
    rfl

end Turns

end EffectHandlers.RoundRobin

/-!
## Round robin

Threads that take turns write what their turns say. The evaluation is frugal, since the scheduler
keeps all resumptions in its queue, so the thread shows it and ends as it does.
-/

namespace EffectHandlers.RoundRobin

/-! ### Programs of threads are orderly -/

section Orderly

theorem orderly_enqueue (r : ResumptionId) : (enqueue r).Orderly := Task.orderly_pushBack _ _

theorem handler_orderly : ∀ clause ∈ handler.clauses, clause.code.Orderly := by
  intro clause hclause
  simp only [handler, List.mem_cons, List.not_mem_nil, or_false] at hclause
  rcases hclause with rfl | rfl
  · exact fun _ _ r => Prog.Orderly.toComp ((Prog.orderly_take r).bind fun r' =>
      (orderly_enqueue r').bind fun _ => Prog.orderly_pure _)
  · refine fun _ v r => Prog.Orderly.toComp ((Prog.orderly_take r).bind fun r' =>
      (orderly_enqueue r').bind fun _ => ?_)
    split
    · exact (Prog.orderly_function _ _).bind fun r'' => (orderly_enqueue r'').bind fun _ =>
        Prog.orderly_pure _
    · exact Prog.orderly_pure _

variable {thread : Task Unit} {owned : List Owned}

theorem orderly_spawn (h : thread.Orderly) : (spawn owned thread).Orderly :=
  (Prog.orderly_alloc _).bind fun _ =>
    (Prog.Orderly.handle fun _ => h.bind fun _ => Prog.orderly_pure _).bind fun _ =>
      Prog.orderly_pure _

theorem orderly_fork (h : thread.Orderly) : (fork owned thread).Orderly :=
  (Prog.Orderly.closure fun _ => (orderly_spawn h).bind fun _ => Prog.orderly_pure _).bind fun _ =>
    (Prog.orderly_invoke _ _).bind fun _ => Prog.orderly_pure _

theorem orderly_countTo {f : Nat → Task Unit} (bound : Nat) (h : ∀ k, (f k).Orderly) :
    (countTo bound f).Orderly := by
  refine (Prog.Orderly.loop fun i => ?_).bind fun _ => Prog.orderly_pure _
  split
  · exact (h _).bind fun _ => Prog.orderly_pure _
  · exact Prog.orderly_pure _

theorem orderly_start (h : thread.Orderly) : (start thread).Orderly := by
  refine (orderly_spawn h).bind fun _ => (Prog.Orderly.loop fun _ => ?_).bind fun _ =>
    Prog.orderly_pure _
  refine (Task.orderly_popFront _).bind fun front => ?_
  split
  · exact (Prog.orderly_resume _ _).bind fun _ => Prog.orderly_pure _
  · exact Prog.orderly_pure _

theorem program_orderly (workers steps : Nat) : (program workers steps).Orderly := by
  refine Prog.Orderly.toComp (Prog.Orderly.bind (Prog.Orderly.bind (orderly_start
    (orderly_countTo _ fun k => orderly_fork (orderly_countTo _ fun _ => ?_))) fun _ =>
      Transcript.orderly_emit _) fun _ => Prog.orderly_pure _)
  exact (Transcript.orderly_emit _).bind fun _ => (Prog.orderly_invoke _ _).bind fun _ =>
    Prog.orderly_pure _

end Orderly

/-! ### What the thread writes -/

variable {Γ : Library Content} {settings : SettingsSlot}

/-- What is true of a thread in which workers take turns. -/
structure TakesTurns (Γ : Library Content) (m : Machine Content) (workers steps : Nat) : Prop where
  /-- The thread ends. Then nothing is left to be done, the queue is empty, and the transcript has the
  numbers of all turns. -/
  ends : ∃ n, (m.run Γ n).control = .halted (.finished .unit) ∧ (m.run Γ n).releasing = [] ∧
    (m.run Γ n).contents queue = some (.list []) ∧
    (m.run Γ n).contents Transcript.cell =
      some (.value (.text (digits (turns workers steps) ++ "\n")))
  /-- The numbers of a round are in decreasing order, and they are those of the workers that have
  started by then and have steps to take. -/
  rounds : ∀ j, (round workers steps j).Pairwise (· > ·) ∧
    ∀ k, k ∈ round workers steps j ↔ k < workers ∧ k ≤ j ∧ j < k + steps
  /-- Each worker writes its number once a step. -/
  fair : ∀ k < workers, (turns workers steps).count k = steps

/-- Workers come to their end, with what the evaluation comes to in the cells of the scheduler. -/
theorem exists_ends_program (hΓ : Γ.Orderly) (hhandler : Γ.handlerType handlerName = handler)
    (hsize : settings.use.1.stackSize < StackPool.addressSpace) (workers steps : Nat) :
    ∃ n s, Served workers steps s ∧
      ((Machine.start settings Client.cells [] (program workers steps)).run Γ n).control =
        .halted (.finished .unit) ∧
      ((Machine.start settings Client.cells [] (program workers steps)).run Γ n).releasing = [] ∧
      ∀ k ∈ kept, ((Machine.start settings Client.cells [] (program workers steps)).run Γ n).contents k =
        s.cells.find? k := by
  have hpasses := passes_program hhandler workers steps
  have hfrugal := hpasses.frugal_of_returns fun t ht => ⟨ht.frames, _, ht.phase⟩
  obtain ⟨t, ht⟩ := hpasses.exists_steps
  obtain ⟨n, hends⟩ := Machine.ends_of_frugal hΓ (program_orderly workers steps) hsize (K := kept)
    (by decide) (by decide) (by decide) hfrugal ht.phase ht.frames
  exact ⟨n, _, ht, hends⟩

/-- Whatever the numbers of workers and of their steps, threads that give up control in turn all come
to their end, and write their numbers round by round. -/
theorem workers_take_turns (hΓ : Γ.Orderly) (hhandler : Γ.handlerType handlerName = handler)
    (hsize : settings.use.1.stackSize < StackPool.addressSpace) (workers steps : Nat) :
    TakesTurns Γ (Machine.start settings Client.cells [] (program workers steps)) workers steps := by
  obtain ⟨n, t, ht, hcontrol, hreleasing, hcontents⟩ :=
    exists_ends_program hΓ hhandler hsize workers steps
  refine ⟨⟨n, hcontrol, hreleasing, ?_, ?_⟩, fun j => ⟨?_, fun k => ?_⟩, fun k hk => count_turns hk⟩
  · rw [hcontents _ (by decide), ht.queue]
  · rw [hcontents _ (by decide), ht.text]
  · exact List.pairwise_reverse.mpr (List.pairwise_lt_range.filter _)
  · simp [round]

/-! ### Two workers -/

/-- The library that knows the handler of threads alone. -/
def library : Library Content := Client.libraryOf handlers []

theorem library_orderly : library.Orderly where
  clauses t := by
    simp only [library, Client.libraryOf, handlers, List.lookup_cons, List.lookup_nil]
    split
    · exact handler_orderly
    · exact fun _ hc => absurd hc List.not_mem_nil
  onReturn t c v := by
    simp only [library, Client.libraryOf, handlers, List.lookup_cons, List.lookup_nil]
    split <;> trivial
  procedure _ _ := trivial

/-- Two workers take three steps each. -/
theorem workers_take_turns_two :
    TakesTurns library (Machine.start {} Client.cells [] (program 2 3)) 2 3 :=
  workers_take_turns library_orderly rfl (by decide) 2 3

end EffectHandlers.RoundRobin
