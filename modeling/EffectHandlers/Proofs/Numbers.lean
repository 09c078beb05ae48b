import EffectHandlers.Proofs.History
/-!
# Numbers are not reused

Tables hand out every number once, and a fiber that is neither parked nor running is never parked
or running again. So what is gone stays gone, in every run of every program.
-/

namespace EffectHandlers

variable {ω α κ : Type} {Γ : Library ω}

namespace Store

variable {s s' s'' : Store α}

/-- What is not there is not there after another entry was erased. -/
theorem find?_erase_eq_none {id id' : Nat} (h : s.find? id' = none) :
    (s.erase id).find? id' = none := by
  unfold find? at h ⊢
  rw [List.lookup_eq_none_iff] at h ⊢
  exact fun e he => h e (List.mem_of_mem_eraseP he)

/-- A table that stays well-formed and does not reuse numbers. -/
structure Ages (s s' : Store α) : Prop where
  next : s.next ≤ s'.next
  wellFormed : s.WellFormed → s'.WellFormed
  gone : ∀ id < s.next, s.find? id = none → s'.find? id = none

namespace Ages

theorem refl (s : Store α) : s.Ages s := ⟨Nat.le_refl _, id, fun _ _ => id⟩

theorem trans (h : s.Ages s') (h' : s'.Ages s'') : s.Ages s'' where
  next := Nat.le_trans h.next h'.next
  wellFormed hs := h'.wellFormed (h.wellFormed hs)
  gone id hid hnone := h'.gone id (Nat.lt_of_lt_of_le hid h.next) (h.gone id hid hnone)

theorem insert (s : Store α) (a : α) : s.Ages (s.insert a).2 where
  next := Nat.le_succ _
  wellFormed hs := wellFormed_insert hs a
  gone id hid hnone := by
    rw [find?_insert, if_neg (Nat.ne_of_lt hid)]
    exact hnone

theorem modify (s : Store α) (id : Nat) (f : α → α) : s.Ages (s.modify id f) where
  next := Nat.le_refl _
  wellFormed hs := wellFormed_modify hs id f
  gone id' hid hnone := by
    rw [find?_modify, hnone]
    simp

theorem erase (s : Store α) (id : Nat) : s.Ages (s.erase id) where
  next := Nat.le_refl _
  wellFormed hs := wellFormed_erase hs id
  gone _ _ := find?_erase_eq_none

theorem skip (s : Store α) : s.Ages { s with next := s.next + 1 } where
  next := Nat.le_succ _
  wellFormed hs := wellFormed_skip hs
  gone _ _ := id

end Ages

end Store

namespace Fibers

variable {fs fs' : Fibers κ} {f : FiberId} {code S : κ}

/-- A fiber that is neither parked nor running. -/
structure Gone (fs : Fibers κ) (f : FiberId) : Prop where
  issued : f < fs.parked.next
  parked : fs.parked.find? f = none
  current : fs.current ≠ some f
  resumers : ∀ r ∈ fs.resumers, r.fiber ≠ f ∧ r.current ≠ some f

namespace Gone

theorem create (h : fs.Gone f) (code : κ) : (fs.create code).2.Gone f where
  issued := Nat.lt_succ_of_lt h.issued
  parked := by
    simp only [Fibers.create, Store.find?_insert, if_neg (Nat.ne_of_lt h.issued)]
    exact h.parked
  current := h.current
  resumers := h.resumers

theorem resume (h : fs.Gone f) {id : FiberId}
    (heq : fs.resume? id code = some (S, fs')) : fs'.Gone f := by
  obtain ⟨S', hS, heq⟩ := Option.map_eq_some_iff.mp heq
  obtain ⟨rfl, rfl⟩ := Prod.mk.inj heq
  have hne : id ≠ f := by
    rintro rfl
    simp [h.parked] at hS
  exact
    { issued := h.issued
      parked := Store.find?_erase_eq_none h.parked
      current := by simpa using hne
      resumers := by
        intro r hr
        rcases List.mem_cons.mp hr with rfl | hr
        · exact ⟨hne, h.current⟩
        · exact h.resumers r hr }

theorem handBack (h : fs.Gone f) (heq : fs.handBack? = some (S, fs')) : fs'.Gone f := by
  unfold handBack? at heq
  split at heq
  · cases heq
  · rename_i r rest hrs
    obtain ⟨rfl, rfl⟩ := Prod.mk.inj (Option.some.inj heq)
    exact
      { issued := h.issued
        parked := h.parked
        current := (h.resumers r (by simp [hrs])).2
        resumers := fun r' hr' => h.resumers r' (by simp [hrs, hr']) }

theorem suspend (h : fs.Gone f) (heq : fs.suspend? code = some (S, fs')) : fs'.Gone f := by
  obtain ⟨id, hid, heq⟩ := Option.bind_eq_some_iff.mp heq
  have hne : id ≠ f := fun heq => h.current (heq ▸ hid)
  refine handBack ?_ heq
  exact
    { issued := h.issued
      parked := by
        have hid : (f == id) = false := by simpa using hne.symm
        simpa [Store.find?, List.lookup_cons, hid] using h.parked
      current := h.current
      resumers := h.resumers }

theorem drop (h : fs.Gone f) {id : FiberId}
    (heq : fs.drop? id = some (S, fs')) : fs'.Gone f := by
  obtain ⟨S', hS, heq⟩ := Option.map_eq_some_iff.mp heq
  obtain ⟨rfl, rfl⟩ := Prod.mk.inj heq
  exact
    { h with
      parked := Store.find?_erase_eq_none h.parked }

end Gone

/-- The fibers later on. -/
structure Ages (fs fs' : Fibers κ) : Prop where
  issued : fs.parked.next ≤ fs'.parked.next
  gone : ∀ f, fs.Gone f → fs'.Gone f

namespace Ages

theorem refl (fs : Fibers κ) : fs.Ages fs := ⟨Nat.le_refl _, fun _ => id⟩

theorem trans {fs'' : Fibers κ} (h : fs.Ages fs') (h' : fs'.Ages fs'') : fs.Ages fs'' :=
  ⟨Nat.le_trans h.issued h'.issued, fun f hf => h'.gone f (h.gone f hf)⟩

theorem create (fs : Fibers κ) (code : κ) : fs.Ages (fs.create code).2 :=
  ⟨Nat.le_succ _, fun _ hf => hf.create code⟩

theorem resume {id : FiberId} (h : fs.resume? id code = some (S, fs')) : fs.Ages fs' := by
  refine ⟨?_, fun _ hf => hf.resume h⟩
  obtain ⟨S', -, heq⟩ := Option.map_eq_some_iff.mp h
  obtain ⟨-, rfl⟩ := Prod.mk.inj heq
  exact Nat.le_refl _

theorem next_handBack (h : fs.handBack? = some (S, fs')) : fs'.parked.next = fs.parked.next := by
  unfold handBack? at h
  split at h
  · cases h
  · obtain ⟨-, rfl⟩ := Prod.mk.inj (Option.some.inj h)
    rfl

theorem handBack (h : fs.handBack? = some (S, fs')) : fs.Ages fs' :=
  ⟨Nat.le_of_eq (next_handBack h).symm, fun _ hf => hf.handBack h⟩

theorem suspend (h : fs.suspend? code = some (S, fs')) : fs.Ages fs' := by
  refine ⟨?_, fun _ hf => hf.suspend h⟩
  obtain ⟨id, -, heq⟩ := Option.bind_eq_some_iff.mp h
  exact Nat.le_of_eq (next_handBack heq).symm

theorem drop {id : FiberId} (h : fs.drop? id = some (S, fs')) : fs.Ages fs' := by
  refine ⟨?_, fun _ hf => hf.drop h⟩
  obtain ⟨S', -, heq⟩ := Option.map_eq_some_iff.mp h
  obtain ⟨-, rfl⟩ := Prod.mk.inj heq
  exact Nat.le_refl _

end Ages

end Fibers

/-- What stays the same as long as an installation is there: its handler, and what it declares. -/
def Installation.service (i : Installation) : CellId × String × String × List ClauseEntry :=
  (i.handler, i.handlerType, i.name, i.clauses)

namespace Chain

variable {c c' c'' : Chain} {i : InstallationId}

/-- A chain later on. -/
structure Ages (c c' : Chain) : Prop where
  installations : c.installations.Ages c'.installations
  kept : c.installations.WellFormed → ∀ i < c.installations.next, ∀ x',
    c'.installations.find? i = some x' →
      ∃ x, c.installations.find? i = some x ∧ x'.service = x.service

namespace Ages

theorem refl (c : Chain) : c.Ages c := ⟨.refl _, fun _ _ _ x hx => ⟨x, hx, rfl⟩⟩

theorem trans (h : c.Ages c') (h' : c'.Ages c'') : c.Ages c'' where
  installations := h.installations.trans h'.installations
  kept hwf i hi x'' hx'' := by
    obtain ⟨x', hx', heq'⟩ := h'.kept (h.installations.wellFormed hwf) i
      (Nat.lt_of_lt_of_le hi h.installations.next) x'' hx''
    obtain ⟨x, hx, heq⟩ := h.kept hwf i hi x' hx'
    exact ⟨x, hx, heq'.trans heq⟩

theorem of_installations (h : c'.installations = c.installations) : c.Ages c' where
  installations := h ▸ .refl _
  kept _ _ _ x' hx' := ⟨x', h ▸ hx', rfl⟩

theorem modify (c : Chain) (i : InstallationId) {f : Installation → Installation}
    (hf : ∀ x, (f x).service = x.service) : c.Ages (c.modify i f) where
  installations := .modify _ _ _
  kept _ j _ x' hx' := by
    simp only [Chain.modify, Store.find?_modify] at hx'
    split at hx'
    · obtain ⟨x, hx, rfl⟩ := Option.map_eq_some_iff.mp hx'
      exact ⟨x, hx, hf x⟩
    · exact ⟨x', hx', rfl⟩

/-- An installation is freed. -/
theorem erase (c : Chain) (i : InstallationId) :
    c.Ages { c with installations := c.installations.erase i } where
  installations := .erase _ _
  kept hwf j _ x' hx' := by
    rw [Store.find?_erase hwf] at hx'
    split at hx'
    · cases hx'
    · exact ⟨x', hx', rfl⟩

theorem create (c : Chain) (x : Installation) : c.Ages (c.create x).2 where
  installations := .insert _ _
  kept _ i hi x' hx' := by
    simp only [Chain.create, Store.find?_insert, if_neg (Nat.ne_of_lt hi)] at hx'
    exact ⟨x', hx', rfl⟩

theorem push (c : Chain) (i : InstallationId) : c.Ages (c.push i) :=
  (modify c i (f := fun x => { x with below := some c.top }) fun _ => rfl).trans
    (.of_installations rfl)

theorem splice (c : Chain) (s : Segment) : c.Ages (c.splice s) :=
  (modify c s.lowest (f := fun x => { x with below := some c.top }) fun _ => rfl).trans
    (.of_installations rfl)

theorem pop (h : c.pop? = some (i, c')) : c.Ages c' := by
  obtain ⟨b, -, heq⟩ := Option.map_eq_some_iff.mp h
  obtain ⟨rfl, rfl⟩ := Prod.mk.inj heq
  exact (modify c c.top (f := fun x => { x with below := none }) fun _ => rfl).trans
    (.of_installations rfl)

theorem split {s : Segment} (h : c.split i = .ok (s, c')) : c.Ages c' := by
  unfold Chain.split at h
  split at h
  · split at h
    · cases h
    · obtain ⟨rfl, rfl⟩ := Prod.mk.inj (Except.ok.inj h)
      exact (modify c i (f := fun x => { x with below := none }) fun _ => rfl).trans
        (.of_installations rfl)
  · cases h

end Ages

end Chain

namespace Machine

/-- A thread later on: tables stay well-formed, and what is gone stays gone. -/
structure Ages (m m' : Machine ω) : Prop where
  cells : m.cells.Ages m'.cells
  chain : m.chain.Ages m'.chain
  closures : m.closures.Ages m'.closures
  references : m.references.Ages m'.references
  fibers : m.fibers.Ages m'.fibers

/-- The tables whose numbers matter here. -/
def tables (m : Machine ω) : Store (Shared ω) × Store Installation × Store (Closure ω) ×
    Store InstallationId × Fibers (List (Activation ω)) :=
  (m.cells, m.chain.installations, m.closures, m.references, m.fibers)

theorem tables_warn (m : Machine ω) (ws : List SettingsWarning) : (m.warn ws).tables = m.tables := by
  unfold warn
  induction ws generalizing m with
  | nil => rfl
  | cons w ws ih => exact ih (m.trace (.warning w))

theorem tables_reportLines (m : Machine ω) : m.reportLines.2.tables = m.tables :=
  tables_warn { m with pool := { m.pool with settings := m.pool.settings.use.2.1 } } _

theorem tables_view (m : Machine ω) (v : View) : (m.view v).tables = m.tables := by
  cases v with
  | report => exact m.tables_reportLines
  | _ => rfl

theorem tables_print (m : Machine ω) (p : Printout) : (m.print p).tables = m.tables := by
  cases p with
  | report => exact m.tables_reportLines
  | _ => rfl

theorem tables_answer (m : Machine ω) (q : Query) : (m.answer q).2.tables = m.tables := by
  cases q <;> rfl

theorem tables_chooseLabel (m : Machine ω) (label : Option Int) :
    (m.chooseLabel label).2.tables = m.tables := by
  cases label <;> rfl

theorem tables_declare (m : Machine ω) (name : String) (h : HandlerType ω) :
    (m.declare name h).2.tables = m.tables := by
  unfold declare
  split
  · rfl
  · split <;> rfl

theorem tables_acquireStack (m : Machine ω) : m.acquireStack.2.tables = m.tables := by
  have hwarned : (({ m with pool := m.pool.acquire.2.1 } : Machine ω).warn
      m.pool.acquire.2.2).tables = m.tables := tables_warn _ _
  unfold acquireStack
  rw [← hwarned]
  simp only
  split <;> rfl

variable {m₀ m m' : Machine ω}

theorem tables_arm {r : ResumptionId} {v : Value} {k : Cont ω} (h : m.arm r v = some (k, m')) :
    m'.tables = m.tables := by
  obtain ⟨k', hk, heq⟩ := Option.map_eq_some_iff.mp h
  cases k' <;> obtain ⟨rfl, rfl⟩ := Prod.mk.inj heq <;> rfl

theorem tables_takeCommand {e : ExchangeId} {command : Command}
    (h : m.takeCommand e = some (command, m')) : m'.tables = m.tables := by
  obtain ⟨y, -, h⟩ := Option.bind_eq_some_iff.mp h
  obtain ⟨command, -, h⟩ := Option.bind_eq_some_iff.mp h
  obtain ⟨rfl, rfl⟩ := Prod.mk.inj (Option.some.inj h)
  rfl

theorem tables_runClause (m : Machine ω) (handler : CellId) (answer : String) (f : FiberId)
    (segment : Segment) (e : ExchangeId) (command : Command) (code : ClauseCode ω) :
    (m.runClause handler answer f segment e command code).tables = m.tables := by
  cases code <;> simp only [runClause, tables, goOn, release, push, trace, record, bump]

namespace Ages

theorem refl (m : Machine ω) : m.Ages m := ⟨.refl _, .refl _, .refl _, .refl _, .refl _⟩

theorem trans (h : m₀.Ages m) (h' : m.Ages m') : m₀.Ages m' where
  cells := h.cells.trans h'.cells
  chain := h.chain.trans h'.chain
  closures := h.closures.trans h'.closures
  references := h.references.trans h'.references
  fibers := h.fibers.trans h'.fibers

theorem releaseOne [Contents ω] (m : Machine ω) (x : Holding) : m.Ages (m.releaseOne x) := by
  have hrefl := Ages.refl m
  cases x with
  | asset o =>
    cases o with
    | cell c =>
      simp only [Machine.releaseOne, releaseAsset, releaseCell]
      split
      · exact hrefl
      · split
        · exact { hrefl with cells := .erase _ _ }
        · exact { hrefl with cells := .modify _ _ _ }
    | reference r =>
      simp only [Machine.releaseOne, releaseAsset]
      split
      · exact hrefl
      · exact { hrefl with references := .erase _ _ }
    | closure f =>
      simp only [Machine.releaseOne, releaseAsset]
      split
      · exact hrefl
      · exact { hrefl with closures := .erase _ _ }
    | resumption r =>
      simp only [Machine.releaseOne, releaseAsset]
      split <;> exact { hrefl with }
    | notice n => exact { hrefl with }
  | installation i =>
    simp only [Machine.releaseOne, releaseInstallation]
    split
    · exact hrefl
    · split
      · exact { hrefl with chain := .erase _ _ }
      · exact { hrefl with chain := .modify _ _ fun _ => rfl }
  | fiber f =>
    simp only [Machine.releaseOne]
    split
    · exact hrefl
    · rename_i S fs hdrop
      exact { hrefl with fibers := .drop hdrop }
  | exchange e =>
    simp only [Machine.releaseOne]
    split <;> exact { hrefl with }

/-- Nothing happens to the tables. -/
theorem of_tables (h : m'.tables = m.tables) : m.Ages m' := by
  obtain ⟨hcells, hchain, hclosures, hreferences, hfibers⟩ : m'.cells = m.cells ∧
      m'.chain.installations = m.chain.installations ∧ m'.closures = m.closures ∧
      m'.references = m.references ∧ m'.fibers = m.fibers := by
    simpa [tables, Prod.ext_iff] using h
  exact ⟨hcells ▸ .refl _, .of_installations hchain, hclosures ▸ .refl _, hreferences ▸ .refl _,
    hfibers ▸ .refl _⟩

/-- A fiber is resumed, or there is none. -/
theorem enter (i : InstallationId) (f : FiberId) (h : m₀.Ages m) : m₀.Ages (m.enter i f) := by
  unfold Machine.enter
  split
  · rename_i S fs heq
    exact h.trans { refl m with fibers := .resume heq }
  · exact h.trans (.of_tables rfl)

theorem install (h : m₀.Ages m) (i : Installing) (body : ReferenceId → Comp ω) :
    m₀.Ages (m.install Γ i body) := by
  unfold Machine.install
  have h₁ := Machine.tables_chooseLabel m i.label
  generalize m.chooseLabel i.label = chosen at h₁
  obtain ⟨_ | label, m₁⟩ := chosen
  · exact h.trans (.of_tables h₁)
  have h₂ := (Machine.tables_declare m₁ i.handlerType (Γ.handlerType i.handlerType)).trans h₁
  simp only
  generalize m₁.declare i.handlerType (Γ.handlerType i.handlerType) = declared at h₂
  obtain ⟨_ | _, m₂⟩ := declared
  · exact h.trans (.of_tables h₂)
  have h₃ := (Machine.tables_acquireStack m₂).trans h₂
  simp only
  generalize m₂.acquireStack = acquired at h₃
  obtain ⟨why | _, m₃⟩ := acquired
  · cases why with
    | outOfMemory => exact h.trans (.of_tables h₃)
    | overflow => exact h.trans (.of_tables h₃)
  · have h₃ : m₀.Ages m₃ := h.trans (.of_tables h₃)
    exact enter _ _ (h₃.trans
      { refl m₃ with
        chain := (Chain.Ages.create _ _).trans (.push _ _), references := .insert _ _
        fibers := .create _ _ })

theorem sendInPlace (h : m₀.Ages m) (i : InstallationId) (entry : Nat) (command : Command) :
    m₀.Ages (m.sendInPlace Γ i entry command) := by
  refine h.trans ?_
  have hretained : m.Ages ((m.hold i).retain (.cell (m.chain.get i).handler)) :=
    { refl m with cells := .modify _ _ _, chain := .modify _ _ fun _ => rfl }
  unfold Machine.sendInPlace
  split
  · simp only
    split
    · exact { hretained with }
    · rename_i hsplit
      simp only [takeCommand, bump, Machine.hold, Machine.retain, Store.insert_fst,
        Store.find?_insert_self, Option.bind_eq_bind, Option.bind_some, Store.modify_insert,
        Option.pure_def]
      exact { hretained with
        chain := (hretained.chain.trans (Chain.Ages.split hsplit)).trans (.modify _ _ fun _ => rfl) }
  · exact of_tables rfl

theorem eval [Contents ω] (m : Machine ω) (c : Comp ω) : m.Ages (m.eval Γ c) := by
  cases c with
  | alloc content next => exact { refl m with cells := .insert _ _ }
  | write c content next => exact { refl m with cells := .modify _ _ _ }
  | retain o next =>
    cases o with
    | cell c => exact { refl m with cells := .modify _ _ _ }
    | _ => exact { refl m with }
  | closure owned body next => exact { refl m with closures := .insert _ _ }
  | apply f arg next =>
    simp only [Machine.eval, applyClosure]
    split
    · exact { refl m with closures := .erase _ _ }
    · exact { refl m with }
  | handle i body next => exact install (m := m.push (.bind next)) { refl m with } i body
  | invoke target command next =>
    simp only [Machine.eval]
    split
    · exact { refl m with }
    · simp only [Machine.send]
      split
      · exact sendInPlace (m := m.push (.bind next)) { refl m with } _ _ _
      · exact { refl m with chain := .modify _ _ fun _ => rfl }
  | find search next =>
    simp only [Machine.eval]
    split
    · exact { refl m with }
    · exact { refl m with references := .insert _ _, chain := .modify _ _ fun _ => rfl }
  | copy r next =>
    simp only [Machine.eval]
    split
    · exact { refl m with references := .skip _ }
    · exact { refl m with references := .insert _ _, chain := .modify _ _ fun _ => rfl }
  | function answer f next =>
    simp only [Machine.eval]
    split
    · exact { refl m with }
    · exact { refl m with closures := .erase _ _ }
  | take r next =>
    simp only [Machine.eval]
    split <;> exact { refl m with }
  | resume r v next =>
    simp only [Machine.eval, Machine.resume]
    split
    · exact { refl m with }
    · rename_i harm
      have hsame := tables_arm harm
      exact of_tables hsame
  | tailResume r v next =>
    simp only [Machine.eval, Machine.tailResume]
    split
    · exact { refl m with }
    · rename_i harm
      have hsame := tables_arm harm
      split <;> exact of_tables hsame
  | ask q next => exact of_tables (m.tables_answer q)
  | view v next => exact of_tables (m.tables_view v)
  | print p next => exact of_tables (m.tables_print p)
  | pushBare label name clauses next =>
    exact { refl m with chain := (Chain.Ages.create _ _).trans (.push _ _) }
  | popBare next =>
    simp only [Machine.eval]
    split
    · exact { refl m with }
    · exact { refl m with chain := .pop ‹_› }
  | _ => exact { refl m with }

theorem stepCont (h : m₀.Ages m) (k : Cont ω) : m₀.Ages (m.stepCont k) := by
  cases k with
  | captured answer f segment e => exact enter _ _ (h.trans { refl m with chain := .splice _ _ })
  | function answer f arg => cases arg <;> exact h.trans (.of_tables rfl)

theorem settle (h : m₀.Ages m) (answer : String) (v : Value) (kept : List Holding) :
    m₀.Ages (m.settle answer v kept) := by
  refine h.trans ?_
  unfold Machine.settle
  split
  · exact of_tables rfl
  · simp only
    split <;> exact of_tables rfl

theorem finish (h : m₀.Ages m) (i : InstallationId) (v : Value) : m₀.Ages (m.finish Γ i v) := by
  refine h.trans ?_
  unfold Machine.finish
  split
  · exact of_tables rfl
  · rename_i hpop
    simp only
    split
    · exact { refl m with chain := .pop hpop }
    · exact { refl m with chain := (Chain.Ages.pop hpop).trans (.modify _ _ fun _ => rfl) }

theorem give (m : Machine ω) (v : Value) : m.Ages (m.give Γ v) := by
  unfold Machine.give
  split
  · split
    · exact of_tables rfl
    · rename_i m' hback
      obtain ⟨⟨S, fs⟩, hfs, rfl⟩ := Option.map_eq_some_iff.mp hback
      refine Ages.trans (m := { m with fibers := fs, stack := S, control := .ret v })
        { refl m with fibers := .handBack hfs } ?_
      exact of_tables (tables_warn _ _)
  · rename_i a S hS
    have hless : m.Ages { m with stack := S } := of_tables rfl
    cases a with
    | driving i f => exact hless.finish i v
    | returning i answer => exact hless.settle answer v _
    | calling answer => exact hless.settle answer v _
    | looping body next =>
      simp only
      split <;> exact of_tables rfl
    | inPlace i handler hidden e => exact { refl m with chain := .splice _ _ }
    | _ => exact of_tables rfl

theorem deliver (m : Machine ω) (s : Step (Cont ω) Value) : m.Ages (m.deliver s) := by
  unfold Machine.deliver
  split
  · split
    · exact of_tables rfl
    · exact stepCont (.refl m) _
  · exact of_tables rfl

theorem wake (m : Machine ω) : m.Ages m.wake := by
  unfold Machine.wake
  split
  · exact of_tables rfl
  · exact enter _ _ (.of_tables rfl)
  · split
    · exact of_tables rfl
    · split <;> exact of_tables rfl
  · exact of_tables rfl

theorem capture (h : m₀.Ages m) (i : InstallationId) (f : FiberId) (r : Request) :
    m₀.Ages (m.capture Γ i f r) := by
  refine h.trans ?_
  unfold Machine.capture
  split
  · exact of_tables rfl
  · exact of_tables rfl
  · split
    · exact of_tables rfl
    · rename_i segment c' hsplit
      simp only
      have hcut : m.Ages ({ m with chain := c' }.hold i) :=
        { refl m with chain := (Chain.Ages.split hsplit).trans (.modify _ _ fun _ => rfl) }
      refine hcut.trans ?_
      split
      · split <;> exact of_tables rfl
      · rename_i htaken
        refine of_tables ((tables_runClause _ _ _ _ _ _ _ _).trans ?_)
        refine (tables_takeCommand htaken).trans ?_
        split <;> rfl

theorem forward (m : Machine ω) (r : Request) : m.Ages (m.forward Γ r) := by
  unfold Machine.forward
  split
  · exact of_tables rfl
  · rename_i S fs hsuspend
    have hsuspended : ∀ S' control,
        m.Ages { m with fibers := fs, stack := S', control := control } := fun S' control =>
      { refl m with fibers := .suspend hsuspend }
    simp only
    split
    · split
      · exact capture (hsuspended _ _) _ _ _
      · exact hsuspended _ _
    · exact hsuspended _ _

theorem unwind (m : Machine ω) (message : String) : m.Ages (m.unwind message) := by
  unfold Machine.unwind
  split
  · cases hback : m.handBack (.unwind message) with
    | none => exact of_tables rfl
    | some m' =>
      obtain ⟨⟨S, fs⟩, hfs, rfl⟩ := Option.map_eq_some_iff.mp hback
      exact { refl m with fibers := .handBack hfs }
  · exact of_tables rfl
  · exact of_tables rfl

theorem step [Contents ω] (m : Machine ω) : m.Ages (m.step Γ) := by
  unfold Machine.step
  split
  · rename_i x hs _
    exact (of_tables (show ({ m with releasing := hs } : Machine ω).tables = m.tables from rfl)).trans (releaseOne _ x)
  · split
    · exact eval m _
    · exact give m _
    · exact deliver m _
    · exact settle (.refl m) _ _ _
    · exact forward m _
    · exact wake m
    · exact unwind m _
    · exact of_tables rfl
    · exact refl m

end Ages

/-- A run ages a thread. -/
theorem run_ages [Contents ω] (n : Nat) (m : Machine ω) : m.Ages (run Γ n m) := by
  induction n with
  | zero => exact .refl m
  | succ n ih =>
    rw [run_succ]
    exact ih.trans (.step _)

end Machine

end EffectHandlers
