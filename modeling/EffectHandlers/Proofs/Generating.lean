import EffectHandlers.Client.Library
import EffectHandlers.Proofs.Asking
import EffectHandlers.Proofs.Programs
import EffectHandlers.Proofs.Watching
/-!
# Generators yield exactly their own sequences

A careful thread whose program makes generators does step by step what their family says. So
whoever asks a generator gets what the body of the generator yields next on its own, however the
calls are nested and whatever was dropped in between.
-/

namespace EffectHandlers.Generator

open Evaluation (Leads Turns)

variable {Γ : Library Content} {r : Family Γ} {s : Evaluation Content} {main : Behaviour Γ}
  {cells : List Content} {statics : List Owned} {settings : SettingsSlot}

/-! ### Programs with generators are orderly -/

section Orderly

theorem orderly_yieldHome (self : Home) (v : Value) : (yieldHome self v).Orderly := by
  cases self with
  | none => exact Prog.orderly_release _
  | some h => exact (Prog.orderly_invoke _ _).bind fun _ => Prog.orderly_pure ()

theorem orderly_make {item : String} {owned : List Owned} {body : Int → Task Unit}
    (h : ∀ label, (body label).Orderly) : (Generator.make item owned body).Orderly :=
  (Prog.orderly_ask _).bind fun _ => (Prog.orderly_alloc _).bind fun _ =>
    Prog.Orderly.handle fun _ => (h _).bind fun _ => Prog.orderly_pure _

theorem orderly_next (state : Value) : (next state).Orderly := by
  unfold next
  split
  · exact (Prog.orderly_resume _ _).bind fun _ => Prog.orderly_pure _
  · exact Prog.orderly_pure _

theorem orderly_ask (g : CellId) : (ask g).Orderly := by
  refine (Task.orderly_readValue g).bind fun state => (Prog.orderly_write g _).bind fun _ =>
    (orderly_next state).bind fun x => ?_
  cases x with
  | none => exact Prog.orderly_pure _
  | some x => exact (Prog.orderly_write g _).bind fun _ => Prog.orderly_pure _

theorem orderly_drop (g : CellId) : (drop g).Orderly := by
  refine (Task.orderly_readValue g).bind fun state => ?_
  split
  · exact (Prog.orderly_write g _).bind fun _ => (Prog.orderly_take _).bind fun _ =>
      Prog.orderly_release _
  · exact Prog.orderly_pure _

theorem Behaviour.orderly (b : Behaviour Γ) (self : Home) : (b.toTask self).Orderly := by
  induction b generalizing self with
  | done v => exact Prog.orderly_pure v
  | yield v next ih => exact (orderly_yieldHome self v).bind fun _ => ih self
  | make item owned body next ihbody ihnext =>
    exact (orderly_make fun _ => (ihbody _).bind fun _ => Prog.orderly_pure ()).bind fun _ =>
      (Prog.orderly_alloc _).bind fun g => ihnext g self
  | ask g next ih => exact (orderly_ask g).bind fun x => ih x self
  | drop g next ih => exact (orderly_drop g).bind fun _ => ih self
  | loop seed body next ihbody ihnext =>
    exact (Prog.Orderly.loop fun v => ihbody v self).bind fun v => ihnext v self
  | scope owned body next ihbody ihnext => exact (ihbody self).scope.bind fun v => ihnext v self
  | retain o next ih => exact (Prog.orderly_retain o).bind fun _ => ih self
  | release os next ih => exact (Prog.orderly_release os).bind fun _ => ih self
  | log text next ih => exact (Prog.orderly_record _).bind fun _ => ih self

/-- The handler of generators is orderly. -/
theorem handler_orderly (item : String) :
    ∀ clause ∈ (handler item).clauses, clause.code.Orderly := by
  intro clause hclause
  obtain rfl := List.mem_singleton.mp hclause
  intro c v k
  exact ((Prog.orderly_take k).bind fun _ => Prog.orderly_pure _).toComp

end Orderly

/-! ### What the thread does -/

/-- The family that a program begins with. -/
def family (cells : List Content) (main : Behaviour Γ) : Family Γ :=
  Family.start (cells.length + 1) main

namespace Family

/-- What is in fewer cells shows the family as far as it goes. -/
theorem Visible.mono {contents contents' : CellId → Option Content} (h : r.Visible contents)
    (hsub : ∀ c x, contents' c = some x → contents c = some x) : r.Visible contents' := by
  obtain ⟨ρ, hshows⟩ := h
  exact ⟨ρ, fun j a g ha hg x hx => hshows j a g ha hg x (hsub g x hx)⟩

/-- What a family says that its program does. -/
def plan (r : Family Γ) : Plan Content where
  At t := Enacted (r.run t)
  Shown t := (r.run t).Visible
  Ended t v := (r.run t).phase = .finished v
  mono h hsub := h.mono hsub

end Family

/-- An evaluation that enacts a family has ended if and only if the program has. -/
theorem Enacted.ending_iff {x : Except Fault Value} (h : Enacted r s) :
    s.ending = some x ↔ ∃ v, x = .ok v ∧ r.phase = .finished v := by
  cases h with
  | running hphase _ _ hs => simp [Evaluation.ending, hs, hphase]
  | finished hphase _ hs => simp [Evaluation.ending, hs, hphase, eq_comm]

/-- A program begins with no generator. -/
theorem enacted_start (hcells : ∀ x ∈ cells, holdsState x = false) :
    Enacted (family cells main) (Evaluation.start cells (main.code none)) := by
  have hempty : ({ next := 1 } : Store Content).WellFormed := by simp [Store.WellFormed]
  have hkeeps : Keeps (family cells main) (Evaluation.start cells (main.code none))
      (fun _ => 0) fun _ => 0 :=
    { each := fun j a ha => by simp [family, Family.start] at ha
      others := fun k x hx hstate => by
        rcases Store.of_find?_insertAll hx with hfound | hmem
        · cases hfound
        · rw [hcells x hmem] at hstate
          cases hstate
      nextCell := (Store.insertAll_next cells).trans (Nat.add_comm ..)
      nextLabel := rfl
      pending := rfl
      cells := Store.wellFormed_insertAll hempty cells
      resumptions := by simp [Evaluation.start, Store.WellFormed]
      installed := by simp [Evaluation.start, Store.WellFormed] }
  exact .running rfl hkeeps rfl rfl

section Threads

/-- An evaluation does what its family says. -/
theorem follows_plan (hcells : ∀ x ∈ cells, holdsState x = false)
    (hlabels : ∀ t, ((family cells main).run t).producers.length ≤ labelCount) :
    Evaluation.Follows Γ (Evaluation.start cells (main.code none)) (family cells main).plan where
  start := .here (enacted_start hcells).shown (enacted_start hcells)
  next t s h := by
    have hsound : ((family cells main).run t).Sound := (Family.Sound.start ..).run t
    have hfew := hlabels (t + 1)
    simp only [Family.plan, Family.run_succ] at hfew ⊢
    exact Enacted.step h hsound hfew
  ending _ _ _ h := h.ending_iff

/-- A thread that is about to drop a generator discards what the generator rests at. -/
theorem exists_forsakes {m₀ : Machine Content} {s₀ : Evaluation Content} {clock : Nat → Nat}
    {e : Nat} {g : CellId} {j : Nat} {a : Producer Γ} {v : Value} {next b : Behaviour Γ}
    {blocks blocks' : List (Block (Behaviour Γ))} (hΓ : Γ.Orderly) (hgood : Good Γ m₀)
    (hfiled : ∀ n l, Sound Γ (Machine.run Γ n m₀) l → (Machine.run Γ n m₀).Filed)
    (hcareful : m₀.Careful Γ) (hpace : Pace clock)
    (hshows : ∀ n, ∃ d, m₀.Shows Γ n ((Evaluation.step Γ)^[clock n] s₀) d)
    (hat : Enacted r ((Evaluation.step Γ)^[e] s₀))
    (hphase : r.phase = .running (.drop g next) blocks) (hfind : r.find? g = some (j, a))
    (hp : a.progress = .resting v b blocks') :
    ∃ n₀ n k id, clock n₀ = e ∧ n₀ ≤ n ∧
      Cont.Stands (Machine.run Γ n m₀).fibers k (continuation j a.item id b blocks') ∧
      Machine.Forsakes Γ m₀ n k := by
  obtain ⟨ρ, id, next', htakes, hrest⟩ := hat.takes hphase hfind hp
  rw [← Function.iterate_add_apply] at htakes hrest
  have hreleases : ((Evaluation.step Γ)^[2 + e + 1] s₀).phase = .eval (.release (v.owned ++
      [.resumption (((Evaluation.step Γ)^[2 + e] s₀).resumptions.erase ρ).next]) next') := by
    rw [Function.iterate_succ_apply']
    simp only [Evaluation.step, htakes, Evaluation.eval, hrest]
    rfl
  obtain ⟨q, hq⟩ := hpace.reaches (2 + e + 1)
  obtain ⟨n, -, hn, hreleasing, hcontrol, l, hsound, htracks⟩ := Machine.exists_evaluating hpace
    hshows htakes hreleases (fun h => by cases h) (fun _ _ _ h => by cases h)
    (show 2 + e < clock q by rw [hq]; exact Nat.lt_succ_self _)
  have hkept : ¬ m₀.Dropped Γ n (.resumption ρ) :=
    (hcareful n).1 _ (by simp [Machine.uses, hreleasing, hcontrol, Comp.uses])
  obtain ⟨n₀, hn₀⟩ := hpace.reaches e
  have hle : n₀ ≤ n := by
    by_contra hlt
    have hback := hpace.monotone (Nat.le_of_not_le hlt)
    omega
  rcases htracks.resumptions.find? hkept with ⟨-, hnone⟩ | ⟨k, κ, hk, hκ, hstands⟩
  · cases hnone.symm.trans hrest
  · obtain rfl := Option.some.inj (hκ.symm.trans hrest)
    exact ⟨n₀, n, k, id, hn₀, hle, hstands, Machine.forsakes_of_take hΓ hgood hfiled hreleasing
      hcontrol (fun ρ' => by simp) hk⟩

/-- What is true of a thread whose program makes generators. -/
structure Generates (Γ : Library Content) (m : Machine Content) (r : Family Γ)
    (clock : Nat → Nat) : Prop where
  /-- The thread does what the family says. -/
  follows : m.Follows Γ r.plan clock
  /-- The answers of each generator are what its body yields on its own. The body has run up to the
  yield behind the last answer, or to its end. -/
  delivers : ∀ (t j : Nat) (a : Producer Γ), (r.run t).producers[j]? = some a → a.Delivers
  /-- Nothing that was yielded or answered changes later, and a generator that was dropped stays as
  it is. -/
  grows : ∀ t d, (r.run t).Grows (r.run (t + d))
  /-- Code that asks a generator goes on, once the call comes back, with what the body yields
  next. -/
  answered : ∀ (t : Nat) (g : CellId) (next : Option Value → Behaviour Γ)
    (blocks : List (Block (Behaviour Γ))) (j : Nat) (a : Producer Γ),
    (r.run t).Asks g next blocks j a → ∀ d, (r.run t).Resumes d →
      (r.run (t + d)).phase = .running (next a.yields[a.answers.length]?) blocks ∧
        ∃ a', (r.run (t + d)).producers[j]? = some a' ∧
          a'.answers = a.answers ++ [a.yields[a.answers.length]?]
  /-- All calls come back if the bodies of all generators get from each yield to the next one or to
  their end. -/
  resumes : (∀ (t j : Nat) (a : Producer Γ), (r.run t).producers[j]? = some a → Productive a.body) →
    ∀ (t : Nat) (g : CellId) (next : Option Value → Behaviour Γ)
      (blocks : List (Block (Behaviour Γ))), (r.run t).phase = .running (.ask g next) blocks →
        ∃ d, (r.run t).Resumes d
  /-- The thread returns where the program does, and nowhere else. -/
  returns : ∀ x, (∃ n, (m.run Γ n).ending = some x) ↔
    ∃ t v, x = .ok v ∧ (r.run t).phase = .finished v
  /-- Where code drops a generator, the continuation that it rests at is discarded, and its body is
  unwound without going on. -/
  dropped : ∀ (t : Nat) (g : CellId) (next : Behaviour Γ) (blocks : List (Block (Behaviour Γ)))
    (j : Nat) (a : Producer Γ) (v : Value) (b : Behaviour Γ) (blocks' : List (Block (Behaviour Γ))),
    (r.run t).phase = .running (.drop g next) blocks → (r.run t).find? g = some (j, a) →
      a.progress = .resting v b blocks' → ∃ n₀ n k id, clock n₀ = t ∧ n₀ ≤ n ∧
        Cont.Stands (m.run Γ n).fibers k (continuation j a.item id b blocks') ∧ m.Forsakes Γ n k
  /-- So is it where the last share of the cell of a generator goes. -/
  released : ∀ (n : Nat) (g : CellId) (j : Nat) (a : Producer Γ) (v : Value) (b : Behaviour Γ)
    (blocks : List (Block (Behaviour Γ))), (∀ o, (m.run Γ n).control ≠ .halted o) →
      (m.run Γ n).Drops Γ (.cell g) → (r.run (clock n)).producers[j]? = some a → a.cell = some g →
        a.progress = .resting v b blocks → ∃ ρ, (m.run Γ n).contents g =
          some (.value (.present (.pair v (.resumption ρ)))) ∧
          ∀ k, (m.run Γ n).resumptions.find? ρ = some k → m.Forsakes Γ n k

/-- In a careful thread each generator yields exactly its own sequence, whatever other generators
do, however the calls are nested, and whatever was dropped. -/
theorem generators_yield_their_own (hΓ : Γ.Orderly) (hcells : ∀ x ∈ cells, holdsState x = false)
    (hsize : settings.use.1.stackSize < StackPool.addressSpace)
    (hcareful : (Machine.start settings cells statics (main.code none)).Careful Γ)
    (hlabels : ∀ t, ((family cells main).run t).producers.length ≤ labelCount) :
    ∃ clock, Generates Γ (Machine.start settings cells statics (main.code none))
      (family cells main) clock := by
  have hsound : (family cells main).Sound := Family.Sound.start ..
  have hfollows := follows_plan hcells hlabels
  have hmain : (main.code none).Orderly := (main.orderly none).toComp
  have hstarts : ∀ o, (Machine.start settings cells statics (main.code none)).control ≠ .halted o :=
    fun o h => by cases h
  have hfiled : ∀ n l, Sound Γ (Machine.run Γ n (Machine.start settings cells statics
      (main.code none))) l → (Machine.run Γ n (Machine.start settings cells statics
        (main.code none))).Filed := fun n l => Machine.filed_run
  obtain ⟨clock, clock', hpace, hshows, harrives, hthread⟩ :=
    Machine.exists_clocks hΓ hmain hsize hcareful hfollows
  have hends := fun x => Machine.exists_ending_iff (x := x) hΓ hmain hsize hcareful hfollows
  generalize Machine.start settings cells statics (main.code none) = m₀ at *
  obtain ⟨l, hbegins, -⟩ := Machine.exists_tracks (n := 0) hfollows hshows hstarts
  have hgood : Good Γ m₀ := .sound l hbegins
  refine ⟨clock ∘ clock', ?_⟩
  exact
    { follows := hthread
      delivers := fun t j a ha => (hsound.run t).delivers ha
      grows := fun t d => by
        rw [Family.run_add]
        exact (hsound.run t).grows_run d
      answered := fun t g next blocks j a hasks d hd => by
        rw [Family.run_add]
        exact (hsound.run t).answered hasks hd
      resumes := fun hproductive t g next blocks hphase => by
        refine (hsound.run t).exists_resumes (N := labelCount) (fun d => ?_) (fun d j a ha => ?_)
          hphase
        · rw [← Family.run_add]
          exact hlabels (t + d)
        · rw [← Family.run_add] at ha
          exact hproductive (t + d) j a ha
      returns := hends
      dropped := fun t g next blocks j a v b blocks' hphase hfind hp => by
        obtain ⟨e, rfl, hat⟩ := harrives t
        obtain ⟨n₀, n, k, id, rfl, hdone⟩ :=
          exists_forsakes hΓ hgood hfiled hcareful hpace hshows hat hphase hfind hp
        exact ⟨n₀, n, k, id, rfl, hdone⟩
      released := fun n g j a v b blocks hrunning hdrops ha hcell hp => by
        obtain ⟨l, hsound', -⟩ := Machine.exists_tracks hfollows hshows hrunning
        obtain ⟨ρ, hvisible⟩ := hthread.shown n hrunning
        obtain ⟨y, hy⟩ := Option.isSome_iff_exists.mp hdrops.2.1
        have hcontent : (Machine.run Γ n m₀).contents g = some y.content := by
          simp only [Machine.contents, hy, Option.map_some]
        have hstate := hvisible j a g ha hcell _ hcontent
        rw [hp] at hstate
        rw [hstate] at hcontent
        exact ⟨ρ j, hcontent, fun k hk => Machine.forsakes_of_drops hΓ hfiled hsound' hdrops
          hcontent (List.mem_append_right v.owned List.mem_cons_self) hk⟩ }

end Threads

/-! ### Generators that share others -/

/-- The library that knows the handlers of generators alone. -/
def library : Library Content := Client.libraryOf handlers []

theorem library_orderly : library.Orderly where
  clauses t := by
    simp only [library, Client.libraryOf, handlers, List.map_cons, List.map_nil, List.lookup_cons,
      List.lookup_nil]
    repeat' split
    all_goals first | exact handler_orderly _ | exact fun _ hc => absurd hc List.not_mem_nil
  onReturn t c v := by
    simp only [library, Client.libraryOf, handlers, List.map_cons, List.map_nil, List.lookup_cons,
      List.lookup_nil]
    repeat' split
    all_goals trivial
  procedure _ _ := trivial

/-- The items that generators yield here. -/
def numbered : Known library := ⟨"i32", rfl⟩

/-- Yield the numbers from zero on, up to a bound if there is one. -/
def numbers (bound : Option Nat) : Behaviour library :=
  .each fun n => if bound.all (n < ·) then some (.int n) else none

/-- Yield what two generators yield first, and ask one of them once more. -/
def both (a b : CellId) : Behaviour library :=
  .ask a fun x => .ask b fun y =>
    .yield (.pair (x.getD .unit) (y.getD .unit)) (.ask a fun _ => .done .unit)

/-- Ask two generators, one of which never ends, beside a third one that asks them too. The one that
never ends is dropped half-way. -/
def sharing : Behaviour library :=
  .make numbered [] (numbers (some 2)) fun a => .make numbered [] (numbers none) fun b =>
    .retain (.cell a) (.retain (.cell b) (.make numbered [.cell a, .cell b] (both a b) fun c =>
      .ask c fun x => .ask a fun y => .ask b fun z => .drop b (.release [.cell a, .cell b, .cell c]
        (.done (.pair (x.getD .absent) (.pair (y.getD .absent) (z.getD .absent)))))))

theorem sharing_ends : ((family Client.cells sharing).run 29).phase = .finished
    (.pair (.pair (.int 0) (.int 0)) (.pair .absent (.int 1))) := rfl

theorem labels_sharing (t : Nat) :
    ((family Client.cells sharing).run t).producers.length ≤ labelCount :=
  ((Family.Sound.start ..).length_le_of_finished sharing_ends t).trans (by decide +kernel)

theorem careful_sharing :
    (Machine.start {} Client.cells [] (sharing.code none)).Careful library :=
  Machine.careful_of_watch (N := 189) (by decide +kernel)

/-- All three generators yield their own sequences. -/
theorem generators_yield_their_own_sharing :
    ((family Client.cells sharing).run 29).producers.map Producer.answers =
        [[some (.int 0), some (.int 1), none], [some (.int 0), some (.int 1)],
          [some (.pair (.int 0) (.int 0))]] ∧
      ∃ clock, Generates library (Machine.start {} Client.cells [] (sharing.code none))
        (family Client.cells sharing) clock :=
  ⟨by decide +kernel, generators_yield_their_own library_orderly (by decide) (by decide)
    careful_sharing labels_sharing⟩

end EffectHandlers.Generator
