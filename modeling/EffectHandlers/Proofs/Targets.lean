import EffectHandlers.Proofs.Delivery
import EffectHandlers.Proofs.Designation
import EffectHandlers.Proofs.LifeCycle
import EffectHandlers.Proofs.Profiles
/-!
# Commands reach the designated installation

## Whereabouts of installations

An installation that was put on the chain is live, captured, hidden by a plain clause, or will not
be live again: because its return clause has started, or because what would have put it back was
discarded. Only the first kind can be reached, and a command that is refused ends the thread.
-/

namespace EffectHandlers

variable {ω : Type} {Γ : Library ω} {m : Machine ω} {live : List InstallationId}
  {cuts : List (Tie × List InstallationId)} {i : InstallationId}

/-! ### Segments as lists -/

namespace Machine

/-- The installation belongs to a captured continuation. -/
def IsCaptured (m : Machine ω) (i : InstallationId) : Prop :=
  ∃ answer f s e, .captured answer f s e ∈ m.latent ++ m.roused ∧ i ∈ m.chain.segmentList s

/-- The installation is hidden by a plain clause that has not ended. -/
def IsHidden (m : Machine ω) (i : InstallationId) : Prop :=
  ∃ j handler s e, .inPlace j handler s e ∈ m.posts ∧ i ∈ m.chain.segmentList s

namespace Lays

/-- The list of a segment can be read off the links. -/
theorem segmentList_eq (h : m.Lays live cuts) {c : Tie × List InstallationId} (hc : c ∈ cuts)
    {s : Segment} (hs : c.2.head? = some s.top) : m.chain.segmentList s = c.2 := by
  have hmem : c.2 ∈ cuts.map (·.2) := List.mem_map.mpr ⟨c, hc, rfl⟩
  have hsub : c.2.Sublist (live ++ (cuts.map (·.2)).flatten) :=
    (List.sublist_flatten_of_mem hmem).trans (List.sublist_append_right _ _)
  have hlinked := h.arranged.cut c.2 hmem
  rw [hs] at hlinked
  exact Chain.follow_segment (Nat.le_of_lt (h.arranged.length_lt hsub)) hlinked

/-- Every bond has its list. -/
theorem exists_of_bond (h : m.Lays live cuts) {b : Tie × Segment} (hb : b ∈ m.bonds) :
    ∃ c ∈ cuts, c.1 = b.1 ∧ m.chain.segmentList b.2 = c.2 := by
  obtain ⟨c, hc, hends⟩ := List.mem_map.mp (h.bonds.mem_iff.mpr (List.mem_map.mpr ⟨b, hb, rfl⟩))
  have htie : c.1 = b.1 := congrArg (·.1) hends
  have hhead : c.2.head? = some b.2.top := congrArg (·.2.1) hends
  exact ⟨c, hc, htie, h.segmentList_eq hc hhead⟩

/-- Every list has its bond. -/
theorem exists_bond (h : m.Lays live cuts) {c : Tie × List InstallationId} (hc : c ∈ cuts) :
    ∃ b ∈ m.bonds, b.1 = c.1 ∧ m.chain.segmentList b.2 = c.2 := by
  obtain ⟨b, hb, hends⟩ := List.mem_map.mp (h.bonds.mem_iff.mp (List.mem_map.mpr ⟨c, hc, rfl⟩))
  have htie : b.1 = c.1 := congrArg (·.1) hends
  have hhead : c.2.head? = some b.2.top := (congrArg (·.2.1) hends).symm
  exact ⟨b, hb, htie, h.segmentList_eq hc hhead⟩

/-- A captured or hidden installation is in one of the lists. -/
theorem exists_cut_of_away (h : m.Lays live cuts) (hi : m.IsCaptured i ∨ m.IsHidden i) :
    ∃ c ∈ cuts, i ∈ c.2 := by
  have hbond : ∀ tie s, (tie, s) ∈ m.bonds → i ∈ m.chain.segmentList s → ∃ c ∈ cuts, i ∈ c.2 := by
    intro tie s hb hi
    obtain ⟨c, hc, -, hlist⟩ := h.exists_of_bond hb
    exact ⟨c, hc, hlist ▸ hi⟩
  rcases hi with ⟨answer, f, s, e, hk, hi⟩ | ⟨j, handler, s, e, ha, hi⟩
  · rcases List.mem_append.mp hk with hk | hk
    · refine hbond (.held e) s ?_ hi
      exact List.mem_append_right _ (List.mem_append_left _ (List.mem_filterMap.mpr ⟨_, hk, rfl⟩))
    · refine hbond (.roused e) s ?_ hi
      exact List.mem_append_right _ (List.mem_append_right _ (List.mem_filterMap.mpr ⟨_, hk, rfl⟩))
  · refine hbond (.hidden e) s ?_ hi
    exact List.mem_append_left _ (List.mem_filterMap.mpr ⟨_, ha, rfl⟩)

/-- An installation in one of the lists is captured or hidden. -/
theorem away_of_mem_cut (h : m.Lays live cuts) {c : Tie × List InstallationId} (hc : c ∈ cuts)
    (hi : i ∈ c.2) : m.IsCaptured i ∨ m.IsHidden i := by
  obtain ⟨b, hb, -, hlist⟩ := h.exists_bond hc
  rw [← hlist] at hi
  rcases List.mem_append.mp hb with hb | hb
  · obtain ⟨a, ha, hab⟩ := List.mem_filterMap.mp hb
    cases a with
    | inPlace j handler s e =>
      obtain rfl := Option.some.inj hab
      exact .inr ⟨j, handler, s, e, ha, hi⟩
    | _ => cases hab
  · rcases List.mem_append.mp hb with hb | hb <;> obtain ⟨k, hk, hkb⟩ := List.mem_filterMap.mp hb <;>
      cases k with
      | captured answer f s e =>
        obtain rfl := Option.some.inj hkb
        exact .inl ⟨answer, f, s, e, by simp [hk], hi⟩
      | function => cases hkb

end Lays

variable [Contents ω]

/-! ### Installations that are not live -/

/-- The body of the installation has not returned, and it never will: no continuation and no
plain clause is left that would put the installation back, and it is not live again. -/
structure Abandoned (Γ : Library ω) (m₀ : Machine ω) (n : Nat) (i : InstallationId) : Prop where
  unreturned : ∀ k v, ¬ (run Γ k m₀).StartsReturn Γ i v
  uncaptured : ¬ (run Γ n m₀).IsCaptured i
  unhidden : ¬ (run Γ n m₀).IsHidden i
  dead : ∀ k, n ≤ k → (run Γ k m₀).chain.isLive i = false

/-- What is in no list is not live again. -/
theorem Orders.dead_of_off (h : m.Orders) (hlays : m.Lays live cuts)
    (hissued : i < m.chain.installations.next) (hoff : Off (fun _ => False) live cuts i) (k : Nat) :
    (Machine.run Γ k m).chain.isLive i = false :=
  ((Absent.of_lays hissued hlays hoff).run h k fun _ _ => ⟨by simp, by simp, by simp⟩).dead

/-- Where an installation is that is not live. -/
theorem notMem_live_iff {m₀ : Machine ω} (horders : m₀.Orders) {n : Nat}
    (hfatal : (run Γ n m₀).control.isFatal = false)
    (hissued : i < (run Γ n m₀).chain.installations.next) :
    i ∉ (run Γ n m₀).chain.live ↔ (run Γ n m₀).IsCaptured i ∨ (run Γ n m₀).IsHidden i ∨
      m₀.Returned Γ n i ∨ m₀.Abandoned Γ n i := by
  obtain ⟨live, cuts, hlays⟩ := (horders.run (Γ := Γ) n).laid hfatal
  have hreads := hlays.arranged.reads
  have hlive : (run Γ n m₀).chain.live = live := hreads.live_eq
  have hdead : ∀ {j}, (run Γ n m₀).chain.isLive j = false → j ∉ live := by
    intro j hj hmem
    exact absurd (hreads.isLive_iff.mpr hmem) (by simp [hj])
  have hreturned : m₀.Returned Γ n i → i ∉ live := by
    rintro ⟨k, hk, v, hstarts⟩
    obtain ⟨d, rfl⟩ := Nat.exists_eq_add_of_le (Nat.succ_le_of_lt hk)
    have habsent := (hstarts.absent (horders.run k)).run (Γ := Γ) (horders.run k).step d
      fun _ _ => ⟨by simp, by simp, by simp⟩
    rw [← run_succ, ← run_add] at habsent
    exact hdead habsent.dead
  rw [hlive]
  constructor
  · intro hnotlive
    by_cases haway : (run Γ n m₀).IsCaptured i ∨ (run Γ n m₀).IsHidden i
    · exact haway.elim .inl fun hhidden => .inr (.inl hhidden)
    obtain ⟨huncaptured, hunhidden⟩ := not_or.mp haway
    have hoff : Off (fun _ => False) live cuts i :=
      ⟨hnotlive, fun c hc hi => haway (hlays.away_of_mem_cut hc hi)⟩
    have hgone : ∀ k, n ≤ k → (run Γ k m₀).chain.isLive i = false := by
      intro k hk
      obtain ⟨d, rfl⟩ := Nat.exists_eq_add_of_le hk
      rw [run_add]
      exact (horders.run n).dead_of_off hlays hissued hoff d
    by_cases hback : m₀.Returned Γ n i
    · exact .inr (.inr (.inl hback))
    refine .inr (.inr (.inr ⟨fun k v hstarts => ?_, huncaptured, hunhidden, hgone⟩))
    by_cases hk : k < n
    · exact hback ⟨k, hk, v, hstarts⟩
    · exact absurd (hstarts.isLive (horders.run k).counts) (by simp [hgone k (by omega)])
  · rintro (hcaptured | hhidden | hback | habandoned)
    · obtain ⟨c, hc, hi⟩ := hlays.exists_cut_of_away (.inl hcaptured)
      exact fun hmem => hlays.notMem_of_mem hmem hc hi
    · obtain ⟨c, hc, hi⟩ := hlays.exists_cut_of_away (.inr hhidden)
      exact fun hmem => hlays.notMem_of_mem hmem hc hi
    · exact hreturned hback
    · exact hdead (habandoned.dead n (Nat.le_refl n))

end Machine

end EffectHandlers

/-!
## Commands reach the designated installation

At every moment of every run, a command goes to the installation that its target designates, and
the clause that starts is the one that was declared for the command. Where the target designates no
installation, or one that does not fit, the thread ends with the fault that says so.
-/

namespace EffectHandlers.Machine

variable {ω : Type} [Contents ω] {Γ : Library ω} {m m₀ : Machine ω} {target : Target}
  {command : Command} {next : Value → Comp ω} {i : InstallationId} {position : Nat} {f : Fault}

/-! ### Commands that are refused -/

/-- The thread ends with a fault, and what it lists is the chain as it is now. No code runs any
more, and so no clause starts. -/
structure Refuses (Γ : Library ω) (m : Machine ω) (f : Fault) : Prop where
  ends : (run Γ 2 m).control = .halted (.fatal f m.chain.listing)
  idle : ∀ k c, 0 < k → (run Γ k m).control ≠ .eval c
  unserved : ∀ k e command i position, ¬ (run Γ k m).Starts Γ e command i position

theorem Evaluates.refuses (hm : m.Evaluates (.invoke target command next))
    (h : m.chain.dispatch m.referent command.name target = .error f) : m.Refuses Γ f := by
  have hfaults : run Γ 1 m = m.goOn (.fault f) := by
    rw [run_succ]
    show m.step Γ = m.goOn (.fault f)
    simp only [step, hm.1, hm.2, eval, h]
  have hends : (run Γ 2 m).control = .halted (.fatal f m.chain.listing) := by
    rw [run_succ, hfaults]
    simp only [step, goOn, hm.1]
    rfl
  have hidle : ∀ k c, 0 < k → (run Γ k m).control ≠ .eval c := by
    intro k c hk
    obtain rfl | hlater := Nat.eq_or_lt_of_le hk
    · simp [hfaults, goOn]
    · obtain ⟨d, rfl⟩ := Nat.exists_eq_add_of_le hlater
      rw [run_add, control_run_halted hends d]
      simp
  refine ⟨hends, hidle, fun k e command i position hstarts => ?_⟩
  obtain ⟨code, ⟨-, heval, -⟩, -⟩ := hstarts
  rw [← run_succ] at heval
  exact hidle (k + 1) _ (Nat.succ_pos k) heval

/-! ### Commands that are accepted -/

/-- The clause starts, or an invariant of the runtime is broken. The clause is the one at this
position of the handler type, which declares the command. -/
def Serves (Γ : Library ω) (m : Machine ω) (command : Command) (i : InstallationId)
    (position : Nat) : Prop :=
  ∃ k, (run Γ (k + 1) m).Broken ∨
    (run Γ k m).Starts Γ m.exchanges.next command i position ∧
      ∃ clause, (Γ.handlerType (m.chain.get i).handlerType).clauses[position]? = some clause ∧
        clause.command = command.name ∧ (run Γ k m).codeAt Γ i position = some clause.code

theorem Evaluates.serves (hm : m.Evaluates (.invoke target command next)) (htidy : m.Tidy)
    (horders : m.Orders) (hfits : m.chain.Fitting Γ) (hissued : i < m.chain.installations.next)
    (h : m.chain.dispatch m.referent command.name target = .ok (i, position))
    (hposition : (m.chain.get i).clauseFor? command.name = some position) :
    m.Serves Γ command i position := by
  have hsends : m.Sends m.exchanges.next command i position next := ⟨target, hm, h, rfl⟩
  obtain ⟨k, -, hstarts | hbroken⟩ := hsends.starts (Γ := Γ) htidy
  · obtain ⟨code, ⟨hcode, -⟩, -⟩ := id hstarts
    have hcode' : m.codeAt Γ i position = some code := by
      rcases profile_run (Γ := Γ) horders hissued k with hsame | hfreed
      · rwa [codeAt_of_profile hsame] at hcode
      · rw [codeAt_of_bottom hfreed] at hcode
        cases hcode
    obtain ⟨clause, hclause, hcommand, rfl⟩ := clause_of_fitting hfits hposition hcode'
    exact ⟨k, .inr ⟨hstarts, clause, hclause, hcommand, hcode⟩⟩
  · exact ⟨k, .inl hbroken⟩

/-! ### Every moment of a run -/

/-- What becomes of a command that is sent now. -/
structure Dispatches (Γ : Library ω) (m₀ : Machine ω) (n : Nat) : Prop where
  /-- It goes to the installation that its target designates, or there is a reason why not. -/
  decides : ∀ command target,
    (run Γ n m₀).chain.Decides (run Γ n m₀).referent command target
  /-- The lookups find the same installations. -/
  locates : ∀ search, (run Γ n m₀).chain.Locates (run Γ n m₀).referent search
  /-- An installation that is referred to is on the chain, unless it is captured, hidden by a plain
  clause, finished, or discarded without having finished. -/
  stale : ∀ r i, (run Γ n m₀).references.find? r = some i →
    (i ∉ (run Γ n m₀).chain.live ↔ (run Γ n m₀).IsCaptured i ∨ (run Γ n m₀).IsHidden i ∨
      m₀.Returned Γ n i ∨ m₀.Abandoned Γ n i)
  serves : ∀ target command next i position,
    (run Γ n m₀).Evaluates (.invoke target command next) →
      (run Γ n m₀).chain.dispatch (run Γ n m₀).referent command.name target = .ok (i, position) →
        (run Γ n m₀).Serves Γ command i position
  refuses : ∀ target command next f, (run Γ n m₀).Evaluates (.invoke target command next) →
    (run Γ n m₀).chain.dispatch (run Γ n m₀).referent command.name target = .error f →
      (run Γ n m₀).Refuses Γ f

theorem fitting_run (h : m.chain.Fitting Γ) (horders : m.Orders) (n : Nat) :
    (run Γ n m).chain.Fitting Γ := by
  induction n with
  | zero => exact h
  | succ n ih =>
    rw [run_succ]
    exact fitting_step ih (horders.run n).counts.installations

/-- In every run of every program, commands reach the installations that their targets designate,
where labels are words and nothing is put on the chain by hand that is marked as finished; and no
dispatch of an orderly program breaks an invariant of the runtime instead. -/
theorem commands_reach_targets (settings : SettingsSlot) (cells : List ω) (statics : List Owned)
    (main : Comp ω) (n : Nat)
    (hrunning : (run Γ n (start settings cells statics main)).control.isFatal = false)
    (hword : ∀ k ≤ n,
      retiredLabel ≤ (run Γ k (start settings cells statics main)).chain.nextLabel)
    (hbare : ∀ k < n, ∀ name clauses next,
      ¬ (run Γ k (start settings cells statics main)).Evaluates
        (.pushBare retiredLabel name clauses next)) :
    Dispatches Γ (start settings cells statics main) n ∧
      (Γ.Orderly → main.Orderly → settings.use.1.stackSize + StackPool.margin < Word.count →
        ∀ k, ¬ (run Γ k (start settings cells statics main)).Broken) := by
  refine ⟨?_, (results_delivered settings cells statics main).2⟩
  have horders : (start settings cells statics main).Orders := orders_start ..
  have htidy : (run Γ n (start settings cells statics main)).Tidy := (tidy_start ..).run n
  have hfits : (run Γ n (start settings cells statics main)).chain.Fitting Γ :=
    fitting_run .initial horders n
  have hunmarked : ∀ i, ((start settings cells statics main).chain.get i).label ≠ retiredLabel := by
    intro i
    show (Chain.initial.get i).label ≠ retiredLabel
    rw [Chain.get_initial]
    decide
  generalize start settings cells statics main = m₀ at *
  obtain ⟨live, cuts, hlays⟩ := (horders.run (Γ := Γ) n).laid hrunning
  have hreads := hlays.arranged.reads
  have hissued : ∀ i ∈ (run Γ n m₀).chain.live, i < (run Γ n m₀).chain.installations.next := by
    intro i hi
    rw [hreads.live_eq] at hi
    obtain ⟨a, ha⟩ := Option.isSome_iff_exists.mp (hlays.arranged.found i (List.mem_append_left _ hi))
    exact Store.lt_next hlays.arranged.wellFormed ha
  have hunfinished : (run Γ n m₀).chain.Unfinished := by
    intro i hi hlabel
    have hreturned := run_retired horders hunmarked n hword hbare hlabel
    exact (notMem_live_iff horders hrunning (hissued i hi)).mpr (.inr (.inr (.inl hreturned))) hi
  exact
    { decides := fun command target => hreads.decides hunfinished _ command target
      locates := fun search => hreads.locates _ search
      stale := fun r i hr => by
        refine notMem_live_iff horders hrunning ?_
        have hheld := contains_of_reference hr ((horders.run (Γ := Γ) n).spare i)
        obtain ⟨a, ha⟩ := Option.isSome_iff_exists.mp hheld
        exact Store.lt_next hlays.arranged.wellFormed ha
      serves := fun target command next i position hm hdispatch => by
        obtain ⟨hi, -, hposition⟩ := ((hreads.decides hunfinished _ command.name target).goes i
          position).mp hdispatch
        exact hm.serves htidy (horders.run n) hfits (hissued i hi.mem_live) hdispatch hposition
      refuses := fun target command next f hm hdispatch => hm.refuses hdispatch }

/-- The command of `asking` is sent after two steps. -/
theorem commands_reach_targets_asking :
    (run reader 2 (start {} [()] [] asking)).Evaluates
        (.invoke .innermost { name := "Ask" } .done) ∧
      Dispatches reader (start {} [()] [] asking) 2 ∧
      ∀ k, ¬ (run reader k (start {} [()] [] asking)).Broken := by
  have hword : ∀ k ≤ 2,
      retiredLabel ≤ (run reader k (start {} [()] [] asking)).chain.nextLabel := by
    intro k hk
    match k, hk with
    | 0, _ | 1, _ | 2, _ => decide
  have hbare : ∀ k < 2, ∀ name clauses next,
      ¬ (run reader k (start {} [()] [] asking)).Evaluates
        (.pushBare retiredLabel name clauses next) := by
    rintro k hk name clauses next ⟨-, hcontrol⟩
    match k, hk with
    | 0, _ | 1, _ => cases hcontrol
  obtain ⟨hdispatches, hbroken⟩ :=
    commands_reach_targets {} [()] [] asking 2 rfl hword hbare
  exact ⟨⟨rfl, rfl⟩, hdispatches, hbroken reader_orderly asking_orderly (by decide)⟩

/-! ### After a panic -/

/-- A library with one handler type, whose clause panics. -/
def failing : Library Unit where
  handlerType _ :=
    { answer := "i64"
      clauses := [⟨"Ask", .resumptive fun _ _ _ => .panic "clause ran"⟩] }

/-- A program that catches the panic of a body, and then sends a command. -/
def stranding : Comp Unit :=
  .catching
    (.handle { handlerType := "Failing", handler := 1 } (fun _ => .panic "body failed") .done)
    fun _ => .invoke .innermost { name := "Ask" } .done

/-- Unwinding leaves the installation of a body that panicked on the chain. A command still goes to
it, but nobody drives it: its clause does not start, and the thread ends with another fault. -/
theorem stranded_unserved :
    (run failing 14 (start {} [()] [] stranding)).Evaluates
        (.invoke .innermost { name := "Ask" } .done) ∧
      (run failing 14 (start {} [()] [] stranding)).chain.Designates
        (run failing 14 (start {} [()] [] stranding)).referent "Ask" .innermost 1 ∧
      ((run failing 14 (start {} [()] [] stranding)).chain.get 1).clauseFor? "Ask" = some 0 ∧
      (∀ k e command i position,
        ¬ (run failing (14 + k) (start {} [()] [] stranding)).Starts failing e command i position) ∧
      ∃ listing, (run failing 17 (start {} [()] [] stranding)).control =
        .halted (.fatal (.notInFiber "Ask") listing) := by
  refine ⟨⟨rfl, rfl⟩, ⟨[], [], rfl, rfl, by simp⟩, rfl, ?_, ⟨_, rfl⟩⟩
  rintro k e command i position ⟨code, ⟨-, heval, -⟩, -⟩
  rw [← run_succ] at heval
  match k with
  | 0 | 1 => cases heval
  | d + 2 =>
    have hended : (run failing 17 (start {} [()] [] stranding)).control = .halted
        (.fatal (.notInFiber "Ask") _) := rfl
    rw [show 14 + (d + 2) + 1 = 17 + d by omega, run_add, control_run_halted hended d] at heval
    cases heval

end EffectHandlers.Machine
