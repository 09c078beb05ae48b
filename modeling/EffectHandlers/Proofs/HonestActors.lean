import EffectHandlers.Client.Actor
import EffectHandlers.Client.Library
import EffectHandlers.Proofs.HonestPrograms
/-!
# Actors are honest

The pool owns the flags and the resumptions of parked actors, and each actor owns its mailbox and a share
of the pool. Nobody uses what he has given away.
-/

namespace EffectHandlers.Actor

/-- What is agreed on between actors: nothing about values and contents. -/
def regime : Regime Content where
  types t := t = handlerName
  kept := [Transcript.cell]
  zero_not_mem := by decide
  value _ := True
  shape _ := True
  value_snd := fun _ => trivial
  shape_default := trivial

variable {B G H X : List Owned} {K : Knowledge} {pool : CellId} {owned : List Owned} {me : Mailbox}

/-- Code to which the transcript is lent. -/
theorem transcript_mem (hB : regime.base ⊆ B) : .cell Transcript.cell ∈ B :=
  hB (by simp [Regime.base, regime])

/-! ### The pool -/

/-- The pool that is seen in a cell with these contents. -/
def asPool : Content → ActorPool
  | .pool p => p
  | _ => { label := 0, current := 0 }

theorem readPool_eq (c : CellId) (k : ActorPool → Comp Content) :
    readPool c k = .read c fun y => k (asPool y) :=
  congrArg (Comp.read c) (funext fun y => by cases y <;> rfl)

theorem honest_readPool {k : ActorPool → Comp Content} (hpool : InReach B K H (.cell pool))
    (h : ∀ p, (k p).Honest regime B ((pool, (Content.pool p).owned) :: K) H [] X) :
    (readPool pool k).Honest regime B K H [] X := by
  rw [readPool_eq]
  refine .read (fun y => (Content.pool (asPool y)).owned) hpool (fun y _ => ?_) fun y _ => h _
  cases y with
  | pool p => exact .refl _
  | _ => exact .zero _

/-- The pool is replaced by one that owns what the old one owned, or the hand did. -/
theorem honest_writePool {p p' : ActorPool} {k : Unit → Comp Content}
    (hpool : InReach B K H (.cell pool)) (hp : (pool, (Content.pool p).owned) ∈ K)
    (hpays : Affords (H ++ (Content.pool p).owned) ((Content.pool p').owned ++ G))
    (h : (k ()).Honest regime B (K.filter (·.1 ≠ pool)) G [] X) :
    (writePool pool p' k).Honest regime B K H [] X :=
  .write (Content.pool p).owned G [] trivial hpool (.inr hp) (by simp)
    (by rw [List.append_nil, List.append_nil]; exact hpays) h

/-- Only flags of parked actors are read. -/
theorem honest_firstReady {as : List ParkedActor}
    {k : Option (ParkedActor × List ParkedActor) → Comp Content}
    (hreach : ∀ a ∈ as, InReach B K H (.cell a.waiting)) (hnone : (k none).Honest regime B K H [] X)
    (hsome : ∀ a others, (as.flatMap ParkedActor.owned).Perm
      (a.owned ++ others.flatMap ParkedActor.owned) →
        (k (some (a, others))).Honest regime B K H [] X) :
    (firstReady as k).Honest regime B K H [] X := by
  induction as generalizing k with
  | nil => exact hnone
  | cons a as ih =>
    refine Task.honest_readValue (hreach a List.mem_cons_self) fun v _ => Comp.Honest.mono
      (K := K) ?_ (List.Subset.refl _) (List.subset_cons_self ..) (.refl _)
    show Comp.Honest regime B K H [] X ((if v.isTrue then _ else _ : Task _) k)
    split
    · refine ih (fun a ha => hreach a (List.mem_cons_of_mem _ ha)) hnone fun b others hperm => ?_
      refine hsome b (a :: others) ?_
      simp only [List.flatMap_cons]
      exact (hperm.append_left _).trans (by
        rw [← List.append_assoc, ← List.append_assoc]
        exact List.perm_append_comm.append_right _)
    · exact hsome a as (.refl _)

/-- The next actor takes over from the one that runs, or all that are left are given up. -/
theorem honest_wake (hpool : .cell pool ∈ B) :
    (wake pool .done).Honest regime B K H [] [] := by
  refine honest_readPool (.lent hpool) fun p => ?_
  have hknown : (pool, (Content.pool p).owned) ∈ (pool, (Content.pool p).owned) :: K :=
    List.mem_cons_self
  refine honest_firstReady (fun a ha => .known hknown ?_) ?_ fun a others hperm => ?_
  · exact List.mem_cons_of_mem _ (List.mem_flatMap.mpr ⟨a, ha, by simp [ParkedActor.owned]⟩)
  · refine honest_writePool (G := p.active.flatMap ParkedActor.owned) (.lent hpool) hknown
      (.of_count fun o => ?_) (.record (.release [] (.of_count fun o => ?_) (.done trivial ?_)))
    · simp only [Content.owned, List.flatMap_nil, List.count_append, List.count_cons, List.count_nil]
      omega
    · simp
    · exact .nil _
  · refine honest_writePool (G := [.cell p.current, .resumption a.resumption]) (.lent hpool) hknown
      (.of_count fun o => ?_) (.release [.resumption a.resumption] (.refl _)
        (.tailResume [] (.hand List.mem_cons_self) trivial (.nil _) (.done trivial (.nil _))))
    have hcount := hperm.count_eq o
    simp only [ParkedActor.owned, Content.owned, List.count_append, List.count_cons,
      List.count_nil] at hcount ⊢
    omega

/-- An actor is parked with a share of its flag. -/
theorem honest_park {a : ParkedActor} {k : Unit → Comp Content} (hpool : InReach B K H (.cell pool))
    (hpays : Affords H (a.owned ++ G)) (h : (k ()).Honest regime B [] G [] X) :
    (park pool a k).Honest regime B K H [] X := by
  refine honest_readPool hpool fun p => honest_writePool
    (hpool.mono (List.Subset.refl _) (List.subset_cons_self ..) (.refl _)) List.mem_cons_self ?_
    h.forget
  intro o ho
  have := hpays o ho
  simp only [Content.owned, List.flatMap_append, List.flatMap_cons, List.flatMap_nil, List.append_nil,
    List.count_append, List.count_cons] at this ⊢
  omega

/-! ### The handler -/

theorem library_honest {Γ : Library Content} (hhandler : Γ.handlerType handlerName = handler) :
    Γ.Honest regime where
  clauses := by
    rintro t rfl clause hclause
    rw [hhandler] at hclause
    simp only [handler, List.mem_cons, List.not_mem_nil, or_false] at hclause
    rcases hclause with rfl | rfl
    · refine ⟨_, rfl, fun pool hpool payload os r hos => ?_⟩
      have hmem : Owned.cell pool ∈ (.resumption r :: os) ++ .cell pool :: regime.base :=
        List.mem_append_right _ List.mem_cons_self
      refine honest_readPool (.lent hmem) fun p => .retain (.known List.mem_cons_self (by
        simp [Content.owned])) (.take (.lent List.mem_cons_self) fun r' => ?_)
      exact honest_park (G := []) (.lent hmem) (.of_perm (.swap _ _ _)) (honest_wake hmem)
    · refine ⟨_, rfl, fun pool hpool payload os r hos => ?_⟩
      have hmem : Owned.cell pool ∈ (.resumption r :: os) ++ .cell pool :: regime.base :=
        List.mem_append_right _ List.mem_cons_self
      have htail : ∀ {H : List Owned} {K : Knowledge}, (Prog.tail r .unit .unit Comp.done).Honest regime
          ((.resumption r :: os) ++ .cell pool :: regime.base) K H [] [] :=
        .tailResume [] (.lent List.mem_cons_self) trivial (.nil _) (.done trivial (.nil _))
      dsimp only [Prog.toComp]
      split
      · rename_i waiting start
        have hreach : ∀ o ∈ [Owned.cell waiting, .closure start], o.Matters → o ∈ os :=
          fun o ho hmatters => hos.mem hmatters ho
        refine .retain (fun ho => .inr (.inl ?_)) (.function (fun ho => .inr (.inl ?_)) fun r' => ?_)
        · exact List.mem_append_left _ (List.mem_cons_of_mem _ (hreach _ (by simp) ho))
        · exact List.mem_append_left _ (List.mem_cons_of_mem _ (hreach _ (by simp) ho))
        · exact honest_park (G := []) (.lent hmem) (.of_perm (.swap _ _ _)) htail
      · exact htail
  onReturn := by
    rintro t rfl pool hpool v -
    rw [hhandler]
    refine honest_readPool (.lent List.mem_cons_self) fun p => ?_
    show Comp.Honest _ _ _ _ _ _
      ((if p.active.isEmpty then pure Value.unit else wake pool : Task Value) .done)
    split
    · exact .done trivial (.nil _)
    · exact honest_wake List.mem_cons_self

/-! ### Actors -/

/-- A new actor has a share of its pool and of each of its cells. -/
theorem honest_newMailbox {k : Mailbox → Comp Content} (hpool : InReach B K H (.cell pool))
    (h : ∀ m : Mailbox, m.pool = pool → m.inbox ∉ regime.kept → m.waiting ∉ regime.kept →
      (k m).Honest regime B K (m.owned ++ H) [] X) :
    (newMailbox pool k).Honest regime B K H [] X := by
  refine .retain hpool (.alloc _ trivial (.refl _) fun inbox hinbox => .alloc _ trivial (.refl _)
    fun waiting hwaiting => (h ⟨pool, inbox, waiting⟩ rfl hinbox hwaiting).mono
      (List.Subset.refl _) (List.Subset.refl _) (.of_count fun o => ?_))
  simp only [Mailbox.owned, List.count_cons, List.cons_append, List.nil_append]
  omega

/-- An actor that starts pays with its flag and what its body owns. -/
theorem honest_start {waiting : CellId} {body : Task Value} {k : Value → Comp Content}
    (hpool : .cell pool ∈ B) (hkept : pool ∉ regime.kept) (hpays : Affords H (.cell waiting :: owned))
    (hbody : ∀ this, body.toComp.Honest regime ((owned ++ [.reference this]) ++ regime.base)
      [] [] [] [])
    (h : ∀ v, (k v).Honest regime B [] v.owned [] X) :
    (start pool waiting owned body k).Honest regime B K H [] X := by
  refine honest_readPool (.lent hpool) fun p => honest_writePool (G := .cell p.current :: owned)
    (.lent hpool) List.mem_cons_self ?_ (.release owned (.refl _) (.retain (.lent hpool)
      (.handle rfl hkept ?_ hbody fun v _ => h v)))
  · intro o ho
    have := hpays o ho
    simp only [Content.owned, List.count_append, List.count_cons] at this ⊢
    omega
  · exact .of_count fun o => by simp [List.count_append, List.count_cons]

/-- A pool runs its first actor. -/
theorem honest_run {main : Mailbox → Task Value} {k : Value → Comp Content}
    (hmain : ∀ me : Mailbox, me.pool ∉ regime.kept → ∀ this, (main me).toComp.Honest regime
      (((owned ++ me.owned) ++ [.reference this]) ++ regime.base) [] [] [] [])
    (hpays : Affords H owned) (h : ∀ v, (k v).Honest regime B [] v.owned [] X) :
    (run owned main k).Honest regime B K H [] X := by
  refine .ask rfl (by simp) fun label => .alloc H trivial (.refl _) fun current _ =>
    .alloc H trivial (.refl _) fun pool hpool => honest_newMailbox (.hand List.mem_cons_self)
      fun me hme hinbox hwaiting => .retain (.hand (by simp [Mailbox.owned])) ?_
  obtain rfl := hme
  refine .scope (.cell me.waiting :: (H ++ me.owned)) [] (.of_count fun o => ?_) ?_ fun v _ => ?_
  · simp only [List.count_append, List.count_cons, List.count_nil]
    omega
  · refine honest_start List.mem_cons_self hpool ((hpays.append_right _).cons _) (hmain me hpool)
      fun v => honest_readPool (.lent List.mem_cons_self) fun ⟨_, _, _, deadlock⟩ => ?_
    cases deadlock with
    | none | some => exact .done trivial (.nil _)
  · exact (h v).mono (List.Subset.refl _) (List.Subset.refl _) (.of_append (.refl _))

theorem honest_yield {k : Unit → Comp Content} (hpool : InReach B K H (.cell pool))
    (h : (k ()).Honest regime B [] [] [] X) : (yield pool k).Honest regime B K H [] X :=
  honest_readPool hpool fun _ => .invoke rfl (.nil _) (.refl _) fun _ _ =>
    h.mono (List.Subset.refl _) (List.Subset.refl _) (.nil _)

/-- An address that is lent to code. -/
structure Reachable (B : List Owned) (m : Mailbox) : Prop where
  pool : .cell m.pool ∈ B
  inbox : .cell m.inbox ∈ B
  waiting : .cell m.waiting ∈ B

/-- Who owns the address lends it to the code above. -/
theorem Reachable.of_subset {m : Mailbox} (h : m.owned ⊆ B) : Reachable B m :=
  ⟨h (by simp [Mailbox.owned]), h (by simp [Mailbox.owned]), h (by simp [Mailbox.owned])⟩

/-- Shares of an address can be added to the hand. -/
theorem Reachable.shares {m : Mailbox} (h : Reachable B m) :
    ∀ o ∈ m.owned, ∃ c, o = .cell c ∧ InReach B K H o := by
  intro o ho
  simp only [Mailbox.owned, List.mem_cons, List.not_mem_nil, or_false] at ho
  rcases ho with rfl | rfl | rfl
  · exact ⟨_, rfl, .lent h.pool⟩
  · exact ⟨_, rfl, .lent h.inbox⟩
  · exact ⟨_, rfl, .lent h.waiting⟩

theorem honest_send {address : Mailbox} {message : Value} {k : Unit → Comp Content}
    (haddress : Reachable B address) (hpays : Affords H message.owned)
    (h : (k ()).Honest regime B [] [] [] X) : (send address message k).Honest regime B K H [] X := by
  refine Task.honest_writeValue (ρ := regime) (G := H) (k := fun _ =>
    Task.pushBack address.inbox message fun _ => yield address.pool k) trivial
    (.lent haddress.waiting) (.refl _) ?_
  exact Task.honest_pushBack (G := []) (fun _ _ => trivial) (.lent haddress.inbox)
    (by simpa using hpays) (honest_yield (.lent haddress.pool) h)

/-- Who receives a message gets what it owns. -/
theorem honest_receive {k : Value → Comp Content} (hme : Reachable B me)
    (h : ∀ v, (k v).Honest regime B [] v.owned [] X) : (receive me k).Honest regime B K H [] X := by
  refine .loop trivial (.nil _) (fun v _ => Task.honest_popFront (fun _ _ _ => trivial)
    (.lent hme.inbox) ?_ fun message => ?_) fun v _ => h v
  · exact Task.honest_writeValue trivial (.lent hme.waiting) (.refl _)
      (honest_yield (.lent hme.pool) (.done trivial (.refl _)))
  · exact .done trivial (.of_count fun o => by simp [Comp.stop, Value.owned, List.count_append])

/-- A new actor's body owns what it was given, and its mailbox. -/
theorem honest_spawn {body : Mailbox → Task Value} {k : Mailbox → Comp Content}
    (hpool : .cell pool ∈ B) (hkept : pool ∉ regime.kept) (hpays : Affords H owned)
    (hbody : ∀ child : Mailbox, child.pool = pool → ∀ this, (body child).toComp.Honest regime
      (((owned ++ child.owned) ++ [.reference this]) ++ regime.base) [] [] [] [])
    (h : ∀ child : Mailbox, child.pool = pool → ∀ {G}, Affords G child.owned →
      (k child).Honest regime B [] G [] X) :
    (spawn pool owned body k).Honest regime B K H [] X := by
  refine honest_newMailbox (.lent hpool) fun child hchild _ _ => honest_readPool (.lent hpool)
    fun p => Prog.honest_retainAll (fun o ho => ?_) ?_
  · have hmem : o ∈ child.owned := by
      simp only [Mailbox.owned, List.mem_append, List.mem_cons, List.not_mem_nil, hchild] at ho ⊢
      tauto
    obtain ⟨c, rfl, -⟩ := Reachable.shares (H := []) (K := []) (.of_subset (List.Subset.refl _)) o hmem
    exact ⟨c, rfl, .hand (List.mem_append_left _ hmem)⟩
  · let os : List Owned := [.cell pool, .cell child.waiting] ++ owned ++ child.owned
    refine .closure (.cell child.waiting :: child.owned) (?_ : Affords _ (os ++ _)) (fun v _ => ?_)
      fun f => Prog.honest_keeping (G := [.cell child.waiting, .closure f]) (fun o ho => ?_) trivial
        (.of_count fun o => ?_) (fun hk => .invoke rfl (.refl _) (.refl _) fun v _ =>
          hk.mono (List.Subset.refl _) (List.Subset.refl _) (.nil _)) fun hH => h child hchild hH
    · intro o ho
      have := hpays o ho
      simp only [os, List.count_append, List.count_cons, List.count_nil] at this ⊢
      omega
    · refine .scope (.cell child.waiting :: (owned ++ child.owned)) [] (.of_count fun o => ?_)
        (honest_start List.mem_cons_self hkept (.refl _) (hbody child hchild)
          fun v => .done trivial (by simpa using .refl _)) fun v _ => .done trivial (by simpa using .refl _)
      simp only [List.count_append, List.count_cons, List.count_nil]
      omega
    · obtain ⟨c, rfl, -⟩ := Reachable.shares (H := []) (K := []) (.of_subset (List.Subset.refl _)) o ho
      exact ⟨c, rfl⟩
    · simp only [List.count_append, List.count_cons, List.count_nil]
      omega

/-! ### Actors that echo -/

/-- An address in a value is owned with the value. -/
theorem owned_ofValue {v : Value} {m : Mailbox} (h : Mailbox.ofValue? v = some m) :
    v.owned = m.owned := by
  unfold Mailbox.ofValue? at h
  split at h
  · obtain rfl := Option.some.inj h
    rfl
  · cases h

theorem honest_echo (hme : Reachable B me) (hbase : regime.base ⊆ B) :
    (echo me .done).Honest regime B K H [] [] := by
  refine .loop trivial (.nil _) (fun v _ => honest_receive hme fun message => ?_)
    fun v _ => .done trivial (by simpa using .refl _)
  have hagain : ∀ {B K H}, (Comp.done (Comp.again .unit) : Comp Content).Honest regime B K H [] [] :=
    .done trivial (.nil _)
  cases message with
  | pair sender number =>
    cases number with
    | int n =>
      refine .scope [] [] (.refl _) ?_ fun v _ => .done trivial (by simpa using .refl _)
      show Comp.Honest _ _ _ _ _ _ ((if n = -1 then _ else _ : Task Value) .done)
      split
      · exact Transcript.honest_emit (fun _ => trivial)
          (List.mem_append_right _ (transcript_mem hbase)) (.done trivial (.nil _))
      · cases haddress : Mailbox.ofValue? sender with
        | none => exact hagain
        | some address =>
          refine honest_send (.of_subset ?_) (.nil _) hagain
          exact owned_ofValue haddress ▸ List.subset_append_left ..
    | _ => exact hagain
  | _ => exact hagain

theorem honest_sendNumber {address : Mailbox} {n : Int} {k : Unit → Comp Content}
    (hme : Reachable B me) (haddress : Reachable B address)
    (h : (k ()).Honest regime B [] [] [] X) : (sendNumber me address n k).Honest regime B K H [] X :=
  Prog.honest_retainAll hme.shares (honest_send haddress
    (.of_count fun o => by
      simp [Value.owned, Mailbox.toValue, Mailbox.owned, List.count_cons]) h)

theorem honest_starter (rounds : Int) (hme : Reachable B me) (hkept : me.pool ∉ regime.kept)
    (hbase : regime.base ⊆ B) : (starter rounds me .done).Honest regime B K H [] [] := by
  refine honest_spawn hme.pool hkept (.nil _) (fun child hchild this => ?_) fun address _ G hG => ?_
  · exact honest_echo (.of_subset fun o ho => by simp [ho]) (List.subset_append_right ..)
  · refine .scope [] [] (by simpa using hG) ?_ fun v _ => .done trivial (by simpa using .refl _)
    have hme' : Reachable (address.owned ++ B) me := ⟨List.mem_append_right _ hme.pool,
      List.mem_append_right _ hme.inbox, List.mem_append_right _ hme.waiting⟩
    have haddress : Reachable (address.owned ++ B) address := .of_subset (List.subset_append_left ..)
    have htranscript : .cell Transcript.cell ∈ address.owned ++ B :=
      List.mem_append_right _ (transcript_mem hbase)
    refine .loop trivial (.nil _) (fun i _ => ?_) fun v _ =>
      honest_sendNumber hme' haddress (.done trivial (.nil _))
    show Comp.Honest _ _ _ _ _ _ ((if i.toInt < rounds then _ else _ : Task Value) .done)
    split
    · exact Transcript.honest_emit (fun _ => trivial) htranscript
        (honest_sendNumber hme' haddress (honest_receive hme' fun v =>
          Transcript.honest_emit (fun _ => trivial) htranscript (.done trivial (.nil _))))
    · exact .done trivial (.nil _)

/-- The program of two actors is honest. -/
theorem honest_demo (rounds : Int) {k : Unit → Comp Content} (hbase : regime.base ⊆ B)
    (h : (k ()).Honest regime B [] [] [] X) : (demo rounds k).Honest regime B K H [] X := by
  refine honest_run (fun me hkept this => ?_) (.nil _) fun v => ?_
  · exact honest_starter rounds (.of_subset fun o ho => by simp [ho]) hkept
      (List.subset_append_right ..)
  · cases v with
    | present v =>
      exact Transcript.honest_emit (fun _ => trivial) (transcript_mem hbase)
        (h.mono (List.Subset.refl _) (List.Subset.refl _) (.nil _))
    | _ => exact h.mono (List.Subset.refl _) (List.Subset.refl _) (.nil _)

end EffectHandlers.Actor
