import EffectHandlers.Proofs.Evaluating
/-!
# The chain mirrors the drivers

The chain and the fibers are two records of the same thing: what is installed where the running
code stands. Here the statement is read off a machine alone, without a layout: which drivers
wait, what plain clauses hide from the running code, and what is suspended on a parked fiber.
-/

namespace EffectHandlers

variable {ω : Type} {c : Chain} {S : List (Activation ω)} {B is : List InstallationId}
  {i : InstallationId}

/-! ### What can be read off a machine -/

/-- The installations of a segment, top first. -/
def Chain.segmentList (c : Chain) (s : Segment) : List InstallationId :=
  c.follow c.installations.next s.top

/-- The installations that the plain clauses in a piece of code hide. -/
def hiddenIn (c : Chain) (S : List (Activation ω)) : List InstallationId :=
  S.flatMap fun
    | .inPlace _ _ hidden _ => c.segmentList hidden
    | _ => []

/-- The installation whose driver waits for the fiber that it resumed. -/
def Resumer.driver? (r : Resumer (List (Activation ω))) : Option InstallationId :=
  match r.code with
  | .driving i f :: _ => if f = r.fiber then some i else none
  | _ => none

/-- The installations of the drivers that wait for the running fibers, the innermost first. -/
def Machine.blocked (m : Machine ω) : List InstallationId :=
  m.fibers.resumers.filterMap Resumer.driver?

/-- A parked fiber is suspended with this code, that of the fibers which its drivers wait for
included, top first. -/
inductive Fibers.Suspends (fs : Fibers (List (Activation ω))) :
    FiberId → List (Activation ω) → Prop
  | invoker {f i e modifier command S}
      (hfound : fs.parked.find? f = some (.sending i e modifier command :: S)) :
      fs.Suspends f (.sending i e modifier command :: S)
  | driver {f i f' code S} (hfound : fs.parked.find? f = some (.driving i f' :: S))
      (habove : fs.Suspends f' code) : fs.Suspends f (code ++ .driving i f' :: S)

/-- The chain mirrors the drivers, where code runs and in every captured continuation. -/
structure Machine.Mirrors (m : Machine ω) : Prop where
  /-- Every running fiber has a driver that waits for it. -/
  driven : ∀ r ∈ m.fibers.resumers, r.driver?.isSome
  /-- The live chain, down to the bottom. -/
  live : m.chain.toList =
    m.blocked.filter (· ∉ hiddenIn m.chain (m.stack ++ m.waiting)) ++ [0]
  /-- The segment of a captured continuation. Its lowest installation is the one whose driver
  waits for the fiber as soon as the continuation is resumed. -/
  captured : ∀ answer f segment e, .captured answer f segment e ∈ m.conts →
    ∃ code, m.fibers.Suspends f code ∧ m.chain.segmentList segment =
      (drivers code ++ [segment.lowest]).filter (· ∉ hiddenIn m.chain code)
  /-- Native code sees an empty chain. -/
  native : m.fibers.current = none → m.chain.live = []

/-! ### Hidden installations -/

namespace Chain

/-- Following the links of a segment visits all of it. -/
theorem follow_segment {n : Nat} (hlen : is.length ≤ n) (h : c.Linked (some i) is none) :
    c.follow n i = is := by
  induction is generalizing i n with
  | nil => cases h
  | cons j is ih =>
    obtain ⟨hj, hrest⟩ := h
    obtain rfl : i = j := by simpa using hj
    obtain ⟨n, rfl⟩ : ∃ k, n = k + 1 := ⟨n - 1, by simp at hlen; omega⟩
    cases hbelow : (c.get i).below with
    | none =>
      have his : is = [] := by
        cases is with
        | nil => rfl
        | cons k is => simp [Linked, hbelow] at hrest
      simp [follow, hbelow, his]
    | some k =>
      rw [hbelow] at hrest
      simp [follow, hbelow, ih (by simpa using hlen) hrest]

end Chain

/-- What is hidden by a plain clause was exposed below it; so what stays exposed are the drivers
that no plain clause hides. -/
theorem Hides.exposed_eq (hnodup : (drivers S ++ B).Nodup)
    (hshort : ∀ is : List InstallationId, is.Nodup → is ⊆ drivers S ++ B →
      is.length ≤ c.installations.next) (h : Hides c B S) :
    exposed B S = (drivers S ++ B).filter (· ∉ hiddenIn c S) ∧ hiddenIn c S ⊆ drivers S ++ B := by
  induction S with
  | nil => simp [hiddenIn]
  | cons a S ih =>
    cases a
    case driving k f =>
      obtain ⟨hk, hrest⟩ := List.nodup_cons.mp hnodup
      obtain ⟨heq, hsub⟩ := ih hrest
        (fun is his hin => hshort is his fun j hj => List.mem_cons_of_mem _ (hin hj)) h
      have hhidden : hiddenIn c (.driving k f :: S) = hiddenIn c S := rfl
      have hvisible : k ∉ hiddenIn c S := fun hmem => hk (hsub hmem)
      refine ⟨?_, fun j hj => List.mem_cons_of_mem _ (hsub hj)⟩
      rw [hhidden, drivers_cons]
      simp [Activation.expose, Activation.driver?, heq, hvisible]
    case inPlace k hd hidden e =>
      obtain ⟨-, -, hlinked, hrest⟩ := h
      obtain ⟨heq, hsub⟩ := ih hnodup hshort hrest
      have hexposed : (exposed B S).Nodup := hnodup.sublist (exposed_sublist B S)
      have hsplit := takeThrough_append_dropThrough k (exposed B S)
      have htaken : takeThrough k (exposed B S) ⊆ drivers S ++ B := fun j hj =>
        (exposed_sublist B S).subset (hsplit ▸ List.mem_append_left _ hj)
      have hlist : c.segmentList hidden = takeThrough k (exposed B S) := by
        refine Chain.follow_segment (hshort _ ?_ htaken) hlinked
        exact (List.nodup_append.mp (hsplit ▸ hexposed)).1
      have hhidden : hiddenIn c (.inPlace k hd hidden e :: S) =
          takeThrough k (exposed B S) ++ hiddenIn c S := by
        rw [← hlist]
        rfl
      refine ⟨?_, ?_⟩
      · calc exposed B (.inPlace k hd hidden e :: S)
            = (exposed B S).filter (· ∉ takeThrough k (exposed B S)) :=
              (filter_notMem_takeThrough hexposed).symm
          _ = (drivers S ++ B).filter
                (fun j => j ∉ takeThrough k (exposed B S) ∧ j ∉ hiddenIn c S) := by
              conv => lhs; arg 2; rw [heq]
              rw [List.filter_filter]
              simp
          _ = (drivers S ++ B).filter
                (· ∉ hiddenIn c (.inPlace k hd hidden e :: S)) := by
              rw [hhidden]
              simp
      · rw [hhidden]
        exact List.append_subset.mpr ⟨htaken, hsub⟩
    all_goals exact ih hnodup hshort h

/-! ### Sound states mirror -/

/-- The drivers that wait are those in the waiting code. -/
theorem Waiters.drivers_eq {cur : Option FiberId} {rs : List (Resumer (List (Activation ω)))}
    (h : Waiters cur rs) : drivers (rs.flatMap (·.code)) = rs.filterMap Resumer.driver? ∧
      ∀ r ∈ rs, r.driver?.isSome := by
  induction h with
  | native => exact ⟨rfl, by simp⟩
  | @fiber i f cur rs code hcode hrest ih =>
    obtain ⟨S, rfl, hS⟩ := hcode
    have hdriver : Resumer.driver? ⟨f, cur, .driving i f :: .stepping :: S⟩ = some i := by
      simp [Resumer.driver?]
    refine ⟨?_, ?_⟩
    · simp [drivers_append, drivers_cons, Activation.driver?, hS.drivers_eq, hdriver, ih.1]
    · intro r hr
      rcases List.mem_cons.mp hr with rfl | hr
      · simp [hdriver]
      · exact ih.2 r hr

/-- Nothing waits for native code. -/
theorem Waiters.eq_nil {rs : List (Resumer (List (Activation ω)))} (h : Waiters none rs) :
    rs = [] := by
  cases h
  rfl

/-- The fibers of a tower that are all parked are suspended with the code of the tower. -/
theorem Tower.suspends {fs : Fibers (List (Activation ω))} {t : Tower ω}
    (hparked : ∀ e ∈ t.entries, fs.parked.find? e.1 = some e.2) : fs.Suspends t.root t.code := by
  induction t with
  | invoker f i e modifier command rest =>
    exact .invoker (hparked (f, .sending i e modifier command :: rest)
      (by simp [entries, root, stack]))
  | driver f i above rest ih =>
    refine .driver (hparked (f, .driving i above.root :: .stepping :: rest) ?_)
      (ih fun e he => hparked e ?_)
    · simp [entries, root, stack]
    · simp [entries, he]

namespace Placed

variable {kept : List (Kept ω)}

/-- There are no more driven installations than numbers. -/
theorem short (h : Placed c S kept) (his : is.Nodup) (hsub : is ⊆ driven S kept) :
    is.length ≤ c.installations.next :=
  Nat.le_of_lt (Chain.length_lt_next h.wellFormed his (fun hmem => h.nonzero (hsub hmem))
    (fun i hi => h.found i (hsub hi)) h.positive)

/-- The live chain holds the drivers that no plain clause hides. -/
theorem exposed_eq (h : Placed c S kept) :
    exposed [] S = (drivers S).filter (· ∉ hiddenIn c S) := by
  have hnodup : (drivers S ++ []).Nodup := by
    simpa using (List.nodup_append.mp h.nodup).1
  have heq := (h.hides.exposed_eq hnodup fun is his hin => h.short his fun i hi =>
    List.mem_append_left _ (by simpa using hin hi)).1
  simpa using heq

/-- The segment of a captured continuation holds the drivers in its code that no plain clause
hides, and below them the installation that it was captured for. -/
theorem segmentList_eq (h : Placed c S kept) {k : Kept ω} (hk : k ∈ kept) :
    c.segmentList k.segment = (drivers k.tower.code ++ [k.segment.lowest]).filter
      (· ∉ hiddenIn c k.tower.code) := by
  have hsub : k.installations ⊆ driven S kept := fun i hi =>
    List.mem_append_right _ (List.mem_flatMap.mpr ⟨k, hk, hi⟩)
  have hnodup : k.installations.Nodup := by
    have hall := (List.nodup_append.mp h.nodup).2.1
    obtain ⟨l₁, l₂, rfl⟩ := List.append_of_mem hk
    simp only [List.flatMap_append, List.flatMap_cons] at hall
    exact (List.nodup_append.mp (List.nodup_append.mp hall).2.1).1
  have hfits := h.fits k hk
  have heq := (hfits.hides.exposed_eq hnodup fun is his hin => h.short his fun i hi =>
    hsub (hin hi)).1
  rw [← heq]
  refine Chain.follow_segment (h.short ?_ ?_) hfits.linked
  · exact hnodup.sublist (exposed_sublist _ _)
  · exact fun i hi => hsub ((exposed_sublist _ _).subset hi)

end Placed

/-- Where code runs in a sound state, the chain mirrors the drivers. -/
theorem Sound.mirrors {Γ : Library ω} {m : Machine ω} {l : Layout ω} (h : Sound Γ m l)
    {c : Comp ω} (hcontrol : m.control = .eval c) : m.Mirrors := by
  obtain ⟨hfront, -, -, hready⟩ := h.of_eval hcontrol
  have hplaced := h.placed
  rw [hfront] at hplaced
  have hwaiting := h.parks.waiters.drivers_eq
  have hdrivers : drivers (m.stack ++ m.waiting) = m.blocked := by
    rw [drivers_append, hready.drivers_eq, List.nil_append]
    exact hwaiting.1
  have hlive : exposed [] (m.stack ++ m.waiting) =
      m.blocked.filter (· ∉ hiddenIn m.chain (m.stack ++ m.waiting)) := by
    rw [hplaced.exposed_eq, hdrivers]
  refine ⟨hwaiting.2, ?_, ?_, ?_⟩
  · have hreads := hplaced.reads
    rw [← hlive]
    exact Chain.follow_of_linked hreads.bottom hreads.fits hreads.linked
  · intro answer f segment e hk
    obtain ⟨K, hK, hcont⟩ := h.exists_kept hk rfl
    simp only [Kept.cont, Cont.captured.injEq] at hcont
    obtain ⟨-, rfl, rfl, -⟩ := hcont
    refine ⟨K.tower.code, Tower.suspends fun e he => ?_, hplaced.segmentList_eq hK⟩
    rw [Store.find?_eq_some_iff h.parks.wellFormed]
    refine h.parks.entries.mem_iff.mpr ?_
    refine List.mem_flatMap.mpr ⟨K.tower, ?_, he⟩
    exact List.mem_append_right _ (List.mem_append_left _ (List.mem_map_of_mem hK))
  · intro hnative
    have hnone : m.fibers.resumers = [] := (hnative ▸ h.parks.waiters).eq_nil
    rw [hplaced.reads.live_eq, hlive]
    simp [Machine.blocked, hnone]

/-- The chain mirrors the drivers at every moment of every run of an orderly program at which code
runs: the live chain consists of the installations of the drivers that wait for the running
fibers, without those that plain clauses hide, and so does the segment of every captured
continuation, for the fibers that it goes on with. -/
theorem chain_mirrors_drivers [Contents ω] {Γ : Library ω} {settings : SettingsSlot}
    {cells : List ω} {statics : List Owned} {main c : Comp ω} (hΓ : Γ.Orderly)
    (hmain : main.Orderly) (hsize : settings.use.1.stackSize + StackPool.margin < Word.count)
    (n : Nat) (hcontrol :
      (Machine.run Γ n (Machine.start settings cells statics main)).control = .eval c) :
    (Machine.run Γ n (Machine.start settings cells statics main)).Mirrors := by
  have hgood := (Good.sound _ (Sound.start cells statics hmain hsize)).run n hΓ
  cases hgood with
  | sound l h => exact h.mirrors hcontrol
  | fault hfault => simp [hcontrol] at hfault
  | halted hhalted => simp [hcontrol] at hhalted

instance : Contents Unit := ⟨fun _ => []⟩

/-- A library with one handler type, whose clause resumes with 2. -/
def reader : Library Unit where
  handlerType _ :=
    { answer := "i64"
      clauses := [⟨"Ask", .resumptive fun _ _ r => .resume r (.int 2) .done⟩] }

/-- A program that handles one command. -/
def asking : Comp Unit :=
  .handle { handlerType := "Reader", handler := 1 }
    (fun _ => .invoke .innermost { name := "Ask" } .done) .done

theorem reader_orderly : reader.Orderly where
  clauses t c hc := by
    simp only [reader, List.mem_singleton] at hc
    subst hc
    exact fun _ _ _ _ => trivial
  onReturn _ _ _ := trivial
  procedure _ _ := trivial

theorem asking_orderly : asking.Orderly := ⟨fun _ _ => trivial, fun _ => trivial⟩

/-- While the clause of `asking` runs, with the continuation of the body captured. -/
theorem chain_mirrors_drivers_asking :
    (Machine.run reader 4 (Machine.start {} [()] [] asking)).Mirrors :=
  chain_mirrors_drivers reader_orderly asking_orderly (by decide) 4
    (c := .resume 1 (.int 2) .done) rfl

end EffectHandlers
