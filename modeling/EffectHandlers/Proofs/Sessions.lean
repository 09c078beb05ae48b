import EffectHandlers.Proofs.Arrangement
import EffectHandlers.Session.Chaining
/-!
# Chain sessions on lists

The same sessions on plain lists: the live installations are a list, and so is every segment. As
long as a session pushes again only what is neither live nor part of a segment, and uses a segment
only while there is one, the chain shows what the lists show.
-/

namespace EffectHandlers

/-- An installation without its link. -/
def Installation.unlinked (i : Installation) : Installation := { i with below := none }

@[simp] theorem Installation.listingLine_unlinked (i : Installation) :
    Chain.listingLine i.unlinked = Chain.listingLine i := rfl

/-- Links do not count when an installation was only relinked. -/
theorem Chain.Relinks.unlinked {c c' : Chain} {i : InstallationId} {b : Option InstallationId}
    (h : c.Relinks i b c') (j : InstallationId) : (c'.get j).unlinked = (c.get j).unlinked := by
  have hget : c'.get j = (c.modify i fun x => { x with below := b }).get j := by
    simp only [get, h.installations, modify]
  rw [hget]
  exact get_modify_congr Installation.unlinked _ fun _ => rfl

namespace ChainSession

/-- The state of a session on lists. -/
structure Lists where
  /-- How many installations were pushed; they are numbered from one on. -/
  pushed : Nat := 0
  /-- What is known of an installation; there is nothing to know of a link. -/
  info : InstallationId → Installation := fun _ => Installation.bottom
  /-- The live installations, top first. -/
  live : List InstallationId := []
  /-- The installations of each segment, top first. -/
  segments : Store (List InstallationId) := {}
  nextLabel : Int := -1

namespace Lists

/-- The installations of a segment. -/
def segment (l : Lists) (n : Nat) : List InstallationId := (l.segments.find? n).getD []

/-- The installations of all segments. -/
def cuts (l : Lists) : List (List InstallationId) := l.segments.entries.map (·.2)

/-- The first live installation that satisfies the test. -/
def first? (l : Lists) (p : Installation → Bool) : Option InstallationId :=
  l.live.find? fun i => p (l.info i)

/-- The first live installation that declares the command, with the position of the clause. -/
def declaring? (l : Lists) (command : String) : Option (InstallationId × Nat) :=
  l.live.findSome? fun i => ((l.info i).clauseFor? command).map fun position => (i, position)

/-- Cut the list behind an element. -/
def cutBehind (i : InstallationId) (is : List InstallationId) :
    List InstallationId × List InstallationId :=
  let above := is.takeWhile (· ≠ i)
  (above ++ [i], is.drop (above.length + 1))

/-- One step of a session on lists. -/
def step (l : Lists) : Action → Except Failure (Entry × Lists)
  | .push label name handlerType clauses =>
    let i := l.pushed + 1
    .ok (.number (frameOf i),
      { l with
        pushed := i
        info := Function.update l.info i
          { Installation.bottom with label, name, handlerType, clauses }
        live := i :: l.live })
  | .repush frame => .ok (.number frame, { l with live := idOf frame :: l.live })
  | .pop =>
    match l.live with
    | [] => .error (.fatal (.internal "attempted to pop the bottom of the metastack"))
    | i :: live => .ok (.number (frameOf i), { l with live })
  | .split frame =>
    if idOf frame ∈ l.live then
      let (is, live) := cutBehind (idOf frame) l.live
      .ok (.segment is.length (frameOf (idOf frame)),
        { l with live, segments := (l.segments.insert is).2 })
    else .error (.panic splitPanic)
  | .splice n =>
    let live := l.segment n ++ l.live
    .ok (.number live.length, { l with live, segments := l.segments.erase n })
  | .drop n => .ok (.none, { l with segments := l.segments.erase n })
  | .count n => .ok (.number (l.segment n).length, l)
  | .findCommand command =>
    .ok (match l.declaring? command with
      | some (i, position) => .found (frameOf i) position
      | none => .none, l)
  | .findLabel label =>
    .ok (State.step.frame (if label = bottomLabel ∨ label = retiredLabel then none
      else l.first? (·.label == label)), l)
  | .findType handlerType => .ok (State.step.frame (l.first? (·.handlerType == handlerType)), l)
  | .contains frame => .ok (.flag (idOf frame ∈ l.live), l)
  | .depth => .ok (.number l.live.length, l)
  | .snapshot => .ok (.snapshot (l.live.map fun i => ((l.info i).label, (l.info i).name)), l)
  | .write =>
    .ok (.lines (Chain.listingHeading ::
      (l.live ++ [0]).map fun i => Chain.listingLine (l.info i)), l)
  | .top => .ok (.number (frameOf (l.live.headD 0)), l)
  | .retire frame =>
    .ok (.none,
      { l with
        info := Function.update l.info (idOf frame)
          { l.info (idOf frame) with label := retiredLabel } })
  | .isRetired frame => .ok (.flag (l.info (idOf frame)).isRetired, l)
  | .label frame => .ok (.number (l.info (idOf frame)).label, l)
  | .name frame => .ok (.name (l.info (idOf frame)).name, l)
  | .isType frame handlerType => .ok (.flag ((l.info (idOf frame)).handlerType == handlerType), l)
  | .clauses frame =>
    let i := l.info (idOf frame)
    .ok (.clauses (i.clauses.map fun e => (e.name, e.modifier, i.clauseFor? e.command)), l)
  | .fresh => .ok (.number l.nextLabel, { l with nextLabel := l.nextLabel - 1 })
  | .isIssued label =>
    .ok (.flag (label > 0 || (label != retiredLabel && label > l.nextLabel)), l)

/-- Whether a session means an installation that was pushed. -/
def Knows (l : Lists) (frame : Int) : Prop := 0 ≤ frame ∧ frame < l.pushed

/-- What a session may do: push again what is neither live nor in a segment, retire what was
pushed, and use the segments that there are. -/
def Allows (l : Lists) : Action → Prop
  | .repush frame => l.Knows frame ∧ idOf frame ∉ l.live ++ l.cuts.flatten
  | .retire frame => l.Knows frame
  | .splice n | .drop n | .count n => (l.segments.find? n).isSome
  | _ => True

end Lists

/-- Try a step: a step that fails leaves everything as it was. -/
def attempt {σ : Type} (step : σ → Action → Except Failure (Entry × σ)) (s : σ) (a : Action) :
    Except Failure Entry × σ :=
  match step s a with
  | .ok (entry, s) => (.ok entry, s)
  | .error failure => (.error failure, s)

/-- Try one step after the other: what they show or how they fail, and the state in the end. -/
def attempts {σ : Type} (step : σ → Action → Except Failure (Entry × σ)) (s : σ) :
    List Action → List (Except Failure Entry) × σ
  | [] => ([], s)
  | a :: rest =>
    let (outcome, s) := attempt step s a
    let (later, s) := attempts step s rest
    (outcome :: later, s)

/-- Every step of a session is allowed when its turn comes. -/
def Lists.Legal (l : Lists) : List Action → Prop
  | [] => True
  | a :: rest => l.Allows a ∧ (attempt Lists.step l a).2.Legal rest

instance (l : Lists) (frame : Int) : Decidable (l.Knows frame) := inferInstanceAs (Decidable (_ ∧ _))

instance (l : Lists) : (a : Action) → Decidable (l.Allows a)
  | .repush _ => inferInstanceAs (Decidable (_ ∧ _))
  | .retire frame => inferInstanceAs (Decidable (l.Knows frame))
  | .splice n | .drop n | .count n => inferInstanceAs (Decidable ((l.segments.find? n).isSome = true))
  | .push .. | .pop | .split _ | .findCommand _ | .findLabel _ | .findType _ | .contains _ | .depth
  | .snapshot | .write | .top | .isRetired _ | .label _ | .name _ | .isType .. | .clauses _
  | .fresh | .isIssued _ => .isTrue trivial

instance Lists.decidableLegal : (l : Lists) → (as : List Action) → Decidable (l.Legal as)
  | _, [] => .isTrue trivial
  | l, a :: rest =>
    have := Lists.decidableLegal (attempt Lists.step l a).2 rest
    inferInstanceAs (Decidable (_ ∧ _))

/-- What is shown until a step fails, and how it fails. -/
def shown : List (Except Failure Entry) → List Entry × Option Failure
  | [] => ([], none)
  | .error failure :: _ => ([], some failure)
  | .ok entry :: rest => (entry :: (shown rest).1, (shown rest).2)

/-- A session that ends with its first failure shows what is shown until then. -/
theorem State.run_eq_attempts (s : State) (as : List Action) :
    let outcomes := (attempts State.step s as).1
    s.run as = ((shown outcomes).1,
      (attempts State.step s (as.take (shown outcomes).1.length)).2.chain, (shown outcomes).2) := by
  induction as generalizing s with
  | nil => rfl
  | cons a as ih =>
    cases hstep : s.step a with
    | error failure => simp [State.run, attempts, attempt, hstep, shown]
    | ok next =>
      obtain ⟨entry, s'⟩ := next
      simp only [State.run, attempts, attempt, hstep, shown, List.length_cons, List.take_succ_cons,
        ih s']

/-- The top and the lowest of a list of installations. -/
def ends (is : List InstallationId) : Segment := ⟨is.headD 0, is.getLastD 0⟩

/-- The lists show what there is on the chain and in the segments: the links from the top visit the
live installations and arrive at the bottom, the links of each segment visit its installations and
end there, and no installation is visited twice. -/
structure Pictures (s : State) (l : Lists) : Prop where
  arranged : s.chain.Arranged l.live l.cuts
  ends : s.segments.entries = l.segments.entries.map fun e => (e.1, ChainSession.ends e.2)
  nextSegment : s.segments.next = l.segments.next
  nonempty : ∀ is ∈ l.cuts, is ≠ []
  numbered : l.segments.WellFormed
  info : ∀ i, l.info i = (s.chain.get i).unlinked
  pushed : s.chain.installations.next = l.pushed + 1
  found : ∀ i ≤ l.pushed, (s.chain.installations.find? i).isSome
  nextLabel : s.chain.nextLabel = l.nextLabel

/-- Two outcomes of a step: the same failure, or the same entry with states that agree. -/
inductive Agree : Except Failure (Entry × State) → Except Failure (Entry × Lists) → Prop where
  | error (failure : Failure) : Agree (.error failure) (.error failure)
  | ok {s : State} {l : Lists} (entry : Entry) (h : Pictures s l) :
    Agree (.ok (entry, s)) (.ok (entry, l))

/-- Looking up in a list whose entries were changed. -/
theorem lookup_map {α β : Type} (f : α → β) (es : List (Nat × α)) (n : Nat) :
    (es.map fun e => (e.1, f e.2)).lookup n = (es.lookup n).map f := by
  induction es with
  | nil => rfl
  | cons e es ih =>
    rw [List.map_cons, List.lookup_cons, List.lookup_cons, ih]
    cases n == e.1 <;> rfl

/-- Looking for the first element with a result, and for the result. -/
theorem bind_find? {α β : Type} (as : List α) (f : α → Option β) :
    ((as.find? fun a => (f a).isSome).bind fun a => (f a).bind fun b => some (a, b)) =
      as.findSome? fun a => (f a).map fun b => (a, b) := by
  induction as with
  | nil => rfl
  | cons a as ih =>
    cases hresult : f a with
    | none => simpa [hresult] using ih
    | some b => simp [hresult]

namespace Pictures

variable {s : State} {l : Lists} {is : List InstallationId} {n : Nat}

theorem start : Pictures {} {} where
  arranged := .initial
  ends := rfl
  nextSegment := rfl
  nonempty := by simp [Lists.cuts]
  numbered := Store.wellFormed_empty
  info i := by
    cases i with
    | zero => rfl
    | succ i => rfl
  pushed := rfl
  found i hi := by
    obtain rfl : i = 0 := by simpa using hi
    rfl
  nextLabel := rfl

/-! ### What the lists tell -/

/-- What does not look at links can be said of the lists. -/
theorem get_eq (h : Pictures s l) {α : Type} (g : Installation → α) (hg : ∀ x, g x.unlinked = g x)
    (i : InstallationId) : g (s.chain.get i) = g (l.info i) := by
  rw [h.info, hg]

theorem search?_eq (h : Pictures s l) (p : Installation → Bool) (hp : ∀ x, p x.unlinked = p x) :
    (s.chain.search? fun _ x => p x) = l.first? p := by
  simp only [h.arranged.reads.search?_eq, Lists.first?, h.get_eq p hp]

theorem findCommand?_eq (h : Pictures s l) (command : String) :
    s.chain.findCommand? command = l.declaring? command := by
  have hclause : ∀ i, (s.chain.get i).clauseFor? command = (l.info i).clauseFor? command :=
    h.get_eq (·.clauseFor? command) fun _ => rfl
  simp only [Chain.findCommand?, h.arranged.reads.search?_eq, hclause]
  exact bind_find? l.live fun i => (l.info i).clauseFor? command

theorem findLabel?_eq (h : Pictures s l) (label : Int) :
    s.chain.findLabel? label = if label = bottomLabel ∨ label = retiredLabel then none
      else l.first? (·.label == label) := by
  simp only [Chain.findLabel?, Bool.or_eq_true, beq_iff_eq,
    h.search?_eq (·.label == label) fun _ => rfl]

theorem findType?_eq (h : Pictures s l) (handlerType : String) :
    s.chain.findType? handlerType = l.first? (·.handlerType == handlerType) :=
  h.search?_eq (·.handlerType == handlerType) fun _ => rfl

theorem isLive_eq (h : Pictures s l) (i : InstallationId) :
    s.chain.isLive i = decide (i ∈ l.live) := by
  rw [Bool.eq_iff_iff, h.arranged.reads.isLive_iff, decide_eq_true_iff]

theorem depth_eq (h : Pictures s l) : s.chain.depth = l.live.length := by
  rw [Chain.depth, h.arranged.reads.live_eq]

theorem snapshot_eq (h : Pictures s l) :
    s.chain.snapshot = l.live.map fun i => ((l.info i).label, (l.info i).name) := by
  simp only [Chain.snapshot, h.arranged.reads.live_eq, h.get_eq (·.label) fun _ => rfl,
    h.get_eq (·.name) fun _ => rfl]

theorem listing_eq (h : Pictures s l) :
    s.chain.listing = Chain.listingHeading ::
      (l.live ++ [0]).map fun i => Chain.listingLine (l.info i) := by
  simp only [Chain.listing, Chain.listingBody, h.arranged.reads.toList_eq,
    h.get_eq Chain.listingLine fun _ => rfl]

theorem top_eq (h : Pictures s l) : s.chain.top = l.live.headD 0 := by
  have hlinked := h.arranged.linked
  cases hlive : l.live with
  | nil =>
    rw [hlive] at hlinked
    simpa [Chain.Linked] using hlinked
  | cons i live =>
    rw [hlive] at hlinked
    simpa using hlinked.1

/-- A segment that is there is a list, of which the chain knows the ends. -/
theorem segment_eq (h : Pictures s l) (hn : l.segments.find? n = some is) :
    s.segment n = ChainSession.ends is ∧ is ∈ l.cuts ∧ is ≠ [] := by
  have hmem : is ∈ l.cuts := List.mem_map.mpr ⟨(n, is), Store.mem_of_find? hn, rfl⟩
  refine ⟨?_, hmem, h.nonempty is hmem⟩
  unfold Store.find? at hn
  rw [State.segment, Store.find?, h.ends, lookup_map, hn]
  rfl

/-- Counting down a segment counts its installations. -/
theorem countDown_eq {c : Chain} {i j : InstallationId} {t : Option InstallationId} {n : Nat}
    (h : c.Linked (some j) (is ++ [i]) t) (hi : i ∉ is) (hlen : is.length ≤ n) :
    c.countDown i n j = is.length + 1 := by
  induction is generalizing j n with
  | nil =>
    obtain rfl : j = i := by simpa using h.1
    cases n <;> simp [Chain.countDown]
  | cons k is ih =>
    obtain ⟨hjk, hrest⟩ := h
    obtain rfl : j = k := by simpa using hjk
    obtain ⟨n, rfl⟩ : ∃ m, n = m + 1 := ⟨n - 1, by simp at hlen; omega⟩
    simp only [List.mem_cons, not_or] at hi
    obtain ⟨next, hnext⟩ : ∃ next, (c.get j).below = some next := by
      cases is with
      | nil => exact ⟨i, hrest.1⟩
      | cons k is => exact ⟨k, hrest.1⟩
    rw [hnext] at hrest
    have hne : (j == i) = false := by simpa using fun heq => hi.1 heq.symm
    simp only [Chain.countDown, hne, Bool.false_eq_true, if_false, hnext]
    rw [ih hrest hi.2 (by simpa using hlen), List.length_cons]

theorem ends_append {i t : InstallationId} (htop : (is ++ [i]).head? = some t) :
    ChainSession.ends (is ++ [i]) = ⟨t, i⟩ := by
  simp [ChainSession.ends, List.headD_eq_head?_getD, List.getLastD_eq_getLast?, htop]

/-- A list that is not empty has a top, and a lowest element below others. -/
theorem exists_ends (hne : is ≠ []) :
    ∃ above i t, is = above ++ [i] ∧ (above ++ [i]).head? = some t := by
  refine ⟨_, _, is.head hne, (List.dropLast_concat_getLast hne).symm, ?_⟩
  rw [List.dropLast_concat_getLast, List.head?_eq_some_head]

theorem segmentLength_eq (h : Pictures s l) (his : is ∈ l.cuts) (hne : is ≠ []) :
    s.chain.segmentLength (ChainSession.ends is) = is.length := by
  obtain ⟨above, i, t, rfl, htop⟩ := exists_ends hne
  have hsub : (above ++ [i]).Sublist (l.live ++ l.cuts.flatten) :=
    (List.sublist_flatten_of_mem his).trans (List.sublist_append_right ..)
  have hlinked := h.arranged.cut _ his
  have hnodup := h.arranged.nodup.sublist hsub
  have hlen := h.arranged.length_lt hsub
  rw [htop] at hlinked
  rw [List.length_append, List.length_singleton] at hlen ⊢
  rw [Chain.segmentLength, ends_append htop]
  refine countDown_eq hlinked (fun hmem => ?_) (by omega)
  exact (List.nodup_append.mp hnodup).2.2 i hmem i (by simp) rfl

/-! ### What the steps do -/

/-- What is known of the installations, when only a link changed. -/
theorem info_relinks (h : Pictures s l) {c : Chain} {i : InstallationId}
    {b : Option InstallationId} (hrelinks : s.chain.Relinks i b c) :
    (∀ j, l.info j = (c.get j).unlinked) ∧ c.installations.next = l.pushed + 1 ∧
      ∀ j ≤ l.pushed, (c.installations.find? j).isSome :=
  ⟨fun j => (h.info j).trans (hrelinks.unlinked j).symm,
    by rw [hrelinks.installations]; exact h.pushed, fun j hj => hrelinks.found (h.found j hj)⟩

/-- A session means an installation that was pushed by the number it got. -/
theorem idOf_known {frame : Int} (hknows : l.Knows frame) :
    idOf frame ≠ 0 ∧ idOf frame ≤ l.pushed := by
  obtain ⟨hpos, hlt⟩ := hknows
  have hid : (idOf frame : Int) = frame + 1 := Int.toNat_of_nonneg (by omega)
  refine ⟨fun hzero => ?_, ?_⟩
  · rw [hzero] at hid
    omega
  · have hle : (idOf frame : Int) ≤ l.pushed := by omega
    exact_mod_cast hle

theorem step_push (h : Pictures s l) (label : Int) (name handlerType : String)
    (clauses : List ClauseEntry) :
    Agree (s.step (.push label name handlerType clauses))
      (l.step (.push label name handlerType clauses)) := by
  obtain ⟨hcreated, hzero, hfree⟩ := h.arranged.create
    { Installation.bottom with label, name, handlerType, clauses }
  generalize hx : ({ Installation.bottom with label, name, handlerType, clauses } : Installation) = x
    at hcreated hzero hfree
  have hid : (s.chain.create x).1 = l.pushed + 1 := h.pushed
  have hget : ∀ j, ((s.chain.create x).2.get j).unlinked =
      Function.update l.info (l.pushed + 1) x j := by
    intro j
    rw [Chain.get_create, h.pushed, Function.update_apply, h.info]
    split
    · rw [← hx]
      rfl
    · rfl
  have hthere : ∀ j ≤ l.pushed + 1, ((s.chain.create x).2.installations.find? j).isSome := by
    intro j hj
    simp only [Chain.create, Store.find?_insert, h.pushed]
    split
    · rfl
    · exact h.found j (by omega)
  rw [hid] at hzero hfree
  have hrelinks : (s.chain.create x).2.Relinks (l.pushed + 1) (some s.chain.top)
      ((s.chain.create x).2.push (l.pushed + 1)) := ⟨rfl⟩
  simp only [State.step, Lists.step, hx, hid]
  exact .ok _ { h with
    arranged := hcreated.push (hthere _ (Nat.le_refl _)) hzero hfree
    info := fun j => (hget j).symm.trans (hrelinks.unlinked j).symm
    pushed := by
      rw [hrelinks.installations]
      exact congrArg (· + 1) h.pushed
    found := fun j hj => hrelinks.found (hthere j hj) }

theorem step_repush (h : Pictures s l) {frame : Int} (hallows : l.Allows (.repush frame)) :
    Agree (s.step (.repush frame)) (l.step (.repush frame)) := by
  obtain ⟨hknows, hfree⟩ := hallows
  obtain ⟨hzero, hle⟩ := idOf_known hknows
  have hrelinks : s.chain.Relinks (idOf frame) (some s.chain.top) (s.chain.push (idOf frame)) := ⟨rfl⟩
  obtain ⟨hinfo, hnext, hfound⟩ := h.info_relinks hrelinks
  exact .ok _ { h with
    arranged := h.arranged.push (h.found _ hle) hzero hfree
    info := hinfo, pushed := hnext, found := hfound }

theorem step_pop (h : Pictures s l) : Agree (s.step .pop) (l.step .pop) := by
  cases hlive : l.live with
  | nil =>
    have htop : s.chain.top = 0 := by rw [h.top_eq, hlive]; rfl
    have hpop : s.chain.pop? = none := by
      simp [Chain.pop?, htop, Chain.below_bottom h.arranged.bottom]
    simp only [State.step, Lists.step, hpop, hlive]
    exact .error _
  | cons i live =>
    have harranged := h.arranged
    rw [hlive] at harranged
    obtain ⟨c, hpop, hrelinks, hlabel, hlast⟩ := harranged.pop
    obtain ⟨hinfo, hnext, hfound⟩ := h.info_relinks hrelinks
    simp only [State.step, Lists.step, hpop, hlive]
    exact .ok _ { h with
      arranged := hlast, info := hinfo, pushed := hnext, found := hfound
      nextLabel := hlabel.trans h.nextLabel }

/-- Cutting a list behind an element. -/
theorem cutBehind_eq {i : InstallationId} {above below : List InstallationId} (hi : i ∉ above) :
    Lists.cutBehind i (above ++ i :: below) = (above ++ [i], below) := by
  have htake : (above ++ i :: below).takeWhile (· ≠ i) = above := by
    rw [List.takeWhile_append_of_pos fun j hj => by simpa using ne_of_mem_of_not_mem hj hi]
    simp
  simp only [Lists.cutBehind, htake]
  simp [List.drop_append]

theorem step_split (h : Pictures s l) (frame : Int) :
    Agree (s.step (.split frame)) (l.step (.split frame)) := by
  by_cases hmem : idOf frame ∈ l.live
  · obtain ⟨above, below, hlive⟩ := List.append_of_mem hmem
    have harranged := h.arranged
    rw [hlive] at harranged
    have habove : idOf frame ∉ above := fun hin =>
      (List.nodup_append.mp (List.nodup_append.mp harranged.nodup).1).2.2 _ hin _ (by simp) rfl
    obtain ⟨c, hsplit, hrelinks, hlabel, hhead, hcut⟩ := harranged.split
    obtain ⟨hinfo, hnext, hfound⟩ := h.info_relinks hrelinks
    have hends := ends_append hhead
    have hpictures : Pictures
        { chain := c, segments := (s.segments.insert ⟨s.chain.top, idOf frame⟩).2 }
        { l with live := below, segments := (l.segments.insert (above ++ [idOf frame])).2 } := {
      arranged := hcut
      ends := by simp [Store.insert, h.ends, h.nextSegment, hends]
      nextSegment := by simp [Store.insert, h.nextSegment]
      nonempty := by
        intro is his
        rcases List.mem_cons.mp his with rfl | his
        exacts [by simp, h.nonempty is his]
      numbered := Store.wellFormed_insert h.numbered _
      info := hinfo, pushed := hnext, found := hfound
      nextLabel := hlabel.trans h.nextLabel }
    have hcount := hpictures.segmentLength_eq (List.mem_cons_self ..) (by simp)
    rw [hends] at hcount
    simp only [State.step, Lists.step, hsplit, if_pos hmem, hcount]
    simp only [hlive, cutBehind_eq habove]
    exact .ok _ hpictures
  · have hlive : s.chain.isLive (idOf frame) = false := by simpa [h.isLive_eq] using hmem
    simp only [State.step, Lists.step, Chain.split, hlive, Bool.false_eq_true, if_false, hmem]
    exact .error _

/-- Erasing the entry of a number leaves the other segments. -/
theorem cuts_erase (hn : l.segments.find? n = some is) :
    l.cuts.Perm (is :: (l.segments.erase n).entries.map (·.2)) :=
  (Store.entries_perm_erase hn).map _

theorem ends_erase (h : Pictures s l) (n : Nat) : (s.segments.erase n).entries =
    (l.segments.erase n).entries.map fun e => (e.1, ChainSession.ends e.2) := by
  simp only [Store.erase, h.ends, List.eraseP_map]
  rfl

theorem step_splice (h : Pictures s l) (hn : (l.segments.find? n).isSome) :
    Agree (s.step (.splice n)) (l.step (.splice n)) := by
  obtain ⟨is, hn⟩ := Option.isSome_iff_exists.mp hn
  obtain ⟨hsegment, his, hne⟩ := h.segment_eq hn
  obtain ⟨above, i, t, rfl, htop⟩ := exists_ends hne
  rw [ends_append htop] at hsegment
  have hperm := cuts_erase hn
  have hspliced := (h.arranged.perm hperm).splice ⟨t, i⟩ htop
  have hrelinks : s.chain.Relinks i (some s.chain.top) (s.chain.splice ⟨t, i⟩) := ⟨rfl⟩
  obtain ⟨hinfo, hnext, hfound⟩ := h.info_relinks hrelinks
  have hlists : l.segment n = above ++ [i] := by rw [Lists.segment, hn]; rfl
  have hpictures : Pictures
      { chain := s.chain.splice ⟨t, i⟩, segments := s.segments.erase n }
      { l with live := above ++ [i] ++ l.live, segments := l.segments.erase n } := {
    arranged := by
      rw [List.append_assoc]
      exact hspliced
    ends := h.ends_erase n
    nextSegment := h.nextSegment
    nonempty := fun is his => h.nonempty is (hperm.mem_iff.mpr (List.mem_cons_of_mem _ his))
    numbered := Store.wellFormed_erase h.numbered n
    info := hinfo, pushed := hnext, found := hfound
    nextLabel := h.nextLabel }
  have hdepth := hpictures.depth_eq
  simp only [State.step, Lists.step, hsegment, hlists, hdepth]
  exact .ok _ hpictures

theorem step_drop (h : Pictures s l) (n : Nat) : Agree (s.step (.drop n)) (l.step (.drop n)) := by
  have hsub : ({ l with segments := l.segments.erase n } : Lists).cuts.Sublist l.cuts :=
    List.eraseP_sublist.map _
  exact .ok _ { h with
    arranged := h.arranged.forget hsub
    ends := h.ends_erase n
    nonempty := fun is his => h.nonempty is (hsub.subset his)
    numbered := Store.wellFormed_erase h.numbered n }

theorem step_count (h : Pictures s l) (hn : (l.segments.find? n).isSome) :
    Agree (s.step (.count n)) (l.step (.count n)) := by
  obtain ⟨is, hn⟩ := Option.isSome_iff_exists.mp hn
  obtain ⟨hsegment, his, hne⟩ := h.segment_eq hn
  have hlists : l.segment n = is := by rw [Lists.segment, hn]; rfl
  simp only [State.step, Lists.step, hsegment, hlists, h.segmentLength_eq his hne]
  exact .ok _ h

theorem step_retire (h : Pictures s l) {frame : Int} (hknows : l.Knows frame) :
    Agree (s.step (.retire frame)) (l.step (.retire frame)) := by
  obtain ⟨hzero, hle⟩ := idOf_known hknows
  have hbelow : ∀ j, ((s.chain.retire (idOf frame)).get j).below = (s.chain.get j).below :=
    fun j => Chain.below_modify _ fun _ => rfl
  have hfound : ∀ j, (s.chain.installations.find? j).isSome →
      ((s.chain.retire (idOf frame)).installations.find? j).isSome := by
    intro j hj
    simp only [Chain.retire, Chain.modify, Store.find?_modify]
    split <;> simp [hj]
  have hbottom : ((s.chain.retire (idOf frame)).get 0).isBottom := by
    rw [Chain.retire, Chain.get_modify_of_ne _ hzero.symm]
    exact h.arranged.bottom
  have hinfo : ∀ j, Function.update l.info (idOf frame)
      { l.info (idOf frame) with label := retiredLabel } j =
        ((s.chain.retire (idOf frame)).get j).unlinked := by
    intro j
    by_cases hj : j = idOf frame
    · subst hj
      rw [Function.update_self, Chain.retire, Chain.get_modify_self _ (h.found _ hle), h.info]
      rfl
    · rw [Function.update_of_ne hj, Chain.retire, Chain.get_modify_of_ne _ hj, h.info]
  exact .ok _ { h with
    arranged := h.arranged.congr rfl hbottom (fun j _ => hbelow j)
      (fun j hj => hfound j (h.arranged.found j hj)) (Store.wellFormed_modify h.arranged.wellFormed _ _)
      h.arranged.positive
    info := hinfo, found := fun j hj => hfound j (h.found j hj) }

/-- Every step that is allowed shows what the lists show. -/
theorem step (h : Pictures s l) {a : Action} (ha : l.Allows a) : Agree (s.step a) (l.step a) := by
  cases a with
  | push label name handlerType clauses => exact h.step_push label name handlerType clauses
  | repush frame => exact h.step_repush ha
  | pop => exact h.step_pop
  | split frame => exact h.step_split frame
  | splice n => exact h.step_splice ha
  | drop n => exact h.step_drop n
  | count n => exact h.step_count ha
  | retire frame => exact h.step_retire ha
  | findCommand command =>
    simp only [State.step, Lists.step, h.findCommand?_eq]
    exact .ok _ h
  | findLabel label =>
    simp only [State.step, Lists.step, h.findLabel?_eq]
    exact .ok _ h
  | findType handlerType =>
    simp only [State.step, Lists.step, h.findType?_eq]
    exact .ok _ h
  | contains frame =>
    simp only [State.step, Lists.step, h.isLive_eq]
    exact .ok _ h
  | depth =>
    simp only [State.step, Lists.step, h.depth_eq]
    exact .ok _ h
  | snapshot =>
    simp only [State.step, Lists.step, h.snapshot_eq]
    exact .ok _ h
  | write =>
    simp only [State.step, Lists.step, h.listing_eq]
    exact .ok _ h
  | top =>
    simp only [State.step, Lists.step, h.top_eq]
    exact .ok _ h
  | isRetired frame =>
    simp only [State.step, Lists.step, h.get_eq Installation.isRetired fun _ => rfl]
    exact .ok _ h
  | label frame =>
    simp only [State.step, Lists.step, h.get_eq Installation.label fun _ => rfl]
    exact .ok _ h
  | name frame =>
    simp only [State.step, Lists.step, h.get_eq Installation.name fun _ => rfl]
    exact .ok _ h
  | isType frame handlerType =>
    simp only [State.step, Lists.step, h.get_eq Installation.handlerType fun _ => rfl]
    exact .ok _ h
  | clauses frame =>
    have hclauses := h.get_eq (fun i => i.clauses.map fun e =>
      (e.name, e.modifier, i.clauseFor? e.command)) (fun _ => rfl) (idOf frame)
    simp only [State.step, Lists.step, hclauses]
    exact .ok _ h
  | fresh =>
    simp only [State.step, Lists.step, Chain.freshLabel, h.nextLabel]
    exact .ok _ { h with
      arranged := h.arranged.congr rfl h.arranged.bottom (fun _ _ => rfl) h.arranged.found
        h.arranged.wellFormed h.arranged.positive
      nextLabel := rfl }
  | isIssued label =>
    simp only [State.step, Lists.step, Chain.isIssued, h.nextLabel]
    exact .ok _ h

/-- Trying one step after the other keeps the agreement. -/
theorem attempts (h : Pictures s l) {as : List Action} (hlegal : l.Legal as) :
    (ChainSession.attempts State.step s as).1 = (ChainSession.attempts Lists.step l as).1 ∧
      Pictures (ChainSession.attempts State.step s as).2
        (ChainSession.attempts Lists.step l as).2 := by
  induction as generalizing s l with
  | nil => exact ⟨rfl, h⟩
  | cons a as ih =>
    obtain ⟨hallows, hrest⟩ := hlegal
    have hagree := h.step hallows
    simp only [ChainSession.attempts, attempt] at hrest ⊢
    generalize s.step a = outcome at hagree ⊢
    generalize l.step a = expected at hagree hrest ⊢
    cases hagree with
    | error failure =>
      obtain ⟨hsame, hlast⟩ := ih h hrest
      exact ⟨congrArg _ hsame, hlast⟩
    | ok entry hnext =>
      obtain ⟨hsame, hlast⟩ := ih hnext hrest
      exact ⟨congrArg _ hsame, hlast⟩

end Pictures

/-- Every session of allowed steps, pursued over failures, which change nothing, shows and fails as
it does on lists: the searches, counts and listings of the chain are those of the list of live
installations, without the bottom one. In the end, as after every part of the session, the links
from the top visit the live installations once each and arrive at the bottom, the links of each
segment visit its installations, and what is live and the segments are disjoint. A session that
ends with its first failure shows what the lists show until then. -/
theorem chain_refines_lists (as : List Action) (hlegal : ({} : Lists).Legal as) :
    (attempts State.step {} as).1 = (attempts Lists.step {} as).1 ∧
      Pictures (attempts State.step {} as).2 (attempts Lists.step {} as).2 ∧
      (State.run {} as).1 = (shown (attempts Lists.step {} as).1).1 ∧
      (State.run {} as).2.2 = (shown (attempts Lists.step {} as).1).2 := by
  obtain ⟨houtcomes, hpictures⟩ := Pictures.start.attempts hlegal
  rw [State.run_eq_attempts, houtcomes]
  exact ⟨rfl, hpictures, rfl, rfl⟩

/-- Installations with the label of the bottom one and with that of a finished one, which are cut
off, put back above another one, and counted. -/
theorem chain_refines_lists_reserved :
    let as : List Action :=
      [.push 0 "A" "A" [], .push retiredLabel "B" "B" [], .push 7 "C" "C" [], .split 1,
        .push 8 "D" "D" [], .split 2, .splice 0, .depth, .findLabel 7, .retire 2, .write, .pop,
        .repush 2, .snapshot, .contains (-1)]
    ({} : Lists).Legal as ∧ (attempts State.step {} as).1 = (attempts Lists.step {} as).1 :=
  ⟨by decide, (chain_refines_lists _ (by decide)).1⟩

end ChainSession

end EffectHandlers
