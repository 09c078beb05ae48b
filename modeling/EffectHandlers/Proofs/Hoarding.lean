import EffectHandlers.Proofs.Absence
import EffectHandlers.Proofs.Allotting
/-!
# What is kept beside what is released

A chain, and fibers, beside others that have all of theirs and keep what they release. Whatever can be
reached is there, so both are searched, cut and put together in the same way.
-/

namespace EffectHandlers

/-- What is there, or is not gone, is found in both stores or in neither. -/
theorem Store.Shadows.find?_of_imp {α β : Type} {gone : Nat → Prop} {rel : α → β → Prop} {s : Store α}
    {t : Store β} {id : Nat} (h : s.Shadows gone rel t) (hgone : gone id → s.contains id) :
    (s.find? id = none ∧ t.find? id = none) ∨
      ∃ a b, s.find? id = some a ∧ t.find? id = some b ∧ rel a b := by
  by_cases hid : gone id
  · obtain ⟨a, ha⟩ := Option.isSome_iff_exists.mp (hgone hid)
    obtain ⟨b, hb, hab⟩ := h.forth ha
    exact .inr ⟨a, b, ha, hb, hab⟩
  · exact h.find? hid

/-- A store has what it has. -/
theorem Store.Shadows.refl {α : Type} {gone : Nat → Prop} {rel : α → α → Prop} {s : Store α}
    (hs : s.WellFormed) (hrel : ∀ a, rel a a) : s.Shadows gone rel s where
  next := rfl
  left := hs
  right := hs
  forth ha := ⟨_, ha, hrel _⟩
  back hb := .inl (by simp [hb])

/-- An entry is put back under a number that was handed out before. -/
theorem Store.Shadows.put {α β : Type} {gone : Nat → Prop} {rel : α → β → Prop} {s : Store α}
    {t : Store β} {id : Nat} {a : α} {b : β} (h : s.Shadows gone rel t)
    (hs : ({ s with entries := (id, a) :: s.entries } : Store α).WellFormed)
    (ht : ({ t with entries := (id, b) :: t.entries } : Store β).WellFormed) (hab : rel a b) :
    Store.Shadows gone rel { s with entries := (id, a) :: s.entries }
      { t with entries := (id, b) :: t.entries } where
  next := h.next
  left := hs
  right := ht
  forth {id' a'} hs := by
    have hforth : s.find? id' = some a' → ∃ b, t.find? id' = some b ∧ rel a' b := h.forth
    unfold Store.find? at hs hforth ⊢
    rw [List.lookup_cons] at hs ⊢
    split at hs
    · obtain rfl := Option.some.inj hs
      exact ⟨b, rfl, hab⟩
    · exact hforth hs
  back {id' b'} ht := by
    have hback : t.find? id' = some b' → (s.find? id').isSome ∨ gone id' := h.back
    unfold Store.find? at ht hback ⊢
    rw [List.lookup_cons] at ht ⊢
    split at ht
    · exact .inl rfl
    · exact hback ht

/-- An installation apart from the number of its shares. -/
def Installation.unshared (a : Installation) : Installation := { a with shares := 0 }

/-! ### Chains -/

namespace Chain

variable {c d c' : Chain} {i j : InstallationId} {p : InstallationId → Installation → Bool}
  {command : String}

/-- The end of a list of installations is where it starts, or what one of them is linked to. -/
theorem Linked.end_or_below {s t : Option InstallationId} {is : List InstallationId}
    (h : c.Linked s is t) : s = t ∨ ∃ j ∈ is, (c.get j).below = t := by
  induction is generalizing s with
  | nil => exact .inl h
  | cons k is ih =>
    obtain ⟨-, hrest⟩ := h
    rcases ih hrest with hk | ⟨j, hj, hbelow⟩
    · exact .inr ⟨k, List.mem_cons_self, hk⟩
    · exact .inr ⟨j, List.mem_cons_of_mem _ hj, hbelow⟩

/-- All that is live is there, and so is the bottom. -/
structure Whole (c : Chain) : Prop where
  reads : c.Reads c.live
  found : ∀ i ∈ c.live, c.installations.contains i
  bottom : c.installations.contains 0

theorem Whole.top (hw : c.Whole) : c.installations.contains c.top := by
  have hlinked := hw.reads.linked
  cases hlive : c.live with
  | nil =>
    rw [hlive] at hlinked
    rw [Option.some.inj hlinked]
    exact hw.bottom
  | cons i is =>
    rw [hlive] at hlinked
    rw [Option.some.inj hlinked.1]
    exact hw.found i (hlive ▸ List.mem_cons_self)

/-- A change of shares does not matter. -/
theorem Whole.modify (hw : c.Whole) (i : InstallationId) {f : Installation → Installation}
    (hf : ∀ a, (f a).unshared = a.unshared) : (c.modify i f).Whole := by
  have hkeep : ∀ {α : Type} (g : Installation → α), (∀ a, g a.unshared = g a) → ∀ j,
      g ((c.modify i f).get j) = g (c.get j) := fun g hg j =>
    get_modify_congr g f fun a => by rw [← hg, hf, hg]
  have hreads : (c.modify i f).Reads c.live :=
    { linked := hw.reads.linked.congr fun j _ => hkeep Installation.below (fun _ => rfl) j
      bottom := (hkeep Installation.isBottom (fun _ => rfl) 0).trans hw.reads.bottom
      fits := hw.reads.fits }
  exact
    { reads := hreads.live_eq.symm ▸ hreads
      found := fun j hj => by
        rw [hreads.live_eq] at hj
        exact (Machine.contains_modify _ _ _ _).trans (hw.found j hj)
      bottom := (Machine.contains_modify _ _ _ _).trans hw.bottom }

/-- What is taken off the top is still there. -/
theorem contains_of_pop? (h : c.pop? = some (i, c')) :
    c'.installations.contains j = c.installations.contains j := by
  obtain ⟨b, -, heq⟩ := Option.map_eq_some_iff.mp h
  obtain ⟨-, rfl⟩ := Prod.mk.inj heq
  exact Machine.contains_modify _ _ _ _

/-- The second chain keeps what the first one releases. -/
structure Hoarded (c d : Chain) : Prop where
  top : d.top = c.top
  nextLabel : d.nextLabel = c.nextLabel
  installations : c.installations.Shadows (fun _ => True) (fun a b => b.unshared = a.unshared)
    d.installations

namespace Hoarded

/-- What is there is the same in both. -/
theorem get (h : c.Hoarded d) (hi : c.installations.contains i) :
    (d.get i).unshared = (c.get i).unshared := by
  obtain ⟨a, ha⟩ := Option.isSome_iff_exists.mp hi
  obtain ⟨b, hb, hab⟩ := h.installations.forth ha
  simp only [Chain.get, ha, hb, Option.getD_some, hab]

/-- What does not depend on shares is the same. -/
theorem read {α : Type} (h : c.Hoarded d) (hi : c.installations.contains i) (g : Installation → α)
    (hg : ∀ a, g a.unshared = g a) : g (d.get i) = g (c.get i) := by
  rw [← hg, h.get hi, hg]

/-! #### Searches -/

section Searches

variable (h : c.Hoarded d) (hw : c.Whole)

include h hw

theorem reads : d.Reads c.live where
  linked := by
    rw [h.top]
    exact hw.reads.linked.congr fun i hi => h.read ((hw.found i hi)) Installation.below fun _ => rfl
  bottom := by
    rw [h.read hw.bottom Installation.isBottom fun _ => rfl]
    exact hw.reads.bottom
  fits := h.installations.next ▸ hw.reads.fits

theorem live_eq : d.live = c.live := (h.reads hw).live_eq

theorem search?_eq (p : InstallationId → Installation → Bool) (hp : ∀ i a, p i a.unshared = p i a) :
    d.search? p = c.search? p := by
  rw [(h.reads hw).search?_eq, hw.reads.search?_eq]
  exact List.find?_congr fun i hi => h.read (hw.found i hi) (p i) (hp i)

theorem isLive_eq (i : InstallationId) : d.isLive i = c.isLive i := by
  rw [isLive, isLive, h.search?_eq hw (fun n _ => n == i) fun _ _ => rfl]

theorem findLabel?_eq (label : Int) : d.findLabel? label = c.findLabel? label := by
  rw [findLabel?, findLabel?, h.search?_eq hw (fun _ a => a.label == label) fun _ _ => rfl]

theorem findType?_eq (handlerType : String) : d.findType? handlerType = c.findType? handlerType :=
  h.search?_eq hw (fun _ a => a.handlerType == handlerType) fun _ _ => rfl

theorem findCommand?_eq (command : String) : d.findCommand? command = c.findCommand? command := by
  rw [findCommand?, findCommand?,
    h.search?_eq hw (fun _ a => (a.clauseFor? command).isSome) fun _ _ => rfl]
  cases hi : c.search? fun _ a => (a.clauseFor? command).isSome with
  | none => rfl
  | some i =>
    have hclause : (d.get i).clauseFor? command = (c.get i).clauseFor? command :=
      h.read (contains_of_isLive (isLive_of_search? hi)) (Installation.clauseFor? · command) fun _ => rfl
    simp only [Option.bind_eq_bind, Option.bind_some, hclause]

theorem isInstalled_eq (hi : c.installations.contains i) : d.isInstalled i = c.isInstalled i := by
  have hretired : (d.get i).isRetired = (c.get i).isRetired :=
    h.read hi Installation.isRetired fun _ => rfl
  rw [isInstalled, isInstalled, hretired, h.isLive_eq hw]

theorem locateLabel_eq (label : Int) (command : String) :
    d.locateLabel label command = c.locateLabel label command := by
  simp only [locateLabel, h.findLabel?_eq hw]

theorem locateReference_eq (hi : c.installations.contains i) :
    d.locateReference i = c.locateReference i := by
  have hlabel : (d.get i).label = (c.get i).label := h.read hi Installation.label fun _ => rfl
  have hname : (d.get i).name = (c.get i).name := h.read hi Installation.name fun _ => rfl
  rw [locateReference, locateReference, h.isInstalled_eq hw hi, hlabel, hname]

theorem locate_eq (search : Search) : d.locate search = c.locate search := by
  cases search with
  | command name => simp only [locate, h.findCommand?_eq hw]
  | label label => simp only [locate, h.findLabel?_eq hw]

theorem depth_eq : d.depth = c.depth := by rw [depth, depth, h.live_eq hw]

theorem listing_eq : d.listing = c.listing := by
  rw [listing, listing, listingBody, listingBody, (h.reads hw).toList_eq, hw.reads.toList_eq]
  congr 1
  refine List.map_congr_left fun i hi => ?_
  refine h.read ?_ listingLine fun _ => rfl
  rcases List.mem_append.mp hi with hi | hi
  · exact hw.found i hi
  · rw [List.mem_singleton.mp hi]
    exact hw.bottom

end Searches

theorem expectType_eq (h : c.Hoarded d) (hi : c.installations.contains i) (handlerType : String) :
    d.expectType handlerType i = c.expectType handlerType i := by
  have htype : (d.get i).handlerType = (c.get i).handlerType :=
    h.read hi Installation.handlerType fun _ => rfl
  have hname : (d.get i).name = (c.get i).name := h.read hi Installation.name fun _ => rfl
  rw [expectType, expectType, htype, hname]

theorem clausePosition_eq (h : c.Hoarded d) (hi : c.installations.contains i) (command : String) :
    d.clausePosition command i = c.clausePosition command i := by
  have hclause : (d.get i).clauseFor? command = (c.get i).clauseFor? command :=
    h.read hi (Installation.clauseFor? · command) fun _ => rfl
  have hlabel : (d.get i).label = (c.get i).label := h.read hi Installation.label fun _ => rfl
  have hname : (d.get i).name = (c.get i).name := h.read hi Installation.name fun _ => rfl
  rw [clausePosition, clausePosition, hclause, hlabel, hname]

/-- Commands go to the same installation, which is there, if references lead to the same one. -/
theorem place_eq (h : c.Hoarded d) (hw : c.Whole) {referent referent' : ReferenceId → InstallationId}
    (command : String) {target : Target} (hreferent : ∀ r, .reference r ∈ target.uses →
      referent' r = referent r ∧ c.installations.contains (referent r)) :
    d.place referent' command target = c.place referent command target ∧
      ∀ i, c.place referent command target = .ok i → c.installations.contains i := by
  cases target with
  | innermost =>
    refine ⟨by simp only [place, h.findCommand?_eq hw], fun i hi => ?_⟩
    simp only [place] at hi
    split at hi
    · rename_i found
      obtain rfl := Except.ok.inj hi
      exact contains_of_isLive (isLive_of_findCommand? found)
    · cases hi
  | labelled label =>
    exact ⟨h.locateLabel_eq hw label command, fun i hi => contains_of_isLive (isLive_of_locateLabel hi)⟩
  | reference r =>
    obtain ⟨heq, hr⟩ := hreferent r (by simp [Target.uses])
    refine ⟨by simp only [place, heq, h.locateReference_eq hw hr], fun i hi => ?_⟩
    obtain ⟨rfl, -⟩ := isLive_of_locateReference hi
    exact hr
  | ofType handlerType =>
    refine ⟨by simp only [place, h.findType?_eq hw], fun i hi => ?_⟩
    simp only [place] at hi
    split at hi
    · rename_i found
      obtain rfl := Except.ok.inj hi
      exact contains_of_isLive (isLive_of_search? found)
    · cases hi
  | labelledOfType handlerType label =>
    simp only [place, h.locateLabel_eq hw]
    cases hlocate : c.locateLabel label command with
    | error f => exact ⟨rfl, fun _ hj => by cases hj⟩
    | ok i =>
      have hi := contains_of_isLive (isLive_of_locateLabel hlocate)
      refine ⟨h.expectType_eq hi handlerType, fun j hj => ?_⟩
      obtain rfl := expectType_eq_ok hj
      exact hi
  | referenceOfType handlerType r =>
    obtain ⟨heq, hr⟩ := hreferent r (by simp [Target.uses])
    simp only [place, heq, h.locateReference_eq hw hr]
    cases hlocate : c.locateReference (referent r) with
    | error f => exact ⟨rfl, fun _ hj => by cases hj⟩
    | ok i =>
      obtain ⟨rfl, -⟩ := isLive_of_locateReference hlocate
      refine ⟨h.expectType_eq hr handlerType, fun j hj => ?_⟩
      obtain rfl := expectType_eq_ok hj
      exact hr

/-- Commands go to the same clause, if references lead to the same installation. -/
theorem dispatch_eq (h : c.Hoarded d) (hw : c.Whole) {referent referent' : ReferenceId → InstallationId}
    (command : String) {target : Target} (hreferent : ∀ r, .reference r ∈ target.uses →
      referent' r = referent r ∧ c.installations.contains (referent r)) :
    d.dispatch referent' command target = c.dispatch referent command target := by
  obtain ⟨hplace, hfound⟩ := h.place_eq hw command hreferent
  rw [Chain.dispatch_eq, Chain.dispatch_eq, hplace]
  cases hi : c.place referent command target with
  | error f => rfl
  | ok i => exact h.clausePosition_eq (hfound i hi) command

/-! #### Changes -/

theorem modify (h : c.Hoarded d) (i : InstallationId) {f g : Installation → Installation}
    (hfg : ∀ a b, b.unshared = a.unshared → (g b).unshared = (f a).unshared) :
    (c.modify i f).Hoarded (d.modify i g) :=
  ⟨h.top, h.nextLabel, h.installations.modify f g hfg⟩

/-- A change of shares does not matter. -/
theorem modify_left (h : c.Hoarded d) (i : InstallationId) {f : Installation → Installation}
    (hf : ∀ a, (f a).unshared = a.unshared) : (c.modify i f).Hoarded d :=
  ⟨h.top, h.nextLabel, h.installations.modify_left f fun a _ hab => hab.trans (hf a).symm⟩

theorem erase_left (h : c.Hoarded d) (i : InstallationId) :
    { c with installations := c.installations.erase i }.Hoarded d :=
  ⟨h.top, h.nextLabel, h.installations.drop (fun _ => id) trivial⟩

theorem create (h : c.Hoarded d) (x : Installation) :
    (d.create x).1 = (c.create x).1 ∧ (c.create x).2.Hoarded (d.create x).2 :=
  ⟨h.installations.next, h.top, h.nextLabel, h.installations.insert rfl⟩

/-- An installation is linked to another one, and another one is on top. -/
theorem relink (h : c.Hoarded d) (i : InstallationId) (below : Option InstallationId)
    (top : InstallationId) :
    { c.modify i fun a => { a with below } with top }.Hoarded
      { d.modify i fun a => { a with below } with top } where
  top := rfl
  nextLabel := h.nextLabel
  installations := h.installations.modify (fun a => { a with below }) (fun a => { a with below })
    fun _ _ hab => congrArg (fun a : Installation => { a with below }) hab

theorem push (h : c.Hoarded d) (i : InstallationId) : (c.push i).Hoarded (d.push i) := by
  unfold Chain.push
  rw [h.top]
  exact h.relink i (some c.top) i

/-- The same is cut off. -/
theorem split (h : c.Hoarded d) (hw : c.Whole) (i : InstallationId) :
    (∃ e e', c.split i = .error e ∧ d.split i = .error e') ∨
      ∃ s c' d', c.split i = .ok (s, c') ∧ d.split i = .ok (s, d') ∧ c'.Hoarded d' := by
  unfold Chain.split
  rw [h.isLive_eq hw, h.top]
  split
  · rename_i hlive
    rw [h.read (contains_of_isLive hlive) Installation.below fun _ => rfl]
    cases (c.get i).below with
    | none => exact .inl ⟨_, _, rfl, rfl⟩
    | some below => exact .inr ⟨_, _, _, rfl, rfl, h.relink i none below⟩
  · exact .inl ⟨_, _, rfl, rfl⟩

theorem splice (h : c.Hoarded d) (s : Segment) : (c.splice s).Hoarded (d.splice s) := by
  unfold Chain.splice
  rw [h.top]
  exact h.relink s.lowest (some c.top) s.top

/-- The same is taken off the top. -/
theorem pop (h : c.Hoarded d) (htop : c.installations.contains c.top) :
    (c.pop? = none ∧ d.pop? = none) ∨
      ∃ c' d', c.pop? = some (c.top, c') ∧ d.pop? = some (c.top, d') ∧ c'.Hoarded d' := by
  unfold Chain.pop?
  rw [h.top, h.read htop Installation.below fun _ => rfl]
  cases (c.get c.top).below with
  | none => exact .inl ⟨rfl, rfl⟩
  | some below => exact .inr ⟨_, _, rfl, rfl, h.relink c.top none below⟩

theorem retire (h : c.Hoarded d) (i : InstallationId) : (c.retire i).Hoarded (d.retire i) :=
  h.modify i fun _ _ hab => congrArg (fun x : Installation => { x with label := retiredLabel }) hab

theorem freshLabel (h : c.Hoarded d) :
    d.freshLabel.1 = c.freshLabel.1 ∧ c.freshLabel.2.Hoarded d.freshLabel.2 :=
  ⟨h.nextLabel, h.top, congrArg (· - 1) h.nextLabel, h.installations⟩

theorem checkLabel_eq (h : c.Hoarded d) (label : Int) : d.checkLabel label = c.checkLabel label := by
  simp only [checkLabel, isIssued, h.nextLabel]
  rfl

end Hoarded

end Chain

/-! ### Fibers -/

namespace Fibers

variable {κ : Type} {gone gone' : FiberId → Prop} {fs gs fs' : Fibers κ} {f : FiberId} {code S : κ}

/-- The second has the fibers of the first, and maybe parked ones that are gone there. -/
structure Hoarded (gone : FiberId → Prop) (fs gs : Fibers κ) : Prop where
  current : gs.current = fs.current
  resumers : gs.resumers = fs.resumers
  parked : fs.parked.Shadows gone (fun S T => T = S) gs.parked
  tidy : fs.Tidy
  keeper : gs.Tidy

namespace Hoarded

theorem mono (h : fs.Hoarded gone gs) (hgone : ∀ f, gone f → gone' f) : fs.Hoarded gone' gs :=
  { h with parked := h.parked.mono hgone fun _ _ _ _ => id }

theorem create (h : fs.Hoarded gone gs) (code : κ) :
    (gs.create code).1 = (fs.create code).1 ∧ (fs.create code).2.Hoarded gone (gs.create code).2 :=
  ⟨h.parked.next, h.current, h.resumers, h.parked.insert rfl, h.tidy.create code, h.keeper.create code⟩

theorem resume (h : fs.Hoarded gone gs) (hf : gone f → fs.parked.contains f) (code : κ) :
    (fs.resume? f code = none ∧ gs.resume? f code = none) ∨
      ∃ S fs' gs', fs.resume? f code = some (S, fs') ∧ gs.resume? f code = some (S, gs') ∧
        fs'.Hoarded gone gs' := by
  rcases h.parked.find?_of_imp hf with ⟨hS, hT⟩ | ⟨S, T, hS, hT, rfl⟩
  · exact .inl ⟨by simp only [resume?, hS, Option.map_none], by simp only [resume?, hT, Option.map_none]⟩
  · have hall : ∀ {hs : Fibers κ}, hs.parked.find? f = some T → hs.resume? f code =
        some (T, ⟨hs.parked.erase f, some f, ⟨f, hs.current, code⟩ :: hs.resumers⟩) := by
      intro hs hfound
      simp only [resume?, hfound, Option.map_some]
    have hresume := hall hS
    have hresume' := hall hT
    exact .inr ⟨T, _, _, hresume, hresume', rfl, by simp only [h.current, h.resumers],
      h.parked.erase, h.tidy.resume hresume, h.keeper.resume hresume'⟩

theorem handBack (h : fs.Hoarded gone gs) :
    (fs.handBack? = none ∧ gs.handBack? = none) ∨
      ∃ S fs' gs', fs.handBack? = some (S, fs') ∧ gs.handBack? = some (S, gs') ∧
        fs'.Hoarded gone gs' := by
  unfold handBack?
  cases hresumers : fs.resumers with
  | nil => exact .inl ⟨rfl, by rw [h.resumers, hresumers]⟩
  | cons r rest =>
    have hresumers' := h.resumers.trans hresumers
    rw [hresumers']
    exact .inr ⟨_, _, _, rfl, rfl, rfl, rfl, h.parked, h.tidy.finish hresumers, h.keeper.finish hresumers'⟩

theorem suspend (h : fs.Hoarded gone gs) (code : κ) :
    (fs.suspend? code = none ∧ gs.suspend? code = none) ∨
      ∃ S fs' gs', fs.suspend? code = some (S, fs') ∧ gs.suspend? code = some (S, gs') ∧
        fs'.Hoarded gone gs' := by
  unfold suspend? handBack?
  rw [h.current, h.resumers]
  cases hcurrent : fs.current with
  | none => exact .inl ⟨rfl, rfl⟩
  | some f =>
    cases hresumers : fs.resumers with
    | nil => exact .inl ⟨rfl, rfl⟩
    | cons r rest =>
      have hall : ∀ {hs : Fibers κ}, hs.current = some f → hs.resumers = r :: rest →
          hs.suspend? code =
            some (r.code, ⟨⟨hs.parked.next, (f, code) :: hs.parked.entries⟩, r.current, rest⟩) := by
        intro hs hcurrent hresumers
        simp only [suspend?, handBack?, hcurrent, hresumers, Option.bind_some]
      have hsuspend := hall hcurrent hresumers
      have hsuspend' := hall (h.current.trans hcurrent) (h.resumers.trans hresumers)
      refine .inr ⟨_, _, _, rfl, rfl, rfl, rfl, ?_, (h.tidy.suspend hsuspend).1,
        (h.keeper.suspend hsuspend').1⟩
      exact h.parked.put (h.tidy.suspend hsuspend).1.wellFormed (h.keeper.suspend hsuspend').1.wellFormed
        rfl

/-- The first one loses a parked fiber. -/
theorem drop (h : fs.Hoarded gone gs) (hdrop : fs.drop? f = some (S, fs'))
    (hgone : ∀ g, gone g → gone' g) (hf : gone' f) : fs'.Hoarded gone' gs := by
  have htidy := h.tidy.drop hdrop
  obtain ⟨S', -, heq⟩ := Option.map_eq_some_iff.mp hdrop
  obtain ⟨rfl, rfl⟩ := Prod.mk.inj heq
  exact ⟨h.current, h.resumers, h.parked.drop hgone hf, htidy, h.keeper⟩

end Hoarded

end Fibers

end EffectHandlers
