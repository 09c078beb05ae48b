import EffectHandlers.Chain.Basic
import EffectHandlers.Proofs.Entries
import Mathlib.Data.List.Nodup
import Mathlib.Data.List.Perm.Subperm
/-!
# Reading the links of the chain

The chain is a linked list. `Chain.Linked` says which installations the links visit, for the live
chain as well as for a segment that was cut off. Everything the operations do is said in these
terms: only the links of installations that are not visited may change unnoticed.
-/

namespace EffectHandlers

variable {c c' : Chain} {i j : InstallationId} {s t u : Option InstallationId}
  {is js : List InstallationId}

namespace Chain

/-- Following the links from `s` visits exactly these installations and then arrives at `t`. -/
def Linked (c : Chain) : Option InstallationId → List InstallationId → Option InstallationId → Prop
  | s, [], t => s = t
  | s, i :: is, t => s = some i ∧ c.Linked (c.get i).below is t

/-- Following the links can be done in two parts. -/
theorem linked_append :
    c.Linked s (is ++ js) t ↔ ∃ u, c.Linked s is u ∧ c.Linked u js t := by
  induction is generalizing s with
  | nil => simp [Linked]
  | cons i is ih =>
    simp only [List.cons_append, Linked, ih]
    constructor
    · rintro ⟨hs, u, hu, ht⟩
      exact ⟨u, ⟨hs, hu⟩, ht⟩
    · rintro ⟨u, ⟨hs, hu⟩, ht⟩
      exact ⟨hs, u, hu, ht⟩

/-- Only the links of the installations that are visited matter. -/
theorem Linked.congr (hsame : ∀ i ∈ is, (c'.get i).below = (c.get i).below)
    (h : c.Linked s is t) : c'.Linked s is t := by
  induction is generalizing s with
  | nil => exact h
  | cons i is ih =>
    obtain ⟨hs, hrest⟩ := h
    refine ⟨hs, ?_⟩
    rw [hsame i (by simp)]
    exact ih (fun j hj => hsame j (List.mem_cons_of_mem _ hj)) hrest

/-- Only the installations matter, not which one is on top. -/
theorem Linked.of_installations (hsame : c'.installations = c.installations)
    (h : c.Linked s is t) : c'.Linked s is t :=
  h.congr fun i _ => by simp [get, hsame]

/-- Every installation that is visited on the way to another one has something below. -/
theorem Linked.below_isSome (h : c.Linked s is (some j)) (hi : i ∈ is) :
    (c.get i).below.isSome := by
  induction is generalizing s with
  | nil => simp at hi
  | cons k is ih =>
    obtain ⟨hs, hrest⟩ := h
    rcases List.mem_cons.mp hi with rfl | hi
    · cases is with
      | nil => simp [show (c.get i).below = some j from hrest]
      | cons l is => simp [hrest.1]
    · exact ih hrest hi

/-- The link of an installation on a path leads to the rest of the path. -/
theorem linked_cut (h : c.Linked s (is ++ i :: js) t) :
    c.Linked s is (some i) ∧ c.Linked (c.get i).below js t := by
  obtain ⟨u, hu, hs, ht⟩ := linked_append.mp h
  exact ⟨hs ▸ hu, ht⟩

/-! ### Changes of single installations -/

/-- Other installations do not notice a change. -/
theorem get_modify_of_ne (f : Installation → Installation) (h : j ≠ i) :
    (c.modify i f).get j = c.get j := by
  simp [get, modify, Store.find?_modify, h]

/-- A change shows where there is something to change. -/
theorem get_modify_self (f : Installation → Installation)
    (h : (c.installations.find? i).isSome) : (c.modify i f).get i = f (c.get i) := by
  obtain ⟨x, hx⟩ := Option.isSome_iff_exists.mp h
  simp [get, modify, Store.find?_modify, hx]

/-- What a change keeps of one installation, it keeps of all. -/
theorem get_modify_congr {α : Type} (g : Installation → α) (f : Installation → Installation)
    (hf : ∀ x, g (f x) = g x) : g ((c.modify i f).get j) = g (c.get j) := by
  by_cases h : j = i
  · subst h
    cases hx : c.installations.find? j with
    | none => simp [get, modify, Store.find?_modify, hx]
    | some x => simp [get, modify, Store.find?_modify, hx, hf]
  · rw [get_modify_of_ne f h]

/-- A change that keeps links keeps all of them. -/
theorem below_modify (f : Installation → Installation) (hf : ∀ x, (f x).below = x.below) :
    ((c.modify i f).get j).below = (c.get j).below :=
  get_modify_congr Installation.below f hf

@[simp] theorem modify_top (f : Installation → Installation) : (c.modify i f).top = c.top := rfl

/-! ### The live chain -/

/-- The live chain consists of these installations, top first, and ends at the bottom. -/
structure Reads (c : Chain) (is : List InstallationId) : Prop where
  linked : c.Linked (some c.top) is (some 0)
  bottom : (c.get 0).isBottom
  fits : is.length < c.installations.next

/-- An installation with something below is not the bottom. -/
theorem isBottom_eq_false (h : (c.get i).below.isSome) : (c.get i).isBottom = false := by
  simp [Installation.isBottom, Option.isNone_eq_false_iff.mpr h]

theorem below_bottom (h : (c.get i).isBottom) : (c.get i).below = none := by
  simpa [Installation.isBottom] using (Bool.and_eq_true_iff.mp h).2

theorem follow_of_linked {n : Nat} (hb : (c.get 0).isBottom) (hlen : is.length < n)
    (h : c.Linked (some i) is (some 0)) : c.follow n i = is ++ [0] := by
  induction is generalizing n i with
  | nil =>
    obtain ⟨n, rfl⟩ : ∃ m, n = m + 1 := ⟨n - 1, by simp at hlen; omega⟩
    obtain rfl : i = 0 := by simpa [Linked] using h
    simp [follow, below_bottom hb]
  | cons k is ih =>
    obtain ⟨n, rfl⟩ : ∃ m, n = m + 1 := ⟨n - 1, by simp at hlen; omega⟩
    obtain ⟨hk, hrest⟩ := h
    obtain rfl : i = k := by simpa using hk
    have hlinked : c.Linked (some i) (i :: is) (some 0) := ⟨rfl, hrest⟩
    obtain ⟨next, hnext⟩ := Option.isSome_iff_exists.mp
      (hlinked.below_isSome (List.mem_cons_self ..))
    simp only [follow, hnext, List.cons_append]
    rw [hnext] at hrest
    rw [ih (by simpa using hlen) hrest]

/-- Reading the chain gives the live installations and the bottom. -/
theorem Reads.toList_eq (h : c.Reads is) : c.toList = is ++ [0] :=
  follow_of_linked h.bottom h.fits h.linked

theorem Reads.not_isBottom (h : c.Reads is) (hi : i ∈ is) : (c.get i).isBottom = false :=
  isBottom_eq_false (h.linked.below_isSome hi)

/-- The live installations are those above the bottom. -/
theorem Reads.live_eq (h : c.Reads is) : c.live = is := by
  have hall : ∀ i ∈ is, (!(c.get i).isBottom) = true := fun i hi => by simp [h.not_isBottom hi]
  rw [live, h.toList_eq, List.takeWhile_append_of_pos hall]
  simp [h.bottom]

theorem searchFrom_of_linked {n : Nat} (p : InstallationId → Installation → Bool)
    (hb : (c.get 0).isBottom) (hlen : is.length < n) (h : c.Linked (some i) is (some 0)) :
    c.searchFrom p n i = is.find? fun id => p id (c.get id) := by
  induction is generalizing n i with
  | nil =>
    obtain ⟨n, rfl⟩ : ∃ m, n = m + 1 := ⟨n - 1, by simp at hlen; omega⟩
    obtain rfl : i = 0 := by simpa [Linked] using h
    simp [searchFrom, hb]
  | cons k is ih =>
    obtain ⟨n, rfl⟩ : ∃ m, n = m + 1 := ⟨n - 1, by simp at hlen; omega⟩
    obtain ⟨hk, hrest⟩ := h
    obtain rfl : i = k := by simpa using hk
    have hlinked : c.Linked (some i) (i :: is) (some 0) := ⟨rfl, hrest⟩
    have hsome := hlinked.below_isSome (List.mem_cons_self ..)
    obtain ⟨next, hnext⟩ := Option.isSome_iff_exists.mp hsome
    rw [hnext] at hrest
    simp only [searchFrom, isBottom_eq_false hsome, Bool.false_eq_true, if_false, hnext,
      Option.bind_some, List.find?_cons]
    cases hp : p i (c.get i) with
    | true => simp
    | false => simpa using ih (by simpa using hlen) hrest

/-- A search goes through the live installations, the innermost first. -/
theorem Reads.search?_eq (h : c.Reads is) (p : InstallationId → Installation → Bool) :
    c.search? p = is.find? fun id => p id (c.get id) :=
  searchFrom_of_linked p h.bottom h.fits h.linked

/-- What a search finds is live and passes the test. -/
theorem Reads.of_search? (h : c.Reads is) {p : InstallationId → Installation → Bool}
    (hi : c.search? p = some i) : i ∈ is ∧ p i (c.get i) := by
  rw [h.search?_eq] at hi
  have htest := List.find?_some hi
  exact ⟨List.mem_of_find?_eq_some hi, htest⟩

theorem Reads.isLive_iff (h : c.Reads is) : c.isLive i ↔ i ∈ is := by
  rw [isLive, h.search?_eq]
  simp

/-- A live installation is not the bottom one. -/
theorem Reads.ne_zero (h : c.Reads is) (hi : i ∈ is) : i ≠ 0 := by
  rintro rfl
  simpa [h.bottom] using h.not_isBottom hi

/-- A chain without a path to the bottom is too short only if it is not well-formed: distinct
installations that exist, and the bottom, are fewer than the numbers handed out. -/
theorem length_lt_next (hwf : c.installations.WellFormed) (hnodup : is.Nodup) (hzero : 0 ∉ is)
    (hfound : ∀ i ∈ is, (c.installations.find? i).isSome) (hpos : 0 < c.installations.next) :
    is.length < c.installations.next := by
  have hsub : (0 :: is) ⊆ List.range c.installations.next := by
    intro i hi
    rcases List.mem_cons.mp hi with rfl | hi
    · simpa using hpos
    · obtain ⟨x, hx⟩ := Option.isSome_iff_exists.mp (hfound i hi)
      simpa using Store.lt_next hwf hx
  have hnodup' : (0 :: is).Nodup := List.nodup_cons.mpr ⟨hzero, hnodup⟩
  have hlen := (List.subperm_of_subset hnodup' hsub).length_le
  rw [List.length_range, List.length_cons] at hlen
  omega

/-! ### What the operations do to the links -/

/-- An installation whose link was set to something. -/
structure Relinks (c : Chain) (i : InstallationId) (b : Option InstallationId) (c' : Chain) :
    Prop where
  installations : c'.installations = c.installations.modify i fun x => { x with below := b }

namespace Relinks

variable {b : Option InstallationId}

theorem get_of_ne (h : c.Relinks i b c') (hj : j ≠ i) : c'.get j = c.get j := by
  simp [get, h.installations, Store.find?_modify, hj]

theorem found (h : c.Relinks i b c') (hj : (c.installations.find? j).isSome) :
    (c'.installations.find? j).isSome := by
  rw [h.installations, Store.find?_modify]
  split <;> simp [hj]

theorem wellFormed (h : c.Relinks i b c') (hc : c.installations.WellFormed) :
    c'.installations.WellFormed := h.installations ▸ Store.wellFormed_modify hc _ _

theorem positive (h : c.Relinks i b c') (hc : 0 < c.installations.next) :
    0 < c'.installations.next := by
  rw [h.installations]
  exact hc

end Relinks

/-- Relinking an installation shows in its own link. -/
theorem below_relink (b : Option InstallationId) (h : (c.installations.find? i).isSome) :
    ((c.modify i fun x => { x with below := b }).get i).below = b := by
  rw [get_modify_self _ h]

/-- Following links does not notice that an installation off the path was relinked. -/
theorem Linked.relink (f : Installation → Installation) (hi : i ∉ is) (h : c.Linked s is t) :
    (c.modify i f).Linked s is t :=
  h.congr fun j hj => by rw [get_modify_of_ne f (ne_of_mem_of_not_mem hj hi)]

/-- Relinking the last installation of a path redirects the path. -/
theorem Linked.redirect (b : Option InstallationId)
    (hfound : (c.installations.find? i).isSome) (hi : i ∉ is) (h : c.Linked s (is ++ [i]) t) :
    (c.modify i fun x => { x with below := b }).Linked s (is ++ [i]) b := by
  obtain ⟨hstart, -⟩ := linked_cut h
  refine linked_append.mpr ⟨some i, hstart.relink _ hi, rfl, ?_⟩
  exact below_relink b hfound

/-- Cutting a live installation off takes along everything above it. -/
theorem Reads.split (h : c.Reads (is ++ i :: js)) (hfound : (c.installations.find? i).isSome)
    (hnodup : (is ++ i :: js).Nodup) :
    ∃ c', c.split i = .ok (⟨c.top, i⟩, c') ∧ c.Relinks i none c' ∧
      c'.nextLabel = c.nextLabel ∧ (c.get i).below = some c'.top ∧
      c'.Reads js ∧ c'.Linked (some c.top) (is ++ [i]) none := by
  obtain ⟨habove, hbelow⟩ := linked_cut h.linked
  obtain ⟨b, hb⟩ := Option.isSome_iff_exists.mp (h.linked.below_isSome (i := i) (by simp))
  have hlive : c.isLive i := h.isLive_iff.mpr (by simp)
  have hzero : 0 ≠ i := (h.ne_zero (by simp)).symm
  simp only [List.nodup_append, List.nodup_cons] at hnodup
  have hsplit : c.split i = .ok (⟨c.top, i⟩,
      { c.modify i fun x => { x with below := none } with top := b }) := by
    simp [Chain.split, hlive, hb]
  refine ⟨_, hsplit, ⟨rfl⟩, rfl, hb, ⟨?_, ?_, ?_⟩, ?_⟩
  · have hrest := hbelow.relink (fun x => { x with below := none }) hnodup.2.1.1
    rw [hb] at hrest
    exact hrest.of_installations (by rfl)
  · have hsame : (c.modify i fun x => { x with below := none }).get 0 = c.get 0 :=
      get_modify_of_ne _ hzero
    show ((c.modify i fun x => { x with below := none }).get 0).isBottom = true
    rw [hsame]
    exact h.bottom
  · have hfits := h.fits
    simp only [List.length_append, List.length_cons] at hfits
    exact Nat.lt_of_le_of_lt (by omega) hfits
  · have hpath : c.Linked (some c.top) (is ++ [i]) (c.get i).below :=
      linked_append.mpr ⟨some i, habove, rfl, rfl⟩
    have hi : i ∉ is := fun hmem => hnodup.2.2 i hmem i (by simp) rfl
    exact (hpath.redirect none hfound hi).of_installations (by rfl)

/-- A segment that is put back ends up above everything that is live. -/
theorem Reads.splice (segment : Segment) (h : c.Reads js)
    (hpath : c.Linked (some segment.top) (is ++ [segment.lowest]) t)
    (hfound : (c.installations.find? segment.lowest).isSome) (hzero : segment.lowest ≠ 0)
    (hnodup : (is ++ segment.lowest :: js).Nodup)
    (hfits : (is ++ segment.lowest :: js).length < c.installations.next) :
    (c.splice segment).Reads (is ++ segment.lowest :: js) := by
  simp only [List.nodup_append, List.nodup_cons] at hnodup
  have his : segment.lowest ∉ is := fun hmem => hnodup.2.2 _ hmem _ (by simp) rfl
  refine ⟨?_, ?_, hfits⟩
  · have habove := hpath.redirect (some c.top) hfound his
    have hbelow := h.linked.relink (fun x => { x with below := some c.top }) hnodup.2.1.1
    have hall := linked_append.mpr ⟨_, habove, hbelow⟩
    rw [List.append_assoc] at hall
    exact hall.of_installations (by rfl)
  · have hsame : (c.modify segment.lowest fun x => { x with below := some c.top }).get 0 = c.get 0 :=
      get_modify_of_ne _ hzero.symm
    show ((c.modify segment.lowest fun x => { x with below := some c.top }).get 0).isBottom = true
    rw [hsame]
    exact h.bottom

/-- An installation that is put on top is above everything that is live. -/
theorem Reads.push (h : c.Reads is) (hfound : (c.installations.find? i).isSome) (hzero : i ≠ 0)
    (hi : i ∉ is) (hnodup : is.Nodup) (hfits : is.length + 1 < c.installations.next) :
    (c.push i).Reads (i :: is) := by
  have hpath : c.Linked (some i) ([] ++ [i]) (c.get i).below := ⟨rfl, rfl⟩
  exact h.splice ⟨i, i⟩ hpath hfound hzero (List.nodup_cons.mpr ⟨hi, hnodup⟩) hfits

/-- Taking the top installation off leaves the others. -/
theorem Reads.pop (h : c.Reads (i :: is)) (hi : i ∉ is) :
    ∃ c', c.pop? = some (i, c') ∧ c.Relinks i none c' ∧
      c'.nextLabel = c.nextLabel ∧ (c.get i).below = some c'.top ∧ c'.Reads is := by
  obtain ⟨htop, hbelow⟩ := h.linked
  obtain ⟨b, hb⟩ := Option.isSome_iff_exists.mp (h.linked.below_isSome (i := i) (by simp))
  have htop : c.top = i := by simpa using htop
  have hzero : 0 ≠ i := (h.ne_zero (by simp)).symm
  have hpop : c.pop? = some (i, { c.modify i fun x => { x with below := none } with top := b }) := by
    simp [Chain.pop?, htop, hb]
  refine ⟨_, hpop, ⟨rfl⟩, rfl, hb, ?_, ?_, ?_⟩
  · have hrest := hbelow.relink (fun x => { x with below := none }) hi
    rw [hb] at hrest
    exact hrest.of_installations (by rfl)
  · have hsame : (c.modify i fun x => { x with below := none }).get 0 = c.get 0 :=
      get_modify_of_ne _ hzero
    show ((c.modify i fun x => { x with below := none }).get 0).isBottom = true
    rw [hsame]
    exact h.bottom
  · have hfits := h.fits
    simp only [List.length_cons] at hfits
    exact Nat.lt_of_le_of_lt (by omega) hfits

/-- A new installation is read under its number, and nothing else changes. -/
theorem get_create (x : Installation) :
    (c.create x).2.get j = if j = c.installations.next then x else c.get j := by
  simp only [create, get, Store.find?_insert]
  split <;> rfl

end Chain

end EffectHandlers
