import EffectHandlers.Proofs.Careful
import EffectHandlers.Proofs.Frugality
/-!
# Honest code

Code is honest if it gives away only what it has, and uses only what it has, what is lent to it, or what
it finds in a cell of these. What it has is its hand: shares of cells, and names of closures and
resumptions. The activations below it lend what they own. Whoever gives up control forgets the hand,
and gets a new one with the value that comes back.
-/

namespace EffectHandlers

variable {ω : Type}

/-! ### Hands -/

/-- A share of a cell that can be there, or the name of something that can be used once. -/
def Owned.Matters : Owned → Prop
  | cell c => c ≠ 0
  | closure _ | resumption _ => True
  | _ => False

/-- What matters in the second list is in the first one, as often. -/
def Affords (H G : List Owned) : Prop := ∀ o, o.Matters → G.count o ≤ H.count o

theorem Owned.matters_of_isName {o : Owned} (ho : o.isName = true) : o.Matters := by
  cases o <;> trivial

namespace Affords

variable {G H H' : List Owned} {o : Owned}

theorem refl (H : List Owned) : Affords H H := fun _ _ => Nat.le_refl _

theorem trans (h : Affords H H') (h' : Affords H' G) : Affords H G :=
  fun o ho => (h' o ho).trans (h o ho)

theorem nil (H : List Owned) : Affords H [] := fun _ _ => Nat.zero_le _

theorem append_left (h : Affords H G) (L : List Owned) : Affords (L ++ H) (L ++ G) := by
  intro o ho
  have := h o ho
  simp only [List.count_append]
  omega

theorem append_right (h : Affords H G) (L : List Owned) : Affords (H ++ L) (G ++ L) := by
  intro o ho
  have := h o ho
  simp only [List.count_append]
  omega

theorem cons (h : Affords H G) (o : Owned) : Affords (o :: H) (o :: G) := h.append_left [o]

theorem of_append {L : List Owned} (h : Affords H (G ++ L)) : Affords H G :=
  h.trans fun o _ => by simp [List.count_append]

theorem mem (h : Affords H G) (ho : o.Matters) (hmem : o ∈ G) : o ∈ H :=
  List.count_pos_iff.mp (Nat.lt_of_lt_of_le (List.count_pos_iff.mpr hmem) (h o ho))

end Affords

/-- What code knows of cells: these own at least so much. -/
abbrev Knowledge : Type := List (CellId × List Owned)

/-- Code that has one thing, is lent another and knows of cells can get at something. -/
def InReach (B : List Owned) (K : Knowledge) (H : List Owned) (o : Owned) : Prop :=
  o.Matters → o ∈ H ∨ o ∈ B ∨ ∃ k ∈ K, o ∈ k.2

theorem InReach.mono {B B' H H' : List Owned} {K K' : Knowledge} {o : Owned} (h : InReach B K H o)
    (hB : B ⊆ B') (hK : K ⊆ K') (hH : Affords H' H) : InReach B' K' H' o := by
  intro ho
  rcases h ho with hmem | hmem | ⟨k, hk, hmem⟩
  · exact .inl (hH.mem ho hmem)
  · exact .inr (.inl (hB hmem))
  · exact .inr (.inr ⟨k, hK hk, hmem⟩)

/-- What is agreed on between all code of a thread. -/
structure Regime (ω : Type) [Inhabited ω] where
  /-- The handler types that are in use. -/
  types : String → Prop
  /-- The cells that belong to the thread, which it never gives up. -/
  kept : List CellId
  zero_not_mem : 0 ∉ kept
  /-- What is known of every value that is returned. -/
  value : Value → Prop
  /-- What is known of every content of a cell. -/
  shape : ω → Prop
  value_snd : ∀ {a b : Value}, value (.pair a b) → value b
  shape_default : shape default

variable [Contents ω]

/-- What a thread lends to all its code. -/
def Regime.base (ρ : Regime ω) : List Owned := ρ.kept.map .cell

/-- Code to which `B` is lent and that knows `K` and has `H`, is honest, and ends with `X` besides what
its value owns. Right after one cell was written, the names `D` may be in two cells, until another one
is written. -/
inductive Comp.Honest (ρ : Regime ω) :
    List Owned → Knowledge → List Owned → List Owned → List Owned → Comp ω → Prop
  | done {B K H X v} (hv : ρ.value v) (h : Affords H (v.owned ++ X)) :
      Honest ρ B K H [] X (.done v)
  | record {B K H X e next} (h : Honest ρ B K H [] X next) : Honest ρ B K H [] X (.record e next)
  | ask {B K H X q next} (huses : q.uses = []) (hpool : q ≠ .pooledStacks)
      (h : ∀ v, Honest ρ B K H [] X (next v)) : Honest ρ B K H [] X (.ask q next)
  | alloc {B K H X y next} (H' : List Owned) (hy : ρ.shape y)
      (hpays : Affords H (Contents.owned y ++ H'))
      (h : ∀ c ∉ ρ.kept, Honest ρ B K (.cell c :: H') [] X (next c)) :
      Honest ρ B K H [] X (.alloc y next)
  | read {B K H X c next} (os : ω → List Owned) (hc : InReach B K H (.cell c))
      (hos : ∀ y, ρ.shape y → Affords (Contents.owned y) (os y))
      (h : ∀ y, ρ.shape y → Honest ρ B ((c, os y) :: K) H [] X (next y)) :
      Honest ρ B K H [] X (.read c next)
  | write {B K H D X c y next} (old H' D' : List Owned) (hy : ρ.shape y)
      (hc : InReach B K H (.cell c))
      (hold : old = [] ∨ (c, old) ∈ K)
      (howes : ∀ o ∈ D', o.isName = true ∧ InReach B K H o)
      (hpays : Affords (H ++ old ++ D') (Contents.owned y ++ H' ++ D))
      (h : Honest ρ B (K.filter (·.1 ≠ c)) H' D' X next) :
      Honest ρ B K H D X (.write c y next)
  | retain {B K H X c next} (hc : InReach B K H (.cell c))
      (h : Honest ρ B K (.cell c :: H) [] X next) : Honest ρ B K H [] X (.retain (.cell c) next)
  | release {B K H X os next} (H' : List Owned) (hpays : Affords H (os ++ H'))
      (h : Honest ρ B [] H' [] X next) : Honest ρ B K H [] X (.release os next)
  | scope {B K H X os body next} (H' X' : List Owned) (hpays : Affords H (os ++ H'))
      (hbody : Honest ρ (os ++ B) K H' [] X' body)
      (h : ∀ v, ρ.value v → Honest ρ B [] (v.owned ++ X') [] X (next v)) :
      Honest ρ B K H [] X (.scope os body next)
  | loop {B K H X seed body next} (hseed : ρ.value seed) (hpays : Affords H seed.owned)
      (hbody : ∀ v, ρ.value v → Honest ρ B [] v.owned [] [] (body v))
      (h : ∀ v, ρ.value v → Honest ρ B [] v.owned [] X (next v)) :
      Honest ρ B K H [] X (.loop seed body next)
  | closure {B K H X os body next} (H' : List Owned) (hpays : Affords H (os ++ H'))
      (hbody : ∀ v, ρ.value v → Honest ρ ρ.base [] (os ++ v.owned) [] [] (body v))
      (h : ∀ f, Honest ρ B K (.closure f :: H') [] X (next f)) :
      Honest ρ B K H [] X (.closure os body next)
  | function {B K H X answer f next} (hf : InReach B K H (.closure f))
      (h : ∀ r, Honest ρ B K (.resumption r :: H) [] X (next r)) :
      Honest ρ B K H [] X (.function answer f next)
  | take {B K H X r next} (hr : InReach B K H (.resumption r))
      (h : ∀ r', Honest ρ B K (.resumption r' :: H) [] X (next r')) :
      Honest ρ B K H [] X (.take r next)
  | resume {B K H X r v next} (hr : InReach B K H (.resumption r)) (hv : ρ.value v)
      (hpays : Affords H v.owned) (h : ∀ w, ρ.value w → Honest ρ B [] w.owned [] X (next w)) :
      Honest ρ B K H [] X (.resume r v next)
  | tailResume {B K H X r v next} (H' : List Owned) (hr : InReach B K H (.resumption r))
      (hv : ρ.value v) (hpays : Affords H (v.owned ++ H')) (h : Honest ρ B [] H' [] X next) :
      Honest ρ B K H [] X (.tailResume r v next)
  | handle {B K H X i body next} (htype : ρ.types i.handlerType) (hhandler : i.handler ∉ ρ.kept)
      (hpays : Affords H (i.owned ++ [.cell i.handler]))
      (hbody : ∀ this, Honest ρ ((i.owned ++ [.reference this]) ++ ρ.base) [] [] [] [] (body this))
      (h : ∀ v, ρ.value v → Honest ρ B [] v.owned [] X (next v)) :
      Honest ρ B K H [] X (.handle i body next)
  | invoke {B K H X target command next} (htarget : target.uses = [])
      (hpays : Affords H command.owned) (hpayload : Affords command.owned command.payload.owned)
      (h : ∀ v, ρ.value v → Honest ρ B [] v.owned [] X (next v)) :
      Honest ρ B K H [] X (.invoke target command next)

omit [Contents ω] in
theorem Comp.asksPool_ask {q : Query} (h : q ≠ .pooledStacks) (next : Value → Comp ω) :
    (Comp.ask q next).asksPool = false := by
  cases q <;> first | rfl | exact absurd rfl h

namespace Comp.Honest

variable {ρ : Regime ω} {B B' H H' D X : List Owned} {K K' : Knowledge} {c : Comp ω}

/-- Code stays honest where it has, is lent, and knows of more. -/
theorem mono (h : c.Honest ρ B K H D X) (hB : B ⊆ B') (hK : K ⊆ K') (hH : Affords H' H) :
    c.Honest ρ B' K' H' D X := by
  induction h generalizing B' K' H' with
  | done hv h => exact .done hv (hH.trans h)
  | record _ ih => exact .record (ih hB hK hH)
  | ask huses hpool _ ih => exact .ask huses hpool fun v => ih v hB hK hH
  | alloc G hy hpays _ ih =>
    exact .alloc G hy (hH.trans hpays) fun c hc => ih c hc hB hK (.refl _)
  | read os hc hos _ ih =>
    exact .read os (hc.mono hB hK hH) hos fun y hy => ih y hy hB (List.cons_subset_cons _ hK) hH
  | write old G D' hy hc hold howes hpays _ ih =>
    refine .write old G D' hy (hc.mono hB hK hH) (hold.imp_right fun h => hK h)
      (fun o ho => ⟨(howes o ho).1, (howes o ho).2.mono hB hK hH⟩)
      (((hH.append_right _).append_right _).trans hpays)
      (ih hB (List.filter_subset _ hK) (.refl _))
  | retain hc _ ih => exact .retain (hc.mono hB hK hH) (ih hB hK (hH.cons _))
  | release G hpays _ ih => exact .release G (hH.trans hpays) (ih hB (List.Subset.refl _) (.refl _))
  | @scope _ _ _ _ os _ _ G X' hpays _ _ ihbody ih =>
    have hlent : os ++ B' ⊇ os ++ _ := fun o ho =>
      List.mem_append.mpr ((List.mem_append.mp ho).imp_right (hB ·))
    exact .scope G X' (hH.trans hpays) (ihbody hlent hK (.refl _))
      fun v hv => ih v hv hB (List.Subset.refl _) (.refl _)
  | loop hseed hpays _ _ ihbody ih =>
    exact .loop hseed (hH.trans hpays) (fun v hv => ihbody v hv hB (List.Subset.refl _) (.refl _))
      fun v hv => ih v hv hB (List.Subset.refl _) (.refl _)
  | closure G hpays hbody _ _ ih =>
    exact .closure G (hH.trans hpays) hbody fun f => ih f hB hK (.refl _)
  | function hf _ ih => exact .function (hf.mono hB hK hH) fun r => ih r hB hK (hH.cons _)
  | take hr _ ih => exact .take (hr.mono hB hK hH) fun r => ih r hB hK (hH.cons _)
  | resume hr hv hpays _ ih =>
    exact .resume (hr.mono hB hK hH) hv (hH.trans hpays) fun w hw =>
      ih w hw hB (List.Subset.refl _) (.refl _)
  | tailResume G hr hv hpays _ ih =>
    exact .tailResume G (hr.mono hB hK hH) hv (hH.trans hpays) (ih hB (List.Subset.refl _) (.refl _))
  | handle htype hhandler hpays hbody _ _ ih =>
    exact .handle htype hhandler (hH.trans hpays) hbody fun v hv =>
      ih v hv hB (List.Subset.refl _) (.refl _)
  | invoke htarget hpays hpayload _ ih =>
    exact .invoke htarget (hH.trans hpays) hpayload fun v hv =>
      ih v hv hB (List.Subset.refl _) (.refl _)

/-- Honest code uses names and cells, and can get at them. -/
theorem uses (h : c.Honest ρ B K H D X) {o : Owned} (ho : o ∈ c.uses) :
    (o.isName = true ∨ ∃ cell, o = .cell cell) ∧ InReach B K H o := by
  cases h <;> simp_all [Comp.uses, Owned.isName]

/-- Honest code does not ask for the pool of stacks. -/
theorem asksPool (h : c.Honest ρ B K H D X) : c.asksPool = false := by
  cases h with
  | ask _ hpool => exact asksPool_ask hpool _
  | _ => rfl

end Comp.Honest

/-- The clauses and return clauses of the handler types in use are honest. A clause is lent its
handler, its resumption and what comes with the command. -/
structure Library.Honest (Γ : Library ω) (ρ : Regime ω) : Prop where
  clauses : ∀ t, ρ.types t → ∀ clause ∈ (Γ.handlerType t).clauses, ∃ run,
    clause.code = .resumptive run ∧ ∀ cell ∉ ρ.kept, ∀ payload os r, Affords os payload.owned →
      (run cell payload r).Honest ρ ((.resumption r :: os) ++ .cell cell :: ρ.base) [] [] [] []
  onReturn : ∀ t, ρ.types t → ∀ cell ∉ ρ.kept, ∀ v, ρ.value v →
    ((Γ.handlerType t).onReturn cell v).Honest ρ (.cell cell :: ρ.base) [] v.owned [] []

end EffectHandlers
