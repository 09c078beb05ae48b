import EffectHandlers.Proofs.Lockstep
import EffectHandlers.Proofs.Mirror
/-!
# Calm code

Code that would panic can end instead: then it is orderly, and it does the same in a run that comes to a
value. So what is known of orderly programs is true of any program where such a run comes to an end.
-/

namespace EffectHandlers

variable {ω : Type}

/-- The code that ends where this one panics or touches the chain by hand. -/
def Comp.calm : Comp ω → Comp ω
  | .done v => .done v
  | .panic _ => .done .unit
  | .record e next => .record e next.calm
  | .alloc content next => .alloc content fun c => (next c).calm
  | .read c next => .read c fun content => (next content).calm
  | .write c content next => .write c content next.calm
  | .retain o next => .retain o next.calm
  | .release os next => .release os next.calm
  | .scope os body next => .scope os body.calm fun v => (next v).calm
  | .catching body next => .catching body.calm fun r => (next r).calm
  | .loop seed body next => .loop seed (fun v => (body v).calm) fun v => (next v).calm
  | .call procedure arg next => .call procedure arg fun v => (next v).calm
  | .closure owned body next => .closure owned (fun v => (body v).calm) fun f => (next f).calm
  | .apply f arg next => .apply f arg fun v => (next v).calm
  | .handle i body next => .handle i (fun r => (body r).calm) fun v => (next v).calm
  | .invoke target command next => .invoke target command fun v => (next v).calm
  | .find search next => .find search fun r => (next r).calm
  | .copy r next => .copy r fun r => (next r).calm
  | .function answer f next => .function answer f fun r => (next r).calm
  | .take r next => .take r fun r => (next r).calm
  | .resume r v next => .resume r v fun v => (next v).calm
  | .tailResume r v next => .tailResume r v next.calm
  | .ask q next => .ask q fun v => (next v).calm
  | .view v next => .view v next.calm
  | .print p next => .print p next.calm
  | .pushBare .. => .done .unit
  | .popBare _ => .done .unit

theorem Comp.calm_orderly (c : Comp ω) : c.calm.Orderly := by
  induction c with
  | done | panic | pushBare | popBare => trivial
  | record _ _ ih | write _ _ _ ih | retain _ _ ih | release _ _ ih | tailResume _ _ _ ih
  | view _ _ ih | print _ _ ih => exact ih
  | alloc _ _ ih | read _ _ ih | call _ _ _ ih | apply _ _ _ ih | invoke _ _ _ ih | find _ _ ih
  | copy _ _ ih | function _ _ _ ih | take _ _ ih | resume _ _ _ ih | ask _ _ ih => exact ih
  | scope _ _ _ ihb ih | catching _ _ ihb ih | loop _ _ _ ihb ih | closure _ _ _ ihb ih
  | handle _ _ _ ihb ih => exact ⟨ihb, ih⟩

/-- The code of a clause, calm. -/
def ClauseCode.calm : ClauseCode ω → ClauseCode ω
  | resumptive run => .resumptive fun c v r => (run c v r).calm
  | noManage run => .noManage fun c v r => (run c v r).calm
  | noResume run => .noResume fun c v => (run c v).calm
  | plain run => .plain fun c v => (run c v).calm

theorem ClauseCode.calm_orderly (x : ClauseCode ω) : x.calm.Orderly := by
  cases x with
  | resumptive run | noManage run => exact fun c v r => (run c v r).calm_orderly
  | noResume run | plain run => exact fun c v => (run c v).calm_orderly

/-- A handler type whose code is calm. -/
def HandlerType.calm (h : HandlerType ω) : HandlerType ω where
  answer := h.answer
  clauses := h.clauses.map fun c => { c with code := c.code.calm }
  onReturn c v := (h.onReturn c v).calm

/-- A library whose code is calm. -/
def Library.calm (Γ : Library ω) : Library ω where
  handlerType t := (Γ.handlerType t).calm
  procedure p v := (Γ.procedure p v).calm

theorem Library.calm_orderly (Γ : Library ω) : Γ.calm.Orderly where
  clauses t c hc := by
    obtain ⟨c', -, rfl⟩ := List.mem_map.mp hc
    exact c'.code.calm_orderly
  onReturn t c v := ((Γ.handlerType t).onReturn c v).calm_orderly
  procedure p v := (Γ.procedure p v).calm_orderly

namespace Rerun

variable {σ : Rerun} {rest : Comp Content → Comp Content → Prop} {ℓ : Role} {c c' : Comp Content}

/-- What is related to the rest, calm. -/
def calmRest (rest : Comp Content → Comp Content → Prop) (c c' : Comp Content) : Prop :=
  ∃ c₀, rest c c₀ ∧ c' = c₀.calm

theorem MapsCode.calm (h : σ.MapsCode rest ℓ c c') : σ.MapsCode (calmRest rest) ℓ c c'.calm := by
  induction h with
  | last h => exact .last ⟨_, h, rfl⟩
  | done hℓ hv => exact .done hℓ hv
  | panic message c' => exact .panic message _
  | record e _ ih => exact .record e ih
  | alloc hx _ ih => exact .alloc hx ih
  | read hc _ ih => exact .read hc ih
  | write hc hx _ ih => exact .write hc hx ih
  | retain ho _ ih => exact .retain ho ih
  | release ho _ ih => exact .release ho ih
  | scope ho _ _ ihb ih => exact .scope ho ihb ih
  | loop hs _ _ ihb ih => exact .loop hs ihb ih
  | call hp hv _ ih => exact .call hp hv ih
  | closure ho _ _ ihb ih => exact .closure ho ihb ih
  | apply hf hv _ ih => exact .apply hf hv ih
  | handle hx _ _ ihb ih => exact .handle hx ihb ih
  | invoke ht hc _ ih => exact .invoke ht hc ih
  | function answer hf _ ih => exact .function answer hf ih
  | take hr _ ih => exact .take hr ih
  | resume hr hv _ ih => exact .resume hr hv ih
  | tail hr hv hw => exact .tail hr hv hw
  | label _ ih => exact .label ih

theorem MapsClause.calm {x x' : ClauseCode Content} (h : σ.MapsClause rest x x') :
    σ.MapsClause (calmRest rest) x x'.calm := by
  cases h with
  | resumptive h => exact .resumptive fun _ _ _ _ _ _ hc hv hr => (h _ _ _ _ _ _ hc hv hr).calm
  | noManage h => exact .noManage fun _ _ _ _ _ _ hc hv hr => (h _ _ _ _ _ _ hc hv hr).calm
  | noResume h => exact .noResume fun _ _ _ _ hc hv => (h _ _ _ _ hc hv).calm

theorem MapsHandler.calm {h h' : HandlerType Content} (hh : σ.MapsHandler rest h h') :
    σ.MapsHandler (calmRest rest) h h'.calm where
  answer := hh.answer
  clauses := List.forall₂_map_right_iff.mpr (hh.clauses.imp fun _ _ hc => ⟨hc.1, hc.2.calm⟩)
  onReturn _ _ _ _ hc hv := (hh.onReturn _ _ _ _ hc hv).calm
  distinct := hh.distinct

theorem MapsLibrary.calm {Γ Γ' : Library Content} (h : σ.MapsLibrary rest Γ Γ') :
    σ.MapsLibrary (calmRest rest) Γ Γ'.calm where
  handlers t ht := (h.handlers t ht).calm
  procedures p hp v v' hv := (h.procedures p hp v v' hv).calm

end Rerun

/-! ### The chain where nothing is under way -/

theorem Chain.top_of_toList {c : Chain} {i : InstallationId} (h : c.toList = [i]) : c.top = i := by
  unfold Chain.toList at h
  cases hn : c.installations.next with
  | zero => simp [hn, Chain.follow] at h
  | succ n =>
    rw [hn, Chain.follow] at h
    split at h
    · exact List.singleton_inj.mp h
    · exact (List.cons.inj h).1

/-- Where native code of an orderly program runs, nothing is on top of the bottom. -/
theorem Machine.top_eq_zero [Contents ω] {Γ : Library ω} {settings : SettingsSlot} {cells : List ω}
    {statics : List Owned} {main c : Comp ω} (hΓ : Γ.Orderly) (hmain : main.Orderly)
    (hsize : settings.use.1.stackSize + StackPool.margin < Word.count) {n : Nat}
    (hcontrol : (run Γ n (start settings cells statics main)).control = .eval c)
    (hresumers : (run Γ n (start settings cells statics main)).fibers.resumers = []) :
    (run Γ n (start settings cells statics main)).chain.top = 0 := by
  have hgood := (Good.sound _ (Sound.start cells statics hmain hsize)).run n hΓ
  cases hgood with
  | sound l h =>
    have hlive := (h.mirrors hcontrol).live
    rw [Machine.blocked, hresumers] at hlive
    exact Chain.top_of_toList hlive
  | fault hfault => simp [hcontrol] at hfault
  | halted hhalted => simp [hcontrol] at hhalted

end EffectHandlers
