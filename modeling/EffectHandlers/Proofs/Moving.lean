import EffectHandlers.Proofs.Outcomes
import EffectHandlers.Proofs.Posts
/-!
# What every step moves

Every step of a thread makes one of the listed moves, whatever its program is.
-/

namespace EffectHandlers

variable {ω : Type} {Γ : Library ω} {m m' m₀ : Machine ω} {A : List (Activation ω)}
  {S : List (Activation ω)}

open Machine

namespace Machine

/-- What is not a post may be put on the stack, and taken off. -/
theorem posts_eq (hstack : postsOf m'.stack = postsOf m.stack) (hfibers : m'.fibers = m.fibers) :
    m'.posts = m.posts := by
  simp only [posts, postsOf, List.filter_append, hfibers]
  exact congrArg (· ++ _) hstack

/-- Control that carries no continuation rouses none. -/
theorem roused_subperm (hpending : m'.pending = m.pending) (hconts : m'.control.conts = []) :
    m'.roused.Subperm m.roused := by
  refine List.Sublist.subperm (List.Sublist.filter _ ?_)
  simp only [armed, hpending, hconts, List.append_nil]
  exact List.sublist_append_left _ _

/-- A resumption less. -/
theorem latent_erase {r : ResumptionId} {k : Cont ω} (hk : m.resumptions.find? r = some k) :
    m.latent.Perm ((if k.isCaptured then [k] else []) ++
      ({ m with resumptions := m.resumptions.erase r } : Machine ω).latent) := by
  have hperm := ((Store.entries_perm_erase hk).map (·.2)).filter Cont.isCaptured
  simp only [List.map_cons, List.filter_cons] at hperm
  cases hcaptured : k.isCaptured <;> simpa [latent, hcaptured] using hperm

/-- A resumption more. -/
theorem latent_insert (s : Store (Cont ω)) (k : Cont ω) :
    (((s.insert k).2.entries.map (·.2)).filter Cont.isCaptured).Perm
      ((if k.isCaptured then [k] else []) ++ (s.entries.map (·.2)).filter Cont.isCaptured) := by
  simp only [Store.insert, List.map_cons, List.filter_cons]
  split <;> exact .refl _

namespace Within

/-- Only what is not a post has changed on the stack. -/
theorem onTop (hstack : postsOf m'.stack = postsOf m.stack) (hfibers : m'.fibers = m.fibers)
    (hresumptions : m'.resumptions = m.resumptions) (hpending : m'.pending = m.pending)
    (hconts : m'.control.conts = []) : m'.Within m.posts m.latent m.roused where
  posts := posts_eq hstack hfibers ▸ .refl _
  latent := by
    simp only [Machine.latent, hresumptions]
    exact .refl _
  roused := roused_subperm hpending hconts

/-- A fiber less. -/
theorem drop {f : FiberId} (hS : m.fibers.parked.find? f = some S) :
    ({ m with fibers := { m.fibers with parked := m.fibers.parked.erase f } } : Machine ω).Within
      m.posts m.latent m.roused where
  posts := by
    have hperm := ((Fibers.code_drop hS).append_left m.stack).filter Activation.isPost
    refine List.Subperm.trans (List.Sublist.subperm ?_) hperm.symm.subperm
    exact ((List.sublist_append_right _ _).append_left _).filter _
  latent := .refl _
  roused := .refl _

end Within

end Machine

variable [Contents ω]

namespace Moves

/-- Nothing is new. -/
theorem keep (h : m'.Within m.posts m.latent m.roused) (hchain : m.chain.SameLinks m'.chain) :
    Moves Γ m m' := .keeps (A := []) (by simp) h hchain

/-- An operation on top of the running code. -/
theorem onTop (hstack : postsOf m'.stack = postsOf m.stack) (hfibers : m'.fibers = m.fibers)
    (hresumptions : m'.resumptions = m.resumptions) (hpending : m'.pending = m.pending)
    (hconts : m'.control.conts = []) (hchain : m.chain.SameLinks m'.chain) : Moves Γ m m' :=
  keep (.onTop hstack hfibers hresumptions hpending hconts) hchain

/-! ### Releases -/

theorem releaseOne {x : Holding} {hs : List Holding} (h : m.releasing = x :: hs) :
    Moves Γ m (({ m with releasing := hs } : Machine ω).releaseOne x) := by
  have hrefl : Within m m.posts m.latent m.roused := .refl m
  have hkeep : ∀ m' : Machine ω, m'.Within m.posts m.latent m.roused → m'.chain = m.chain →
      Moves Γ m m' := fun m' hm' hchain => keep hm' (hchain ▸ .refl _)
  cases x with
  | asset o =>
    cases o with
    | cell c =>
      simp only [Machine.releaseOne, releaseAsset, releaseCell]
      split
      · exact hkeep _ ⟨hrefl.posts, hrefl.latent, hrefl.roused⟩ rfl
      · split <;> exact hkeep _ ⟨hrefl.posts, hrefl.latent, hrefl.roused⟩ rfl
    | resumption r =>
      simp only [Machine.releaseOne, releaseAsset]
      split
      · exact hkeep _ ⟨hrefl.posts, hrefl.latent, hrefl.roused⟩ rfl
      · rename_i k hk
        refine hkeep _ ⟨hrefl.posts, ?_, hrefl.roused⟩ rfl
        exact (List.sublist_append_right _ _).subperm.trans (latent_erase hk).symm.subperm
    | notice n => exact hkeep _ ⟨hrefl.posts, hrefl.latent, hrefl.roused⟩ rfl
    | _ =>
      simp only [Machine.releaseOne, releaseAsset]
      split <;> exact hkeep _ ⟨hrefl.posts, hrefl.latent, hrefl.roused⟩ rfl
  | installation i =>
    simp only [Machine.releaseOne, releaseInstallation]
    split
    · exact hkeep _ ⟨hrefl.posts, hrefl.latent, hrefl.roused⟩ rfl
    · rename_i a ha
      split
      · rename_i hlast
        exact .frees h ha hlast ⟨hrefl.posts, hrefl.latent, hrefl.roused⟩ rfl
      · exact keep ⟨hrefl.posts, hrefl.latent, hrefl.roused⟩ (.modify _ _ fun _ => rfl)
  | fiber f =>
    simp only [Machine.releaseOne]
    split
    · exact hkeep _ ⟨hrefl.posts, hrefl.latent, hrefl.roused⟩ rfl
    · rename_i S fs hdrop
      obtain ⟨S', hS, heq⟩ := Option.map_eq_some_iff.mp hdrop
      obtain ⟨rfl, rfl⟩ := Prod.mk.inj heq
      have hless := Within.drop (m := m) hS
      exact hkeep _ ⟨hless.posts, hless.latent, hless.roused⟩ rfl
  | exchange e =>
    simp only [Machine.releaseOne]
    split <;> exact hkeep _ ⟨hrefl.posts, hrefl.latent, hrefl.roused⟩ rfl

/-! ### Operations -/

/-- A new body runs on a new fiber, or the installation fails. -/
theorem handle {x : Installing} {body : ReferenceId → Comp ω} {next : Value → Comp ω}
    (hm : m.Evaluates (.handle x body next)) : Moves Γ m (m.step Γ) := by
  have hstep : m.step Γ = (m.push (.bind next)).install Γ x body := by
    simp only [step, hm.1, hm.2, Machine.eval]
  obtain ⟨nextLabel, declared, pool, counters, journal, h⟩ :=
    exists_install_eq (Γ := Γ) (m.push (.bind next)) x body
  have hlinks : m.chain.SameLinks { m.chain with nextLabel } := .of_installations rfl rfl
  rcases h with ⟨f, h⟩ | h | ⟨label, -, h⟩
  · rw [hstep, h]
    exact onTop rfl rfl rfl rfl rfl hlinks
  · rw [hstep, h]
    exact onTop rfl rfl rfl rfl rfl hlinks
  · rw [h] at hstep
    have hinstalls : m.Installs Γ x body m.chain.installations.next m.fibers.parked.next := by
      refine ⟨⟨next, hm⟩, rfl, rfl, ?_, ?_, ?_, ?_⟩ <;> rw [hstep] <;> rfl
    refine .pushes (A := [.driving m.chain.installations.next m.fibers.parked.next])
      (a := x.installation Γ label) (fun a ha => ?_) ?_ hlinks ?_
    · obtain rfl := List.mem_singleton.mp ha
      exact ⟨.installed hinstalls, by simp⟩
    · rw [hstep]
      refine ⟨?_, .refl _, roused_subperm rfl rfl⟩
      simp only [posts, postsOf, fibersInstalled, Fibers.code, push, List.flatMap_cons,
        List.filter_append, List.filter_cons, Activation.isPost, if_true,
        Bool.false_eq_true, if_false, List.nil_append, List.cons_append, List.append_assoc]
      exact .refl _
    · rw [hstep]
      rfl

/-- A command goes to a plain clause at once, or it leaves a request and an invocation that waits, or
there is no such clause. -/
theorem invoke_cases {e : ExchangeId} {command : Command} {i : InstallationId} {position : Nat}
    {next : Value → Comp ω} (hm : m.Sends e command i position next) :
    (∃ s, m.Hides (m.step Γ) e i s) ∨ Moves Γ m (m.step Γ) ∧ ∀ c, (m.step Γ).control ≠ .eval c := by
  obtain ⟨target, ⟨hreleasing, hcontrol⟩, hfound, rfl⟩ := id hm
  have hstep : m.step Γ = (m.push (.bind next)).send Γ i position command := by
    simp only [step, hreleasing, hcontrol, eval, hfound]
  have hheld : m.chain.SameLinks (m.chain.modify i fun a => { a with shares := a.shares + 1 }) :=
    .modify _ _ fun _ => rfl
  unfold Machine.send at hstep
  simp only at hstep
  split at hstep
  · rcases sendInPlace_cases (Γ := Γ) (m.push (.bind next)) i position command with
      ⟨text, h⟩ | ⟨run, hcode, h⟩ | ⟨run, hidden, c', hcode, hsplit, h⟩
    · rw [hstep, h]
      exact .inr ⟨onTop rfl rfl rfl rfl rfl (.refl _), by simp [goOn]⟩
    · rw [hstep, h]
      exact .inr ⟨onTop rfl rfl rfl rfl rfl hheld, by simp⟩
    · refine .inl ⟨hidden, ⟨command, position, next, hm⟩, ?_, _, c', hheld, hsplit, ?_⟩
      · rw [hstep, h]
        exact ⟨.refl _, .refl _, roused_subperm rfl rfl⟩
      · rw [hstep, h]
        exact .modify _ _ fun _ => rfl
  · refine .inr ⟨.keeps (fun a ha => ?_) (A := [.sending i m.exchanges.next
      ((((m.chain.get i).clauses[position]?).map ClauseEntry.modifier).getD .resumptive)
      command.name]) ?_ ?_, ?_⟩
    · obtain rfl := List.mem_singleton.mp ha
      exact ⟨.sending, by simp⟩
    · rw [hstep]
      exact ⟨.refl _, .refl _, roused_subperm rfl rfl⟩
    · rw [hstep]
      exact hheld
    · rw [hstep]
      simp [goOn]

theorem invoke {e : ExchangeId} {command : Command} {i : InstallationId} {position : Nat}
    {next : Value → Comp ω} (hm : m.Sends e command i position next) : Moves Γ m (m.step Γ) := by
  rcases invoke_cases hm with ⟨s, h⟩ | ⟨h, -⟩
  exacts [.hides h, h]

/-- A resumption is resumed, or tail-resumed: its continuation is to start. -/
theorem arm {r : ResumptionId} {v : Value} {k : Cont ω} {d : Dealing ω} (hd : m.dealing? = some d)
    (hresumed : d.resumed? = some (k, v)) (hk : m.resumptions.find? r = some k)
    (hstack : postsOf m'.stack = postsOf m.stack) (hfibers : m'.fibers = m.fibers)
    (hresumptions : m'.resumptions = m.resumptions.erase r)
    (harmed : m'.armed.Subperm (k.arm v :: m.armed)) (hchain : m'.chain = m.chain) :
    Moves Γ m m' := by
  have hposts : m'.posts.Subperm m.posts := posts_eq hstack hfibers ▸ .refl _
  have hlatent := latent_erase hk
  have hlatent' : m'.latent =
      ({ m with resumptions := m.resumptions.erase r } : Machine ω).latent := by
    simp only [latent, hresumptions]
  have hroused : m'.roused.Subperm ((k.arm v :: m.armed).filter Cont.isCaptured) := by
    obtain ⟨l, hperm, hsub⟩ := harmed
    exact ⟨l.filter Cont.isCaptured, hperm.filter _, hsub.filter _⟩
  have hlinks : m.chain.SameLinks m'.chain := hchain ▸ .refl _
  cases k with
  | captured answer f s e =>
    refine .arms ⟨d, _, hd, hresumed, rfl⟩ rfl hlatent ⟨hposts, hlatent' ▸ .refl _, ?_⟩ hlinks
    exact hroused
  | function answer g arg =>
    exact keep ⟨hposts, hlatent'.symm ▸ hlatent.symm.subperm, hroused⟩ hlinks

/-- Every operation but installing and sending. -/
theorem eval {c : Comp ω} (hm : m.Evaluates c)
    (hhandle : ∀ x body next, c ≠ .handle x body next)
    (hinvoke : ∀ target command next, c ≠ .invoke target command next) :
    Moves Γ m (m.eval Γ c) := by
  have harmed := armed_of_eval hm.2
  cases c with
  | handle x body next => exact absurd rfl (hhandle x body next)
  | invoke target command next => exact absurd rfl (hinvoke target command next)
  | apply f arg next =>
    simp only [Machine.eval, applyClosure]
    split <;> exact onTop rfl rfl rfl rfl rfl (.refl _)
  | find search next =>
    simp only [Machine.eval]
    split
    · exact onTop rfl rfl rfl rfl rfl (.refl _)
    · exact onTop rfl rfl rfl rfl rfl (.modify _ _ fun _ => rfl)
  | copy r next =>
    simp only [Machine.eval]
    split
    · exact onTop rfl rfl rfl rfl rfl (.refl _)
    · exact onTop rfl rfl rfl rfl rfl (.modify _ _ fun _ => rfl)
  | function answer f next =>
    simp only [Machine.eval]
    split
    · exact keep ⟨.refl _, .refl _, roused_subperm rfl rfl⟩ (.refl _)
    · exact keep ⟨.refl _, .refl _, roused_subperm rfl rfl⟩ (.refl _)
  | take r next =>
    simp only [Machine.eval]
    split
    · exact keep ⟨.refl _, .refl _, roused_subperm rfl rfl⟩ (.refl _)
    · rename_i k hk
      refine keep ⟨.refl _, ?_, roused_subperm rfl rfl⟩ (.refl _)
      exact (latent_insert (m.resumptions.erase r) k).subperm.trans (latent_erase hk).symm.subperm
  | resume r v next =>
    simp only [Machine.eval, Machine.resume]
    cases hk : m.resumptions.find? r with
    | none =>
      simp only [Machine.arm, push, hk, Option.map_none]
      exact onTop rfl rfl rfl rfl rfl (.refl _)
    | some k =>
      have hd : m.dealing? = some (.resumes r k v) := by
        simp [dealing?, hm.1, hm.2, hk]
      rw [arm_eq (m := m.push (.bind next)) hk]
      refine arm hd rfl hk rfl rfl rfl ?_ rfl
      show (m.pending.toList ++ [k.arm v]).Subperm _
      rw [harmed]
      exact (List.perm_append_singleton (k.arm v) m.pending.toList).subperm
  | tailResume r v next =>
    simp only [Machine.eval, Machine.tailResume]
    cases hk : m.resumptions.find? r with
    | none =>
      simp only [Machine.arm, hk, Option.map_none]
      exact onTop rfl rfl rfl rfl rfl (.refl _)
    | some k =>
      have hd : m.dealing? = some (.tailResumes r k v) := by
        simp [dealing?, hm.1, hm.2, hk]
      rw [arm_eq hk]
      simp only [bump]
      split
      · refine arm hd rfl hk rfl rfl rfl ?_ rfl
        exact ((List.nil_sublist _).cons_cons _).subperm
      · refine arm hd rfl hk rfl rfl rfl ?_ rfl
        show (m.pending.toList ++ []).Subperm _
        rw [harmed, List.append_nil]
        exact (List.sublist_cons_self _ _).subperm
  | ask q next =>
    obtain ⟨nextLabel, hanswer⟩ := exists_answer_eq m q
    simp only [Machine.eval, hanswer]
    exact onTop rfl rfl rfl rfl rfl (.of_installations rfl rfl)
  | view v next =>
    obtain ⟨pool, journal, hview⟩ := exists_view_eq m v
    simp only [Machine.eval, hview]
    exact onTop rfl rfl rfl rfl rfl (.refl _)
  | print p next =>
    obtain ⟨pool, journal, errors, hprint⟩ := exists_print_eq m p
    simp only [Machine.eval, hprint]
    exact onTop rfl rfl rfl rfl rfl (.refl _)
  | retain o next =>
    cases o <;> exact onTop rfl rfl rfl rfl rfl (.refl _)
  | pushBare label name clauses next =>
    exact .pushes (A := []) (by simp) (.onTop rfl rfl rfl rfl rfl) (.refl _) rfl
  | popBare next =>
    simp only [Machine.eval]
    split
    · exact onTop rfl rfl rfl rfl rfl (.refl _)
    · rename_i i c' hpop
      exact .pops (.onTop rfl rfl rfl rfl rfl) hpop rfl
  | _ => exact onTop rfl rfl rfl rfl rfl (.refl _)

/-! ### Control -/

omit [Contents ω] in
/-- Entering a fiber leaves the chain alone, and rouses nothing. -/
theorem enter_leaves (m : Machine ω) (i : InstallationId) (f : FiberId) :
    (m.enter i f).chain = m.chain ∧ (m.enter i f).pending = m.pending ∧
      (m.enter i f).control.conts = [] := by
  unfold Machine.enter
  split <;> exact ⟨rfl, rfl, rfl⟩

omit [Contents ω] in
theorem chain_settle (m : Machine ω) (answer : String) (v : Value) (kept : List Holding) :
    (m.settle answer v kept).chain = m.chain := by
  unfold Machine.settle
  split
  · rfl
  · simp only
    split <;> rfl

/-- An installation whose body has returned is taken off the chain, or it is not on top of it. -/
theorem finish_cases {i : InstallationId} {f : FiberId} {v : Value} (hreleasing : m.releasing = [])
    (hcontrol : m.control = .ret v) (hS : m.stack = .driving i f :: S) :
    m.Retires Γ (m.step Γ) i ∨ Moves Γ m (m.step Γ) ∧ ∀ c, (m.step Γ).control ≠ .eval c := by
  have hpopped : ({ m with stack := S } : Machine ω).Within m.posts m.latent m.roused :=
    (Within.refl m).pop hS
  have hstep : m.step Γ = ({ m with stack := S } : Machine ω).finish Γ i v := by
    simp only [step, hreleasing, hcontrol, Machine.give, hS]
  unfold Machine.finish at hstep
  split at hstep
  · rw [hstep]
    exact .inr ⟨keep (hpopped.goOn rfl) (.refl _), by simp [goOn]⟩
  · rename_i top c' hpop
    simp only at hstep
    split at hstep
    · have hfault : ({ m with stack := S, chain := c' } : Machine ω).Within m.posts m.latent
          m.roused := ⟨hpopped.posts, hpopped.latent, hpopped.roused⟩
      rw [hstep]
      exact .inr ⟨.pops (hfault.goOn rfl) hpop rfl, by simp [goOn]⟩
    · rename_i htop
      rw [Decidable.not_not] at htop
      subst htop
      have hget : (c'.get top).handlerType = (m.chain.get top).handlerType ∧
          (c'.get top).handler = (m.chain.get top).handler := by
        obtain ⟨b, -, heq⟩ := Option.map_eq_some_iff.mp hpop
        obtain ⟨rfl, rfl⟩ := Prod.mk.inj heq
        simp only [Chain.get, Chain.modify, Store.find?_modify, if_pos]
        cases m.chain.installations.find? m.chain.top <;> exact ⟨rfl, rfl⟩
      have hpushed := hpopped.push (.returning top
        (Γ.handlerType (c'.get top).handlerType).answer)
      refine .inl ⟨⟨v, hreleasing, hcontrol, ⟨f, S, hS⟩, ?_, ?_⟩,
        ⟨(Γ.handlerType (c'.get top).handlerType).answer, ?_⟩, c', hpop, ?_⟩
      · rw [hstep, ← hget.1, ← hget.2]
        rfl
      · rw [hstep]
        exact ⟨_, _, rfl⟩
      · rw [hstep]
        exact ⟨hpushed.posts, hpushed.latent, roused_subperm rfl rfl⟩
      · rw [hstep]
        rfl

theorem finish {i : InstallationId} {f : FiberId} {v : Value} (hreleasing : m.releasing = [])
    (hcontrol : m.control = .ret v) (hS : m.stack = .driving i f :: S) : Moves Γ m (m.step Γ) := by
  rcases finish_cases hreleasing hcontrol hS with h | ⟨h, -⟩
  exacts [.retires h, h]

/-- A value is given to the top activation. -/
theorem give {v : Value} (hreleasing : m.releasing = []) (hcontrol : m.control = .ret v) :
    Moves Γ m (m.step Γ) := by
  have hstep : m.step Γ = m.give Γ v := by simp only [step, hreleasing, hcontrol]
  have hrefl : Within m m.posts m.latent m.roused := .refl m
  unfold Machine.give at hstep
  split at hstep
  · split at hstep
    · rw [hstep]
      exact keep (hrefl.goOn rfl) (.refl _)
    · rename_i m' hback
      obtain ⟨journal, hwarn⟩ := exists_warn_eq { m' with pool := m'.pool.giveBack.1 }
        m'.pool.giveBack.2
      have hsame : m.step Γ = { m' with pool := m'.pool.giveBack.1, journal } := hstep.trans hwarn
      rw [hsame]
      have hback' := hrefl.handBack hback rfl
      obtain ⟨⟨code, fs⟩, hfs, rfl⟩ := Option.map_eq_some_iff.mp hback
      exact keep ⟨hback'.posts, hback'.latent, hback'.roused⟩ (.refl _)
  · rename_i a S hS
    have hpopped : ({ m with stack := S } : Machine ω).Within m.posts m.latent m.roused :=
      hrefl.pop hS
    cases a with
    | driving i f => exact finish hreleasing hcontrol hS
    | inPlace i handler hidden e =>
      simp only at hstep
      refine .returns (v := v) ⟨hreleasing, ⟨_, hS, rfl⟩, hcontrol, ?_, ?_⟩
        (.of_eq (Within.posts_pop hS rfl)) ?_ ?_
      · rw [hstep]
        exact hcontrol
      · rw [hstep]
        rfl
      · rw [hstep]
        exact ⟨.refl _, .refl _, .refl _⟩
      · rw [hstep]
        exact .refl _
    | clause keeps answer =>
      rw [hstep]
      exact keep ((hpopped.release _).goOn rfl) (.refl _)
    | returning i answer | calling answer =>
      rw [hstep]
      exact keep (hpopped.settle _ _ _) (.of_eq (chain_settle _ _ _ _))
    | looping body next =>
      simp only at hstep
      rw [hstep]
      split
      · exact keep ((hpopped.pushLocal rfl).goOn rfl) (.refl _)
      · exact keep (hpopped.goOn rfl) (.refl _)
      · exact keep (hpopped.goOn rfl) (.refl _)
    | owning os =>
      rw [hstep]
      exact keep (hpopped.release _) (.refl _)
    | _ =>
      rw [hstep]
      exact keep (hpopped.goOn rfl) (.refl _)

/-- A step of a continuation, or the end of a loop. -/
theorem deliver {s : Step (Cont ω) Value} (hcontrol : m.control = .deliver s) :
    Moves Γ m (m.deliver s) := by
  have hrefl : Within m m.posts m.latent m.roused := .refl m
  unfold Machine.deliver
  split
  · rename_i S hS
    split
    · have hpopped := hrefl.pop hS
      exact keep ⟨hpopped.posts, hpopped.latent, roused_subperm rfl rfl⟩ (.refl _)
    · rename_i k
      cases k with
      | captured answer f segment e =>
        have hroused : m.roused.Perm (.captured answer f segment e ::
            m.pending.toList.filter Cont.isCaptured) := by
          simp only [roused, armed, hcontrol, Control.conts, List.filter_append]
          exact List.perm_append_comm
        obtain ⟨m₁, hm₁, hstep⟩ : ∃ m₁ : Machine ω, m₁ = { m.trace (.resumed
              (m.chain.get segment.lowest).label (m.chain.get segment.lowest).name
              (m.chain.segmentLength segment)) with chain := m.chain.splice segment } ∧
            m.stepCont (.captured answer f segment e) = m₁.enter segment.lowest f := ⟨_, rfl, rfl⟩
        have hwithin : m₁.Within m.posts m.latent m.roused := by
          subst hm₁
          exact ⟨hrefl.posts, hrefl.latent, hrefl.roused⟩
        obtain ⟨hchain, hpending, hconts⟩ := enter_leaves m₁ segment.lowest f
        have hentered := hwithin.enter segment.lowest f
        rw [hstep]
        refine .resumes hroused ⟨hentered.posts, hentered.latent, ?_⟩ (.of_eq ?_)
        · -- without the continuation that starts, only the waiting one is left
          have hwaiting : m₁.pending = m.pending := by rw [hm₁]; rfl
          simp only [roused, armed, hpending, hwaiting, hconts, List.append_nil]
          exact .refl _
        · rw [hchain, hm₁]
      | function answer g arg =>
        cases arg <;> exact onTop rfl rfl rfl rfl rfl (.refl _)
  · exact onTop rfl rfl rfl rfl rfl (.refl _)

/-- The running fiber goes on. -/
theorem wake : Moves Γ m m.wake := by
  have hrefl : Within m m.posts m.latent m.roused := .refl m
  unfold Machine.wake
  split
  · rename_i body S hS
    have hpopped := hrefl.pop hS
    exact keep ⟨hpopped.posts, hpopped.latent, roused_subperm rfl rfl⟩ (.refl _)
  · rename_i i f S hS
    -- the driver changes its place
    have hpopped : ({ m with stack := S } : Machine ω).Within
        ({ m with stack := S } : Machine ω).posts m.latent m.roused := .refl _
    have hentered := hpopped.enter i f
    rw [← Within.posts_pop hS rfl] at hentered
    refine keep hentered ?_
    unfold Machine.enter
    split <;> exact .refl _
  · rename_i i e modifier command S hS
    have hpopped := hrefl.pop hS
    split
    · exact keep (hrefl.goOn rfl) (.refl _)
    · split
      · exact keep ⟨hpopped.posts, hpopped.latent, roused_subperm rfl rfl⟩ (.refl _)
      · exact keep (hrefl.goOn rfl) (.refl _)
  · exact keep (hrefl.goOn rfl) (.refl _)

/-- A continuation is captured for a request, or the request is passed on, or there is no clause
for it. -/
theorem forward_cases {r : Request} (hm : m.Hands r) :
    (∃ s, m.Captures Γ (m.forward Γ r) r s) ∨
      Moves Γ m (m.forward Γ r) ∧ ∀ c, (m.forward Γ r).control ≠ .eval c := by
  unfold Machine.forward
  split
  · exact .inr ⟨onTop rfl rfl rfl rfl rfl (.refl _), by simp [goOn]⟩
  · rename_i code fs hsuspend
    have hposts := Within.posts_suspend hsuspend
    have hsuspended : ∀ c : Control ω, c.conts = [] →
        ({ m with fibers := fs, stack := code, control := c } : Machine ω).Within m.posts m.latent
          m.roused := fun c hc => ⟨hposts.subperm, .refl _, roused_subperm rfl hc⟩
    simp only
    split
    · rename_i i f rest
      split
      · rename_i htarget
        subst htarget
        have hpopped : ({ m with fibers := fs, stack := rest } : Machine ω).Within m.posts m.latent
            m.roused :=
          ⟨((postsOf_sublist _ _).subperm).trans hposts.subperm, .refl _, .refl _⟩
        have hi : .driving r.target f ∈ m.posts := by
          refine hposts.mem_iff.mp ?_
          exact List.mem_filter.mpr ⟨List.mem_cons_self, rfl⟩
        rcases capture_cases (Γ := Γ) ({ m with fibers := fs, stack := rest } : Machine ω)
          r.target f r with ⟨text, h⟩ | h | ⟨code, segment, c', hcode, hsplit, h⟩
        · rw [h]
          exact .inr ⟨keep (hpopped.goOn rfl) (.refl _), by simp [goOn]⟩
        · rw [h]
          exact .inr ⟨keep ((hpopped.release _).goOn rfl) (.refl _), by simp [goOn]⟩
        · have hlatent : m.latent.Subperm (.captured
              (Γ.handlerType (m.chain.get r.target).handlerType).answer f segment r.exchange ::
                m.latent) := (List.sublist_cons_self _ _).subperm
          refine .inl ⟨segment, hm, ⟨f, code, (Γ.handlerType
            (m.chain.get r.target).handlerType).answer, hi, hcode, ?_⟩, ?_⟩
          · rcases h with ⟨counters, journal, h⟩ | ⟨y, command, counters, journal, hy, hcommand, h⟩
            · rw [h]
              exact ⟨(hpopped.weaken _).posts, hlatent, roused_subperm rfl rfl⟩
            · rw [h]
              refine ⟨(hpopped.push (.clause (code.keeps r.target) _)).posts, ?_,
                roused_subperm rfl rfl⟩
              cases htakes : code.takes with
              | true =>
                simp only [latent, if_true]
                exact (latent_insert m.resumptions _).subperm
              | false =>
                simp only [latent, Bool.false_eq_true, if_false]
                exact hlatent
          · rcases h with ⟨counters, journal, h⟩ | ⟨y, command, counters, journal, hy, hcommand, h⟩
            · rw [h]
              exact ⟨_, c', .refl _, hsplit, .modify _ _ fun _ => rfl⟩
            · rw [h]
              exact ⟨_, c', .refl _, hsplit, .modify _ _ fun _ => rfl⟩
      · exact .inr ⟨keep (hsuspended _ rfl) (.refl _), by simp⟩
    · exact .inr ⟨keep (hsuspended _ rfl) (.refl _), by simp⟩

theorem forward {r : Request} (hm : m.Hands r) : Moves Γ m (m.forward Γ r) := by
  rcases forward_cases hm with ⟨s, h⟩ | ⟨h, -⟩
  exacts [.captures h, h]

theorem unwind {message : String} : Moves Γ m (m.unwind message) := by
  have hrefl : Within m m.posts m.latent m.roused := .refl m
  unfold Machine.unwind
  split
  · cases hback : m.handBack (.unwind message) with
    | none => exact keep (hrefl.goOn rfl) (.refl _)
    | some m' =>
      have hchain : m'.chain = m.chain := by
        obtain ⟨⟨code, fs⟩, hfs, rfl⟩ := Option.map_eq_some_iff.mp hback
        rfl
      exact keep (hrefl.handBack hback rfl) (.of_eq hchain)
  · rename_i next S hS
    have hpopped := hrefl.pop hS
    exact keep ⟨hpopped.posts, hpopped.latent, roused_subperm rfl rfl⟩ (.refl _)
  · rename_i a S hS
    exact keep ((hrefl.pop hS).release _) (.refl _)

theorem exit {f : Fault} : Moves Γ m (m.exit f) :=
  keep ⟨.refl _, .refl _, (List.nil_sublist _).subperm⟩ (.refl _)

end Moves

/-- What every step moves. -/
theorem Machine.step_moves (Γ : Library ω) (m : Machine ω) : Moves Γ m (m.step Γ) := by
  cases hreleasing : m.releasing with
  | cons x hs =>
    rw [step_releasing hreleasing]
    exact .releaseOne hreleasing
  | nil =>
    have hrefl : Within m m.posts m.latent m.roused := .refl m
    cases hcontrol : m.control with
    | eval c =>
      by_cases hhandle : ∃ x body next, c = .handle x body next
      · obtain ⟨x, body, next, rfl⟩ := hhandle
        exact .handle ⟨hreleasing, hcontrol⟩
      by_cases hinvoke : ∃ target command next, c = .invoke target command next
      · obtain ⟨target, command, next, rfl⟩ := hinvoke
        cases hfound : m.chain.dispatch m.referent command.name target with
        | ok found => exact .invoke ⟨target, ⟨hreleasing, hcontrol⟩, hfound, rfl⟩
        | error f =>
          simp only [step, hreleasing, hcontrol, eval, hfound]
          exact .keep (hrefl.goOn rfl) (.refl _)
      · simp only [step, hreleasing, hcontrol]
        exact .eval ⟨hreleasing, hcontrol⟩ (fun x body next h => hhandle ⟨x, body, next, h⟩)
          fun target command next h => hinvoke ⟨target, command, next, h⟩
    | ret v => exact .give hreleasing hcontrol
    | deliver s =>
      simp only [step, hreleasing, hcontrol]
      exact .deliver hcontrol
    | settle answer v =>
      simp only [step, hreleasing, hcontrol]
      exact .keep (hrefl.settle _ _ _) (.of_eq (Moves.chain_settle _ _ _ _))
    | request r =>
      simp only [step, hreleasing, hcontrol]
      exact .forward ⟨hreleasing, hcontrol⟩
    | wake =>
      simp only [step, hreleasing, hcontrol]
      exact .wake
    | unwind message =>
      simp only [step, hreleasing, hcontrol]
      exact .unwind
    | fault f =>
      simp only [step, hreleasing, hcontrol]
      exact .exit
    | halted o =>
      rw [step_halted hcontrol hreleasing]
      exact .keep hrefl (.refl _)

namespace Machine

variable {e : ExchangeId} {command : Command} {i : InstallationId} {position : Nat} {v : Value}

/-- Where a return clause starts, an installation is taken off the chain. -/
theorem StartsReturn.retires (h : m.StartsReturn Γ i v) : m.Retires Γ (m.step Γ) i := by
  obtain ⟨hreleasing, hcontrol, ⟨f, S, hS⟩, heval, -⟩ := h
  rcases Moves.finish_cases hreleasing hcontrol hS with h | ⟨-, hnot⟩
  · exact h
  · exact absurd heval (hnot _)

/-- Where a plain clause starts, a segment is hidden. -/
theorem Starts.hides {code : ClauseCode ω} (h : m.Starts Γ e command i position)
    (hcode : m.codeAt Γ i position = some code) (hplain : code.modifier = .plain) :
    ∃ s, m.Hides (m.step Γ) e i s := by
  obtain ⟨code', ⟨hcode', heval, -⟩, h⟩ := h
  obtain rfl := Option.some.inj (hcode'.symm.trans hcode)
  rw [if_pos hplain] at h
  obtain ⟨next, hsends⟩ := h
  rcases Moves.invoke_cases hsends with h | ⟨-, hnot⟩
  · exact h
  · exact absurd heval (hnot _)

/-- Where any other clause starts, a continuation is captured. -/
theorem Starts.captures {code : ClauseCode ω} (h : m.Starts Γ e command i position)
    (hcode : m.codeAt Γ i position = some code) (hplain : code.modifier ≠ .plain) :
    ∃ name s, m.Captures Γ (m.step Γ) ⟨i, position, e, name⟩ s := by
  obtain ⟨code', ⟨hcode', heval, -⟩, h⟩ := h
  obtain rfl := Option.some.inj (hcode'.symm.trans hcode)
  rw [if_neg hplain] at h
  obtain ⟨name, y, hhands, -, -⟩ := h
  have hstep : m.step Γ = m.forward Γ ⟨i, position, e, name⟩ := by
    simp only [step, hhands.1, hhands.2]
  rw [hstep] at heval ⊢
  rcases Moves.forward_cases hhands with ⟨s, h⟩ | ⟨-, hnot⟩
  · exact ⟨name, s, h⟩
  · exact absurd heval (hnot _)

end Machine

/-! ### Where posts and captured continuations come from -/

namespace Machine

theorem step_posts {a : Activation ω} (ha : a ∈ (m.step Γ).posts) :
    a ∈ m.posts ∨ a.Arises Γ m := by
  have hnew : ∀ {new : List (Activation ω)},
      (∀ a ∈ new, a.Arises Γ m ∧ ∀ i handler s e, a ≠ .inPlace i handler s e) →
        (m.step Γ).posts.Subperm (new ++ m.posts) → a ∈ m.posts ∨ a.Arises Γ m := by
    intro new hnew h
    rcases List.mem_append.mp (h.subset ha) with hmem | hmem
    exacts [.inr (hnew a hmem).1, .inl hmem]
  have hcons : ∀ {a' : Activation ω}, a'.Arises Γ m →
      (m.step Γ).posts.Subperm (a' :: m.posts) → a ∈ m.posts ∨ a.Arises Γ m := by
    intro a' ha' h
    rcases List.mem_cons.mp (h.subset ha) with rfl | hmem
    exacts [.inr ha', .inl hmem]
  cases step_moves Γ m with
  | keeps hn h _ => exact hnew hn h.posts
  | pushes hn h _ _ => exact hnew hn h.posts
  | pops h _ _ => exact .inl (h.posts.subset ha)
  | retires h =>
    obtain ⟨v, hstarts⟩ := h.starts
    obtain ⟨answer, hwithin⟩ := h.within
    exact hcons (.returning hstarts) hwithin.posts
  | frees _ _ _ h _ => exact .inl (h.posts.subset ha)
  | hides h =>
    obtain ⟨c₁, c₂, -, hsplit, -⟩ := h.cuts
    exact hcons (.inPlace (Chain.lowest_of_split hsplit)) h.within.posts
  | captures h =>
    obtain ⟨f, code, answer, hi, hcode, hwithin⟩ := h.within
    exact hcons (.clause hi hcode) hwithin.posts
  | arms _ _ _ h _ => exact .inl (h.posts.subset ha)
  | resumes hroused h _ =>
    exact hcons (.resumed (hroused.mem_iff.mpr List.mem_cons_self)) h.posts
  | returns _ hposts h _ =>
    exact .inl (hposts.mem_iff.mpr (List.mem_cons_of_mem _ (h.posts.subset ha)))

/-- A continuation that is new was captured from a driver. -/
theorem step_captured {k : Cont ω} (hk : k ∈ (m.step Γ).latent ++ (m.step Γ).roused) :
    k ∈ m.latent ++ m.roused ∨ ∃ answer f s e, k = .captured answer f s e ∧
      .driving s.lowest f ∈ m.posts := by
  have hkept : ∀ {R P : List (Cont ω)}, R ⊆ m.latent → P ⊆ m.roused →
      (m.step Γ).latent.Subperm R → (m.step Γ).roused.Subperm P → k ∈ m.latent ++ m.roused := by
    intro R P hR hP hlatent hroused
    rcases List.mem_append.mp hk with hk | hk
    exacts [List.mem_append_left _ (hR (hlatent.subset hk)),
      List.mem_append_right _ (hP (hroused.subset hk))]
  cases step_moves Γ m with
  | captures h =>
    obtain ⟨c₁, c₂, -, hsplit, -⟩ := h.cuts
    obtain ⟨f, code, answer, hi, -, h⟩ := h.within
    rcases List.mem_append.mp hk with hk | hk
    · rcases List.mem_cons.mp (h.latent.subset hk) with rfl | hk
      · exact .inr ⟨_, _, _, _, rfl, by rwa [Chain.lowest_of_split hsplit]⟩
      · exact .inl (List.mem_append_left _ hk)
    · exact .inl (List.mem_append_right _ (h.roused.subset hk))
  | arms _ _ hlatent h _ =>
    refine .inl ?_
    rcases List.mem_append.mp hk with hk | hk
    · exact List.mem_append_left _
        (hlatent.mem_iff.mpr (List.mem_cons_of_mem _ (h.latent.subset hk)))
    · rcases List.mem_cons.mp (h.roused.subset hk) with rfl | hk
      · exact List.mem_append_left _ (hlatent.mem_iff.mpr List.mem_cons_self)
      · exact List.mem_append_right _ hk
  | resumes hroused h _ =>
    exact .inl (hkept (List.Subset.refl _)
      (fun x hx => hroused.mem_iff.mpr (List.mem_cons_of_mem _ hx)) h.latent h.roused)
  | keeps _ h _ => exact .inl (hkept (List.Subset.refl _) (List.Subset.refl _) h.latent h.roused)
  | frees _ _ _ h _ => exact .inl (hkept (List.Subset.refl _) (List.Subset.refl _) h.latent h.roused)
  | pushes _ h _ _ => exact .inl (hkept (List.Subset.refl _) (List.Subset.refl _) h.latent h.roused)
  | pops h _ _ => exact .inl (hkept (List.Subset.refl _) (List.Subset.refl _) h.latent h.roused)
  | retires h =>
    obtain ⟨answer, h⟩ := h.within
    exact .inl (hkept (List.Subset.refl _) (List.Subset.refl _) h.latent h.roused)
  | hides h =>
    exact .inl (hkept (List.Subset.refl _) (List.Subset.refl _) h.within.latent h.within.roused)
  | returns _ _ h _ =>
    exact .inl (hkept (List.Subset.refl _) (List.Subset.refl _) h.latent h.roused)

/-- What a plain clause hides ends at its own installation. -/
def Hiding (m : Machine ω) : Prop :=
  ∀ i handler s e, .inPlace i handler s e ∈ m.posts → s.lowest = i

theorem Hiding.step (h : m.Hiding) : (m.step Γ).Hiding := by
  intro i handler s e ha
  rcases step_posts ha with ha | ha
  · exact h i handler s e ha
  · cases ha with
    | inPlace hs => exact hs

end Machine

end EffectHandlers
