import EffectHandlers.Proofs.Asides
import EffectHandlers.Proofs.History
/-!
# Posts

Drivers, clauses, return clauses and invocations are activations that belong to an installation:
posts. A step puts few of them into the code of a thread, moves them about with the fibers, and
links, cuts or puts back a part of the chain at the same time. `Moves` lists all that a step can do
to posts, captured continuations and links; it holds of all programs.
-/

namespace EffectHandlers

variable {ω : Type} {Γ : Library ω}

/-! ### Chains with the same links -/

/-- Nothing has happened that following links could notice. -/
structure Chain.SameLinks (c c' : Chain) : Prop where
  top : c'.top = c.top
  next : c'.installations.next = c.installations.next
  wellFormed : c.installations.WellFormed → c'.installations.WellFormed
  links : ∀ i, (c'.installations.find? i).map (fun a => (a.label, a.below)) =
    (c.installations.find? i).map fun a => (a.label, a.below)

namespace Chain.SameLinks

variable {c c' c'' : Chain}

theorem of_installations (htop : c'.top = c.top) (h : c'.installations = c.installations) :
    c.SameLinks c' :=
  ⟨htop, by rw [h], by rw [h]; exact id, by simp [h]⟩

theorem of_eq (h : c' = c) : c.SameLinks c' :=
  .of_installations (congrArg Chain.top h) (congrArg Chain.installations h)

theorem refl (c : Chain) : c.SameLinks c := .of_eq rfl

theorem trans (h : c.SameLinks c') (h' : c'.SameLinks c'') : c.SameLinks c'' where
  top := h'.top.trans h.top
  next := h'.next.trans h.next
  wellFormed hc := h'.wellFormed (h.wellFormed hc)
  links i := (h'.links i).trans (h.links i)

theorem modify (c : Chain) (i : InstallationId) {f : Installation → Installation}
    (hf : ∀ a, ((f a).label, (f a).below) = (a.label, a.below)) : c.SameLinks (c.modify i f) where
  top := rfl
  next := rfl
  wellFormed hc := Store.wellFormed_modify hc _ _
  links j := by
    simp only [Chain.modify, Store.find?_modify]
    split
    · rw [Option.map_map]
      exact congrArg (Option.map · _) (funext hf)
    · rfl

theorem get (h : c.SameLinks c') (i : InstallationId) :
    (c'.get i).label = (c.get i).label ∧ (c'.get i).below = (c.get i).below := by
  have hlinks := h.links i
  simp only [Chain.get]
  cases ha : c.installations.find? i <;> cases ha' : c'.installations.find? i <;>
    simp_all

theorem isSome (h : c.SameLinks c') (i : InstallationId) :
    (c'.installations.find? i).isSome = (c.installations.find? i).isSome := by
  simpa using congrArg Option.isSome (h.links i)

end Chain.SameLinks

/-- A segment is cut off, down to an installation. -/
def Chain.Cuts (c : Chain) (i : InstallationId) (s : Segment) (c' : Chain) : Prop :=
  ∃ c₁ c₂, c.SameLinks c₁ ∧ c₁.split i = .ok (s, c₂) ∧ c₂.SameLinks c'

/-- A segment that is cut off ends where the chain is cut. -/
theorem Chain.lowest_of_split {c c' : Chain} {i : InstallationId} {s : Segment}
    (h : c.split i = .ok (s, c')) : s.lowest = i := by
  unfold Chain.split at h
  split at h
  · split at h
    · cases h
    · obtain ⟨rfl, -⟩ := Prod.mk.inj (Except.ok.inj h)
      rfl
  · cases h

/-! ### The code of a thread -/

namespace Fibers

variable {fs fs' : Fibers (List (Activation ω))} {f : FiberId} {S running : List (Activation ω)}

/-- The activations that are not running. -/
def code (fs : Fibers (List (Activation ω))) : List (Activation ω) :=
  fs.resumers.flatMap (·.code) ++ fs.parked.entries.flatMap (·.2)

theorem code_drop (h : fs.parked.find? f = some S) :
    fs.code.Perm (S ++ ({ fs with parked := fs.parked.erase f } : Fibers _).code) := by
  have hperm := (Store.entries_perm_erase h).flatMap_right (·.2)
  simp only [List.flatMap_cons] at hperm
  refine (hperm.append_left _).trans ?_
  simp only [code, ← List.append_assoc]
  exact List.perm_append_comm.append_right _

theorem code_resume (h : fs.resume? f running = some (S, fs')) :
    (S ++ fs'.code).Perm (running ++ fs.code) := by
  obtain ⟨S', hS, heq⟩ := Option.map_eq_some_iff.mp h
  obtain ⟨rfl, rfl⟩ := Prod.mk.inj heq
  refine List.Perm.trans ?_ ((code_drop hS).symm.append_left running)
  simp only [code, List.flatMap_cons, ← List.append_assoc]
  exact (List.perm_append_comm.append_right _).append_right _

theorem code_handBack (h : fs.handBack? = some (S, fs')) : fs.code = S ++ fs'.code := by
  unfold handBack? at h
  split at h
  · cases h
  · rename_i r rest hresumers
    obtain ⟨rfl, rfl⟩ := Prod.mk.inj (Option.some.inj h)
    simp only [code, hresumers, List.flatMap_cons, List.append_assoc]

theorem code_suspend (h : fs.suspend? running = some (S, fs')) :
    (S ++ fs'.code).Perm (running ++ fs.code) := by
  obtain ⟨f, -, h⟩ := Option.bind_eq_some_iff.mp h
  rw [← code_handBack h]
  simp only [code, List.flatMap_cons, ← List.append_assoc]
  exact List.perm_append_comm.append_right _

end Fibers

/-- Whether an activation belongs to an installation. -/
def Activation.isPost : Activation ω → Bool
  | driving .. | clause .. | returning .. | sending .. | inPlace .. => true
  | _ => false

/-- The posts of a piece of code. -/
def postsOf (S : List (Activation ω)) : List (Activation ω) := S.filter Activation.isPost

theorem postsOf_sublist (a : Activation ω) (S : List (Activation ω)) :
    (postsOf S).Sublist (postsOf (a :: S)) := (List.sublist_cons_self a S).filter _

theorem postsOf_subperm_cons (a : Activation ω) (S : List (Activation ω)) :
    (postsOf (a :: S)).Subperm (a :: postsOf S) := by
  unfold postsOf
  rw [List.filter_cons]
  split
  · exact .refl _
  · exact (List.sublist_cons_self _ _).subperm

namespace Machine

/-- The posts of all code. -/
def posts (m : Machine ω) : List (Activation ω) := postsOf (m.stack ++ m.fibers.code)

/-- The captured continuations that resumptions hold. -/
def latent (m : Machine ω) : List (Cont ω) :=
  (m.resumptions.entries.map (·.2)).filter Cont.isCaptured

/-- The captured continuations that were resumed and have not started. -/
def roused (m : Machine ω) : List (Cont ω) := m.armed.filter Cont.isCaptured

/-- There are no more posts and captured continuations than these. -/
structure Within (m : Machine ω) (A : List (Activation ω)) (R P : List (Cont ω)) : Prop where
  posts : m.posts.Subperm A
  latent : m.latent.Subperm R
  roused : m.roused.Subperm P

namespace Within

variable {m m' : Machine ω} {A : List (Activation ω)} {R P : List (Cont ω)}
  {S : List (Activation ω)} {a : Activation ω} {c : Control ω}

theorem refl (m : Machine ω) : m.Within m.posts m.latent m.roused := ⟨.refl _, .refl _, .refl _⟩

theorem weaken (h : m.Within A R P) (a : Activation ω) : m.Within (a :: A) R P :=
  ⟨h.posts.trans (List.sublist_cons_self a A).subperm, h.latent, h.roused⟩

/-- Going on with no continuation. -/
theorem goOn (h : m.Within A R P) (hc : c.conts = []) : (m.goOn c).Within A R P where
  posts := h.posts
  latent := h.latent
  roused := by
    refine List.Subperm.trans (List.Sublist.subperm ?_) h.roused
    refine List.Sublist.filter _ ?_
    show (m.pending.toList ++ c.conts).Sublist (m.pending.toList ++ m.control.conts)
    rw [hc]
    exact (List.nil_sublist _).append_left _

theorem push (h : m.Within A R P) (a : Activation ω) : (m.push a).Within (a :: A) R P where
  posts := (postsOf_subperm_cons a _).trans ((List.subperm_cons a).mpr h.posts)
  latent := h.latent
  roused := h.roused

/-- An activation that is not a post. -/
theorem pushLocal (h : m.Within A R P) (ha : a.isPost = false) : (m.push a).Within A R P where
  posts := by
    have hsame : (m.push a).posts = m.posts := List.filter_cons_of_neg (by simp [ha])
    exact hsame ▸ h.posts
  latent := h.latent
  roused := h.roused

theorem release (h : m.Within A R P) (hs : List Holding) : (m.release hs).Within A R P :=
  ⟨h.posts, h.latent, h.roused⟩

theorem pop (h : m.Within A R P) (hS : m.stack = a :: S) :
    ({ m with stack := S } : Machine ω).Within A R P where
  posts := by
    refine List.Subperm.trans (List.Sublist.subperm ?_) h.posts
    show (postsOf (S ++ m.fibers.code)).Sublist (postsOf (m.stack ++ m.fibers.code))
    rw [hS]
    exact postsOf_sublist _ _
  latent := h.latent
  roused := h.roused

/-- What is on top of the stack is a post less when it is taken off. -/
theorem posts_pop (hS : m.stack = a :: S) (ha : a.isPost) :
    m.posts = a :: ({ m with stack := S } : Machine ω).posts := by
  simp only [Machine.posts, hS]
  exact List.filter_cons_of_pos ha

/-- A fiber is resumed by a driver, if it is there. -/
theorem enter (h : m.Within A R P) (i : InstallationId) (f : FiberId) :
    (m.enter i f).Within (.driving i f :: A) R P := by
  unfold Machine.enter
  split
  · rename_i S fs heq
    have hperm := (Fibers.code_resume heq).filter Activation.isPost
    have hsame : ({ m with fibers := fs, stack := S, control := .wake } : Machine ω).posts.Perm
        (.driving i f :: m.posts) := hperm
    refine ⟨hsame.subperm.trans ((List.subperm_cons _).mpr h.posts), h.latent, ?_⟩
    exact (h.goOn (c := .wake) rfl).roused
  · exact (h.goOn rfl).weaken _

/-- The running code hands control back. -/
theorem handBack (h : m.Within A R P) (hback : m.handBack c = some m') (hc : c.conts = []) :
    m'.Within A R P := by
  obtain ⟨⟨S, fs⟩, hfs, rfl⟩ := Option.map_eq_some_iff.mp hback
  refine ⟨List.Subperm.trans (List.Sublist.subperm ?_) h.posts, h.latent, (h.goOn hc).roused⟩
  show (postsOf (S ++ fs.code)).Sublist (postsOf (m.stack ++ m.fibers.code))
  rw [Fibers.code_handBack hfs]
  exact (List.sublist_append_right _ _).filter _

/-- The running code is parked. -/
theorem posts_suspend {fs : Fibers (List (Activation ω))}
    (hsuspend : m.fibers.suspend? m.stack = some (S, fs)) :
    (postsOf (S ++ fs.code)).Perm m.posts :=
  (Fibers.code_suspend hsuspend).filter Activation.isPost

theorem settle (h : m.Within A R P) (answer : String) (v : Value) (kept : List Holding) :
    (m.settle answer v kept).Within A R P := by
  unfold Machine.settle
  split
  · exact (h.release kept).goOn rfl
  · rename_i k hk
    have hroused : (List.filter Cont.isCaptured [k]).Subperm P := by
      refine List.Subperm.trans (List.Sublist.subperm ?_) h.roused
      refine List.Sublist.filter _ ?_
      simp [Machine.armed, hk]
    simp only
    split
    · exact ⟨h.posts, h.latent, hroused⟩
    · exact ⟨h.posts, h.latent, List.nil_subperm⟩

end Within

variable [Contents ω]

/-- The next step puts an installation on the chain, and starts its body on a new fiber. -/
def Installs (Γ : Library ω) (m : Machine ω) (x : Installing) (body : ReferenceId → Comp ω)
    (i : InstallationId) (f : FiberId) : Prop :=
  (∃ next, m.Evaluates (.handle x body next)) ∧ i = m.chain.installations.next ∧
    f = m.fibers.parked.next ∧ (m.step Γ).chain.top = i ∧ (m.step Γ).control = .wake ∧
      (m.step Γ).fibers.current = some f ∧
        (m.step Γ).stack = [.start (body m.references.next),
          .owning (x.owned ++ [.reference m.references.next])]

/-- The next step starts the return clause of an installation with the value of its body. -/
def StartsReturn (Γ : Library ω) (m : Machine ω) (i : InstallationId) (v : Value) : Prop :=
  m.releasing = [] ∧ m.control = .ret v ∧ (∃ f S, m.stack = .driving i f :: S) ∧
    (m.step Γ).control = .eval ((Γ.handlerType (m.chain.get i).handlerType).onReturn
      (m.chain.get i).handler v) ∧ ∃ answer S, (m.step Γ).stack = .returning i answer :: S

/-- An installation is taken off the chain, and its return clause starts. -/
structure Retires (Γ : Library ω) (m m' : Machine ω) (i : InstallationId) : Prop where
  starts : ∃ v, m.StartsReturn Γ i v
  within : ∃ answer, m'.Within (.returning i answer :: m.posts) m.latent m.roused
  pops : ∃ c, m.chain.pop? = some (i, c) ∧ m'.chain = c.retire i

/-- A plain clause starts where its command was sent, and a segment is hidden from it. -/
structure Hides (m m' : Machine ω) (e : ExchangeId) (i : InstallationId) (s : Segment) :
    Prop where
  sends : ∃ command position next, m.Sends e command i position next
  within : m'.Within (.inPlace i (m.chain.get i).handler s e :: m.posts) m.latent m.roused
  cuts : m.chain.Cuts i s m'.chain

/-- A driver gets a request and captures the continuation, with the segment of the chain that
belongs to it. -/
structure Captures (Γ : Library ω) (m m' : Machine ω) (r : Request) (s : Segment) : Prop where
  hands : m.Hands r
  within : ∃ f code answer, .driving r.target f ∈ m.posts ∧
    m.codeAt Γ r.target r.entry = some code ∧
      m'.Within (.clause (code.keeps r.target) answer :: m.posts)
        (.captured answer f s r.exchange :: m.latent) m.roused
  cuts : m.chain.Cuts r.target s m'.chain

end Machine

/-- Where a new post comes from. -/
inductive Activation.Arises [Contents ω] (Γ : Library ω) (m : Machine ω) : Activation ω → Prop
  | installed {x body i f} (h : m.Installs Γ x body i f) : Arises Γ m (.driving i f)
  | resumed {answer f s e} (h : .captured answer f s e ∈ m.roused) :
      Arises Γ m (.driving s.lowest f)
  | clause {i f position code answer} (hi : .driving i f ∈ m.posts)
      (hcode : m.codeAt Γ i position = some code) : Arises Γ m (.clause (code.keeps i) answer)
  | returning {i v answer} (h : m.StartsReturn Γ i v) : Arises Γ m (.returning i answer)
  | sending {i e modifier command} : Arises Γ m (.sending i e modifier command)
  | inPlace {i s e} (hs : s.lowest = i) :
      Arises Γ m (.inPlace i (m.chain.get i).handler s e)

open Machine in
/-- What a step does to posts, captured continuations and links. -/
inductive Moves [Contents ω] (Γ : Library ω) (m m' : Machine ω) : Prop
  | keeps {A} (hnew : ∀ a ∈ A, a.Arises Γ m ∧ ∀ i handler s e, a ≠ .inPlace i handler s e)
      (h : m'.Within (A ++ m.posts) m.latent m.roused) (hchain : m.chain.SameLinks m'.chain)
  /-- The last share of an installation is released. -/
  | frees {i a hs} (hreleasing : m.releasing = .installation i :: hs)
      (ha : m.chain.installations.find? i = some a) (hlast : a.shares ≤ 1)
      (h : m'.Within m.posts m.latent m.roused)
      (hchain : m'.chain = { m.chain with installations := m.chain.installations.erase i })
  | pushes {A a c} (hnew : ∀ a ∈ A, a.Arises Γ m ∧ ∀ i handler s e, a ≠ .inPlace i handler s e)
      (h : m'.Within (A ++ m.posts) m.latent m.roused) (hc : m.chain.SameLinks c)
      (hchain : m'.chain = (c.create a).2.push c.installations.next)
  | pops {i c} (h : m'.Within m.posts m.latent m.roused) (hpop : m.chain.pop? = some (i, c))
      (hchain : m'.chain = c)
  | retires {i} (h : m.Retires Γ m' i)
  | hides {e i s} (h : m.Hides m' e i s)
  | captures {r s} (h : m.Captures Γ m' r s)
  /-- A captured continuation is resumed, and will start. -/
  | arms {e v k R} (hm : m.Resumes e v) (hk : k.exchange? = some e)
      (hlatent : m.latent.Perm (k :: R)) (h : m'.Within m.posts R (k :: m.roused))
      (hchain : m.chain.SameLinks m'.chain)
  /-- A captured continuation starts, and its segment is put back. -/
  | resumes {answer f s e P} (hroused : m.roused.Perm (.captured answer f s e :: P))
      (h : m'.Within (.driving s.lowest f :: m.posts) m.latent P)
      (hchain : (m.chain.splice s).SameLinks m'.chain)
  /-- A plain clause ends, and its segment is put back. -/
  | returns {i handler s e S v A} (hm : m.Returns Γ ⟨e, true, S⟩ v)
      (hposts : m.posts.Perm (.inPlace i handler s e :: A)) (h : m'.Within A m.latent m.roused)
      (hchain : (m.chain.splice s).SameLinks m'.chain)

end EffectHandlers
