import EffectHandlers.CommandLine.Run
import EffectHandlers.Proofs.Allotting
import EffectHandlers.Proofs.Numerals
/-!
# The stack size on the command line

A stack size on the command line does not only take the place of the one in the environment: the
settings are then set explicitly, and the pool capacity is the standard one.
-/

namespace EffectHandlers.CommandLine

namespace Request

variable {s s' : Subcommand} {before g g' : Given} {words rest : List String} {word : String}
  {r : Request} {topic : Topic} {options : List OptionSpec} {k : Nat} {d : Bool}
  {numbers extra : List (String × Int)}

/-! ### Reading on with more time -/

theorem behind_succ (h : behind s before k g words = some r) :
    behind s before (k + 1) g words = some r := by
  induction k generalizing g words with
  | zero => cases h
  | succ k ih =>
    cases words with
    | nil => exact h
    | cons word rest =>
      simp only [behind] at h ⊢
      cases hhead : head (.subcommand s) (s.options ++ [.stackSize]) g word rest with
      | none => simp only [hhead] at h; cases h
      | some hd =>
        simp only [hhead] at h
        cases hd with
        | option g' rest' => exact ih h
        | answer r' => exact h
        | word w rest' => cases h
        | theEnd rest' =>
          cases rest' with
          | nil => exact ih h
          | cons w rest' => cases h

theorem start_succ (h : start k g words = some r) : start (k + 1) g words = some r := by
  induction k generalizing g words with
  | zero => cases h
  | succ k ih =>
    cases words with
    | nil => cases h
    | cons word rest =>
      simp only [start] at h ⊢
      cases hhead : head .program [.stackSize] g word rest with
      | none => simp only [hhead] at h; cases h
      | some hd =>
        simp only [hhead] at h
        cases hd with
        | option g' rest' => exact ih h
        | answer r' => exact h
        | theEnd rest' => cases h
        | word w rest' =>
          by_cases hw : w = "help"
          · subst hw
            exact h
          · simp only [Option.bind_eq_some_iff] at h ⊢
            obtain ⟨s, hs, h⟩ := h
            exact ⟨s, hs, behind_succ h⟩

/-! ### Numbers that were given before -/

end Request

/-- Options to which more numbers were given before. -/
def Given.plus (g : Given) (extra : List (String × Int)) : Given :=
  { g with numbers := g.numbers ++ extra }

namespace Request

/-- The same beginning when more numbers were given before. -/
def Head.plus (extra : List (String × Int)) : Head → Head
  | option g rest => option (g.plus extra) rest
  | hd => hd

/-- What the next words of one side can be. -/
inductive Head.Reads (g : Given) : Head → Prop
  | flag (rest) : Reads g (option { g with diagnostics := true } rest)
  | number (name : String) (m : Int) (rest) :
      Reads g (option { g with numbers := (name, m) :: g.numbers } rest)
  | help (topic : Topic) : Reads g (answer (.help topic))
  | version : Reads g (answer .version)
  | word (w : String) (rest) : Reads g (word w rest)
  | theEnd (rest) : Reads g (theEnd rest)

variable {hd : Head} {o : OptionSpec} {text : String}

theorem exists_of_withNumber (h : withNumber g o text rest = some hd) :
    ∃ m, hd = .option { g with numbers := (o.name, m) :: g.numbers } rest ∧
      ∀ extra, withNumber (g.plus extra) o text rest = some (hd.plus extra) := by
  obtain ⟨m, hm, h⟩ := Option.bind_eq_some_iff.mp h
  obtain rfl := Option.some.inj h
  exact ⟨m, rfl, fun extra => Option.bind_eq_some_iff.mpr ⟨m, hm, rfl⟩⟩

/-- Numbers that were given before only matter to the options that they were given for. -/
theorem long_plus (h : long topic options g word rest = some hd) :
    hd.Reads g ∧ ∀ extra, (∀ name m rest',
      hd = .option { g with numbers := (name, m) :: g.numbers } rest' →
        extra.lookup name = none) →
      long topic options (g.plus extra) word rest = some (hd.plus extra) := by
  unfold long at h ⊢
  split at h
  · split at h
    · cases h
    · rename_i hdiagnostics
      obtain rfl := Option.some.inj h
      exact ⟨.flag rest, fun extra _ => if_neg hdiagnostics⟩
  · obtain rfl := Option.some.inj h
    exact ⟨.help topic, fun extra _ => rfl⟩
  · split at h
    · rename_i htopic
      obtain rfl := Option.some.inj h
      exact ⟨.version, fun extra _ => if_pos htopic⟩
    · cases h
  · rename_i name value _ _ _ hsplit
    obtain ⟨o, ho, h⟩ := Option.bind_eq_some_iff.mp h
    have hname : o.name = name := by simpa using List.find?_some ho
    split at h
    · cases h
    · rename_i hnew
      have hnew' : ∀ {extra : List (String × Int)}, extra.lookup name = none →
          ¬ ((g.plus extra).numbers.lookup name).isSome := fun {extra} hextra => by
        simpa [Given.plus, List.lookup_append, hextra] using hnew
      -- the number stands behind an equals sign or is the next word
      cases value with
      | some text =>
        obtain ⟨m, rfl, hplus⟩ := exists_of_withNumber h
        refine ⟨.number o.name m rest, fun extra hfree =>
          Option.bind_eq_some_iff.mpr ⟨o, ho, ?_⟩⟩
        rw [if_neg (hnew' (hname ▸ hfree o.name m rest rfl))]
        exact hplus extra
      | none =>
        cases rest with
        | nil => cases h
        | cons next rest =>
          simp only at h
          split at h
          · cases h
          · rename_i hdash
            obtain ⟨m, rfl, hplus⟩ := exists_of_withNumber h
            refine ⟨.number o.name m rest, fun extra hfree =>
              Option.bind_eq_some_iff.mpr ⟨o, ho, ?_⟩⟩
            rw [if_neg (hnew' (hname ▸ hfree o.name m rest rfl))]
            exact (if_neg hdash).trans (hplus extra)

theorem head_plus (h : head topic options g word rest = some hd) :
    hd.Reads g ∧ ∀ extra, (∀ name m rest',
      hd = .option { g with numbers := (name, m) :: g.numbers } rest' →
        extra.lookup name = none) →
      head topic options (g.plus extra) word rest = some (hd.plus extra) := by
  unfold head at h ⊢
  split at h
  · obtain rfl := Option.some.inj h
    exact ⟨.theEnd rest, fun extra _ => rfl⟩
  · exact long_plus h
  · obtain rfl := Option.some.inj h
    exact ⟨.help topic, fun extra _ => rfl⟩
  · split at h
    · rename_i htopic
      obtain rfl := Option.some.inj h
      exact ⟨.version, fun extra _ => if_pos htopic⟩
    · cases h
  · cases h
  · obtain rfl := Option.some.inj h
    exact ⟨.word word rest, fun extra _ => rfl⟩

theorem helpOn_ne_run : helpOn words ≠ some (.run s d numbers) := by
  unfold helpOn
  split
  · simp
  · simp
  · simp
  · simp

/-- What is read behind a subcommand comes before what was read in front of it. -/
theorem exists_of_behind (h : behind s before k g words = some (.run s' d numbers)) :
    ∃ own d', numbers = own ++ before.numbers ∧ d = (d' || before.diagnostics) ∧
      ∀ before', behind s before' k g words =
        some (.run s' (d' || before'.diagnostics) (own ++ before'.numbers)) := by
  induction k generalizing g words with
  | zero => cases h
  | succ k ih =>
    cases words with
    | nil =>
      simp only [behind, Option.some.injEq, Request.run.injEq] at h
      obtain ⟨rfl, rfl, rfl⟩ := h
      exact ⟨g.numbers, g.diagnostics, rfl, rfl, fun _ => rfl⟩
    | cons word rest =>
      simp only [behind] at h ⊢
      cases hhead : head (.subcommand s) (s.options ++ [.stackSize]) g word rest with
      | none => simp only [hhead] at h; cases h
      | some hd =>
        obtain ⟨hreads, -⟩ := head_plus hhead
        simp only [hhead] at h
        cases hreads with
        | flag | number => exact ih h
        | help | version | word => cases h
        | theEnd rest' =>
          cases rest' with
          | nil => exact ih h
          | cons w rest' => cases h

/-- Numbers that are given stay. -/
theorem exists_of_start (h : start k g words = some (.run s d numbers)) :
    ∃ front, numbers = front ++ g.numbers := by
  induction k generalizing g words with
  | zero => cases h
  | succ k ih =>
    cases words with
    | nil => cases h
    | cons word rest =>
      simp only [start] at h
      cases hhead : head .program [.stackSize] g word rest with
      | none => simp only [hhead] at h; cases h
      | some hd =>
        obtain ⟨hreads, -⟩ := head_plus hhead
        simp only [hhead] at h
        cases hreads with
        | flag rest' =>
          obtain ⟨front, hfront⟩ := ih h
          exact ⟨front, hfront⟩
        | number name m rest' =>
          obtain ⟨front, hfront⟩ := ih h
          exact ⟨front ++ [(name, m)], by simpa using hfront⟩
        | help | version | theEnd => cases h
        | word w rest' =>
          by_cases hw : w = "help"
          · subst hw
            exact absurd h helpOn_ne_run
          · simp only [Option.bind_eq_some_iff] at h
            obtain ⟨s', -, h⟩ := h
            obtain ⟨own, d', rfl, -, -⟩ := exists_of_behind h
            exact ⟨own, rfl⟩

/-- Numbers for options that are not given are no obstacle. -/
theorem start_plus (h : start k g words = some (.run s d numbers))
    (hfree : ∀ name, (extra.lookup name).isSome → numbers.lookup name = none) :
    start k (g.plus extra) words = some (.run s d (numbers ++ extra)) := by
  induction k generalizing g words with
  | zero => cases h
  | succ k ih =>
    cases words with
    | nil => cases h
    | cons word rest =>
      simp only [start] at h ⊢
      cases hhead : head .program [.stackSize] g word rest with
      | none => simp only [hhead] at h; cases h
      | some hd =>
        obtain ⟨hreads, hplus⟩ := head_plus hhead
        simp only [hhead] at h
        have hhead' := hplus extra fun name m rest' heq => by
          subst heq
          have hrest : start k _ rest' = some (.run s d numbers) := h
          obtain ⟨front, rfl⟩ := exists_of_start hrest
          cases hname : extra.lookup name with
          | none => rfl
          | some x =>
            have hnone := hfree name (by rw [hname]; rfl)
            simp [List.lookup_append] at hnone
        rw [hhead']
        cases hreads with
        | flag rest' => exact ih h
        | number name m rest' => exact ih h
        | help | version | theEnd => cases h
        | word w rest' =>
          by_cases hw : w = "help"
          · subst hw
            exact absurd h helpOn_ne_run
          · simp only [Option.bind_eq_some_iff, Head.plus] at h ⊢
            obtain ⟨s', hs', h⟩ := h
            obtain ⟨own, d', rfl, rfl, hbehind⟩ := exists_of_behind h
            refine ⟨s', hs', ?_⟩
            rw [hbehind (g.plus extra), Given.plus, List.append_assoc]

/-! ### The option for the stack size -/

variable {n : Nat}

/-- The decimal text of a number begins with a digit. -/
theorem exists_digit (n : Nat) :
    ∃ d digits, (toString n).toList = Nat.digitChar d :: digits.map Nat.digitChar ∧
      Settings.Decimal (d :: digits) n := by
  obtain ⟨digits, hdecimal, htext⟩ := Settings.exists_decimal n
  cases digits with
  | nil => exact absurd rfl hdecimal.nonempty
  | cons d digits =>
    exact ⟨d, digits, Nat.toList_repr.trans htext, hdecimal⟩

/-- The decimal text of a word is read as that word. -/
theorem read?_stackSize (hn : n < Word.count) :
    OptionSpec.stackSize.read? (toString n) = some (n : Int) := by
  obtain ⟨d, digits, htext, hdecimal⟩ := exists_digit n
  have hvalue := Settings.digitsValue_map hdecimal.lt_ten 0
  rw [Settings.valueFrom_zero, hdecimal.value] at hvalue
  have hbounds : OptionSpec.stackSize.least ≤ n ∧
      (n : Int) ≤ OptionSpec.stackSize.greatest := by
    refine ⟨Int.natCast_nonneg n, ?_⟩
    show (n : Int) ≤ Word.count - 1
    omega
  unfold OptionSpec.read?
  rw [htext]
  split
  rename_i hsigned
  -- the first character is no sign
  split at hsigned
  · exact absurd (List.cons.inj ‹_›).1 (Nat.digitChar_ne '-' rfl)
  · exact absurd (List.cons.inj ‹_›).1 (Nat.digitChar_ne '+' rfl)
  · obtain ⟨rfl, rfl⟩ := Prod.mk.inj hsigned
    simp only [List.map_cons] at hvalue
    simp only [List.isEmpty_cons, Bool.false_eq_true, if_false, hvalue]
    exact if_pos hbounds

/-- With the option in front, a command line begins with its number. -/
theorem head_stackSize (hn : n < Word.count) (words : List String) :
    head .program [.stackSize] {} "--stack-size" (toString n :: words) =
      some (.option { numbers := [(OptionSpec.stackSize.name, (n : Int))] } words) := by
  obtain ⟨d, digits, htext, -⟩ := exists_digit n
  have hdash : (toString n).startsWith "-" = false := by
    rw [String.startsWith_string_eq_false_iff, htext]
    intro hprefix
    exact Nat.digitChar_ne '-' rfl (List.cons_prefix_cons.mp hprefix).1.symm
  have hsplit : splitLong "--stack-size" = ("stack-size", none) := by decide +kernel
  have htoList : "--stack-size".toList = '-' :: '-' :: 's' :: "tack-size".toList := by
    decide +kernel
  have hfind : [OptionSpec.stackSize].find? (·.name == "stack-size") = some .stackSize := by
    decide +kernel
  have hlong : long .program [.stackSize] {} "--stack-size" (toString n :: words) =
      some (.option { numbers := [(OptionSpec.stackSize.name, (n : Int))] } words) := by
    unfold long
    rw [hsplit]
    split
    · exact absurd (Prod.mk.inj ‹_›).1 (by decide)
    · exact absurd (Prod.mk.inj ‹_›).1 (by decide)
    · exact absurd (Prod.mk.inj ‹_›).1 (by decide)
    · rename_i hother
      obtain ⟨rfl, rfl⟩ := Prod.mk.inj hother
      simp only [hfind, withNumber, read?_stackSize hn, Option.bind_eq_bind, Option.bind_some,
        List.lookup_nil, Option.isSome_none, Bool.false_eq_true, if_false, hdash]
      rfl
  unfold head
  rw [htoList]
  exact hlong

/-- The option in front of a command line adds its number, if the command line has no other. -/
theorem ofWords?_stackSize (hn : n < Word.count)
    (h : ofWords? words = some (.run s d numbers))
    (hfree : numbers.lookup OptionSpec.stackSize.name = none) :
    ofWords? ("--stack-size" :: toString n :: words) =
      some (.run s d (numbers ++ [(OptionSpec.stackSize.name, (n : Int))])) := by
  have hplus : start _ (Given.plus {} [(OptionSpec.stackSize.name, (n : Int))]) words = _ :=
    start_plus h fun name hname => by
      by_cases heq : name = OptionSpec.stackSize.name
      · rw [heq]
        exact hfree
      · have hne : (name == OptionSpec.stackSize.name) = false := by simpa using heq
        simp [List.lookup_cons, hne] at hname
  have hlater := start_succ hplus
  unfold ofWords? start
  rw [head_stackSize hn]
  exact hlater

end Request

/-! ### The settings of a run -/

variable {s : Subcommand} {d : Bool} {numbers : List (String × Int)} {words : List String}
  {env : Environment} {n : Nat} {m : Int}

/-- A stack size among the numbers does not change what is demonstrated. -/
theorem demos_append (s : Subcommand) (numbers : List (String × Int)) (m : Int) :
    s.demos (numbers ++ [(OptionSpec.stackSize.name, m)]) = s.demos numbers := by
  have hvalue : ∀ o : OptionSpec, o.name ≠ OptionSpec.stackSize.name →
      Subcommand.valueOf (numbers ++ [(OptionSpec.stackSize.name, m)]) o =
        Subcommand.valueOf numbers o := by
    intro o ho
    have hne : (o.name == OptionSpec.stackSize.name) = false := by simpa using ho
    simp [Subcommand.valueOf, List.lookup_append, List.lookup_cons, hne]
  unfold Subcommand.demos
  cases s with
  | fuel => simp only [Subcommand.demo?, hvalue .budget (by decide)]
  | threads =>
    simp only [Subcommand.demo?, hvalue .workers (by decide), hvalue .steps (by decide)]
  | actors => simp only [Subcommand.demo?, hvalue .rounds (by decide)]
  | asyncAwait => simp only [Subcommand.demo?, hvalue .seed (by decide)]
  | _ => rfl

/-- The thread of a command line that runs demonstrations, after so many steps. -/
def threadAt (k : Nat) (env : Environment) (words : List String) : Option (Machine Content) :=
  match Request.ofWords? words with
  | some (.run s diagnostics numbers) =>
    some (Machine.run Client.library k
      (Machine.start (settings env (numbers.lookup OptionSpec.stackSize.name)) Client.cells []
        (code (s.demos numbers) diagnostics)))
  | _ => none

/-- A command line that runs demonstrations leaves behind what its thread does. -/
theorem exists_thread (k : Nat) (env : Environment)
    (h : Request.ofWords? words = some (.run s d numbers)) :
    ∃ thread, threadAt k env words = some thread ∧ run k env words = .ofMachine thread := by
  unfold threadAt run
  rw [h]
  exact ⟨_, rfl, rfl⟩

/-- The settings in use after so many steps. -/
def settingsAt (k : Nat) (env : Environment) (words : List String) : Option Settings :=
  (threadAt k env words).map (·.pool.settings.use.1)

/-- The settings in use are those that the run starts with. -/
theorem settingsAt_eq (k : Nat) (env : Environment)
    (h : Request.ofWords? words = some (.run s d numbers)) :
    settingsAt k env words =
      some (settings env (numbers.lookup OptionSpec.stackSize.name)).use.1 := by
  simp only [settingsAt, threadAt, h, Option.map_some]
  exact congrArg some (Machine.run_tidy _ _ _ _ _ k).2

theorem settingsAt_of_none (k : Nat) (env : Environment)
    (h : Request.ofWords? words = some (.run s d numbers))
    (hnone : numbers.lookup OptionSpec.stackSize.name = none) :
    settingsAt k env words = some (Settings.ofEnvironment env).1 := by
  rw [settingsAt_eq k env h, hnone]
  rfl

theorem settingsAt_of_some (k : Nat) (env : Environment)
    (h : Request.ofWords? words = some (.run s d numbers))
    (hsome : numbers.lookup OptionSpec.stackSize.name = some m) :
    settingsAt k env words =
      some ⟨max m.toNat Settings.minStackSize, Settings.defaultPoolCapacity⟩ := by
  rw [settingsAt_eq k env h, hsome]
  rfl

/-- What a stack size on the command line does to a command line that runs demonstrations and has
no other. -/
structure Overrides (env : Environment) (words : List String) (n : Nat) : Prop where
  /-- The same demonstrations are run. -/
  sameRun : ∃ s d numbers numbers', Request.ofWords? words = some (.run s d numbers) ∧
    Request.ofWords? ("--stack-size" :: toString n :: words) = some (.run s d numbers') ∧
    s.demos numbers' = s.demos numbers
  /-- Both command lines have threads, and leave behind what these do. -/
  threads : ∀ k, ∀ given ∈ [words, "--stack-size" :: toString n :: words],
    ∃ thread, threadAt k env given = some thread ∧ run k env given = .ofMachine thread
  /-- All the time the stack size is the one that was given, raised to the smallest one, and the
  pool capacity is the standard one. -/
  given : ∀ k, settingsAt k env ("--stack-size" :: toString n :: words) =
    some ⟨max n Settings.minStackSize, Settings.defaultPoolCapacity⟩
  /-- Without it both are what the environment asks for. -/
  otherwise : ∀ k, settingsAt k env words = some (Settings.ofEnvironment env).1
  /-- So the pool capacities are the same only if the environment asks for the standard one. -/
  sameCapacity : ∀ k,
    (settingsAt k env ("--stack-size" :: toString n :: words)).map (·.poolCapacity) =
        (settingsAt k env words).map (·.poolCapacity) ↔
      (Settings.ofEnvironment env).1.poolCapacity = Settings.defaultPoolCapacity
  /-- A stack size that is given elsewhere on a command line does the same. -/
  anywhere : ∀ {words' s d numbers m}, Request.ofWords? words' = some (.run s d numbers) →
    numbers.lookup OptionSpec.stackSize.name = some m → ∀ k, settingsAt k env words' =
      some ⟨max m.toNat Settings.minStackSize, Settings.defaultPoolCapacity⟩

/-- **A stack size on the command line replaces all settings of the environment**, whatever the
environment asks for and whatever is run. -/
theorem stack_size_overrides (env : Environment) (hn : n < Word.count)
    (h : Request.ofWords? words = some (.run s d numbers))
    (hfree : numbers.lookup OptionSpec.stackSize.name = none) : Overrides env words n := by
  have hwith := Request.ofWords?_stackSize hn h hfree
  have hlookup : (numbers ++ [(OptionSpec.stackSize.name, (n : Int))]).lookup
      OptionSpec.stackSize.name = some (n : Int) := by
    simp [List.lookup_append, hfree]
  have hgiven := fun k => settingsAt_of_some k env hwith hlookup
  have hotherwise := fun k => settingsAt_of_none k env h hfree
  exact
    { sameRun := ⟨s, d, numbers, _, h, hwith, demos_append s numbers n⟩
      threads := fun k given hmem => by
        obtain rfl | rfl : given = words ∨ given = _ := by simpa using hmem
        · exact exists_thread k env h
        · exact exists_thread k env hwith
      given := hgiven
      otherwise := hotherwise
      sameCapacity := fun k => by
        rw [hgiven, hotherwise, Option.map_some, Option.map_some, Option.some.injEq]
        exact eq_comm
      anywhere := fun h' hsome k => settingsAt_of_some k env h' hsome }

/-- An environment that asks for a pool of one stack. -/
def smallPool : Environment := { poolCapacity := some (toString 1).toUTF8.data.toList }

theorem stack_size_overrides_state :
    300000 < Word.count ∧ Request.ofWords? ["state"] = some (.run .state false []) ∧
      Overrides smallPool ["state"] 300000 := by
  have hsize : 300000 < Word.count := by decide
  have hwords : Request.ofWords? ["state"] = some (.run .state false []) := by decide +kernel
  exact ⟨hsize, hwords, stack_size_overrides smallPool hsize hwords rfl⟩

/-- The pool holds one stack without the option and 64 with it, to the end of the run. -/
theorem stack_size_changes_capacity :
    (settingsAt Machine.stepLimit smallPool ["state"]).map (·.poolCapacity) = some 1 ∧
      (settingsAt Machine.stepLimit smallPool ["--stack-size", "300000", "state"]).map
        (·.poolCapacity) = some 64 := by
  have hstate : Request.ofWords? ["state"] = some (.run .state false []) := by decide +kernel
  have hgiven : Request.ofWords? ["--stack-size", "300000", "state"] =
      some (.run .state false [("stack-size", 300000)]) := by decide +kernel
  rw [settingsAt_of_none _ _ hstate rfl, settingsAt_of_some _ _ hgiven rfl]
  refine ⟨?_, rfl⟩
  rw [Option.map_some, Settings.ofEnvironment, Settings.poolCapacityOf_decode]
  show some ((Settings.numberOf (some (toString 1).toUTF8.data.toList)).getD
    Settings.defaultPoolCapacity) = some 1
  rw [Settings.numberOf_toString (by decide)]
  rfl

end EffectHandlers.CommandLine
