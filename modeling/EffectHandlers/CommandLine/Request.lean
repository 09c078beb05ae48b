import EffectHandlers.CommandLine.Subcommand
/-!
# Reading a command line

Options may stand before and behind the subcommand. What stands before it are the options of every
subcommand; behind it its own are known too. An option is given at most once on each side, and
what is given behind the subcommand wins.
-/

namespace EffectHandlers.CommandLine

/-- What the help text is about. -/
inductive Topic where
  | program
  | subcommand (s : Subcommand)
  /-- The subcommand that shows help. -/
  | help
  deriving DecidableEq

/-- The options that were given on one side of the subcommand. -/
structure Given where
  diagnostics : Bool := false
  /-- The options with numbers, by their names. -/
  numbers : List (String × Int) := []
  deriving DecidableEq

/-- What a command line asks for. -/
inductive Request where
  | run (s : Subcommand) (diagnostics : Bool) (numbers : List (String × Int))
  | help (t : Topic)
  | version
  deriving DecidableEq

namespace Request

/-- A word of the command line that starts with two dashes: its name and the text behind `=`. -/
def splitLong (word : String) : String × Option String :=
  let cs := word.toList.drop 2
  let name := cs.takeWhile (· != '=')
  match cs.drop name.length with
  | [] => (String.ofList name, none)
  | _ :: value => (String.ofList name, some (String.ofList value))

/-- What one side of the subcommand begins with. -/
inductive Head where
  /-- An option, and the words behind it. -/
  | option (g : Given) (rest : List String)
  /-- A request that is answered at once. -/
  | answer (r : Request)
  /-- A word that is no option, and the words behind it. -/
  | word (w : String) (rest : List String)
  /-- The end of the options. -/
  | theEnd (rest : List String)
  deriving DecidableEq

/-- Add a number for an option that was not given before. -/
def withNumber (g : Given) (o : OptionSpec) (text : String) (rest : List String) : Option Head := do
  let n ← o.read? text
  return .option { g with numbers := (o.name, n) :: g.numbers } rest

/-- Read an option with two dashes. The text of its number follows an equals sign, or is the next
word unless that starts with a dash. -/
def long (topic : Topic) (options : List OptionSpec) (g : Given) (word : String)
    (rest : List String) : Option Head :=
  match splitLong word with
  | ("diagnostics", none) =>
    if g.diagnostics then none else some (.option { g with diagnostics := true } rest)
  | ("help", none) => some (.answer (.help topic))
  | ("version", none) => if topic = .program then some (.answer .version) else none
  | (name, value) => do
    let o ← options.find? (·.name == name)
    if (g.numbers.lookup name).isSome then none
    else
      match value, rest with
      | some text, _ => withNumber g o text rest
      | none, [] => none
      | none, next :: rest =>
        if next.startsWith "-" then none else withNumber g o next rest

/-- Read the next words of one side of the subcommand. -/
def head (topic : Topic) (options : List OptionSpec) (g : Given) (word : String)
    (rest : List String) : Option Head :=
  match word.toList with
  | ['-', '-'] => some (.theEnd rest)
  | '-' :: '-' :: _ => long topic options g word rest
  | '-' :: 'h' :: _ => some (.answer (.help topic))
  | '-' :: 'V' :: _ => if topic = .program then some (.answer .version) else none
  | '-' :: _ :: _ => none
  | _ => some (.word word rest)

/-- Read what stands behind a subcommand. -/
def behind (s : Subcommand) (before : Given) : Nat → Given → List String → Option Request
  | 0, _, _ => none
  | _ + 1, g, [] =>
    some (.run s (g.diagnostics || before.diagnostics) (g.numbers ++ before.numbers))
  | n + 1, g, word :: rest =>
    match head (.subcommand s) (s.options ++ [.stackSize]) g word rest with
    | some (.option g rest) => behind s before n g rest
    | some (.answer r) => some r
    | some (.theEnd []) => behind s before n g []
    | _ => none

/-- Read the words behind the subcommand that shows help. -/
def helpOn : List String → Option Request
  | [] => some (.help .program)
  | ["help"] => some (.help .help)
  | [word] => (Subcommand.ofName? word).map fun s => .help (.subcommand s)
  | _ => none

/-- Read the words from the start on. -/
def start : Nat → Given → List String → Option Request
  | 0, _, _ => none
  | _ + 1, _, [] => none
  | n + 1, g, word :: rest =>
    match head .program [.stackSize] g word rest with
    | some (.option g rest) => start n g rest
    | some (.answer r) => some r
    | some (.word "help" rest) => helpOn rest
    | some (.word name rest) => (Subcommand.ofName? name).bind fun s => behind s g (n + 1) {} rest
    | _ => none

/-- What a command line asks for, unless it is malformed. -/
def ofWords? (words : List String) : Option Request := start (words.length + 1) {} words

end Request

end EffectHandlers.CommandLine
