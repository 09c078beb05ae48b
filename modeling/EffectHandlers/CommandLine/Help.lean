import EffectHandlers.CommandLine.Request
/-!
# Help texts

A help text tells what a subcommand is for, how it is called, and which options it knows. Options
stand in two columns, ranked by the place of their declaration and then by name.
-/

namespace EffectHandlers.CommandLine.Help

/-- The name under which the program is called. -/
def programName : String := "oneshot-demo"

/-- What the program answers when asked for its version. -/
def version : String := programName ++ " 0.4.0\n"

/-- A text filled up with blanks. -/
def pad (width : Nat) (text : String) : String :=
  text ++ String.ofList (List.replicate (width - text.length) ' ')

/-- Lines in two columns. -/
def columns (rows : List (String × String)) : List String :=
  let width := (rows.map (·.1.length)).foldl max 0
  rows.map fun (left, right) => "  " ++ pad width left ++ "  " ++ right

/-- The left column of an option with a number. -/
def optionUsage (o : OptionSpec) : String :=
  let value := o.name.map fun c => if c = '-' then '_' else c.toUpper
  "    --" ++ o.name ++ " <" ++ value ++ ">"

/-- The row of an option with a number. -/
def optionRow (o : OptionSpec) : String × String :=
  let standard := match o.standard with
    | some n => " [default: " ++ toString n ++ "]"
    | none => ""
  (optionUsage o, o.about ++ standard)

/-- The rows of options with their ranks and names. -/
def ranked (own : List OptionSpec) : List (Nat × String × String × String) :=
  own.mapIdx (fun i o => (i, o.name, optionRow o)) ++
    [ (0, OptionSpec.stackSize.name, optionRow .stackSize),
      (1, "diagnostics", "    --diagnostics", "Dump runtime diagnostics to stderr after the demo") ]

/-- The rows of all options, in order. -/
def optionRows (own : List OptionSpec) : List (String × String) :=
  let sorted := (ranked own).mergeSort fun a b =>
    decide (a.1 < b.1) || (a.1 == b.1 && !decide (b.2.1 < a.2.1))
  sorted.map (·.2.2)

/-- The lines of the options. -/
def optionLines (own : List OptionSpec) (more : List (String × String)) : List String :=
  "Options:" :: columns (optionRows own ++ [("-h, --help", "Print help")] ++ more)

/-- The lines of the subcommands. -/
def subcommandLines : List String :=
  "Commands:" :: columns (Subcommand.list.map (fun s => (s.name, s.about)) ++
    [("help", "Print this message or the help of the given subcommand(s)")])

/-- The lines of a help text. -/
def lines : Topic → List String
  | .program =>
    ["Client programs for one-shot effect handlers", "",
      "Usage: " ++ programName ++ " [OPTIONS] <COMMAND>", ""] ++ subcommandLines ++ [""]
      ++ optionLines [] [("-V, --version", "Print version")]
  | .subcommand s =>
    [s.about, "", "Usage: " ++ programName ++ " " ++ s.name ++ " [OPTIONS]", ""]
      ++ optionLines s.options []
  | .help =>
    ["Print this message or the help of the given subcommand(s)", "",
      "Usage: " ++ programName ++ " help [COMMAND]...", "", "Arguments:",
      "  [COMMAND]...  Print help for the subcommand(s)"]

/-- A help text. -/
def text (t : Topic) : String := String.join ((lines t).map (· ++ "\n"))

end EffectHandlers.CommandLine.Help
