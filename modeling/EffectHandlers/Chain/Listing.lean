import EffectHandlers.Chain.Basic
/-!
# Listings of the chain

A snapshot gives the label and name of each installation on the chain. A listing is its text, one
line an installation with the commands it declares, down to and including the bottom one.
-/

namespace EffectHandlers

/-- The text before the first `<`. -/
private def headOf (cs : List Char) : List Char := cs.takeWhile (· != '<')

/-- The text behind the last `::`, all of it if there is none. -/
def afterLastColons : List Char → List Char
  | [] => []
  | c :: rest =>
    let later := afterLastColons rest
    if later.length < rest.length then later
    else match c, rest with
      | ':', ':' :: name => name
      | _, _ => c :: rest

/-- A type's name without the path in front of it: `a::b::Get<c::D>` reads `Get<c::D>`. -/
def shortName (name : String) : String :=
  let cs := name.toList
  let head := headOf cs
  String.ofList (afterLastColons head ++ cs.drop head.length)

namespace Chain

/-- Label and name of each live installation, top first. -/
def snapshot (c : Chain) : List (Int × String) :=
  c.live.map fun id => ((c.get id).label, (c.get id).name)

/-- The line of one installation. -/
def listingLine (i : Installation) : String :=
  let head := "  " ++ toString i.label ++ ":" ++ i.name
  if i.clauses.isEmpty then head
  else
    let commands := i.clauses.map fun e => shortName e.name ++ e.modifier.mark
    head ++ " [" ++ ", ".intercalate commands ++ "]"

/-- The line above every listing. -/
def listingHeading : String := "=== Metastack (top first) ==="

/-- The lines of the listing, without its heading. -/
def listingBody (c : Chain) : List String := c.toList.map fun id => listingLine (c.get id)

/-- The listing with its heading. -/
def listing (c : Chain) : List String := listingHeading :: c.listingBody

end Chain

end EffectHandlers
