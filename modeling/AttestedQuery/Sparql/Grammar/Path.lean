import AttestedQuery.Sparql.Lexeme

/-!
# The grammar of property paths

Alternatives of sequences of steps; a step is a primary path with at most one repetition, and may
be inverse. Sequences and alternatives group to the left.
-/

set_option autoImplicit false

namespace AttestedQuery.Sparql.Grammar

open Reader

def rdfType : String := rdf ++ "type"

def verbIri : Grammar String :=
  iri <|> (do
    exactly "a"
    return rdfType)

def foldedLeft {α : Type} (combine : α → α → α) : List α → Grammar α
  | [] => fail
  | first :: rest => succeed (rest.foldl combine first)

def setMember : Grammar (Bool × String) :=
  (do
    mark "^"
    return (true, ← verbIri))
  <|> (do return (false, ← verbIri))

/-- The path along any IRI outside a set, forwards and backwards as far as the set says. -/
def outsidePath (members : List (Bool × String)) : Path :=
  let forward := (members.filter fun m => !m.1).map (·.2)
  let backward := (members.filter fun m => m.1).map (·.2)
  if backward.isEmpty then .outside forward
  else if forward.isEmpty then .reverse (.outside backward)
  else .alternative (.outside forward) (.reverse (.outside backward))

def negatedSet : Grammar Path :=
  (do
    mark "("
    let members ← sepBy (spaced setMember) (mark "|")
    exactly ")"
    return outsidePath members)
  <|> (do return outsidePath [← setMember])

/-- A repetition mark. A question mark that starts a variable is none. -/
def repetition : Grammar (Path → Path) :=
  (do
    exactly "*"
    return .zeroOrMore)
  <|> (do
    exactly "+"
    return .oneOrMore)
  <|> (do
    exactly "?"
    absent (charIf fun c => c.isDigit || Rdf.isNameStart c)
    return .zeroOrOne)

/-- A path whose bracketed parts are read by `inner`. -/
def pathWith (inner : Grammar Path) : Grammar Path := do
  let primary : Grammar Path :=
    (do return .iri (← verbIri))
    <|> (do
      mark "!"
      negatedSet)
    <|> bracketed inner
  let step : Grammar Path := do
    let path ← spaced primary
    match ← maybe repetition with
    | some repeated => return repeated path
    | none => return path
  let direction : Grammar Path :=
    (do
      mark "^"
      return .reverse (← step))
    <|> step
  let sequence : Grammar Path := do
    foldedLeft .sequence (← sepBy (spaced direction) (mark "/"))
  foldedLeft .alternative (← sepBy (spaced sequence) (mark "|"))

def pathOfDepth : Nat → Grammar Path
  | 0 => fail
  | depth + 1 => pathWith (pathOfDepth depth)

/-- A path. Each bracket takes a character, so the length of the text bounds the depth. -/
def path : Grammar Path := fun text s => pathOfDepth (text.length + 1) text s

end AttestedQuery.Sparql.Grammar
