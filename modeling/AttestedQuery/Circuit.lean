import AttestedQuery.Circuit.Code
import AttestedQuery.Json.Printer
import AttestedQuery.Program.Json

/-!
# Circuits

The package of a program in the circuit language: the source of the binding check, the source of
the entry point, which also checks the signature and the openings unless signing is skipped, and
the manifest with the libraries that they use.
-/

set_option autoImplicit false

namespace AttestedQuery

structure Circuit where
  bindingSource : String
  mainSource : String
  manifest : String
  program : Program

namespace Circuit

def libraryPath : String := "../noir/lib"

def linesText (lines : List String) : String :=
  String.join (lines.map (· ++ "\n"))

/-- Signed order of field elements. Adding 2^63 maps exactly the elements that stand for signed
64-bit numbers below 2^64; every comparison of others is false. -/
def orderLines : List String :=
  ["fn biased(x: Field) -> Field \x7b",
    "    x + 0x8000000000000000",
    "\x7d",
    "",
    "fn in_i64(x: Field) -> bool \x7b",
    "    biased(x).lt(0x10000000000000000)",
    "\x7d",
    "",
    "fn signed_lt(a: Field, b: Field) -> bool \x7b",
    "    in_i64(a) & in_i64(b) & biased(a).lt(biased(b))",
    "\x7d",
    "",
    "fn signed_le(a: Field, b: Field) -> bool \x7b",
    "    in_i64(a) & in_i64(b) & !biased(b).lt(biased(a))",
    "\x7d",
    ""]

def textIf (condition : Bool) (text : String) : String := if condition then text else ""

def linesIf (condition : Bool) (lines : List String) : List String :=
  if condition then lines else []

/-- The record of public values, and the types of the other arguments. -/
def typeLines (p : Program) : List String :=
  ["pub(crate) type BGP = [Triple; " ++ shownNat p.width ++ "];",
    "pub(crate) struct Variables \x7b"]
  ++ p.projected.map (fun name => "    pub(crate) " ++ identifier name ++ ": Field,")
  ++ ["\x7d", ""]
  ++ linesIf p.takesHints
    ["pub(crate) type Hidden = [Field; " ++ shownNat p.hints.length ++ "];", ""]

def bindingText (p : Program) : String :=
  let code := statements p
  linesText (
    ["// Generated by sparql_proof",
      "use dep::consts;",
      if p.skipSigning then "use super::Triple;" else "use dep::types::Triple;",
      ""]
    ++ typeLines p
    ++ linesIf (code.any Statement.hasOrder) orderLines
    ++ ["pub(crate) fn checkBinding(bgp: BGP, variables: Variables"
      ++ textIf p.takesHints ", hidden: Hidden" ++ ") \x7b"]
    ++ code.map (fun statement => "    " ++ statement.text)
    ++ ["\x7d"])

/-- The imports of the entry point from the binding check. -/
def importLine (hints : Bool) : String :=
  "use sparql::\x7bBGP, Variables" ++ textIf hints ", Hidden" ++ "\x7d;"

def callLine (hints : Bool) : String :=
  "    sparql::checkBinding(bgp, variables" ++ textIf hints ", hidden" ++ ");"

def trustingLines (hints : Bool) : List String :=
  ["mod sparql;",
    "",
    importLine hints,
    "",
    "pub(crate) struct Triple \x7b",
    "    pub(crate) terms: [Field; 4],",
    "\x7d",
    "",
    "fn main(bgp: BGP, variables: pub Variables" ++ textIf hints ",\n    hidden: Hidden" ++ ") \x7b",
    callLine hints,
    "\x7d"]

/-- The entry point that checks the signature of the root and the opening of every quad. -/
def verifyingLines (hints : Bool) : List String :=
  ["mod sparql;",
    "",
    "use dep::types::\x7bPubKey, Root\x7d;",
    "use dep::consts;",
    "use dep::utils;",
    importLine hints,
    "",
    "fn main(",
    "    public_key: [PubKey; 1],",
    "    roots: pub [Root; 1],",
    "    bgp: BGP,",
    "    variables: pub Variables" ++ textIf hints ",\n    hidden: Hidden",
    ") \x7b",
    "    for i in 0..roots.len() \x7b",
    "        let key = public_key[roots[i].keyIndex];",
    "        assert(utils::verify_signature(key, roots[i].value, roots[i].signature));",
    "    \x7d",
    "    for i in 0..bgp.len() \x7b",
    "        let leaf = consts::hash4(bgp[i].terms);",
    "        assert(utils::merkle_root(leaf, bgp[i].path, bgp[i].directions) == roots[0].value);",
    "    \x7d",
    callLine hints,
    "\x7d"]

def libraries (skipSigning : Bool) : List String :=
  if skipSigning then ["consts"] else ["consts", "types", "utils"]

def manifestText (skipSigning : Bool) : String :=
  linesText (
    ["[package]",
      "name = \"sparql_proof\"",
      "type = \"bin\"",
      "authors = [\"\"]",
      "",
      "[dependencies]"]
    ++ (libraries skipSigning).map fun name =>
      name ++ " = \x7b path = \"" ++ libraryPath ++ "/" ++ name ++ "\" \x7d")

def ofProgram (p : Program) : Circuit where
  bindingSource := bindingText p
  mainSource :=
    linesText (if p.skipSigning then trustingLines p.takesHints
      else verifyingLines p.takesHints)
  manifest := manifestText p.skipSigning
  program := p

def toJson (c : Circuit) : Json :=
  .object [("sparql_nr", .text c.bindingSource), ("main_nr", .text c.mainSource),
    ("nargo_toml", .text c.manifest), ("metadata", c.program.toJson)]

def files (c : Circuit) : List (String × String) :=
  [("src/sparql.nr", c.bindingSource), ("src/main.nr", c.mainSource), ("Nargo.toml", c.manifest),
    ("metadata.json", c.program.toJson.pretty)]

end Circuit

end AttestedQuery
