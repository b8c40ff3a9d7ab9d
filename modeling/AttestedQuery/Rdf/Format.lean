import AttestedQuery.Error
import AttestedQuery.Rdf.Elements
import AttestedQuery.Rdf.Turtle

/-!
# Formats of RDF files

The formats in which quads are read, and how the name of a file tells its format.
-/

set_option autoImplicit false

namespace AttestedQuery.Rdf

inductive Format where
  | nTriples
  | nQuads
  | turtle
  | triG
  | xml
  deriving DecidableEq

namespace Format

/-- The format with a file name extension in lower case. -/
def ofExtension? (extension : String) : Option Format :=
  match extension with
  | "nt" | "txt" => some .nTriples
  | "nq" => some .nQuads
  | "ttl" => some .turtle
  | "trig" => some .triG
  | "rdf" | "xml" => some .xml
  | _ => none

/-- What follows the last dot of the last part of a path. A dot at the start of that part does not
count. -/
def extensionOf (path : String) : Option String :=
  let name := ((Text.piecesAt '/' path.toList).getLast?).getD []
  match Text.piecesAt '.' name.tail with
  | [] | [_] => none
  | pieces => (pieces.getLast?).map String.ofList

/-- The format of a file, by its name in either letter case. -/
def ofPath? (path : String) : Option Format :=
  extensionOf path >>= fun extension => ofExtension? extension.toLower

/-- Reads the quads of a text in a format, in order. A fault anywhere makes the text unreadable. -/
def read (format : Format) (text : String) : Result (List Quad) :=
  let quads :=
    match format with
    | .nTriples => Lines.read false text
    | .nQuads => Lines.read true text
    | .turtle => Turtle.read false text
    | .triG => Turtle.read true text
    | .xml => Elements.read text
  match quads with
  | some quads => .ok quads
  | none => .error (.rdf .malformed)

end Format

/-- Reads the quads of a file. Its name must tell the format, before its content counts. -/
def quadsOfFile (path : String) (content : Result String) : Result (List Quad) :=
  match Format.ofPath? path with
  | some format => content >>= format.read
  | none => .error (.rdf (.unknownFormat path))

end AttestedQuery.Rdf
