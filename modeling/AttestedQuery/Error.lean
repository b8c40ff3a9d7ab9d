import AttestedQuery.Constraint.Assertion
import AttestedQuery.Text.Hex

/-!
# Causes of failure

Every way in which an operation of the library fails, as a cause with the values it concerns, and
the wording of each cause in one function per type.
-/

set_option autoImplicit false

namespace AttestedQuery

/-- The hash functions a deployment may choose for combining field elements. -/
inductive HashSuite where
  | blake2s
  | blake3
  deriving DecidableEq, Repr, Inhabited

def HashSuite.name : HashSuite → String
  | .blake2s => "blake2s"
  | .blake3 => "blake3"

def shownNat (n : Nat) : String := Decimal.textOfInt n

/-- Parts of the query language that have no normal form or no constraints. -/
inductive Construct where
  | constructForm
  | describeForm
  | unprojected
  | minus
  | values
  | grouping
  | service
  | subquery
  | nestedModifier
  | lateral
  | negatedSet
  | existence
  | reservedVariable (name : String)
  | function (name : String)
  | expression (shown : String)
  | arithmetic (shown : String)
  | signed (literal : String)
  /-- A path step of length zero of which nothing binds either end. -/
  | openAlias (target source : String)
  | extension (kind : String)
  | asValue (kind : String)
  | ofNumber (builtin : Builtin)
  | textOfDatatype
  | lengthOfComputed
  | orderOfComputed
  | orderAgainst (lexical : String)
  deriving DecidableEq

def Construct.message : Construct → String
  | .constructForm => "CONSTRUCT"
  | .describeForm => "DESCRIBE"
  | .unprojected => "SELECT without projection"
  | .minus => "MINUS"
  | .values => "VALUES"
  | .grouping => "GROUP BY / aggregates"
  | .service => "SERVICE"
  | .subquery => "subquery"
  | .nestedModifier => "nested solution modifier"
  | .lateral => "LATERAL"
  | .negatedSet => "negated property set"
  | .existence => "EXISTS / NOT EXISTS"
  | .reservedVariable name =>
      "variable ?" ++ name ++ " uses the reserved " ++ pathVariableLead ++ " prefix"
  | .function name => "function " ++ name
  | .expression shown => "expression " ++ shown
  | .arithmetic shown => "arithmetic on " ++ shown
  | .signed literal => "sign applied to " ++ literal
  | .openAlias target source =>
      "zero-length path between the unbound ?" ++ target ++ " and ?" ++ source
  | .extension kind => "BIND of " ++ kind ++ " (only variables and constants)"
  | .asValue kind => kind ++ " used as a value"
  | .ofNumber builtin => builtin.name ++ " of a numeric expression"
  | .textOfDatatype => "STR(DATATYPE(..))"
  | .lengthOfComputed => "STRLEN of a computed string"
  | .orderOfComputed => "string ordering of a computed string"
  | .orderAgainst lexical => "ordering a variable against the non-integer literal " ++ lexical

/-- Why the value of a hint cannot be computed. -/
inductive HintFault where
  | unbound (key : String)
  | outOfRange
  | tooLong (length limit : Nat)
  deriving DecidableEq

def tooLongMessage (length limit : Nat) : String :=
  "literal of " ++ shownNat length ++ " bytes exceeds the " ++ shownNat limit
    ++ "-byte packing width"

def HintFault.message : HintFault → String
  | .unbound key => "operand " ++ key ++ " is unbound"
  | .outOfRange => "descriptor index out of range"
  | .tooLong length limit => tooLongMessage length limit

/-- Why a witness does not satisfy a program. -/
inductive Unmet where
  | missingSlot (slot position : Nat)
  | missingVariable (name : String)
  | missingHint (index : Nat)
  | missingBranch (index : Nat)
  | slotCount (expected found : Nat)
  | hintCount (expected found : Nat)
  | rootSignature
  | slotOpening (slot : Nat)
  | nothingToPad
  | assertion (a : Assertion)
  /-- The words of an external prover. -/
  | reported (text : String)

/-- The faults of a signing key, a public key, a signature, or what they should cover. -/
inductive SignatureFault where
  | badHex (fault : Hex.Fault)
  | badSecret
  | badPublicKey
  | encodingOfQuad (index : Nat)
  | openingOfQuad (index : Nat)
  | root
  deriving DecidableEq

def SignatureFault.message : SignatureFault → String
  | .badHex fault => "invalid hex: " ++ fault.message
  | .badSecret => "signature error"
  | .badPublicKey => "invalid public key: crypto error"
  | .encodingOfQuad index => "encoding of quad #" ++ shownNat index ++ " does not match"
  | .openingOfQuad index =>
      "inclusion proof of quad #" ++ shownNat index ++ " does not reach the root"
  | .root => "root signature does not verify"

def maxDepth : Nat := 32

/-- Values that do not fit together or lie outside their range. -/
inductive ConfigFault where
  | configuredDepth (depth : Nat)
  | treeDepth (depth : Nat)
  | noHops
  | noWorkers
  | noLiteralBytes
  | suites (signed configured : HashSuite)
  | depths (signed configured : Nat)
  | lengths
  | otherProgram
  deriving DecidableEq

def depthRangeMessage (subject : String) (depth : Nat) : String :=
  subject ++ " must be within 1..=" ++ shownNat maxDepth ++ ", got " ++ shownNat depth

def ConfigFault.message : ConfigFault → String
  | .configuredDepth depth => depthRangeMessage "tree_depth" depth
  | .treeDepth depth => depthRangeMessage "tree depth" depth
  | .noHops => "max_path_hops must be at least 1"
  | .noWorkers => "workers must be at least 1"
  | .noLiteralBytes => "max_literal_bytes must be at least 1"
  | .suites signed configured =>
      "dataset was signed with hash suite " ++ signed.name ++ ", configuration uses "
        ++ configured.name
  | .depths signed configured =>
      "dataset tree depth " ++ shownNat signed ++ " differs from configured depth "
        ++ shownNat configured
  | .lengths => "dataset quads, encodings and proofs differ in length"
  | .otherProgram => "query was compiled under a different configuration"

/-- What the file system answers instead of a result. -/
inductive FileFault where
  | notFound
  | denied
  | notDirectory
  | isDirectory
  | exists
  | badFormat
  | notUtf8
  deriving DecidableEq

def FileFault.description : FileFault → String
  | .notFound => "No such file or directory"
  | .denied => "Permission denied"
  | .notDirectory => "Not a directory"
  | .isDirectory => "Is a directory"
  | .exists => "File exists"
  | .badFormat => "Exec format error"
  | .notUtf8 => "stream did not contain valid UTF-8"

/-- The number by which the operating system knows a fault; one of the content has none. -/
def FileFault.code? : FileFault → Option Nat
  | .notFound => some 2
  | .denied => some 13
  | .notDirectory => some 20
  | .isDirectory => some 21
  | .exists => some 17
  | .badFormat => some 8
  | .notUtf8 => none

def FileFault.message (fault : FileFault) : String :=
  match fault.code? with
  | some code => fault.description ++ " (os error " ++ shownNat code ++ ")"
  | none => fault.description

inductive ToolFault where
  | badProofHex (fault : Hex.Fault)
  | notStarted (program : String) (fault : FileFault)
  | failed (program errors : String)
  | solvingFailed (errors : String)
  | unverified
  deriving DecidableEq

def ToolFault.message : ToolFault → String
  | .badProofHex fault => "invalid proof hex: " ++ fault.message
  | .notStarted program fault => "failed to run " ++ program ++ ": " ++ fault.message
  | .failed program errors => program ++ " failed:\n" ++ errors
  | .solvingFailed errors => "nargo execute failed:\n" ++ errors
  | .unverified => "proof did not verify"

inductive RdfFault where
  | unknownFormat (path : String)
  | malformed
  deriving DecidableEq

def RdfFault.message : RdfFault → String
  | .unknownFormat path => "cannot guess RDF format of " ++ path
  | .malformed => "the text does not follow the format"

inductive Error where
  | badField (text : String) (fault : Field.ReadFault)
  | badQuery
  | unsupported (construct : Construct)
  | literalTooLong (length limit : Nat)
  | treeFull (quads capacity : Nat)
  | hint (index : Nat) (kind : String) (fault : HintFault)
  | unmet (reason : Unmet)
  | tool (fault : ToolFault)
  | signature (fault : SignatureFault)
  | config (fault : ConfigFault)
  | rdf (fault : RdfFault)
  | file (fault : FileFault)
  | badJson
  | badToml

def Wire.shown : Wire → String
  | .slot index position =>
      "Slot \x7b slot: " ++ shownNat index ++ ", pos: " ++ shownNat position ++ " \x7d"
  | .variable name => "Var(" ++ Text.quoted name ++ ")"
  | .hint index => "Hidden(" ++ shownNat index ++ ")"
  | .const value => "Const(Field(" ++ value.toHex ++ "))"
  | .hash2 a b => "Hash2([" ++ a.shown ++ ", " ++ b.shown ++ "])"
  | .hash4 a b c d =>
      "Hash4([" ++ a.shown ++ ", " ++ b.shown ++ ", " ++ c.shown ++ ", " ++ d.shown ++ "])"

def CompareOp.shown : CompareOp → String
  | .lt => "Lt"
  | .le => "Le"
  | .gt => "Gt"
  | .ge => "Ge"

mutual

/-- The text of an assertion in errors: constructor names and fields. -/
def Assertion.shown : Assertion → String
  | .true => "True"
  | .false => "False"
  | .eq a b => "Eq(" ++ a.shown ++ ", " ++ b.shown ++ ")"
  | .compare op left right =>
      "Compare \x7b op: " ++ op.shown ++ ", left: " ++ left.shown ++ ", right: " ++ right.shown
        ++ " \x7d"
  | .not a => "Not(" ++ a.shown ++ ")"
  | .and parts => "And([" ++ Assertion.shownList parts ++ "])"
  | .or parts => "Or([" ++ Assertion.shownList parts ++ "])"

def Assertion.shownList : List Assertion → String
  | [] => ""
  | [single] => single.shown
  | part :: rest => part.shown ++ ", " ++ Assertion.shownList rest

end

def Unmet.message : Unmet → String
  | .missingSlot slot position =>
      "slot bgp[" ++ shownNat slot ++ "].terms[" ++ shownNat position ++ "] missing"
  | .missingVariable name => "variable " ++ name ++ " missing from witness"
  | .missingHint index => "hidden[" ++ shownNat index ++ "] missing from witness"
  | .missingBranch index => "no branch " ++ shownNat index
  | .slotCount expected found =>
      "expected " ++ shownNat expected ++ " BGP slots, witness has " ++ shownNat found
  | .hintCount expected found =>
      "expected " ++ shownNat expected ++ " hidden values, witness has " ++ shownNat found
  | .rootSignature => "root signature does not verify"
  | .slotOpening slot => "inclusion proof of slot " ++ shownNat slot ++ " does not reach the root"
  | .nothingToPad => "dataset has no quad to pad a slot with"
  | .assertion a => a.shown
  | .reported text => text

namespace Error

def message : Error → String
  | .badField text fault =>
      "parse error: invalid field element " ++ Text.quoted text ++ ": " ++ fault.message
  | .badQuery => "parse error: the query does not follow the grammar"
  | .unsupported construct => "unsupported SPARQL feature: " ++ construct.message
  | .literalTooLong length limit => tooLongMessage length limit
  | .treeFull quads capacity =>
      shownNat quads ++ " quads do not fit a tree of capacity " ++ shownNat capacity
  | .hint index kind fault =>
      "cannot compute hidden input #" ++ shownNat index ++ " (" ++ kind ++ "): " ++ fault.message
  | .unmet reason => "constraint not satisfied: " ++ reason.message
  | .tool fault => "backend error: " ++ fault.message
  | .signature fault => "signature error: " ++ fault.message
  | .config fault => "invalid configuration: " ++ fault.message
  | .rdf fault => "RDF parse error: " ++ fault.message
  | .file fault => fault.message
  | .badJson => "the JSON text does not hold the expected data"
  | .badToml => "the TOML text does not hold the expected data"

/-- Whether an error concerns one row or one item only, so that the others go on. -/
def isRecoverable : Error → Bool
  | .hint .. | .unmet _ | .tool _ => true
  | _ => false

end Error

abbrev Result (α : Type) := Except Error α

end AttestedQuery
