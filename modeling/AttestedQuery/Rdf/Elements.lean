import AttestedQuery.Rdf.Lines
import AttestedQuery.Xml

/-!
# RDF/XML

Elements stand for nodes and properties in turn. A start tag opens a frame, which its end tag
closes; a node is described by the properties inside it, and a property ends with its triple. What
a start tag says of its node comes out at once, the type of the element first.
-/

set_option autoImplicit false

namespace AttestedQuery.Rdf.Elements

/-- What the attributes of an element hand down to those inside it. -/
structure Scope where
  base : IriBase
  lang : Option String
  /-- The declared namespaces as they are written, the innermost first. -/
  namespaces : List (List Char × List Char)

/-- A property whose value is not yet known. -/
structure Property where
  subject : Term
  predicate : Term
  /-- The IRI under which its triple is described as a statement. -/
  statement : Option Term

/-- The value of a property as far as it is known. -/
inductive Content where
  | nothing
  | characters (text : List Char)
  | node (term : Term)

inductive Frame where
  /-- Around the root element. -/
  | outside
  /-- The element that holds all nodes. -/
  | document
  /-- A node, with the number of its container members so far. -/
  | node (subject : Term) (members : Nat)
  | property (property : Property) (content : Content) (datatype : Option String)
  | collection (property : Property) (items : List Term)
  /-- A property whose value is markup, with the number of open elements in it. -/
  | markup (property : Property) (isKept : Bool) (depth : Nat) (text : List Char)

structure State where
  /-- The open frames, the innermost first. -/
  frames : List (Frame × Scope)
  entities : List (List Char × List Char)
  /-- The identifiers in use. -/
  identifiers : List Term
  fresh : Nat
  quads : List Quad

/-! ## Names -/

def rdfName (localPart : String) : List Char := (rdf ++ localPart).toList

def rdfTerm (localPart : String) : Term := .iri (rdf ++ localPart)

/-- The names of the vocabulary that are no nodes and no properties. -/
def isReserved (name : List Char) : Bool :=
  ["about", "aboutEach", "aboutEachPrefix", "bagID", "datatype", "ID", "li", "nodeID", "parseType",
    "RDF", "resource"].any fun localPart => name == rdfName localPart

def isReservedAttribute (name : List Char) : Bool :=
  ["aboutEach", "aboutEachPrefix", "li", "RDF", "Description"].any fun localPart =>
    name == rdfName localPart

def declaration? (entry : Xml.Attribute) : Option (List Char × List Char) :=
  match Text.afterPart "xmlns".toList entry.1 with
  | some [] => some ([], entry.2)
  | some (':' :: lead) => some (lead, entry.2)
  | _ => none

/-- The full name for a name as it is written. Every name needs a namespace; only an element takes
the default one. -/
def expanded (entities : List (List Char × List Char)) (scope : Scope) (isElement : Bool)
    (name : List Char) : Option (List Char) := do
  let (lead, rest) := match name.span (· != ':') with
    | (lead, _ :: rest) => (lead, rest)
    | (whole, []) => ([], whole)
  if lead = [] ∧ !isElement then none
  else
    let (_, space) ← (scope.namespaces.find? fun entry => entry.1 == lead)
    if space = [] then none else Xml.unescape entities (space ++ rest)

/-- Whether a text is a name without a colon. -/
def isName : List Char → Bool
  | c :: rest => isNameStart c && rest.all fun c => isNameChar c || c == '.'
  | [] => false

/-! ## Attributes -/

inductive ParseType where
  | plain
  | collection
  | literal
  | resource
  | other
  deriving DecidableEq

structure Roles where
  id : Option (List Char)
  nodeId : Option (List Char)
  about : Option (List Char)
  resource : Option (List Char)
  datatype : Option (List Char)
  type : Option (List Char)
  parseType : ParseType
  /-- The other attributes, each a property with a literal. -/
  properties : List (Term × String)

def Roles.empty : Roles := ⟨none, none, none, none, none, none, .plain, []⟩

def parseTypeOf (value : List Char) : ParseType :=
  if value = "Collection".toList then .collection
  else if value = "Literal".toList then .literal
  else if value = "Resource".toList then .resource
  else .other

def isXmlAttribute (entry : Xml.Attribute) : Bool :=
  (Text.afterPart "xml".toList entry.1).isSome

def Scope.within (entities : List (List Char × List Char)) (scope : Scope)
    (attributes : List Xml.Attribute) : Option Scope := do
  let scope := { scope with
    namespaces := (attributes.filterMap declaration?).reverse ++ scope.namespaces }
  attributes.foldlM
    (fun scope (name, value) =>
      if name = "xml:lang".toList then do
        let lang ← LanguageTag.read? (← Xml.unescape entities value)
        return { scope with lang := some lang }
      else if name = "xml:base".toList then do
        let base ← absoluteIri scope.base (← Xml.unescape entities value)
        return { scope with base := iriBase base }
      else some scope)
    scope

def Roles.with (entities : List (List Char × List Char)) (scope : Scope) (roles : Roles)
    (entry : Xml.Attribute) : Option Roles := do
  let name ← expanded entities scope false entry.1
  let value ← Xml.unescape entities entry.2
  if name = rdfName "ID" then
    if isName value then return { roles with id := some ('#' :: value) } else none
  else if name = rdfName "bagID" then
    if isName value then return roles else none
  else if name = rdfName "nodeID" then
    if isName value then return { roles with nodeId := some value } else none
  else if name = rdfName "about" then return { roles with about := some value }
  else if name = rdfName "resource" then return { roles with resource := some value }
  else if name = rdfName "datatype" then return { roles with datatype := some value }
  else if name = rdfName "parseType" then return { roles with parseType := parseTypeOf entry.2 }
  else if name = rdfName "type" then return { roles with type := some value }
  else if isReservedAttribute name then none
  else
    let property ← absoluteIri none name
    return { roles with
      properties := roles.properties ++ [(.iri (String.ofList property), String.ofList value)] }

def rolesOf (entities : List (List Char × List Char)) (scope : Scope)
    (attributes : List Xml.Attribute) : Option Roles :=
  (attributes.filter fun entry => !isXmlAttribute entry).foldlM
    (Roles.with entities scope) Roles.empty

def reference (scope : Scope) : Option (List Char) → Option (Option Term)
  | none => some none
  | some text => (absoluteIri scope.base text).map fun iri => some (.iri (String.ofList iri))

/-! ## Triples -/

abbrev Parse (α : Type) := StateT State Option α

def emit (subject predicate object : Term) : Parse Unit :=
  modify fun s => { s with quads := ⟨subject, predicate, object, .defaultGraph⟩ :: s.quads }

/-- A blank node without a label; no label holds a colon, so it meets no other. -/
def freshNode : Parse Term := do
  let number := (← get).fresh
  modify fun s => { s with fresh := number + 1 }
  return .blank (":" ++ Decimal.textOfInt number)

def literalOf (scope : Scope) (text : String) : Option String → Term
  | some datatype => .literal text none datatype
  | none =>
    match scope.lang with
    | some lang => .literal text (some lang) rdfLangString
    | none => .simple text

def describe (scope : Scope) (node : Term) (type : Option Term)
    (properties : List (Term × String)) : Parse Unit := do
  if let some type := type then emit node (rdfTerm "type") type
  properties.reverse.forM fun (predicate, value) =>
    emit node predicate (literalOf scope value none)

def close (p : Property) (object : Term) : Parse Unit := do
  emit p.subject p.predicate object
  if let some statement := p.statement then
    emit statement (rdfTerm "type") (rdfTerm "Statement")
    emit statement (rdfTerm "subject") p.subject
    emit statement (rdfTerm "predicate") p.predicate
    emit statement (rdfTerm "object") object

/-! ## Frames -/

def push (frame : Frame) (scope : Scope) : Parse Unit :=
  modify fun s => { s with frames := (frame, scope) :: s.frames }

def replace (frame : Frame) : Parse Unit :=
  modify fun s =>
    match s.frames with
    | (_, scope) :: rest => { s with frames := (frame, scope) :: rest }
    | [] => s

def identifier (scope : Scope) (roles : Roles) : Parse (Option Term) := do
  match ← reference scope roles.id with
  | none => return none
  | some iri =>
    if (← get).identifiers.contains iri then failure
    modify fun s => { s with identifiers := iri :: s.identifiers }
    return some iri

def blankOf (label : List Char) : Term := .blank (String.ofList label)

/-- Opens a node. At most one attribute names it. -/
def openNode (name : List Char) (scope : Scope) (roles : Roles) : Parse Unit := do
  let id ← identifier scope roles
  let about ← reference scope roles.about
  let type ← reference scope roles.type
  let subject ← match id, roles.nodeId, about with
    | some id, none, none => pure id
    | none, some label, none => pure (blankOf label)
    | none, none, some about => pure about
    | none, none, none => freshNode
    | _, _, _ => failure
  if name ≠ rdfName "Description" then
    emit subject (rdfTerm "type") (.iri (String.ofList (← absoluteIri none name)))
  describe scope subject type roles.properties
  push (.node subject 0) scope

/-- Opens a property without a way of reading of its own. One with a node in its attributes has its
value at once. -/
def openPlain (p : Property) (scope : Scope) (roles : Roles) : Parse Unit := do
  let resource ← reference scope roles.resource
  let datatype ← reference scope roles.datatype
  let type ← reference scope roles.type
  let datatype := datatype >>= Term.lexical?
  if resource.isNone && roles.nodeId.isNone && roles.properties.isEmpty then
    push (.property p .nothing datatype) scope
  else
    let object ← match resource, roles.nodeId with
      | some resource, none => pure resource
      | none, some label => pure (blankOf label)
      | none, none => freshNode
      | some _, some _ => failure
    describe scope object type roles.properties
    push (.property p (.node object) datatype) scope

def openProperty (subject : Term) (members : Nat) (name : List Char) (scope : Scope)
    (roles : Roles) : Parse Unit := do
  let id ← identifier scope roles
  let predicate ←
    if name = rdfName "li" then do
      replace (.node subject (members + 1))
      pure (rdfTerm ("_" ++ Decimal.textOfInt (members + 1)))
    else if isReserved name || name == rdfName "Description" then failure
    else do pure (.iri (String.ofList (← absoluteIri none name)))
  let p : Property := ⟨subject, predicate, id⟩
  match roles.parseType with
  | .plain => openPlain p scope roles
  | .collection => push (.collection p []) scope
  | .literal => push (.markup p true 0 []) scope
  | .other => push (.markup p false 0 []) scope
  | .resource =>
    let object ← freshNode
    close p object
    push (.node object 0) scope

def tagText (name : List Char) (attributes : List Xml.Attribute) : List Char :=
  '<' :: name
    ++ attributes.flatMap (fun (name, value) => ' ' :: name ++ "=\"".toList ++ value ++ ['"'])
    ++ ['>']

def openElement (name : List Char) (attributes : List Xml.Attribute) : Parse Unit := do
  let s ← get
  match s.frames with
  | (.markup p isKept depth text, _) :: _ =>
    replace (.markup p isKept (depth + 1) (text ++ tagText name attributes))
  | (frame, outer) :: _ =>
    let scope ← outer.within s.entities attributes
    let name ← expanded s.entities scope true name
    let roles ← rolesOf s.entities scope attributes
    match frame with
    | .node subject members => openProperty subject members name scope roles
    | .outside =>
      if name = rdfName "RDF" then
        discard (identifier scope roles)
        push .document scope
      else if isReserved name then failure
      else openNode name scope roles
    | _ => if isReserved name then failure else openNode name scope roles
  | [] => failure

/-- The value of a property with its characters, where a node ends inside it. -/
def withNode (content : Content) (node : Term) : Option Content :=
  match content with
  | .nothing => some (.node node)
  | .characters text => if text.all Xml.isSpace then some (.node node) else none
  | .node _ => none

/-- Hands a node that ended to the frame around it. -/
def closeNode (subject : Term) : Parse Unit := do
  match (← get).frames with
  | (.property p content datatype, _) :: _ =>
    replace (.property p (← withNode content subject) datatype)
  | (.collection p items, _) :: _ => replace (.collection p (items ++ [subject]))
  | _ => return ()

def collectionOf : List Term → Parse Term
  | [] => return rdfTerm "nil"
  | item :: rest => do
    let node ← freshNode
    emit node (rdfTerm "first") item
    emit node (rdfTerm "rest") (← collectionOf rest)
    return node

def closeFrame (frame : Frame) (scope : Scope) : Parse Unit :=
  match frame with
  | .outside | .document => return ()
  | .node subject _ => closeNode subject
  | .property p (.node object) _ => close p object
  | .property p (.characters text) datatype =>
    close p (literalOf scope (String.ofList text) datatype)
  | .property p .nothing datatype => close p (literalOf scope "" datatype)
  | .collection p items => do close p (← collectionOf items)
  | .markup p isKept _ text => do
    if isKept then
      if text.isEmpty then failure
      close p (.literal (String.ofList text) none (rdf ++ "XMLLiteral"))

def closeElement (name : List Char) : Parse Unit := do
  match (← get).frames with
  | (.markup p isKept (depth + 1) text, _) :: _ =>
    replace (.markup p isKept depth (text ++ '<' :: '/' :: name ++ ['>']))
  | (frame, scope) :: rest =>
    modify fun s => { s with frames := rest }
    closeFrame frame scope
  | [] => failure

/-- Characters between tags. Where no value stands they may only be white space. -/
def addCharacters (text : List Char) : Parse Unit := do
  match (← get).frames with
  | (.property p .nothing datatype, _) :: _ => replace (.property p (.characters text) datatype)
  | (.property p (.characters before) datatype, _) :: _ =>
    replace (.property p (.characters (before ++ text)) datatype)
  | (.markup p isKept depth before, _) :: _ =>
    replace (.markup p isKept depth (before ++ Xml.escape text))
  | _ => if text.all Xml.isSpace then return () else failure

/-- Takes one event. Only UTF-8 may be declared as the encoding. -/
def take (event : Xml.Event) : Parse Unit := do
  match event with
  | .start name attributes => openElement name attributes
  | .finish name => closeElement name
  | .characters text => addCharacters (← Xml.unescape (← get).entities text)
  | .verbatim text => addCharacters text
  | .documentType text =>
    let entities ← Xml.entitiesOf (← get).entities text
    modify fun s => { s with entities := entities }
  | .declaration attributes =>
    let encoding := attributes.find? fun entry => entry.1 == "encoding".toList
    if encoding.all fun entry => entry.2.map Char.toLower == "utf-8".toList then return ()
    else failure

/-- The names that every document may use. -/
def Scope.initial : Scope :=
  ⟨none, none, [("xml".toList, "http://www.w3.org/XML/1998/namespace".toList)]⟩

def read (text : String) : Option (List Quad) := do
  let events ← Xml.events text.toList
  let start : State := ⟨[(.outside, Scope.initial)], [], [], 0, []⟩
  let (_, state) ← (events.forM take).run start
  return state.quads.reverse

end AttestedQuery.Rdf.Elements
