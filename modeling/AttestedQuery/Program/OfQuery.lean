import AttestedQuery.Algebra.OfQuery
import AttestedQuery.Program.Filter
import AttestedQuery.Program.Fragment
import AttestedQuery.Sparql.Parser

/-!
# Compiling queries

Each fragment of a query becomes a branch of its program. The first place of a key is its source,
every later one must equal it; constants must equal their encodings; a projected key is published,
and one that a branch does not bind is published as zero.
-/

set_option autoImplicit false

namespace AttestedQuery

/-- The sources of keys found so far, and the equalities that the others must meet. -/
structure Tracing where
  sources : KeyMap Wire
  equalities : List Assertion

namespace Tracing

def initial : Tracing := ⟨KeyMap.empty, []⟩

def withEquality (t : Tracing) (a b : Wire) : Tracing :=
  { t with equalities := t.equalities ++ [.eq a b] }

def withPosition (e : Encoder) (here : Wire) (t : Tracing) : Option PatternTerm → Result Tracing
  | none => .ok t
  | some (.const term) => do return t.withEquality here (.const (← e.encode term))
  | some term =>
    match term.key? with
    | none => .ok t
    | some key =>
      match t.sources.get? key with
      | some first => .ok (t.withEquality here first)
      | none => .ok { t with sources := t.sources.insert key here }

def withPattern (e : Encoder) (t : Tracing) (entry : Pattern × Nat) : Result Tracing :=
  entry.1.positions.toList.zipIdx.foldlM
    (fun t (term, position) => t.withPosition e (.slot entry.2 position) term) t

def ofPatterns (e : Encoder) (patterns : List Pattern) : Result Tracing :=
  patterns.zipIdx.foldlM (withPattern e) initial

def withKey (t : Tracing) (key : String) (wire : Wire) : Tracing :=
  match t.sources.get? key with
  | some source => t.withEquality source wire
  | none => { t with sources := t.sources.insert key wire }

/-- The extension that an expression makes, and the wire of its value; none where it reads a key
that is not bound. A path alias reads whichever of its two ends is bound, and binds the other. -/
def extension? (e : Encoder) (t : Tracing) (x : ScopedExtension) :
    Result (Option (Extension × Wire)) :=
  match x.value with
  | .const term => do
    let wire := Wire.const (← e.encode term)
    return some (⟨x.name, .term term⟩, wire)
  | .var key =>
    match t.sources.get? key, x.visible with
    | some source, some visible =>
      .ok (if visible.contains key then some (⟨x.name, .key key⟩, source) else none)
    | none, some _ => .ok none
    | some source, none => .ok (some (⟨x.name, .key key⟩, source))
    | none, none =>
      match t.sources.get? x.name with
      | some source => .ok (some (⟨key, .key x.name⟩, source))
      | none => .error (.unsupported (.openAlias x.name key))
  | other => .error (.unsupported (.extension other.kind))

def withExtension (e : Encoder) (state : Tracing × List Extension) (x : ScopedExtension) :
    Result (Tracing × List Extension) := do
  match ← state.1.extension? e x with
  | some (extension, wire) => return (state.1.withKey extension.name wire, state.2 ++ [extension])
  | none => return state

end Tracing

namespace Branch

def bindingOf (sources : KeyMap Wire) (name : String) : Assertion :=
  .eq (.variable name) ((sources.get? name).getD (.const Field.zero))

def filterOf (e : Encoder) (projected : List String) (sources : KeyMap Wire) (f : ScopedFilter) :
    Compiling NumberedFilter := do
  let surroundings : Surroundings := ⟨e, projected, sources, f.visible⟩
  return ⟨f.number, (← surroundings.condition f.condition).holds⟩

def ofFragment (e : Encoder) (projected : List String) (f : Fragment) : Compiling Branch := do
  let traced ← (Tracing.ofPatterns e f.patterns : Result Tracing)
  let (traced, extensions) ←
    (f.extensions.foldlM (Tracing.withExtension e) (traced, []) :
      Result (Tracing × List Extension))
  let filters ← f.filters.mapM (filterOf e projected traced.sources)
  return {
    patterns := f.patterns
    extensions := extensions
    bindings := projected.map (bindingOf traced.sources)
    equalities := traced.equalities
    filters := filters
    hints := sortedUnique (filters.flatMap fun filter => filter.assertion.hints)
    exclusiveOf := f.exclusiveOf
    bound := KeySet.ofKeys traced.sources.keys }

end Branch

namespace Program

def bodyOf : Algebra → Algebra
  | .project _ inner => inner
  | other => other

def ofNormal (config : Config) (query : NormalQuery) : Result Program := do
  let (fragments, _) ← Fragment.ofAlgebra 0 (bodyOf query.algebra)
  let (branches, hints) ←
    (fragments.mapM (Branch.ofFragment config.encoder query.projected)).run []
  return {
    form := query.form
    branches := branches
    hints := hints
    projected := query.projected
    modifiers := query.modifiers
    hashSuite := config.hashSuite
    skipSigning := config.skipSigning
    fingerprint := config.fingerprint }

def compile (config : Config) (text : String) : Result Program := do
  config.validate
  let query ← Sparql.Query.parse text
  ofNormal config (← NormalQuery.ofQuery config.maxPathHops query)

end Program

end AttestedQuery
