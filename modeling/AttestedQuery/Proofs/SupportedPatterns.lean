import AttestedQuery.Proofs.PathNames

/-!
# The patterns that have a normal form

A pattern has a normal form exactly where it is made of supported constructs at every depth: of its
groups, of its paths and of its expressions. One rule for each way of making computations says what
a computation asks for in order to succeed; what each function of the normal form asks for is then
read off its own recursion.
-/

set_option autoImplicit false

namespace AttestedQuery

/-! ## Supported constructs -/

namespace Sparql

open AttestedQuery.Normal (Reserved)

/-- No name has the leading part of path variables. -/
def Unreserved (names : List String) : Prop := ∀ name ∈ names, ¬Reserved name

def supportedFunctions : List String :=
  ["isIRI", "isBLANK", "isLITERAL", "isNUMERIC", "STR", "LANG", "DATATYPE", "STRLEN"]

def BinaryOp.IsArithmetic : BinaryOp → Prop
  | .add | .subtract | .multiply | .divide => True
  | .or | .and | .equal | .sameTerm | .greater | .greaterOrEqual | .less | .lessOrEqual => False

namespace Expression

def IsNumeral : Expression → Prop
  | .const (.literal _ _ datatype) =>
    ∃ name, xsdLocalName? datatype = some name ∧ name ∈ numericTypes
  | _ => False

mutual

/-- No arithmetic but a sign before a numeral, no function but the supported ones on one argument,
no COALESCE and no EXISTS at any depth. -/
def Supported : Expression → Prop
  | .const _ | .var _ | .bound _ => True
  | .unary .not a => a.Supported
  | .unary .plus a | .unary .minus a => a.IsNumeral
  | .binary op a b => ¬op.IsArithmetic ∧ a.Supported ∧ b.Supported
  | .isIn needle items => needle.Supported ∧ SupportedAll items
  | .ite condition a b => condition.Supported ∧ a.Supported ∧ b.Supported
  | .call (.named name) [argument] => name ∈ supportedFunctions ∧ argument.Supported
  | .call _ _ | .coalesce _ | .exists _ => False

def SupportedAll : List Expression → Prop
  | [] => True
  | first :: rest => first.Supported ∧ SupportedAll rest

end

end Expression

namespace Path

/-- No negated property set at any depth. -/
def Affirmative : Path → Prop
  | .iri _ => True
  | .reverse inner | .zeroOrMore inner | .oneOrMore inner | .zeroOrOne inner => inner.Affirmative
  | .sequence first second | .alternative first second => first.Affirmative ∧ second.Affirmative
  | .outside _ => False

/-- No negated property set where unrolling comes by: with no step allowed, what is repeated is
never read. -/
def Unrolls (maxHops : Nat) : Path → Prop
  | .iri _ => True
  | .reverse inner | .zeroOrOne inner => inner.Unrolls maxHops
  | .zeroOrMore inner | .oneOrMore inner => maxHops = 0 ∨ inner.Unrolls maxHops
  | .sequence first second | .alternative first second =>
    first.Unrolls maxHops ∧ second.Unrolls maxHops
  | .outside _ => False

theorem unrolls_iff_affirmative {maxHops : Nat} (some : 0 < maxHops) : (path : Path) →
    (path.Unrolls maxHops ↔ path.Affirmative)
  | .iri _ | .outside _ => Iff.rfl
  | .reverse inner | .zeroOrOne inner => unrolls_iff_affirmative some inner
  | .zeroOrMore inner | .oneOrMore inner =>
    (or_iff_right some.ne').trans (unrolls_iff_affirmative some inner)
  | .sequence first second | .alternative first second =>
    and_congr (unrolls_iff_affirmative some first) (unrolls_iff_affirmative some second)

end Path

namespace GraphPattern

/-- Triples, paths of some kind, joins, OPTIONAL, FILTER, UNION, GRAPH and BIND at every depth: no
MINUS, VALUES, SERVICE, grouping, nested query or nested modifier. -/
def Supported (paths : Path → Prop) : GraphPattern → Prop
  | .bgp triples =>
    ∀ t ∈ triples, Unreserved (namesOf t.subject ++ namesOf t.predicate ++ namesOf t.object)
  | .path subject route object => Unreserved (namesOf subject ++ namesOf object) ∧ paths route
  | .join left right | .leftJoin left right | .union left right =>
    left.Supported paths ∧ right.Supported paths
  | .leftJoinIf left right condition =>
    left.Supported paths ∧ right.Supported paths ∧ condition.Supported
  | .filter condition inner => condition.Supported ∧ inner.Supported paths
  | .graph name inner => Unreserved (namesOf name) ∧ inner.Supported paths
  | .extend inner name value => ¬Reserved name ∧ inner.Supported paths ∧ value.Supported
  | .minus .. | .values .. | .service .. | .group .. | .project .. | .orderBy .. | .distinct _
  | .reduced _ | .slice .. => False

end GraphPattern

end Sparql

/-! ## What computations ask for -/

namespace Normal

/-- A computation succeeds exactly where a condition is met. -/
def Accepts {α : Type} (x : Except Error α) (condition : Prop) : Prop :=
  (∃ a, x = .ok a) ↔ condition

/-- A computation with names succeeds, whatever the names are, exactly where a condition is met. -/
def Asks {α : Type} (x : Naming α) (condition : Prop) : Prop :=
  ∀ names, Accepts (x names) condition

section Asks

variable {α β γ : Type} {P Q : Prop}

theorem accepts_pure (a : α) : Accepts (pure a : Except Error α) True :=
  iff_true_intro ⟨a, rfl⟩

theorem accepts_error (e : Error) : Accepts (.error e : Except Error α) False := by
  simp [Accepts]

theorem accepts_bind {x : Except Error β} {f : β → Except Error α} (first : Accepts x P)
    (later : ∀ b, Accepts (f b) Q) : Accepts (x >>= f) (P ∧ Q) := by
  constructor
  · intro found
    obtain ⟨a, made⟩ := found
    obtain ⟨b, before, rest⟩ := bind_ok_iff.1 made
    exact ⟨first.1 ⟨b, before⟩, (later b).1 ⟨a, rest⟩⟩
  · intro met
    obtain ⟨b, before⟩ := first.2 met.1
    obtain ⟨a, rest⟩ := (later b).2 met.2
    exact ⟨a, bind_ok_iff.2 ⟨b, before, rest⟩⟩

/-- What is made of a value asks for nothing more. -/
theorem accepts_map {x : Except Error β} (first : Accepts x P) (f : β → α) :
    Accepts (x >>= fun b => pure (f b)) P :=
  (accepts_bind first fun b => accepts_pure (f b)).trans (and_iff_left trivial)

theorem accepts_both {x : Except Error β} {y : Except Error γ} (first : Accepts x P)
    (second : Accepts y Q) (f : β → γ → α) :
    Accepts (x >>= fun b => y >>= fun c => pure (f b c)) (P ∧ Q) :=
  accepts_bind first fun b => accepts_map second (f b)

theorem Asks.congr {x : Naming α} (asks : Asks x P) (same : P ↔ Q) : Asks x Q :=
  fun names => (asks names).trans same

theorem asks_pure (a : α) : Asks (pure a) True :=
  fun names => accepts_pure (a, names)

theorem asks_lift {x : Except Error α} (accepts : Accepts x P) : Asks (liftM x) P :=
  fun names => accepts_map accepts fun a => (a, names)

theorem asks_refuse (construct : Construct) :
    Asks (liftM (refuse construct : Except Error α)) False :=
  asks_lift (accepts_error _)

theorem asks_bind {x : Naming β} {f : β → Naming α} (first : Asks x P)
    (later : ∀ b, Asks (f b) Q) : Asks (x >>= f) (P ∧ Q) :=
  fun names => accepts_bind (first names) fun made => later made.1 made.2

theorem asks_map {x : Naming β} (first : Asks x P) (f : β → α) :
    Asks (x >>= fun b => pure (f b)) P :=
  (asks_bind first fun b => asks_pure (f b)).congr (and_iff_left trivial)

theorem asks_both {x : Naming β} {y : Naming γ} (first : Asks x P) (second : Asks y Q)
    (f : β → γ → α) : Asks (x >>= fun b => y >>= fun c => pure (f b c)) (P ∧ Q) :=
  asks_bind first fun b => asks_map second (f b)

theorem asks_mapM {f : β → Naming α} {condition : β → Prop} (each : ∀ b, Asks (f b) (condition b))
    (xs : List β) : Asks (xs.mapM f) (∀ b ∈ xs, condition b) := by
  induction xs with
  | nil => exact (asks_pure []).congr (by simp)
  | cons first rest induction =>
    rw [List.mapM_cons, List.forall_mem_cons]
    exact asks_both (each first) induction _

end Asks

/-! ### Terms -/

open Sparql (Unreserved)
open Sparql.GraphPattern (namesOf)

theorem unreserved_append {a b : List String} :
    Unreserved (a ++ b) ↔ Unreserved a ∧ Unreserved b :=
  List.forall_mem_append

theorem accepts_checkName (name : String) : Accepts (checkName name) (¬Reserved name) := by
  rw [← checkName_ok_iff]
  constructor
  · intro found
    obtain ⟨⟨⟩, free⟩ := found
    exact free
  · intro free
    exact ⟨(), free⟩

theorem asks_blank (label : String) : Asks (blank label) True := by
  intro names
  apply iff_true_intro
  by_cases known : names.blanks.contains label
  · refine ⟨⟨.blank ("b" ++ Decimal.textOfInt (names.blanks.idxOf label)), names⟩, ?_⟩
    exact run_bind_ok_iff.2 ⟨names, names, rfl, by rw [if_pos known]; rfl⟩
  · refine ⟨⟨.blank ("b" ++ Decimal.textOfInt names.blanks.length),
      { names with blanks := names.blanks ++ [label] }⟩, ?_⟩
    exact run_bind_ok_iff.2 ⟨names, names, rfl, by rw [if_neg known]; rfl⟩

theorem asks_node (t : PatternTerm) : Asks (node t) (Unreserved (namesOf t)) := by
  cases t with
  | const term => exact (asks_pure _).congr (by simp [Unreserved, namesOf])
  | blank label => exact (asks_blank label).congr (by simp [Unreserved, namesOf])
  | var name =>
    rw [Unreserved, namesOf, List.forall_mem_singleton]
    exact asks_lift (accepts_map (accepts_checkName name) fun _ => PatternTerm.var name)

theorem asks_triple (graph : Option PatternTerm) (t : Sparql.Triple) : Asks (triple graph t)
    (Unreserved (namesOf t.subject ++ namesOf t.predicate ++ namesOf t.object)) := by
  have each := asks_bind (asks_node t.subject) fun subject => asks_both (asks_node t.predicate)
    (asks_node t.object) fun predicate object => (⟨subject, predicate, object, graph⟩ : Pattern)
  apply each.congr
  rw [unreserved_append, unreserved_append, and_assoc]

/-! ### Paths -/

variable (supply : Nat → String)

theorem asks_pathVariable : Asks (pathVariable supply) True := by
  intro names
  exact iff_true_intro ⟨_, rfl⟩

section Chains

variable {link : PatternTerm → PatternTerm → Naming Algebra} {P : Prop}
  (each : ∀ source target, Asks (link source target) P)
include each

theorem asks_chain (target : PatternTerm) : (steps : Nat) → (source : PatternTerm) →
    (done : Option Algebra) → Asks (chain supply link target (steps + 1) source done) P
  | 0, source, done => asks_map (each source target) _
  | steps + 1, source, done => by
    have longer : Asks (chain supply link target (steps + 2) source done) (True ∧ P ∧ P) :=
      asks_bind (asks_pathVariable supply) fun middle => asks_bind (each source middle) fun _ =>
        asks_chain target steps middle _
    exact longer.congr (by simp)

theorem asks_chains (maxHops : Nat) (source target : PatternTerm) :
    Asks (chains supply link maxHops source target) (maxHops = 0 ∨ P) := by
  have lengths := asks_mapM (fun hops => asks_chain supply each target hops source none)
    (List.range maxHops)
  apply lengths.congr
  cases maxHops with
  | zero => simp
  | succ hops =>
    constructor
    · intro all
      exact Or.inr (all 0 (by simp))
    · intro some
      exact fun _ _ => some.resolve_left hops.succ_ne_zero

end Chains

theorem asks_pathBetween (maxHops : Nat) (graph : Option PatternTerm) : (path : Sparql.Path) →
    (subject object : PatternTerm) →
      Asks (pathBetween supply maxHops graph path subject object) (path.Unrolls maxHops)
  | .iri _, _, _ => asks_pure _
  | .reverse inner, subject, object => asks_pathBetween maxHops graph inner object subject
  | .sequence first second, subject, object => by
    have steps := asks_bind (asks_pathVariable supply) fun middle =>
      asks_both (asks_pathBetween maxHops graph first subject middle)
        (asks_pathBetween maxHops graph second middle object) Algebra.joined
    exact steps.congr (and_iff_right trivial)
  | .alternative first second, subject, object =>
    asks_both (asks_pathBetween maxHops graph first subject object)
      (asks_pathBetween maxHops graph second subject object) _
  | .zeroOrOne inner, subject, object =>
    asks_map (asks_pathBetween maxHops graph inner subject object) _
  | .oneOrMore inner, subject, object =>
    asks_map (asks_chains supply (asks_pathBetween maxHops graph inner) maxHops subject object) _
  | .zeroOrMore inner, subject, object =>
    asks_map (asks_chains supply (asks_pathBetween maxHops graph inner) maxHops subject object) _
  | .outside _, _, _ => asks_refuse _

/-! ### Expressions -/

theorem builtin_isSome_iff (name : String) :
    (builtin? name).isSome = true ↔ name ∈ Sparql.supportedFunctions := by
  unfold builtin? Sparql.supportedFunctions
  split <;> simp_all

theorem accepts_signedLiteral (negate : Bool) (a : Sparql.Expression) :
    Accepts (signedLiteral negate a) a.IsNumeral := by
  unfold signedLiteral
  split
  next value lang datatype =>
    have numeric : ((xsdLocalName? datatype).filter numericTypes.contains).isSome = true ↔
        (Sparql.Expression.const (.literal value lang datatype)).IsNumeral := by
      rw [Sparql.Expression.IsNumeral, Option.isSome_iff_exists]
      simp [Option.filter_eq_some_iff]
    rw [← numeric]
    split
    next none =>
      rw [none]
      exact (accepts_error _).trans (by simp)
    next name some =>
      rw [some]
      exact iff_of_true ⟨_, rfl⟩ rfl
  next other notLiteral =>
    apply (accepts_error _).trans
    rw [false_iff]
    intro numeral
    unfold Sparql.Expression.IsNumeral at numeral
    split at numeral
    next value lang datatype => exact notLiteral value lang datatype rfl
    next => exact numeral

mutual

theorem accepts_expression : (a : Sparql.Expression) → Accepts (expression a) a.Supported
  | .const _ | .var _ | .bound _ => accepts_pure _
  | .unary .not a => accepts_map (accepts_expression a) _
  | .unary .plus a => accepts_signedLiteral false a
  | .unary .minus a => accepts_signedLiteral true a
  | .binary op a b => by
    have both (f : Expr → Expr → Expr) :=
      accepts_both (accepts_expression a) (accepts_expression b) f
    cases op with
    | or | and | equal | sameTerm | greater | greaterOrEqual | less | lessOrEqual =>
      exact (both _).trans (and_iff_right id).symm
    | add | subtract | multiply | divide =>
      apply (accepts_error _).trans
      simp [Sparql.Expression.Supported, Sparql.BinaryOp.IsArithmetic]
  | .isIn needle items => accepts_both (accepts_expression needle) (accepts_expressions items) _
  | .ite condition a b => accepts_bind (accepts_expression condition) fun _ =>
    accepts_both (accepts_expression a) (accepts_expression b) _
  | .coalesce _ | .exists _ => accepts_error _
  | .call (.named name) [argument] => by
    have inner := accepts_expression argument
    rw [expression, builtinOf?, Sparql.Expression.Supported, ← builtin_isSome_iff]
    cases builtin? name with
    | some builtin => exact (accepts_map inner _).trans (and_iff_right rfl).symm
    | none => exact (accepts_error _).trans (by simp)
  | .call (.custom _) [_] => accepts_error _
  | .call (.named name) [] | .call (.named name) (_ :: _ :: _) => by
    rw [expression]
    · cases builtinOf? (.named name) <;> exact accepts_error _
    · simp
  | .call (.custom _) [] | .call (.custom _) (_ :: _ :: _) => accepts_error _

theorem accepts_expressions : (items : List Sparql.Expression) →
    Accepts (expressions items) (Sparql.Expression.SupportedAll items)
  | [] => accepts_pure _
  | first :: rest => accepts_both (accepts_expression first) (accepts_expressions rest) _

end

/-! ### Patterns -/

theorem asks_pattern (maxHops : Nat) : (p : Sparql.GraphPattern) → (graph : Option PatternTerm) →
    Asks (pattern supply maxHops graph p) (p.Supported (Sparql.Path.Unrolls maxHops))
  | .bgp triples, graph => asks_map (asks_mapM (asks_triple graph) triples) _
  | .path subject route object, graph => by
    have ends := asks_bind (asks_node subject) fun s => asks_bind (asks_node object) fun o =>
      asks_pathBetween supply maxHops graph route s o
    apply ends.congr
    rw [Sparql.GraphPattern.Supported, unreserved_append, and_assoc]
  | .join left right, graph | .leftJoin left right, graph | .union left right, graph =>
    asks_both (asks_pattern maxHops left graph) (asks_pattern maxHops right graph) _
  | .leftJoinIf left right condition, graph =>
    asks_bind (asks_pattern maxHops left graph) fun _ =>
      asks_both (asks_pattern maxHops right graph) (asks_lift (accepts_expression condition)) _
  | .filter condition inner, graph =>
    asks_both (asks_lift (accepts_expression condition)) (asks_pattern maxHops inner graph) _
  | .graph name inner, graph =>
    asks_bind (asks_node name) fun t => asks_pattern maxHops inner (some t)
  | .extend inner name value, graph =>
    asks_bind (asks_lift (accepts_checkName name)) fun _ =>
      asks_both (asks_pattern maxHops inner graph) (asks_lift (accepts_expression value)) _
  | .minus .., _ | .values .., _ | .group .., _ | .service .., _ | .project .., _
  | .orderBy .., _ | .distinct _, _ | .reduced _, _ | .slice .., _ => asks_refuse _

end Normal

end AttestedQuery
