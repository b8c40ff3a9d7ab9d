import AttestedQuery.Algebra.OfQuery
import AttestedQuery.Proofs.Outcome

/-!
# What patterns are made into

The normal form of a pattern as a judgment on patterns and algebras: one rule for each construct
that has a normal form, and none for the others. What holds of every normal form is proved by
induction on its rules. A query has a normal form where its form, its projection and its pattern
have one.
-/

set_option autoImplicit false

namespace AttestedQuery

namespace Normal

open Sparql (GraphPattern)

inductive Forms (supply : Nat → String) (maxHops : Nat) :
    Option PatternTerm → GraphPattern → Names → Algebra → Names → Prop
  | bgp {graph : Option PatternTerm} {triples : List Sparql.Triple} {patterns : List Pattern}
    {names after : Names} (each : triples.mapM (triple graph) names = .ok (patterns, after)) :
    Forms supply maxHops graph (.bgp triples) names (.bgp patterns) after
  | path {graph : Option PatternTerm} {subject object s o : PatternTerm} {path : Sparql.Path}
    {a : Algebra} {names middle before after : Names} (first : node subject names = .ok (s, middle))
    (second : node object middle = .ok (o, before))
    (between : pathBetween supply maxHops graph path s o before = .ok (a, after)) :
    Forms supply maxHops graph (.path subject path object) names a after
  | join {graph : Option PatternTerm} {left right : GraphPattern} {l r : Algebra}
    {names middle after : Names} (first : Forms supply maxHops graph left names l middle)
    (second : Forms supply maxHops graph right middle r after) :
    Forms supply maxHops graph (.join left right) names (l.joined r) after
  | leftJoin {graph : Option PatternTerm} {left right : GraphPattern} {l r : Algebra}
    {names middle after : Names} (first : Forms supply maxHops graph left names l middle)
    (second : Forms supply maxHops graph right middle r after) :
    Forms supply maxHops graph (.leftJoin left right) names (optionalOf l (l.joined r)) after
  | leftJoinIf {graph : Option PatternTerm} {left right : GraphPattern} {l r : Algebra}
    {condition : Sparql.Expression} {c : Expr} {names middle after : Names}
    (first : Forms supply maxHops graph left names l middle)
    (second : Forms supply maxHops graph right middle r after)
    (read : expression condition = .ok c) :
    Forms supply maxHops graph (.leftJoinIf left right condition) names
      (optionalOf l (.filter c (l.joined r))) after
  | filter {graph : Option PatternTerm} {inner : GraphPattern} {a : Algebra}
    {condition : Sparql.Expression} {c : Expr} {names after : Names}
    (read : expression condition = .ok c)
    (inside : Forms supply maxHops graph inner names a after) :
    Forms supply maxHops graph (.filter condition inner) names (.filter c a) after
  | union {graph : Option PatternTerm} {left right : GraphPattern} {l r : Algebra}
    {names middle after : Names} (first : Forms supply maxHops graph left names l middle)
    (second : Forms supply maxHops graph right middle r after) :
    Forms supply maxHops graph (.union left right) names (.united [l, r]) after
  | graph {graph : Option PatternTerm} {name t : PatternTerm} {inner : GraphPattern} {a : Algebra}
    {names middle after : Names} (named : node name names = .ok (t, middle))
    (inside : Forms supply maxHops (some t) inner middle a after) :
    Forms supply maxHops graph (.graph name inner) names a after
  | extend {graph : Option PatternTerm} {inner : GraphPattern} {a : Algebra} {name : String}
    {value : Sparql.Expression} {v : Expr} {names after : Names} (free : checkName name = .ok ())
    (inside : Forms supply maxHops graph inner names a after) (read : expression value = .ok v) :
    Forms supply maxHops graph (.extend inner name value) names (.extend false name v a) after

variable {supply : Nat → String}

theorem forms_of_pattern (maxHops : Nat) : (p : GraphPattern) → {graph : Option PatternTerm} →
    {a : Algebra} → {names after : Names} →
      pattern supply maxHops graph p names = .ok (a, after) →
        Forms supply maxHops graph p names a after
  | .bgp triples, _, _, _, _, made => by
    obtain ⟨patterns, _, each, made⟩ := run_bind_ok_iff.1 made
    obtain ⟨rfl, rfl⟩ := run_pure_ok_iff.1 made
    exact .bgp each
  | .path subject path object, _, _, _, _, made => by
    obtain ⟨s, _, first, made⟩ := run_bind_ok_iff.1 made
    obtain ⟨o, _, second, made⟩ := run_bind_ok_iff.1 made
    exact .path first second made
  | .join left right, _, _, _, _, made => by
    obtain ⟨l, _, first, made⟩ := run_bind_ok_iff.1 made
    obtain ⟨r, _, second, made⟩ := run_bind_ok_iff.1 made
    obtain ⟨rfl, rfl⟩ := run_pure_ok_iff.1 made
    exact .join (forms_of_pattern maxHops left first) (forms_of_pattern maxHops right second)
  | .leftJoin left right, _, _, _, _, made => by
    obtain ⟨l, _, first, made⟩ := run_bind_ok_iff.1 made
    obtain ⟨r, _, second, made⟩ := run_bind_ok_iff.1 made
    obtain ⟨rfl, rfl⟩ := run_pure_ok_iff.1 made
    exact .leftJoin (forms_of_pattern maxHops left first) (forms_of_pattern maxHops right second)
  | .leftJoinIf left right condition, _, _, _, _, made => by
    obtain ⟨l, _, first, made⟩ := run_bind_ok_iff.1 made
    obtain ⟨r, _, second, made⟩ := run_bind_ok_iff.1 made
    obtain ⟨c, _, lifted, made⟩ := run_bind_ok_iff.1 made
    obtain ⟨read, rfl⟩ := run_lift_ok_iff.1 lifted
    obtain ⟨rfl, rfl⟩ := run_pure_ok_iff.1 made
    exact .leftJoinIf (forms_of_pattern maxHops left first) (forms_of_pattern maxHops right second)
      read
  | .filter condition inner, _, _, _, _, made => by
    obtain ⟨c, _, lifted, made⟩ := run_bind_ok_iff.1 made
    obtain ⟨read, rfl⟩ := run_lift_ok_iff.1 lifted
    obtain ⟨a, _, inside, made⟩ := run_bind_ok_iff.1 made
    obtain ⟨rfl, rfl⟩ := run_pure_ok_iff.1 made
    exact .filter read (forms_of_pattern maxHops inner inside)
  | .union left right, _, _, _, _, made => by
    obtain ⟨l, _, first, made⟩ := run_bind_ok_iff.1 made
    obtain ⟨r, _, second, made⟩ := run_bind_ok_iff.1 made
    obtain ⟨rfl, rfl⟩ := run_pure_ok_iff.1 made
    exact .union (forms_of_pattern maxHops left first) (forms_of_pattern maxHops right second)
  | .graph name inner, _, _, _, _, made => by
    obtain ⟨t, _, named, inside⟩ := run_bind_ok_iff.1 made
    exact .graph named (forms_of_pattern maxHops inner inside)
  | .extend inner name value, _, _, _, _, made => by
    obtain ⟨⟨⟩, _, checked, made⟩ := run_bind_ok_iff.1 made
    obtain ⟨free, rfl⟩ := run_lift_ok_iff.1 checked
    obtain ⟨a, _, inside, made⟩ := run_bind_ok_iff.1 made
    obtain ⟨v, _, lifted, made⟩ := run_bind_ok_iff.1 made
    obtain ⟨read, rfl⟩ := run_lift_ok_iff.1 lifted
    obtain ⟨rfl, rfl⟩ := run_pure_ok_iff.1 made
    exact .extend free (forms_of_pattern maxHops inner inside) read
  | .minus .., _, _, _, _, made | .values .., _, _, _, _, made | .group .., _, _, _, _, made
  | .service .., _, _, _, _, made | .project .., _, _, _, _, made | .orderBy .., _, _, _, _, made
  | .distinct _, _, _, _, _, made | .reduced _, _, _, _, _, made | .slice .., _, _, _, _, made => by
    cases made

theorem Forms.pattern_ok {maxHops : Nat} {graph : Option PatternTerm} {p : GraphPattern}
    {a : Algebra} {names after : Names}
    (forms : Forms supply maxHops graph p names a after) :
    pattern supply maxHops graph p names = .ok (a, after) := by
  induction forms with
  | bgp each => exact run_bind_ok_iff.2 ⟨_, _, each, rfl⟩
  | path first second between =>
    exact run_bind_ok_iff.2 ⟨_, _, first, run_bind_ok_iff.2 ⟨_, _, second, between⟩⟩
  | join _ _ first second =>
    exact run_bind_ok_iff.2 ⟨_, _, first, run_bind_ok_iff.2 ⟨_, _, second, rfl⟩⟩
  | leftJoin _ _ first second =>
    exact run_bind_ok_iff.2 ⟨_, _, first, run_bind_ok_iff.2 ⟨_, _, second, rfl⟩⟩
  | union _ _ first second =>
    exact run_bind_ok_iff.2 ⟨_, _, first, run_bind_ok_iff.2 ⟨_, _, second, rfl⟩⟩
  | leftJoinIf _ _ read first second =>
    exact run_bind_ok_iff.2 ⟨_, _, first, run_bind_ok_iff.2 ⟨_, _, second,
      run_bind_ok_iff.2 ⟨_, _, run_lift_ok_iff.2 ⟨read, rfl⟩, rfl⟩⟩⟩
  | filter read _ inside =>
    exact run_bind_ok_iff.2 ⟨_, _, run_lift_ok_iff.2 ⟨read, rfl⟩,
      run_bind_ok_iff.2 ⟨_, _, inside, rfl⟩⟩
  | graph named _ inside => exact run_bind_ok_iff.2 ⟨_, _, named, inside⟩
  | extend free _ read inside =>
    exact run_bind_ok_iff.2 ⟨_, _, run_lift_ok_iff.2 ⟨free, rfl⟩, run_bind_ok_iff.2 ⟨_, _, inside,
      run_bind_ok_iff.2 ⟨_, _, run_lift_ok_iff.2 ⟨read, rfl⟩, rfl⟩⟩⟩

/-- The rules give what the normal form makes of a pattern, and nothing else. -/
theorem pattern_ok_iff {maxHops : Nat} {graph : Option PatternTerm} {p : GraphPattern}
    {a : Algebra} {names after : Names} :
    pattern supply maxHops graph p names = .ok (a, after) ↔
      Forms supply maxHops graph p names a after :=
  ⟨forms_of_pattern maxHops p, Forms.pattern_ok⟩

end Normal

namespace NormalQuery

open AttestedQuery.Normal

variable {supply : Nat → String} {maxHops : Nat} {query : Sparql.Query} {normal : NormalQuery}

theorem drawn_ok_iff {count : Nat} : drawn supply maxHops query = .ok (normal, count) ↔
    ∃ form projected rest body names, formOf query.form = .ok form ∧
      projection form (outerModifiers .none query.pattern).2 = .ok (projected, rest) ∧
      projected.forM checkName = .ok () ∧
      pattern supply maxHops none (ordering rest).2 ⟨0, []⟩ = .ok (body, names) ∧
      normal = ⟨form, .project projected body, projected,
        { (outerModifiers .none query.pattern).1 with orderBy := (ordering rest).1 }⟩ ∧
      count = names.paths := by
  constructor
  · intro reduced
    obtain ⟨form, formed, reduced⟩ := bind_ok_iff.1 reduced
    obtain ⟨⟨projected, rest⟩, selected, reduced⟩ := bind_ok_iff.1 reduced
    obtain ⟨⟨⟩, checked, reduced⟩ := bind_ok_iff.1 reduced
    obtain ⟨⟨body, names⟩, made, reduced⟩ := bind_ok_iff.1 reduced
    obtain ⟨rfl, rfl⟩ := Prod.mk.inj (pure_ok_iff.1 reduced)
    exact ⟨form, projected, rest, body, names, formed, selected, checked, made, rfl, rfl⟩
  · rintro ⟨form, projected, rest, body, names, formed, selected, checked, made, rfl, rfl⟩
    exact bind_ok_iff.2 ⟨form, formed, bind_ok_iff.2 ⟨_, selected, bind_ok_iff.2 ⟨_, checked,
      bind_ok_iff.2 ⟨_, made, rfl⟩⟩⟩⟩

theorem ofQuery_ok_iff : ofQuery maxHops query = .ok normal ↔
    ∃ count, drawn pathKey maxHops query = .ok (normal, count) := by
  constructor
  · intro reduced
    obtain ⟨⟨_, count⟩, drawn, kept⟩ := bind_ok_iff.1 reduced
    obtain rfl := pure_ok_iff.1 kept
    exact ⟨count, drawn⟩
  · rintro ⟨count, drawn⟩
    exact bind_ok_iff.2 ⟨_, drawn, rfl⟩

end NormalQuery

end AttestedQuery
