import AttestedQuery.Proofs.Links
import AttestedQuery.Proofs.NormalForms

/-!
# Property paths

A path denotes a relation between terms: the quads with a predicate, converses, compositions,
unions, equality, and repeated composition up to a bound. A query for the two ends of a path
returns the pairs of this relation that its ends allow.
-/

set_option autoImplicit false

namespace AttestedQuery

open AttestedQuery.Normal (chain chains pathBetween zeroSteps Naming Names)

/-! ## The relation of a path -/

namespace Sparql.Path

/-- A relation composed with itself some number of times; no times is equality. -/
def power (r : Term → Term → Prop) : Nat → Term → Term → Prop
  | 0 => Eq
  | n + 1 => Relation.Comp r (power r n)

/-- The terms that a path leads from and to, where a repeated path takes at most `maxHops` steps. -/
def relation (quads : List Quad) (maxHops : Nat) : Path → Term → Term → Prop
  | .iri text => fun x y =>
    ∃ quad ∈ quads, quad.subject = x ∧ quad.predicate = .iri text ∧ quad.object = y
  | .reverse inner => fun x y => inner.relation quads maxHops y x
  | .sequence first second =>
    Relation.Comp (first.relation quads maxHops) (second.relation quads maxHops)
  | .alternative first second => fun x y =>
    first.relation quads maxHops x y ∨ second.relation quads maxHops x y
  | .zeroOrOne inner => fun x y => inner.relation quads maxHops x y ∨ x = y
  | .oneOrMore inner => fun x y =>
    ∃ i, 1 ≤ i ∧ i ≤ maxHops ∧ power (inner.relation quads maxHops) i x y
  | .zeroOrMore inner => fun x y =>
    x = y ∨ ∃ i, 1 ≤ i ∧ i ≤ maxHops ∧ power (inner.relation quads maxHops) i x y
  | .outside _ => fun _ _ => False

theorem power_one (r : Term → Term → Prop) : power r 1 = r := Relation.comp_eq

end Sparql.Path

open Sparql (Path)

namespace Algebra.Links

variable {quads : List Quad} {s o : PatternTerm} {r : Term → Term → Prop} {a : Algebra}

def Makes (quads : List Quad) (r : Term → Term → Prop)
    (link : PatternTerm → PatternTerm → Naming Algebra) : Prop :=
  ∀ {s o : PatternTerm} {names after : Names} {a : Algebra}, link s o names = .ok (a, after) →
    s.Apart o → s.Before names.paths → o.Before names.paths →
      names.paths ≤ after.paths ∧ Links quads names.paths after.paths s o r a

section Chains

variable {link : PatternTerm → PatternTerm → Naming Algebra}

theorem chain_continues (makes : Makes quads r link) {steps : Nat} {q : Term → Term → Prop}
    {low j : Nat} {names after : Names} {before : Algebra}
    (made : chain pathKey link o (steps + 1) (.middle j) (some before) names = .ok (a, after))
    (leads : Links quads low names.paths s (.middle j) q before) (lower : low ≤ j)
    (upper : j < names.paths) (apart : s.Apart o) (sBefore : s.Before low)
    (oBefore : o.Before low) : names.paths ≤ after.paths ∧
      Links quads low after.paths s o (Relation.Comp q (Path.power r (steps + 1))) a := by
  induction steps generalizing q j names before with
  | zero =>
    obtain ⟨last, _, linked, made⟩ := run_bind_ok_iff.1 made
    obtain ⟨rfl, rfl⟩ := run_pure_ok_iff.1 made
    obtain ⟨grows, links⟩ := makes linked (oBefore.apart lower).symm
      (PatternTerm.middle_before upper) (oBefore.mono (lower.trans upper.le))
    rw [Path.power_one]
    exact ⟨grows, leads.joined links lower upper grows apart
      (fun i from_ _ => sBefore i ((lower.trans upper.le).trans from_))
      fun i from_ _ => oBefore i from_⟩
  | succ steps induction =>
    obtain ⟨middle, named, new, made⟩ := run_bind_ok_iff.1 made
    obtain ⟨rfl, rfl⟩ := pathVariable_ok new
    obtain ⟨next, later, linked, made⟩ := run_bind_ok_iff.1 made
    have apartNext := (PatternTerm.middle_before upper).apart le_rfl
    obtain ⟨grows, links⟩ := makes linked apartNext
      (PatternTerm.middle_before (upper.trans (Nat.lt_succ_self _)))
      (PatternTerm.middle_before (Nat.lt_succ_self _))
    have fresh : low ≤ names.paths := lower.trans upper.le
    have joined := leads.joined (links.mono (Nat.le_succ _) le_rfl) lower upper
      ((Nat.le_succ _).trans grows) (sBefore.apart fresh) (fun i from_ _ => sBefore i (fresh.trans from_))
      fun i _ below same => by
        have := pathKey_inj (Option.some.inj same)
        omega
    obtain ⟨whole, links⟩ := induction made joined fresh grows
    rw [Relation.comp_assoc] at links
    exact ⟨((Nat.le_succ _).trans grows).trans whole, links⟩

theorem makes_chain (makes : Makes quads r link) (steps : Nat) :
    Makes quads (Path.power r (steps + 1)) fun s o => chain pathKey link o (steps + 1) s none := by
  intro s o names after a made apart sBefore oBefore
  cases steps with
  | zero =>
    obtain ⟨last, _, linked, made⟩ := run_bind_ok_iff.1 made
    obtain ⟨rfl, rfl⟩ := run_pure_ok_iff.1 made
    rw [Path.power_one]
    exact makes linked apart sBefore oBefore
  | succ steps =>
    obtain ⟨middle, named, new, made⟩ := run_bind_ok_iff.1 made
    obtain ⟨rfl, rfl⟩ := pathVariable_ok new
    obtain ⟨next, later, linked, made⟩ := run_bind_ok_iff.1 made
    obtain ⟨grows, links⟩ := makes linked (sBefore.apart le_rfl) (sBefore.mono (Nat.le_succ _))
      (PatternTerm.middle_before (Nat.lt_succ_self _))
    obtain ⟨whole, links⟩ := chain_continues makes made (links.mono (Nat.le_succ _) le_rfl) le_rfl
      grows apart sBefore oBefore
    exact ⟨((Nat.le_succ _).trans grows).trans whole, links⟩

theorem links_lengths (makes : Makes quads r link) {lengths : List Nat} {names after : Names}
    {parts : List Algebra}
    (made : lengths.mapM (fun hops => chain pathKey link o (hops + 1) s none) names =
      .ok (parts, after))
    (apart : s.Apart o) (sBefore : s.Before names.paths) (oBefore : o.Before names.paths) :
    names.paths ≤ after.paths ∧ List.Forall₂ (fun hops a =>
      Links quads names.paths after.paths s o (Path.power r (hops + 1)) a) lengths parts := by
  induction lengths generalizing names parts with
  | nil =>
    obtain ⟨rfl, rfl⟩ := run_pure_ok_iff.1 made
    exact ⟨le_rfl, .nil⟩
  | cons hops rest induction =>
    rw [List.mapM_cons] at made
    obtain ⟨first, middle, here, made⟩ := run_bind_ok_iff.1 made
    obtain ⟨others, last, later, made⟩ := run_bind_ok_iff.1 made
    obtain ⟨rfl, rfl⟩ := run_pure_ok_iff.1 made
    obtain ⟨grows, links⟩ := makes_chain makes hops here apart sBefore oBefore
    obtain ⟨whole, each⟩ := induction later (sBefore.mono grows) (oBefore.mono grows)
    refine ⟨grows.trans whole, .cons (links.mono le_rfl whole) (each.imp ?_)⟩
    exact fun _ _ links => links.mono grows le_rfl

/-- There is a chain of every length up to the bound, and it links by the power of its length. -/
theorem jointly_chains (makes : Makes quads r link) {maxHops : Nat} {names after : Names}
    {parts : List Algebra} (made : chains pathKey link maxHops s o names = .ok (parts, after))
    (apart : s.Apart o) (sBefore : s.Before names.paths) (oBefore : o.Before names.paths) :
    names.paths ≤ after.paths ∧ Jointly quads names.paths after.paths s o
      (fun x y => ∃ i, 1 ≤ i ∧ i ≤ maxHops ∧ Path.power r i x y) parts := by
  obtain ⟨grows, each⟩ := links_lengths makes made apart sBefore oBefore
  have count : parts.length = maxHops := by rw [← each.length_eq, List.length_range]
  have links (hops : Nat) (short : hops < parts.length) :
      Links quads names.paths after.paths s o (Path.power r (hops + 1)) parts[hops] := by
    have here := each.get (i := hops) (by simpa [← count] using short) short
    simpa using here
  refine ⟨grows, fun part member => ?_, ?_⟩
  · obtain ⟨hops, short, rfl⟩ := List.getElem_of_mem member
    exact ⟨_, links hops short, fun x y related => ⟨hops + 1, by omega, by omega, related⟩⟩
  · rintro x y ⟨i, one, bound, related⟩ _ _
    obtain ⟨hops, rfl⟩ : ∃ hops, i = hops + 1 := ⟨i - 1, by omega⟩
    have short : hops < parts.length := by omega
    exact ⟨_, List.getElem_mem short, _, links hops short, related⟩

end Chains

theorem makes_pathBetween (quads : List Quad) (maxHops : Nat) (path : Path) :
    Makes quads (path.relation quads maxHops) (pathBetween pathKey maxHops none path) := by
  induction path with
  | iri text =>
    intro s o names after a made apart _ _
    obtain ⟨rfl, rfl⟩ := run_pure_ok_iff.1 made
    exact ⟨le_rfl, predicate text _ apart⟩
  | reverse inner induction =>
    intro s o names after a made apart sBefore oBefore
    obtain ⟨grows, links⟩ := induction made apart.symm oBefore sBefore
    exact ⟨grows, links.swap⟩
  | sequence first second left right =>
    intro s o names after a made apart sBefore oBefore
    obtain ⟨middle, named, new, made⟩ := run_bind_ok_iff.1 made
    obtain ⟨rfl, rfl⟩ := pathVariable_ok new
    obtain ⟨a, between, here, made⟩ := run_bind_ok_iff.1 made
    obtain ⟨b, last, there, made⟩ := run_bind_ok_iff.1 made
    obtain ⟨rfl, rfl⟩ := run_pure_ok_iff.1 made
    obtain ⟨grows, linksA⟩ := left here (sBefore.apart le_rfl) (sBefore.mono (Nat.le_succ _))
      (PatternTerm.middle_before (Nat.lt_succ_self _))
    -- The first part takes its names before the second one does, so the two share only the middle.
    have fresh : names.paths ≤ between.paths := (Nat.le_succ _).trans grows
    obtain ⟨grows', linksB⟩ := right there (oBefore.apart le_rfl).symm
      (PatternTerm.middle_before grows) (oBefore.mono fresh)
    exact ⟨fresh.trans grows',
      (linksA.mono (Nat.le_succ _) le_rfl).joined linksB le_rfl grows grows' apart
        (fun i from_ _ => sBefore i (fresh.trans from_)) fun i from_ _ => oBefore i from_⟩
  | alternative first second left right =>
    intro s o names after a made apart sBefore oBefore
    obtain ⟨a, between, here, made⟩ := run_bind_ok_iff.1 made
    obtain ⟨b, last, there, made⟩ := run_bind_ok_iff.1 made
    obtain ⟨rfl, rfl⟩ := run_pure_ok_iff.1 made
    obtain ⟨grows, linksA⟩ := left here apart sBefore oBefore
    obtain ⟨grows', linksB⟩ := right there apart (sBefore.mono grows) (oBefore.mono grows)
    exact ⟨grows.trans grows',
      ((linksA.mono le_rfl grows').alone.append (linksB.mono grows le_rfl).alone).united⟩
  | zeroOrOne inner induction =>
    intro s o names after a made apart sBefore oBefore
    obtain ⟨one, last, here, made⟩ := run_bind_ok_iff.1 made
    obtain ⟨rfl, rfl⟩ := run_pure_ok_iff.1 made
    obtain ⟨grows, links⟩ := induction here apart sBefore oBefore
    exact ⟨grows, (links.alone.append ((jointly_zero apart _).mono le_rfl grows)).united⟩
  | oneOrMore inner induction =>
    intro s o names after a made apart sBefore oBefore
    obtain ⟨parts, last, here, made⟩ := run_bind_ok_iff.1 made
    obtain ⟨rfl, rfl⟩ := run_pure_ok_iff.1 made
    obtain ⟨grows, jointly⟩ := jointly_chains induction here apart sBefore oBefore
    exact ⟨grows, jointly.united⟩
  | zeroOrMore inner induction =>
    intro s o names after a made apart sBefore oBefore
    obtain ⟨parts, last, here, made⟩ := run_bind_ok_iff.1 made
    obtain ⟨rfl, rfl⟩ := run_pure_ok_iff.1 made
    obtain ⟨grows, jointly⟩ := jointly_chains induction here apart sBefore oBefore
    exact ⟨grows, (((jointly_zero apart _).mono le_rfl grows).append jointly).united⟩
  | outside iris =>
    intro s o names after a made
    cases made

end Algebra.Links

/-! ## Queries for the ends of a path -/

/-- An end of a path in a query: a constant or a variable. -/
def PatternTerm.IsEnd (t : PatternTerm) : Prop := ∀ key, t.key? = some key → isUserKey key = true

/-- The query for the variables at the ends of a path. -/
def Sparql.Path.query (s : PatternTerm) (path : Path) (o : PatternTerm) : Sparql.Query :=
  ⟨.select, .project (.path s path o) (Sparql.GraphPattern.inScope (.path s path o)), []⟩

section Query

variable {s o : PatternTerm} {path : Path} {maxHops : Nat} {query : NormalQuery}

theorem PatternTerm.IsEnd.node {t other : PatternTerm} (isEnd : t.IsEnd) {names after : Names}
    (made : Normal.node t names = .ok (other, after)) : other = t ∧ after = names := by
  cases t with
  | const term =>
    obtain ⟨rfl, rfl⟩ := run_pure_ok_iff.1 made
    exact ⟨rfl, rfl⟩
  | var name =>
    obtain ⟨checked, rfl⟩ := run_lift_ok_iff.1 made
    obtain ⟨_, _, checked⟩ := bind_ok_iff.1 checked
    exact ⟨(pure_ok_iff.1 checked).symm, rfl⟩
  | blank label =>
    have impossible := isEnd _ rfl
    simp [isUserKey, Text.afterPart] at impossible

theorem mem_inScope_path_iff (isEndS : s.IsEnd) (isEndO : o.IsEnd) (key : String) :
    key ∈ Sparql.GraphPattern.inScope (.path s path o) ↔
      s.key? = some key ∨ o.key? = some key := by
  have names (t : PatternTerm) (isEnd : t.IsEnd) :
      key ∈ Sparql.GraphPattern.namesOf t ↔ t.key? = some key := by
    cases t with
    | const term => simp [Sparql.GraphPattern.namesOf, PatternTerm.key?]
    | var name => simp [Sparql.GraphPattern.namesOf, PatternTerm.key?, eq_comm]
    | blank label =>
      have impossible := isEnd _ rfl
      simp [isUserKey, Text.afterPart] at impossible
  rw [Sparql.GraphPattern.inScope, List.mem_append, names s isEndS, names o isEndO]

theorem NormalQuery.ofQuery_path (isEndS : s.IsEnd) (isEndO : o.IsEnd)
    (normal : ofQuery maxHops (path.query s o) = .ok query) : ∃ body after,
      pathBetween pathKey maxHops none path s o ⟨0, []⟩ = .ok (body, after) ∧
      Program.bodyOf query.algebra = body ∧
      query.projected = Sparql.GraphPattern.inScope (.path s path o) := by
  obtain ⟨_, drawn⟩ := ofQuery_ok_iff.1 normal
  obtain ⟨_, projected, rest, body, after, _, projects, _, made, rfl, _⟩ := drawn_ok_iff.1 drawn
  obtain ⟨rfl, rfl⟩ := Prod.mk.inj (Except.ok.inj projects)
  obtain ⟨subject, _, first, made⟩ := run_bind_ok_iff.1 made
  obtain ⟨rfl, rfl⟩ := isEndS.node first
  obtain ⟨object, _, second, made⟩ := run_bind_ok_iff.1 made
  obtain ⟨rfl, rfl⟩ := isEndO.node second
  exact ⟨body, after, made, rfl, rfl⟩

end Query

/-- The user-visible part of a solution gives the ends their terms, and nothing else. -/
theorem Algebra.Links.visible {quads : List Quad} {low high : Nat} {s o : PatternTerm}
    {r : Term → Term → Prop} {a : Algebra} (links : Links quads low high s o r a)
    (isEndS : s.IsEnd) (isEndO : o.IsEnd) {full : Row} (solves : a.Solves Eq quads full)
    {x y : Term} (takesS : s.Takes full x) (takesO : o.Takes full y) :
    full.visible = s.rowOf o x y := by
  apply KeyMap.ext
  intro key
  rw [Row.visible_get, PatternTerm.get_rowOf]
  by_cases first : s.key? = some key
  · rw [if_pos (isEndS key first), if_pos first, (PatternTerm.takes_iff first).1 takesS]
  by_cases second : o.key? = some key
  · rw [if_pos (isEndO key second), if_neg first, if_pos second,
      (PatternTerm.takes_iff second).1 takesO]
  rw [if_neg first, if_neg second]
  split
  next user =>
    by_contra bound
    have member := solves.mem_keys (Option.isSome_iff_ne_none.2 bound)
    rcases links.keys key member with here | here | ⟨i, _, _, rfl⟩
    · exact first here
    · exact second here
    · rw [isUserKey_pathKey] at user
      cases user
  next => rfl

/-- What a resolution returns for the ends of a path: each pair of terms that the path relates and
the ends allow, once. -/
theorem resolution_returns_path (quads : List Quad) (config : Config) (signer : Signer)
    (d : Dataset) (subject object : PatternTerm) (path : Path) (query : NormalQuery) (p : Program)
    (signed : Dataset.sign quads config signer = .ok d) (nonempty : quads ≠ [])
    (isEndS : subject.IsEnd) (isEndO : object.IsEnd) (apart : subject.Apart object)
    (normal : NormalQuery.ofQuery config.maxPathHops (path.query subject object) = .ok query)
    (compiled : Program.ofNormal config query = .ok p)
    (distinct : config.encoder.Distinguishes (d.terms ++ p.constants)) :
    ∃ resolver resolution, Resolver.ofDataset d config = .ok resolver ∧
      resolver.resolve p = .ok resolution ∧
      (resolution.witnesses.map (·.bindings)).Nodup ∧
      ∀ row, row ∈ resolution.witnesses.map (·.bindings) ↔
        ∃ x y, path.relation quads config.maxPathHops x y ∧ subject.Allows x ∧
          object.Allows y ∧ row = subject.rowOf object x y := by
  obtain ⟨tree, signature, s⟩ := Dataset.sign_ok signed
  obtain ⟨fragments, compiles⟩ := Program.ofNormal_ok compiled
  obtain ⟨body, after, made, whole, projected⟩ := NormalQuery.ofQuery_path isEndS isEndO normal
  have before (t : PatternTerm) (isEnd : t.IsEnd) : t.Before 0 := by
    intro i _ named
    have user := isEnd _ named
    rw [isUserKey_pathKey] at user
    cases user
  obtain ⟨_, links⟩ := Algebra.Links.makes_pathBetween quads config.maxPathHops path made apart
    (before subject isEndS) (before object isEndO)
  have projects : query.ProjectsAll := by
    constructor
    · intro name member
      rw [projected, mem_inScope_path_iff isEndS isEndO] at member
      exact member.elim (isEndS name) (isEndO name)
    · intro key member user
      rw [projected, mem_inScope_path_iff isEndS isEndO]
      rw [whole] at member
      rcases links.keys key member with here | here | ⟨i, _, _, rfl⟩
      · exact Or.inl here
      · exact Or.inr here
      · rw [isUserKey_pathKey] at user
        cases user
  obtain ⟨resolution, resolved, nodup, rows⟩ :=
    Resolver.positive_rows s nonempty compiles (whole ▸ links.positive) projects distinct
  refine ⟨d.resolver config, resolution, s.resolver, resolved, nodup, fun row => ?_⟩
  rw [rows, whole]
  constructor
  · rintro ⟨full, solves, rfl⟩
    obtain ⟨x, y, related, takesS, takesO⟩ := links.sound full solves
    exact ⟨x, y, related, takesS.allows, takesO.allows,
      links.visible isEndS isEndO solves takesS takesO⟩
  · rintro ⟨x, y, related, allowsS, allowsO, rfl⟩
    obtain ⟨full, solves, takesS, takesO⟩ := links.complete x y related allowsS allowsO
    exact ⟨full, solves, (links.visible isEndS isEndO solves takesS takesO).symm⟩

/-- The path of at most one step on and then some steps back. -/
def samplePath : Path :=
  .sequence (.zeroOrOne (.iri "http://e/p")) (.oneOrMore (.reverse (.iri "http://e/p")))

def samplePathCompiles : Result Unit := do
  sampleCompiles (← NormalQuery.ofQuery sampleConfig.maxPathHops
    (samplePath.query (.var "s") (.var "o")))

set_option maxRecDepth 100000 in
theorem samplePathCompiles_ok : samplePathCompiles.isOk = true := by decide +kernel

/-- The sample quad leads along the sample path, from its subject and from its object. -/
theorem resolution_returns_path_sample : ∃ query p,
    Dataset.sign [sampleQuad] sampleConfig sampleSigner = .ok sampleDataset ∧
    NormalQuery.ofQuery sampleConfig.maxPathHops (samplePath.query (.var "s") (.var "o")) =
      .ok query ∧
    Program.ofNormal sampleConfig query = .ok p ∧
    sampleConfig.encoder.Distinguishes (sampleDataset.terms ++ p.constants) ∧
    ∃ resolver resolution, Resolver.ofDataset sampleDataset sampleConfig = .ok resolver ∧
      resolver.resolve p = .ok resolution ∧
      (resolution.witnesses.map (·.bindings)).Nodup ∧
      ∀ row, row ∈ resolution.witnesses.map (·.bindings) ↔
        ∃ x y, samplePath.relation [sampleQuad] sampleConfig.maxPathHops x y ∧
          (PatternTerm.var "s").Allows x ∧ (PatternTerm.var "o").Allows y ∧
          row = (PatternTerm.var "s").rowOf (.var "o") x y := by
  obtain ⟨_, compiles⟩ := exists_ok_of_isOk samplePathCompiles_ok
  obtain ⟨query, normal, compiles⟩ := bind_ok_iff.1 compiles
  obtain ⟨p, compiled, distinct⟩ := exists_sampleProgram (by rw [compiles]; rfl)
  have isEnd (name : String) (user : isUserKey name = true) : (PatternTerm.var name).IsEnd :=
    fun key named => Option.some.inj named ▸ user
  have apart : (PatternTerm.var "s").Apart (.var "o") := by
    intro key first second
    exact absurd (Option.some.inj (first.trans second.symm)) (by decide)
  exact ⟨query, p, sample_signs, normal, compiled, distinct,
    resolution_returns_path [sampleQuad] sampleConfig sampleSigner sampleDataset (.var "s")
      (.var "o") samplePath query p sample_signs (List.cons_ne_nil _ _) (isEnd "s" (by decide))
      (isEnd "o" (by decide)) apart normal compiled distinct⟩

end AttestedQuery
