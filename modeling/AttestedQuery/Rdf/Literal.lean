import AttestedQuery.Term
import AttestedQuery.Text.Pieces

/-!
# Literals in RDF syntaxes

A literal has a language tag or a datatype. The datatype of the tagged ones cannot be written. A
language tag is a primary language with optional parts in a fixed order, a private tag, or one of
the registered irregular tags. Tags compare without regard to case, and are kept in lower case.
-/

set_option autoImplicit false

namespace AttestedQuery.LanguageTag

/-- Registered tags that do not follow the order of parts, in lower case. -/
def irregular : List String :=
  ["art-lojban", "cel-gaulish", "en-gb-oed", "i-ami", "i-bnn", "i-default", "i-enochian", "i-hak",
    "i-klingon", "i-lux", "i-mingo", "i-navajo", "i-pwn", "i-tao", "i-tay", "i-tsu", "no-bok",
    "no-nyn", "sgn-be-fr", "sgn-be-nl", "sgn-ch-de", "zh-guoyu", "zh-hakka", "zh-min",
    "zh-min-nan", "zh-xiang"]

/-- How far the parts of a tag have been read. -/
inductive Stage where
  /-- After a short primary language, which admits up to three extended languages. -/
  | language (extended : Nat)
  | longLanguage
  | script
  | region
  /-- In an extension, which is `open` while it has no part of its own. -/
  | extension (isOpen : Bool)
  /-- In the private part, which is open while it has no part of its own. -/
  | privateUse (isOpen : Bool)
  deriving DecidableEq

def isLetters (part : List Char) : Bool := part.all fun c => c.isLower || c.isUpper

def isDigits (part : List Char) : Bool := part.all Char.isDigit

def isAlphanumeric (part : List Char) : Bool := part.all Char.isAlphanum

def Stage.admitsScript : Stage → Bool
  | .language _ | .longLanguage => true
  | _ => false

def Stage.admitsRegion : Stage → Bool
  | .script => true
  | stage => stage.admitsScript

def Stage.admitsVariant : Stage → Bool
  | .region => true
  | stage => stage.admitsRegion

/-- A variant has five letters or digits that start with a letter, or four that start with a
digit. -/
def isVariant (part : List Char) : Bool :=
  isAlphanumeric part &&
    ((5 ≤ part.length && isLetters (part.take 1)) || (4 ≤ part.length && isDigits (part.take 1)))

def Stage.next (stage : Stage) (part : List Char) : Option Stage :=
  if part = [] ∨ 8 < part.length ∨ !isAlphanumeric part then none
  else match stage with
    | .privateUse _ => some (.privateUse false)
    | stage =>
      if part.length = 1 then
        if stage = .extension true then none
        else if part = ['x'] then some (.privateUse true)
        else some (.extension true)
      else match stage with
        | .extension _ => some (.extension false)
        | .language extended =>
          if part.length = 3 ∧ isLetters part then
            if extended < 3 then some (.language (extended + 1)) else none
          else later stage
        | stage => later stage
where
  later (stage : Stage) : Option Stage :=
    if stage.admitsScript ∧ part.length = 4 ∧ isLetters part then some .script
    else if stage.admitsRegion
        ∧ ((part.length = 2 ∧ isLetters part) ∨ (part.length = 3 ∧ isDigits part)) then
      some .region
    else if stage.admitsVariant ∧ isVariant part then some .region
    else none

def Stage.isComplete : Stage → Bool
  | .extension isOpen | .privateUse isOpen => !isOpen
  | _ => true

def isRegular (parts : List (List Char)) : Bool :=
  match parts with
  | [] => false
  | primary :: rest =>
    if primary.length < 2 ∨ 8 < primary.length ∨ !isLetters primary then false
    else
      match rest.foldlM Stage.next (if primary.length < 4 then .language 0 else .longLanguage) with
      | some stage => stage.isComplete
      | none => false

def isPrivate : List Char → Bool
  | 'x' :: '-' :: rest => rest != [] && rest.all fun c => c.isAlphanum || c == '-'
  | _ => false

def read? (text : List Char) : Option String :=
  let lower := text.map Char.toLower
  if irregular.contains (String.ofList lower) || isPrivate lower
      || isRegular (Text.piecesAt '-' lower) then
    some (String.ofList lower)
  else none

end AttestedQuery.LanguageTag

namespace AttestedQuery.Rdf

/-- A literal with a datatype. The datatype of tagged literals takes a tag. -/
def typedLiteral (value datatype : String) : Option Term :=
  if datatype = rdfLangString then none else some (.literal value none datatype)

def taggedLiteral (value : String) (tag : List Char) : Option Term :=
  (LanguageTag.read? tag).map fun lang => .literal value (some lang) rdfLangString

end AttestedQuery.Rdf
