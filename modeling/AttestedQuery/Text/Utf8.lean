import AttestedQuery.Octets

/-!
# Reading UTF-8

Octets as characters. A part that is no character is marked as one fault: the longest run of
octets that starts some character, or one octet where none starts. A strict reader refuses a text
with faults, a lenient one puts the replacement character in the place of each.
-/

set_option autoImplicit false

namespace AttestedQuery.Utf8

structure Partial where
  value : Nat
  /-- The number of octets still owed, less one. -/
  owed : Nat
  /-- The range of the next octet. -/
  low : UInt8
  high : UInt8

/-- What an octet starts: a whole character, a longer one, or none. -/
inductive Start where
  | whole (c : Char)
  | longer (begun : Partial)
  | fault

/-- What an octet starts. The ranges leave out long forms, surrogates and all past the last
scalar value. -/
def start (octet : UInt8) : Start :=
  let n := octet.toNat
  if n < 0x80 then .whole (Char.ofNat n)
  else if n < 0xC2 then .fault
  else if n < 0xE0 then .longer ⟨n - 0xC0, 0, 0x80, 0xBF⟩
  else if n < 0xF0 then
    .longer ⟨n - 0xE0, 1, if n = 0xE0 then 0xA0 else 0x80, if n = 0xED then 0x9F else 0xBF⟩
  else if n < 0xF5 then
    .longer ⟨n - 0xF0, 2, if n = 0xF0 then 0x90 else 0x80, if n = 0xF4 then 0x8F else 0xBF⟩
  else .fault

mutual

/-- The characters of some octets, with nothing in the place of a fault. -/
def scan : Octets → List (Option Char)
  | [] => []
  | octet :: rest =>
    match start octet with
    | .whole c => some c :: scan rest
    | .longer begun => scanAfter begun rest
    | .fault => none :: scan rest
termination_by octets => (octets.length, 0)

/-- The characters of some octets that follow the start of a character. -/
def scanAfter (begun : Partial) : Octets → List (Option Char)
  | [] => [none]
  | octet :: rest =>
    if begun.low ≤ octet ∧ octet ≤ begun.high then
      let value := begun.value * 64 + (octet.toNat - 0x80)
      match begun.owed with
      | 0 => some (Char.ofNat value) :: scan rest
      | owed + 1 => scanAfter ⟨value, owed, 0x80, 0xBF⟩ rest
    else none :: scan (octet :: rest)
termination_by octets => (octets.length, 1)

end

def text? (octets : Octets) : Option String :=
  ((scan octets).mapM id).map String.ofList

def lenient (octets : Octets) : String :=
  String.ofList ((scan octets).map fun c => c.getD (Char.ofNat 0xFFFD))

end AttestedQuery.Utf8
