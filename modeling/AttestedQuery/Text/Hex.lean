import AttestedQuery.Octets
import AttestedQuery.Text.Quoted

/-!
# Octets as hexadecimal text

Octet strings written with two digits for each octet. Reading takes either letter case; a fault
names the character and its place, and an odd length is reported before any bad character.
-/

set_option autoImplicit false

namespace AttestedQuery.Hex

def ofOctets (octets : Octets) : String :=
  String.ofList (octets.flatMap fun octet =>
    [digitChar (octet.toNat / 16), digitChar (octet.toNat % 16)])

/-- Why a text is not the hexadecimal form of an octet string. -/
inductive Fault where
  | oddLength
  /-- The octet at this place is no digit. -/
  | badOctet (octet : UInt8) (place : Nat)
  deriving DecidableEq, Repr

def Fault.message : Fault → String
  | .oddLength => "Odd number of digits"
  | .badOctet octet place =>
      "Invalid character " ++ Text.quotedScalar (Char.ofNat octet.toNat) ++ " at position "
        ++ Decimal.textOfInt place

def readPairs : Nat → Octets → Except Fault Octets
  | _, [] => .ok []
  | _, [_] => .error .oddLength
  | place, high :: low :: rest =>
      match digitValue (Char.ofNat high.toNat) with
      | none => .error (.badOctet high place)
      | some h =>
        match digitValue (Char.ofNat low.toNat) with
        | none => .error (.badOctet low (place + 1))
        | some l => (readPairs (place + 2) rest).map (UInt8.ofNat (16 * h + l) :: ·)

def toOctets (text : String) : Except Fault Octets :=
  let octets := Octets.ofString text
  if octets.length % 2 = 1 then .error .oddLength else readPairs 0 octets

end AttestedQuery.Hex
