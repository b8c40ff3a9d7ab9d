import AttestedQuery.Octets

/-!
# Shell scripts

The part of the shell command language that stand-ins for the proving programs are written in:
words with quotes, parameters and command output, redirections, lists, conditions, choices and
loops over words. There are no functions and no open loops, so every script comes to an end.
-/

set_option autoImplicit false

namespace AttestedQuery.Script

/-- A text of octets: every character stands for the octet with its code. -/
abbrev OctetText := List Char

def OctetText.ofOctets (octets : Octets) : OctetText :=
  octets.map fun octet => Char.ofNat octet.toNat

def OctetText.toOctets (text : OctetText) : Octets :=
  text.map fun c => UInt8.ofNat c.toNat

/-- A place where a command writes: its output or its errors. -/
inductive Channel where
  | output
  | errors
  deriving DecidableEq

mutual

/-- A part of a word. What is quoted is neither split into fields nor read as a pattern. -/
inductive Part where
  | plain (text : OctetText)
  | quoted (text : OctetText)
  /-- The value of a variable or of a parameter, which has a number or a mark for a name. -/
  | parameter (name : String) (isQuoted : Bool)
  /-- What a command writes, without the line ends at its end. -/
  | written (command : Command) (isQuoted : Bool)

inductive Redirection where
  | input (target : List Part)
  | file (channel : Channel) (appends : Bool) (target : List Part)
  /-- A channel is made to write where another one writes. -/
  | copy (channel source : Channel)

inductive Command where
  | nothing
  /-- A utility with arguments after variables that are set; `line` is where it starts. -/
  | simple (line : Nat) (settings : List (String × List Part)) (words : List (List Part))
  | redirected (line : Nat) (command : Command) (redirections : List Redirection)
  | sequence (first next : Command)
  /-- The second command runs where the first succeeds. -/
  | both (first next : Command)
  /-- The second command runs where the first fails. -/
  | either (first next : Command)
  | negated (command : Command)
  /-- What the first command writes is the input of the second. -/
  | pipe (first next : Command)
  /-- A command whose variables are its own. -/
  | apart (command : Command)
  | conditional (condition whenTrue whenFalse : Command)
  /-- The first command with a pattern for a word. -/
  | choice (subject : List Part) (cases : List (List (List Part) × Command))
  | each (name : String) (words : List (List Part)) (body : Command)

end

abbrev Word := List Part

end AttestedQuery.Script
