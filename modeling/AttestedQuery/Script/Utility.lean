import AttestedQuery.FileTree
import AttestedQuery.Script
import AttestedQuery.Text.Utf8

/-!
# Utilities of scripts

The programs that a script may name. A utility sees the file tree, its input and its arguments; it
changes the tree, writes, and ends with a status, which is zero for success.
-/

set_option autoImplicit false

namespace AttestedQuery.Script

structure Effect where
  tree : FileTree
  output : OctetText
  errors : OctetText
  status : Nat

/-- A program over a tree, an input and arguments. -/
abbrev Utility := FileTree → OctetText → List OctetText → Effect

def pathOf (text : OctetText) : String := Utf8.lenient (OctetText.toOctets text)

namespace Utility

def ending (status : Nat) : Utility := fun t _ _ => ⟨t, [], [], status⟩

/-- An octal code of at most three digits, and what follows. -/
def octal (text : List Char) : Option (Char × List Char) :=
  match (text.take 3).takeWhile fun c => '0' ≤ c && c ≤ '7' with
  | [] => none
  | digits =>
    let value := digits.foldl (fun total c => total * 8 + (c.toNat - '0'.toNat)) 0
    some (Char.ofNat (value % 256), text.drop digits.length)

/-- The text of an escape without its backslash, and what follows. A backslash that starts no
escape stands for itself. -/
def escape : List Char → OctetText × List Char
  | 'a' :: rest => ([Char.ofNat 7], rest)
  | 'b' :: rest => ([Char.ofNat 8], rest)
  | 'f' :: rest => ([Char.ofNat 12], rest)
  | 'n' :: rest => (['\n'], rest)
  | 'r' :: rest => (['\r'], rest)
  | 't' :: rest => (['\t'], rest)
  | 'v' :: rest => ([Char.ofNat 11], rest)
  | '\\' :: rest => (['\\'], rest)
  | text =>
    match octal text with
    | some (c, rest) => ([c], rest)
    | none => (['\\'], text)

theorem octal_length (text : List Char) (c : Char) (rest : List Char)
    (read : octal text = some (c, rest)) : rest.length ≤ text.length := by
  unfold octal at read
  split at read
  · simp at read
  · simp only [Option.some.injEq, Prod.mk.injEq] at read
    rw [← read.2]
    simp

theorem escape_length (text : List Char) : (escape text).2.length ≤ text.length := by
  unfold escape
  split <;> try simp
  split
  next read => exact octal_length _ _ _ read
  next => simp

/-- The text of an escape in an argument: a zero may stand before an octal code. -/
def longEscape : List Char → OctetText × List Char
  | '0' :: rest =>
    match octal rest with
    | some (c, rest) => ([c], rest)
    | none => ([Char.ofNat 0], rest)
  | text => escape text

theorem longEscape_length (text : List Char) : (longEscape text).2.length ≤ text.length := by
  unfold longEscape
  split
  · split
    next read => exact Nat.le_succ_of_le (octal_length _ _ _ read)
    next => simp
  · exact escape_length text

/-- A text with its escapes resolved, and whether output goes on; `\c` ends all of it. -/
def unescaped : List Char → OctetText × Bool
  | [] => ([], true)
  | '\\' :: 'c' :: _ => ([], false)
  | '\\' :: rest =>
    have := longEscape_length rest
    let (more, goesOn) := unescaped (longEscape rest).2
    ((longEscape rest).1 ++ more, goesOn)
  | c :: rest =>
    let (more, goesOn) := unescaped rest
    (c :: more, goesOn)
termination_by text => text.length

def spaced (texts : List OctetText) : OctetText := texts.intersperse [' '] |>.flatten

/-- Writes its arguments with escapes resolved, and a line end unless the first one is `-n`. -/
def echo : Utility := fun t _ arguments =>
  let (shown, endsLine) := match arguments with
    | first :: rest => if first = "-n".toList then (rest, false) else (arguments, true)
    | [] => ([], true)
  let (text, goesOn) := unescaped (spaced shown)
  ⟨t, if endsLine && goesOn then text ++ ['\n'] else text, [], 0⟩

def formatted : List Char → List OctetText → OctetText × List OctetText × Bool
  | [], arguments => ([], arguments, true)
  | '%' :: '%' :: rest, arguments =>
    let (more, left, goesOn) := formatted rest arguments
    ('%' :: more, left, goesOn)
  | '%' :: kind :: rest, arguments =>
    let (text, goesOn) :=
      if kind = 'b' then unescaped (arguments.headD [])
      else if kind = 'd' ∧ arguments.headD [] = [] then (['0'], true)
      else if kind = 'c' then ((arguments.headD []).take 1, true)
      else (arguments.headD [], true)
    if goesOn then
      let (more, left, goesOn) := formatted rest arguments.tail
      (text ++ more, left, goesOn)
    else (text, [], false)
  | '\\' :: rest, arguments =>
    have := escape_length rest
    let (more, left, goesOn) := formatted (escape rest).2 arguments
    ((escape rest).1 ++ more, left, goesOn)
  | c :: rest, arguments =>
    let (more, left, goesOn) := formatted rest arguments
    (c :: more, left, goesOn)
termination_by format => format.length

def formattedAll (format : List Char) (arguments : List OctetText) : OctetText :=
  let (text, left, goesOn) := formatted format arguments
  if goesOn ∧ left ≠ [] ∧ left.length < arguments.length then text ++ formattedAll format left
  else text
termination_by arguments.length

def printf : Utility := fun t _ arguments =>
  match arguments with
  | format :: rest => ⟨t, formattedAll format rest, [], 0⟩
  | [] => ⟨t, [], "printf: usage: printf format [arg ...]\n".toList, 2⟩

def forEach (one : FileTree → OctetText → Effect) (t : FileTree) (arguments : List OctetText) :
    Effect :=
  arguments.foldl (fun (before : Effect) argument =>
    let after := one before.tree argument
    ⟨after.tree, before.output ++ after.output, before.errors ++ after.errors,
      max before.status after.status⟩) ⟨t, [], [], 0⟩

def refusal (t : FileTree) (lead : String) (path : OctetText) (fault : FileFault) : Effect :=
  let mark := Char.ofNat 39
  let shown := if lead.endsWith ":" then path else mark :: path ++ [mark]
  ⟨t, [], lead.toList ++ ' ' :: shown ++ ": ".toList ++ fault.description.toList ++ ['\n'], 1⟩

def cat : Utility := fun t input arguments =>
  if arguments.isEmpty then ⟨t, input, [], 0⟩
  else forEach (fun t path =>
    match t.read (pathOf path) with
    | .ok content => ⟨t, OctetText.ofOctets content, [], 0⟩
    | .error fault => refusal t "cat:" path fault) t arguments

def withoutOptions (arguments : List OctetText) : List Char × List OctetText :=
  let (options, operands) := arguments.partition fun argument => argument.head? = some '-'
  (options.flatten, operands)

def baseName (path : String) : String :=
  String.ofList (((Text.piecesAt '/' path.toList).getLast?).getD [])

/-- Copies files to a file or into a directory; those moved are removed. -/
def copying (name : String) (removes : Bool) : Utility := fun t _ arguments =>
  let operands := (withoutOptions arguments).2
  match operands.reverse with
  | target :: source :: more =>
    let path := pathOf target
    let intoDirectory := t.isDirectory path
    forEach (fun t source =>
      let place := if intoDirectory then Path.join path (baseName (pathOf source)) else path
      match t.read (pathOf source) with
      | .error fault => refusal t (name ++ ": cannot stat") source fault
      | .ok content =>
        match t.write place content with
        | .error fault => refusal t (name ++ ": cannot create regular file") target fault
        | .ok written =>
          ⟨if removes then (written.remove (pathOf source)).toOption.getD written else written,
            [], [], 0⟩) t (source :: more).reverse
  | _ => ⟨t, [], (name ++ ": missing operand\n").toList, 1⟩

def remove : Utility := fun t _ arguments =>
  let (options, operands) := withoutOptions arguments
  forEach (fun t path =>
    if t.isDirectory (pathOf path) && !(options.contains 'r' || options.contains 'R') then
      refusal t "rm: cannot remove" path .isDirectory
    else
      match t.remove (pathOf path) with
      | .ok t => ⟨t, [], [], 0⟩
      | .error fault =>
        if options.contains 'f' then ⟨t, [], [], 0⟩
        else refusal t "rm: cannot remove" path fault) t operands

def makeDirectory : Utility := fun t _ arguments =>
  let (options, operands) := withoutOptions arguments
  forEach (fun t path =>
    let isThere := (t.find (pathOf path)).isOk
    let made := if options.contains 'p' then t.makeDirectories (pathOf path)
      else if isThere then .error .exists
      else (t.findNew (pathOf path)).map fun way => t.put way .directory
    match made with
    | .ok t => ⟨t, [], [], 0⟩
    | .error fault => refusal t "mkdir: cannot create directory" path fault) t operands

def touch : Utility := fun t _ arguments =>
  forEach (fun t path =>
    if (t.find (pathOf path)).isOk then ⟨t, [], [], 0⟩
    else
      match t.write (pathOf path) [] with
      | .ok t => ⟨t, [], [], 0⟩
      | .error fault => refusal t "touch: cannot touch" path fault) t arguments

def holdsOf (t : FileTree) (option : String) (operand : OctetText) : Option Bool :=
  match option with
  | "-n" => some !operand.isEmpty
  | "-z" => some operand.isEmpty
  | "-d" => some (t.isDirectory (pathOf operand))
  | "-f" => some (t.isFile (pathOf operand))
  | "-e" | "-r" | "-w" => some (t.find (pathOf operand)).isOk
  | "-s" => some (match t.read (pathOf operand) with
    | .ok content => !content.isEmpty
    | .error _ => false)
  | _ => none

def holdsBetween (left : OctetText) (relation : String) (right : OctetText) : Option Bool :=
  let numbers (compare : Int → Int → Bool) : Option Bool := do
    return compare (← Decimal.toInt? left) (← Decimal.toInt? right)
  match relation with
  | "=" => some (left == right)
  | "!=" => some (left != right)
  | "-eq" => numbers (· == ·)
  | "-ne" => numbers (· != ·)
  | "-lt" => numbers (· < ·)
  | "-le" => numbers (· ≤ ·)
  | "-gt" => numbers (· > ·)
  | "-ge" => numbers (· ≥ ·)
  | _ => none

def condition (t : FileTree) : List OctetText → Option Bool
  | [] => some false
  | [operand] => some !operand.isEmpty
  | [option, operand] =>
    if option = ['!'] then some operand.isEmpty else holdsOf t (String.ofList option) operand
  | [left, relation, right] =>
    match holdsBetween left (String.ofList relation) right with
    | some holds => some holds
    | none => if left = ['!'] then (holdsOf t (String.ofList relation) right).map (!·) else none
  | ['!'] :: left :: relation :: [right] =>
    (holdsBetween left (String.ofList relation) right).map (!·)
  | _ => none

def test (inBrackets : Bool) : Utility := fun t _ arguments =>
  let closed := !inBrackets || arguments.getLast? = some [']']
  let value := if closed then
      condition t (if inBrackets then arguments.dropLast else arguments)
    else none
  match value with
  | some true => ⟨t, [], [], 0⟩
  | some false => ⟨t, [], [], 1⟩
  | none => ⟨t, [], "test: bad condition\n".toList, 2⟩

def ofName? : String → Option Utility
  | ":" | "true" | "sleep" => some (ending 0)
  | "false" => some (ending 1)
  | "echo" => some echo
  | "printf" => some printf
  | "cat" => some cat
  | "cp" => some (copying "cp" false)
  | "mv" => some (copying "mv" true)
  | "rm" => some remove
  | "mkdir" => some makeDirectory
  | "touch" => some touch
  | "test" => some (test false)
  | "[" => some (test true)
  | _ => none

end Utility

end AttestedQuery.Script
