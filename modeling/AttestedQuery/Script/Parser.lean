import AttestedQuery.Script
import AttestedQuery.Text.Reader

/-!
# Reading shell scripts

The grammar of scripts over characters. Words of the language count as such only where a command
may start. The state of the readers is the number of line ends in the whole script, from which and
from the rest of the text a command knows its line.
-/

set_option autoImplicit false

namespace AttestedQuery.Script

open Reader

abbrev Grammar := Reader Nat

namespace Grammar

def lineEnds (text : List Char) : Nat := text.count '\n'

def lineNumber : Grammar Nat := fun text total => (some (total - lineEnds text + 1, text), total)

def singleQuote : Char := Char.ofNat 39

/-- The characters that end a run of plain characters. -/
def isSpecial (c : Char) : Bool :=
  c == singleQuote || " \t\n;&|<>()\"\\$`".toList.contains c

def isNameStart (c : Char) : Bool := c.isAlpha || c == '_'

def isNameChar (c : Char) : Bool := c.isAlphanum || c == '_'

/-- Blanks and line ends after a backslash, and a comment if one starts. -/
def blanks : Grammar Unit := do
  let _ ← many (exactly " " <|> exactly "\t" <|> exactly "\\\n")
  let comment ← isPresent (exactly "#")
  if comment then
    let _ ← run (· ≠ '\n')

def lines : Grammar Unit := do
  blanks
  let _ ← many (do
    exactly "\n"
    blanks)

def mark (text : String) : Grammar Unit := do
  exactly text
  blanks

def reserved (word : String) : Grammar Unit := do
  exactly word
  absent (charIf fun c => !isSpecial c || c == singleQuote || "\"\\$`".toList.contains c)
  blanks

def reservedWords : List String :=
  ["then", "else", "elif", "fi", "do", "done", "esac", "if", "case", "for", "!", "\x7b", "\x7d"]

def variableName : Grammar String := do
  let first ← charIf isNameStart
  return String.ofList (first :: (← run isNameChar))

/-- What stands for a value after a dollar sign: a name, a digit or a mark. -/
def parameterName : Grammar String :=
  variableName
    <|> (do return String.singleton (← charIf fun c => c.isDigit || "*@#?$!-".toList.contains c))

/-- The characters up to a backquote; a backslash takes itself away before a backquote, a
backslash or a dollar sign. -/
def backquoted : Grammar (List Char) :=
  many (charIf (fun c => c != '`' && c != '\\')
    <|> (do
      exactly "\\"
      charIf fun c => c == '`' || c == '\\' || c == '$')
    <|> charIf (· == '\\'))

def expansion (nested : Grammar Command) (isQuoted : Bool) : Grammar Part :=
  (do
    exactly "$("
    let command ← nested
    exactly ")"
    return .written command isQuoted)
  <|> (do
    exactly "$\x7b"
    let name ← parameterName
    exactly "\x7d"
    return .parameter name isQuoted)
  <|> (do
    exactly "$"
    return .parameter (← parameterName) isQuoted)
  <|> (do
    exactly "`"
    let inner ← backquoted
    exactly "`"
    let total ← getState
    return .written (← ofOption (nested.readAll total inner)) isQuoted)
  <|> (do
    exactly "$"
    return .quoted ['$'])

/-- A part between double quotes. A backslash counts before a few characters only. -/
def innerPart (nested : Grammar Command) : Grammar Part :=
  (do
    exactly "\\\n"
    return .quoted [])
  <|> (do
    exactly "\\"
    return .quoted [← charIf fun c => "$`\"\\".toList.contains c])
  <|> (do
    exactly "\\"
    return .quoted ['\\'])
  <|> expansion nested true
  <|> (do return .quoted (← someRun fun c => !"\"\\$`".toList.contains c))

/-- The parts that one piece of a word gives. An empty quotation is a part as well. -/
def parts (nested : Grammar Command) : Grammar (List Part) :=
  (do
    let _ ← charIf (· == singleQuote)
    let inner ← run (· ≠ singleQuote)
    let _ ← charIf (· == singleQuote)
    return [.quoted inner])
  <|> (do
    exactly "\""
    let inner ← many (innerPart nested)
    exactly "\""
    return if inner.isEmpty then [.quoted []] else inner)
  <|> (do
    exactly "\\\n"
    return [])
  <|> (do
    exactly "\\"
    return [.quoted [← charIf fun _ => true]])
  <|> (do return [← expansion nested false])
  <|> (do return [.plain (← someRun fun c => !isSpecial c)])

def word (nested : Grammar Command) : Grammar Word := do
  let pieces ← atLeastOne (parts nested)
  blanks
  return pieces.flatten

def setting (nested : Grammar Command) : Grammar (String × Word) := do
  let name ← variableName
  exactly "="
  let pieces ← many (parts nested)
  blanks
  return (name, pieces.flatten)

/-- The channel that a number before a redirection names; without a number it is the output. -/
def channel : Grammar Channel :=
  (do
    exactly "2"
    return .errors)
  <|> (do
    let _ ← maybe (exactly "1")
    return .output)

def redirection (nested : Grammar Command) : Grammar Redirection :=
  (do
    let _ ← maybe (exactly "0")
    mark "<"
    return .input (← word nested))
  <|> (do
    let target ← channel
    exactly ">&"
    let source ← channelNumber
    blanks
    return .copy target source)
  <|> (do
    let target ← channel
    mark ">>"
    return .file target true (← word nested))
  <|> (do
    let target ← channel
    mark ">|" <|> mark ">"
    return .file target false (← word nested))
where
  channelNumber : Grammar Channel :=
    (do
      exactly "2"
      return .errors)
    <|> (do
      exactly "1"
      return .output)

def withRedirections (line : Nat) (command : Command) (redirections : List Redirection) :
    Command :=
  if redirections.isEmpty then command else .redirected line command redirections

/-- What a simple command is made of, in any order. -/
inductive Piece where
  | word (w : Word)
  | redirection (r : Redirection)

def simpleCommand (nested : Grammar Command) : Grammar Command := do
  absent (firstOf (reservedWords.map reserved))
  let line ← lineNumber
  let before ← many (redirection nested)
  let settings ← many (setting nested)
  let pieces ← many ((do return Piece.redirection (← redirection nested))
    <|> (do return Piece.word (← word nested)))
  require !(before.isEmpty && settings.isEmpty && pieces.isEmpty)
  let words := pieces.filterMap fun
    | .word w => some w
    | .redirection _ => none
  let redirections := pieces.filterMap fun
    | .redirection r => some r
    | .word _ => none
  return withRedirections line (.simple line settings words) (before ++ redirections)

def guarded (nested : Grammar Command) : Grammar (Command × Command) := do
  let condition ← nested
  reserved "then"
  return (condition, ← nested)

def choiceCase (nested : Grammar Command) : Grammar (List Word × Command) := do
  absent (reserved "esac")
  let _ ← maybe (mark "(")
  let patterns ← sepBy (word nested) (mark "|")
  mark ")"
  let body ← nested
  let ends ← isPresent (exactly ";;")
  if ends then lines else ahead (reserved "esac")
  return (patterns, body)

def compound (nested : Grammar Command) : Grammar Command :=
  (do
    reserved "\x7b"
    let body ← nested
    reserved "\x7d"
    return body)
  <|> (do
    exactly "("
    let body ← nested
    mark ")"
    return .apart body)
  <|> (do
    reserved "if"
    let first ← guarded nested
    let more ← many (do
      reserved "elif"
      guarded nested)
    let otherwise ← maybe (do
      reserved "else"
      nested)
    reserved "fi"
    return (first :: more).foldr (fun branch rest => .conditional branch.1 branch.2 rest)
      (otherwise.getD .nothing))
  <|> (do
    reserved "case"
    let subject ← word nested
    lines
    reserved "in"
    lines
    let cases ← many (choiceCase nested)
    reserved "esac"
    return .choice subject cases)
  <|> (do
    reserved "for"
    let name ← variableName
    blanks
    lines
    let words ← maybe (do
      reserved "in"
      many (word nested))
    let _ ← maybe (mark ";")
    lines
    reserved "do"
    let body ← nested
    reserved "done"
    return .each name (words.getD [[.parameter "@" true]]) body)

/-- The next command of a list is on the same line after a semicolon, or on a later one. -/
def separator : Grammar Unit := do
  (do
    exactly ";"
    absent (exactly ";")) <|> exactly "\n"
  lines

def command (nested : Grammar Command) : Grammar Command :=
  (do
    let line ← lineNumber
    let body ← compound nested
    return withRedirections line body (← many (redirection nested)))
  <|> simpleCommand nested

def pipeline (nested : Grammar Command) : Grammar Command := do
  let negated ← isPresent (reserved "!")
  let first ← command nested
  let more ← many (do
    exactly "|"
    absent (exactly "|")
    lines
    command nested)
  let whole := more.foldl Command.pipe first
  return if negated then .negated whole else whole

def chain (nested : Grammar Command) : Grammar Command := do
  let first ← pipeline nested
  let more ← many (do
    let combine ← (do
        exactly "&&"
        return Command.both)
      <|> (do
        exactly "||"
        return Command.either)
    lines
    return (combine, ← pipeline nested))
  return more.foldl (fun before link => link.1 before link.2) first

def list (nested : Grammar Command) : Grammar Command := do
  lines
  let commands ← maybe (sepBy (chain nested) separator)
  let _ ← maybe separator
  match commands.getD [] with
  | [] => return .nothing
  | first :: rest => return rest.foldl Command.sequence first

/-- The commands of a script in which scripts are nested at most so deep. -/
def listOfDepth : Nat → Grammar Command
  | 0 => fail
  | depth + 1 => fun text total => list (listOfDepth depth) text total

end Grammar

/-- Reads a script. Every nested script takes a character, so the length of the text bounds the
depth. -/
def read (text : OctetText) : Option Command :=
  (Grammar.listOfDepth (text.length + 1)).readAll (Grammar.lineEnds text) text

end AttestedQuery.Script
