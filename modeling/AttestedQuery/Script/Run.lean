import AttestedQuery.Machine
import AttestedQuery.Script.Parser
import AttestedQuery.Script.Utility

/-!
# Running shell scripts

What a script does to a file tree, and how it ends. Commands run one after the other; what no file
takes is collected in buffers, one for the output of the script, one for its errors and one for each
command whose output becomes a part of a word. A depth bounds how far commands are nested in one
another; it falls with every step inwards, and the length of the script suffices.

What the words of a script become are characters that know whether they were quoted, cut into fields
at the gaps between them. As a pattern, a star that was not quoted stands for any text and a
question mark for any character.
-/

set_option autoImplicit false

namespace AttestedQuery.Script

/-! ## Fields and patterns -/

inductive Atom where
  | char (c : Char) (isQuoted : Bool)
  /-- Nothing, but in quotes: it makes a field even on its own. -/
  | emptyQuote
  /-- The end of a field. -/
  | gap
  deriving DecidableEq

namespace Atom

def ofText (isQuoted : Bool) (text : OctetText) : List Atom :=
  text.map fun c => .char c isQuoted

def text (atoms : List Atom) : OctetText :=
  atoms.filterMap fun
    | .char c _ => some c
    | .gap => some ' '
    | .emptyQuote => none

def isSpace (c : Char) : Bool := c == ' ' || c == '\t' || c == '\n'

def split (value : OctetText) : List Atom :=
  value.map fun c => if isSpace c then .gap else .char c false

/-- The fields between gaps; gaps without anything between them make none. -/
def fields (atoms : List Atom) : List (List Atom) :=
  let last := atoms.foldr (fun atom (state : List Atom × List (List Atom)) =>
    match atom with
    | .gap => ([], if state.1.isEmpty then state.2 else state.1 :: state.2)
    | atom => (atom :: state.1, state.2)) ([], [])
  if last.1.isEmpty then last.2 else last.1 :: last.2

def admits : List Atom → OctetText → Bool
  | [], text => text.isEmpty
  | .gap :: pattern, text => admits pattern text
  | .emptyQuote :: pattern, text => admits pattern text
  | .char '*' false :: pattern, [] => admits pattern []
  | .char '*' false :: pattern, c :: text =>
    admits pattern (c :: text) || admits (.char '*' false :: pattern) text
  | .char p isQuoted :: pattern, c :: text =>
    (p == c || (p == '?' && !isQuoted)) && admits pattern text
  | .char _ _ :: _, [] => false
termination_by pattern text => pattern.length + text.length

end Atom

/-! ## Surroundings of a command -/

inductive Sink where
  | buffer (number : Nat)
  | file (path : String)
  deriving DecidableEq

structure Surroundings where
  input : OctetText
  output : Sink
  errors : Sink
  /-- Whether something asks for the status of the command, so that failure is no end. -/
  isAsked : Bool

structure Shell where
  tree : FileTree
  values : KeyMap OctetText
  name : OctetText
  arguments : List OctetText
  status : Nat
  buffers : List OctetText
  /-- The status of the last command whose output became a part of the current command. -/
  partStatus : Nat
  /-- Whether failure ends the script. -/
  endsOnFailure : Bool
  hasEnded : Bool

namespace Shell

def emit (s : Shell) (sink : Sink) (text : OctetText) : Shell :=
  match sink with
  | .buffer number => { s with buffers := s.buffers.modify number (· ++ text) }
  | .file path =>
    let before := (s.tree.read path).toOption.getD []
    match s.tree.write path (before ++ OctetText.toOctets text) with
    | .ok tree => { s with tree := tree }
    | .error _ => s

def complain (s : Shell) (around : Surroundings) (line : Nat) (message : String) (status : Nat) :
    Shell :=
  let text := s.name ++ (": " ++ shownNat line ++ ": ").toList ++ message.toList ++ ['\n']
  { s.emit around.errors text with status := status }

def checked (s : Shell) (around : Surroundings) : Shell :=
  if s.endsOnFailure && !around.isAsked && s.status != 0 then { s with hasEnded := true } else s

def valueOf (s : Shell) (name : String) : OctetText :=
  match name with
  | "#" => (shownNat s.arguments.length).toList
  | "?" => (shownNat s.status).toList
  | "0" => s.name
  | name =>
    match Decimal.toInt? name.toList with
    | some place => s.arguments.getD (place.toNat - 1) []
    | none => (s.values.get? name).getD []

/-- The pieces of a parameter. All arguments together are cut apart, except as one quoted text. -/
def parameterAtoms (s : Shell) (name : String) (isQuoted splits : Bool) : List Atom :=
  let whole (value : OctetText) : List Atom :=
    if isQuoted then .emptyQuote :: Atom.ofText true value
    else if splits then Atom.split value
    else Atom.ofText false value
  if name = "@" ∧ isQuoted ∨ (name = "@" ∨ name = "*") ∧ !isQuoted then
    ((s.arguments.map whole).intersperse [.gap]).flatten
  else if name = "*" then whole (Utility.spaced s.arguments)
  else whole (s.valueOf name)

end Shell

abbrev Runner := Surroundings → Command → Shell → Shell

def captured (run : Runner) (around : Surroundings) (command : Command) (s : Shell) :
    OctetText × Shell :=
  let number := s.buffers.length
  let after := run { around with output := .buffer number, isAsked := false } command
    { s with buffers := s.buffers ++ [[]] }
  let text := after.buffers.getD number []
  ((text.reverse.dropWhile (· == '\n')).reverse,
    { s with tree := after.tree, buffers := after.buffers.take number,
             partStatus := after.status })

def expand (run : Runner) (around : Surroundings) (splits : Bool) (word : Word) (s : Shell) :
    List Atom × Shell :=
  word.foldl (fun (done : List Atom × Shell) part =>
    let (atoms, s) := done
    match part with
    | .plain text => (atoms ++ Atom.ofText false text, s)
    | .quoted text => (atoms ++ .emptyQuote :: Atom.ofText true text, s)
    | .parameter name isQuoted => (atoms ++ s.parameterAtoms name isQuoted splits, s)
    | .written command isQuoted =>
      let (text, s) := captured run around command s
      let pieces := if isQuoted then .emptyQuote :: Atom.ofText true text
        else if splits then Atom.split text
        else Atom.ofText false text
      (atoms ++ pieces, s)) ([], s)

def expandText (run : Runner) (around : Surroundings) (word : Word) (s : Shell) :
    OctetText × Shell :=
  let (atoms, s) := expand run around false word s
  (Atom.text atoms, s)

def expandFields (run : Runner) (around : Surroundings) (words : List Word) (s : Shell) :
    List OctetText × Shell :=
  words.foldl (fun (done : List OctetText × Shell) word =>
    let (atoms, s) := expand run around true word done.2
    (done.1 ++ (Atom.fields atoms).map Atom.text, s)) ([], s)

def setAll (run : Runner) (around : Surroundings) (settings : List (String × Word)) (s : Shell) :
    Shell :=
  settings.foldl (fun (s : Shell) setting =>
    let (value, s) := expandText run around setting.2 s
    { s with values := s.values.insert setting.1 value }) s

/-- Opens one redirection; nothing where that fails, after a message. -/
def redirect (run : Runner) (line : Nat) (around : Surroundings) (redirection : Redirection)
    (s : Shell) : Option Surroundings × Shell :=
  let refused (s : Shell) (action path : String) (fault : FileFault) (missing : String) :=
    let cause := if fault = .notFound ∨ fault = .notDirectory then missing else fault.description
    (none, s.complain around line ("cannot " ++ action ++ " " ++ path ++ ": " ++ cause) 2)
  match redirection with
  | .input target =>
    let (target, s) := expandText run around target s
    match s.tree.read (pathOf target) with
    | .ok content => (some { around with input := OctetText.ofOctets content }, s)
    | .error fault => refused s "open" (pathOf target) fault "No such file"
  | .file channel appends target =>
    let (target, s) := expandText run around target s
    let path := pathOf target
    let before := if appends then (s.tree.read path).toOption.getD [] else []
    match s.tree.write path before with
    | .ok tree =>
      let s := { s with tree := tree }
      match channel with
      | .output => (some { around with output := .file path }, s)
      | .errors => (some { around with errors := .file path }, s)
    | .error fault => refused s "create" path fault "Directory nonexistent"
  | .copy .output .errors => (some { around with output := around.errors }, s)
  | .copy .errors .output => (some { around with errors := around.output }, s)
  | .copy _ _ => (some around, s)

def redirectAll (run : Runner) (line : Nat) (around : Surroundings)
    (redirections : List Redirection) (s : Shell) : Option Surroundings × Shell :=
  redirections.foldl (fun (done : Option Surroundings × Shell) redirection =>
    match done.1 with
    | some around => redirect run line around redirection done.2
    | none => done) (some around, s)

def statusOf (text : OctetText) : Nat :=
  match Decimal.toInt? text with
  | some status => (status % 256).toNat
  | none => 2

def perform (around : Surroundings) (line : Nat) (name : OctetText) (arguments : List OctetText)
    (s : Shell) : Shell :=
  match String.ofList name, arguments with
  | "exit", [] => { s with hasEnded := true }
  | "exit", status :: _ => { s with status := statusOf status, hasEnded := true }
  | "shift", _ => { s with arguments := s.arguments.tail, status := 0 }
  | "set", options =>
    let asks := options.any fun o => o.head? = some '-' && o.contains 'e'
    { s with endsOnFailure := s.endsOnFailure || asks, status := 0 }
  | shown, arguments =>
    match Utility.ofName? shown with
    | none => s.complain around line (shown ++ ": not found") 127
    | some utility =>
      let effect := utility s.tree around.input arguments
      let s := ({ s with tree := effect.tree }.emit around.output effect.output).emit
        around.errors effect.errors
      { s with status := effect.status }

/-- Runs a simple command. One without a name only sets variables. -/
def runSimple (run : Runner) (around : Surroundings) (line : Nat)
    (settings : List (String × Word)) (words : List Word) (s : Shell) : Shell :=
  let (fields, s) := expandFields run around words { s with partStatus := 0 }
  let s := setAll run around settings s
  let s := match fields with
    | [] => { s with status := s.partStatus }
    | name :: arguments => perform around line name arguments s
  s.checked around

def runChoice (run : Runner) (around : Surroundings) (subject : OctetText) :
    List (List Word × Command) → Shell → Shell
  | [], s => { s with status := 0 }
  | (patterns, body) :: rest, s =>
    let (admitted, s) := patterns.foldl (fun (done : Bool × Shell) pattern =>
      if done.1 then done
      else
        let (atoms, s) := expand run around false pattern done.2
        (Atom.admits atoms subject, s)) (false, s)
    if admitted then run around body { s with status := 0 }
    else runChoice run around subject rest s

def runApart (run : Runner) (around : Surroundings) (command : Command) (s : Shell) : Shell :=
  let after := run around command s
  { s with tree := after.tree, buffers := after.buffers, status := after.status }

/-- Runs commands nested at most so deep. -/
def runOfDepth : Nat → Runner
  | 0, _, _, s => s
  | depth + 1, around, command, s =>
    let run := runOfDepth depth
    let asked := { around with isAsked := true }
    if s.hasEnded then s
    else match command with
    | .nothing => { s with status := 0 }
    | .simple line settings words => runSimple run around line settings words s
    | .redirected line command redirections =>
      match redirectAll run line around redirections s with
      | (some inner, s) => run inner command s
      | (none, s) => s.checked around
    | .sequence first next => run around next (run around first s)
    | .both first next =>
      let s := run asked first s
      if s.status = 0 then run around next s else s
    | .either first next =>
      let s := run asked first s
      if s.status = 0 then s else run around next s
    | .negated command =>
      let s := run asked command s
      if s.hasEnded then s else { s with status := if s.status = 0 then 1 else 0 }
    | .pipe first next =>
      let number := s.buffers.length
      let middle := run { asked with output := .buffer number } first
        { s with buffers := s.buffers ++ [[]] }
      let text := middle.buffers.getD number []
      (runApart run { around with input := text } next
        { s with tree := middle.tree, buffers := middle.buffers.take number }).checked around
    | .apart command => (runApart run around command s).checked around
    | .conditional condition whenTrue whenFalse =>
      let s := run asked condition s
      run around (if s.status = 0 then whenTrue else whenFalse) s
    | .choice subject cases =>
      let (subject, s) := expandText run around subject s
      runChoice run around subject cases s
    | .each name words body =>
      let (fields, s) := expandFields run around words s
      fields.foldl (fun s field =>
        run around body { s with values := s.values.insert name field })
        { s with status := 0 }

/-- Runs a script under a name with arguments. A script that cannot be read fails. -/
def run (tree : FileTree) (name : String) (arguments : List String) (text : OctetText) :
    Outcome × FileTree :=
  let octetText (text : String) : OctetText := OctetText.ofOctets (Octets.ofString text)
  let around : Surroundings := ⟨[], .buffer 0, .buffer 1, false⟩
  let start : Shell :=
    ⟨tree, KeyMap.empty, octetText name, arguments.map octetText, 0, [[], []], 0, false, false⟩
  let s := match read text with
    | some command => runOfDepth (text.length + 1) around command start
    | none => start.complain around 1 "Syntax error" 2
  let written (number : Nat) : Octets := OctetText.toOctets (s.buffers.getD number [])
  (⟨s.status, written 0, written 1⟩, s.tree)

/-- The programs of a tree: its files that are shell scripts. A program that is named without a
slash is looked for elsewhere, where there is none. -/
def programs : FileTree.Programs := fun program arguments tree =>
  if !program.contains '/' then (.error .notFound, tree)
  else
    match tree.read program with
    | .error .isDirectory => (.error .denied, tree)
    | .error fault => (.error fault, tree)
    | .ok content =>
      let text := OctetText.ofOctets content
      if (Text.afterPart "#!/bin/sh\n".toList text).isSome then
        let (outcome, tree) := run tree program arguments text
        (.ok outcome, tree)
      else (.error .denied, tree)

end AttestedQuery.Script
