import AttestedQuery.Text.Pieces

/-!
# Readers

A reader takes characters from the front of a text and gives a value, or fails. It carries a state
that failure does not undo: what a failed alternative has recorded stays recorded. Alternatives
are ordered, the first that succeeds counts, and repetition takes as much as it can.
-/

set_option autoImplicit false

namespace AttestedQuery

def Reader (σ α : Type) := List Char → σ → Option (α × List Char) × σ

namespace Reader

variable {σ α β : Type}

def succeed (a : α) : Reader σ α := fun text s => (some (a, text), s)

def fail : Reader σ α := fun _ s => (none, s)

def andThen (first : Reader σ α) (next : α → Reader σ β) : Reader σ β := fun text s =>
  match first text s with
  | (some (a, rest), s) => next a rest s
  | (none, s) => (none, s)

instance : Monad (Reader σ) where
  pure := succeed
  bind := andThen

instance : Inhabited (Reader σ α) := ⟨fail⟩

def orElse (first : Reader σ α) (second : Unit → Reader σ α) : Reader σ α := fun text s =>
  match first text s with
  | (some result, s) => (some result, s)
  | (none, s) => second () text s

instance : OrElse (Reader σ α) := ⟨orElse⟩

def firstOf : List (Reader σ α) → Reader σ α
  | [] => fail
  | first :: rest => first.orElse fun _ => firstOf rest

def getState : Reader σ σ := fun text s => (some (s, text), s)

def setState (s : σ) : Reader σ Unit := fun text _ => (some ((), text), s)

def changeState (f : σ → σ) : Reader σ Unit := fun text s => (some ((), text), f s)

/-- A value that may be missing; missing is failure. -/
def ofOption : Option α → Reader σ α
  | some a => succeed a
  | none => fail

def require (condition : Bool) : Reader σ Unit :=
  if condition then succeed () else fail

def charIf (admitted : Char → Bool) : Reader σ Char := fun text s =>
  match text with
  | c :: rest => if admitted c then (some (c, rest), s) else (none, s)
  | [] => (none, s)

/-- The longest run of characters that satisfy a condition. -/
def run (admitted : Char → Bool) : Reader σ (List Char) := fun text s =>
  (some (text.span admitted), s)

/-- The longest run of characters that satisfy a condition, at least one. -/
def someRun (admitted : Char → Bool) : Reader σ (List Char) := do
  let taken ← run admitted
  require !taken.isEmpty
  return taken

def exactly (expected : String) : Reader σ Unit := fun text s =>
  (((Text.afterPart expected.toList text).map fun rest => ((), rest)), s)

/-- The rest of a text after a word, letter case of ASCII letters aside. -/
def afterWord : List Char → List Char → Option (List Char)
  | [], rest => some rest
  | _ :: _, [] => none
  | expected :: word, c :: rest =>
    if expected.toLower = c.toLower then afterWord word rest else none

def word (expected : String) : Reader σ Unit := fun text s =>
  (((afterWord expected.toList text).map fun rest => ((), rest)), s)

/-- Succeeds without taking anything where a reader would fail. -/
def absent (reader : Reader σ α) : Reader σ Unit := fun text s =>
  match reader text s with
  | (some _, s) => (none, s)
  | (none, s) => (some ((), text), s)

/-- Succeeds without taking anything where a reader would succeed. -/
def ahead (reader : Reader σ α) : Reader σ Unit := fun text s =>
  match reader text s with
  | (some _, s) => (some ((), text), s)
  | (none, s) => (none, s)

def finish : Reader σ Unit := fun text s =>
  match text with
  | [] => (some ((), []), s)
  | _ :: _ => (none, s)

def maybe (reader : Reader σ α) : Reader σ (Option α) :=
  (reader.andThen fun a => succeed (some a)).orElse fun _ => succeed none

def isPresent (reader : Reader σ α) : Reader σ Bool :=
  (reader.andThen fun _ => succeed true).orElse fun _ => succeed false

/-- As many values as there are, and what follows them. A value that takes no character is the
last. -/
def repeated (reader : Reader σ α) (text : List Char) (s : σ) : (List α × List Char) × σ :=
  match reader text s with
  | (none, s) => (([], text), s)
  | (some (a, rest), s) =>
    if rest.length < text.length then
      let ((more, rest), s) := repeated reader rest s
      ((a :: more, rest), s)
    else (([a], rest), s)
termination_by text.length

def many (reader : Reader σ α) : Reader σ (List α) := fun text s =>
  let (result, s) := reader.repeated text s
  (some result, s)

def atLeastOne (reader : Reader σ α) : Reader σ (List α) := do
  let first ← reader
  let more ← reader.many
  return first :: more

def sepBy (reader : Reader σ α) (separator : Reader σ β) : Reader σ (List α) := do
  let first ← reader
  let more ← (separator.andThen fun _ => reader).many
  return first :: more

def taken (reader : Reader σ α) : Reader σ (List Char) := fun text s =>
  match reader text s with
  | (some (_, rest), s) => (some (text.take (text.length - rest.length), rest), s)
  | (none, s) => (none, s)

def readAll (reader : Reader σ α) (s : σ) (text : List Char) : Option α :=
  match reader text s with
  | (some (a, []), _) => some a
  | _ => none

end Reader

end AttestedQuery
