import Sexp.Source.Token

/-!
# The reader

A reader stands at a position in a text and reads one value after the other. Reading skips layout
and takes tokens until a value is complete. At the end of the text there is no further value. A
parenthesis that closes nothing is not passed, so the next attempt fails in the same way; the
other errors leave the reader at the end of the text. An error has the offset, in characters, of
what it is about.
-/

namespace Sexp

inductive ReadError.Kind where
  | unterminatedString
  | missingCloseParen
  | missingOpenParen
  | trailingContent
  | noExpression
  deriving DecidableEq

structure ReadError where
  kind : ReadError.Kind
  offset : Nat
  deriving DecidableEq

def ReadError.Kind.text : ReadError.Kind → String
  | unterminatedString => "missing quote character"
  | missingCloseParen => "missing closing parenthesis"
  | missingOpenParen => "missing opening parenthesis"
  | trailingContent => "missing end of input"
  | noExpression => "no expression in input"

def ReadError.message (e : ReadError) : String :=
  e.kind.text ++ " (offset " ++ toString e.offset ++ ")"

structure Reader where
  position : Nat
  rest : List Char

namespace Reader

open Source

def ofChars (chars : List Char) : Reader := ⟨0, chars⟩

def ofText (text : String) : Reader := ofChars text.toList

def ofBytes (bytes : List UInt8) : Reader := ofChars (Text.Utf8.lossy bytes)

def advance (r : Reader) (n : Nat) : Reader := ⟨r.position + n, r.rest.drop n⟩

def skipLayout (r : Reader) : Reader := r.advance (layoutWidth false r.rest)

def toEnd (r : Reader) : Reader := r.advance r.rest.length

@[simp] theorem rest_advance (r : Reader) (n : Nat) : (r.advance n).rest = r.rest.drop n := rfl

@[simp] theorem rest_toEnd (r : Reader) : r.toEnd.rest = [] := by simp [toEnd]

theorem skipLayout_length_le (r : Reader) : r.skipLayout.rest.length ≤ r.rest.length := by
  simp [skipLayout]

theorem advance_length_lt {r : Reader} {t : Token} (h : scan r.skipLayout.rest = .token t) :
    (r.skipLayout.advance t.width).rest.length < r.rest.length := by
  have := width_pos_of_scan h
  have := width_le_of_scan h
  have := r.skipLayout_length_le
  simp only [rest_advance, List.length_drop]
  omega

def readWithin (lists : Nesting) (r : Reader) : Except ReadError (Option Value) × Reader :=
  match _ : scan r.skipLayout.rest with
  | .finished =>
    if lists.isEmpty then (.ok none, r.skipLayout)
    else (.error ⟨.missingCloseParen, r.skipLayout.position⟩, r.skipLayout)
  | .unterminated =>
    (.error ⟨.unterminatedString, r.skipLayout.position⟩, r.skipLayout.toEnd)
  | .token t =>
    match lists.accept t with
    | .complete v => (.ok (some v), r.skipLayout.advance t.width)
    | .pending lists => readWithin lists (r.skipLayout.advance t.width)
    | .unmatched => (.error ⟨.missingOpenParen, r.skipLayout.position⟩, r.skipLayout)
termination_by r.rest.length
decreasing_by exact advance_length_lt ‹_›

def read (r : Reader) : Except ReadError (Option Value) × Reader := r.readWithin []

/-- The next value or error, or none at the end of the text. Nothing follows an error. -/
def next (r : Reader) : Option (Except ReadError Value) × Reader :=
  match r.read with
  | (.ok none, r) => (none, r)
  | (.ok (some v), r) => (some (.ok v), r)
  | (.error e, r) => (some (.error e), r.toEnd)

def finish (r : Reader) : Except ReadError Unit × Reader :=
  (if r.skipLayout.rest.isEmpty then .ok ()
    else .error ⟨.trailingContent, r.skipLayout.position⟩, r.skipLayout)

def readOne (r : Reader) : Except ReadError Value :=
  match r.read with
  | (.error e, _) => .error e
  | (.ok none, r) => .error ⟨.noExpression, r.position⟩
  | (.ok (some v), r) => r.finish.1.map fun _ => v

end Reader

def readText (text : String) : Except ReadError Value := (Reader.ofText text).readOne

def readBytes (bytes : List UInt8) : Except ReadError Value := (Reader.ofBytes bytes).readOne

end Sexp
