import Sexp.Source.Token

/-!
# Printing

The canonical text of a value: a symbol is its name, a string is a literal, a list has one blank
between its elements, and a form is its name after a number sign. In a literal each character is
written as one item, and that item denotes it.
-/

namespace Sexp

namespace Literal

def Item.ofChar (c : Char) : Item :=
  if c = '\t' then escape 't'
  else if c = '\r' then escape 'r'
  else if c = '\n' then escape 'n'
  else if c = '\\' ∨ c = '"' then escape c
  else plain c

theorem Item.denotes_ofChar (c : Char) : (ofChar c).denotes = [c] := by
  unfold ofChar
  repeat' split
  all_goals simp_all [denotes, escaped]
  rename_i h
  rcases h with rfl | rfl <;> simp

def encode (text : List Char) : List Char := text.flatMap fun c => (Item.ofChar c).spelling

def quote (text : List Char) : List Char := '"' :: (encode text ++ ['"'])

end Literal

namespace Value

mutual
def chars : Value → List Char
  | symbol s => s.name.toList
  | string text => Literal.quote text.toList
  | list [] => ['(', ')']
  | list (v :: vs) => '(' :: (v.chars ++ charsAfter vs)
  | form f => '#' :: f.name.toList

def charsAfter : List Value → List Char
  | [] => [')']
  | v :: vs => ' ' :: (v.chars ++ charsAfter vs)
end

def render (v : Value) : String := String.ofList v.chars

def encode (v : Value) : List UInt8 := Text.Utf8.encode v.chars

@[simp] theorem toList_render (v : Value) : v.render.toList = v.chars := by simp [render]

/-- Writes the encoding into a buffer of `capacity` bytes: the whole of it, or as an error the
part that fits. -/
def encodeWithin (v : Value) (capacity : Nat) : Except (List UInt8) (List UInt8) :=
  let bytes := v.encode
  if bytes.length ≤ capacity then .ok bytes else .error (bytes.take capacity)

end Value

end Sexp
