import Sexp.Value.Basic

/-!
# Inspection

A second text of a value, for people who look for mistakes: it names every constructor and shows
the properties of forms. It cannot be read back. How deep a value is nested at its head is told by
numbers.
-/

namespace Sexp

namespace Inspect

def braced (fields : String) : String := "\x7b " ++ fields ++ " \x7d"

def hexDigits (n : Nat) : String := String.ofList (Nat.toDigits 16 n)

def escape (c : Char) : String :=
  if c = '"' then "\\\""
  else if c = '\\' then "\\\\"
  else if c = '\n' then "\\n"
  else if c = '\t' then "\\t"
  else if c = '\r' then "\\r"
  else if c = '\x00' then "\\0"
  else if c.toNat < 0x20 ∨ c.toNat = 0x7F then "\\u\x7b" ++ hexDigits c.toNat ++ "\x7d"
  else String.singleton c

def quoted (text : String) : String := "\"" ++ String.join (text.toList.map escape) ++ "\""

def flag (b : Bool) : String := if b then "true" else "false"

end Inspect

open Inspect

def Arity.inspect (a : Arity) : String :=
  let most := match a.most with
    | none => "None"
    | some n => "Some(" ++ toString n ++ ")"
  "Arity " ++ braced ("min: " ++ toString a.least ++ ", max: " ++ most)

def Form.inspect : Form → String
  | builtin name special arity _ =>
    "Builtin " ++ braced ("name: " ++ quoted name ++ ", arity: " ++ arity.inspect ++
      ", special: " ++ flag special ++ ", ..")
  | foreign name special _ =>
    "Custom " ++ braced ("name: " ++ quoted name ++ ", special: " ++ flag special)

mutual
def Value.inspect : Value → String
  | .symbol s => "Symbol(Symbol(" ++ s.name ++ "))"
  | .string text => "String(" ++ quoted text ++ ")"
  | .list elements =>
    "List(List " ++ braced ("elements: [" ++ ", ".intercalate (inspectAll elements) ++ "]") ++ ")"
  | .form f => "Form(" ++ f.inspect ++ ")"

def Value.inspectAll : List Value → List String
  | [] => []
  | v :: vs => v.inspect :: inspectAll vs
end

/-- Follows the first elements from list to list, as long as there are any: the number of lists
on the way, the sum of their lengths, and the value at the end. -/
def Value.descend : Value → Nat × Nat × Value
  | list (v :: vs) =>
    let (depth, count, last) := v.descend
    (depth + 1, count + (vs.length + 1), last)
  | list [] => (1, 0, list [])
  | v => (0, 0, v)

end Sexp
