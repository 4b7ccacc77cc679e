import Sexp.Value.Basic

/-!
# Tokens

Between its quotes a string literal is a sequence of items: characters that stand for themselves, a
backslash with a character, and codes in hexadecimal. A code has a fixed number of digits; with
fewer it is no code, and the letter and the digits stand for themselves.

Expressions are separated by layout: blanks, and comments from a semicolon through the end of the
line. Only four characters are blanks; every other character that looks like one belongs to the
names around it. A text without leading layout is at its end, or starts with a token, or with a
literal that does not end. A token is the longest piece of its kind, and it spells exactly the
characters that it was made from.

Tokens become values by way of the lists that are still open, the innermost first, each with the
elements it has so far in reverse. A token opens a list, closes one, or adds a value to the
innermost one; with no list open a value is complete.
-/

namespace Sexp.Literal

def hexDigit? (c : Char) : Option Nat :=
  if '0' ≤ c ∧ c ≤ '9' then some (c.toNat - '0'.toNat)
  else if 'a' ≤ c ∧ c ≤ 'f' then some (c.toNat - 'a'.toNat + 10)
  else if 'A' ≤ c ∧ c ≤ 'F' then some (c.toNat - 'A'.toNat + 10)
  else none

def isHexDigit (c : Char) : Bool := (hexDigit? c).isSome

def hexValue (digits : List Char) : Nat :=
  digits.foldl (fun n c => 16 * n + (hexDigit? c).getD 0) 0

/-- The character with this code. Surrogates and codes that are too large have none and give the
replacement character. -/
def scalar (code : Nat) : Char :=
  if code.isValidChar then Char.ofNat code else Text.Utf8.replacement

inductive CodeForm where
  | short
  | medium
  | long
  deriving DecidableEq

namespace CodeForm

def letter : CodeForm → Char
  | short => 'x'
  | medium => 'u'
  | long => 'U'

def width : CodeForm → Nat
  | short => 2
  | medium => 4
  | long => 6

def ofLetter? (c : Char) : Option CodeForm :=
  if c = 'x' then some short else if c = 'u' then some medium else if c = 'U' then some long
  else none

theorem ofLetter?_eq_some_iff (c : Char) (f : CodeForm) : ofLetter? c = some f ↔ c = f.letter := by
  cases f <;> grind [ofLetter?, letter]

end CodeForm

inductive Item where
  | plain (c : Char)
  | escape (c : Char)
  | code (form : CodeForm) (digits : List Char)

namespace Item

def spelling : Item → List Char
  | plain c => [c]
  | escape c => ['\\', c]
  | code form digits => '\\' :: form.letter :: digits

def escaped (c : Char) : Char :=
  if c = 't' then '\t' else if c = 'r' then '\r' else if c = 'n' then '\n' else c

def denotes : Item → List Char
  | plain c => [c]
  | escape c => [escaped c]
  | code form digits =>
    if digits.length = form.width then [scalar (hexValue digits)] else form.letter :: digits

end Item

/-- Splits the characters between the quotes into items, taking as many digits for a code as there
are, up to its width. -/
def items : List Char → List Item
  | [] => []
  | '\\' :: c :: cs =>
    match CodeForm.ofLetter? c with
    | none => .escape c :: items cs
    | some form =>
      let digits := (cs.take form.width).takeWhile isHexDigit
      .code form digits :: items (cs.drop digits.length)
  | c :: cs => .plain c :: items cs
termination_by cs => cs.length
decreasing_by all_goals simp <;> omega

def decode (body : List Char) : List Char := (items body).flatMap Item.denotes

/-- The characters up to the quote that ends the literal. A quote after a backslash does not. -/
def body? : List Char → Option (List Char)
  | [] => none
  | ['\\'] => none
  | '"' :: _ => some []
  | '\\' :: c :: cs => (body? cs).map ('\\' :: c :: ·)
  | c :: cs => (body? cs).map (c :: ·)

theorem eq_append_of_body? {cs body : List Char} (h : body? cs = some body) :
    ∃ rest, cs = body ++ '"' :: rest := by
  fun_induction body? generalizing body with
  | case1 => simp at h
  | case2 => simp at h
  | case3 cs => exact ⟨cs, by simp_all⟩
  | case4 c cs ih =>
    obtain ⟨b, hb, rfl⟩ := Option.map_eq_some_iff.1 h
    obtain ⟨rest, rfl⟩ := ih hb
    exact ⟨rest, by simp⟩
  | case5 c cs _ _ _ ih =>
    obtain ⟨b, hb, rfl⟩ := Option.map_eq_some_iff.1 h
    obtain ⟨rest, rfl⟩ := ih hb
    exact ⟨rest, by simp⟩

end Sexp.Literal

namespace Sexp.Source

def isBlank (c : Char) : Bool := c == ' ' || c == '\t' || c == '\n' || c == '\r'

def isDelimiter (c : Char) : Bool := isBlank c || c == '(' || c == ')' || c == '"' || c == ';'

/-- The number of characters of layout at the head of a text, which starts within a comment or
outside. -/
def layoutWidth : (comment : Bool) → List Char → Nat
  | _, [] => 0
  | true, c :: cs => layoutWidth (c != '\n') cs + 1
  | false, c :: cs =>
    if isBlank c then layoutWidth false cs + 1
    else if c = ';' then layoutWidth true cs + 1
    else 0

theorem layoutWidth_le (comment : Bool) (cs : List Char) :
    layoutWidth comment cs ≤ cs.length := by
  fun_induction layoutWidth <;> simp <;> omega

inductive Token where
  | opening
  | closing
  | atom (run : List Char)
  | literal (body : List Char)

def Token.spelling : Token → List Char
  | opening => ['(']
  | closing => [')']
  | atom run => run
  | literal body => '"' :: (body ++ ['"'])

def Token.width (t : Token) : Nat := t.spelling.length

inductive Scan where
  | finished
  | token (t : Token)
  | unterminated

def scan : List Char → Scan
  | [] => .finished
  | '(' :: _ => .token .opening
  | ')' :: _ => .token .closing
  | '"' :: cs =>
    match Literal.body? cs with
    | none => .unterminated
    | some body => .token (.literal body)
  | c :: cs => .token (.atom (c :: cs.takeWhile (!isDelimiter ·)))

@[simp] theorem scan_nil : scan [] = .finished := rfl

theorem eq_append_of_scan {cs : List Char} {t : Token} (h : scan cs = .token t) :
    t.spelling ≠ [] ∧ ∃ rest, cs = t.spelling ++ rest := by
  fun_cases scan cs with
  | case1 => simp at h
  | case2 cs => simp only [scan, Scan.token.injEq] at h; subst h; simp [Token.spelling]
  | case3 cs => simp only [scan, Scan.token.injEq] at h; subst h; simp [Token.spelling]
  | case4 cs hb => simp [scan, hb] at h
  | case5 cs body hb =>
    obtain ⟨rest, hrest⟩ := Literal.eq_append_of_body? hb
    simp only [scan, hb, Scan.token.injEq] at h
    subst h
    exact ⟨by simp [Token.spelling], rest, by simp [Token.spelling, hrest]⟩
  | case6 c cs h1 h2 h3 =>
    rw [scan.eq_5 c cs h1 h2 h3, Scan.token.injEq] at h
    subst h
    exact ⟨by simp [Token.spelling], cs.dropWhile (!isDelimiter ·), by simp [Token.spelling]⟩

theorem width_pos_of_scan {cs : List Char} {t : Token} (h : scan cs = .token t) : 0 < t.width :=
  List.length_pos_iff.mpr (eq_append_of_scan h).1

theorem width_le_of_scan {cs : List Char} {t : Token} (h : scan cs = .token t) :
    t.width ≤ cs.length := by
  obtain ⟨-, rest, rfl⟩ := eq_append_of_scan h
  simp [Token.width]

abbrev Nesting := List (List Value)

inductive Progress where
  | complete (v : Value)
  | pending (lists : Nesting)
  | unmatched

namespace Nesting

def add (v : Value) : Nesting → Progress
  | [] => .complete v
  | elements :: lists => .pending ((v :: elements) :: lists)

def close : Nesting → Progress
  | [] => .unmatched
  | elements :: lists => add (.list elements.reverse) lists

def accept (lists : Nesting) : Token → Progress
  | .opening => .pending ([] :: lists)
  | .closing => lists.close
  | .atom run => lists.add (.symbol (Symbol.ofText (String.ofList run)))
  | .literal body => lists.add (.string (String.ofList (Literal.decode body)))

end Nesting

end Sexp.Source
