import Sexp.Text.Characters

/-!
# Values

The data that is read, printed and evaluated: symbols, strings, lists of values, and forms.

A symbol is its name. Symbols made from text have upper-case names, so that two texts give the
same symbol exactly when their upper-case forms agree.

A form is what a call names. A special form receives its arguments as they are written, any other
form receives their values. Built-in forms have an arity and one of the primitive operations as
their body; of the two bounds of an arity the lower one is checked first, so a count that breaks
both is too small. Foreign forms belong to somebody else: nothing is known of them but their name,
and each is equal only to itself, which is what the serial number is for.
-/

namespace Sexp

structure Symbol where
  name : String
  deriving DecidableEq

def Symbol.ofText (text : String) : Symbol := ⟨Text.upper text⟩

theorem Symbol.ofText_eq_iff (a b : String) :
    Symbol.ofText a = Symbol.ofText b ↔ Text.upper a = Text.upper b := by
  simp [Symbol.ofText]

structure Arity where
  least : Nat
  most : Option Nat
  deriving DecidableEq

inductive Violation where
  | tooFew (least : Nat)
  | tooMany (most : Nat)
  deriving DecidableEq

def Violation.limit : Violation → Nat
  | .tooFew least => least
  | .tooMany most => most

namespace Arity

def exactly (n : Nat) : Arity := ⟨n, some n⟩

def atLeast (n : Nat) : Arity := ⟨n, none⟩

/-- An upper bound below the lower one means that there is none. -/
def between (least most : Nat) : Arity := ⟨least, if least ≤ most then some most else none⟩

def violation? (a : Arity) (got : Nat) : Option Violation :=
  if got < a.least then some (.tooFew a.least)
  else
    match a.most with
    | none => none
    | some most => if most < got then some (.tooMany most) else none

theorem violation?_eq_none_iff (a : Arity) (got : Nat) :
    a.violation? got = none ↔ a.least ≤ got ∧ ∀ most, a.most = some most → got ≤ most := by
  by_cases h : got < a.least
  · simp [violation?, h, Nat.not_le.mpr h]
  · cases hm : a.most with
    | none => simp [violation?, h, hm, Nat.le_of_not_lt h]
    | some most => simp [violation?, h, hm, Nat.le_of_not_lt h]

end Arity

inductive Primitive where
  | list
  | concat
  | render
  | evaluate
  | argument
  | fail
  | first
  | rest
  | kind
  | compare
  | choose
  | form
  | apply
  | read
  | evaluateEach
  | tryCall
  | recover
  deriving DecidableEq

inductive Form where
  | builtin (name : String) (special : Bool) (arity : Arity) (body : Primitive)
  | foreign (name : String) (special : Bool) (serial : Nat)

namespace Form

def name : Form → String
  | builtin name _ _ _ => name
  | foreign name _ _ => name

def special : Form → Bool
  | builtin _ special _ _ => special
  | foreign _ special _ => special

def arity? : Form → Option Arity
  | builtin _ _ arity _ => some arity
  | foreign _ _ _ => none

/-- Built-in forms are the same if their names are; a foreign form is the same as itself only. -/
def same : Form → Form → Bool
  | builtin a _ _ _, builtin b _ _ _ => a == b
  | foreign a s i, foreign b t j => a == b && s == t && i == j
  | _, _ => false

theorem same_refl (f : Form) : f.same f = true := by
  cases f <;> simp [same]

end Form

inductive Value where
  | symbol (s : Symbol)
  | string (text : String)
  | list (elements : List Value)
  | form (f : Form)

inductive Kind where
  | symbol
  | string
  | list
  | form
  deriving DecidableEq

def Kind.name : Kind → String
  | symbol => "symbol"
  | string => "string"
  | list => "list"
  | form => "form"

namespace Value

instance : Inhabited Value := ⟨list []⟩

def kind : Value → Kind
  | symbol _ => .symbol
  | string _ => .string
  | list _ => .list
  | form _ => .form

def symbol? : Value → Option Symbol
  | symbol s => some s
  | _ => none

def string? : Value → Option String
  | string text => some text
  | _ => none

def list? : Value → Option (List Value)
  | list elements => some elements
  | _ => none

def form? : Value → Option Form
  | form f => some f
  | _ => none

mutual
def nodes : Value → Nat
  | symbol _ => 1
  | string _ => 1
  | list elements => 1 + nodesAll elements
  | form _ => 1

def nodesAll : List Value → Nat
  | [] => 0
  | v :: vs => v.nodes + nodesAll vs
end

theorem nodes_le_of_mem {v : Value} {vs : List Value} (h : v ∈ vs) : v.nodes ≤ nodesAll vs := by
  induction vs with
  | nil => simp at h
  | cons w vs ih =>
    rcases List.mem_cons.mp h with rfl | h
    · simp [nodesAll]
    · have := ih h
      simp only [nodesAll]
      omega

end Value

end Sexp
