import Sexp.Source.Reader
import Sexp.Value.Printer

/-!
# Environments

An environment gives symbols, strings and lists their meaning and carries out forms. It may have a
state, which an error leaves as it is at that moment. Evaluation itself only looks at the kind of
a value: forms stand for themselves and all else is up to the environment.

Calls follow one protocol in every environment. The head of the list names the form, the arguments
of a form that is not special are evaluated from left to right, and only then are they counted. A
form gets at its arguments by index and kind; a symbol may stand where a text is wanted and gives
its name.
-/

namespace Sexp

inductive EvalError where
  | read (e : ReadError)
  | unboundForm (s : Symbol)
  | notAForm (s : Symbol) (v : Value)
  | arity (form : String) (got : Nat) (violation : Violation)
  | host (message : String)
  | wrongType (expected : Kind) (index : Nat) (v : Value)
  | indexOutOfBounds (index count : Nat)

namespace EvalError

def message : EvalError → String
  | read e => e.message
  | unboundForm s => "unbound form symbol " ++ s.name
  | notAForm s v => "symbol " ++ s.name ++ " is bound to " ++ v.render ++ ", which is not a form"
  | arity form got violation =>
    (match violation with
      | .tooFew _ => "not enough"
      | .tooMany _ => "too many") ++
    " arguments (" ++ toString got ++ ") for form " ++ form ++
    " (" ++ toString violation.limit ++ ")"
  | host message => message
  | wrongType expected index v =>
    v.render ++ " / " ++ toString index ++ " is not a " ++ expected.name
  | indexOutOfBounds index count =>
    "index " ++ toString index ++ " out of bounds for " ++ toString count ++ " arguments"

def isArity : EvalError → Bool
  | arity _ _ _ => true
  | _ => false

end EvalError

namespace Value

def asSymbol (index : Nat) : Value → Except EvalError Symbol
  | symbol s => .ok s
  | v => .error (.wrongType .symbol index v)

def asText (index : Nat) : Value → Except EvalError String
  | string text => .ok text
  | symbol s => .ok s.name
  | v => .error (.wrongType .string index v)

def asList (index : Nat) : Value → Except EvalError (List Value)
  | list elements => .ok elements
  | v => .error (.wrongType .list index v)

end Value

namespace Arguments

def get (args : List Value) (index : Nat) : Except EvalError Value :=
  match args[index]? with
  | some v => .ok v
  | none => .error (.indexOutOfBounds index args.length)

def symbolAt (args : List Value) (index : Nat) : Except EvalError Symbol := do
  (← Arguments.get args index).asSymbol index

def textAt (args : List Value) (index : Nat) : Except EvalError String := do
  (← Arguments.get args index).asText index

def listAt (args : List Value) (index : Nat) : Except EvalError (List Value) := do
  (← Arguments.get args index).asList index

def joined (index : Nat) : List Value → Except EvalError String
  | [] => .ok ""
  | v :: vs => do
    let text ← v.asText index
    let texts ← joined (index + 1) vs
    return text ++ texts

end Arguments

/-- Evaluations with a state. There is no outcome at all if the permitted depth does not suffice;
this is not an error that an evaluation could notice. -/
abbrev Eval (σ : Type) := ExceptT EvalError (StateT σ Option)

namespace Eval

variable {σ α β : Type}

def outcome (x : Eval σ α) (state : σ) : Option (Except EvalError α × σ) := x.run.run state

def unfinished : Eval σ α := ExceptT.mk (StateT.mk fun _ => none)

def attempt (x : Eval σ α) : Eval σ (Except EvalError α) := ExceptT.mk (Except.ok <$> x.run)

@[simp] theorem outcome_throw (e : EvalError) (state : σ) :
    (throw e : Eval σ α).outcome state = some (.error e, state) := rfl

@[simp] theorem outcome_unfinished (state : σ) :
    (unfinished : Eval σ α).outcome state = none := rfl

theorem outcome_bind (x : Eval σ α) (f : α → Eval σ β) (state : σ) :
    (x >>= f).outcome state =
      match x.outcome state with
      | none => none
      | some (.ok a, state) => (f a).outcome state
      | some (.error e, state) => some (.error e, state) := by
  simp only [outcome, ExceptT.run_bind, StateT.run_bind]
  cases x.run.run state with
  | none => rfl
  | some p => rcases p with ⟨_ | _, _⟩ <;> rfl

theorem outcome_attempt (x : Eval σ α) (state : σ) :
    (attempt x).outcome state = (x.outcome state).map fun (r, state) => (.ok r, state) := by
  simp only [outcome, attempt, ExceptT.run_mk, StateT.run_map]
  cases x.run.run state <;> rfl

end Eval

structure Environment (σ : Type) where
  lookupForm : Symbol → Eval σ Form
  evalString : String → Eval σ Value
  evalSymbol : Symbol → Eval σ Value
  evalList : List Value → Eval σ Value
  /-- Carries out a form, whatever the number of arguments. -/
  invoke : Form → List Value → Eval σ Value

namespace Environment

variable {σ : Type} (env : Environment σ)

def eval : Value → Eval σ Value
  | .symbol s => env.evalSymbol s
  | .string text => env.evalString text
  | .list elements => env.evalList elements
  | .form f => pure (.form f)

def evalAll : List Value → Eval σ (List Value)
  | [] => pure []
  | v :: vs => do
    let first ← env.eval v
    let others ← evalAll vs
    pure (first :: others)

def call (f : Form) (args : List Value) : Eval σ Value :=
  match f.arity?.bind (·.violation? args.length) with
  | some violation => throw (.arity f.name args.length violation)
  | none => env.invoke f args

def arguments (f : Form) (args : List Value) : Eval σ (List Value) :=
  if f.special then pure args else env.evalAll args

def evalCall : List Value → Eval σ (Option Value)
  | .symbol s :: args => do
    let f ← env.lookupForm s
    let received ← env.arguments f args
    let result ← env.call f received
    pure (some result)
  | _ => pure none

def evalCallOrElements (elements : List Value) : Eval σ Value := do
  match ← env.evalCall elements with
  | some result => pure result
  | none =>
    let results ← env.evalAll elements
    pure (.list results)

end Environment

end Sexp
