import Sexp.Eval.Environment
import Sexp.Scope.Workspace
import Sexp.Value.Equality

/-!
# Policies

The bodies of forms are primitive operations, which ask an environment for everything that depends
on it. A policy is an environment whose way with lists still needs an environment for what is
inside them. From it environments of every depth are made: at each depth, lists and the bodies of
forms are evaluated in the environment of the next smaller one. Depth only matters for whether
there is an outcome.

The usual policy has a scope. Symbols stand for what they are bound to, or for themselves. A list is
a call if its head is a symbol, and otherwise its elements are evaluated.
-/

namespace Sexp

open Arguments

variable {σ : Type}

def Primitive.run (env : Environment σ) (args : List Value) : Primitive → Eval σ Value
  | list => pure (.list args)
  | concat => do
    let text ← joined 0 args
    pure (.string text)
  | render => pure (.string (String.join (args.map Value.render)))
  | evaluate => do env.eval (← Arguments.get args 0)
  | argument => do Arguments.get args 0
  | fail => do
    let s ← symbolAt args 0
    throw (.host s.name)
  | first => do
    let elements ← listAt args 0
    pure (elements.head?.getD (.list []))
  | rest => do
    let elements ← listAt args 0
    pure (.list elements.tail)
  | kind => do
    let v ← Arguments.get args 0
    pure (.string v.kind.name)
  | compare => do
    let a ← Arguments.get args 0
    let b ← Arguments.get args 1
    pure (if a == b then .symbol ⟨"T"⟩ else .list [])
  | choose => do
    let condition ← env.eval (← Arguments.get args 0)
    let branch := match condition with
      | .list [] => args[2]?
      | _ => args[1]?
    match branch with
    | some v => env.eval v
    | none => pure condition
  | form => do
    let f ← env.lookupForm (← symbolAt args 0)
    pure (.form f)
  | apply => do
    let elements ← listAt args 1
    match args.head? with
    | some (.form f) => env.call f elements
    | _ =>
      let f ← env.lookupForm (← symbolAt args 0)
      env.call f elements
  | read => do
    let text ← textAt args 0
    match readText text with
    | .ok v => pure v
    | .error e => throw (.read e)
  | evaluateEach => do
    let results ← env.evalAll (← listAt args 0)
    pure (.list results)
  | tryCall => do
    let result ← env.evalCall (← listAt args 0)
    pure (result.getD (.symbol ⟨"NOT-A-CALL"⟩))
  | recover => do
    let v ← Arguments.get args 0
    match ← (env.eval v).attempt with
    | .ok result => pure result
    | .error e => pure (.string e.message)

def Form.run (env : Environment σ) (args : List Value) : Form → Eval σ Value
  | builtin _ _ _ body => body.run env args
  | foreign name _ _ => pure (.list (.symbol (Symbol.ofText name) :: args))

structure Policy (σ : Type) where
  lookupForm : Symbol → Eval σ Form
  evalString : String → Eval σ Value
  evalSymbol : Symbol → Eval σ Value
  evalList : Environment σ → List Value → Eval σ Value

/-- The environments of a policy, with something done around the body of each form that is carried
out. -/
def Policy.environmentWith (p : Policy σ)
    (around : Form → List Value → Eval σ Value → Eval σ Value) : (depth : Nat) → Environment σ
  | 0 => ⟨p.lookupForm, p.evalString, p.evalSymbol, fun _ => .unfinished, fun _ _ => .unfinished⟩
  | depth + 1 =>
    ⟨p.lookupForm, p.evalString, p.evalSymbol,
     fun elements => p.evalList (p.environmentWith around depth) elements,
     fun f args => around f args (f.run (p.environmentWith around depth) args)⟩

def Policy.environment (p : Policy σ) (depth : Nat) : Environment σ :=
  p.environmentWith (fun _ _ body => body) depth

section Environment

variable (p : Policy σ) (around : Form → List Value → Eval σ Value → Eval σ Value) (depth : Nat)

@[simp] theorem Policy.lookupForm_environmentWith :
    (p.environmentWith around depth).lookupForm = p.lookupForm := by
  cases depth <;> rfl

@[simp] theorem Policy.evalString_environmentWith :
    (p.environmentWith around depth).evalString = p.evalString := by
  cases depth <;> rfl

@[simp] theorem Policy.evalSymbol_environmentWith :
    (p.environmentWith around depth).evalSymbol = p.evalSymbol := by
  cases depth <;> rfl

end Environment

namespace Scope

variable (scope : Scope)

def lookupForm (s : Symbol) : Except EvalError Form :=
  match scope.lookup s with
  | some (.form f) => .ok f
  | some v => .error (.notAForm s v)
  | none => .error (.unboundForm s)

def policy : Policy σ where
  lookupForm s := scope.lookupForm s
  evalString text := pure (.string text)
  evalSymbol s := pure ((scope.lookup s).getD (.symbol s))
  evalList env elements := env.evalCallOrElements elements

def strictPolicy : Policy σ where
  lookupForm s := scope.lookupForm s
  evalString text := pure (.string text)
  evalSymbol s :=
    match scope.lookup s with
    | some v => pure v
    | none => throw (.host ("unbound symbol " ++ s.name))
  evalList env elements := do
    match ← env.evalCall elements with
    | some result => pure result
    | none => throw (.host ("not a call: " ++ (Value.list elements).render))

end Scope

inductive Note where
  | form (s : Symbol)
  | string (text : String)
  | symbol (s : Symbol)
  | list (elements : List Value)

def Note.text : Note → String
  | form s => "form " ++ s.name
  | string text => "string " ++ text
  | symbol s => "symbol " ++ s.name
  | list elements => "list " ++ (Value.list elements).render

def Note.record (n : Note) : Eval (List Note) Unit := modify (n :: ·)

def Policy.observed (p : Policy (List Note)) : Policy (List Note) where
  lookupForm s := do Note.record (.form s); p.lookupForm s
  evalString text := do Note.record (.string text); p.evalString text
  evalSymbol s := do Note.record (.symbol s); p.evalSymbol s
  evalList env elements := do Note.record (.list elements); p.evalList env elements

end Sexp
