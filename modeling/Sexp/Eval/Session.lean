import Sexp.Eval.Policy

/-!
# Sessions

A session evaluates in a scope that can be extended and nested between evaluations. It can be
observed, and then each evaluation comes with its notes.
-/

namespace Sexp

def standardForms : List Form :=
  [.builtin "QUOTE" true (.atLeast 0) .list,
   .builtin "LIST" false (.atLeast 0) .list,
   .builtin "CAT" false (.atLeast 0) .concat,
   .builtin "SHOW" false (.atLeast 0) .render,
   .builtin "EVAL" false (.exactly 1) .evaluate,
   .builtin "ONE" false (.exactly 1) .argument,
   .builtin "FAIL" true (.exactly 1) .fail,
   .builtin "FIRST" false (.exactly 1) .first,
   .builtin "REST" false (.exactly 1) .rest,
   .builtin "KIND" false (.exactly 1) .kind,
   .builtin "SAME" false (.exactly 2) .compare,
   .builtin "IF" true (.between 2 3) .choose,
   .builtin "FORM" true (.exactly 1) .form,
   .builtin "APPLY" false (.exactly 2) .apply,
   .builtin "READ" false (.exactly 1) .read,
   .builtin "EACH" false (.exactly 1) .evaluateEach,
   .builtin "TRYCALL" false (.exactly 1) .tryCall,
   .builtin "CATCH" true (.exactly 1) .recover]

inductive Session.Mode where
  | plain
  | observed
  | strict
  deriving DecidableEq

structure Session where
  mode : Session.Mode
  scope : Scope

namespace Session

def start (mode : Mode) : Session := ⟨mode, .root⟩

def policy (session : Session) : Policy (List Note) :=
  match session.mode with
  | .plain => session.scope.policy
  | .observed => session.scope.policy.observed
  | .strict => session.scope.strictPolicy.observed

/-- Deeper than any machine can follow. -/
def depth : Nat := 1000000

def perform {α : Type} (session : Session)
    (task : Environment (List Note) → Eval (List Note) α) :
    Option (Except EvalError α × List Note) :=
  ((task (session.policy.environment depth)).outcome []).map fun (r, notes) => (r, notes.reverse)

def enter (session : Session) : Session := { session with scope := session.scope.inside }

def leave (session : Session) : Session :=
  { session with scope := session.scope.parent?.getD session.scope }

def bind (session : Session) (s : Symbol) (v : Value) : Session :=
  { session with scope := session.scope.bind s v }

def register (session : Session) (forms : List Form) : Session :=
  { session with scope := session.scope.registerAll forms }

end Session

namespace Environment

variable {σ : Type} (env : Environment σ)

def evalItems : List (Except ReadError Value) → Eval σ (List (Except EvalError Value))
  | [] => pure []
  | item :: items => do
    let first ← match item with
      | .ok v => (env.eval v).attempt
      | .error e => pure (.error (.read e))
    let others ← evalItems items
    pure (first :: others)

end Environment

end Sexp
