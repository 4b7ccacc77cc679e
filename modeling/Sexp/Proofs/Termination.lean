import Sexp.Proofs.Depth
import Sexp.Shell.Evaluate

/-!
# Termination in the shell

Evaluation in the shell comes to exactly one outcome, for every value, and a depth of as many
levels as the value has nodes is enough for it. A result never has more nodes than the value. This
rests on what the shell binds: the form that evaluates once more can keep an evaluation going
forever in a scope where a symbol is bound to a call of that form.
-/

namespace Sexp.Shell

theorem outcome_of_nodes_le (v : Value) {depth : Nat} (h : v.nodes ≤ depth) :
    ((environment depth).eval v).outcome () = some (evaluate v, ()) := by
  obtain ⟨r, hr, -⟩ := settles_eval v.nodes v (Nat.le_refl _)
  have he : evaluate v = r := by simp [evaluate, hr]
  rw [he]
  exact scope.policy_monotone.outcome_of_le h hr

theorem evaluates_iff (v : Value) (o : Except EvalError Value × Unit) :
    scope.policy.Evaluates () v o ↔ o = (evaluate v, ()) := by
  have hv : scope.policy.Evaluates () v (evaluate v, ()) :=
    ⟨v.nodes, outcome_of_nodes_le v (Nat.le_refl _)⟩
  constructor
  · intro ho
    exact scope.policy_monotone.evaluates_unique ho hv
  · intro ho
    rw [ho]
    exact hv

/-- Every evaluation in the shell ends, at every depth from the number of nodes on, in the one
outcome that it has at all; and its result is no larger than what was evaluated. -/
theorem evaluation_terminates (v : Value) :
    (∀ depth, v.nodes ≤ depth →
      ((environment depth).eval v).outcome () = some (evaluate v, ())) ∧
    (∀ o, scope.policy.Evaluates () v o ↔ o = (evaluate v, ())) ∧
    ∀ r, evaluate v = .ok r → r.nodes ≤ v.nodes := by
  refine ⟨?_, ?_, ?_⟩
  · intro depth h
    exact outcome_of_nodes_le v h
  · intro o
    exact evaluates_iff v o
  · intro r h
    exact nodes_le_of_evaluate h

end Sexp.Shell

namespace Sexp

theorem Environment.evalCallOrElements_symbol {σ : Type} (env : Environment σ) (s : Symbol)
    (args : List Value) :
    env.evalCallOrElements (.symbol s :: args) = (do
      let f ← env.lookupForm s
      let received ← env.arguments f args
      env.call f received) := by
  simp only [evalCallOrElements, evalCall, bind_assoc, pure_bind, bind_pure]

namespace Scope

variable {scope : Scope} {e s : Symbol} {v : Value}

theorem eval_evalForm (he : scope.lookup e = some (.form Shell.evalForm))
    (hs : scope.lookup s = some v) (n : Nat) :
    ((scope.policy : Policy Unit).environment (n + 1)).eval (.list [.symbol e, .symbol s]) =
      ((scope.policy : Policy Unit).environment n).invoke Shell.evalForm [v] := by
  have hf : (scope.policy : Policy Unit).lookupForm e = pure Shell.evalForm := by
    simp only [policy, lookupForm, he]
    rfl
  have ha : ((scope.policy : Policy Unit).environment n).arguments Shell.evalForm [.symbol s] =
      pure [v] := by
    simp only [Environment.arguments, Shell.evalForm, Form.special, Environment.evalAll,
      Environment.eval, Policy.evalSymbol_environment, policy, hs, Option.getD_some, pure_bind,
      Bool.false_eq_true, if_false]
  rw [Environment.eval, Policy.evalList_environment_succ]
  show ((scope.policy : Policy Unit).environment n).evalCallOrElements _ = _
  rw [Environment.evalCallOrElements_symbol, Policy.lookupForm_environment, hf, pure_bind, ha,
    pure_bind]
  rfl

theorem not_evaluates_of_loop (he : scope.lookup e = some (.form Shell.evalForm))
    (hs : scope.lookup s = some (.list [.symbol e, .symbol s]))
    (o : Except EvalError Value × Unit) :
    ¬scope.policy.Evaluates () (.list [.symbol e, .symbol s]) o := by
  have hloop (n : Nat) : ((scope.policy.environment n).eval
      (.list [.symbol e, .symbol s])).outcome () = none := by
    induction n using Nat.strongRecOn with
    | ind n ih =>
      match n with
      | 0 => rfl
      | 1 =>
        rw [eval_evalForm he hs]
        rfl
      | n + 2 =>
        rw [eval_evalForm he hs, Policy.invoke_environment_succ]
        exact ih n (by omega)
  intro ho
  obtain ⟨depth, hd⟩ := ho
  rw [hloop depth] at hd
  simp at hd

example :
    let scope := (Scope.root.register Shell.evalForm).bind ⟨"X"⟩
      (.list [.symbol ⟨"EVAL"⟩, .symbol ⟨"X"⟩])
    scope.lookup ⟨"EVAL"⟩ = some (.form Shell.evalForm) ∧
      scope.lookup ⟨"X"⟩ = some (.list [.symbol ⟨"EVAL"⟩, .symbol ⟨"X"⟩]) := by
  constructor
  · rfl
  · rfl

end Scope

end Sexp
