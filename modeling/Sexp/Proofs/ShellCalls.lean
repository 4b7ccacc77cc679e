import Mathlib.Logic.Function.Iterate
import Sexp.Proofs.Failures

/-!
# Calls in the shell

Since every evaluation in the shell ends, a call there has its result by an equation: the form
receives its arguments as they are written, or the results of evaluating them, and a call of it is
made. Depth no longer plays a part. For the forms that quote and that evaluate once more this gives
two laws. A quoted list is its elements, and evaluating a value once more evaluates its result.

So each evaluation takes away one quotation, and evaluating as often as a list was quoted comes
down to evaluating the list. Whether the list is a call at all, and how it would end, plays no part
until all quotations are gone.
-/

namespace Sexp.Shell

theorem outcome_evalAll_of_nodesAll_le {vs : List Value} {depth : Nat}
    (h : Value.nodesAll vs ≤ depth) :
    ((environment depth).evalAll vs).outcome () = some (vs.mapM evaluate, ()) := by
  induction vs with
  | nil => rfl
  | cons v vs ih =>
    rw [Value.nodesAll] at h
    have hv := outcome_of_nodes_le v (show v.nodes ≤ depth by omega)
    have hvs := ih (by omega)
    rw [List.mapM_cons, Environment.evalAll]
    cases hr : evaluate v with
    | error e =>
      rw [hr] at hv
      exact Eval.outcome_bind_of_error hv
    | ok w =>
      rw [hr] at hv
      rw [Eval.outcome_bind_of_ok hv]
      cases hrs : vs.mapM evaluate with
      | error e =>
        rw [hrs] at hvs
        exact Eval.outcome_bind_of_error hvs
      | ok ws =>
        rw [hrs] at hvs
        rw [Eval.outcome_bind_of_ok hvs]
        rfl

def received (f : Form) (args : List Value) : Except EvalError (List Value) :=
  if f.special then .ok args else args.mapM evaluate

theorem outcome_arguments_of_nodesAll_le (f : Form) {args : List Value} {depth : Nat}
    (h : Value.nodesAll args ≤ depth) :
    ((environment depth).arguments f args).outcome () = some (received f args, ()) := by
  unfold Environment.arguments received
  split
  · rfl
  · exact outcome_evalAll_of_nodesAll_le h

section Calls

variable {s : Symbol} {f : Form} {args : List Value}

theorem outcome_call (hs : scope.lookup s = some (.form f)) {depth : Nat}
    (h : Value.nodesAll args < depth) :
    ((environment depth).arguments f args >>= (environment depth).call f).outcome () =
      some (evaluate (.list (.symbol s :: args)), ()) := by
  have hnodes : (Value.list (.symbol s :: args)).nodes ≤ depth + 1 := by
    simp only [Value.nodes, Value.nodesAll]
    omega
  have hlookup : (environment depth).lookupForm s = pure f := by
    rw [environment, Policy.lookupForm_environment]
    simp only [Scope.policy, Scope.lookupForm, hs]
    rfl
  rw [← outcome_of_nodes_le _ hnodes]
  show _ = ((environment depth).evalCallOrElements (.symbol s :: args)).outcome ()
  rw [Environment.evalCallOrElements_symbol, hlookup, pure_bind]

theorem evaluate_call_of_error {e : EvalError} (hs : scope.lookup s = some (.form f))
    (hr : received f args = .error e) : evaluate (.list (.symbol s :: args)) = .error e := by
  have hcall := outcome_call hs (Nat.lt_succ_self (Value.nodesAll args))
  have hargs := outcome_arguments_of_nodesAll_le f (Nat.le_succ (Value.nodesAll args))
  rw [hr] at hargs
  rw [Eval.outcome_bind_of_error hargs] at hcall
  exact (congrArg Prod.fst (Option.some.inj hcall)).symm

theorem evaluate_call_of_run {values : List Value} {r : Except EvalError Value}
    (hs : scope.lookup s = some (.form f)) (hr : received f args = .ok values)
    (ha : f.Accepts values.length)
    (hrun : (f.run (environment (Value.nodesAll args)) values).outcome () = some (r, ())) :
    evaluate (.list (.symbol s :: args)) = r := by
  have hcall := outcome_call hs (Nat.lt_succ_self (Value.nodesAll args))
  have hargs := outcome_arguments_of_nodesAll_le f (Nat.le_succ (Value.nodesAll args))
  rw [hr] at hargs
  rw [Eval.outcome_bind_of_ok hargs, Environment.call_of_accepts ha] at hcall
  exact (congrArg Prod.fst (Option.some.inj (hrun.symm.trans hcall))).symm

end Calls

theorem evaluate_quote (args : List Value) :
    evaluate (.list (.symbol ⟨"QUOTE"⟩ :: args)) = .ok (.list args) := by
  have hs : scope.lookup ⟨"QUOTE"⟩ = some (.form quoteForm) := rfl
  have ha : quoteForm.Accepts args.length := (quoteForm.accepts_iff args.length).mpr rfl
  exact evaluate_call_of_run hs rfl ha rfl

theorem received_evalForm (v : Value) : received evalForm [v] = (evaluate v).map ([·]) := by
  show [v].mapM evaluate = _
  rw [List.mapM_cons, List.mapM_nil]
  cases evaluate v <;> rfl

theorem evaluate_eval (v : Value) :
    evaluate (.list [.symbol ⟨"EVAL"⟩, v]) = (evaluate v).bind evaluate := by
  have hs : scope.lookup ⟨"EVAL"⟩ = some (.form evalForm) := rfl
  have hr := received_evalForm v
  cases hv : evaluate v with
  | error e =>
    rw [hv] at hr
    exact evaluate_call_of_error hs hr
  | ok w =>
    rw [hv] at hr
    have ha : evalForm.Accepts [w].length := (evalForm.accepts_iff 1).mpr rfl
    -- The result is not larger than the argument, so there is depth enough for it.
    have hw : w.nodes ≤ Value.nodesAll [v] := by
      have hle := nodes_le_of_evaluate hv
      simp only [Value.nodesAll]
      omega
    exact evaluate_call_of_run hs hr ha (outcome_of_nodes_le w hw)

def quotation (elements : List Value) : List Value := .symbol ⟨"QUOTE"⟩ :: elements

def evaluation (v : Value) : Value := .list [.symbol ⟨"EVAL"⟩, v]

theorem evaluate_quotation (elements : List Value) (k : Nat) :
    evaluate (.list (quotation^[k + 1] elements)) = .ok (.list (quotation^[k] elements)) := by
  rw [Function.iterate_succ_apply']
  exact evaluate_quote _

theorem evaluate_evaluation (v : Value) (k : Nat) :
    evaluate (evaluation^[k + 1] v) = (evaluate (evaluation^[k] v)).bind evaluate := by
  rw [Function.iterate_succ_apply']
  exact evaluate_eval _

theorem evaluate_evaluation_of_lt (elements : List Value) {j k : Nat} (h : j < k) :
    evaluate (evaluation^[j] (.list (quotation^[k] elements))) =
      .ok (.list (quotation^[k - 1 - j] elements)) := by
  induction j with
  | zero =>
    have hk : k = k - 1 - 0 + 1 := by omega
    rw [hk]
    exact evaluate_quotation elements _
  | succ j ih =>
    have hk : k - 1 - j = k - 1 - (j + 1) + 1 := by omega
    rw [evaluate_evaluation, ih (by omega), hk]
    exact evaluate_quotation elements _

/-- Evaluating undoes quoting, as often as it is done. With as many evaluations as quotations a list
ends as it does by itself, and with fewer of them there is always a result, which is the list with
the quotations that are left. -/
theorem evaluate_undoes_quotation (elements : List Value) (k : Nat) :
    evaluate (evaluation^[k] (.list (quotation^[k] elements))) = evaluate (.list elements) ∧
    ∀ j, j < k → evaluate (evaluation^[j] (.list (quotation^[k] elements))) =
      .ok (.list (quotation^[k - 1 - j] elements)) := by
  constructor
  · cases k with
    | zero => rfl
    | succ k =>
      have hk : k + 1 - 1 - k = 0 := by omega
      rw [evaluate_evaluation, evaluate_evaluation_of_lt elements (Nat.lt_succ_self k), hk]
      rfl
  · intro j h
    exact evaluate_evaluation_of_lt elements h

end Sexp.Shell
