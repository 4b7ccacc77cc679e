import Sexp.Eval.Policy
import Sexp.Eval.Relation

/-!
# Evaluation in the shell

The shell has four forms. Although one of them evaluates the value of its argument once more,
every evaluation comes to an end: results are never larger than what was evaluated, and a call is
larger than its arguments. So the number of nodes of a value is depth enough, and evaluation in
the shell is a total function.
-/

namespace Sexp

theorem Scope.lookup_registerAll (scope : Scope) (forms : List Form) (s : Symbol) :
    (scope.registerAll forms).lookup s = scope.lookup s ∨
      ∃ f ∈ forms, (scope.registerAll forms).lookup s = some (.form f) := by
  induction forms generalizing scope with
  | nil => exact .inl rfl
  | cons f forms ih =>
    rcases ih (scope.register f) with h | ⟨g, hg, h⟩
    · by_cases hs : s = Symbol.ofText f.name
      · exact .inr ⟨f, by simp, h.trans (by simp [register, lookup_bind, hs])⟩
      · exact .inl (h.trans (by simp [register, lookup_bind, hs]))
    · exact .inr ⟨g, by simp [hg], h⟩

namespace Shell

def quoteForm : Form := .builtin "QUOTE" true (.atLeast 0) .list
def listForm : Form := .builtin "LIST" false (.atLeast 0) .list
def catForm : Form := .builtin "CAT" false (.atLeast 0) .concat
def evalForm : Form := .builtin "EVAL" false (.exactly 1) .evaluate

def forms : List Form := [quoteForm, listForm, catForm, evalForm]

def scope : Scope := Scope.root.registerAll forms

def environment (depth : Nat) : Environment Unit := scope.policy.environment depth

theorem lookup_scope (s : Symbol) :
    scope.lookup s = none ∨ ∃ f ∈ forms, scope.lookup s = some (.form f) :=
  Scope.lookup_registerAll Scope.root forms s

/-- The evaluation has an outcome, and a result satisfies `P`. -/
def Settles {α : Type} (x : Eval Unit α) (P : α → Prop) : Prop :=
  ∃ r, x.outcome () = some (r, ()) ∧ ∀ a, r = .ok a → P a

namespace Settles

variable {α β : Type} {P : α → Prop} {Q : β → Prop}

theorem pure {a : α} (h : P a) : Settles (pure a) P :=
  ⟨.ok a, rfl, by rintro _ ⟨⟩; exact h⟩

theorem throw (e : EvalError) : Settles (throw e) P :=
  ⟨.error e, rfl, by rintro _ ⟨⟩⟩

theorem bind {x : Eval Unit α} {f : α → Eval Unit β} (hx : Settles x P)
    (hf : ∀ a, P a → Settles (f a) Q) : Settles (x >>= f) Q := by
  obtain ⟨e | a, hr, hP⟩ := hx
  · exact ⟨.error e, by simp [Eval.outcome_bind, hr], by rintro _ ⟨⟩⟩
  · obtain ⟨r, hr', hQ⟩ := hf a (hP a rfl)
    exact ⟨r, by simp [Eval.outcome_bind, hr, hr'], hQ⟩

theorem mono {P' : α → Prop} {x : Eval Unit α} (hx : Settles x P) (h : ∀ a, P a → P' a) :
    Settles x P' := by
  obtain ⟨r, hr, hP⟩ := hx
  exact ⟨r, hr, fun a ha => h a (hP a ha)⟩

end Settles

def settling : Eval.Relation Unit Unit where
  Holds x _ P := Settles x P
  Permits _ := True
  pure := .pure
  throw _ := .throw _
  bind := .bind

theorem settles_evalAll {env : Environment Unit} {vs : List Value}
    (h : ∀ v ∈ vs, Settles (env.eval v) (·.nodes ≤ v.nodes)) :
    Settles (env.evalAll vs) (Value.nodesAll · ≤ Value.nodesAll vs) :=
  settling.evalAll env env (A := fun vs ws => Value.nodesAll ws ≤ Value.nodesAll vs)
    (Nat.le_refl _) Nat.add_le_add h

theorem settles_arguments {env : Environment Unit} (f : Form) {args : List Value}
    (h : ∀ v ∈ args, Settles (env.eval v) (·.nodes ≤ v.nodes)) :
    Settles (env.arguments f args) (Value.nodesAll · ≤ Value.nodesAll args) :=
  settling.arguments env env (A := fun vs ws => Value.nodesAll ws ≤ Value.nodesAll vs)
    (Nat.le_refl _) Nat.add_le_add f (Nat.le_refl _) h

theorem settles_call {n : Nat} {f : Form} {args : List Value} (hf : f ∈ forms)
    (h : ∀ v ∈ args, Settles ((environment n).eval v) (·.nodes ≤ v.nodes)) :
    Settles ((environment (n + 1)).call f args) (·.nodes ≤ 1 + Value.nodesAll args) := by
  refine settling.call _ (environment (n + 1)) (fun _ => ?_) fun _ _ => trivial
  simp only [forms, List.mem_cons, List.not_mem_nil, or_false] at hf
  rcases hf with rfl | rfl | rfl | rfl
  · exact .pure (Nat.le_refl _)
  · exact .pure (Nat.le_refl _)
  · exact .bind (settling.lift (fun _ _ => trivial) fun _ _ => trivial) fun text _ =>
      .pure (by simp [Value.nodes])
  · refine .bind (P := fun v => v ∈ args) (settling.lift ?_ fun _ _ => trivial) fun v hv => ?_
    · intro v hv
      cases args <;> simp_all [Arguments.get]
    · refine (h v hv).mono fun w hw => ?_
      have := Value.nodes_le_of_mem hv
      omega

theorem settles_eval (n : Nat) (v : Value) (h : v.nodes ≤ n) :
    Settles ((environment n).eval v) (·.nodes ≤ v.nodes) := by
  induction n using Nat.strongRecOn generalizing v with
  | ind n ih =>
    cases v with
    | symbol s =>
      rcases n with _ | n <;> refine .pure ?_ <;>
        rcases lookup_scope s with hs | ⟨f, -, hs⟩ <;> simp [hs, Value.nodes]
    | string text => rcases n with _ | n <;> exact .pure (Nat.le_refl _)
    | form f => exact .pure (Nat.le_refl _)
    | list vs =>
      rcases n with _ | n
      · simp [Value.nodes] at h
      have hvs : Value.nodesAll vs ≤ n := by simp only [Value.nodes] at h; omega
      have heval : ∀ v ∈ vs, Settles ((environment n).eval v) (·.nodes ≤ v.nodes) := fun v hv =>
        ih n (Nat.lt_succ_self n) v (Nat.le_trans (Value.nodes_le_of_mem hv) hvs)
      refine settling.evalCallOrElements _ (environment n) (settling.evalCall _ _ ?_)
        (settles_evalAll heval) fun ws hws => Nat.add_le_add_left hws 1
      rintro s args rfl
      rcases n with _ | n
      · simp [Value.nodesAll, Value.nodes] at hvs
      have hargs : Value.nodesAll args ≤ n := by
        simp only [Value.nodesAll, Value.nodes] at hvs; omega
      refine ⟨(· ∈ forms), (Value.nodesAll · ≤ Value.nodesAll args),
        settling.lift ?_ fun _ _ => trivial, fun f hf => ⟨?_, ?_⟩⟩
      · intro f hf
        rcases lookup_scope s with hs | ⟨g, hg, hs⟩ <;>
          simp only [Scope.lookupForm, hs] at hf <;> cases hf
        exact hg
      · exact settles_arguments f fun v hv => heval v (List.mem_cons_of_mem _ hv)
      · intro ws hws
        refine (settles_call hf fun v hv => ih n (by omega) v ?_).mono fun w hw => ?_
        · exact Nat.le_trans (Value.nodes_le_of_mem hv) (Nat.le_trans hws hargs)
        · simp only [Value.nodes, Value.nodesAll]
          omega

theorem outcome_isSome (v : Value) : (((environment v.nodes).eval v).outcome ()).isSome := by
  obtain ⟨r, hr, -⟩ := settles_eval v.nodes v (Nat.le_refl _)
  simp [hr]

def evaluate (v : Value) : Except EvalError Value :=
  (((environment v.nodes).eval v).outcome ()).get (outcome_isSome v) |>.1

theorem nodes_le_of_evaluate {v r : Value} (h : evaluate v = .ok r) : r.nodes ≤ v.nodes := by
  obtain ⟨q, hq, hP⟩ := settles_eval v.nodes v (Nat.le_refl _)
  exact hP r (by simpa [evaluate, hq] using h)

end Shell

end Sexp
