import Sexp.Eval.Session
import Sexp.Proofs.Simulation

/-!
# Depth

The depth of an environment decides whether an evaluation has an outcome, and nothing else. More
depth never changes an outcome. This holds in the environments of every policy that asks the inner
environment for outcomes only, and all policies of sessions are of this kind, observed or not.

Evaluations are ordered by their outcomes. The operations of evaluations preserve the order, which
makes it a simulation to which every symbol and every form is known, and so does each primitive
operation.
-/

namespace Sexp

variable {σ α β : Type}

/-- Where `x` has an outcome, `y` has the same one, and a result satisfies `P`. -/
def Eval.Extends (x y : Eval σ α) (P : α → Prop) : Prop :=
  ∀ state o, x.outcome state = some o → y.outcome state = some o ∧ ∀ a, o.1 = .ok a → P a

namespace Eval.Extends

variable {P : α → Prop} {Q : β → Prop} {x y : Eval σ α}

theorem refl (x : Eval σ α) (h : ∀ a, P a) : x.Extends x P :=
  fun _ _ ho => ⟨ho, fun a _ => h a⟩

theorem same (x : Eval σ α) : x.Extends x fun _ => True := .refl x fun _ => trivial

theorem unfinished (y : Eval σ α) : Eval.unfinished.Extends y P := by
  intro state o h
  simp at h

theorem pure {a : α} (h : P a) : (pure a : Eval σ α).Extends (pure a) P := by
  rintro state o ⟨⟩
  refine ⟨rfl, ?_⟩
  rintro _ ⟨⟩
  exact h

theorem throw (e : EvalError) : (throw e : Eval σ α).Extends (throw e) P := by
  rintro state o ⟨⟩
  refine ⟨rfl, ?_⟩
  rintro _ ⟨⟩

theorem bind {f g : α → Eval σ β} (h : x.Extends y P)
    (hf : ∀ a, P a → (f a).Extends (g a) Q) : (x >>= f).Extends (y >>= g) Q := by
  intro state o ho
  rcases outcome_bind_cases ho with ⟨e, he, hx⟩ | ⟨a, middle, hx, hg⟩
  · refine ⟨?_, fun b hb => by simp [hb] at he⟩
    rw [outcome_bind_of_error (h state _ hx).1, ← he]
  · obtain ⟨hy, hP⟩ := h state _ hx
    rw [outcome_bind_of_ok hy]
    exact hf a (hP a rfl) middle o hg

theorem attempt (h : x.Extends y P) : x.attempt.Extends y.attempt fun _ => True := by
  intro state o ho
  rw [outcome_attempt, Option.map_eq_some_iff] at ho
  obtain ⟨first, hx, rfl⟩ := ho
  rw [outcome_attempt, (h state first hx).1]
  exact ⟨rfl, fun _ _ => trivial⟩

end Eval.Extends

def extension (σ : Type) : Simulation σ σ where
  Holds := Eval.Extends
  Permits _ := True
  pure := .pure
  throw _ := .throw _
  bind := .bind
  symbol _ := True
  form _ := True
  callable _ := True
  permits_arity _ _ _ := trivial

theorem extension_knows (v : Value) : (extension σ).Knows v :=
  ⟨fun _ _ => trivial, fun _ _ => trivial⟩

theorem Primitive.run_extends {env env' : Environment σ}
    (h : (extension σ).Environments env env') (args : List Value) (p : Primitive) :
    (p.run env args).Extends (p.run env' args) (extension σ).Knows := by
  have heval (v : Value) := h.eval (extension_knows v)
  have hcall (f : Form) (args : List Value) :=
    h.call (f := f) trivial fun v (_ : v ∈ args) => extension_knows v
  cases p with
  -- These do not ask the environment for anything.
  | list | concat | render | argument | fail | first | rest | kind | compare | read =>
    exact .refl _ extension_knows
  | evaluate => exact .bind (.same _) fun v _ => heval v
  | choose =>
    refine .bind (.same _) fun v _ => .bind (heval v) fun condition _ => ?_
    dsimp only
    split
    · next branch _ => exact heval branch
    · exact .refl _ extension_knows
  | form =>
    refine .bind (.same _) fun s _ => .bind (h.lookupForm s trivial) fun f _ => ?_
    exact .refl _ extension_knows
  | apply =>
    refine .bind (.same _) fun elements _ => ?_
    split
    · next f _ => exact hcall f elements
    · refine .bind (.same _) fun s _ => ?_
      exact .bind (h.lookupForm s trivial) fun f _ => hcall f elements
  | evaluateEach =>
    refine .bind (.same _) fun elements _ => ?_
    exact .bind (h.evalAll fun v _ => extension_knows v) fun results _ => .refl _ extension_knows
  | tryCall =>
    refine .bind (.same _) fun elements _ => ?_
    exact .bind (h.evalCall fun v _ => extension_knows v) fun result _ => .refl _ extension_knows
  | recover =>
    refine .bind (.same _) fun v _ => ?_
    exact .bind (heval v).attempt fun result _ => .refl _ extension_knows

theorem Form.run_extends {env env' : Environment σ} (h : (extension σ).Environments env env')
    (args : List Value) (f : Form) :
    (f.run env args).Extends (f.run env' args) (extension σ).Knows := by
  cases f with
  | builtin _ _ _ body => exact body.run_extends h args
  | foreign => exact .refl _ extension_knows

namespace Policy

/-- More outcomes inside lists never take away or change an outcome of the list. -/
def Monotone (p : Policy σ) : Prop :=
  ∀ env env', (extension σ).Environments env env' → ∀ elements,
    (p.evalList env elements).Extends (p.evalList env' elements) (extension σ).Knows

theorem Monotone.observed {p : Policy (List Note)} (h : p.Monotone) : p.observed.Monotone := by
  intro env env' he elements
  exact .bind (.same _) fun _ _ => h env env' he elements

variable {p : Policy σ}

@[simp] theorem lookupForm_environment (p : Policy σ) (n : Nat) (s : Symbol) :
    (p.environment n).lookupForm s = p.lookupForm s := by
  cases n <;> rfl

@[simp] theorem evalSymbol_environment (p : Policy σ) (n : Nat) (s : Symbol) :
    (p.environment n).evalSymbol s = p.evalSymbol s := by
  cases n <;> rfl

@[simp] theorem evalList_environment_succ (p : Policy σ) (n : Nat) (elements : List Value) :
    (p.environment (n + 1)).evalList elements = p.evalList (p.environment n) elements := rfl

@[simp] theorem invoke_environment_succ (p : Policy σ) (n : Nat) (f : Form) (args : List Value) :
    (p.environment (n + 1)).invoke f args = f.run (p.environment n) args := rfl

theorem Monotone.policies (h : p.Monotone) : (extension σ).Policies p p where
  lookupForm _ _ := .same _
  evalString _ := .refl _ extension_knows
  evalSymbol _ _ := .refl _ extension_knows
  evalList he vs _ := h _ _ he vs

theorem Monotone.environment_add (h : p.Monotone) (n k : Nat) :
    (extension σ).Environments (p.environment n) (p.environment (n + k)) :=
  h.policies.environmentWith (fun _ _ body => body) (fun _ _ body => body)
    (fun _ => .unfinished _) (fun _ _ => .unfinished _)
    (fun he f args _ _ _ => f.run_extends he args) n

theorem Monotone.outcome_of_le (h : p.Monotone) {n m : Nat} (hle : n ≤ m) {v : Value} {state : σ}
    {o : Except EvalError Value × σ}
    (ho : ((p.environment n).eval v).outcome state = some o) :
    ((p.environment m).eval v).outcome state = some o := by
  have he := h.environment_add n (m - n)
  rw [Nat.add_sub_cancel' hle] at he
  exact (he.eval (extension_knows v) state o ho).1

/-- Evaluation comes to this outcome at some depth. -/
def Evaluates (p : Policy σ) (state : σ) (v : Value) (o : Except EvalError Value × σ) : Prop :=
  ∃ depth, ((p.environment depth).eval v).outcome state = some o

theorem Monotone.evaluates_unique (h : p.Monotone) {v : Value} {state : σ}
    {o o' : Except EvalError Value × σ} (ho : p.Evaluates state v o)
    (ho' : p.Evaluates state v o') : o = o' := by
  obtain ⟨n, hn⟩ := ho
  obtain ⟨m, hm⟩ := ho'
  have hmax := h.outcome_of_le (Nat.le_max_left n m) hn
  rw [h.outcome_of_le (Nat.le_max_right n m) hm] at hmax
  exact (Option.some.inj hmax).symm

end Policy

theorem Scope.policy_monotone (scope : Scope) : (scope.policy : Policy σ).Monotone := by
  intro env env' h elements
  exact h.evalCallOrElements fun v _ => extension_knows v

theorem Scope.strictPolicy_monotone (scope : Scope) : (scope.strictPolicy : Policy σ).Monotone := by
  intro env env' h elements
  exact .bind (h.evalCall fun v _ => extension_knows v) fun result _ => .refl _ extension_knows

theorem Session.policy_monotone (session : Session) : session.policy.Monotone := by
  unfold Session.policy
  split
  · exact session.scope.policy_monotone
  · exact session.scope.policy_monotone.observed
  · exact session.scope.strictPolicy_monotone.observed

end Sexp
