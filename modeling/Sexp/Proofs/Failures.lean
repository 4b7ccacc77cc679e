import Sexp.Proofs.Simulation
import Sexp.Proofs.Termination

/-!
# Failures in the shell

Evaluation in the shell fails in three ways only: a form is not found, the form that evaluates
once more is given another number of arguments than one, or the form that joins texts is given
something else than a text. This holds for code that was put together during the evaluation as
well, since its symbols and forms come from the value that was evaluated or from the shell.

Calls are observed by environments that keep a record of every form that is carried out. They give
the same results as the plain ones, so the record tells what happens in these.
-/

namespace Sexp

structure Call where
  form : Form
  received : List Value

def Call.record (c : Call) : Eval (List Call) Unit := modify (c :: ·)

/-- The environments of a policy with a record of the forms that are carried out, the latest
first. -/
def Policy.recorded (p : Policy (List Call)) (depth : Nat) : Environment (List Call) :=
  p.environmentWith (fun f args body => do Call.record ⟨f, args⟩; body) depth

theorem Call.outcome_record_bind {α : Type} (c : Call) (x : Eval (List Call) α)
    (earlier : List Call) :
    (do c.record; x : Eval (List Call) α).outcome earlier = x.outcome (c :: earlier) :=
  Eval.outcome_bind_of_ok rfl

def Value.isText : Value → Bool
  | string _ | symbol _ => true
  | list _ | form _ => false

theorem Arguments.joined_eq_error {index : Nat} {args : List Value} {e : EvalError}
    (h : joined index args = .error e) :
    ∃ k w, args.findIdx? (!·.isText) = some k ∧ args[k]? = some w ∧
      (w.kind = .list ∨ w.kind = .form) ∧ e = .wrongType .string (index + k) w := by
  induction args generalizing index with
  | nil => simp [joined] at h
  | cons v vs ih =>
    cases v with
    | string text | symbol s =>
      cases hj : joined (index + 1) vs with
      | ok texts => simp [joined, Value.asText, hj, bind, Except.bind, pure, Except.pure] at h
      | error e' =>
        obtain rfl : e' = e := by
          simpa [joined, Value.asText, hj, bind, Except.bind] using h
        obtain ⟨k, w, hk, hw, hkind, he⟩ := ih hj
        refine ⟨k + 1, w, ?_, by simpa using hw, hkind, ?_⟩
        · rw [List.findIdx?_cons, if_neg (by simp [Value.isText]), hk]
          rfl
        · rw [he, Nat.add_assoc, Nat.add_comm 1 k]
    | list elements | form f =>
      refine ⟨0, _, by simp [List.findIdx?_cons, Value.isText], rfl, by simp [Value.kind], ?_⟩
      simpa [joined, Value.asText, bind, Except.bind] using h.symm

theorem Scope.lookup_registerAll_eq_none_iff (scope : Scope) (forms : List Form) (s : Symbol) :
    (scope.registerAll forms).lookup s = none ↔
      scope.lookup s = none ∧ ∀ f ∈ forms, s ≠ Symbol.ofText f.name := by
  induction forms generalizing scope with
  | nil => simp [registerAll]
  | cons f forms ih =>
    have hf : (scope.register f).lookup s = none ↔
        s ≠ Symbol.ofText f.name ∧ scope.lookup s = none := by
      rw [register, lookup_bind]
      split <;> simp [*]
    show ((scope.register f).registerAll forms).lookup s = none ↔ _
    rw [ih, hf, List.forall_mem_cons]
    constructor
    · rintro ⟨⟨h, hs⟩, hforms⟩
      exact ⟨hs, h, hforms⟩
    · rintro ⟨hs, h, hforms⟩
      exact ⟨⟨h, hs⟩, hforms⟩

theorem Arity.not_breaks_atLeast_zero (count : Nat) (violation : Violation) :
    ¬(atLeast 0).Breaks count violation := by
  rw [← violation?_eq_some_iff]
  simp [violation?, atLeast]

theorem Arity.breaks_exactly {n count : Nat} {violation : Violation}
    (h : (exactly n).Breaks count violation) :
    count < n ∧ violation = .tooFew n ∨ n < count ∧ violation = .tooMany n := by
  cases h with
  | tooFew hlt => exact .inl ⟨hlt, rfl⟩
  | tooMany _ hm hlt =>
    obtain rfl := Option.some.inj hm
    exact .inr ⟨hlt, rfl⟩

namespace Shell

theorem upper_name : ∀ f ∈ forms, Text.upper f.name = f.name := by decide

theorem lookup_scope_eq_none_iff (s : Symbol) :
    scope.lookup s = none ↔ s.name ∉ ["QUOTE", "LIST", "CAT", "EVAL"] := by
  show _ ↔ s.name ∉ forms.map Form.name
  rw [scope, Scope.lookup_registerAll_eq_none_iff]
  constructor
  · rintro ⟨-, h⟩ hs
    obtain ⟨f, hf, hn⟩ := List.mem_map.mp hs
    apply h f hf
    rw [Symbol.ofText, upper_name f hf, hn]
  · intro h
    refine ⟨rfl, ?_⟩
    rintro f hf rfl
    exact h (List.mem_map.mpr ⟨f, hf, (upper_name f hf).symm⟩)

/-- What evaluation in the shell fails with, if these symbols are in the value that is evaluated
and these calls were made on the way. -/
def Failure (symbols : List Symbol) (calls : List Call) : EvalError → Prop
  | .unboundForm s => s ∈ symbols ∧ s.name ∉ ["QUOTE", "LIST", "CAT", "EVAL"]
  | .arity form got violation =>
    form = "EVAL" ∧ (got = 0 ∧ violation = .tooFew 1 ∨ 2 ≤ got ∧ violation = .tooMany 1)
  | .wrongType expected index v =>
    expected = .string ∧ (v.kind = .list ∨ v.kind = .form) ∧
      ∃ received, calls.head? = some ⟨catForm, received⟩ ∧
        received.findIdx? (!·.isText) = some index ∧ received[index]? = some v
  | .read _ | .notAForm _ _ | .host _ | .indexOutOfBounds _ _ => False

theorem Failure.append {symbols : List Symbol} {calls : List Call} {e : EvalError}
    (h : Failure symbols calls e) (earlier : List Call) :
    Failure symbols (calls ++ earlier) e := by
  cases e with
  | wrongType expected index v =>
    obtain ⟨he, hk, received, hc, hi, hv⟩ := h
    exact ⟨he, hk, received, by rw [List.head?_append, hc]; rfl, hi, hv⟩
  | _ => exact h

theorem failure_of_joined (symbols : List Symbol) {args : List Value} {e : EvalError}
    (h : Arguments.joined 0 args = .error e) : Failure symbols [⟨catForm, args⟩] e := by
  obtain ⟨k, v, hk, hv, hkind, rfl⟩ := Arguments.joined_eq_error h
  rw [Nat.zero_add]
  exact ⟨rfl, hkind, args, rfl, hk, hv⟩

theorem failure_of_breaks (symbols : List Symbol) {f : Form} {a : Arity} {count : Nat}
    {violation : Violation} (hf : f ∈ forms) (ha : f.arity? = some a)
    (h : a.Breaks count violation) : Failure symbols [] (.arity f.name count violation) := by
  simp only [forms, List.mem_cons, List.not_mem_nil, or_false] at hf
  rcases hf with rfl | rfl | rfl | rfl <;> obtain rfl := Option.some.inj ha
  case inr.inr.inr =>
    refine ⟨rfl, ?_⟩
    rcases Arity.breaks_exactly h with ⟨hlt, hv⟩ | ⟨hlt, hv⟩
    · exact .inl ⟨by omega, hv⟩
    · exact .inr ⟨hlt, hv⟩
  all_goals exact absurd h (Arity.not_breaks_atLeast_zero count violation)

theorem length_of_accepts {count : Nat} (h : evalForm.Accepts count) : count = 1 := by
  obtain ⟨hleast, hmost⟩ := h _ rfl
  exact Nat.le_antisymm (hmost 1 rfl) hleast

theorem run_catForm {σ : Type} (env : Environment σ) (args : List Value) :
    catForm.run env args = liftM ((Arguments.joined 0 args).map Value.string) := by
  show (do
    let text ← (liftM (Arguments.joined 0 args) : Eval σ String)
    pure (Value.string text)) = _
  cases Arguments.joined 0 args <;> rfl

variable {α β : Type}

def Ends (symbols : List Symbol) (P : α → Prop) (calls : List Call) : Except EvalError α → Prop
  | .ok a => P a
  | .error e => Failure symbols calls e

theorem Ends.append {symbols : List Symbol} {P : α → Prop} {calls : List Call}
    {r : Except EvalError α} (h : Ends symbols P calls r) (earlier : List Call) :
    Ends symbols P (calls ++ earlier) r := by
  cases r with
  | ok a => exact h
  | error e => exact Failure.append h earlier

/-- The recorded evaluation ends as the plain one does, and on the way it carries out forms only
that accept what they receive. -/
def Observes (symbols : List Symbol) (x : Eval (List Call) α) (y : Eval Unit α)
    (P : α → Prop) : Prop :=
  ∀ r, y.outcome () = some (r, ()) → ∀ earlier, ∃ calls,
    x.outcome earlier = some (r, calls ++ earlier) ∧
      (∀ c ∈ calls, c.form ∈ forms ∧ c.form.Accepts c.received.length) ∧ Ends symbols P calls r

namespace Observes

variable {symbols : List Symbol} {P : α → Prop} {Q : β → Prop}
  {x : Eval (List Call) α} {y : Eval Unit α}

theorem pure {a : α} (h : P a) : Observes symbols (pure a) (pure a) P := by
  intro r hr earlier
  obtain ⟨rfl, -⟩ := Prod.mk.inj (Option.some.inj hr)
  exact ⟨[], rfl, by simp, h⟩

theorem throw {e : EvalError} (h : Failure symbols [] e) :
    Observes symbols (throw e) (throw e) P := by
  intro r hr earlier
  obtain ⟨rfl, -⟩ := Prod.mk.inj (Option.some.inj hr)
  exact ⟨[], rfl, by simp, h⟩

theorem unfinished : Observes symbols x .unfinished P := by
  intro r hr
  simp at hr

theorem bind {f : α → Eval (List Call) β} {g : α → Eval Unit β} (hx : Observes symbols x y P)
    (hf : ∀ a, P a → Observes symbols (f a) (g a) Q) :
    Observes symbols (x >>= f) (y >>= g) Q := by
  intro r hr earlier
  rcases Eval.outcome_bind_cases hr with ⟨e, rfl, hy⟩ | ⟨a, ⟨⟩, hy, hg⟩
  · obtain ⟨calls, hc, ha, he⟩ := hx _ hy earlier
    exact ⟨calls, Eval.outcome_bind_of_error hc, ha, he⟩
  · -- The calls of the second part stand in front of those of the first one.
    obtain ⟨first, hc, ha, hP⟩ := hx _ hy earlier
    obtain ⟨later, hc', ha', hQ⟩ := hf a hP r hg (first ++ earlier)
    refine ⟨later ++ first, ?_, List.forall_mem_append.mpr ⟨ha', ha⟩, hQ.append first⟩
    rw [Eval.outcome_bind_of_ok hc, hc', List.append_assoc]

theorem record {c : Call} (hf : c.form ∈ forms) (hc : c.form.Accepts c.received.length)
    (h : Observes symbols x y P) : Observes symbols (do c.record; x) y P := by
  intro r hr earlier
  obtain ⟨calls, hx, ha, hP⟩ := h r hr (c :: earlier)
  refine ⟨calls ++ [c], ?_, ?_, hP.append [c]⟩
  · rw [Call.outcome_record_bind, hx, List.append_assoc]
    rfl
  · rw [List.forall_mem_append]
    exact ⟨ha, by simpa using ⟨hf, hc⟩⟩

theorem record_lift {c : Call} {r : Except EvalError α} (hf : c.form ∈ forms)
    (hc : c.form.Accepts c.received.length) (hok : ∀ a, r = .ok a → P a)
    (herror : ∀ e, r = .error e → Failure symbols [c] e) :
    Observes symbols (do c.record; liftM r) (liftM r) P := by
  intro r' hr earlier
  obtain ⟨rfl, -⟩ := Prod.mk.inj (Option.some.inj hr)
  refine ⟨[c], Call.outcome_record_bind c _ earlier, by simpa using ⟨hf, hc⟩, ?_⟩
  cases r with
  | ok a => exact hok a rfl
  | error e => exact herror e rfl

end Observes

def observation (symbols : List Symbol) (known : List Form) : Simulation (List Call) Unit where
  Holds := Observes symbols
  Permits := Failure symbols []
  pure := .pure
  throw := .throw
  bind := .bind
  symbol := (· ∈ symbols)
  form := (· ∈ known)
  callable := (· ∈ forms)
  permits_arity := failure_of_breaks symbols

namespace observation

variable {symbols : List Symbol} {known : List Form}

theorem run {env : Environment (List Call)} {plain : Environment Unit}
    (h : (observation symbols known).Environments env plain) {f : Form} {args : List Value}
    (hf : f ∈ forms) (ha : f.Accepts args.length)
    (hargs : ∀ v ∈ args, (observation symbols known).Knows v) :
    Observes symbols (do Call.record ⟨f, args⟩; f.run env args) (f.run plain args)
      (observation symbols known).Knows := by
  have hcases := hf
  simp only [forms, List.mem_cons, List.not_mem_nil, or_false] at hcases
  rcases hcases with rfl | rfl | rfl | rfl
  · exact .record hf ha (.pure (Value.over_list.mpr hargs))
  · exact .record hf ha (.pure (Value.over_list.mpr hargs))
  · -- The failure is that of the call just recorded, so the body cannot be taken by itself.
    rw [run_catForm, run_catForm]
    refine .record_lift hf ha ?_ ?_
    · intro w hw
      cases hj : Arguments.joined 0 args with
      | ok text =>
        obtain rfl : Value.string text = w := by simpa [hj, Except.map] using hw
        exact Value.over_string text
      | error e => simp [hj, Except.map] at hw
    · intro e he
      cases hj : Arguments.joined 0 args with
      | ok text => simp [hj, Except.map] at he
      | error e' =>
        obtain rfl : e' = e := by simpa [hj, Except.map] using he
        exact failure_of_joined symbols hj
  · obtain ⟨v, rfl⟩ := List.length_eq_one_iff.mp (length_of_accepts ha)
    exact .record hf ha (h.eval (hargs v List.mem_cons_self))

theorem policies (hforms : forms ⊆ known) :
    (observation symbols known).Policies scope.policy scope.policy where
  lookupForm s hs := by
    refine (observation symbols known).lift ?_ ?_
    · intro f hf
      rcases lookup_scope s with hn | ⟨g, hg, hl⟩
      · simp [Scope.lookupForm, hn] at hf
      · obtain rfl : g = f := by simpa [Scope.lookupForm, hl] using hf
        exact hg
    · intro e he
      rcases lookup_scope s with hn | ⟨g, hg, hl⟩
      · obtain rfl : EvalError.unboundForm s = e := by simpa [Scope.lookupForm, hn] using he
        exact ⟨hs, (lookup_scope_eq_none_iff s).mp hn⟩
      · simp [Scope.lookupForm, hl] at he
  evalString text := .pure (Value.over_string text)
  evalSymbol s hs := by
    refine .pure ?_
    rcases lookup_scope s with hn | ⟨g, hg, hl⟩
    · rw [hn]
      exact Value.over_symbol.mpr hs
    · rw [hl]
      exact Value.over_form.mpr (hforms hg)
  evalList h _ hvs := h.evalCallOrElements hvs

theorem environments (hforms : forms ⊆ known) (n : Nat) :
    (observation symbols known).Environments (scope.policy.recorded n) (environment n) :=
  (policies hforms).environmentWith (k := 0) _ (fun _ _ body => body) (fun _ => .unfinished)
    (fun _ _ => .unfinished) (fun h _ _ => run h) n

end observation

theorem observes_evaluate (v : Value) : ∃ calls,
    ((scope.policy.recorded v.nodes).eval v).outcome [] = some (evaluate v, calls) ∧
      (∀ c ∈ calls, c.form ∈ forms ∧ c.form.Accepts c.received.length) ∧
      Ends v.symbols (·.Over (· ∈ v.symbols) (· ∈ v.forms ++ forms)) calls (evaluate v) := by
  have hv : v.Over (· ∈ v.symbols) (· ∈ v.forms ++ forms) :=
    ⟨fun _ hs => hs, fun _ hf => List.mem_append_left _ hf⟩
  have hf : (observation v.symbols (v.forms ++ forms)).Environments
      (scope.policy.recorded v.nodes) (environment v.nodes) :=
    observation.environments (List.subset_append_right _ _) v.nodes
  obtain ⟨calls, hc, ha, hr⟩ :=
    hf.eval hv (evaluate v) (outcome_of_nodes_le v (Nat.le_refl _)) []
  rw [List.append_nil] at hc
  exact ⟨calls, hc, ha, hr⟩

theorem over_of_evaluate {v w : Value} (h : evaluate v = .ok w) :
    w.Over (· ∈ v.symbols) (· ∈ v.forms ++ forms) := by
  obtain ⟨calls, -, -, hw⟩ := observes_evaluate v
  rw [h] at hw
  exact hw

/-- Evaluation in the shell carries out the form that evaluates once more only with exactly one
argument, and it fails with a `Failure` only. -/
theorem evaluate_failures (v : Value) : ∃ calls,
    ((scope.policy.recorded v.nodes).eval v).outcome [] = some (evaluate v, calls) ∧
      (∀ c ∈ calls, c.form = evalForm → ∃ w, c.received = [w]) ∧
      ∀ e, evaluate v = .error e → Failure v.symbols calls e := by
  obtain ⟨calls, hc, ha, hr⟩ := observes_evaluate v
  refine ⟨calls, hc, ?_, ?_⟩
  · intro c hmem hform
    have haccepts := (ha c hmem).2
    rw [hform] at haccepts
    exact List.length_eq_one_iff.mp (length_of_accepts haccepts)
  · intro e he
    rw [he] at hr
    exact hr

example : evaluate (.list [.symbol ⟨"CAT"⟩, .symbol ⟨"A"⟩, .symbol ⟨"LIST"⟩]) =
    .error (.wrongType .string 1 (.form listForm)) := rfl

example : evaluate (.list [.symbol ⟨"EVAL"⟩, .list [.symbol ⟨"QUOTE"⟩, .symbol ⟨"NOPE"⟩]]) =
    .error (.unboundForm ⟨"NOPE"⟩) := rfl

example : evaluate (.list [.symbol ⟨"EVAL"⟩]) = .error (.arity "EVAL" 0 (.tooFew 1)) := rfl

end Shell

end Sexp
