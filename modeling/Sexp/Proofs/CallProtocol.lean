import Sexp.Eval.Environment

/-!
# The protocol of calls

Calls follow one protocol in every environment, whatever its state and its functions are. A call
either stops before the body of a form is entered, or it enters one body. It stops if the list is
no call, if the form is not found, if an argument fails, or if a built-in form does not accept the
number of arguments, and these are looked at in this order. What the bodies of forms do plays no
part in a call that stops, and the state is the one after the last step that was made.

Arguments are evaluated one after the other, each in the state that the one before it left.
`Evaluated` is the chain of these evaluations.
-/

namespace Sexp

namespace Eval

variable {σ α β : Type} {x : Eval σ α} {f : α → Eval σ β} {state state' : σ}

theorem outcome_bind_of_ok {a : α} (h : x.outcome state = some (.ok a, state')) :
    (x >>= f).outcome state = (f a).outcome state' := by
  rw [outcome_bind, h]

theorem outcome_bind_of_error {e : EvalError} (h : x.outcome state = some (.error e, state')) :
    (x >>= f).outcome state = some (.error e, state') := by
  rw [outcome_bind, h]

theorem outcome_bind_cases {r : Except EvalError β}
    (h : (x >>= f).outcome state = some (r, state')) :
    (∃ e, r = .error e ∧ x.outcome state = some (.error e, state')) ∨
      ∃ a middle, x.outcome state = some (.ok a, middle) ∧
        (f a).outcome middle = some (r, state') := by
  rw [outcome_bind] at h
  split at h
  · simp at h
  · next a middle hx => exact .inr ⟨a, middle, hx, h⟩
  · next e last hx =>
    obtain ⟨rfl, rfl⟩ := Prod.mk.inj (Option.some.inj h)
    exact .inl ⟨e, rfl, hx⟩

end Eval

inductive Arity.Breaks (a : Arity) (count : Nat) : Violation → Prop where
  | tooFew : count < a.least → a.Breaks count (.tooFew a.least)
  | tooMany {most : Nat} : a.least ≤ count → a.most = some most → most < count →
      a.Breaks count (.tooMany most)

theorem Arity.violation?_eq_some_iff (a : Arity) (count : Nat) (violation : Violation) :
    a.violation? count = some violation ↔ a.Breaks count violation := by
  constructor
  · intro h
    fun_cases Arity.violation? a count with
    | case1 hlt =>
      obtain rfl : Violation.tooFew a.least = violation := by simpa [violation?, hlt] using h
      exact .tooFew hlt
    | case2 hle hm => simp [violation?, hle, hm] at h
    | case3 hle most hm hlt =>
      obtain rfl : Violation.tooMany most = violation := by
        simpa [violation?, hle, hm, hlt] using h
      exact .tooMany (Nat.le_of_not_lt hle) hm hlt
    | case4 hle most hm hlt => simp [violation?, hle, hm, hlt] at h
  · intro h
    cases h with
    | tooFew hlt => rw [violation?, if_pos hlt]
    | tooMany hle hm hlt => simp [violation?, Nat.not_lt.mpr hle, hm, hlt]

def Form.Accepts (f : Form) (count : Nat) : Prop :=
  ∀ a, f.arity? = some a → a.least ≤ count ∧ ∀ most, a.most = some most → count ≤ most

theorem Form.accepts_iff (f : Form) (count : Nat) :
    f.Accepts count ↔ f.arity?.bind (·.violation? count) = none := by
  cases h : f.arity? with
  | none => simp [Accepts, h]
  | some a => simp [Accepts, h, Arity.violation?_eq_none_iff]

theorem Form.accepts_or_breaks (f : Form) (count : Nat) :
    f.Accepts count ∨ ∃ a violation, f.arity? = some a ∧ a.Breaks count violation := by
  cases hv : f.arity?.bind (·.violation? count) with
  | none => exact .inl ((f.accepts_iff count).mpr hv)
  | some violation =>
    obtain ⟨a, ha, hb⟩ := Option.bind_eq_some_iff.mp hv
    exact .inr ⟨a, violation, ha, (a.violation?_eq_some_iff count violation).mp hb⟩

namespace Environment

variable {σ : Type}

/-- Evaluating the values in order, each of them once, leads from one state to the other. -/
inductive Evaluated (env : Environment σ) :
    (state : σ) → (vs ws : List Value) → (state' : σ) → Prop where
  | nil {state : σ} : env.Evaluated state [] [] state
  | cons {state middle state' : σ} {v w : Value} {vs ws : List Value} :
      (env.eval v).outcome state = some (.ok w, middle) →
      env.Evaluated middle vs ws state' → env.Evaluated state (v :: vs) (w :: ws) state'

/-- Evaluating the values in order ends at the first one that fails, with its error. -/
inductive Fails (env : Environment σ) (state : σ) :
    (vs : List Value) → (e : EvalError) → (state' : σ) → Prop where
  | first {middle state' : σ} {before after ws : List Value} {v : Value} {e : EvalError} :
      env.Evaluated state before ws middle →
      (env.eval v).outcome middle = some (.error e, state') →
      env.Fails state (before ++ v :: after) e state'

inductive Receives (env : Environment σ) (f : Form) :
    (state : σ) → (args received : List Value) → (state' : σ) → Prop where
  | written {state : σ} {args : List Value} : f.special = true →
      env.Receives f state args args state
  | values {state state' : σ} {args received : List Value} : f.special = false →
      env.Evaluated state args received state' → env.Receives f state args received state'

/-- The call ends, with this result and in this state, before the body of a form is entered. -/
inductive Stops (env : Environment σ) (state : σ) :
    List Value → Except EvalError (Option Value) → σ → Prop where
  | noCall {values : List Value} : (∀ s args, values ≠ .symbol s :: args) →
      env.Stops state values (.ok none) state
  | noForm {s : Symbol} {args : List Value} {e : EvalError} {state' : σ} :
      (env.lookupForm s).outcome state = some (.error e, state') →
      env.Stops state (.symbol s :: args) (.error e) state'
  | argument {s : Symbol} {f : Form} {args : List Value} {e : EvalError} {found state' : σ} :
      (env.lookupForm s).outcome state = some (.ok f, found) → f.special = false →
      env.Fails found args e state' → env.Stops state (.symbol s :: args) (.error e) state'
  | arity {s : Symbol} {f : Form} {a : Arity} {args received : List Value}
      {violation : Violation} {found state' : σ} :
      (env.lookupForm s).outcome state = some (.ok f, found) →
      env.Receives f found args received state' → f.arity? = some a →
      a.Breaks received.length violation →
      env.Stops state (.symbol s :: args) (.error (.arity f.name received.length violation)) state'

/-- The call enters the body of the form, with what it has received and in this state. -/
inductive Enters (env : Environment σ) (state : σ) :
    List Value → Form → (received : List Value) → σ → Prop where
  | body {s : Symbol} {f : Form} {args received : List Value} {found state' : σ} :
      (env.lookupForm s).outcome state = some (.ok f, found) →
      env.Receives f found args received state' → f.Accepts received.length →
      env.Enters state (.symbol s :: args) f received state'

variable {env : Environment σ} {state state' : σ}

theorem outcome_evalAll_of_evaluated {vs ws : List Value} (h : env.Evaluated state vs ws state') :
    (env.evalAll vs).outcome state = some (.ok ws, state') := by
  induction h with
  | nil => rfl
  | cons hv _ ih =>
    rw [evalAll, Eval.outcome_bind_of_ok hv, Eval.outcome_bind_of_ok ih]
    rfl

theorem Fails.later {v w : Value} {vs : List Value} {e : EvalError} {middle : σ}
    (hv : (env.eval v).outcome state = some (.ok w, middle)) (h : env.Fails middle vs e state') :
    env.Fails state (v :: vs) e state' := by
  cases h with
  | @first _ _ before after ws u _ hb hu =>
    show env.Fails state (v :: before ++ u :: after) e state'
    exact .first (.cons hv hb) hu

theorem outcome_evalAll_of_fails {vs : List Value} {e : EvalError}
    (h : env.Fails state vs e state') :
    (env.evalAll vs).outcome state = some (.error e, state') := by
  cases h with
  | first hb hv =>
    induction hb with
    | nil => rw [List.nil_append, evalAll, Eval.outcome_bind_of_error hv]
    | cons hu _ ih =>
      rw [List.cons_append, evalAll, Eval.outcome_bind_of_ok hu,
        Eval.outcome_bind_of_error (ih hv)]

theorem outcome_evalAll_cases {vs : List Value} {r : Except EvalError (List Value)}
    (h : (env.evalAll vs).outcome state = some (r, state')) :
    (∃ ws, r = .ok ws ∧ env.Evaluated state vs ws state') ∨
      ∃ e, r = .error e ∧ env.Fails state vs e state' := by
  induction vs generalizing state r with
  | nil =>
    obtain ⟨rfl, rfl⟩ := Prod.mk.inj (Option.some.inj h)
    exact .inl ⟨[], rfl, .nil⟩
  | cons v vs ih =>
    rcases Eval.outcome_bind_cases h with ⟨e, rfl, hv⟩ | ⟨w, middle, hv, hrest⟩
    · exact .inr ⟨e, rfl, .first .nil hv⟩
    rcases Eval.outcome_bind_cases hrest with ⟨e, rfl, hvs⟩ | ⟨ws, last, hvs, hr⟩
    · rcases ih hvs with ⟨ws, he, -⟩ | ⟨e', he, hf⟩
      · simp at he
      · exact .inr ⟨e', he, hf.later hv⟩
    · obtain ⟨rfl, rfl⟩ := Prod.mk.inj (Option.some.inj hr)
      rcases ih hvs with ⟨us, he, hu⟩ | ⟨e, he, -⟩
      · obtain rfl := Except.ok.inj he
        exact .inl ⟨w :: ws, rfl, .cons hv hu⟩
      · simp at he

theorem outcome_arguments_of_receives {f : Form} {args received : List Value}
    (h : env.Receives f state args received state') :
    (env.arguments f args).outcome state = some (.ok received, state') := by
  cases h with
  | written hs =>
    rw [arguments, if_pos hs]
    rfl
  | values hs he =>
    rw [arguments, if_neg (by simp [hs])]
    exact outcome_evalAll_of_evaluated he

theorem outcome_arguments_cases {f : Form} {args : List Value}
    {r : Except EvalError (List Value)}
    (h : (env.arguments f args).outcome state = some (r, state')) :
    (∃ received, r = .ok received ∧ env.Receives f state args received state') ∨
      ∃ e, r = .error e ∧ f.special = false ∧ env.Fails state args e state' := by
  unfold arguments at h
  split at h
  · next hs =>
    obtain ⟨rfl, rfl⟩ := Prod.mk.inj (Option.some.inj h)
    exact .inl ⟨args, rfl, .written hs⟩
  · next hs =>
    have hs : f.special = false := by simpa using hs
    rcases outcome_evalAll_cases h with ⟨ws, hr, hw⟩ | ⟨e, hr, hf⟩
    · exact .inl ⟨ws, hr, .values hs hw⟩
    · exact .inr ⟨e, hr, hs, hf⟩

theorem call_of_breaks {f : Form} {a : Arity} {args : List Value} {violation : Violation}
    (hf : f.arity? = some a) (h : a.Breaks args.length violation) :
    env.call f args = throw (.arity f.name args.length violation) := by
  have hv : f.arity?.bind (·.violation? args.length) = some violation := by
    rw [hf, Option.bind_some, a.violation?_eq_some_iff]
    exact h
  rw [call, hv]

theorem call_of_accepts {f : Form} {args : List Value} (h : f.Accepts args.length) :
    env.call f args = env.invoke f args := by
  rw [call, (f.accepts_iff args.length).mp h]

theorem evalCall_of_noCall (env : Environment σ) {values : List Value}
    (h : ∀ s args, values ≠ .symbol s :: args) : env.evalCall values = pure none := by
  cases values with
  | nil => rfl
  | cons v args =>
    cases v with
    | symbol s => exact absurd rfl (h s args)
    | string | list | form => rfl

theorem outcome_evalCall_of_stops {values : List Value} {r : Except EvalError (Option Value)}
    (h : env.Stops state values r state') :
    (env.evalCall values).outcome state = some (r, state') := by
  cases h with
  | noCall hn =>
    rw [env.evalCall_of_noCall hn]
    rfl
  | noForm hl => rw [evalCall, Eval.outcome_bind_of_error hl]
  | argument hl hs hf =>
    rw [evalCall, Eval.outcome_bind_of_ok hl, arguments, if_neg (by simp [hs]),
      Eval.outcome_bind_of_error (outcome_evalAll_of_fails hf)]
  | arity hl hr hf hb =>
    rw [evalCall, Eval.outcome_bind_of_ok hl,
      Eval.outcome_bind_of_ok (outcome_arguments_of_receives hr), call_of_breaks hf hb,
      Eval.outcome_bind_of_error (Eval.outcome_throw _ state')]

theorem outcome_evalCall_of_enters {values received : List Value} {f : Form}
    (h : env.Enters state values f received state') :
    (env.evalCall values).outcome state =
      ((env.invoke f received).outcome state').map fun (r, last) => (r.map some, last) := by
  cases h with
  | body hl hr ha =>
    rw [evalCall, Eval.outcome_bind_of_ok hl,
      Eval.outcome_bind_of_ok (outcome_arguments_of_receives hr), call_of_accepts ha,
      Eval.outcome_bind]
    cases (env.invoke f received).outcome state' with
    | none => rfl
    | some o => rcases o with ⟨_ | _, _⟩ <;> rfl

theorem stops_or_enters {values : List Value} {r : Except EvalError (Option Value)}
    (h : (env.evalCall values).outcome state = some (r, state')) :
    env.Stops state values r state' ∨
      ∃ f received middle, env.Enters state values f received middle := by
  by_cases hn : ∀ s args, values ≠ .symbol s :: args
  · rw [env.evalCall_of_noCall hn] at h
    obtain ⟨rfl, rfl⟩ := Prod.mk.inj (Option.some.inj h)
    exact .inl (.noCall hn)
  obtain ⟨s, args, rfl⟩ : ∃ s args, values = .symbol s :: args := by simpa using hn
  rcases Eval.outcome_bind_cases h with ⟨e, rfl, hl⟩ | ⟨f, found, hl, h⟩
  · exact .inl (.noForm hl)
  rcases Eval.outcome_bind_cases h with ⟨e, rfl, ha⟩ | ⟨received, middle, ha, h⟩
  · rcases outcome_arguments_cases ha with ⟨received, he, -⟩ | ⟨e', he, hs, hf⟩
    · simp at he
    · obtain rfl := Except.error.inj he
      exact .inl (.argument hl hs hf)
  · rcases outcome_arguments_cases ha with ⟨received', he, hr⟩ | ⟨e, he, -⟩
    · obtain rfl := Except.ok.inj he
      rcases f.accepts_or_breaks received.length with haccepts | ⟨a, violation, hf, hb⟩
      · exact .inr ⟨f, received, middle, .body hl hr haccepts⟩
      · rw [call_of_breaks hf hb, Eval.outcome_bind_of_error (Eval.outcome_throw _ middle)] at h
        obtain ⟨rfl, rfl⟩ := Prod.mk.inj (Option.some.inj h)
        exact .inl (.arity hl hr hf hb)
    · simp at he

theorem Evaluated.withInvoke {vs ws : List Value} (h : env.Evaluated state vs ws state')
    (invoke : Form → List Value → Eval σ Value) :
    ({ env with invoke } : Environment σ).Evaluated state vs ws state' := by
  induction h with
  | nil => exact .nil
  | cons hv _ ih => exact .cons hv ih

theorem Fails.withInvoke {vs : List Value} {e : EvalError} (h : env.Fails state vs e state')
    (invoke : Form → List Value → Eval σ Value) :
    ({ env with invoke } : Environment σ).Fails state vs e state' := by
  cases h with
  | first hb hv => exact .first (hb.withInvoke invoke) hv

theorem Receives.withInvoke {f : Form} {args received : List Value}
    (h : env.Receives f state args received state') (invoke : Form → List Value → Eval σ Value) :
    ({ env with invoke } : Environment σ).Receives f state args received state' := by
  cases h with
  | written hs => exact .written hs
  | values hs he => exact .values hs (he.withInvoke invoke)

theorem Stops.withInvoke {values : List Value} {r : Except EvalError (Option Value)}
    (h : env.Stops state values r state') (invoke : Form → List Value → Eval σ Value) :
    ({ env with invoke } : Environment σ).Stops state values r state' := by
  cases h with
  | noCall hn => exact .noCall hn
  | noForm hl => exact .noForm hl
  | argument hl hs hf => exact .argument hl hs (hf.withInvoke invoke)
  | arity hl hr hf hb => exact .arity hl (hr.withInvoke invoke) hf hb

/-- The calls of any environment. A list is found to be no call exactly if no symbol is at its
head, and then the state is left alone. A call that stops has the result and leaves the state that
`Stops` gives, whatever the bodies of forms would do. A call that enters a body ends as the body
does. There is no third way for a call to end. -/
theorem evalCall_protocol (env : Environment σ) (state : σ) (values : List Value) :
    (∀ state', (env.evalCall values).outcome state = some (.ok none, state') ↔
      (∀ s args, values ≠ .symbol s :: args) ∧ state' = state) ∧
    (∀ r state', env.Stops state values r state' →
      ∀ invoke : Form → List Value → Eval σ Value,
        (({ env with invoke } : Environment σ).evalCall values).outcome state =
          some (r, state')) ∧
    (∀ f received state', env.Enters state values f received state' →
      (env.evalCall values).outcome state =
        ((env.invoke f received).outcome state').map fun (r, last) => (r.map some, last)) ∧
    ∀ r state', (env.evalCall values).outcome state = some (r, state') →
      env.Stops state values r state' ∨
        ∃ f received middle, env.Enters state values f received middle := by
  refine ⟨?_, ?_, ?_, ?_⟩
  · intro state'
    constructor
    · intro h
      rcases stops_or_enters h with hstop | ⟨f, received, middle, henter⟩
      · cases hstop with
        | noCall hn => exact ⟨hn, rfl⟩
      · rw [outcome_evalCall_of_enters henter, Option.map_eq_some_iff] at h
        obtain ⟨⟨r, last⟩, -, he⟩ := h
        cases r <;> simp [Except.map] at he
    · rintro ⟨hn, rfl⟩
      exact outcome_evalCall_of_stops (.noCall hn)
  · intro r state' h invoke
    exact outcome_evalCall_of_stops (h.withInvoke invoke)
  · intro f received state' h
    exact outcome_evalCall_of_enters h
  · intro r state' h
    exact stops_or_enters h

end Environment

end Sexp
