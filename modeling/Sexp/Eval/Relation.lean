import Sexp.Eval.Environment

/-!
# Relations between evaluations

Two evaluations are compared by a relation that speaks of their outcomes and of the results that
they may have. If the operations of evaluations preserve the relation, then so do the functions of
environments, which are made of these operations only: whatever holds of the questions that two
environments are asked holds of lists of values and of calls.

What is said of the result of a value may depend on the value, and what is said of the results of a
list may be something else than the same for each element.
-/

namespace Sexp

structure Eval.Relation (σ τ : Type) where
  /-- The evaluations are related, and a result satisfies the property. -/
  Holds : {α : Type} → Eval σ α → Eval τ α → (α → Prop) → Prop
  Permits : EvalError → Prop
  pure : ∀ {α : Type} {P : α → Prop} {a : α}, P a → Holds (Pure.pure a) (Pure.pure a) P
  throw : ∀ {α : Type} {P : α → Prop} {e : EvalError}, Permits e →
    Holds (MonadExcept.throw e) (MonadExcept.throw e) P
  bind : ∀ {α β : Type} {P : α → Prop} {Q : β → Prop} {x : Eval σ α} {y : Eval τ α}
    {f : α → Eval σ β} {g : α → Eval τ β}, Holds x y P → (∀ a, P a → Holds (f a) (g a) Q) →
    Holds (x >>= f) (y >>= g) Q

namespace Eval.Relation

variable {σ τ α : Type} (R : Eval.Relation σ τ)

theorem lift {P : α → Prop} {r : Except EvalError α} (hok : ∀ a, r = .ok a → P a)
    (herror : ∀ e, r = .error e → R.Permits e) : R.Holds (liftM r) (liftM r) P := by
  cases r with
  | ok a => exact R.pure (hok a rfl)
  | error e => exact R.throw (herror e rfl)

variable (env : Environment σ) (env' : Environment τ)

section Arguments

variable {P : Value → Value → Prop} {A : List Value → List Value → Prop}

theorem evalAll (hnil : A [] [])
    (hcons : ∀ {v w vs ws}, P v w → A vs ws → A (v :: vs) (w :: ws)) {vs : List Value}
    (h : ∀ v ∈ vs, R.Holds (env.eval v) (env'.eval v) (P v)) :
    R.Holds (env.evalAll vs) (env'.evalAll vs) (A vs) := by
  induction vs with
  | nil => exact R.pure hnil
  | cons v vs ih =>
    refine R.bind (h v List.mem_cons_self) fun w hw => ?_
    refine R.bind (ih fun u hu => h u (List.mem_cons_of_mem v hu)) fun ws hws => ?_
    exact R.pure (hcons hw hws)

theorem arguments (hnil : A [] [])
    (hcons : ∀ {v w vs ws}, P v w → A vs ws → A (v :: vs) (w :: ws)) (f : Form)
    {args : List Value} (hwritten : A args args)
    (h : ∀ v ∈ args, R.Holds (env.eval v) (env'.eval v) (P v)) :
    R.Holds (env.arguments f args) (env'.arguments f args) (A args) := by
  unfold Environment.arguments
  split
  · exact R.pure hwritten
  · exact R.evalAll env env' hnil hcons h

end Arguments

variable {P : Value → Prop}

theorem call {f : Form} {args : List Value}
    (hinvoke : f.arity?.bind (·.violation? args.length) = none →
      R.Holds (env.invoke f args) (env'.invoke f args) P)
    (harity : ∀ violation, f.arity?.bind (·.violation? args.length) = some violation →
      R.Permits (.arity f.name args.length violation)) :
    R.Holds (env.call f args) (env'.call f args) P := by
  unfold Environment.call
  split
  · next violation hv => exact R.throw (harity violation hv)
  · next hv => exact hinvoke hv

theorem evalCall {vs : List Value} (h : ∀ s args, vs = .symbol s :: args →
      ∃ (called : Form → Prop) (received : List Value → Prop),
        R.Holds (env.lookupForm s) (env'.lookupForm s) called ∧
        ∀ f, called f → R.Holds (env.arguments f args) (env'.arguments f args) received ∧
          ∀ ws, received ws → R.Holds (env.call f ws) (env'.call f ws) P) :
    R.Holds (env.evalCall vs) (env'.evalCall vs) (∀ w, · = some w → P w) := by
  unfold Environment.evalCall
  split
  · next s args =>
    obtain ⟨called, received, hlookup, hform⟩ := h s args rfl
    refine R.bind hlookup fun f hf => ?_
    obtain ⟨harguments, hcall⟩ := hform f hf
    refine R.bind harguments fun ws hws => R.bind (hcall ws hws) fun w hw => R.pure ?_
    rintro _ ⟨⟩
    exact hw
  · exact R.pure nofun

theorem evalCallOrElements {A : List Value → Prop} {vs : List Value}
    (hcall : R.Holds (env.evalCall vs) (env'.evalCall vs) (∀ w, · = some w → P w))
    (hall : R.Holds (env.evalAll vs) (env'.evalAll vs) A) (hlist : ∀ ws, A ws → P (.list ws)) :
    R.Holds (env.evalCallOrElements vs) (env'.evalCallOrElements vs) P := by
  refine R.bind hcall fun result hresult => ?_
  cases result with
  | some w => exact R.pure (hresult w rfl)
  | none => exact R.bind hall fun ws hws => R.pure (hlist ws hws)

end Eval.Relation

end Sexp
