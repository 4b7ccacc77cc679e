import Sexp.Eval.Policy
import Sexp.Eval.Relation
import Sexp.Proofs.CallProtocol

/-!
# Simulations

A simulation compares evaluation in two environments, as long as it comes across known symbols and
forms only. If the environments answer alike where they are asked about what is known, and their
answers are known again, then values, lists of values and calls are evaluated alike in them. If two
policies treat lists in this way, so do their environments of every depth.
-/

namespace Sexp

namespace Value

def Over (X : Symbol → Prop) (Y : Form → Prop) (v : Value) : Prop :=
  (∀ s ∈ v.symbols, X s) ∧ ∀ f ∈ v.forms, Y f

section Over

variable {X : Symbol → Prop} {Y : Form → Prop}

theorem over_symbol {s : Symbol} : (symbol s).Over X Y ↔ X s := by
  simp [Over, symbols, forms]

theorem over_string (text : String) : (string text).Over X Y := by
  simp [Over, symbols, forms]

theorem over_form {f : Form} : (form f).Over X Y ↔ Y f := by
  simp [Over, symbols, forms]

theorem over_list {vs : List Value} : (list vs).Over X Y ↔ ∀ v ∈ vs, v.Over X Y := by
  simp only [Over, symbols, forms, symbolsAll_eq_flatMap, formsAll_eq_flatMap, List.mem_flatMap]
  constructor
  · intro h v hv
    exact ⟨fun s hs => h.1 s ⟨v, hv, hs⟩, fun f hf => h.2 f ⟨v, hv, hf⟩⟩
  · intro h
    constructor
    · rintro s ⟨v, hv, hs⟩
      exact (h v hv).1 s hs
    · rintro f ⟨v, hv, hf⟩
      exact (h v hv).2 f hf

end Over

end Value

variable {σ τ : Type}

structure Simulation (σ τ : Type) extends Eval.Relation σ τ where
  symbol : Symbol → Prop
  form : Form → Prop
  /-- The forms that symbols are found to name. -/
  callable : Form → Prop
  permits_arity : ∀ {f : Form} {a : Arity} {count : Nat} {violation : Violation}, callable f →
    f.arity? = some a → a.Breaks count violation → Permits (.arity f.name count violation)

namespace Simulation

variable {S : Simulation σ τ} {env : Environment σ} {env' : Environment τ}

def Knows (S : Simulation σ τ) (v : Value) : Prop := v.Over S.symbol S.form

structure Environments (S : Simulation σ τ) (env : Environment σ) (env' : Environment τ) :
    Prop where
  lookupForm : ∀ s, S.symbol s → S.Holds (env.lookupForm s) (env'.lookupForm s) S.callable
  evalString : ∀ text, S.Holds (env.evalString text) (env'.evalString text) S.Knows
  evalSymbol : ∀ s, S.symbol s → S.Holds (env.evalSymbol s) (env'.evalSymbol s) S.Knows
  evalList : ∀ vs, (∀ v ∈ vs, S.Knows v) → S.Holds (env.evalList vs) (env'.evalList vs) S.Knows
  invoke : ∀ f args, S.callable f → f.Accepts args.length → (∀ v ∈ args, S.Knows v) →
    S.Holds (env.invoke f args) (env'.invoke f args) S.Knows

namespace Environments

theorem eval (h : S.Environments env env') {v : Value} (hv : S.Knows v) :
    S.Holds (env.eval v) (env'.eval v) S.Knows := by
  cases v with
  | symbol s => exact h.evalSymbol s (Value.over_symbol.mp hv)
  | string text => exact h.evalString text
  | list vs => exact h.evalList vs (Value.over_list.mp hv)
  | form f => exact S.pure hv

theorem evalAll (h : S.Environments env env') {vs : List Value} (hvs : ∀ v ∈ vs, S.Knows v) :
    S.Holds (env.evalAll vs) (env'.evalAll vs) (∀ w ∈ ·, S.Knows w) :=
  S.toRelation.evalAll env env' (A := fun _ ws => ∀ w ∈ ws, S.Knows w) nofun
    (fun hw hws => List.forall_mem_cons.mpr ⟨hw, hws⟩) fun v hv => h.eval (hvs v hv)

theorem arguments (h : S.Environments env env') (f : Form) {args : List Value}
    (hargs : ∀ v ∈ args, S.Knows v) :
    S.Holds (env.arguments f args) (env'.arguments f args) (∀ w ∈ ·, S.Knows w) :=
  S.toRelation.arguments env env' (A := fun _ ws => ∀ w ∈ ws, S.Knows w) nofun
    (fun hw hws => List.forall_mem_cons.mpr ⟨hw, hws⟩) f hargs fun v hv => h.eval (hargs v hv)

theorem call (h : S.Environments env env') {f : Form} (hf : S.callable f) {args : List Value}
    (hargs : ∀ v ∈ args, S.Knows v) :
    S.Holds (env.call f args) (env'.call f args) S.Knows := by
  refine S.toRelation.call env env' (fun hv => ?_) fun violation hv => ?_
  · exact h.invoke f args hf ((f.accepts_iff _).mpr hv) hargs
  · obtain ⟨a, ha, hb⟩ := Option.bind_eq_some_iff.mp hv
    exact S.permits_arity hf ha ((a.violation?_eq_some_iff _ violation).mp hb)

theorem evalCall (h : S.Environments env env') {vs : List Value} (hvs : ∀ v ∈ vs, S.Knows v) :
    S.Holds (env.evalCall vs) (env'.evalCall vs) (∀ w, · = some w → S.Knows w) := by
  refine S.toRelation.evalCall env env' ?_
  rintro s args rfl
  obtain ⟨hs, hargs⟩ := List.forall_mem_cons.mp hvs
  exact ⟨S.callable, (∀ w ∈ ·, S.Knows w), h.lookupForm s (Value.over_symbol.mp hs),
    fun f hf => ⟨h.arguments f hargs, fun ws hws => h.call hf hws⟩⟩

theorem evalCallOrElements (h : S.Environments env env') {vs : List Value}
    (hvs : ∀ v ∈ vs, S.Knows v) :
    S.Holds (env.evalCallOrElements vs) (env'.evalCallOrElements vs) S.Knows :=
  S.toRelation.evalCallOrElements env env' (h.evalCall hvs) (h.evalAll hvs)
    fun _ hws => Value.over_list.mpr hws

end Environments

structure Policies (S : Simulation σ τ) (p : Policy σ) (q : Policy τ) : Prop where
  lookupForm : ∀ s, S.symbol s → S.Holds (p.lookupForm s) (q.lookupForm s) S.callable
  evalString : ∀ text, S.Holds (p.evalString text) (q.evalString text) S.Knows
  evalSymbol : ∀ s, S.symbol s → S.Holds (p.evalSymbol s) (q.evalSymbol s) S.Knows
  evalList : ∀ {env env'}, S.Environments env env' → ∀ vs, (∀ v ∈ vs, S.Knows v) →
    S.Holds (p.evalList env vs) (q.evalList env' vs) S.Knows

/-- Without depth an environment gets through no list and no form, which the other one has to
allow. -/
theorem Policies.environmentWith {p : Policy σ} {q : Policy τ} (h : S.Policies p q)
    (around : Form → List Value → Eval σ Value → Eval σ Value)
    (around' : Form → List Value → Eval τ Value → Eval τ Value) {k : Nat}
    (hlist : ∀ vs, S.Holds .unfinished ((q.environmentWith around' k).evalList vs) S.Knows)
    (hinvoke : ∀ f args,
      S.Holds .unfinished ((q.environmentWith around' k).invoke f args) S.Knows)
    (hrun : ∀ {env env'}, S.Environments env env' → ∀ f args, S.callable f →
      f.Accepts args.length → (∀ v ∈ args, S.Knows v) →
      S.Holds (around f args (f.run env args)) (around' f args (f.run env' args)) S.Knows)
    (n : Nat) :
    S.Environments (p.environmentWith around n) (q.environmentWith around' (n + k)) := by
  induction n with
  | zero =>
    rw [Nat.zero_add]
    constructor
    case lookupForm => simpa using h.lookupForm
    case evalString => simpa using h.evalString
    case evalSymbol => simpa using h.evalSymbol
    case evalList => exact fun vs _ => hlist vs
    case invoke => exact fun f args _ _ _ => hinvoke f args
  | succ n ih =>
    rw [Nat.add_right_comm]
    exact ⟨h.lookupForm, h.evalString, h.evalSymbol, h.evalList ih, hrun ih⟩

end Simulation

end Sexp
