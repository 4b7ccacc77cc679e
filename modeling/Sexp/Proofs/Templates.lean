import Sexp.Proofs.Failures

/-!
# Templates

A value in which no list has a symbol at its head holds no call, at any depth. It is a template:
evaluating it puts the bindings of its symbols in their places and does nothing else. The bindings
are taken as they are and are not evaluated in turn, even if they look like calls or hold symbols
that are bound themselves.

No form is carried out for it. Therefore it holds in the same way where something is done around the
bodies of forms, and where these are recorded the record stays as it is.
-/

namespace Sexp

namespace Value

mutual
/-- No list within the value has a symbol at its head. -/
def isTemplate : Value → Bool
  | list elements => (elements.head?.bind symbol?).isNone && areTemplates elements
  | symbol _ | string _ | form _ => true

def areTemplates : List Value → Bool
  | [] => true
  | v :: vs => v.isTemplate && areTemplates vs
end

mutual
def substitute (binding : Symbol → Option Value) : Value → Value
  | symbol s => (binding s).getD (symbol s)
  | string text => string text
  | list elements => list (substituteAll binding elements)
  | form f => form f

def substituteAll (binding : Symbol → Option Value) : List Value → List Value
  | [] => []
  | v :: vs => v.substitute binding :: substituteAll binding vs
end

variable {binding : Symbol → Option Value}

mutual
theorem substitute_of_unbound {v : Value} (h : ∀ s ∈ v.symbols, binding s = none) :
    v.substitute binding = v := by
  cases v with
  | symbol s =>
    have hs : binding s = none := h s (by simp [symbols])
    rw [substitute, hs]
    rfl
  | string | form => rfl
  | list vs => rw [substitute, substituteAll_of_unbound h]

theorem substituteAll_of_unbound {vs : List Value} (h : ∀ s ∈ symbolsAll vs, binding s = none) :
    substituteAll binding vs = vs := by
  cases vs with
  | nil => rfl
  | cons v vs =>
    obtain ⟨hv, hvs⟩ := List.forall_mem_append.mp h
    rw [substituteAll, substitute_of_unbound hv, substituteAll_of_unbound hvs]
end

theorem noCall_of_isTemplate {vs : List Value} (h : (list vs).isTemplate = true) :
    ∀ s args, vs ≠ symbol s :: args := by
  rintro s args rfl
  simp [isTemplate, symbol?] at h

end Value

namespace Scope

open Value

section Template

variable {σ : Type} (scope : Scope) (around : Form → List Value → Eval σ Value → Eval σ Value)

mutual
theorem eval_template {v : Value} (hv : v.isTemplate = true) {n : Nat} (hn : v.nodes ≤ n) :
    (scope.policy.environmentWith around n).eval v = pure (v.substitute scope.lookup) := by
  cases v with
  | symbol s => rw [Environment.eval, Policy.evalSymbol_environmentWith]; rfl
  | string text => rw [Environment.eval, Policy.evalString_environmentWith]; rfl
  | form f => rfl
  | list vs =>
    have hcall := noCall_of_isTemplate hv
    rw [isTemplate, Bool.and_eq_true] at hv
    rw [nodes] at hn
    -- The list itself is one of the nodes, so there is a level for it.
    obtain ⟨m, rfl⟩ : ∃ m, n = m + 1 := Nat.exists_eq_add_one.mpr (by omega)
    have hall := evalAll_template hv.2 (n := m) (by omega)
    show (scope.policy.environmentWith around m).evalCallOrElements vs = _
    rw [Environment.evalCallOrElements, Environment.evalCall_of_noCall _ hcall, pure_bind, hall,
      pure_bind, substitute]

theorem evalAll_template {vs : List Value} (hvs : areTemplates vs = true) {n : Nat}
    (hn : nodesAll vs ≤ n) : (scope.policy.environmentWith around n).evalAll vs =
      pure (substituteAll scope.lookup vs) := by
  cases vs with
  | nil => rfl
  | cons v vs =>
    rw [areTemplates, Bool.and_eq_true] at hvs
    rw [nodesAll] at hn
    have hfirst := eval_template hvs.1 (n := n) (by omega)
    have hothers := evalAll_template hvs.2 (n := n) (by omega)
    rw [Environment.evalAll, hfirst, pure_bind, hothers, pure_bind, substituteAll]
end

end Template

/-- A template has one outcome in every scope, which is the template with its symbols replaced by
their bindings, and no form is carried out on the way. A template whose symbols are not bound
stands for itself. -/
theorem evaluates_template {v : Value} (h : v.isTemplate = true) (scope : Scope) :
    (∀ o, scope.policy.Evaluates () v o ↔ o = (.ok (v.substitute scope.lookup), ())) ∧
    (∀ depth, v.nodes ≤ depth → ∀ calls,
      ((scope.policy.recorded depth).eval v).outcome calls =
        some (.ok (v.substitute scope.lookup), calls)) ∧
    ((∀ s ∈ v.symbols, scope.lookup s = none) → scope.policy.Evaluates () v (.ok v, ())) := by
  have hv : scope.policy.Evaluates () v (.ok (v.substitute scope.lookup), ()) := by
    refine ⟨v.nodes, ?_⟩
    rw [Policy.environment, scope.eval_template _ h (Nat.le_refl _)]
    rfl
  refine ⟨?_, ?_, ?_⟩
  · intro o
    constructor
    · intro ho
      exact scope.policy_monotone.evaluates_unique ho hv
    · rintro rfl
      exact hv
  · intro depth hdepth calls
    rw [Policy.recorded, scope.eval_template _ h hdepth]
    rfl
  · intro hs
    rwa [Value.substitute_of_unbound hs] at hv

/-- The binding of one symbol is a call of a form that is bound as well, and that of another one,
which hides an older one, is a bound symbol. -/
theorem evaluates_template_bindings :
    let call : Value := .list [.symbol ⟨"CAT"⟩, .symbol ⟨"Y"⟩]
    let scope := ((Shell.scope.bind ⟨"X"⟩ call).bind ⟨"Y"⟩ (.string "old")).inside.bind ⟨"Y"⟩
      (.symbol ⟨"X"⟩)
    let v : Value := .list [.string "a", .symbol ⟨"X"⟩,
      .list [.list [], .symbol ⟨"Y"⟩, .symbol ⟨"Z"⟩], .list [.form Shell.catForm, .symbol ⟨"Y"⟩]]
    v.isTemplate = true ∧
      scope.policy.Evaluates () v (.ok (.list [.string "a", call,
        .list [.list [], .symbol ⟨"X"⟩, .symbol ⟨"Z"⟩],
        .list [.form Shell.catForm, .symbol ⟨"X"⟩]]), ()) := by
  intro call scope v
  exact ⟨rfl, ((evaluates_template rfl scope).1 _).mpr rfl⟩

end Scope

end Sexp
