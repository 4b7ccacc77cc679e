import Sexp.Value.Basic

/-!
# Equality of values

Values are compared by content: symbols by name, strings by text, lists element by element. Forms
are compared by `Form.same`, so two built-in forms with one name are equal whatever they do. This
alone makes equality coarser than identity: next to a value without forms there is no other value
that equals it.
-/

namespace Sexp.Value

mutual
def same : Value → Value → Bool
  | symbol a, symbol b => a == b
  | string a, string b => a == b
  | list as, list bs => sameAll as bs
  | form f, form g => f.same g
  | _, _ => false

def sameAll : List Value → List Value → Bool
  | [], [] => true
  | a :: as, b :: bs => a.same b && sameAll as bs
  | _, _ => false
end

instance : BEq Value := ⟨same⟩

mutual
theorem same_refl (v : Value) : v.same v = true := by
  cases v with
  | symbol | string => simp [same]
  | list vs => simpa [same] using sameAll_refl vs
  | form f => simpa [same] using f.same_refl

theorem sameAll_refl (vs : List Value) : sameAll vs vs = true := by
  cases vs with
  | nil => rfl
  | cons v vs => simp [sameAll, same_refl v, sameAll_refl vs]
end

instance : ReflBEq Value := ⟨same_refl _⟩

mutual
def symbols : Value → List Symbol
  | symbol s => [s]
  | string _ => []
  | list elements => symbolsAll elements
  | form _ => []

def symbolsAll : List Value → List Symbol
  | [] => []
  | v :: vs => v.symbols ++ symbolsAll vs
end

mutual
def forms : Value → List Form
  | symbol _ => []
  | string _ => []
  | list elements => formsAll elements
  | form f => [f]

def formsAll : List Value → List Form
  | [] => []
  | v :: vs => v.forms ++ formsAll vs
end

theorem symbolsAll_eq_flatMap (vs : List Value) : symbolsAll vs = vs.flatMap Value.symbols := by
  induction vs with
  | nil => rfl
  | cons v vs ih => rw [symbolsAll, ih, List.flatMap_cons]

theorem formsAll_eq_flatMap (vs : List Value) : formsAll vs = vs.flatMap Value.forms := by
  induction vs with
  | nil => rfl
  | cons v vs ih => rw [formsAll, ih, List.flatMap_cons]

mutual
theorem eq_of_same {v w : Value} (hf : v.forms = []) (h : v.same w = true) : v = w := by
  cases v with
  | symbol s => cases w <;> simp_all [same]
  | string text => cases w <;> simp_all [same]
  | list vs =>
    cases w with
    | list ws =>
      have he : vs = ws := eq_of_sameAll (by simpa [forms] using hf) (by simpa [same] using h)
      rw [he]
    | symbol | string | form => simp [same] at h
  | form f => simp [forms] at hf

theorem eq_of_sameAll {vs ws : List Value} (hf : formsAll vs = []) (h : sameAll vs ws = true) :
    vs = ws := by
  cases vs with
  | nil => cases ws <;> simp_all [sameAll]
  | cons v vs =>
    cases ws with
    | nil => simp [sameAll] at h
    | cons w ws =>
      rw [formsAll, List.append_eq_nil_iff] at hf
      rw [sameAll, Bool.and_eq_true] at h
      rw [eq_of_same hf.1 h.1, eq_of_sameAll hf.2 h.2]
end

end Sexp.Value
