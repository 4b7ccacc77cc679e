import Sexp.Proofs.RoundTrip

/-!
# Laws of equality

Two values are equal exactly if they become one and the same when each built-in form is replaced
by a form that has nothing but its name. So equality is an equivalence, and it is one that printing
respects, since of a built-in form only the name is printed. For readable values it is the finest
such equivalence: no two of them are printed alike.

Lists that share their storage need not be compared element by element. How much is shared is not
known here; whatever it is, the answer is the same.
-/

namespace Sexp

def Form.representative : Form → Form
  | builtin name _ _ _ => builtin name false (.atLeast 0) .list
  | foreign name special serial => foreign name special serial

@[simp] theorem Form.name_representative (f : Form) : f.representative.name = f.name := by
  cases f <;> rfl

theorem Form.same_iff (f g : Form) : f.same g = true ↔ f.representative = g.representative := by
  cases f <;> cases g <;> simp [same, representative, and_assoc]

theorem Form.same_iff_eq_or_name (f g : Form) :
    f.same g = true ↔
      f = g ∨ f.arity?.isSome = true ∧ g.arity?.isSome = true ∧ f.name = g.name := by
  cases f <;> cases g <;> simp +contextual [same, arity?, name, and_assoc]

namespace Value

mutual
def representative : Value → Value
  | symbol s => symbol s
  | string text => string text
  | list elements => list (representatives elements)
  | form f => form f.representative

def representatives : List Value → List Value
  | [] => []
  | v :: vs => v.representative :: representatives vs
end

theorem representatives_eq_map (vs : List Value) :
    representatives vs = vs.map representative := by
  induction vs with
  | nil => rfl
  | cons v vs ih => rw [representatives, ih, List.map_cons]

mutual
theorem same_iff (v w : Value) : v.same w = true ↔ v.representative = w.representative := by
  cases v with
  | symbol s => cases w <;> simp [same, representative]
  | string text => cases w <;> simp [same, representative]
  | list vs =>
    cases w with
    | list ws => simpa [same, representative] using sameAll_iff vs ws
    | symbol | string | form => simp [same, representative]
  | form f =>
    cases w with
    | form g => simpa [same, representative] using f.same_iff g
    | symbol | string | list => simp [same, representative]

theorem sameAll_iff (vs ws : List Value) :
    sameAll vs ws = true ↔ representatives vs = representatives ws := by
  cases vs with
  | nil => cases ws <;> simp [sameAll, representatives]
  | cons v vs =>
    cases ws with
    | nil => simp [sameAll, representatives]
    | cons w ws => simp [sameAll, representatives, same_iff v w, sameAll_iff vs ws]
end

theorem beq_iff (v w : Value) : (v == w) = true ↔ v.representative = w.representative :=
  same_iff v w

instance : EquivBEq Value where
  symm := by
    intro v w h
    exact (beq_iff w v).mpr ((beq_iff v w).mp h).symm
  trans := by
    intro u v w h h'
    exact (beq_iff u w).mpr (((beq_iff u v).mp h).trans ((beq_iff v w).mp h'))

theorem beq_list_iff (vs ws : List Value) :
    (list vs == list ws) = true ↔ vs.length = ws.length ∧
      ∀ (i : Nat) v w, vs[i]? = some v → ws[i]? = some w → (v == w) = true := by
  rw [beq_iff, representative, representative, list.injEq, representatives_eq_map,
    representatives_eq_map]
  constructor
  · intro h
    refine ⟨by simpa using congrArg List.length h, fun i v w hv hw => (beq_iff v w).mpr ?_⟩
    have hi := congrArg (·[i]?) h
    simpa [hv, hw] using hi
  · rintro ⟨hlength, h⟩
    apply List.ext_getElem
    · simpa using hlength
    · intro i hi hi'
      rw [List.length_map] at hi hi'
      have hs := h i _ _ (List.getElem?_eq_getElem hi) (List.getElem?_eq_getElem hi')
      simpa using (beq_iff _ _).mp hs

mutual
theorem chars_representative (v : Value) : v.representative.chars = v.chars := by
  cases v with
  | symbol | string => rfl
  | form f => simp [representative, chars]
  | list vs =>
    cases vs with
    | nil => rfl
    | cons v vs =>
      simp only [representative, representatives, chars, chars_representative v,
        charsAfter_representatives vs]

theorem charsAfter_representatives (vs : List Value) :
    charsAfter (representatives vs) = charsAfter vs := by
  cases vs with
  | nil => rfl
  | cons v vs =>
    simp only [representatives, charsAfter, chars_representative v, charsAfter_representatives vs]
end

theorem chars_eq_of_beq {v w : Value} (h : (v == w) = true) : v.chars = w.chars := by
  rw [← chars_representative v, (beq_iff v w).mp h, chars_representative]

theorem eq_of_render_eq {v w : Value} (hv : v.Readable) (hw : w.Readable)
    (h : v.render = w.render) : v = w := by
  have hread := hv.readText_render
  rw [h, hw.readText_render] at hread
  exact (Except.ok.inj hread).symm

section Sharing

variable (shared : List Value → List Value → Bool)

mutual
/-- Comparison that does not look into two lists that share their storage. -/
def sameUnlessShared : Value → Value → Bool
  | symbol a, symbol b => a == b
  | string a, string b => a == b
  | list as, list bs => shared as bs || sameAllUnlessShared as bs
  | form f, form g => f.same g
  | _, _ => false

def sameAllUnlessShared : List Value → List Value → Bool
  | [], [] => true
  | a :: as, b :: bs => a.sameUnlessShared b && sameAllUnlessShared as bs
  | _, _ => false
end

variable {shared}

mutual
theorem sameUnlessShared_eq (h : ∀ vs ws, shared vs ws = true → vs = ws) (v w : Value) :
    v.sameUnlessShared shared w = v.same w := by
  cases v with
  | symbol | string | form => cases w <;> rfl
  | list vs =>
    cases w with
    | symbol | string | form => rfl
    | list ws =>
      rw [sameUnlessShared, same, sameAllUnlessShared_eq h vs ws]
      cases hs : shared vs ws with
      | false => rfl
      | true =>
        obtain rfl := h vs ws hs
        rw [sameAll_refl]
        rfl

theorem sameAllUnlessShared_eq (h : ∀ vs ws, shared vs ws = true → vs = ws)
    (vs ws : List Value) : sameAllUnlessShared shared vs ws = sameAll vs ws := by
  cases vs with
  | nil => cases ws <;> rfl
  | cons v vs =>
    cases ws with
    | nil => rfl
    | cons w ws =>
      rw [sameAllUnlessShared, sameAll, sameUnlessShared_eq h v w, sameAllUnlessShared_eq h vs ws]
end

end Sharing

/-- Equality is an equivalence on all values. Built-in forms are compared by name and other forms
by identity, and lists element by element, whether or not shared lists are skipped. Equal values
are printed alike, and readable values that are printed alike are equal. -/
theorem equality_and_rendering :
    Equivalence (fun v w : Value => (v == w) = true) ∧
    (∀ f g, (form f == form g) = true ↔
      f = g ∨ f.arity?.isSome = true ∧ g.arity?.isSome = true ∧ f.name = g.name) ∧
    (∀ vs ws, (list vs == list ws) = true ↔ vs.length = ws.length ∧
      ∀ (i : Nat) v w, vs[i]? = some v → ws[i]? = some w → (v == w) = true) ∧
    (∀ shared, (∀ vs ws, shared vs ws = true → vs = ws) →
      ∀ v w : Value, v.sameUnlessShared shared w = (v == w)) ∧
    (∀ v w : Value, (v == w) = true → v.render = w.render ∧ v.encode = w.encode) ∧
    ∀ v w : Value, v.Readable → w.Readable → v.render = w.render → (v == w) = true := by
  refine ⟨⟨fun v => BEq.rfl, BEq.symm, BEq.trans⟩, Form.same_iff_eq_or_name, beq_list_iff,
    ?_, ?_, ?_⟩
  · intro shared h v w
    exact sameUnlessShared_eq h v w
  · intro v w h
    have hchars := chars_eq_of_beq h
    rw [render, encode, hchars]
    exact ⟨rfl, rfl⟩
  · intro v w hv hw h
    rw [eq_of_render_eq hv hw h]
    exact BEq.rfl

end Value

end Sexp
