import Sexp.Proofs.Simulation
import Sexp.Proofs.Termination

/-!
# What evaluation sees of a scope

The forms of the shell make no symbols of their own. So the symbols that an evaluation comes across
are those of the value, those in the bindings of these, and so on, also when bindings become code.
Whatever a scope says of other symbols plays no part, and neither does the way in which its
bindings are spread over the scopes around it. Two scopes that agree on the symbols within reach
have the same outcome, or both have none.

Two evaluations are compared by a simulation, each in a state of its own, to which the symbols
within reach are known. They end alike, and they leave their states as they found them.
-/

namespace Sexp

variable {σ τ α β : Type}

/-- From these states, the evaluations end alike or not at all, the states are kept, and a result
satisfies `P`. -/
def Eval.Agree (s : σ) (t : τ) (x : Eval σ α) (y : Eval τ α) (P : α → Prop) : Prop :=
  ∃ r : Option (Except EvalError α),
    x.outcome s = r.map (·, s) ∧ y.outcome t = r.map (·, t) ∧ ∀ a, r = some (.ok a) → P a

namespace Eval.Agree

variable {s : σ} {t : τ} {x : Eval σ α} {y : Eval τ α} {P : α → Prop} {Q : β → Prop}

theorem pure {a : α} (h : P a) : Agree s t (pure a) (pure a) P := by
  refine ⟨some (.ok a), rfl, rfl, ?_⟩
  rintro _ ⟨⟩
  exact h

theorem throw (e : EvalError) : Agree s t (throw e) (throw e) P := by
  refine ⟨some (.error e), rfl, rfl, ?_⟩
  rintro _ ⟨⟩

theorem unfinished : Agree s t .unfinished .unfinished P := by
  refine ⟨none, rfl, rfl, ?_⟩
  rintro _ ⟨⟩

theorem bind {f : α → Eval σ β} {g : α → Eval τ β} (h : Agree s t x y P)
    (hf : ∀ a, P a → Agree s t (f a) (g a) Q) : Agree s t (x >>= f) (y >>= g) Q := by
  obtain ⟨r, hx, hy, hr⟩ := h
  match r with
  | none => exact ⟨none, by simp [outcome_bind, hx], by simp [outcome_bind, hy], by simp⟩
  | some (.error e) =>
    exact ⟨some (.error e), by simp [outcome_bind, hx], by simp [outcome_bind, hy], by simp⟩
  | some (.ok a) =>
    obtain ⟨r', hf', hg', hr'⟩ := hf a (hr a rfl)
    exact ⟨r', by simp [outcome_bind, hx, hf'], by simp [outcome_bind, hy, hg'], hr'⟩

end Eval.Agree

/-- A built-in form with one of the bodies that the forms of the shell have. -/
def Form.Hosted : Form → Prop
  | builtin _ _ _ body => body = .list ∨ body = .concat ∨ body = .evaluate
  | foreign _ _ _ => False

def agreement (X : Symbol → Prop) (s : σ) (t : τ) : Simulation σ τ where
  Holds := Eval.Agree s t
  Permits _ := True
  pure := .pure
  throw _ := .throw _
  bind := .bind
  symbol := X
  form _ := True
  callable := Form.Hosted
  permits_arity _ _ _ := trivial

namespace agreement

variable {X : Symbol → Prop} {s : σ} {t : τ} {p : Policy σ} {q : Policy τ}

theorem knows_iff {v : Value} : (agreement X s t).Knows v ↔ ∀ a ∈ v.symbols, X a :=
  and_iff_left fun _ _ => trivial

theorem run {env : Environment σ} {env' : Environment τ}
    (h : (agreement X s t).Environments env env') {f : Form} (hf : f.Hosted) {args : List Value}
    (hargs : ∀ v ∈ args, (agreement X s t).Knows v) :
    Eval.Agree s t (f.run env args) (f.run env' args) (agreement X s t).Knows := by
  cases f with
  | foreign => exact absurd hf id
  | builtin name special arity body =>
    rcases hf with rfl | rfl | rfl
    · exact .pure (Value.over_list.mpr hargs)
    · refine .bind (P := fun _ => True) ?_ fun text _ => .pure (Value.over_string text)
      exact (agreement X s t).lift (fun _ _ => trivial) fun _ _ => trivial
    · refine (agreement X s t).bind ((agreement X s t).lift ?_ fun _ _ => trivial) fun v => h.eval
      intro v hv
      cases args with
      | nil => simp [Arguments.get] at hv
      | cons w ws =>
        obtain rfl : w = v := by simpa [Arguments.get] using hv
        exact hargs w List.mem_cons_self

theorem environments (h : (agreement X s t).Policies p q) (n : Nat) :
    (agreement X s t).Environments (p.environment n) (q.environment n) :=
  h.environmentWith (k := 0) (fun _ _ body => body) (fun _ _ body => body)
    (fun _ => .unfinished) (fun _ _ => .unfinished) (fun he _ _ hf _ hargs => run he hf hargs) n

theorem evaluates_iff (h : (agreement X s t).Policies p q) {v : Value}
    (hv : ∀ a ∈ v.symbols, X a) (r : Except EvalError Value) :
    p.Evaluates s v (r, s) ↔ q.Evaluates t v (r, t) := by
  refine exists_congr fun n => ?_
  obtain ⟨r', hp, hq, -⟩ := (environments h n).eval (knows_iff.mpr hv)
  rw [hp, hq]
  cases r' <;> simp

end agreement

namespace Table

variable {κ : Type} [DecidableEq κ]

def merge (inner outer : Table κ α) : Table κ α :=
  inner.entries.foldr (fun entry t => t.insert entry.1 entry.2) outer

theorem get?_merge (inner outer : Table κ α) (k : κ) :
    (inner.merge outer).get? k = (inner.get? k).or (outer.get? k) := by
  unfold merge get?
  induction inner.entries with
  | nil => rfl
  | cons entry entries ih =>
    have hi := get?_insert (entries.foldr (fun e t => t.insert e.1 e.2) outer) entry.1 k entry.2
    rw [get?] at hi
    rw [List.foldr_cons, hi]
    by_cases hk : k = entry.1
    · simp [hk]
    · simp [hk, Ne.symm hk, ih, get?]

end Table

namespace Scope

def flatten (scope : Scope) : Scope :=
  ⟨(scope.locals :: scope.ancestors).foldr Table.merge .empty, []⟩

theorem lookup_flatten (scope : Scope) (s : Symbol) : scope.flatten.lookup s = scope.lookup s := by
  have hall (tables : List (Table Symbol Value)) :
      (tables.foldr Table.merge .empty).get? s = tables.findSome? (·.get? s) := by
    induction tables with
    | nil => rfl
    | cons locals tables ih =>
      rw [List.foldr_cons, Table.get?_merge, ih, List.findSome?_cons]
      cases locals.get? s <;> rfl
  rw [lookup, flatten, List.findSome?_cons, hall]
  cases h : (scope.locals :: scope.ancestors).findSome? (·.get? s) <;> simp [lookup, h]

theorem policy_congr {m₁ m₂ : Scope} (h : ∀ s, m₁.lookup s = m₂.lookup s) :
    (m₁.policy : Policy σ) = m₂.policy := by
  simp only [policy, lookupForm, h]

theorem policy_agree {m₁ m₂ : Scope} {X : Symbol → Prop}
    (hforms : ∀ s f, X s → m₁.lookup s = some (.form f) → f.Hosted)
    (hX : ∀ s, X s → m₁.lookup s = m₂.lookup s ∧
      ∀ w, m₁.lookup s = some w → ∀ t ∈ w.symbols, X t)
    (state : σ) (state' : τ) : (agreement X state state').Policies m₁.policy m₂.policy where
  lookupForm s hs := by
    have he : m₂.lookupForm s = m₁.lookupForm s := by simp only [Scope.lookupForm, (hX s hs).1]
    show Eval.Agree _ _ (liftM (m₁.lookupForm s)) (liftM (m₂.lookupForm s)) _
    rw [he]
    refine (agreement X state state').lift (fun f hf => hforms s f hs ?_) fun _ _ => trivial
    unfold Scope.lookupForm at hf
    split at hf
    · next g hg => rw [hg, Except.ok.inj hf]
    · cases hf
    · cases hf
  evalString text := .pure (Value.over_string text)
  evalSymbol s hs := by
    obtain ⟨he, hclosed⟩ := hX s hs
    show Eval.Agree _ _ (pure ((m₁.lookup s).getD _)) (pure ((m₂.lookup s).getD _)) _
    rw [← he]
    refine .pure ?_
    cases hl : m₁.lookup s with
    | none => exact Value.over_symbol.mpr hs
    | some w => exact agreement.knows_iff.mpr (hclosed w hl)
  evalList h _ hvs := h.evalCallOrElements hvs

/-- Scopes that agree on all symbols within reach of a value give it the same outcome, if they give
it one at all. In particular it does not matter over how many scopes the bindings are spread,
whether there is an empty scope inside, and what symbols out of reach are bound to. -/
theorem evaluates_iff_of_reachable {m₁ m₂ : Scope} {X : Symbol → Prop} {v : Value}
    (hforms : ∀ s f, X s → m₁.lookup s = some (.form f) → f.Hosted)
    (hv : ∀ s ∈ v.symbols, X s)
    (hX : ∀ s, X s → m₁.lookup s = m₂.lookup s ∧
      ∀ w, m₁.lookup s = some w → ∀ t ∈ w.symbols, X t) :
    (∀ o, m₁.policy.Evaluates () v o ↔ m₂.policy.Evaluates () v o) ∧
    (∀ o, m₁.flatten.policy.Evaluates () v o ↔ m₁.policy.Evaluates () v o) ∧
    (∀ o, m₁.inside.policy.Evaluates () v o ↔ m₁.policy.Evaluates () v o) ∧
    ∀ t w, ¬X t → ∀ o, (m₁.bind t w).policy.Evaluates () v o ↔ m₁.policy.Evaluates () v o := by
  refine ⟨?_, ?_, ?_, ?_⟩
  · rintro ⟨r, ⟨⟩⟩
    exact agreement.evaluates_iff (policy_agree hforms hX () ()) hv r
  · intro o
    rw [policy_congr m₁.lookup_flatten]
  · intro o
    rw [policy_congr m₁.lookup_inside]
  · rintro t w ht ⟨r, ⟨⟩⟩
    have hbind : ∀ s, X s → m₁.lookup s = (m₁.bind t w).lookup s ∧
        ∀ w, m₁.lookup s = some w → ∀ t ∈ w.symbols, X t := by
      intro s hs
      have hne : s ≠ t := fun he => ht (he ▸ hs)
      exact ⟨by rw [lookup_bind, if_neg hne], (hX s hs).2⟩
    exact (agreement.evaluates_iff (policy_agree hforms hbind () ()) hv r).symm

/-- A binding becomes code here. In the second scope it hides an older one, and a symbol that is
out of reach is bound as well. -/
theorem evaluates_iff_of_reachable_nested :
    let code : Value := .list [.symbol ⟨"CAT"⟩, .symbol ⟨"Y"⟩]
    let m₁ := Shell.scope.bind ⟨"X"⟩ code
    let m₂ := ((Shell.scope.bind ⟨"X"⟩ (.string "old")).inside.bind ⟨"X"⟩ code).bind ⟨"Z"⟩
      (.symbol ⟨"X"⟩)
    let v : Value := .list [.symbol ⟨"EVAL"⟩, .symbol ⟨"X"⟩]
    (∀ o, m₁.policy.Evaluates () v o ↔ m₂.policy.Evaluates () v o) ∧
      m₂.policy.Evaluates () v (.ok (.string "Y"), ()) := by
  intro code m₁ m₂ v
  let reach : List Symbol := [⟨"EVAL"⟩, ⟨"CAT"⟩, ⟨"X"⟩, ⟨"Y"⟩]
  have hcases {s : Symbol} (hs : s ∈ reach) : m₁.lookup s = m₂.lookup s ∧
      (m₁.lookup s = some (.form Shell.evalForm) ∨ m₁.lookup s = some (.form Shell.catForm) ∨
        m₁.lookup s = some code ∨ m₁.lookup s = none) := by
    simp only [reach, List.mem_cons, List.not_mem_nil, or_false] at hs
    rcases hs with rfl | rfl | rfl | rfl
    · exact ⟨rfl, .inl rfl⟩
    · exact ⟨rfl, .inr (.inl rfl)⟩
    · exact ⟨rfl, .inr (.inr (.inl rfl))⟩
    · exact ⟨rfl, .inr (.inr (.inr rfl))⟩
  have h := @evaluates_iff_of_reachable m₁ m₂ (· ∈ reach) v ?_ ?_ ?_
  · exact ⟨h.1, (h.1 _).mp ⟨4, rfl⟩⟩
  · intro s f hs hf
    rcases (hcases hs).2 with hl | hl | hl | hl <;> rw [hl] at hf
    · cases hf
      exact .inr (.inr rfl)
    · cases hf
      exact .inr (.inl rfl)
    · simp [code] at hf
    · cases hf
  · decide
  · intro s hs
    refine ⟨(hcases hs).1, fun w hw => ?_⟩
    rcases (hcases hs).2 with hl | hl | hl | hl <;> rw [hl] at hw
    · cases hw
      decide
    · cases hw
      decide
    · obtain rfl := Option.some.inj hw
      decide
    · cases hw

end Scope

end Sexp
