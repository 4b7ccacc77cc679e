import Sexp.Proofs.ShellCalls

/-!
# Joining texts

The shell has a form that joins the texts of its arguments. Calls of it can be nested in each other
in any way. Such a tree of calls comes to the same as one call with all its leaves as arguments, in
the order in which they stand: either gives a text exactly if every leaf has a text, and then it is
the texts of the leaves one after the other. What they fail with need not be the same. An inner call
looks at its texts before the arguments behind it are evaluated, and the flat call only afterwards.
-/

namespace Sexp

theorem bind_eq_ok_iff {ε α β : Type} (x : Except ε α) (f : α → Except ε β) (b : β) :
    x >>= f = .ok b ↔ ∃ a, x = .ok a ∧ f a = .ok b := by
  cases x with
  | error e => simp [bind, Except.bind]
  | ok a => simp [bind, Except.bind]

inductive Value.HasText : Value → String → Prop where
  | string {text : String} : HasText (.string text) text
  | symbol {s : Symbol} : HasText (.symbol s) s.name

theorem Value.asText_eq_ok_iff (index : Nat) (v : Value) (text : String) :
    v.asText index = .ok text ↔ v.HasText text := by
  constructor
  · intro h
    cases v with
    | string t =>
      obtain rfl : t = text := Except.ok.inj h
      exact .string
    | symbol s =>
      obtain rfl : s.name = text := Except.ok.inj h
      exact .symbol
    | list | form => cases h
  · intro h
    cases h with
    | string | symbol => rfl

theorem Arguments.joined_cons_eq_ok_iff (index : Nat) (v : Value) (vs : List Value)
    (text : String) :
    joined index (v :: vs) = .ok text ↔
      ∃ first others, v.HasText first ∧ joined (index + 1) vs = .ok others ∧
        text = first ++ others := by
  simp only [joined, bind_eq_ok_iff, Value.asText_eq_ok_iff]
  constructor
  · intro h
    obtain ⟨first, hfirst, others, hothers, htext⟩ := h
    exact ⟨first, others, hfirst, hothers, (Except.ok.inj htext).symm⟩
  · intro h
    obtain ⟨first, others, hfirst, hothers, htext⟩ := h
    exact ⟨first, hfirst, others, hothers, congrArg Except.ok htext.symm⟩

namespace Shell

def concatenation (args : List Value) : Value := .list (.symbol ⟨"CAT"⟩ :: args)

theorem evaluate_concatenation (args : List Value) :
    evaluate (concatenation args) =
      args.mapM evaluate >>= fun values => (Arguments.joined 0 values).map .string := by
  have hs : scope.lookup ⟨"CAT"⟩ = some (.form catForm) := rfl
  have hr : received catForm args = args.mapM evaluate := rfl
  cases hargs : args.mapM evaluate with
  | error e => exact evaluate_call_of_error hs (hr.trans hargs)
  | ok values =>
    have ha : catForm.Accepts values.length := (catForm.accepts_iff values.length).mpr rfl
    have hrun := congrArg (Eval.outcome · ())
      (run_catForm (environment (Value.nodesAll args)) values)
    exact evaluate_call_of_run hs (hr.trans hargs) ha hrun

/-- Each of the values evaluates to something that has a text, and these texts one after the other
are `text`. -/
inductive Joins : List Value → (text : String) → Prop where
  | nil : Joins [] ""
  | cons {v w : Value} {vs : List Value} {first others : String} : evaluate v = .ok w →
      w.HasText first → Joins vs others → Joins (v :: vs) (first ++ others)

theorem joins_iff (vs : List Value) (index : Nat) (text : String) :
    Joins vs text ↔
      ∃ values, vs.mapM evaluate = .ok values ∧ Arguments.joined index values = .ok text := by
  constructor
  · intro h
    induction h generalizing index with
    | nil => exact ⟨[], rfl, rfl⟩
    | cons hv hfirst _ ih =>
      obtain ⟨values, hvs, hothers⟩ := ih (index + 1)
      refine ⟨_ :: values, ?_, (Arguments.joined_cons_eq_ok_iff ..).mpr
        ⟨_, _, hfirst, hothers, rfl⟩⟩
      rw [List.mapM_cons, hv, hvs]
      rfl
  · intro h
    obtain ⟨values, hvs, htext⟩ := h
    induction vs generalizing index values text with
    | nil =>
      obtain rfl : [] = values := Except.ok.inj hvs
      obtain rfl : "" = text := Except.ok.inj htext
      exact .nil
    | cons v vs ih =>
      simp only [List.mapM_cons, bind_eq_ok_iff] at hvs
      obtain ⟨w, hw, ws, hws, hvalues⟩ := hvs
      obtain rfl : w :: ws = values := Except.ok.inj hvalues
      obtain ⟨first, others, hfirst, hothers, rfl⟩ :=
        (Arguments.joined_cons_eq_ok_iff index w ws text).mp htext
      exact .cons hw hfirst (ih (index + 1) others ws hws hothers)

theorem evaluate_concatenation_eq_ok_iff (args : List Value) (r : Value) :
    evaluate (concatenation args) = .ok r ↔ ∃ text, r = .string text ∧ Joins args text := by
  rw [evaluate_concatenation, bind_eq_ok_iff]
  constructor
  · intro h
    obtain ⟨values, hvalues, hr⟩ := h
    cases htext : Arguments.joined 0 values with
    | error e =>
      rw [htext] at hr
      cases hr
    | ok text =>
      rw [htext] at hr
      exact ⟨text, (Except.ok.inj hr).symm, (joins_iff args 0 text).mpr ⟨values, hvalues, htext⟩⟩
  · intro h
    obtain ⟨text, rfl, hjoins⟩ := h
    obtain ⟨values, hvalues, htext⟩ := (joins_iff args 0 text).mp hjoins
    exact ⟨values, hvalues, by rw [htext]; rfl⟩

theorem joins_append_iff (vs ws : List Value) (text : String) :
    Joins (vs ++ ws) text ↔
      ∃ first others, Joins vs first ∧ Joins ws others ∧ text = first ++ others := by
  constructor
  · intro h
    induction vs generalizing text with
    | nil => exact ⟨"", text, .nil, h, String.empty_append.symm⟩
    | cons v vs ih =>
      cases h with
      | @cons _ w _ part rest hv hpart hrest =>
        obtain ⟨first, others, hfirst, hothers, rfl⟩ := ih rest hrest
        exact ⟨part ++ first, others, .cons hv hpart hfirst, hothers, String.append_assoc.symm⟩
  · intro h
    obtain ⟨first, others, hfirst, hothers, rfl⟩ := h
    induction hfirst with
    | nil =>
      rw [String.empty_append]
      exact hothers
    | cons hv hpart _ ih =>
      rw [String.append_assoc]
      exact .cons hv hpart ih

/-- A tree of calls that join texts, with arbitrary values at its leaves. -/
inductive Joining where
  | leaf (v : Value)
  | call (parts : List Joining)

namespace Joining

mutual
def value : Joining → Value
  | leaf v => v
  | call parts => concatenation (values parts)

def values : List Joining → List Value
  | [] => []
  | part :: parts => part.value :: values parts
end

mutual
def leaves : Joining → List Value
  | leaf v => [v]
  | call parts => leavesAll parts

def leavesAll : List Joining → List Value
  | [] => []
  | part :: parts => part.leaves ++ leavesAll parts
end

mutual
theorem joins_value_iff (tree : Joining) (text : String) :
    Joins [tree.value] text ↔ Joins tree.leaves text := by
  cases tree with
  | leaf v => rfl
  | call parts =>
    rw [value, leaves, ← joins_values_iff parts text]
    constructor
    · intro h
      cases h with
      | @cons _ w _ first others hw hfirst hothers =>
        cases hothers
        obtain ⟨joined, rfl, hjoins⟩ := (evaluate_concatenation_eq_ok_iff _ _).mp hw
        cases hfirst
        rw [String.append_empty]
        exact hjoins
    · intro h
      have hr := (evaluate_concatenation_eq_ok_iff _ _).mpr ⟨text, rfl, h⟩
      rw [← String.append_empty (s := text)]
      exact .cons hr .string .nil

theorem joins_values_iff (parts : List Joining) (text : String) :
    Joins (values parts) text ↔ Joins (leavesAll parts) text := by
  cases parts with
  | nil => rfl
  | cons part parts =>
    rw [values, leavesAll, ← List.singleton_append, joins_append_iff, joins_append_iff]
    simp only [joins_value_iff part, joins_values_iff parts]
end

end Joining

theorem concatenation_fails_iff (args : List Value) :
    (∃ e, evaluate (concatenation args) = .error e) ↔ ∀ text, ¬Joins args text := by
  constructor
  · intro h text hjoins
    obtain ⟨e, he⟩ := h
    rw [(evaluate_concatenation_eq_ok_iff args _).mpr ⟨text, rfl, hjoins⟩] at he
    cases he
  · intro h
    cases hr : evaluate (concatenation args) with
    | error e => exact ⟨e, rfl⟩
    | ok r =>
      obtain ⟨text, -, hjoins⟩ := (evaluate_concatenation_eq_ok_iff args r).mp hr
      exact absurd hjoins (h text)

/-- A tree of calls that join texts and the one call on its leaves give the same text, which is the
texts of the leaves in order, and one of them fails exactly if the other does. -/
theorem evaluate_nested_concatenation (parts : List Joining) :
    let nested := evaluate (Joining.call parts).value
    let flat := evaluate (concatenation (Joining.leavesAll parts))
    (∀ text, nested = .ok (.string text) ↔ flat = .ok (.string text)) ∧
    (∀ text, flat = .ok (.string text) ↔ Joins (Joining.leavesAll parts) text) ∧
    ((∃ e, nested = .error e) ↔ ∃ e, flat = .error e) := by
  intro nested flat
  have hnested : nested = evaluate (concatenation (Joining.values parts)) := rfl
  have htext (args : List Value) (text : String) :
      evaluate (concatenation args) = .ok (.string text) ↔ Joins args text := by
    simp [evaluate_concatenation_eq_ok_iff]
  refine ⟨?_, ?_, ?_⟩
  · intro text
    rw [hnested, htext, htext, Joining.joins_values_iff]
  · intro text
    exact htext _ text
  · rw [hnested, concatenation_fails_iff, concatenation_fails_iff]
    simp only [Joining.joins_values_iff]

example :
    let list : Value := .list [.symbol ⟨"QUOTE"⟩]
    let call : Value := .list [.symbol ⟨"EVAL"⟩]
    evaluate (concatenation [concatenation [list], call]) =
        .error (.wrongType .string 0 (.list [])) ∧
      evaluate (concatenation [list, call]) = .error (.arity "EVAL" 0 (.tooFew 1)) := by
  constructor
  · rfl
  · rfl

end Shell

end Sexp
