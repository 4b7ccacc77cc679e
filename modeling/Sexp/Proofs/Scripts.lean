import Sexp.Proofs.Canonical
import Sexp.Proofs.Reachability
import Sexp.Shell.Command

/-!
# Scripts and sessions

A script is read as a whole and stops at the first expression that fails. A session reads line by
line, answers each expression at once and goes on after failures. Still they come to the same, if
every line can be read by itself: the script ends with the first evaluation error that the session
reports, or else with the last result that it prints.

A session evaluates all its expressions in one environment. So that this matters, the environment
is made the state of evaluation here, where an expression could find it changed by those before.
The forms of the shell leave it as it is, also when they fail.
-/

namespace Sexp

section Kept

variable {σ τ α : Type}

def Scope.statePolicy : Policy Scope where
  lookupForm s := do
    let scope ← get
    scope.lookupForm s
  evalString text := pure (.string text)
  evalSymbol s := do
    let scope ← get
    pure ((scope.lookup s).getD (.symbol s))
  evalList env elements := env.evalCallOrElements elements

theorem Eval.Agree.get_bind {s : σ} {t : τ} {f : σ → Eval σ α} {y : Eval τ α} {P : α → Prop}
    (h : Eval.Agree s t (f s) y P) : Eval.Agree s t (get >>= f) y P := h

theorem Scope.statePolicy_agree {scope : Scope}
    (hforms : ∀ s f, scope.lookup s = some (.form f) → f.Hosted) :
    (agreement (fun _ => True) scope ()).Policies statePolicy scope.policy := by
  have h : (agreement (fun _ => True) scope ()).Policies scope.policy scope.policy :=
    policy_agree (fun s f _ hf => hforms s f hf) (fun _ _ => ⟨rfl, fun _ _ _ _ => trivial⟩) _ _
  exact ⟨fun s hs => .get_bind (h.lookupForm s hs), h.evalString,
    fun s hs => .get_bind (h.evalSymbol s hs), h.evalList⟩

/-- The values are evaluated one after the other. Each finds the state that the one before has
left, be it with a result or with an error. -/
inductive Policy.EvaluatesEach (p : Policy σ) :
    (state : σ) → List Value → List (Except EvalError Value) → (state' : σ) → Prop where
  | nil {state : σ} : p.EvaluatesEach state [] [] state
  | cons {state middle state' : σ} {v : Value} {vs : List Value} {r : Except EvalError Value}
      {rs : List (Except EvalError Value)} : p.Evaluates state v (r, middle) →
      p.EvaluatesEach middle vs rs state' → p.EvaluatesEach state (v :: vs) (r :: rs) state'

end Kept

namespace Shell

theorem hosted_of_lookup {s : Symbol} {f : Form} (h : scope.lookup s = some (.form f)) :
    f.Hosted := by
  rcases lookup_scope s with hn | ⟨g, hg, hl⟩
  · simp [hn] at h
  · obtain rfl : g = f := by simpa [hl] using h
    simp only [forms, List.mem_cons, List.not_mem_nil, or_false] at hg
    rcases hg with rfl | rfl | rfl | rfl
    · exact .inl rfl
    · exact .inl rfl
    · exact .inr (.inl rfl)
    · exact .inr (.inr rfl)

theorem evaluates_kept (v : Value) : Scope.statePolicy.Evaluates scope v (evaluate v, scope) := by
  have h := Scope.statePolicy_agree fun _ _ => hosted_of_lookup
  exact (agreement.evaluates_iff h (fun _ _ => trivial) (evaluate v)).mpr
    ((evaluates_iff v _).mpr rfl)

theorem evaluatesEach_kept (vs : List Value) :
    Scope.statePolicy.EvaluatesEach scope vs (vs.map evaluate) scope := by
  induction vs with
  | nil => exact .nil
  | cons v vs ih => exact .cons (evaluates_kept v) ih

namespace Report

def ofOutcome : Except EvalError Value → Report
  | .ok r => .result r
  | .error e => .evaluationError e

def error? : Report → Option EvalError
  | evaluationError e => some e
  | _ => none

def result? : Report → Option Value
  | result v => some v
  | _ => none

theorem ofItem_ok (v : Value) : ofItem (.ok v) = ofOutcome (evaluate v) := by
  cases h : evaluate v <;> simp only [ofItem, ofOutcome, h]

end Report

def firstError (reports : List Report) : Option EvalError := reports.findSome? Report.error?

def lastResult (reports : List Report) : Option Value := (reports.filterMap Report.result?).getLast?

theorem evaluateLast_eq (last : Option Value) (vs : List Value) :
    evaluateLast last vs =
      match firstError ((vs.map evaluate).map .ofOutcome) with
      | some e => .error e
      | none => .ok ((lastResult ((vs.map evaluate).map .ofOutcome)).or last) := by
  induction vs generalizing last with
  | nil => rfl
  | cons v vs ih =>
    rw [evaluateLast, List.map_cons, List.map_cons]
    cases evaluate v with
    | error e => rfl
    | ok r =>
      -- The result so far is replaced, whatever it was, so the induction is over all of them.
      have hfirst (reports : List Report) :
          firstError (.result r :: reports) = firstError reports := rfl
      have hlast (reports : List Report) :
          (lastResult (.result r :: reports)).or last = (lastResult reports).or (some r) := by
        show (r :: reports.filterMap Report.result?).getLast?.or last = _
        rw [List.getLast?_cons, lastResult]
        cases (reports.filterMap Report.result?).getLast? <;> rfl
      rw [Report.ofOutcome, hfirst, hlast]
      exact ih (some r)

def trimmed (line : String) : String := String.ofList (Text.trim line.toList)

theorem lineReports_of_readAllText {line : String} {vs : List Value}
    (h : readAllText (trimmed line) = .ok vs) :
    lineReports line.toList = (vs.map evaluate).map .ofOutcome := by
  have hdrain := (mapM_id_eq_ok_iff _ vs).mp h
  rw [Reader.ofText, trimmed, String.toList_ofList] at hdrain
  rw [lineReports, reports, hdrain, List.map_map, List.map_map]
  exact List.map_congr_left fun v _ => Report.ofItem_ok v

theorem lineReports_nil : lineReports [] = [] := by
  have hread : (Reader.ofChars (Text.trim [])).read = _ := Reader.read_of_rest_nil rfl
  rw [lineReports, reports, Reader.drain_of_none hread]
  rfl

theorem readAllText_of_lines {lines : List String}
    (h : ∀ line ∈ lines, ∃ vs, readAllText (trimmed line) = .ok vs) :
    ∃ vs, readAllText ("\n".intercalate (lines.map trimmed)) = .ok vs ∧
      lines.flatMap (lineReports ·.toList) = (vs.map evaluate).map .ofOutcome := by
  induction lines with
  | nil => exact ⟨[], readAllText_empty, rfl⟩
  | cons line lines ih =>
    obtain ⟨⟨vs, hvs⟩, hlines⟩ := List.forall_mem_cons.mp h
    obtain ⟨ws, hws, hreports⟩ := ih hlines
    cases lines with
    | nil =>
      refine ⟨vs, ?_, ?_⟩
      · rw [List.map_singleton, String.intercalate_singleton]
        exact hvs
      · simpa using lineReports_of_readAllText hvs
    | cons next lines =>
      refine ⟨vs ++ ws, ?_, ?_⟩
      · rw [List.map_cons, List.map_cons, String.intercalate_cons_cons, ← List.map_cons,
          readAllText_append_line hvs, hws]
        rfl
      · rw [List.flatMap_cons, hreports, lineReports_of_readAllText hvs, List.map_append,
          List.map_append]

theorem splitLines_append_newline {line : List UInt8} (h : 0x0A ∉ line) (bytes : List UInt8) :
    splitLines (line ++ 0x0A :: bytes) = line :: splitLines bytes := by
  induction line with
  | nil => rfl
  | cons b line ih =>
    obtain ⟨hb, hline⟩ := not_or.mp (mt List.mem_cons.mpr h)
    rw [List.cons_append, splitLines, if_neg (Ne.symm hb), ih hline]

theorem splitLines_of_not_mem {line : List UInt8} (h : 0x0A ∉ line) (hne : line ≠ []) :
    splitLines line = [line] := by
  induction line with
  | nil => exact absurd rfl hne
  | cons b line ih =>
    obtain ⟨hb, hline⟩ := not_or.mp (mt List.mem_cons.mpr h)
    rw [splitLines, if_neg (Ne.symm hb)]
    cases line with
    | nil => rfl
    | cons c line => rw [ih hline (by simp)]

theorem sessionReports_encode (line : List Char) (lines : List (List UInt8)) :
    sessionReports (Text.Utf8.encode line :: lines) = lineReports line ++ sessionReports lines := by
  rw [sessionReports, Text.Utf8.strict?_encode]

theorem sessionReports_of_lines {lines : List String} (h : ∀ line ∈ lines, '\n' ∉ line.toList) :
    sessionReports (splitLines (Text.Utf8.encode ("\n".intercalate lines).toList)) =
      lines.flatMap (lineReports ·.toList) := by
  induction lines with
  | nil => rfl
  | cons line lines ih =>
    obtain ⟨hline, hlines⟩ := List.forall_mem_cons.mp h
    have hbytes := Text.Utf8.newline_not_mem_encode hline
    cases lines with
    | nil =>
      rw [String.intercalate_singleton, List.flatMap_singleton]
      -- There is no line after the last line feed if nothing follows it.
      by_cases hne : line.toList = []
      · rw [hne, lineReports_nil]
        rfl
      · rw [splitLines_of_not_mem hbytes (mt (Text.Utf8.encode_eq_nil_iff _).mp hne),
          sessionReports_encode, sessionReports, List.append_nil]
    | cons next lines =>
      have hsplit : Text.Utf8.encode ("\n".intercalate (line :: next :: lines)).toList =
          Text.Utf8.encode line.toList ++
            0x0A :: Text.Utf8.encode ("\n".intercalate (next :: lines)).toList := by
        rw [String.intercalate_cons_cons, String.toList_append, String.toList_append,
          Text.Utf8.encode_append, Text.Utf8.encode_append, List.append_assoc]
        rfl
      rw [hsplit, splitLines_append_newline hbytes, sessionReports_encode, ih hlines]
      rfl

theorem runScript_of_contents {d : Directory} {path text : String}
    (h : d.contents path = .ok (Text.Utf8.encode text.toList)) :
    runScript d path = runText text.toList := by
  rw [runScript, h, runContents, Text.Utf8.strict?_encode]

theorem runText_of_readAllText {text : String} {vs : List Value} (h : readAllText text = .ok vs) :
    runText text.toList =
      match firstError ((vs.map evaluate).map .ofOutcome) with
      | some e => .error (.evaluation e)
      | none => .ok (lastResult ((vs.map evaluate).map .ofOutcome)) := by
  have hread : (Reader.ofChars text.toList).readAll = .ok vs := h
  rw [runText, hread]
  simp only [evaluateLast_eq, Option.or_none]
  cases firstError ((vs.map evaluate).map .ofOutcome) <;> rfl

/-- A script made of the trimmed lines of a session, each of which can be read, ends as the session
does: with the first evaluation error that is reported, or with the last result that is printed.
The session evaluates the expressions of the script one after the other in one environment, which
is the same at the end as at the beginning. -/
theorem runScript_agrees_with_session {lines : List String} {d : Directory} {path : String}
    (hlines : ∀ line ∈ lines, '\n' ∉ line.toList)
    (hread : ∀ line ∈ lines, ∃ vs, readAllText (trimmed line) = .ok vs)
    (hfile : d.contents path =
      .ok (Text.Utf8.encode ("\n".intercalate (lines.map trimmed)).toList)) :
    let reports := sessionReports (splitLines (Text.Utf8.encode ("\n".intercalate lines).toList))
    (∀ e, firstError reports = some e → ∃ failure, runScript d path = .error failure ∧
      failure.message = "Evaluation error: " ++ e.message) ∧
    (firstError reports = none → runScript d path = .ok (lastResult reports)) ∧
    ∃ vs results, readAllText ("\n".intercalate (lines.map trimmed)) = .ok vs ∧
      Scope.statePolicy.EvaluatesEach scope vs results scope ∧
      reports = results.map .ofOutcome := by
  intro reports
  obtain ⟨vs, hvs, hline⟩ := readAllText_of_lines hread
  have hreports : reports = (vs.map evaluate).map .ofOutcome :=
    (sessionReports_of_lines hlines).trans hline
  have hrun := (runScript_of_contents hfile).trans (runText_of_readAllText hvs)
  rw [← hreports] at hrun
  refine ⟨?_, ?_, vs, vs.map evaluate, hvs, evaluatesEach_kept vs, hreports⟩
  · intro e he
    rw [he] at hrun
    exact ⟨.evaluation e, hrun, rfl⟩
  · intro hnone
    rw [hnone] at hrun
    exact hrun

/-- The session goes on after its error, the script does not. -/
theorem runScript_agrees_with_session_past_error :
    let lines := ["(list a) ", "\t(eval) b ; note"]
    let reports := sessionReports (splitLines (Text.Utf8.encode ("\n".intercalate lines).toList))
    let d : Directory :=
      Table.empty.insert "input" (Text.Utf8.encode ("\n".intercalate (lines.map trimmed)).toList)
    lastResult reports = some (.symbol ⟨"B"⟩) ∧
      ∃ failure, runScript d "input" = .error failure ∧
        failure.message = "Evaluation error: not enough arguments (0) for form EVAL (1)" := by
  intro lines reports d
  have hlines : ∀ line ∈ lines, '\n' ∉ line.toList := by decide +kernel
  have hfirst : readAllText (trimmed "(list a) ") =
      .ok [.list [.symbol ⟨"LIST"⟩, .symbol ⟨"A"⟩]] := by with_unfolding_all rfl
  have hsecond : readAllText (trimmed "\t(eval) b ; note") =
      .ok [.list [.symbol ⟨"EVAL"⟩], .symbol ⟨"B"⟩] := by with_unfolding_all rfl
  have hreports : reports = [.result (.list [.symbol ⟨"A"⟩]),
      .evaluationError (.arity "EVAL" 0 (.tooFew 1)), .result (.symbol ⟨"B"⟩)] := by
    refine (sessionReports_of_lines hlines).trans ?_
    simp only [lines, List.flatMap_cons, List.flatMap_nil, lineReports_of_readAllText hfirst,
      lineReports_of_readAllText hsecond]
    with_unfolding_all rfl
  have hread : ∀ line ∈ lines, ∃ vs, readAllText (trimmed line) = .ok vs :=
    List.forall_mem_cons.mpr ⟨⟨_, hfirst⟩, List.forall_mem_singleton.mpr ⟨_, hsecond⟩⟩
  have hfile (bytes : List UInt8) :
      Directory.contents (Table.empty.insert "input" bytes) "input" = .ok bytes := rfl
  obtain ⟨herror, -, -⟩ := runScript_agrees_with_session hlines hread (hfile _)
  refine ⟨?_, herror (.arity "EVAL" 0 (.tooFew 1)) ?_⟩
  · exact congrArg lastResult hreports
  · exact congrArg firstError hreports

end Shell

end Sexp
