import Sexp.Proofs.Extension

/-!
# Texts of several lines

Reading looks at nothing but the text that is left, so at a later place everything is the same but
for the offsets. A line feed ends whatever a complete text may end with. Therefore a text can be
read line by line: what follows a complete text on further lines is read as if it stood alone, and
its errors are found at the offsets that they have there. A closing parenthesis that matches
nothing is the error of the whole text whatever follows.
-/

namespace Sexp

def ReadError.shift (n : Nat) (e : ReadError) : ReadError := ⟨e.kind, e.offset + n⟩

namespace Reader

open Source
open Literal (EndsRun)

theorem endsRun_newline (t : List Char) : EndsRun (!isDelimiter ·) ('\n' :: t) := by
  simp [EndsRun, isDelimiter, isBlank]

def shift (n : Nat) (r : Reader) : Reader := ⟨r.position + n, r.rest⟩

@[simp] theorem rest_shift (n : Nat) (r : Reader) : (r.shift n).rest = r.rest := rfl

theorem advance_shift (n k : Nat) (r : Reader) : (r.shift n).advance k = (r.advance k).shift n := by
  simp [advance, shift, Nat.add_right_comm]

theorem skipLayout_shift (n : Nat) (r : Reader) :
    (r.shift n).skipLayout = r.skipLayout.shift n := advance_shift n _ r

theorem toEnd_shift (n : Nat) (r : Reader) : (r.shift n).toEnd = r.toEnd.shift n :=
  advance_shift n _ r

theorem readWithin_shift (n : Nat) (lists : Nesting) (r : Reader) :
    readWithin lists (r.shift n) =
      ((readWithin lists r).1.mapError (ReadError.shift n), (readWithin lists r).2.shift n) := by
  -- Tokens and what the open lists make of them depend on the remaining text only, so each step is
  -- the same at the later place.
  fun_induction readWithin lists r with
  | case1 lists r h he =>
    rw [readWithin_eq, skipLayout_shift, rest_shift, h]
    simp only [he, if_true]
    rfl
  | case2 lists r h he =>
    rw [readWithin_eq, skipLayout_shift, rest_shift, h]
    simp only [he]
    rfl
  | case3 lists r h =>
    rw [readWithin_eq, skipLayout_shift, rest_shift, h, toEnd_shift]
    rfl
  | case4 lists r t h v ha =>
    rw [readWithin_eq, skipLayout_shift, rest_shift, h]
    simp only [ha, advance_shift]
    rfl
  | case5 lists r t h inner ha ih =>
    rw [readWithin_eq, skipLayout_shift, rest_shift, h]
    simp only [ha, advance_shift]
    exact ih
  | case6 lists r t h ha =>
    rw [readWithin_eq, skipLayout_shift, rest_shift, h]
    simp only [ha]
    rfl

theorem read_shift {n : Nat} {r s : Reader} {result : Except ReadError (Option Value)}
    (h : r.read = (result, s)) :
    (r.shift n).read = (result.mapError (ReadError.shift n), s.shift n) := by
  rw [read] at h
  rw [read, readWithin_shift, h]

theorem drain_shift (n : Nat) (r : Reader) :
    (r.shift n).drain.1 = r.drain.1.map (Except.mapError (ReadError.shift n)) := by
  induction r using reads_induction with
  | atEnd r s h =>
    rw [drain_of_none h, drain_of_none (read_shift h)]
    rfl
  | value r v s h ih =>
    rw [drain_of_value h, drain_of_value (read_shift h), ih]
    rfl
  | error r e s h =>
    rw [drain_of_error h, drain_of_error (read_shift h)]
    rfl

def findings (r : Reader) : List (Except ReadError.Kind Value) :=
  r.drain.1.map (Except.mapError ReadError.kind)

section Findings

variable {r s : Reader}

theorem findings_of_none (h : r.read = (.ok none, s)) : r.findings = [] := by
  rw [findings, drain_of_none h]
  rfl

theorem findings_of_value {v : Value} (h : r.read = (.ok (some v), s)) :
    r.findings = .ok v :: s.findings := by
  rw [findings, drain_of_value h]
  rfl

theorem findings_of_error {e : ReadError} (h : r.read = (.error e, s)) :
    r.findings = [.error e.kind] := by
  rw [findings, drain_of_error h]
  rfl

theorem findings_congr (h : r.read = s.read) : r.findings = s.findings := by
  rw [findings, drain_congr h, findings]

theorem findings_of_rest_nil (h : r.rest = []) : r.findings = [] :=
  findings_of_none (read_of_rest_nil h)

theorem findings_of_spellsAll {vs : List Value} (h : SpellsAll vs r.rest []) :
    r.findings = vs.map .ok := by
  have hd := congrArg Prod.fst (drain_of_spellsAll h r.position)
  rw [findings, hd, List.map_map]
  rfl

end Findings

theorem findings_shift (n : Nat) (r : Reader) : (r.shift n).findings = r.findings := by
  rw [findings, drain_shift, List.map_map, findings]
  apply List.map_congr_left
  intro item _
  cases item <;> rfl

theorem findings_mk (p : Nat) (text : List Char) :
    (Reader.mk p text).findings = (ofChars text).findings := by
  have hs := findings_shift p (ofChars text)
  rwa [shift, show (ofChars text).position + p = p from Nat.zero_add p] at hs

theorem drain_append_newline {r : Reader} {vs : List Value} (h : r.drain.1 = vs.map .ok)
    (t : List Char) :
    (r.append ('\n' :: t)).drain.1 =
      vs.map .ok ++ (Reader.mk (r.position + r.rest.length + 1) t).drain.1 := by
  induction r using reads_induction generalizing vs with
  | atEnd r s hread =>
    obtain rfl : vs = [] := by simpa [drain_of_none hread] using h.symm
    -- All that was left is layout, and the line feed ends the comment that it may stop in.
    have hlayout := (layout_of_read hread).newline rfl t
    have hrest : (r.append ('\n' :: t)).rest = (r.rest ++ ['\n']) ++ t := by simp [append]
    have hskip := read_of_skipped hrest hlayout
    rw [List.length_append, ← Nat.add_assoc] at hskip
    exact congrArg Prod.fst (drain_congr hskip)
  | value r v s hread ih =>
    rw [drain_of_value hread] at h
    cases vs with
    | nil => simp at h
    | cons w vs =>
      obtain ⟨rfl, hvs⟩ : v = w ∧ s.drain.1 = vs.map .ok := by simpa using h
      rw [drain_of_value (read_append_of_value hread fun _ _ => endsRun_newline t), ih hvs,
        (read_ahead hread).position_add_length]
      rfl
  | error r e s hread =>
    rw [drain_of_error hread] at h
    cases vs <;> simp at h

theorem drain_append_of_unmatched {r : Reader} {o : Nat}
    (h : .error ⟨.missingOpenParen, o⟩ ∈ r.drain.1) (t : List Char) :
    (r.append ('\n' :: t)).drain.1 = r.drain.1 := by
  induction r using reads_induction with
  | atEnd r s hread => simp [drain_of_none hread] at h
  | value r v s hread ih =>
    rw [drain_of_value hread] at h ⊢
    rw [drain_of_value (read_append_of_value hread fun _ _ => endsRun_newline t),
      ih (by simpa using h)]
  | error r e s hread =>
    rw [drain_of_error hread] at h ⊢
    obtain rfl : ⟨.missingOpenParen, o⟩ = e := by simpa using h
    exact drain_of_error (read_append_of_unmatched hread rfl _)

end Reader

section Items

variable {ε ε' α : Type}

theorem mapM_id_values_append (vs : List α) (items : List (Except ε α)) :
    (vs.map Except.ok ++ items).mapM id = (items.mapM id).map (vs ++ ·) := by
  induction vs with
  | nil => cases h : items.mapM id <;> simp [h, Except.map]
  | cons v vs ih =>
    rw [List.map_cons, List.cons_append, List.mapM_cons, ih]
    cases items.mapM id <;> rfl

theorem mapM_id_mapError (f : ε → ε') (items : List (Except ε α)) :
    (items.map (Except.mapError f)).mapM id = (items.mapM id).mapError f := by
  induction items with
  | nil => rfl
  | cons item items ih =>
    rw [List.map_cons, List.mapM_cons, List.mapM_cons, ih]
    cases item with
    | error e => rfl
    | ok v => cases items.mapM id <;> rfl

theorem mem_of_mapM_id_eq_error {items : List (Except ε α)} {e : ε}
    (h : items.mapM id = .error e) : .error e ∈ items := by
  induction items with
  | nil => cases h
  | cons item items ih =>
    rw [List.mapM_cons] at h
    cases item with
    | error e' =>
      obtain rfl : e' = e := Except.error.inj h
      exact List.mem_cons_self
    | ok v =>
      cases hi : items.mapM id with
      | ok vs => simp [hi, bind, Except.bind, pure, Except.pure] at h
      | error e' =>
        obtain rfl : e' = e := by simpa [hi, bind, Except.bind] using h
        exact List.mem_cons_of_mem _ (ih hi)

end Items

theorem Reader.readAll_mapError_kind (r : Reader) :
    r.readAll.mapError ReadError.kind = r.findings.mapM id :=
  (mapM_id_mapError ReadError.kind r.drain.1).symm

theorem ofText_lines (s t : String) :
    Reader.ofText (s ++ "\n" ++ t) = (Reader.ofText s).append ('\n' :: t.toList) := by
  simp [Reader.ofText, Reader.ofChars, Reader.append]

theorem readAllText_append_line {s : String} {vs : List Value} (h : readAllText s = .ok vs)
    (t : String) :
    readAllText (s ++ "\n" ++ t) =
      ((readAllText t).mapError (ReadError.shift (s.length + 1))).map (vs ++ ·) := by
  have hdrain := (mapM_id_eq_ok_iff _ vs).mp h
  have hplace :
      Reader.mk ((Reader.ofText s).position + (Reader.ofText s).rest.length + 1) t.toList =
        (Reader.ofText t).shift (s.length + 1) := by
    simp [Reader.ofText, Reader.ofChars, Reader.shift, String.length_toList]
  rw [readAllText, Reader.readAll, ofText_lines, Reader.drain_append_newline hdrain, hplace,
    Reader.drain_shift, mapM_id_values_append, mapM_id_mapError]
  rfl

/-- Reading goes line by line: behind a complete text the values of a further line are added and
its error stands at its place in the whole, and an unmatched closing parenthesis is not mended by
further lines. -/
theorem readAllText_lines (s t : String) :
    (∀ vs, readAllText s = .ok vs →
      (∀ ws, readAllText t = .ok ws → readAllText (s ++ "\n" ++ t) = .ok (vs ++ ws)) ∧
      ∀ e, readAllText t = .error e →
        readAllText (s ++ "\n" ++ t) = .error ⟨e.kind, e.offset + (s.length + 1)⟩) ∧
    ∀ o, readAllText s = .error ⟨.missingOpenParen, o⟩ →
      readAllText (s ++ "\n" ++ t) = .error ⟨.missingOpenParen, o⟩ := by
  refine ⟨fun vs hs => ⟨fun ws ht => ?_, fun e ht => ?_⟩, fun o hs => ?_⟩
  · rw [readAllText_append_line hs, ht]
    rfl
  · rw [readAllText_append_line hs, ht]
    rfl
  · rw [readAllText, Reader.readAll, ofText_lines,
      Reader.drain_append_of_unmatched (mem_of_mapM_id_eq_error hs)]
    exact hs

end Sexp
