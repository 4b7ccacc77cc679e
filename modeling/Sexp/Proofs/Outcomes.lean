import Sexp.Proofs.Classification
import Sexp.Proofs.Grammar

/-!
# How a read ends

A read from any place of a text has one of four outcomes. It gives a value and stops behind its
last character, or it passes nothing but layout up to the end of the text, or it stops in front of
a closing parenthesis that matches nothing, or it comes to the end of the text within a list or a
literal. `outcome` says this once, with the places, and what is proved about sequences of reads
starts from it. Of a reader nothing matters for reading and draining but the answer of its next
read.
-/

namespace Sexp.Reader

open Source

theorem toEnd_eq (r : Reader) : r.toEnd = ⟨r.position + r.rest.length, []⟩ := by
  simp [toEnd, advance]

inductive Outcome (r : Reader) : Except ReadError (Option Value) × Reader → Prop where
  | value {v : Value} {gap piece rest : List Char} : r.rest = gap ++ (piece ++ rest) →
      IsLayout gap (piece ++ rest) → Spells v piece rest →
      Outcome r (.ok (some v), ⟨r.position + gap.length + piece.length, rest⟩)
  | atEnd : IsLayout r.rest [] → Outcome r (.ok none, r.toEnd)
  | unmatched {gap rest : List Char} : r.rest = gap ++ ')' :: rest →
      IsLayout gap (')' :: rest) →
      Outcome r (.error ⟨.missingOpenParen, r.position + gap.length⟩,
        ⟨r.position + gap.length, ')' :: rest⟩)
  | incomplete {kind : ReadError.Kind} {offset : Nat} :
      kind = .missingCloseParen ∨ kind = .unterminatedString →
      Outcome r (.error ⟨kind, offset⟩, r.toEnd)

theorem read_of_unmatched {gap rest : List Char} (h : IsLayout gap (')' :: rest)) (p : Nat) :
    (Reader.mk p (gap ++ ')' :: rest)).read =
      (.error ⟨.missingOpenParen, p + gap.length⟩, ⟨p + gap.length, ')' :: rest⟩) := by
  rw [read, readWithin_layout h]
  exact readWithin_token (show Token.closing.Stands rest from trivial) [] (p + gap.length)

theorem outcome_of_value {r s : Reader} {v : Value} (h : r.read = (.ok (some v), s)) :
    Outcome r (.ok (some v), s) := by
  obtain ⟨p, text⟩ := r
  obtain ⟨gap, piece, rfl, hg, hs⟩ := spells_of_read h
  rw [← h, read_of_spells hg hs]
  exact .value rfl hg hs

theorem outcome (r : Reader) : Outcome r r.read := by
  obtain ⟨p, text⟩ := r
  obtain ⟨lexemes, hl⟩ := exists_lexed p text
  -- What stands in front of the position is of no account, so any text of its length will do.
  let passed := List.replicate p ' '
  have hp : p = passed.length := List.length_replicate.symm
  have hend : atOffset (passed ++ text) (passed ++ text).length = (Reader.mk p text).toEnd := by
    rw [atOffset_end, toEnd_eq, List.length_append, ← hp]
  have ha : (verdict 0 lexemes).Answers (passed ++ text) (Reader.mk p text).read :=
    answers_verdict hl hp []
  cases hv : verdict 0 lexemes with
  | atEnd =>
    rw [hv] at ha
    have hread : (Reader.mk p text).read = (.ok none, (Reader.mk p text).toEnd) := by
      rw [← hend]
      exact ha
    rw [hread]
    exact .atEnd (layout_of_read hread)
  | value stop =>
    rw [hv] at ha
    obtain ⟨v, hread⟩ := ha
    rw [hread]
    exact outcome_of_value hread
  | unmatched o =>
    have hhead := (verdict_eq_unmatched hv).2
    cases hl with
    | finished => simp at hhead
    | unterminated => simp at hhead
    | @token _ gap rest t _ hg _ _ =>
      obtain ⟨rfl, -⟩ : t = .closing ∧ p + gap.length = o := by simpa using hhead
      have hgap : IsLayout gap (')' :: rest) := hg
      show Outcome _ (Reader.mk p (gap ++ ')' :: rest)).read
      rw [read_of_unmatched hgap]
      exact .unmatched rfl hgap
  | unterminated o =>
    rw [hv] at ha
    have hread : (Reader.mk p text).read = (.error ⟨.unterminatedString, o⟩, _) := ha
    rw [hread, hend]
    exact .incomplete (.inr rfl)
  | unclosed =>
    rw [hv] at ha
    have hread : (Reader.mk p text).read = (.error ⟨.missingCloseParen, _⟩, _) := ha
    rw [hread, hend]
    exact .incomplete (.inl rfl)

def Ahead (r s : Reader) : Prop :=
  ∃ passed, r.rest = passed ++ s.rest ∧ s.position = r.position + passed.length

namespace Ahead

variable {r s t : Reader}

theorem refl (r : Reader) : r.Ahead r := ⟨[], rfl, rfl⟩

theorem trans (h : r.Ahead s) (h' : s.Ahead t) : r.Ahead t := by
  obtain ⟨first, hr, hp⟩ := h
  obtain ⟨second, hr', hp'⟩ := h'
  refine ⟨first ++ second, ?_, ?_⟩
  · rw [hr, hr', List.append_assoc]
  · rw [hp', hp, List.length_append, Nat.add_assoc]

theorem position_le (h : r.Ahead s) : r.position ≤ s.position := by
  obtain ⟨passed, -, hp⟩ := h
  omega

theorem position_add_length (h : r.Ahead s) :
    s.position + s.rest.length = r.position + r.rest.length := by
  obtain ⟨passed, hr, hp⟩ := h
  rw [hr, hp, List.length_append, Nat.add_assoc]

end Ahead

theorem toEnd_ahead (r : Reader) : r.Ahead r.toEnd := by
  rw [toEnd_eq]
  exact ⟨r.rest, (List.append_nil _).symm, rfl⟩

theorem Outcome.ahead {r : Reader} {answer : Except ReadError (Option Value) × Reader}
    (h : Outcome r answer) : r.Ahead answer.2 := by
  cases h with
  | @value v gap piece rest hr _ _ =>
    refine ⟨gap ++ piece, by rw [hr, List.append_assoc], ?_⟩
    rw [List.length_append, Nat.add_assoc]
  | atEnd _ => exact r.toEnd_ahead
  | @unmatched gap rest hr _ => exact ⟨gap, hr, rfl⟩
  | incomplete _ => exact r.toEnd_ahead

theorem read_ahead {r s : Reader} {result : Except ReadError (Option Value)}
    (h : r.read = (result, s)) : r.Ahead s := by
  have ho := r.outcome.ahead
  rwa [h] at ho

theorem read_of_skipped {r : Reader} {gap rest : List Char} (hr : r.rest = gap ++ rest)
    (hg : IsLayout gap rest) : r.read = (Reader.mk (r.position + gap.length) rest).read := by
  obtain ⟨p, text⟩ := r
  obtain rfl : text = gap ++ rest := hr
  exact readWithin_layout hg [] p

theorem next_of_error {r s : Reader} {e : ReadError} (h : r.read = (.error e, s)) :
    r.next = (some (.error e), s.toEnd) := by
  rw [next, h]

theorem drain_congr {r s : Reader} (h : r.read = s.read) : r.drain = s.drain := by
  rw [drain_eq, drain_eq, next, next, h]

theorem drain_of_none {r s : Reader} (h : r.read = (.ok none, s)) : r.drain = ([], s) := by
  rw [drain_eq, (next_eq_none_iff r s).mpr h]

theorem drain_of_value {r s : Reader} {v : Value} (h : r.read = (.ok (some v), s)) :
    r.drain = (.ok v :: s.drain.1, s.drain.2) := by
  rw [drain_eq, (next_eq_ok_iff r s v).mpr h]

theorem drain_of_error {r s : Reader} {e : ReadError} (h : r.read = (.error e, s)) :
    r.drain.1 = [.error e] := by
  rw [drain_eq, next_of_error h]
  show Except.error e :: s.toEnd.drain.1 = _
  rw [drain_of_none (read_of_rest_nil s.rest_toEnd)]

/-- Induction along successive reads, up to the end of the text or the first error. -/
@[elab_as_elim]
theorem reads_induction {motive : Reader → Prop}
    (atEnd : ∀ r s, r.read = (.ok none, s) → motive r)
    (value : ∀ r v s, r.read = (.ok (some v), s) → motive s → motive r)
    (error : ∀ r e s, r.read = (.error e, s) → motive r) (r : Reader) : motive r := by
  match h : r.read with
  | (.ok none, s) => exact atEnd r s h
  | (.ok (some v), s) => exact value r v s h (reads_induction atEnd value error s)
  | (.error e, s) => exact error r e s h
termination_by r.rest.length
decreasing_by exact read_length_lt h

end Sexp.Reader
