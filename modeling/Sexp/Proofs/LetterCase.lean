import Sexp.Proofs.Lines
import Sexp.Proofs.Text.UpperCase

/-!
# The case of names

A name can be spelled in several ways that have one upper-case form, and they may differ in length.
A text is read in the same way whichever of them it uses: the values are the same, and an error is
of the same kind, though it may be found at another offset.

The two texts are read side by side, token by token. A respelled name is a name again, because
upper-casing neither makes nor removes a delimiter, and it ends where the old one ended. So the
tokens of the two texts differ in the spelling of names only, and the open lists accept them alike.
-/

namespace Sexp.Source

open Text (upperChars)
open Literal (EndsRun)

inductive Token.Respells : Token → Token → Prop where
  | same {t : Token} : Respells t t
  | name {run run' : List Char} : upperChars run = upperChars run' →
      Respells (.atom run) (.atom run')

/-- The second text is the first one with other spellings for its names. All else is kept. -/
inductive Respelled : (text text' : List Char) → Prop where
  | finished {gap : List Char} : IsLayout gap [] → Respelled gap gap
  | token {gap rest rest' : List Char} {t t' : Token} : IsLayout gap (t.spelling ++ rest) →
      t.Stands rest → t.Respells t' → Respelled rest rest' →
      Respelled (gap ++ (t.spelling ++ rest)) (gap ++ (t'.spelling ++ rest'))
  | unterminated {gap rest : List Char} : IsLayout gap rest → OpenLiteral rest →
      Respelled (gap ++ rest) (gap ++ rest)

theorem Token.Respells.accept_eq {t t' : Token} (h : t.Respells t') (lists : Nesting) :
    lists.accept t = lists.accept t' := by
  cases h with
  | same => rfl
  | @name run run' hrun =>
    have hsymbol : Symbol.ofText (String.ofList run) = Symbol.ofText (String.ofList run') := by
      rw [Symbol.ofText_eq_iff, Text.upper, Text.upper, String.toList_ofList,
        String.toList_ofList, hrun]
    rw [Nesting.accept, Nesting.accept, hsymbol]

theorem Token.Respells.stands {t t' : Token} {rest rest' : List Char} (h : t.Respells t')
    (ht : t.Stands rest) (hr : EndsRun (!isDelimiter ·) rest → EndsRun (!isDelimiter ·) rest') :
    t'.Stands rest' := by
  cases h with
  | same => exact ht.with_rest hr
  | @name run run' hrun =>
    obtain ⟨hne, hplain, hends⟩ := ht
    refine ⟨?_, ?_, hr hends⟩
    · rw [ne_eq, ← Text.upperChars_eq_nil_iff, ← hrun, Text.upperChars_eq_nil_iff]
      exact hne
    · apply Text.isDelimiter_of_upperChars
      rw [← hrun]
      exact Text.isDelimiter_of_mem_upperChars hplain

theorem Respelled.endsRun {text text' : List Char} (h : Respelled text text')
    (he : EndsRun (!isDelimiter ·) text) : EndsRun (!isDelimiter ·) text' := by
  cases h with
  | finished _ | unterminated _ _ => exact he
  | @token gap rest rest' t t' _ ht hname _ =>
    cases gap with
    | cons c gap => exact he
    | nil =>
      cases hname with
      | same =>
        obtain ⟨c, cs, hc⟩ := List.exists_cons_of_length_pos ht.width_pos
        rw [List.nil_append, hc] at he ⊢
        exact he
      | @name run run' _ =>
        obtain ⟨hne, hplain, -⟩ := ht
        obtain ⟨c, cs, rfl⟩ := List.exists_cons_of_ne_nil hne
        have hc : isDelimiter c = false := hplain c List.mem_cons_self
        have hd := he c rfl
        simp [hc] at hd

end Sexp.Source

namespace Sexp.Reader

open Source

inductive Alike : (answer answer' : Except ReadError (Option Value) × Reader) → Prop where
  | atEnd {s s' : Reader} : Alike (.ok none, s) (.ok none, s')
  | value {v : Value} {s s' : Reader} : Respelled s.rest s'.rest →
      Alike (.ok (some v), s) (.ok (some v), s')
  | error {e e' : ReadError} {s s' : Reader} : e.kind = e'.kind →
      Alike (.error e, s) (.error e', s')

theorem readWithin_respelled {text text' : List Char} (h : Respelled text text') (lists : Nesting)
    (p p' : Nat) : Alike (readWithin lists ⟨p, text⟩) (readWithin lists ⟨p', text'⟩) := by
  induction h generalizing lists p p' with
  | @finished gap hg =>
    rw [← List.append_nil gap, readWithin_layout hg, readWithin_layout hg, readWithin_nil,
      readWithin_nil]
    cases lists with
    | nil => exact .atEnd
    | cons => exact .error rfl
  | @unterminated gap rest hg ho =>
    rw [readWithin_layout hg, readWithin_layout hg, readWithin_openLiteral ho,
      readWithin_openLiteral ho]
    exact .error rfl
  | @token gap rest rest' t t' hg ht hname hrest ih =>
    have ht' : t'.Stands rest' := hname.stands ht hrest.endsRun
    have hne : t.spelling ≠ [] := List.length_pos_iff.mp ht.width_pos
    have hg' : IsLayout gap (t'.spelling ++ rest') := hg.with_rest (by simp [hne])
    rw [readWithin_layout hg, readWithin_layout hg', readWithin_token ht, readWithin_token ht',
      hname.accept_eq]
    cases lists.accept t' with
    | complete v => exact .value hrest
    | pending inner => exact ih inner _ _
    | unmatched => exact .error rfl

theorem read_respelled {r r' : Reader} (h : Respelled r.rest r'.rest) : Alike r.read r'.read :=
  readWithin_respelled h [] r.position r'.position

theorem findings_respelled {r r' : Reader} (h : Respelled r.rest r'.rest) :
    r.findings = r'.findings := by
  induction r using reads_induction generalizing r' with
  | atEnd r s hread =>
    have halike := read_respelled h
    rw [hread] at halike
    generalize hread' : r'.read = answer at halike
    cases halike with
    | atEnd => rw [findings_of_none hread, findings_of_none hread']
  | value r v s hread ih =>
    have halike := read_respelled h
    rw [hread] at halike
    generalize hread' : r'.read = answer at halike
    cases halike with
    | value hrest => rw [findings_of_value hread, findings_of_value hread', ih hrest]
  | error r e s hread =>
    have halike := read_respelled h
    rw [hread] at halike
    generalize hread' : r'.read = answer at halike
    cases halike with
    | error hkind => rw [findings_of_error hread, findings_of_error hread', hkind]

end Sexp.Reader

namespace Sexp

open Source

theorem mapError_kind_cases {α : Type} {x y : Except ReadError α}
    (h : x.mapError ReadError.kind = y.mapError ReadError.kind) :
    (∃ a, x = .ok a ∧ y = .ok a) ∨ ∃ e e', x = .error e ∧ y = .error e' ∧ e.kind = e'.kind := by
  cases x with
  | ok a =>
    cases y with
    | ok b => exact .inl ⟨a, rfl, congrArg Except.ok (Except.ok.inj h).symm⟩
    | error e' => cases h
  | error e =>
    cases y with
    | ok b => cases h
    | error e' => exact .inr ⟨e, e', rfl, rfl, Except.error.inj h⟩

/-- The spelling of names does not matter for reading, as long as their upper-case forms stay. The
values are the same, or the errors are of the same kind. -/
theorem readAllText_respelled {s s' : String} (h : Respelled s.toList s'.toList) :
    (∃ vs, readAllText s = .ok vs ∧ readAllText s' = .ok vs) ∨
      ∃ e e', readAllText s = .error e ∧ readAllText s' = .error e' ∧ e.kind = e'.kind := by
  have hfindings : (Reader.ofText s).findings = (Reader.ofText s').findings :=
    Reader.findings_respelled h
  apply mapError_kind_cases
  rw [readAllText, readAllText, Reader.readAll_mapError_kind, Reader.readAll_mapError_kind,
    hfindings]

/-- Here a name becomes longer, while the same letter in a literal and in a comment stays. -/
theorem readAllText_respelled_longer :
    Respelled "ß\"ß\";ß".toList "SS\"ß\";ß".toList ∧
      readAllText "SS\"ß\";ß" = .ok [.symbol ⟨"SS"⟩, .string "ß"] := by
  have hcomment : Respelled [';', 'ß'] [';', 'ß'] :=
    .finished (.lastComment (show '\n' ∉ ['ß'] by decide))
  have hliteral : Respelled ['"', 'ß', '"', ';', 'ß'] ['"', 'ß', '"', ';', 'ß'] :=
    .token (show IsLayout [] (Token.spelling (.literal ['ß']) ++ [';', 'ß']) from .none)
      ⟨[.plain 'ß'], ⟨⟨by decide, by decide⟩, trivial⟩, rfl⟩ .same hcomment
  have hname : Respelled ['ß', '"', 'ß', '"', ';', 'ß'] ['S', 'S', '"', 'ß', '"', ';', 'ß'] :=
    .token (show IsLayout [] (Token.spelling (.atom ['ß']) ++ ['"', 'ß', '"', ';', 'ß']) from .none)
      ⟨by simp, by simp [isDelimiter, isBlank], by simp [Literal.EndsRun, isDelimiter]⟩
      (show Token.Respells _ (.atom ['S', 'S']) from .name (by decide)) hliteral
  have h : Respelled "ß\"ß\";ß".toList "SS\"ß\";ß".toList := hname
  have hread : readAllText "ß\"ß\";ß" = .ok [.symbol ⟨"SS"⟩, .string "ß"] := by
    with_unfolding_all rfl
  refine ⟨h, ?_⟩
  rcases readAllText_respelled h with ⟨vs, hs, hs'⟩ | ⟨e, e', he, -, -⟩
  · rw [hs', ← hs, hread]
  · rw [hread] at he
    cases he

end Sexp
