import Sexp.Proofs.Lines
import Sexp.Proofs.Strict
import Sexp.Proofs.Text.UpperCase
import Sexp.Text.Characters
import Sexp.Value.Printer

/-!
# White space around a text

White space is removed at both ends of a line before the line is read. Of the white space only four
characters are blanks; the others are characters of names, so to remove them may change what is
read. It changes nothing exactly in this case: in front there are blanks only, and what is removed
at the end comes behind an error or goes on with the layout behind the last value.

Characters at the end are settled along the reads of the text without them. Each read is repeated
on the longer text, up to a name that goes on, the end of the text, or an error, which stays what
it is because there is neither a quote nor a closing parenthesis among them. Characters in front
that are no blanks start a name or lengthen one. That they always show is seen by the extent of
what is read, which grows, and which nothing at the end can bring down again.
-/

namespace Sexp.Text

open Source (isBlank isDelimiter)

def leading (cs : List Char) : List Char := cs.takeWhile isWhitespace

def trailing (cs : List Char) : List Char :=
  ((trimLeft cs).reverse.takeWhile isWhitespace).reverse

theorem trim_append_trailing (cs : List Char) : trim cs ++ trailing cs = trimLeft cs := by
  have hsplit : (trimLeft cs).reverse.takeWhile isWhitespace ++ trimLeft (trimLeft cs).reverse =
      (trimLeft cs).reverse := List.takeWhile_append_dropWhile
  rw [trim, trimRight, trailing, ← List.reverse_append, hsplit, List.reverse_reverse]

theorem leading_append_trim (cs : List Char) : leading cs ++ (trim cs ++ trailing cs) = cs := by
  rw [trim_append_trailing]
  exact List.takeWhile_append_dropWhile

theorem isWhitespace_of_mem_leading {cs : List Char} {c : Char} (h : c ∈ leading cs) :
    isWhitespace c = true := List.all_eq_true.mp List.all_takeWhile c h

theorem isWhitespace_of_mem_trailing {cs : List Char} {c : Char} (h : c ∈ trailing cs) :
    isWhitespace c = true :=
  List.all_eq_true.mp List.all_takeWhile c (List.mem_reverse.mp h)

theorem not_mem_trailing {c : Char} (h : isWhitespace c = false) (cs : List Char) :
    c ∉ trailing cs := by
  intro hc
  rw [isWhitespace_of_mem_trailing hc] at h
  cases h

theorem isDelimiter_of_isWhitespace {c : Char} (h : isWhitespace c = true)
    (hb : isBlank c = false) : isDelimiter c = false := by
  simp only [isDelimiter, hb, Bool.false_or, Bool.or_eq_false_iff, beq_eq_false_iff_ne, and_assoc]
  refine ⟨?_, ?_, ?_, ?_⟩ <;> rintro rfl <;> revert h <;> decide

end Sexp.Text

namespace Sexp.Source

open Literal (EndsRun WellFormed spelling)

namespace IsLayout

variable {gap rest tail : List Char}

theorem of_blanks (h : ∀ c ∈ gap, isBlank c = true) : IsLayout gap rest := by
  induction gap with
  | nil => exact .none
  | cons c gap ih => exact .blank (h c (by simp)) (ih fun d hd => h d (by simp [hd]))

theorem append (h : IsLayout gap rest) (hr : IsLayout rest []) : IsLayout (gap ++ rest) [] := by
  induction h with
  | none => exact hr
  | blank hc _ ih => exact .blank hc (ih hr)
  | comment hb _ ih =>
    have hl := IsLayout.comment hb (ih hr)
    simpa using hl
  | lastComment hb =>
    rw [List.append_nil]
    exact .lastComment hb

theorem shorten (h : IsLayout gap (rest ++ tail)) : IsLayout gap rest := by
  by_cases hne : rest ++ tail = []
  · obtain ⟨rfl, rfl⟩ := List.append_eq_nil_iff.mp hne
    exact h
  · exact h.with_rest hne

theorem of_append (h : IsLayout (gap ++ tail) []) : IsLayout gap [] := by
  obtain ⟨before, rest, rfl, hb, hw⟩ := exists_layout gap
  cases rest with
  | nil => simpa using hb
  | cons c rest =>
    -- What stops the layout here would have stopped it with `tail` behind as well.
    have hb' : IsLayout before (c :: (rest ++ tail)) := hb.with_rest (by simp)
    have hw' := (layoutWidth_cons_eq_zero_iff c (rest ++ tail)).mpr
      ((layoutWidth_cons_eq_zero_iff c rest).mp hw)
    obtain ⟨-, he⟩ := layout_unique hb' h hw' rfl (by simp)
    cases he

theorem extend {last : List Char} (h : IsLayout gap last) (hlast : last = []) (tail : List Char) :
    ∃ more rest, tail = more ++ rest ∧ IsLayout (gap ++ more) rest := by
  induction h with
  | none => exact ⟨[], tail, rfl, .none⟩
  | blank hc _ ih =>
    obtain ⟨more, rest, ht, hl⟩ := ih hlast
    exact ⟨more, rest, ht, .blank hc hl⟩
  | comment hb _ ih =>
    obtain ⟨more, rest, ht, hl⟩ := ih hlast
    have hl' := IsLayout.comment hb hl
    exact ⟨more, rest, ht, by simpa using hl'⟩
  | @lastComment body hb =>
    by_cases hn : '\n' ∈ tail
    · obtain ⟨more, rest, rfl, hm⟩ := List.eq_append_cons_of_mem hn
      have hl : IsLayout (';' :: ((body ++ more) ++ '\n' :: [])) rest :=
        .comment (by simp [hb, hm]) .none
      exact ⟨more ++ ['\n'], rest, by simp, by simpa using hl⟩
    · exact ⟨tail, [], (List.append_nil _).symm, .lastComment (by simp [hb, hn])⟩

end IsLayout

theorem SpellsAll.shorten {vs : List Value} {piece rest tail : List Char}
    (h : SpellsAll vs piece (rest ++ tail)) : SpellsAll vs piece rest := by
  induction vs generalizing piece with
  | nil =>
    cases h with
    | nil hg => exact .nil hg.shorten
  | cons v vs ih =>
    cases h with
    | @cons _ _ gap piece more _ hg hv hvs =>
      rw [← List.append_assoc] at hv
      have hg' : IsLayout gap ((piece ++ (more ++ rest)) ++ tail) := by simpa using hg
      exact .cons hg'.shorten (hv.with_rest fun _ => Literal.endsRun_of_append) (ih hvs)

theorem SpellsAll.append_layout {vs : List Value} {piece gap : List Char}
    (h : SpellsAll vs piece gap) (hg : IsLayout gap []) : SpellsAll vs (piece ++ gap) [] := by
  induction vs generalizing piece with
  | nil =>
    cases h with
    | nil hp => exact .nil (hp.append hg)
  | cons v vs ih =>
    cases h with
    | @cons _ _ before piece more _ hb hv hvs =>
      have hall : SpellsAll (v :: vs) (before ++ (piece ++ (more ++ gap))) [] :=
        .cons (by simpa using hb) (by simpa using hv) (ih hvs)
      simpa using hall

theorem Token.Stands.append_or {t : Token} {rest : List Char} (h : t.Stands rest)
    (tail : List Char) : t.Stands (rest ++ tail) ∨ ∃ run, t = .atom run ∧ rest = [] := by
  by_cases hr : rest = []
  · cases t with
    | opening | closing => exact .inl trivial
    | atom run => exact .inr ⟨run, rfl, hr⟩
    | literal body => exact .inl h
  · exact .inl (h.with_rest fun he => Literal.endsRun_append_of_ne_nil he hr)

theorem OpenLiteral.append {cs tail : List Char} (h : OpenLiteral cs) (hq : '"' ∉ tail) :
    OpenLiteral (cs ++ tail) := by
  obtain ⟨body, rfl, hb⟩ := h
  refine ⟨body ++ tail, rfl, ?_⟩
  intro items rest hw he
  rcases List.append_eq_append_iff.mp he with ⟨more, -, ht⟩ | ⟨more, hbody, ht⟩
  · exact hq (by simp [ht])
  · cases more with
    | nil => exact hq (by simp [show tail = '"' :: rest from ht.symm])
    | cons c more =>
      obtain ⟨rfl, -⟩ := List.cons.inj ht
      exact hb items more hw hbody

end Sexp.Source

namespace Sexp.Reader

open Source
open Literal (EndsRun)

theorem readWithin_unclosed {p : Nat} {text : List Char} {lexemes : List Lexeme}
    (hl : Lexed p text lexemes) (hclose : ')' ∉ text) (hquote : '"' ∉ text)
    (elements : List Value) (lists : Nesting) :
    ∃ o s, readWithin (elements :: lists) ⟨p, text⟩ = (.error ⟨.missingCloseParen, o⟩, s) := by
  induction hl generalizing elements lists with
  | @finished p gap hg =>
    rw [← List.append_nil gap, readWithin_layout hg, readWithin_nil]
    exact ⟨_, _, rfl⟩
  | @unterminated p gap rest _ ho =>
    obtain ⟨tail, rfl, -⟩ := ho
    simp at hquote
  | @token p gap rest t lexemes hg ht _ ih =>
    have ih' := ih (fun hc => hclose (by simp [hc])) (fun hq => hquote (by simp [hq]))
    rw [readWithin_layout hg, readWithin_token ht]
    cases t with
    | opening => exact ih' [] (elements :: lists)
    | closing => simp [Token.spelling] at hclose
    | atom run => exact ih' _ lists
    | literal body => simp [Token.spelling] at hquote

theorem readWithin_append_of_error {p : Nat} {text tail : List Char} {lexemes : List Lexeme}
    (hl : Lexed p text lexemes) (hclose : ')' ∉ tail) (hquote : '"' ∉ tail) {lists : Nesting}
    {e : ReadError} {s : Reader} (h : readWithin lists ⟨p, text⟩ = (.error e, s)) :
    ∃ e' s', readWithin lists ⟨p, text ++ tail⟩ = (.error e', s') ∧ e'.kind = e.kind := by
  -- Only a name at the very end may be read in another way, and it is within a list then, which
  -- stays open.
  induction hl generalizing lists with
  | @finished p gap hg =>
    rw [← List.append_nil gap, readWithin_layout hg, readWithin_nil] at h
    cases lists with
    | nil => cases h
    | cons elements lists =>
      cases h
      obtain ⟨more, rest, rfl, hmore⟩ := hg.extend rfl tail
      obtain ⟨lexemes, hrest⟩ := exists_lexed (p + (gap ++ more).length) rest
      obtain ⟨o, s, hread⟩ := readWithin_unclosed hrest (fun hc => hclose (by simp [hc]))
        (fun hq => hquote (by simp [hq])) elements lists
      rw [← List.append_assoc, readWithin_layout hmore]
      exact ⟨_, s, hread, rfl⟩
  | @unterminated p gap rest hg ho =>
    have hne : rest ≠ [] := by
      obtain ⟨body, rfl, -⟩ := ho
      simp
    rw [readWithin_layout hg, readWithin_openLiteral ho] at h
    cases h
    rw [List.append_assoc, readWithin_layout (hg.with_rest (by simp [hne])),
      readWithin_openLiteral (ho.append hquote)]
    exact ⟨_, _, rfl, rfl⟩
  | @token p gap rest t lexemes hg ht _ ih =>
    have hne : t.spelling ≠ [] := List.length_pos_iff.mp ht.width_pos
    have htext : gap ++ (t.spelling ++ rest) ++ tail = gap ++ (t.spelling ++ (rest ++ tail)) := by
      simp
    rw [readWithin_layout hg, readWithin_token ht] at h
    rw [htext, readWithin_layout (hg.with_rest (by simp [hne]))]
    rcases ht.append_or tail with ht' | ⟨run, rfl, rfl⟩
    · rw [readWithin_token ht']
      cases ha : lists.accept t with
      | complete v => simp [ha] at h
      | pending inner =>
        rw [ha] at h
        exact ih h
      | unmatched =>
        rw [ha] at h
        cases h
        exact ⟨_, _, rfl, rfl⟩
    · cases lists with
      | nil => cases h
      | cons elements lists =>
        have hend : readWithin (_ :: lists) ⟨_, []⟩ = (.error e, s) := h
        rw [readWithin_nil] at hend
        cases hend
        have hclose' : ')' ∉ run := fun hc => absurd (ht.2.1 _ hc) (by decide)
        have hquote' : '"' ∉ run := fun hc => absurd (ht.2.1 _ hc) (by decide)
        obtain ⟨lexemes, hrest⟩ := exists_lexed (p + gap.length) (run ++ tail)
        obtain ⟨o, s, hread⟩ := readWithin_unclosed hrest (by simp [hclose, hclose'])
          (by simp [hquote, hquote']) elements lists
        exact ⟨_, s, hread, rfl⟩

theorem findings_eq_nil_iff (r : Reader) : r.findings = [] ↔ IsLayout r.rest [] := by
  rw [findings, List.map_eq_nil_iff, drain_eq_nil_iff]

/-- The characters of `tail` belong to no value behind the text that is left: they go on with the
layout behind its last value. -/
def Idle (r : Reader) (tail : List Char) : Prop :=
  ∃ vs body gap, r.rest = body ++ gap ∧ SpellsAll vs body (gap ++ tail) ∧ IsLayout (gap ++ tail) []

section Append

variable {r : Reader} {tail : List Char}

theorem findings_append_of_error (hclose : ')' ∉ tail) (hquote : '"' ∉ tail)
    {kind : ReadError.Kind} (h : .error kind ∈ r.findings) :
    (r.append tail).findings = r.findings := by
  induction r using reads_induction with
  | atEnd r s hread => simp [findings_of_none hread] at h
  | value r v s hread ih =>
    rw [findings_of_value hread] at h ⊢
    have hs : .error kind ∈ s.findings := by simpa using h
    have hlonger : (r.append tail).read = (.ok (some v), s.append tail) := by
      apply read_append_of_value hread
      intro _ hnil
      rw [findings_of_rest_nil hnil] at hs
      cases hs
    rw [findings_of_value hlonger, ih hs]
  | error r e s hread =>
    obtain ⟨lexemes, hl⟩ := exists_lexed r.position r.rest
    obtain ⟨e', s', hread', hkind⟩ := readWithin_append_of_error hl hclose hquote hread
    have hlonger : (r.append tail).read = (.error e', s') := hread'
    rw [findings_of_error hread, findings_of_error hlonger, hkind]

theorem findings_append_of_idle (h : r.Idle tail) : (r.append tail).findings = r.findings := by
  obtain ⟨vs, body, gap, hr, hb, hg⟩ := h
  have hall : SpellsAll vs r.rest [] := by
    rw [hr]
    exact hb.shorten.append_layout hg.of_append
  have hlonger : SpellsAll vs (r.append tail).rest [] := by
    rw [append, hr, List.append_assoc]
    exact hb.append_layout hg
  rw [findings_of_spellsAll hall, findings_of_spellsAll hlonger]

theorem Idle.of_value {s : Reader} {v : Value} (h : r.read = (.ok (some v), s))
    (hs : s.Idle tail)
    (hmore : v.kind = .symbol → s.rest = [] → EndsRun (!isDelimiter ·) tail) : r.Idle tail := by
  obtain ⟨vs, body, gap, hr, hb, hg⟩ := hs
  obtain ⟨before, piece, hrest, hbefore, hv⟩ := spells_of_read h
  rw [hr] at hrest hbefore hv
  refine ⟨v :: vs, before ++ (piece ++ body), gap, by simp [hrest], ?_, hg⟩
  refine .cons (hbefore.with_rest (by simp [hv.piece_ne_nil])) (hv.with_rest fun hk he => ?_) hb
  rw [← List.append_assoc]
  by_cases hnil : body ++ gap = []
  · rw [hnil]
    exact hmore hk (hr.trans hnil)
  · exact Literal.endsRun_append_of_ne_nil he hnil

theorem findings_append_of_blanks (h : ∀ c ∈ tail, isBlank c = true) :
    (r.append tail).findings = r.findings := by
  have hdelimiter (c : Char) (hc : c ∈ tail) : isDelimiter c = true := by
    simp [isDelimiter, h c hc]
  induction r using reads_induction with
  | atEnd r s hread =>
    have hg := layout_of_read hread
    obtain ⟨more, rest, rfl, hmore⟩ := hg.extend rfl tail
    have hrest : IsLayout rest [] := .of_blanks fun c hc => h c (by simp [hc])
    rw [findings_of_none hread, findings_eq_nil_iff, append, ← List.append_assoc]
    exact hmore.append hrest
  | value r v s hread ih =>
    have hlonger : (r.append tail).read = (.ok (some v), s.append tail) := by
      apply read_append_of_value hread
      intro _ _ c hc
      simp [hdelimiter c (List.mem_of_mem_head? hc)]
    rw [findings_of_value hread, findings_of_value hlonger, ih]
  | error r e s hread =>
    have hmem : .error e.kind ∈ r.findings := by simp [findings_of_error hread]
    refine findings_append_of_error (fun hc => ?_) (fun hc => ?_) hmem
    · exact absurd (h _ hc) (by decide)
    · exact absurd (h _ hc) (by decide)

end Append

def extent (r : Reader) : Nat :=
  ((r.findings.filterMap Except.toOption).flatMap Value.chars).length

section Extent

variable {r s : Reader}

theorem extent_of_none (h : r.read = (.ok none, s)) : r.extent = 0 := by
  rw [extent, findings_of_none h]
  rfl

theorem extent_of_value {v : Value} (h : r.read = (.ok (some v), s)) :
    r.extent = v.chars.length + s.extent := by
  rw [extent, findings_of_value h]
  exact List.length_append

theorem extent_of_error {e : ReadError} (h : r.read = (.error e, s)) : r.extent = 0 := by
  rw [extent, findings_of_error h]
  rfl

theorem extent_congr (h : r.findings = s.findings) : r.extent = s.extent := by
  rw [extent, h, extent]

theorem chars_name (run : List Char) :
    (Value.symbol (Symbol.ofText (String.ofList run))).chars = Text.upperChars run := by
  simp [Value.chars, Symbol.ofText]

theorem endsRun_or_extent_lt {v : Value} (h : r.read = (.ok (some v), s)) (tail : List Char) :
    (v.kind = .symbol → s.rest = [] → EndsRun (!isDelimiter ·) tail) ∨
      r.extent < (r.append tail).extent := by
  by_cases hmore : v.kind = .symbol → s.rest = [] → EndsRun (!isDelimiter ·) tail
  · exact .inl hmore
  · obtain ⟨hk, hs, htail⟩ : v.kind = .symbol ∧ s.rest = [] ∧ ¬EndsRun (!isDelimiter ·) tail := by
      simpa using hmore
    obtain ⟨name, run, left, hne, rfl, hread⟩ := read_append_of_name h hk hs htail
    have hpos : 0 < (Text.upperChars run).length := by
      rw [List.length_pos_iff, ne_eq, Text.upperChars_eq_nil_iff]
      exact hne
    right
    rw [extent_of_value h, extent_of_value hread, extent_of_none (read_of_rest_nil hs), chars_name,
      chars_name, Text.upperChars_append, List.length_append]
    omega

theorem extent_le_append (r : Reader) (tail : List Char) : r.extent ≤ (r.append tail).extent := by
  induction r using reads_induction with
  | atEnd r s h =>
    rw [extent_of_none h]
    exact Nat.zero_le _
  | value r v s h ih =>
    rcases endsRun_or_extent_lt h tail with hmore | hlt
    · rw [extent_of_value h, extent_of_value (read_append_of_value h hmore)]
      exact Nat.add_le_add_left ih _
    · exact Nat.le_of_lt hlt
  | error r e s h =>
    rw [extent_of_error h]
    exact Nat.zero_le _

end Extent

theorem findings_append_eq_iff (r : Reader) {tail : List Char} (hclose : ')' ∉ tail)
    (hquote : '"' ∉ tail) :
    (r.append tail).findings = r.findings ↔
      (∃ kind, .error kind ∈ r.findings) ∨ r.Idle tail := by
  constructor
  · intro h
    induction r using reads_induction with
    | atEnd r s hread =>
      rw [findings_of_none hread, findings_eq_nil_iff] at h
      exact .inr ⟨[], [], r.rest, rfl, .nil .none, h⟩
    | value r v s hread ih =>
      rcases endsRun_or_extent_lt hread tail with hmore | hlt
      · have hlonger := read_append_of_value hread hmore
        rw [findings_of_value hread, findings_of_value hlonger] at h
        rcases ih (List.cons.inj h).2 with ⟨kind, he⟩ | hs
        · rw [findings_of_value hread]
          exact .inl ⟨kind, List.mem_cons_of_mem _ he⟩
        · exact .inr (.of_value hread hs hmore)
      · rw [extent_congr h] at hlt
        exact absurd hlt (Nat.lt_irrefl _)
    | error r e s hread => exact .inl ⟨e.kind, by simp [findings_of_error hread]⟩
  · rintro (⟨kind, he⟩ | hidle)
    · exact findings_append_of_error hclose hquote he
    · exact findings_append_of_idle hidle

theorem findings_blanks_append {lead : List Char} (h : ∀ c ∈ lead, isBlank c = true)
    (text : List Char) : (ofChars (lead ++ text)).findings = (ofChars text).findings := by
  have hskip : (ofChars (lead ++ text)).read = _ := read_of_skipped rfl (.of_blanks h)
  rw [findings_congr hskip, findings_mk]

theorem extent_run_append {run rest : List Char} (hrun : ∀ c ∈ run, isDelimiter c = false)
    (hrest : EndsRun (!isDelimiter ·) rest) :
    (ofChars (run ++ rest)).extent = (Text.upperChars run).length + (ofChars rest).extent := by
  by_cases hne : run = []
  · rw [hne]
    exact (Nat.zero_add _).symm
  · have hread := read_of_spells (p := 0) .none (.atom hne hrun hrest)
    have hfirst : (ofChars (run ++ rest)).read = _ := hread
    rw [extent_of_value hfirst, chars_name, extent_congr (findings_mk _ rest)]

theorem extent_lt_cons {c : Char} (hc : isDelimiter c = false) (text : List Char) :
    (ofChars text).extent < (ofChars (c :: text)).extent := by
  let run := text.takeWhile (!isDelimiter ·)
  let rest := text.dropWhile (!isDelimiter ·)
  have hsplit : run ++ rest = text := List.takeWhile_append_dropWhile
  have hrest : EndsRun (!isDelimiter ·) rest := Literal.endsRun_dropWhile _ text
  have hrun : ∀ d ∈ run, isDelimiter d = false := fun d hd => by
    simpa using List.all_eq_true.mp List.all_takeWhile d hd
  have hrun' : ∀ d ∈ c :: run, isDelimiter d = false := by
    simpa using ⟨hc, hrun⟩
  have hpos : 0 < (Text.upperChar c).length := List.length_pos_iff.mpr (Text.upperChar_ne_nil c)
  rw [← hsplit, ← List.cons_append, extent_run_append hrun hrest, extent_run_append hrun' hrest,
    Text.upperChars_cons, List.length_append]
  omega

theorem extent_lt_append_leading {lead : List Char} (h : ∀ c ∈ lead, Text.isWhitespace c = true)
    (hb : ¬∀ c ∈ lead, isBlank c = true) (text : List Char) :
    (ofChars text).extent < (ofChars (lead ++ text)).extent := by
  induction lead with
  | nil => simp at hb
  | cons c lead ih =>
    have hlead : ∀ d ∈ lead, Text.isWhitespace d = true := fun d hd => h d (by simp [hd])
    cases hc : isBlank c with
    | true =>
      have hblank : ∀ d ∈ [c], isBlank d = true := by simpa using hc
      have heq : (ofChars (c :: (lead ++ text))).extent = _ :=
        extent_congr (findings_blanks_append hblank (lead ++ text))
      rw [List.cons_append, heq]
      exact ih hlead (by simpa [hc] using hb)
    | false =>
      have hname := Text.isDelimiter_of_isWhitespace (h c (by simp)) hc
      have hle : (ofChars text).extent ≤ (ofChars (lead ++ text)).extent := by
        by_cases hblank : ∀ d ∈ lead, isBlank d = true
        · exact Nat.le_of_eq (extent_congr (findings_blanks_append hblank text)).symm
        · exact Nat.le_of_lt (ih hlead hblank)
      exact Nat.lt_of_le_of_lt hle (extent_lt_cons hname (lead ++ text))

/-- Trimming a line changes nothing in what is read from it, values and error alike, exactly if
only blanks are removed in front and what is removed at the end comes behind an error or belongs to
the layout behind the last value. In particular blanks can be removed. -/
theorem findings_trim_eq_iff (line : List Char) :
    ((ofChars (Text.trim line)).findings = (ofChars line).findings ↔
      (∀ c ∈ Text.leading line, isBlank c = true) ∧
        ((∃ kind, .error kind ∈ (ofChars (Text.trim line)).findings) ∨
          (ofChars (Text.trim line)).Idle (Text.trailing line))) ∧
    ((∀ c ∈ Text.leading line ++ Text.trailing line, isBlank c = true) →
      (ofChars (Text.trim line)).findings = (ofChars line).findings) := by
  have hclose := Text.not_mem_trailing (c := ')') (by decide) line
  have hquote := Text.not_mem_trailing (c := '"') (by decide) line
  have hends := findings_append_eq_iff (ofChars (Text.trim line)) hclose hquote
  have hfront (hb : ∀ c ∈ Text.leading line, isBlank c = true) : (ofChars line).findings =
      ((ofChars (Text.trim line)).append (Text.trailing line)).findings := by
    have hskip := findings_blanks_append hb (Text.trim line ++ Text.trailing line)
    rwa [Text.leading_append_trim] at hskip
  refine ⟨⟨fun h => ?_, fun h => ?_⟩, fun hblank => ?_⟩
  · by_cases hb : ∀ c ∈ Text.leading line, isBlank c = true
    · refine ⟨hb, hends.mp ?_⟩
      rw [h, hfront hb]
    · -- A name in front would be longer, and the end of the line cannot make up for it.
      have hlt := extent_lt_append_leading (fun _ => Text.isWhitespace_of_mem_leading) hb
        (Text.trim line ++ Text.trailing line)
      have hle := extent_le_append (ofChars (Text.trim line)) (Text.trailing line)
      rw [Text.leading_append_trim, ← extent_congr h] at hlt
      exact absurd (Nat.lt_of_le_of_lt hle hlt) (Nat.lt_irrefl _)
  · rw [hfront h.1]
    exact (hends.mpr h.2).symm
  · rw [hfront fun c hc => hblank c (by simp [hc])]
    exact (findings_append_of_blanks fun c hc => hblank c (by simp [hc])).symm

/-- A no-break space is removed in front of a name, of which it is a part. -/
theorem findings_trim_noBreakSpace :
    (ofChars (Text.trim ['\u00A0', 'a'])).findings = [.ok (.symbol ⟨"A"⟩)] ∧
      (ofChars ['\u00A0', 'a']).findings = [.ok (.symbol ⟨"\u00A0A"⟩)] ∧
      (ofChars (Text.trim ['\u00A0', 'a'])).findings ≠ (ofChars ['\u00A0', 'a']).findings := by
  have htrimmed : (ofChars (Text.trim ['\u00A0', 'a'])).findings = [.ok (.symbol ⟨"A"⟩)] := by
    with_unfolding_all rfl
  have hline : (ofChars ['\u00A0', 'a']).findings = [.ok (.symbol ⟨"\u00A0A"⟩)] := by
    with_unfolding_all rfl
  refine ⟨htrimmed, hline, ?_⟩
  rw [htrimmed, hline]
  simp

end Sexp.Reader
