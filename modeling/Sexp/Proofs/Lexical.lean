import Sexp.Proofs.LiteralItems
import Sexp.Source.Reader

/-!
# Lexical structure

Every text is cut in one way into layout and tokens. The rules are given here without a scanner:
what layout is in front of a text, which token stands in front of a text, and when a quote starts
no literal. The scanner finds exactly the token that stands at the head, and the layout it passes
over is all there is. `Lexed` lists the tokens of a text with the offsets at which they start; it
relates every text to exactly one list.

At the head of a text the reader passes layout, ends at the end of the text or at a literal that
does not end, and otherwise lets the open lists accept the token that stands there. Together with
`exists_lexed` these equations describe every run, and nothing further on looks into the reader.
-/

namespace Sexp.Source

open Literal (EndsRun WellFormed spelling)

/-- The characters `gap` are layout in front of `rest`. A comment without a line feed goes on to
the end of the text, so nothing follows it. -/
inductive IsLayout : (gap rest : List Char) → Prop where
  | none {rest : List Char} : IsLayout [] rest
  | blank {c : Char} {gap rest : List Char} :
      isBlank c = true → IsLayout gap rest → IsLayout (c :: gap) rest
  | comment {body gap rest : List Char} :
      '\n' ∉ body → IsLayout gap rest → IsLayout (';' :: (body ++ '\n' :: gap)) rest
  | lastComment {body : List Char} : '\n' ∉ body → IsLayout (';' :: body) []

theorem layoutWidth_comment {body : List Char} (h : '\n' ∉ body) (cs : List Char) :
    layoutWidth true (body ++ '\n' :: cs) = body.length + 1 + layoutWidth false cs := by
  induction body with
  | nil => simp [layoutWidth]; omega
  | cons c body ih =>
    have hc : (c != '\n') = true := bne_iff_ne.mpr fun hc => h (by simp [hc])
    have hb := ih fun hb => h (by simp [hb])
    rw [List.cons_append, layoutWidth, hc, hb, List.length_cons]
    omega

theorem layoutWidth_lastComment {body : List Char} (h : '\n' ∉ body) :
    layoutWidth true body = body.length := by
  induction body with
  | nil => rfl
  | cons c body ih =>
    have hc : (c != '\n') = true := bne_iff_ne.mpr fun hc => h (by simp [hc])
    rw [layoutWidth, hc, ih fun hb => h (by simp [hb]), List.length_cons]

theorem layoutWidth_append {gap rest : List Char} (h : IsLayout gap rest) :
    layoutWidth false (gap ++ rest) = gap.length + layoutWidth false rest := by
  have hs : isBlank ';' = false := by decide
  induction h with
  | none => simp
  | blank hc _ ih =>
    rw [List.cons_append, layoutWidth, if_pos hc, ih, List.length_cons]
    omega
  | @comment body gap rest hb _ ih =>
    have ha : ';' :: (body ++ '\n' :: gap) ++ rest = ';' :: (body ++ '\n' :: (gap ++ rest)) := by
      simp
    rw [ha, layoutWidth, if_neg (by simp [hs]), if_pos rfl, layoutWidth_comment hb, ih]
    simp only [List.length_cons, List.length_append]
    omega
  | lastComment hb =>
    simp only [List.append_nil, layoutWidth, hs, layoutWidth_lastComment hb, List.length_cons]
    rfl

theorem isLayout_take_aux (comment : Bool) (cs opened : List Char)
    (h : if comment then ∃ body, opened = ';' :: body ∧ '\n' ∉ body else opened = []) :
    IsLayout (opened ++ cs.take (layoutWidth comment cs)) (cs.drop (layoutWidth comment cs)) := by
  -- Within a comment `opened` holds its characters so far, outside it is empty.
  fun_induction layoutWidth comment cs generalizing opened with
  | case1 comment =>
    cases comment with
    | false =>
      rw [if_neg (by simp)] at h
      rw [h]
      exact .none
    | true =>
      rw [if_pos rfl] at h
      obtain ⟨body, rfl, hb⟩ := h
      simpa using IsLayout.lastComment hb
  | case2 c cs ih =>
    rw [if_pos rfl] at h
    obtain ⟨body, rfl, hb⟩ := h
    by_cases hc : c = '\n'
    · subst hc
      have hl := ih [] (by simp)
      simpa using IsLayout.comment hb hl
    · have hl := ih (';' :: (body ++ [c])) (by
        rw [if_pos (bne_iff_ne.mpr hc)]
        exact ⟨body ++ [c], rfl, by simp [hb, Ne.symm hc]⟩)
      simpa using hl
  | case3 c cs hc ih =>
    rw [if_neg (by simp)] at h
    rw [h]
    exact .blank hc (ih [] (by simp))
  | case4 cs hc ih =>
    rw [if_neg (by simp)] at h
    rw [h]
    exact ih [';'] (by rw [if_pos rfl]; exact ⟨[], rfl, by simp⟩)
  | case5 c cs _ _ =>
    rw [if_neg (by simp)] at h
    rw [h]
    exact .none

theorem exists_layout (cs : List Char) :
    ∃ gap rest, cs = gap ++ rest ∧ IsLayout gap rest ∧ layoutWidth false rest = 0 := by
  have hl := isLayout_take_aux false cs [] (by simp)
  refine ⟨_, _, (List.take_append_drop (layoutWidth false cs) cs).symm, hl, ?_⟩
  have hw := layoutWidth_append hl
  rw [List.nil_append, List.take_append_drop, List.length_take_of_le (layoutWidth_le _ _)] at hw
  omega

theorem layoutWidth_cons_eq_zero_iff (c : Char) (cs : List Char) :
    layoutWidth false (c :: cs) = 0 ↔ isBlank c = false ∧ c ≠ ';' := by
  rw [layoutWidth]
  split
  · simp [*]
  · split
    · simp [*]
    · simp [*]

/-- The token is the one that is read when `rest` follows it. -/
def Token.Stands (rest : List Char) : Token → Prop
  | opening => True
  | closing => True
  | atom run => run ≠ [] ∧ (∀ c ∈ run, isDelimiter c = false) ∧ EndsRun (!isDelimiter ·) rest
  | literal body => ∃ items, WellFormed items ∧ body = Literal.spelling items

def OpenLiteral (cs : List Char) : Prop :=
  ∃ tail, cs = '"' :: tail ∧
    ∀ items rest, WellFormed items → tail ≠ spelling items ++ '"' :: rest

theorem not_delimiter {c : Char} (h : isDelimiter c = false) :
    isBlank c = false ∧ c ≠ '(' ∧ c ≠ ')' ∧ c ≠ '"' ∧ c ≠ ';' := by
  simpa only [isDelimiter, Bool.or_eq_false_iff, beq_eq_false_iff_ne, and_assoc] using h

@[simp] theorem length_spelling (t : Token) : t.spelling.length = t.width := rfl

theorem scan_spelling {t : Token} {rest : List Char} (h : t.Stands rest) :
    scan (t.spelling ++ rest) = .token t := by
  cases t with
  | opening => rfl
  | closing => rfl
  | atom run =>
    obtain ⟨hne, hrun, hrest⟩ := h
    cases run with
    | nil => exact absurd rfl hne
    | cons c cs =>
      obtain ⟨-, h1, h2, h3, -⟩ := not_delimiter (hrun c (by simp))
      have hcs : (cs ++ rest).takeWhile (!isDelimiter ·) = cs := by
        apply Literal.takeWhile_append_of_endsRun _ hrest
        intro d hd
        simp [hrun d (by simp [hd])]
      show scan (c :: (cs ++ rest)) = _
      rw [scan.eq_5 c (cs ++ rest) h1 h2 h3, hcs]
  | literal body =>
    obtain ⟨items, hw, rfl⟩ := h
    have hb := Literal.body?_spelling hw rest
    show scan ('"' :: (spelling items ++ ['"'] ++ rest)) = _
    rw [List.append_assoc, List.singleton_append, scan, hb]

theorem layoutWidth_spelling {t : Token} {rest : List Char} (h : t.Stands rest) :
    layoutWidth false (t.spelling ++ rest) = 0 := by
  cases t with
  | opening => rfl
  | closing => rfl
  | atom run =>
    obtain ⟨hne, hrun, -⟩ := h
    cases run with
    | nil => exact absurd rfl hne
    | cons c cs =>
      obtain ⟨hb, -, -, -, hc⟩ := not_delimiter (hrun c (by simp))
      exact (layoutWidth_cons_eq_zero_iff c _).mpr ⟨hb, hc⟩
  | literal body => rfl

theorem OpenLiteral.body? {cs : List Char} (h : OpenLiteral cs) :
    ∃ tail, cs = '"' :: tail ∧ Literal.body? tail = none := by
  obtain ⟨tail, rfl, ht⟩ := h
  refine ⟨tail, rfl, ?_⟩
  rw [Option.eq_none_iff_forall_ne_some]
  intro body hbody
  obtain ⟨items, rest, hw, rfl, hcs⟩ := (Literal.body?_eq_some_iff tail body).mp hbody
  exact ht items rest hw hcs

theorem scan_openLiteral {cs : List Char} (h : OpenLiteral cs) : scan cs = .unterminated := by
  obtain ⟨tail, rfl, hb⟩ := h.body?
  rw [scan, hb]

theorem layoutWidth_openLiteral {cs : List Char} (h : OpenLiteral cs) :
    layoutWidth false cs = 0 := by
  obtain ⟨tail, rfl, -⟩ := h
  rfl

theorem head_cases {cs : List Char} (h : layoutWidth false cs = 0) :
    cs = [] ∨ (∃ t rest, cs = t.spelling ++ rest ∧ Token.Stands rest t) ∨ OpenLiteral cs := by
  fun_cases scan cs with
  | case1 => exact .inl rfl
  | case2 cs => exact .inr (.inl ⟨.opening, cs, rfl, trivial⟩)
  | case3 cs => exact .inr (.inl ⟨.closing, cs, rfl, trivial⟩)
  | case4 cs hb =>
    refine .inr (.inr ⟨cs, rfl, ?_⟩)
    intro items rest hw hcs
    rw [hcs, Literal.body?_spelling hw] at hb
    exact absurd hb (by simp)
  | case5 cs body hb =>
    obtain ⟨items, rest, hw, hs, hcs⟩ := (Literal.body?_eq_some_iff cs body).mp hb
    refine .inr (.inl ⟨.literal body, rest, ?_, items, hw, hs⟩)
    rw [hcs]
    simp [Token.spelling]
  | case6 c cs h1 h2 h3 =>
    obtain ⟨hb, hc⟩ := (layoutWidth_cons_eq_zero_iff c cs).mp h
    have hd : isDelimiter c = false := by
      simp only [isDelimiter, hb, Bool.false_or, Bool.or_eq_false_iff, beq_eq_false_iff_ne]
      exact ⟨⟨⟨h1, h2⟩, h3⟩, hc⟩
    refine .inr (.inl ⟨.atom (c :: cs.takeWhile (!isDelimiter ·)),
      cs.dropWhile (!isDelimiter ·), by simp [Token.spelling], by simp, ?_,
      Literal.endsRun_dropWhile _ cs⟩)
    intro d hm
    rcases List.mem_cons.mp hm with rfl | hm
    · exact hd
    · simpa using List.all_eq_true.mp List.all_takeWhile d hm

inductive Lexeme where
  | token (t : Token) (start : Nat)
  | unterminated (start : Nat)

/-- The text, which starts at the offset `position`, consists of these tokens and layout. -/
inductive Lexed : (position : Nat) → (text : List Char) → List Lexeme → Prop where
  | finished {p : Nat} {gap : List Char} : IsLayout gap [] → Lexed p gap []
  | token {p : Nat} {gap rest : List Char} {t : Token} {lexemes : List Lexeme} :
      IsLayout gap (t.spelling ++ rest) → t.Stands rest →
      Lexed (p + gap.length + t.width) rest lexemes →
      Lexed p (gap ++ (t.spelling ++ rest)) (.token t (p + gap.length) :: lexemes)
  | unterminated {p : Nat} {gap rest : List Char} :
      IsLayout gap rest → OpenLiteral rest →
      Lexed p (gap ++ rest) [.unterminated (p + gap.length)]

theorem Token.Stands.width_pos {t : Token} {rest : List Char} (h : t.Stands rest) :
    0 < t.width := width_pos_of_scan (scan_spelling h)

theorem exists_lexed (position : Nat) (text : List Char) :
    ∃ lexemes, Lexed position text lexemes := by
  induction hn : text.length using Nat.strongRecOn generalizing position text with
  | ind n ih =>
    subst hn
    obtain ⟨gap, rest, rfl, hgap, hrest⟩ := exists_layout text
    rcases head_cases hrest with rfl | ⟨t, more, rfl, ht⟩ | ho
    · exact ⟨[], by rw [List.append_nil]; exact .finished hgap⟩
    · have hlt : more.length < (gap ++ (t.spelling ++ more)).length := by
        have hpos := ht.width_pos
        simp only [List.length_append, length_spelling]
        omega
      obtain ⟨lexemes, hl⟩ := ih more.length hlt (position + gap.length + t.width) more rfl
      exact ⟨_, .token hgap ht hl⟩
    · exact ⟨_, .unterminated hgap ho⟩

theorem layout_unique {gap rest gap' rest' : List Char} (h : IsLayout gap rest)
    (h' : IsLayout gap' rest') (hr : layoutWidth false rest = 0)
    (hr' : layoutWidth false rest' = 0) (he : gap ++ rest = gap' ++ rest') :
    gap = gap' ∧ rest = rest' := by
  have hw := layoutWidth_append h
  have hw' := layoutWidth_append h'
  rw [he] at hw
  exact List.append_inj he (by omega)

theorem Lexed.split {p : Nat} {text : List Char} {lexemes : List Lexeme}
    (h : Lexed p text lexemes) :
    ∃ gap rest, text = gap ++ rest ∧ IsLayout gap rest ∧ layoutWidth false rest = 0 ∧
      match scan rest with
      | .finished => lexemes = []
      | .token t => ∃ others, lexemes = .token t (p + gap.length) :: others ∧
          Lexed (p + gap.length + t.width) (rest.drop t.width) others
      | .unterminated => lexemes = [.unterminated (p + gap.length)] := by
  cases h with
  | finished hg => exact ⟨text, [], by simp, hg, rfl, rfl⟩
  | @token _ gap rest t others hg ht hl =>
    refine ⟨gap, t.spelling ++ rest, rfl, hg, layoutWidth_spelling ht, ?_⟩
    rw [scan_spelling ht]
    refine ⟨others, rfl, ?_⟩
    rw [Token.width, List.drop_left]
    exact hl
  | @unterminated _ gap rest hg ho =>
    refine ⟨gap, rest, rfl, hg, layoutWidth_openLiteral ho, ?_⟩
    rw [scan_openLiteral ho]

theorem Lexed.unique {p : Nat} {text : List Char} {lexemes lexemes' : List Lexeme}
    (h : Lexed p text lexemes) (h' : Lexed p text lexemes') : lexemes = lexemes' := by
  induction h generalizing lexemes' with
  | @finished p gap hg =>
    obtain ⟨gap', rest', he, hg', hw', hm⟩ := h'.split
    obtain ⟨rfl, rfl⟩ := layout_unique hg hg' rfl hw' (by simpa using he)
    exact hm.symm
  | @token p gap rest t others hg ht _ ih =>
    obtain ⟨gap', rest', he, hg', hw', hm⟩ := h'.split
    obtain ⟨rfl, rfl⟩ := layout_unique hg hg' (layoutWidth_spelling ht) hw' he
    rw [scan_spelling ht] at hm
    obtain ⟨others', rfl, hl'⟩ := hm
    rw [Token.width, List.drop_left] at hl'
    rw [ih hl']
  | @unterminated p gap rest hg ho =>
    obtain ⟨gap', rest', he, hg', hw', hm⟩ := h'.split
    obtain ⟨rfl, rfl⟩ := layout_unique hg hg' (layoutWidth_openLiteral ho) hw' he
    rw [scan_openLiteral ho] at hm
    exact hm.symm

end Sexp.Source

namespace Sexp.Reader

open Source

theorem skipLayout_of_layout {gap rest : List Char} (h : IsLayout gap rest) (p : Nat) :
    (Reader.mk p (gap ++ rest)).skipLayout = (Reader.mk (p + gap.length) rest).skipLayout := by
  simp only [skipLayout, advance, layoutWidth_append h, List.drop_append, mk.injEq]
  constructor
  · omega
  · have hd : gap.drop (gap.length + layoutWidth false rest) = [] :=
      List.drop_eq_nil_of_le (by omega)
    rw [hd, List.nil_append, Nat.add_sub_cancel_left]

theorem skipLayout_of_width {cs : List Char} (h : layoutWidth false cs = 0) (p : Nat) :
    (Reader.mk p cs).skipLayout = ⟨p, cs⟩ := by
  simp [skipLayout, advance, h]

theorem readWithin_eq (lists : Nesting) (r : Reader) :
    readWithin lists r =
      match scan r.skipLayout.rest with
      | .finished =>
        (if lists.isEmpty then .ok none else .error ⟨.missingCloseParen, r.skipLayout.position⟩,
          r.skipLayout)
      | .unterminated =>
        (.error ⟨.unterminatedString, r.skipLayout.position⟩, r.skipLayout.toEnd)
      | .token t =>
        match lists.accept t with
        | .complete v => (.ok (some v), r.skipLayout.advance t.width)
        | .pending inner => readWithin inner (r.skipLayout.advance t.width)
        | .unmatched => (.error ⟨.missingOpenParen, r.skipLayout.position⟩, r.skipLayout) := by
  rw [readWithin]
  split
  · next h =>
    rw [h]
    cases lists.isEmpty <;> rfl
  · next h => rw [h]
  · next t h =>
    cases ha : lists.accept t <;> simp only [h, ha]

theorem readWithin_layout {gap rest : List Char} (h : IsLayout gap rest) (lists : Nesting)
    (p : Nat) :
    readWithin lists ⟨p, gap ++ rest⟩ = readWithin lists ⟨p + gap.length, rest⟩ := by
  rw [readWithin_eq, readWithin_eq, skipLayout_of_layout h]

theorem readWithin_nil (lists : Nesting) (p : Nat) :
    readWithin lists ⟨p, []⟩ =
      (if lists.isEmpty then .ok none else .error ⟨.missingCloseParen, p⟩, ⟨p, []⟩) := by
  rw [readWithin_eq]
  rfl

theorem readWithin_openLiteral {cs : List Char} (h : OpenLiteral cs) (lists : Nesting) (p : Nat) :
    readWithin lists ⟨p, cs⟩ = (.error ⟨.unterminatedString, p⟩, ⟨p + cs.length, []⟩) := by
  rw [readWithin_eq, skipLayout_of_width (layoutWidth_openLiteral h), scan_openLiteral h]
  simp [toEnd, advance]

theorem readWithin_token {t : Token} {rest : List Char} (h : t.Stands rest) (lists : Nesting)
    (p : Nat) :
    readWithin lists ⟨p, t.spelling ++ rest⟩ =
      match lists.accept t with
      | .complete v => (.ok (some v), ⟨p + t.width, rest⟩)
      | .pending inner => readWithin inner ⟨p + t.width, rest⟩
      | .unmatched => (.error ⟨.missingOpenParen, p⟩, ⟨p, t.spelling ++ rest⟩) := by
  have ha : (Reader.mk p (t.spelling ++ rest)).advance t.width = ⟨p + t.width, rest⟩ := by
    rw [advance, Token.width, List.drop_left]
  rw [readWithin_eq, skipLayout_of_width (layoutWidth_spelling h), scan_spelling h]
  simp only [ha]

end Sexp.Reader
