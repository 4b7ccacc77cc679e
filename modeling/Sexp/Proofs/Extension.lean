import Sexp.Proofs.Outcomes

/-!
# Longer texts

What happens to a read when text is appended. A value that has been read stays the same, and so
does the place where it ends, unless it is a symbol at the very end and the appended text goes on
with its name: whatever else a value ends with, nothing that follows can take it back. A closing
parenthesis that matches nothing is there to stay as well. Every other read that gives no value
can be completed. The text may stop within lists, a comment or a literal, even after a backslash,
and there is always a text that leads on from there to a value.
-/

namespace Sexp.Literal

theorem endsRun_append_of_ne_nil {p : Char → Bool} {rest more : List Char} (h : EndsRun p rest)
    (hne : rest ≠ []) : EndsRun p (rest ++ more) := by
  cases rest with
  | nil => exact absurd rfl hne
  | cons c rest => exact h

theorem endsRun_of_append {p : Char → Bool} {rest more : List Char} (h : EndsRun p (rest ++ more)) :
    EndsRun p rest := by
  cases rest with
  | nil => simp [EndsRun]
  | cons c rest => exact h

theorem exists_body?_append {tail : List Char} (h : body? tail = none) :
    ∃ extra, ∀ rest, body? (tail ++ extra ++ '"' :: rest) = some (tail ++ extra) := by
  fun_induction body? tail with
  | case1 => exact ⟨[], fun _ => rfl⟩
  | case2 => exact ⟨['\\'], fun _ => rfl⟩
  | case3 => simp at h
  | case4 c cs ih =>
    obtain ⟨extra, he⟩ := ih (Option.map_eq_none_iff.mp h)
    refine ⟨extra, fun rest => ?_⟩
    show (body? (cs ++ extra ++ '"' :: rest)).map _ = _
    rw [he]
    rfl
  | case5 c cs h1 h2 h3 ih =>
    obtain ⟨extra, he⟩ := ih (Option.map_eq_none_iff.mp h)
    refine ⟨extra, fun rest => ?_⟩
    show body? (c :: (cs ++ extra ++ '"' :: rest)) = _
    rw [body?_plain ⟨h2, ne_backslash h1 h3⟩, he]
    rfl

end Sexp.Literal

namespace Sexp.Source

open Literal (EndsRun WellFormed spelling)

theorem IsLayout.with_rest {gap rest rest' : List Char} (h : IsLayout gap rest)
    (hne : rest ≠ []) : IsLayout gap rest' := by
  induction h with
  | none => exact .none
  | blank hc _ ih => exact .blank hc (ih hne)
  | comment hb _ ih => exact .comment hb (ih hne)
  | lastComment _ => exact absurd rfl hne

theorem IsLayout.newline {gap last : List Char} (h : IsLayout gap last) (hlast : last = [])
    (rest : List Char) : IsLayout (gap ++ ['\n']) rest := by
  induction h with
  | none => exact .blank rfl .none
  | blank hc _ ih => exact .blank hc (ih hlast)
  | comment hb _ ih =>
    have hl := IsLayout.comment hb (ih hlast)
    simpa using hl
  | lastComment hb => exact .comment hb .none

theorem Spells.piece_ne_nil {v : Value} {piece rest : List Char} (h : Spells v piece rest) :
    piece ≠ [] := by
  cases h with
  | atom hne _ _ => exact hne
  | string _ _ => simp
  | list _ => simp

mutual
theorem Spells.with_rest {v : Value} {piece rest rest' : List Char} (h : Spells v piece rest)
    (hr : v.kind = .symbol → EndsRun (!isDelimiter ·) rest → EndsRun (!isDelimiter ·) rest') :
    Spells v piece rest' := by
  cases h with
  | atom hne hrun he => exact .atom hne hrun (hr rfl he)
  | string hw hm => exact .string hw hm
  | list hvs => exact .list (hvs.with_rest rest')

theorem SpellsAll.with_rest {vs : List Value} {piece rest : List Char} {c : Char}
    (h : SpellsAll vs piece (c :: rest)) (rest' : List Char) : SpellsAll vs piece (c :: rest') := by
  cases h with
  | nil hg => exact .nil (hg.with_rest (by simp))
  | @cons v vs gap piece more _ hg hv hvs =>
    have hhead : (more ++ c :: rest).head? = (more ++ c :: rest').head? := by
      cases more <;> rfl
    refine .cons (hg.with_rest (by simp)) (hv.with_rest fun _ he => ?_) (hvs.with_rest rest')
    rw [EndsRun, ← hhead]
    exact he
end

theorem Token.Stands.with_rest {t : Token} {rest rest' : List Char} (h : t.Stands rest)
    (hr : EndsRun (!isDelimiter ·) rest → EndsRun (!isDelimiter ·) rest') : t.Stands rest' := by
  cases t with
  | opening => trivial
  | closing => trivial
  | atom run => exact ⟨h.1, h.2.1, hr h.2.2⟩
  | literal body => exact h

end Sexp.Source

namespace Sexp.Reader

open Source
open Literal (EndsRun)

def append (r : Reader) (more : List Char) : Reader := ⟨r.position, r.rest ++ more⟩

theorem read_append_of_value {r s : Reader} {v : Value} {more : List Char}
    (h : r.read = (.ok (some v), s))
    (hmore : v.kind = .symbol → s.rest = [] → EndsRun (!isDelimiter ·) more) :
    (r.append more).read = (.ok (some v), s.append more) := by
  obtain ⟨p, text⟩ := r
  have ho := outcome_of_value h
  cases ho with
  | @value _ gap piece rest hr hg hs =>
    obtain rfl : text = gap ++ (piece ++ rest) := hr
    have hgap : IsLayout gap (piece ++ (rest ++ more)) :=
      hg.with_rest (by simp [hs.piece_ne_nil])
    have hspells : Spells v piece (rest ++ more) := by
      refine hs.with_rest fun hk he => ?_
      cases rest with
      | nil => exact hmore hk rfl
      | cons c rest => exact he
    have hread := read_of_spells hgap hspells p
    simpa [append] using hread

theorem read_append_of_unmatched {r s : Reader} {e : ReadError} (h : r.read = (.error e, s))
    (hk : e.kind = .missingOpenParen) (more : List Char) :
    (r.append more).read = (.error e, s.append more) := by
  obtain ⟨p, text⟩ := r
  have ho := outcome ⟨p, text⟩
  rw [h] at ho
  cases ho with
  | @unmatched gap rest hr hg =>
    obtain rfl : text = gap ++ ')' :: rest := hr
    have hgap : IsLayout gap (')' :: (rest ++ more)) := hg.with_rest (by simp)
    simpa [append] using read_of_unmatched hgap p
  | incomplete hk' => rcases hk' with rfl | rfl <;> simp at hk

theorem read_append_of_name {r s : Reader} {v : Value} {more : List Char}
    (h : r.read = (.ok (some v), s)) (hk : v.kind = .symbol) (hs : s.rest = [])
    (hmore : ¬EndsRun (!isDelimiter ·) more) :
    ∃ name run left, run ≠ [] ∧ v = .symbol (Symbol.ofText (String.ofList name)) ∧
      (r.append more).read = (.ok (some (.symbol (Symbol.ofText (String.ofList (name ++ run))))),
        ⟨s.position + run.length, left⟩) := by
  obtain ⟨p, text⟩ := r
  have ho := outcome_of_value h
  cases ho with
  | @value _ gap piece rest hr hg hv =>
    obtain rfl : text = gap ++ (piece ++ rest) := hr
    obtain rfl : rest = [] := hs
    cases hv with
    | string _ _ => simp [Value.kind] at hk
    | list _ => simp [Value.kind] at hk
    | atom hne hrun _ =>
      let run := more.takeWhile (!isDelimiter ·)
      let left := more.dropWhile (!isDelimiter ·)
      have hsplit : run ++ left = more := List.takeWhile_append_dropWhile
      have hrun' : ∀ c ∈ piece ++ run, isDelimiter c = false := by
        intro c hc
        rcases List.mem_append.mp hc with hc | hc
        · exact hrun c hc
        · simpa using List.all_eq_true.mp List.all_takeWhile c hc
      have hspells := Spells.atom (by simp [hne]) hrun' (Literal.endsRun_dropWhile _ more)
      have hgap : IsLayout gap (piece ++ run ++ left) := hg.with_rest (by simp [hne])
      have hread := read_of_spells hgap hspells p
      have happend : append ⟨p, gap ++ (piece ++ [])⟩ more =
          ⟨p, gap ++ (piece ++ run ++ left)⟩ := by
        simp [append, hsplit]
      refine ⟨piece, run, left, ?_, rfl, ?_⟩
      · intro hnil
        rw [← hsplit, hnil] at hmore
        exact hmore (Literal.endsRun_dropWhile _ more)
      · rw [happend, hread, List.length_append, ← Nat.add_assoc]

theorem position_lt_read_append {r s : Reader} {v : Value} {more : List Char}
    (h : r.read = (.ok (some v), s)) (hk : v.kind = .symbol) (hs : s.rest = [])
    (hmore : ¬EndsRun (!isDelimiter ·) more) :
    s.position < (r.append more).read.2.position := by
  obtain ⟨name, run, left, hne, -, hread⟩ := read_append_of_name h hk hs hmore
  have hpos : 0 < run.length := List.length_pos_iff.mpr hne
  rw [hread]
  exact Nat.lt_add_of_pos_right hpos

theorem exists_resume_closing (v : Value) (p : Nat) (lists : Nesting) :
    ∃ w s, resume v ⟨p, List.replicate lists.length ')'⟩ lists = (.ok (some w), s) := by
  induction lists generalizing v p with
  | nil => exact ⟨v, _, rfl⟩
  | cons elements lists ih =>
    obtain ⟨w, s, hs⟩ := ih (.list (v :: elements).reverse) (p + 1)
    refine ⟨w, s, ?_⟩
    rw [← hs]
    exact readWithin_closing (v :: elements) lists p _

theorem exists_readWithin_value {piece : List Char} {v : Value} {lists : Nesting}
    (h : Spells v piece (List.replicate lists.length ')')) (p : Nat) :
    ∃ w s, readWithin lists ⟨p, piece ++ List.replicate lists.length ')'⟩ = (.ok (some w), s) := by
  obtain ⟨w, s, hs⟩ := exists_resume_closing v (p + piece.length) lists
  exact ⟨w, s, (readWithin_spells h lists p).trans hs⟩

theorem exists_spells_openLiteral {cs : List Char} (h : OpenLiteral cs) (rest : List Char) :
    ∃ more v, Spells v (cs ++ more) rest := by
  obtain ⟨tail, rfl, hb⟩ := h.body?
  obtain ⟨extra, he⟩ := Literal.exists_body?_append hb
  obtain ⟨items, _, hw, hbody, -⟩ := (Literal.body?_eq_some_iff _ _).mp (he [])
  have hv : Spells _ _ rest := .string hw (Literal.means_decode hw)
  rw [← hbody] at hv
  exact ⟨extra ++ ['"'], _, by simpa using hv⟩

theorem exists_completion {p : Nat} {text : List Char} {lexemes : List Lexeme}
    (hl : Lexed p text lexemes) {lists : Nesting}
    (h : ∀ e s, readWithin lists ⟨p, text⟩ = (.error e, s) → e.kind ≠ .missingOpenParen) :
    ∃ more, (EndsRun (!isDelimiter ·) text → EndsRun (!isDelimiter ·) (text ++ more)) ∧
      ∃ v s, readWithin lists ⟨p, text ++ more⟩ = (.ok (some v), s) := by
  -- What is appended is chosen for the place where the text stops, and it does not go on with a
  -- name there.
  induction hl generalizing lists with
  | @finished p gap hg =>
    refine ⟨'\n' :: ['(', ')'] ++ List.replicate lists.length ')', ?_, ?_⟩
    · intro he
      cases gap with
      | nil => simp [EndsRun, isDelimiter, isBlank]
      | cons c gap => exact he
    · have hv : Spells (.list []) ['(', ')'] (List.replicate lists.length ')') :=
        .list (.nil .none)
      have htext : gap ++ ('\n' :: ['(', ')'] ++ List.replicate lists.length ')') =
          (gap ++ ['\n']) ++ (['(', ')'] ++ List.replicate lists.length ')') := by simp
      rw [htext, readWithin_layout (hg.newline rfl _)]
      exact exists_readWithin_value hv _
  | @unterminated p gap rest hg ho =>
    obtain ⟨more, v, hv⟩ := exists_spells_openLiteral ho (List.replicate lists.length ')')
    have hne : rest ≠ [] := by
      obtain ⟨tail, rfl, -⟩ := ho
      simp
    refine ⟨more ++ List.replicate lists.length ')', ?_, ?_⟩
    · intro he
      exact Literal.endsRun_append_of_ne_nil he (by simp [hne])
    · have htext : gap ++ rest ++ (more ++ List.replicate lists.length ')') =
          gap ++ ((rest ++ more) ++ List.replicate lists.length ')') := by simp
      rw [htext, readWithin_layout (hg.with_rest hne)]
      exact exists_readWithin_value hv _
  | @token p gap rest t lexemes hg ht _ ih =>
    have hne : t.spelling ≠ [] := List.length_pos_iff.mp ht.width_pos
    have hstep := readWithin_token ht lists (p + gap.length)
    rw [readWithin_layout hg, hstep] at h
    cases ha : lists.accept t with
    | unmatched =>
      rw [ha] at h
      exact absurd rfl (h _ _ rfl)
    | complete v =>
      refine ⟨[], fun he => by simpa using he, v, ⟨p + gap.length + t.width, rest⟩, ?_⟩
      rw [List.append_nil, readWithin_layout hg, hstep, ha]
    | pending inner =>
      rw [ha] at h
      obtain ⟨more, hends, v, s, hs⟩ := ih h
      refine ⟨more, ?_, v, s, ?_⟩
      · intro he
        exact Literal.endsRun_append_of_ne_nil he (by simp [hne])
      · have htext : gap ++ (t.spelling ++ rest) ++ more =
            gap ++ (t.spelling ++ (rest ++ more)) := by simp
        rw [htext, readWithin_layout (hg.with_rest (by simp [hne])),
          readWithin_token (ht.with_rest hends), ha]
        exact hs

/-- Reading a longer text from the same place. A value stays and ends where it did, exactly unless
it is a symbol at the end of the text whose name goes on. The error of a closing parenthesis that
matches nothing stays as well. Whatever else is missing for a value can be appended. -/
theorem read_of_longer_text (r : Reader) :
    (∀ v s more, r.read = (.ok (some v), s) →
      ((r.append more).read = (.ok (some v), s.append more) ↔
        ¬(v.kind = .symbol ∧ s.rest = [] ∧ ∃ c ∈ more.head?, isDelimiter c = false))) ∧
    (∀ o s more, r.read = (.error ⟨.missingOpenParen, o⟩, s) →
      (r.append more).read = (.error ⟨.missingOpenParen, o⟩, s.append more)) ∧
    (r.read.1 = .ok none ∨ (∃ o, r.read.1 = .error ⟨.missingCloseParen, o⟩) ∨
        (∃ o, r.read.1 = .error ⟨.unterminatedString, o⟩) →
      ∃ more v s, (r.append more).read = (.ok (some v), s)) := by
  refine ⟨?_, ?_, ?_⟩
  · intro v s more h
    constructor
    · rintro hread ⟨hk, hs, c, hc, hd⟩
      have hmore : ¬EndsRun (!isDelimiter ·) more := fun he => by simpa [hd] using he c hc
      have hlt := position_lt_read_append h hk hs hmore
      rw [hread] at hlt
      exact absurd hlt (Nat.lt_irrefl _)
    · intro hn
      apply read_append_of_value h
      intro hk hs c hc
      by_cases hd : isDelimiter c = true
      · simp [hd]
      · exact absurd ⟨hk, hs, c, hc, by simpa using hd⟩ hn
  · intro o s more h
    exact read_append_of_unmatched h rfl more
  · intro h
    have hk (e : ReadError) (s : Reader) (he : r.readWithin [] = (.error e, s)) :
        e.kind ≠ .missingOpenParen := by
      have hread : r.read.1 = .error e := congrArg Prod.fst he
      rw [hread] at h
      rcases h with h | ⟨o, h⟩ | ⟨o, h⟩
      · cases h
      · obtain rfl := Except.error.inj h
        simp
      · obtain rfl := Except.error.inj h
        simp
    obtain ⟨lexemes, hl⟩ := exists_lexed r.position r.rest
    obtain ⟨more, -, v, s, hs⟩ := exists_completion hl hk
    exact ⟨more, v, s, hs⟩

end Sexp.Reader
