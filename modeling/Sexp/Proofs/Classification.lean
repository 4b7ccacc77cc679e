import Sexp.Proofs.Lexical

/-!
# Outcomes of a read

How a read ends depends only on the parentheses among the tokens ahead. A counter of open lists
runs over the tokens: `verdict` says where it stops. The stack of the reader follows the counter
(`answers_verdict`), and the counter stops where the balance of parentheses first is zero or a
literal does not end (`verdict_of_firstStop`, `verdict_of_no_stop`). The offsets and the final
positions are those of the tokens concerned.
-/

namespace Sexp.Source

def Lexeme.isOpening : Lexeme → Bool
  | token .opening _ => true
  | _ => false

def Lexeme.isClosing : Lexeme → Bool
  | token .closing _ => true
  | _ => false

def Lexeme.isUnterminated : Lexeme → Bool
  | unterminated _ => true
  | _ => false

def balance (lexemes : List Lexeme) (k : Nat) : Int :=
  ((lexemes.take k).countP Lexeme.isOpening : Int) - (lexemes.take k).countP Lexeme.isClosing

/-- The lexeme with index `k` ends a read that `d` open lists precede. -/
def StopsFrom (d : Int) (lexemes : List Lexeme) (k : Nat) : Prop :=
  ∃ lexeme, lexemes[k]? = some lexeme ∧
    (lexeme.isUnterminated = true ∨ d + balance lexemes (k + 1) = 0)

def FirstStop (d : Int) (lexemes : List Lexeme) (k : Nat) : Prop :=
  StopsFrom d lexemes k ∧ ∀ j < k, ¬ StopsFrom d lexemes j

def Token.deepen (n : Nat) : Token → Nat
  | opening => n + 1
  | closing => n - 1
  | _ => n

inductive Verdict where
  | atEnd
  | value (stop : Nat)
  | unmatched (offset : Nat)
  | unterminated (offset : Nat)
  | unclosed

def verdict : (depth : Nat) → List Lexeme → Verdict
  | n, [] => if n = 0 then .atEnd else .unclosed
  | _, .unterminated o :: _ => .unterminated o
  | 0, .token .closing o :: _ => .unmatched o
  | n, .token t o :: lexemes =>
    if t.deepen n = 0 then .value (o + t.width) else verdict (t.deepen n) lexemes

theorem verdict_token {n : Nat} {t : Token} (h : ¬(n = 0 ∧ t = .closing)) (o : Nat)
    (lexemes : List Lexeme) :
    verdict n (.token t o :: lexemes) =
      if t.deepen n = 0 then .value (o + t.width) else verdict (t.deepen n) lexemes :=
  verdict.eq_4 n t o lexemes fun hn ht => h ⟨hn, ht⟩

def atOffset (text : List Char) (offset : Nat) : Reader := ⟨offset, text.drop offset⟩

theorem atOffset_length (passed rest : List Char) :
    atOffset (passed ++ rest) passed.length = ⟨passed.length, rest⟩ := by
  rw [atOffset, List.drop_left]

theorem atOffset_end (text : List Char) : atOffset text text.length = ⟨text.length, []⟩ := by
  rw [atOffset, List.drop_length]

def Verdict.Answers (text : List Char) (answer : Except ReadError (Option Value) × Reader) :
    Verdict → Prop
  | atEnd => answer = (.ok none, atOffset text text.length)
  | value stop => ∃ v, answer = (.ok (some v), atOffset text stop)
  | unmatched o => answer = (.error ⟨.missingOpenParen, o⟩, atOffset text o)
  | unterminated o => answer = (.error ⟨.unterminatedString, o⟩, atOffset text text.length)
  | unclosed => answer = (.error ⟨.missingCloseParen, text.length⟩, atOffset text text.length)

theorem accept_cases (lists : Nesting) (t : Token) :
    match lists.accept t with
    | .unmatched => lists.length = 0 ∧ t = .closing
    | .complete _ => ¬(lists.length = 0 ∧ t = .closing) ∧ t.deepen lists.length = 0
    | .pending inner => ¬(lists.length = 0 ∧ t = .closing) ∧
        inner.length = t.deepen lists.length ∧ inner.length ≠ 0 := by
  rcases lists with _ | ⟨elements, _ | ⟨outer, lists⟩⟩ <;> cases t <;>
    simp [Nesting.accept, Nesting.close, Nesting.add, Token.deepen]

theorem answers_verdict {p : Nat} {rest : List Char} {lexemes : List Lexeme}
    (hl : Lexed p rest lexemes) {passed : List Char} (hp : p = passed.length) (lists : Nesting) :
    (verdict lists.length lexemes).Answers (passed ++ rest) (Reader.readWithin lists ⟨p, rest⟩) := by
  -- The counter of the verdict is the number of open lists, token by token.
  induction hl generalizing passed lists with
  | @finished p gap hg =>
    have he : atOffset (passed ++ gap) (passed ++ gap).length = ⟨p + gap.length, []⟩ := by
      rw [atOffset_end, List.length_append, hp]
    have hr := Reader.readWithin_layout hg lists p
    rw [List.append_nil, Reader.readWithin_nil] at hr
    rw [hr]
    cases lists with
    | nil =>
      show _ = _
      rw [he]
      rfl
    | cons elements lists =>
      show _ = _
      rw [he, List.length_append, ← hp]
      rfl
  | @unterminated p gap rest hg ho =>
    show _ = _
    rw [Reader.readWithin_layout hg, Reader.readWithin_openLiteral ho, atOffset_end, hp]
    simp only [List.length_append, Nat.add_assoc]
  | @token p gap rest t lexemes hg ht _ ih =>
    have hpassed : p + gap.length + t.width = (passed ++ (gap ++ t.spelling)).length := by
      simp only [List.length_append, length_spelling, hp, Nat.add_assoc]
    have htext : passed ++ (gap ++ (t.spelling ++ rest)) =
        passed ++ (gap ++ t.spelling) ++ rest := by
      simp only [List.append_assoc]
    have hafter : atOffset (passed ++ (gap ++ (t.spelling ++ rest))) (p + gap.length + t.width) =
        ⟨p + gap.length + t.width, rest⟩ := by
      rw [htext, hpassed, atOffset_length]
    rw [Reader.readWithin_layout hg, Reader.readWithin_token ht]
    have hcases := accept_cases lists t
    cases ha : lists.accept t with
    | unmatched =>
      rw [ha] at hcases
      obtain ⟨hn, rfl⟩ := hcases
      have hbefore : atOffset (passed ++ (gap ++ (Token.closing.spelling ++ rest)))
          (p + gap.length) = ⟨p + gap.length, Token.closing.spelling ++ rest⟩ := by
        rw [← List.append_assoc, hp, ← List.length_append, atOffset_length]
      rw [hn]
      show _ = _
      rw [hbefore]
    | complete v =>
      rw [ha] at hcases
      rw [verdict_token hcases.1, if_pos hcases.2]
      exact ⟨v, by rw [hafter]⟩
    | pending inner =>
      rw [ha] at hcases
      obtain ⟨hn, hlen, hne⟩ := hcases
      rw [verdict_token hn, ← hlen, if_neg hne, htext]
      exact ih hpassed inner

def Lexeme.change : Lexeme → Int
  | token .opening _ => 1
  | token .closing _ => -1
  | _ => 0

theorem balance_cons (lexeme : Lexeme) (lexemes : List Lexeme) (k : Nat) :
    balance (lexeme :: lexemes) (k + 1) = lexeme.change + balance lexemes k := by
  rcases lexeme with ⟨_ | _ | _ | _, _⟩ | _ <;>
    simp only [balance, List.take_succ_cons, List.countP_cons, Lexeme.isOpening, Lexeme.isClosing,
      Lexeme.change, if_true, if_false, Bool.false_eq_true] <;> omega

theorem stopsFrom_zero (d : Int) (lexeme : Lexeme) (lexemes : List Lexeme) :
    StopsFrom d (lexeme :: lexemes) 0 ↔ lexeme.isUnterminated = true ∨ d + lexeme.change = 0 := by
  have hb : balance (lexeme :: lexemes) 1 = lexeme.change := by
    rw [balance_cons]
    simp [balance]
  simp [StopsFrom, hb]

theorem stopsFrom_succ (d : Int) (lexeme : Lexeme) (lexemes : List Lexeme) (k : Nat) :
    StopsFrom d (lexeme :: lexemes) (k + 1) ↔ StopsFrom (d + lexeme.change) lexemes k := by
  simp only [StopsFrom, balance_cons, List.getElem?_cons_succ, Int.add_assoc]

theorem firstStop_succ {d : Int} {lexeme : Lexeme} {lexemes : List Lexeme} {k : Nat}
    (h : FirstStop d (lexeme :: lexemes) (k + 1)) : FirstStop (d + lexeme.change) lexemes k := by
  refine ⟨(stopsFrom_succ d lexeme lexemes k).mp h.1, ?_⟩
  intro j hj hs
  exact h.2 (j + 1) (by omega) ((stopsFrom_succ d lexeme lexemes j).mpr hs)

theorem deepen_eq {n : Nat} {t : Token} (h : ¬(n = 0 ∧ t = .closing)) (o : Nat) :
    (t.deepen n : Int) = n + (Lexeme.token t o).change := by
  cases t with
  | closing =>
    have hn : n ≠ 0 := fun hn => h ⟨hn, rfl⟩
    simp only [Token.deepen, Lexeme.change]
    omega
  | opening => rfl
  | atom run => simp [Token.deepen, Lexeme.change]
  | literal body => simp [Token.deepen, Lexeme.change]

def Lexeme.verdict : Lexeme → Verdict
  | token t o => .value (o + t.width)
  | unterminated o => .unterminated o

theorem verdict_of_firstStop {lexemes : List Lexeme} {n k : Nat} {lexeme : Lexeme}
    (hs : FirstStop n lexemes k) (hk : lexemes[k]? = some lexeme)
    (hn : n = 0 → ∀ o, lexemes.head? ≠ some (.token .closing o)) :
    verdict n lexemes = lexeme.verdict := by
  induction lexemes generalizing n k with
  | nil => simp at hk
  | cons first lexemes ih =>
    cases first with
    | unterminated o =>
      have h0 : StopsFrom n (.unterminated o :: lexemes) 0 := (stopsFrom_zero _ _ _).mpr (.inl rfl)
      have hk0 : k = 0 := Nat.eq_zero_of_not_pos fun hpos => hs.2 0 hpos h0
      obtain rfl : Lexeme.unterminated o = lexeme := by simpa [hk0] using hk
      rfl
    | token t o =>
      have hc : ¬(n = 0 ∧ t = .closing) := by
        intro hc
        exact hn hc.1 o (by rw [hc.2]; rfl)
      have hd := deepen_eq hc o
      rw [verdict_token hc]
      by_cases h0 : t.deepen n = 0
      · have hz : StopsFrom n (.token t o :: lexemes) 0 :=
          (stopsFrom_zero _ _ _).mpr (.inr (by omega))
        have hk0 : k = 0 := Nat.eq_zero_of_not_pos fun hpos => hs.2 0 hpos hz
        obtain rfl : Lexeme.token t o = lexeme := by simpa [hk0] using hk
        rw [if_pos h0]
        rfl
      · rw [if_neg h0]
        cases k with
        | zero =>
          rcases (stopsFrom_zero _ _ _).mp hs.1 with hu | hz
          · simp [Lexeme.isUnterminated] at hu
          · omega
        | succ k =>
          have hs' := firstStop_succ hs
          rw [← hd] at hs'
          exact ih hs' (by simpa using hk) fun hz => absurd hz h0

theorem verdict_of_no_stop {lexemes : List Lexeme} {n : Nat}
    (hs : ∀ k, ¬ StopsFrom n lexemes k) (he : n = 0 → lexemes ≠ [])
    (hn : n = 0 → ∀ o, lexemes.head? ≠ some (.token .closing o)) :
    verdict n lexemes = .unclosed := by
  induction lexemes generalizing n with
  | nil =>
    have hpos : n ≠ 0 := fun h0 => he h0 rfl
    rw [verdict, if_neg hpos]
  | cons first lexemes ih =>
    have h0 := hs 0
    rw [stopsFrom_zero] at h0
    cases first with
    | unterminated o => exact absurd (.inl rfl) h0
    | token t o =>
      have hc : ¬(n = 0 ∧ t = .closing) := by
        intro hc
        exact hn hc.1 o (by rw [hc.2]; rfl)
      have hd := deepen_eq hc o
      have hne : t.deepen n ≠ 0 := fun hz => h0 (.inr (by omega))
      rw [verdict_token hc, if_neg hne]
      apply ih
      · intro k hk
        rw [hd] at hk
        exact hs (k + 1) ((stopsFrom_succ _ _ _ k).mpr hk)
      · intro hz
        exact absurd hz hne
      · intro hz
        exact absurd hz hne

theorem verdict_eq_atEnd {lexemes : List Lexeme} {n : Nat} (h : verdict n lexemes = .atEnd) :
    n = 0 ∧ lexemes = [] := by
  fun_induction verdict n lexemes with
  | case1 => exact ⟨rfl, rfl⟩
  | case2 | case3 | case4 | case5 => simp at h
  | case6 n t o lexemes _ hd ih => exact absurd (ih h).1 hd

theorem verdict_eq_unmatched {lexemes : List Lexeme} {n o : Nat}
    (h : verdict n lexemes = .unmatched o) :
    n = 0 ∧ lexemes.head? = some (.token .closing o) := by
  fun_induction verdict n lexemes with
  | case1 | case2 | case3 | case5 => simp at h
  | case4 o' lexemes =>
    obtain rfl : o' = o := by simpa using h
    exact ⟨rfl, rfl⟩
  | case6 n t o lexemes _ hd ih => exact absurd (ih h).1 hd

theorem Verdict.eq_atEnd_of_answers {text : List Char} {verdict : Verdict} {r : Reader}
    (h : verdict.Answers text (.ok none, r)) : verdict = .atEnd := by
  cases verdict <;> simp_all [Answers]

theorem Verdict.eq_unmatched_of_answers {text : List Char} {verdict : Verdict} {o : Nat}
    {r : Reader} (h : verdict.Answers text (.error ⟨.missingOpenParen, o⟩, r)) :
    verdict = .unmatched o := by
  cases verdict <;> simp_all [Answers]

theorem Verdict.kind_of_answers {text : List Char} {verdict : Verdict} {e : ReadError}
    {r : Reader} (h : verdict.Answers text (.error e, r)) :
    e.kind = .missingOpenParen ∨ e.kind = .unterminatedString ∨ e.kind = .missingCloseParen := by
  cases verdict <;> simp_all [Answers]

/-- How a read ends, for every text and every position in it: at the end of the text if no token
is left, at a closing parenthesis that is the first token, and otherwise at the first token at
which the balance is zero or a literal does not end, or at the end of the text if there is none.
No other errors occur. -/
theorem read_classification (passed rest : List Char) :
    ∃ lexemes, Lexed passed.length rest lexemes ∧
      (∀ others, Lexed passed.length rest others → others = lexemes) ∧
      let text := passed ++ rest
      let answer := (Reader.mk passed.length rest).read
      (answer = (.ok none, atOffset text text.length) ↔ lexemes = []) ∧
      (∀ o, answer = (.error ⟨.missingOpenParen, o⟩, atOffset text o) ↔
        lexemes.head? = some (.token .closing o)) ∧
      (lexemes ≠ [] → (∀ o, lexemes.head? ≠ some (.token .closing o)) →
        (∀ k o, FirstStop 0 lexemes k → lexemes[k]? = some (.unterminated o) →
          answer = (.error ⟨.unterminatedString, o⟩, atOffset text text.length)) ∧
        (∀ k t o, FirstStop 0 lexemes k → lexemes[k]? = some (.token t o) →
          ∃ v, answer = (.ok (some v), atOffset text (o + t.width))) ∧
        ((∀ k, ¬ StopsFrom 0 lexemes k) →
          answer = (.error ⟨.missingCloseParen, text.length⟩, atOffset text text.length))) ∧
      (∀ e r, answer = (.error e, r) →
        e.kind = .missingOpenParen ∨ e.kind = .unterminatedString ∨
          e.kind = .missingCloseParen) := by
  obtain ⟨lexemes, hl⟩ := exists_lexed passed.length rest
  refine ⟨lexemes, hl, fun others ho => ho.unique hl, ?_⟩
  intro text answer
  have ha : (verdict 0 lexemes).Answers text answer := answers_verdict hl rfl []
  refine ⟨⟨?_, ?_⟩, ?_, ?_, ?_⟩
  · intro h
    rw [h] at ha
    exact (verdict_eq_atEnd (Verdict.eq_atEnd_of_answers ha)).2
  · intro h
    rw [h] at ha
    exact ha
  · intro o
    constructor
    · intro h
      rw [h] at ha
      exact (verdict_eq_unmatched (Verdict.eq_unmatched_of_answers ha)).2
    · intro h
      obtain ⟨others, rfl⟩ := List.head?_eq_some_iff.mp h
      exact ha
  · intro hne hhead
    refine ⟨?_, ?_, ?_⟩
    · intro k o hs hk
      rw [verdict_of_firstStop hs hk fun _ => hhead] at ha
      exact ha
    · intro k t o hs hk
      rw [verdict_of_firstStop hs hk fun _ => hhead] at ha
      exact ha
    · intro hs
      rw [verdict_of_no_stop hs (fun _ => hne) fun _ => hhead] at ha
      exact ha
  · intro e r h
    rw [h] at ha
    exact Verdict.kind_of_answers ha

end Sexp.Source
