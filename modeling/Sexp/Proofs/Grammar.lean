import Sexp.Proofs.Lexical
import Sexp.Source.Steps

/-!
# The grammar

A text is layout and values in turn. A value is an atom, a literal, or a list, which is such a
sequence again between parentheses. Derivations are relations between values and the characters
that spell them; what follows these characters is part of the relation, because an atom ends only
where it cannot go on and a comment may end with the text.

The reader keeps the open lists on a stack instead. A derivation drives it from any stack to the
stack with the value added (`readWithin_spells`). Conversely, what an accepting run does to a text
is a derivation of the rest of every open list, from the innermost outwards (`Finishes`).
-/

namespace Sexp.Source

open Literal (Item EndsRun WellFormed Means spelling)

mutual
/-- The characters of `piece` spell the value when `rest` follows them. -/
inductive Spells : Value → (piece rest : List Char) → Prop where
  | atom {run rest : List Char} : run ≠ [] → (∀ c ∈ run, isDelimiter c = false) →
      EndsRun (!isDelimiter ·) rest →
      Spells (.symbol (Symbol.ofText (String.ofList run))) run rest
  | string {items : List Item} {text rest : List Char} : WellFormed items → Means items text →
      Spells (.string (String.ofList text)) ('"' :: (spelling items ++ ['"'])) rest
  | list {vs : List Value} {body rest : List Char} : SpellsAll vs body (')' :: rest) →
      Spells (.list vs) ('(' :: (body ++ [')'])) rest

inductive SpellsAll : List Value → (piece rest : List Char) → Prop where
  | nil {gap rest : List Char} : IsLayout gap rest → SpellsAll [] gap rest
  | cons {v : Value} {vs : List Value} {gap piece more rest : List Char} :
      IsLayout gap (piece ++ (more ++ rest)) → Spells v piece (more ++ rest) →
      SpellsAll vs more rest → SpellsAll (v :: vs) (gap ++ (piece ++ more)) rest
end

def resume (v : Value) (r : Reader) : Nesting → Except ReadError (Option Value) × Reader
  | [] => (.ok (some v), r)
  | elements :: lists => r.readWithin ((v :: elements) :: lists)

theorem readWithin_value {t : Token} {v : Value} {rest : List Char} (h : t.Stands rest)
    (ha : ∀ lists : Nesting, lists.accept t = lists.add v) (lists : Nesting) (p : Nat) :
    Reader.readWithin lists ⟨p, t.spelling ++ rest⟩ = resume v ⟨p + t.width, rest⟩ lists := by
  rw [Reader.readWithin_token h, ha]
  cases lists <;> rfl

theorem readWithin_opening (lists : Nesting) (p : Nat) (rest : List Char) :
    Reader.readWithin lists ⟨p, '(' :: rest⟩ = Reader.readWithin ([] :: lists) ⟨p + 1, rest⟩ :=
  Reader.readWithin_token (show Token.opening.Stands rest from trivial) lists p

theorem readWithin_closing (elements : List Value) (lists : Nesting) (p : Nat)
    (rest : List Char) :
    Reader.readWithin (elements :: lists) ⟨p, ')' :: rest⟩ =
      resume (.list elements.reverse) ⟨p + 1, rest⟩ lists := by
  have h := Reader.readWithin_token (show Token.closing.Stands rest from trivial)
    (elements :: lists) p
  cases lists <;> exact h

mutual
theorem readWithin_spells {v : Value} {piece rest : List Char} (h : Spells v piece rest)
    (lists : Nesting) (p : Nat) :
    Reader.readWithin lists ⟨p, piece ++ rest⟩ = resume v ⟨p + piece.length, rest⟩ lists := by
  cases h with
  | atom hne hrun hrest =>
    exact readWithin_value (t := .atom piece) ⟨hne, hrun, hrest⟩ (fun _ => rfl) lists p
  | @string items text _ hw hm =>
    have ha (lists : Nesting) : lists.accept (.literal (spelling items)) =
        lists.add (.string (String.ofList text)) := by
      rw [Nesting.accept, (Literal.means_iff hw text).mp hm]
    exact readWithin_value (t := .literal (spelling items)) ⟨items, hw, rfl⟩ ha lists p
  | @list vs body _ hb =>
    have hin := readWithin_spellsAll hb [] lists (p + 1)
    have he : '(' :: (body ++ [')']) ++ rest = '(' :: (body ++ ')' :: rest) := by simp
    rw [he, readWithin_opening, hin, readWithin_closing]
    simp only [List.append_nil, List.reverse_reverse, List.length_cons, List.length_append,
      List.length_nil]
    have hp : p + 1 + body.length + 1 = p + (body.length + (0 + 1) + 1) := by omega
    rw [hp]

theorem readWithin_spellsAll {vs : List Value} {piece rest : List Char}
    (h : SpellsAll vs piece rest) (elements : List Value) (lists : Nesting) (p : Nat) :
    Reader.readWithin (elements :: lists) ⟨p, piece ++ rest⟩ =
      Reader.readWithin ((vs.reverse ++ elements) :: lists) ⟨p + piece.length, rest⟩ := by
  cases h with
  | nil hg => exact Reader.readWithin_layout hg _ p
  | @cons v vs gap piece more _ hg hv hvs =>
    have hfirst := readWithin_spells hv (elements :: lists) (p + gap.length)
    have hothers := readWithin_spellsAll hvs (v :: elements) lists (p + gap.length + piece.length)
    have he : gap ++ (piece ++ more) ++ rest = gap ++ (piece ++ (more ++ rest)) := by simp
    rw [he, Reader.readWithin_layout hg, hfirst, resume, hothers]
    have hp : p + gap.length + piece.length + more.length = p + (gap ++ (piece ++ more)).length := by
      simp only [List.length_append]
      omega
    rw [hp, List.reverse_cons, List.append_assoc, List.singleton_append]
end

/-- From a complete value `w` on, the text finishes the open lists around it and gives `v`. -/
def Closes : Nesting → (w : Value) → (text : List Char) → (v : Value) → (rest : List Char) → Prop
  | [], w, text, v, rest => v = w ∧ rest = text
  | elements :: lists, w, text, v, rest =>
    ∃ vs body after, text = body ++ ')' :: after ∧ SpellsAll vs body (')' :: after) ∧
      Closes lists (.list (elements.reverse ++ w :: vs)) after v rest

/-- The text finishes the open lists and gives `v`, leaving `rest`. -/
def Finishes : Nesting → (text : List Char) → (v : Value) → (rest : List Char) → Prop
  | [], text, v, rest =>
    ∃ gap piece, text = gap ++ (piece ++ rest) ∧ IsLayout gap (piece ++ rest) ∧
      Spells v piece rest
  | elements :: lists, text, v, rest =>
    ∃ vs body after, text = body ++ ')' :: after ∧ SpellsAll vs body (')' :: after) ∧
      Closes lists (.list (elements.reverse ++ vs)) after v rest

theorem finishes_of_value {gap piece after rest : List Char} {w v : Value} {lists : Nesting}
    (hg : IsLayout gap (piece ++ after)) (hw : Spells w piece after)
    (hc : Closes lists w after v rest) : Finishes lists (gap ++ (piece ++ after)) v rest := by
  cases lists with
  | nil =>
    obtain ⟨rfl, rfl⟩ := hc
    exact ⟨gap, piece, rfl, hg, hw⟩
  | cons elements lists =>
    obtain ⟨vs, body, more, rfl, hvs, hc⟩ := hc
    exact ⟨w :: vs, gap ++ (piece ++ body), more, by simp, .cons hg hw hvs, hc⟩

theorem closes_of_resume {w v : Value} {r s : Reader} {lists : Nesting}
    (ih : ∀ inner, r.readWithin inner = (.ok (some v), s) → Finishes inner r.rest v s.rest)
    (h : resume w r lists = (.ok (some v), s)) : Closes lists w r.rest v s.rest := by
  cases lists with
  | nil =>
    obtain ⟨hv, rfl⟩ := Prod.mk.inj h
    obtain rfl : w = v := by simpa using hv
    exact ⟨rfl, rfl⟩
  | cons elements lists =>
    obtain ⟨vs, body, after, ht, hvs, hc⟩ := ih _ h
    exact ⟨vs, body, after, ht, hvs, by simpa using hc⟩

theorem finishes_of_readWithin {p : Nat} {text : List Char} {lexemes : List Lexeme}
    (hl : Lexed p text lexemes) {lists : Nesting} {v : Value} {s : Reader}
    (h : Reader.readWithin lists ⟨p, text⟩ = (.ok (some v), s)) :
    Finishes lists text v s.rest := by
  -- Over the tokens that are still to come, for any stack, as each of them may change it.
  induction hl generalizing lists with
  | @finished p gap hg =>
    rw [← List.append_nil gap, Reader.readWithin_layout hg, Reader.readWithin_nil] at h
    cases lists <;> simp at h
  | @unterminated p gap rest hg ho =>
    rw [Reader.readWithin_layout hg, Reader.readWithin_openLiteral ho] at h
    simp at h
  | @token p gap rest t lexemes hg ht _ ih =>
    rw [Reader.readWithin_layout hg] at h
    have hnext {w : Value} {lists : Nesting}
        (hr : resume w ⟨p + gap.length + t.width, rest⟩ lists = (.ok (some v), s)) :
        Closes lists w rest v s.rest := closes_of_resume (fun _ hi => ih hi) hr
    cases t with
    | opening =>
      rw [show Token.opening.spelling ++ rest = '(' :: rest from rfl, readWithin_opening] at h
      obtain ⟨vs, body, after, rfl, hvs, hc⟩ := ih h
      have hs : Spells (.list vs) ('(' :: (body ++ [')'])) after := .list hvs
      have he : Token.opening.spelling ++ (body ++ ')' :: after) =
          '(' :: (body ++ [')']) ++ after := by simp [Token.spelling]
      rw [he] at hg ⊢
      exact finishes_of_value hg hs hc
    | closing =>
      cases lists with
      | nil =>
        rw [Reader.readWithin_token ht] at h
        simp [Nesting.accept, Nesting.close] at h
      | cons elements lists =>
        rw [show Token.closing.spelling ++ rest = ')' :: rest from rfl, readWithin_closing] at h
        exact ⟨[], gap, rest, rfl, .nil hg, by simpa using hnext h⟩
    | atom run =>
      rw [readWithin_value ht (fun _ => rfl)] at h
      exact finishes_of_value hg (.atom ht.1 ht.2.1 ht.2.2) (hnext h)
    | literal body =>
      rw [readWithin_value ht (fun _ => rfl)] at h
      obtain ⟨items, hw, rfl⟩ := ht
      exact finishes_of_value hg (.string hw (Literal.means_decode hw)) (hnext h)

theorem layout_of_readWithin_none {p : Nat} {text : List Char} {lexemes : List Lexeme}
    (hl : Lexed p text lexemes) {lists : Nesting}
    (h : (Reader.readWithin lists ⟨p, text⟩).1 = .ok none) : lists = [] ∧ IsLayout text [] := by
  induction hl generalizing lists with
  | @finished p gap hg =>
    rw [← List.append_nil gap, Reader.readWithin_layout hg, Reader.readWithin_nil] at h
    cases lists with
    | nil => exact ⟨rfl, hg⟩
    | cons elements lists => simp at h
  | @unterminated p gap rest hg ho =>
    rw [Reader.readWithin_layout hg, Reader.readWithin_openLiteral ho] at h
    simp at h
  | @token p gap rest t lexemes hg ht _ ih =>
    rw [Reader.readWithin_layout hg, Reader.readWithin_token ht] at h
    cases ha : lists.accept t with
    | complete v => simp [ha] at h
    | unmatched => simp [ha] at h
    | pending inner =>
      rw [ha] at h
      obtain ⟨rfl, -⟩ := ih h
      -- A token never leaves the stack empty without completing a value.
      rcases lists with _ | ⟨elements, _ | ⟨outer, lists⟩⟩ <;> cases t <;>
        simp [Nesting.accept, Nesting.close, Nesting.add] at ha

end Sexp.Source

namespace Sexp.Reader

open Source

theorem read_of_spells {v : Value} {gap piece rest : List Char}
    (hg : IsLayout gap (piece ++ rest)) (hv : Spells v piece rest) (p : Nat) :
    (Reader.mk p (gap ++ (piece ++ rest))).read =
      (.ok (some v), ⟨p + gap.length + piece.length, rest⟩) := by
  rw [read, readWithin_layout hg, readWithin_spells hv]
  rfl

theorem read_of_layout {gap : List Char} (hg : IsLayout gap []) (p : Nat) :
    (Reader.mk p gap).read = (.ok none, ⟨p + gap.length, []⟩) := by
  have hr := readWithin_layout hg [] p
  rw [List.append_nil, readWithin_nil] at hr
  exact hr

theorem spells_of_read {r s : Reader} {v : Value} (h : r.read = (.ok (some v), s)) :
    ∃ gap piece, r.rest = gap ++ (piece ++ s.rest) ∧ IsLayout gap (piece ++ s.rest) ∧
      Spells v piece s.rest := by
  obtain ⟨lexemes, hl⟩ := exists_lexed r.position r.rest
  exact finishes_of_readWithin hl h

theorem layout_of_read {r s : Reader} (h : r.read = (.ok none, s)) : IsLayout r.rest [] := by
  obtain ⟨lexemes, hl⟩ := exists_lexed r.position r.rest
  exact (layout_of_readWithin_none hl (congrArg Prod.fst h)).2

theorem next_eq_none_iff (r s : Reader) : r.next = (none, s) ↔ r.read = (.ok none, s) := by
  unfold next
  split <;> simp [*]

theorem next_eq_ok_iff (r s : Reader) (v : Value) :
    r.next = (some (.ok v), s) ↔ r.read = (.ok (some v), s) := by
  unfold next
  split <;> simp [*]

theorem drain_eq (r : Reader) :
    r.drain = match r.next with
      | (none, s) => ([], s)
      | (some item, s) => (item :: s.drain.1, s.drain.2) := by
  rw [drain]
  split
  · next h => rw [h]
  · next h => rw [h]

theorem drain_of_spellsAll {vs : List Value} {text : List Char} (h : SpellsAll vs text [])
    (p : Nat) : (Reader.mk p text).drain = (vs.map .ok, ⟨p + text.length, []⟩) := by
  induction vs generalizing text p with
  | nil =>
    cases h with
    | nil hg => rw [drain_eq, (next_eq_none_iff _ _).mpr (read_of_layout hg p)]; rfl
  | cons v vs ih =>
    cases h with
    | @cons _ _ gap piece more _ hg hv hvs =>
      rw [List.append_nil] at hg hv
      rw [drain_eq, (next_eq_ok_iff _ _ v).mpr (read_of_spells hg hv p)]
      simp only [ih hvs, List.map_cons, List.length_append, Nat.add_assoc]

theorem spellsAll_of_drain {r : Reader} {vs : List Value} (h : r.drain.1 = vs.map .ok) :
    SpellsAll vs r.rest [] := by
  fun_induction drain r generalizing vs with
  | case1 r s hn =>
    obtain rfl : vs = [] := by simpa using h.symm
    exact .nil (layout_of_read ((next_eq_none_iff r s).mp hn))
  | case2 r item s hn items last hd ih =>
    cases vs with
    | nil => simp at h
    | cons v vs =>
      obtain ⟨rfl, hi⟩ := List.cons.inj h
      obtain ⟨gap, piece, hr, hg, hv⟩ := spells_of_read ((next_eq_ok_iff r s v).mp hn)
      have hvs : SpellsAll vs s.rest [] := ih (by rw [hd]; exact hi)
      rw [hr]
      rw [← List.append_nil s.rest] at hg hv
      exact .cons hg hv hvs

theorem finish_eq_ok_iff (r : Reader) : r.finish.1 = .ok () ↔ IsLayout r.rest [] := by
  obtain ⟨p, text⟩ := r
  obtain ⟨gap, rest, rfl, hg, hw⟩ := exists_layout text
  rw [finish, skipLayout_of_layout hg, skipLayout_of_width hw]
  cases rest with
  | nil => simpa using hg
  | cons c rest =>
    simp only [List.isEmpty_cons, Bool.false_eq_true, if_false, reduceCtorEq, false_iff]
    intro hl
    obtain ⟨-, he⟩ := layout_unique hg hl hw rfl (List.append_nil _).symm
    simp at he

theorem readOne_eq_ok_iff (r : Reader) (v : Value) : r.readOne = .ok v ↔ SpellsAll [v] r.rest [] := by
  constructor
  · intro h
    unfold readOne at h
    split at h
    · simp at h
    · simp at h
    · next w s hr =>
      obtain ⟨gap, piece, ht, hg, hw⟩ := spells_of_read hr
      cases hs : s.finish.1 with
      | error e => simp [hs, Except.map] at h
      | ok =>
        obtain rfl : w = v := by simpa [hs, Except.map] using h
        have hl := (finish_eq_ok_iff s).mp hs
        rw [ht]
        rw [← List.append_nil s.rest] at hg hw
        exact .cons hg hw (.nil hl)
  · intro h
    obtain ⟨p, text⟩ := r
    cases h with
    | @cons _ _ gap piece more _ hg hv hvs =>
      rw [List.append_nil] at hg hv
      cases hvs with
      | nil hl =>
        show readOne ⟨p, gap ++ (piece ++ more)⟩ = .ok v
        rw [readOne, read_of_spells hg hv]
        simp only [(finish_eq_ok_iff ⟨_, more⟩).mpr hl]
        rfl

end Sexp.Reader

namespace Sexp

theorem mapM_id_eq_ok_iff {ε α : Type} (items : List (Except ε α)) (vs : List α) :
    items.mapM id = .ok vs ↔ items = vs.map .ok := by
  induction items generalizing vs with
  | nil => cases vs <;> simp [pure, Except.pure]
  | cons item items ih =>
    rw [List.mapM_cons]
    cases item with
    | error e => cases vs <;> simp [bind, Except.bind]
    | ok v =>
      cases vs with
      | nil => cases items.mapM id <;> simp [bind, Except.bind, pure, Except.pure]
      | cons w vs =>
        have hv := ih vs
        cases hm : items.mapM id with
        | error e => simp_all [bind, Except.bind]
        | ok ws => simp_all [bind, Except.bind, pure, Except.pure]

/-- The reader accepts exactly its grammar. -/
theorem readAllText_eq_ok_iff (text : String) (vs : List Value) :
    readAllText text = .ok vs ↔ Source.SpellsAll vs text.toList [] := by
  rw [readAllText, Reader.readAll, mapM_id_eq_ok_iff]
  constructor
  · intro h
    exact Reader.spellsAll_of_drain h
  · intro h
    exact congrArg Prod.fst (Reader.drain_of_spellsAll h 0)

end Sexp
