import Sexp.Proofs.Interleaving

/-!
# Reading exactly one expression

A text that is meant to hold one expression is read strictly: a value, then nothing but layout. The
same text can be read to its end, item by item. The items decide what strict reading answers. It
gives the value if that is the only item, the error if that comes first, and it complains about
what follows the value if there is a second item, be it a value or an error.

Both ways of reading begin with the same read. `Comparison` says what they answer in each case, for
a reader at any place of a text.
-/

namespace Sexp

namespace Reader

open Source

inductive Comparison (r : Reader) :
    (items : List (Except ReadError Value)) → (answer : Except ReadError Value) → Prop where
  | nothing : Comparison r [] (.error ⟨.noExpression, r.position + r.rest.length⟩)
  | error {e : ReadError} : e.kind ≠ .noExpression → Comparison r [.error e] (.error e)
  | single {v : Value} : Comparison r [.ok v] (.ok v)
  | more {v : Value} {item : Except ReadError Value} {items : List (Except ReadError Value)}
      {before piece gap rest : List Char} {c : Char} :
      r.rest = before ++ (piece ++ (gap ++ c :: rest)) →
      IsLayout before (piece ++ (gap ++ c :: rest)) → Spells v piece (gap ++ c :: rest) →
      IsLayout gap (c :: rest) → isBlank c = false → c ≠ ';' →
      Comparison r (.ok v :: item :: items)
        (.error ⟨.trailingContent, r.position + before.length + piece.length + gap.length⟩)

namespace Comparison

variable {r : Reader} {items : List (Except ReadError Value)} {answer : Except ReadError Value}

theorem eq_ok_iff (h : Comparison r items answer) (v : Value) :
    answer = .ok v ↔ items = [.ok v] := by
  cases h <;> simp

theorem eq_noExpression_iff (h : Comparison r items answer) (o : Nat) :
    answer = .error ⟨.noExpression, o⟩ ↔ items = [] ∧ o = r.position + r.rest.length := by
  cases h with
  | nothing => simp [eq_comm]
  | @error e hk =>
    have he : e ≠ ⟨.noExpression, o⟩ := fun he => hk (congrArg ReadError.kind he)
    simp [he]
  | single => simp
  | more => simp

theorem eq_error {e : ReadError} (h : Comparison r (.error e :: items) answer) :
    answer = .error e := by
  cases h with
  | error _ => rfl

end Comparison

theorem Outcome.kind_ne {r s : Reader} {e : ReadError} (h : Outcome r (.error e, s)) :
    e.kind ≠ .noExpression := by
  cases h with
  | unmatched _ _ => simp
  | incomplete hk =>
    rcases hk with rfl | rfl
    · simp
    · simp

theorem finish_cases (r : Reader) :
    IsLayout r.rest [] ∧ r.finish.1 = .ok () ∨
      ∃ gap c rest, r.rest = gap ++ c :: rest ∧ IsLayout gap (c :: rest) ∧ isBlank c = false ∧
        c ≠ ';' ∧ r.finish.1 = .error ⟨.trailingContent, r.position + gap.length⟩ := by
  have heffect := r.effect_finish
  rw [perform] at heffect
  generalize r.finish = answer at heffect
  obtain ⟨e | _, s⟩ := answer
  · cases heffect with
    | trailing hr hg hb hc => exact .inr ⟨_, _, _, hr, hg, hb, hc, rfl⟩
  · cases heffect with
    | finished hg => exact .inl ⟨hg, rfl⟩

theorem drain_eq_nil_iff (r : Reader) : r.drain.1 = [] ↔ IsLayout r.rest [] := by
  constructor
  · intro h
    have hall : SpellsAll [] r.rest [] := spellsAll_of_drain h
    cases hall with
    | nil hg => exact hg
  · intro h
    exact congrArg Prod.fst (drain_of_spellsAll (.nil h) r.position)

theorem readOne_of_value {r s : Reader} {v : Value} (h : r.read = (.ok (some v), s)) :
    r.readOne = s.finish.1.map fun _ => v := by
  rw [readOne, h]

theorem comparison (r : Reader) : Comparison r r.drain.1 r.readOne := by
  have houtcome := r.outcome
  rcases h : r.read with ⟨e | _ | v, s⟩
  · rw [h] at houtcome
    rw [drain_of_error h, readOne, h]
    exact .error houtcome.kind_ne
  · rw [drain_of_none h, readOne, h, read_none h, toEnd_eq]
    exact .nothing
  · rw [h] at houtcome
    rw [drain_of_value h, readOne_of_value h]
    show Comparison r (.ok v :: s.drain.1) _
    cases houtcome with
    | @value _ before piece rest hr hbefore hv =>
      rcases finish_cases ⟨r.position + before.length + piece.length, rest⟩ with
        ⟨hg, hf⟩ | ⟨gap, c, behind, rfl, hg, hb, hc, hf⟩
      · rw [hf, (drain_eq_nil_iff _).mpr hg]
        exact .single
      · rw [hf]
        -- What stopped `finish` is the beginning of a further item.
        cases hd : (Reader.mk (r.position + before.length + piece.length)
            (gap ++ c :: behind)).drain.1 with
        | nil =>
          rw [(finish_eq_ok_iff _).mpr ((drain_eq_nil_iff _).mp hd)] at hf
          simp at hf
        | cons item items => exact .more hr hbefore hv hg hb hc

end Reader

theorem readAllText_eq_ok_iff_drain (s : String) (vs : List Value) :
    readAllText s = .ok vs ↔ (Reader.ofText s).drain.1 = vs.map .ok :=
  mapM_id_eq_ok_iff _ vs

open Source in
/-- Strict reading agrees with reading to the end. It gives a value exactly if that is all there is,
and finds no expression exactly if there is none. An error that comes first is its error. If
something follows the first value it says so, at the first character behind the value and the
layout after it, whatever this is the beginning of. -/
theorem readText_agrees_with_drain (s : String) :
    (∀ v, readText s = .ok v ↔ readAllText s = .ok [v]) ∧
    (∀ o, readText s = .error ⟨.noExpression, o⟩ ↔ readAllText s = .ok [] ∧ o = s.length) ∧
    (∀ e items, (Reader.ofText s).drain.1 = .error e :: items → readText s = .error e) ∧
    ∀ v item items, (Reader.ofText s).drain.1 = .ok v :: item :: items →
      ∃ before piece gap c rest, s.toList = before ++ (piece ++ (gap ++ c :: rest)) ∧
        IsLayout before (piece ++ (gap ++ c :: rest)) ∧ Spells v piece (gap ++ c :: rest) ∧
        IsLayout gap (c :: rest) ∧ isBlank c = false ∧ c ≠ ';' ∧
        readText s =
          .error ⟨.trailingContent, before.length + piece.length + gap.length⟩ := by
  have hcompare := (Reader.ofText s).comparison
  refine ⟨?_, ?_, ?_, ?_⟩
  · intro v
    rw [readAllText_eq_ok_iff_drain]
    exact hcompare.eq_ok_iff v
  · intro o
    have hend : (Reader.ofText s).position + (Reader.ofText s).rest.length = s.length := by
      simp [Reader.ofText, Reader.ofChars, String.length_toList]
    rw [readAllText_eq_ok_iff_drain, ← hend]
    exact hcompare.eq_noExpression_iff o
  · intro e items hd
    rw [hd] at hcompare
    exact hcompare.eq_error
  · intro v item items hd
    rw [hd] at hcompare
    rw [readText]
    generalize (Reader.ofText s).readOne = answer at hcompare
    cases hcompare with
    | more hr hbefore hv hg hb hc =>
      refine ⟨_, _, _, _, _, hr, hbefore, hv, hg, hb, hc, ?_⟩
      rw [show (Reader.ofText s).position = 0 from rfl, Nat.zero_add]

end Sexp
