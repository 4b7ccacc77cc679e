import Sexp.Proofs.Outcomes

/-!
# The size of what is read

Every part of a value has been paid for by characters of the text. A symbol has at least one
character, a list its two parentheses, and a string its quotes and at least one character for each
of its own: an escape stands for one character and is longer than that, and a code with too few
digits stands for its letter and its digits but not for its backslash. So the weight of a value is
at most the number of characters that it was read from, and reading bytes to the end gives no more
than there are bytes. No error is found beyond the end of the text.
-/

namespace Sexp.Value

mutual
/-- The number of symbols, with 2 for each list, and for each string 2 and its characters. -/
def weight : Value → Nat
  | symbol _ => 1
  | string text => 2 + text.length
  | list elements => 2 + weightAll elements
  | form _ => 0

def weightAll : List Value → Nat
  | [] => 0
  | v :: vs => v.weight + weightAll vs
end

end Sexp.Value

namespace Sexp.Literal

theorem Item.StandsFor.length_le {item : Item} {part : List Char} (h : item.StandsFor part) :
    part.length ≤ item.spelling.length := by
  cases h with
  | plain => exact Nat.le_refl 1
  | tab | carriageReturn | lineFeed | itself => exact Nat.le_succ 1
  | character | replaced =>
    simp only [spelling, List.length_cons, List.length_nil]
    omega
  | verbatim => exact Nat.le_succ _

theorem Means.length_le {items : List Item} {text : List Char} (h : Means items text) :
    text.length ≤ (spelling items).length := by
  induction h with
  | nil => exact Nat.le_refl 0
  | cons hitem _ ih =>
    have hpart := hitem.length_le
    rw [spelling_cons, List.length_append, List.length_append]
    omega

end Sexp.Literal

namespace Sexp.Source

mutual
theorem Spells.weight_le {v : Value} {piece rest : List Char} (h : Spells v piece rest) :
    v.weight ≤ piece.length := by
  cases h with
  | atom hne _ _ => exact List.length_pos_iff.mpr hne
  | string _ hm =>
    have htext := hm.length_le
    simp only [Value.weight, String.length_ofList, List.length_cons, List.length_append,
      List.length_nil]
    omega
  | @list vs body _ hvs =>
    have hbody := hvs.weightAll_le
    simp only [Value.weight, List.length_cons, List.length_append, List.length_nil]
    omega

theorem SpellsAll.weightAll_le {vs : List Value} {piece rest : List Char}
    (h : SpellsAll vs piece rest) : Value.weightAll vs ≤ piece.length := by
  cases h with
  | nil _ => exact Nat.zero_le _
  | @cons v vs gap piece more _ _ hv hvs =>
    have hfirst := hv.weight_le
    have hothers := hvs.weightAll_le
    simp only [Value.weightAll, List.length_append]
    omega
end

end Sexp.Source

namespace Sexp.Reader

open Source

theorem position_add_weight_le {r s : Reader} {v : Value} (h : r.read = (.ok (some v), s)) :
    r.position + v.weight ≤ s.position := by
  have ho := outcome_of_value h
  cases ho with
  | @value _ gap piece rest _ _ hv =>
    have hweight := hv.weight_le
    show r.position + v.weight ≤ r.position + gap.length + piece.length
    omega

theorem position_add_length_advance {r : Reader} {n : Nat} (h : n ≤ r.rest.length) :
    (r.advance n).position + (r.advance n).rest.length = r.position + r.rest.length := by
  simp only [advance, List.length_drop]
  omega

theorem offset_le_of_readWithin {lists : Nesting} {r : Reader} {e : ReadError}
    (h : (readWithin lists r).1 = .error e) : e.offset ≤ r.position + r.rest.length := by
  have hskip (r : Reader) : r.skipLayout.position + r.skipLayout.rest.length =
      r.position + r.rest.length :=
    position_add_length_advance (layoutWidth_le _ _)
  fun_induction readWithin lists r with
  | case1 | case4 => cases h
  | case2 lists r | case3 lists r | case6 lists r =>
    obtain rfl := Except.error.inj h
    have hend := hskip r
    show r.skipLayout.position ≤ _
    omega
  | case5 lists r t ht inner _ ih =>
    have hend := hskip r
    have htoken := position_add_length_advance (width_le_of_scan ht)
    have hoffset := ih h
    omega

def values (r : Reader) : List Value := r.drain.1.filterMap Except.toOption

theorem weightAll_values_le (r : Reader) :
    Value.weightAll r.values ≤ r.rest.length ∧ r.values.length ≤ r.rest.length := by
  induction r using reads_induction with
  | atEnd r s h =>
    rw [values, drain_of_none h]
    exact ⟨Nat.zero_le _, Nat.zero_le _⟩
  | value r v s h ih =>
    have hvalues : r.values = v :: s.values := by
      rw [values, drain_of_value h]
      rfl
    have hweight := position_add_weight_le h
    have hend := (read_ahead h).position_add_length
    have hlt := read_length_lt h
    rw [hvalues, Value.weightAll, List.length_cons]
    omega
  | error r e s h =>
    rw [values, drain_of_error h]
    exact ⟨Nat.zero_le _, Nat.zero_le _⟩

theorem offset_le_of_mem_drain {r : Reader} {e : ReadError} (h : .error e ∈ r.drain.1) :
    e.offset ≤ r.position + r.rest.length := by
  induction r using reads_induction with
  | atEnd r s hread =>
    rw [drain_of_none hread] at h
    cases h
  | value r v s hread ih =>
    rw [drain_of_value hread] at h
    rw [← (read_ahead hread).position_add_length]
    exact ih (by simpa using h)
  | error r e' s hread =>
    rw [drain_of_error hread, List.mem_singleton] at h
    obtain rfl := Except.error.inj h
    exact offset_le_of_readWithin (congrArg Prod.fst hread)

/-- Reading gives no more than the text pays for. A value advances the reader by its weight at
least, so the values that any bytes hold weigh no more than there are bytes; there are no more
values than bytes, and no error has a greater offset. -/
theorem read_never_amplifies :
    (∀ (r s : Reader) (v : Value), r.read = (.ok (some v), s) →
      r.position + v.weight ≤ s.position) ∧
    ∀ bytes : List UInt8,
      Value.weightAll (ofBytes bytes).values ≤ bytes.length ∧
      (ofBytes bytes).values.length ≤ bytes.length ∧
      ∀ e, .error e ∈ (ofBytes bytes).drain.1 → e.offset ≤ bytes.length := by
  refine ⟨fun r s v => position_add_weight_le, fun bytes => ?_⟩
  have hlength : (ofBytes bytes).rest.length ≤ bytes.length := Text.Utf8.lossy_length_le bytes
  obtain ⟨hweight, hcount⟩ := (ofBytes bytes).weightAll_values_le
  refine ⟨Nat.le_trans hweight hlength, Nat.le_trans hcount hlength, ?_⟩
  intro e he
  have hoffset := offset_le_of_mem_drain he
  have hstart : (ofBytes bytes).position = 0 := rfl
  omega

end Sexp.Reader
