import Sexp.Proofs.Failures
import Sexp.Proofs.RoundTrip

/-!
# What the shell prints

The result of evaluating an expression that was read has no symbols but those of the expression
and no forms but those of the shell. Its text can be read. What comes back is the result itself,
with a symbol in the place of each form, whose name is the one that the form was printed with.
-/

namespace Sexp

namespace Value

mutual
def named : Value → Value
  | symbol s => symbol s
  | string text => string text
  | list elements => list (namedAll elements)
  | form f => symbol ⟨"#" ++ f.name⟩

def namedAll : List Value → List Value
  | [] => []
  | v :: vs => v.named :: namedAll vs
end

mutual
theorem chars_named (v : Value) : v.named.chars = v.chars := by
  cases v with
  | symbol | string => rfl
  | form f => simp [named, chars]
  | list vs =>
    cases vs with
    | nil => rfl
    | cons v vs => simp only [named, namedAll, chars, chars_named v, charsAfter_namedAll vs]

theorem charsAfter_namedAll (vs : List Value) : charsAfter (namedAll vs) = charsAfter vs := by
  cases vs with
  | nil => rfl
  | cons v vs => simp only [namedAll, charsAfter, chars_named v, charsAfter_namedAll vs]
end

mutual
theorem named_of_forms {v : Value} (h : v.forms = []) : v.named = v := by
  cases v with
  | symbol | string => rfl
  | form f => simp [forms] at h
  | list vs => rw [named, namedAll_of_formsAll h]

theorem namedAll_of_formsAll {vs : List Value} (h : formsAll vs = []) : namedAll vs = vs := by
  cases vs with
  | nil => rfl
  | cons v vs =>
    obtain ⟨hv, hvs⟩ := List.append_eq_nil_iff.mp h
    rw [namedAll, named_of_forms hv, namedAll_of_formsAll hvs]
end

mutual
theorem readable_named {v : Value}
    (h : v.Over Symbol.Readable fun f => (Symbol.mk ("#" ++ f.name)).Readable) :
    v.named.Readable := by
  cases v with
  | symbol s => exact readable_symbol.mpr (over_symbol.mp h)
  | string text => exact readable_string text
  | form f => exact readable_symbol.mpr (over_form.mp h)
  | list vs => exact readable_list.mpr (readableAll_namedAll (over_list.mp h))

theorem readableAll_namedAll {vs : List Value}
    (h : ∀ v ∈ vs, v.Over Symbol.Readable fun f => (Symbol.mk ("#" ++ f.name)).Readable) :
    ReadableAll (namedAll vs) := by
  cases vs with
  | nil => exact readableAll_nil
  | cons v vs =>
    obtain ⟨hv, hvs⟩ := List.forall_mem_cons.mp h
    exact readableAll_cons.mpr ⟨readable_named hv, readableAll_namedAll hvs⟩
end

end Value

theorem readText_render {v : Value} (h : v.named.Readable) : readText v.render = .ok v.named := by
  have hr := h.readText_render
  rw [Value.render, Value.chars_named] at hr
  exact hr

namespace Shell

theorem readable_of_mem_forms : ∀ f ∈ forms, (Symbol.mk ("#" ++ f.name)).Readable := by
  decide +kernel

/-- What the shell prints for an expression from any reader, at any place of a text, can be read. It
gives back the result with its forms named, which is the result itself if there are none. -/
theorem printed_reads_back {r : Reader} {e v : Value} (he : .ok e ∈ r.drain.1)
    (hv : evaluate e = .ok v) :
    v.symbols ⊆ e.symbols ∧ v.forms ⊆ forms ∧ readText v.render = .ok v.named ∧
      ((∃ w, readText v.render = .ok w ∧ (w == v) = true) ↔ v.forms = []) := by
  obtain ⟨hforms, hsymbols⟩ := Reader.readable_of_mem_drain he
  obtain ⟨hsub, hknown⟩ := over_of_evaluate hv
  rw [hforms, List.nil_append] at hknown
  have hnamed := Value.readable_named ⟨fun s hs => hsymbols s (hsub s hs),
    fun f hf => readable_of_mem_forms f (hknown f hf)⟩
  have hread := readText_render hnamed
  refine ⟨hsub, hknown, hread, ?_⟩
  constructor
  · rintro ⟨w, hw, hsame⟩
    obtain rfl : v.named = w := by simpa [hread] using hw
    rw [← Value.eq_of_same hnamed.1 hsame]
    exact hnamed.1
  · intro h
    refine ⟨v.named, hread, ?_⟩
    rw [Value.named_of_forms h]
    exact BEq.rfl

/-- Here the result is put together by code that is made on the way, and holds a form. -/
theorem printed_reads_back_form :
    let e : Value := .list [.symbol ⟨"LIST"⟩, .symbol ⟨"A"⟩, .symbol ⟨"CAT"⟩,
      .list [.symbol ⟨"EVAL"⟩, .list [.symbol ⟨"QUOTE"⟩, .symbol ⟨"CAT"⟩, .string "(", .symbol ⟨"A"⟩]]]
    let v : Value := .list [.symbol ⟨"A"⟩, .form catForm, .string "(A"]
    .ok e ∈ (Reader.ofText "(LIST A CAT (EVAL (QUOTE CAT \"(\" A)))").drain.1 ∧
      evaluate e = .ok v ∧
      readText "(A #CAT \"(A\")" =
        .ok (.list [.symbol ⟨"A"⟩, .symbol ⟨"#CAT"⟩, .string "(A"]) := by
  intro e v
  have hsymbols : ∀ s ∈ e.symbols, s.Readable := by decide +kernel
  have he : .ok e ∈ (Reader.ofText "(LIST A CAT (EVAL (QUOTE CAT \"(\" A)))").drain.1 := by
    have hspells := (Reader.readOne_eq_ok_iff _ e).mp (Reader.readOne_chars ⟨rfl, hsymbols⟩)
    have hdrain := congrArg Prod.fst (Reader.drain_of_spellsAll hspells 0)
    exact hdrain ▸ List.mem_singleton.mpr rfl
  have hv : evaluate e = .ok v := rfl
  exact ⟨he, hv, (printed_reads_back he hv).2.2.1⟩

end Shell

end Sexp
