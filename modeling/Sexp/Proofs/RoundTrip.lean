import Sexp.Proofs.Grammar
import Sexp.Proofs.Text.Encoding
import Sexp.Proofs.Text.UpperCase
import Sexp.Value.Equality
import Sexp.Value.Printer

/-!
# Printing and reading

The canonical text of a readable value is one of its spellings, and whatever is spelled is
readable. Since reading accepts exactly the spellings, a value survives being written and read
again exactly if it is readable. Writing a form or an unreadable name is not an error; the text is
then that of another value, or of none.
-/

namespace Sexp

structure Symbol.Readable (s : Symbol) : Prop where
  name_ne : s.name ≠ ""
  undelimited : ∀ c ∈ s.name.toList, Source.isDelimiter c = false
  upper : Text.upper s.name = s.name

theorem Symbol.readable_iff (s : Symbol) :
    s.Readable ↔ s.name ≠ "" ∧ s.name.toList.all (!Source.isDelimiter ·) = true ∧
      Text.upper s.name = s.name := by
  constructor
  · rintro ⟨hne, hd, hu⟩
    exact ⟨hne, by simpa using hd, hu⟩
  · rintro ⟨hne, hd, hu⟩
    exact ⟨hne, by simpa using hd, hu⟩

instance (s : Symbol) : Decidable s.Readable := decidable_of_iff _ s.readable_iff.symm

namespace Value

def Readable (v : Value) : Prop := v.forms = [] ∧ ∀ s ∈ v.symbols, s.Readable

def ReadableAll (vs : List Value) : Prop := formsAll vs = [] ∧ ∀ s ∈ symbolsAll vs, s.Readable

theorem readable_symbol {s : Symbol} : (symbol s).Readable ↔ s.Readable := by
  simp [Readable, forms, symbols]

theorem readable_string (text : String) : (string text).Readable := by
  simp [Readable, forms, symbols]

theorem readable_list {vs : List Value} : (list vs).Readable ↔ ReadableAll vs := by
  simp only [Readable, ReadableAll, forms, symbols]

theorem not_readable_form (f : Form) : ¬(form f).Readable := by
  simp [Readable, forms]

theorem readableAll_nil : ReadableAll [] := by
  simp [ReadableAll, formsAll, symbolsAll]

theorem readableAll_cons {v : Value} {vs : List Value} :
    ReadableAll (v :: vs) ↔ v.Readable ∧ ReadableAll vs := by
  simp only [ReadableAll, Readable, formsAll, symbolsAll, List.append_eq_nil_iff,
    List.forall_mem_append]
  constructor
  · intro h
    exact ⟨⟨h.1.1, h.2.1⟩, h.1.2, h.2.2⟩
  · intro h
    exact ⟨⟨h.1.1, h.2.1⟩, h.1.2, h.2.2⟩

end Value

end Sexp

namespace Sexp.Source

open Literal (EndsRun)

theorem spells_quote (text : String) (rest : List Char) :
    Spells (.string text) (Literal.quote text.toList) rest := by
  have hs : Spells _ _ rest := Spells.string (Literal.wellFormed_map_ofChar text.toList)
    (Literal.means_map_ofChar text.toList)
  rw [String.ofList_toList, ← Literal.encode_eq_spelling] at hs
  exact hs

theorem spells_name {s : Symbol} (h : s.Readable) {rest : List Char}
    (hr : EndsRun (!isDelimiter ·) rest) : Spells (.symbol s) s.name.toList rest := by
  have hne : s.name.toList ≠ [] := by
    intro hn
    exact h.name_ne (String.toList_eq_nil_iff.mp hn)
  have hs := Spells.atom hne h.undelimited hr
  rw [String.ofList_toList, Symbol.ofText, h.upper] at hs
  exact hs

theorem endsRun_charsAfter {vs : List Value} {body : List Char}
    (h : Value.charsAfter vs = body ++ [')']) (rest : List Char) :
    EndsRun (!isDelimiter ·) (body ++ ')' :: rest) := by
  have hrest : body ++ ')' :: rest = Value.charsAfter vs ++ rest := by simp [h]
  rw [hrest]
  intro c hc
  cases vs with
  | nil =>
    obtain rfl : ')' = c := by simpa [Value.charsAfter] using hc
    decide
  | cons v vs =>
    obtain rfl : ' ' = c := by simpa [Value.charsAfter] using hc
    decide

mutual
theorem spells_chars {v : Value} (h : v.Readable) {rest : List Char}
    (hr : EndsRun (!isDelimiter ·) rest) : Spells v v.chars rest := by
  cases v with
  | symbol s =>
    rw [Value.chars]
    exact spells_name (Value.readable_symbol.mp h) hr
  | string text =>
    rw [Value.chars]
    exact spells_quote text rest
  | form f => exact absurd h (Value.not_readable_form f)
  | list vs =>
    cases vs with
    | nil =>
      rw [Value.chars]
      exact .list (.nil .none)
    | cons v vs =>
      obtain ⟨hv, hvs⟩ := Value.readableAll_cons.mp (Value.readable_list.mp h)
      obtain ⟨body, hb, hs⟩ := spellsAll_charsAfter hvs rest
      have hfirst := spells_chars hv (endsRun_charsAfter hb rest)
      rw [Value.chars, hb, ← List.append_assoc]
      exact .list (.cons .none hfirst hs)

theorem spellsAll_charsAfter {vs : List Value} (h : Value.ReadableAll vs) (rest : List Char) :
    ∃ body, Value.charsAfter vs = body ++ [')'] ∧ SpellsAll vs body (')' :: rest) := by
  cases vs with
  | nil => exact ⟨[], by simp [Value.charsAfter], .nil .none⟩
  | cons v vs =>
    obtain ⟨hv, hvs⟩ := Value.readableAll_cons.mp h
    obtain ⟨body, hb, hs⟩ := spellsAll_charsAfter hvs rest
    have hfirst := spells_chars hv (endsRun_charsAfter hb rest)
    have hblank (next : List Char) : IsLayout [' '] next := .blank rfl .none
    refine ⟨[' '] ++ (v.chars ++ body), ?_, .cons (hblank _) hfirst hs⟩
    simp [Value.charsAfter, hb]
end

theorem readable_ofText {run : List Char} (hne : run ≠ [])
    (hrun : ∀ c ∈ run, isDelimiter c = false) :
    (Symbol.ofText (String.ofList run)).Readable := by
  refine ⟨?_, ?_, ?_⟩
  · intro h
    have hn : Text.upperChars run = [] := by simpa [Symbol.ofText, Text.upper] using h
    exact hne ((Text.upperChars_eq_nil_iff run).mp hn)
  · intro c hc
    have hm : c ∈ Text.upperChars run := by simpa [Symbol.ofText] using hc
    exact Text.isDelimiter_of_mem_upperChars hrun c hm
  · exact Text.upper_upper (String.ofList run)

mutual
theorem readable_of_spells {v : Value} {piece rest : List Char} (h : Spells v piece rest) :
    v.Readable := by
  cases h with
  | atom hne hrun _ => exact Value.readable_symbol.mpr (readable_ofText hne hrun)
  | string _ _ => exact Value.readable_string _
  | list hvs => exact Value.readable_list.mpr (readableAll_of_spellsAll hvs)

theorem readableAll_of_spellsAll {vs : List Value} {piece rest : List Char}
    (h : SpellsAll vs piece rest) : Value.ReadableAll vs := by
  cases h with
  | nil _ => exact Value.readableAll_nil
  | cons _ hv hvs =>
    exact Value.readableAll_cons.mpr ⟨readable_of_spells hv, readableAll_of_spellsAll hvs⟩
end

end Sexp.Source

namespace Sexp

open Source

theorem Reader.readable_of_readOne {r : Reader} {v : Value} (h : r.readOne = .ok v) :
    v.Readable :=
  (Value.readableAll_cons.mp
    (readableAll_of_spellsAll ((Reader.readOne_eq_ok_iff r v).mp h))).1

theorem Reader.readable_of_mem_drain {r : Reader} {v : Value} (h : .ok v ∈ r.drain.1) :
    v.Readable := by
  fun_induction drain r with
  | case1 => simp at h
  | case2 r item s hn items last hd ih =>
    rcases List.mem_cons.mp h with rfl | hi
    · obtain ⟨gap, piece, -, -, hv⟩ := spells_of_read ((next_eq_ok_iff r s v).mp hn)
      exact readable_of_spells hv
    · exact ih (by rw [hd]; exact hi)

theorem Reader.readOne_chars {v : Value} (h : v.Readable) :
    (Reader.ofChars v.chars).readOne = .ok v := by
  apply (Reader.readOne_eq_ok_iff _ v).mpr
  have hv : Spells v v.chars ([] ++ []) := spells_chars h (by simp [Literal.EndsRun])
  have hs := SpellsAll.cons .none hv (.nil .none)
  rw [List.nil_append, List.append_nil] at hs
  exact hs

theorem Value.Readable.readText_render {v : Value} (h : v.Readable) :
    readText v.render = .ok v := by
  rw [readText, Reader.ofText, toList_render]
  exact Reader.readOne_chars h

/-- A value is read back from its encoding exactly if it has no forms and readable names. -/
theorem readBytes_encode_iff (v : Value) :
    (∃ w, readBytes v.encode = .ok w ∧ (w == v) = true) ↔
      v.forms = [] ∧ ∀ s ∈ v.symbols, s.Readable := by
  have hbytes : readBytes v.encode = (Reader.ofChars v.chars).readOne := by
    rw [readBytes, Reader.ofBytes, Value.encode, Text.Utf8.lossy_encode]
  rw [hbytes]
  constructor
  · intro h
    obtain ⟨w, hw, he⟩ := h
    have hread := Reader.readable_of_readOne hw
    rw [← Value.eq_of_same hread.1 he]
    exact hread
  · intro h
    exact ⟨v, Reader.readOne_chars h, BEq.rfl⟩

end Sexp
