import Mathlib.Algebra.Group.Nat.Defs
import Sexp.Proofs.Grammar

/-!
# The meaning of literals

A literal can spell its text in many ways, item by item. Every well-formed sequence of items means
exactly one text. A reader in front of the literal gives this text and stops right behind the
closing quote, whatever follows there.

The code of an item is built up digit by digit. As no code has more than six digits, it never
outgrows 32 bits on the way.
-/

namespace Sexp.Literal

theorem hexDigit?_lt {c : Char} {n : Nat} (h : hexDigit? c = some n) : n < 16 := by
  unfold hexDigit? at h
  split at h
  · next hc =>
    have hle : c.toNat ≤ 57 := hc.2
    have hn : c.toNat - 48 = n := Option.some.inj h
    omega
  · split at h
    · next hc =>
      have hle : c.toNat ≤ 102 := hc.2
      have hn : c.toNat - 97 + 10 = n := Option.some.inj h
      omega
    · split at h
      · next hc =>
        have hle : c.toNat ≤ 70 := hc.2
        have hn : c.toNat - 65 + 10 = n := Option.some.inj h
        omega
      · simp at h

theorem foldl_hexDigit_lt (digits : List Char) (n : Nat) :
    digits.foldl (fun n c => 16 * n + (hexDigit? c).getD 0) n < (n + 1) * 16 ^ digits.length := by
  induction digits generalizing n with
  | nil => simp
  | cons c digits ih =>
    have hd : (hexDigit? c).getD 0 < 16 := by
      cases hc : hexDigit? c with
      | none => simp
      | some d => exact hexDigit?_lt hc
    have hstep : 16 * n + (hexDigit? c).getD 0 + 1 ≤ (n + 1) * 16 := by omega
    calc digits.foldl _ (16 * n + (hexDigit? c).getD 0)
      _ < (16 * n + (hexDigit? c).getD 0 + 1) * 16 ^ digits.length := ih _
      _ ≤ (n + 1) * 16 * 16 ^ digits.length := Nat.mul_le_mul_right _ hstep
      _ = (n + 1) * 16 ^ (c :: digits).length := by
        rw [List.length_cons, Nat.pow_succ', Nat.mul_assoc]

theorem hexValue_lt (digits : List Char) : hexValue digits < 16 ^ digits.length := by
  have hlt := foldl_hexDigit_lt digits 0
  rwa [Nat.zero_add, Nat.one_mul] at hlt

theorem CodeForm.width_le (form : CodeForm) : form.width ≤ 6 := by
  cases form <;> decide

theorem exists_fits_of_mem {item : Item} {items : List Item} (h : WellFormed items)
    (hm : item ∈ items) : ∃ next, item.Fits next := by
  induction items with
  | nil => simp at hm
  | cons first items ih =>
    rcases List.mem_cons.mp hm with rfl | hm
    · exact ⟨spelling items, h.1⟩
    · exact ih h.2 hm

theorem hexValue_le_of_code {items : List Item} (h : WellFormed items) {form : CodeForm}
    {digits read : List Char} (hm : .code form digits ∈ items) (hr : read <+: digits) :
    hexValue read ≤ 2 ^ 32 - 1 := by
  obtain ⟨next, hf⟩ := exists_fits_of_mem h hm
  have hlen : read.length ≤ 6 := by
    have hdigits := hf.length_le
    have hread := hr.length_le
    have hform := form.width_le
    omega
  have hlt := hexValue_lt read
  have hpow : 16 ^ read.length ≤ 16 ^ 6 := Nat.pow_le_pow_right (by decide) hlen
  omega

/-- A literal made of well-formed items, in front of anything, is read as the one text that the
items stand for. By itself it is read as this string and nothing else. While it is read, no code
exceeds 32 bits. -/
theorem read_literal {items : List Item} (h : WellFormed items) :
    let literal := '"' :: (spelling items ++ ['"'])
    ∃ text, (∀ other, Means items other ↔ other = text) ∧
      (∀ p rest, (Reader.mk p (literal ++ rest)).read =
        (.ok (some (.string (String.ofList text))), ⟨p + literal.length, rest⟩)) ∧
      (Reader.ofChars literal).drain =
        ([.ok (.string (String.ofList text))], ⟨literal.length, []⟩) ∧
      ∀ form digits, .code form digits ∈ Literal.items (spelling items) →
        ∀ read, read <+: digits → hexValue read ≤ 2 ^ 32 - 1 := by
  intro literal
  have hspells (rest : List Char) : Source.Spells (.string (String.ofList
      (decode (spelling items)))) literal rest := .string h (means_decode h)
  refine ⟨decode (spelling items), means_iff h, ?_, ?_, ?_⟩
  · intro p rest
    exact Reader.read_of_spells .none (hspells rest) p
  · have hall : Source.SpellsAll [.string (String.ofList (decode (spelling items)))] literal [] := by
      have hcons := Source.SpellsAll.cons .none (hspells []) (.nil .none)
      rwa [List.nil_append, List.append_nil] at hcons
    have hdrain := Reader.drain_of_spellsAll hall 0
    rwa [Nat.zero_add] at hdrain
  · intro form digits hm read hr
    rw [items_spelling h] at hm
    exact hexValue_le_of_code h hm hr

/-- Digits behind a full code, a surrogate, and short codes in front of a quote and a backslash. -/
theorem read_literal_mixed :
    let items : List Item := [.code .short ['4', '1'], .plain '2',
      .code .medium ['d', '8', '0', '0'], .code .long ['1', 'F'], .escape '"', .code .short [],
      .escape 'n']
    let text := ['A', '2', '\uFFFD', 'U', '1', 'F', '"', 'x', '\n']
    WellFormed items ∧ Means items text ∧
      spelling items = "\\x412\\ud800\\U1F\\\"\\x\\n".toList ∧
      (Reader.mk 3 ('"' :: (spelling items ++ ['"']) ++ [')'])).read =
        (.ok (some (.string (String.ofList text))), ⟨26, [')']⟩) := by
  intro items text
  have hbackslash (cs : List Char) : EndsRun isHexDigit ('\\' :: cs) := by
    intro c hc
    obtain rfl : '\\' = c := by simpa using hc
    decide
  have hwell : WellFormed items :=
    ⟨⟨List.all_eq_true.mp rfl, .inl rfl⟩, ⟨by decide, by decide⟩,
      ⟨List.all_eq_true.mp rfl, .inl rfl⟩,
      ⟨List.all_eq_true.mp rfl, .inr ⟨by decide, hbackslash _⟩⟩,
      (ofLetter?_eq_none_iff '"').mp rfl,
      ⟨List.all_eq_true.mp rfl, .inr ⟨by decide, hbackslash _⟩⟩,
      (ofLetter?_eq_none_iff 'n').mp rfl, trivial⟩
  have hmeans : Means items text :=
    .cons (.character rfl rfl) (.cons .plain (.cons (.replaced rfl (by decide))
      (.cons (.verbatim (by decide)) (.cons (.itself (by decide) (by decide) (by decide))
        (.cons (.verbatim (by decide)) (.cons .lineFeed .nil))))))
  obtain ⟨other, hother, hread, -⟩ := read_literal hwell
  obtain rfl := (hother text).mp hmeans
  exact ⟨hwell, hmeans, by decide, hread 3 [')']⟩

end Sexp.Literal
