import Sexp.Source.Token

/-!
# Laws of upper-casing

Upper-casing is idempotent, gives every character at least one character, and gives a delimiter
for that delimiter only. All three are facts about the tables. The targets of the mappings are not
mapped themselves; for two runs this is settled by comparing their ends and, where they interleave,
the parities of their characters. No target is as small as a delimiter.
-/

namespace Sexp.Text

open Source (isDelimiter)

/-- No character of `s` is the upper-case form of a character of `r`. -/
def CaseRun.misses (r s : CaseRun) : Bool :=
  Nat.blt (r.target r.last) s.first || Nat.blt s.last r.upper ||
    (s.step == 2 && (r.step == 2 || r.first == r.last) && (r.upper + s.first) % 2 == 1)

theorem CaseRun.covers_iff (r : CaseRun) (n : Nat) :
    r.covers n = true ↔ r.first ≤ n ∧ n ≤ r.last ∧ (n - r.first) % r.step = 0 := by
  simp only [covers, Bool.and_eq_true, decide_eq_true_eq, beq_iff_eq, and_assoc]

theorem CaseRun.target_bounds {r : CaseRun} {n : Nat} (h : r.covers n = true) :
    r.upper ≤ r.target n ∧ r.target n ≤ r.target r.last := by
  rw [covers_iff] at h
  simp only [target]
  omega

theorem CaseRun.covers_target {r s : CaseRun} {n : Nat} (h : r.misses s = true)
    (hn : r.covers n = true) : s.covers (r.target n) = false := by
  have hb := target_bounds hn
  rw [Bool.eq_false_iff, ne_eq, covers_iff]
  intro hs
  rw [covers_iff] at hn
  simp only [misses, Bool.or_eq_true, Bool.and_eq_true, beq_iff_eq, Nat.blt_eq] at h
  rcases h with (h | h) | ⟨⟨h2, hr⟩, hp⟩
  · omega
  · omega
  · rw [h2] at hs
    rcases hr with hr | hr
    · rw [hr] at hn
      simp only [target] at hs
      omega
    · simp only [target] at hs
      omega

theorem caseRuns_miss_caseRuns :
    (caseRuns.all fun r => caseRuns.all fun s => r.misses s) = true := by decide +kernel

theorem caseRuns_miss_caseExpansions :
    (caseRuns.all fun r => caseExpansions.all fun e =>
      Nat.blt e.1 r.upper || Nat.blt (r.target r.last) e.1) = true := by decide +kernel

theorem caseExpansions_miss_caseRuns :
    (caseExpansions.all fun e => e.2.all fun t => caseRuns.all fun s => !s.covers t) = true := by
  decide +kernel

theorem caseExpansions_miss_caseExpansions :
    (caseExpansions.all fun e => e.2.all fun t => caseExpansions.all fun f => f.1 != t) = true := by
  decide +kernel

theorem caseRuns_upper_ge : (caseRuns.all fun r => Nat.ble 0x41 r.upper) = true := by
  decide +kernel

theorem caseExpansions_ge :
    (caseExpansions.all fun e => !e.2.isEmpty && e.2.all fun t => Nat.ble 0x41 t) = true := by
  decide +kernel

def Unmapped (n : Nat) : Prop :=
  (∀ r ∈ caseRuns, r.covers n = false) ∧ ∀ e ∈ caseExpansions, e.1 ≠ n

theorem upperCodes_of_unmapped {n : Nat} (h : Unmapped n) : upperCodes n = [n] := by
  have hr : caseRuns.find? (·.covers n) = none := by
    rw [List.find?_eq_none]
    intro r hr
    rw [h.1 r hr]
    exact Bool.false_ne_true
  have he : caseExpansions.lookup n = none := by
    rw [List.lookup_eq_none_iff]
    intro e he
    exact bne_iff_ne.mpr (h.2 e he).symm
  rw [upperCodes, hr, he]
  rfl

theorem upperCodes_cases (n : Nat) :
    (∃ r ∈ caseRuns, r.covers n = true ∧ upperCodes n = [r.target n]) ∨
      (∃ e ∈ caseExpansions, upperCodes n = e.2) ∨ (Unmapped n ∧ upperCodes n = [n]) := by
  cases hr : caseRuns.find? (·.covers n) with
  | some r =>
    have hc : r.covers n = true := by simpa using List.find?_some hr
    exact .inl ⟨r, List.mem_of_find?_eq_some hr, hc, by rw [upperCodes, hr]⟩
  | none =>
    cases he : caseExpansions.lookup n with
    | some ts =>
      obtain ⟨before, after, hl, -⟩ := List.lookup_eq_some_iff.mp he
      refine .inr (.inl ⟨(n, ts), by rw [hl]; simp, ?_⟩)
      rw [upperCodes, hr, he]
      rfl
    | none =>
      have hu : Unmapped n := by
        constructor
        · intro r hm
          exact Bool.eq_false_iff.mpr (List.find?_eq_none.mp hr r hm)
        · intro e hm
          exact (bne_iff_ne.mp (List.lookup_eq_none_iff.mp he e hm)).symm
      exact .inr (.inr ⟨hu, upperCodes_of_unmapped hu⟩)

theorem upperCodes_ne_nil (n : Nat) : upperCodes n ≠ [] := by
  rcases upperCodes_cases n with ⟨r, -, -, h⟩ | ⟨e, he, h⟩ | ⟨-, h⟩
  · simp [h]
  · have hg := List.all_eq_true.mp caseExpansions_ge e he
    simp only [Bool.and_eq_true, Bool.not_eq_true', List.isEmpty_eq_false_iff] at hg
    rw [h]
    exact hg.1
  · simp [h]

theorem unmapped_of_mem_upperCodes {n t : Nat} (h : t ∈ upperCodes n) : Unmapped t := by
  rcases upperCodes_cases n with ⟨r, hr, hn, hu⟩ | ⟨e, he, hu⟩ | ⟨hn, hu⟩
  · rw [hu, List.mem_singleton] at h
    subst h
    constructor
    · intro s hs
      have hm := List.all_eq_true.mp (List.all_eq_true.mp caseRuns_miss_caseRuns r hr) s hs
      exact CaseRun.covers_target hm hn
    · intro e he
      have hm := List.all_eq_true.mp (List.all_eq_true.mp caseRuns_miss_caseExpansions r hr) e he
      have hb := CaseRun.target_bounds hn
      simp only [Bool.or_eq_true, Nat.blt_eq] at hm
      omega
  · rw [hu] at h
    constructor
    · intro s hs
      have hm := List.all_eq_true.mp (List.all_eq_true.mp
        (List.all_eq_true.mp caseExpansions_miss_caseRuns e he) t h) s hs
      simpa using hm
    · intro f hf
      have hm := List.all_eq_true.mp (List.all_eq_true.mp
        (List.all_eq_true.mp caseExpansions_miss_caseExpansions e he) t h) f hf
      exact bne_iff_ne.mp hm
  · rw [hu, List.mem_singleton] at h
    rw [h]
    exact hn

theorem eq_or_ge_of_mem_upperCodes {n t : Nat} (h : t ∈ upperCodes n) : t = n ∨ 0x41 ≤ t := by
  rcases upperCodes_cases n with ⟨r, hr, hn, hu⟩ | ⟨e, he, hu⟩ | ⟨-, hu⟩
  · rw [hu, List.mem_singleton] at h
    have hg := Nat.le_of_ble_eq_true (List.all_eq_true.mp caseRuns_upper_ge r hr)
    have hb := CaseRun.target_bounds hn
    omega
  · have hg := List.all_eq_true.mp caseExpansions_ge e he
    rw [hu] at h
    rw [Bool.and_eq_true] at hg
    exact .inr (Nat.le_of_ble_eq_true (List.all_eq_true.mp hg.2 t h))
  · rw [hu, List.mem_singleton] at h
    exact .inl h

theorem toNat_ofNat_cases (n : Nat) :
    (Char.ofNat n).toNat = n ∨ (Char.ofNat n).toNat = 0 := by
  by_cases h : n.isValidChar
  · left
    rw [Char.ofNat, dif_pos h]
    rfl
  · right
    rw [Char.ofNat, dif_neg h]
    rfl

theorem upperChar_ofNat {t : Nat} (h : Unmapped t) : upperChar (Char.ofNat t) = [Char.ofNat t] := by
  apply upperChar_of_codes
  rcases toNat_ofNat_cases t with ht | ht
  · rw [ht]
    exact upperCodes_of_unmapped h
  · rw [ht]
    decide

theorem upperChar_ne_nil (c : Char) : upperChar c ≠ [] := by
  rw [upperChar, ne_eq, List.map_eq_nil_iff]
  exact upperCodes_ne_nil c.toNat

theorem upperChar_of_mem_upperChar {c d : Char} (h : d ∈ upperChar c) : upperChar d = [d] := by
  obtain ⟨t, ht, rfl⟩ := List.mem_map.mp h
  exact upperChar_ofNat (unmapped_of_mem_upperCodes ht)

theorem lt_of_isDelimiter {c : Char} (h : isDelimiter c = true) : c.toNat < 0x41 := by
  simp only [isDelimiter, Source.isBlank, Bool.or_eq_true, beq_iff_eq] at h
  rcases h with (((((((rfl | rfl) | rfl) | rfl) | rfl) | rfl) | rfl) | rfl) <;> decide

theorem isDelimiter_of_mem_upperChar {c d : Char} (h : d ∈ upperChar c)
    (hc : isDelimiter c = false) : isDelimiter d = false := by
  obtain ⟨t, ht, rfl⟩ := List.mem_map.mp h
  rcases toNat_ofNat_cases t with hn | hn
  · rcases eq_or_ge_of_mem_upperCodes ht with he | hg
    · rw [he, Char.ofNat_toNat]
      exact hc
    · rw [Bool.eq_false_iff]
      intro hd
      have hl := lt_of_isDelimiter hd
      omega
  · have h0 : Char.ofNat t = Char.ofNat 0 := Char.toNat_inj.mp hn
    rw [h0]
    decide

theorem upperChars_of_forall {cs : List Char} (h : ∀ c ∈ cs, upperChar c = [c]) :
    upperChars cs = cs := by
  induction cs with
  | nil => rfl
  | cons c cs ih =>
    rw [upperChars_cons, h c (by simp), ih fun d hd => h d (by simp [hd])]
    rfl

theorem upperChars_upperChars (cs : List Char) : upperChars (upperChars cs) = upperChars cs := by
  apply upperChars_of_forall
  intro d hd
  obtain ⟨c, -, hc⟩ := List.mem_flatMap.mp hd
  exact upperChar_of_mem_upperChar hc

theorem upper_upper (s : String) : upper (upper s) = upper s := by
  apply String.toList_inj.mp
  simp only [toList_upper, upperChars_upperChars]

theorem upperChars_eq_nil_iff (cs : List Char) : upperChars cs = [] ↔ cs = [] := by
  constructor
  · intro h
    cases cs with
    | nil => rfl
    | cons c cs =>
      rw [upperChars_cons, List.append_eq_nil_iff] at h
      exact absurd h.1 (upperChar_ne_nil c)
  · intro h
    rw [h]
    rfl

theorem isDelimiter_of_mem_upperChars {cs : List Char} (h : ∀ c ∈ cs, isDelimiter c = false) :
    ∀ d ∈ upperChars cs, isDelimiter d = false := by
  intro d hd
  obtain ⟨c, hc, hdc⟩ := List.mem_flatMap.mp hd
  exact isDelimiter_of_mem_upperChar hdc (h c hc)

theorem upperChar_of_isDelimiter {c : Char} (h : isDelimiter c = true) : upperChar c = [c] := by
  simp only [isDelimiter, Source.isBlank, Bool.or_eq_true, beq_iff_eq] at h
  rcases h with (((((((rfl | rfl) | rfl) | rfl) | rfl) | rfl) | rfl) | rfl) <;> decide

theorem isDelimiter_of_upperChars {cs : List Char}
    (h : ∀ d ∈ upperChars cs, isDelimiter d = false) : ∀ c ∈ cs, isDelimiter c = false := by
  intro c hc
  cases hd : isDelimiter c with
  | false => rfl
  | true =>
    have hself : c ∈ upperChar c := by simp [upperChar_of_isDelimiter hd]
    rw [← hd]
    exact h c (List.mem_flatMap.mpr ⟨c, hc, hself⟩)

end Sexp.Text
