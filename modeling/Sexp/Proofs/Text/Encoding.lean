import Sexp.Text.Characters

/-!
# Decoding what was encoded

The encoding of a character is recovered from any bytes that it heads, so decoding inverts
encoding and neither reading of malformed pieces comes into play. The argument is by the number
of bytes: the leading byte announces the others and bounds the first of them, and each
continuation byte adds its six bits to the code.

An encoding that is cut off is decoded up to the character in which the cut is. What is left of
that character is one broken piece, since the leading byte still announces the bytes that are
missing.
-/

namespace Sexp.Text.Utf8

deriving instance DecidableEq for Lead

theorem ofByte?_one : ∀ n < 0x80, Lead.ofByte? (UInt8.ofNat n) = some ⟨0, 0x80, 0xBF, n⟩ := by
  decide

theorem ofByte?_two :
    ∀ k < 0x20, 2 ≤ k → Lead.ofByte? (UInt8.ofNat (k + 0xC0)) = some ⟨1, 0x80, 0xBF, k⟩ := by
  decide

theorem ofByte?_three :
    ∀ k < 0x10, Lead.ofByte? (UInt8.ofNat (k + 0xE0)) =
      some ⟨2, if k = 0 then 0xA0 else 0x80, if k = 0xD then 0x9F else 0xBF, k⟩ := by
  decide

theorem ofByte?_four :
    ∀ k < 5, Lead.ofByte? (UInt8.ofNat (k + 0xF0)) =
      some ⟨3, if k = 0 then 0x90 else 0x80, if k = 4 then 0x8F else 0xBF, k⟩ := by
  decide

theorem continuation_step {more k code : Nat} {least greatest : UInt8} {bytes : List UInt8}
    (hk : k < 0x40) (hl : least.toNat ≤ k + 0x80) (hg : k + 0x80 ≤ greatest.toNat) :
    continuation (more + 1) least greatest code (UInt8.ofNat (k + 0x80) :: bytes) =
      continuation more 0x80 0xBF (code * 64 + k) bytes := by
  have hn : (UInt8.ofNat (k + 0x80)).toNat = k + 0x80 := by
    rw [UInt8.toNat_ofNat']
    omega
  have hb : least ≤ UInt8.ofNat (k + 0x80) ∧ UInt8.ofNat (k + 0x80) ≤ greatest := by
    rw [UInt8.le_iff_toNat_le, UInt8.le_iff_toNat_le, hn]
    exact ⟨hl, hg⟩
  rw [continuation, if_pos hb, hn, Nat.add_sub_cancel]

theorem continuation_tail {more k code : Nat} {bytes : List UInt8} (hk : k < 0x40) :
    continuation (more + 1) 0x80 0xBF code (UInt8.ofNat (k + 0x80) :: bytes) =
      continuation more 0x80 0xBF (code * 64 + k) bytes := by
  have hl : (0x80 : UInt8).toNat = 0x80 := rfl
  have hg : (0xBF : UInt8).toNat = 0xBF := rfl
  apply continuation_step hk <;> omega

theorem decode_of_lead {b : UInt8} {bytes rest : List UInt8} {lead : Lead} {n : Nat}
    (hl : Lead.ofByte? b = some lead)
    (hc : continuation lead.more lead.least lead.greatest lead.bits bytes = (some n, rest)) :
    decode (b :: bytes) = some (Char.ofNat n) :: decode rest := by
  rw [decode, hl]
  simp only [hc]
  rfl

theorem decode_one {n : Nat} (h : n ≤ 0x7F) (bytes : List UInt8) :
    decode (UInt8.ofNat n :: bytes) = some (Char.ofNat n) :: decode bytes :=
  decode_of_lead (ofByte?_one n (by omega)) rfl

theorem decode_two {n : Nat} (h : 0x7F < n) (h' : n ≤ 0x7FF) (bytes : List UInt8) :
    decode (UInt8.ofNat (n / 64 % 0x20 + 0xC0) :: UInt8.ofNat (n % 0x40 + 0x80) :: bytes) =
      some (Char.ofNat n) :: decode bytes := by
  have hn : n / 64 % 0x20 * 64 + n % 0x40 = n := by omega
  apply decode_of_lead (ofByte?_two _ (by omega) (by omega))
  rw [continuation_tail (by omega), hn]
  rfl

theorem decode_three {n : Nat} (h : 0x7FF < n) (h' : n ≤ 0xFFFF)
    (hs : n < 0xD800 ∨ 0xDFFF < n) (bytes : List UInt8) :
    decode (UInt8.ofNat (n / 4096 % 0x10 + 0xE0) :: UInt8.ofNat (n / 64 % 0x40 + 0x80) ::
      UInt8.ofNat (n % 0x40 + 0x80) :: bytes) = some (Char.ofNat n) :: decode bytes := by
  have hn : (n / 4096 % 0x10 * 64 + n / 64 % 0x40) * 64 + n % 0x40 = n := by omega
  apply decode_of_lead (ofByte?_three _ (by omega))
  -- The bounds exclude overlong forms under the first leading byte, surrogates under 0xED.
  have hl : (if n / 4096 % 0x10 = 0 then 0xA0 else 0x80 : UInt8).toNat ≤ n / 64 % 0x40 + 0x80 := by
    split <;> simp only [UInt8.reduceToNat] <;> omega
  have hg : n / 64 % 0x40 + 0x80 ≤
      (if n / 4096 % 0x10 = 0xD then 0x9F else 0xBF : UInt8).toNat := by
    split <;> simp only [UInt8.reduceToNat] <;> omega
  rw [continuation_step (by omega) hl hg, continuation_tail (by omega), hn]
  rfl

theorem decode_four {n : Nat} (h : 0xFFFF < n) (h' : n < 0x110000) (bytes : List UInt8) :
    decode (UInt8.ofNat (n / 262144 % 0x08 + 0xF0) :: UInt8.ofNat (n / 4096 % 0x40 + 0x80) ::
      UInt8.ofNat (n / 64 % 0x40 + 0x80) :: UInt8.ofNat (n % 0x40 + 0x80) :: bytes) =
      some (Char.ofNat n) :: decode bytes := by
  have hn : ((n / 262144 % 0x08 * 64 + n / 4096 % 0x40) * 64 + n / 64 % 0x40) * 64 +
      n % 0x40 = n := by omega
  apply decode_of_lead (ofByte?_four _ (by omega))
  have hl : (if n / 262144 % 0x08 = 0 then 0x90 else 0x80 : UInt8).toNat ≤
      n / 4096 % 0x40 + 0x80 := by
    split <;> simp only [UInt8.reduceToNat] <;> omega
  have hg : n / 4096 % 0x40 + 0x80 ≤
      (if n / 262144 % 0x08 = 4 then 0x8F else 0xBF : UInt8).toNat := by
    split <;> simp only [UInt8.reduceToNat] <;> omega
  rw [continuation_step (by omega) hl hg, continuation_tail (by omega),
    continuation_tail (by omega), hn]
  rfl

theorem decode_utf8EncodeChar (c : Char) (bytes : List UInt8) :
    decode (String.utf8EncodeChar c ++ bytes) = some c :: decode bytes := by
  have hv : c.val.toNat < 0xD800 ∨ 0xDFFF < c.val.toNat ∧ c.val.toNat < 0x110000 := c.valid
  have hc : Char.ofNat c.val.toNat = c := Char.ofNat_toNat c
  fun_cases String.utf8EncodeChar c with
  | case1 v h1 =>
    have hd := decode_one h1 bytes
    rw [hc] at hd
    exact hd
  | case2 v h1 h2 =>
    have hd := decode_two (by omega) h2 bytes
    rw [hc] at hd
    exact hd
  | case3 v h1 h2 h3 =>
    have hd := decode_three (by omega) h3 (by omega) bytes
    rw [hc] at hd
    exact hd
  | case4 v h1 h2 h3 =>
    have hd := decode_four (Nat.lt_of_not_le h3) (by omega) bytes
    rw [hc] at hd
    exact hd

theorem decode_encode_append (cs : List Char) (bytes : List UInt8) :
    decode (encode cs ++ bytes) = cs.map some ++ decode bytes := by
  induction cs with
  | nil => rfl
  | cons c cs ih =>
    have h := decode_utf8EncodeChar c (encode cs ++ bytes)
    rw [ih] at h
    simpa [encode] using h

theorem decode_encode (cs : List Char) : decode (encode cs) = cs.map some := by
  have h := decode_encode_append cs []
  simpa [decode] using h

theorem lossy_encode (cs : List Char) : lossy (encode cs) = cs := by
  rw [lossy, decode_encode, List.map_map]
  exact List.map_id cs

theorem strict?_encode (cs : List Char) : strict? (encode cs) = some cs := by
  rw [strict?, decode_encode]
  induction cs with
  | nil => rfl
  | cons c cs ih =>
    rw [List.map_cons, List.mapM_cons, ih]
    rfl

theorem eq_newline_of_mem {c : Char} (h : 0x0A ∈ String.utf8EncodeChar c) : c = '\n' := by
  have hbyte {n : Nat} (hn : n < 256) (hb : (0x0A : UInt8) = UInt8.ofNat n) : n = 0x0A := by
    have ht := congrArg UInt8.toNat hb
    rw [UInt8.toNat_ofNat_of_lt' hn] at ht
    exact ht.symm
  revert h
  fun_cases String.utf8EncodeChar c with
  | case1 v h1 =>
    intro h
    have hv : v = 0x0A := hbyte (by omega) (List.mem_singleton.mp h)
    rw [← Char.ofNat_toNat c]
    exact congrArg Char.ofNat hv
  -- Every byte of a longer encoding has its highest bit set.
  | case2 v h1 h2 =>
    simp only [List.mem_cons, List.not_mem_nil, or_false]
    rintro (h | h) <;> have := hbyte (by omega) h <;> omega
  | case3 v h1 h2 h3 =>
    simp only [List.mem_cons, List.not_mem_nil, or_false]
    rintro (h | h | h) <;> have := hbyte (by omega) h <;> omega
  | case4 v h1 h2 h3 =>
    simp only [List.mem_cons, List.not_mem_nil, or_false]
    rintro (h | h | h | h) <;> have := hbyte (by omega) h <;> omega

theorem newline_not_mem_encode {cs : List Char} (h : '\n' ∉ cs) : 0x0A ∉ encode cs := by
  intro hb
  obtain ⟨c, hc, hbyte⟩ := List.mem_flatMap.mp hb
  rw [eq_newline_of_mem hbyte] at hc
  exact h hc

theorem decode_eq_nil_iff (bytes : List UInt8) : decode bytes = [] ↔ bytes = [] := by
  constructor
  · intro h
    fun_cases decode bytes <;> simp_all [decode]
  · rintro rfl
    simp [decode]

theorem encode_eq_nil_iff (cs : List Char) : encode cs = [] ↔ cs = [] := by
  rw [← decode_eq_nil_iff, decode_encode, List.map_eq_nil_iff]

theorem continuation_of_torn {more code n : Nat} {least greatest : UInt8}
    {part missing : List UInt8} (hm : missing ≠ [])
    (h : continuation more least greatest code (part ++ missing) = (some n, [])) :
    continuation more least greatest code part = (none, []) := by
  induction more generalizing least greatest code part with
  | zero => simp [continuation, hm] at h
  | succ more ih =>
    cases part with
    | nil => rfl
    | cons b part =>
      rw [List.cons_append, continuation] at h
      split at h
      · next hb =>
        rw [continuation, if_pos hb]
        exact ih h
      · simp at h

theorem decode_of_torn {c : Char} {part missing : List UInt8} (hp : part ≠ []) (hm : missing ≠ [])
    (h : decode (part ++ missing) = [some c]) : decode part = [none] := by
  cases part with
  | nil => exact absurd rfl hp
  | cons b part =>
    rw [List.cons_append, decode] at h
    cases hl : Lead.ofByte? b with
    | none => simp [hl] at h
    | some lead =>
      simp only [hl, List.cons.injEq, Option.map_eq_some_iff, decode_eq_nil_iff] at h
      obtain ⟨⟨n, hn, -⟩, hrest⟩ := h
      have hc := continuation_of_torn hm (Prod.ext hn hrest)
      rw [decode, hl]
      simp only [hc]
      simp [decode]

theorem exists_take_encode {cs : List Char} {n : Nat} (h : n < (encode cs).length) :
    ∃ kept c lost part missing, cs = kept ++ c :: lost ∧
      (encode cs).take n = encode kept ++ part ∧
      String.utf8EncodeChar c = part ++ missing ∧ missing ≠ [] := by
  induction cs generalizing n with
  | nil => simp at h
  | cons c cs ih =>
    have hcons : encode (c :: cs) = String.utf8EncodeChar c ++ encode cs := rfl
    rw [hcons] at h ⊢
    rw [List.length_append] at h
    by_cases hn : n < (String.utf8EncodeChar c).length
    · refine ⟨[], c, cs, (String.utf8EncodeChar c).take n, (String.utf8EncodeChar c).drop n, rfl,
        ?_, (List.take_append_drop n _).symm, ?_⟩
      · rw [List.take_append_of_le_length (Nat.le_of_lt hn)]
        rfl
      · simpa using hn
    · obtain ⟨kept, d, lost, part, missing, rfl, ht, hd, hm⟩ :=
        ih (n := n - (String.utf8EncodeChar c).length) (by omega)
      refine ⟨c :: kept, d, lost, part, missing, rfl, ?_, hd, hm⟩
      rw [List.take_append, List.take_of_length_le (Nat.le_of_not_lt hn), ht]
      simp [encode]

theorem lossy_take_encode {cs : List Char} {n : Nat} (h : n < (encode cs).length) :
    ∃ kept c lost torn, cs = kept ++ c :: lost ∧ lossy ((encode cs).take n) = kept ++ torn ∧
      (torn = [] ∨ torn = [replacement] ∧ 1 < (String.utf8EncodeChar c).length) := by
  obtain ⟨kept, c, lost, part, missing, hcs, ht, hc, hm⟩ := exists_take_encode h
  refine ⟨kept, c, lost, lossy part, hcs, ?_, ?_⟩
  · rw [ht, lossy, decode_encode_append, List.map_append, List.map_map]
    exact congrArg (· ++ lossy part) (List.map_id kept)
  · by_cases hp : part = []
    · left
      simp [hp, lossy, decode]
    · right
      have hd := decode_utf8EncodeChar c []
      rw [List.append_nil, hc, (decode_eq_nil_iff []).mpr rfl] at hd
      refine ⟨by rw [lossy, decode_of_torn hp hm hd]; rfl, ?_⟩
      rw [hc, List.length_append]
      have := List.length_pos_iff.mpr hp
      have := List.length_pos_iff.mpr hm
      omega

end Sexp.Text.Utf8
