import Sexp.Proofs.Extension
import Sexp.Proofs.RoundTrip

/-!
# Encodings that are cut off

Lists and strings are marked at both ends, and so no part of the text of one at its beginning is
the text of another. If the text is cut off, the reader comes to the end of the input within the
list or the literal, wherever the cut is: it can be between tokens, within a name, after a
backslash, or within the bytes of a character. In the last case a replacement character stands at
the end, which neither closes a list nor ends a literal.
-/

namespace Sexp.Source

def Marked : List Char → Prop
  | [] => False
  | c :: _ => c = '(' ∨ c = '"'

theorem marked_append {cs : List Char} (h : cs ≠ []) (rest : List Char) :
    Marked (cs ++ rest) ↔ Marked cs := by
  cases cs with
  | nil => exact absurd rfl h
  | cons c cs => rfl

namespace Spells

variable {v : Value} {piece rest : List Char}

theorem marked_iff (h : Spells v piece rest) : Marked piece ↔ v.kind ≠ .symbol := by
  cases h with
  | string _ _ => simp [Marked, Value.kind]
  | list _ => simp [Marked, Value.kind]
  | atom hne hrun _ =>
    cases piece with
    | nil => exact absurd rfl hne
    | cons c run =>
      obtain ⟨-, hopen, -, hquote, -⟩ := not_delimiter (hrun c List.mem_cons_self)
      simp [Marked, Value.kind, hopen, hquote]

theorem getLast? (h : Spells v piece rest) (hk : v.kind ≠ .symbol) :
    piece.getLast? = some ')' ∨ piece.getLast? = some '"' := by
  cases h with
  | atom => exact absurd rfl hk
  | string _ _ => simp [List.getLast?_cons]
  | list _ => simp [List.getLast?_cons]

theorem exists_eq_append {kept torn : List Char} (h : Spells v piece rest)
    (hk : v.kind ≠ .symbol) (htorn : ∀ c ∈ torn, c ≠ ')' ∧ c ≠ '"')
    (he : kept ++ torn = piece ++ rest) : ∃ more, kept = piece ++ more := by
  rcases List.append_eq_append_iff.mp he with ⟨part, hpiece, htorn'⟩ | ⟨more, hmore, -⟩
  · cases hpart : part.getLast? with
    | none => exact ⟨[], by simp [hpiece, List.getLast?_eq_none_iff.mp hpart]⟩
    | some c =>
      have hc : c ∈ torn := by
        rw [htorn']
        exact List.mem_append_left _ (List.mem_of_getLast? hpart)
      have hlast := h.getLast? hk
      rw [hpiece, List.getLast?_append, hpart] at hlast
      simp [htorn c hc] at hlast
  · exact ⟨more, hmore⟩

end Spells

theorem Marked.kept_ne_nil {cs kept lost torn : List Char} {c : Char} {n : Nat} (hm : Marked cs)
    (h0 : n ≠ 0) (hcs : cs = kept ++ c :: lost)
    (hlossy : Text.Utf8.lossy ((Text.Utf8.encode cs).take n) = kept ++ torn)
    (htorn : torn = [] ∨ torn = [Text.Utf8.replacement] ∧
      1 < (String.utf8EncodeChar c).length) : kept ≠ [] := by
  rintro rfl
  subst hcs
  have hone : (String.utf8EncodeChar c).length = 1 := by rcases hm with rfl | rfl <;> rfl
  have hnil : torn = [] := by
    rcases htorn with h | ⟨-, h⟩
    · exact h
    · omega
  rw [hnil, List.append_nil, Text.Utf8.lossy, List.map_eq_nil_iff, Text.Utf8.decode_eq_nil_iff,
    List.take_eq_nil_iff, Text.Utf8.encode_eq_nil_iff] at hlossy
  rcases hlossy with h | h
  · exact h0 h
  · cases h

theorem IsLayout.eq_nil_of_marked {gap rest : List Char} (h : IsLayout gap rest)
    (hm : Marked (gap ++ rest)) : gap = [] := by
  cases h with
  | none => rfl
  | blank hc _ => rcases hm with rfl | rfl <;> cases hc
  | comment => rcases hm with hm | hm <;> cases hm
  | lastComment => rcases hm with hm | hm <;> cases hm

end Sexp.Source

namespace Sexp.Reader

open Source

theorem read_of_marked {r : Reader} (hm : Marked r.rest) :
    (∃ w piece rest, r.rest = piece ++ rest ∧ Spells w piece rest ∧ w.kind ≠ .symbol) ∨
      ∃ e, r.read.1 = .error e ∧ (e.kind = .unterminatedString ∨ e.kind = .missingCloseParen) := by
  have h := r.outcome
  generalize r.read = answer at h
  cases h with
  | @value w gap piece rest hr hg hw =>
    rw [hr] at hm
    obtain rfl := hg.eq_nil_of_marked hm
    rw [List.nil_append, marked_append hw.piece_ne_nil, hw.marked_iff] at hm
    exact .inl ⟨w, piece, rest, hr, hw, hm⟩
  | atEnd hg =>
    have hnil : r.rest = [] := hg.eq_nil_of_marked (by rwa [List.append_nil])
    rw [hnil] at hm
    exact absurd hm id
  | @unmatched gap rest hr hg =>
    rw [hr] at hm
    obtain rfl := hg.eq_nil_of_marked hm
    rcases hm with hm | hm <;> cases hm
  | incomplete hk => exact .inr ⟨_, rfl, hk.symm⟩

theorem read_of_cut {v : Value} {kept lost torn : List Char} (hv : Spells v (kept ++ lost) [])
    (hk : v.kind ≠ .symbol) (hkept : kept ≠ []) (hlost : lost ≠ [])
    (htorn : ∀ c ∈ torn, c ≠ ')' ∧ c ≠ '"') (p : Nat) :
    ∃ e, (Reader.mk p (kept ++ torn)).read.1 = .error e ∧
      (e.kind = .unterminatedString ∨ e.kind = .missingCloseParen) := by
  have hm : Marked (kept ++ torn) := by
    rw [marked_append hkept, ← marked_append hkept, hv.marked_iff]
    exact hk
  rcases read_of_marked (r := ⟨p, kept ++ torn⟩) hm with ⟨w, piece, rest, hr, hw, hkw⟩ | h
  · exfalso
    -- The reader would stop at two places of the whole text.
    obtain ⟨more, rfl⟩ := hw.exists_eq_append hkw htorn hr
    have hwhole : Spells w piece (more ++ lost) := hw.with_rest fun hs => absurd hs hkw
    have hshort : (Reader.mk 0 (piece ++ (more ++ lost))).read =
        (.ok (some w), ⟨0 + 0 + piece.length, more ++ lost⟩) := read_of_spells .none hwhole 0
    have hlong := read_of_spells .none hv 0
    rw [List.append_nil, List.nil_append, List.append_assoc, hshort] at hlong
    simp [hlost] at hlong
  · exact h

end Sexp.Reader

namespace Sexp

open Source

theorem readOne_of_read_error {r : Reader} {e : ReadError} (h : r.read.1 = .error e) :
    r.readOne = .error e := by
  unfold Reader.readOne
  split
  · next hr =>
    rw [hr] at h
    exact congrArg _ (Except.error.inj h)
  · next hr => simp [hr] at h
  · next hr => simp [hr] at h

theorem readOne_of_rest_nil {r : Reader} (h : r.rest = []) :
    ∃ o, r.readOne = .error ⟨.noExpression, o⟩ := by
  refine ⟨r.skipLayout.position, ?_⟩
  rw [Reader.readOne, Reader.read_of_rest_nil h]

/-- Cutting off the encoding of a readable list or string makes it unreadable, at every byte. If
nothing is left no expression is found, and otherwise the end of a list or a literal is missing. -/
theorem readBytes_take_encode {v : Value} (hv : v.Readable)
    (hk : v.kind = .list ∨ v.kind = .string) {n : Nat} (hn : n < v.encode.length) :
    ∃ e, readBytes (v.encode.take n) = .error e ∧
      (e.kind = .noExpression ↔ n = 0) ∧
      (n ≠ 0 → e.kind = .unterminatedString ∨ e.kind = .missingCloseParen) := by
  have hsymbol : v.kind ≠ .symbol := by rcases hk with hk | hk <;> simp [hk]
  have hspells : Spells v v.chars [] := spells_chars hv (by simp [Literal.EndsRun])
  obtain ⟨kept, c, lost, torn, hchars, hlossy, htorn⟩ := Text.Utf8.lossy_take_encode hn
  rw [hchars] at hspells
  have hbytes : readBytes (v.encode.take n) = (Reader.ofChars (kept ++ torn)).readOne := by
    rw [readBytes, Reader.ofBytes, Value.encode, hlossy]
  rw [hbytes]
  by_cases h0 : n = 0
  · have hnil : kept ++ torn = [] := by
      rw [← hlossy, h0]
      simp [Text.Utf8.lossy, Text.Utf8.decode]
    obtain ⟨o, ho⟩ := readOne_of_rest_nil (r := Reader.ofChars (kept ++ torn)) hnil
    exact ⟨_, ho, by simp [h0], fun hne => absurd h0 hne⟩
  · have hmarked : Marked v.chars := by
      rw [hchars, hspells.marked_iff]
      exact hsymbol
    have hkept : kept ≠ [] := hmarked.kept_ne_nil h0 hchars hlossy htorn
    have hplain : ∀ d ∈ torn, d ≠ ')' ∧ d ≠ '"' := by
      rcases htorn with rfl | ⟨rfl, -⟩
      · simp
      · exact List.forall_mem_singleton.mpr (by decide)
    obtain ⟨e, he, hkind⟩ := Reader.read_of_cut hspells hsymbol hkept (by simp) hplain 0
    refine ⟨e, readOne_of_read_error he, ?_, fun _ => hkind⟩
    constructor
    · intro hno
      simp [hno] at hkind
    · intro hz
      exact absurd hz h0

/-- Here the cut is between the two bytes of a letter. -/
theorem readBytes_take_encode_torn :
    let v : Value := .list [.symbol ⟨"É"⟩, .string "a"]
    v.Readable ∧ v.encode.take 2 = [0x28, 0xC3] ∧
      ∃ e, readBytes [0x28, 0xC3] = .error e ∧
        (e.kind = .unterminatedString ∨ e.kind = .missingCloseParen) := by
  intro v
  have hv : v.Readable := ⟨rfl, by decide +kernel⟩
  have htake : v.encode.take 2 = [0x28, 0xC3] := by decide +kernel
  have hn : 2 < v.encode.length := by decide +kernel
  obtain ⟨e, he, -, hkind⟩ := readBytes_take_encode hv (.inl rfl) hn
  rw [htake] at he
  exact ⟨hv, htake, e, he, hkind (by decide)⟩

end Sexp
