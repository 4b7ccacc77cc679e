import Sexp.Proofs.Lines
import Sexp.Proofs.RoundTrip

/-!
# Canonical texts

Whatever was read is readable, and the canonical text of a readable value stands on one line: the
only blank in it is the space, because names hold none and a literal escapes the others. A text
can therefore be replaced by the canonical texts of its values, one per line. The new text has the
same values, and replacing it again changes nothing.
-/

namespace Sexp

open Source

theorem Literal.Item.not_mem_escape {c d : Char} (hd : isBlank d = false)
    (hb : isBlank c = true) : c ∉ (escape d).spelling := by
  intro hc
  rw [spelling, List.mem_cons, List.mem_singleton] at hc
  rcases hc with rfl | rfl
  · cases hb
  · rw [hd] at hb
    cases hb

theorem Literal.Item.eq_space_of_mem_ofChar {c d : Char} (h : c ∈ (ofChar d).spelling)
    (hb : isBlank c = true) : c = ' ' := by
  unfold ofChar at h
  split at h
  · exact absurd h (not_mem_escape rfl hb)
  · split at h
    · exact absurd h (not_mem_escape rfl hb)
    · split at h
      · exact absurd h (not_mem_escape rfl hb)
      · split at h
        · next hd =>
          have hblank : isBlank d = false := by rcases hd with rfl | rfl <;> rfl
          exact absurd h (not_mem_escape hblank hb)
        · -- The three other blanks have been escaped, so only the space is left to stand for itself.
          obtain rfl : c = d := List.mem_singleton.mp h
          simp_all [isBlank]

theorem Literal.eq_space_of_mem_encode {text : List Char} {c : Char} (h : c ∈ encode text)
    (hb : isBlank c = true) : c = ' ' := by
  obtain ⟨d, -, hc⟩ := List.mem_flatMap.mp h
  exact Item.eq_space_of_mem_ofChar hc hb

namespace Value

mutual
theorem eq_space_of_mem_chars {v : Value} (h : v.Readable) {c : Char} (hc : c ∈ v.chars)
    (hb : isBlank c = true) : c = ' ' := by
  cases v with
  | symbol s =>
    rw [chars] at hc
    have hd := (readable_symbol.mp h).undelimited c hc
    simp [isDelimiter, hb] at hd
  | string text =>
    rw [chars, Literal.quote, List.mem_cons, List.mem_append, List.mem_singleton] at hc
    rcases hc with rfl | hc | rfl
    · cases hb
    · exact Literal.eq_space_of_mem_encode hc hb
    · cases hb
  | form f => exact absurd h (not_readable_form f)
  | list vs =>
    cases vs with
    | nil =>
      rw [chars, List.mem_cons, List.mem_singleton] at hc
      rcases hc with rfl | rfl <;> cases hb
    | cons v vs =>
      obtain ⟨hv, hvs⟩ := readableAll_cons.mp (readable_list.mp h)
      rw [chars, List.mem_cons, List.mem_append] at hc
      rcases hc with rfl | hc | hc
      · cases hb
      · exact eq_space_of_mem_chars hv hc hb
      · exact eq_space_of_mem_charsAfter hvs hc hb

theorem eq_space_of_mem_charsAfter {vs : List Value} (h : ReadableAll vs) {c : Char}
    (hc : c ∈ charsAfter vs) (hb : isBlank c = true) : c = ' ' := by
  cases vs with
  | nil =>
    rw [charsAfter, List.mem_singleton] at hc
    rw [hc] at hb
    cases hb
  | cons v vs =>
    obtain ⟨hv, hvs⟩ := readableAll_cons.mp h
    rw [charsAfter, List.mem_cons, List.mem_append] at hc
    rcases hc with hc | hc | hc
    · exact hc
    · exact eq_space_of_mem_chars hv hc hb
    · exact eq_space_of_mem_charsAfter hvs hc hb
end

theorem not_mem_render {v : Value} (h : v.Readable) {c : Char} (hb : isBlank c = true)
    (hne : c ≠ ' ') : c ∉ v.render.toList := by
  rw [toList_render]
  intro hc
  exact hne (eq_space_of_mem_chars h hc hb)

def lines (vs : List Value) : String := String.join (vs.map (·.render ++ "\n"))

theorem lines_cons (v : Value) (vs : List Value) :
    lines (v :: vs) = v.render ++ "\n" ++ lines vs := by
  simp [lines]

end Value

def normalize (text : String) : Except ReadError String := (readAllText text).map Value.lines

theorem readable_of_readAllText {text : String} {vs : List Value} (h : readAllText text = .ok vs) :
    ∀ v ∈ vs, v.Readable := by
  intro v hv
  apply Reader.readable_of_mem_drain (r := Reader.ofText text)
  rw [(mapM_id_eq_ok_iff _ vs).mp h]
  exact List.mem_map_of_mem hv

namespace Value.Readable

variable {v : Value}

theorem readAllText_render (h : v.Readable) : readAllText v.render = .ok [v] := by
  apply (mapM_id_eq_ok_iff _ [v]).mpr
  have hs := (Reader.readOne_eq_ok_iff _ v).mp (Reader.readOne_chars h)
  rw [Reader.ofText, toList_render]
  exact congrArg Prod.fst (Reader.drain_of_spellsAll hs 0)

theorem readAllText_line (h : v.Readable) {t : String} {ws : List Value}
    (ht : readAllText t = .ok ws) : readAllText (v.render ++ "\n" ++ t) = .ok (v :: ws) := by
  rw [readAllText_append_line h.readAllText_render, ht]
  rfl

end Value.Readable

theorem readAllText_empty : readAllText "" = .ok [] := by
  apply (mapM_id_eq_ok_iff _ []).mpr
  rw [Reader.drain_of_none (Reader.read_of_rest_nil rfl)]
  rfl

theorem readAllText_valueLines {vs : List Value} (h : ∀ v ∈ vs, v.Readable) :
    readAllText (Value.lines vs) = .ok vs := by
  induction vs with
  | nil => exact readAllText_empty
  | cons v vs ih =>
    obtain ⟨hv, hvs⟩ := List.forall_mem_cons.mp h
    rw [Value.lines_cons]
    exact hv.readAllText_line (ih hvs)

theorem readAllText_intercalate {vs : List Value} (h : ∀ v ∈ vs, v.Readable) :
    readAllText ("\n".intercalate (vs.map Value.render)) = .ok vs := by
  induction vs with
  | nil => exact readAllText_empty
  | cons v vs ih =>
    obtain ⟨hv, hvs⟩ := List.forall_mem_cons.mp h
    cases vs with
    | nil =>
      rw [List.map_singleton, String.intercalate_singleton]
      exact hv.readAllText_render
    | cons w ws =>
      rw [List.map_cons, List.map_cons, String.intercalate_cons_cons, ← List.map_cons]
      exact hv.readAllText_line (ih hvs)

/-- A text that was read has a canonical form, in which each value stands on one line and is read
from it. Canonical texts are their own canonical form. -/
theorem normalize_of_readAllText {text : String} {vs : List Value}
    (h : readAllText text = .ok vs) :
    (∀ v ∈ vs, '\n' ∉ v.render.toList ∧ '\r' ∉ v.render.toList ∧ '\t' ∉ v.render.toList ∧
      readText v.render = .ok v) ∧
    readAllText ("\n".intercalate (vs.map Value.render)) = .ok vs ∧
    readAllText (Value.lines vs) = .ok vs ∧
    normalize text = .ok (Value.lines vs) ∧
    normalize (Value.lines vs) = .ok (Value.lines vs) := by
  have hvs := readable_of_readAllText h
  have hlines := readAllText_valueLines hvs
  refine ⟨fun v hv => ?_, readAllText_intercalate hvs, hlines, ?_, ?_⟩
  · have hr := hvs v hv
    exact ⟨Value.not_mem_render hr rfl (by decide), Value.not_mem_render hr rfl (by decide),
      Value.not_mem_render hr rfl (by decide), hr.readText_render⟩
  · rw [normalize, h]
    rfl
  · rw [normalize, hlines]
    rfl

/-- Here a name grows in upper case, a comment is dropped, and a literal has a line feed as a code
and a tab as it is. -/
theorem normalize_of_readAllText_escapes :
    let vs : List Value := [.symbol ⟨"STRASSE"⟩, .list [.string "\n\t"]]
    readAllText "straße ; note\n(\"\\x0A\t\")" = .ok vs ∧
      (∀ v ∈ vs, readText v.render = .ok v) ∧
      normalize "straße ; note\n(\"\\x0A\t\")" = .ok "STRASSE\n(\"\\n\\t\")\n" ∧
      normalize "STRASSE\n(\"\\n\\t\")\n" = .ok "STRASSE\n(\"\\n\\t\")\n" := by
  intro vs
  have hread : readAllText "straße ; note\n(\"\\x0A\t\")" = .ok vs := by with_unfolding_all rfl
  have hlines : Value.lines vs = "STRASSE\n(\"\\n\\t\")\n" := by decide +kernel
  obtain ⟨hvalues, -, -, hfirst, hagain⟩ := normalize_of_readAllText hread
  rw [hlines] at hfirst hagain
  exact ⟨hread, fun v hv => (hvalues v hv).2.2.2, hfirst, hagain⟩

end Sexp
