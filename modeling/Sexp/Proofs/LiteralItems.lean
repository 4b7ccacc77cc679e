import Sexp.Value.Printer

/-!
# The items of a literal

The characters between the quotes of a literal are cut into items in one way only. A sequence of
items is well formed if no item could have been cut differently: a plain character neither ends the
literal nor escapes, and a code with too few digits is not followed by a digit. These sequences are
exactly what the cutting gives, and their spellings are exactly the bodies of literals.

What an item stands for is laid down by its kind (`Item.StandsFor`), and a sequence of items means
the texts of its items one after the other (`Means`). Decoding gives this text, and the items that
are used for writing a text mean it.
-/

namespace Sexp.Literal

/-- The run of characters with property `p` in front of `rest` cannot be continued. -/
def EndsRun (p : Char → Bool) (rest : List Char) : Prop := ∀ c ∈ rest.head?, p c = false

theorem takeWhile_append_of_endsRun {p : Char → Bool} {run rest : List Char}
    (h : ∀ c ∈ run, p c = true) (hr : EndsRun p rest) : (run ++ rest).takeWhile p = run := by
  rw [List.takeWhile_append_of_pos h]
  cases rest with
  | nil => simp
  | cons c rest =>
    have hc : p c = false := hr c (by simp)
    simp [hc]

theorem endsRun_dropWhile (p : Char → Bool) (cs : List Char) : EndsRun p (cs.dropWhile p) := by
  intro c hc
  have h := List.head?_dropWhile_not p cs
  rw [Option.mem_def.mp hc] at h
  simpa using h

def spelling (items : List Item) : List Char := items.flatMap Item.spelling

@[simp] theorem spelling_nil : spelling [] = [] := rfl

@[simp] theorem spelling_cons (item : Item) (items : List Item) :
    spelling (item :: items) = item.spelling ++ spelling items := by
  simp [spelling]

/-- The item is read as it stands when the characters `next` follow it in the literal. -/
def Item.Fits (next : List Char) : Item → Prop
  | plain c => c ≠ '"' ∧ c ≠ '\\'
  | escape c => ∀ form : CodeForm, c ≠ form.letter
  | code form digits => (∀ d ∈ digits, isHexDigit d = true) ∧
      (digits.length = form.width ∨ digits.length < form.width ∧ EndsRun isHexDigit next)

def WellFormed : List Item → Prop
  | [] => True
  | item :: items => item.Fits (spelling items) ∧ WellFormed items

theorem ofLetter?_eq_none_iff (c : Char) :
    CodeForm.ofLetter? c = none ↔ ∀ form : CodeForm, c ≠ form.letter := by
  rw [Option.eq_none_iff_forall_ne_some]
  constructor
  · intro h form hc
    exact h form ((CodeForm.ofLetter?_eq_some_iff c form).mpr hc)
  · intro h form hc
    exact h form ((CodeForm.ofLetter?_eq_some_iff c form).mp hc)

theorem isHexDigit_ne {c : Char} (h : isHexDigit c = true) : c ≠ '"' ∧ c ≠ '\\' := by
  constructor
  · intro hc
    rw [hc] at h
    exact absurd h (by decide)
  · intro hc
    rw [hc] at h
    exact absurd h (by decide)

theorem body?_plain {c : Char} (h : c ≠ '"' ∧ c ≠ '\\') (cs : List Char) :
    body? (c :: cs) = (body? cs).map (c :: ·) := by
  apply body?.eq_5
  · intro hc
    exact absurd hc h.2
  · exact h.1
  · intro _ _ hc
    exact absurd hc h.2

theorem body?_digits {digits : List Char} (h : ∀ d ∈ digits, isHexDigit d = true)
    (cs : List Char) : body? (digits ++ cs) = (body? cs).map (digits ++ ·) := by
  induction digits with
  | nil => simp
  | cons d digits ih =>
    have hd := isHexDigit_ne (h d (by simp))
    rw [List.cons_append, body?_plain hd, ih fun e he => h e (by simp [he]), Option.map_map]
    rfl

theorem body?_item {item : Item} {next : List Char} (h : item.Fits next) (cs : List Char) :
    body? (item.spelling ++ cs) = (body? cs).map (item.spelling ++ ·) := by
  cases item with
  | plain c => exact body?_plain h cs
  | escape c => rfl
  | code form digits =>
    have hd := body?_digits h.1 cs
    show (body? (digits ++ cs)).map _ = _
    rw [hd, Option.map_map]
    rfl

theorem body?_spelling {items : List Item} (h : WellFormed items) (rest : List Char) :
    body? (spelling items ++ '"' :: rest) = some (spelling items) := by
  induction items with
  | nil => rfl
  | cons item items ih =>
    rw [spelling_cons, List.append_assoc, body?_item h.1, ih h.2]
    rfl

theorem digits_of_fits {form : CodeForm} {digits next : List Char}
    (h : (Item.code form digits).Fits next) :
    ((digits ++ next).take form.width).takeWhile isHexDigit = digits := by
  rcases h.2 with hw | ⟨hw, hn⟩
  · have hself := takeWhile_append_of_endsRun h.1 (by simp [EndsRun] : EndsRun isHexDigit [])
    rw [List.append_nil] at hself
    rw [← hw, List.take_left, hself]
  · rw [List.take_append, List.take_of_length_le (Nat.le_of_lt hw)]
    apply takeWhile_append_of_endsRun h.1
    intro c hc
    have hpos : form.width - digits.length ≠ 0 := by omega
    rw [List.head?_take, if_neg hpos] at hc
    exact hn c hc

theorem items_cons {item : Item} {items : List Item} (h : item.Fits (spelling items)) :
    Literal.items (item.spelling ++ spelling items) = item :: Literal.items (spelling items) := by
  cases item with
  | plain c =>
    apply Literal.items.eq_3
    intro _ _ hc
    exact absurd hc h.2
  | escape c =>
    show Literal.items ('\\' :: c :: spelling items) = _
    rw [Literal.items.eq_2, (ofLetter?_eq_none_iff c).mpr h]
  | code form digits =>
    show Literal.items ('\\' :: form.letter :: (digits ++ spelling items)) = _
    rw [Literal.items.eq_2, (CodeForm.ofLetter?_eq_some_iff _ form).mpr rfl]
    simp only [digits_of_fits h, List.drop_left]

theorem items_spelling {items : List Item} (h : WellFormed items) :
    Literal.items (spelling items) = items := by
  induction items with
  | nil => simp [Literal.items]
  | cons item items ih => rw [spelling_cons, items_cons h.1, ih h.2]

def codeDigits (form : CodeForm) (cs : List Char) : List Char :=
  (cs.take form.width).takeWhile isHexDigit

theorem codeDigits_append_drop (form : CodeForm) (cs : List Char) :
    codeDigits form cs ++ cs.drop (codeDigits form cs).length = cs := by
  obtain ⟨more, hm⟩ := (List.takeWhile_prefix isHexDigit).trans (List.take_prefix form.width cs)
  have hd : codeDigits form cs ++ more = cs := hm
  generalize codeDigits form cs = digits at hd
  rw [← hd, List.drop_left]

theorem spelling_items (cs : List Char) : spelling (items cs) = cs := by
  fun_induction items cs with
  | case1 => rfl
  | case2 c cs _ ih => rw [spelling_cons, ih]; rfl
  | case3 c cs form hf digits ih =>
    have hc := (CodeForm.ofLetter?_eq_some_iff c form).mp hf
    have hd : digits ++ cs.drop digits.length = cs := codeDigits_append_drop form cs
    rw [spelling_cons, ih, hc]
    show '\\' :: form.letter :: (digits ++ cs.drop digits.length) = _
    rw [hd]
  | case4 c cs _ ih => rw [spelling_cons, ih]; rfl

theorem fits_codeDigits (form : CodeForm) (cs : List Char) :
    (Item.code form (codeDigits form cs)).Fits (cs.drop (codeDigits form cs).length) := by
  have hle : (codeDigits form cs).length ≤ form.width :=
    Nat.le_trans (List.takeWhile_prefix _).length_le (List.length_take_le _ _)
  refine ⟨fun d hd => List.all_eq_true.mp List.all_takeWhile d hd, ?_⟩
  rcases Nat.lt_or_eq_of_le hle with hlt | heq
  · refine .inr ⟨hlt, ?_⟩
    -- What follows the digits within the first `width` characters is what `dropWhile` leaves.
    have hrest : (cs.drop (codeDigits form cs).length).take
        (form.width - (codeDigits form cs).length) = (cs.take form.width).dropWhile isHexDigit := by
      have hsplit : codeDigits form cs ++ (cs.take form.width).dropWhile isHexDigit =
          cs.take form.width := List.takeWhile_append_dropWhile
      rw [← List.drop_take]
      generalize (cs.take form.width).dropWhile isHexDigit = rest at hsplit
      rw [← hsplit, List.drop_left]
    have hpos : form.width - (codeDigits form cs).length ≠ 0 := by omega
    intro c hc
    apply endsRun_dropWhile isHexDigit (cs.take form.width) c
    rw [← hrest, List.head?_take, if_neg hpos]
    exact hc
  · exact .inl heq

theorem body?_of_item {item : Item} {next cs : List Char} (hf : item.Fits next)
    (h : body? (item.spelling ++ cs ++ ['"']) = some (item.spelling ++ cs)) :
    body? (cs ++ ['"']) = some cs := by
  rw [List.append_assoc, body?_item hf] at h
  obtain ⟨body, hb, he⟩ := Option.map_eq_some_iff.mp h
  rw [hb, List.append_cancel_left he]

theorem wellFormed_items {body : List Char} (h : body? (body ++ ['"']) = some body) :
    WellFormed (items body) := by
  fun_induction items body with
  | case1 => trivial
  | case2 c cs hc ih =>
    have hf : (Item.escape c).Fits (spelling (items cs)) := (ofLetter?_eq_none_iff c).mp hc
    exact ⟨hf, ih (body?_of_item hf h)⟩
  | case3 c cs form hc digits ih =>
    have hf : (Item.code form digits).Fits (cs.drop digits.length) := fits_codeDigits form cs
    have hs : '\\' :: c :: cs = (Item.code form digits).spelling ++ cs.drop digits.length := by
      have hd : digits ++ cs.drop digits.length = cs := codeDigits_append_drop form cs
      show _ = '\\' :: form.letter :: (digits ++ cs.drop digits.length)
      rw [hd, (CodeForm.ofLetter?_eq_some_iff c form).mp hc]
    rw [hs] at h
    refine ⟨?_, ih (body?_of_item hf h)⟩
    rw [spelling_items]
    exact hf
  | case4 c cs hc ih =>
    have hq : c ≠ '"' := by
      intro hq
      rw [hq] at h
      simp [body?] at h
    have hb : c ≠ '\\' := by
      intro hb
      cases cs with
      | nil =>
        rw [hb] at h
        simp [body?] at h
      | cons d cs => exact hc d cs hb rfl
    have hf : (Item.plain c).Fits (spelling (items cs)) := ⟨hq, hb⟩
    exact ⟨hf, ih (body?_of_item hf h)⟩

theorem ne_backslash {c : Char} {cs : List Char} (hlast : c = '\\' → cs = [] → False)
    (hnext : ∀ d ds, c = '\\' → cs = d :: ds → False) : c ≠ '\\' := by
  intro hc
  cases cs with
  | nil => exact hlast hc rfl
  | cons d ds => exact hnext d ds hc rfl

theorem body?_append_quote {cs body : List Char} (h : body? cs = some body) (rest : List Char) :
    body? (body ++ '"' :: rest) = some body := by
  fun_induction body? cs generalizing body with
  | case1 | case2 => simp at h
  | case3 cs =>
    obtain rfl : [] = body := by simpa using h
    rfl
  | case4 c cs ih =>
    obtain ⟨b, hb, rfl⟩ := Option.map_eq_some_iff.mp h
    show (body? (b ++ '"' :: rest)).map _ = _
    rw [ih hb]
    rfl
  | case5 c cs h1 h2 h3 ih =>
    obtain ⟨b, hb, rfl⟩ := Option.map_eq_some_iff.mp h
    rw [List.cons_append, body?_plain ⟨h2, ne_backslash h1 h3⟩, ih hb]
    rfl

theorem body?_eq_some_iff (cs body : List Char) :
    body? cs = some body ↔
      ∃ items rest, WellFormed items ∧ body = spelling items ∧ cs = body ++ '"' :: rest := by
  constructor
  · intro h
    obtain ⟨rest, hrest⟩ := eq_append_of_body? h
    exact ⟨items body, rest, wellFormed_items (body?_append_quote h []),
      (spelling_items body).symm, hrest⟩
  · intro h
    obtain ⟨items, rest, hw, rfl, rfl⟩ := h
    exact body?_spelling hw rest

/-- What an item stands for. Surrogates and codes beyond the last character have the replacement
character, and a code with too few digits is no code. -/
inductive Item.StandsFor : Item → List Char → Prop where
  | plain {c : Char} : StandsFor (.plain c) [c]
  | tab : StandsFor (.escape 't') ['\t']
  | carriageReturn : StandsFor (.escape 'r') ['\r']
  | lineFeed : StandsFor (.escape 'n') ['\n']
  | itself {c : Char} : c ≠ 't' → c ≠ 'r' → c ≠ 'n' → StandsFor (.escape c) [c]
  | character {form : CodeForm} {digits : List Char} {c : Char} :
      digits.length = form.width → hexValue digits = c.toNat → StandsFor (.code form digits) [c]
  | replaced {form : CodeForm} {digits : List Char} : digits.length = form.width →
      0xD800 ≤ hexValue digits ∧ hexValue digits ≤ 0xDFFF ∨ 0x10FFFF < hexValue digits →
      StandsFor (.code form digits) ['\uFFFD']
  | verbatim {form : CodeForm} {digits : List Char} : digits.length < form.width →
      StandsFor (.code form digits) (form.letter :: digits)

inductive Means : List Item → (text : List Char) → Prop where
  | nil : Means [] []
  | cons {item : Item} {items : List Item} {part text : List Char} :
      item.StandsFor part → Means items text → Means (item :: items) (part ++ text)

theorem scalar_toNat (c : Char) : scalar c.toNat = c := by
  have hc : c.toNat.isValidChar := c.valid
  rw [scalar, if_pos hc, Char.ofNat_toNat]

theorem scalar_of_not_valid {n : Nat} (h : ¬n.isValidChar) : scalar n = '\uFFFD' := by
  rw [scalar, if_neg h]
  rfl

theorem toNat_scalar {n : Nat} (h : n.isValidChar) : (scalar n).toNat = n := by
  rw [scalar, if_pos h, Char.ofNat, dif_pos h]
  rfl

theorem Item.standsFor_escape_iff (c : Char) (part : List Char) :
    (Item.escape c).StandsFor part ↔ part = [escaped c] := by
  constructor
  · intro h
    cases h with
    | tab | carriageReturn | lineFeed => rfl
    | itself ht hr hn => rw [escaped, if_neg ht, if_neg hr, if_neg hn]
  · intro h
    rw [h]
    by_cases ht : c = 't'
    · rw [ht]
      exact .tab
    by_cases hr : c = 'r'
    · rw [hr]
      exact .carriageReturn
    by_cases hn : c = 'n'
    · rw [hn]
      exact .lineFeed
    rw [escaped, if_neg ht, if_neg hr, if_neg hn]
    exact .itself ht hr hn

theorem Item.standsFor_code_iff {form : CodeForm} {digits : List Char}
    (h : digits.length ≤ form.width) (part : List Char) :
    (Item.code form digits).StandsFor part ↔ part = (Item.code form digits).denotes := by
  constructor
  · intro hs
    cases hs with
    | character hw hc => rw [denotes, if_pos hw, hc, scalar_toNat]
    | replaced hw hc => rw [denotes, if_pos hw, scalar_of_not_valid (by omega)]
    | verbatim hw => rw [denotes, if_neg (by omega)]
  · intro hp
    rw [hp, denotes]
    by_cases hw : digits.length = form.width
    · rw [if_pos hw]
      by_cases hv : (hexValue digits).isValidChar
      · exact .character hw (toNat_scalar hv).symm
      · rw [scalar_of_not_valid hv]
        exact .replaced hw (by omega)
    · rw [if_neg hw]
      exact .verbatim (by omega)

theorem Item.Fits.length_le {form : CodeForm} {digits next : List Char}
    (h : (Item.code form digits).Fits next) : digits.length ≤ form.width := by
  have hw := h.2
  omega

theorem Item.standsFor_iff {item : Item} {next : List Char} (h : item.Fits next)
    (part : List Char) : item.StandsFor part ↔ part = item.denotes := by
  cases item with
  | plain c =>
    constructor
    · intro hs
      cases hs
      rfl
    · intro hp
      rw [hp]
      exact .plain
  | escape c => exact standsFor_escape_iff c part
  | code form digits => exact standsFor_code_iff h.length_le part

theorem means_iff_denotes {items : List Item} (h : WellFormed items) (text : List Char) :
    Means items text ↔ text = items.flatMap Item.denotes := by
  induction items generalizing text with
  | nil =>
    constructor
    · intro hm
      cases hm
      rfl
    · intro ht
      rw [ht]
      exact .nil
  | cons item items ih =>
    have hitem := Item.standsFor_iff h.1
    constructor
    · intro hm
      cases hm with
      | cons hs hm => rw [List.flatMap_cons, (hitem _).mp hs, (ih h.2 _).mp hm]
    · intro ht
      rw [ht, List.flatMap_cons]
      exact .cons ((hitem _).mpr rfl) ((ih h.2 _).mpr rfl)

theorem means_iff {items : List Item} (h : WellFormed items) (text : List Char) :
    Means items text ↔ text = decode (spelling items) := by
  rw [means_iff_denotes h, decode, items_spelling h]

theorem means_decode {items : List Item} (h : WellFormed items) :
    Means items (decode (spelling items)) :=
  (means_iff h _).mpr rfl

theorem encode_eq_spelling (text : List Char) : encode text = spelling (text.map Item.ofChar) := by
  simp [encode, spelling, List.flatMap_map]

theorem fits_ofChar (c : Char) (next : List Char) : (Item.ofChar c).Fits next := by
  unfold Item.ofChar
  split
  · exact (ofLetter?_eq_none_iff 't').mp rfl
  · split
    · exact (ofLetter?_eq_none_iff 'r').mp rfl
    · split
      · exact (ofLetter?_eq_none_iff 'n').mp rfl
      · split
        · next h =>
          apply (ofLetter?_eq_none_iff c).mp
          rcases h with rfl | rfl
          · rfl
          · rfl
        · next h => exact ⟨fun hq => h (.inr hq), fun hb => h (.inl hb)⟩

theorem wellFormed_map_ofChar (text : List Char) : WellFormed (text.map Item.ofChar) := by
  induction text with
  | nil => trivial
  | cons c text ih => exact ⟨fits_ofChar c _, ih⟩

theorem means_map_ofChar (text : List Char) : Means (text.map Item.ofChar) text := by
  induction text with
  | nil => exact .nil
  | cons c text ih =>
    have hc : (Item.ofChar c).StandsFor [c] :=
      (Item.standsFor_iff (fits_ofChar c []) [c]).mpr (Item.denotes_ofChar c).symm
    exact .cons hc ih

end Sexp.Literal
