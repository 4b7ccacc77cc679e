import Sexp.Proofs.Outcomes
import Sexp.Source.Steps

/-!
# Readers in use

The operations of a reader may be called in any order. Whatever the order is, the reader only goes
forward in its text, and the values and errors that the calls give are accounted for: up to the
first error they are what draining a fresh reader gives, and what is still to come is what draining
gives now. One call preserves this (`Effect.accounts`), and so does every sequence of calls
(`accounts_yields`). A reader at its end stays there, and a reader in front of a closing parenthesis
that matches nothing stays there as long as it is only asked to read or to finish.
-/

namespace Sexp

/-- A source of the items `whole` has given the items `given` and has the items `left` to give. The
source ends with its first error, so whatever is given after an error does not count. -/
def Accounts {ε α : Type} : (given left whole : List (Except ε α)) → Prop
  | [], left, whole => whole = left
  | .ok v :: given, left, whole => ∃ others, whole = .ok v :: others ∧ Accounts given left others
  | .error e :: _, _, whole => whole = [.error e]

namespace Accounts

variable {ε α : Type} {left whole : List (Except ε α)}

theorem trans {first second middle : List (Except ε α)} (h : Accounts first middle whole)
    (h' : Accounts second left middle) : Accounts (first ++ second) left whole := by
  induction first generalizing whole with
  | nil => rwa [show whole = middle from h]
  | cons item first ih =>
    cases item with
    | error e => exact h
    | ok v =>
      obtain ⟨others, hw, ho⟩ := h
      exact ⟨others, hw, ih ho⟩

theorem eq_of_values {vs : List α} (h : Accounts (vs.map .ok) left whole) :
    whole = vs.map .ok ++ left := by
  induction vs generalizing whole with
  | nil => exact h
  | cons v vs ih =>
    obtain ⟨others, rfl, ho⟩ := h
    exact congrArg (_ :: ·) (ih ho)

theorem eq_of_error {vs : List α} {e : ε} {more : List (Except ε α)}
    (h : Accounts (vs.map .ok ++ .error e :: more) left whole) :
    whole = vs.map .ok ++ [.error e] := by
  induction vs generalizing whole with
  | nil => exact h
  | cons v vs ih =>
    obtain ⟨others, rfl, ho⟩ := h
    exact congrArg (_ :: ·) (ih ho)

end Accounts

namespace Reader

open Source

def after (r : Reader) (steps : List Step) : Reader :=
  steps.foldl (fun s step => (s.perform step).2) r

def Step.yield : Step → Answer → List (Except ReadError Value)
  | .finish, _ => []
  | _, .value v => [.ok v]
  | _, .failed e => [.error e]
  | _, .items items => items
  | _, _ => []

def yields (r : Reader) (steps : List Step) : List (Except ReadError Value) :=
  (steps.zip (r.run steps)).flatMap fun (step, answer, _) => step.yield answer

theorem yields_cons (r : Reader) (step : Step) (steps : List Step) :
    r.yields (step :: steps) =
      step.yield (r.perform step).1 ++ (r.perform step).2.yields steps := rfl

theorem run_append (r : Reader) (steps later : List Step) :
    r.run (steps ++ later) = r.run steps ++ (r.after steps).run later := by
  induction steps generalizing r with
  | nil => rfl
  | cons step steps ih => exact congrArg (_ :: ·) (ih (r.perform step).2)

inductive Effect (r : Reader) : Step → Answer × Reader → Prop where
  | value {step : Step} {v : Value} {s : Reader} : step = .read ∨ step = .next →
      r.read = (.ok (some v), s) → Effect r step (.value v, s)
  | atEnd {step : Step} : step = .read ∨ step = .next → r.read = (.ok none, r.toEnd) →
      Effect r step (.atEnd, r.toEnd)
  | readFailed {e : ReadError} {s : Reader} : r.read = (.error e, s) →
      Effect r .read (.failed e, s)
  | nextFailed {e : ReadError} {s : Reader} : r.read = (.error e, s) →
      Effect r .next (.failed e, s.toEnd)
  | finished : IsLayout r.rest [] → Effect r .finish (.finished, r.toEnd)
  | trailing {gap rest : List Char} {c : Char} : r.rest = gap ++ c :: rest →
      IsLayout gap (c :: rest) → isBlank c = false → c ≠ ';' →
      Effect r .finish (.failed ⟨.trailingContent, r.position + gap.length⟩,
        ⟨r.position + gap.length, c :: rest⟩)
  | drained : Effect r .drain (.items r.drain.1, r.drain.2)

theorem read_none {r s : Reader} (h : r.read = (.ok none, s)) : s = r.toEnd := by
  have ho := r.outcome
  rw [h] at ho
  cases ho with
  | atEnd _ => rfl

theorem effect_finish (r : Reader) : Effect r .finish (r.perform .finish) := by
  obtain ⟨p, text⟩ := r
  obtain ⟨gap, rest, rfl, hg, hw⟩ := exists_layout text
  rw [perform, finish, skipLayout_of_layout hg, skipLayout_of_width hw]
  cases rest with
  | nil =>
    have hf : Effect ⟨p, gap⟩ .finish (.finished, Reader.toEnd ⟨p, gap⟩) := .finished hg
    rw [toEnd_eq] at hf
    rw [List.append_nil]
    exact hf
  | cons c rest =>
    obtain ⟨hb, hc⟩ := (layoutWidth_cons_eq_zero_iff c rest).mp hw
    exact .trailing rfl hg hb hc

theorem effect (r : Reader) (step : Step) : Effect r step (r.perform step) := by
  cases step with
  | finish => exact r.effect_finish
  | drain => exact .drained
  | read =>
    rw [perform]
    rcases h : r.read with ⟨e | _ | v, s⟩
    · exact .readFailed h
    · obtain rfl := read_none h
      exact .atEnd (.inl rfl) h
    · exact .value (.inl rfl) h
  | next =>
    rw [perform, next]
    rcases h : r.read with ⟨e | _ | v, s⟩
    · exact .nextFailed h
    · obtain rfl := read_none h
      exact .atEnd (.inr rfl) h
    · exact .value (.inr rfl) h

theorem next_ahead (r : Reader) : r.Ahead r.next.2 := by
  unfold next
  split
  · next s h => exact read_ahead h
  · next v s h => exact read_ahead h
  · next e s h => exact (read_ahead h).trans s.toEnd_ahead

theorem drain_ahead (r : Reader) : r.Ahead r.drain.2 := by
  fun_induction drain r with
  | case1 r s h =>
    have hs := r.next_ahead
    rwa [h] at hs
  | case2 r item s h items last hd ih =>
    have hs := r.next_ahead
    rw [h] at hs
    rw [hd] at ih
    exact hs.trans ih

theorem Effect.ahead {r s : Reader} {step : Step} {answer : Answer}
    (h : Effect r step (answer, s)) : r.Ahead s := by
  cases h with
  | value _ h => exact read_ahead h
  | atEnd _ _ => exact r.toEnd_ahead
  | readFailed h => exact read_ahead h
  | nextFailed h => exact (read_ahead h).trans (toEnd_ahead _)
  | finished _ => exact r.toEnd_ahead
  | @trailing gap rest c hr _ _ _ => exact ⟨gap, hr, rfl⟩
  | drained => exact r.drain_ahead

theorem after_ahead (r : Reader) (steps : List Step) : r.Ahead (r.after steps) := by
  induction steps generalizing r with
  | nil => exact .refl r
  | cons step steps ih => exact (r.effect step).ahead.trans (ih _)

theorem Ahead.eq_of_rest_nil {r s : Reader} (h : r.Ahead s) (hr : r.rest = []) : s = r := by
  obtain ⟨p, text⟩ := r
  obtain ⟨q, rest⟩ := s
  obtain ⟨passed, ht, hp⟩ := h
  obtain ⟨rfl, rfl⟩ : passed = [] ∧ rest = [] := List.append_eq_nil_iff.mp (ht.symm.trans hr)
  simp_all

theorem perform_of_rest_nil {r : Reader} (h : r.rest = []) :
    (r.perform .read).1 = .atEnd ∧ (r.perform .next).1 = .atEnd ∧
      (r.perform .finish).1 = .finished := by
  have hread := read_of_rest_nil h
  have hnext := (next_eq_none_iff _ _).mpr hread
  have hfinish : r.finish.1 = .ok () := (finish_eq_ok_iff r).mpr (by rw [h]; exact .none)
  refine ⟨?_, ?_, ?_⟩
  · simp only [perform, hread, Answer.ofRead]
  · simp only [perform, hnext, Answer.ofNext]
  · simp only [perform, hfinish, Answer.ofFinish]

theorem Effect.position_lt {r s : Reader} {step : Step} {v : Value}
    (h : Effect r step (.value v, s)) : r.position < s.position := by
  cases h with
  | value _ hread =>
    have hlen := read_length_lt hread
    have hpos := (read_ahead hread).position_add_length
    omega

theorem Effect.rest_of_atEnd {r s : Reader} {step : Step} (h : Effect r step (.atEnd, s)) :
    s.rest = [] := by
  cases h with
  | atEnd _ _ => exact r.rest_toEnd

theorem Effect.rest_of_nextFailed {r s : Reader} {e : ReadError}
    (h : Effect r .next (.failed e, s)) : s.rest = [] := by
  cases h with
  | nextFailed _ => exact rest_toEnd _

theorem rest_drain (r : Reader) : r.drain.2.rest = [] := by
  fun_induction drain r with
  | case1 r s h =>
    rw [read_none ((next_eq_none_iff r s).mp h)]
    exact r.rest_toEnd
  | case2 r item s h items last hd ih =>
    rwa [hd] at ih

theorem accounts_drain (r : Reader) : Accounts r.drain.1 [] r.drain.1 := by
  induction r using reads_induction with
  | atEnd r s h =>
    rw [drain_of_none h]
    rfl
  | value r v s h ih =>
    rw [drain_of_value h]
    exact ⟨s.drain.1, rfl, ih⟩
  | error r e s h =>
    rw [drain_of_error h]
    rfl

theorem Effect.accounts {r s : Reader} {step : Step} {answer : Answer}
    (h : Effect r step (answer, s)) : Accounts (step.yield answer) s.drain.1 r.drain.1 := by
  cases h with
  | @value _ v _ hstep h =>
    have hy : step.yield (.value v) = [.ok v] := by rcases hstep with rfl | rfl <;> rfl
    rw [hy, drain_of_value h]
    exact ⟨s.drain.1, rfl, rfl⟩
  | atEnd hstep h =>
    have hy : step.yield .atEnd = [] := by rcases hstep with rfl | rfl <;> rfl
    rw [hy, drain_of_none h, drain_of_none (read_of_rest_nil r.rest_toEnd)]
    rfl
  | readFailed h => exact drain_of_error h
  | nextFailed h => exact drain_of_error h
  | finished hg =>
    rw [toEnd_eq]
    exact congrArg Prod.fst (drain_congr (read_of_skipped (List.append_nil _).symm hg))
  | @trailing gap rest c hr hg _ _ =>
    exact congrArg Prod.fst (drain_congr (read_of_skipped hr hg))
  | drained =>
    rw [drain_of_none (read_of_rest_nil (rest_drain r))]
    exact r.accounts_drain

theorem accounts_yields (r : Reader) (steps : List Step) :
    Accounts (r.yields steps) (r.after steps).drain.1 r.drain.1 := by
  induction steps generalizing r with
  | nil => rfl
  | cons step steps ih =>
    rw [yields_cons]
    exact (r.effect step).accounts.trans (ih _)

theorem after_of_rest_nil {r : Reader} (h : r.rest = []) (steps : List Step) : r.after steps = r :=
  (r.after_ahead steps).eq_of_rest_nil h

theorem eq_atOffset_of_ahead {text : List Char} {r : Reader} (h : (ofChars text).Ahead r) :
    r = atOffset text r.position ∧ r.position ≤ text.length := by
  obtain ⟨p, rest⟩ := r
  obtain ⟨passed, ht, hp⟩ := h
  obtain rfl : text = passed ++ rest := ht
  obtain rfl : p = passed.length := by simpa [ofChars] using hp
  exact ⟨(atOffset_length passed rest).symm, by simp⟩

theorem effect_of_answer {r : Reader} {step : Step} {answer : Answer}
    (h : (r.perform step).1 = answer) : Effect r step (answer, (r.perform step).2) := by
  rw [← h]
  exact r.effect step

theorem Effect.passes {r s : Reader} {answer : Answer} (h : Effect r .finish (answer, s)) :
    ∃ gap rest, r.rest = gap ++ rest ∧ IsLayout gap rest ∧ s = ⟨r.position + gap.length, rest⟩ ∧
      (rest = [] ∧ answer = .finished ∨
        ∃ c, rest.head? = some c ∧ isBlank c = false ∧ c ≠ ';' ∧
          answer = .failed ⟨.trailingContent, r.position + gap.length⟩) := by
  cases h with
  | value hstep _ => simp at hstep
  | atEnd hstep _ => simp at hstep
  | finished hg =>
    exact ⟨r.rest, [], (List.append_nil _).symm, hg, r.toEnd_eq, .inl ⟨rfl, rfl⟩⟩
  | @trailing gap rest c hr hg hb hc =>
    exact ⟨gap, c :: rest, hr, hg, rfl, .inr ⟨c, rfl, hb, hc, rfl⟩⟩

theorem Effect.stays {r s : Reader} {e : ReadError} (h : Effect r .read (.failed e, s)) :
    (e.kind = .missingOpenParen ∧ s.perform .read = (.failed e, s) ∧ (s.perform .finish).2 = s) ∨
      ((e.kind = .missingCloseParen ∨ e.kind = .unterminatedString) ∧ s.rest = []) := by
  cases h with
  | readFailed hread =>
    have ho := r.outcome
    rw [hread] at ho
    cases ho with
    | @unmatched gap rest _ _ =>
      left
      have hagain := read_of_unmatched (IsLayout.none : IsLayout [] (')' :: rest))
        (r.position + gap.length)
      refine ⟨rfl, ?_, skipLayout_of_width rfl _⟩
      simp only [List.nil_append, List.length_nil, Nat.add_zero] at hagain
      simp only [perform, hagain, Answer.ofRead]
    | incomplete hk => exact .inr ⟨hk, r.rest_toEnd⟩

theorem after_of_stays {s : Reader} {e : ReadError} {later : List Step}
    (hread : s.perform .read = (.failed e, s)) (hfinish : (s.perform .finish).2 = s)
    (hlater : ∀ step ∈ later, step = .read ∨ step = .finish) : s.after later = s := by
  induction later with
  | nil => rfl
  | cons step later ih =>
    obtain ⟨hstep, hlater⟩ := List.forall_mem_cons.mp hlater
    have hs : (s.perform step).2 = s := by
      rcases hstep with rfl | rfl
      · rw [hread]
      · exact hfinish
    show (s.perform step).2.after later = s
    rw [hs, ih hlater]

/-- A reader in use. The calls made so far are `steps`, in any order, and `r` is the reader that
they lead to. -/
theorem calls_in_any_order (text : List Char) (steps : List Step) :
    let fresh := Reader.ofChars text
    let r := fresh.after steps
    -- The next call is answered by `r`.
    (∀ step, fresh.run (steps ++ [step]) =
      fresh.run steps ++ [((r.perform step).1, (r.perform step).2.position)]) ∧
    -- The reader goes forward in its text, and every value takes it further.
    (r = atOffset text r.position ∧ r.position ≤ text.length) ∧
    (∀ step, r.position ≤ (r.perform step).2.position) ∧
    (∀ step v, (r.perform step).1 = .value v → r.position < (r.perform step).2.position) ∧
    -- Finishing passes layout only, up to the end or to a character that is none.
    (∃ gap rest, r.rest = gap ++ rest ∧ IsLayout gap rest ∧
      (r.perform .finish).2 = ⟨r.position + gap.length, rest⟩ ∧
      (rest = [] ∧ (r.perform .finish).1 = .finished ∨
        ∃ c, rest.head? = some c ∧ isBlank c = false ∧ c ≠ ';' ∧
          (r.perform .finish).1 = .failed ⟨.trailingContent, r.position + gap.length⟩)) ∧
    -- Up to the first error, the calls give what draining gives.
    (∀ vs : List Value, fresh.yields steps = vs.map .ok → fresh.drain.1 = vs.map .ok ++ r.drain.1) ∧
    (∀ (vs : List Value) e more, fresh.yields steps = vs.map .ok ++ .error e :: more →
      fresh.drain.1 = vs.map .ok ++ [.error e]) ∧
    -- The end is final, and `next` goes there after an error.
    (∀ step, (r.perform step).1 = .atEnd ∨ (step = .next ∧ ∃ e, (r.perform step).1 = .failed e) →
      ∀ later, let s := (r.perform step).2.after later
        (s.perform .read).1 = .atEnd ∧ (s.perform .next).1 = .atEnd ∧
          (s.perform .finish).1 = .finished) ∧
    -- A read that failed fails again until the reader is moved on, or it has reached the end.
    (∀ e, (r.perform .read).1 = .failed e →
      (e.kind = .missingOpenParen ∧
        ∀ later, (∀ step ∈ later, step = .read ∨ step = .finish) →
          (((r.perform .read).2.after later).perform .read).1 = .failed e) ∨
      ((e.kind = .missingCloseParen ∨ e.kind = .unterminatedString) ∧
        ∀ later, (((r.perform .read).2.after later).perform .read).1 = .atEnd)) := by
  intro fresh r
  have haccounts := fresh.accounts_yields steps
  refine ⟨?_, ?_, ?_, ?_, ?_, ?_, ?_, ?_, ?_⟩
  · intro step
    rw [run_append]
    rfl
  · exact eq_atOffset_of_ahead (fresh.after_ahead steps)
  · intro step
    exact (r.effect step).ahead.position_le
  · intro step v hv
    exact (effect_of_answer hv).position_lt
  · exact r.effect_finish.passes
  · intro vs hvs
    rw [hvs] at haccounts
    exact haccounts.eq_of_values
  · intro vs e more hvs
    rw [hvs] at haccounts
    exact haccounts.eq_of_error
  · intro step hstep later
    have hrest : (r.perform step).2.rest = [] := by
      rcases hstep with hend | ⟨rfl, e, he⟩
      · exact (effect_of_answer hend).rest_of_atEnd
      · exact (effect_of_answer he).rest_of_nextFailed
    rw [after_of_rest_nil hrest]
    exact perform_of_rest_nil hrest
  · intro e he
    rcases (effect_of_answer he).stays with ⟨hk, hread, hfinish⟩ | ⟨hk, hrest⟩
    · refine .inl ⟨hk, fun later hlater => ?_⟩
      rw [after_of_stays hread hfinish hlater, hread]
    · refine .inr ⟨hk, fun later => ?_⟩
      rw [after_of_rest_nil hrest]
      exact (perform_of_rest_nil hrest).1

end Reader

end Sexp
