import Sexp.Source.Reader

/-!
# Runs of a reader

Draining a reader asks for values until nothing is left. Each value takes at least one character
and nothing follows an error, so this comes to an end.

A reader may be used through its operations in any order. A run performs a sequence of them and
keeps each answer together with the position that the reader has afterwards.
-/

namespace Sexp

namespace Reader

open Source

theorem readWithin_length_lt {lists : Nesting} {r : Reader} {v : Value}
    (h : (readWithin lists r).1 = .ok (some v)) :
    (readWithin lists r).2.rest.length < r.rest.length := by
  fun_induction readWithin lists r with
  | case1 | case2 | case3 => simp at h
  | case4 lists r t ht w hw => exact advance_length_lt ht
  | case5 lists r t ht inner hi ih => exact Nat.lt_trans (ih h) (advance_length_lt ht)
  | case6 => simp at h

theorem read_length_lt {r s : Reader} {v : Value} (h : r.read = (.ok (some v), s)) :
    s.rest.length < r.rest.length := by
  rw [read] at h
  simpa [h] using readWithin_length_lt (congrArg Prod.fst h)

theorem read_of_rest_nil {r : Reader} (h : r.rest = []) : r.read = (.ok none, r.skipLayout) := by
  have : r.skipLayout.rest = [] := by simp [skipLayout, h]
  unfold read readWithin
  split <;> simp_all

theorem next_length_lt {r s : Reader} {item : Except ReadError Value}
    (h : r.next = (some item, s)) : s.rest.length < r.rest.length := by
  have hne : r.rest ≠ [] := by
    intro hr
    simp [next, read_of_rest_nil hr] at h
  unfold next at h
  split at h
  · simp at h
  · rename_i v t hv
    obtain ⟨-, rfl⟩ := Prod.mk.inj h
    exact read_length_lt hv
  · rename_i e t hv
    obtain ⟨-, rfl⟩ := Prod.mk.inj h
    simpa using List.length_pos_iff.mpr hne

def drain (r : Reader) : List (Except ReadError Value) × Reader :=
  match _ : r.next with
  | (none, r) => ([], r)
  | (some item, r) =>
    let (items, last) := r.drain
    (item :: items, last)
termination_by r.rest.length
decreasing_by exact next_length_lt ‹_›

def readAll (r : Reader) : Except ReadError (List Value) := r.drain.1.mapM id

inductive Step where
  | read
  | next
  | finish
  | drain
  deriving DecidableEq

inductive Answer where
  | value (v : Value)
  | atEnd
  | finished
  | items (items : List (Except ReadError Value))
  | failed (e : ReadError)

def Answer.ofRead : Except ReadError (Option Value) → Answer
  | .ok none => .atEnd
  | .ok (some v) => .value v
  | .error e => .failed e

def Answer.ofNext : Option (Except ReadError Value) → Answer
  | none => .atEnd
  | some (.ok v) => .value v
  | some (.error e) => .failed e

def Answer.ofFinish : Except ReadError Unit → Answer
  | .ok () => .finished
  | .error e => .failed e

def perform (r : Reader) : Step → Answer × Reader
  | .read => (.ofRead r.read.1, r.read.2)
  | .next => (.ofNext r.next.1, r.next.2)
  | .finish => (.ofFinish r.finish.1, r.finish.2)
  | .drain => (.items r.drain.1, r.drain.2)

def run (r : Reader) : List Step → List (Answer × Nat)
  | [] => []
  | step :: steps =>
    let (answer, r) := r.perform step
    (answer, r.position) :: r.run steps

end Reader

def readAllText (text : String) : Except ReadError (List Value) := (Reader.ofText text).readAll

end Sexp
