import Sexp.Value.Basic

/-!
# Name pools

Names are stored once, in a table, and handles stand for them. Handles are compared instead of
names; this is sound because a name keeps its handle for ever and no two names share one. Names
are asked for exactly as written or, for symbols, in upper case.

How a table keeps its names is its own affair. A pool is the table that numbers them in the order
in which they come.
-/

namespace Sexp

inductive NameRequest where
  | written (text : String)
  | upperCase (text : String)

def NameRequest.name : NameRequest → String
  | .written text => text
  | .upperCase text => (Symbol.ofText text).name

/-- The operations of a table of names. A name that is not there yet is stored when its handle is
asked for; a handle need not have a name. -/
structure Interner (τ η : Type) where
  intern : τ → String → η × τ
  name? : τ → η → Option String

namespace Interner

variable {τ η α : Type} (I : Interner τ η)

def withName (t : τ) (h : η) (f : String → α) : α := f ((I.name? t h).getD "")

def resolve (t : τ) (h : η) : String := I.withName t h id

def ask (t : τ) (request : NameRequest) : η × τ := I.intern t request.name

def serve (t : τ) : List NameRequest → List η × τ
  | [] => ([], t)
  | request :: requests =>
    let (handle, t) := I.ask t request
    let (handles, t) := serve t requests
    (handle :: handles, t)

@[simp] theorem length_serve (t : τ) (requests : List NameRequest) :
    (I.serve t requests).1.length = requests.length := by
  induction requests generalizing t with
  | nil => rfl
  | cons request requests ih => simp [serve, ih]

end Interner

structure Handle where
  index : Nat
  deriving DecidableEq

structure Pool where
  names : List String
  distinct : names.Nodup

namespace Pool

def empty : Pool := ⟨[], .nil⟩

def intern (p : Pool) (name : String) : Handle × Pool :=
  if h : name ∈ p.names then (⟨p.names.idxOf name⟩, p)
  else
    have distinct : (p.names ++ [name]).Nodup := by
      simp only [List.nodup_append, p.distinct, List.mem_singleton]
      refine ⟨trivial, by simp, ?_⟩
      rintro a ha b rfl rfl
      exact h ha
    (⟨p.names.length⟩, ⟨p.names ++ [name], distinct⟩)

def interner : Interner Pool Handle where
  intern := intern
  name? p h := p.names[h.index]?

@[simp] theorem interner_intern (p : Pool) (name : String) :
    interner.intern p name = p.intern name := rfl

@[simp] theorem interner_name? (p : Pool) (h : Handle) :
    interner.name? p h = p.names[h.index]? := rfl

def resolve (p : Pool) (h : Handle) : String := interner.resolve p h

def serve (p : Pool) (requests : List NameRequest) : List Handle × Pool := interner.serve p requests

theorem intern_of_mem {p : Pool} {name : String} (h : name ∈ p.names) :
    p.intern name = (⟨p.names.idxOf name⟩, p) := by
  rw [intern, dif_pos h]

theorem handle_intern_of_not_mem {p : Pool} {name : String} (h : name ∉ p.names) :
    (p.intern name).1 = ⟨p.names.length⟩ := by
  rw [intern, dif_neg h]

theorem names_intern_of_not_mem {p : Pool} {name : String} (h : name ∉ p.names) :
    (p.intern name).2.names = p.names ++ [name] := by
  rw [intern, dif_neg h]

end Pool

end Sexp
