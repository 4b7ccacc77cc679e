import Sexp.Value.Basic

/-!
# Scopes

A table holds at most one value for each key. Inserting a key again replaces its value. The
entries stand in the order of their last insertion, the newest first; what a table means is given
by `get?` and by its list of keys.

A scope binds symbols to values and may stand inside other scopes, whose bindings it sees where it
has none of its own. Binding a symbol changes the innermost scope only. A scope that is made inside
another one sees that scope as it was at that time.

A workspace holds scopes under names of their own. Scopes are values: one that is made inside
another, or as its copy, is independent of what happens to the other afterwards.
-/

namespace Sexp

structure Table (κ α : Type) where
  entries : List (κ × α)
  distinct : (entries.map (·.1)).Nodup

namespace Table

variable {κ α : Type}

def empty : Table κ α := ⟨[], .nil⟩

def keys (t : Table κ α) : List κ := t.entries.map (·.1)

def size (t : Table κ α) : Nat := t.entries.length

theorem nodup_keys (t : Table κ α) : t.keys.Nodup := t.distinct

@[simp] theorem length_keys (t : Table κ α) : t.keys.length = t.size := by simp [keys, size]

variable [DecidableEq κ]

def get? (t : Table κ α) (k : κ) : Option α := (t.entries.find? (·.1 = k)).map (·.2)

def insert (t : Table κ α) (k : κ) (a : α) : Table κ α where
  entries := (k, a) :: t.entries.filter (·.1 ≠ k)
  distinct := by
    simp only [List.map_cons, List.nodup_cons]
    refine ⟨by simp, t.distinct.sublist (List.filter_sublist.map _)⟩

theorem get?_insert (t : Table κ α) (k j : κ) (a : α) :
    (t.insert k a).get? j = if j = k then some a else t.get? j := by
  by_cases h : j = k
  · simp [get?, insert, h]
  · have hne : (fun e : κ × α => !decide (e.1 = k) && decide (e.1 = j)) =
        fun e => decide (e.1 = j) := by
      funext e
      by_cases he : e.1 = j <;> simp [he, h]
    simp [get?, insert, List.find?_filter, h, Ne.symm h, hne]

theorem get?_isSome_iff (t : Table κ α) (k : κ) : (t.get? k).isSome = true ↔ k ∈ t.keys := by
  simp [get?, keys]

@[simp] theorem get?_insert_self (t : Table κ α) (k : κ) (a : α) :
    (t.insert k a).get? k = some a := by
  simp [get?_insert]

end Table

structure Scope where
  locals : Table Symbol Value
  ancestors : List (Table Symbol Value)

namespace Scope

def root : Scope := ⟨.empty, []⟩

def inside (parent : Scope) : Scope := ⟨.empty, parent.locals :: parent.ancestors⟩

def parent? (scope : Scope) : Option Scope :=
  match scope.ancestors with
  | [] => none
  | locals :: ancestors => some ⟨locals, ancestors⟩

def bind (scope : Scope) (s : Symbol) (v : Value) : Scope :=
  ⟨scope.locals.insert s v, scope.ancestors⟩

def lookupLocal (scope : Scope) (s : Symbol) : Option Value := scope.locals.get? s

def lookup (scope : Scope) (s : Symbol) : Option Value :=
  (scope.locals :: scope.ancestors).findSome? (·.get? s)

def contains (scope : Scope) (s : Symbol) : Bool := (scope.lookup s).isSome

def size (scope : Scope) : Nat := scope.locals.size

def depth (scope : Scope) : Nat := scope.ancestors.length

def symbols (scope : Scope) : List Symbol := scope.locals.keys

def names (scope : Scope) : List String :=
  (scope.symbols.map (·.name)).mergeSort fun a b => decide (a ≤ b)

def register (scope : Scope) (f : Form) : Scope := scope.bind (Symbol.ofText f.name) (.form f)

def registerAll (scope : Scope) (forms : List Form) : Scope := forms.foldl register scope

@[simp] theorem parent?_inside (parent : Scope) : parent.inside.parent? = some parent := rfl

@[simp] theorem lookup_inside (parent : Scope) (s : Symbol) :
    parent.inside.lookup s = parent.lookup s := rfl

theorem lookup_bind (scope : Scope) (s t : Symbol) (v : Value) :
    (scope.bind s v).lookup t = if t = s then some v else scope.lookup t := by
  by_cases h : t = s
  · simp [lookup, bind, h]
  · simp [lookup, bind, List.findSome?_cons, Table.get?_insert, h]

theorem lookupLocal_bind (scope : Scope) (s t : Symbol) (v : Value) :
    (scope.bind s v).lookupLocal t = if t = s then some v else scope.lookupLocal t := by
  simp [lookupLocal, bind, Table.get?_insert]

theorem lookup_eq (scope : Scope) (s : Symbol) :
    scope.lookup s = (scope.lookupLocal s).or (scope.parent?.bind (·.lookup s)) := by
  rcases scope with ⟨locals, ancestors⟩
  cases h : locals.get? s <;> cases ancestors <;>
    simp [lookup, lookupLocal, parent?, h]

end Scope

abbrev Workspace := Table String Scope

namespace Workspace

inductive Operation where
  | create (name : String)
  | nest (name parent : String)
  | copy (name source : String)
  | bind (name : String) (s : Symbol) (v : Value)

/-- Performs an operation, giving the local binding that was replaced, if one was. There is no
result if a scope is needed that does not exist. -/
def perform (w : Workspace) : Operation → Option (Option Value × Workspace)
  | .create name => some (none, w.insert name .root)
  | .nest name parent => (w.get? parent).map fun scope => (none, w.insert name scope.inside)
  | .copy name source => (w.get? source).map fun scope => (none, w.insert name scope)
  | .bind name s v =>
    (w.get? name).map fun scope => (scope.lookupLocal s, w.insert name (scope.bind s v))

def run (w : Workspace) : List Operation → Option Workspace
  | [] => some w
  | operation :: operations => (w.perform operation).bind fun (_, w) => w.run operations

end Workspace

end Sexp
