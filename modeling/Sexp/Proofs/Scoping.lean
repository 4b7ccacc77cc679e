import Sexp.Scope.Workspace

/-!
# Scopes and their history

What a scope answers is settled by the operations that were performed in its workspace. A symbol
has the value that it was last bound to in the scope itself, where a copy starts with the bindings
of its source. Failing that, it has the value that the parent gave it at the time when the scope
was made inside the parent; whatever happened to the parent afterwards does not matter. Operations
on other scopes change nothing.

Histories list the operations of a workspace, the latest one first. What they say of a scope is
read off the operations alone, without tables and without a chain of scopes.
-/

namespace Sexp.Workspace

namespace Operation

def target : Operation → String
  | create name | nest name _ | copy name _ | bind name _ _ => name

def needs : Operation → Option String
  | create _ => none
  | nest _ parent => some parent
  | copy _ source => some source
  | bind name _ _ => some name

end Operation

abbrev History := List Operation

namespace History

def names (history : History) : List String := history.map Operation.target

def Possible : History → Prop
  | [] => True
  | operation :: past => (∀ name ∈ operation.needs, name ∈ names past) ∧ Possible past

/-- The value that the symbol was last bound to in the scope itself, or in the source of the scope
before it was copied. -/
def latestBinding (s : Symbol) : History → String → Option Value
  | [], _ => none
  | .create new :: past, name => if name = new then none else latestBinding s past name
  | .nest new _ :: past, name => if name = new then none else latestBinding s past name
  | .copy new source :: past, name => latestBinding s past (if name = new then source else name)
  | .bind changed t v :: past, name =>
    if name = changed ∧ s = t then some v else latestBinding s past name

/-- The scope in which this one was made, and the history at that time. -/
def origin : History → String → Option (String × History)
  | [], _ => none
  | .create new :: past, name => if name = new then none else origin past name
  | .nest new parent :: past, name => if name = new then some (parent, past) else origin past name
  | .copy new source :: past, name => origin past (if name = new then source else name)
  | .bind _ _ _ :: past, name => origin past name

/-- The names that the scopes around this one had when each was entered, from the inside out. -/
def ancestors : History → String → List String
  | [], _ => []
  | .create new :: past, name => if name = new then [] else ancestors past name
  | .nest new parent :: past, name =>
    if name = new then parent :: ancestors past parent else ancestors past name
  | .copy new source :: past, name => ancestors past (if name = new then source else name)
  | .bind _ _ _ :: past, name => ancestors past name

def scopeAt (history : History) (name : String) : Option Scope :=
  (Workspace.run .empty history.reverse).bind (·.get? name)

/-- The answer of the parent at the time when the scope was made, if it was made inside one. -/
def inherited (s : Symbol) (history : History) (name : String) : Option Value :=
  (origin history name).bind fun (parent, past) => (scopeAt past parent).bind (·.lookup s)

end History

open History

theorem run_append (w : Workspace) (first later : List Operation) :
    w.run (first ++ later) = (w.run first).bind (·.run later) := by
  induction first generalizing w with
  | nil => rfl
  | cons operation first ih =>
    rw [List.cons_append, run, run]
    cases w.perform operation with
    | none => rfl
    | some step => exact ih step.2

theorem eq_insert_of_perform {w w' : Workspace} {operation : Operation} {reply : Option Value}
    (h : w.perform operation = some (reply, w')) :
    ∃ scope, w' = w.insert operation.target scope := by
  cases operation with
  | create new =>
    obtain ⟨-, rfl⟩ := Prod.mk.inj (Option.some.inj h)
    exact ⟨.root, rfl⟩
  | nest new source | copy new source | bind new s v =>
    obtain ⟨scope, -, he⟩ := Option.map_eq_some_iff.mp h
    obtain ⟨-, rfl⟩ := Prod.mk.inj he
    exact ⟨_, rfl⟩

theorem get?_of_run {w w' : Workspace} {later : List Operation} {name : String}
    (hne : ∀ operation ∈ later, operation.target ≠ name) (h : w.run later = some w') :
    w'.get? name = w.get? name := by
  induction later generalizing w with
  | nil =>
    obtain rfl := Option.some.inj h
    rfl
  | cons operation later ih =>
    obtain ⟨⟨reply, middle⟩, hp, hr⟩ := Option.bind_eq_some_iff.mp h
    obtain ⟨scope, rfl⟩ := eq_insert_of_perform hp
    have hn : name ≠ operation.target := Ne.symm (hne operation List.mem_cons_self)
    rw [ih (fun o ho => hne o (List.mem_cons_of_mem operation ho)) hr, Table.get?_insert,
      if_neg hn]

structure Agrees (history : History) (name : String) (scope : Scope) : Prop where
  lookupLocal : ∀ s, scope.lookupLocal s = latestBinding s history name
  parent : scope.parent? = (origin history name).bind fun (parent, past) => scopeAt past parent
  depth : scope.depth = (ancestors history name).length

namespace Agrees

variable {past : History} {name : String} {scope : Scope}

theorem lookup (h : Agrees past name scope) (s : Symbol) :
    scope.lookup s = (latestBinding s past name).or (inherited s past name) := by
  rw [Scope.lookup_eq, h.lookupLocal, h.parent, Option.bind_assoc]
  rfl

theorem keep {operation : Operation} (hne : name ≠ operation.target)
    (h : Agrees past name scope) : Agrees (operation :: past) name scope := by
  cases operation with
  | create new | nest new source | copy new source =>
    change name ≠ new at hne
    refine ⟨?_, ?_, ?_⟩
    · intro s
      simpa only [latestBinding, if_neg hne] using h.lookupLocal s
    · simpa only [origin, if_neg hne] using h.parent
    · simpa only [ancestors, if_neg hne] using h.depth
  | bind new s v =>
    change name ≠ new at hne
    refine ⟨?_, h.parent, h.depth⟩
    intro t
    simpa only [latestBinding, hne, false_and, if_false] using h.lookupLocal t

theorem create (past : History) (new : String) : Agrees (.create new :: past) new .root where
  lookupLocal s := by simp only [latestBinding, if_true]; rfl
  parent := by simp only [origin, if_true]; rfl
  depth := by simp only [ancestors, if_true]; rfl

theorem nest (h : Agrees past name scope) (hs : scopeAt past name = some scope) (new : String) :
    Agrees (.nest new name :: past) new scope.inside where
  lookupLocal s := by simp only [latestBinding, if_true]; rfl
  parent := by simp only [origin, if_true, Option.bind_some, hs, Scope.parent?_inside]
  depth := by simp only [ancestors, if_true, List.length_cons, ← h.depth]; rfl

theorem copy (h : Agrees past name scope) (new : String) :
    Agrees (.copy new name :: past) new scope where
  lookupLocal s := by simpa only [latestBinding, if_true] using h.lookupLocal s
  parent := by simpa only [origin, if_true] using h.parent
  depth := by simpa only [ancestors, if_true] using h.depth

theorem bind (h : Agrees past name scope) (s : Symbol) (v : Value) :
    Agrees (.bind name s v :: past) name (scope.bind s v) where
  lookupLocal t := by simp only [latestBinding, true_and, Scope.lookupLocal_bind, h.lookupLocal]
  parent := h.parent
  depth := h.depth

end Agrees

structure Follows (history : History) (w : Workspace) : Prop where
  run : Workspace.run .empty history.reverse = some w
  scopes : ∀ name ∈ names history, ∃ scope, w.get? name = some scope ∧ Agrees history name scope

namespace Follows

variable {past : History} {w : Workspace}

theorem scopeAt (h : Follows past w) (name : String) : scopeAt past name = w.get? name := by
  rw [History.scopeAt, h.run]
  rfl

theorem insert {operation : Operation} {reply : Option Value} {made : Scope} (h : Follows past w)
    (hp : w.perform operation = some (reply, w.insert operation.target made))
    (ha : Agrees (operation :: past) operation.target made) :
    Follows (operation :: past) (w.insert operation.target made) where
  run := by
    rw [List.reverse_cons, run_append, h.run]
    show (w.perform operation).bind _ = _
    rw [hp]
    rfl
  scopes := by
    intro name hn
    by_cases he : name = operation.target
    · subst he
      exact ⟨made, Table.get?_insert_self _ _ _, ha⟩
    -- Any other scope was there before and is not touched.
    · obtain ⟨scope, hs, hagree⟩ := h.scopes name (List.mem_of_ne_of_mem he hn)
      exact ⟨scope, by rw [Table.get?_insert, if_neg he, hs], hagree.keep he⟩

theorem step (h : Follows past w) {operation : Operation}
    (hneeds : ∀ name ∈ operation.needs, name ∈ names past) :
    ∃ w', Follows (operation :: past) w' := by
  cases operation with
  | create new => exact ⟨_, h.insert rfl (.create past new)⟩
  | nest new source =>
    obtain ⟨scope, hs, ha⟩ := h.scopes source (hneeds source rfl)
    -- The history at this time leads to the parent as it is now; later bindings do not reach it.
    have hat := (h.scopeAt source).trans hs
    exact ⟨_, h.insert (by rw [perform, hs]; rfl) (ha.nest hat new)⟩
  | copy new source =>
    obtain ⟨scope, hs, ha⟩ := h.scopes source (hneeds source rfl)
    exact ⟨_, h.insert (by rw [perform, hs]; rfl) (ha.copy new)⟩
  | bind name s v =>
    obtain ⟨scope, hs, ha⟩ := h.scopes name (hneeds name rfl)
    exact ⟨_, h.insert (by rw [perform, hs]; rfl) (ha.bind s v)⟩

end Follows

theorem exists_follows {history : History} (h : history.Possible) : ∃ w, Follows history w := by
  induction history with
  | nil => exact ⟨.empty, rfl, by simp [names]⟩
  | cons operation past ih =>
    obtain ⟨w, hw⟩ := ih h.2
    exact hw.step h.1

/-- A run whose operations find the scopes that they need has a result. In it, every scope answers
as its own history says: by its own bindings, and else as its parent did when the scope was made.
Binding a symbol replies with the binding of the scope itself, and nothing that is done to other
scopes changes this one. -/
theorem scopes_of_run {history : History} (h : history.Possible) :
    ∃ w, Workspace.run .empty history.reverse = some w ∧
      ∀ name ∈ names history, ∃ scope, w.get? name = some scope ∧
        (∀ s, scope.lookup s = (latestBinding s history name).or (inherited s history name)) ∧
        (∀ s, scope.lookupLocal s = latestBinding s history name) ∧
        (∀ s v, scope.lookupLocal s = some v → scope.lookup s = some v) ∧
        (∀ s, scope.contains s = true ↔ ∃ v, scope.lookup s = some v) ∧
        (scope.symbols.Nodup ∧ scope.size = scope.symbols.length ∧
          ∀ s, s ∈ scope.symbols ↔ ∃ v, latestBinding s history name = some v) ∧
        scope.depth = (ancestors history name).length ∧
        (∀ s v, w.perform (.bind name s v) =
          some (latestBinding s history name, w.insert name (scope.bind s v))) ∧
        ∀ later w', (∀ operation ∈ later, operation.target ≠ name) → w.run later = some w' →
          w'.get? name = some scope := by
  obtain ⟨w, hw⟩ := exists_follows h
  refine ⟨w, hw.run, ?_⟩
  intro name hn
  obtain ⟨scope, hs, ha⟩ := hw.scopes name hn
  refine ⟨scope, hs, ha.lookup, ha.lookupLocal, ?_, ?_, ⟨?_, ?_, ?_⟩, ha.depth, ?_, ?_⟩
  · intro s v hv
    rw [Scope.lookup_eq, hv]
    rfl
  · intro s
    exact Option.isSome_iff_exists
  · exact scope.locals.nodup_keys
  · exact scope.locals.length_keys.symm
  · intro s
    rw [← ha.lookupLocal, ← Option.isSome_iff_exists]
    exact (scope.locals.get?_isSome_iff s).symm
  · intro s v
    rw [perform, hs, ← ha.lookupLocal]
    rfl
  · intro later w' hne hr
    rw [get?_of_run hne hr, hs]

/-- The inner scope was made before the outer one was bound again, and copied before it was bound
itself. -/
theorem scopes_of_run_nested :
    let x : Symbol := ⟨"X"⟩
    let history : History :=
      [.bind "inner" x (.string "3"), .copy "copy" "inner", .bind "outer" x (.string "2"),
       .nest "inner" "outer", .bind "outer" x (.string "1"), .create "outer"]
    history.Possible ∧ ∃ w, Workspace.run .empty history.reverse = some w ∧
      ((w.get? "outer").bind (·.lookup x) = some (.string "2") ∧
        (w.get? "inner").bind (·.lookup x) = some (.string "3") ∧
        (w.get? "copy").bind (·.lookup x) = some (.string "1") ∧
        (w.perform (.bind "copy" x (.string "4"))).map (·.1) = some none) := by
  intro x history
  have hp : history.Possible := by simp [history, Possible, names, Operation.needs, Operation.target]
  obtain ⟨w, hw, hscopes⟩ := scopes_of_run hp
  refine ⟨hp, w, hw, ?_, ?_, ?_, ?_⟩
  · obtain ⟨scope, hs, hl, -⟩ := hscopes "outer" (by simp [history, names, Operation.target])
    rw [hs, Option.bind_some, hl]
    rfl
  · obtain ⟨scope, hs, hl, -⟩ := hscopes "inner" (by simp [history, names, Operation.target])
    rw [hs, Option.bind_some, hl]
    rfl
  · obtain ⟨scope, hs, hl, -⟩ := hscopes "copy" (by simp [history, names, Operation.target])
    rw [hs, Option.bind_some, hl]
    rfl
  · obtain ⟨scope, hs, -, -, -, -, -, -, hb, -⟩ :=
      hscopes "copy" (by simp [history, names, Operation.target])
    rw [hb]
    rfl

end Sexp.Workspace
