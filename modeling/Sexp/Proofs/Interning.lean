import Sexp.Symbol.Pool
import Sexp.Proofs.Text.UpperCase

/-!
# Handles and names

Of a table of names it is only asked that a name which is stored gets the handle that it has, and
that any other name is stored under a handle which stood for nothing, while all other handles stay
as they are. From this it follows that a handle, once given out, stands for its name whatever the
table is asked for later, and that comparing handles is comparing names. Symbols ask for their
names in upper case; since upper-casing a name again changes nothing, the name of a symbol leads
back to it.
-/

namespace Sexp

namespace Interner

variable {τ η : Type}

def Stores (I : Interner τ η) (t : τ) (name : String) : Prop := ∃ h, I.name? t h = some name

/-- What is asked of a table, for a name that it has and for one that it has not. -/
structure Lawful (I : Interner τ η) : Prop where
  handle_of_stored : ∀ {t name h}, I.name? t h = some name → (I.intern t name).1 = h
  names_of_stored : ∀ {t name}, I.Stores t name → I.name? (I.intern t name).2 = I.name? t
  fresh : ∀ {t name}, ¬ I.Stores t name → I.name? t (I.intern t name).1 = none
  name_of_fresh : ∀ {t name}, ¬ I.Stores t name →
    I.name? (I.intern t name).2 (I.intern t name).1 = some name
  names_of_others : ∀ {t name h}, ¬ I.Stores t name → h ≠ (I.intern t name).1 →
    I.name? (I.intern t name).2 h = I.name? t h

end Interner

namespace Pool

theorem stores_iff (p : Pool) (name : String) : interner.Stores p name ↔ name ∈ p.names := by
  constructor
  · rintro ⟨h, hn⟩
    exact List.mem_of_getElem? hn
  · intro hm
    obtain ⟨i, hi⟩ := List.mem_iff_getElem?.mp hm
    exact ⟨⟨i⟩, hi⟩

theorem getElem?_names_intern {p : Pool} {name : String} (hm : name ∉ p.names) {i : Nat}
    (hi : i ≠ p.names.length) : (p.intern name).2.names[i]? = p.names[i]? := by
  rw [names_intern_of_not_mem hm]
  rcases Nat.lt_or_gt_of_ne hi with hlt | hgt
  · exact List.getElem?_append_left hlt
  · have hend : (p.names ++ [name]).length ≤ i := by
      rw [List.length_append, List.length_singleton]
      exact hgt
    rw [List.getElem?_eq_none hend, List.getElem?_eq_none (Nat.le_of_lt hgt)]

theorem interner_lawful : interner.Lawful where
  handle_of_stored := by
    intro p name h hn
    obtain ⟨hi, rfl⟩ := List.getElem?_eq_some_iff.mp hn
    rw [interner_intern, intern_of_mem (List.getElem_mem hi), p.distinct.idxOf_getElem]
  names_of_stored := by
    intro p name hs
    rw [stores_iff] at hs
    rw [interner_intern, intern_of_mem hs]
  fresh := by
    intro p name hs
    rw [stores_iff] at hs
    rw [interner_intern, handle_intern_of_not_mem hs, interner_name?,
      List.getElem?_eq_none (Nat.le_refl _)]
  name_of_fresh := by
    intro p name hs
    rw [stores_iff] at hs
    rw [interner_intern, interner_name?, names_intern_of_not_mem hs, handle_intern_of_not_mem hs,
      List.getElem?_concat_length]
  names_of_others := by
    intro p name h hs hne
    rw [stores_iff] at hs
    rw [interner_intern, handle_intern_of_not_mem hs] at hne
    rw [interner_intern, interner_name?, interner_name?]
    exact getElem?_names_intern hs fun hi => hne (congrArg Handle.mk hi)

end Pool

namespace Interner

variable {τ η : Type}

def transcript (I : Interner τ η) (t : τ) (requests : List NameRequest) : List (NameRequest × η) :=
  requests.zip (I.serve t requests).1

variable {I : Interner τ η} {t : τ} {h h' : η} {name : String}

theorem transcript_cons (request : NameRequest) (requests : List NameRequest) :
    I.transcript t (request :: requests) =
      (request, (I.ask t request).1) :: I.transcript (I.ask t request).2 requests := rfl

theorem map_fst_transcript (requests : List NameRequest) :
    (I.transcript t requests).map Prod.fst = requests := by
  rw [transcript, List.map_fst_zip]
  exact Nat.le_of_eq (I.length_serve t requests).symm

theorem withName_of_some {α : Type} (hn : I.name? t h = some name) (f : String → α) :
    I.withName t h f = f name := by
  rw [withName, hn, Option.getD_some]

theorem resolve_of_some (hn : I.name? t h = some name) : I.resolve t h = name :=
  withName_of_some hn id

namespace Lawful

theorem eq_of_name (lawful : I.Lawful) (hn : I.name? t h = some name)
    (hn' : I.name? t h' = some name) : h = h' := by
  rw [← lawful.handle_of_stored hn, lawful.handle_of_stored hn']

theorem name?_intern (lawful : I.Lawful) (t : τ) (name : String) :
    I.name? (I.intern t name).2 (I.intern t name).1 = some name := by
  by_cases hs : I.Stores t name
  · obtain ⟨h, hn⟩ := hs
    rw [lawful.names_of_stored ⟨h, hn⟩, lawful.handle_of_stored hn, hn]
  · exact lawful.name_of_fresh hs

theorem name?_intern_of_some (lawful : I.Lawful) (hn : I.name? t h = some name) (other : String) :
    I.name? (I.intern t other).2 h = some name := by
  by_cases hs : I.Stores t other
  · rw [lawful.names_of_stored hs, hn]
  · have hne : h ≠ (I.intern t other).1 := by
      rintro rfl
      rw [lawful.fresh hs] at hn
      cases hn
    rw [lawful.names_of_others hs hne, hn]

theorem name?_serve_of_some (lawful : I.Lawful) (hn : I.name? t h = some name)
    (requests : List NameRequest) : I.name? (I.serve t requests).2 h = some name := by
  induction requests generalizing t with
  | nil => exact hn
  | cons request requests ih => exact ih (lawful.name?_intern_of_some hn request.name)

theorem name?_of_transcript (lawful : I.Lawful) {requests : List NameRequest} {i k : Nat}
    {request : NameRequest} (hi : (I.transcript t requests)[i]? = some (request, h)) (hk : i < k) :
    I.name? (I.serve t (requests.take k)).2 h = some request.name := by
  -- The table is free in the induction: behind the first request the run starts from another one.
  induction requests generalizing t i k with
  | nil => cases hi
  | cons first requests ih =>
    obtain ⟨k, rfl⟩ : ∃ j, k = j + 1 := ⟨k - 1, by omega⟩
    cases i with
    | zero =>
      obtain ⟨rfl, rfl⟩ := Prod.mk.inj (Option.some.inj hi)
      exact lawful.name?_serve_of_some (lawful.name?_intern t first.name) (requests.take k)
    | succ i =>
      rw [transcript_cons, List.getElem?_cons_succ] at hi
      exact ih hi (Nat.lt_of_succ_lt_succ hk)

theorem name?_of_mem_transcript (lawful : I.Lawful) {requests : List NameRequest}
    {request : NameRequest} (hm : (request, h) ∈ I.transcript t requests) :
    I.name? (I.serve t requests).2 h = some request.name := by
  obtain ⟨i, hi⟩ := List.mem_iff_getElem?.mp hm
  have hlater := lawful.name?_of_transcript hi (show i < requests.length + (i + 1) by omega)
  rwa [List.take_of_length_le (by omega)] at hlater

theorem handle_eq_iff (lawful : I.Lawful) {requests : List NameRequest}
    {request request' : NameRequest} (hm : (request, h) ∈ I.transcript t requests)
    (hm' : (request', h') ∈ I.transcript t requests) :
    h = h' ↔ request.name = request'.name := by
  -- Both names are still there when the run is over, so one table settles the matter.
  have hn := lawful.name?_of_mem_transcript hm
  have hn' := lawful.name?_of_mem_transcript hm'
  constructor
  · rintro rfl
    exact Option.some.inj (hn.symm.trans hn')
  · intro he
    rw [← he] at hn'
    exact lawful.eq_of_name hn hn'

theorem ask_upperCase_resolve (lawful : I.Lawful) {text : String}
    (hn : I.name? t h = some (Text.upper text)) :
    (I.ask t (.upperCase (I.resolve t h))).1 = h := by
  have hname : (NameRequest.upperCase (I.resolve t h)).name = Text.upper text := by
    rw [resolve_of_some hn]
    exact Text.upper_upper text
  rw [ask, hname]
  exact lawful.handle_of_stored hn

end Lawful

/-- Every request is answered. At any time after its answer the handle has exactly the name that
was asked for, and if that was in upper case then asking so for the name of the handle gives the
handle again. Two handles of one run are the same just if their names are, which for upper case
means that the upper-case forms of the two texts agree. -/
theorem handles_stand_for_names {I : Interner τ η} (lawful : I.Lawful) (t : τ)
    (requests : List NameRequest) :
    (I.transcript t requests).map Prod.fst = requests ∧
    (∀ (i k : Nat) request h, (I.transcript t requests)[i]? = some (request, h) → i < k →
      let later := (I.serve t (requests.take k)).2
      I.name? later h = some request.name ∧ I.resolve later h = request.name ∧
        (∀ (α : Type) (f : String → α), I.withName later h f = f request.name) ∧
        ∀ text, request = .upperCase text →
          (I.ask later (.upperCase (I.resolve later h))).1 = h) ∧
    (∀ request h request' h', (request, h) ∈ I.transcript t requests →
      (request', h') ∈ I.transcript t requests → (h = h' ↔ request.name = request'.name)) ∧
    ∀ a h b h', (.upperCase a, h) ∈ I.transcript t requests →
      (.upperCase b, h') ∈ I.transcript t requests → (h = h' ↔ Text.upper a = Text.upper b) := by
  refine ⟨map_fst_transcript requests, ?_, ?_, ?_⟩
  · intro i k request h hi hk later
    have hn : I.name? later h = some request.name := lawful.name?_of_transcript hi hk
    refine ⟨hn, resolve_of_some hn, fun α f => withName_of_some hn f, ?_⟩
    rintro text rfl
    exact lawful.ask_upperCase_resolve hn
  · intro request h request' h' hm hm'
    exact lawful.handle_eq_iff hm hm'
  · intro a h b h' hm hm'
    exact lawful.handle_eq_iff hm hm'

/-- The letter as written and in upper case are different names, the second of which is longer and
is also that of another text. The empty name is stored like any other. -/
theorem handles_stand_for_names_mixed :
    let requests : List NameRequest :=
      [.written "ß", .upperCase "ß", .written "", .upperCase "ss"]
    let later := (Pool.empty.serve requests).2
    Pool.interner.Lawful ∧
      ∃ plain sharp blank double,
        Pool.interner.transcript .empty requests =
          [(.written "ß", plain), (.upperCase "ß", sharp), (.written "", blank),
            (.upperCase "ss", double)] ∧
        plain ≠ sharp ∧ sharp = double ∧
        later.resolve plain = "ß" ∧ later.resolve sharp = "SS" ∧
        Pool.interner.name? later blank = some "" ∧
        (Pool.interner.ask later (.upperCase (later.resolve sharp))).1 = sharp := by
  intro requests later
  obtain ⟨-, hnames, hsame, hupper⟩ :=
    handles_stand_for_names Pool.interner_lawful Pool.empty requests
  have hsharp : Text.upper "ß" = "SS" := by decide
  have hdouble : Text.upper "ß" = Text.upper "ss" := by decide
  refine ⟨Pool.interner_lawful, _, _, _, _, rfl, ?_, ?_, ?_, ?_, ?_, ?_⟩
  · intro he
    have hname := (hsame (.written "ß") _ (.upperCase "ß") _ (.head _) (.tail _ (.head _))).mp he
    exact absurd (hname.trans hsharp) (by decide)
  · exact (hupper "ß" _ "ss" _ (.tail _ (.head _)) (.tail _ (.tail _ (.tail _ (.head _))))).mpr
      hdouble
  · exact (hnames 0 4 _ _ rfl (by decide)).2.1
  · exact (hnames 1 4 _ _ rfl (by decide)).2.1.trans hsharp
  · exact (hnames 2 4 _ _ rfl (by decide)).1
  · exact (hnames 1 4 _ _ rfl (by decide)).2.2.2 "ß" rfl

end Interner

end Sexp
