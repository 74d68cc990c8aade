/-!
# Rosters

A roster holds records with distinct names, listed in increasing order of name. Read the type
first: its proof field is the reason why a listing never depends on the order in which records
arrived. `mem_entries_iff` ties the look-up to the listing, and `get?_insert`, `get?_filter`,
`get?_erase`, `get?_map` and `get?_modify` say what each operation does to a look-up; with
`ext_get?` they decide any two rosters.
-/

namespace LogicCircuit

/-- A finite collection of records with distinct names, listed in increasing order of name. -/
structure Roster {α : Type} (name : α → String) where
  /-- The records, by name. -/
  entries : List α
  /-- The names increase strictly, so no two records share one. -/
  increasing : entries.Pairwise fun a b => name a < name b

namespace Roster

variable {α : Type} {name : α → String}

@[ext] theorem ext {r s : Roster name} (h : r.entries = s.entries) : r = s := by
  cases r; cases s; cases h; rfl

instance [DecidableEq α] : DecidableEq (Roster name) := fun r s =>
  decidable_of_iff (r.entries = s.entries) ⟨ext, fun h => h ▸ rfl⟩

/-- The roster without records. -/
def empty : Roster name := ⟨[], .nil⟩

/-- The number of records. -/
def size (r : Roster name) : Nat := r.entries.length

/-- The record of a name. -/
def get? (r : Roster name) (key : String) : Option α :=
  r.entries.find? fun x => name x == key

/-- Whether a record has this name. -/
def contains (r : Roster name) (key : String) : Bool := (r.get? key).isSome

@[simp] theorem get?_empty (key : String) : (empty : Roster name).get? key = none := rfl

theorem name_of_get? {r : Roster name} {key : String} {x : α} (h : r.get? key = some x) :
    name x = key := by
  have found := List.find?_some h
  simpa using found

theorem find?_of_mem {xs : List α} (h : xs.Pairwise fun a b => name a < name b) {x : α}
    (hx : x ∈ xs) : xs.find? (fun y => name y == name x) = some x := by
  induction xs with
  | nil => cases hx
  | cons y ys ih =>
    obtain ⟨hy, hys⟩ := List.pairwise_cons.1 h
    rcases List.mem_cons.1 hx with rfl | hx
    · simp
    · have hne : name y ≠ name x := String.ne_of_lt (hy x hx)
      rw [List.find?_cons_of_neg (by simpa using hne)]
      exact ih hys hx

/-- A record is listed exactly if it is what its name looks up. -/
theorem mem_entries_iff {r : Roster name} {x : α} : x ∈ r.entries ↔ r.get? (name x) = some x :=
  ⟨find?_of_mem r.increasing, List.mem_of_find?_eq_some⟩

theorem get?_eq_some_iff {r : Roster name} {key : String} {x : α} :
    r.get? key = some x ↔ x ∈ r.entries ∧ name x = key := by
  constructor
  · exact fun h => ⟨List.mem_of_find?_eq_some h, name_of_get? h⟩
  · rintro ⟨h, rfl⟩
    exact mem_entries_iff.1 h

theorem contains_iff {r : Roster name} {key : String} :
    r.contains key ↔ ∃ x ∈ r.entries, name x = key := by
  simp only [contains, Option.isSome_iff_exists, get?_eq_some_iff]

/-- Puts a record at its place in an increasing list; it takes the place of one of the same name.
-/
def place (name : α → String) (x : α) : List α → List α
  | [] => [x]
  | y :: ys =>
    if name x < name y then x :: y :: ys
    else if name x = name y then x :: ys
    else y :: place name x ys

theorem mem_place {x z : α} {ys : List α} (h : z ∈ place name x ys) : z = x ∨ z ∈ ys := by
  induction ys with
  | nil => simpa [place] using h
  | cons y ys ih =>
    unfold place at h
    split at h
    · simpa using h
    · split at h
      · rcases List.mem_cons.1 h with h | h
        · exact .inl h
        · exact .inr (List.mem_cons_of_mem _ h)
      · rcases List.mem_cons.1 h with h | h
        · exact .inr (h ▸ List.mem_cons_self)
        · exact (ih h).imp_right (List.mem_cons_of_mem _)

theorem lt_of_not_lt_of_ne {a b : String} (h : ¬ a < b) (hne : a ≠ b) : b < a := by
  grind

theorem pairwise_place (x : α) {ys : List α} (h : ys.Pairwise fun a b => name a < name b) :
    (place name x ys).Pairwise fun a b => name a < name b := by
  induction ys with
  | nil => simp [place]
  | cons y ys ih =>
    obtain ⟨hy, hys⟩ := List.pairwise_cons.1 h
    unfold place
    split
    case isTrue hlt =>
      refine List.pairwise_cons.2 ⟨fun z hz => ?_, h⟩
      rcases List.mem_cons.1 hz with rfl | hz
      · exact hlt
      · exact String.lt_trans hlt (hy z hz)
    case isFalse hlt =>
      split
      case isTrue heq => exact List.pairwise_cons.2 ⟨fun z hz => heq ▸ hy z hz, hys⟩
      case isFalse hne =>
        refine List.pairwise_cons.2 ⟨fun z hz => ?_, ih hys⟩
        rcases mem_place hz with rfl | hz
        · exact lt_of_not_lt_of_ne hlt hne
        · exact hy z hz

theorem find?_place (x : α) {ys : List α} (h : ys.Pairwise fun a b => name a < name b)
    (key : String) :
    (place name x ys).find? (fun y => name y == key) =
      if name x = key then some x else ys.find? (fun y => name y == key) := by
  induction ys with
  | nil => by_cases hx : name x = key <;> simp [place, hx]
  | cons y ys ih =>
    obtain ⟨_, hys⟩ := List.pairwise_cons.1 h
    unfold place
    split
    case isTrue => by_cases hx : name x = key <;> simp [List.find?_cons, hx]
    case isFalse =>
      split
      case isTrue heq => by_cases hx : name x = key <;> simp [← heq, hx]
      case isFalse hne =>
        by_cases hy : name y = key
        · have hx : name x ≠ key := fun e => hne (e.trans hy.symm)
          simp [hx, hy]
        · simp [hy, ih hys]

/-- Adds a record; it takes the place of one of the same name. -/
def insert (r : Roster name) (x : α) : Roster name :=
  ⟨place name x r.entries, pairwise_place x r.increasing⟩

theorem get?_insert (r : Roster name) (x : α) (key : String) :
    (r.insert x).get? key = if name x = key then some x else r.get? key :=
  find?_place x r.increasing key

/-- The roster of a list of records; of two with the same name the later one counts. -/
def ofList (xs : List α) : Roster name := xs.foldl insert empty

/-- A roster of names holds the names that it was made of. -/
theorem mem_entries_ofList {names : List String} {v : String} :
    v ∈ (ofList names : Roster fun name : String => name).entries ↔ v ∈ names := by
  have hfold : ∀ (names : List String) (r : Roster fun name : String => name),
      v ∈ (names.foldl insert r).entries ↔ v ∈ names ∨ v ∈ r.entries := by
    intro names
    induction names with
    | nil => simp
    | cons w names ih =>
      intro r
      rw [List.foldl_cons, ih, mem_entries_iff, get?_insert, List.mem_cons]
      by_cases hv : w = v
      · simp [hv]
      · simp [hv, mem_entries_iff, Ne.symm hv]
  simp [ofList, hfold, empty]

/-- Keeps the records that satisfy a condition. -/
def filter (r : Roster name) (keep : α → Bool) : Roster name :=
  ⟨r.entries.filter keep, r.increasing.filter keep⟩

theorem get?_filter (r : Roster name) (keep : α → Bool) (key : String) :
    (r.filter keep).get? key = (r.get? key).filter keep := by
  ext x
  simp only [get?_eq_some_iff, Option.filter_eq_some_iff, filter, List.mem_filter]
  exact ⟨fun h => ⟨⟨h.1.1, h.2⟩, h.1.2⟩, fun h => ⟨⟨h.1.1, h.2⟩, h.1.2⟩⟩

/-- Removes the record of a name, if there is one. -/
def erase (r : Roster name) (key : String) : Roster name :=
  r.filter fun x => name x != key

theorem get?_erase (r : Roster name) (gone key : String) :
    (r.erase gone).get? key = if key = gone then none else r.get? key := by
  ext x
  simp only [erase, get?_filter, Option.filter_eq_some_iff]
  by_cases hk : key = gone
  · simp only [hk, if_true]
    refine ⟨fun ⟨h, hne⟩ => ?_, fun h => by cases h⟩
    simp [name_of_get? h] at hne
  · simp only [hk, if_false]
    refine ⟨And.left, fun h => ⟨h, ?_⟩⟩
    simpa [name_of_get? h] using hk

/-- Changes every record by a function that keeps names. -/
def map (r : Roster name) (change : α → α) (keeps : ∀ x, name (change x) = name x) :
    Roster name :=
  ⟨r.entries.map change, List.pairwise_map.2 (by simpa only [keeps] using r.increasing)⟩

theorem get?_map (r : Roster name) (change : α → α) (keeps : ∀ x, name (change x) = name x)
    (key : String) : (r.map change keeps).get? key = (r.get? key).map change := by
  show (r.entries.map change).find? _ = (r.entries.find? _).map change
  rw [List.find?_map]
  simp only [Function.comp_def, keeps]

/-- Changes the record of one name by a function that keeps names. -/
def modify (r : Roster name) (key : String) (change : α → α)
    (keeps : ∀ x, name (change x) = name x) : Roster name :=
  r.map (fun x => if name x == key then change x else x) fun x => by
    split
    · exact keeps x
    · rfl

theorem get?_modify (r : Roster name) (changed : String) (change : α → α)
    (keeps : ∀ x, name (change x) = name x) (key : String) :
    (r.modify changed change keeps).get? key =
      if key = changed then (r.get? key).map change else r.get? key := by
  rw [modify, get?_map]
  cases h : r.get? key with
  | none => simp
  | some x =>
    have hx := name_of_get? h
    by_cases hk : key = changed <;> simp [hx, hk]

theorem eq_of_mem_iff {xs ys : List α} (hx : xs.Pairwise fun a b => name a < name b)
    (hy : ys.Pairwise fun a b => name a < name b) (h : ∀ z, z ∈ xs ↔ z ∈ ys) : xs = ys := by
  induction xs generalizing ys with
  | nil =>
    cases ys with
    | nil => rfl
    | cons y ys => exact absurd ((h y).2 List.mem_cons_self) List.not_mem_nil
  | cons x xs ih =>
    cases ys with
    | nil => exact absurd ((h x).1 List.mem_cons_self) List.not_mem_nil
    | cons y ys =>
      obtain ⟨hx₁, hx₂⟩ := List.pairwise_cons.1 hx
      obtain ⟨hy₁, hy₂⟩ := List.pairwise_cons.1 hy
      have heads : x = y := by
        rcases List.mem_cons.1 ((h x).1 List.mem_cons_self) with e | hin
        · exact e
        · rcases List.mem_cons.1 ((h y).2 List.mem_cons_self) with e | hin'
          · exact e.symm
          · exact absurd (String.lt_trans (hx₁ y hin') (hy₁ x hin)) (String.lt_irrefl _)
      subst heads
      refine congrArg _ (ih hx₂ hy₂ fun z => ⟨fun hz => ?_, fun hz => ?_⟩)
      · rcases List.mem_cons.1 ((h z).1 (List.mem_cons_of_mem _ hz)) with rfl | hz'
        · exact absurd (hx₁ z hz) (String.lt_irrefl _)
        · exact hz'
      · rcases List.mem_cons.1 ((h z).2 (List.mem_cons_of_mem _ hz)) with rfl | hz'
        · exact absurd (hy₁ z hz) (String.lt_irrefl _)
        · exact hz'

/-- Two rosters that look up the same records are the same. -/
theorem ext_get? {r s : Roster name} (h : ∀ key, r.get? key = s.get? key) : r = s := by
  refine ext (eq_of_mem_iff r.increasing s.increasing fun z => ?_)
  rw [mem_entries_iff, mem_entries_iff, h]

end Roster

end LogicCircuit
