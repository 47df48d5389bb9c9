/-
Tables in the order of insertion: pairs of a key and a value with at most one pair a key. The view
of a table is the look-up `get?` beside the list `keys`; for each operation, `get?_…` and `keys_…`
say what it does to the two. Putting a value under a known key keeps its place.
-/

namespace SimUnix

/-- A table in the order of insertion. -/
abbrev Keyed (κ α : Type) := List (κ × α)

namespace Keyed

variable {κ α : Type} [DecidableEq κ]

/-- The value under a key. -/
def get? (table : Keyed κ α) (key : κ) : Option α := table.lookup key

/-- Whether a key is in the table. -/
def has (table : Keyed κ α) (key : κ) : Bool := (table.get? key).isSome

/-- Puts a value under a key. -/
def put (table : Keyed κ α) (key : κ) (value : α) : Keyed κ α :=
  match table with
  | [] => [(key, value)]
  | (k, v) :: rest => if k == key then (k, value) :: rest else (k, v) :: put rest key value

/-- Changes the value under a key, if there is one. -/
def update (table : Keyed κ α) (key : κ) (f : α → α) : Keyed κ α :=
  match table with
  | [] => []
  | (k, v) :: rest => if k == key then (k, f v) :: rest else (k, v) :: update rest key f

/-- The table without a key. -/
def drop (table : Keyed κ α) (key : κ) : Keyed κ α :=
  match table with
  | [] => []
  | (k, v) :: rest => if k == key then rest else (k, v) :: drop rest key

/-- The keys in the order of insertion. -/
def keys (table : Keyed κ α) : List κ := table.map Prod.fst

/-- The values in the order of insertion. -/
def values (table : Keyed κ α) : List α := table.map Prod.snd

/-- Changes every value. -/
def mapValues (table : Keyed κ α) (f : α → α) : Keyed κ α := table.map fun p => (p.1, f p.2)

/-- The table that putting some values one after the other makes. -/
def ofList (pairs : List (κ × α)) : Keyed κ α := pairs.foldl (fun t p => put t p.1 p.2) []

/-! ## What the operations do to the view -/

theorem get?_put (table : Keyed κ α) (key : κ) (value : α) (k : κ) :
    (put table key value).get? k = if k = key then some value else table.get? k := by
  unfold get?
  induction table with
  | nil => grind [put]
  | cons p rest ih => grind [put]

theorem get?_update (table : Keyed κ α) (key : κ) (f : α → α) (k : κ) :
    (update table key f).get? k = if k = key then (table.get? k).map f else table.get? k := by
  unfold get?
  induction table with
  | nil => simp [update]
  | cons p rest ih => grind [update]

theorem get?_drop_of_ne (table : Keyed κ α) {key k : κ} (h : k ≠ key) :
    (drop table key).get? k = table.get? k := by
  unfold get?
  induction table with
  | nil => rfl
  | cons p rest ih => grind [drop]

theorem keys_update (table : Keyed κ α) (key : κ) (f : α → α) :
    (update table key f).keys = table.keys := by
  unfold keys
  induction table with
  | nil => rfl
  | cons p rest ih => grind [update]

theorem keys_put (table : Keyed κ α) (key : κ) (value : α) :
    (put table key value).keys = if key ∈ table.keys then table.keys else table.keys ++ [key] := by
  unfold keys
  induction table with
  | nil => simp [put]
  | cons p rest ih => grind [put]

theorem keys_drop (table : Keyed κ α) (key : κ) :
    (drop table key).keys = table.keys.erase key := by
  unfold keys
  induction table with
  | nil => rfl
  | cons p rest ih => grind [drop]

end Keyed

end SimUnix
