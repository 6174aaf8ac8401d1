import SqlWright.Json.Value

/-!
# Tables of TOML

A table is built up statement by statement. Headers name tables, which may not be
named twice, or add a table to a list. A dotted key makes the tables on its way,
and only dotted keys may add to those.
-/

namespace SqlWright.Toml

/-- How a table came to be: by a header of its own, on the way to another header, or on the
way of a dotted key. -/
inductive Origin where
  | header
  | passed
  | dotted
  deriving DecidableEq

/-- What stands under a key. -/
inductive Item where
  | value (value : Json)
  | table (origin : Origin) (entries : List (String × Item))
  | tables (list : List (List (String × Item)))

/-- Entries in the order of their keys' first mention. -/
abbrev Table := List (String × Item)

namespace Table

/-- Table with another item under a key. -/
def put (t : Table) (key : String) (item : Item) : Table :=
  if t.any (·.1 == key) then t.map fun e ↦ if e.1 == key then (key, item) else e
  else t ++ [(key, item)]

/-- Table with a new value under a path of keys; `mayAdd` tells whether the table itself takes
new keys. -/
def assign (value : Json) (last : String) : List String → Bool → Table → Option Table
  | [], mayAdd, t =>
    if mayAdd ∧ (t.lookup last).isNone then some (t.put last (.value value)) else none
  | key :: path, _, t =>
    match t.lookup key with
    | none => (assign value last path true []).map fun inner ↦ t.put key (.table .dotted inner)
    | some (.table origin entries) =>
      if origin = .header then none
      else (assign value last path (origin = .dotted) entries).map fun inner ↦
        t.put key (.table origin inner)
    | some (.tables list) =>
      match list.getLast? with
      | some entries => (assign value last path false entries).map fun inner ↦
        t.put key (.tables (list.dropLast ++ [inner]))
      | none => none
    | some (.value _) => none

/-- Table in which the one under a path is changed. Of a list of tables the last is meant. -/
def update (change : Table → Option Table) : List String → Table → Option Table
  | [], t => change t
  | key :: path, t =>
    match t.lookup key with
    | none => (update change path []).map fun inner ↦ t.put key (.table .passed inner)
    | some (.table origin entries) =>
      (update change path entries).map fun inner ↦ t.put key (.table origin inner)
    | some (.tables list) =>
      match list.getLast? with
      | some entries => (update change path entries).map fun inner ↦
        t.put key (.tables (list.dropLast ++ [inner]))
      | none => none
    | some (.value _) => none

/-- Table with a header for a table under a key. -/
def open? (key : String) (t : Table) : Option Table :=
  match t.lookup key with
  | none => some (t.put key (.table .header []))
  | some (.table .passed entries) => some (t.put key (.table .header entries))
  | some _ => none

/-- Table with one more table in the list under a key. -/
def extend? (key : String) (t : Table) : Option Table :=
  match t.lookup key with
  | none => some (t.put key (.tables [[]]))
  | some (.tables list) => some (t.put key (.tables (list ++ [[]])))
  | some _ => none

end Table

mutual

/-- Value of an item. -/
def Item.toJson : Item → Json
  | .value v => v
  | .table _ entries => .object (entriesToJson entries)
  | .tables list => .array (tablesToJson list)

/-- Members of the object that has the content of a table. -/
def entriesToJson : List (String × Item) → List (Option String × Json)
  | [] => []
  | (key, item) :: rest => (some key, item.toJson) :: entriesToJson rest

/-- Objects that have the content of some tables. -/
def tablesToJson : List (List (String × Item)) → List Json
  | [] => []
  | entries :: rest => .object (entriesToJson entries) :: tablesToJson rest

end

/-- Object that has the content of a table. -/
def Table.toJson (t : Table) : Json := .object (entriesToJson t)

end SqlWright.Toml
