import ModulePurity.Data.Value

/-!
# Tables under construction

A settings file fills its tables piece by piece: by headers, by dotted keys and by values. A key is
given once, a table is opened by a header at most once, and dotted keys extend only tables that dotted
keys made. Values are closed: nothing extends an inline table or array.
-/

namespace ModulePurity.Toml

/-- How a table came into being. -/
inductive Origin where
  /-- Opened by its own header. -/
  | header
  /-- Needed on the way to a table with a header. -/
  | implied
  /-- Made by a dotted key. -/
  | dotted
deriving DecidableEq, Repr

/-- What a key stands for while the file is being read. -/
inductive Item where
  | value (v : Value)
  | table (origin : Origin) (entries : List (String × Item))
  /-- Several tables under one key; the last one is open. -/
  | tables (items : List (List (String × Item)))

/-- The entries of an open table. -/
abbrev Entries := List (String × Item)

namespace Entries

/-- What a key stands for. -/
def find? (key : String) (entries : Entries) : Option Item :=
  (List.find? (fun entry => entry.1 == key) entries).map Prod.snd

/-- Gives a key that is there another meaning. -/
def set (key : String) (item : Item) (entries : Entries) : Entries :=
  entries.map fun entry => if entry.1 == key then (key, item) else entry

/-- Adds a key that is not there yet. -/
def add? (key : String) (item : Item) (entries : Entries) : Option Entries :=
  if (find? key entries).isSome then none else some (entries ++ [(key, item)])

/-- Changes the table under a key, which is made if it is missing. On the way of a dotted key it must
not have a header of its own. The change is told how the table came into being. -/
def enter? (byDot : Bool) (key : String) (change : Origin → Entries → Option Entries)
    (entries : Entries) : Option Entries :=
  match find? key entries with
  | none =>
    let origin := if byDot then Origin.dotted else Origin.implied
    (change origin []).map fun inner => entries ++ [(key, .table origin inner)]
  | some (.value _) => none
  | some (.tables items) =>
    match items.getLast? with
    | none => none
    | some last =>
      (change .header last).map fun inner => set key (.tables (items.dropLast ++ [inner])) entries
  | some (.table origin inner) =>
    if byDot && origin == .header then none
    else (change origin inner).map fun inner => set key (.table origin inner) entries

/-- Adds a value under a dotted key: `path` leads to the table that `key` belongs to. -/
def put? (path : List String) (key : String) (v : Value) (entries : Entries) : Option Entries :=
  match path with
  | [] => add? key (.value v) entries
  | k :: ks =>
    enter? true k (fun origin inner =>
      if ks.isEmpty && origin != .dotted then none else put? ks key v inner) entries

/-- Opens a table by its header. A table that was implied before takes the last place. -/
def openTable? (path : List String) (entries : Entries) : Option Entries :=
  match path with
  | [] => some entries
  | [k] =>
    match find? k entries with
    | none => some (entries ++ [(k, .table .header [])])
    | some (.table .implied inner) =>
      some ((entries.filter fun entry => entry.1 != k) ++ [(k, .table .header inner)])
    | some _ => none
  | k :: ks => enter? false k (fun _ inner => openTable? ks inner) entries

/-- Opens one more of several tables by their header. -/
def openTables? (path : List String) (entries : Entries) : Option Entries :=
  match path with
  | [] => some entries
  | [k] =>
    match find? k entries with
    | none => some (entries ++ [(k, .tables [[]])])
    | some (.tables items) => some (set k (.tables (items ++ [[]])) entries)
    | some _ => none
  | k :: ks => enter? false k (fun _ inner => openTables? ks inner) entries

/-- Changes the table that a header opened. -/
def within? (path : List String) (change : Entries → Option Entries) (entries : Entries) :
    Option Entries :=
  match path with
  | [] => change entries
  | k :: ks => enter? false k (fun _ inner => within? ks change inner) entries

end Entries

mutual

/-- The finished value of an item. -/
def Item.toValue : Item → Value
  | .value v => v
  | .table _ entries => .table (entryValues entries)
  | .tables items => .sequence (tableValues items)

/-- The finished values of some entries. -/
def entryValues : List (String × Item) → List (String × Value)
  | [] => []
  | (key, item) :: rest => (key, item.toValue) :: entryValues rest

/-- The finished values of some tables. -/
def tableValues : List (List (String × Item)) → List Value
  | [] => []
  | entries :: rest => .table (entryValues entries) :: tableValues rest

end

end ModulePurity.Toml
