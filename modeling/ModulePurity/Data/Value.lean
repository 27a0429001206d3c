import ModulePurity.Data.Moment

/-!
# Data values

The values of the two data formats in use, settings files and reports: scalars, sequences and tables.
A record can be read from a table, by the names of its fields, and also from a sequence, by their
order.
-/

namespace ModulePurity

/-- A value of a data format. -/
inductive Value where
  | null
  | boolean (b : Bool)
  | integer (n : Int)
  /-- A number with a fraction or exponent, as it was written. -/
  | decimal (text : String)
  | text (s : String)
  | moment (m : Moment)
  | sequence (items : List Value)
  | table (entries : List (String × Value))
deriving Inhabited

namespace Value

/-- The name of the type of a value in settings files. -/
def typeName : Value → String
  | null => "null"
  | boolean _ => "boolean"
  | integer _ => "integer"
  | decimal _ => "float"
  | text _ => "string"
  | moment _ => "datetime"
  | sequence _ => "array"
  | table _ => "table"

/-! ## Scalars -/

/-- The truth value that a value stands for. -/
def toBool? : Value → Option Bool
  | boolean b => some b
  | _ => none

/-- The text that a value stands for. -/
def toText? : Value → Option String
  | text s => some s
  | _ => none

/-- The text that a value stands for where moments count as their written form. -/
def toWriting? : Value → Option String
  | text s => some s
  | moment m => some m.text
  | _ => none

/-- The natural number of at most 64 bits that a value stands for. -/
def toNat? : Value → Option Nat
  | integer (.ofNat n) => if n < Nat.pow 2 64 then some n else none
  | _ => none

/-- Reads `null` as nothing and all else by `read`. -/
def toOption? {α : Type} (read : Value → Option α) : Value → Option (Option α)
  | null => some none
  | v => (read v).map some

/-! ## Sequences and tables -/

/-- Reads every item, or none if one of them cannot be read. -/
def readAll? {α : Type} (read : Value → Option α) : List Value → Option (List α)
  | [] => some []
  | v :: vs => (read v).bind fun a => (readAll? read vs).map (a :: ·)

/-- Reads the items of a sequence. -/
def toList? {α : Type} (read : Value → Option α) : Value → Option (List α)
  | sequence items => readAll? read items
  | _ => none

/-- The value of a key, if there is one. A key that is given more than once has no reading. -/
def member? (key : String) (entries : List (String × Value)) : Option (Option Value) :=
  match entries.filter fun entry => entry.1 == key with
  | [] => some none
  | [entry] => some (some entry.2)
  | _ => none

/-- Whether a value is null. -/
def isNull : Value → Bool
  | null => true
  | _ => false

/-- Whether a value is a sequence or table without items. -/
def isEmpty : Value → Bool
  | sequence [] | table [] => true
  | _ => false

/-- The entries of a record with all its fields in order, from a table or a sequence. -/
def toRecord? (fieldNames : List String) : Value → Option (List (String × Value))
  | table entries => some entries
  | sequence items =>
    if items.length = fieldNames.length then some (fieldNames.zip items) else none
  | _ => none

end Value

end ModulePurity
