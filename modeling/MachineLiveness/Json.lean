/-!
JSON values, and the readers from which the readers of larger things are built. A reader answers
`none` for a value that is not of its form.
-/

namespace MachineLiveness

inductive Json where
  | null
  | bool (b : Bool)
  | int (n : Int)
  /-- A number that is not written as an integer. No reader accepts one, so it keeps no value. -/
  | fraction
  | str (s : String)
  | arr (items : List Json)
  | obj (fields : List (String × Json))
  deriving Inhabited

namespace Json

variable {α : Type}

/-- An array with a written form of each member. -/
def ofList (write : α → Json) (as : List α) : Json := .arr (as.map write)

/-- An array, each item read in the same way. -/
def list? (read : Json → Option α) : Json → Option (List α)
  | .arr items => items.mapM read
  | _ => none

/-- An integer from `lo` up to, and without, `hi`. -/
def intFrom? (lo hi : Int) : Json → Option Int
  | .int n => if lo ≤ n ∧ n < hi then some n else none
  | _ => none

def uint8? (j : Json) : Option UInt8 := (j.intFrom? 0 UInt8.size).map fun n => UInt8.ofNat n.toNat

def uint32? (j : Json) : Option UInt32 :=
  (j.intFrom? 0 UInt32.size).map fun n => UInt32.ofNat n.toNat

def int32? (j : Json) : Option Int32 :=
  (j.intFrom? Int32.minValue.toInt (Int32.maxValue.toInt + 1)).map Int32.ofInt

def int64? (j : Json) : Option Int64 :=
  (j.intFrom? Int64.minValue.toInt (Int64.maxValue.toInt + 1)).map Int64.ofInt

/-- The values of some fields of an object, in the order of the names; other fields do not count. -/
def fields? (names : List String) : Json → Option (List Json)
  | .obj fields => names.mapM fun name => fields.lookup name
  | _ => none

/-- A record: an object with these fields, or an array of just their values in this order. -/
def record? (names : List String) : Json → Option (List Json)
  | .arr items => if items.length = names.length then some items else none
  | j => j.fields? names

/-- One of several values told by its name; an object that gives the name a null says the same. -/
def named? (all : List α) (name : α → String) : Json → Option α
  | .str s => all.find? (name · = s)
  | .obj [(s, .null)] => all.find? (name · = s)
  | _ => none

/-- One of several kinds of values: an object with the name of the kind and the value, no more. -/
def variant? : Json → Option (String × Json)
  | .obj [(kind, j)] => some (kind, j)
  | _ => none

/-- A value of one kind. -/
def ofVariant (kind : String) (j : Json) : Json := .obj [(kind, j)]

end Json

end MachineLiveness
