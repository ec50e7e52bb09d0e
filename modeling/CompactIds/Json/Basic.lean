/-!
# JSON values

What a reader of typed values needs to know of a JSON text.
-/

namespace CompactIds

/-- A number has a value here only if it is written as an integer; `-0` is not.
A string has a text only if its escapes leave no surrogate without its pair. -/
inductive Json where
  | null
  | bool (value : Bool)
  | number (value : Option Int)
  | string (text : Option String)
  | array (items : List Json)
  | object (members : List (Option String × Json))
  deriving Repr

namespace Json

def valuesOf (key : String) (members : List (Option String × Json)) : List Json :=
  (members.filter fun m => m.1 = some key).map (·.2)

/-- The value of a key that may be left out, but not be given twice. -/
def optional? (key : String) (members : List (Option String × Json)) : Option (Option Json) :=
  match valuesOf key members with
  | [] => some none
  | [value] => some (some value)
  | _ => none

/-- The values of the fields of a record, which is an object whose keys are all texts, or
an array of the fields in order.  An array may end before the last field. -/
def fields? (keys : List String) : Json → Option (List (Option Json))
  | object members =>
      if members.all fun m => m.1.isSome then keys.mapM fun key => optional? key members
      else none
  | array items =>
      if items.length ≤ keys.length then
        some (items.map some ++ List.replicate (keys.length - items.length) none)
      else none
  | _ => none

def integer? (low high : Int) : Json → Option Int
  | number (some value) => if low ≤ value ∧ value ≤ high then some value else none
  | _ => none

def text? : Json → Option String
  | string text => text
  | _ => none

end Json

end CompactIds
