import Mathlib.Data.List.Basic

/-!
# JSON documents

What the wrapper `Json` (`utilities/json.cxx`) makes of a cJSON document when it only
reads it. A document is a tree here; how the tree is laid out in memory is the subject
of `ChargingPile.Json.Heap`. Fields are looked up by name without regard to case, and
the first one counts.
-/

namespace ChargingPile

/-- A string. Its characters are bytes. -/
abbrev Text := List Char

namespace Json

/-- A document. A number has both of cJSON's forms, and its `double` is given by its 64 bits. -/
inductive Value
  | null
  | bool (b : Bool)
  | number (valueint : Int32) (valuedouble : UInt64)
  | string (s : Text)
  | array (items : List Value)
  | object (fields : List (Text × Value))

/-- `json_type_error` and `json_item_not_found`. -/
inductive Error
  | typeError
  | itemNotFound

/-- `cJSON_strcasecmp` finds no difference. -/
def sameName (a b : Text) : Bool := a.map Char.toLower = b.map Char.toLower

namespace Value

/-- `cJSON_GetObjectItem`. -/
def find (fields : List (Text × Value)) (itemName : Text) : Option Value :=
  (fields.find? fun f => sameName f.1 itemName).map Prod.snd

/-- `Json::getItem`. -/
def getItem (v : Value) (itemName : Text) : Except Error Value :=
  match v with
  | .object fields =>
    match find fields itemName with
    | some item => .ok item
    | none => .error .itemNotFound
  | _ => .error .typeError

/-- `Json::contains`. -/
def contains (v : Value) (itemName : Text) : Except Error Bool :=
  match v with
  | .object fields => .ok (find fields itemName).isSome
  | _ => .error .typeError

/-- `Json::getOrCreateItem`: the item it returns. A missing one is created as null, and anything
but an object becomes an empty one first. -/
def getOrCreateItem (v : Value) (itemName : Text) : Value :=
  match v with
  | .object fields => (find fields itemName).getD .null
  | _ => .null

/-- `Json::operator string`. -/
def toString : Value → Except Error Text
  | .string s => .ok s
  | _ => .error .typeError

/-- `Json::operator int`. -/
def toInt : Value → Except Error Int32
  | .number n _ => .ok n
  | _ => .error .typeError

/-- `Json::operator[]` with a `_s`. -/
def getString (v : Value) (itemName : Text) :
    Except Error Text := do (← v.getItem itemName).toString

/-- `Json::operator[]` with an `_i`. -/
def getInt (v : Value) (itemName : Text) : Except Error Int32 := do (← v.getItem itemName).toInt

end Value

end Json

end ChargingPile
