import ChargingPile.Json.Basic
import ChargingPile.Lib.Memory

/-!
# JSON documents in memory

cJSON (`packages/cJSON-v1.0.2/cJSON.c`) keeps a document as items that are linked to their
first child and to their next sibling, and `Json` (`utilities/json.cxx`) refers to an element
by the address of its item. The strings of an item are its own, so they are kept as values
here. No item is a reference, and the link back to the previous sibling is written but never
read by what is modelled.

The loops and recursions follow links, so they have fuel.
-/

namespace ChargingPile.Json

/-- The types of cJSON. -/
inductive ItemType
  | false | true | null | number | string | array | object
  deriving DecidableEq

/-- What an item holds of its value, apart from the children. -/
structure Payload where
  type : ItemType := .null
  valuestring : Option Text := none
  valueint : Int32 := 0
  valuedouble : UInt64 := 0

/-- `cJSON`, without the link to the previous sibling. -/
structure Cell extends Payload where
  string : Option Text := none
  child : Addr := 0
  next : Addr := 0

/-- `cJSON`. -/
structure Item extends Cell where
  prev : Addr := 0

open Memory Memory.Exec

/-- Code on items. -/
abbrev Exec (α : Type) : Type := Memory.Exec Item α

/-! ## cJSON -/

/-- `cJSON_Delete`. -/
def delete : Nat → Addr → Exec Unit
  | 0, c => if c = 0 then pure () else failure
  | fuel + 1, c =>
    if c = 0 then pure ()
    else do
      let item ← load c
      delete fuel item.child
      release c
      delete fuel item.next

/-- A child is linked behind `nptr`, or as the first one. -/
def attach (newitem nptr newchild : Addr) : Exec Unit :=
  if nptr ≠ 0 then do
    store nptr fun i => { i with next := newchild }
    store newchild fun i => { i with prev := nptr }
  else store newitem fun i => { i with child := newchild }

/-- The loop of `cJSON_Duplicate` over the children, where `dup` duplicates one of them. -/
def duplicateLoop (dup : Addr → Exec Addr) (newitem : Addr) : Nat → Addr → Addr → Exec Unit
  | 0, cptr, _ => if cptr = 0 then pure () else failure
  | fuel + 1, cptr, nptr =>
    if cptr = 0 then pure ()
    else do
      let newchild ← dup cptr
      attach newitem nptr newchild
      duplicateLoop dup newitem fuel (← load cptr).next newchild

/-- `cJSON_Duplicate` with its children. -/
def duplicate (A : Allocator) : Nat → Addr → Exec Addr
  | 0, _ => failure
  | fuel + 1, item => do
    let i ← load item
    let newitem ← new A { i with next := 0, prev := 0, child := 0 }
    duplicateLoop (duplicate A fuel) newitem fuel i.child 0
    return newitem

/-- `cJSON_GetObjectItem`, from the first child on. -/
def getObjectItem (string : Text) : Nat → Addr → Exec Addr
  | 0, c => if c = 0 then pure 0 else failure
  | fuel + 1, c =>
    if c = 0 then pure 0
    else do
      let i ← load c
      if i.string.any (sameName · string) then return c
      else getObjectItem string fuel i.next

/-- `cJSON_GetArrayItem`, from the first child on. -/
def getArrayItem : Nat → Addr → Exec Addr
  | 0, c => pure c
  | item + 1, c => if c = 0 then pure 0 else do getArrayItem item (← load c).next

/-- The loop of `cJSON_AddItemToArray`. -/
def addLoop (item : Addr) : Nat → Addr → Exec Unit
  | 0, _ => failure
  | fuel + 1, c => do
    let i ← load c
    if i.next = 0 then
      store c fun i => { i with next := item }
      store item fun i => { i with prev := c }
    else addLoop item fuel i.next

/-- `cJSON_AddItemToArray`. -/
def addItemToArray (fuel : Nat) (array item : Addr) : Exec Unit := do
  let c := (← load array).child
  if c = 0 then store array fun i => { i with child := item }
  else addLoop item fuel c

/-- `cJSON_AddItemToObject`. -/
def addItemToObject (fuel : Nat) (object : Addr) (string : Text) (item : Addr) : Exec Unit := do
  store item fun i => { i with string := some string }
  addItemToArray fuel object item

/-! ## `Json` -/

/-- `Json::reset`. -/
def reset (fuel : Nat) (self : Addr) (newType : ItemType) : Exec Unit := do
  delete fuel (← load self).child
  store self fun i => { i with child := 0 }
  store self fun i => { i with valuestring := none }
  store self fun i => { i with type := newType }

/-- A field is moved: `dest->f = source->f`, and then `source->f` is cleared. -/
def moveField (dest source : Addr) (put : Item → Item → Item) (clear : Item → Item) :
    Exec Unit := do
  let s ← load source
  store dest (put s)
  store source clear

/-- `Json::moveNode`, which is also `Json::operator=(Json&&)`. -/
def moveNode (fuel : Nat) (dest source : Addr) : Exec Unit := do
  moveField dest source (fun s i => { i with type := s.type }) fun s => { s with type := .null }
  delete fuel (← load dest).child
  moveField dest source (fun s i => { i with child := s.child }) fun s => { s with child := 0 }
  moveField dest source (fun s i => { i with valuestring := s.valuestring }) fun s =>
    { s with valuestring := none }
  moveField dest source (fun s i => { i with valuedouble := s.valuedouble }) fun s =>
    { s with valuedouble := 0 }
  moveField dest source (fun s i => { i with valueint := s.valueint })
    fun s => { s with valueint := 0 }

/-- `Json::operator=(const Json&)`. -/
def copyAssign (A : Allocator) (fuel : Nat) (self other : Addr) : Exec Unit := do
  let copied ← duplicate A fuel other
  reset fuel self .null
  let name := (← load self).string
  let i ← load copied
  store self fun _ => i
  store self fun i => { i with string := name }
  release copied

/-- `Json::getOrCreateItem`. -/
def getOrCreateItem (A : Allocator) (fuel : Nat) (self : Addr) (itemName : Text) : Exec Addr := do
  if (← load self).type = .null then store self fun i => { i with type := .object }
  if (← load self).type ≠ .object then reset fuel self .object
  let item ← getObjectItem itemName fuel (← load self).child
  if item = 0 then
    let item ← new A {}
    addItemToObject fuel self itemName item
    return item
  else return item

/-- `Json::operator[](int)`, where a negative index counts as 0. -/
def getElement (self : Addr) (index : Int) : Exec Addr := do
  let i ← load self
  if i.type ≠ .array then failure
  else
    let ele ← getArrayItem index.toNat i.child
    if ele = 0 then failure else return ele

/-- What `Json::push_back` does before it moves the item: a null element is added. -/
def pushNull (A : Allocator) (fuel : Nat) (self : Addr) : Exec Addr := do
  if (← load self).type ≠ .array then failure
  else
    let null ← new A {}
    addItemToArray fuel self null
    return null

/-- `Json::push_back`. -/
def pushBack (A : Allocator) (fuel : Nat) (self item : Addr) : Exec Unit := do
  let null ← pushNull A fuel self
  moveNode fuel null item

end ChargingPile.Json
