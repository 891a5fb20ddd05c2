import Gavea.Lib.JsValue

namespace Gavea.MutationLog

open Gavea.Lib Gavea.Lib.Js

inductive Source (α : Type)
  | undefined
  | null
  | some (obj : α)

/-- A schema over the objects of a source: keys and values, arrays of values, arrays of objects,
objects. The getters say which part of the source is read. -/
inductive Transform (α : Type)
  | value (key : Bool) (get : α → {v : Value // v.WellFormed}) (equals : Value → Value → Bool)
  | values (get : α → Option (List α)) (getItem : α → {v : Value // v.WellFormed}) (equals : Value → Value → Bool)
  | objects (get : α → Option (List α)) (getItem : α → Source α)
      (children : List (JsString × Transform α)) (isSealed : Option (Value → Bool → Bool))
  | object (get : α → Source α) (children : List (JsString × Transform α)) (isSealed : Option (Value → Bool → Bool))

namespace Transform

variable {α : Type}

/-- The order in which the entries of a schema are stored: keys first. -/
def kind : Transform α → Nat
  | .value true _ _ => 0
  | .value false _ _ => 1
  | .values .. | .objects .. => 2
  | .object .. => 3

def isKey : Transform α → Bool
  | .value key _ _ => key
  | _ => false

def sortEntries (schema : List (JsString × Transform α)) : List (JsString × Transform α) :=
  schema.insertionSort fun a b => a.2.kind ≤ b.2.kind

def ofSchema (get : α → Source α) (schema : List (JsString × Transform α))
    (isSealed : Option (Value → Bool → Bool)) : Transform α :=
  .object get (sortEntries schema) isSealed

mutual

def extract : Transform α → α → Value
  | .value _ get _, from' => (get from').1
  | .values get getItem _, from' =>
    match get from' with
    | none => .undefined
    | some items => .array (items.map fun item => (getItem item).1)
  | .objects get getItem children _, from' =>
    match get from' with
    | none => .undefined
    | some items => .array (items.map fun item =>
      match getItem item with
      | .undefined => .undefined
      | .null => .null
      | .some obj => .object (extractChildren children obj))
  | .object get children _, from' =>
    match get from' with
    | .undefined => .undefined
    | .null => .null
    | .some obj => .object (extractChildren children obj)

def extractChildren : List (JsString × Transform α) → α → List (JsString × Value)
  | [], _ => []
  | (key, transform) :: children, obj => (key, transform.extract obj) :: extractChildren children obj

end

end Transform

abbrev ObjectPath := List Key

inductive Entry
  | initial (v : Value)
  | set (k : ObjectPath) (v : Value)
  | push (k : ObjectPath) (v : Option (List Value)) (i : Option Nat)
  | delete (k : ObjectPath)

inductive LogError
  | typeError
  | rangeError
  | missingInitial
  | emptyLog
  | invalidText
  | unknownKind

section Diff

def property (v : Value) (key : JsString) : Except LogError Value :=
  match v with
  | .undefined | .null => .error .typeError
  | .object members => .ok (Value.member members key)
  | _ => .ok .undefined

def optionalProperty (v : Value) (key : JsString) : Value :=
  match v with
  | .object members => Value.member members key
  | _ => .undefined

def diffNullish (path : ObjectPath) : Value → Value → List Entry
  | .undefined, .undefined | .null, .null => []
  | _, .undefined => [.delete path]
  | _, curr => [.set path curr]

def diffValues (equals : Value → Value → Bool) (path : ObjectPath) :
    Nat → List Value → List Value → List Entry
  | i, prev :: prevArr, curr :: currArr =>
    if equals prev curr then diffValues equals path (i + 1) prevArr currArr
    else [.push path (some (curr :: currArr)) (some i)]
  | _, [], [] => []
  | _, [], curr :: currArr => [.push path (some (curr :: currArr)) none]
  | i, _ :: _, [] => [.push path none (some i)]

def diffItems (hasKeyMismatch : Value → Value → Except LogError Bool)
    (diffObject : ObjectPath → Value → Value → Except LogError (List Entry)) (path : ObjectPath) :
    Nat → List Value → List Value → Except LogError (List Entry)
  | i, prev :: prevArr, curr :: currArr => do
      if ← hasKeyMismatch prev curr then
        return [.push path (some (curr :: currArr)) (some i)]
      let entries ← diffObject (path ++ [.index i]) prev curr
      let rest ← diffItems hasKeyMismatch diffObject path (i + 1) prevArr currArr
      return entries ++ rest
  | _, [], [] => return []
  | _, [], curr :: currArr => return [.push path (some (curr :: currArr)) none]
  | i, _ :: _, [] => return [.push path none (some i)]

variable {α : Type}

/-- The keys stand in front, so the loop ends with the first other child. -/
def hasKeyMismatch : List (JsString × Transform α) → Value → Value → Except LogError Bool
  | (key, .value true _ equals) :: children, prev, curr => do
      let currValue ← property curr key
      if equals (optionalProperty prev key) currValue then hasKeyMismatch children prev curr
      else return true
  | _, _, _ => return false

def areSealed (isSealed : Option (Value → Bool → Bool)) (prev curr : Value) : Bool :=
  match isSealed with
  | none => false
  | some isSealed => isSealed prev true && isSealed curr false

def diffObject (children : List (JsString × Transform α)) (isSealed : Option (Value → Bool → Bool))
    (diffRest : ObjectPath → Value → Value → Except LogError (List Entry)) (path : ObjectPath)
    (prev curr : Value) : Except LogError (List Entry) := do
  if ← hasKeyMismatch children prev curr then return [.set path curr]
  if areSealed isSealed prev curr then return []
  diffRest path prev curr

mutual

def diff : Transform α → ObjectPath → Value → Value → Except LogError (List Entry)
  | .value _ _ equals, path, prev, curr => return if equals prev curr then [] else [.set path curr]
  | .values _ _ equals, path, prev, curr =>
    match prev, curr with
    | .array prevArr, .array currArr => return diffValues equals path 0 prevArr currArr
    | prev, curr => return diffNullish path prev curr
  | .objects _ _ children isSealed, path, prev, curr =>
    match prev, curr with
    | .array prevArr, .array currArr =>
      diffItems (hasKeyMismatch children)
        (diffObject children isSealed fun path prev curr =>
          diffChildren children true path prev curr) path 0 prevArr currArr
    | prev, curr => return diffNullish path prev curr
  | .object _ children isSealed, path, prev, curr =>
    if prev.isNullish || curr.isNullish then return diffNullish path prev curr
    else
      diffObject children isSealed (fun path prev curr => diffChildren children true path prev curr) path prev curr

/-- The children one after the other; the keys in front are compared already. -/
def diffChildren : List (JsString × Transform α) → Bool → ObjectPath → Value → Value →
    Except LogError (List Entry)
  | [], _, _, _, _ => return []
  | (key, transform) :: children, skipKeys, path, prev, curr => do
      if skipKeys && transform.isKey then diffChildren children true path prev curr
      else
        let currValue ← property curr key
        let entries ← diff transform (path ++ [.prop key]) (optionalProperty prev key) currValue
        let rest ← diffChildren children false path prev curr
        return entries ++ rest

end

end Diff

section Text

def persistEntryMaxStringChars : Nat := 1 * 1024 * 1024

def persistEntryMaxTotalChars : Nat := 100 * 1024 * 1024

def truncationMarkerPrefix : JsString := ofText "[VS Code: value truncated for persistence"

/-- What the truncating replacer makes of a string, with the size that it has tracked. -/
def truncateString (total : Nat) (val : JsString) : JsString × Nat :=
  if val.length > persistEntryMaxStringChars then
    let emitted := truncationMarkerPrefix ++ ofText "; original " ++
      (decimal val.length).flatMap unitsOf ++ ofText " chars]"
    (emitted, total + emitted.length + 2)
  else if total + val.length + 2 > persistEntryMaxTotalChars then
    let emitted := truncationMarkerPrefix ++ ofText "; entry exceeded size budget]"
    (emitted, total + emitted.length + 2)
  else (val, total + val.length + 2)

mutual

/-- The replacer on every value, in the order in which they are written. -/
def truncate : Nat → Json → Json × Nat
  | total, .string val =>
    let (emitted, total) := truncateString total val
    (.string emitted, total)
  | total, .array items =>
    let (items, total) := truncateItems total items
    (.array items, total)
  | total, .object members =>
    let (members, total) := truncateMembers total members
    (.object members, total)
  | total, value => (value, total)

def truncateItems : Nat → List Json → List Json × Nat
  | total, [] => ([], total)
  | total, item :: items =>
    let (item, total) := truncate total item
    let (items, total) := truncateItems total items
    (item :: items, total)

def truncateMembers : Nat → List (JsString × Json) → List (JsString × Json) × Nat
  | total, [] => ([], total)
  | total, (key, value) :: members =>
    let (value, total) := truncate total value
    let (members, total) := truncateMembers total members
    ((key, value) :: members, total)

end

def textLength (text : List Char) : Nat := (text.flatMap unitsOf).length

def stringify (maxStringLength : Nat) (json : Json) : Except LogError (List Char) :=
  if textLength json.text ≤ maxStringLength then .ok json.text else .error .rangeError

def stringifyEntryWithFallback (maxStringLength : Nat) (json : Json) :
    Except LogError (List Char) :=
  match stringify maxStringLength json with
  | .ok text => .ok text
  | .error _ => stringify maxStringLength (truncate 0 json).1

def keyToJson : Key → Json
  | .prop name => .string name
  | .index i => .number (Number.ofNat i)

def pathToJson (path : ObjectPath) : Json := .array (path.map keyToJson)

def memberToJson (key : String) (value : Option Json) : List (JsString × Json) :=
  (value.map fun json => (ofText key, json)).toList

def Entry.toJson : Entry → Json
  | .initial v => .object ((ofText "kind", .number (Number.ofNat 0)) :: memberToJson "v" v.toJson)
  | .set k v =>
    .object ((ofText "kind", .number (Number.ofNat 1)) :: (ofText "k", pathToJson k) :: memberToJson "v" v.toJson)
  | .push k v i =>
    .object ((ofText "kind", .number (Number.ofNat 2)) :: (ofText "k", pathToJson k) ::
      (memberToJson "v" (v.map fun items => .array (Value.itemsToJson items)) ++
        memberToJson "i" (i.map fun i => .number (Number.ofNat i))))
  | .delete k => .object [(ofText "kind", .number (Number.ofNat 3)), (ofText "k", pathToJson k)]

def keyOfValue : Value → Except LogError Key
  | .string name => .ok (.prop name)
  | .number n =>
    match n.toInt? with
    | some (.ofNat i) => .ok (.index i)
    | _ => .error .typeError
  | _ => .error .typeError

def pathOfValue : Value → Except LogError ObjectPath
  | .array items => items.mapM keyOfValue
  | _ => .error .typeError

def naturalOfValue : Value → Except LogError (Option Nat)
  | .undefined => .ok none
  | .number n =>
    match n.toInt? with
    | some (.ofNat i) => .ok (some i)
    | _ => .error .rangeError
  | _ => .error .rangeError

def itemsOfValue : Value → Except LogError (Option (List Value))
  | .undefined | .null => .ok none
  | .array items => .ok (some items)
  | _ => .error .typeError

def Entry.ofValue (entry : Value) : Except LogError Entry := do
  match ← property entry (ofText "kind") with
  | .number n =>
    let v := optionalProperty entry (ofText "v")
    let k := optionalProperty entry (ofText "k")
    match n.toInt? with
    | some 0 => return .initial v
    | some 1 => return .set (← pathOfValue k) v
    | some 2 =>
      let i ← naturalOfValue (optionalProperty entry (ofText "i"))
      return .push (← pathOfValue k) (← itemsOfValue v) i
    | some 3 => return .delete (← pathOfValue k)
    | _ => throw .unknownKind
  | _ => throw .unknownKind

end Text

section Replay

def getKey (v : Value) (k : Key) : Except LogError Value :=
  match v, k with
  | .undefined, _ | .null, _ => .error .typeError
  | .object members, .prop name => .ok (Value.member members name)
  | .object members, .index i => .ok (Value.member members ((decimal i).flatMap unitsOf))
  | .array items, .index i => .ok (items[i]?.getD .undefined)
  | _, _ => .ok .undefined

/-- `obj[key] = value`; a named property of an array is no part of its data. -/
def setKey (v : Value) (k : Key) (value : Value) : Except LogError Value :=
  match v, k with
  | .object members, .prop name => .ok (.object (setFirst (fun m => m.1 == name) (name, value) members))
  | .object members, .index i =>
    let name := (decimal i).flatMap unitsOf
    .ok (.object (setFirst (fun m => m.1 == name) (name, value) members))
  | .array items, .index i =>
    if i < items.length then .ok (.array (items.set i value))
    else .ok (.array (items ++ List.replicate (i - items.length) .undefined ++ [value]))
  | .array items, .prop _ => .ok (.array items)
  | _, _ => .error .typeError

def modifyAt (v : Value) (path : ObjectPath) (f : Value → Except LogError Value) :
    Except LogError Value :=
  match path with
  | [] => f v
  | k :: path => do
      let part ← getKey v k
      let part ← modifyAt part path f
      setKey v k part

def applySet (state : Value) (path : ObjectPath) (value : Value) : Except LogError Value :=
  match path.getLast? with
  | none => return state
  | some k => modifyAt state path.dropLast fun obj => setKey obj k value

/-- `arr.length = startIndex`. -/
def setLength (items : List Value) : Option Nat → List Value
  | none => items
  | some startIndex => items.take startIndex ++ List.replicate (startIndex - items.length) .undefined

/-- The path of the root has no last key, which then reads as the name undefined. -/
def applyPush (state : Value) (path : ObjectPath) (values : Option (List Value))
    (startIndex : Option Nat) : Except LogError Value :=
  let arrayKey := path.getLast?.getD (.prop (ofText "undefined"))
  modifyAt state path.dropLast fun obj => do
    let arr ← getKey obj arrayKey
    let items ← match arr with
      | .array items => pure items
      | arr => if arr.isTruthy then throw .typeError else pure []
    setKey obj arrayKey (.array (setLength items startIndex ++ values.getD []))

def applyEntry (state : Value) : Entry → Except LogError Value
  | .initial v => return v
  | .set k v => do
      if state.shape = .undefined then throw .missingInitial
      applySet state k v
  | .push k v i => do
      if state.shape = .undefined then throw .missingInitial
      applyPush state k v i
  | .delete k => do
      if state.shape = .undefined then throw .missingInitial
      applySet state k .undefined

end Replay

/-- The last value that is taken for stored, and the one of a write that is not confirmed yet. -/
structure Log where
  previous : Value
  entryCount : Nat
  pending : Option (Value × Nat)

inductive Op
  | append
  | replace

namespace Log

variable {α : Type}

def empty : Log := ⟨.undefined, 0, none⟩

def lineFeedByte : UInt8 := 10

def line (maxStringLength : Nat) (entry : Entry) : Except LogError (List UInt8) :=
  (stringifyEntryWithFallback maxStringLength entry.toJson).map fun text => utf8Bytes (text ++ ['\n'])

/-- Creates an initial log file from the given object; the state is committed at once. -/
def createInitial (maxStringLength : Nat) (transform : Transform α) (current : α) :
    Except LogError (List UInt8) × Log :=
  let value := transform.extract current
  (line maxStringLength (.initial value), ⟨value, 1, none⟩)

def readLines (state : Value) (lineCount : Nat) :
    List (List UInt8) → Except LogError (Value × Nat)
  | [] => return (state, lineCount)
  | [] :: lines => readLines state lineCount lines
  | bytes :: lines =>
    match (utf8Text bytes).bind Json.parse with
    | none => throw .invalidText
    | some json => do
        let entry ← Entry.ofValue (Value.ofJson json)
        let state ← applyEntry state entry
        readLines state (lineCount + 1) lines

def read (content : List UInt8) : Except LogError (Value × Log) := do
  let (state, lineCount) ← readLines .undefined 0 (content.splitOn lineFeedByte)
  if lineCount = 0 then throw .emptyLog
  return (state, ⟨state, lineCount, none⟩)

def lines (maxStringLength : Nat) : List Entry → Except LogError (List UInt8)
  | [] => return []
  | entry :: entries => do
      let first ← line maxStringLength entry
      let rest ← lines maxStringLength entries
      return first ++ rest

def write (maxStringLength : Nat) (transform : Transform α) (compactAfterEntries : Nat) (log : Log)
    (current : α) : Except LogError (Op × List UInt8) × Log :=
  let currentValue := transform.extract current
  if log.previous.isTruthy = false ∨ log.entryCount > compactAfterEntries then
    ((line maxStringLength (.initial currentValue)).map fun data => (.replace, data),
      { log with pending := some (currentValue, 1) })
  else
    match diff transform [] log.previous currentValue with
    | .error e => (.error e, log)
    | .ok [] => (.ok (.append, []), { log with pending := none })
    | .ok entries =>
      ((lines maxStringLength entries).map fun data => (.append, data),
        { log with pending := some (currentValue, log.entryCount + entries.length) })

/-- Commits the internal state after a successful write to disk. -/
def confirmWrite (log : Log) : Log :=
  match log.pending with
  | none => log
  | some (previous, entryCount) => ⟨previous, entryCount, none⟩

end Log

end Gavea.MutationLog
