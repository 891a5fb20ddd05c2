import Gavea.Edits.TextChange
import Gavea.Wire.Framing

namespace Gavea.Wire.VSBuffer

open List

def writeUInt16LE (destination : VSBuffer) (value offset : Nat) : VSBuffer :=
  let destination := List.set destination offset (UInt8.ofNat (value &&& 0b11111111))
  let value := (value % 2 ^ 32) >>> 8
  List.set destination (offset + 1) (UInt8.ofNat (value &&& 0b11111111))

def readUInt16LE (source : VSBuffer) (offset : Nat) : Nat :=
  readUInt8 source offset ||| readUInt8 source (offset + 1) <<< 8

def filled (size : Nat) (bytes : List UInt8) : VSBuffer :=
  bytes ++ List.replicate (size - bytes.length) 0

def HasAt (b : VSBuffer) (offset : Nat) (bytes : List UInt8) : Prop := bytes <+: b.drop offset

variable {b : VSBuffer} {bytes bytes' : List UInt8} {size offset value : Nat} {byte : UInt8}

theorem filled_nil (size : Nat) : filled size [] = alloc size := rfl

theorem filled_all (h : bytes.length = size) : filled size bytes = bytes := by
  rw [filled, h, Nat.sub_self, replicate_zero, append_nil]

theorem set_filled (k : Nat) : List.set (filled size bytes) (bytes.length + k) byte =
    bytes ++ List.set (List.replicate (size - bytes.length) 0) k byte := by
  rw [filled, set_append_right _ _ (Nat.le_add_right _ _), Nat.add_sub_cancel_left]

theorem filled_append :
    filled size (bytes ++ bytes') =
      bytes ++ (bytes' ++ List.replicate (size - bytes.length - bytes'.length) 0) := by
  rw [filled, append_assoc, length_append, Nat.sub_sub]

theorem writeUInt8_filled (h : bytes.length + 1 ≤ size) :
    (filled size bytes).writeUInt8 value bytes.length =
      filled size (bytes ++ [UInt8.ofNat value]) := by
  obtain ⟨k, hk⟩ : ∃ k, size - bytes.length = k + 1 := ⟨size - bytes.length - 1, by omega⟩
  have hset := @set_filled bytes size (UInt8.ofNat value) 0
  rw [Nat.add_zero, hk, replicate_succ, set_cons_zero] at hset
  rw [writeUInt8, hset, filled_append, hk]
  rfl

theorem writeUInt32BE_filled (h : bytes.length + 4 ≤ size) :
    (filled size bytes).writeUInt32BE value bytes.length =
      filled size (bytes ++ bytesBE value) := by
  obtain ⟨k, hk⟩ : ∃ k, size - bytes.length = k + 4 := ⟨size - bytes.length - 4, by omega⟩
  have hset (rest : List UInt8) (i : Nat) (byte : UInt8) :
      List.set (bytes ++ rest) (bytes.length + i) byte = bytes ++ List.set rest i byte := by
    rw [set_append_right _ _ (Nat.le_add_right _ _), Nat.add_sub_cancel_left]
  have hfirst (rest : List UInt8) (byte : UInt8) :
      List.set (bytes ++ rest) bytes.length byte = bytes ++ List.set rest 0 byte := hset rest 0 byte
  rw [writeUInt32BE, filled_append, filled, hk]
  simp only [hset, hfirst, replicate_succ, set_cons_succ, set_cons_zero, bytesBE,
    length_cons, length_nil, cons_append, nil_append]
  rfl

def bytesLE (value : Nat) : List UInt8 :=
  [UInt8.ofNat (value &&& 0b11111111), UInt8.ofNat ((value % 2 ^ 32) >>> 8 &&& 0b11111111)]

theorem writeUInt16LE_filled (h : bytes.length + 2 ≤ size) :
    (filled size bytes).writeUInt16LE value bytes.length =
      filled size (bytes ++ bytesLE value) := by
  have hlow := @writeUInt8_filled bytes size (value &&& 0b11111111) (by omega)
  have hhigh := @writeUInt8_filled (bytes ++ [UInt8.ofNat (value &&& 0b11111111)]) size
    ((value % 2 ^ 32) >>> 8 &&& 0b11111111) (by rw [length_append]; exact h)
  rw [append_assoc, length_append] at hhigh
  rw [writeUInt8] at hlow hhigh
  rw [writeUInt16LE, hlow]
  exact hhigh

theorem HasAt.append_iff : b.HasAt offset (bytes ++ bytes') ↔
    b.HasAt offset bytes ∧ b.HasAt (offset + bytes.length) bytes' := by
  constructor
  · rintro ⟨rest, h⟩
    refine ⟨⟨bytes' ++ rest, by rw [← append_assoc, h]⟩, rest, ?_⟩
    rw [← drop_drop, ← h, append_assoc, drop_left]
  · rintro ⟨⟨rest, h⟩, rest', h'⟩
    rw [← drop_drop, ← h, drop_left] at h'
    exact ⟨rest', by rw [append_assoc, h', h]⟩

theorem HasAt.fits (h : b.HasAt offset bytes) (hne : bytes ≠ []) :
    offset + bytes.length ≤ b.length := by
  have hle := List.IsPrefix.length_le h
  have hpos := length_pos_of_ne_nil hne
  rw [length_drop] at hle
  omega

theorem HasAt.readUInt8 (h : b.HasAt offset [byte]) : b.readUInt8 offset = byte.toNat := by
  obtain ⟨rest, h⟩ := h
  have hget : b[offset]? = some byte := by
    rw [← Nat.add_zero offset, ← getElem?_drop, ← h]
    rfl
  rw [VSBuffer.readUInt8, getD_eq_getElem?_getD, hget, Option.getD_some]

theorem HasAt.cons_iff :
    b.HasAt offset (byte :: bytes) ↔ b.HasAt offset [byte] ∧ b.HasAt (offset + 1) bytes :=
  @HasAt.append_iff b [byte] bytes offset

theorem HasAt.readUInt32BE (h : b.HasAt offset (bytesBE value)) (hvalue : value < 2 ^ 32) :
    b.readUInt32BE offset = value := by
  obtain ⟨h0, h⟩ := HasAt.cons_iff.mp h
  obtain ⟨h1, h⟩ := HasAt.cons_iff.mp h
  obtain ⟨h2, h3⟩ := HasAt.cons_iff.mp h
  rw [VSBuffer.readUInt32BE, h0.readUInt8, h1.readUInt8, h2.readUInt8, h3.readUInt8]
  exact toNat_bytesBE hvalue

theorem HasAt.readUInt16LE {code : UInt16} (h : b.HasAt offset (bytesLE code.toNat)) :
    UInt16.ofNat (b.readUInt16LE offset) = code := by
  obtain ⟨h0, h1⟩ := HasAt.cons_iff.mp h
  have hlt := code.toNat_lt
  have hmask (n : Nat) : n &&& 0b11111111 = n % 2 ^ 8 := Nat.and_two_pow_sub_one_eq_mod n 8
  have hlow : (UInt8.ofNat (code.toNat &&& 0b11111111)).toNat = code.toNat % 2 ^ 8 := by
    rw [hmask, UInt8.toNat_ofNat']
    omega
  have hhigh : (UInt8.ofNat ((code.toNat % 2 ^ 32) >>> 8 &&& 0b11111111)).toNat =
      code.toNat / 2 ^ 8 := by
    rw [hmask, UInt8.toNat_ofNat', Nat.shiftRight_eq_div_pow]
    omega
  rw [VSBuffer.readUInt16LE, h0.readUInt8, h1.readUInt8, hlow, hhigh, Nat.or_comm,
    ← Nat.shiftLeft_add_eq_or_of_lt (Nat.mod_lt _ (by decide)), Nat.shiftLeft_eq, Nat.div_add_mod', UInt16.ofNat_toNat]

end Gavea.Wire.VSBuffer

namespace Gavea.EditStack

open List

open Edits Lib.Js Wire

/-- A byte is stored modulo 2 ^ 8 and a shift takes the number modulo 2 ^ 32, so this is what
`writeUInt32BE` sees of a number. -/
def toUint32 (value : Int) : Nat := (value % 2 ^ 32).toNat

def Fits32 (value : Int) : Prop := 0 ≤ value ∧ value < 2 ^ 32

def compatDecodeUTF16LE (source : VSBuffer) (offset : Nat) : Nat → JsString
  | 0 => []
  | len + 1 => UInt16.ofNat (source.readUInt16LE offset) :: compatDecodeUTF16LE source (offset + 2) len

def uint16Array (source : VSBuffer) (offset len : Nat) : Option JsString :=
  if offset % 2 = 0 ∧ offset + 2 * len ≤ source.length then
    some ((List.range len).map fun i => UInt16.ofNat (source.readUInt16LE (offset + 2 * i)))
  else none

def startsWithBOM (view : JsString) : Bool := view.head?.any fun first => first == 0xFEFF || first == 0xFFFE

/-- `decode` is the `TextDecoder` of the platform. -/
def decodeUTF16LE (decode : JsString → JsString) (source : VSBuffer) (offset len : Nat) :
    Option JsString := do
  let view ← uint16Array source offset len
  if startsWithBOM view then some (compatDecodeUTF16LE source offset len)
  else some (decode view)

namespace TextChange

def writeStringSize (str : JsString) : Nat := 4 + 2 * str.length

def writeCodeUnits (b : VSBuffer) (offset : Nat) : JsString → VSBuffer × Nat
  | [] => (b, offset)
  | code :: rest => writeCodeUnits (b.writeUInt16LE code.toNat offset) (offset + 2) rest

def writeString (b : VSBuffer) (str : JsString) (offset : Nat) : VSBuffer × Nat :=
  writeCodeUnits (b.writeUInt32BE str.length offset) (offset + 4) str

def readString (decode : JsString → JsString) (b : VSBuffer) (offset : Nat) : Option JsString :=
  decodeUTF16LE decode b (offset + 4) (b.readUInt32BE offset)

def writeSize (c : TextChange) : Nat := 4 + 4 + writeStringSize c.oldText + writeStringSize c.newText

def write (c : TextChange) (b : VSBuffer) (offset : Nat) : VSBuffer × Nat :=
  let b := b.writeUInt32BE (toUint32 c.oldPosition) offset
  let b := b.writeUInt32BE (toUint32 c.newPosition) (offset + 4)
  let (b, offset) := writeString b c.oldText (offset + 4 + 4)
  writeString b c.newText offset

def read (decode : JsString → JsString) (b : VSBuffer) (offset : Nat) (dest : List TextChange) :
    Option (List TextChange × Nat) := do
  let oldPosition := b.readUInt32BE offset
  let newPosition := b.readUInt32BE (offset + 4)
  let offset := offset + 4 + 4
  let oldText ← readString decode b offset
  let offset := offset + writeStringSize oldText
  let newText ← readString decode b offset
  let offset := offset + writeStringSize newText
  some (dest ++ [⟨oldPosition, oldText, newPosition, newText⟩], offset)

end TextChange

inductive EndOfLineSequence
  | LF
  | CRLF

namespace EndOfLineSequence

def value : EndOfLineSequence → Nat
  | LF => 0
  | CRLF => 1

/-- No other number is a member of the enumeration. -/
def ofValue : Nat → Option EndOfLineSequence
  | 0 => some LF
  | 1 => some CRLF
  | _ => none

end EndOfLineSequence

structure Selection where
  selectionStartLineNumber : Int
  selectionStartColumn : Int
  positionLineNumber : Int
  positionColumn : Int

structure Selection.Fits (s : Selection) : Prop where
  selectionStartLineNumber : Fits32 s.selectionStartLineNumber
  selectionStartColumn : Fits32 s.selectionStartColumn
  positionLineNumber : Fits32 s.positionLineNumber
  positionColumn : Fits32 s.positionColumn

structure SingleModelEditStackData where
  beforeVersionId : Int
  afterVersionId : Int
  beforeEOL : EndOfLineSequence
  afterEOL : EndOfLineSequence
  beforeCursorState : Option (List Selection)
  afterCursorState : Option (List Selection)
  changes : List TextChange

namespace SingleModelEditStackData

def selectionsOf (selections : Option (List Selection)) : List Selection := selections.getD []

def writeSelectionsSize (selections : Option (List Selection)) : Nat := 4 + 4 * 4 * (selectionsOf selections).length

def writeSelectionsLoop (b : VSBuffer) (offset : Nat) : List Selection → VSBuffer × Nat
  | [] => (b, offset)
  | selection :: rest =>
    let b := b.writeUInt32BE (toUint32 selection.selectionStartLineNumber) offset
    let b := b.writeUInt32BE (toUint32 selection.selectionStartColumn) (offset + 4)
    let b := b.writeUInt32BE (toUint32 selection.positionLineNumber) (offset + 4 + 4)
    let b := b.writeUInt32BE (toUint32 selection.positionColumn) (offset + 4 + 4 + 4)
    writeSelectionsLoop b (offset + 4 + 4 + 4 + 4) rest

def writeSelections (b : VSBuffer) (selections : Option (List Selection)) (offset : Nat) :
    VSBuffer × Nat :=
  writeSelectionsLoop (b.writeUInt32BE (selectionsOf selections).length offset) (offset + 4) (selectionsOf selections)

def readSelectionsLoop (b : VSBuffer) (offset : Nat) (dest : List Selection) :
    Nat → List Selection × Nat
  | 0 => (dest, offset)
  | count + 1 =>
    readSelectionsLoop b (offset + 4 + 4 + 4 + 4)
      (dest ++ [⟨b.readUInt32BE offset, b.readUInt32BE (offset + 4),
        b.readUInt32BE (offset + 4 + 4), b.readUInt32BE (offset + 4 + 4 + 4)⟩]) count

def readSelections (b : VSBuffer) (offset : Nat) (dest : List Selection) : List Selection × Nat :=
  readSelectionsLoop b (offset + 4) dest (b.readUInt32BE offset)

def necessarySize (d : SingleModelEditStackData) : Nat :=
  d.changes.foldl (fun size change => size + TextChange.writeSize change)
    (4 + 4 + 1 + 1 + writeSelectionsSize d.beforeCursorState + writeSelectionsSize d.afterCursorState + 4)

def writeChanges (b : VSBuffer) (offset : Nat) : List TextChange → VSBuffer × Nat
  | [] => (b, offset)
  | change :: rest =>
    let (b, offset) := TextChange.write change b offset
    writeChanges b offset rest

def writeHead (d : SingleModelEditStackData) : VSBuffer × Nat :=
  let b := VSBuffer.alloc d.necessarySize
  let b := b.writeUInt32BE (toUint32 d.beforeVersionId) 0
  let b := b.writeUInt32BE (toUint32 d.afterVersionId) 4
  let b := b.writeUInt8 d.beforeEOL.value (4 + 4)
  let b := b.writeUInt8 d.afterEOL.value (4 + 4 + 1)
  let (b, offset) := writeSelections b d.beforeCursorState (4 + 4 + 1 + 1)
  let (b, offset) := writeSelections b d.afterCursorState offset
  (b.writeUInt32BE d.changes.length offset, offset + 4)

def written (d : SingleModelEditStackData) (i : Nat) : VSBuffer × Nat :=
  let (b, offset) := d.writeHead
  writeChanges b offset (d.changes.take i)

def serialize (d : SingleModelEditStackData) : VSBuffer := (d.written d.changes.length).1

def readChanges (decode : JsString → JsString) (b : VSBuffer) :
    Nat → List TextChange → Nat → Option (List TextChange × Nat)
  | offset, dest, 0 => some (dest, offset)
  | offset, dest, count + 1 => do
      let (dest, offset) ← TextChange.read decode b offset dest
      readChanges decode b offset dest count

/-- `deserialize` up to the loop over the changes: what is read and the offset of the loop. -/
def readHead (b : VSBuffer) : (List Selection × List Selection × Nat) × Nat :=
  let before := readSelections b (4 + 4 + 1 + 1) []
  let after := readSelections b before.2 []
  ((before.1, after.1, b.readUInt32BE after.2), after.2 + 4)

def deserialize (decode : JsString → JsString) (b : VSBuffer) :
    Option SingleModelEditStackData := do
  let beforeVersionId := b.readUInt32BE 0
  let afterVersionId := b.readUInt32BE 4
  let beforeEOL ← EndOfLineSequence.ofValue (b.readUInt8 (4 + 4))
  let afterEOL ← EndOfLineSequence.ofValue (b.readUInt8 (4 + 4 + 1))
  let ((beforeCursorState, afterCursorState, changeCount), offset) := readHead b
  let (changes, _) ← readChanges decode b offset [] changeCount
  some ⟨beforeVersionId, afterVersionId, beforeEOL, afterEOL, some beforeCursorState, some afterCursorState, changes⟩

end SingleModelEditStackData

open VSBuffer

variable {b : VSBuffer} {size offset : Nat} {bytes : List UInt8} {text : JsString}
  {decode : JsString → JsString}

theorem toUint32_lt (value : Int) : toUint32 value < 2 ^ 32 := by
  unfold toUint32
  omega

theorem Fits32.cast_toUint32 {value : Int} (h : Fits32 value) : (toUint32 value : Int) = value := by
  obtain ⟨h0, h1⟩ := h
  unfold toUint32
  omega

theorem Fits32.read {value : Int} (h : Fits32 value)
    (hat : b.HasAt offset (bytesBE (toUint32 value))) :
    (b.readUInt32BE offset : Int) = value := by
  rw [hat.readUInt32BE (toUint32_lt value), h.cast_toUint32]

/-- What the decoder of the platform is relied on for: it gives the text back, unless it would
take the first code unit for a byte order mark. -/
def Decodes (decode : JsString → JsString) (text : JsString) : Prop := startsWithBOM text = false → decode text = text

namespace TextChange

def textBytes (text : JsString) : List UInt8 := text.flatMap fun code => bytesLE code.toNat

def stringBytes (text : JsString) : List UInt8 := bytesBE text.length ++ textBytes text

def changeBytes (c : TextChange) : List UInt8 :=
  bytesBE (toUint32 c.oldPosition) ++ bytesBE (toUint32 c.newPosition) ++ stringBytes c.oldText ++ stringBytes c.newText

theorem textBytes_cons (code : CodeUnit) :
    textBytes (code :: text) = bytesLE code.toNat ++ textBytes text := flatMap_cons

theorem length_textBytes (text : JsString) : (textBytes text).length = 2 * text.length := by
  induction text with
  | nil => rfl
  | cons code text ih =>
    rw [textBytes_cons, length_append, ih, length_cons, bytesLE, length_cons, length_singleton]
    omega

theorem length_stringBytes (text : JsString) :
    (stringBytes text).length = writeStringSize text := by
  rw [stringBytes, length_append, length_textBytes]
  rfl

theorem length_changeBytes (c : TextChange) : (changeBytes c).length = writeSize c := by
  rw [changeBytes, length_append, length_append, length_append, length_stringBytes, length_stringBytes]
  rfl

theorem writeCodeUnits_filled (h : bytes.length + 2 * text.length ≤ size) :
    writeCodeUnits (filled size bytes) bytes.length text =
      (filled size (bytes ++ textBytes text), (bytes ++ textBytes text).length) := by
  induction text generalizing bytes with
  | nil => rw [writeCodeUnits, textBytes, flatMap_nil, append_nil]
  | cons code text ih =>
    rw [length_cons] at h
    have hlen : (bytes ++ bytesLE code.toNat).length = bytes.length + 2 := length_append
    rw [writeCodeUnits, writeUInt16LE_filled (by omega), ← hlen, ih (by omega), textBytes_cons, append_assoc]

theorem writeString_filled (h : bytes.length + writeStringSize text ≤ size) :
    writeString (filled size bytes) text bytes.length =
      (filled size (bytes ++ stringBytes text), (bytes ++ stringBytes text).length) := by
  rw [writeStringSize] at h
  have hlen : (bytes ++ bytesBE text.length).length = bytes.length + 4 := length_append
  rw [writeString, writeUInt32BE_filled (by omega), ← hlen, writeCodeUnits_filled (by omega), stringBytes, append_assoc]

theorem write_filled {c : TextChange} (h : bytes.length + writeSize c ≤ size) :
    write c (filled size bytes) bytes.length =
      (filled size (bytes ++ changeBytes c), (bytes ++ changeBytes c).length) := by
  rw [writeSize] at h
  have hold : (bytes ++ bytesBE (toUint32 c.oldPosition)).length = bytes.length + 4 := length_append
  have hnew : (bytes ++ bytesBE (toUint32 c.oldPosition) ++
      bytesBE (toUint32 c.newPosition)).length = bytes.length + 4 + 4 := by
    rw [length_append, hold]
    rfl
  have htext : (bytes ++ bytesBE (toUint32 c.oldPosition) ++ bytesBE (toUint32 c.newPosition) ++
      stringBytes c.oldText).length = bytes.length + 4 + 4 + writeStringSize c.oldText := by
    rw [length_append, hnew, length_stringBytes]
  simp only [write]
  rw [writeUInt32BE_filled (by omega), ← hold, writeUInt32BE_filled (by omega), hold, ← hnew,
    writeString_filled (by omega), writeString_filled (by omega), changeBytes]
  simp only [append_assoc]

theorem getElem_textBytes (hat : b.HasAt offset (textBytes text)) {i : Nat} (hi : i < text.length) :
    UInt16.ofNat (b.readUInt16LE (offset + 2 * i)) = text[i] := by
  induction text generalizing offset i with
  | nil => exact absurd hi (Nat.not_lt_zero _)
  | cons code text ih =>
    rw [textBytes_cons] at hat
    obtain ⟨hcode, hat⟩ := HasAt.append_iff.mp hat
    cases i with
    | zero => exact hcode.readUInt16LE
    | succ i =>
      rw [getElem_cons_succ, ← ih hat (Nat.lt_of_succ_lt_succ hi), Nat.mul_succ, Nat.add_comm (2 * i), ← Nat.add_assoc]
      rfl

theorem compatDecodeUTF16LE_eq (hat : b.HasAt offset (textBytes text)) :
    compatDecodeUTF16LE b offset text.length = text := by
  induction text generalizing offset with
  | nil => rfl
  | cons code text ih =>
    rw [textBytes_cons] at hat
    obtain ⟨hcode, hat⟩ := HasAt.append_iff.mp hat
    rw [length_cons, compatDecodeUTF16LE, hcode.readUInt16LE]
    exact congrArg (code :: ·) (ih hat)

theorem uint16Array_eq (hat : b.HasAt offset (textBytes text)) (hoffset : offset % 2 = 0)
    (hle : offset ≤ b.length) : uint16Array b offset text.length = some text := by
  have hfits := List.IsPrefix.length_le hat
  rw [length_textBytes, length_drop] at hfits
  rw [uint16Array, if_pos ⟨hoffset, by omega⟩]
  congr 1
  refine ext_getElem (by rw [length_map, length_range]) fun i _ hi => ?_
  rw [getElem_map, getElem_range, getElem_textBytes hat hi]

theorem readString_eq (hat : b.HasAt offset (stringBytes text)) (hoffset : offset % 2 = 0)
    (hlen : text.length < 2 ^ 32) (hdecode : Decodes decode text) :
    readString decode b offset = some text := by
  obtain ⟨hsize, htext⟩ := HasAt.append_iff.mp hat
  have hfits : offset + 4 ≤ b.length := hsize.fits (cons_ne_nil _ _)
  have hview := uint16Array_eq htext (by change (offset + 4) % 2 = 0; omega) hfits
  rw [readString, hsize.readUInt32BE hlen, decodeUTF16LE]
  change (uint16Array b (offset + (bytesBE text.length).length) text.length).bind _ = _
  rw [hview, Option.bind_some]
  split_ifs with hbom
  · exact congrArg some (compatDecodeUTF16LE_eq htext)
  · rw [hdecode (Bool.eq_false_of_not_eq_true hbom)]

structure Readable (decode : JsString → JsString) (c : TextChange) : Prop where
  oldPosition : Fits32 c.oldPosition
  newPosition : Fits32 c.newPosition
  oldLength : c.oldText.length < 2 ^ 32
  newLength : c.newText.length < 2 ^ 32
  oldText : Decodes decode c.oldText
  newText : Decodes decode c.newText

theorem read_eq {c : TextChange} (hat : b.HasAt offset (changeBytes c)) (hoffset : offset % 2 = 0)
    (h : Readable decode c) (dest : List TextChange) :
    read decode b offset dest = some (dest ++ [c], offset + (changeBytes c).length) := by
  obtain ⟨hat', hnewText⟩ := HasAt.append_iff.mp hat
  obtain ⟨hat', holdText⟩ := HasAt.append_iff.mp hat'
  obtain ⟨hold, hnew⟩ := HasAt.append_iff.mp hat'
  have hlen : offset + (bytesBE (toUint32 c.oldPosition) ++
      bytesBE (toUint32 c.newPosition)).length = offset + 4 + 4 := by
    rw [length_append]
    rfl
  have hlen' : offset + (bytesBE (toUint32 c.oldPosition) ++ bytesBE (toUint32 c.newPosition) ++
      stringBytes c.oldText).length = offset + 4 + 4 + writeStringSize c.oldText := by
    rw [length_append, ← Nat.add_assoc, hlen, length_stringBytes]
  change b.HasAt (offset + 4) _ at hnew
  rw [hlen] at holdText
  rw [hlen'] at hnewText
  have hevenSize : writeStringSize c.oldText % 2 = 0 := by
    rw [writeStringSize]
    omega
  rw [read, readString_eq holdText (by omega) h.oldLength h.oldText]
  simp only [Option.bind_eq_bind, Option.bind_some]
  rw [readString_eq hnewText (by omega) h.newLength h.newText, Option.bind_some, h.oldPosition.read hold,
    h.newPosition.read hnew, length_changeBytes, writeSize, ← Nat.add_assoc, ← Nat.add_assoc, ← Nat.add_assoc]

end TextChange

namespace SingleModelEditStackData

def selectionBytes (s : Selection) : List UInt8 :=
  bytesBE (toUint32 s.selectionStartLineNumber) ++ bytesBE (toUint32 s.selectionStartColumn) ++
    bytesBE (toUint32 s.positionLineNumber) ++ bytesBE (toUint32 s.positionColumn)

def selectionsBytes (selections : Option (List Selection)) : List UInt8 :=
  bytesBE (selectionsOf selections).length ++ (selectionsOf selections).flatMap selectionBytes

def headBytes (d : SingleModelEditStackData) : List UInt8 :=
  bytesBE (toUint32 d.beforeVersionId) ++ bytesBE (toUint32 d.afterVersionId) ++
    [UInt8.ofNat d.beforeEOL.value] ++ [UInt8.ofNat d.afterEOL.value] ++
    selectionsBytes d.beforeCursorState ++ selectionsBytes d.afterCursorState ++
    bytesBE d.changes.length

def changesBytes (changes : List TextChange) : List UInt8 := changes.flatMap TextChange.changeBytes

variable {d : SingleModelEditStackData} {changes : List TextChange}

theorem changesBytes_cons (c : TextChange) : changesBytes (c :: changes) =
    TextChange.changeBytes c ++ changesBytes changes := flatMap_cons

theorem length_flatMap_selectionBytes (selections : List Selection) :
    (selections.flatMap selectionBytes).length = 4 * 4 * selections.length := by
  induction selections with
  | nil => rfl
  | cons s selections ih =>
    rw [flatMap_cons, length_append, ih, length_cons, Nat.mul_succ, Nat.add_comm]
    rfl

theorem length_selectionsBytes (selections : Option (List Selection)) :
    (selectionsBytes selections).length = writeSelectionsSize selections := by
  rw [selectionsBytes, length_append, length_flatMap_selectionBytes]
  rfl

theorem foldl_writeSize (changes : List TextChange) (size : Nat) :
    changes.foldl (fun size change => size + TextChange.writeSize change) size =
      size + (changesBytes changes).length := by
  induction changes generalizing size with
  | nil => rfl
  | cons c changes ih =>
    rw [foldl_cons, ih, changesBytes_cons, length_append, TextChange.length_changeBytes, Nat.add_assoc]

theorem length_headBytes (d : SingleModelEditStackData) : (headBytes d).length =
    4 + 4 + 1 + 1 + writeSelectionsSize d.beforeCursorState +
      writeSelectionsSize d.afterCursorState + 4 := by
  simp only [headBytes, length_append, length_selectionsBytes, length_singleton]
  rfl

theorem necessarySize_eq (d : SingleModelEditStackData) :
    d.necessarySize = (headBytes d).length + (changesBytes d.changes).length := by
  rw [necessarySize, foldl_writeSize, length_headBytes]

theorem writeSelectionsLoop_filled {selections : List Selection}
    (h : bytes.length + 4 * 4 * selections.length ≤ size) :
    writeSelectionsLoop (filled size bytes) bytes.length selections =
      (filled size (bytes ++ selections.flatMap selectionBytes),
        (bytes ++ selections.flatMap selectionBytes).length) := by
  induction selections generalizing bytes with
  | nil => rw [writeSelectionsLoop, flatMap_nil, append_nil]
  | cons s selections ih =>
    rw [length_cons] at h
    have hline : (bytes ++ bytesBE (toUint32 s.selectionStartLineNumber)).length =
        bytes.length + 4 := length_append
    have hcolumn : (bytes ++ bytesBE (toUint32 s.selectionStartLineNumber) ++
        bytesBE (toUint32 s.selectionStartColumn)).length = bytes.length + 4 + 4 := by
      rw [length_append, hline]
      rfl
    have hposition : (bytes ++ bytesBE (toUint32 s.selectionStartLineNumber) ++
        bytesBE (toUint32 s.selectionStartColumn) ++
        bytesBE (toUint32 s.positionLineNumber)).length = bytes.length + 4 + 4 + 4 := by
      rw [length_append, hcolumn]
      rfl
    have hall : (bytes ++ selectionBytes s).length = bytes.length + 4 + 4 + 4 + 4 := by
      rw [length_append]
      rfl
    simp only [writeSelectionsLoop]
    rw [← hall, ← hposition, ← hcolumn, ← hline, writeUInt32BE_filled (by omega),
      writeUInt32BE_filled (by omega), writeUInt32BE_filled (by omega), writeUInt32BE_filled (by omega)]
    have hbytes : bytes ++ bytesBE (toUint32 s.selectionStartLineNumber) ++
        bytesBE (toUint32 s.selectionStartColumn) ++ bytesBE (toUint32 s.positionLineNumber) ++
        bytesBE (toUint32 s.positionColumn) = bytes ++ selectionBytes s := by
      simp only [selectionBytes, append_assoc]
    rw [hbytes, ih (by omega), flatMap_cons, append_assoc]

theorem writeSelections_filled {selections : Option (List Selection)}
    (h : bytes.length + writeSelectionsSize selections ≤ size) :
    writeSelections (filled size bytes) selections bytes.length =
      (filled size (bytes ++ selectionsBytes selections),
        (bytes ++ selectionsBytes selections).length) := by
  rw [writeSelectionsSize] at h
  have hlen : (bytes ++ bytesBE (selectionsOf selections).length).length = bytes.length + 4 := length_append
  rw [writeSelections, writeUInt32BE_filled (by omega), ← hlen,
    writeSelectionsLoop_filled (by omega), selectionsBytes, append_assoc]

theorem writeHead_eq (d : SingleModelEditStackData) :
    d.writeHead = (filled d.necessarySize (headBytes d), (headBytes d).length) := by
  have hsize := necessarySize_eq d
  rw [length_headBytes] at hsize
  have hbefore : (filled d.necessarySize []).writeUInt32BE (toUint32 d.beforeVersionId) 0 =
      filled d.necessarySize (bytesBE (toUint32 d.beforeVersionId)) :=
    writeUInt32BE_filled (by change 0 + 4 ≤ _; omega)
  have hafter : (filled d.necessarySize (bytesBE (toUint32 d.beforeVersionId))).writeUInt32BE
      (toUint32 d.afterVersionId) 4 = filled d.necessarySize
        (bytesBE (toUint32 d.beforeVersionId) ++ bytesBE (toUint32 d.afterVersionId)) :=
    writeUInt32BE_filled (by change 4 + 4 ≤ _; omega)
  have hbeforeEOL : (filled d.necessarySize (bytesBE (toUint32 d.beforeVersionId) ++
      bytesBE (toUint32 d.afterVersionId))).writeUInt8 d.beforeEOL.value (4 + 4) =
      filled d.necessarySize (bytesBE (toUint32 d.beforeVersionId) ++
        bytesBE (toUint32 d.afterVersionId) ++ [UInt8.ofNat d.beforeEOL.value]) :=
    writeUInt8_filled (by change 4 + 4 + 1 ≤ _; omega)
  have hafterEOL : (filled d.necessarySize (bytesBE (toUint32 d.beforeVersionId) ++
      bytesBE (toUint32 d.afterVersionId) ++ [UInt8.ofNat d.beforeEOL.value])).writeUInt8 d.afterEOL.value (4 + 4 + 1) =
      filled d.necessarySize (bytesBE (toUint32 d.beforeVersionId) ++
        bytesBE (toUint32 d.afterVersionId) ++ [UInt8.ofNat d.beforeEOL.value] ++
        [UInt8.ofNat d.afterEOL.value]) :=
    writeUInt8_filled (by change 4 + 4 + 1 + 1 ≤ _; omega)
  simp only [writeHead]
  rw [← filled_nil, hbefore, hafter, hbeforeEOL, hafterEOL]
  have hlen : (bytesBE (toUint32 d.beforeVersionId) ++ bytesBE (toUint32 d.afterVersionId) ++
      [UInt8.ofNat d.beforeEOL.value] ++ [UInt8.ofNat d.afterEOL.value]).length = 4 + 4 + 1 + 1 :=
    rfl
  rw [← hlen, writeSelections_filled (by omega)]
  have hlen' : (bytesBE (toUint32 d.beforeVersionId) ++ bytesBE (toUint32 d.afterVersionId) ++
      [UInt8.ofNat d.beforeEOL.value] ++ [UInt8.ofNat d.afterEOL.value] ++
      selectionsBytes d.beforeCursorState).length =
        4 + 4 + 1 + 1 + writeSelectionsSize d.beforeCursorState := by
    rw [length_append, hlen, length_selectionsBytes]
  rw [writeSelections_filled (by omega)]
  have hlen'' : (bytesBE (toUint32 d.beforeVersionId) ++ bytesBE (toUint32 d.afterVersionId) ++
      [UInt8.ofNat d.beforeEOL.value] ++ [UInt8.ofNat d.afterEOL.value] ++
      selectionsBytes d.beforeCursorState ++ selectionsBytes d.afterCursorState).length =
        4 + 4 + 1 + 1 + writeSelectionsSize d.beforeCursorState +
          writeSelectionsSize d.afterCursorState := by
    rw [length_append, hlen', length_selectionsBytes]
  rw [writeUInt32BE_filled (by omega), length_headBytes, hlen'', headBytes]

theorem writeChanges_filled (h : bytes.length + (changesBytes changes).length ≤ size) :
    writeChanges (filled size bytes) bytes.length changes =
      (filled size (bytes ++ changesBytes changes), (bytes ++ changesBytes changes).length) := by
  induction changes generalizing bytes with
  | nil => rw [writeChanges, changesBytes, flatMap_nil, append_nil]
  | cons c changes ih =>
    rw [changesBytes_cons, length_append, TextChange.length_changeBytes] at h
    rw [writeChanges, TextChange.write_filled (by omega), changesBytes_cons, ← append_assoc]
    exact ih (by rw [length_append, TextChange.length_changeBytes]; omega)

theorem written_eq {i : Nat} : d.written i =
    (filled d.necessarySize (headBytes d ++ changesBytes (d.changes.take i)),
      (headBytes d ++ changesBytes (d.changes.take i)).length) := by
  have hsize := necessarySize_eq d
  have htake : changesBytes d.changes =
      changesBytes (d.changes.take i) ++ changesBytes (d.changes.drop i) := by
    rw [changesBytes, changesBytes, changesBytes, ← flatMap_append, take_append_drop]
  rw [htake, length_append] at hsize
  rw [written, writeHead_eq]
  exact writeChanges_filled (by omega)

theorem serialize_eq (d : SingleModelEditStackData) :
    d.serialize = headBytes d ++ changesBytes d.changes := by
  rw [serialize, written_eq, take_length]
  exact filled_all (by rw [length_append, necessarySize_eq])

theorem readSelectionsLoop_eq {selections : List Selection}
    (hat : b.HasAt offset (selections.flatMap selectionBytes))
    (h : ∀ s ∈ selections, s.Fits) (dest : List Selection) :
    readSelectionsLoop b offset dest selections.length =
      (dest ++ selections, offset + (selections.flatMap selectionBytes).length) := by
  induction selections generalizing offset dest with
  | nil => rw [length_nil, readSelectionsLoop, append_nil, flatMap_nil]; rfl
  | cons s selections ih =>
    obtain ⟨hs, hrest⟩ := forall_mem_cons.mp h
    rw [flatMap_cons] at hat ⊢
    obtain ⟨hat, hatRest⟩ := HasAt.append_iff.mp hat
    obtain ⟨hat, hpositionColumn⟩ := HasAt.append_iff.mp hat
    obtain ⟨hat, hpositionLine⟩ := HasAt.append_iff.mp hat
    obtain ⟨hstartLine, hstartColumn⟩ := HasAt.append_iff.mp hat
    change b.HasAt (offset + 4 + 4 + 4 + 4) _ at hatRest
    change b.HasAt (offset + 4 + 4 + 4) _ at hpositionColumn
    change b.HasAt (offset + 4 + 4) _ at hpositionLine
    change b.HasAt (offset + 4) _ at hstartColumn
    have hlen : (selectionBytes s).length = 4 + 4 + 4 + 4 := rfl
    rw [length_cons, readSelectionsLoop, hs.selectionStartLineNumber.read hstartLine,
      hs.selectionStartColumn.read hstartColumn, hs.positionLineNumber.read hpositionLine,
      hs.positionColumn.read hpositionColumn, ih hatRest hrest, append_assoc, singleton_append, length_append, hlen]
    simp only [Nat.add_assoc]

theorem readSelections_eq {selections : Option (List Selection)}
    (hat : b.HasAt offset (selectionsBytes selections))
    (h : ∀ s ∈ selectionsOf selections, s.Fits)
    (hlen : (selectionsOf selections).length < 2 ^ 32) :
    readSelections b offset [] =
      (selectionsOf selections, offset + writeSelectionsSize selections) := by
  obtain ⟨hcount, hat⟩ := HasAt.append_iff.mp hat
  change b.HasAt (offset + 4) _ at hat
  rw [readSelections, hcount.readUInt32BE hlen, readSelectionsLoop_eq hat h, nil_append,
    length_flatMap_selectionBytes, Nat.add_assoc]
  rfl

structure Readable (decode : JsString → JsString) (d : SingleModelEditStackData) : Prop where
  beforeVersionId : Fits32 d.beforeVersionId
  afterVersionId : Fits32 d.afterVersionId
  beforeCursorState : ∀ s ∈ selectionsOf d.beforeCursorState, s.Fits
  beforeLength : (selectionsOf d.beforeCursorState).length < 2 ^ 32
  afterCursorState : ∀ s ∈ selectionsOf d.afterCursorState, s.Fits
  afterLength : (selectionsOf d.afterCursorState).length < 2 ^ 32
  changes : ∀ c ∈ d.changes, TextChange.Readable decode c
  changesLength : d.changes.length < 2 ^ 32

theorem readChanges_eq (hat : b.HasAt offset (changesBytes changes)) (hoffset : offset % 2 = 0)
    (h : ∀ c ∈ changes, TextChange.Readable decode c) (dest : List TextChange) :
    readChanges decode b offset dest changes.length =
      some (dest ++ changes, offset + (changesBytes changes).length) := by
  induction changes generalizing offset dest with
  | nil => rw [length_nil, readChanges, append_nil, changesBytes, flatMap_nil]; rfl
  | cons c changes ih =>
    obtain ⟨hc, hrest⟩ := forall_mem_cons.mp h
    rw [changesBytes_cons] at hat ⊢
    obtain ⟨hat, hatRest⟩ := HasAt.append_iff.mp hat
    have heven : (TextChange.changeBytes c).length % 2 = 0 := by
      rw [TextChange.length_changeBytes, TextChange.writeSize, TextChange.writeStringSize, TextChange.writeStringSize]
      omega
    rw [length_cons, readChanges, TextChange.read_eq hat hoffset hc]
    change readChanges decode b _ _ changes.length = _
    rw [ih hatRest (by omega) hrest, append_assoc, singleton_append, length_append, Nat.add_assoc]

theorem readHead_eq (hat : b.HasAt 0 (headBytes d)) (h : Readable decode d) :
    readHead b = ((selectionsOf d.beforeCursorState, selectionsOf d.afterCursorState,
      d.changes.length), (headBytes d).length) := by
  obtain ⟨hat, hcount⟩ := HasAt.append_iff.mp hat
  obtain ⟨hat, hafter⟩ := HasAt.append_iff.mp hat
  obtain ⟨hat, hbefore⟩ := HasAt.append_iff.mp hat
  change b.HasAt (4 + 4 + 1 + 1) _ at hbefore
  have hlen : 0 + (bytesBE (toUint32 d.beforeVersionId) ++ bytesBE (toUint32 d.afterVersionId) ++
      [UInt8.ofNat d.beforeEOL.value] ++ [UInt8.ofNat d.afterEOL.value] ++
      selectionsBytes d.beforeCursorState).length =
        4 + 4 + 1 + 1 + writeSelectionsSize d.beforeCursorState := by
    rw [length_append, length_selectionsBytes, ← Nat.add_assoc]
    rfl
  rw [length_append, ← Nat.add_assoc, hlen, length_selectionsBytes] at hcount
  rw [hlen] at hafter
  rw [readHead, readSelections_eq hbefore h.beforeCursorState h.beforeLength,
    readSelections_eq hafter h.afterCursorState h.afterLength, hcount.readUInt32BE h.changesLength, length_headBytes]

theorem HasAt_serialize (d : SingleModelEditStackData) :
    d.serialize.HasAt 0 (headBytes d) ∧
      d.serialize.HasAt (headBytes d).length (changesBytes d.changes) := by
  have hat : d.serialize.HasAt 0 (headBytes d ++ changesBytes d.changes) := by
    rw [serialize_eq, HasAt, drop_zero]
  rw [HasAt.append_iff, Nat.zero_add] at hat
  exact hat

theorem even_length_headBytes (d : SingleModelEditStackData) : (headBytes d).length % 2 = 0 := by
  rw [length_headBytes, writeSelectionsSize, writeSelectionsSize]
  omega

theorem ofValue_read {eol : EndOfLineSequence} (hat : b.HasAt offset [UInt8.ofNat eol.value]) :
    EndOfLineSequence.ofValue (b.readUInt8 offset) = some eol := by
  rw [hat.readUInt8]
  cases eol <;> rfl

/-- The data with an array for a cursor state that is `null`. -/
def withSelections (d : SingleModelEditStackData) : SingleModelEditStackData :=
  { d with
    beforeCursorState := some (selectionsOf d.beforeCursorState)
    afterCursorState := some (selectionsOf d.afterCursorState) }

/-- Undo data is read back as it was written, the bytes that are written are those that were
allocated, and the loop of `deserialize` reads every change where the loop of `serialize` wrote
it. -/
theorem deserialize_serialized (h : Readable decode d) :
    deserialize decode d.serialize = some d.withSelections ∧
    (d.written d.changes.length).2 = d.necessarySize ∧ d.serialize.length = d.necessarySize ∧
    ∀ i ≤ d.changes.length,
      readChanges decode d.serialize (readHead d.serialize).2 [] i =
        some (d.changes.take i, (d.written i).2) := by
  obtain ⟨hhead, hchanges⟩ := HasAt_serialize d
  have hread := readHead_eq hhead h
  obtain ⟨hat, -⟩ := HasAt.append_iff.mp hhead
  obtain ⟨hat, -⟩ := HasAt.append_iff.mp hat
  obtain ⟨hat, -⟩ := HasAt.append_iff.mp hat
  obtain ⟨hat, hafterEOL⟩ := HasAt.append_iff.mp hat
  obtain ⟨hat, hbeforeEOL⟩ := HasAt.append_iff.mp hat
  obtain ⟨hbefore, hafter⟩ := HasAt.append_iff.mp hat
  refine ⟨?_, ?_, ?_, fun i hi => ?_⟩
  · change d.serialize.HasAt 4 _ at hafter
    change d.serialize.HasAt (4 + 4) _ at hbeforeEOL
    change d.serialize.HasAt (4 + 4 + 1) _ at hafterEOL
    rw [deserialize, ofValue_read hbeforeEOL, ofValue_read hafterEOL, hread,
      h.beforeVersionId.read hbefore, h.afterVersionId.read hafter]
    simp only [Option.bind_eq_bind, Option.bind_some]
    rw [readChanges_eq hchanges (even_length_headBytes d) h.changes, Option.bind_some, nil_append, withSelections]
  · rw [written_eq, take_length, length_append, necessarySize_eq]
  · rw [serialize_eq, length_append, necessarySize_eq]
  · have htake : changesBytes d.changes =
        changesBytes (d.changes.take i) ++ changesBytes (d.changes.drop i) := by
      rw [changesBytes, changesBytes, changesBytes, ← flatMap_append, take_append_drop]
    rw [htake, HasAt.append_iff] at hchanges
    have hloop := readChanges_eq hchanges.1 (even_length_headBytes d) (fun c hc => h.changes c (mem_of_mem_take hc)) []
    rw [length_take_of_le hi, nil_append] at hloop
    rw [hread, hloop, written_eq, length_append]

/-- A text that starts with a byte order mark beside an empty one; one cursor state is `null`. -/
theorem deserialize_serialize_bom :
    deserialize id (serialize ⟨5, 70000, .LF, .CRLF, none, some [⟨1, 2, 3, 4⟩],
        [⟨3, [0xFEFF, 97], 4, []⟩]⟩) =
      some ⟨5, 70000, .LF, .CRLF, some [], some [⟨1, 2, 3, 4⟩],
        [⟨3, [0xFEFF, 97], 4, []⟩]⟩ := by
  have hfits (n : Nat) (hn : n < 2 ^ 32) : Fits32 n := ⟨Int.natCast_nonneg n, by omega⟩
  have hselection : Selection.Fits ⟨1, 2, 3, 4⟩ :=
    ⟨hfits 1 (by omega), hfits 2 (by omega), hfits 3 (by omega), hfits 4 (by omega)⟩
  have hchange : TextChange.Readable id ⟨3, [0xFEFF, 97], 4, []⟩ :=
    ⟨hfits 3 (by omega), hfits 4 (by omega), by decide, by decide, fun _ => rfl, fun _ => rfl⟩
  exact (@deserialize_serialized id ⟨5, 70000, .LF, .CRLF, none, some [⟨1, 2, 3, 4⟩],
    [⟨3, [0xFEFF, 97], 4, []⟩]⟩
    ⟨hfits 5 (by omega), hfits 70000 (by omega), fun _ hs => absurd hs not_mem_nil, Nat.pow_pos (by omega),
      forall_mem_singleton.mpr hselection, by decide, forall_mem_singleton.mpr hchange, by decide⟩).1

end SingleModelEditStackData

end Gavea.EditStack
