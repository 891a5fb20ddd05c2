import Mathlib.Data.List.TakeDrop
import Gavea.Lib.PercentEncoding

namespace Gavea.Wire

open List

abbrev VSBuffer := List UInt8

namespace VSBuffer

def alloc (byteLength : Nat) : VSBuffer := List.replicate byteLength 0

def set (target source : VSBuffer) (offset : Nat) : Option VSBuffer :=
  if offset + source.length ≤ target.length then
    some (target.take offset ++ source ++ target.drop (offset + source.length))
  else none

def setAll (ret : VSBuffer) (offset : Nat) : List VSBuffer → Option VSBuffer
  | [] => some ret
  | element :: rest => do
      let ret ← set ret element offset
      setAll ret (offset + element.length) rest

def concat (buffers : List VSBuffer) (totalLength : Nat) : Option VSBuffer := setAll (alloc totalLength) 0 buffers

def writeUInt8 (destination : VSBuffer) (value offset : Nat) : VSBuffer :=
  List.set destination offset (UInt8.ofNat value)

/-- Every `>>> 8` takes the number modulo 2 ^ 32. -/
def writeUInt32BE (destination : VSBuffer) (value offset : Nat) : VSBuffer :=
  let value1 := (value % 2 ^ 32) >>> 8
  let value2 := value1 >>> 8
  let value3 := value2 >>> 8
  let destination := List.set destination (offset + 3) (UInt8.ofNat value)
  let destination := List.set destination (offset + 2) (UInt8.ofNat value1)
  let destination := List.set destination (offset + 1) (UInt8.ofNat value2)
  List.set destination offset (UInt8.ofNat value3)

def readUInt8 (source : VSBuffer) (offset : Nat) : Nat := (source.getD offset 0).toNat

def readUInt32BE (source : VSBuffer) (offset : Nat) : Nat :=
  readUInt8 source offset * 2 ^ 24 + readUInt8 source (offset + 1) * 2 ^ 16 +
    readUInt8 source (offset + 2) * 2 ^ 8 + readUInt8 source (offset + 3)

theorem set_append (front source rest : VSBuffer) (h : source.length ≤ rest.length) :
    set (front ++ rest) source front.length = some (front ++ source ++ rest.drop source.length) := by
  rw [set, if_pos (by rw [length_append]; omega), take_left, drop_append,
    drop_of_length_le (by omega : front.length ≤ _), nil_append]
  congr 3
  omega

theorem setAll_append (buffers : List VSBuffer) (front rest : VSBuffer)
    (h : buffers.flatten.length = rest.length) :
    setAll (front ++ rest) front.length buffers = some (front ++ buffers.flatten) := by
  induction buffers generalizing front rest with
  | nil =>
    rw [flatten_nil, length_nil] at h
    rw [setAll, flatten_nil, eq_nil_of_length_eq_zero h.symm]
  | cons element buffers ih =>
    rw [flatten_cons, length_append] at h
    rw [setAll, set_append front element rest (by omega)]
    have hrest := ih (front ++ element) (rest.drop element.length) (by rw [length_drop]; omega)
    rw [length_append] at hrest
    rw [Option.bind_eq_bind, Option.bind_some, hrest, flatten_cons, append_assoc]

theorem concat_eq_flatten (buffers : List VSBuffer) :
    concat buffers buffers.flatten.length = some buffers.flatten :=
  setAll_append buffers [] (alloc buffers.flatten.length) length_replicate.symm

end VSBuffer

structure ChunkStream where
  chunks : List VSBuffer
  totalLength : Nat

namespace ChunkStream

def byteLength (s : ChunkStream) : Nat := s.totalLength

def empty : ChunkStream := ⟨[], 0⟩

def acceptChunk (s : ChunkStream) (buff : VSBuffer) : ChunkStream := ⟨s.chunks ++ [buff], s.totalLength + buff.length⟩

def readChunks (advance : Bool) (result : VSBuffer) (resultOffset : Nat) :
    Nat → List VSBuffer → Nat → Option (VSBuffer × ChunkStream)
  | 0, chunks, totalLength => some (result, ⟨chunks, totalLength⟩)
  | _ + 1, [], _ => none
  | byteCount + 1, chunk :: rest, totalLength =>
    if chunk.length > byteCount + 1 then do
      -- this chunk will survive
      let result ← VSBuffer.set result (chunk.take (byteCount + 1)) resultOffset
      if advance then some (result, ⟨chunk.drop (byteCount + 1) :: rest, totalLength - (byteCount + 1)⟩)
      else some (result, ⟨chunk :: rest, totalLength⟩)
    else do
      -- this chunk will be entirely read
      let result ← VSBuffer.set result chunk resultOffset
      if advance then
        readChunks advance result (resultOffset + chunk.length) (byteCount + 1 - chunk.length) rest
          (totalLength - chunk.length)
      else do
        let (result, s) ← readChunks advance result (resultOffset + chunk.length)
          (byteCount + 1 - chunk.length) rest totalLength
        some (result, ⟨chunk :: s.chunks, s.totalLength⟩)

/-- none where the code throws -/
def readWith (s : ChunkStream) (byteCount : Nat) (advance : Bool) : Option (VSBuffer × ChunkStream) :=
  if byteCount = 0 then some ([], s)
  else if byteCount > s.totalLength then none
  else
    match s.chunks with
    | [] => none
    | chunk :: rest =>
      if chunk.length = byteCount then
        -- super fast path, precisely first chunk must be returned
        some (chunk, if advance then ⟨rest, s.totalLength - byteCount⟩ else s)
      else if chunk.length > byteCount then
        -- fast path, the reading is entirely within the first chunk
        some (chunk.take byteCount, if advance then ⟨chunk.drop byteCount :: rest, s.totalLength - byteCount⟩ else s)
      else readChunks advance (VSBuffer.alloc byteCount) 0 byteCount s.chunks s.totalLength

def read (s : ChunkStream) (byteCount : Nat) : Option (VSBuffer × ChunkStream) := s.readWith byteCount true

def bytes (s : ChunkStream) : List UInt8 := s.chunks.flatten

def Counted (s : ChunkStream) : Prop := s.totalLength = s.bytes.length

variable {s : ChunkStream} {byteCount : Nat}

theorem bytes_acceptChunk (s : ChunkStream) (buff : VSBuffer) :
    (s.acceptChunk buff).bytes = s.bytes ++ buff := by
  rw [bytes, acceptChunk, flatten_append, flatten_singleton, bytes]

theorem Counted.acceptChunk (h : s.Counted) (buff : VSBuffer) : (s.acceptChunk buff).Counted := by
  rw [Counted, bytes_acceptChunk, length_append, ← h]
  rfl

theorem readChunks_spec (chunks : List VSBuffer) (front rest : VSBuffer) (byteCount totalLength : Nat)
    (hrest : rest.length = byteCount) (hle : byteCount ≤ chunks.flatten.length)
    (htotal : totalLength = chunks.flatten.length) :
    ∃ s, readChunks true (front ++ rest) front.length byteCount chunks totalLength =
        some (front ++ chunks.flatten.take byteCount, s) ∧
      s.bytes = chunks.flatten.drop byteCount ∧ s.Counted := by
  induction chunks generalizing front rest byteCount totalLength with
  | nil =>
    obtain rfl : byteCount = 0 := Nat.le_zero.mp hle
    obtain rfl := eq_nil_of_length_eq_zero hrest
    exact ⟨⟨[], totalLength⟩, rfl, rfl, htotal⟩
  | cons chunk chunks ih =>
    cases byteCount with
    | zero =>
      obtain rfl := eq_nil_of_length_eq_zero hrest
      exact ⟨⟨chunk :: chunks, totalLength⟩, rfl, rfl, htotal⟩
    | succ byteCount =>
      rw [flatten_cons, length_append] at hle htotal
      rw [readChunks]
      by_cases hlt : chunk.length > byteCount + 1
      · rw [if_pos hlt]
        have htake : (chunk.take (byteCount + 1)).length = byteCount + 1 := length_take_of_le (Nat.le_of_lt hlt)
        rw [VSBuffer.set_append front _ rest (by omega), drop_of_length_le (by omega), append_nil]
        refine ⟨⟨chunk.drop (byteCount + 1) :: chunks, totalLength - (byteCount + 1)⟩, ?_, ?_, ?_⟩
        · rw [flatten_cons, take_append_of_le_length (by omega)]
          rfl
        · rw [bytes, flatten_cons, flatten_cons, drop_append_of_le_length (by omega)]
        · rw [Counted, bytes, flatten_cons, length_append, length_drop]
          dsimp only
          omega
      · rw [if_neg hlt, VSBuffer.set_append front chunk rest (by omega)]
        obtain ⟨s, hs, hbytes, hcounted⟩ := ih (front ++ chunk) (rest.drop chunk.length)
          (byteCount + 1 - chunk.length) (totalLength - chunk.length)
          (by rw [length_drop]; omega) (by omega) (by omega)
        rw [length_append] at hs
        refine ⟨s, ?_, ?_, hcounted⟩
        · rw [Option.bind_eq_bind, Option.bind_some, if_pos rfl, hs, flatten_cons, take_append,
            take_of_length_le (by omega : chunk.length ≤ byteCount + 1), append_assoc]
        · rw [hbytes, flatten_cons, drop_append,
            drop_of_length_le (by omega : chunk.length ≤ byteCount + 1), nil_append]

theorem read_spec (h : s.Counted) (hle : byteCount ≤ s.byteLength) :
    ∃ s', s.read byteCount = some (s.bytes.take byteCount, s') ∧ s'.bytes = s.bytes.drop byteCount ∧
      s'.Counted := by
  rw [byteLength] at hle
  rw [read, readWith]
  by_cases hzero : byteCount = 0
  · subst hzero
    exact ⟨s, rfl, rfl, h⟩
  · rw [if_neg hzero, if_neg (by omega)]
    cases hchunks : s.chunks with
    | nil =>
      rw [Counted, bytes, hchunks, flatten_nil, length_nil] at h
      omega
    | cons chunk rest =>
      have hbytes : s.bytes = chunk ++ rest.flatten := by
        rw [bytes, hchunks, flatten_cons]
      have htotal : s.totalLength = chunk.length + rest.flatten.length := by
        rw [h, hbytes, length_append]
      dsimp only
      by_cases heq : chunk.length = byteCount
      · subst heq
        rw [if_pos rfl, if_pos rfl]
        refine ⟨_, by rw [hbytes, take_left], ?_, ?_⟩
        · rw [hbytes, drop_left]
          rfl
        · rw [Counted, bytes]
          dsimp only
          omega
      rw [if_neg heq]
      by_cases hlt : chunk.length > byteCount
      · rw [if_pos hlt, if_pos rfl]
        refine ⟨_, by rw [hbytes, take_append_of_le_length (by omega)], ?_, ?_⟩
        · rw [hbytes, drop_append_of_le_length (by omega)]
          rfl
        · rw [Counted, bytes, flatten_cons, length_append, length_drop]
          dsimp only
          omega
      · rw [if_neg hlt]
        have hflatten : s.bytes = (chunk :: rest).flatten := hbytes
        rw [hflatten]
        exact readChunks_spec (chunk :: rest) [] (VSBuffer.alloc byteCount) byteCount s.totalLength
          length_replicate (by rw [← hflatten, ← h]; omega) (by rw [← hflatten, h])

end ChunkStream

open Lib.Js

def shiftUnsigned (value : Int) (n : Nat) : Int := (((value % 2 ^ 32).toNat >>> n : Nat) : Int)

def lowBits (value : Int) : UInt8 := UInt8.ofNat ((value % 2 ^ 32).toNat % 2 ^ 7)

theorem shiftUnsigned_seven (value : Int) : shiftUnsigned value 7 = value % 2 ^ 32 / 2 ^ 7 := by
  rw [shiftUnsigned, Nat.shiftRight_eq_div_pow]
  have hnonneg := Int.emod_nonneg value (by decide : (2 : Int) ^ 32 ≠ 0)
  omega

/-- Falls with every group; a number that is no multiple of 2 ^ 32 has another one. -/
def groupMeasure (value : Int) : Nat := 2 * (value % 2 ^ 32).toNat + if value = 0 then 0 else 1

theorem groupMeasure_shift {value : Int} (h : value ≠ 0) :
    groupMeasure (shiftUnsigned value 7) < groupMeasure value := by
  rw [groupMeasure, groupMeasure, shiftUnsigned_seven, if_neg h]
  have hnonneg := Int.emod_nonneg value (by decide : (2 : Int) ^ 32 ≠ 0)
  split_ifs
  · omega
  · omega

/-- `for (let v2 = value; v2 !== 0; v2 = v2 >>> 7) len++` -/
def groupCount (value : Int) : Nat := if h : value = 0 then 0 else groupCount (shiftUnsigned value 7) + 1
termination_by groupMeasure value
decreasing_by exact groupMeasure_shift h

def fillGroups (scratch : VSBuffer) (i : Nat) (value : Int) : VSBuffer :=
  if h : value = 0 then scratch
  else
    let value' := shiftUnsigned value 7
    let scratch := List.set scratch i (lowBits value)
    let scratch := if value' > 0 then List.set scratch i (lowBits value ||| 0b10000000) else scratch
    fillGroups scratch (i + 1) value'
termination_by groupMeasure value
decreasing_by exact groupMeasure_shift h

/-- The buffers that have been written, as one. -/
def writeInt32VQL (value : Int) : VSBuffer :=
  if value = 0 then [0] else fillGroups (VSBuffer.alloc (groupCount value)) 0 value

structure BufferReader where
  buffer : VSBuffer
  pos : Nat

namespace BufferReader

def read (r : BufferReader) (bytes : Int) : VSBuffer × BufferReader :=
  let result := slice r.buffer r.pos (r.pos + bytes)
  (result, { r with pos := r.pos + result.length })

/-- The loop of `readIntVQL` at the shift `n`. A read behind the end gives no byte, which ends it. -/
def readGroups (r : BufferReader) : Nat → BitVec 32 → Nat → BitVec 32 × BufferReader
  | 0, value, _ => (value, r)
  | rounds + 1, value, n =>
    let (next, r) := r.read 1
    match next with
    | [] => (value, r)
    | byte :: _ =>
      let value := value ||| BitVec.ofNat 32 (byte &&& 0b01111111).toNat <<< (n % 32)
      if byte &&& 0b10000000 = 0 then (value, r) else readGroups r rounds value (n + 7)

/-- No number has more groups than there are bytes left. -/
def readIntVQL (r : BufferReader) : BitVec 32 × BufferReader := r.readGroups (r.buffer.length - r.pos + 1) 0 0

end BufferReader

/-- The data that the protocol sends. `int` is a number with `(data | 0) === data`, and `json` is what
none of the other cases takes. -/
inductive Data (J : Type)
  | undefined
  | string (s : JsString)
  | buffer (bytes : VSBuffer)
  | vsBuffer (bytes : VSBuffer)
  | array (items : List (Data J))
  | int (i : BitVec 32)
  | json (value : J)

/-- The encoders of strings and JSON values with their decoders. -/
structure Codec (J : Type) where
  fromString : JsString → VSBuffer
  toString : VSBuffer → JsString
  stringify : J → JsString
  parse : JsString → Option J

namespace DataType

def undefined : UInt8 := 0

def string : UInt8 := 1

def buffer : UInt8 := 2

def vsBuffer : UInt8 := 3

def array : UInt8 := 4

def object : UInt8 := 5

def int : UInt8 := 6

end DataType

variable {J : Type} (c : Codec J)

mutual

/-- What the writer's buffers hold together. -/
def serialize : Data J → VSBuffer
  | .undefined => [DataType.undefined]
  | .string s =>
    let buffer := c.fromString s
    DataType.string :: (writeInt32VQL buffer.length ++ buffer)
  | .buffer bytes => DataType.buffer :: (writeInt32VQL bytes.length ++ bytes)
  | .vsBuffer bytes => DataType.vsBuffer :: (writeInt32VQL bytes.length ++ bytes)
  | .array items => DataType.array :: (writeInt32VQL items.length ++ serializeItems items)
  | .int i => DataType.int :: writeInt32VQL i.toInt
  | .json value =>
    let buffer := c.fromString (c.stringify value)
    DataType.object :: (writeInt32VQL buffer.length ++ buffer)

def serializeItems : List (Data J) → VSBuffer
  | [] => []
  | el :: items => serialize el ++ serializeItems items

end

def readSized (r : BufferReader) : VSBuffer × BufferReader :=
  let (length, r) := r.readIntVQL
  r.read length.toInt

mutual

/-- Arrays nest at most as deep as there are bytes. A type that is no `DataType`, and the end of the
bytes, give undefined. none where the code throws. -/
def deserializeAt : Nat → BufferReader → Option (Data J × BufferReader)
  | 0, _ => none
  | depth + 1, r =>
    let (head, r) := r.read 1
    match head.head? with
    | some 1 =>
      let (bytes, r) := readSized r
      some (.string (c.toString bytes), r)
    | some 2 =>
      let (bytes, r) := readSized r
      some (.buffer bytes, r)
    | some 3 =>
      let (bytes, r) := readSized r
      some (.vsBuffer bytes, r)
    | some 4 => do
        let (length, r) := r.readIntVQL
        let (items, r) ← deserializeItems depth length.toInt.toNat r
        some (.array items, r)
    | some 5 => do
        let (bytes, r) := readSized r
        let value ← c.parse (c.toString bytes)
        some (.json value, r)
    | some 6 =>
      let (i, r) := r.readIntVQL
      some (.int i, r)
    | _ => some (.undefined, r)

def deserializeItems : Nat → Nat → BufferReader → Option (List (Data J) × BufferReader)
  | _, 0, r => some ([], r)
  | depth, length + 1, r => do
      let (item, r) ← deserializeAt depth r
      let (items, r) ← deserializeItems depth length r
      some (item :: items, r)

end

def deserialize (r : BufferReader) : Option (Data J × BufferReader) := deserializeAt c (r.buffer.length - r.pos + 1) r

end Gavea.Wire

namespace Gavea.Wire

open Lib.Js List

/-- Seven bits a byte, the lowest first; all but the last have the high bit. -/
def groups (n : Nat) : List UInt8 :=
  if n < 128 then [UInt8.ofNat n] else UInt8.ofNat (n % 128 + 128) :: groups (n / 128)
termination_by n
decreasing_by omega

variable {value : Int} {n u low : Nat} {r : BufferReader} {front rest bytes : List UInt8}

theorem groups_ne_nil (n : Nat) : groups n ≠ [] := by
  rw [groups]
  split_ifs
  · exact cons_ne_nil _ _
  · exact cons_ne_nil _ _

theorem length_groups_pos (n : Nat) : 0 < (groups n).length := length_pos_of_ne_nil (groups_ne_nil n)

theorem or_highBit {b : Nat} (h : b < 128) : UInt8.ofNat b ||| 0b10000000 = UInt8.ofNat (b + 128) := by
  apply UInt8.toNat_inj.mp
  have hor : 128 ||| b = 128 + b := (Nat.two_pow_add_eq_or_of_lt (i := 7) h 1).symm
  rw [UInt8.toNat_or, UInt8.toNat_ofNat', UInt8.toNat_ofNat', Nat.mod_eq_of_lt (by omega),
    Nat.mod_eq_of_lt (by omega), Nat.or_comm]
  exact hor.trans (Nat.add_comm _ _)

theorem shiftUnsigned_natCast (h : n < 2 ^ 32) : shiftUnsigned n 7 = (n / 128 : Nat) := by
  rw [shiftUnsigned_seven]
  omega

theorem lowBits_natCast (_h : n < 2 ^ 32) : lowBits n = UInt8.ofNat (n % 128) := by
  rw [lowBits]
  congr 1
  omega

theorem groupCount_natCast (hpos : 0 < n) (h : n < 2 ^ 32) : groupCount n = (groups n).length := by
  induction n using Nat.strongRecOn with
  | ind n ih =>
    rw [groupCount, dif_neg (by omega), shiftUnsigned_natCast h, groups]
    split_ifs with hlt
    · rw [Nat.div_eq_of_lt hlt, groupCount, dif_pos (by rfl)]
      rfl
    · rw [ih (n / 128) (by omega) (by omega) (by omega), length_cons]

theorem fillGroups_natCast (hpos : 0 < n) (h : n < 2 ^ 32) (front : List UInt8) :
    fillGroups (front ++ VSBuffer.alloc (groups n).length) front.length n = front ++ groups n := by
  induction n using Nat.strongRecOn generalizing front with
  | ind n ih =>
    have hset (b : UInt8) (k : Nat) : List.set (front ++ VSBuffer.alloc (k + 1)) front.length b =
        (front ++ [b]) ++ VSBuffer.alloc k := by
      rw [VSBuffer.alloc, replicate_succ, set_append_right _ _ (Nat.le_refl _), Nat.sub_self,
        set_cons_zero, append_assoc, VSBuffer.alloc]
      rfl
    have hset_again (b b' : UInt8) (k : Nat) :
        List.set ((front ++ [b]) ++ VSBuffer.alloc k) front.length b' =
          (front ++ [b']) ++ VSBuffer.alloc k := by
      rw [← hset b k, set_set, hset]
    rw [fillGroups, dif_neg (by omega), shiftUnsigned_natCast h, lowBits_natCast h]
    dsimp only
    rw [groups]
    by_cases hlt : n < 128
    · rw [if_pos hlt, Nat.div_eq_of_lt hlt, if_neg (by omega), fillGroups, dif_pos (by rfl), Nat.mod_eq_of_lt hlt]
      exact (hset _ 0).trans (append_nil _)
    · rw [if_neg hlt, if_pos (by omega), length_cons, hset, hset_again, or_highBit (Nat.mod_lt n (by decide))]
      have hrest := ih (n / 128) (by omega) (by omega) (by omega) (front ++ [UInt8.ofNat (n % 128 + 128)])
      rw [length_append] at hrest
      rw [show front.length + 1 = front.length + [UInt8.ofNat (n % 128 + 128)].length from rfl, hrest, append_assoc]
      rfl

theorem writeInt32VQL_eq (h : value = 0 ∨ value % 2 ^ 32 ≠ 0) :
    writeInt32VQL value = groups (value % 2 ^ 32).toNat := by
  rw [writeInt32VQL]
  split_ifs with hzero
  · subst hzero
    rw [groups]
    rfl
  · have hnonzero := h.resolve_left hzero
    have hnonneg := Int.emod_nonneg value (by decide : (2 : Int) ^ 32 ≠ 0)
    have hlt := Int.emod_lt_of_pos value (by decide : (0 : Int) < 2 ^ 32)
    obtain ⟨n, hn⟩ := Int.eq_ofNat_of_zero_le hnonneg
    have hpos : 0 < n := by omega
    have hn_lt : n < 2 ^ 32 := by omega
    have hmod : (n : Int) % 2 ^ 32 = value % 2 ^ 32 := by omega
    have hshift : shiftUnsigned value 7 = shiftUnsigned n 7 := by rw [shiftUnsigned, shiftUnsigned, hmod]
    have hlow : lowBits value = lowBits n := by rw [lowBits, lowBits, hmod]
    have hn_ne : (n : Int) ≠ 0 := by omega
    have hcount : groupCount value = groupCount n := by
      conv_lhs => rw [groupCount, dif_neg hzero, hshift]
      conv_rhs => rw [groupCount, dif_neg hn_ne]
    have hfill (scratch : VSBuffer) (i : Nat) : fillGroups scratch i value = fillGroups scratch i n := by
      conv_lhs => rw [fillGroups, dif_neg hzero, hshift, hlow]
      conv_rhs => rw [fillGroups, dif_neg hn_ne]
    rw [hcount, hfill, groupCount_natCast hpos hn_lt, hn]
    exact fillGroups_natCast hpos hn_lt []

structure Ahead (r : BufferReader) (bytes : List UInt8) : Prop where
  le : r.pos ≤ r.buffer.length
  ahead : r.buffer.drop r.pos = bytes

theorem Ahead.length (h : Ahead r bytes) : r.buffer.length - r.pos = bytes.length := by
  rw [← h.ahead, length_drop]

theorem Ahead.read (h : Ahead r (bytes ++ rest)) : ∃ r', r.read bytes.length = (bytes, r') ∧ Ahead r' rest ∧
    r'.buffer = r.buffer := by
  have hlength := h.length
  have hle := h.le
  rw [length_append] at hlength
  have hslice : slice r.buffer r.pos (r.pos + (bytes.length : Int)) = bytes := by
    rw [slice, relativeIndex, relativeIndex, if_neg (by omega), if_neg (by omega), Int.toNat_natCast,
      show ((r.pos : Int) + bytes.length).toNat = r.pos + bytes.length by omega,
      drop_min_take_min _ (Nat.le_add_right _ _), drop_take, h.ahead, Nat.add_sub_cancel_left,
      take_left]
  refine ⟨{ r with pos := r.pos + bytes.length }, ?_, ⟨?_, ?_⟩, rfl⟩
  · rw [BufferReader.read, hslice]
  · dsimp only
    omega
  · rw [← drop_drop, h.ahead, drop_left]

theorem or_shiftLeft {v : BitVec 32} {b n : Nat} (hv : v.toNat < 2 ^ n) (hb : b * 2 ^ n < 2 ^ 32)
    (hn : n < 32) : (v ||| BitVec.ofNat 32 b <<< (n % 32)).toNat = v.toNat + b * 2 ^ n := by
  have hle : b ≤ b * 2 ^ n := Nat.le_mul_of_pos_right b (Nat.two_pow_pos n)
  have hb_mod : b % 2 ^ 32 = b := Nat.mod_eq_of_lt (hle.trans_lt hb)
  rw [BitVec.toNat_or, BitVec.toNat_shiftLeft, BitVec.toNat_ofNat, Nat.mod_eq_of_lt hn, hb_mod, Nat.shiftLeft_eq, Nat.mod_eq_of_lt hb, Nat.or_comm, Nat.mul_comm b,
    ← Nat.two_pow_add_eq_or_of_lt hv, Nat.add_comm]

theorem and_lowBits {b : Nat} (h : b < 128) :
    (UInt8.ofNat b &&& 0b01111111).toNat = b ∧ UInt8.ofNat b &&& 0b10000000 = 0 ∧
      (UInt8.ofNat (b + 128) &&& 0b01111111).toNat = b ∧ UInt8.ofNat (b + 128) &&& 0b10000000 ≠ 0 := by
  interval_cases b <;> decide

theorem readGroups_spec (rounds n : Nat) (v : BitVec 32) (hv : v.toNat < 2 ^ n)
    (hn : n < 32) (hu : u * 2 ^ n < 2 ^ 32) (hrounds : (groups u).length ≤ rounds)
    (h : Ahead r (groups u ++ rest)) :
    ∃ v' r', r.readGroups rounds v n = (v', r') ∧ v'.toNat = v.toNat + u * 2 ^ n ∧ Ahead r' rest ∧
      r'.buffer = r.buffer := by
  induction rounds generalizing u v n r with
  | zero =>
    have hpos := length_groups_pos u
    omega
  | succ rounds ih =>
    rw [groups] at h hrounds
    rw [BufferReader.readGroups]
    split_ifs at h hrounds with hlt
    · obtain ⟨r', hr', hahead, hbuffer⟩ := h.read
      obtain ⟨hlow, hlast, -, -⟩ := and_lowBits hlt
      rw [length_singleton, Nat.cast_one] at hr'
      rw [hr']
      dsimp only
      rw [if_pos hlast, hlow]
      exact ⟨_, r', rfl, or_shiftLeft hv hu hn, hahead, hbuffer⟩
    · obtain ⟨r', hr', hahead, hbuffer⟩ := @Ahead.read _ _ [UInt8.ofNat (u % 128 + 128)] h
      obtain ⟨-, -, hlow, hmore⟩ := and_lowBits (Nat.mod_lt u (by decide : 128 > 0))
      rw [length_singleton, Nat.cast_one] at hr'
      rw [hr']
      dsimp only
      rw [if_neg hmore, hlow]
      have hsplit : u * 2 ^ n = u % 128 * 2 ^ n + u / 128 * 2 ^ (n + 7) := by
        rw [Nat.pow_add, Nat.mul_comm (2 ^ n), ← Nat.mul_assoc, ← Nat.add_mul]
        congr 1
        omega
      have hlow_lt : u % 128 * 2 ^ n < 2 ^ 32 := by omega
      have hv' := or_shiftLeft hv hlow_lt hn
      have hn' : n + 7 < 32 := by
        have hpow : 2 ^ (n + 7) ≤ u / 128 * 2 ^ (n + 7) := Nat.le_mul_of_pos_left _ (by omega)
        exact (Nat.pow_lt_pow_iff_right (by decide : 1 < 2)).mp (by omega : 2 ^ (n + 7) < 2 ^ 32)
      have hv'_lt : (v ||| BitVec.ofNat 32 (u % 128) <<< (n % 32)).toNat < 2 ^ (n + 7) := by
        have hpow : 2 ^ (n + 7) = 128 * 2 ^ n := by rw [Nat.pow_add, Nat.mul_comm]
        have hle : u % 128 * 2 ^ n ≤ 127 * 2 ^ n := Nat.mul_le_mul_right _ (by omega)
        rw [hv']
        omega
      obtain ⟨v'', r'', hr'', hvalue, hahead', hbuffer'⟩ := ih (n + 7) _ hv'_lt hn' (by omega)
        (Nat.le_of_succ_le_succ hrounds) hahead
      exact ⟨v'', r'', hr'', by rw [hvalue, hv']; omega, hahead', hbuffer'.trans hbuffer⟩

theorem readIntVQL_write {v : BitVec 32} (h : Ahead r (writeInt32VQL v.toInt ++ rest)) :
    ∃ r', r.readIntVQL = (v, r') ∧ Ahead r' rest ∧ r'.buffer = r.buffer := by
  have hv := v.isLt
  have hcond := BitVec.toInt_eq_toNat_cond v
  have hmod : (v.toInt % 2 ^ 32).toNat = v.toNat := by
    rw [hcond]
    split_ifs
    · omega
    · omega
  have hzero : v.toInt = 0 ∨ v.toInt % 2 ^ 32 ≠ 0 := by
    rw [hcond]
    split_ifs
    · omega
    · omega
  rw [writeInt32VQL_eq hzero, hmod] at h
  have hlength := h.length
  rw [length_append] at hlength
  obtain ⟨v', r', hr', hvalue, hahead, hbuffer⟩ := readGroups_spec (r.buffer.length - r.pos + 1) 0 0
    (by decide) (by decide) (by omega) (by omega) h
  refine ⟨r', ?_, hahead, hbuffer⟩
  rw [BufferReader.readIntVQL, hr']
  refine congrArg₂ Prod.mk (BitVec.eq_of_toNat_eq ?_) rfl
  rw [hvalue]
  exact (Nat.zero_add _).trans (Nat.mul_one _)

theorem readIntVQL_length {length : Nat} (hlength : length < 2 ^ 31)
    (h : Ahead r (writeInt32VQL length ++ rest)) :
    ∃ v r', r.readIntVQL = (v, r') ∧ v.toInt = length ∧ Ahead r' rest ∧ r'.buffer = r.buffer := by
  have hint : (BitVec.ofNat 32 length).toInt = length := by
    rw [BitVec.toInt_eq_toNat_of_lt, BitVec.toNat_ofNat]
    · omega
    · rw [BitVec.toNat_ofNat]
      omega
  rw [← hint] at h
  obtain ⟨r', hr', hahead, hbuffer⟩ := readIntVQL_write h
  exact ⟨_, r', hr', hint, hahead, hbuffer⟩

theorem readSized_write (hlength : bytes.length < 2 ^ 31)
    (h : Ahead r (writeInt32VQL bytes.length ++ bytes ++ rest)) :
    ∃ r', readSized r = (bytes, r') ∧ Ahead r' rest ∧ r'.buffer = r.buffer := by
  rw [append_assoc] at h
  obtain ⟨v, r1, hr1, hv, hahead1, hbuffer1⟩ := readIntVQL_length hlength h
  obtain ⟨r2, hr2, hahead2, hbuffer2⟩ := hahead1.read
  refine ⟨r2, ?_, hahead2, hbuffer2.trans hbuffer1⟩
  rw [readSized, hr1]
  dsimp only
  rw [hv, hr2]

end Gavea.Wire

namespace Gavea.Wire

open List

open Lib.Js

variable {J : Type}

/-- The decoder gives the strings back, and the text of a JSON value is a string of its kind. -/
structure Codec.Inverse (c : Codec J) : Prop where
  toString_fromString : ∀ s, WellPaired s → c.toString (c.fromString s) = s
  stringify : ∀ value, WellPaired (c.stringify value)

mutual

/-- The strings have no lone surrogates, the JSON values are the values of their texts, and all
lengths fit into 31 bits. -/
def Encodable (c : Codec J) : Data J → Prop
  | .undefined => True
  | .string s => WellPaired s ∧ (c.fromString s).length < 2 ^ 31
  | .buffer bytes => bytes.length < 2 ^ 31
  | .vsBuffer bytes => bytes.length < 2 ^ 31
  | .array items => items.length < 2 ^ 31 ∧ EncodableItems c items
  | .int _ => True
  | .json value => c.parse (c.stringify value) = some value ∧ (c.fromString (c.stringify value)).length < 2 ^ 31

def EncodableItems (c : Codec J) : List (Data J) → Prop
  | [] => True
  | el :: items => Encodable c el ∧ EncodableItems c items

end

variable {c : Codec J} {r : BufferReader} {rest bytes : List UInt8} {depth : Nat}

theorem Ahead.read_one {b : UInt8} (h : Ahead r (b :: rest)) :
    ∃ r', r.read 1 = ([b], r') ∧ Ahead r' rest ∧ r'.buffer = r.buffer :=
  @Ahead.read r rest [b] h

theorem deserializeAt_sized {b : UInt8} (hlength : bytes.length < 2 ^ 31)
    (h : Ahead r (b :: (writeInt32VQL bytes.length ++ bytes) ++ rest)) :
    ∃ r1 r2, r.read 1 = ([b], r1) ∧ readSized r1 = (bytes, r2) ∧ Ahead r2 rest ∧
      r2.buffer = r.buffer := by
  obtain ⟨r1, hr1, hahead1, hbuffer1⟩ := h.read_one
  obtain ⟨r2, hr2, hahead2, hbuffer2⟩ := readSized_write hlength hahead1
  exact ⟨r1, r2, hr1, hr2, hahead2, hbuffer2.trans hbuffer1⟩

mutual

theorem deserializeAt_serialize (hc : c.Inverse) : (v : Data J) → Encodable c v →
    ∀ (depth : Nat) (rest : List UInt8) (r : BufferReader), (serialize c v).length ≤ depth →
      Ahead r (serialize c v ++ rest) →
      ∃ r', deserializeAt c depth r = some (v, r') ∧ Ahead r' rest ∧ r'.buffer = r.buffer
  | v, _, 0, _, _, hdepth, _ => by
      cases v <;> rw [serialize, length_cons] at hdepth <;> exact absurd hdepth (Nat.not_succ_le_zero _)
  | .undefined, _, depth + 1, rest, r, _, h => by
      rw [serialize] at h
      obtain ⟨r', hr', hahead, hbuffer⟩ := h.read_one
      refine ⟨r', ?_, hahead, hbuffer⟩
      rw [deserializeAt, hr']
      rfl
  | .string s, hv, depth + 1, rest, r, _, h => by
      rw [Encodable] at hv
      rw [serialize] at h
      obtain ⟨r1, r2, hr1, hr2, hahead, hbuffer⟩ := deserializeAt_sized hv.2 h
      refine ⟨r2, ?_, hahead, hbuffer⟩
      rw [deserializeAt, hr1]
      dsimp only [head?_cons, DataType.string]
      rw [hr2, hc.toString_fromString s hv.1]
      rfl
  | .buffer bytes, hv, depth + 1, rest, r, _, h => by
      rw [Encodable] at hv
      rw [serialize] at h
      obtain ⟨r1, r2, hr1, hr2, hahead, hbuffer⟩ := deserializeAt_sized hv h
      refine ⟨r2, ?_, hahead, hbuffer⟩
      rw [deserializeAt, hr1]
      dsimp only [head?_cons, DataType.buffer]
      rw [hr2]
      rfl
  | .vsBuffer bytes, hv, depth + 1, rest, r, _, h => by
      rw [Encodable] at hv
      rw [serialize] at h
      obtain ⟨r1, r2, hr1, hr2, hahead, hbuffer⟩ := deserializeAt_sized hv h
      refine ⟨r2, ?_, hahead, hbuffer⟩
      rw [deserializeAt, hr1]
      dsimp only [head?_cons, DataType.vsBuffer]
      rw [hr2]
      rfl
  | .array items, hv, depth + 1, rest, r, hdepth, h => by
      rw [Encodable] at hv
      rw [serialize] at h hdepth
      rw [length_cons, length_append] at hdepth
      rw [cons_append, append_assoc] at h
      obtain ⟨r1, hr1, hahead1, hbuffer1⟩ := h.read_one
      obtain ⟨length, r2, hr2, hlength, hahead2, hbuffer2⟩ := readIntVQL_length hv.1 hahead1
      obtain ⟨r3, hr3, hahead3, hbuffer3⟩ := deserializeItems_serialize hc items hv.2 depth rest r2 (by omega) hahead2
      refine ⟨r3, ?_, hahead3, hbuffer3.trans (hbuffer2.trans hbuffer1)⟩
      rw [deserializeAt, hr1]
      dsimp only [head?_cons, DataType.array]
      rw [hr2]
      dsimp only
      rw [hlength, Int.toNat_natCast, hr3]
      rfl
  | .int i, _, depth + 1, rest, r, _, h => by
      rw [serialize] at h
      obtain ⟨r1, hr1, hahead1, hbuffer1⟩ := h.read_one
      obtain ⟨r2, hr2, hahead2, hbuffer2⟩ := readIntVQL_write hahead1
      refine ⟨r2, ?_, hahead2, hbuffer2.trans hbuffer1⟩
      rw [deserializeAt, hr1]
      dsimp only [head?_cons, DataType.int]
      rw [hr2]
      rfl
  | .json value, hv, depth + 1, rest, r, _, h => by
      rw [Encodable] at hv
      rw [serialize] at h
      obtain ⟨r1, r2, hr1, hr2, hahead, hbuffer⟩ := deserializeAt_sized hv.2 h
      refine ⟨r2, ?_, hahead, hbuffer⟩
      rw [deserializeAt, hr1]
      dsimp only [head?_cons, DataType.object]
      rw [hr2]
      dsimp only
      rw [hc.toString_fromString _ (hc.stringify value), hv.1]
      rfl

theorem deserializeItems_serialize (hc : c.Inverse) : (items : List (Data J)) → EncodableItems c items →
    ∀ (depth : Nat) (rest : List UInt8) (r : BufferReader), (serializeItems c items).length ≤ depth →
      Ahead r (serializeItems c items ++ rest) →
      ∃ r', deserializeItems c depth items.length r = some (items, r') ∧ Ahead r' rest ∧ r'.buffer = r.buffer
  | [], _, depth, rest, r, _, h => ⟨r, by rw [length_nil, deserializeItems], h, rfl⟩
  | el :: items, hv, depth, rest, r, hdepth, h => by
      rw [EncodableItems] at hv
      rw [serializeItems] at h hdepth
      rw [length_append] at hdepth
      rw [append_assoc] at h
      obtain ⟨r1, hr1, hahead1, hbuffer1⟩ := deserializeAt_serialize hc el hv.1 depth _ r (by omega) h
      obtain ⟨r2, hr2, hahead2, hbuffer2⟩ := deserializeItems_serialize hc items hv.2 depth rest r1 (by omega) hahead1
      refine ⟨r2, ?_, hahead2, hbuffer2.trans hbuffer1⟩
      rw [length_cons, deserializeItems, hr1, Option.bind_eq_bind, Option.bind_some]
      dsimp only
      rw [hr2]
      rfl

end

/-- Serialized data is read back from anywhere in a buffer, and the reader stops behind it. -/
theorem deserialize_serialize (hc : c.Inverse) (v : Data J) (hv : Encodable c v)
    (front rest : List UInt8) :
    deserialize c ⟨front ++ serialize c v ++ rest, front.length⟩ =
      some (v, ⟨front ++ serialize c v ++ rest, front.length + (serialize c v).length⟩) := by
  have hahead : Ahead ⟨front ++ serialize c v ++ rest, front.length⟩ (serialize c v ++ rest) := by
    refine ⟨?_, ?_⟩
    · dsimp only
      rw [length_append, length_append]
      omega
    · rw [append_assoc, drop_left]
  have hlength := hahead.length
  obtain ⟨⟨buffer, pos⟩, hr', hahead', hbuffer⟩ := deserializeAt_serialize hc v hv
    ((front ++ serialize c v ++ rest).length - front.length + 1) rest _ (by
      dsimp only at hlength
      rw [@length_append _ (serialize c v)] at hlength
      omega) hahead
  obtain rfl : buffer = front ++ serialize c v ++ rest := hbuffer
  have hlength' := hahead'.length
  have hle := hahead'.le
  dsimp only at hlength' hle
  rw [length_append, length_append] at hlength' hle
  have hpos : pos = front.length + (serialize c v).length := by omega
  rw [deserialize, ← hpos]
  exact hr'

/-- UTF-8, and the two boolean values with their JSON texts. -/
def utf8Codec : Codec Bool where
  fromString s := utf8Bytes ((codePoints s).getD (scalars s))
  toString bytes := (bytesText bytes).getD []
  stringify value := if value then [116, 114, 117, 101] else [102, 97, 108, 115, 101]
  parse s :=
    if s = [116, 114, 117, 101] then some true
    else if s = [102, 97, 108, 115, 101] then some false else none

theorem utf8Codec_inverse : utf8Codec.Inverse := by
  refine ⟨fun s hs => ?_, by decide⟩
  obtain ⟨t, ht⟩ := Option.isSome_iff_exists.mp hs
  rw [utf8Codec]
  dsimp only
  rw [ht, Option.getD_some, bytesText_utf8Bytes, Option.getD_some, textUnits_codePoints ht]

/-- An array of a string, a negative number and a boolean. -/
theorem deserialize_serialize_array :
    deserialize utf8Codec
        ⟨[9] ++ serialize utf8Codec (.array [.string [104], .int (-1), .json true]) ++ [7], 1⟩ =
      some (.array [.string [104], .int (-1), .json true],
        ⟨[9] ++ serialize utf8Codec (.array [.string [104], .int (-1), .json true]) ++ [7],
          1 + (serialize utf8Codec (.array [.string [104], .int (-1), .json true])).length⟩) :=
  deserialize_serialize utf8Codec_inverse (.array [.string [104], .int (-1), .json true]) (by
    rw [Encodable, EncodableItems, EncodableItems, EncodableItems, EncodableItems, Encodable, Encodable, Encodable]
    exact ⟨by decide, ⟨by decide, by decide⟩, trivial, ⟨by decide, by decide⟩, trivial⟩) [9] [7]

end Gavea.Wire
