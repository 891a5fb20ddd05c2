import Gavea.Lib.JsonLex

namespace Gavea.Lib.Js

open List

def scalars : JsString → List Char
  | [] => []
  | [u] => [if isHigh u || isLow u then Char.ofNat 0xFFFD else Char.ofNat u.toNat]
  | u :: v :: rest =>
    if isHigh u && isLow v then pairChar u v :: scalars rest
    else
      (if isHigh u || isLow u then Char.ofNat 0xFFFD else Char.ofNat u.toNat) :: scalars (v :: rest)

def utf8Bytes (t : List Char) : List UInt8 := t.flatMap String.utf8EncodeChar

def byteOrderMark : Char := Char.ofNat 0xFEFF

def utf8Text (bytes : List UInt8) : Option (List Char) :=
  bytes.toByteArray.utf8Decode?.map fun t => if t.toList.head? = some byteOrderMark then t.toList.tail else t.toList

theorem utf8Text_utf8Bytes {t : List Char} (h : t.head? ≠ some byteOrderMark) :
    utf8Text (utf8Bytes t) = some t := by
  have hdecode : (utf8Bytes t).toByteArray.utf8Decode? = some t.toArray := utf8Decode?_utf8Encode
  rw [utf8Text, hdecode, Option.map_some, toList_toArray, if_neg h]

@[simp] theorem utf8Bytes_append (s t : List Char) :
    utf8Bytes (s ++ t) = utf8Bytes s ++ utf8Bytes t :=
  flatMap_append

theorem utf8Bytes_cons (c : Char) (t : List Char) :
    utf8Bytes (c :: t) = String.utf8EncodeChar c ++ utf8Bytes t :=
  flatMap_cons

theorem length_utf8EncodeChar_of_ascii {c : Char} (h : c.toNat < 128) :
    (String.utf8EncodeChar c).length = 1 := by
  have hv : c.val.toNat < 128 := h
  rw [String.utf8EncodeChar.eq_def]
  simp only [show c.val.toNat ≤ 0x7f by omega, if_true, length_singleton]

theorem length_utf8Bytes_of_ascii {t : List Char} (h : ∀ c ∈ t, c.toNat < 128) :
    (utf8Bytes t).length = t.length := by
  induction t with
  | nil => rfl
  | cons c t ih =>
    have hc := length_utf8EncodeChar_of_ascii (h c mem_cons_self)
    have ht := ih fun c' hc' => h c' (mem_cons_of_mem c hc')
    simp only [utf8Bytes, flatMap_cons, length_append, length_cons] at ht ⊢
    omega

theorem utf8Bytes_ne_nil {t : List Char} (h : t ≠ []) : utf8Bytes t ≠ [] := by
  obtain ⟨c, t, rfl⟩ := exists_cons_of_ne_nil h
  intro hnil
  rw [utf8Bytes, flatMap_cons, append_eq_nil_iff] at hnil
  exact String.utf8EncodeChar_ne_nil hnil.1

theorem ofNat_ne_lineFeed {n : Nat} (h : 128 ≤ n) (hn : n < 256) : (10 : UInt8) ≠ UInt8.ofNat n := by
  intro heq
  have := congrArg UInt8.toNat heq
  rw [UInt8.toNat_ofNat', Nat.mod_eq_of_lt (by omega)] at this
  rw [← this] at h
  exact absurd h (by decide)

theorem lineFeed_mem_utf8EncodeChar {c : Char} (h : (10 : UInt8) ∈ String.utf8EncodeChar c) :
    c = '\n' := by
  rw [String.utf8EncodeChar.eq_def] at h
  dsimp only at h
  split at h
  · next hle =>
      have hval := congrArg UInt8.toNat (mem_singleton.mp h)
      rw [UInt8.toNat_ofNat', Nat.mod_eq_of_lt (by omega)] at hval
      exact Char.ext (UInt32.toNat_inj.mp hval.symm)
  · exfalso
    split at h
    · simp only [mem_cons, not_mem_nil, or_false] at h
      rcases h with h | h <;> exact ofNat_ne_lineFeed (by omega) (by omega) h
    split at h <;> simp only [mem_cons, not_mem_nil, or_false] at h
    · rcases h with h | h | h <;> exact ofNat_ne_lineFeed (by omega) (by omega) h
    · rcases h with h | h | h | h <;> exact ofNat_ne_lineFeed (by omega) (by omega) h

theorem lineFeed_not_mem_utf8Bytes {t : List Char} (h : '\n' ∉ t) :
    (10 : UInt8) ∉ utf8Bytes t := by
  intro hmem
  obtain ⟨c, hc, hbyte⟩ := mem_flatMap.mp hmem
  exact h (lineFeed_mem_utf8EncodeChar hbyte ▸ hc)

/-- What a UTF-8 decoder keeps of a character whose bytes have not all arrived. -/
structure PartialCharacter where
  codePoint : Nat := 0
  bytesSeen : Nat := 0
  bytesNeeded : Nat := 0
  lowerBoundary : Nat := 0x80
  upperBoundary : Nat := 0xBF

def replacementCharacter : Nat := 0xFFFD

namespace PartialCharacter

def lead (byte : Nat) : PartialCharacter × List Nat :=
  if byte ≤ 0x7F then ({}, [byte])
  else if 0xC2 ≤ byte ∧ byte ≤ 0xDF then
    ({ bytesNeeded := 1, codePoint := byte % 32 }, [])
  else if 0xE0 ≤ byte ∧ byte ≤ 0xEF then
    ({ bytesNeeded := 2, codePoint := byte % 16, lowerBoundary := if byte = 0xE0 then 0xA0 else 0x80,
       upperBoundary := if byte = 0xED then 0x9F else 0xBF }, [])
  else if 0xF0 ≤ byte ∧ byte ≤ 0xF4 then
    ({ bytesNeeded := 3, codePoint := byte % 8, lowerBoundary := if byte = 0xF0 then 0x90 else 0x80,
       upperBoundary := if byte = 0xF4 then 0x8F else 0xBF }, [])
  else ({}, [replacementCharacter])

def next (c : PartialCharacter) (b : UInt8) : PartialCharacter × List Nat :=
  let byte := b.toNat
  if c.bytesNeeded = 0 then lead byte
  else if byte < c.lowerBoundary ∨ c.upperBoundary < byte then
    ((lead byte).1, replacementCharacter :: (lead byte).2)
  else
    let codePoint := c.codePoint * 64 + byte % 64
    if c.bytesSeen + 1 = c.bytesNeeded then ({}, [codePoint])
    else
      ({ codePoint := codePoint, bytesSeen := c.bytesSeen + 1, bytesNeeded := c.bytesNeeded }, [])

def finish (c : PartialCharacter) : List Nat := if c.bytesNeeded = 0 then [] else [replacementCharacter]

end PartialCharacter

def scalarUnits (codePoint : Nat) : JsString :=
  if codePoint < 0x10000 then [UInt16.ofNat codePoint]
  else
    [UInt16.ofNat (0xD800 + (codePoint - 0x10000) / 0x400), UInt16.ofNat (0xDC00 + (codePoint - 0x10000) % 0x400)]

/-- `new TextDecoder('utf-8')`: neither fatal nor keeping the byte order mark. -/
structure TextDecoder where
  waiting : PartialCharacter := {}
  bomSeen : Bool := false
  doNotFlush : Bool := false

namespace TextDecoder

def write (d : TextDecoder) (codePoint : Nat) : TextDecoder × JsString :=
  if d.bomSeen then (d, scalarUnits codePoint)
  else ({ d with bomSeen := true }, if codePoint = 0xFEFF then [] else scalarUnits codePoint)

def writeAll (d : TextDecoder) : List Nat → TextDecoder × JsString
  | [] => (d, [])
  | c :: cs => ((writeAll (d.write c).1 cs).1, (d.write c).2 ++ (writeAll (d.write c).1 cs).2)

def readByte (d : TextDecoder) (b : UInt8) : TextDecoder × JsString :=
  writeAll { d with waiting := (d.waiting.next b).1 } (d.waiting.next b).2

def readBytes (d : TextDecoder) : List UInt8 → TextDecoder × JsString
  | [] => (d, [])
  | b :: bs => ((readBytes (d.readByte b).1 bs).1, (d.readByte b).2 ++ (readBytes (d.readByte b).1 bs).2)

def atEnd (d : TextDecoder) : TextDecoder × JsString := writeAll { d with waiting := {} } d.waiting.finish

/-- The state in which a call starts reading: what is left of a flushed call is forgotten. -/
def entered (d : TextDecoder) (stream : Bool) : TextDecoder :=
  if d.doNotFlush then { d with doNotFlush := stream } else { doNotFlush := stream }

def decode (d : TextDecoder) (bytes : List UInt8) (stream : Bool) : TextDecoder × JsString :=
  let read := (d.entered stream).readBytes bytes
  if stream then read else (read.1.atEnd.1, read.2 ++ read.1.atEnd.2)

def text (bytes : List UInt8) : JsString := (decode {} bytes false).2

def flagged (d : TextDecoder) (stream : Bool) : TextDecoder := { d with doNotFlush := stream }

theorem writeAll_flagged (d : TextDecoder) (stream : Bool) (cs : List Nat) :
    (d.flagged stream).writeAll cs = ((d.writeAll cs).1.flagged stream, (d.writeAll cs).2) := by
  induction cs generalizing d with
  | nil => rfl
  | cons c cs ih =>
    have hw : (d.flagged stream).write c = ((d.write c).1.flagged stream, (d.write c).2) := by
      cases hb : d.bomSeen <;> simp [write, flagged, hb]
    simp only [writeAll, hw, ih]

theorem readBytes_flagged (d : TextDecoder) (stream : Bool) (bs : List UInt8) :
    (d.flagged stream).readBytes bs = ((d.readBytes bs).1.flagged stream, (d.readBytes bs).2) := by
  induction bs generalizing d with
  | nil => rfl
  | cons b bs ih =>
    have hr : (d.flagged stream).readByte b = ((d.readByte b).1.flagged stream, (d.readByte b).2) :=
      writeAll_flagged { d with waiting := (d.waiting.next b).1 } stream _
    simp only [readBytes, hr, ih]

theorem readBytes_append (d : TextDecoder) (as bs : List UInt8) :
    d.readBytes (as ++ bs) =
      (((d.readBytes as).1.readBytes bs).1,
        (d.readBytes as).2 ++ ((d.readBytes as).1.readBytes bs).2) := by
  induction as generalizing d with
  | nil => rfl
  | cons a as ih => simp only [cons_append, readBytes, ih, append_assoc]

theorem entered_flagged (d : TextDecoder) (stream : Bool) :
    d.entered stream = (d.entered true).flagged stream := by
  simp only [entered, flagged]
  split <;> rfl

theorem entered_of_streaming {d : TextDecoder} (h : d.doNotFlush = true) (stream : Bool) :
    d.entered stream = d.flagged stream := by
  rw [entered, if_pos h, flagged]

theorem doNotFlush_entered (d : TextDecoder) (stream : Bool) :
    (d.entered stream).doNotFlush = stream := by
  simp only [entered]
  split <;> rfl

theorem doNotFlush_readBytes (d : TextDecoder) (bs : List UInt8) :
    (d.readBytes bs).1.doNotFlush = d.doNotFlush := by
  have h := congrArg (fun r => r.1.doNotFlush) (readBytes_flagged d d.doNotFlush bs)
  exact h

theorem doNotFlush_writeAll (d : TextDecoder) (cs : List Nat) :
    (d.writeAll cs).1.doNotFlush = d.doNotFlush := by
  have h := congrArg (fun r => r.1.doNotFlush) (writeAll_flagged d d.doNotFlush cs)
  exact h

theorem decode_append (d : TextDecoder) (as bs : List UInt8) (stream : Bool) :
    d.decode (as ++ bs) stream =
      (((d.decode as true).1.decode bs stream).1,
        (d.decode as true).2 ++ ((d.decode as true).1.decode bs stream).2) := by
  have hread : (d.entered stream).readBytes as =
      (((d.entered true).readBytes as).1.flagged stream, ((d.entered true).readBytes as).2) := by
    rw [entered_flagged, readBytes_flagged]
  have hentered : ((d.entered true).readBytes as).1.entered stream =
      ((d.entered true).readBytes as).1.flagged stream :=
    entered_of_streaming (by rw [doNotFlush_readBytes, doNotFlush_entered]) stream
  simp only [decode, if_true, readBytes_append, hread, hentered]
  split
  · rfl
  · simp only [append_assoc]

theorem doNotFlush_decode (d : TextDecoder) (bs : List UInt8) (stream : Bool) :
    (d.decode bs stream).1.doNotFlush = stream := by
  simp only [decode]
  split
  · rw [doNotFlush_readBytes, doNotFlush_entered]
  · rw [atEnd, doNotFlush_writeAll]
    exact (doNotFlush_readBytes _ _).trans (doNotFlush_entered d stream)

theorem decode_of_flushed {d : TextDecoder} (h : d.doNotFlush = false) (bs : List UInt8) :
    (d.decode bs false).2 = text bs := by
  have hentered : d.entered false = entered {} false := by
    simp only [entered, h]
    rfl
  simp only [text, decode, hentered]

end TextDecoder
end Gavea.Lib.Js
