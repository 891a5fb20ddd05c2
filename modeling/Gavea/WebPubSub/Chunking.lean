import Gavea.Base.Codecs
import Gavea.Lib.Json

namespace Gavea.WebPubSub

open Gavea.Lib Gavea.Lib.Js Gavea.Base

/-- The wire shape of a publish: a whole payload, or a base64 segment of its text. -/
inductive ChunkEnvelope
  | message (data : Json)
  | chunk (groupId : JsString) (seq total : Nat) (bytes : JsString)

def ChunkEnvelope.toJson : ChunkEnvelope → Json
  | .message data => .object [(ofText "kind", .string (ofText "message")), (ofText "data", data)]
  | .chunk groupId seq total bytes =>
    .object [(ofText "kind", .string (ofText "chunk")), (ofText "group_id", .string groupId), (ofText "seq",
      .number (Number.ofNat seq)), (ofText "total", .number (Number.ofNat total)), (ofText "bytes", .string bytes)]

def defaultMaxChunkBytes : ℚ := 900 * 1024

def defaultReassemblyTimeoutMs : Int := 30000

def defaultMaxReassemblyBytes : Nat := 32 * 1024 * 1024

def defaultMaxReassemblyTotalBytes : Nat := 64 * 1024 * 1024

def defaultMaxConcurrentGroups : Nat := 64

def defaultMaxSegmentsPerGroup : Nat := 4096

/-- A contract violation, with the values that the message of the error shows. -/
inductive ChunkingError
  | maxChunkBytesNotPositive (maxChunkBytes : ℚ)
  | notSerialisable
  | payloadTooLarge (byteLength : Nat)
  | emptyNewGroupId
  | noBudget (maxChunkBytes : ℚ) (overhead : Nat)
  | tooManyChunks (total : Nat)
  | notAnObject
  | missingData
  | unknownKind (kind : Option Json)
  | totalNotPositive (total : Option Json)
  | totalTooLarge (total : Int) (maxSegmentsPerGroup : Nat)
  | emptyGroupId
  | bytesNotString
  | tooManyGroups (groupId : JsString) (inFlight : Nat)
  | totalMismatch (groupId : JsString) (existing incoming : Int)
  | seqOutOfRange (seq : Option Json) (total : Int)
  | duplicateSeq (seq : Int) (groupId : JsString)
  | notCanonical (groupId : JsString)
  | decodeFailed (groupId : JsString) (cause : CodeUnit)
  | groupTooLarge (groupId : JsString) (maxBufferBytes : Nat)
  | totalBytesTooLarge (maxTotalBufferBytes : Nat)
  | segmentMissing (seq : Nat)
  | notUtf8 (groupId : JsString)
  | notJson (groupId : JsString)

def isBase64Char (u : CodeUnit) : Bool :=
  let n := u.toNat
  (65 ≤ n && n ≤ 90) || (97 ≤ n && n ≤ 122) || (48 ≤ n && n ≤ 57) || n == 43 || n == 47

def canonicalBase64 : JsString → Bool
  | [] => true
  | a :: b :: c :: d :: rest =>
    isBase64Char a && isBase64Char b &&
      ((isBase64Char c && isBase64Char d && canonicalBase64 rest) ||
        (isBase64Char c && d == padding && rest.isEmpty) ||
        (c == padding && d == padding && rest.isEmpty))
  | _ => false

def byteLength (value : Json) : Nat := (utf8Bytes value.text).length

/-- The envelope of the widest permitted sequence fields, without its bytes. -/
def emptyEnvelope (groupId : JsString) : ChunkEnvelope :=
  .chunk groupId (defaultMaxSegmentsPerGroup - 1) defaultMaxSegmentsPerGroup []

def segment (rawBytes : List UInt8) (rawBudget total : Nat) (groupId : JsString) (i : Nat) :
    ChunkEnvelope :=
  let start := i * rawBudget
  let stop := min (start + rawBudget) rawBytes.length
  .chunk groupId i total (encodeBase64 ((rawBytes.take stop).drop start) true false)

def chunkSegments (rawBytes : List UInt8) (maxChunkBytes : ℚ) (groupId : JsString) :
    Except ChunkingError (List ChunkEnvelope) :=
  if groupId.length = 0 then .error .emptyNewGroupId
  else
    let overhead := byteLength (emptyEnvelope groupId).toJson
    let encodedBudget := ⌊(maxChunkBytes - overhead) / 4⌋ * 4
    if encodedBudget < 4 then .error (.noBudget maxChunkBytes overhead)
    else
      let rawBudget := (encodedBudget / 4 * 3).toNat
      let total := ⌈(rawBytes.length : ℚ) / rawBudget⌉₊
      if total > defaultMaxSegmentsPerGroup then .error (.tooManyChunks total)
      else .ok ((List.range total).map (segment rawBytes rawBudget total groupId))

def chunk (payload : Option Json) (maxChunkBytes : Option ℚ) (newGroupId : JsString) :
    Except ChunkingError (List ChunkEnvelope) :=
  let maxChunkBytes := maxChunkBytes.getD defaultMaxChunkBytes
  if maxChunkBytes ≤ 0 then .error (.maxChunkBytesNotPositive maxChunkBytes)
  else
    match payload with
    | none => .error .notSerialisable
    | some payload =>
      let rawBytes := utf8Bytes payload.text
      if rawBytes.length > defaultMaxReassemblyBytes then
        .error (.payloadTooLarge rawBytes.length)
      else if (byteLength (ChunkEnvelope.message payload).toJson : ℚ) ≤ maxChunkBytes then
        .ok [.message payload]
      else chunkSegments rawBytes maxChunkBytes newGroupId

structure ReassemblerOptions where
  timeoutMs : Int := defaultReassemblyTimeoutMs
  maxBufferBytes : Nat := defaultMaxReassemblyBytes
  maxTotalBufferBytes : Nat := defaultMaxReassemblyTotalBytes
  maxConcurrentGroups : Nat := defaultMaxConcurrentGroups
  maxSegmentsPerGroup : Nat := defaultMaxSegmentsPerGroup

structure ReassemblyBuffer where
  total : Int
  received : Nat
  segments : List (Int × List UInt8)
  accumulatedBytes : Nat
  startedAt : Int

structure Reassembler where
  buffers : List (JsString × ReassemblyBuffer)
  accumulatedBytes : Int

namespace Reassembler

def empty : Reassembler := ⟨[], 0⟩

def get (r : Reassembler) (groupId : JsString) : Option ReassemblyBuffer :=
  (r.buffers.find? fun entry => entry.1 == groupId).map Prod.snd

def dropBuffer (r : Reassembler) (groupId : JsString) : Reassembler :=
  match r.get groupId with
  | none => r
  | some buffer => ⟨r.buffers.filter fun entry => entry.1 != groupId, r.accumulatedBytes - buffer.accumulatedBytes⟩

def openBuffer (o : ReassemblerOptions) (now : Int) (r : Reassembler) (groupId : JsString)
    (total : Int) : Except ChunkingError ReassemblyBuffer × Reassembler :=
  match r.get groupId with
  | none =>
    if r.buffers.length ≥ o.maxConcurrentGroups then
      (.error (.tooManyGroups groupId r.buffers.length), r)
    else
      let buffer := ⟨total, 0, [], 0, now⟩
      (.ok buffer, ⟨r.buffers ++ [(groupId, buffer)], r.accumulatedBytes⟩)
  | some buffer =>
    if buffer.total ≠ total then
      (.error (.totalMismatch groupId buffer.total total), r.dropBuffer groupId)
    else (.ok buffer, r)

/-- The segments of a buffer in the order of their numbers, from number i on. -/
def mergeFrom (segments : List (Int × List UInt8)) :
    Nat → Nat → Except ChunkingError (List UInt8)
  | _, 0 => .ok []
  | i, n + 1 =>
    match segments.find? fun s => s.1 == (i : Int) with
    | none => .error (.segmentMissing i)
    | some s => (mergeFrom segments (i + 1) n).map fun rest => s.2 ++ rest

def complete (groupId : JsString) (buffer : ReassemblyBuffer) : Except ChunkingError Json :=
  match mergeFrom buffer.segments 0 buffer.total.toNat with
  | .error e => .error e
  | .ok merged =>
    match utf8Text merged with
    | none => .error (.notUtf8 groupId)
    | some text =>
      match Json.parse text with
      | none => .error (.notJson groupId)
      | some payload => .ok payload

def addSegment (o : ReassemblerOptions) (r : Reassembler) (groupId : JsString)
    (buffer : ReassemblyBuffer) (seq : Int) (decoded : List UInt8) :
    Except ChunkingError Json × Reassembler :=
  if buffer.accumulatedBytes + decoded.length > o.maxBufferBytes then
    (.error (.groupTooLarge groupId o.maxBufferBytes), r.dropBuffer groupId)
  else if r.accumulatedBytes + decoded.length > o.maxTotalBufferBytes then
    (.error (.totalBytesTooLarge o.maxTotalBufferBytes), r.dropBuffer groupId)
  else
    let buffer' := { buffer with
      segments := buffer.segments ++ [(seq, decoded)]
      received := buffer.received + 1
      accumulatedBytes := buffer.accumulatedBytes + decoded.length }
    let r' : Reassembler :=
      ⟨modifyFirst (fun entry => entry.1 == groupId) (fun _ => (groupId, buffer')) r.buffers,
        r.accumulatedBytes + decoded.length⟩
    if (buffer'.received : Int) < buffer'.total then (.ok .null, r')
    else (complete groupId buffer', r'.dropBuffer groupId)

def integer? : Option Json → Option Int
  | some (.number n) => n.toInt?
  | _ => none

def acceptSegment (o : ReassemblerOptions) (r : Reassembler) (groupId : JsString)
    (buffer : ReassemblyBuffer) (total : Int) (seqField : Option Json) (bytes : JsString) :
    Except ChunkingError Json × Reassembler :=
  match integer? seqField with
  | none => (.error (.seqOutOfRange seqField total), r.dropBuffer groupId)
  | some seq =>
    if seq < 0 ∨ seq ≥ total then
      (.error (.seqOutOfRange seqField total), r.dropBuffer groupId)
    else if buffer.segments.any fun s => s.1 == seq then
      (.error (.duplicateSeq seq groupId), r.dropBuffer groupId)
    else if canonicalBase64 bytes = false then
      (.error (.notCanonical groupId), r.dropBuffer groupId)
    else
      match decodeBase64 bytes with
      | .error cause => (.error (.decodeFailed groupId cause), r.dropBuffer groupId)
      | .ok decoded => addSegment o r groupId buffer seq decoded

def ingestChunk (o : ReassemblerOptions) (now : Int) (r : Reassembler) (envelope : Json) :
    Except ChunkingError Json × Reassembler :=
  match integer? (envelope.get? (ofText "total")) with
  | none => (.error (.totalNotPositive (envelope.get? (ofText "total"))), r)
  | some total =>
    if total < 1 then (.error (.totalNotPositive (envelope.get? (ofText "total"))), r)
    else if total > o.maxSegmentsPerGroup then
      (.error (.totalTooLarge total o.maxSegmentsPerGroup), r)
    else
      match envelope.get? (ofText "group_id") with
      | some (.string groupId) =>
        if groupId.length = 0 then (.error .emptyGroupId, r)
        else
          match envelope.get? (ofText "bytes") with
          | some (.string bytes) =>
            match r.openBuffer o now groupId total with
            | (.error e, r) => (.error e, r)
            | (.ok buffer, r) => r.acceptSegment o groupId buffer total (envelope.get? (ofText "seq")) bytes
          | _ => (.error .bytesNotString, r)
      | _ => (.error .emptyGroupId, r)

/-- Process one inbound envelope: the inner payload when reassembly completes, null while
waiting for sibling chunks. -/
def ingest (o : ReassemblerOptions) (now : Int) (r : Reassembler) (envelope : Json) :
    Except ChunkingError Json × Reassembler :=
  match envelope with
  | .object _ | .array _ =>
    match envelope.get? (ofText "kind") with
    | some (.string kind) =>
      if kind = ofText "message" then
        match envelope.get? (ofText "data") with
        | none => (.error .missingData, r)
        | some data => (.ok data, r)
      else if kind = ofText "chunk" then r.ingestChunk o now envelope
      else (.error (.unknownKind (some (.string kind))), r)
    | kind => (.error (.unknownKind kind), r)
  | _ => (.error .notAnObject, r)

/-- Drop any buffer older than the configured timeout, returning the dropped groups. -/
def sweepExpired (o : ReassemblerOptions) (now : Int) (r : Reassembler) :
    List JsString × Reassembler :=
  let expired := (r.buffers.filter fun entry => entry.2.startedAt ≤ now - o.timeoutMs).map Prod.fst
  (expired, expired.foldl dropBuffer r)

end Reassembler

open Gavea.Lib.Js

def maxGroupNameBytes : Nat := 256

inductive EnvLane
  | root
  | events
  | lifecycle
  | control
  | ingestAck
  deriving DecidableEq

inductive ClientLaneKind
  | broadcast
  | toHost
  | toClient
  deriving DecidableEq

inductive Lane
  | client (lane : ClientLaneKind) (cid : JsString)
  | env (lane : EnvLane)
  deriving DecidableEq

structure ParsedGroup where
  lane : Lane
  uid : JsString
  eid : JsString
  deriving DecidableEq

/-- The segments that are opaque identifiers. -/
inductive IdName
  | uid
  | eid
  | cid
  deriving DecidableEq

/-- A violated rule of the grammar, with what the message of the error shows. -/
inductive GroupNameError
  | tooLong (byteLength : Nat)
  | emptyName
  | tooFewSegments (count : Nat) (name : JsString)
  | firstSegment (found : JsString)
  | thirdSegment (found : JsString)
  | emptySegment (name : IdName)
  | outsideGrammar (name : IdName)
  | notExpected (name : IdName) (value expected : JsString)
  | clientLaneTruncated (name : JsString)
  | trailingSegments (direction : JsString) (trailing : List JsString)
  | unknownDirection (direction : JsString)
  | envLaneSegments (lane : List JsString)
  | unknownEnvLane (lane : JsString)
  deriving DecidableEq

structure ParseGroupNameOptions where
  uid : Option JsString
  eid : Option JsString
  cid : Option JsString

def isOpaqueIdChar (u : CodeUnit) : Bool :=
  let n := u.toNat
  (65 ≤ n && n ≤ 90) || (97 ≤ n && n ≤ 122) || (48 ≤ n && n ≤ 57) || n == 95 || n == 45

def validateOpaqueId (name : IdName) (value : JsString) : Except GroupNameError Unit :=
  if value.length = 0 then .error (.emptySegment name)
  else if value.all isOpaqueIdChar then .ok ()
  else .error (.outsideGrammar name)

def checkExpected (name : IdName) (value : JsString) :
    Option JsString → Except GroupNameError Unit
  | some expected => if value = expected then .ok () else .error (.notExpected name value expected)
  | none => .ok ()

def clientLane (direction : JsString) : Option ClientLaneKind :=
  if direction = ofText "broadcast" then some .broadcast
  else if direction = ofText "to-host" then some .toHost
  else if direction = ofText "to-client" then some .toClient
  else none

def envLane (lane : JsString) : Option EnvLane :=
  if lane = ofText "root" then some .root
  else if lane = ofText "events" then some .events
  else if lane = ofText "lifecycle" then some .lifecycle
  else if lane = ofText "control" then some .control
  else if lane = ofText "ingest-ack" then some .ingestAck
  else none

/-- The segments of a name behind the identifier of its environment. -/
def parseLane (name : JsString) (options : ParseGroupNameOptions) (lane : List JsString) :
    Except GroupNameError Lane := do
  if lane.head? = some (ofText "client") then
    if lane.length < 3 then throw (.clientLaneTruncated name)
    let cid := lane.getD 1 []
    validateOpaqueId .cid cid
    checkExpected .cid cid options.cid
    let direction := lane.getD 2 []
    match clientLane direction with
    | some kind =>
      if lane.length ≠ 3 then throw (.trailingSegments direction (lane.drop 3))
      return .client kind cid
    | none => throw (.unknownDirection direction)
  else
    if lane.length ≠ 1 then throw (.envLaneSegments lane)
    match envLane (lane.headD []) with
    | some kind => return .env kind
    | none => throw (.unknownEnvLane (lane.headD []))

def parseGroupName (name : JsString) (options : ParseGroupNameOptions) :
    Except GroupNameError ParsedGroup := do
  let byteLength := (utf8Bytes (scalars name)).length
  if byteLength > maxGroupNameBytes then throw (.tooLong byteLength)
  if byteLength = 0 then throw .emptyName
  let segments := name.splitOn 46
  if segments.length < 5 then throw (.tooFewSegments segments.length name)
  if segments.getD 0 [] ≠ ofText "user" then throw (.firstSegment (segments.getD 0 []))
  let uid := segments.getD 1 []
  validateOpaqueId .uid uid
  checkExpected .uid uid options.uid
  if segments.getD 2 [] ≠ ofText "env" then throw (.thirdSegment (segments.getD 2 []))
  let eid := segments.getD 3 []
  validateOpaqueId .eid eid
  checkExpected .eid eid options.eid
  let lane ← parseLane name options (segments.drop 4)
  return ⟨lane, uid, eid⟩

open Gavea.Lib Gavea.Lib.Js

/-- The command that carries an envelope on the outbound wire. -/
structure SendToGroupCommand where
  group : JsString
  ackId : Nat
  data : ChunkEnvelope

/-- The frame that carries an envelope on the inbound wire. -/
structure GroupMessage where
  group : JsString
  data : ChunkEnvelope
  fromUserId : Option JsString
  sequenceId : Option Nat

def GroupMessage.toJson (m : GroupMessage) : Json :=
  .object ([(ofText "type", .string (ofText "message")), (ofText "from", .string (ofText "group")), (ofText "group",
    .string m.group), (ofText "dataType", .string (ofText "json")), (ofText "data", m.data.toJson)] ++
    (m.fromUserId.map fun id => (ofText "fromUserId", Json.string id)).toList ++
    (m.sequenceId.map fun id => (ofText "sequenceId", Json.number (Number.ofNat id))).toList)

inductive InboundResult
  | payload (group : ParsedGroup) (payload : Json)
  | pending (group : ParsedGroup)
  | ignored

inductive FramingError
  | unsupportedDataType (dataType : Option Json)
  | missingGroup
  | missingData

inductive InboundError
  | framing (error : FramingError)
  | groupName (error : GroupNameError)
  | chunking (error : ChunkingError)

def isText (field : Option Json) (text : String) : Bool :=
  match field with
  | some (.string s) => s == ofText text
  | _ => false

def isObject : Json → Bool
  | .object _ | .array _ => true
  | _ => false

def inboundResult (group : ParsedGroup) : Json → InboundResult
  | .null => .pending group
  | payload => .payload group payload

def parseInbound (o : ReassemblerOptions) (groupValidation : ParseGroupNameOptions) (now : Int)
    (r : Reassembler) (frame : Json) : Except InboundError InboundResult × Reassembler :=
  if isObject frame = false then (.ok .ignored, r)
  else if isText (frame.get? (ofText "type")) "message" = false ∨
      isText (frame.get? (ofText "from")) "group" = false then (.ok .ignored, r)
  else if isText (frame.get? (ofText "dataType")) "json" = false then
    (.error (.framing (.unsupportedDataType (frame.get? (ofText "dataType")))), r)
  else
    match frame.get? (ofText "group"), frame.get? (ofText "data") with
    | some (.string name), some data =>
      if isObject data = false then (.error (.framing .missingData), r)
      else
        match parseGroupName name groupValidation with
        | .error e => (.error (.groupName e), r)
        | .ok group =>
          match r.ingest o now data with
          | (.error e, r) => (.error (.chunking e), r)
          | (.ok payload, r) => (.ok (inboundResult group payload), r)
    | some (.string _), none => (.error (.framing .missingData), r)
    | _, _ => (.error (.framing .missingGroup), r)

open Gavea.Lib Gavea.Lib.Js Gavea.Base List

/-- A character that a JSON string shows as it is, in one byte. -/
def IsPlain (u : CodeUnit) : Prop := 0x20 ≤ u.toNat ∧ u.toNat < 128 ∧ u.toNat ≠ 34 ∧ u.toNat ≠ 92

theorem quoteUnit_of_isPlain {u : CodeUnit} (h : IsPlain u) :
    quoteUnit u = [Char.ofNat u.toNat] := by
  obtain ⟨h1, h2, h3, h4⟩ := h
  have hshort : shortEscape u = none := by
    rw [shortEscape, Option.map_eq_none_iff, find?_eq_none]
    intro p hp heq
    rw [beq_iff_eq] at heq
    have hall : ∀ p ∈ shortEscapes, p.1.toNat = 34 ∨ p.1.toNat = 92 ∨ p.1.toNat < 0x20 := by decide
    rcases hall p hp with h | h | h <;> rw [heq] at h <;> omega
  have hh : isHigh u = false := by
    simp only [isHigh, Bool.and_eq_false_iff, decide_eq_false_iff_not]
    omega
  have hl : isLow u = false := by
    simp only [isLow, Bool.and_eq_false_iff, decide_eq_false_iff_not]
    omega
  simp only [quoteUnit, hshort, hh, hl, Bool.or_false, decide_eq_true_eq, show ¬ u.toNat < 0x20 by omega, if_false]

theorem isPlain_not_isHigh {u : CodeUnit} (h : IsPlain u) : isHigh u = false := by
  obtain ⟨h1, h2, -, -⟩ := h
  simp only [isHigh, Bool.and_eq_false_iff, decide_eq_false_iff_not]
  omega

theorem length_quoteUnits_of_isPlain {s : JsString} (h : ∀ u ∈ s, IsPlain u) :
    (utf8Bytes (quoteUnits s)).length = s.length := by
  have hquote : quoteUnits s = s.map fun u => Char.ofNat u.toNat := by
    fun_induction quoteUnits s with
    | case1 => rfl
    | case2 u => exact quoteUnit_of_isPlain (h u mem_cons_self)
    | case3 u v s hp ih =>
      rw [isPlain_not_isHigh (h u mem_cons_self)] at hp
      cases hp
    | case4 u v s hp ih =>
      rw [quoteUnit_of_isPlain (h u mem_cons_self), ih fun u' hu' => h u' (mem_cons_of_mem u hu')]
      rfl
  have hascii : ∀ c ∈ quoteUnits s, c.toNat < 128 := by
    rw [hquote]
    rintro c hc
    obtain ⟨u, hu, rfl⟩ := mem_map.mp hc
    have hlt := (h u hu).2.1
    rw [toNat_ofNat_of_valid (Or.inl (by omega))]
    exact hlt
  rw [length_utf8Bytes_of_ascii hascii, hquote, length_map]

theorem isPlain_padding : IsPlain padding := by
  unfold IsPlain
  decide

set_option maxRecDepth 4000 in
theorem isBase64Char_alphabet (n : Nat) :
    n < 64 → isBase64Char (base64Alphabet.getD n 0) = true := by
  have hall : ∀ n, n < 64 → isBase64Char (base64Alphabet.getD n 0) = true := by decide
  exact hall n

theorem isPlain_of_isBase64Char {u : CodeUnit} (h : isBase64Char u = true) : IsPlain u := by
  simp only [isBase64Char, Bool.or_eq_true, Bool.and_eq_true, decide_eq_true_eq, beq_iff_eq] at h
  unfold IsPlain
  omega

theorem isBase64Char_shiftRight (a : UInt8) :
    isBase64Char (base64Alphabet.getD (a.toNat >>> 2) 0) = true :=
  isBase64Char_alphabet _ (shiftRight_two_lt a)

theorem isBase64Char_and (n : Nat) :
    isBase64Char (base64Alphabet.getD (n &&& 0b111111) 0) = true :=
  isBase64Char_alphabet _ (and_sextet_lt n)

theorem canonicalBase64_encodeBase64 (bytes : List UInt8) :
    canonicalBase64 (encodeBase64 bytes true false) = true := by
  fun_induction encodeBase64 bytes true false with
  | case1 => rfl
  | case2 dictionary a =>
    simp only [show dictionary = base64Alphabet from rfl, if_true, cons_append,
      nil_append, canonicalBase64, isBase64Char_shiftRight, isBase64Char_and]
    simp
  | case3 dictionary a b =>
    simp only [show dictionary = base64Alphabet from rfl, if_true, cons_append,
      nil_append, canonicalBase64, isBase64Char_shiftRight, isBase64Char_and]
    simp
  | case4 dictionary a b c rest ih =>
    simp only [show dictionary = base64Alphabet from rfl, canonicalBase64,
      isBase64Char_shiftRight, isBase64Char_and, ih, Bool.and_self, Bool.true_or]

theorem length_encodeBase64 (bytes : List UInt8) :
    (encodeBase64 bytes true false).length = (bytes.length + 2) / 3 * 4 := by
  fun_induction encodeBase64 bytes true false with
  | case1 => rfl
  | case2 => simp
  | case3 => simp
  | case4 dictionary a b c rest ih =>
    simp only [length_cons, ih]
    omega

theorem isPlain_encodeBase64 (bytes : List UInt8) :
    ∀ u ∈ encodeBase64 bytes true false, IsPlain u := by
  have hand := fun n => isPlain_of_isBase64Char (isBase64Char_and n)
  have hshift := fun a => isPlain_of_isBase64Char (isBase64Char_shiftRight a)
  fun_induction encodeBase64 bytes true false with
  | case1 => simp
  | case2 dictionary a =>
    simp only [if_true, cons_append, nil_append, forall_mem_cons]
    exact ⟨hshift a, hand _, isPlain_padding, isPlain_padding, by simp⟩
  | case3 dictionary a b =>
    simp only [if_true, cons_append, nil_append, forall_mem_cons]
    exact ⟨hshift a, hand _, hand _, isPlain_padding, by simp⟩
  | case4 dictionary a b c rest ih =>
    simp only [forall_mem_cons]
    exact ⟨hshift a, hand _, hand _, hand _, ih⟩

theorem length_utf8Bytes_decimal (n : Nat) : (utf8Bytes (decimal n)).length = (decimal n).length := by
  refine length_utf8Bytes_of_ascii fun c hc => ?_
  have hdigit := (isDecimal_decimal n).digits c hc
  simp only [isDigit, Bool.and_eq_true, decide_eq_true_eq] at hdigit
  omega

theorem byteLength_chunk (groupId : JsString) (seq total seq' total' : Nat) (bytes : JsString) :
    byteLength (ChunkEnvelope.chunk groupId seq total bytes).toJson + (decimal seq').length +
        (decimal total').length =
      byteLength (ChunkEnvelope.chunk groupId seq' total' []).toJson + (decimal seq).length +
        (decimal total).length + (utf8Bytes (quoteUnits bytes)).length := by
  have hnil : (utf8Bytes (quoteUnits [])).length = 0 := rfl
  simp only [byteLength, ChunkEnvelope.toJson, Json.text, Json.membersText, quote, Number.ofNat,
    utf8Bytes_append, utf8Bytes_cons, length_append, length_utf8Bytes_decimal]
  omega

theorem byteLength_chunk_le (groupId : JsString) {seq total : Nat} {bytes : JsString}
    (hseq : seq < total) (htotal : total ≤ defaultMaxSegmentsPerGroup)
    (hbytes : ∀ u ∈ bytes, IsPlain u) :
    byteLength (ChunkEnvelope.chunk groupId seq total bytes).toJson ≤
      byteLength (emptyEnvelope groupId).toJson + bytes.length := by
  unfold defaultMaxSegmentsPerGroup at htotal
  have hsize := byteLength_chunk groupId seq total 4095 4096 bytes
  have h1 : (decimal seq).length ≤ 4 := length_decimal (k := 3) (by omega)
  have h2 : (decimal total).length ≤ 4 := length_decimal (k := 3) (by omega)
  rw [length_quoteUnits_of_isPlain hbytes, show (decimal 4095).length = 4 by rfl,
    show (decimal 4096).length = 4 by rfl] at hsize
  rw [emptyEnvelope, show defaultMaxSegmentsPerGroup - 1 = 4095 by rfl, show defaultMaxSegmentsPerGroup = 4096 by rfl]
  omega

inductive Chunked (payload : Json) (maxChunkBytes : ℚ) (groupId : JsString) :
    List ChunkEnvelope → Prop
  | message (h : (byteLength (ChunkEnvelope.message payload).toJson : ℚ) ≤ maxChunkBytes) :
      Chunked payload maxChunkBytes groupId [.message payload]
  | chunks (quanta total : Nat) (hgroup : groupId ≠ [])
      (hmax : total ≤ defaultMaxSegmentsPerGroup)
      (hcover : (utf8Bytes payload.text).length ≤ total * (3 * quanta))
      (hsize : (byteLength (emptyEnvelope groupId).toJson + 4 * quanta : ℚ) ≤ maxChunkBytes) :
      Chunked payload maxChunkBytes groupId
        ((List.range total).map (segment (utf8Bytes payload.text) (3 * quanta) total groupId))

theorem chunked_of_chunkSegments {payload : Json} {maxChunkBytes : ℚ} {groupId : JsString}
    {envelopes : List ChunkEnvelope}
    (h : chunkSegments (utf8Bytes payload.text) maxChunkBytes groupId = .ok envelopes) :
    Chunked payload maxChunkBytes groupId envelopes := by
  unfold chunkSegments at h
  dsimp only at h
  split at h
  · cases h
  next hgroup =>
  split at h
  · cases h
  next hbudget =>
  split at h
  · cases h
  next hmax =>
  obtain rfl := Except.ok.inj h
  generalize hq : ⌊(maxChunkBytes - byteLength (emptyEnvelope groupId).toJson) / 4⌋ = quanta at hbudget hmax ⊢
  obtain ⟨quanta, rfl⟩ := Int.eq_ofNat_of_zero_le (show 0 ≤ quanta by omega)
  have hraw : ((quanta : ℤ) * 4 / 4 * 3).toNat = 3 * quanta := by omega
  rw [hraw] at hmax ⊢
  refine Chunked.chunks quanta _ (fun hnil => hgroup (by rw [hnil]; rfl)) (by omega) ?_ ?_
  · have hceil := Nat.le_ceil (((utf8Bytes payload.text).length : ℚ) / ((3 * quanta : ℕ) : ℚ))
    have hpos : (0 : ℚ) < ((3 * quanta : ℕ) : ℚ) := by
      have : 0 < 3 * quanta := by omega
      exact_mod_cast this
    rw [div_le_iff₀ hpos] at hceil
    exact_mod_cast hceil
  · have hfloor := Int.floor_le ((maxChunkBytes - byteLength (emptyEnvelope groupId).toJson) / 4)
    rw [hq] at hfloor
    push_cast at hfloor
    linarith

theorem chunked_of_chunk {payload : Json} {maxChunkBytes : Option ℚ} {groupId : JsString}
    {envelopes : List ChunkEnvelope}
    (h : chunk (some payload) maxChunkBytes groupId = .ok envelopes) :
    Chunked payload (maxChunkBytes.getD defaultMaxChunkBytes) groupId envelopes := by
  unfold chunk at h
  dsimp only at h
  split at h
  · cases h
  split at h
  · cases h
  split at h
  · next hmessage =>
      obtain rfl := Except.ok.inj h
      exact Chunked.message hmessage
  · exact chunked_of_chunkSegments h

theorem Chunked.byteLength_le {payload : Json} {maxChunkBytes : ℚ} {groupId : JsString}
    {envelopes : List ChunkEnvelope} (h : Chunked payload maxChunkBytes groupId envelopes) :
    ∀ envelope ∈ envelopes, (byteLength envelope.toJson : ℚ) ≤ maxChunkBytes := by
  intro envelope henvelope
  cases h with
  | message h =>
    rw [mem_singleton.mp henvelope]
    exact h
  | chunks quanta total hgroup hmax hcover hsize =>
    obtain ⟨i, hi, rfl⟩ := mem_map.mp henvelope
    have hle := byteLength_chunk_le groupId (mem_range.mp hi) hmax
      (isPlain_encodeBase64 (((utf8Bytes payload.text).take
        (min (i * (3 * quanta) + 3 * quanta) (utf8Bytes payload.text).length)).drop (i * (3 * quanta))))
    rw [length_encodeBase64, length_drop, length_take] at hle
    have hquanta : byteLength (segment (utf8Bytes payload.text) (3 * quanta) total groupId i).toJson
        ≤ byteLength (emptyEnvelope groupId).toJson + 4 * quanta := by
      refine hle.trans ?_
      omega
    refine le_trans ?_ hsize
    exact_mod_cast hquanta

end Gavea.WebPubSub
