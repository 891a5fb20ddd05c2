import Gavea.Wire.Serialization

namespace Gavea.Wire

open List

structure ProtocolMessage where
  type : Nat
  id : Nat
  ack : Nat
  data : VSBuffer
deriving DecidableEq

namespace ProtocolConstants

def headerLength : Nat := 13

end ProtocolConstants

structure ProtocolWriter where
  isDisposed : Bool
  isPaused : Bool
  data : List VSBuffer
  totalLength : Nat
  writeNowTimeout : Bool
  socket : List VSBuffer
deriving DecidableEq

namespace ProtocolWriter

def new : ProtocolWriter := ⟨false, false, [], 0, false, []⟩

def bufferAdd (w : ProtocolWriter) (head body : VSBuffer) : Bool × ProtocolWriter :=
  (w.totalLength == 0,
    { w with data := w.data ++ [head, body], totalLength := w.totalLength + (head.length + body.length) })

def bufferTake (w : ProtocolWriter) : Option (VSBuffer × ProtocolWriter) := do
  let ret ← VSBuffer.concat w.data w.totalLength
  some (ret, { w with data := [], totalLength := 0 })

def writeNow (w : ProtocolWriter) : Option ProtocolWriter :=
  if w.totalLength = 0 then some w
  else if w.isPaused then some w
  else do
    let (data, w) ← w.bufferTake
    some { w with socket := w.socket ++ [data] }

def scheduleWriting (w : ProtocolWriter) : ProtocolWriter :=
  if w.writeNowTimeout then w else { w with writeNowTimeout := true }

def timeout (w : ProtocolWriter) : Option ProtocolWriter :=
  if w.writeNowTimeout then writeNow { w with writeNowTimeout := false } else some w

def writeSoon (w : ProtocolWriter) (header data : VSBuffer) : ProtocolWriter :=
  let (wasEmpty, w) := w.bufferAdd header data
  if wasEmpty then w.scheduleWriting else w

def header (msg : ProtocolMessage) : VSBuffer :=
  let header := VSBuffer.alloc ProtocolConstants.headerLength
  let header := VSBuffer.writeUInt8 header msg.type 0
  let header := VSBuffer.writeUInt32BE header msg.id 1
  let header := VSBuffer.writeUInt32BE header msg.ack 5
  VSBuffer.writeUInt32BE header msg.data.length 9

def write (w : ProtocolWriter) (msg : ProtocolMessage) : ProtocolWriter :=
  if w.isDisposed then w else w.writeSoon (header msg) msg.data

def flush (w : ProtocolWriter) : Option ProtocolWriter := w.writeNow

def pause (w : ProtocolWriter) : ProtocolWriter := { w with isPaused := true }

def resume (w : ProtocolWriter) : ProtocolWriter := { w with isPaused := false }.scheduleWriting

inductive Event
  | write (msg : ProtocolMessage)
  | timeout
  | flush
  | pause
  | resume

def step (w : ProtocolWriter) : Event → Option ProtocolWriter
  | .write msg => some (w.write msg)
  | .timeout => w.timeout
  | .flush => w.flush
  | .pause => some w.pause
  | .resume => some w.resume

def run (w : ProtocolWriter) : List Event → Option ProtocolWriter
  | [] => some w
  | event :: events => do
      let w ← w.step event
      w.run events

end ProtocolWriter

structure ProtocolReader where
  isDisposed : Bool
  incomingData : ChunkStream
  readHead : Bool
  readLen : Nat
  messageType : Nat
  id : Nat
  ack : Nat
  fired : List ProtocolMessage

namespace ProtocolReader

def new : ProtocolReader := ⟨false, ChunkStream.empty, true, ProtocolConstants.headerLength, 0, 0, 0, []⟩

def dispose (r : ProtocolReader) : ProtocolReader := { r with isDisposed := true }

def acceptHeader (r : ProtocolReader) (buff : VSBuffer) : ProtocolReader :=
  { r with
    readHead := false
    readLen := buff.readUInt32BE 9
    messageType := buff.readUInt8 0
    id := buff.readUInt32BE 1
    ack := buff.readUInt32BE 5 }

def acceptBody (r : ProtocolReader) (buff : VSBuffer) : ProtocolReader :=
  { r with
    readHead := true
    readLen := ProtocolConstants.headerLength
    messageType := 0
    id := 0
    ack := 0
    fired := r.fired ++ [⟨r.messageType, r.id, r.ack, buff⟩] }

section

-- whether a listener disposes the reader at the last one of the fired messages
variable (disposes : List ProtocolMessage → Bool)

/-- The loop of `acceptChunk`; none where the code throws or does not end. -/
def drain : Nat → ProtocolReader → Option ProtocolReader
  | 0, _ => none
  | rounds + 1, r =>
    if r.incomingData.byteLength ≥ r.readLen then do
      let (buff, incomingData) ← r.incomingData.read r.readLen
      let r := { r with incomingData := incomingData }
      if r.readHead then drain rounds (r.acceptHeader buff)
      else
        let r := r.acceptBody buff
        let r := if disposes r.fired then r.dispose else r
        if r.isDisposed then some r else drain rounds r
    else some r

/-- Two rounds take the header at least. -/
def acceptChunk (r : ProtocolReader) (data : VSBuffer) : Option ProtocolReader :=
  if data.length = 0 then some r
  else
    let r := { r with incomingData := r.incomingData.acceptChunk data }
    drain disposes (2 * r.incomingData.byteLength + 2) r

end

def readEntireBuffer (r : ProtocolReader) : Option VSBuffer := do
  let (buff, _) ← r.incomingData.read r.incomingData.byteLength
  some buff

end ProtocolReader

structure Reception where
  reader : ProtocolReader
  received : List UInt8

namespace Reception

def new : Reception := ⟨ProtocolReader.new, []⟩

def onData (disposes : List ProtocolMessage → Bool) (c : Reception) (data : VSBuffer) : Option Reception :=
  if c.reader.isDisposed then some c
  else do
    let reader ← c.reader.acceptChunk disposes data
    some ⟨reader, c.received ++ data⟩

def run (disposes : List ProtocolMessage → Bool) (c : Reception) : List VSBuffer → Option Reception
  | [] => some c
  | data :: chunks => do
      let c ← c.onData disposes data
      c.run disposes chunks

end Reception
open ProtocolWriter ProtocolReader

structure ProtocolMessage.Fits (msg : ProtocolMessage) : Prop where
  type : msg.type < 2 ^ 8
  id : msg.id < 2 ^ 32
  ack : msg.ack < 2 ^ 32
  length : msg.data.length < 2 ^ 32

def frame (msg : ProtocolMessage) : List UInt8 := header msg ++ msg.data

def frames (msgs : List ProtocolMessage) : List UInt8 := msgs.flatMap frame

def message : Event → Option ProtocolMessage
  | .write msg => some msg
  | _ => none

def messages (events : List Event) : List ProtocolMessage := events.filterMap message

variable {w : ProtocolWriter} {r : ProtocolReader} {c : Reception} {msg : ProtocolMessage}
  {msgs todo : List ProtocolMessage} {ahead : List UInt8} {disposes : List ProtocolMessage → Bool}

theorem frames_cons (msg : ProtocolMessage) (msgs : List ProtocolMessage) :
    frames (msg :: msgs) = header msg ++ (msg.data ++ frames msgs) := by
  rw [frames, flatMap_cons, frame, append_assoc, frames]

theorem frames_append (msgs msgs' : List ProtocolMessage) :
    frames (msgs ++ msgs') = frames msgs ++ frames msgs' := flatMap_append

def bytesBE (value : Nat) : List UInt8 :=
  [UInt8.ofNat ((value % 2 ^ 32) >>> 8 >>> 8 >>> 8), UInt8.ofNat ((value % 2 ^ 32) >>> 8 >>> 8),
    UInt8.ofNat ((value % 2 ^ 32) >>> 8), UInt8.ofNat value]

theorem header_eq (msg : ProtocolMessage) : header msg =
    [UInt8.ofNat msg.type] ++ bytesBE msg.id ++ bytesBE msg.ack ++ bytesBE msg.data.length := by
  simp only [header, VSBuffer.alloc, ProtocolConstants.headerLength, VSBuffer.writeUInt8,
    VSBuffer.writeUInt32BE, List.replicate, set_cons_zero, set_cons_succ, bytesBE, cons_append, nil_append]

theorem length_header (msg : ProtocolMessage) : (header msg).length = ProtocolConstants.headerLength := by
  rw [header_eq]
  rfl

theorem toNat_bytesBE {value : Nat} (h : value < 2 ^ 32) :
    (UInt8.ofNat ((value % 2 ^ 32) >>> 8 >>> 8 >>> 8)).toNat * 2 ^ 24 +
      (UInt8.ofNat ((value % 2 ^ 32) >>> 8 >>> 8)).toNat * 2 ^ 16 +
      (UInt8.ofNat ((value % 2 ^ 32) >>> 8)).toNat * 2 ^ 8 + (UInt8.ofNat value).toNat = value := by
  rw [UInt8.toNat_ofNat', UInt8.toNat_ofNat', UInt8.toNat_ofNat', UInt8.toNat_ofNat',
    Nat.shiftRight_eq_div_pow, Nat.shiftRight_eq_div_pow, Nat.shiftRight_eq_div_pow]
  omega

theorem acceptHeader_header (h : msg.Fits) (r : ProtocolReader) : r.acceptHeader (header msg) =
    { r with
      readHead := false
      readLen := msg.data.length
      messageType := msg.type
      id := msg.id
      ack := msg.ack } := by
  have hlength : (header msg).readUInt32BE 9 = msg.data.length := by
    rw [header_eq]
    exact toNat_bytesBE h.length
  have hid : (header msg).readUInt32BE 1 = msg.id := by
    rw [header_eq]
    exact toNat_bytesBE h.id
  have hack : (header msg).readUInt32BE 5 = msg.ack := by
    rw [header_eq]
    exact toNat_bytesBE h.ack
  have htype : (header msg).readUInt8 0 = msg.type := by
    rw [header_eq]
    exact UInt8.toNat_ofNat'.trans (Nat.mod_eq_of_lt h.type)
  rw [acceptHeader, hlength, hid, hack, htype]

structure Holds (w : ProtocolWriter) (msgs : List ProtocolMessage) : Prop where
  alive : w.isDisposed = false
  counted : w.totalLength = w.data.flatten.length
  holds : w.socket.flatten ++ w.data.flatten = frames msgs

theorem Holds.writeNow (h : Holds w msgs) : ∃ w', w.writeNow = some w' ∧ Holds w' msgs ∧
    w'.isPaused = w.isPaused ∧ (w.isPaused = false → w'.totalLength = 0) := by
  rw [ProtocolWriter.writeNow]
  split_ifs with hzero hpaused
  · exact ⟨w, rfl, h, rfl, fun _ => hzero⟩
  · exact ⟨w, rfl, h, rfl, fun hnot => absurd hpaused (by rw [hnot]; exact Bool.false_ne_true)⟩
  · rw [bufferTake, h.counted, VSBuffer.concat_eq_flatten]
    refine ⟨_, rfl, ⟨h.alive, rfl, ?_⟩, rfl, fun _ => rfl⟩
    rw [flatten_append, flatten_singleton, flatten_nil, append_nil]
    exact h.holds

theorem Holds.scheduleWriting (h : Holds w msgs) : Holds w.scheduleWriting msgs := by
  rw [ProtocolWriter.scheduleWriting]
  split_ifs
  · exact h
  · exact ⟨h.alive, h.counted, h.holds⟩

theorem Holds.write (h : Holds w msgs) (msg : ProtocolMessage) : Holds (w.write msg) (msgs ++ [msg]) := by
  have hadded : Holds (w.bufferAdd (header msg) msg.data).2 (msgs ++ [msg]) := by
    have hdata : (w.data ++ [header msg, msg.data]).flatten = w.data.flatten ++ frame msg := by
      rw [flatten_append, flatten_cons, flatten_singleton, frame]
    refine ⟨h.alive, ?_, ?_⟩
    · rw [bufferAdd]
      dsimp only
      rw [hdata, length_append, frame, length_append, h.counted]
    · rw [bufferAdd]
      dsimp only
      rw [hdata, ← append_assoc, h.holds, frames_append]
      exact congrArg (frames msgs ++ ·) (append_nil (frame msg)).symm
  rw [ProtocolWriter.write, if_neg (by rw [h.alive]; exact Bool.false_ne_true), writeSoon]
  dsimp only
  split_ifs
  · exact hadded.scheduleWriting
  · exact hadded

theorem Holds.step (h : Holds w msgs) (event : Event) :
    ∃ w', w.step event = some w' ∧ Holds w' (msgs ++ messages [event]) := by
  have hnone (event : Event) (hmessage : message event = none) : msgs ++ messages [event] = msgs := by
    rw [messages, filterMap_cons_none hmessage, filterMap_nil, append_nil]
  cases event with
  | write msg => exact ⟨_, rfl, h.write msg⟩
  | timeout =>
    rw [hnone .timeout rfl, ProtocolWriter.step, ProtocolWriter.timeout]
    split_ifs
    · obtain ⟨w', hw', hholds, -⟩ := (⟨h.alive, h.counted, h.holds⟩ :
        Holds { w with writeNowTimeout := false } msgs).writeNow
      exact ⟨w', hw', hholds⟩
    · exact ⟨w, rfl, h⟩
  | flush =>
    rw [hnone .flush rfl]
    obtain ⟨w', hw', hholds, -⟩ := h.writeNow
    exact ⟨w', hw', hholds⟩
  | pause =>
    rw [hnone .pause rfl]
    exact ⟨_, rfl, h.alive, h.counted, h.holds⟩
  | resume =>
    rw [hnone .resume rfl]
    exact ⟨_, rfl, Holds.scheduleWriting ⟨h.alive, h.counted, h.holds⟩⟩

theorem messages_cons (event : Event) (events : List Event) :
    messages (event :: events) = messages [event] ++ messages events :=
  filterMap_append (l := [event])

/-- The writer never throws. -/
theorem Holds.run (h : Holds w msgs) (events : List Event) :
    ∃ w', w.run events = some w' ∧ Holds w' (msgs ++ messages events) := by
  induction events generalizing w msgs with
  | nil =>
    rw [messages, filterMap_nil, append_nil]
    exact ⟨w, rfl, h⟩
  | cons event events ih =>
    obtain ⟨w1, hw1, hholds1⟩ := h.step event
    obtain ⟨w2, hw2, hholds2⟩ := ih hholds1
    refine ⟨w2, ?_, ?_⟩
    · rw [ProtocolWriter.run, hw1, Option.bind_eq_bind, Option.bind_some, hw2]
    · rw [messages_cons, ← append_assoc]
      exact hholds2

theorem run_flush (events : List Event) :
    ∃ w, ProtocolWriter.new.run (events ++ [.resume, .flush]) = some w ∧
      w.socket.flatten = frames (messages events) := by
  have hrun (w : ProtocolWriter) (events events' : List Event) : w.run (events ++ events') =
      (w.run events).bind fun w => w.run events' := by
    induction events generalizing w with
    | nil => rfl
    | cons event events ih =>
      rw [cons_append, ProtocolWriter.run, ProtocolWriter.run]
      cases w.step event with
      | none => rfl
      | some w => exact ih w
  obtain ⟨w, hw, hholds⟩ := (⟨rfl, rfl, rfl⟩ : Holds ProtocolWriter.new []).run events
  have hresumed : Holds w.resume (messages events) := Holds.scheduleWriting ⟨hholds.alive, hholds.counted, hholds.holds⟩
  obtain ⟨w', hw', hholds', -, hempty⟩ := hresumed.writeNow
  have hpaused : w.resume.isPaused = false := by
    rw [ProtocolWriter.resume, ProtocolWriter.scheduleWriting]
    split_ifs <;> rfl
  refine ⟨w', ?_, ?_⟩
  · rw [hrun, hw, Option.bind_some]
    exact congrArg (fun x => x.bind fun w => some w) hw'
  · have hdata := hempty hpaused
    rw [hholds'.counted] at hdata
    have hnil := eq_nil_of_length_eq_zero hdata
    have hsocket := hholds'.holds
    rw [hnil, append_nil] at hsocket
    exact hsocket

end Gavea.Wire

namespace Gavea.Wire

open ProtocolWriter ProtocolReader List

inductive AtFrame (r : ProtocolReader) (todo : List ProtocolMessage) (stream : List UInt8) : Prop
  | head (hhead : r.readHead = true) (hlen : r.readLen = ProtocolConstants.headerLength)
      (hstream : stream = frames todo)
  | body (msg : ProtocolMessage) (rest : List ProtocolMessage) (htodo : todo = msg :: rest)
      (hhead : r.readHead = false) (hlen : r.readLen = msg.data.length)
      (hmsg : (⟨r.messageType, r.id, r.ack, msg.data⟩ : ProtocolMessage) = msg)
      (hstream : stream = msg.data ++ frames rest)

structure Reads (disposes : List ProtocolMessage → Bool) (msgs : List ProtocolMessage)
    (r : ProtocolReader) (ahead : List UInt8) : Prop where
  alive : r.isDisposed = false
  counted : r.incomingData.Counted
  fired : ∃ todo, msgs = r.fired ++ todo ∧ AtFrame r todo (r.incomingData.bytes ++ ahead)
  goesOn : ∀ k, 0 < k → k ≤ r.fired.length → disposes (msgs.take k) = false

structure Disposed (disposes : List ProtocolMessage → Bool) (msgs : List ProtocolMessage)
    (r : ProtocolReader) (ahead : List UInt8) (k : Nat) : Prop where
  disposed : r.isDisposed = true
  counted : r.incomingData.Counted
  pos : 0 < k
  le : k ≤ msgs.length
  fired : r.fired = msgs.take k
  stopped : disposes (msgs.take k) = true
  goesOn : ∀ i, 0 < i → i < k → disposes (msgs.take i) = false
  rest : r.incomingData.bytes ++ ahead = frames (msgs.drop k)

/-- A header is worth a body behind it. -/
def roundsLeft (r : ProtocolReader) : Nat := 2 * r.incomingData.byteLength + if r.readHead then 0 else 1

variable {r : ProtocolReader} {c : Reception} {msgs : List ProtocolMessage} {ahead : List UInt8}
  {disposes : List ProtocolMessage → Bool}

theorem split_stream {s : ChunkStream} {n : Nat} {front rest : List UInt8} (h : s.Counted)
    (hle : n ≤ s.byteLength) (hstream : s.bytes ++ ahead = front ++ rest) (hfront : front.length = n) :
    s.bytes.take n = front ∧ s.bytes.drop n ++ ahead = rest := by
  have hlength : n ≤ s.bytes.length := h ▸ hle
  have htake : (s.bytes ++ ahead).take n = (front ++ rest).take n := by rw [hstream]
  have hdrop : (s.bytes ++ ahead).drop n = (front ++ rest).drop n := by rw [hstream]
  rw [take_append_of_le_length hlength, ← hfront, take_left] at htake
  rw [drop_append_of_le_length hlength, ← hfront, drop_left] at hdrop
  exact ⟨hfront ▸ htake, hfront ▸ hdrop⟩

theorem Reads.acceptHeader (h : Reads disposes msgs r ahead) (hfits : ∀ msg ∈ msgs, msg.Fits)
    (hle : r.readLen ≤ r.incomingData.byteLength) (hhead : r.readHead = true) :
    ∃ s, r.incomingData.read r.readLen = some (r.incomingData.bytes.take r.readLen, s) ∧
      Reads disposes msgs
        (ProtocolReader.acceptHeader { r with incomingData := s } (r.incomingData.bytes.take r.readLen))
        ahead ∧
      s.byteLength + 13 = r.incomingData.byteLength := by
  obtain ⟨todo, hmsgs, hframe⟩ := h.fired
  cases hframe with
  | body msg rest htodo hbody => rw [hhead] at hbody; exact Bool.noConfusion hbody
  | head _ hlen hstream =>
    obtain ⟨s, hs, hbytes, hcounted⟩ := ChunkStream.read_spec h.counted hle
    have hlength : s.byteLength + 13 = r.incomingData.byteLength := by
      rw [hlen] at hle
      rw [ChunkStream.byteLength, hcounted, hbytes, length_drop, ← h.counted, hlen]
      exact Nat.sub_add_cancel hle
    cases todo with
    | nil =>
      have hnil := (append_eq_nil_iff.mp hstream).1
      have hbytes_length : r.incomingData.totalLength = r.incomingData.bytes.length := h.counted
      rw [hnil] at hbytes_length
      rw [ChunkStream.byteLength, hbytes_length, hlen] at hle
      exact absurd hle (by decide)
    | cons msg rest =>
      have hmsg : msg.Fits := hfits msg (by rw [hmsgs]; exact mem_append_right _ mem_cons_self)
      rw [frames_cons] at hstream
      obtain ⟨htake, hdrop⟩ := split_stream h.counted hle hstream ((length_header msg).trans hlen.symm)
      refine ⟨s, hs, ?_, hlength⟩
      rw [htake, acceptHeader_header hmsg]
      refine ⟨h.alive, hcounted, ⟨msg :: rest, hmsgs, .body msg rest rfl rfl rfl rfl ?_⟩, h.goesOn⟩
      rw [← hdrop, ← hbytes]

theorem Reads.acceptBody (h : Reads disposes msgs r ahead)
    (hle : r.readLen ≤ r.incomingData.byteLength) (hbody : r.readHead = false) :
    ∃ s, r.incomingData.read r.readLen = some (r.incomingData.bytes.take r.readLen, s) ∧
      ∃ msg rest, msgs = r.fired ++ msg :: rest ∧
        ProtocolReader.acceptBody { r with incomingData := s } (r.incomingData.bytes.take r.readLen) =
          ⟨false, s, true, ProtocolConstants.headerLength, 0, 0, 0, r.fired ++ [msg]⟩ ∧
        s.bytes ++ ahead = frames rest ∧ s.Counted ∧ s.byteLength ≤ r.incomingData.byteLength := by
  obtain ⟨todo, hmsgs, hframe⟩ := h.fired
  cases hframe with
  | head hhead => rw [hhead] at hbody; exact Bool.noConfusion hbody
  | body msg rest htodo _ hlen hmsg hstream =>
    obtain ⟨s, hs, hbytes, hcounted⟩ := ChunkStream.read_spec h.counted hle
    obtain ⟨htake, hdrop⟩ := split_stream h.counted hle hstream hlen.symm
    refine ⟨s, hs, msg, rest, htodo ▸ hmsgs, ?_, hbytes ▸ hdrop, hcounted, ?_⟩
    · rw [htake, ProtocolReader.acceptBody, ← h.alive]
      dsimp only
      rw [hmsg]
    · rw [ChunkStream.byteLength, hcounted, hbytes, length_drop, ← h.counted]
      exact Nat.sub_le _ _

theorem drain_spec (h : Reads disposes msgs r ahead) (hfits : ∀ msg ∈ msgs, msg.Fits) (rounds : Nat)
    (hrounds : roundsLeft r < rounds) :
    ∃ r', drain disposes rounds r = some r' ∧
      ((Reads disposes msgs r' ahead ∧ r'.incomingData.byteLength < r'.readLen) ∨
        ∃ k, Disposed disposes msgs r' ahead k) := by
  induction rounds generalizing r with
  | zero => exact absurd hrounds (Nat.not_lt_zero _)
  | succ rounds ih =>
    rw [drain]
    rw [roundsLeft] at hrounds
    by_cases hle : r.incomingData.byteLength ≥ r.readLen
    · rw [if_pos hle]
      by_cases hhead : r.readHead = true
      · obtain ⟨s, hs, hreads, hlength⟩ := h.acceptHeader hfits hle hhead
        rw [hs, Option.bind_eq_bind, Option.bind_some]
        dsimp only
        rw [if_pos hhead]
        refine ih hreads ?_
        rw [roundsLeft, ProtocolReader.acceptHeader]
        dsimp only
        rw [if_neg Bool.false_ne_true]
        rw [hhead] at hrounds
        omega
      · rw [Bool.not_eq_true] at hhead
        obtain ⟨s, hs, msg, rest, hmsgs, hfire, hrest, hcounted, hlength⟩ := h.acceptBody hle hhead
        rw [hs, Option.bind_eq_bind, Option.bind_some]
        dsimp only
        rw [if_neg (by rw [hhead]; exact Bool.false_ne_true), hfire]
        have hmsgs' : msgs = (r.fired ++ [msg]) ++ rest := hmsgs.trans (append_cons _ _ _)
        have htake : msgs.take (r.fired ++ [msg]).length = r.fired ++ [msg] := by
          rw [hmsgs', take_left]
        have hdrop : msgs.drop (r.fired ++ [msg]).length = rest := by
          rw [hmsgs', drop_left]
        have hlast : (r.fired ++ [msg]).length = r.fired.length + 1 := length_append
        cases hdisposes : disposes (r.fired ++ [msg]) with
        | true =>
          refine ⟨_, rfl, Or.inr ⟨(r.fired ++ [msg]).length, rfl, hcounted, by omega, ?_, htake.symm,
            htake.symm ▸ hdisposes, fun i hpos hlt => h.goesOn i hpos (by omega), hdrop ▸ hrest⟩⟩
          rw [hmsgs, hlast, length_append, length_cons]
          omega
        | false =>
          rw [if_neg Bool.false_ne_true]
          dsimp only
          rw [if_neg Bool.false_ne_true]
          refine ih ⟨rfl, hcounted, ⟨rest, hmsgs', .head rfl rfl hrest⟩,
            fun i hpos hle' => ?_⟩ ?_
          · rcases Nat.lt_or_eq_of_le hle' with hlt | rfl
            · exact h.goesOn i hpos (by dsimp only at hlt; omega)
            · dsimp only
              rw [htake]
              exact hdisposes
          · rw [roundsLeft, if_pos rfl]
            dsimp only
            rw [hhead, if_neg Bool.false_ne_true] at hrounds
            omega
    · rw [if_neg hle]
      exact ⟨r, rfl, Or.inl ⟨h, Nat.lt_of_not_le hle⟩⟩

inductive Received (disposes : List ProtocolMessage → Bool) (msgs : List ProtocolMessage)
    (c : Reception) (ahead : List UInt8) : Prop
  | reads (hreads : Reads disposes msgs c.reader ahead)
      (hwaits : c.reader.incomingData.byteLength < c.reader.readLen)
      (hreceived : c.received ++ ahead = frames msgs)
  | disposed (k : Nat) (behind : List UInt8) (hdisposed : Disposed disposes msgs c.reader behind k)
      (hreceived : c.received ++ behind = frames msgs)

theorem Received.onData {data ahead : List UInt8} (h : Received disposes msgs c (data ++ ahead))
    (hfits : ∀ msg ∈ msgs, msg.Fits) :
    ∃ c', c.onData disposes data = some c' ∧ Received disposes msgs c' ahead := by
  rw [Reception.onData]
  cases h with
  | disposed k behind hdisposed hreceived =>
    rw [if_pos hdisposed.disposed]
    exact ⟨c, rfl, .disposed k behind hdisposed hreceived⟩
  | reads hreads hwaits hreceived =>
    rw [if_neg (by rw [hreads.alive]; exact Bool.false_ne_true), acceptChunk]
    rw [← append_assoc] at hreceived
    by_cases hempty : data.length = 0
    · obtain rfl := eq_nil_of_length_eq_zero hempty
      exact ⟨_, rfl, .reads hreads hwaits hreceived⟩
    · rw [if_neg hempty]
      have hreads' : Reads disposes msgs
          { c.reader with incomingData := c.reader.incomingData.acceptChunk data } ahead := by
        obtain ⟨todo, hmsgs, hframe⟩ := hreads.fired
        rw [← append_assoc, ← ChunkStream.bytes_acceptChunk] at hframe
        refine ⟨hreads.alive, hreads.counted.acceptChunk data, ⟨todo, hmsgs, ?_⟩, hreads.goesOn⟩
        cases hframe with
        | head hhead hlen hstream => exact .head hhead hlen hstream
        | body msg rest htodo hhead hlen hmsg hstream => exact .body msg rest htodo hhead hlen hmsg hstream
      obtain ⟨r', hr', hcases⟩ := drain_spec hreads' hfits
        (2 * (c.reader.incomingData.acceptChunk data).byteLength + 2) (by
          rw [roundsLeft]
          dsimp only
          split_ifs
          · omega
          · omega)
      dsimp only
      rw [hr']
      refine ⟨_, rfl, ?_⟩
      rcases hcases with ⟨hreads'', hwaits''⟩ | ⟨k, hdisposed⟩
      · exact .reads hreads'' hwaits'' hreceived
      · exact .disposed k ahead hdisposed hreceived

theorem Received.run {chunks : List VSBuffer} {ahead : List UInt8}
    (h : Received disposes msgs c (chunks.flatten ++ ahead)) (hfits : ∀ msg ∈ msgs, msg.Fits) :
    ∃ c', c.run disposes chunks = some c' ∧ Received disposes msgs c' ahead := by
  induction chunks generalizing c with
  | nil => exact ⟨c, rfl, h⟩
  | cons data chunks ih =>
    rw [flatten_cons, append_assoc] at h
    obtain ⟨c1, hc1, hreceived1⟩ := h.onData hfits
    obtain ⟨c2, hc2, hreceived2⟩ := ih hreceived1
    exact ⟨c2, by rw [Reception.run, hc1, Option.bind_eq_bind, Option.bind_some, hc2], hreceived2⟩

theorem Reads.fired_all (h : Reads disposes msgs r [])
    (hwaits : r.incomingData.byteLength < r.readLen) : r.fired = msgs := by
  obtain ⟨todo, hmsgs, hframe⟩ := h.fired
  have hlength : r.incomingData.totalLength = r.incomingData.bytes.length := h.counted
  rw [ChunkStream.byteLength, hlength] at hwaits
  rw [append_nil] at hframe
  cases hframe with
  | head _ hlen hstream =>
    cases todo with
    | nil => rw [hmsgs, append_nil]
    | cons msg rest =>
      rw [hstream, hlen, frames_cons, length_append, length_header] at hwaits
      omega
  | body msg rest _ _ hlen _ hstream =>
    rw [hstream, hlen, length_append] at hwaits
    omega

theorem Disposed.readEntireBuffer {k : Nat} {behind : List UInt8}
    (h : Disposed disposes msgs r behind k) : r.readEntireBuffer = some r.incomingData.bytes := by
  obtain ⟨s, hs, -⟩ := ChunkStream.read_spec h.counted (Nat.le_refl _)
  have hlength : r.incomingData.byteLength = r.incomingData.bytes.length := h.counted
  rw [ProtocolReader.readEntireBuffer, hs, hlength, take_length]
  rfl

/-- Whatever the chunks of the written bytes are, the reader fires the messages that were written. If
a listener disposes it, it has the bytes that were received behind the last fired message. -/
theorem framing_independent (events : List Event) (chunks : List VSBuffer)
    (disposes : List ProtocolMessage → Bool) (hfits : ∀ msg ∈ messages events, msg.Fits) :
    ∃ w, ProtocolWriter.new.run (events ++ [.resume, .flush]) = some w ∧
      (chunks.flatten = w.socket.flatten →
        ∃ c, Reception.new.run disposes chunks = some c ∧
          ((∀ k, 0 < k → k ≤ (messages events).length → disposes ((messages events).take k) = false) →
            c.reader.fired = messages events ∧ c.reader.isDisposed = false) ∧
          ∀ k, 0 < k → k ≤ (messages events).length → disposes ((messages events).take k) = true →
            (∀ i, 0 < i → i < k → disposes ((messages events).take i) = false) →
            c.reader.fired = (messages events).take k ∧ c.reader.isDisposed = true ∧
              ∃ rest, c.reader.readEntireBuffer = some rest ∧
                c.received = frames ((messages events).take k) ++ rest) := by
  obtain ⟨w, hw, hsocket⟩ := run_flush events
  refine ⟨w, hw, fun hcut => ?_⟩
  have hstart : Received disposes (messages events) Reception.new (chunks.flatten ++ []) := by
    rw [append_nil, hcut, hsocket]
    exact .reads ⟨rfl, rfl, ⟨messages events, rfl, .head rfl rfl rfl⟩,
      fun k hpos hle => absurd hle (Nat.not_le_of_lt hpos)⟩ (by decide) rfl
  obtain ⟨c, hc, hreceived⟩ := hstart.run hfits
  refine ⟨c, hc, ?_⟩
  cases hreceived with
  | reads hreads hwaits =>
    have hfired := hreads.fired_all hwaits
    refine ⟨fun _ => ⟨hfired, hreads.alive⟩, fun k hpos hle hstop _ => ?_⟩
    have hgoesOn := hreads.goesOn k hpos (hfired ▸ hle)
    rw [hstop] at hgoesOn
    exact Bool.noConfusion hgoesOn
  | disposed k behind hdisposed hreceived =>
    refine ⟨fun hnever => ?_, fun k' hpos' hle' hstop' hgoesOn' => ?_⟩
    · have hgoesOn := hnever k hdisposed.pos hdisposed.le
      rw [hdisposed.stopped] at hgoesOn
      exact Bool.noConfusion hgoesOn
    · have hk : k' = k := by
        refine Nat.le_antisymm (Nat.le_of_not_lt fun hlt => ?_) (Nat.le_of_not_lt fun hlt => ?_)
        · have hgoesOn := hgoesOn' k hdisposed.pos hlt
          rw [hdisposed.stopped] at hgoesOn
          exact Bool.noConfusion hgoesOn
        · have hgoesOn := hdisposed.goesOn k' hpos' hlt
          rw [hstop'] at hgoesOn
          exact Bool.noConfusion hgoesOn
      subst hk
      refine ⟨hdisposed.fired, hdisposed.disposed, _, hdisposed.readEntireBuffer, ?_⟩
      have hall := congrArg frames (take_append_drop k' (messages events))
      rw [frames_append, ← hdisposed.rest, ← hreceived, ← append_assoc] at hall
      exact (append_cancel_right hall).symm

/-- A message of one byte, cut inside the header. -/
theorem framing_independent_cut :
    ∃ c, Reception.new.run (fun _ => false) [[1, 0, 0], [], [0, 5, 0, 0, 0, 2, 0, 0, 0, 1, 104]] = some c ∧
      c.reader.fired = [⟨1, 5, 2, [104]⟩] ∧ c.reader.isDisposed = false := by
  obtain ⟨w, hw, hcut⟩ := framing_independent [.write ⟨1, 5, 2, [104]⟩]
    [[1, 0, 0], [], [0, 5, 0, 0, 0, 2, 0, 0, 0, 1, 104]] (fun _ => false)
    fun msg hmsg => mem_singleton.mp hmsg ▸ ⟨by decide, by decide, by decide, by decide⟩
  have hsocket : ProtocolWriter.new.run ([.write ⟨1, 5, 2, [104]⟩] ++ [.resume, .flush]) =
      some ⟨false, false, [], 0, true, [[1, 0, 0, 0, 5, 0, 0, 0, 2, 0, 0, 0, 1, 104]]⟩ := by decide
  obtain rfl := Option.some.inj (hw.symm.trans hsocket)
  obtain ⟨c, hc, hfired, -⟩ := hcut rfl
  exact ⟨c, hc, hfired fun _ _ _ => rfl⟩

end Gavea.Wire
