import Gavea.Lib.AckedStream

namespace Gavea.Ipc

abbrev VSBuffer := List UInt8

inductive ProtocolMessageType
  | none
  | regular
  | control
  | ack
  | disconnect
  | replayRequest
  | pause
  | resume
  | keepAlive
  deriving DecidableEq

namespace ProtocolConstants

/-- Milliseconds, as all times here. -/
def acknowledgeTime : Int := 2000

def timeoutTime : Int := 20000

end ProtocolConstants

structure ProtocolMessage where
  type : ProtocolMessageType
  id : Nat
  ack : Nat
  data : VSBuffer
  writtenTime : Int

def ProtocolMessage.new (type : ProtocolMessageType) (id ack : Nat) (data : VSBuffer) :
    ProtocolMessage :=
  ⟨type, id, ack, data, 0⟩

structure Queue (α : Type) where
  elements : List α

namespace Queue

variable {α : Type} (q : Queue α)

def peek : Option α := q.elements.head?

def toArray : List α := q.elements

def push (item : α) : Queue α := ⟨q.elements ++ [item]⟩

end Queue

structure ProtocolWriter where
  isDisposed : Bool
  isPaused : Bool
  data : List ProtocolMessage
  lastWriteTime : Int

namespace ProtocolWriter

def new : ProtocolWriter := ⟨false, false, [], 0⟩

def header (msg : ProtocolMessage) : ProtocolMessage := { msg with id := msg.id % 2 ^ 32, ack := msg.ack % 2 ^ 32 }

def write (w : ProtocolWriter) (msg : ProtocolMessage) (now : Int) : ProtocolWriter :=
  if w.isDisposed then w
  else { w with data := w.data ++ [header { msg with writtenTime := now }], lastWriteTime := now }

def writeNow (w : ProtocolWriter) : ProtocolWriter × List ProtocolMessage :=
  if w.isPaused then (w, []) else ({ w with data := [] }, w.data)

def dispose (w : ProtocolWriter) : ProtocolWriter := { w.writeNow.1 with isDisposed := true }

def pause (w : ProtocolWriter) : ProtocolWriter := { w with isPaused := true }

def resume (w : ProtocolWriter) : ProtocolWriter := { w with isPaused := false }

end ProtocolWriter

inductive SocketTimeoutReason
  | unacknowledgedMessage
  | keepAlive

/-- One end of the protocol. The messages given to `send` and those handed to the emitters
are on record; a timeout is here whether its timer is set. -/
structure PersistentProtocol where
  isReconnecting : Bool
  didSendDisconnect : Bool
  outgoingUnackMsg : Queue ProtocolMessage
  outgoingMsgId : Nat
  outgoingAckId : Nat
  outgoingAckTimeout : Bool
  incomingMsgId : Nat
  incomingAckId : Nat
  incomingMsgLastTime : Int
  incomingAckTimeout : Bool
  keepAliveInterval : Bool
  lastReplayRequestTime : Int
  lastSocketTimeoutTime : Int
  socket : Nat
  socketWriter : ProtocolWriter
  readerDisposed : Bool
  lastReadTime : Int
  sent : List VSBuffer
  onMessage : List VSBuffer
  onControlMessage : List VSBuffer
  onDidDispose : Nat
  onSocketTimeout : List SocketTimeoutReason

namespace PersistentProtocol

def new (socket : Nat) (sendKeepAlive : Bool) (now : Int) : PersistentProtocol where
  isReconnecting := false
  didSendDisconnect := false
  outgoingUnackMsg := ⟨[]⟩
  outgoingMsgId := 0
  outgoingAckId := 0
  outgoingAckTimeout := false
  incomingMsgId := 0
  incomingAckId := 0
  incomingMsgLastTime := 0
  incomingAckTimeout := false
  keepAliveInterval := sendKeepAlive
  lastReplayRequestTime := 0
  lastSocketTimeoutTime := now
  socket := socket
  socketWriter := .new
  readerDisposed := false
  lastReadTime := now
  sent := []
  onMessage := []
  onControlMessage := []
  onDidDispose := 0
  onSocketTimeout := []

variable (p : PersistentProtocol)

def write (msg : ProtocolMessage) (now : Int) : PersistentProtocol :=
  { p with socketWriter := p.socketWriter.write msg now }

def dispose : PersistentProtocol × List ProtocolMessage :=
  ({ p with
    outgoingAckTimeout := false
    incomingAckTimeout := false
    keepAliveInterval := false
    socketWriter := p.socketWriter.dispose
    readerDisposed := true }, p.socketWriter.writeNow.2)

def writeQueued (now : Int) : PersistentProtocol :=
  { p with
    socketWriter := p.outgoingUnackMsg.toArray.foldl (fun w msg => w.write msg now) p.socketWriter
    outgoingUnackMsg :=
      if p.socketWriter.isDisposed then p.outgoingUnackMsg
      else ⟨p.outgoingUnackMsg.elements.map ({ · with writtenTime := now })⟩ }

def sendDisconnect (now : Int) : PersistentProtocol × List ProtocolMessage :=
  if p.didSendDisconnect then (p, [])
  else
    let p := write { p with didSendDisconnect := true } (.new .disconnect 0 0 []) now
    let (socketWriter, data) := p.socketWriter.writeNow
    ({ p with socketWriter }, data)

def sendPause (now : Int) : PersistentProtocol := p.write (.new .pause 0 0 []) now

def sendResume (now : Int) : PersistentProtocol := p.write (.new .resume 0 0 []) now

def pauseSocketWriting : PersistentProtocol := { p with socketWriter := p.socketWriter.pause }

def sendControl (buffer : VSBuffer) (now : Int) : PersistentProtocol := p.write (.new .control 0 0 buffer) now

def flush : PersistentProtocol × List ProtocolMessage :=
  let (socketWriter, data) := p.socketWriter.writeNow
  ({ p with socketWriter }, data)

def sendAck (now : Int) : PersistentProtocol :=
  if p.incomingMsgId ≤ p.incomingAckId then p
  else write { p with incomingAckId := p.incomingMsgId } (.new .ack 0 p.incomingMsgId []) now

def sendAckCheck (now : Int) : PersistentProtocol :=
  if p.incomingMsgId ≤ p.incomingAckId then p
  else if p.incomingAckTimeout then p
  else if now - p.incomingMsgLastTime ≥ ProtocolConstants.acknowledgeTime then p.sendAck now
  else { p with incomingAckTimeout := true }

/-- Without an unacknowledged message the source would fail at the property of null: see
`Serves.peek_ne_none`. -/
def recvAckCheck (now : Int) (hasHighLoad : Bool) : PersistentProtocol :=
  if p.outgoingMsgId ≤ p.outgoingAckId then p
  else if p.outgoingAckTimeout then p
  else if p.isReconnecting then p
  else
    match p.outgoingUnackMsg.peek with
    | none => p
    | some oldestUnacknowledgedMsg =>
      if now - oldestUnacknowledgedMsg.writtenTime ≥ ProtocolConstants.timeoutTime ∧
          now - p.lastReadTime ≥ ProtocolConstants.timeoutTime ∧
          now - p.lastSocketTimeoutTime ≥ ProtocolConstants.timeoutTime ∧ ¬ hasHighLoad then
        { p with
          lastSocketTimeoutTime := now
          onSocketTimeout := p.onSocketTimeout ++ [.unacknowledgedMessage] }
      else { p with outgoingAckTimeout := true }

def keepAliveTimeoutCheck (now : Int) (hasHighLoad : Bool) : PersistentProtocol :=
  if p.isReconnecting then p
  else if now - p.lastReadTime ≥ ProtocolConstants.timeoutTime ∧
      now - p.lastSocketTimeoutTime ≥ ProtocolConstants.timeoutTime ∧ ¬ hasHighLoad then
    { p with
      lastSocketTimeoutTime := now
      onSocketTimeout := p.onSocketTimeout ++ [.keepAlive] }
  else p

def sendKeepAlive (now : Int) (hasHighLoad : Bool) : PersistentProtocol :=
  keepAliveTimeoutCheck
    (write { p with incomingAckId := p.incomingMsgId } (.new .keepAlive 0 p.incomingMsgId []) now)
    now hasHighLoad

/-- The message is queued before it is written, and while the protocol reconnects it is
only queued. -/
def send (buffer : VSBuffer) (now : Int) (hasHighLoad : Bool) : PersistentProtocol :=
  let myId := p.outgoingMsgId + 1
  let msg := ProtocolMessage.new .regular myId p.incomingMsgId buffer
  let written := !p.isReconnecting && !p.socketWriter.isDisposed
  let p := { p with
    outgoingMsgId := myId
    incomingAckId := p.incomingMsgId
    outgoingUnackMsg := p.outgoingUnackMsg.push { msg with writtenTime := if written then now else 0 }
    sent := p.sent ++ [buffer] }
  if p.isReconnecting then p else (p.write msg now).recvAckCheck now hasHighLoad

def popAcked (ack : Nat) : List ProtocolMessage → List ProtocolMessage
  | [] => []
  | first :: rest => if first.id ≤ ack then popAcked ack rest else first :: rest

def receiveAck (ack : Nat) : PersistentProtocol :=
  if ack > p.outgoingAckId then
    { p with
      outgoingAckId := ack
      outgoingUnackMsg := ⟨popAcked ack p.outgoingUnackMsg.elements⟩ }
  else p

def receiveRegular (msg : ProtocolMessage) (now : Int) : PersistentProtocol :=
  if msg.id > p.incomingMsgId then
    if msg.id ≠ p.incomingMsgId + 1 then
      if now - p.lastReplayRequestTime > 10000 then
        write { p with lastReplayRequestTime := now } (.new .replayRequest 0 0 []) now
      else p
    else
      let p := sendAckCheck { p with incomingMsgId := msg.id, incomingMsgLastTime := now } now
      { p with onMessage := p.onMessage ++ [msg.data] }
  else p

def receiveMessage (msg : ProtocolMessage) (now : Int) (hasHighLoad : Bool) : PersistentProtocol :=
  let p := p.receiveAck msg.ack
  match msg.type with
  | .none | .ack | .keepAlive => p
  | .regular => p.receiveRegular msg now
  | .control => { p with onControlMessage := p.onControlMessage ++ [msg.data] }
  | .disconnect => { p with onDidDispose := p.onDidDispose + 1 }
  | .replayRequest => (p.writeQueued now).recvAckCheck now hasHighLoad
  | .pause => { p with socketWriter := p.socketWriter.pause }
  | .resume => { p with socketWriter := p.socketWriter.resume }

def acceptChunk (msgs : List ProtocolMessage) (now : Int) (hasHighLoad : Bool) :
    PersistentProtocol :=
  msgs.foldl (fun p msg => p.receiveMessage msg now hasHighLoad) { p with lastReadTime := now }

/-- The old writer is flushed to the old socket when it is disposed of. -/
def beginAcceptReconnection (socket : Nat) (initialData : List ProtocolMessage) (now : Int)
    (hasHighLoad : Bool) : PersistentProtocol × List ProtocolMessage :=
  (acceptChunk
    { p with
      isReconnecting := true
      lastReplayRequestTime := 0
      lastSocketTimeoutTime := now
      socket
      socketWriter := .new
      readerDisposed := false
      lastReadTime := now }
    initialData now hasHighLoad, p.socketWriter.writeNow.2)

def endAcceptReconnection (now : Int) (hasHighLoad : Bool) : PersistentProtocol :=
  recvAckCheck
    (writeQueued
      (write { p with isReconnecting := false, incomingAckId := p.incomingMsgId } (.new .ack 0 p.incomingMsgId []) now)
      now)
    now hasHighLoad

end PersistentProtocol

inductive Side
  | client
  | server
  deriving DecidableEq

def Side.other : Side → Side
  | .client => .server
  | .server => .client

structure Connection where
  ends : Side → PersistentProtocol
  wire : Nat → Side → List ProtocolMessage

namespace Connection

def new (sendKeepAlive : Side → Bool) (now : Int) : Connection where
  ends side := .new 0 (sendKeepAlive side) now
  wire _ _ := []

inductive Event
  | send (side : Side) (buffer : VSBuffer) (now : Int) (hasHighLoad : Bool)
  | sendControl (side : Side) (buffer : VSBuffer) (now : Int)
  | sendPause (side : Side) (now : Int)
  | sendResume (side : Side) (now : Int)
  | pauseSocketWriting (side : Side)
  | sendDisconnect (side : Side) (now : Int)
  | flush (side : Side)
  | receive (side : Side) (count : Nat) (now : Int) (hasHighLoad : Bool)
  | lose (socket : Nat) (side : Side) (kept : Nat)
  | beginAcceptReconnection (side : Side) (socket count : Nat) (now : Int) (hasHighLoad : Bool)
  | endAcceptReconnection (side : Side) (now : Int) (hasHighLoad : Bool)
  | keepAlive (side : Side) (now : Int) (hasHighLoad : Bool)
  | incomingAckTimer (side : Side) (now : Int)
  | outgoingAckTimer (side : Side) (now : Int) (hasHighLoad : Bool)
  | dispose (side : Side)

variable (c : Connection)

def setEnd (side : Side) (p : PersistentProtocol) : Connection := { c with ends := Function.update c.ends side p }

def setWire (socket : Nat) (side : Side) (msgs : List ProtocolMessage) : Connection :=
  { c with wire := Function.update c.wire socket (Function.update (c.wire socket) side msgs) }

def put (socket : Nat) (side : Side) (msgs : List ProtocolMessage) : Connection :=
  c.setWire socket side (c.wire socket side ++ msgs)

def take (socket : Nat) (side : Side) (count : Nat) : List ProtocolMessage × Connection :=
  ((c.wire socket side).take count, c.setWire socket side ((c.wire socket side).drop count))

/-- One event, unless it cannot happen in this state. A socket may lose whatever its ends
have not read. -/
def step : Event → Option Connection
  | .send side buffer now hasHighLoad => some (c.setEnd side ((c.ends side).send buffer now hasHighLoad))
  | .sendControl side buffer now => some (c.setEnd side ((c.ends side).sendControl buffer now))
  | .sendPause side now => some (c.setEnd side ((c.ends side).sendPause now))
  | .sendResume side now => some (c.setEnd side ((c.ends side).sendResume now))
  | .pauseSocketWriting side => some (c.setEnd side (c.ends side).pauseSocketWriting)
  | .sendDisconnect side now =>
    let (p, data) := (c.ends side).sendDisconnect now
    some ((c.setEnd side p).put p.socket side data)
  | .flush side =>
    let (p, data) := (c.ends side).flush
    some ((c.setEnd side p).put p.socket side data)
  | .receive side count now hasHighLoad =>
    if (c.ends side).readerDisposed then none
    else
      let (msgs, c) := c.take (c.ends side).socket side.other count
      some (c.setEnd side ((c.ends side).acceptChunk msgs now hasHighLoad))
  | .lose socket side kept => some (c.setWire socket side ((c.wire socket side).take kept))
  | .beginAcceptReconnection side socket count now hasHighLoad =>
    let old := (c.ends side).socket
    let (msgs, c) := c.take socket side.other count
    let (p, data) := (c.ends side).beginAcceptReconnection socket msgs now hasHighLoad
    some ((c.setEnd side p).put old side data)
  | .endAcceptReconnection side now hasHighLoad =>
    some (c.setEnd side ((c.ends side).endAcceptReconnection now hasHighLoad))
  | .keepAlive side now hasHighLoad =>
    if (c.ends side).keepAliveInterval then
      some (c.setEnd side ((c.ends side).sendKeepAlive now hasHighLoad))
    else none
  | .incomingAckTimer side now =>
    if (c.ends side).incomingAckTimeout then
      some (c.setEnd side (PersistentProtocol.sendAckCheck { c.ends side with incomingAckTimeout := false } now))
    else none
  | .outgoingAckTimer side now hasHighLoad =>
    if (c.ends side).outgoingAckTimeout then
      some (c.setEnd side (PersistentProtocol.recvAckCheck
        { c.ends side with outgoingAckTimeout := false } now hasHighLoad))
    else none
  | .dispose side =>
    let (p, data) := (c.ends side).dispose
    some ((c.setEnd side p).put p.socket side data)

end Connection

end Gavea.Ipc
