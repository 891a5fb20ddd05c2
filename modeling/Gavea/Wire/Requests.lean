import Gavea.Wire.Framing

namespace Gavea.Wire

open Lib.Js List

inductive IRawRequest (J : Type)
  | promise (id : BitVec 32) (channelName name : JsString) (arg : Data J)
  | promiseCancel (id : BitVec 32)
  | eventListen (id : BitVec 32) (channelName name : JsString) (arg : Data J)
  | eventDispose (id : BitVec 32)

namespace RequestType

def promise : BitVec 32 := 100

def promiseCancel : BitVec 32 := 101

def eventListen : BitVec 32 := 102

def eventDispose : BitVec 32 := 103

end RequestType

variable {J : Type}

namespace IRawRequest

def header : IRawRequest J → Data J
  | promise id channelName name _ => .array [.int RequestType.promise, .int id, .string channelName, .string name]
  | promiseCancel id => .array [.int RequestType.promiseCancel, .int id]
  | eventListen id channelName name _ =>
    .array [.int RequestType.eventListen, .int id, .string channelName, .string name]
  | eventDispose id => .array [.int RequestType.eventDispose, .int id]

def body : IRawRequest J → Data J
  | promise _ _ _ arg | eventListen _ _ _ arg => arg
  | promiseCancel _ | eventDispose _ => .undefined

end IRawRequest

variable (c : Codec J)

/-- `ChannelClient.send`: the bytes that it hands to the protocol. -/
def send (header body : Data J) : VSBuffer := serialize c header ++ serialize c body

def sendRequest (request : IRawRequest J) : VSBuffer := send c request.header request.body

/-- `ChannelServer.onRawMessage` up to the handler that it calls with the request. -/
def onRawMessage (message : VSBuffer) : Option (IRawRequest J) := do
  let (header, reader) ← deserialize c ⟨message, 0⟩
  let (body, _) ← deserialize c reader
  match header with
  | .array (.int type :: .int id :: rest) =>
    if type = RequestType.promise then
      match rest with
      | .string channelName :: .string name :: _ => some (.promise id channelName name body)
      | _ => none
    else if type = RequestType.eventListen then
      match rest with
      | .string channelName :: .string name :: _ => some (.eventListen id channelName name body)
      | _ => none
    else if type = RequestType.promiseCancel then some (.promiseCancel id)
    else if type = RequestType.eventDispose then some (.eventDispose id)
    else none
  | _ => none

namespace Protocol

def regular : Nat := 1

/-- The message that `send` writes to the socket. -/
def message (buffer : VSBuffer) : ProtocolMessage := ⟨regular, 0, 0, buffer⟩

/-- What a message of the reader is fired as: only regular messages are. -/
def onMessage (msg : ProtocolMessage) : Option VSBuffer := if msg.type = regular then some msg.data else none

end Protocol

variable {c} {request : IRawRequest J}

theorem deserialize_ahead (hc : c.Inverse) {v : Data J} (hv : Encodable c v) {r : BufferReader}
    {rest : List UInt8} (h : Ahead r (serialize c v ++ rest)) :
    ∃ r', deserialize c r = some (v, r') ∧ Ahead r' rest := by
  have hlength := h.length
  rw [length_append] at hlength
  obtain ⟨r', hr', hahead, -⟩ := deserializeAt_serialize hc v hv (r.buffer.length - r.pos + 1) rest r (by omega) h
  exact ⟨r', hr', hahead⟩

theorem onRawMessage_send (hc : c.Inverse) (hheader : Encodable c request.header)
    (hbody : Encodable c request.body) : onRawMessage c (sendRequest c request) = some request := by
  have hstart : Ahead ⟨sendRequest c request, 0⟩
      (serialize c request.header ++ (serialize c request.body ++ [])) :=
    ⟨Nat.zero_le _, by rw [append_nil]; rfl⟩
  obtain ⟨r, hr, hahead⟩ := deserialize_ahead hc hheader hstart
  obtain ⟨r', hr', -⟩ := deserialize_ahead hc hbody hahead
  rw [onRawMessage, hr]
  simp only [Option.bind_eq_bind, Option.bind_some, hr']
  cases request <;> rfl

/-- A cancellation behind a message that keeps the connection alive. -/
def keepAliveAndCancel : List ProtocolWriter.Event :=
  [.write ⟨9, 0, 0, []⟩, .pause, .write (Protocol.message (sendRequest utf8Codec (.promiseCancel 7)))]

end Gavea.Wire
