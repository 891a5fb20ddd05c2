import Gavea.Lib.Collections
import Gavea.Lib.Runs

namespace Gavea.AgentHost

open Lib

inductive ChannelKind
  | state
  | resourceWatch
  | otlpLogs
  deriving DecidableEq

structure ChannelSubscription (U : Type) where
  kind : ChannelKind
  uri : U
  deriving DecidableEq

/-- What the handler asks of a channel, given as the text `U` of a URI that parses to a resource
`R`, and whether it exports logs. -/
structure ChannelConfig (U R : Type) where
  /-- `URI.parse` -/
  parse : U → R
  /-- `channel.toLowerCase().startsWith('ahp-otlp:')` -/
  isOtlp : U → Bool
  /-- The level of a log channel put into the canonical URI again. -/
  otlpLogsChannelUri : U → Option U
  isAhpResourceWatch : R → Bool
  hasOtlpLogEmitter : Bool
  isOtlp_otlpLogsChannelUri (channel uri : U) (h : otlpLogsChannelUri channel = some uri) : isOtlp uri = true

structure ConnectedClient (C : Type) where
  id : Nat
  clientId : C
  deriving DecidableEq

/-- Live connections, oldest first, or the time of grace after the last one. -/
inductive ClientRecord (C : Type)
  | active (connections : List (ConnectedClient C))
  | grace

/-- The handler with its transports, the subscribers that the agent service holds, and the calls
of `subscribe` that it has not settled yet. -/
structure ProtocolServerHandler (T C U R : Type) where
  clients : C → Option (ClientRecord C)
  /-- The client of each open transport, once it is initialised. -/
  transports : T → Option (Option (ConnectedClient C))
  subscriptions : ConnectedClient C → List (ChannelSubscription U)
  resourceSubscribers : R → List C
  pendingSubscribes : List (ConnectedClient C × U)
  nextId : Nat

variable {T C U R : Type} [DecidableEq T] [DecidableEq C] [DecidableEq U] [DecidableEq R]

namespace ChannelConfig

variable (config : ChannelConfig U R)

def classifyChannel (channel : U) : Option (ChannelSubscription U) :=
  if config.isOtlp channel then (config.otlpLogsChannelUri channel).map (⟨.otlpLogs, ·⟩)
  else if config.isAhpResourceWatch (config.parse channel) then some ⟨.resourceWatch, channel⟩
  else some ⟨.state, channel⟩

end ChannelConfig

namespace ProtocolServerHandler

section Service

def addSubscriber (resource : R) (clientId : C) (s : ProtocolServerHandler T C U R) :
    ProtocolServerHandler T C U R :=
  { s with
    resourceSubscribers := Function.update s.resourceSubscribers resource
      (if clientId ∈ s.resourceSubscribers resource then s.resourceSubscribers resource
        else s.resourceSubscribers resource ++ [clientId]) }

def unsubscribe (resource : R) (clientId : C) (s : ProtocolServerHandler T C U R) :
    ProtocolServerHandler T C U R :=
  { s with
    resourceSubscribers := Function.update s.resourceSubscribers resource
      ((s.resourceSubscribers resource).filter fun other => decide (other ≠ clientId)) }

end Service

section Subscriptions

variable (config : ChannelConfig U R)

def setSubscription (client : ConnectedClient C) (sub : ChannelSubscription U)
    (s : ProtocolServerHandler T C U R) : ProtocolServerHandler T C U R :=
  { s with
    subscriptions := Function.update s.subscriptions client
      (setFirst (fun other => decide (other.uri = sub.uri)) sub (s.subscriptions client)) }

def addInitialSubscription (client : ConnectedClient C) (channel : U)
    (s : ProtocolServerHandler T C U R) : ProtocolServerHandler T C U R :=
  match config.classifyChannel channel with
  | none => s
  | some ⟨.otlpLogs, uri⟩ => if config.hasOtlpLogEmitter then s.setSubscription client ⟨.otlpLogs, uri⟩ else s
  | some sub => (s.setSubscription client sub).addSubscriber (config.parse sub.uri) client.clientId

/-- What `subscribe` and `reconnect` do about one channel up to the first `await`. A resource
watch answers with a descriptor or not; a state channel is registered with the agent service at
once and installed when its `subscribe` resolves. -/
def startSubscription (client : ConnectedClient C) (channel : U) (hasDescriptor : Bool)
    (s : ProtocolServerHandler T C U R) : ProtocolServerHandler T C U R :=
  match config.classifyChannel channel with
  | none => s
  | some ⟨.otlpLogs, uri⟩ => if config.hasOtlpLogEmitter then s.setSubscription client ⟨.otlpLogs, uri⟩ else s
  | some ⟨.resourceWatch, uri⟩ => if hasDescriptor then s.setSubscription client ⟨.resourceWatch, uri⟩ else s
  | some ⟨.state, _⟩ =>
    let s := s.addSubscriber (config.parse channel) client.clientId
    { s with pendingSubscribes := s.pendingSubscribes ++ [(client, channel)] }

/-- A pending `subscribe` resolves, and the subscription is installed, or it fails, and the agent
service has taken its registration back. -/
def settleSubscription (client : ConnectedClient C) (channel : U) (resolves : Bool)
    (s : ProtocolServerHandler T C U R) : ProtocolServerHandler T C U R :=
  let s := { s with pendingSubscribes := s.pendingSubscribes.erase (client, channel) }
  if resolves then s.setSubscription client ⟨.state, channel⟩
  else s.unsubscribe (config.parse channel) client.clientId

def hasSubscriptionInOtherConnection (s : ProtocolServerHandler T C U R) (record : ClientRecord C)
    (client : ConnectedClient C) (uri : U) : Bool :=
  match record with
  | .grace => false
  | .active connections =>
    connections.any fun other =>
      decide (other ≠ client) && (s.subscriptions other).any fun sub => decide (sub.uri = uri)

def releaseEach (client : ConnectedClient C) (record : ClientRecord C) :
    List (ChannelSubscription U) → ProtocolServerHandler T C U R → ProtocolServerHandler T C U R
  | [], s => s
  | sub :: subs, s =>
    releaseEach client record subs
      (if sub.kind = .state ∧ s.hasSubscriptionInOtherConnection record client sub.uri = false
        then s.unsubscribe (config.parse sub.uri) client.clientId else s)

def releaseClientSubscriptions (client : ConnectedClient C) (record : ClientRecord C)
    (s : ProtocolServerHandler T C U R) : ProtocolServerHandler T C U R :=
  let s := releaseEach config client record (s.subscriptions client) s
  { s with subscriptions := Function.update s.subscriptions client [] }

def removeSubscription (client : ConnectedClient C) (channel : U)
    (s : ProtocolServerHandler T C U R) : ProtocolServerHandler T C U R :=
  match config.classifyChannel channel with
  | none => s
  | some classified =>
    match (s.subscriptions client).find? fun sub => decide (sub.uri = classified.uri) with
    | none => s
    | some sub =>
      let s := { s with
        subscriptions := Function.update s.subscriptions client
          ((s.subscriptions client).filter fun other => decide (other.uri ≠ classified.uri)) }
      let isShared := match s.clients client.clientId with
        | none => false
        | some record => s.hasSubscriptionInOtherConnection record client sub.uri
      if sub.kind = .state ∧ isShared = false then
        s.unsubscribe (config.parse sub.uri) client.clientId
      else s

end Subscriptions

section Connections

variable (config : ChannelConfig U R)

def attachConnection (client : ConnectedClient C) (stale : List C)
    (s : ProtocolServerHandler T C U R) : ProtocolServerHandler T C U R :=
  { s with
    clients := fun clientId =>
      if clientId = client.clientId then
        match s.clients client.clientId with
        | some (.active connections) => some (.active (connections ++ [client]))
        | _ => some (.active [client])
      else
        match s.clients clientId with
        | some .grace => if clientId ∈ stale then none else some .grace
        | record => record }

/-- The part of `_rollbackFailedInitialization` and of `onClose` that they share: the connection
is taken out of the record, whose last one leaves `ended`. -/
def detachConnection (client : ConnectedClient C) (ended : Option (ClientRecord C))
    (s : ProtocolServerHandler T C U R) : ProtocolServerHandler T C U R :=
  match s.clients client.clientId with
  | some (.active connections) =>
    if client ∈ connections then
      let rest := connections.erase client
      let s := s.releaseClientSubscriptions config client (.active rest)
      { s with
        clients := Function.update s.clients client.clientId (if rest = [] then ended else some (.active rest)) }
    else s
  | _ => s

def previousGrace : Option (ClientRecord C) → Option (ClientRecord C)
  | some .grace => some .grace
  | _ => none

def handleInitialize (transport : T) (clientId : C) (initialSubscriptions : List U)
    (throwsAfter : Option Nat) (stale : List C) (s : ProtocolServerHandler T C U R) :
    ProtocolServerHandler T C U R :=
  let previousRecord := s.clients clientId
  let client := ⟨s.nextId, clientId⟩
  let s := { s with nextId := s.nextId + 1 }.attachConnection client stale
  match throwsAfter with
  | none =>
    let s := initialSubscriptions.foldl (fun s uri => s.addInitialSubscription config client uri) s
    { s with transports := Function.update s.transports transport (some (some client)) }
  | some count =>
    ((initialSubscriptions.take count).foldl
      (fun s uri => s.addInitialSubscription config client uri) s).detachConnection config client
        (previousGrace previousRecord)

def handleReconnect (transport : T) (clientId : C) (subscriptions : List (U × Bool))
    (throws : Bool) (stale : List C) (s : ProtocolServerHandler T C U R) :
    ProtocolServerHandler T C U R :=
  match s.clients clientId with
  | none => s
  | some existingRecord =>
    let client := ⟨s.nextId, clientId⟩
    let s := { s with nextId := s.nextId + 1 }.attachConnection client stale
    let s := subscriptions.foldl
      (fun s (sub, hasDescriptor) => s.startSubscription config client sub hasDescriptor) s
    if throws then s.detachConnection config client (previousGrace (some existingRecord))
    else { s with transports := Function.update s.transports transport (some (some client)) }

def onClose (transport : T) (client : Option (ConnectedClient C))
    (s : ProtocolServerHandler T C U R) : ProtocolServerHandler T C U R :=
  let s := match client with
    | none => s
    | some client => s.detachConnection config client (some .grace)
  { s with transports := Function.update s.transports transport none }

end Connections

/-- What can happen to the handler. A message carries what the code outside of it answers. -/
inductive Event (T C U : Type)
  | connection (transport : T)
  | initializeRequest (transport : T) (clientId : C) (negotiated : Bool) (initialSubscriptions : List U)
      (throwsAfter : Option Nat) (stale : List C)
  | reconnect (transport : T) (clientId : C) (subscriptions : List (U × Bool)) (throws : Bool) (stale : List C)
  | subscribe (transport : T) (channel : U) (hasDescriptor : Bool)
  | unsubscribe (transport : T) (channel : U)
  | settle (client : ConnectedClient C) (channel : U) (resolves : Bool)
  | close (transport : T)

/-- One event, if it can happen: messages arrive on open transports. -/
def step (config : ChannelConfig U R) (s : ProtocolServerHandler T C U R) :
    Event T C U → Option (ProtocolServerHandler T C U R)
  | .connection transport =>
    match s.transports transport with
    | none => some { s with transports := Function.update s.transports transport (some none) }
    | some _ => none
  | .initializeRequest transport clientId negotiated initialSubscriptions throwsAfter stale =>
    match s.transports transport with
    | none => none
    | some (some _) => some s
    | some none =>
      if negotiated then
        some (s.handleInitialize config transport clientId initialSubscriptions throwsAfter stale)
      else some s
  | .reconnect transport clientId subscriptions throws stale =>
    match s.transports transport with
    | none => none
    | some (some _) => some s
    | some none => some (s.handleReconnect config transport clientId subscriptions throws stale)
  | .subscribe transport channel hasDescriptor =>
    match s.transports transport with
    | none => none
    | some none => some s
    | some (some client) => some (s.startSubscription config client channel hasDescriptor)
  | .unsubscribe transport channel =>
    match s.transports transport with
    | none => none
    | some none => some s
    | some (some client) => some (s.removeSubscription config client channel)
  | .settle client channel resolves =>
    if (client, channel) ∈ s.pendingSubscribes then
      some (s.settleSubscription config client channel resolves)
    else none
  | .close transport =>
    match s.transports transport with
    | none => none
    | some client => some (s.onClose config transport client)

def new : ProtocolServerHandler T C U R := ⟨fun _ => none, fun _ => none, fun _ => [], fun _ => [], [], 0⟩

end ProtocolServerHandler

end Gavea.AgentHost
