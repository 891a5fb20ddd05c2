import Mathlib.Data.Rat.Defs
import Gavea.Lib.Runs

namespace Gavea.JsonRpc

inductive JsonRpcId
  | number (n : ℚ)
  | text (s : String)
  deriving DecidableEq

structure IJsonRpcError (V : Type) where
  code : Int
  message : String
  data : Option V

structure JsonRpcMessage (V : Type) where
  id : Option JsonRpcId
  method : Option String
  params : Option V
  result : Option V
  error : Option (IJsonRpcError V)

inductive JsonRpcResponse (V : Type)
  | success (id : JsonRpcId) (result : V)
  | error (id : JsonRpcId) (error : IJsonRpcError V)

def JsonRpcResponse.id {V : Type} : JsonRpcResponse V → JsonRpcId
  | .success id _ => id
  | .error id _ => id

/-- What is handed to the send callback. -/
inductive Outgoing (V : Type)
  | request (id : JsonRpcId) (method : String) (params : Option V)
  | notification (method : String) (params : Option V)
  | response (response : JsonRpcResponse V)

inductive Thrown (V : Type)
  | jsonRpcError (error : IJsonRpcError V)
  | error (message : String)
  | other

inductive HandlerResult (V : Type)
  | value (result : V)
  | thrown (thrown : Thrown V)

inductive Outcome (V : Type)
  | resolved (result : V)
  | rejected (error : IJsonRpcError V)
  | cancelled

variable {V : Type}

def methodNotFoundCode : Int := -32601
def internalErrorCode : Int := -32603

namespace JsonRpcMessage

def isJsonRpcRequest (message : JsonRpcMessage V) : Option (JsonRpcId × String) :=
  match message.id, message.method with
  | some id, some method => some (id, method)
  | _, _ => none

def isJsonRpcResponse (message : JsonRpcMessage V) : Bool :=
  message.id.isSome && message.result.isSome || message.id.isSome && message.error.isSome

def isJsonRpcNotification (message : JsonRpcMessage V) : Bool := message.method.isSome && !message.id.isSome

end JsonRpcMessage

structure Deferred (V : Type) where
  id : JsonRpcId
  /-- `sendRequest` has returned it. -/
  handedOut : Bool
  /-- The cancellation listener, while it is registered, and whether there is an `onCancel`. -/
  cancelListener : Option Bool
  outcome : Option (Outcome V)

structure Call (V : Type) where
  messages : List (JsonRpcMessage V)
  handled : Nat
  /-- The request whose handler is awaited. -/
  awaiting : Option JsonRpcId
  replies : List (JsonRpcResponse V)
  rejected : Bool

/-- A message that was handed to the send callback, and the incoming request it answers: its call
and its place there. -/
structure Sent (V : Type) where
  origin : Option (Nat × Nat)
  message : Outgoing V

structure JsonRpcProtocol (V : Type) where
  handlesRequests : Bool
  nextRequestId : Nat
  pendingRequests : List (JsonRpcId × Nat)
  deferreds : List (Deferred V)
  isDisposed : Bool
  calls : List (Call V)
  sent : List (Sent V)
  onCancelCalls : List JsonRpcId

structure Callbacks (V : Type) where
  /-- What the request handler comes to at once, nothing if it returns a promise. -/
  handleRequest : Option (HandlerResult V)
  notificationThrows : Bool
  sendThrows : Option (Thrown V)
  /-- What sending the error response throws after the result could not be sent. -/
  sendAgainThrows : Option (Thrown V)

inductive Event (V : Type)
  | sendRequest (method : String) (params : Option V) (onCancel : Bool) (sendThrows : Bool)
  | sendNotification (method : String) (params : Option V)
  | cancelToken (promise : Nat) (onCancelThrows : Bool)
  | cancelPendingRequest (id : JsonRpcId)
  | cancelAllRequests
  | settled (promise : Nat)
  | handleMessage (messages : List (JsonRpcMessage V))
  | handleNext (call : Nat) (callbacks : Callbacks V)
  | handlerSettled (call : Nat) (result : HandlerResult V) (callbacks : Callbacks V)
  | dispose

namespace JsonRpcProtocol

def new (handlesRequests : Bool) : JsonRpcProtocol V := ⟨handlesRequests, 1, [], [], false, [], [], []⟩

section

variable (s : JsonRpcProtocol V)

def get (id : JsonRpcId) : Option Nat := s.pendingRequests.lookup id

def delete (id : JsonRpcId) : JsonRpcProtocol V :=
  { s with pendingRequests := s.pendingRequests.filter fun entry => entry.1 ≠ id }

def settle (promise : Nat) (outcome : Outcome V) : JsonRpcProtocol V :=
  { s with
    deferreds := s.deferreds.modify promise fun d => { d with outcome := d.outcome.or (some outcome) } }

def send (origin : Option (Nat × Nat)) (message : Outgoing V) : JsonRpcProtocol V :=
  { s with sent := s.sent ++ [⟨origin, message⟩] }

def disposeListener (promise : Nat) : JsonRpcProtocol V :=
  { s with deferreds := s.deferreds.modify promise fun d => { d with cancelListener := none } }

/-- `sendRequest`; once disposed it only returns a promise that is rejected. -/
def sendRequest (method : String) (params : Option V) (onCancel sendThrows : Bool) :
    JsonRpcProtocol V :=
  if s.isDisposed then s
  else
    let id := JsonRpcId.number s.nextRequestId
    send
      { s with
        nextRequestId := s.nextRequestId + 1
        pendingRequests := s.pendingRequests ++ [(id, s.deferreds.length)]
        deferreds := s.deferreds ++ [⟨id, !sendThrows, some onCancel, none⟩] }
      none (.request id method params)

def onCancellationRequested (promise : Nat) (d : Deferred V) (onCancelThrows : Bool) :
    JsonRpcProtocol V :=
  match d.cancelListener with
  | none => s
  | some onCancel =>
    if d.outcome.isNone then
      let s := s.delete d.id
      let s := if onCancel then { s with onCancelCalls := s.onCancelCalls ++ [d.id] } else s
      if onCancel && onCancelThrows then s
      else (s.settle promise .cancelled).disposeListener promise
    else s.disposeListener promise

def cancelPendingRequest (id : JsonRpcId) : JsonRpcProtocol V :=
  match s.get id with
  | some promise => (s.delete id).settle promise .cancelled
  | none => s

def cancelAllRequests : JsonRpcProtocol V :=
  s.pendingRequests.foldl (fun s entry => (s.delete entry.1).settle entry.2 .cancelled) s

def handleResult (id : JsonRpcId) (result : V) : JsonRpcProtocol V :=
  match s.get id with
  | some promise => (s.delete id).settle promise (.resolved result)
  | none => s

def handleError (id : JsonRpcId) (error : IJsonRpcError V) : JsonRpcProtocol V :=
  match s.get id with
  | some promise => (s.delete id).settle promise (.rejected error)
  | none => s

def dispose : JsonRpcProtocol V := { s.cancelAllRequests with isDisposed := true }

def finish (call : Nat) (reply : Option (JsonRpcResponse V)) : JsonRpcProtocol V :=
  { s with
    calls := s.calls.modify call fun c =>
      { c with handled := c.handled + 1, awaiting := none, replies := c.replies ++ reply.toList } }

def reject (call : Nat) : JsonRpcProtocol V :=
  { s with calls := s.calls.modify call fun c => { c with awaiting := none, rejected := true } }

def finishOrReject (call : Nat) (response : JsonRpcResponse V) (throws : Bool) : JsonRpcProtocol V :=
  if throws then s.reject call else s.finish call (some response)

end

def methodNotFound (id : JsonRpcId) (method : String) : JsonRpcResponse V :=
  .error id ⟨methodNotFoundCode, "Method not found: " ++ method, none⟩

def errorResponse (id : JsonRpcId) : Thrown V → JsonRpcResponse V
  | .jsonRpcError error => .error id error
  | .error message => .error id ⟨internalErrorCode, message, none⟩
  | .other => .error id ⟨internalErrorCode, "Internal error", none⟩

section

variable (s : JsonRpcProtocol V)

/-- The end of `_handleRequest` for the request at a place of a call: a result that cannot be sent
is caught like an error of the handler. -/
def answer (call index : Nat) (id : JsonRpcId) (result : HandlerResult V) (callbacks : Callbacks V) :
    JsonRpcProtocol V :=
  match result with
  | .value result =>
    let response := JsonRpcResponse.success id result
    let s := s.send (some (call, index)) (.response response)
    match callbacks.sendThrows with
    | none => s.finish call (some response)
    | some thrown =>
      let response := errorResponse id thrown
      let s := s.send (some (call, index)) (.response response)
      s.finishOrReject call response callbacks.sendAgainThrows.isSome
  | .thrown thrown =>
    let response := errorResponse id thrown
    let s := s.send (some (call, index)) (.response response)
    s.finishOrReject call response callbacks.sendThrows.isSome

def handleRequest (call index : Nat) (id : JsonRpcId) (method : String) (callbacks : Callbacks V) :
    JsonRpcProtocol V :=
  if !s.handlesRequests then
    let response := methodNotFound id method
    let s := s.send (some (call, index)) (.response response)
    s.finishOrReject call response callbacks.sendThrows.isSome
  else
    match callbacks.handleRequest with
    | some result => s.answer call index id result callbacks
    | none => { s with calls := s.calls.modify call fun c => { c with awaiting := some id } }

def handleSingle (call index : Nat) (message : JsonRpcMessage V) (callbacks : Callbacks V) :
    JsonRpcProtocol V :=
  if message.isJsonRpcResponse then
    let s := match message.id, message.result, message.error with
      | some id, some result, _ => s.handleResult id result
      | some id, none, some error => s.handleError id error
      | _, _, _ => s
    s.finish call none
  else
    match message.isJsonRpcRequest with
    | some (id, method) => s.handleRequest call index id method callbacks
    | none =>
      if message.isJsonRpcNotification && callbacks.notificationThrows then s.reject call
      else s.finish call none

def step : Event V → Option (JsonRpcProtocol V)
  | .sendRequest method params onCancel sendThrows => some (s.sendRequest method params onCancel sendThrows)
  | .sendNotification method params => some (s.send none (.notification method params))
  | .cancelToken promise onCancelThrows =>
    s.deferreds[promise]?.map fun d => s.onCancellationRequested promise d onCancelThrows
  | .cancelPendingRequest id => some (s.cancelPendingRequest id)
  | .cancelAllRequests => some s.cancelAllRequests
  | .settled promise =>
    match s.deferreds[promise]? with
    | some d =>
      if d.handedOut && d.outcome.isSome then some ((s.disposeListener promise).delete d.id)
      else none
    | none => none
  | .handleMessage messages => some { s with calls := s.calls ++ [⟨messages, 0, none, [], false⟩] }
  | .handleNext call callbacks =>
    match s.calls[call]? with
    | some c =>
      if c.awaiting.isSome || c.rejected then none
      else c.messages[c.handled]?.map fun message => s.handleSingle call c.handled message callbacks
    | none => none
  | .handlerSettled call result callbacks =>
    match s.calls[call]? with
    | some c => c.awaiting.map fun id => s.answer call c.handled id result callbacks
    | none => none
  | .dispose => some s.dispose

end

end JsonRpcProtocol

end Gavea.JsonRpc

namespace Gavea.JsonRpc

variable {V : Type}

inductive Signal (V : Type)
  | sent (id : JsonRpcId)
  | arrived (id : JsonRpcId) (outcome : Outcome V)
  | cancelled (id : JsonRpcId)
  | disposed

/-- What the promise with an id is to be settled with, unless it is settled. -/
def Signal.outcomeFor : Signal V → JsonRpcId → Option (Outcome V)
  | .sent _, _ => none
  | .arrived id outcome, id' => if id' = id then some outcome else none
  | .cancelled id, id' => if id' = id then some .cancelled else none
  | .disposed, _ => some .cancelled

/-- The requests in the order in which they were sent, each with what settled its promise. -/
abbrev Ledger (V : Type) := List (JsonRpcId × Option (Outcome V))

def Ledger.apply (ledger : Ledger V) : Signal V → Ledger V
  | .sent id => ledger ++ [(id, none)]
  | signal => ledger.map fun entry => (entry.1, entry.2.or (signal.outcomeFor entry.1))

def Ledger.unsettled (ledger : Ledger V) : List JsonRpcId := (ledger.filter fun entry => entry.2.isNone).map Prod.fst

def JsonRpcMessage.signals (message : JsonRpcMessage V) : List (Signal V) :=
  if message.isJsonRpcResponse then
    match message.id, message.result, message.error with
    | some id, some result, _ => [.arrived id (.resolved result)]
    | some id, none, some error => [.arrived id (.rejected error)]
    | _, _, _ => []
  else []

def JsonRpcMessage.requestId (message : JsonRpcMessage V) : Option JsonRpcId :=
  if message.isJsonRpcResponse then none else message.isJsonRpcRequest.map Prod.fst

namespace JsonRpcProtocol

def givenUp (s s' : JsonRpcProtocol V) (call : Nat) : List (JsonRpcMessage V) :=
  match s.calls[call]?, s'.calls[call]? with
  | some c, some c' => if c'.rejected then c.messages.drop (c.handled + 1) else []
  | _, _ => []

/-- What a step signals: a message counts as arrived when its call turns to it or gives it up. -/
def signals (s : JsonRpcProtocol V) (event : Event V) (s' : JsonRpcProtocol V) : List (Signal V) :=
  match event with
  | .sendRequest _ _ _ sendThrows => if s.isDisposed || sendThrows then [] else [.sent (.number s.nextRequestId)]
  | .cancelToken promise _ => (s.deferreds[promise]?.map fun d => .cancelled d.id).toList
  | .cancelPendingRequest id => [.cancelled id]
  | .cancelAllRequests => [.disposed]
  | .dispose => [.disposed]
  | .handleNext call _ =>
    ((s.calls[call]?.bind fun c => c.messages[c.handled]?).toList ++ s.givenUp s' call).flatMap JsonRpcMessage.signals
  | .handlerSettled call _ _ => (s.givenUp s' call).flatMap JsonRpcMessage.signals
  | _ => []

def ledgerAfter : JsonRpcProtocol V → Ledger V → List (Event V) → Ledger V
  | _, ledger, [] => ledger
  | s, ledger, event :: events =>
    match s.step event with
    | some s' => ledgerAfter s' ((s.signals event s').foldl Ledger.apply ledger) events
    | none => ledger

def promises (s : JsonRpcProtocol V) : Ledger V :=
  (s.deferreds.filter Deferred.handedOut).map fun d => (d.id, d.outcome)

def responses (s : JsonRpcProtocol V) (call index : Nat) : List (JsonRpcResponse V) :=
  s.sent.filterMap fun sent =>
    if sent.origin = some (call, index) then
      match sent.message with
      | .response response => some response
      | _ => none
    else none

/-- Each incoming request has got one response with its id, or none while its call is still to
handle it. -/
def Answered (s : JsonRpcProtocol V) : Prop :=
  ∀ (call index : Nat) (c : Call V) (message : JsonRpcMessage V) (id : JsonRpcId),
    s.calls[call]? = some c → c.messages[index]? = some message → message.requestId = some id →
    (s.responses call index = [] ∧ c.rejected = false ∧ c.handled ≤ index) ∨
      ∃ response, s.responses call index = [response] ∧ response.id = id

def NothingBehind (s : JsonRpcProtocol V) (c : Call V) : Prop :=
  ∀ message ∈ c.messages.drop (c.handled + 1), message.requestId = none ∧
    ∀ signal ∈ message.signals, ∀ entry ∈ s.pendingRequests, signal.outcomeFor entry.1 = none

def SafeAnswer (s : JsonRpcProtocol V) (c : Call V) (callbacks : Callbacks V) :
    HandlerResult V → Prop
  | .value _ => callbacks.sendThrows = none
  | .thrown _ => callbacks.sendThrows.isSome → s.NothingBehind c

def Safe (s : JsonRpcProtocol V) : Event V → Prop
  | .sendRequest _ _ _ sendThrows => s.isDisposed = false → sendThrows = false
  | .cancelToken promise onCancelThrows =>
    ∀ d ∈ s.deferreds[promise]?, d.outcome = none → d.cancelListener = some true → onCancelThrows = false
  | .handleNext call callbacks =>
    ∀ c ∈ s.calls[call]?, ∀ message ∈ c.messages[c.handled]?,
      if message.requestId.isSome then
        if s.handlesRequests then
          ∀ result ∈ callbacks.handleRequest, s.SafeAnswer c callbacks result
        else callbacks.sendThrows.isSome → s.NothingBehind c
      else message.isJsonRpcResponse = false → message.isJsonRpcNotification = true →
        callbacks.notificationThrows = true → s.NothingBehind c
  | .handlerSettled call result callbacks => ∀ c ∈ s.calls[call]?, s.SafeAnswer c callbacks result
  | _ => True

end JsonRpcProtocol

end Gavea.JsonRpc

namespace Gavea.JsonRpc.JsonRpcProtocol

open Lib.Runs

variable {V : Type} {s s' : JsonRpcProtocol V} {ledger : Ledger V}

def unsettled (ds : List (Deferred V)) : List Nat :=
  (List.range ds.length).filter fun i => ds[i]?.any fun d => d.outcome.isNone

/-- The pending requests are the unsettled promises, under the ids in the order of sending. -/
structure Matched (s : JsonRpcProtocol V) (ledger : Ledger V) : Prop where
  handedOut : ∀ d ∈ s.deferreds, d.handedOut = true
  ids : ∀ (i : Nat) (d : Deferred V), s.deferreds[i]? = some d → d.id = .number (i + 1 : Nat)
  next : s.nextRequestId = s.deferreds.length + 1
  pending : s.pendingRequests = (unsettled s.deferreds).map fun i => (.number (i + 1 : Nat), i)
  listener : ∀ d ∈ s.deferreds, d.outcome = none → d.cancelListener.isSome = true
  ledger : s.deferreds.map (fun d => (d.id, d.outcome)) = ledger

theorem number_inj {i j : Nat} : (JsonRpcId.number (i + 1 : Nat) = .number (j + 1 : Nat)) ↔ i = j := by
  rw [JsonRpcId.number.injEq, Nat.cast_inj]
  omega

/-- A step that settles promises as a function says, and takes them out of the pending ones. -/
structure Settles (outcomeFor : JsonRpcId → Option (Outcome V)) (s s' : JsonRpcProtocol V) : Prop where
  next : s'.nextRequestId = s.nextRequestId
  pending : s'.pendingRequests = s.pendingRequests.filter fun entry => (outcomeFor entry.1).isNone
  deferreds : ∃ f : Deferred V → Deferred V, s'.deferreds = s.deferreds.map f ∧
    ∀ d ∈ s.deferreds, (f d).id = d.id ∧ (f d).handedOut = d.handedOut ∧
      (f d).outcome = d.outcome.or (outcomeFor d.id) ∧
      ((f d).outcome = none → (f d).cancelListener = d.cancelListener)

namespace Matched

variable (h : s.Matched ledger)
include h

theorem settles {outcomeFor : JsonRpcId → Option (Outcome V)} (hs : Settles outcomeFor s s') :
    s'.Matched (ledger.map fun entry => (entry.1, entry.2.or (outcomeFor entry.1))) := by
  obtain ⟨f, hf, hfd⟩ := hs.deferreds
  refine ⟨?_, ?_, ?_, ?_, ?_, ?_⟩
  · rw [hf]
    intro x hx
    obtain ⟨d, hd, rfl⟩ := List.mem_map.mp hx
    exact (hfd d hd).2.1.trans (h.handedOut d hd)
  · rw [hf]
    intro i d hd
    rw [List.getElem?_map, Option.map_eq_some_iff] at hd
    obtain ⟨d, hd, rfl⟩ := hd
    exact (hfd d (List.mem_of_getElem? hd)).1.trans (h.ids i d hd)
  · rw [hs.next, hf, List.length_map]
    exact h.next
  · rw [hs.pending, h.pending, List.filter_map, hf, unsettled, unsettled, List.length_map, List.filter_filter]
    congr 1
    refine List.filter_congr fun i hi => ?_
    have hlt := List.mem_range.mp hi
    have hget := List.getElem?_eq_getElem hlt
    obtain ⟨-, -, houtcome, -⟩ := hfd _ (List.getElem_mem hlt)
    have hid := h.ids i _ hget
    rw [List.getElem?_map, hget]
    simp only [Function.comp_apply, Option.any_some, Option.map_some]
    rw [houtcome, ← hid]
    cases s.deferreds[i].outcome <;> simp
  · rw [hf]
    intro x hx hnone
    obtain ⟨d, hd, rfl⟩ := List.mem_map.mp hx
    obtain ⟨-, -, houtcome, hlistener⟩ := hfd d hd
    rw [hlistener hnone]
    refine h.listener d hd ?_
    rw [houtcome] at hnone
    exact (Option.or_eq_none_iff.mp hnone).1
  · rw [hf, ← h.ledger, List.map_map, List.map_map]
    refine List.map_congr_left fun d hd => ?_
    obtain ⟨hid, -, houtcome, -⟩ := hfd d hd
    simp only [Function.comp_apply]
    rw [hid, houtcome]

theorem congr (hnext : s'.nextRequestId = s.nextRequestId)
    (hpending : s'.pendingRequests = s.pendingRequests) (hdeferreds : s'.deferreds = s.deferreds) :
    s'.Matched ledger := by
  obtain ⟨h1, h2, h3, h4, h5, h6⟩ := h
  exact ⟨hdeferreds ▸ h1, hdeferreds ▸ h2, by rw [hnext, hdeferreds, h3],
    by rw [hpending, hdeferreds, h4], hdeferreds ▸ h5, hdeferreds ▸ h6⟩

theorem modify_eq {p : Nat} {d : Deferred V} (hd : s.deferreds[p]? = some d)
    (f : Deferred V → Deferred V) :
    s.deferreds.modify p f = s.deferreds.map fun x => if x.id = d.id then f x else x := by
  refine List.ext_getElem? fun i => ?_
  rw [List.getElem?_modify, List.getElem?_map]
  cases hx : s.deferreds[i]? with
  | none => rfl
  | some x =>
    rw [Option.map_some, h.ids i x hx, h.ids p d hd]
    simp only [number_inj, Option.map_eq_map, Option.map_some, eq_comm]

theorem get_eq_some {id : JsonRpcId} {p : Nat} (hget : s.get id = some p) :
    ∃ d, s.deferreds[p]? = some d ∧ d.id = id := by
  rw [get, h.pending, List.lookup_eq_some_iff] at hget
  obtain ⟨l, l', hsplit, -⟩ := hget
  have hmem : (id, p) ∈ (unsettled s.deferreds).map fun i => (JsonRpcId.number (i + 1 : Nat), i) := by
    rw [hsplit]
    exact List.mem_append_right _ List.mem_cons_self
  obtain ⟨i, hi, heq⟩ := List.mem_map.mp hmem
  obtain ⟨rfl, rfl⟩ := Prod.mk.inj heq
  have hlt := List.mem_range.mp (List.mem_filter.mp hi).1
  exact ⟨_, List.getElem?_eq_getElem hlt, h.ids i _ (List.getElem?_eq_getElem hlt)⟩

theorem outcome_isSome_of_get_eq_none {id : JsonRpcId} (hget : s.get id = none) {d : Deferred V}
    (hd : d ∈ s.deferreds) (hid : d.id = id) : d.outcome.isSome = true := by
  obtain ⟨i, hi⟩ := List.mem_iff_getElem?.mp hd
  rw [get, h.pending, List.lookup_eq_none_iff] at hget
  by_contra hnone
  have hmem : i ∈ unsettled s.deferreds := by
    refine List.mem_filter.mpr ⟨List.mem_range.mpr (List.getElem?_eq_some_iff.mp hi).1, ?_⟩
    rw [hi, Option.any_some]
    simpa using hnone
  have hne := hget _ (List.mem_map_of_mem hmem)
  rw [← hid, h.ids i d hi] at hne
  simp at hne

end Matched

theorem Matched.exists_pending (h : s.Matched ledger) {d : Deferred V} (hd : d ∈ s.deferreds)
    (hnone : d.outcome = none) : ∃ p, (d.id, p) ∈ s.pendingRequests := by
  have hget : s.get d.id ≠ none := by
    intro hget
    have := h.outcome_isSome_of_get_eq_none hget hd rfl
    rw [hnone] at this
    cases this
  obtain ⟨p, hp⟩ := Option.ne_none_iff_exists'.mp hget
  obtain ⟨l, l', hsplit, -⟩ := List.lookup_eq_some_iff.mp hp
  refine ⟨p, ?_⟩
  rw [hsplit]
  exact List.mem_append_right _ List.mem_cons_self

theorem Matched.not_pending (h : s.Matched ledger) {p : Nat} {d : Deferred V}
    (hd : s.deferreds[p]? = some d) (hsettled : d.outcome.isSome = true) {entry : JsonRpcId × Nat}
    (hentry : entry ∈ s.pendingRequests) : entry.1 ≠ d.id := by
  intro heq
  rw [h.pending] at hentry
  obtain ⟨i, hi, rfl⟩ := List.mem_map.mp hentry
  rw [h.ids p d hd, number_inj] at heq
  have hany := (List.mem_filter.mp hi).2
  rw [heq, hd, Option.any_some] at hany
  cases ho : d.outcome <;> simp_all

theorem Settles.refl (s : JsonRpcProtocol V) : Settles (fun _ => none) s s := by
  refine ⟨rfl, (List.filter_eq_self.mpr fun _ _ => rfl).symm, id, (List.map_id _).symm, fun d _ => ?_⟩
  exact ⟨rfl, rfl, (Option.or_none).symm, fun _ => rfl⟩

theorem Settles.trans {f g : JsonRpcId → Option (Outcome V)} {s₁ s₂ s₃ : JsonRpcProtocol V}
    (h₁ : Settles f s₁ s₂) (h₂ : Settles g s₂ s₃) : Settles (fun id => (f id).or (g id)) s₁ s₃ := by
  obtain ⟨c₁, hc₁, hd₁⟩ := h₁.deferreds
  obtain ⟨c₂, hc₂, hd₂⟩ := h₂.deferreds
  refine ⟨h₂.next.trans h₁.next, ?_, c₂ ∘ c₁, ?_, fun d hd => ?_⟩
  · rw [h₂.pending, h₁.pending, List.filter_filter]
    refine List.filter_congr fun entry _ => ?_
    cases f entry.1 <;> cases g entry.1 <;> rfl
  · rw [hc₂, hc₁, List.map_map]
  · obtain ⟨hid, hhanded, houtcome, hlistener⟩ := hd₁ d hd
    obtain ⟨hid', hhanded', houtcome', hlistener'⟩ := hd₂ (c₁ d) (hc₁ ▸ List.mem_map_of_mem hd)
    refine ⟨hid'.trans hid, hhanded'.trans hhanded, ?_, fun hnone => ?_⟩
    · rw [Function.comp_apply, houtcome', houtcome, hid, Option.or_assoc]
    · have hnone' := hnone
      rw [Function.comp_apply, houtcome'] at hnone'
      exact (hlistener' hnone).trans (hlistener (Option.or_eq_none_iff.mp hnone').1)

theorem Settles.congr {f g : JsonRpcId → Option (Outcome V)} (h : Settles f s s')
    (hpending : ∀ entry ∈ s.pendingRequests, f entry.1 = g entry.1)
    (hdeferreds : ∀ d ∈ s.deferreds, d.outcome = none → f d.id = g d.id) : Settles g s s' := by
  obtain ⟨c, hc, hd⟩ := h.deferreds
  refine ⟨h.next, ?_, c, hc, fun d hmem => ?_⟩
  · rw [h.pending]
    exact List.filter_congr fun entry he => by rw [hpending entry he]
  · obtain ⟨hid, hhanded, houtcome, hlistener⟩ := hd d hmem
    refine ⟨hid, hhanded, ?_, hlistener⟩
    rw [houtcome]
    cases ho : d.outcome with
    | none => rw [hdeferreds d hmem ho]
    | some o => rfl

theorem Matched.settles_entry (h : s.Matched ledger) {p : Nat} {d : Deferred V}
    (hd : s.deferreds[p]? = some d) (outcome : Outcome V) :
    Settles (fun id => if id = d.id then some outcome else none) s
      ((s.delete d.id).settle p outcome) := by
  refine ⟨rfl, ?_, _, h.modify_eq hd _, fun x hx => ?_⟩
  · refine List.filter_congr fun entry _ => ?_
    by_cases he : entry.1 = d.id <;> simp [he]
  · by_cases hid : x.id = d.id
    · rw [if_pos hid, if_pos hid]
      exact ⟨rfl, rfl, rfl, fun _ => rfl⟩
    · rw [if_neg hid, if_neg hid, Option.or_none]
      exact ⟨rfl, rfl, rfl, fun _ => rfl⟩

theorem Matched.settles_get (h : s.Matched ledger) (id : JsonRpcId) (outcome : Outcome V) :
    Settles (fun id' => if id' = id then some outcome else none) s
      (match s.get id with
        | some p => (s.delete id).settle p outcome
        | none => s) := by
  split
  · next p hget =>
      obtain ⟨d, hd, rfl⟩ := h.get_eq_some hget
      exact h.settles_entry hd outcome
  · next hget =>
      refine (Settles.refl s).congr (fun entry hentry => ?_) fun d hd hnone => ?_
      · rw [if_neg]
        intro heq
        have := List.lookup_eq_none_iff.mp hget entry hentry
        simp [heq] at this
      · rw [if_neg]
        intro heq
        have := h.outcome_isSome_of_get_eq_none hget hd heq
        rw [hnone] at this
        cases this

theorem Matched.settles_foldl (h : s.Matched ledger) (entries : List (JsonRpcId × Nat))
    (hentries : ∀ entry ∈ entries, ∃ d, s.deferreds[entry.2]? = some d ∧ d.id = entry.1) :
    Settles (fun id => if id ∈ entries.map Prod.fst then some .cancelled else none) s
      (entries.foldl (fun s entry => (s.delete entry.1).settle entry.2 .cancelled) s) := by
  induction entries generalizing s ledger with
  | nil => exact Settles.refl s
  | cons entry entries ih =>
    obtain ⟨d, hd, hid⟩ := hentries entry List.mem_cons_self
    have hfirst := h.settles_entry hd Outcome.cancelled
    rw [hid] at hfirst
    obtain ⟨c, hc, hcd⟩ := hfirst.deferreds
    have hrest := ih (h.settles hfirst) fun e he => by
      obtain ⟨x, hx, hxid⟩ := hentries e (List.mem_cons_of_mem entry he)
      refine ⟨c x, ?_, (hcd x (List.mem_of_getElem? hx)).1.trans hxid⟩
      rw [hc, List.getElem?_map, hx, Option.map_some]
    have hboth := hfirst.trans hrest
    have heq : (fun id => (if id = entry.1 then some (Outcome.cancelled (V := V)) else none).or
        (if id ∈ entries.map Prod.fst then some .cancelled else none)) =
        fun id => if id ∈ (entry :: entries).map Prod.fst then some .cancelled else none := by
      funext id
      simp only [List.map_cons, List.mem_cons]
      by_cases he : id = entry.1 <;> by_cases hm : id ∈ entries.map Prod.fst <;> simp [he, hm]
    rwa [heq] at hboth

theorem Matched.settles_cancelAllRequests (h : s.Matched ledger) :
    Settles (fun _ => some .cancelled) s s.cancelAllRequests := by
  refine (h.settles_foldl s.pendingRequests fun entry hentry => ?_).congr (fun entry hentry => ?_)
    fun d hd hnone => ?_
  · rw [h.pending] at hentry
    obtain ⟨i, hi, rfl⟩ := List.mem_map.mp hentry
    have hlt := List.mem_range.mp (List.mem_filter.mp hi).1
    exact ⟨_, List.getElem?_eq_getElem hlt, h.ids i _ (List.getElem?_eq_getElem hlt)⟩
  · rw [if_pos (List.mem_map_of_mem hentry)]
  · obtain ⟨p, hp⟩ := h.exists_pending hd hnone
    exact if_pos (List.mem_map_of_mem hp)

theorem Settles.congr_right {f : JsonRpcId → Option (Outcome V)} {s'' : JsonRpcProtocol V}
    (h : Settles f s s') (hnext : s''.nextRequestId = s'.nextRequestId)
    (hpending : s''.pendingRequests = s'.pendingRequests) (hdeferreds : s''.deferreds = s'.deferreds) :
    Settles f s s'' :=
  ⟨hnext.trans h.next, hpending.trans h.pending, by rw [hdeferreds]; exact h.deferreds⟩

theorem Matched.settles_disposeListener (h : s.Matched ledger) {p : Nat} {d : Deferred V}
    (hd : s.deferreds[p]? = some d) (hsettled : d.outcome.isSome = true) :
    Settles (fun _ => none) s (s.disposeListener p) := by
  refine ⟨rfl, (List.filter_eq_self.mpr fun _ _ => rfl).symm, _, h.modify_eq hd _, fun x hx => ?_⟩
  by_cases hid : x.id = d.id
  · rw [if_pos hid, Option.or_none]
    refine ⟨rfl, rfl, rfl, fun hnone => ?_⟩
    obtain ⟨i, hi⟩ := List.mem_iff_getElem?.mp hx
    rw [h.ids i x hi, h.ids p d hd, number_inj] at hid
    rw [hid, hd] at hi
    obtain rfl := Option.some.inj hi
    rw [show d.outcome = none from hnone] at hsettled
    cases hsettled
  · rw [if_neg hid, Option.or_none]
    exact ⟨rfl, rfl, rfl, fun _ => rfl⟩

theorem Matched.settles_onCancellationRequested (h : s.Matched ledger) {p : Nat} {d : Deferred V}
    (hd : s.deferreds[p]? = some d) {onCancelThrows : Bool}
    (hsafe : d.outcome = none → d.cancelListener = some true → onCancelThrows = false) :
    Settles (fun id => if id = d.id then some .cancelled else none) s
      (s.onCancellationRequested p d onCancelThrows) := by
  have hkept : d.outcome.isSome = true → ∀ {s'' : JsonRpcProtocol V}, Settles (fun _ => none) s s'' →
      Settles (fun id => if id = d.id then some .cancelled else none) s s'' := by
    intro hsettled s'' hs
    refine hs.congr (fun entry hentry => ?_) fun x hx hnone => ?_
    · exact (if_neg (h.not_pending hd hsettled hentry)).symm
    · rw [if_neg]
      intro heq
      obtain ⟨i, hi⟩ := List.mem_iff_getElem?.mp hx
      rw [h.ids i x hi, h.ids p d hd, number_inj] at heq
      rw [heq, hd] at hi
      obtain rfl := Option.some.inj hi
      rw [hnone] at hsettled
      cases hsettled
  rw [onCancellationRequested]
  split
  · next hlistener =>
      refine hkept ?_ (Settles.refl s)
      by_contra hnone
      have := h.listener d (List.mem_of_getElem? hd) (by simpa using hnone)
      rw [hlistener] at this
      cases this
  · next onCancel hlistener =>
      split
      · next hnone =>
          have hnothrow : (onCancel && onCancelThrows) = false := by
            cases onCancel with
            | false => rfl
            | true => exact hsafe (Option.isNone_iff_eq_none.mp hnone) hlistener
          simp only [hnothrow, Bool.false_eq_true, if_false]
          have hentry := h.settles_entry hd Outcome.cancelled
          obtain ⟨c, hc, hcd⟩ := hentry.deferreds
          have hd' : ((s.delete d.id).settle p .cancelled).deferreds[p]? = some (c d) := by
            rw [hc, List.getElem?_map, hd, Option.map_some]
          have hsettled : (c d).outcome.isSome = true := by
            rw [(hcd d (List.mem_of_getElem? hd)).2.2.1, if_pos rfl]
            cases d.outcome <;> rfl
          have hboth := hentry.trans ((h.settles hentry).settles_disposeListener hd' hsettled)
          simp only [Option.or_none] at hboth
          cases onCancel with
          | false => exact hboth
          | true => exact hboth.congr_right rfl rfl rfl
      · next hsome =>
          have hsettled : d.outcome.isSome = true := by
            cases ho : d.outcome with
            | none => rw [ho] at hsome; exact absurd rfl hsome
            | some o => rfl
          exact hkept hsettled (h.settles_disposeListener hd hsettled)

theorem Matched.push (h : s.Matched ledger) (listener : Bool)
    (hnext : s'.nextRequestId = s.nextRequestId + 1)
    (hpending : s'.pendingRequests = s.pendingRequests ++ [(.number s.nextRequestId, s.deferreds.length)])
    (hdeferreds : s'.deferreds = s.deferreds ++ [⟨.number s.nextRequestId, true, some listener, none⟩]) :
    s'.Matched (ledger ++ [(.number s.nextRequestId, none)]) := by
  have hid : s.nextRequestId = s.deferreds.length + 1 := h.next
  refine ⟨?_, ?_, ?_, ?_, ?_, ?_⟩
  · rw [hdeferreds, List.forall_mem_append]
    exact ⟨h.handedOut, fun d hd => by rw [List.mem_singleton.mp hd]⟩
  · rw [hdeferreds]
    intro i d hd
    by_cases hi : i < s.deferreds.length
    · rw [List.getElem?_append_left hi] at hd
      exact h.ids i d hd
    · rw [List.getElem?_append_right (by omega)] at hd
      obtain ⟨hlt, hget⟩ := List.getElem?_eq_some_iff.mp hd
      have hi' : i = s.deferreds.length := by
        rw [List.length_singleton] at hlt
        omega
      subst hi'
      simp only [Nat.sub_self, List.getElem_cons_zero] at hget
      rw [← hget, hid]
  · rw [hnext, hdeferreds, List.length_append, List.length_singleton, hid]
  · have hopen : unsettled s'.deferreds = unsettled s.deferreds ++ [s.deferreds.length] := by
      rw [hdeferreds, unsettled, unsettled, List.length_append, List.length_singleton,
        List.range_succ, List.filter_append]
      congr 1
      · refine List.filter_congr fun i hi => ?_
        rw [List.getElem?_append_left (List.mem_range.mp hi)]
      · rw [List.filter_cons_of_pos, List.filter_nil]
        rw [List.getElem?_append_right le_rfl, Nat.sub_self]
        rfl
    rw [hpending, h.pending, hopen, List.map_append, hid]
    rfl
  · rw [hdeferreds, List.forall_mem_append]
    exact ⟨h.listener, fun d hd _ => by rw [List.mem_singleton.mp hd]; rfl⟩
  · rw [hdeferreds, List.map_append, h.ledger]
    rfl

end Gavea.JsonRpc.JsonRpcProtocol
