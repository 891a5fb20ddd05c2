import Gavea.Lib.Runs

namespace Gavea.Ipc

variable {α : Type}

inductive RequestType
  | promise
  | eventListen
  deriving DecidableEq

structure ChannelRequest (α : Type) where
  type : RequestType
  id : Nat
  channelName : String
  name : String
  arg : α

inductive RawRequest (α : Type)
  | channel (request : ChannelRequest α)
  | promiseCancel (id : Nat)
  | eventDispose (id : Nat)

structure ErrorData where
  message : String
  name : String
  stack : Option (List String)

inductive RawResponse (α : Type)
  | initializeResponse
  | promiseSuccess (id : Nat) (data : α)
  | promiseError (id : Nat) (data : ErrorData)
  | promiseErrorObj (id : Nat) (data : α)
  | eventFire (id : Nat) (data : α)

def RawResponse.answers (id : Nat) : RawResponse α → Bool
  | .promiseSuccess id' _ | .promiseError id' _ | .promiseErrorObj id' _ => id' == id
  | .initializeResponse | .eventFire .. => false

/-- How the promise of `channel.call` settles; a call that throws is one whose promise
is rejected with what it threw. -/
inductive Settlement (α : Type)
  | fulfilled (data : α)
  | rejectedWithError (message name : String) (stack : Option (List String))
  | rejected (err : α)

def Settlement.response (id : Nat) : Settlement α → RawResponse α
  | .fulfilled data => .promiseSuccess id data
  | .rejectedWithError message name stack => .promiseError id ⟨message, name, stack⟩
  | .rejected err => .promiseErrorObj id err

structure PendingRequest (α : Type) where
  request : ChannelRequest α
  timeoutTimer : Nat

/-- A `channel.call` that was made: whether its token is cancelled, its promise settled
and the handler of `finally` run. -/
structure Call (α : Type) where
  request : ChannelRequest α
  cancelled : Bool
  settled : Bool
  finalized : Bool

structure Subscription (α : Type) where
  request : ChannelRequest α
  live : Bool

/-- What `activeRequests` holds: the index of a call to cancel or of a subscription to end. -/
inductive Disposable
  | cancelCall (k : Nat)
  | endSubscription (k : Nat)
  deriving DecidableEq

/-- The server with a record of what went on: the calls and subscriptions in
the order in which they were made, the responses sent, and the requests that timed out.
timers and flushTimers are the timeouts of the runtime that are still to come. -/
structure ChannelServer (α : Type) where
  timeoutDelay : Nat
  channels : List String
  activeRequests : Nat → Option Disposable
  listening : Bool
  pendingRequests : String → Option (List (PendingRequest α))
  timers : List (Nat × ChannelRequest α)
  nextTimer : Nat
  flushTimers : List String
  calls : List (Call α)
  subscriptions : List (Subscription α)
  sent : List (RawResponse α)
  timedOut : List (ChannelRequest α)

namespace ChannelServer

def new (timeoutDelay : Nat) : ChannelServer α where
  timeoutDelay := timeoutDelay
  channels := []
  activeRequests _ := none
  listening := true
  pendingRequests _ := none
  timers := []
  nextTimer := 0
  flushTimers := []
  calls := []
  subscriptions := []
  sent := [.initializeResponse]
  timedOut := []

variable (s : ChannelServer α)

def registerChannel (channelName : String) : ChannelServer α :=
  { s with
    channels := if channelName ∈ s.channels then s.channels else s.channels ++ [channelName]
    flushTimers := s.flushTimers ++ [channelName] }

def sendResponse (response : RawResponse α) : ChannelServer α := { s with sent := s.sent ++ [response] }

def setActive (id : Nat) (disposable : Disposable) : ChannelServer α :=
  { s with activeRequests := Function.update s.activeRequests id (some disposable) }

def deleteActive (id : Nat) : ChannelServer α := { s with activeRequests := Function.update s.activeRequests id none }

def dispose1 : Disposable → ChannelServer α
  | .cancelCall k => { s with calls := s.calls.modify k ({ · with cancelled := true }) }
  | .endSubscription k => { s with subscriptions := s.subscriptions.modify k ({ · with live := false }) }

def pendingOf (channelName : String) : List (PendingRequest α) := (s.pendingRequests channelName).getD []

def collectPendingRequest (request : ChannelRequest α) : ChannelServer α :=
  { s with
    timers := s.timers ++ [(s.nextTimer, request)]
    nextTimer := s.nextTimer + 1
    pendingRequests := Function.update s.pendingRequests request.channelName
      (some (s.pendingOf request.channelName ++ [⟨request, s.nextTimer⟩])) }

def onPromise (request : ChannelRequest α) : ChannelServer α :=
  if request.channelName ∈ s.channels then
    setActive { s with calls := s.calls ++ [⟨request, false, false, false⟩] } request.id (.cancelCall s.calls.length)
  else s.collectPendingRequest request

def onEventListen (listenThrows : ChannelRequest α → Bool) (request : ChannelRequest α) :
    Option (ChannelServer α) :=
  if request.channelName ∈ s.channels then
    if listenThrows request then none
    else some (setActive { s with subscriptions := s.subscriptions ++ [⟨request, true⟩] } request.id
      (.endSubscription s.subscriptions.length))
  else some (s.collectPendingRequest request)

def disposeActiveRequest (id : Nat) : ChannelServer α :=
  match s.activeRequests id with
  | some disposable => (s.dispose1 disposable).deleteActive id
  | none => s

def onRequest (listenThrows : ChannelRequest α → Bool) (request : ChannelRequest α) :
    Option (ChannelServer α) :=
  match request.type with
  | .promise => some (s.onPromise request)
  | .eventListen => s.onEventListen listenThrows request

def onRawMessage (listenThrows : ChannelRequest α → Bool) : RawRequest α → ChannelServer α
  | .channel request => (s.onRequest listenThrows request).getD s
  | .promiseCancel id => s.disposeActiveRequest id
  | .eventDispose id => s.disposeActiveRequest id

def unknownChannel (request : ChannelRequest α) : RawResponse α :=
  .promiseError request.id
    ⟨"Channel name '" ++ request.channelName ++ "' timed out after " ++ toString s.timeoutDelay ++
      "ms", "Unknown channel", none⟩

def onTimeout (timer : Nat) (request : ChannelRequest α) : ChannelServer α :=
  let s' := { s with
    timers := s.timers.filter (·.1 ≠ timer)
    timedOut := s.timedOut ++ [request] }
  match request.type with
  | .promise => s'.sendResponse (s.unknownChannel request)
  | .eventListen => s'

def clearTimeout (timer : Nat) : ChannelServer α := { s with timers := s.timers.filter (·.1 ≠ timer) }

def flushLoop (listenThrows : ChannelRequest α → Bool) :
    List (PendingRequest α) → ChannelServer α → ChannelServer α × Bool
  | [], s => (s, true)
  | pending :: rest, s =>
    match (s.clearTimeout pending.timeoutTimer).onRequest listenThrows pending.request with
    | some s' => flushLoop listenThrows rest s'
    | none => (s.clearTimeout pending.timeoutTimer, false)

def flushPendingRequests (listenThrows : ChannelRequest α → Bool) (channelName : String) :
    ChannelServer α :=
  match s.pendingRequests channelName with
  | none => s
  | some requests =>
    match flushLoop listenThrows requests s with
    | (s', true) => { s' with pendingRequests := Function.update s'.pendingRequests channelName none }
    | (s', false) => s'

def onSettled (k : Nat) (call : Call α) (settlement : Settlement α) : ChannelServer α :=
  sendResponse { s with calls := s.calls.set k { call with settled := true } } (settlement.response call.request.id)

def onFinally (k : Nat) (call : Call α) : ChannelServer α :=
  deleteActive { s with calls := s.calls.set k { call with cancelled := true, finalized := true } } call.request.id

def disposeAll : ChannelServer α :=
  { s with
    listening := false
    activeRequests := fun _ => none
    calls := s.calls.mapIdx fun k call =>
      if s.activeRequests call.request.id = some (.cancelCall k) then { call with cancelled := true }
      else call
    subscriptions := s.subscriptions.mapIdx fun k subscription =>
      if s.activeRequests subscription.request.id = some (.endSubscription k) then
        { subscription with live := false }
      else subscription }

end ChannelServer

inductive Event (α : Type)
  | message (request : RawRequest α)
  | registerChannel (channelName : String)
  | timeout (timer : Nat)
  | flush (channelName : String)
  | settle (k : Nat) (settlement : Settlement α)
  | finalize (k : Nat)
  | fire (k : Nat) (data : α)
  | dispose

namespace ChannelServer

def step (listenThrows : ChannelRequest α → Bool) (s : ChannelServer α) :
    Event α → Option (ChannelServer α)
  | .message request => if s.listening then some (s.onRawMessage listenThrows request) else none
  | .registerChannel channelName => some (s.registerChannel channelName)
  | .timeout timer => (s.timers.find? (·.1 = timer)).map fun armed => s.onTimeout timer armed.2
  | .flush channelName =>
    if channelName ∈ s.flushTimers then
      some (flushPendingRequests { s with flushTimers := s.flushTimers.erase channelName } listenThrows channelName)
    else none
  | .settle k settlement =>
    match s.calls[k]? with
    | some call => if call.settled then none else some (s.onSettled k call settlement)
    | none => none
  | .finalize k =>
    match s.calls[k]? with
    | some call => if call.settled && !call.finalized then some (s.onFinally k call) else none
    | none => none
  | .fire k data =>
    match s.subscriptions[k]? with
    | some subscription =>
      if subscription.live then some (s.sendResponse (.eventFire subscription.request.id data))
      else none
    | none => none
  | .dispose => some s.disposeAll

end ChannelServer

end Gavea.Ipc

namespace Gavea.Ipc.ChannelServer

open List

variable {α : Type} {s s' : ChannelServer α} {listenThrows : ChannelRequest α → Bool}

structure Waiting (s : ChannelServer α) : Prop where
  key : ∀ c, ∀ p ∈ s.pendingOf c, p.request.channelName = c
  timer : ∀ t ∈ s.timers, ∃ p ∈ s.pendingOf t.2.channelName, p.timeoutTimer = t.1 ∧ p.request = t.2
  fresh : ∀ c, ∀ p ∈ s.pendingOf c, p.timeoutTimer < s.nextTimer
  nodup : ∀ c, ((s.pendingOf c).map (·.timeoutTimer)).Nodup
  apart : ∀ c c', ∀ p ∈ s.pendingOf c, ∀ q ∈ s.pendingOf c', p.timeoutTimer = q.timeoutTimer → c = c'
  flushable : ∀ c ∈ s.flushTimers, c ∈ s.channels

structure Settles (s s' : ChannelServer α) : Prop where
  pending : s'.pendingRequests = s.pendingRequests
  nextTimer : s'.nextTimer = s.nextTimer
  timers : s'.timers ⊆ s.timers
  flushTimers : s'.flushTimers ⊆ s.flushTimers
  channels : s'.channels = s.channels

theorem Settles.refl : Settles s s := ⟨rfl, rfl, List.Subset.refl _, List.Subset.refl _, rfl⟩

theorem Settles.trans {s'' : ChannelServer α} (h : Settles s s') (h' : Settles s' s'') :
    Settles s s'' :=
  ⟨h'.pending.trans h.pending, h'.nextTimer.trans h.nextTimer, fun _ ht => h.timers (h'.timers ht),
    fun _ hc => h.flushTimers (h'.flushTimers hc), h'.channels.trans h.channels⟩

theorem Settles.pendingOf (h : Settles s s') (c : String) : s'.pendingOf c = s.pendingOf c := by
  rw [ChannelServer.pendingOf, ChannelServer.pendingOf, h.pending]

theorem Waiting.timer_mem (hw : Waiting s) {c : String} {p : PendingRequest α}
    (hp : p ∈ s.pendingOf c) {t : Nat × ChannelRequest α} (ht : t ∈ s.timers)
    (heq : t.1 = p.timeoutTimer) : t = (p.timeoutTimer, p.request) := by
  obtain ⟨q, hq, htimer, hrequest⟩ := hw.timer t ht
  have hc := hw.apart _ c q hq p hp (htimer.trans heq)
  rw [hc] at hq
  obtain rfl := inj_on_of_nodup_map (hw.nodup c) hq hp (htimer.trans heq)
  exact Prod.ext heq hrequest.symm

theorem Waiting.settles (hw : Waiting s) (h : Settles s s') : Waiting s' where
  key c p hp := hw.key c p (h.pendingOf c ▸ hp)
  timer t ht := by
    rw [h.pendingOf]
    exact hw.timer t (h.timers ht)
  fresh c p hp := by
    rw [h.nextTimer]
    exact hw.fresh c p (h.pendingOf c ▸ hp)
  nodup c := by
    rw [h.pendingOf]
    exact hw.nodup c
  apart c c' p hp q hq := hw.apart c c' p (h.pendingOf c ▸ hp) q (h.pendingOf c' ▸ hq)
  flushable c hc := by
    rw [h.channels]
    exact hw.flushable c (h.flushTimers hc)

theorem pendingOf_collect (request : ChannelRequest α) (c : String) :
    (s.collectPendingRequest request).pendingOf c =
      s.pendingOf c ++ if c = request.channelName then [⟨request, s.nextTimer⟩] else [] := by
  by_cases h : c = request.channelName
  · subst h
    rw [if_pos rfl]
    simp [pendingOf, collectPendingRequest]
  · rw [if_neg h, append_nil]
    simp [pendingOf, collectPendingRequest, h]

theorem mem_pendingOf_collect {request : ChannelRequest α} {c : String} {p : PendingRequest α} :
    p ∈ (s.collectPendingRequest request).pendingOf c ↔
      p ∈ s.pendingOf c ∨ (c = request.channelName ∧ p = ⟨request, s.nextTimer⟩) := by
  rw [pendingOf_collect, mem_append]
  split_ifs with h <;> simp [h]

theorem Waiting.collect (hw : Waiting s) (request : ChannelRequest α) :
    Waiting (s.collectPendingRequest request) where
  key c p hp := by
    rcases mem_pendingOf_collect.mp hp with hp | ⟨rfl, rfl⟩
    · exact hw.key c p hp
    · rfl
  timer t ht := by
    rcases mem_append.mp ht with ht | ht
    · obtain ⟨p, hp, h⟩ := hw.timer t ht
      exact ⟨p, mem_pendingOf_collect.mpr (.inl hp), h⟩
    · obtain rfl := mem_singleton.mp ht
      exact ⟨⟨request, s.nextTimer⟩, mem_pendingOf_collect.mpr (.inr ⟨rfl, rfl⟩), rfl, rfl⟩
  fresh c p hp := by
    change p.timeoutTimer < s.nextTimer + 1
    rcases mem_pendingOf_collect.mp hp with hp | ⟨rfl, rfl⟩
    · exact Nat.lt_succ_of_lt (hw.fresh c p hp)
    · exact Nat.lt_succ_self _
  nodup c := by
    rw [pendingOf_collect, map_append, nodup_append]
    refine ⟨hw.nodup c, by split_ifs <;> simp, fun t ht t' ht' heq => ?_⟩
    obtain ⟨p, hp, rfl⟩ := mem_map.mp ht
    have := hw.fresh c p hp
    split_ifs at ht'
    · simp at ht'
      omega
    · cases ht'
  apart c c' p hp q hq heq := by
    rcases mem_pendingOf_collect.mp hp with hp | ⟨rfl, rfl⟩ <;>
      rcases mem_pendingOf_collect.mp hq with hq | ⟨rfl, rfl⟩
    · exact hw.apart c c' p hp q hq heq
    · exact absurd heq (hw.fresh c p hp).ne
    · exact absurd heq (hw.fresh c' q hq).ne'
    · rfl
  flushable := hw.flushable

theorem onRequest_of_mem {request : ChannelRequest α} (hc : request.channelName ∈ s.channels)
    (h : s.onRequest listenThrows request = some s') :
    (request.type = .promise ∧
      s' = setActive { s with calls := s.calls ++ [⟨request, false, false, false⟩] } request.id
        (.cancelCall s.calls.length)) ∨
    (request.type = .eventListen ∧
      s' = setActive { s with subscriptions := s.subscriptions ++ [⟨request, true⟩] } request.id
        (.endSubscription s.subscriptions.length)) := by
  cases htype : request.type with
  | promise =>
    simp only [onRequest, htype, onPromise, if_pos hc, Option.some.injEq] at h
    exact .inl ⟨rfl, h.symm⟩
  | eventListen =>
    simp only [onRequest, htype, onEventListen, if_pos hc] at h
    split_ifs at h
    exact .inr ⟨rfl, (Option.some.inj h).symm⟩

/-- A promise request is never refused. -/
theorem onRequest_eq_none {request : ChannelRequest α}
    (h : s.onRequest listenThrows request = none) : request.type = .eventListen := by
  cases htype : request.type with
  | promise => simp [onRequest, htype] at h
  | eventListen => rfl

theorem onRequest_of_not_mem {request : ChannelRequest α} (hc : request.channelName ∉ s.channels) :
    s.onRequest listenThrows request = some (s.collectPendingRequest request) := by
  cases htype : request.type <;> simp [onRequest, htype, onPromise, onEventListen, hc]

def promisesOf (requests : List (PendingRequest α)) : List (ChannelRequest α) :=
  (requests.map (·.request)).filter (·.type = .promise)

theorem promisesOf_append (l l' : List (PendingRequest α)) :
    promisesOf (l ++ l') = promisesOf l ++ promisesOf l' := by
  simp [promisesOf]

structure Dispatched (s s' : ChannelServer α) (handled : List (PendingRequest α)) : Prop
    extends Settles s s' where
  timers_eq : s'.timers = s.timers.filter fun t => ∀ p ∈ handled, t.1 ≠ p.timeoutTimer
  calls : s'.calls = s.calls ++ (promisesOf handled).map fun r => ⟨r, false, false, false⟩
  subscriptions : ∃ l, s'.subscriptions = s.subscriptions ++ l ∧
    ∀ subscription ∈ l, ∃ p ∈ handled, subscription.request = p.request
  sent : s'.sent = s.sent
  timedOut : s'.timedOut = s.timedOut

theorem Dispatched.nil : Dispatched s s [] where
  toSettles := .refl
  timers_eq := by simp
  calls := by simp [promisesOf]
  subscriptions := ⟨[], by simp⟩
  sent := rfl
  timedOut := rfl

theorem Dispatched.append {s'' : ChannelServer α} {l l' : List (PendingRequest α)}
    (h : Dispatched s s' l) (h' : Dispatched s' s'' l') : Dispatched s s'' (l ++ l') where
  toSettles := h.toSettles.trans h'.toSettles
  timers_eq := by
    rw [h'.timers_eq, h.timers_eq, filter_filter]
    congr 1
    funext t
    simp only [forall_mem_append, Bool.decide_and, Bool.and_comm]
  calls := by
    rw [h'.calls, h.calls, promisesOf_append, map_append, append_assoc]
  subscriptions := by
    obtain ⟨m, hm, hmem⟩ := h.subscriptions
    obtain ⟨m', hm', hmem'⟩ := h'.subscriptions
    refine ⟨m ++ m', by rw [hm', hm, append_assoc], fun q hq => ?_⟩
    rcases mem_append.mp hq with hq | hq
    · obtain ⟨p, hp, heq⟩ := hmem q hq
      exact ⟨p, mem_append_left _ hp, heq⟩
    · obtain ⟨p, hp, heq⟩ := hmem' q hq
      exact ⟨p, mem_append_right _ hp, heq⟩
  sent := h'.sent.trans h.sent
  timedOut := h'.timedOut.trans h.timedOut

theorem settles_clearTimeout (timer : Nat) : Settles s (s.clearTimeout timer) :=
  ⟨rfl, rfl, fun _ ht => (mem_filter.mp ht).1, List.Subset.refl _, rfl⟩

theorem dispatched_clearTimeout {p : PendingRequest α} (htype : p.request.type = .eventListen) :
    Dispatched s (s.clearTimeout p.timeoutTimer) [p] where
  toSettles := settles_clearTimeout _
  timers_eq := by simp [clearTimeout]
  calls := by simp [clearTimeout, promisesOf, htype]
  subscriptions := ⟨[], by simp [clearTimeout]⟩
  sent := rfl
  timedOut := rfl

theorem dispatched_onRequest {p : PendingRequest α} (hc : p.request.channelName ∈ s.channels)
    (h : (s.clearTimeout p.timeoutTimer).onRequest listenThrows p.request = some s') :
    Dispatched s s' [p] := by
  have hclear := settles_clearTimeout (s := s) p.timeoutTimer
  rcases onRequest_of_mem (s := s.clearTimeout p.timeoutTimer) hc h with
    ⟨htype, rfl⟩ | ⟨htype, rfl⟩
  · exact ⟨⟨rfl, rfl, hclear.timers, List.Subset.refl _, rfl⟩, by simp [setActive, clearTimeout],
      by simp [setActive, clearTimeout, promisesOf, htype], ⟨[], by simp [setActive, clearTimeout]⟩,
      rfl, rfl⟩
  · exact ⟨⟨rfl, rfl, hclear.timers, List.Subset.refl _, rfl⟩, by simp [setActive, clearTimeout],
      by simp [setActive, clearTimeout, promisesOf, htype], ⟨[⟨p.request, true⟩], rfl, by simp⟩,
      rfl, rfl⟩

theorem flushLoop_dispatched (listenThrows : ChannelRequest α → Bool)
    {requests : List (PendingRequest α)}
    (hc : ∀ p ∈ requests, p.request.channelName ∈ s.channels) :
    ∃ handled rest, requests = handled ++ rest ∧
      ((flushLoop listenThrows requests s).2 = true → rest = []) ∧
      Dispatched s (flushLoop listenThrows requests s).1 handled := by
  induction requests generalizing s with
  | nil => exact ⟨[], [], rfl, fun _ => rfl, .nil⟩
  | cons p rest ih =>
    rw [flushLoop]
    cases hrun : (s.clearTimeout p.timeoutTimer).onRequest listenThrows p.request with
    | none => exact ⟨[p], rest, rfl, by simp, dispatched_clearTimeout (onRequest_eq_none hrun)⟩
    | some s1 =>
      have hp := dispatched_onRequest (hc p mem_cons_self) hrun
      obtain ⟨handled, rest', rfl, hdone, hd⟩ := ih (s := s1) fun q hq => by
        rw [hp.channels]
        exact hc q (mem_cons_of_mem p hq)
      exact ⟨p :: handled, rest', rfl, hdone, hp.append hd⟩

structure Flushed (s s' : ChannelServer α) (c : String) (handled : List (PendingRequest α)) :
    Prop where
  dispatched : ∃ m, Dispatched s m handled ∧ s' = { m with pendingRequests := s'.pendingRequests }
  prefix_pending : handled <+: s.pendingOf c
  pending : s'.pendingRequests = s.pendingRequests ∨
    (handled = s.pendingOf c ∧ s'.pendingRequests = Function.update s.pendingRequests c none)

theorem flushed_flushPendingRequests (hw : Waiting s) {c : String} (hc : c ∈ s.channels) :
    ∃ handled, Flushed s (s.flushPendingRequests listenThrows c) c handled := by
  cases hreq : s.pendingRequests c with
  | none =>
    have heq : s.flushPendingRequests listenThrows c = s := by simp [flushPendingRequests, hreq]
    rw [heq]
    exact ⟨[], ⟨s, .nil, rfl⟩, nil_prefix, .inl rfl⟩
  | some requests =>
    have hpending : s.pendingOf c = requests := by simp [pendingOf, hreq]
    obtain ⟨handled, rest, hsplit, hdone, hd⟩ :=
      flushLoop_dispatched listenThrows fun p hp => by
        rw [hw.key c p (hpending ▸ hp)]
        exact hc
    refine ⟨handled, ?_⟩
    have hprefix : handled <+: s.pendingOf c := hpending ▸ hsplit ▸ prefix_append _ _
    rcases hloop : flushLoop listenThrows requests s with ⟨m, completed⟩
    rw [hloop] at hd hdone
    cases completed with
    | true =>
      obtain rfl := hdone rfl
      rw [append_nil] at hsplit
      simp only [flushPendingRequests, hreq, hloop]
      refine ⟨⟨m, hd, rfl⟩, hprefix, .inr ⟨hpending.trans hsplit |>.symm, ?_⟩⟩
      rw [← hd.pending]
    | false =>
      simp only [flushPendingRequests, hreq, hloop]
      exact ⟨⟨m, hd, rfl⟩, hprefix, .inl hd.pending⟩

theorem Waiting.flush (hw : Waiting s) {c : String} {handled : List (PendingRequest α)}
    (hf : Flushed s s' c handled) : Waiting s' := by
  obtain ⟨m, hd, heq⟩ := hf.dispatched
  have htimers : s'.timers = m.timers := by rw [heq]
  have hm := hw.settles hd.toSettles
  rcases hf.pending with hpending | ⟨rfl, hpending⟩
  · refine hw.settles ⟨hpending, ?_, ?_, ?_, ?_⟩
    · rw [heq, hd.nextTimer]
    · rw [htimers]
      exact hd.timers
    · rw [heq]
      exact hd.flushTimers
    · rw [heq, hd.channels]
  · have hother : ∀ c', c' ≠ c → s'.pendingOf c' = s.pendingOf c' := fun c' hc' => by
      rw [ChannelServer.pendingOf, hpending, Function.update_of_ne hc', ChannelServer.pendingOf]
    have hsub : ∀ c', s'.pendingOf c' ⊆ m.pendingOf c' := fun c' p hp => by
      rw [hd.pendingOf]
      by_cases hc' : c' = c
      · simp [ChannelServer.pendingOf, hpending, hc'] at hp
      · rwa [← hother c' hc']
    refine ⟨fun c' p hp => hm.key c' p (hsub c' hp), fun t ht => ?_, fun c' p hp => ?_,
      fun c' => ?_, fun c1 c2 p hp q hq => hm.apart c1 c2 p (hsub c1 hp) q (hsub c2 hq), ?_⟩
    · rw [htimers, hd.timers_eq, mem_filter] at ht
      obtain ⟨p, hp, htimer, hrequest⟩ := hw.timer t ht.1
      -- a timer of the flushed channel would have been cleared
      have hne : t.2.channelName ≠ c := by
        rintro rfl
        exact of_decide_eq_true ht.2 p hp htimer.symm
      rw [hother _ hne]
      exact ⟨p, hp, htimer, hrequest⟩
    · rw [heq]
      exact hm.fresh c' p (hsub c' hp)
    · by_cases hc' : c' = c
      · simp [ChannelServer.pendingOf, hpending, hc']
      · rw [hother c' hc']
        exact hw.nodup c'
    · rw [heq]
      exact hm.flushable

theorem settles_disposeActiveRequest (id : Nat) : Settles s (s.disposeActiveRequest id) := by
  rw [disposeActiveRequest]
  split
  · next d _ =>
      cases d <;> exact ⟨rfl, rfl, List.Subset.refl _, List.Subset.refl _, rfl⟩
  · exact .refl

theorem settles_onTimeout (timer : Nat) (request : ChannelRequest α) :
    Settles s (s.onTimeout timer request) := by
  have hclear := settles_clearTimeout (s := s) timer
  rw [onTimeout]
  cases request.type <;> exact ⟨rfl, rfl, hclear.timers, List.Subset.refl _, rfl⟩

theorem Waiting.registerChannel (hw : Waiting s) (c : String) : Waiting (s.registerChannel c) where
  key := hw.key
  timer := hw.timer
  fresh := hw.fresh
  nodup := hw.nodup
  apart := hw.apart
  flushable c' hc' := by
    change c' ∈ if c ∈ s.channels then s.channels else s.channels ++ [c]
    have hold : c' ∈ s.channels ∨ c' = c := (mem_append.mp hc').imp (hw.flushable c') mem_singleton.mp
    split_ifs with hmem
    · rcases hold with h | rfl
      · exact h
      · exact hmem
    · rcases hold with h | rfl
      · exact mem_append_left _ h
      · exact mem_append_right _ (mem_singleton_self _)

theorem Waiting.onRawMessage (hw : Waiting s) (message : RawRequest α) :
    Waiting (s.onRawMessage listenThrows message) := by
  cases message with
  | channel request =>
    rw [ChannelServer.onRawMessage]
    by_cases hc : request.channelName ∈ s.channels
    · cases hrun : s.onRequest listenThrows request with
      | none => exact hw
      | some s1 =>
        refine hw.settles ?_
        rcases onRequest_of_mem hc hrun with ⟨_, rfl⟩ | ⟨_, rfl⟩ <;>
          exact ⟨rfl, rfl, List.Subset.refl _, List.Subset.refl _, rfl⟩
    · rw [onRequest_of_not_mem hc]
      exact hw.collect request
  | promiseCancel id => exact hw.settles (settles_disposeActiveRequest id)
  | eventDispose id => exact hw.settles (settles_disposeActiveRequest id)

theorem waiting_new (timeoutDelay : Nat) : Waiting (new timeoutDelay : ChannelServer α) := by
  refine ⟨?_, ?_, ?_, ?_, ?_, ?_⟩ <;> simp [new, ChannelServer.pendingOf]

theorem settles_flushTimer (c : String) :
    Settles s { s with flushTimers := s.flushTimers.erase c } :=
  ⟨rfl, rfl, List.Subset.refl _, fun _ h => mem_of_mem_erase h, rfl⟩

inductive Occurs (listenThrows : ChannelRequest α → Bool) (s : ChannelServer α) :
    Event α → ChannelServer α → Prop
  | message (request : RawRequest α) (hlisten : s.listening = true) :
      Occurs listenThrows s (.message request) (s.onRawMessage listenThrows request)
  | registerChannel (c : String) : Occurs listenThrows s (.registerChannel c) (s.registerChannel c)
  | timeout (timer : Nat) (request : ChannelRequest α) (harmed : (timer, request) ∈ s.timers) :
      Occurs listenThrows s (.timeout timer) (s.onTimeout timer request)
  | flush (c : String) (hc : c ∈ s.flushTimers) :
      Occurs listenThrows s (.flush c)
        (flushPendingRequests { s with flushTimers := s.flushTimers.erase c } listenThrows c)
  | settle (k : Nat) (call : Call α) (settlement : Settlement α) (hk : s.calls[k]? = some call)
      (hrunning : call.settled = false) :
      Occurs listenThrows s (.settle k settlement) (s.onSettled k call settlement)
  | finalize (k : Nat) (call : Call α) (hk : s.calls[k]? = some call)
      (hsettled : call.settled = true) (hopen : call.finalized = false) :
      Occurs listenThrows s (.finalize k) (s.onFinally k call)
  | fire (k : Nat) (data : α) (subscription : Subscription α)
      (hk : s.subscriptions[k]? = some subscription) (hlive : subscription.live = true) :
      Occurs listenThrows s (.fire k data) (s.sendResponse (.eventFire subscription.request.id data))
  | dispose : Occurs listenThrows s .dispose s.disposeAll

theorem occurs_of_step {e : Event α} (h : s.step listenThrows e = some s') :
    Occurs listenThrows s e s' := by
  cases e with
  | message request =>
    simp only [ChannelServer.step] at h
    split_ifs at h with hlisten
    exact Option.some.inj h ▸ .message request hlisten
  | registerChannel c => exact Option.some.inj h ▸ .registerChannel c
  | timeout timer =>
    obtain ⟨⟨t, request⟩, hfind, rfl⟩ := Option.map_eq_some_iff.mp h
    obtain rfl : t = timer := by simpa using find?_some hfind
    exact .timeout t request (mem_of_find?_eq_some hfind)
  | flush c =>
    simp only [ChannelServer.step] at h
    split_ifs at h with hc
    exact Option.some.inj h ▸ .flush c hc
  | settle k settlement =>
    simp only [ChannelServer.step] at h
    split at h
    · next call hk =>
      split_ifs at h with hrunning
      exact Option.some.inj h ▸ .settle k call settlement hk (by simpa using hrunning)
    · cases h
  | finalize k =>
    simp only [ChannelServer.step] at h
    split at h
    · next call hk =>
      split_ifs at h with hopen
      simp only [Bool.and_eq_true, Bool.not_eq_true'] at hopen
      exact Option.some.inj h ▸ .finalize k call hk hopen.1 hopen.2
    · cases h
  | fire k data =>
    simp only [ChannelServer.step] at h
    split at h
    · next subscription hk =>
      split_ifs at h with hlive
      exact Option.some.inj h ▸ .fire k data subscription hk hlive
    · cases h
  | dispose => exact Option.some.inj h ▸ .dispose

theorem Waiting.due (hw : Waiting s) (listenThrows : ChannelRequest α → Bool) {c : String} (hc : c ∈ s.flushTimers) :
    ∃ handled, Flushed { s with flushTimers := s.flushTimers.erase c }
      (flushPendingRequests { s with flushTimers := s.flushTimers.erase c } listenThrows c) c
      handled :=
  flushed_flushPendingRequests (hw.settles (settles_flushTimer c)) (hw.flushable c hc)

theorem Waiting.step (hw : Waiting s) {e : Event α} (h : Occurs listenThrows s e s') :
    Waiting s' := by
  cases h with
  | message request => exact hw.onRawMessage request
  | registerChannel c => exact hw.registerChannel c
  | timeout timer request => exact hw.settles (settles_onTimeout timer request)
  | flush c hc =>
    obtain ⟨handled, hf⟩ := hw.due listenThrows hc
    exact (hw.settles (settles_flushTimer c)).flush hf
  | settle k call settlement hk => exact hw.settles ⟨rfl, rfl, List.Subset.refl _, List.Subset.refl _, rfl⟩
  | finalize k call hk => exact hw.settles ⟨rfl, rfl, List.Subset.refl _, List.Subset.refl _, rfl⟩
  | fire k data subscription hk => exact hw.settles ⟨rfl, rfl, List.Subset.refl _, List.Subset.refl _, rfl⟩
  | dispose => exact hw.settles ⟨rfl, rfl, List.Subset.refl _, List.Subset.refl _, rfl⟩

end Gavea.Ipc.ChannelServer
