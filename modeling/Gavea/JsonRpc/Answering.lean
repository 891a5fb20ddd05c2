import Gavea.JsonRpc.JsonRpcProtocol

namespace Gavea.JsonRpc.JsonRpcProtocol

open Lib.Runs

variable {V : Type} {s s' : JsonRpcProtocol V} {ledger : Ledger V}

inductive Turn (s : JsonRpcProtocol V) (c : Call V) (id : Option JsonRpcId) :
    List (JsonRpcResponse V) → Call V → Prop
  | finished (replies : List (JsonRpcResponse V)) {responses : List (JsonRpcResponse V)}
      (h : responses.map JsonRpcResponse.id = id.toList) :
      Turn s c id responses { c with handled := c.handled + 1, awaiting := none, replies := replies }
  | rejected {responses : List (JsonRpcResponse V)}
      (h : responses.map JsonRpcResponse.id = id.toList) (hbehind : s.NothingBehind c) :
      Turn s c id responses { c with awaiting := none, rejected := true }
  | awaiting {id' : JsonRpcId} (h : id = some id') : Turn s c id [] { c with awaiting := some id' }

structure Turned (call : Nat) (c c' : Call V) (responses : List (JsonRpcResponse V))
    (s s' : JsonRpcProtocol V) : Prop where
  calls : s'.calls = s.calls.modify call fun _ => c'
  sent : s'.sent = s.sent ++ responses.map fun r => ⟨some (call, c.handled), .response r⟩

theorem modify_const {α : Type*} {l : List α} {i : Nat} {x : α} (hx : l[i]? = some x) (f : α → α) :
    l.modify i f = l.modify i fun _ => f x := by
  refine List.ext_getElem? fun j => ?_
  rw [List.getElem?_modify, List.getElem?_modify]
  by_cases hij : i = j
  · subst hij
    simp [hx]
  · simp [hij]

structure Kept (s s' : JsonRpcProtocol V) : Prop where
  next : s'.nextRequestId = s.nextRequestId
  pending : s'.pendingRequests = s.pendingRequests
  deferreds : s'.deferreds = s.deferreds

theorem finishOrReject_turn {call : Nat} {c : Call V} (hc : s.calls[call]? = some c)
    {s₀ : JsonRpcProtocol V} {response : JsonRpcResponse V}
    {throws : Bool} (hsafe : throws = true → s₀.NothingBehind c) :
    ∃ c', (s.finishOrReject call response throws).calls = s.calls.modify call (fun _ => c') ∧
      Turn s₀ c (some response.id) [response] c' := by
  rw [finishOrReject]
  split
  · next hthrows => exact ⟨_, modify_const hc _, .rejected rfl (hsafe hthrows)⟩
  · exact ⟨_, modify_const hc _, .finished _ rfl⟩

theorem id_errorResponse (id : JsonRpcId) (thrown : Thrown V) : (errorResponse id thrown).id = id := by
  cases thrown <;> rfl

theorem answer_kept (call index : Nat) (id : JsonRpcId) (result : HandlerResult V)
    (callbacks : Callbacks V) : Kept s (s.answer call index id result callbacks) := by
  cases result with
  | value v =>
    simp only [answer]
    split
    · exact ⟨rfl, rfl, rfl⟩
    · rw [finishOrReject]
      split <;> exact ⟨rfl, rfl, rfl⟩
  | thrown t =>
    simp only [answer, finishOrReject]
    split <;> exact ⟨rfl, rfl, rfl⟩

theorem answer_turned {call : Nat} {c : Call V} (hc : s.calls[call]? = some c) (id : JsonRpcId)
    {result : HandlerResult V} {callbacks : Callbacks V}
    (hsafe : s.SafeAnswer c callbacks result) :
    ∃ c' responses, Turned call c c' responses s (s.answer call c.handled id result callbacks) ∧
      Turn s c (some id) responses c' := by
  cases result with
  | value v =>
    simp only [answer, show callbacks.sendThrows = none from hsafe]
    exact ⟨_, [.success id v], ⟨modify_const hc _, rfl⟩, .finished _ rfl⟩
  | thrown t =>
    obtain ⟨c', hcalls, hturn⟩ := @finishOrReject_turn V
      (s.send (some (call, c.handled)) (.response (errorResponse id t))) call c hc s
      (errorResponse id t) callbacks.sendThrows.isSome hsafe
    rw [id_errorResponse] at hturn
    refine ⟨c', _, ⟨hcalls, ?_⟩, hturn⟩
    simp only [answer, finishOrReject]
    split <;> rfl

theorem handleRequest_turned {call : Nat} {c : Call V} (hc : s.calls[call]? = some c)
    (id : JsonRpcId) (method : String) {callbacks : Callbacks V}
    (hsafe : if s.handlesRequests then
        ∀ result ∈ callbacks.handleRequest, s.SafeAnswer c callbacks result
      else callbacks.sendThrows.isSome = true → s.NothingBehind c) :
    (∃ c' responses,
      Turned call c c' responses s (s.handleRequest call c.handled id method callbacks) ∧
        Turn s c (some id) responses c') ∧
      Kept s (s.handleRequest call c.handled id method callbacks) := by
  rw [handleRequest]
  by_cases hhandles : s.handlesRequests = true
  · rw [hhandles, if_pos rfl] at hsafe
    rw [hhandles, if_neg (by simp)]
    split
    · next result hresult => exact ⟨answer_turned hc id (hsafe result hresult), answer_kept _ _ _ _ _⟩
    · refine ⟨⟨_, [], ⟨modify_const hc _, ?_⟩, .awaiting rfl⟩, rfl, rfl, rfl⟩
      exact (List.append_nil _).symm
  · rw [if_neg hhandles] at hsafe
    rw [if_pos (by simpa using hhandles)]
    obtain ⟨c', hcalls, hturn⟩ := @finishOrReject_turn V
      (s.send (some (call, c.handled)) (.response (methodNotFound id method))) call c hc s
      (methodNotFound id method) callbacks.sendThrows.isSome hsafe
    refine ⟨⟨c', _, ⟨hcalls, ?_⟩, hturn⟩, ?_⟩
    · simp only [finishOrReject]
      split <;> rfl
    · simp only [finishOrReject]
      split <;> exact ⟨rfl, rfl, rfl⟩

theorem Matched.kept (h : s.Matched ledger) (hk : Kept s s') : s'.Matched ledger :=
  h.congr hk.next hk.pending hk.deferreds

theorem settle_get_calls (s : JsonRpcProtocol V) (id : JsonRpcId) (outcome : Outcome V) :
    (match s.get id with
      | some p => (s.delete id).settle p outcome
      | none => s).calls = s.calls ∧
      (match s.get id with
        | some p => (s.delete id).settle p outcome
        | none => s).sent = s.sent := by
  split <;> exact ⟨rfl, rfl⟩

theorem requestId_of_isJsonRpcRequest {message : JsonRpcMessage V} {id : JsonRpcId} {method : String}
    (hresponse : ¬message.isJsonRpcResponse = true)
    (hrequest : message.isJsonRpcRequest = some (id, method)) : message.requestId = some id := by
  rw [JsonRpcMessage.requestId, if_neg hresponse, hrequest]
  rfl

theorem handleResponse_spec (h : s.Matched ledger) {call : Nat} {c : Call V}
    (hc : s.calls[call]? = some c) {message : JsonRpcMessage V} {callbacks : Callbacks V}
    (hresponse : message.isJsonRpcResponse = true) :
    (∃ c', Turned call c c' [] s (s.handleSingle call c.handled message callbacks) ∧
      Turn s c none [] c') ∧
      (∀ entry ∈ (s.handleSingle call c.handled message callbacks).pendingRequests, entry ∈ s.pendingRequests) ∧
      (s.handleSingle call c.handled message callbacks).Matched
        (message.signals.foldl Ledger.apply ledger) := by
  have hfinish : ∀ s₁ : JsonRpcProtocol V, s₁.calls = s.calls → s₁.sent = s.sent →
      ∃ c', Turned call c c' [] s (s₁.finish call none) ∧ Turn s c none [] c' := by
    intro s₁ hcalls hsent
    refine ⟨_, ⟨?_, hsent.trans (List.append_nil _).symm⟩, .finished c.replies rfl⟩
    rw [finish]
    simp only [hcalls, Option.toList_none, List.append_nil]
    exact modify_const hc _
  have hsettles : ∀ (id : JsonRpcId) (outcome : Outcome V) (s₁ : JsonRpcProtocol V),
      s₁ = (match s.get id with | some p => (s.delete id).settle p outcome | none => s) →
      (∃ c', Turned call c c' [] s (s₁.finish call none) ∧ Turn s c none [] c') ∧
        (∀ entry ∈ (s₁.finish call none).pendingRequests, entry ∈ s.pendingRequests) ∧
        (s₁.finish call none).Matched (ledger.apply (.arrived id outcome)) := by
    rintro id outcome s₁ rfl
    obtain ⟨hcalls, hsent⟩ := s.settle_get_calls id outcome
    have hget := h.settles_get id outcome
    refine ⟨hfinish _ hcalls hsent, fun entry hentry => ?_, (h.settles hget).congr rfl rfl rfl⟩
    have hmem := hget.pending ▸ hentry
    exact (List.mem_filter.mp hmem).1
  rw [handleSingle, if_pos hresponse, JsonRpcMessage.signals, if_pos hresponse]
  cases message.id with
  | none => exact ⟨hfinish s rfl rfl, fun _ hentry => hentry, h.congr rfl rfl rfl⟩
  | some id =>
    cases message.result with
    | some result => exact hsettles id _ (s.handleResult id result) rfl
    | none =>
      cases message.error with
      | some error => exact hsettles id _ (s.handleError id error) rfl
      | none => exact ⟨hfinish s rfl rfl, fun _ hentry => hentry, h.congr rfl rfl rfl⟩

theorem handleSingle_spec (h : s.Matched ledger) {call : Nat} {c : Call V}
    (hc : s.calls[call]? = some c) (message : JsonRpcMessage V) {callbacks : Callbacks V}
    (hsafe : if message.requestId.isSome then
        if s.handlesRequests then
          ∀ result ∈ callbacks.handleRequest, s.SafeAnswer c callbacks result
        else callbacks.sendThrows.isSome → s.NothingBehind c
      else message.isJsonRpcResponse = false → message.isJsonRpcNotification = true →
        callbacks.notificationThrows = true → s.NothingBehind c) :
    (∃ c' responses,
      Turned call c c' responses s (s.handleSingle call c.handled message callbacks) ∧
        Turn s c message.requestId responses c') ∧
      (∀ entry ∈ (s.handleSingle call c.handled message callbacks).pendingRequests, entry ∈ s.pendingRequests) ∧
      (s.handleSingle call c.handled message callbacks).Matched
        (message.signals.foldl Ledger.apply ledger) := by
  by_cases hresponse : message.isJsonRpcResponse = true
  · have hid : message.requestId = none := by rw [JsonRpcMessage.requestId, if_pos hresponse]
    obtain ⟨⟨c', hturned, hturn⟩, hrest⟩ := @handleResponse_spec V s ledger h call c hc message callbacks hresponse
    exact ⟨⟨c', [], hturned, by rw [hid]; exact hturn⟩, hrest⟩
  · have hsignals : message.signals = [] := by rw [JsonRpcMessage.signals, if_neg hresponse]
    rw [handleSingle, if_neg hresponse, hsignals]
    cases hrequest : message.isJsonRpcRequest with
    | some request =>
      obtain ⟨id, method⟩ := request
      have hid := requestId_of_isJsonRpcRequest hresponse hrequest
      rw [hid, Option.isSome_some, if_pos rfl] at hsafe
      obtain ⟨⟨c', responses, hturned, hturn⟩, hkept⟩ := handleRequest_turned hc id method hsafe
      rw [hid]
      exact ⟨⟨c', responses, hturned, hturn⟩, fun _ hentry => hkept.pending ▸ hentry, h.kept hkept⟩
    | none =>
      have hid : message.requestId = none := by
        rw [JsonRpcMessage.requestId, if_neg hresponse, hrequest]
        rfl
      rw [hid, Option.isSome_none, if_neg Bool.false_ne_true] at hsafe
      rw [hid]
      simp only
      split
      · next hthrows =>
          obtain ⟨hnotification, hthrows⟩ := (Bool.and_eq_true _ _).mp hthrows
          have hbehind := hsafe (by simpa using hresponse) hnotification hthrows
          exact ⟨⟨_, [], ⟨modify_const hc _, (List.append_nil _).symm⟩, .rejected rfl hbehind⟩,
            fun _ hentry => hentry, h.congr rfl rfl rfl⟩
      · exact ⟨⟨_, [], ⟨modify_const hc _, (List.append_nil _).symm⟩, .finished _ rfl⟩,
          fun _ hentry => hentry, h.congr rfl rfl rfl⟩

theorem Matched.foldl_signals (h : s.Matched ledger) {messages : List (JsonRpcMessage V)}
    (hidle : ∀ message ∈ messages, ∀ signal ∈ message.signals, ∀ entry ∈ s.pendingRequests,
      signal.outcomeFor entry.1 = none) :
    (messages.flatMap JsonRpcMessage.signals).foldl Ledger.apply ledger = ledger := by
  have harrived : ∀ signal ∈ messages.flatMap JsonRpcMessage.signals,
      ledger.apply signal = ledger := by
    intro signal hsignal
    obtain ⟨message, hmessage, hsignal⟩ := List.mem_flatMap.mp hsignal
    have hnone := hidle message hmessage signal hsignal
    obtain ⟨id, outcome, rfl⟩ : ∃ id outcome, signal = .arrived id outcome := by
      rw [JsonRpcMessage.signals] at hsignal
      split at hsignal
      · split at hsignal
        · exact ⟨_, _, List.mem_singleton.mp hsignal⟩
        · exact ⟨_, _, List.mem_singleton.mp hsignal⟩
        · cases hsignal
      · cases hsignal
    have hall : ∀ entry ∈ ledger,
        (entry.1, entry.2.or ((Signal.arrived id outcome).outcomeFor entry.1)) = entry := by
      intro entry hentry
      rw [← h.ledger] at hentry
      obtain ⟨d, hd, rfl⟩ := List.mem_map.mp hentry
      cases ho : d.outcome with
      | some o => rfl
      | none =>
        obtain ⟨p, hp⟩ := h.exists_pending hd ho
        rw [hnone _ hp]
        rfl
    calc ledger.map (fun entry =>
          (entry.1, entry.2.or ((Signal.arrived id outcome).outcomeFor entry.1)))
        = ledger.map fun entry => entry := List.map_congr_left hall
      _ = ledger := List.map_id' ledger
  generalize messages.flatMap JsonRpcMessage.signals = signals at harrived ⊢
  induction signals with
  | nil => rfl
  | cons signal signals ih =>
    rw [List.foldl_cons, harrived signal List.mem_cons_self]
    exact ih fun signal' hsignal' => harrived signal' (List.mem_cons_of_mem _ hsignal')

structure Answering (s : JsonRpcProtocol V) : Prop where
  fresh : ∀ call index, s.calls.length ≤ call → s.responses call index = []
  ahead : ∀ (call index : Nat) (c : Call V), s.calls[call]? = some c → c.rejected = false →
    c.handled ≤ index → s.responses call index = []
  answered : ∀ (call index : Nat) (c : Call V) (message : JsonRpcMessage V) (id : JsonRpcId),
    s.calls[call]? = some c → c.messages[index]? = some message → message.requestId = some id →
    (index < c.handled ∨ c.rejected = true) →
    ∃ response, s.responses call index = [response] ∧ response.id = id
  awaiting : ∀ (call : Nat) (c : Call V) (id : JsonRpcId), s.calls[call]? = some c →
    c.awaiting = some id → c.rejected = false ∧
      ∃ message, c.messages[c.handled]? = some message ∧ message.requestId = some id

theorem responses_turned {call : Nat} {c c' : Call V} {rs : List (JsonRpcResponse V)}
    (ht : Turned call c c' rs s s') (k i : Nat) :
    s'.responses k i =
      if call = k ∧ c.handled = i then s.responses k i ++ rs else s.responses k i := by
  rw [responses, ht.sent, List.filterMap_append, List.filterMap_map]
  split
  · next h =>
      congr 1
      refine Eq.trans ?_ (@List.filterMap_some _ rs)
      refine List.filterMap_congr fun r _ => ?_
      rw [Function.comp_apply, if_pos (by rw [h.1, h.2])]
  · next h =>
      refine (congrArg (s.responses k i ++ ·) (List.filterMap_eq_nil_iff.mpr fun r _ => ?_)).trans (List.append_nil _)
      rw [Function.comp_apply, if_neg]
      intro heq
      exact h (Prod.mk.inj (Option.some.inj heq))

theorem Answering.congr (h : s.Answering) (hcalls : s'.calls = s.calls)
    (hresponses : ∀ call index, s'.responses call index = s.responses call index) : s'.Answering := by
  obtain ⟨h1, h2, h3, h4⟩ := h
  refine ⟨?_, ?_, ?_, ?_⟩
  · rw [hcalls]
    exact fun call index hlt => (hresponses call index).trans (h1 call index hlt)
  · rw [hcalls]
    exact fun call index c hc hr hle => (hresponses call index).trans (h2 call index c hc hr hle)
  · rw [hcalls]
    intro call index c message id hc hm hid hdone
    rw [hresponses]
    exact h3 call index c message id hc hm hid hdone
  · rw [hcalls]
    exact h4

theorem Answering.turned (h : s.Answering) {call : Nat} {c c' : Call V}
    {rs : List (JsonRpcResponse V)} {message : JsonRpcMessage V} (hc : s.calls[call]? = some c)
    (hkept : c.rejected = false) (hmessage : c.messages[c.handled]? = some message)
    (ht : Turned call c c' rs s s') (hturn : Turn s c message.requestId rs c') : s'.Answering := by
  have hget : ∀ k, s'.calls[k]? = if call = k then some c' else s.calls[k]? := by
    intro k
    rw [ht.calls, List.getElem?_modify]
    split
    · next hk =>
        rw [← hk, hc]
        rfl
    · exact Option.map_id'
  have hresponses := responses_turned ht
  have hnone := h.ahead call c.handled c hc hkept le_rfl
  refine ⟨fun k i hlt => ?_, fun k i x hx hr hle => ?_, fun k i x m id hx hm hid hdone => ?_,
    fun k x id hx hawaiting => ?_⟩
  · have hlen := (List.getElem?_eq_some_iff.mp hc).1
    rw [ht.calls, List.length_modify] at hlt
    rw [hresponses, if_neg (by omega)]
    exact h.fresh k i hlt
  · rw [hget] at hx
    split at hx
    · next hk =>
        obtain rfl := Option.some.inj hx
        subst hk
        rw [hresponses]
        cases hturn with
        | finished replies hids =>
          have hle : c.handled + 1 ≤ i := hle
          rw [if_neg (by omega)]
          exact h.ahead call i c hc hkept (by omega)
        | rejected => cases hr
        | awaiting =>
          rw [List.append_nil, ite_self]
          exact h.ahead call i c hc hkept hle
    · next hk =>
        rw [hresponses, if_neg fun hn => hk hn.1]
        exact h.ahead k i x hx hr hle
  · rw [hget] at hx
    split at hx
    · next hk =>
        obtain rfl := Option.some.inj hx
        subst hk
        rw [hresponses]
        by_cases hi : c.handled = i
        · subst hi
          have hone : ∀ {m'}, c.messages[c.handled]? = some m' → m'.requestId = some id →
              rs.map JsonRpcResponse.id = message.requestId.toList →
              ∃ response, (if call = call ∧ c.handled = c.handled then s.responses call c.handled ++ rs
                else s.responses call c.handled) = [response] ∧ response.id = id := by
            intro m' hm' hid' hids
            rw [hmessage] at hm'
            obtain rfl := Option.some.inj hm'
            rw [hid'] at hids
            obtain ⟨r, hr, hrid⟩ := List.map_eq_singleton_iff.mp hids
            rw [if_pos ⟨rfl, rfl⟩, hnone, hr]
            exact ⟨r, rfl, hrid⟩
          cases hturn with
          | finished replies hids => exact hone hm hid hids
          | rejected hids => exact hone hm hid hids
          | awaiting =>
            rcases hdone with hlt | hr
            · exact absurd hlt (lt_irrefl _)
            · exact nomatch hkept.symm.trans hr
        · rw [if_neg fun hn => hi hn.2]
          cases hturn with
          | finished replies hids =>
            rcases hdone with hlt | hr
            · exact h.answered call i c m id hc hm hid (Or.inl (by
                have hlt : i < c.handled + 1 := hlt
                omega))
            · exact nomatch hkept.symm.trans hr
          | rejected hids hbehind =>
            by_cases hlt : i < c.handled
            · exact h.answered call i c m id hc hm hid (Or.inl hlt)
            · have hm : c.messages[i]? = some m := hm
              have hmem : m ∈ c.messages.drop (c.handled + 1) := by
                refine List.mem_of_getElem? (i := i - (c.handled + 1)) ?_
                rw [List.getElem?_drop, ← hm]
                congr 1
                omega
              exact nomatch hid.symm.trans (hbehind m hmem).1
          | awaiting => exact h.answered call i c m id hc hm hid hdone
    · next hk =>
        rw [hresponses, if_neg fun hn => hk hn.1]
        exact h.answered k i x m id hx hm hid hdone
  · rw [hget] at hx
    split at hx
    · obtain rfl := Option.some.inj hx
      cases hturn with
      | finished => cases hawaiting
      | rejected => cases hawaiting
      | awaiting hid => exact ⟨hkept, message, hmessage, hid.trans hawaiting⟩
    · exact h.awaiting k x id hx hawaiting

theorem Answering.handleMessage (h : s.Answering) (messages : List (JsonRpcMessage V)) :
    Answering { s with calls := s.calls ++ [⟨messages, 0, none, [], false⟩] } := by
  have hnew : ∀ {k : Nat} {x : Call V}, (s.calls ++ [⟨messages, 0, none, [], false⟩])[k]? = some x →
      s.calls[k]? = some x ∨ s.calls.length ≤ k ∧ x = ⟨messages, 0, none, [], false⟩ := by
    intro k x hx
    by_cases hk : k < s.calls.length
    · rw [List.getElem?_append_left hk] at hx
      exact Or.inl hx
    · rw [List.getElem?_append_right (by omega)] at hx
      exact Or.inr ⟨by omega, List.mem_singleton.mp (List.mem_of_getElem? hx)⟩
  refine ⟨fun k i hlt => ?_, fun k i x hx hr hle => ?_, fun k i x m id hx hm hid hdone => ?_,
    fun k x id hx hawaiting => ?_⟩
  · rw [List.length_append] at hlt
    exact h.fresh k i (by omega)
  · rcases hnew hx with hx | ⟨hk, -⟩
    · exact h.ahead k i x hx hr hle
    · exact h.fresh k i hk
  · rcases hnew hx with hx | ⟨-, rfl⟩
    · exact h.answered k i x m id hx hm hid hdone
    · rcases hdone with hlt | hr
      · exact absurd hlt (Nat.not_lt_zero i)
      · cases hr
  · rcases hnew hx with hx | ⟨-, rfl⟩
    · exact h.awaiting k x id hx hawaiting
    · cases hawaiting

theorem foldl_givenUp (h' : s'.Matched ledger) (hpending : ∀ entry ∈ s'.pendingRequests,
      entry ∈ s.pendingRequests) {call : Nat} {c c' : Call V} {rs : List (JsonRpcResponse V)}
    {id : Option JsonRpcId} (hc : s.calls[call]? = some c) (hkept : c.rejected = false)
    (ht : Turned call c c' rs s s') (hturn : Turn s c id rs c') :
    ((s.givenUp s' call).flatMap JsonRpcMessage.signals).foldl Ledger.apply ledger = ledger := by
  have hc' : s'.calls[call]? = some c' := by
    rw [ht.calls, List.getElem?_modify, hc]
    exact congrArg some (if_pos rfl)
  rw [givenUp, hc, hc']
  refine h'.foldl_signals fun message hmessage signal hsignal entry hentry => ?_
  simp only at hmessage
  split at hmessage
  · next hr =>
      cases hturn with
      | finished => exact nomatch hkept.symm.trans hr
      | rejected _ hbehind => exact (hbehind message hmessage).2 signal hsignal entry (hpending entry hentry)
      | awaiting => exact nomatch hkept.symm.trans hr
  · cases hmessage

theorem responses_send_none (s : JsonRpcProtocol V) (message : Outgoing V) (call index : Nat) :
    (s.send none message).responses call index = s.responses call index := by
  simp only [responses, send, List.filterMap_append]
  exact List.append_nil _

structure Untouched (s s' : JsonRpcProtocol V) : Prop where
  calls : s'.calls = s.calls
  sent : s'.sent = s.sent

theorem Answering.untouched (h : s.Answering) (hu : Untouched s s') : s'.Answering :=
  h.congr hu.calls fun call index => by rw [responses, responses, hu.sent]

theorem untouched_onCancellationRequested (promise : Nat) (d : Deferred V) (onCancelThrows : Bool) :
    Untouched s (s.onCancellationRequested promise d onCancelThrows) := by
  rw [onCancellationRequested]
  split
  · exact ⟨rfl, rfl⟩
  · simp only
    split
    · split
      · split <;> exact ⟨rfl, rfl⟩
      · split <;> exact ⟨rfl, rfl⟩
    · exact ⟨rfl, rfl⟩

theorem untouched_cancelAllRequests (s : JsonRpcProtocol V) : Untouched s s.cancelAllRequests := by
  have hfold : ∀ (entries : List (JsonRpcId × Nat)) (s₁ : JsonRpcProtocol V), Untouched s s₁ →
      Untouched s (entries.foldl (fun s entry => (s.delete entry.1).settle entry.2 .cancelled) s₁) := by
    intro entries
    induction entries with
    | nil => exact fun _ h => h
    | cons entry entries ih => exact fun s₁ h => ih _ ⟨h.calls, h.sent⟩
  exact hfold s.pendingRequests s ⟨rfl, rfl⟩

theorem step_spec (h : s.Matched ledger) (ha : s.Answering) {event : Event V}
    (hsafe : s.Safe event) (hstep : s.step event = some s') :
    s'.Matched ((s.signals event s').foldl Ledger.apply ledger) ∧ s'.Answering := by
  cases event with
  | sendRequest method params onCancel sendThrows =>
    obtain rfl := Option.some.inj hstep
    by_cases hdisposed : s.isDisposed = true
    · rw [signals, hdisposed, Bool.true_or, if_pos rfl, sendRequest, if_pos hdisposed]
      exact ⟨h, ha⟩
    · rw [Bool.not_eq_true] at hdisposed
      obtain rfl := hsafe hdisposed
      rw [signals, hdisposed, Bool.or_false, if_neg Bool.false_ne_true, sendRequest, if_neg (by simp [hdisposed])]
      exact ⟨h.push onCancel rfl rfl rfl, ha.congr rfl fun _ _ => responses_send_none _ _ _ _⟩
  | sendNotification method params =>
    obtain rfl := Option.some.inj hstep
    exact ⟨h.congr rfl rfl rfl, ha.congr rfl fun _ _ => responses_send_none _ _ _ _⟩
  | cancelToken promise onCancelThrows =>
    obtain ⟨d, hd, rfl⟩ := Option.map_eq_some_iff.mp hstep
    rw [signals, hd]
    exact ⟨h.settles (h.settles_onCancellationRequested hd (hsafe d hd)),
      ha.untouched (untouched_onCancellationRequested promise d onCancelThrows)⟩
  | cancelPendingRequest id =>
    obtain rfl := Option.some.inj hstep
    obtain ⟨hcalls, hsent⟩ := s.settle_get_calls id .cancelled
    exact ⟨h.settles (h.settles_get id .cancelled), ha.untouched ⟨hcalls, hsent⟩⟩
  | cancelAllRequests =>
    obtain rfl := Option.some.inj hstep
    exact ⟨h.settles h.settles_cancelAllRequests, ha.untouched (untouched_cancelAllRequests s)⟩
  | settled promise =>
    rw [step] at hstep
    split at hstep
    · next d hd =>
        split at hstep
        · next hsettled =>
            obtain rfl := Option.some.inj hstep
            have houtcome := ((Bool.and_eq_true _ _).mp hsettled).2
            have hlistener := h.settles_disposeListener hd houtcome
            have hgone : s.pendingRequests.filter (fun entry => entry.1 ≠ d.id) =
                s.pendingRequests := by
              refine List.filter_eq_self.mpr fun entry hentry => decide_eq_true fun heq => ?_
              exact h.not_pending hd houtcome hentry heq
            have hsettles : Settles (fun _ => none) s ((s.disposeListener promise).delete d.id) :=
              hlistener.congr_right rfl hgone rfl
            have hmatched := h.settles hsettles
            simp only [Option.or_none, List.map_id'] at hmatched
            exact ⟨hmatched, ha.untouched ⟨rfl, rfl⟩⟩
        · cases hstep
    · cases hstep
  | handleMessage messages =>
    obtain rfl := Option.some.inj hstep
    exact ⟨h.congr rfl rfl rfl, ha.handleMessage messages⟩
  | handleNext call callbacks =>
    rw [step] at hstep
    split at hstep
    · next c hc =>
        split at hstep
        · cases hstep
        · next hgoes =>
            rw [Bool.not_eq_true, Bool.or_eq_false_iff] at hgoes
            obtain ⟨message, hmessage, rfl⟩ := Option.map_eq_some_iff.mp hstep
            obtain ⟨⟨c', rs, hturned, hturn⟩, hpending, hmatched⟩ :=
              handleSingle_spec h hc message (hsafe c hc message hmessage)
            refine ⟨?_, ha.turned hc hgoes.2 hmessage hturned hturn⟩
            rw [signals, hc, Option.bind_some, hmessage]
            simp only [Option.toList_some, List.flatMap_append, List.foldl_append, List.flatMap_singleton]
            rwa [foldl_givenUp hmatched hpending hc hgoes.2 hturned hturn]
    · cases hstep
  | handlerSettled call result callbacks =>
    rw [step] at hstep
    split at hstep
    · next c hc =>
        obtain ⟨id, hid, rfl⟩ := Option.map_eq_some_iff.mp hstep
        obtain ⟨hkept, message, hmessage, hrequest⟩ := ha.awaiting call c id hc hid
        obtain ⟨c', rs, hturned, hturn⟩ := answer_turned hc id (hsafe c hc)
        have hkeeps := answer_kept (s := s) call c.handled id result callbacks
        have hmatched := h.kept hkeeps
        refine ⟨?_, ha.turned hc hkept hmessage hturned (hrequest ▸ hturn)⟩
        rw [signals]
        rwa [foldl_givenUp hmatched (fun _ he => hkeeps.pending ▸ he) hc hkept hturned hturn]
    · cases hstep
  | dispose =>
    obtain rfl := Option.some.inj hstep
    exact ⟨h.settles (h.settles_cancelAllRequests.congr_right rfl rfl rfl),
      ha.untouched ⟨(untouched_cancelAllRequests s).calls, (untouched_cancelAllRequests s).sent⟩⟩

theorem matched_new (handlesRequests : Bool) : Matched (new (V := V) handlesRequests) [] :=
  ⟨fun _ hd => (nomatch hd), fun _ _ hd => (nomatch hd), rfl, rfl, fun _ hd => (nomatch hd), rfl⟩

theorem answering_new (handlesRequests : Bool) : Answering (new (V := V) handlesRequests) :=
  ⟨fun _ _ _ => rfl, fun _ _ _ hc => (nomatch hc), fun _ _ _ _ _ hc => (nomatch hc), fun _ _ _ hc => (nomatch hc)⟩

theorem run_spec {events : List (Event V)} (h : s.Matched ledger) (ha : s.Answering)
    (hok : Guarded step Safe s events) (hrun : run step s events = some s') :
    s'.Matched (ledgerAfter s ledger events) ∧ s'.Answering := by
  induction events generalizing s ledger with
  | nil =>
    obtain rfl := Option.some.inj hrun
    exact ⟨h, ha⟩
  | cons event events ih =>
    rw [run_cons] at hrun
    obtain ⟨m, hm, hrun⟩ := Option.bind_eq_some_iff.mp hrun
    obtain ⟨h', ha'⟩ := step_spec h ha hok.1 hm
    rw [ledgerAfter, hm]
    exact ih h' ha' (hok.2 m hm) hrun

theorem ids_unsettled {ds : List (Deferred V)}
    (hids : ∀ (i : Nat) (d : Deferred V), ds[i]? = some d → d.id = .number (i + 1 : Nat)) :
    (unsettled ds).map (fun i => JsonRpcId.number (i + 1 : Nat)) =
      (ds.filter fun d => d.outcome.isNone).map Deferred.id := by
  induction ds using List.reverseRecOn with
  | nil => rfl
  | append_singleton ds d ih =>
    have hlast := hids ds.length d (by simp)
    have hfirst := ih fun i x hx => hids i x (by
      rw [List.getElem?_append_left (List.getElem?_eq_some_iff.mp hx).1, hx])
    have hopen : unsettled (ds ++ [d]) =
        unsettled ds ++ if d.outcome.isNone then [ds.length] else [] := by
      rw [unsettled, unsettled, List.length_append, List.length_singleton, List.range_succ, List.filter_append]
      congr 1
      · refine List.filter_congr fun i hi => ?_
        rw [List.getElem?_append_left (List.mem_range.mp hi)]
      · simp [List.filter_cons]
    rw [hopen, List.map_append, hfirst, List.filter_append, List.map_append]
    congr 1
    cases ho : d.outcome with
    | none => simp [ho, hlast]
    | some o => simp [ho]

/-- After every run with safe callbacks the promises are settled with the first that came for
each, the pending requests are the unsettled ones, and every request is answered once. -/
theorem matched_run (handlesRequests : Bool) {events : List (Event V)}
    (hok : Guarded step Safe (new handlesRequests) events)
    (hrun : run step (new handlesRequests) events = some s) :
    s.promises = ledgerAfter (new handlesRequests) [] events ∧
      s.pendingRequests.map Prod.fst = (ledgerAfter (new handlesRequests) [] events).unsettled ∧
      s.Answered := by
  obtain ⟨h, ha⟩ := run_spec (matched_new handlesRequests) (answering_new handlesRequests) hok hrun
  refine ⟨?_, ?_, fun call index c message id hc hm hid => ?_⟩
  · rw [← h.ledger, promises, List.filter_eq_self.mpr h.handedOut]
  · rw [← h.ledger, Ledger.unsettled, List.filter_map, List.map_map, h.pending, List.map_map]
    exact ids_unsettled h.ids
  · by_cases hdone : index < c.handled ∨ c.rejected = true
    · exact Or.inr (ha.answered call index c message id hc hm hid hdone)
    · obtain ⟨hle, hr⟩ := not_or.mp hdone
      rw [Bool.not_eq_true] at hr
      exact Or.inl ⟨ha.ahead call index c hc hr (not_lt.mp hle), hr, not_lt.mp hle⟩

/-- A request is sent, and the protocol is disposed of. -/
theorem matched_run_of_dispose :
    ∃ s : JsonRpcProtocol Nat,
      run step (new true) [.sendRequest "ping" none false false, .dispose] = some s ∧
        s.promises = ledgerAfter (new true) [] [.sendRequest "ping" none false false, .dispose] := by
  refine ⟨_, rfl, ?_⟩
  exact (@matched_run Nat _ true [.sendRequest "ping" none false false, .dispose]
    ⟨fun _ => rfl, fun _ _ => ⟨trivial, fun _ _ => trivial⟩⟩ rfl).1

/-- A result that cannot be sent is answered again with an error. -/
theorem not_matched_run_of_send_throws :
    ¬∀ (handlesRequests : Bool) (events : List (Event Nat)) (s : JsonRpcProtocol Nat),
      run step (new handlesRequests) events = some s →
      s.promises = ledgerAfter (new handlesRequests) [] events ∧
        s.pendingRequests.map Prod.fst = (ledgerAfter (new handlesRequests) [] events).unsettled ∧
        s.Answered := by
  intro h
  let request : JsonRpcMessage Nat := ⟨some (.text "a"), some "ping", none, none, none⟩
  have hanswered := (h true
    [.handleMessage [request], .handleNext 0 ⟨some (.value 1), false, some .other, none⟩] _ rfl).2.2
  rcases hanswered 0 0 _ request (.text "a") rfl rfl rfl with ⟨hnone, -⟩ | ⟨response, hone, -⟩
  · have htwo : (2 : Nat) = 0 := congrArg List.length hnone
    omega
  · have htwo : (2 : Nat) = 1 := congrArg List.length hone
    omega

end Gavea.JsonRpc.JsonRpcProtocol
