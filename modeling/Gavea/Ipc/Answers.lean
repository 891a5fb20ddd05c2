import Gavea.Ipc.ChannelServer

namespace Gavea.Ipc.ChannelServer

open Gavea.Lib.Runs

variable {α : Type} {s s' : ChannelServer α} {listenThrows : ChannelRequest α → Bool}

def promiseRequests (es : List (Event α)) : List (ChannelRequest α) :=
  es.filterMap fun
    | .message (.channel request) => if request.type = .promise then some request else none
    | _ => none

structure AnswersOnce (es : List (Event α)) (s : ChannelServer α) : Prop where
  called_once : ∀ id, s.calls.countP (·.request.id = id) ≤ 1
  answered_once : ∀ id, s.sent.countP (RawResponse.answers id) ≤ 1
  not_called : ∀ r ∈ s.timedOut, r.type = .promise → ∀ call ∈ s.calls, call.request.id ≠ r.id
  in_order : ∀ c, ((s.calls.map (·.request)).filter (·.channelName = c)).Sublist
    ((promiseRequests es).filter (·.channelName = c))

def armed (s : ChannelServer α) (p : PendingRequest α) : Bool := s.timers.any (·.1 = p.timeoutTimer)

def InTurn (s : ChannelServer α) : Event α → Prop
  | .message (.channel request) =>
    request.type = .promise → request.channelName ∈ s.channels →
      ∀ p ∈ s.pendingOf request.channelName, p.request.type = .promise → s.armed p = false
  | .flush c => ∀ p ∈ s.pendingOf c, p.request.type = .promise → s.armed p = true
  | _ => True

instance InTurn.decidable (s : ChannelServer α) : (e : Event α) → Decidable (InTurn s e)
  | .message (.channel request) =>
    inferInstanceAs (Decidable (request.type = .promise → request.channelName ∈ s.channels →
      ∀ p ∈ s.pendingOf request.channelName, p.request.type = .promise → s.armed p = false))
  | .flush c => inferInstanceAs (Decidable (∀ p ∈ s.pendingOf c, p.request.type = .promise → s.armed p = true))
  | .message (.promiseCancel _) | .message (.eventDispose _) | .registerChannel _ | .timeout _
  | .settle _ _ | .finalize _ | .fire _ _ | .dispose => inferInstanceAs (Decidable True)

def callsOf (s : ChannelServer α) (c : String) : List (ChannelRequest α) :=
  (s.calls.map (·.request)).filter (·.channelName = c)

def armedOf (s : ChannelServer α) (c : String) : List (ChannelRequest α) := promisesOf ((s.pendingOf c).filter s.armed)

def isPromise (id : Nat) (r : ChannelRequest α) : Bool := r.type = .promise ∧ r.id = id

/-- Every promise request that came in is accounted for at most once, as passed on, timed
out or waiting, and the waiting ones follow those that were passed on to the same channel. -/
structure Ledger (past : List (Event α)) (s : ChannelServer α) : Prop where
  waiting : Waiting s
  order : ∀ c, (s.callsOf c ++ s.armedOf c).Sublist ((promiseRequests past).filter (·.channelName = c))
  count : ∀ id, (s.calls.map (·.request)).countP (·.id = id) + s.timedOut.countP (isPromise id) +
    (s.timers.map (·.2)).countP (isPromise id) ≤ (promiseRequests past).countP (·.id = id)

def answerOf (call : Call α) : Bool × Nat := (call.settled, call.request.id)

def Answered (s : ChannelServer α) : Prop :=
  ∀ id, s.sent.countP (RawResponse.answers id) ≤
    (s.calls.map answerOf).count (true, id) + s.timedOut.countP (isPromise id)

theorem armedOf_sublist {c : String} (hpending : s'.pendingOf c = s.pendingOf c)
    (htimers : s'.timers ⊆ s.timers) : (s'.armedOf c).Sublist (s.armedOf c) := by
  rw [armedOf, armedOf, hpending]
  refine ((List.monotone_filter_right _ fun p hp => ?_).map _).filter _
  simp only [armed, List.any_eq_true] at hp ⊢
  exact hp.imp fun t ht => ⟨htimers ht.1, ht.2⟩

theorem Ledger.frame {past past' : List (Event α)} (hl : Ledger past s) (hw : Waiting s')
    (hpast : promiseRequests past' = promiseRequests past)
    (hcalls : s'.calls.map (·.request) = s.calls.map (·.request))
    (hpending : s'.pendingRequests = s.pendingRequests) (htimers : s'.timers.Sublist s.timers)
    (htimedOut : s'.timedOut = s.timedOut) : Ledger past' s' where
  waiting := hw
  order c := by
    have hpending : s'.pendingOf c = s.pendingOf c := by rw [pendingOf, hpending, pendingOf]
    rw [hpast, callsOf, hcalls]
    exact ((List.Sublist.refl _).append (armedOf_sublist hpending htimers.subset)).trans (hl.order c)
  count id := by
    have ht := (htimers.map (·.2)).countP_le (p := isPromise id)
    have := hl.count id
    rw [hcalls, htimedOut, hpast]
    omega

theorem Ledger.call {past : List (Event α)} (hl : Ledger past s) {r : ChannelRequest α}
    (htype : r.type = .promise) (hidle : s.armedOf r.channelName = []) (hw : Waiting s')
    (hcalls : s'.calls.map (·.request) = s.calls.map (·.request) ++ [r])
    (hpending : s'.pendingRequests = s.pendingRequests) (htimers : s'.timers = s.timers)
    (htimedOut : s'.timedOut = s.timedOut) :
    Ledger (past ++ [.message (.channel r)]) s' where
  waiting := hw
  order c := by
    have harmed : s'.armedOf c = s.armedOf c := by
      have : s'.armed = s.armed := by
        funext p
        simp only [armed, htimers]
      simp only [armedOf, pendingOf, hpending, this]
    have hold := hl.order c
    rw [promiseRequests, List.filterMap_append, List.filter_append, ← promiseRequests, harmed]
    simp only [callsOf, hcalls, List.filter_append, htype, List.filterMap_cons, List.filterMap_nil, if_true]
    by_cases hc : r.channelName = c
    · subst hc
      rw [hidle, List.append_nil] at hold ⊢
      exact hold.append (List.Sublist.refl _)
    · simpa [callsOf, hc] using hold
  count id := by
    have hold := hl.count id
    rw [hcalls, htimedOut, htimers, promiseRequests, List.filterMap_append, ← promiseRequests]
    simp only [htype, List.filterMap_cons, List.filterMap_nil, if_true, List.countP_append]
    omega

theorem Ledger.collect {past : List (Event α)} (hl : Ledger past s) (r : ChannelRequest α) :
    Ledger (past ++ [.message (.channel r)]) (s.collectPendingRequest r) where
  waiting := hl.waiting.collect r
  order c := by
    have hnew : s.collectPendingRequest r |>.armed ⟨r, s.nextTimer⟩ := by
      simp [armed, collectPendingRequest]
    have hold : ∀ p ∈ s.pendingOf c, (s.collectPendingRequest r).armed p = s.armed p := by
      intro p hp
      have := hl.waiting.fresh c p hp
      simp [armed, collectPendingRequest, this.ne']
    have harmed : (s.collectPendingRequest r).armedOf c = s.armedOf c ++
        if c = r.channelName then [r].filter (·.type = .promise) else [] := by
      rw [armedOf, pendingOf_collect, List.filter_append, List.filter_congr hold, promisesOf_append, armedOf]
      split_ifs <;> simp [promisesOf, hnew]
    rw [promiseRequests, List.filterMap_append, List.filter_append, ← promiseRequests, harmed, ← List.append_assoc]
    refine (hl.order c).append ?_
    by_cases htype : r.type = .promise <;> by_cases hc : c = r.channelName <;> simp [htype, hc, Ne.symm]
  count id := by
    have hold := hl.count id
    rw [promiseRequests, List.filterMap_append, ← promiseRequests]
    simp only [collectPendingRequest, List.map_append, List.countP_append]
    by_cases htype : r.type = .promise <;> simp [htype, isPromise, List.countP_cons] at hold ⊢ <;> omega

theorem countP_clear {ρ : Type} {timers : List (Nat × ρ)} {timer : Nat} {r : ρ}
    (ht : (timer, r) ∈ timers) (q : ρ → Bool) :
    ((timers.filter (·.1 ≠ timer)).map (·.2)).countP q + [r].countP q ≤
      (timers.map (·.2)).countP q := by
  simp only [List.countP_map]
  rw [List.countP_eq_countP_filter_add timers (q ∘ (·.2)) (·.1 ≠ timer)]
  have hmem : (timer, r) ∈ timers.filter fun t => !decide (t.1 ≠ timer) := by simp [ht]
  have := (List.singleton_sublist.mpr hmem).countP_le (p := q ∘ (·.2))
  simpa only [List.countP_singleton, Function.comp] using Nat.add_le_add_left this _

theorem countP_clearAll {timers : List (Nat × ChannelRequest α)} {handled : List (PendingRequest α)}
    (hnodup : (handled.map (·.timeoutTimer)).Nodup)
    (hmem : ∀ p ∈ handled, p.request.type = .promise → (p.timeoutTimer, p.request) ∈ timers)
    (id : Nat) :
    ((timers.filter fun t => ∀ p ∈ handled, t.1 ≠ p.timeoutTimer).map (·.2)).countP
        (isPromise id) + (promisesOf handled).countP (·.id = id) ≤
      (timers.map (·.2)).countP (isPromise id) := by
  induction handled generalizing timers with
  | nil => simp [promisesOf]
  | cons p rest ih =>
    rw [List.map_cons, List.nodup_cons] at hnodup
    have hkept : ∀ q ∈ rest, q.request.type = .promise →
        (q.timeoutTimer, q.request) ∈ timers.filter (·.1 ≠ p.timeoutTimer) := by
      intro q hq htype
      refine List.mem_filter.mpr ⟨hmem q (List.mem_cons_of_mem p hq) htype, ?_⟩
      exact decide_eq_true fun heq => hnodup.1 (heq ▸ List.mem_map_of_mem hq)
    have hrest := ih hnodup.2 hkept
    have hsplit : (timers.filter fun t => ∀ q ∈ p :: rest, t.1 ≠ q.timeoutTimer) =
        (timers.filter (·.1 ≠ p.timeoutTimer)).filter
          fun t => ∀ q ∈ rest, t.1 ≠ q.timeoutTimer := by
      rw [List.filter_filter]
      congr 1
      funext t
      simp [Bool.and_comm]
    rw [hsplit]
    by_cases htype : p.request.type = .promise
    · have hp := countP_clear (hmem p List.mem_cons_self htype) (isPromise id)
      have hone : (promisesOf (p :: rest)).countP (·.id = id) =
          (promisesOf rest).countP (·.id = id) + [p.request].countP (isPromise id) := by
        simp [promisesOf, htype, isPromise, List.countP_cons]
      omega
    · have hone : promisesOf (p :: rest) = promisesOf rest := by simp [promisesOf, htype]
      have := (List.filter_sublist (p := (·.1 ≠ p.timeoutTimer)) (l := timers)).map (·.2)
        |>.countP_le (p := isPromise id)
      rw [hone]
      omega

theorem promisesOf_filter {l : List (PendingRequest α)} {q : PendingRequest α → Bool}
    (h : ∀ p ∈ l, p.request.type = .promise → q p = true) :
    promisesOf (l.filter q) = promisesOf l := by
  simp only [promisesOf, List.filter_map, List.filter_filter]
  congr 1
  refine List.filter_congr fun p hp => ?_
  by_cases htype : p.request.type = .promise
  · simp [htype, h p hp htype]
  · simp [htype]

theorem Ledger.timeout {past past' : List (Event α)} (hl : Ledger past s) {timer : Nat}
    {r : ChannelRequest α} (hpast : promiseRequests past' = promiseRequests past)
    (harmed : (timer, r) ∈ s.timers) : Ledger past' (s.onTimeout timer r) := by
  have hcalls : (s.onTimeout timer r).calls = s.calls := by
    rw [onTimeout]
    cases r.type <;> rfl
  have htimers : (s.onTimeout timer r).timers = s.timers.filter (·.1 ≠ timer) := by
    rw [onTimeout]
    cases r.type <;> rfl
  have htimedOut : (s.onTimeout timer r).timedOut = s.timedOut ++ [r] := by
    rw [onTimeout]
    cases r.type <;> rfl
  have hsettles := settles_onTimeout (s := s) timer r
  refine ⟨hl.waiting.settles hsettles, fun c => ?_, fun id => ?_⟩
  · rw [hpast, callsOf, hcalls]
    exact ((List.Sublist.refl _).append (armedOf_sublist (hsettles.pendingOf c) hsettles.timers)).trans (hl.order c)
  · have hclear := countP_clear harmed (isPromise id)
    have := hl.count id
    rw [hcalls, htimers, htimedOut, hpast, List.countP_append]
    omega

theorem Ledger.flush {past past' : List (Event α)} (hl : Ledger past s) {c : String}
    {handled : List (PendingRequest α)} (hpast : promiseRequests past' = promiseRequests past)
    (hok : ∀ p ∈ s.pendingOf c, p.request.type = .promise → s.armed p = true)
    (hf : Flushed s s' c handled) : Ledger past' s' := by
  have hw := hl.waiting
  obtain ⟨rest, hsplit⟩ := hf.prefix_pending
  obtain ⟨m, hd, heq⟩ := hf.dispatched
  have hcalls : s'.calls.map (·.request) = s.calls.map (·.request) ++ promisesOf handled := by
    rw [heq, hd.calls, List.map_append, List.map_map]
    exact congrArg _ (List.map_id _)
  have htimers : s'.timers = s.timers.filter fun t => ∀ p ∈ handled, t.1 ≠ p.timeoutTimer := by
    rw [heq, hd.timers_eq]
  have hmem : ∀ p ∈ handled, p ∈ s.pendingOf c := fun p hp => hsplit ▸ List.mem_append_left rest hp
  have hchannel : ∀ r ∈ promisesOf handled, r.channelName = c := fun r hr => by
    obtain ⟨p, hp, rfl⟩ := List.mem_map.mp (List.mem_filter.mp hr).1
    exact hw.key c p (hmem p hp)
  refine ⟨hw.flush hf, fun c' => ?_, fun id => ?_⟩
  · have hold := hl.order c'
    rw [hpast, callsOf, hcalls, List.filter_append]
    by_cases hc : c' = c
    · subst hc
      have hwaiting : s.armedOf c' = promisesOf handled ++ promisesOf rest := by
        rw [armedOf, promisesOf_filter hok, ← promisesOf_append, hsplit]
      have hleft : (s'.armedOf c').Sublist (promisesOf rest) := by
        rcases hf.pending with hpending | ⟨_, hpending⟩
        · have hgone : handled.filter s'.armed = [] := List.filter_eq_nil_iff.mpr fun p hp => by
            simp only [armed, htimers, List.any_eq_true, not_exists, not_and]
            intro t ht htimer
            exact of_decide_eq_true (List.mem_filter.mp ht).2 p hp (of_decide_eq_true htimer)
          have hsame : s'.pendingOf c' = s.pendingOf c' := by rw [pendingOf, hpending, pendingOf]
          rw [armedOf, hsame, ← hsplit, List.filter_append, hgone, List.nil_append]
          exact (List.filter_sublist.map _).filter _
        · simp [armedOf, pendingOf, hpending, promisesOf]
      have hall : (promisesOf handled).filter (·.channelName = c') = promisesOf handled :=
        List.filter_eq_self.mpr fun r hr => decide_eq_true (hchannel r hr)
      rw [hall, List.append_assoc]
      rw [hwaiting] at hold
      exact ((List.Sublist.refl _).append ((List.Sublist.refl _).append hleft)).trans hold
    · have hnone : (promisesOf handled).filter (·.channelName = c') = [] :=
        List.filter_eq_nil_iff.mpr fun r hr => by simp [hchannel r hr, Ne.symm hc]
      have hpending : s'.pendingOf c' = s.pendingOf c' := by
        rcases hf.pending with h | ⟨_, h⟩ <;> simp [pendingOf, h, hc]
      rw [hnone, List.append_nil]
      refine ((List.Sublist.refl _).append (armedOf_sublist hpending ?_)).trans hold
      rw [htimers]
      exact fun _ ht => (List.mem_filter.mp ht).1
  · have hnodup : (handled.map (·.timeoutTimer)).Nodup := by
      have := hw.nodup c
      rw [← hsplit, List.map_append] at this
      exact this.of_append_left
    have hrunning : ∀ p ∈ handled, p.request.type = .promise →
        (p.timeoutTimer, p.request) ∈ s.timers := by
      intro p hp htype
      obtain ⟨t, ht, htimer⟩ := List.any_eq_true.mp (hok p (hmem p hp) htype)
      rwa [hw.timer_mem (hmem p hp) ht (of_decide_eq_true htimer)] at ht
    have hclear := countP_clearAll hnodup hrunning id
    have := hl.count id
    have htimedOut : s'.timedOut = s.timedOut := by rw [heq, hd.timedOut]
    rw [hcalls, htimers, htimedOut, hpast, List.countP_append]
    omega

section Calls

variable {β : Type} {f : Call α → β}

theorem map_set_calls {k : Nat} {call call' : Call α} (hk : s.calls[k]? = some call)
    (hf : f call' = f call) : (s.calls.set k call').map f = s.calls.map f := by
  obtain ⟨hlt, rfl⟩ := List.getElem?_eq_some_iff.mp hk
  rw [List.map_set, hf, ← List.getElem_map f (h := by simpa using hlt), List.set_getElem_self]

theorem map_calls_disposeActiveRequest (hf : ∀ call, f { call with cancelled := true } = f call)
    (id : Nat) : (s.disposeActiveRequest id).calls.map f = s.calls.map f := by
  rw [disposeActiveRequest]
  split
  · next d _ =>
    cases d with
    | cancelCall k =>
      refine List.ext_getElem? fun i => ?_
      simp only [deleteActive, dispose1, List.getElem?_map, List.getElem?_modify]
      cases s.calls[i]? with
      | none => rfl
      | some call =>
        split_ifs
        · exact congrArg some (hf call)
        · rfl
    | endSubscription k => rfl
  · rfl

theorem map_calls_disposeAll (hf : ∀ call, f { call with cancelled := true } = f call) :
    s.disposeAll.calls.map f = s.calls.map f := by
  refine List.ext_getElem? fun i => ?_
  simp only [disposeAll, List.getElem?_map, List.getElem?_mapIdx]
  cases s.calls[i]? with
  | none => rfl
  | some call =>
    simp only [Option.map_some, Option.some.injEq]
    split_ifs
    · exact hf call
    · rfl

end Calls

theorem Ledger.disposeActiveRequest {past past' : List (Event α)} (hl : Ledger past s) (id : Nat)
    (hpast : promiseRequests past' = promiseRequests past) :
    Ledger past' (s.disposeActiveRequest id) := by
  have hs := settles_disposeActiveRequest (s := s) id
  have hkept : (s.disposeActiveRequest id).timers = s.timers ∧
      (s.disposeActiveRequest id).timedOut = s.timedOut := by
    rw [ChannelServer.disposeActiveRequest]
    split
    · next d _ => cases d <;> exact ⟨rfl, rfl⟩
    · exact ⟨rfl, rfl⟩
  exact hl.frame (hl.waiting.settles hs) hpast (map_calls_disposeActiveRequest (fun _ => rfl) id)
    hs.pending (hkept.1 ▸ List.Sublist.refl _) hkept.2

theorem Ledger.step {past : List (Event α)} (hl : Ledger past s) {e : Event α} (hok : InTurn s e)
    (h : Occurs listenThrows s e s') : Ledger (past ++ [e]) s' := by
  have hw := hl.waiting.step h
  cases h with
  | message request =>
    cases request with
    | channel r =>
      rw [onRawMessage] at hw ⊢
      by_cases hc : r.channelName ∈ s.channels
      · cases hrun : s.onRequest listenThrows r with
        | none =>
          have htype := onRequest_eq_none hrun
          exact hl.frame hl.waiting (by simp [promiseRequests, htype]) rfl rfl (List.Sublist.refl _) rfl
        | some s1 =>
          rw [hrun] at hw
          rcases onRequest_of_mem hc hrun with ⟨htype, rfl⟩ | ⟨htype, rfl⟩
          · have hidle : s.armedOf r.channelName = [] := by
              refine List.filter_eq_nil_iff.mpr fun q hq => ?_
              obtain ⟨p, hp, rfl⟩ := List.mem_map.mp hq
              obtain ⟨hp, harmed⟩ := List.mem_filter.mp hp
              intro hpromise
              have := hok htype hc p hp (of_decide_eq_true hpromise)
              rw [harmed] at this
              cases this
            exact hl.call htype hidle hw (by simp [setActive]) rfl rfl rfl
          · exact hl.frame hw (by simp [promiseRequests, htype]) rfl rfl (List.Sublist.refl _) rfl
      · rw [onRequest_of_not_mem hc]
        exact hl.collect r
    | promiseCancel id => exact hl.disposeActiveRequest id (by simp [promiseRequests])
    | eventDispose id => exact hl.disposeActiveRequest id (by simp [promiseRequests])
  | registerChannel c => exact hl.frame hw (by simp [promiseRequests]) rfl rfl (List.Sublist.refl _) rfl
  | timeout timer request harmed => exact hl.timeout (by simp [promiseRequests]) harmed
  | flush c hc =>
    obtain ⟨handled, hf⟩ := hl.waiting.due listenThrows hc
    have hl' : Ledger past { s with flushTimers := s.flushTimers.erase c } :=
      hl.frame (hl.waiting.settles (settles_flushTimer c)) rfl rfl rfl (List.Sublist.refl _) rfl
    exact hl'.flush (by simp [promiseRequests]) hok hf
  | settle k call settlement hk =>
    exact hl.frame hw (by simp [promiseRequests]) (map_set_calls hk rfl) rfl (List.Sublist.refl _) rfl
  | finalize k call hk =>
    exact hl.frame hw (by simp [promiseRequests]) (map_set_calls hk rfl) rfl (List.Sublist.refl _) rfl
  | fire k data subscription hk => exact hl.frame hw (by simp [promiseRequests]) rfl rfl (List.Sublist.refl _) rfl
  | dispose =>
    exact hl.frame hw (by simp [promiseRequests]) (map_calls_disposeAll fun _ => rfl) rfl (List.Sublist.refl _) rfl

theorem Answered.frame (ha : Answered s)
    (hcalls : s'.calls.map answerOf = s.calls.map answerOf)
    (htimedOut : s'.timedOut = s.timedOut)
    (hsent : ∀ id, s'.sent.countP (RawResponse.answers id) = s.sent.countP (RawResponse.answers id)) :
    Answered s' := fun id => by
  rw [hsent, hcalls, htimedOut]
  exact ha id

theorem Answered.disposeActiveRequest (ha : Answered s) (id : Nat) :
    Answered (s.disposeActiveRequest id) := by
  refine ha.frame (map_calls_disposeActiveRequest (fun _ => rfl) id) ?_ fun _ => ?_ <;>
  · rw [ChannelServer.disposeActiveRequest]
    split
    · next d _ => cases d <;> rfl
    · rfl

theorem Answered.timeout (ha : Answered s) (timer : Nat) (r : ChannelRequest α) :
    Answered (s.onTimeout timer r) := fun id => by
  have := ha id
  rw [onTimeout]
  cases htype : r.type <;>
    simp [sendResponse, unknownChannel, RawResponse.answers, isPromise, htype, List.countP_cons] <;> omega

theorem Answered.settle (ha : Answered s) {k : Nat} {call : Call α} (hk : s.calls[k]? = some call)
    (hrunning : call.settled = false) (settlement : Settlement α) :
    Answered (s.onSettled k call settlement) := fun id => by
  have hold := ha id
  obtain ⟨hlt, rfl⟩ := List.getElem?_eq_some_iff.mp hk
  have hlen : k < (s.calls.map answerOf).length := by rwa [List.length_map]
  have hcalls : (s.onSettled k s.calls[k] settlement).calls.map answerOf =
      (s.calls.map answerOf).set k (true, s.calls[k].request.id) := List.map_set
  have hk : (s.calls.map answerOf)[k] = (false, s.calls[k].request.id) := by
    rw [List.getElem_map, answerOf, hrunning]
  have hsent : (s.onSettled k s.calls[k] settlement).sent.countP (RawResponse.answers id) =
      s.sent.countP (RawResponse.answers id) + if s.calls[k].request.id = id then 1 else 0 := by
    cases settlement <;> simp [onSettled, sendResponse, Settlement.response, RawResponse.answers, List.countP_cons]
  rw [hsent, hcalls, List.count_set hlen, hk]
  simp only [onSettled, sendResponse, beq_iff_eq, Prod.mk.injEq, true_and, false_and, Bool.false_eq_true, if_false]
  omega

theorem Answered.step (ha : Answered s) (hw : Waiting s) {e : Event α}
    (h : Occurs listenThrows s e s') : Answered s' := by
  cases h with
  | message request =>
    cases request with
    | channel r =>
      rw [onRawMessage]
      by_cases hc : r.channelName ∈ s.channels
      · cases hrun : s.onRequest listenThrows r with
        | none => exact ha
        | some s1 =>
          rcases onRequest_of_mem hc hrun with ⟨_, rfl⟩ | ⟨_, rfl⟩
          · intro id
            have := ha id
            simp only [setActive, Option.getD_some, List.map_append, List.count_append]
            omega
          · exact ha
      · rw [onRequest_of_not_mem hc]
        exact ha
    | promiseCancel id => exact ha.disposeActiveRequest id
    | eventDispose id => exact ha.disposeActiveRequest id
  | registerChannel c => exact ha
  | timeout timer request => exact ha.timeout timer request
  | flush c hc =>
    obtain ⟨handled, hf⟩ := hw.due listenThrows hc
    obtain ⟨m, hd, heq⟩ := hf.dispatched
    intro id
    have := ha id
    rw [heq]
    simp only [hd.sent, hd.calls, hd.timedOut, List.map_append, List.count_append]
    omega
  | settle k call settlement hk hrunning => exact ha.settle hk hrunning settlement
  | finalize k call hk => exact ha.frame (map_set_calls hk rfl) rfl fun _ => rfl
  | fire k data subscription hk => exact ha.frame rfl rfl fun id => by simp [sendResponse, RawResponse.answers]
  | dispose => exact ha.frame (map_calls_disposeAll fun _ => rfl) rfl fun _ => rfl

theorem ledger_new (timeoutDelay : Nat) : Ledger [] (new timeoutDelay : ChannelServer α) where
  waiting := waiting_new timeoutDelay
  order c := by simp [new, callsOf, armedOf, pendingOf, promisesOf]
  count id := by simp [new, promiseRequests]

theorem answered_new (timeoutDelay : Nat) : Answered (new timeoutDelay : ChannelServer α) :=
  fun id => by simp [new, RawResponse.answers]

theorem Ledger.answersOnce {es : List (Event α)} (hl : Ledger es s) (ha : Answered s)
    (hids : ((promiseRequests es).map (·.id)).Nodup) : AnswersOnce es s := by
  have hone : ∀ id, (promiseRequests es).countP (·.id = id) ≤ 1 := fun id => by
    have := List.nodup_iff_count_le_one.mp hids id
    rw [List.count, List.countP_map] at this
    refine (List.countP_mono_left fun r _ h => ?_).trans this
    exact beq_iff_eq.mpr (of_decide_eq_true h)
  have hcalls : ∀ id, (s.calls.map (·.request)).countP (·.id = id) =
      s.calls.countP (·.request.id = id) := fun id => by
    rw [List.countP_map]
    rfl
  refine ⟨fun id => ?_, fun id => ?_, fun r hr htype call hcall heq => ?_, fun c => ?_⟩
  · have := hl.count id
    have := hone id
    have := hcalls id
    omega
  · have hsettled : (s.calls.map answerOf).count (true, id) ≤
        s.calls.countP (·.request.id = id) := by
      rw [List.count, List.countP_map]
      exact List.countP_mono_left fun call _ h => by
        simp only [answerOf, Function.comp, beq_iff_eq, Prod.mk.injEq] at h
        exact decide_eq_true h.2
    have := hl.count id
    have := hone id
    have := hcalls id
    have := ha id
    omega
  · have hcall : 0 < s.calls.countP (·.request.id = r.id) := List.countP_pos_iff.mpr ⟨call, hcall, decide_eq_true heq⟩
    have hr : 0 < s.timedOut.countP (isPromise r.id) := List.countP_pos_iff.mpr ⟨r, hr, by simp [isPromise, htype]⟩
    have := hl.count r.id
    have := hone r.id
    have := hcalls r.id
    omega
  · exact (List.sublist_append_left _ _).trans (hl.order c)

theorem ledger_run {es : List (Event α)} {timeoutDelay : Nat}
    (hok : Guarded (step listenThrows) InTurn (new timeoutDelay) es)
    (hrun : run (step listenThrows) (new timeoutDelay) es = some s) :
    Ledger es s ∧ Answered s :=
  guarded_run_invariant (fun past s => Ledger past s ∧ Answered s)
    (fun _ _ _ _ h hok hstep => ⟨h.1.step hok (occurs_of_step hstep), h.2.step h.1.waiting (occurs_of_step hstep)⟩)
    [] ⟨ledger_new timeoutDelay, answered_new timeoutDelay⟩ hok hrun

/-- As long as no request overtakes another and no flush meets a request that is already
dealt with, requests with distinct ids are answered once and passed on in order. -/
theorem answersOnce_of_inTurn (listenThrows : ChannelRequest α → Bool) (timeoutDelay : Nat)
    (es : List (Event α))
    (hids : ((promiseRequests es).map (·.id)).Nodup)
    (hok : Guarded (step listenThrows) InTurn (new timeoutDelay) es)
    (hrun : run (step listenThrows) (new timeoutDelay) es = some s) : AnswersOnce es s :=
  have h := ledger_run hok hrun
  h.1.answersOnce h.2 hids

/-- A request that comes before its channel and one that comes after the flush. -/
theorem answersOnce_of_inTurn_registered_late :
    AnswersOnce
      [.message (.channel ⟨.promise, 0, "storage", "read", 7⟩), .registerChannel "storage",
        .flush "storage", .message (.channel ⟨.promise, 1, "storage", "read", 8⟩),
        .settle 1 (.fulfilled 80), .settle 0 (.fulfilled 70), .finalize 1, .finalize 0]
      ((run (step fun _ => false) (new 1000)
        [.message (.channel ⟨.promise, 0, "storage", "read", 7⟩), .registerChannel "storage",
          .flush "storage", .message (.channel ⟨.promise, 1, "storage", "read", 8⟩),
          .settle 1 (.fulfilled 80), .settle 0 (.fulfilled 70), .finalize 1, .finalize 0]).getD
        (new 1000)) :=
  answersOnce_of_inTurn (fun _ => false) 1000 _ (by decide) (by decide) rfl

/-- A request that has timed out is passed on by the flush all the same, and answered again. -/
theorem not_answersOnce_timeout_before_flush :
    ¬ ∀ (listenThrows : ChannelRequest Nat → Bool) (timeoutDelay : Nat) (es : List (Event Nat))
      (s : ChannelServer Nat), ((promiseRequests es).map (·.id)).Nodup →
        run (step listenThrows) (new timeoutDelay) es = some s → AnswersOnce es s := by
  intro h
  have := (h (fun _ => false) 1000
    [.message (.channel ⟨.promise, 0, "storage", "read", 7⟩), .timeout 0,
      .registerChannel "storage", .flush "storage", .settle 0 (.fulfilled 70)]
    _ (by decide) rfl).answered_once 0
  revert this
  decide

/-- A request that comes between the registration and the flush overtakes. -/
example : ((run (step fun _ => false) (new 1000)
    [.message (.channel ⟨.promise, 0, "storage", "read", 7⟩), .registerChannel "storage",
      .message (.channel ⟨.promise, 1, "storage", "read", 8⟩), .flush "storage"]).map
    fun s => s.calls.map (·.request.id)) = some [1, 0] := by decide

end Gavea.Ipc.ChannelServer
