import Gavea.Ipc.ChannelServer

namespace Gavea.Ipc.ChannelServer

open Gavea.Lib.Runs

variable {α : Type} {s s' : ChannelServer α} {listenThrows : ChannelRequest α → Bool} {id : Nat}

def Cancels (id : Nat) : Event α → Prop
  | .message (.promiseCancel id') | .message (.eventDispose id') => id' = id
  | _ => False

def Requests (id : Nat) : Event α → Prop
  | .message (.channel request) => request.id = id
  | _ => False

structure Released (s : ChannelServer α) (id : Nat) : Prop where
  subscription : ∀ subscription ∈ s.subscriptions, subscription.request.id = id → subscription.live = false
  call : ∀ call ∈ s.calls, call.request.id = id → call.cancelled = true ∨ call.settled = true

def Pending (s : ChannelServer α) (id : Nat) : Prop := ∃ c, ∃ p ∈ s.pendingOf c, p.request.id = id

def InUse (s : ChannelServer α) (id : Nat) : Prop :=
  (∃ call ∈ s.calls, call.request.id = id ∧ call.finalized = false) ∨
    ∃ subscription ∈ s.subscriptions, subscription.request.id = id ∧ subscription.live = true

/-- No id is cancelled that waits for its channel, and none is used twice at a time: not by
a new request, and not by a flush after one that was left by an exception. -/
def InReach (s : ChannelServer α) : Event α → Prop
  | .message (.channel request) => ¬ Pending s request.id ∧ ¬ InUse s request.id
  | .message (.promiseCancel id) | .message (.eventDispose id) => ¬ Pending s id
  | .flush c => ∀ p ∈ s.pendingOf c, ¬ InUse s p.request.id
  | _ => True

structure Tracked (s : ChannelServer α) : Prop where
  subscription : ∀ (k : Nat) (subscription : Subscription α),
    s.subscriptions[k]? = some subscription → subscription.live = true →
      s.activeRequests subscription.request.id = some (.endSubscription k)
  call : ∀ (k : Nat) (call : Call α), s.calls[k]? = some call → call.finalized = false →
    call.cancelled = false → s.activeRequests call.request.id = some (.cancelCall k)
  callsApart : ∀ (k k' : Nat) (call call' : Call α), s.calls[k]? = some call →
    s.calls[k']? = some call' → call.finalized = false → call'.finalized = false →
      call.request.id = call'.request.id → k = k'
  apart : ∀ call ∈ s.calls, ∀ subscription ∈ s.subscriptions, call.finalized = false →
    subscription.live = true → call.request.id ≠ subscription.request.id
  settled : ∀ call ∈ s.calls, call.finalized = true → call.settled = true

def PendingApart (s : ChannelServer α) : Prop :=
  ∀ c c', ∀ p ∈ s.pendingOf c, ∀ q ∈ s.pendingOf c', p.request.id = q.request.id → p = q

theorem Tracked.congr (ht : Tracked s) (hactive : s'.activeRequests = s.activeRequests)
    (hcalls : s'.calls = s.calls) (hsubscriptions : s'.subscriptions = s.subscriptions) :
    Tracked s' where
  subscription := by
    rw [hactive, hsubscriptions]
    exact ht.subscription
  call := by
    rw [hactive, hcalls]
    exact ht.call
  callsApart := by
    rw [hcalls]
    exact ht.callsApart
  apart := by
    rw [hcalls, hsubscriptions]
    exact ht.apart
  settled := by
    rw [hcalls]
    exact ht.settled

theorem getElem?_concat_eq_some {β : Type} {l : List β} {a b : β} {k : Nat}
    (h : (l ++ [a])[k]? = some b) : l[k]? = some b ∨ (k = l.length ∧ b = a) := by
  rcases Nat.lt_trichotomy k l.length with hk | hk | hk
  · rw [List.getElem?_append_left hk] at h
    exact .inl h
  · subst hk
    rw [List.getElem?_append_right le_rfl] at h
    exact .inr ⟨rfl, by simpa using h.symm⟩
  · rw [List.getElem?_append_right hk.le, List.getElem?_singleton, if_neg (by omega)] at h
    cases h

theorem Tracked.call_dispatched (ht : Tracked s) {r : ChannelRequest α} (hfree : ¬ InUse s r.id) :
    Tracked (setActive { s with calls := s.calls ++ [⟨r, false, false, false⟩] } r.id
      (.cancelCall s.calls.length)) where
  subscription k subscription hk hlive := by
    have hne : subscription.request.id ≠ r.id := fun heq =>
      hfree (.inr ⟨subscription, List.mem_of_getElem? hk, heq, hlive⟩)
    simpa [setActive, hne] using ht.subscription k subscription hk hlive
  call k call hk hopen hcancelled := by
    rcases getElem?_concat_eq_some hk with hk | ⟨rfl, rfl⟩
    · have hne : call.request.id ≠ r.id := fun heq => hfree (.inl ⟨call, List.mem_of_getElem? hk, heq, hopen⟩)
      simpa [setActive, hne] using ht.call k call hk hopen hcancelled
    · simp [setActive]
  callsApart k k' call call' hk hk' hopen hopen' heq := by
    rcases getElem?_concat_eq_some hk with hk | ⟨rfl, rfl⟩ <;>
      rcases getElem?_concat_eq_some hk' with hk' | ⟨rfl, rfl⟩
    · exact ht.callsApart k k' call call' hk hk' hopen hopen' heq
    · exact absurd (.inl ⟨call, List.mem_of_getElem? hk, heq, hopen⟩) hfree
    · exact absurd (.inl ⟨call', List.mem_of_getElem? hk', heq.symm, hopen'⟩) hfree
    · rfl
  apart call hcall subscription hsubscription hopen hlive heq := by
    rcases List.mem_append.mp hcall with hcall | hcall
    · exact ht.apart call hcall subscription hsubscription hopen hlive heq
    · obtain rfl := List.mem_singleton.mp hcall
      exact hfree (.inr ⟨subscription, hsubscription, heq.symm, hlive⟩)
  settled call hcall hfinal := by
    rcases List.mem_append.mp hcall with hcall | hcall
    · exact ht.settled call hcall hfinal
    · obtain rfl := List.mem_singleton.mp hcall
      cases hfinal

theorem Tracked.listen_dispatched (ht : Tracked s) {r : ChannelRequest α}
    (hfree : ¬ InUse s r.id) :
    Tracked (setActive { s with subscriptions := s.subscriptions ++ [⟨r, true⟩] } r.id
      (.endSubscription s.subscriptions.length)) where
  subscription k subscription hk hlive := by
    rcases getElem?_concat_eq_some hk with hk | ⟨rfl, rfl⟩
    · have hne : subscription.request.id ≠ r.id := fun heq =>
        hfree (.inr ⟨subscription, List.mem_of_getElem? hk, heq, hlive⟩)
      simpa [setActive, hne] using ht.subscription k subscription hk hlive
    · simp [setActive]
  call k call hk hopen hcancelled := by
    have hne : call.request.id ≠ r.id := fun heq => hfree (.inl ⟨call, List.mem_of_getElem? hk, heq, hopen⟩)
    simpa [setActive, hne] using ht.call k call hk hopen hcancelled
  callsApart := ht.callsApart
  apart call hcall subscription hsubscription hopen hlive heq := by
    rcases List.mem_append.mp hsubscription with hsubscription | hsubscription
    · exact ht.apart call hcall subscription hsubscription hopen hlive heq
    · obtain rfl := List.mem_singleton.mp hsubscription
      exact hfree (.inl ⟨call, hcall, heq, hopen⟩)
  settled := ht.settled

theorem inUse_of_onRequest {r : ChannelRequest α} (hc : r.channelName ∈ s.channels)
    (h : s.onRequest listenThrows r = some s') (hid : InUse s' id) : InUse s id ∨ id = r.id := by
  rcases onRequest_of_mem hc h with ⟨_, rfl⟩ | ⟨_, rfl⟩
  · rcases hid with ⟨call, hcall, heq, hopen⟩ | hid
    · rcases List.mem_append.mp hcall with hcall | hcall
      · exact .inl (.inl ⟨call, hcall, heq, hopen⟩)
      · obtain rfl := List.mem_singleton.mp hcall
        exact .inr heq.symm
    · exact .inl (.inr hid)
  · rcases hid with hid | ⟨subscription, hsubscription, heq, hlive⟩
    · exact .inl (.inl hid)
    · rcases List.mem_append.mp hsubscription with hsubscription | hsubscription
      · exact .inl (.inr ⟨subscription, hsubscription, heq, hlive⟩)
      · obtain rfl := List.mem_singleton.mp hsubscription
        exact .inr heq.symm

theorem Tracked.onRequest (ht : Tracked s) {r : ChannelRequest α} (hfree : ¬ InUse s r.id)
    (hc : r.channelName ∈ s.channels) (h : s.onRequest listenThrows r = some s') : Tracked s' := by
  rcases onRequest_of_mem hc h with ⟨_, rfl⟩ | ⟨_, rfl⟩
  · exact ht.call_dispatched hfree
  · exact ht.listen_dispatched hfree

theorem Tracked.flushLoop (ht : Tracked s) (listenThrows : ChannelRequest α → Bool)
    {requests : List (PendingRequest α)}
    (hc : ∀ p ∈ requests, p.request.channelName ∈ s.channels)
    (hapart : (requests.map (·.request.id)).Nodup)
    (hfree : ∀ p ∈ requests, ¬ InUse s p.request.id) :
    Tracked (flushLoop listenThrows requests s).1 := by
  induction requests generalizing s with
  | nil => exact ht
  | cons p rest ih =>
    rw [ChannelServer.flushLoop]
    rw [List.map_cons, List.nodup_cons] at hapart
    cases hrun : (s.clearTimeout p.timeoutTimer).onRequest listenThrows p.request with
    | none => exact ht.congr rfl rfl rfl
    | some s1 =>
      have hp := hc p List.mem_cons_self
      refine ih ?_ (fun q hq => ?_) hapart.2 fun q hq huse => ?_
      · exact Tracked.onRequest (s := s.clearTimeout p.timeoutTimer) (ht.congr rfl rfl rfl)
          (hfree p List.mem_cons_self) hp hrun
      · rw [(dispatched_onRequest hp hrun).channels]
        exact hc q (List.mem_cons_of_mem p hq)
      · rcases inUse_of_onRequest (s := s.clearTimeout p.timeoutTimer) hp hrun huse with h | h
        · exact hfree q (List.mem_cons_of_mem p hq) h
        · exact hapart.1 (h ▸ List.mem_map_of_mem hq)

structure Fades (s s' : ChannelServer α) : Prop where
  call : ∀ (k : Nat) (call' : Call α), s'.calls[k]? = some call' → ∃ call, s.calls[k]? = some call ∧
    call'.request = call.request ∧ (call'.cancelled = false → call.cancelled = false) ∧
      (call'.settled = false → call.settled = false) ∧
        (call'.finalized = false → call.finalized = false) ∧
          (call'.finalized = true → call.finalized = true ∨ call'.settled = true)
  subscription : ∀ (k : Nat) (subscription' : Subscription α),
    s'.subscriptions[k]? = some subscription' → ∃ subscription,
      s.subscriptions[k]? = some subscription ∧ subscription'.request = subscription.request ∧
        (subscription'.live = true → subscription.live = true)

theorem fades_of_eq (hcalls : s'.calls = s.calls)
    (hsubscriptions : s'.subscriptions = s.subscriptions) : Fades s s' where
  call _ call' h := ⟨call', hcalls ▸ h, rfl, id, id, id, .inl⟩
  subscription _ subscription' h := ⟨subscription', hsubscriptions ▸ h, rfl, id⟩

theorem fades_disposeActiveRequest (id : Nat) : Fades s (s.disposeActiveRequest id) := by
  rw [disposeActiveRequest]
  split
  · next d _ =>
    cases d with
    | cancelCall k =>
      refine ⟨fun i call' h => ?_, (fades_of_eq rfl rfl).subscription⟩
      simp only [deleteActive, dispose1, List.getElem?_modify, Option.map_eq_map, Option.map_eq_some_iff] at h
      obtain ⟨call, hcall, rfl⟩ := h
      refine ⟨call, hcall, ?_⟩
      split_ifs <;> simp +contextual
    | endSubscription k =>
      refine ⟨(fades_of_eq rfl rfl).call, fun i subscription' h => ?_⟩
      simp only [deleteActive, dispose1, List.getElem?_modify, Option.map_eq_map, Option.map_eq_some_iff] at h
      obtain ⟨subscription, hsubscription, rfl⟩ := h
      refine ⟨subscription, hsubscription, ?_⟩
      split_ifs <;> simp
  · exact fades_of_eq rfl rfl

theorem fades_set {k : Nat} {call call' : Call α} (hk : s.calls[k]? = some call)
    (hcalls : s'.calls = s.calls.set k call') (hsubscriptions : s'.subscriptions = s.subscriptions)
    (hrequest : call'.request = call.request)
    (hcancelled : call'.cancelled = false → call.cancelled = false)
    (hsettled : call'.settled = false → call.settled = false)
    (hopen : call'.finalized = false → call.finalized = false)
    (hfinalized : call'.finalized = true → call.finalized = true ∨ call'.settled = true) :
    Fades s s' := by
  refine ⟨fun i callI h => ?_, fun i subscription h => ⟨subscription, hsubscriptions ▸ h, rfl, id⟩⟩
  rw [hcalls] at h
  by_cases hi : k = i
  · subst hi
    obtain ⟨hlt, -⟩ := List.getElem?_eq_some_iff.mp hk
    rw [List.getElem?_set_self hlt] at h
    obtain rfl := Option.some.inj h
    exact ⟨call, hk, hrequest, hcancelled, hsettled, hopen, hfinalized⟩
  · rw [List.getElem?_set_ne hi] at h
    exact ⟨callI, h, rfl, id, id, id, .inl⟩

theorem fades_disposeAll : Fades s s.disposeAll := by
  refine ⟨fun i call' h => ?_, fun i subscription' h => ?_⟩
  · simp only [disposeAll, List.getElem?_mapIdx, Option.map_eq_some_iff] at h
    obtain ⟨call, hcall, rfl⟩ := h
    refine ⟨call, hcall, ?_⟩
    split_ifs <;> simp +contextual
  · simp only [disposeAll, List.getElem?_mapIdx, Option.map_eq_some_iff] at h
    obtain ⟨subscription, hsubscription, rfl⟩ := h
    refine ⟨subscription, hsubscription, ?_⟩
    split_ifs <;> simp

theorem Tracked.fades (ht : Tracked s) (hf : Fades s s')
    (hcalls : ∀ (k : Nat) (call : Call α), s'.calls[k]? = some call → call.finalized = false →
      call.cancelled = false →
        s.activeRequests call.request.id = some (.cancelCall k) →
          s'.activeRequests call.request.id = some (.cancelCall k))
    (hsubscriptions : ∀ (k : Nat) (subscription : Subscription α),
      s'.subscriptions[k]? = some subscription → subscription.live = true →
        s.activeRequests subscription.request.id = some (.endSubscription k) →
          s'.activeRequests subscription.request.id = some (.endSubscription k)) : Tracked s' where
  subscription k subscription' hk hlive := by
    obtain ⟨subscription, hold, hrequest, hwas⟩ := hf.subscription k subscription' hk
    refine hsubscriptions k subscription' hk hlive ?_
    rw [hrequest]
    exact ht.subscription k subscription hold (hwas hlive)
  call k call' hk hopen hcancelled := by
    obtain ⟨call, hold, hrequest, hc, _, hfin, _⟩ := hf.call k call' hk
    refine hcalls k call' hk hopen hcancelled ?_
    rw [hrequest]
    exact ht.call k call hold (hfin hopen) (hc hcancelled)
  callsApart k k' call call' hk hk' hopen hopen' heq := by
    obtain ⟨call1, hold, hrequest, _, _, hfin, _⟩ := hf.call k call hk
    obtain ⟨call2, hold', hrequest', _, _, hfin', _⟩ := hf.call k' call' hk'
    exact ht.callsApart k k' call1 call2 hold hold' (hfin hopen) (hfin' hopen') (hrequest ▸ hrequest' ▸ heq)
  apart call hcall subscription hsubscription hopen hlive heq := by
    obtain ⟨k, hk⟩ := List.mem_iff_getElem?.mp hcall
    obtain ⟨k', hk'⟩ := List.mem_iff_getElem?.mp hsubscription
    obtain ⟨call1, hold, hrequest, _, _, hfin, _⟩ := hf.call k call hk
    obtain ⟨subscription1, hold', hrequest', hwas⟩ := hf.subscription k' subscription hk'
    exact ht.apart call1 (List.mem_of_getElem? hold) subscription1 (List.mem_of_getElem? hold')
      (hfin hopen) (hwas hlive) (hrequest ▸ hrequest' ▸ heq)
  settled call' hcall hfinal := by
    obtain ⟨k, hk⟩ := List.mem_iff_getElem?.mp hcall
    obtain ⟨call, hold, _, _, hsettled, _, hwas⟩ := hf.call k call' hk
    rcases hwas hfinal with h | h
    · by_contra hrunning
      have := ht.settled call (List.mem_of_getElem? hold) h
      rw [hsettled (Bool.eq_false_iff.mpr hrunning)] at this
      cases this
    · exact h

theorem disposeActiveRequest_eq {id : Nat} {d : Disposable} (h : s.activeRequests id = some d) :
    s.disposeActiveRequest id = (s.dispose1 d).deleteActive id := by
  simp only [disposeActiveRequest, h]

theorem cancelled_of_dispose1 {k : Nat} {call : Call α}
    (h : (s.dispose1 (.cancelCall k)).calls[k]? = some call) : call.cancelled = true := by
  simp only [dispose1, List.getElem?_modify, if_true, Option.map_eq_map, Option.map_eq_some_iff] at h
  obtain ⟨_, -, rfl⟩ := h
  rfl

theorem not_live_of_dispose1 {k : Nat} {subscription : Subscription α}
    (h : (s.dispose1 (.endSubscription k)).subscriptions[k]? = some subscription) :
    subscription.live = false := by
  simp only [dispose1, List.getElem?_modify, if_true, Option.map_eq_map, Option.map_eq_some_iff] at h
  obtain ⟨_, -, rfl⟩ := h
  rfl

theorem Tracked.disposeActiveRequest (ht : Tracked s) (id : Nat) :
    Tracked (s.disposeActiveRequest id) := by
  have hf := fades_disposeActiveRequest (s := s) id
  cases hd : s.activeRequests id with
  | none =>
    have heq : s.disposeActiveRequest id = s := by simp only [ChannelServer.disposeActiveRequest, hd]
    rwa [heq]
  | some d =>
    rw [disposeActiveRequest_eq hd] at hf ⊢
    have hactive : (s.dispose1 d).activeRequests = s.activeRequests := by cases d <;> rfl
    refine ht.fades hf (fun k call hk _ hcancelled hentry => ?_)
      fun k subscription hk hlive hentry => ?_
    · have hne : call.request.id ≠ id := by
        rintro rfl
        obtain rfl := Option.some.inj (hd.symm.trans hentry)
        rw [cancelled_of_dispose1 hk] at hcancelled
        cases hcancelled
      simpa [deleteActive, hactive, hne] using hentry
    · have hne : subscription.request.id ≠ id := by
        rintro rfl
        obtain rfl := Option.some.inj (hd.symm.trans hentry)
        rw [not_live_of_dispose1 hk] at hlive
        cases hlive
      simpa [deleteActive, hactive, hne] using hentry

theorem Tracked.settle (ht : Tracked s) {k : Nat} {call : Call α} (hk : s.calls[k]? = some call)
    (settlement : Settlement α) : Tracked (s.onSettled k call settlement) :=
  ht.fades (fades_set hk rfl rfl rfl id (by simp) id .inl) (fun _ _ _ _ _ h => h) fun _ _ _ _ h => h

theorem Tracked.finalize (ht : Tracked s) {k : Nat} {call : Call α} (hk : s.calls[k]? = some call)
    (hsettled : call.settled = true) (hopen : call.finalized = false) :
    Tracked (s.onFinally k call) := by
  have hmem := List.mem_of_getElem? hk
  refine ht.fades (fades_set hk rfl rfl rfl (by simp) id (by simp) fun _ => .inr hsettled)
    (fun i callI hi hopenI _ hentry => ?_) fun i subscription hi hlive hentry => ?_
  · have hne : callI.request.id ≠ call.request.id := by
      intro heq
      simp only [onFinally, deleteActive] at hi
      rcases eq_or_ne k i with rfl | hki
      · obtain ⟨hlt, -⟩ := List.getElem?_eq_some_iff.mp hk
        rw [List.getElem?_set_self hlt] at hi
        obtain rfl := Option.some.inj hi
        cases hopenI
      · rw [List.getElem?_set_ne hki] at hi
        exact hki (ht.callsApart k i call callI hk hi hopen hopenI heq.symm)
    simpa [onFinally, deleteActive, hne] using hentry
  · have hne : subscription.request.id ≠ call.request.id := fun heq =>
      ht.apart call hmem subscription (List.mem_of_getElem? hi) hopen hlive heq.symm
    simpa [onFinally, deleteActive, hne] using hentry

theorem Tracked.disposeAll (ht : Tracked s) : Tracked s.disposeAll := by
  refine ht.fades fades_disposeAll (fun k call' hk _ hcancelled hentry => ?_)
    fun k subscription' hk hlive hentry => ?_
  · simp only [ChannelServer.disposeAll, List.getElem?_mapIdx, Option.map_eq_some_iff] at hk
    obtain ⟨call, -, rfl⟩ := hk
    by_cases h : s.activeRequests call.request.id = some (.cancelCall k)
    · simp [h] at hcancelled
    · rw [if_neg h] at hentry
      exact absurd hentry h
  · simp only [ChannelServer.disposeAll, List.getElem?_mapIdx, Option.map_eq_some_iff] at hk
    obtain ⟨subscription, -, rfl⟩ := hk
    by_cases h : s.activeRequests subscription.request.id = some (.endSubscription k)
    · simp [h] at hlive
    · rw [if_neg h] at hentry
      exact absurd hentry h

theorem pendingApart_of_subset (ha : PendingApart s)
    (hsub : ∀ c, ∀ p ∈ s'.pendingOf c, p ∈ s.pendingOf c) : PendingApart s' :=
  fun c c' p hp q hq heq => ha c c' p (hsub c p hp) q (hsub c' q hq) heq

theorem PendingApart.collect (ha : PendingApart s) {r : ChannelRequest α}
    (hfresh : ¬ Pending s r.id) : PendingApart (s.collectPendingRequest r) := by
  intro c c' p hp q hq heq
  rcases mem_pendingOf_collect.mp hp with hp | ⟨rfl, rfl⟩ <;>
    rcases mem_pendingOf_collect.mp hq with hq | ⟨rfl, rfl⟩
  · exact ha c c' p hp q hq heq
  · exact absurd ⟨c, p, hp, heq⟩ hfresh
  · exact absurd ⟨c', q, hq, heq.symm⟩ hfresh
  · rfl

theorem pendingOf_subset_of_flushed {c : String} {handled : List (PendingRequest α)}
    (hf : Flushed s s' c handled) (c' : String) : ∀ p ∈ s'.pendingOf c', p ∈ s.pendingOf c' := by
  intro p hp
  rcases hf.pending with h | ⟨-, h⟩
  · rwa [pendingOf, h] at hp
  · by_cases hc : c' = c
    · simp [pendingOf, h, hc] at hp
    · rwa [pendingOf, h, Function.update_of_ne hc] at hp

structure Kept (s : ChannelServer α) : Prop where
  waiting : Waiting s
  pending : PendingApart s
  tracked : Tracked s

theorem Tracked.flush (ht : Tracked s) (hw : Waiting s) (ha : PendingApart s) {c : String}
    (hc : c ∈ s.channels) (hfree : ∀ p ∈ s.pendingOf c, ¬ InUse s p.request.id) :
    Tracked (s.flushPendingRequests listenThrows c) := by
  cases hreq : s.pendingRequests c with
  | none => simpa only [flushPendingRequests, hreq] using ht
  | some requests =>
    have hpending : s.pendingOf c = requests := by simp [pendingOf, hreq]
    rw [hpending] at hfree
    have hnodup : (requests.map (·.request.id)).Nodup :=
      List.Nodup.map_on
        (fun p hp q hq => ha c c p (hpending ▸ hp) q (hpending ▸ hq))
        (hpending ▸ (hw.nodup c).of_map)
    have hloop := ht.flushLoop listenThrows (fun p hp => (hw.key c p (hpending ▸ hp)).symm ▸ hc) hnodup hfree
    simp only [flushPendingRequests, hreq]
    split <;> next heq => rw [heq] at hloop; exact hloop.congr rfl rfl rfl

theorem Kept.step (hk : Kept s) {e : Event α} (hok : InReach s e)
    (h : Occurs listenThrows s e s') : Kept s' := by
  have hw := hk.waiting.step h
  have same : ∀ {s'' : ChannelServer α}, s''.pendingRequests = s.pendingRequests → PendingApart s'' :=
    fun hp => pendingApart_of_subset hk.pending fun c p h => by rwa [pendingOf, hp] at h
  refine ⟨hw, ?_, ?_⟩
  · cases h with
    | message request =>
      cases request with
      | channel r =>
        rw [onRawMessage]
        by_cases hc : r.channelName ∈ s.channels
        · cases hrun : s.onRequest listenThrows r with
          | none => exact hk.pending
          | some s1 => rcases onRequest_of_mem hc hrun with ⟨_, rfl⟩ | ⟨_, rfl⟩ <;> exact same rfl
        · rw [onRequest_of_not_mem hc]
          exact hk.pending.collect hok.1
      | promiseCancel id => exact same (settles_disposeActiveRequest id).pending
      | eventDispose id => exact same (settles_disposeActiveRequest id).pending
    | timeout timer r => exact same (settles_onTimeout timer r).pending
    | flush c hc =>
      obtain ⟨handled, hf⟩ := hk.waiting.due listenThrows hc
      exact pendingApart_of_subset hk.pending
        (pendingOf_subset_of_flushed (s := { s with flushTimers := s.flushTimers.erase c }) hf)
    | registerChannel | settle | finalize | fire | dispose => exact same rfl
  · cases h with
    | message request =>
      cases request with
      | channel r =>
        rw [onRawMessage]
        by_cases hc : r.channelName ∈ s.channels
        · cases hrun : s.onRequest listenThrows r with
          | none => exact hk.tracked
          | some s1 => exact hk.tracked.onRequest hok.2 hc hrun
        · rw [onRequest_of_not_mem hc]
          exact hk.tracked.congr rfl rfl rfl
      | promiseCancel id => exact hk.tracked.disposeActiveRequest id
      | eventDispose id => exact hk.tracked.disposeActiveRequest id
    | registerChannel c => exact hk.tracked.congr rfl rfl rfl
    | timeout timer r =>
      rw [onTimeout]
      cases r.type <;> exact hk.tracked.congr rfl rfl rfl
    | flush c hc =>
      exact Tracked.flush (s := { s with flushTimers := s.flushTimers.erase c })
        (hk.tracked.congr rfl rfl rfl) (hk.waiting.settles (settles_flushTimer c)) (same rfl)
        (hk.waiting.flushable c hc) hok
    | settle k call settlement hcall => exact hk.tracked.settle hcall settlement
    | finalize k call hcall hsettled hopen => exact hk.tracked.finalize hcall hsettled hopen
    | fire k data => exact hk.tracked.congr rfl rfl rfl
    | dispose => exact hk.tracked.disposeAll

theorem Released.fades (hr : Released s id) (hf : Fades s s') : Released s' id where
  subscription subscription' hmem heq := by
    obtain ⟨k, hk⟩ := List.mem_iff_getElem?.mp hmem
    obtain ⟨subscription, hold, hrequest, hlive⟩ := hf.subscription k subscription' hk
    by_contra h
    have := hr.subscription subscription (List.mem_of_getElem? hold) (hrequest ▸ heq)
    rw [hlive (Bool.eq_true_of_not_eq_false h)] at this
    cases this
  call call' hmem heq := by
    obtain ⟨k, hk⟩ := List.mem_iff_getElem?.mp hmem
    obtain ⟨call, hold, hrequest, hcancelled, hsettled, -⟩ := hf.call k call' hk
    by_contra h
    simp only [not_or, Bool.not_eq_true] at h
    have := hr.call call (List.mem_of_getElem? hold) (hrequest ▸ heq)
    rw [hcancelled h.1, hsettled h.2] at this
    simp at this

structure Quiet (s : ChannelServer α) (id : Nat) : Prop where
  released : Released s id
  pending : ¬ Pending s id

theorem Quiet.fades (hq : Quiet s id) (hf : Fades s s')
    (hpending : s'.pendingRequests = s.pendingRequests) : Quiet s' id where
  released := hq.released.fades hf
  pending := fun ⟨c, p, hp, heq⟩ => hq.pending ⟨c, p, by rwa [pendingOf, hpending] at hp, heq⟩

theorem Tracked.quiet_disposeActiveRequest (ht : Tracked s) (hpending : ¬ Pending s id) :
    Quiet (s.disposeActiveRequest id) id := by
  have ht' := ht.disposeActiveRequest id
  have hgone : (s.disposeActiveRequest id).activeRequests id = none := by
    rw [ChannelServer.disposeActiveRequest]
    split
    · simp [deleteActive]
    · assumption
  refine ⟨⟨fun subscription hmem heq => ?_, fun call hmem heq => ?_⟩, ?_⟩
  · obtain ⟨k, hk⟩ := List.mem_iff_getElem?.mp hmem
    by_contra hlive
    have := ht'.subscription k subscription hk (Bool.eq_true_of_not_eq_false hlive)
    rw [heq, hgone] at this
    cases this
  · obtain ⟨k, hk⟩ := List.mem_iff_getElem?.mp hmem
    by_contra h
    simp only [not_or, Bool.not_eq_true] at h
    have hopen : call.finalized = false := by
      by_contra hfinal
      have := ht'.settled call hmem (Bool.eq_true_of_not_eq_false hfinal)
      rw [h.2] at this
      cases this
    have := ht'.call k call hk hopen h.1
    rw [heq, hgone] at this
    cases this
  · rintro ⟨c, p, hp, heq⟩
    rw [pendingOf, (settles_disposeActiveRequest id).pending] at hp
    exact hpending ⟨c, p, hp, heq⟩

theorem Quiet.step (hq : Quiet s id) (hw : Waiting s) {e : Event α} (hnew : ¬ Requests id e)
    (h : Occurs listenThrows s e s') : Quiet s' id := by
  cases h with
  | message request =>
    cases request with
    | channel r =>
      rw [onRawMessage]
      by_cases hc : r.channelName ∈ s.channels
      · cases hrun : s.onRequest listenThrows r with
        | none => exact hq
        | some s1 =>
          rcases onRequest_of_mem hc hrun with ⟨_, rfl⟩ | ⟨_, rfl⟩
          · refine ⟨⟨hq.released.subscription, fun call hmem heq => ?_⟩, hq.pending⟩
            rcases List.mem_append.mp hmem with hmem | hmem
            · exact hq.released.call call hmem heq
            · obtain rfl := List.mem_singleton.mp hmem
              exact absurd heq hnew
          · refine ⟨⟨fun subscription hmem heq => ?_, hq.released.call⟩, hq.pending⟩
            rcases List.mem_append.mp hmem with hmem | hmem
            · exact hq.released.subscription subscription hmem heq
            · obtain rfl := List.mem_singleton.mp hmem
              exact absurd heq hnew
      · rw [onRequest_of_not_mem hc]
        refine ⟨⟨hq.released.subscription, hq.released.call⟩, ?_⟩
        rintro ⟨c, p, hp, heq⟩
        rcases mem_pendingOf_collect.mp hp with hp | ⟨rfl, rfl⟩
        · exact hq.pending ⟨c, p, hp, heq⟩
        · exact hnew heq
    | promiseCancel id' => exact hq.fades (fades_disposeActiveRequest id') (settles_disposeActiveRequest id').pending
    | eventDispose id' => exact hq.fades (fades_disposeActiveRequest id') (settles_disposeActiveRequest id').pending
  | registerChannel c => exact hq.fades (fades_of_eq rfl rfl) rfl
  | timeout timer r =>
    rw [onTimeout]
    cases r.type <;> exact hq.fades (fades_of_eq rfl rfl) rfl
  | flush c hc =>
    obtain ⟨handled, hf⟩ := hw.due listenThrows hc
    obtain ⟨m, hd, heq⟩ := hf.dispatched
    obtain ⟨l, hl, hlmem⟩ := hd.subscriptions
    -- what the flush passes on was pending, so it has another id
    have hother : ∀ p ∈ handled, p.request.id ≠ id := fun p hp heq =>
      hq.pending ⟨c, p, hf.prefix_pending.subset hp, heq⟩
    refine ⟨⟨fun subscription hmem hid => ?_, fun call hmem hid => ?_⟩, fun h =>
      hq.pending (h.imp fun c' h => h.imp fun p h => h.imp_left (pendingOf_subset_of_flushed hf c' p))⟩
    · rw [heq] at hmem
      rcases List.mem_append.mp (hl ▸ hmem) with hmem | hmem
      · exact hq.released.subscription subscription hmem hid
      · obtain ⟨p, hp, hrequest⟩ := hlmem subscription hmem
        exact absurd (hrequest ▸ hid) (hother p hp)
    · rw [heq] at hmem
      rcases List.mem_append.mp (hd.calls ▸ hmem) with hmem | hmem
      · exact hq.released.call call hmem hid
      · obtain ⟨r, hr, rfl⟩ := List.mem_map.mp hmem
        obtain ⟨p, hp, rfl⟩ := List.mem_map.mp (List.mem_filter.mp hr).1
        exact absurd hid (hother p hp)
  | settle k call settlement hk =>
    exact hq.fades (fades_set hk rfl rfl rfl (fun h => h) (by simp) (fun h => h) .inl) rfl
  | finalize k call hk hsettled =>
    exact hq.fades (fades_set hk rfl rfl rfl (by simp) (fun h => h) (by simp) fun _ => .inr hsettled) rfl
  | fire k data => exact hq.fades (fades_of_eq rfl rfl) rfl
  | dispose => exact hq.fades fades_disposeAll rfl

theorem kept_new (timeoutDelay : Nat) : Kept (new timeoutDelay : ChannelServer α) where
  waiting := waiting_new timeoutDelay
  pending c c' p hp := by simp [new, pendingOf] at hp
  tracked := by refine ⟨?_, ?_, ?_, ?_, ?_⟩ <;> simp [new]

theorem Kept.cancel (hk : Kept s) {e : Event α} (hcancel : Cancels id e) (hok : InReach s e)
    (h : Occurs listenThrows s e s') : Quiet s' id := by
  cases h with
  | message request =>
    cases request with
    | channel r => exact hcancel.elim
    | promiseCancel id' =>
      obtain rfl := hcancel
      exact hk.tracked.quiet_disposeActiveRequest hok
    | eventDispose id' =>
      obtain rfl := hcancel
      exact hk.tracked.quiet_disposeActiveRequest hok
  | _ => exact hcancel.elim

/-- In a run whose steps up to a cancellation are in reach, the cancelled id stays released
until a newer request uses it. -/
theorem released_of_cancels (listenThrows : ChannelRequest α → Bool) (timeoutDelay id : Nat)
    (es es' : List (Event α)) (e : Event α) (hcancel : Cancels id e)
    (hnew : ∀ e' ∈ es', ¬ Requests id e')
    (hok : Guarded (step listenThrows) InReach (new timeoutDelay) (es ++ [e]))
    (hrun : run (step listenThrows) (new timeoutDelay) (es ++ e :: es') = some s) :
    Released s id := by
  obtain ⟨m, hm, hrest⟩ := run_append_eq_some (step listenThrows) hrun
  rw [run_cons] at hrest
  obtain ⟨m', hm', hrest⟩ := Option.bind_eq_some_iff.mp hrest
  obtain ⟨hok, hlast⟩ := hok.of_append hm
  have hkept : Kept m := run_invariant Kept
    (fun _ _ _ hk hok hstep => hk.step hok (occurs_of_step hstep)) (kept_new timeoutDelay) hok hm
  have hquiet := hkept.cancel hcancel hlast.1 (occurs_of_step hm')
  have hw := (hkept.step hlast.1 (occurs_of_step hm')).waiting
  have hlater : Guarded (step listenThrows) (fun _ e' => ¬ Requests id e') m' es' :=
    .of_forall fun e' he' _ => hnew e' he'
  exact (run_invariant (fun s => Waiting s ∧ Quiet s id)
    (fun _ _ _ h hnew hstep => ⟨h.1.step (occurs_of_step hstep),
      h.2.step h.1 hnew (occurs_of_step hstep)⟩) ⟨hw, hquiet⟩ hlater hrest).2.released

/-- A running call is cancelled. -/
theorem released_of_cancels_running :
    Released ((run (step fun _ => false) (new 1000)
      [.registerChannel "storage", .message (.channel ⟨.promise, 0, "storage", "read", 7⟩),
        .message (.promiseCancel 0), .flush "storage",
        .message (.channel ⟨.promise, 1, "storage", "read", 8⟩)]).getD (new 1000)) 0 := by
  refine released_of_cancels (fun _ => false) 1000 0
    [.registerChannel "storage", .message (.channel ⟨.promise, 0, "storage", "read", 7⟩)]
    [.flush "storage", .message (.channel ⟨.promise, 1, "storage", "read", 8⟩)]
    (.message (.promiseCancel 0)) rfl ?_ ?_ rfl
  · intro e' he'
    simp only [List.mem_cons, List.not_mem_nil, or_false] at he'
    rcases he' with rfl | rfl <;> simp [Requests]
  · refine ⟨trivial, fun s hs => ?_⟩
    obtain rfl := Option.some.inj hs
    refine ⟨⟨?_, ?_⟩, fun s hs => ?_⟩
    · rintro ⟨c, p, hp, -⟩
      cases hp
    · rintro (⟨_, h, -⟩ | ⟨_, h, -⟩) <;> cases h
    · obtain rfl := Option.some.inj hs
      refine ⟨?_, fun _ _ => trivial⟩
      rintro ⟨c, p, hp, -⟩
      cases hp

/-- The cancellation of a request that waits for its channel is lost. -/
theorem not_released_of_pending :
    ¬ ∀ (listenThrows : ChannelRequest Nat → Bool) (timeoutDelay id : Nat)
      (es es' : List (Event Nat)) (e : Event Nat) (s : ChannelServer Nat), Cancels id e →
        (∃ e' ∈ es, Requests id e') → (∀ e' ∈ es', ¬ Requests id e') →
          run (step listenThrows) (new timeoutDelay) (es ++ e :: es') = some s →
            Released s id := by
  intro h
  have hr := h (fun _ => false) 1000 0
    [.message (.channel ⟨.promise, 0, "storage", "read", 7⟩)]
    [.registerChannel "storage", .flush "storage"] (.message (.promiseCancel 0)) _ rfl
    ⟨_, List.mem_singleton_self _, rfl⟩ (by simp [Requests]) rfl
  have := hr.call ⟨⟨.promise, 0, "storage", "read", 7⟩, false, false, false⟩ (List.mem_singleton_self _) rfl
  simp at this

end Gavea.Ipc.ChannelServer
