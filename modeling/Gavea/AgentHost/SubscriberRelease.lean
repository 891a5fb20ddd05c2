import Gavea.AgentHost.SubscriberLedger

set_option linter.unusedSectionVars false

namespace Gavea.AgentHost.ProtocolServerHandler

open Lib

variable {T C U R : Type} [DecidableEq T] [DecidableEq C] [DecidableEq U] [DecidableEq R]
  {config : ChannelConfig U R} {s : ProtocolServerHandler T C U R} {client : ConnectedClient C}

section Release

theorem connectionsOf_of_active {clientId : C} {connections : List (ConnectedClient C)}
    (h : s.clients clientId = some (.active connections)) :
    connectionsOf s clientId = connections := by
  rw [connectionsOf, h]

theorem detachConnection_eq {ended : Option (ClientRecord C)}
    (hclient : client ∈ connectionsOf s client.clientId) :
    ∃ subscribers, s.detachConnection config client ended =
        { s with
          resourceSubscribers := subscribers
          subscriptions := Function.update s.subscriptions client []
          clients := Function.update s.clients client.clientId
            (if (connectionsOf s client.clientId).erase client = [] then ended
              else some (.active ((connectionsOf s client.clientId).erase client))) } ∧
      ∀ resource clientId, clientId ∈ subscribers resource ↔
        clientId ∈ s.resourceSubscribers resource ∧ ¬ (clientId = client.clientId ∧
          Releases config s client (.active ((connectionsOf s client.clientId).erase client))
            (s.subscriptions client) resource) := by
  rw [detachConnection]
  split
  next connections hconnections =>
    rw [connectionsOf_of_active hconnections] at hclient ⊢
    rw [if_pos hclient]
    obtain ⟨subscribers, heq, hmem⟩ := @releaseEach_eq _ _ _ _ _ _ _ _ config s client
      (.active (connections.erase client)) (s.subscriptions client)
    refine ⟨subscribers, ?_, hmem⟩
    simp only [releaseClientSubscriptions, heq]
  next hnone =>
    rw [connectionsOf] at hclient
    split at hclient
    next connections hconnections => exact absurd hconnections (hnone connections)
    next => cases hclient

theorem hasSubscriptionInOtherConnection_erase {connections : List (ConnectedClient C)} (uri : U)
    (h : connections.Nodup) :
    s.hasSubscriptionInOtherConnection (.active (connections.erase client)) client uri =
      s.hasSubscriptionInOtherConnection (.active connections) client uri := by
  rw [Bool.eq_iff_iff, hasSubscriptionInOtherConnection_iff, hasSubscriptionInOtherConnection_iff]
  simp only [h.mem_erase_iff]
  constructor
  · rintro ⟨other, ⟨-, hmem⟩, hother⟩
    exact ⟨other, hmem, hother⟩
  · rintro ⟨other, hmem, hne, hother⟩
    exact ⟨other, ⟨hne, hmem⟩, hne, hother⟩

theorem connectionsOf_detach {ended : Option (ClientRecord C)}
    (hended : ∀ connections, ended ≠ some (.active connections)) {subscribers : R → List C}
    {subscriptions : ConnectedClient C → List (ChannelSubscription U)} (clientId : C) :
    connectionsOf
        { s with
          resourceSubscribers := subscribers
          subscriptions := subscriptions
          clients := Function.update s.clients client.clientId
            (if (connectionsOf s client.clientId).erase client = [] then ended
              else some (.active ((connectionsOf s client.clientId).erase client))) } clientId =
      if clientId = client.clientId then (connectionsOf s client.clientId).erase client
      else connectionsOf s clientId := by
  conv_lhs => rw [connectionsOf]
  by_cases heq : clientId = client.clientId
  · subst heq
    rw [if_pos rfl]
    simp only [Function.update_self]
    by_cases hempty : (connectionsOf s client.clientId).erase client = []
    · rw [if_pos hempty, hempty]
      cases ended with
      | none => rfl
      | some record =>
        cases record with
        | active connections => exact absurd rfl (hended connections)
        | grace => rfl
    · rw [if_neg hempty]
  · rw [if_neg heq]
    simp only [Function.update_of_ne heq]
    rfl

theorem mem_connectionsOf_detach {ended : Option (ClientRecord C)}
    (hended : ∀ connections, ended ≠ some (.active connections)) (h : Bookkept config s)
    {subscribers : R → List C} {subscriptions : ConnectedClient C → List (ChannelSubscription U)}
    (clientId : C) (conn : ConnectedClient C) :
    conn ∈ connectionsOf
        { s with
          resourceSubscribers := subscribers
          subscriptions := subscriptions
          clients := Function.update s.clients client.clientId
            (if (connectionsOf s client.clientId).erase client = [] then ended
              else some (.active ((connectionsOf s client.clientId).erase client))) } clientId ↔
      conn ∈ connectionsOf s clientId ∧ conn ≠ client := by
  rw [connectionsOf_detach hended]
  split
  next heq =>
    subst heq
    rw [(h.nodup client.clientId).mem_erase_iff, and_comm]
  next heq =>
    refine ⟨fun hconn => ⟨hconn, ?_⟩, And.left⟩
    rintro rfl
    exact heq (h.connections clientId conn hconn).1.symm

theorem Ledger.detach (h : Ledger config s) {ended : Option (ClientRecord C)}
    (hended : ∀ connections, ended ≠ some (.active connections))
    (hclient : client ∈ connectionsOf s client.clientId)
    (hsafe : ∀ sub ∈ s.subscriptions client, sub.kind = .state → MayRelease config s client [] sub.uri) :
    Ledger config (s.detachConnection config client ended) := by
  obtain ⟨subscribers, heq, hmem⟩ := @detachConnection_eq _ _ _ _ _ _ _ _ config s client ended hclient
  rw [heq]
  have heach (clientId) := @connectionsOf_detach _ _ _ _ _ _ _ _ s client ended hended subscribers
    (Function.update s.subscriptions client []) clientId
  have hconnections (clientId) (conn : ConnectedClient C) := @mem_connectionsOf_detach _ _ _ _ _ _ _
    _ config s client ended hended h.toBookkept subscribers (Function.update s.subscriptions client []) clientId conn
  refine ⟨⟨fun conn sub hsub => ?_, fun conn hconn => ?_, h.pending, fun clientId => ?_,
    fun clientId conn hconn => ?_⟩, fun clientId channel hchannel => ?_⟩
  · by_cases hne : conn = client
    · subst hne
      simp at hsub
    · exact h.kinds conn sub (by simpa [Function.update_of_ne hne] using hsub)
  · by_cases hne : conn = client
    · subst hne
      simp
    · simpa [Function.update_of_ne hne] using h.fresh conn hconn
  · rw [heach]
    split
    · exact (h.nodup client.clientId).erase client
    · exact h.nodup clientId
  · exact h.connections clientId conn ((hconnections clientId conn).mp hconn).1
  · refine (hmem _ clientId).trans ?_
    have hreleases : Releases config s client
        (.active ((connectionsOf s client.clientId).erase client)) (s.subscriptions client) (config.parse channel) ↔
        Releases config s client (.active (connectionsOf s client.clientId)) (s.subscriptions client)
          (config.parse channel) := by
      simp only [Releases, hasSubscriptionInOtherConnection_erase _ (h.nodup client.clientId)]
    rw [hreleases, h.released hclient (s.subscriptions client) [] (by simp) hsafe clientId hchannel]
    simp only [List.not_mem_nil, false_and, exists_false, and_false, false_or]
    refine or_congr ?_ Iff.rfl
    have huses (conn : ConnectedClient C) (hne : conn ≠ client) : Uses config
        { s with subscriptions := Function.update s.subscriptions client [] } conn
          (config.parse channel) ↔ Uses config s conn (config.parse channel) := by
      simp only [Uses, Function.update_of_ne hne]
    constructor
    · rintro ⟨conn, hconn, hne, hused⟩
      exact ⟨conn, (hconnections clientId conn).mpr ⟨hconn, hne⟩, (huses conn hne).mpr hused⟩
    · rintro ⟨conn, hconn, hused⟩
      obtain ⟨hconn, hne⟩ := (hconnections clientId conn).mp hconn
      exact ⟨conn, hconn, hne, (huses conn hne).mp hused⟩

theorem wanted_keep (h : Bookkept config s) (hclient : client ∈ connectionsOf s client.clientId)
    (kept : List (ChannelSubscription U)) (clientId : C) (resource : R) :
    Wanted config { s with subscriptions := Function.update s.subscriptions client kept } clientId
        resource ↔
      (∃ conn ∈ connectionsOf s clientId, conn ≠ client ∧ Uses config s conn resource) ∨
        (clientId = client.clientId ∧ ∃ sub ∈ kept, sub.kind = .state ∧ config.parse sub.uri = resource) ∨
        Awaits config s.pendingSubscribes clientId resource := by
  rw [Wanted, ← or_assoc]
  refine or_congr ⟨?_, ?_⟩ Iff.rfl
  · rintro ⟨conn, hconn, sub, hsub, huses⟩
    by_cases hne : conn = client
    · subst hne
      simp only [Function.update_self] at hsub
      exact .inr ⟨(h.connections clientId conn hconn).1.symm, sub, hsub, huses⟩
    · simp only [Function.update_of_ne hne] at hsub
      exact .inl ⟨conn, hconn, hne, sub, hsub, huses⟩
  · rintro (⟨conn, hconn, hne, huses⟩ | ⟨rfl, sub, hsub, huses⟩)
    · refine ⟨conn, hconn, ?_⟩
      simpa only [Uses, Function.update_of_ne hne] using huses
    · exact ⟨client, hclient, sub, by simpa using hsub, huses⟩

theorem Bookkept.keep (h : Bookkept config s) {kept : List (ChannelSubscription U)}
    (hkept : kept ⊆ s.subscriptions client) :
    Bookkept config { s with subscriptions := Function.update s.subscriptions client kept } where
  kinds conn sub hsub := by
    by_cases hne : conn = client
    · subst hne
      simp only [Function.update_self] at hsub
      exact h.kinds conn sub (hkept hsub)
    · exact h.kinds conn sub (by simpa [Function.update_of_ne hne] using hsub)
  fresh conn hconn := by
    by_cases hne : conn = client
    · subst hne
      simp only [Function.update_self]
      rw [h.fresh conn hconn] at hkept
      exact List.subset_nil.mp hkept
    · simpa [Function.update_of_ne hne] using h.fresh conn hconn
  pending := h.pending
  nodup := h.nodup
  connections := h.connections

theorem hasSubscriptionInOtherConnection_update {kept : List (ChannelSubscription U)}
    {connections : List (ConnectedClient C)} (uri : U) :
    hasSubscriptionInOtherConnection
        { s with subscriptions := Function.update s.subscriptions client kept } (.active connections) client uri =
      s.hasSubscriptionInOtherConnection (.active connections) client uri := by
  rw [Bool.eq_iff_iff, hasSubscriptionInOtherConnection_iff, hasSubscriptionInOtherConnection_iff]
  refine exists_congr fun other => and_congr_right fun _ => and_congr_right fun hne => ?_
  simp only [Function.update_of_ne hne]

theorem clients_of_mem_connectionsOf {clientId : C} (h : client ∈ connectionsOf s clientId) :
    s.clients clientId = some (.active (connectionsOf s clientId)) := by
  rw [connectionsOf] at h ⊢
  split at h
  next connections hconnections => rw [hconnections]
  next => cases h

theorem Ledger.removeSubscription (h : Ledger config s)
    (hclient : client ∈ connectionsOf s client.clientId) {channel : U}
    (hsafe : ⟨.state, channel⟩ ∈ s.subscriptions client → MayRelease config s client
      ((s.subscriptions client).filter fun other => decide (other.uri ≠ channel)) channel) :
    Ledger config (s.removeSubscription config client channel) := by
  rw [ProtocolServerHandler.removeSubscription]
  split
  next => exact h
  next classified hclassified =>
    split
    next => exact h
    next sub hfind =>
      have hmem := List.mem_of_find?_eq_some hfind
      have huri : sub.uri = classified.uri := by simpa using List.find?_some hfind
      have hkind : sub.kind = classified.kind := by
        rw [h.kinds client sub hmem, huri, kind_eq_of_classifyChannel hclassified]
      have hentries (sub') : sub' ∈ s.subscriptions client ↔
          sub' ∈ (s.subscriptions client).filter (fun other => decide (other.uri = classified.uri)) ∨
            sub' ∈ (s.subscriptions client).filter fun other =>
              decide (other.uri ≠ classified.uri) := by
        simp only [List.mem_filter, decide_eq_true_eq]
        tauto
      have hsame (sub') (hsub' : sub' ∈ (s.subscriptions client).filter fun other =>
          decide (other.uri = classified.uri)) : sub' = sub := by
        rw [List.mem_filter, decide_eq_true_eq] at hsub'
        have hkind' := h.kinds client sub' hsub'.1
        rw [hsub'.2, ← huri, ← h.kinds client sub hmem] at hkind'
        obtain ⟨kind, uri⟩ := sub
        obtain ⟨kind', uri'⟩ := sub'
        obtain rfl : kind' = kind := hkind'
        obtain rfl : uri' = uri := hsub'.2.trans huri.symm
        rfl
      have hreleased := h.released hclient _ _ hentries (fun sub' hsub' hstate => by
        obtain rfl := hsame sub' hsub'
        have hchannel := uri_of_classifyChannel hclassified (by rw [← hkind, hstate]; simp)
        rw [huri, hchannel]
        refine hsafe ?_
        rw [← hstate, ← hchannel, ← huri]
        exact hmem)
      have hactive := clients_of_mem_connectionsOf hclient
      have hsub : sub ∈ (s.subscriptions client).filter fun other =>
          decide (other.uri = classified.uri) := by simp [hmem, huri]
      simp only [hactive, hasSubscriptionInOtherConnection_update]
      have hreleases (resource : R) : Releases config s client
          (.active (connectionsOf s client.clientId))
            ((s.subscriptions client).filter fun other => decide (other.uri = classified.uri)) resource ↔
          (sub.kind = .state ∧ s.hasSubscriptionInOtherConnection
            (.active (connectionsOf s client.clientId)) client sub.uri = false) ∧
              config.parse sub.uri = resource := by
        constructor
        · rintro ⟨sub', hsub', hstate, hother, hparse⟩
          obtain rfl := hsame sub' hsub'
          exact ⟨⟨hstate, hother⟩, hparse⟩
        · rintro ⟨⟨hstate, hother⟩, hparse⟩
          exact ⟨sub, hsub, hstate, hother, hparse⟩
      have hkept : ((s.subscriptions client).filter fun other =>
          decide (other.uri ≠ classified.uri)) ⊆ s.subscriptions client :=
        fun other hother => (List.mem_filter.mp hother).1
      have hbook := h.toBookkept.keep hkept
      split
      next hcond =>
        refine ⟨hbook.withSubscribers _, fun clientId other hother => ?_⟩
        refine mem_unsubscribe.trans (Iff.trans ?_ (wanted_keep h.toBookkept hclient _ clientId _).symm)
        rw [← hreleased clientId hother, hreleases, and_iff_right hcond, @eq_comm _ (config.parse _)]
      next hcond =>
        refine ⟨hbook, fun clientId other hother => ?_⟩
        refine Iff.trans ?_ (wanted_keep h.toBookkept hclient _ clientId _).symm
        rw [← hreleased clientId hother, hreleases]
        exact (and_iff_left fun hreleased => hcond hreleased.2.1).symm

end Release

end Gavea.AgentHost.ProtocolServerHandler
