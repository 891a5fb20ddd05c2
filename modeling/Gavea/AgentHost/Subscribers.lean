import Gavea.AgentHost.SubscriberRelease

set_option linter.unusedSectionVars false

namespace Gavea.AgentHost.ProtocolServerHandler

open Lib Lib.Runs

variable {T C U R : Type} [DecidableEq T] [DecidableEq C] [DecidableEq U] [DecidableEq R]
  {config : ChannelConfig U R} {s s' s'' : ProtocolServerHandler T C U R}
  {client : ConnectedClient C}

section Frame

/-- Two states that differ in the entries of one connection and in what the agent service knows. -/
structure SameBesides (client : ConnectedClient C) (s s' : ProtocolServerHandler T C U R) :
    Prop where
  clients : s'.clients = s.clients
  transports : s'.transports = s.transports
  nextId : s'.nextId = s.nextId
  subscriptions (conn : ConnectedClient C) (h : conn ≠ client) : s'.subscriptions conn = s.subscriptions conn

theorem SameBesides.refl : SameBesides client s s := ⟨rfl, rfl, rfl, fun _ _ => rfl⟩

theorem SameBesides.trans (h : SameBesides client s s') (h' : SameBesides client s' s'') :
    SameBesides client s s'' :=
  ⟨h'.clients.trans h.clients, h'.transports.trans h.transports, h'.nextId.trans h.nextId,
    fun conn hne => (h'.subscriptions conn hne).trans (h.subscriptions conn hne)⟩

theorem SameBesides.connectionsOf_eq (h : SameBesides client s s') (clientId : C) :
    connectionsOf s' clientId = connectionsOf s clientId := by
  rw [connectionsOf, connectionsOf, h.clients]

theorem sameBesides_setSubscription (sub : ChannelSubscription U) :
    SameBesides client s (s.setSubscription client sub) :=
  ⟨rfl, rfl, rfl, fun conn hne => by simp [setSubscription, Function.update_of_ne hne]⟩

theorem sameBesides_addInitialSubscription (channel : U) :
    SameBesides client s (s.addInitialSubscription config client channel) := by
  rw [addInitialSubscription]
  split
  next => exact .refl
  next =>
    split
    · exact sameBesides_setSubscription _
    · exact .refl
  next sub _ _ =>
    have h := @sameBesides_setSubscription _ _ _ _ _ _ _ _ s client sub
    exact ⟨h.clients, h.transports, h.nextId, h.subscriptions⟩

theorem sameBesides_startSubscription (channel : U) (hasDescriptor : Bool) :
    SameBesides client s (s.startSubscription config client channel hasDescriptor) := by
  rw [startSubscription]
  split
  next => exact .refl
  next =>
    split
    · exact sameBesides_setSubscription _
    · exact .refl
  next =>
    split
    · exact sameBesides_setSubscription _
    · exact .refl
  next => exact ⟨rfl, rfl, rfl, fun _ _ => rfl⟩

theorem entry_of_mem_setSubscription {sub sub' : ChannelSubscription U}
    (h : sub' ∈ (s.setSubscription client sub).subscriptions client) :
    sub' ∈ s.subscriptions client ∨ sub' = sub := by
  simp only [setSubscription, Function.update_self] at h
  generalize s.subscriptions client = entries at h
  induction entries with
  | nil => simpa [setFirst] using h
  | cons entry entries ih =>
    rw [setFirst] at h
    split at h
    · rcases List.mem_cons.mp h with rfl | h
      · exact .inr rfl
      · exact .inl (List.mem_cons_of_mem entry h)
    · rcases List.mem_cons.mp h with rfl | h
      · exact .inl List.mem_cons_self
      · exact (ih h).imp (List.mem_cons_of_mem entry) id

theorem entry_of_mem_addInitialSubscription {channel : U} {sub : ChannelSubscription U}
    (h : sub ∈ (s.addInitialSubscription config client channel).subscriptions client) :
    sub ∈ s.subscriptions client ∨ config.classifyChannel channel = some sub := by
  rw [addInitialSubscription] at h
  split at h
  next => exact .inl h
  next hclassified =>
    split at h
    · rcases entry_of_mem_setSubscription h with h | rfl
      · exact .inl h
      · exact .inr hclassified
    · exact .inl h
  next hclassified =>
    rcases entry_of_mem_setSubscription h with h | rfl
    · exact .inl h
    · exact .inr hclassified

theorem entry_of_mem_startSubscription {channel : U} {hasDescriptor : Bool}
    {sub : ChannelSubscription U}
    (h : sub ∈ (s.startSubscription config client channel hasDescriptor).subscriptions client) :
    sub ∈ s.subscriptions client ∨ sub.kind ≠ .state := by
  rw [startSubscription] at h
  split at h
  next => exact .inl h
  next =>
    split at h
    · exact (entry_of_mem_setSubscription h).imp id fun heq => by simp [heq]
    · exact .inl h
  next =>
    split at h
    · exact (entry_of_mem_setSubscription h).imp id fun heq => by simp [heq]
    · exact .inl h
  next => exact .inl h

theorem Ledger.addInitialSubscriptions (h : Ledger config s)
    (hclient : client ∈ connectionsOf s client.clientId) (channels : List U) :
    Ledger config (channels.foldl (fun s uri => s.addInitialSubscription config client uri) s) ∧
      SameBesides client s (channels.foldl (fun s uri => s.addInitialSubscription config client uri) s) ∧
      (channels.foldl (fun s uri => s.addInitialSubscription config client uri)
        s).pendingSubscribes = s.pendingSubscribes ∧
      ∀ sub ∈ (channels.foldl (fun s uri => s.addInitialSubscription config client uri)
        s).subscriptions client, sub ∈ s.subscriptions client ∨
          ∃ channel ∈ channels, config.classifyChannel channel = some sub := by
  induction channels generalizing s with
  | nil => exact ⟨h, .refl, rfl, fun sub hsub => .inl hsub⟩
  | cons channel channels ih =>
    have hsame := @sameBesides_addInitialSubscription _ _ _ _ _ _ _ _ config s client channel
    obtain ⟨hledger, hrest, hpending, hentries⟩ := ih (h.addInitialSubscription hclient channel)
      (by rw [hsame.connectionsOf_eq]; exact hclient)
    refine ⟨hledger, hsame.trans hrest, hpending.trans ?_, fun sub hsub => ?_⟩
    · rw [ProtocolServerHandler.addInitialSubscription]
      split
      next => rfl
      next => split <;> rfl
      next => rfl
    · rcases hentries sub hsub with hsub | ⟨other, hother, hsub⟩
      · refine (entry_of_mem_addInitialSubscription hsub).imp id fun hclassified => ?_
        exact ⟨channel, List.mem_cons_self, hclassified⟩
      · exact .inr ⟨other, List.mem_cons_of_mem channel hother, hsub⟩

theorem Ledger.startSubscriptions (h : Ledger config s) (hid : client.id < s.nextId)
    (channels : List (U × Bool)) :
    Ledger config (channels.foldl
        (fun s (sub, hasDescriptor) => s.startSubscription config client sub hasDescriptor) s) ∧
      SameBesides client s (channels.foldl
        (fun s (sub, hasDescriptor) => s.startSubscription config client sub hasDescriptor) s) ∧
      ∀ sub ∈ (channels.foldl
        (fun s (sub, hasDescriptor) => s.startSubscription config client sub hasDescriptor)
          s).subscriptions client, sub ∈ s.subscriptions client ∨ sub.kind ≠ .state := by
  induction channels generalizing s with
  | nil => exact ⟨h, .refl, fun sub hsub => .inl hsub⟩
  | cons channel channels ih =>
    have hsame := @sameBesides_startSubscription _ _ _ _ _ _ _ _ config s client channel.1 channel.2
    obtain ⟨hledger, hrest, hentries⟩ :=
      ih (h.startSubscription hid channel.1 channel.2) (by rw [hsame.nextId]; exact hid)
    refine ⟨hledger, hsame.trans hrest, fun sub hsub => ?_⟩
    rcases hentries sub hsub with hsub | hne
    · exact entry_of_mem_startSubscription hsub
    · exact .inr hne

end Frame

section Linked

structure Linked (s : ProtocolServerHandler T C U R) : Prop where
  live (conn : ConnectedClient C) :
    (∃ transport, s.transports transport = some (some conn)) ↔ conn ∈ connectionsOf s conn.clientId
  unique (transport transport' : T) (conn : ConnectedClient C)
    (h : s.transports transport = some (some conn))
    (h' : s.transports transport' = some (some conn)) : transport = transport'

theorem Linked.of_eq (h : Linked s) (htransports : s'.transports = s.transports)
    (hconnections : ∀ clientId conn, conn ∈ connectionsOf s' clientId ↔
      conn ∈ connectionsOf s clientId) : Linked s' := by
  refine ⟨fun conn => ?_, fun transport transport' conn => ?_⟩
  · rw [htransports, hconnections]
    exact h.live conn
  · rw [htransports]
    exact h.unique transport transport' conn

theorem Linked.sameBesides (h : Linked s) (hsame : SameBesides client s s') : Linked s' :=
  h.of_eq hsame.transports fun clientId conn => by rw [hsame.connectionsOf_eq]

theorem Ledger.withTransports (h : Ledger config s)
    (transports : T → Option (Option (ConnectedClient C))) : Ledger config { s with transports } :=
  ⟨⟨h.kinds, h.fresh, h.pending, h.nodup, h.connections⟩, h.subscribers⟩

variable (config) in
structure Invariant (s : ProtocolServerHandler T C U R) : Prop where
  ledger : Ledger config s
  linked : Linked s

theorem Linked.mem_of_transport (h : Linked s) {transport : T}
    (ht : s.transports transport = some (some client)) :
    client ∈ connectionsOf s client.clientId :=
  (h.live client).mp ⟨transport, ht⟩

theorem Linked.updateUnused (h : Linked s) {transport : T}
    (hunused : ∀ conn, s.transports transport ≠ some (some conn))
    {value : Option (Option (ConnectedClient C))} (hvalue : ∀ conn, value ≠ some (some conn)) :
    Linked { s with transports := Function.update s.transports transport value } := by
  have hiff (transport' : T) (conn : ConnectedClient C) :
      Function.update s.transports transport value transport' = some (some conn) ↔
        s.transports transport' = some (some conn) := by
    by_cases heq : transport' = transport
    · subst heq
      simp [hunused conn, hvalue conn]
    · rw [Function.update_of_ne heq]
  refine ⟨fun conn => ?_, fun transport' transport'' conn h' h'' => ?_⟩
  · simp only [hiff]
    exact h.live conn
  · exact h.unique transport' transport'' conn ((hiff _ _).mp h') ((hiff _ _).mp h'')

theorem Linked.close (h : Linked s) {transport : T}
    (ht : s.transports transport = some (some client))
    (htransports : s'.transports = Function.update s.transports transport none)
    (hconnections : ∀ clientId conn, conn ∈ connectionsOf s' clientId ↔
      conn ∈ connectionsOf s clientId ∧ conn ≠ client) : Linked s' := by
  have hiff (transport' : T) (conn : ConnectedClient C) :
      s'.transports transport' = some (some conn) ↔
        s.transports transport' = some (some conn) ∧ conn ≠ client := by
    rw [htransports]
    by_cases heq : transport' = transport
    · subst heq
      rw [Function.update_self, ht]
      simp [eq_comm]
    · rw [Function.update_of_ne heq, iff_self_and]
      rintro h' rfl
      exact heq (h.unique transport' transport conn h' ht)
  refine ⟨fun conn => ?_, fun transport' transport'' conn h' h'' => ?_⟩
  · simp only [hiff, exists_and_right, h.live conn, hconnections]
  · exact h.unique transport' transport'' conn ((hiff _ _).mp h').1 ((hiff _ _).mp h'').1

theorem Linked.open (h : Linked s) {transport : T}
    (hunused : s.transports transport = some none)
    (hnew : client ∉ connectionsOf s client.clientId)
    (htransports : s'.transports = Function.update s.transports transport (some (some client)))
    (hconnections : ∀ clientId conn, conn ∈ connectionsOf s' clientId ↔
      conn ∈ connectionsOf s clientId ∨ (clientId = client.clientId ∧ conn = client)) :
    Linked s' := by
  have hfresh (transport' : T) : s.transports transport' ≠ some (some client) := fun ht => hnew (h.mem_of_transport ht)
  have hiff (transport' : T) (conn : ConnectedClient C) :
      s'.transports transport' = some (some conn) ↔
        s.transports transport' = some (some conn) ∨ (transport' = transport ∧ conn = client) := by
    rw [htransports]
    by_cases heq : transport' = transport
    · subst heq
      rw [Function.update_self, hunused]
      simp [eq_comm]
    · simp [heq]
  refine ⟨fun conn => ?_, fun transport' transport'' conn h' h'' => ?_⟩
  · simp only [hiff, hconnections, exists_or, h.live conn, exists_eq_left]
    refine or_congr Iff.rfl ⟨fun hconn => ⟨by rw [hconn], hconn⟩, And.right⟩
  · rcases (hiff _ _).mp h' with h' | ⟨rfl, rfl⟩
    · rcases (hiff _ _).mp h'' with h'' | ⟨rfl, rfl⟩
      · exact h.unique transport' transport'' conn h' h''
      · exact absurd h' (hfresh transport')
    · rcases (hiff _ _).mp h'' with h'' | ⟨rfl, -⟩
      · exact absurd h'' (hfresh transport'')
      · rfl

end Linked

section Steps

variable (config) in
/-- The steps that take back no registration that is still needed and leave none behind. -/
def Undisturbed (s : ProtocolServerHandler T C U R) : Event T C U → Prop
  | .initializeRequest transport clientId negotiated initialSubscriptions (some count) _ =>
    s.transports transport = some none → negotiated = true →
      ∀ channel ∈ initialSubscriptions.take count, IsStateChannel config channel →
        MayRelease config s ⟨s.nextId, clientId⟩ [] channel
  | .unsubscribe transport channel =>
    ∀ client, s.transports transport = some (some client) →
      ⟨.state, channel⟩ ∈ s.subscriptions client → MayRelease config s client
        ((s.subscriptions client).filter fun other => decide (other.uri ≠ channel)) channel
  | .settle client channel true =>
    client ∈ connectionsOf s client.clientId ∨
      Wanted config { s with pendingSubscribes := s.pendingSubscribes.erase (client, channel) }
        client.clientId (config.parse channel)
  | .settle client channel false =>
    ¬ Wanted config { s with pendingSubscribes := s.pendingSubscribes.erase (client, channel) }
      client.clientId (config.parse channel)
  | .close transport =>
    ∀ client, s.transports transport = some (some client) →
      ∀ sub ∈ s.subscriptions client, sub.kind = .state → MayRelease config s client [] sub.uri
  | _ => True

theorem Invariant.new : Invariant config (new : ProtocolServerHandler T C U R) := by
  refine ⟨⟨⟨?_, ?_, ?_, ?_, ?_⟩, ?_⟩, ?_, ?_⟩ <;> simp [ProtocolServerHandler.new, connectionsOf, Wanted, Awaits]

theorem Invariant.attach (h : Invariant config s) (clientId : C) (stale : List C) :
    Ledger config
        ({ s with nextId := s.nextId + 1 }.attachConnection ⟨s.nextId, clientId⟩ stale) ∧
      (∀ c conn, conn ∈ connectionsOf
        ({ s with nextId := s.nextId + 1 }.attachConnection ⟨s.nextId, clientId⟩ stale) c ↔
        conn ∈ connectionsOf s c ∨ (c = clientId ∧ conn = ⟨s.nextId, clientId⟩)) ∧
      ⟨s.nextId, clientId⟩ ∉ connectionsOf s clientId := by
  refine ⟨h.ledger.attach clientId stale, fun c conn => ?_, fun hmem => ?_⟩
  · rw [connectionsOf_attachConnection]
    split
    next heq => simp [heq, connectionsOf]
    next heq => simp [heq, connectionsOf]
  · exact absurd (h.ledger.connections clientId _ hmem).2 (lt_irrefl _)

theorem previousGrace_ne (record : Option (ClientRecord C))
    (connections : List (ConnectedClient C)) : previousGrace record ≠ some (.active connections) := by
  cases record with
  | none => simp [previousGrace]
  | some record => cases record <;> simp [previousGrace]

theorem MayRelease.congr {kept : List (ChannelSubscription U)} {channel : U}
    (h : MayRelease config s client kept channel)
    (hconnections : ∀ other, other ≠ client →
      (other ∈ connectionsOf s' client.clientId ↔ other ∈ connectionsOf s client.clientId))
    (hsubscriptions : ∀ other, other ≠ client → s'.subscriptions other = s.subscriptions other)
    (hpending : s'.pendingSubscribes = s.pendingSubscribes) :
    MayRelease config s' client kept channel := by
  rcases h with ⟨other, hother, hne, sub, hsub, huri⟩ | ⟨hawaits, hkept, hothers⟩
  · refine .inl ⟨other, (hconnections other hne).mpr hother, hne, sub, ?_, huri⟩
    rw [hsubscriptions other hne]
    exact hsub
  · refine .inr ⟨by rwa [hpending], hkept, fun other hother hne huses => ?_⟩
    refine hothers other ((hconnections other hne).mp hother) hne ?_
    rwa [Uses, hsubscriptions other hne] at huses

theorem transports_detachConnection {ended : Option (ClientRecord C)}
    (hclient : client ∈ connectionsOf s client.clientId) :
    (s.detachConnection config client ended).transports = s.transports := by
  obtain ⟨subscribers, heq, -⟩ := @detachConnection_eq _ _ _ _ _ _ _ _ config s client ended hclient
  rw [heq]

theorem mem_connectionsOf_detachConnection (h : Ledger config s) {ended : Option (ClientRecord C)}
    (hended : ∀ connections, ended ≠ some (.active connections))
    (hclient : client ∈ connectionsOf s client.clientId) (clientId : C) (conn : ConnectedClient C) :
    conn ∈ connectionsOf (s.detachConnection config client ended) clientId ↔
      conn ∈ connectionsOf s clientId ∧ conn ≠ client := by
  obtain ⟨subscribers, heq, -⟩ := @detachConnection_eq _ _ _ _ _ _ _ _ config s client ended hclient
  rw [heq]
  exact mem_connectionsOf_detach hended h.toBookkept clientId conn

theorem Invariant.attachedDetached (h : Invariant config s) (clientId : C) (stale : List C)
    (hledger : Ledger config s')
    (hsame : SameBesides ⟨s.nextId, clientId⟩
      ({ s with nextId := s.nextId + 1 }.attachConnection ⟨s.nextId, clientId⟩ stale) s')
    (hsafe : ∀ sub ∈ s'.subscriptions ⟨s.nextId, clientId⟩, sub.kind = .state →
      MayRelease config s' ⟨s.nextId, clientId⟩ [] sub.uri) {record : Option (ClientRecord C)} :
    Invariant config
      (s'.detachConnection config ⟨s.nextId, clientId⟩ (previousGrace record)) := by
  obtain ⟨-, hconnections, hnew⟩ := h.attach clientId stale
  have hclient : ⟨s.nextId, clientId⟩ ∈ connectionsOf s' clientId := by
    rw [hsame.connectionsOf_eq, hconnections]
    exact .inr ⟨rfl, rfl⟩
  refine ⟨hledger.detach (previousGrace_ne record) hclient hsafe, h.linked.of_eq ?_ ?_⟩
  · rw [transports_detachConnection hclient, hsame.transports]
    rfl
  · intro c conn
    rw [mem_connectionsOf_detachConnection hledger (previousGrace_ne record) hclient,
      hsame.connectionsOf_eq, hconnections]
    constructor
    · rintro ⟨hconn | ⟨-, rfl⟩, hne⟩
      · exact hconn
      · exact absurd rfl hne
    · intro hconn
      refine ⟨.inl hconn, ?_⟩
      rintro rfl
      obtain rfl := (h.ledger.connections c _ hconn).1
      exact hnew hconn

theorem Invariant.initializeRequest (h : Invariant config s) {transport : T}
    (ht : s.transports transport = some none) (clientId : C) (initialSubscriptions : List U)
    (throwsAfter : Option Nat) (stale : List C)
    (hsafe : Undisturbed config s (.initializeRequest transport clientId true initialSubscriptions throwsAfter stale)) :
    Invariant config
      (s.handleInitialize config transport clientId initialSubscriptions throwsAfter stale) := by
  obtain ⟨hattached, hconnections, hnew⟩ := h.attach clientId stale
  have hclient := (hconnections clientId _).mpr (.inr ⟨rfl, rfl⟩)
  cases throwsAfter with
  | none =>
    obtain ⟨hledger, hsame, -, -⟩ := hattached.addInitialSubscriptions hclient initialSubscriptions
    refine ⟨hledger.withTransports _, h.linked.open ht hnew ?_ ?_⟩
    · exact congrArg (Function.update · transport _) hsame.transports
    · rintro c conn
      refine Iff.trans ?_ (hconnections c conn)
      rw [← hsame.connectionsOf_eq]
      rfl
  | some count =>
    obtain ⟨hledger, hsame, hpending, hentries⟩ :=
      hattached.addInitialSubscriptions hclient (initialSubscriptions.take count)
    have hmem := hsame.connectionsOf_eq clientId ▸ hclient
    refine h.attachedDetached clientId stale hledger hsame fun sub hsub hstate => ?_
    rcases hentries sub hsub with hsub | ⟨channel, hchannel, hclassified⟩
    · change sub ∈ s.subscriptions ⟨s.nextId, clientId⟩ at hsub
      rw [h.ledger.fresh _ le_rfl] at hsub
      cases hsub
    · have huri := uri_of_classifyChannel hclassified (by simp [hstate])
      have hkind := kind_eq_of_classifyChannel hclassified
      rw [hstate] at hkind
      rw [huri] at hkind ⊢
      refine (hsafe ht rfl channel hchannel (kindOf_eq_state.mp hkind.symm)).congr ?_ ?_ ?_
      · intro other hne
        rw [hsame.connectionsOf_eq, hconnections]
        simp [hne]
      · exact fun other hne => hsame.subscriptions other hne
      · exact hpending

theorem Invariant.reconnect (h : Invariant config s) {transport : T}
    (ht : s.transports transport = some none) (clientId : C) (subscriptions : List (U × Bool))
    (throws : Bool) (stale : List C) :
    Invariant config
      (s.handleReconnect config transport clientId subscriptions throws stale) := by
  obtain ⟨hattached, hconnections, hnew⟩ := h.attach clientId stale
  have hid : (⟨s.nextId, clientId⟩ : ConnectedClient C).id < s.nextId + 1 := Nat.lt_succ_self _
  obtain ⟨hledger, hsame, hentries⟩ := hattached.startSubscriptions hid subscriptions
  rw [handleReconnect]
  split
  next => exact h
  next existingRecord _ =>
    simp only
    split
    next =>
      refine h.attachedDetached clientId stale hledger hsame fun sub hsub hstate => ?_
      rcases hentries sub hsub with hsub | hne
      · change sub ∈ s.subscriptions ⟨s.nextId, clientId⟩ at hsub
        rw [h.ledger.fresh _ le_rfl] at hsub
        cases hsub
      · exact absurd hstate hne
    next =>
      refine ⟨hledger.withTransports _, h.linked.open ht hnew ?_ ?_⟩
      · exact congrArg (Function.update · transport _) hsame.transports
      · rintro c conn
        refine Iff.trans ?_ (hconnections c conn)
        rw [← hsame.connectionsOf_eq]
        rfl

theorem sameBesides_settleSubscription (channel : U) (resolves : Bool) :
    SameBesides client s (s.settleSubscription config client channel resolves) := by
  cases resolves with
  | true =>
    have h := @sameBesides_setSubscription _ _ _ _ _ _ _ _
      { s with pendingSubscribes := s.pendingSubscribes.erase (client, channel) } client ⟨.state, channel⟩
    exact ⟨h.clients, h.transports, h.nextId, h.subscriptions⟩
  | false => exact ⟨rfl, rfl, rfl, fun _ _ => rfl⟩

theorem sameBesides_removeSubscription (channel : U) :
    SameBesides client s (s.removeSubscription config client channel) := by
  have hkeep (kept : List (ChannelSubscription U)) (resourceSubscribers : R → List C) :
      SameBesides client s { s with
        subscriptions := Function.update s.subscriptions client kept
        resourceSubscribers } :=
    ⟨rfl, rfl, rfl, fun conn hne => by simp [Function.update_of_ne hne]⟩
  rw [removeSubscription]
  split
  next => exact .refl
  next =>
    split
    next => exact .refl
    next =>
      simp only
      split
      next => exact hkeep _ _
      next => exact hkeep _ _

/-- An undisturbed step keeps the invariant. -/
theorem Invariant.step {e : Event T C U} (h : Invariant config s) (hsafe : Undisturbed config s e)
    (hstep : step config s e = some s') : Invariant config s' := by
  cases e with
  | connection transport =>
    simp only [ProtocolServerHandler.step] at hstep
    split at hstep
    next ht =>
      cases hstep
      exact ⟨h.ledger.withTransports _, h.linked.updateUnused (by simp [ht]) (by simp)⟩
    next => cases hstep
  | initializeRequest transport clientId negotiated initialSubscriptions throwsAfter stale =>
    simp only [ProtocolServerHandler.step] at hstep
    split at hstep
    next => cases hstep
    next =>
      cases hstep
      exact h
    next ht =>
      split at hstep
      next hnegotiated =>
        cases hstep
        subst hnegotiated
        exact h.initializeRequest ht clientId initialSubscriptions throwsAfter stale hsafe
      next =>
        cases hstep
        exact h
  | reconnect transport clientId subscriptions throws stale =>
    simp only [ProtocolServerHandler.step] at hstep
    split at hstep
    next => cases hstep
    next =>
      cases hstep
      exact h
    next ht =>
      cases hstep
      exact h.reconnect ht clientId subscriptions throws stale
  | subscribe transport channel hasDescriptor =>
    simp only [ProtocolServerHandler.step] at hstep
    split at hstep
    next => cases hstep
    next =>
      cases hstep
      exact h
    next client ht =>
      cases hstep
      have hid := (h.ledger.connections _ client (h.linked.mem_of_transport ht)).2
      exact ⟨h.ledger.startSubscription hid channel hasDescriptor,
        h.linked.sameBesides (sameBesides_startSubscription channel hasDescriptor)⟩
  | unsubscribe transport channel =>
    simp only [ProtocolServerHandler.step] at hstep
    split at hstep
    next => cases hstep
    next =>
      cases hstep
      exact h
    next client ht =>
      cases hstep
      exact ⟨h.ledger.removeSubscription (h.linked.mem_of_transport ht) (hsafe client ht),
        h.linked.sameBesides (sameBesides_removeSubscription channel)⟩
  | settle client channel resolves =>
    simp only [ProtocolServerHandler.step] at hstep
    split at hstep
    next hmem =>
      cases hstep
      refine ⟨?_, h.linked.sameBesides (sameBesides_settleSubscription channel resolves)⟩
      cases resolves with
      | true => exact h.ledger.resolve hmem hsafe
      | false => exact h.ledger.reject hmem hsafe
    next => cases hstep
  | close transport =>
    simp only [ProtocolServerHandler.step] at hstep
    split at hstep
    next => cases hstep
    next client ht =>
      cases hstep
      cases client with
      | none => exact ⟨h.ledger.withTransports _, h.linked.updateUnused (by simp [ht]) (by simp)⟩
      | some client =>
        have hclient := h.linked.mem_of_transport ht
        have hended (connections : List (ConnectedClient C)) :
            some ClientRecord.grace ≠ some (.active connections) := by simp
        refine ⟨(h.ledger.detach hended hclient (hsafe client ht)).withTransports _, ?_⟩
        refine h.linked.close ht ?_ fun c conn => ?_
        · exact congrArg (Function.update · transport none) (transports_detachConnection hclient)
        · exact mem_connectionsOf_detachConnection h.ledger hended hclient c conn

end Steps

section Runs

variable (config) in
def Agrees (s : ProtocolServerHandler T C U R) (clientId : C) : Prop :=
  ∀ channel, IsStateChannel config channel →
    (clientId ∈ s.resourceSubscribers (config.parse channel) ↔
      ∃ transport conn, s.transports transport = some (some conn) ∧ conn.clientId = clientId ∧
        Uses config s conn (config.parse channel))

theorem Invariant.agrees (h : Invariant config s) {clientId : C}
    (hidle : ∀ p ∈ s.pendingSubscribes, p.1.clientId ≠ clientId) : Agrees config s clientId := by
  intro channel hchannel
  rw [h.ledger.subscribers clientId channel hchannel, Wanted, or_iff_left]
  · constructor
    · rintro ⟨conn, hconn, huses⟩
      obtain rfl := (h.ledger.connections clientId conn hconn).1
      obtain ⟨transport, ht⟩ := (h.linked.live conn).mpr hconn
      exact ⟨transport, conn, ht, rfl, huses⟩
    · rintro ⟨transport, conn, ht, rfl, huses⟩
      exact ⟨conn, h.linked.mem_of_transport ht, huses⟩
  · rintro ⟨p, hp, hclientId, -⟩
    exact hidle p hp hclientId

/-- In a run of undisturbed steps no subscriber leaks and none is lost. -/
theorem subscribers_agree (config : ChannelConfig U R) (es : List (Event T C U))
    (s : ProtocolServerHandler T C U R)
    (hok : Guarded (step config) (Undisturbed config) new es)
    (hrun : run (step config) new es = some s) (clientId : C)
    (hidle : ∀ p ∈ s.pendingSubscribes, p.1.clientId ≠ clientId) :
    Agrees config s clientId ∧
      ((∀ transport conn, s.transports transport = some (some conn) → conn.clientId ≠ clientId) →
        ∀ channel, IsStateChannel config channel →
          clientId ∉ s.resourceSubscribers (config.parse channel)) := by
  have h := run_invariant (Invariant config) (fun _ _ _ h hsafe hstep => h.step hsafe hstep) Invariant.new hok hrun
  have hagrees := h.agrees hidle
  refine ⟨hagrees, fun hclosed channel hchannel hmem => ?_⟩
  obtain ⟨transport, conn, ht, hconn, -⟩ := (hagrees channel hchannel).mp hmem
  exact hclosed transport conn ht hconn

def plainConfig : ChannelConfig Bool Bool where
  parse channel := channel
  isOtlp _ := false
  otlpLogsChannelUri _ := none
  isAhpResourceWatch _ := false
  hasOtlpLogEmitter := false
  isOtlp_otlpLogsChannelUri _ _ h := by cases h

def twoSubscriptions : List (Event Unit Unit Bool) :=
  [.connection (), .initializeRequest () () true [false] none [], .subscribe () true false, .settle ⟨0, ()⟩ true true]

theorem subscribers_agree_of_twoSubscriptions : ∃ s,
    run (step plainConfig) new twoSubscriptions = some s ∧ Agrees plainConfig s () := by
  obtain ⟨s, hrun⟩ := Option.isSome_iff_exists.mp
    (show (run (step plainConfig) new twoSubscriptions).isSome = true from rfl)
  have hok : Guarded (step plainConfig) (Undisturbed plainConfig) new twoSubscriptions := by
    refine ⟨trivial, ?_⟩
    rintro _ ⟨⟩
    refine ⟨trivial, ?_⟩
    rintro _ ⟨⟩
    refine ⟨trivial, ?_⟩
    rintro _ ⟨⟩
    exact ⟨.inl (by decide), fun _ _ => trivial⟩
  have hidle : ∀ p ∈ s.pendingSubscribes, p.1.clientId ≠ () := by
    cases hrun
    decide
  exact ⟨s, hrun, (subscribers_agree plainConfig twoSubscriptions s hok hrun () hidle).1⟩

def closedBeforeSettled : List (Event Unit Unit Bool) :=
  [.connection (), .initializeRequest () () true [] none [], .subscribe () true false, .close (),
    .settle ⟨0, ()⟩ true true]

/-- The agent service keeps a subscriber that has no connection. -/
theorem not_agrees : ¬ ∀ (T C U R : Type) [DecidableEq T] [DecidableEq C] [DecidableEq U]
    [DecidableEq R] (config : ChannelConfig U R) (es : List (Event T C U))
    (s : ProtocolServerHandler T C U R), run (step config) new es = some s → ∀ clientId,
    (∀ p ∈ s.pendingSubscribes, p.1.clientId ≠ clientId) → Agrees config s clientId := by
  intro h
  obtain ⟨s, hrun⟩ := Option.isSome_iff_exists.mp
    (show (run (step plainConfig) new closedBeforeSettled).isSome = true from rfl)
  have hagrees := h Unit Unit Bool Bool plainConfig closedBeforeSettled s hrun () (by
    cases hrun
    decide)
  have hmem : () ∈ s.resourceSubscribers true := by
    cases hrun
    decide
  obtain ⟨transport, conn, ht, -⟩ := (hagrees true ⟨rfl, rfl⟩).mp hmem
  cases hrun
  cases ht

end Runs

end Gavea.AgentHost.ProtocolServerHandler
