import Gavea.AgentHost.ProtocolServerHandler

set_option linter.unusedSectionVars false

namespace Gavea.AgentHost.ProtocolServerHandler

open Lib List

variable {T C U R : Type} [DecidableEq T] [DecidableEq C] [DecidableEq U] [DecidableEq R]
  {config : ChannelConfig U R} {s : ProtocolServerHandler T C U R} {client : ConnectedClient C}

section Channels

variable (config : ChannelConfig U R)

def IsStateChannel (channel : U) : Prop :=
  config.isOtlp channel = false ∧ config.isAhpResourceWatch (config.parse channel) = false

def kindOf (uri : U) : ChannelKind :=
  if config.isOtlp uri then .otlpLogs
  else if config.isAhpResourceWatch (config.parse uri) then .resourceWatch
  else .state

variable {config}

theorem kindOf_eq_state {uri : U} : kindOf config uri = .state ↔ IsStateChannel config uri := by
  rw [kindOf, IsStateChannel]
  split
  next h => simp [h]
  next h =>
    split
    next h' => simp [h']
    next h' => simp [h, h']

theorem kind_eq_of_classifyChannel {channel : U} {sub : ChannelSubscription U}
    (h : config.classifyChannel channel = some sub) : sub.kind = kindOf config sub.uri := by
  rw [ChannelConfig.classifyChannel] at h
  split at h
  next =>
    obtain ⟨uri, huri, rfl⟩ := Option.map_eq_some_iff.mp h
    rw [kindOf, if_pos (config.isOtlp_otlpLogsChannelUri channel uri huri)]
  next hotlp =>
    split at h
    next hwatch =>
      cases h
      rw [kindOf, if_neg hotlp, if_pos hwatch]
    next hwatch =>
      cases h
      rw [kindOf, if_neg hotlp, if_neg hwatch]

theorem uri_of_classifyChannel {channel : U} {sub : ChannelSubscription U}
    (h : config.classifyChannel channel = some sub) (hkind : sub.kind ≠ .otlpLogs) :
    sub.uri = channel := by
  rw [ChannelConfig.classifyChannel] at h
  split at h
  next =>
    obtain ⟨uri, -, rfl⟩ := Option.map_eq_some_iff.mp h
    exact absurd rfl hkind
  next => split at h <;> cases h <;> rfl

theorem parse_ne_of_resourceWatch {uri channel : U} (huri : kindOf config uri = .resourceWatch)
    (h : IsStateChannel config channel) : config.parse channel ≠ config.parse uri := by
  intro heq
  rw [kindOf] at huri
  split at huri
  next => cases huri
  next =>
    split at huri
    next hwatch =>
      rw [← heq, h.2] at hwatch
      cases hwatch
    next => cases huri

end Channels

section Observations

variable (config) in
def Uses (s : ProtocolServerHandler T C U R) (client : ConnectedClient C) (resource : R) : Prop :=
  ∃ sub ∈ s.subscriptions client, sub.kind = .state ∧ config.parse sub.uri = resource

variable (config) in
def Awaits (pending : List (ConnectedClient C × U)) (clientId : C) (resource : R) : Prop :=
  ∃ p ∈ pending, p.1.clientId = clientId ∧ config.parse p.2 = resource

def connectionsOf (s : ProtocolServerHandler T C U R) (clientId : C) : List (ConnectedClient C) :=
  match s.clients clientId with
  | some (.active connections) => connections
  | _ => []

variable (config) in
/-- Something that was asked for and not given up needs the registration of the client. -/
def Wanted (s : ProtocolServerHandler T C U R) (clientId : C) (resource : R) : Prop :=
  (∃ conn ∈ connectionsOf s clientId, Uses config s conn resource) ∨ Awaits config s.pendingSubscribes clientId resource

variable (config) in
/-- What holds between any two steps of the handler and inside of them about its own records. -/
structure Bookkept (s : ProtocolServerHandler T C U R) : Prop where
  kinds (conn : ConnectedClient C) : ∀ sub ∈ s.subscriptions conn, sub.kind = kindOf config sub.uri
  fresh (conn : ConnectedClient C) (h : s.nextId ≤ conn.id) : s.subscriptions conn = []
  pending : ∀ p ∈ s.pendingSubscribes, IsStateChannel config p.2 ∧ p.1.id < s.nextId
  nodup (clientId : C) : (connectionsOf s clientId).Nodup
  connections (clientId : C) : ∀ conn ∈ connectionsOf s clientId, conn.clientId = clientId ∧ conn.id < s.nextId

variable (config) in
structure Ledger (s : ProtocolServerHandler T C U R) : Prop extends Bookkept config s where
  subscribers (clientId : C) (channel : U) (h : IsStateChannel config channel) :
    clientId ∈ s.resourceSubscribers (config.parse channel) ↔ Wanted config s clientId (config.parse channel)

end Observations

section Primitives

theorem mem_addSubscriber {resource resource' : R} {clientId clientId' : C} :
    clientId' ∈ (s.addSubscriber resource clientId).resourceSubscribers resource' ↔
      clientId' ∈ s.resourceSubscribers resource' ∨
        (clientId' = clientId ∧ resource' = resource) := by
  by_cases heq : resource' = resource
  · subst heq
    simp only [addSubscriber, Function.update_self, and_true]
    split
    next hmem =>
      refine ⟨.inl, ?_⟩
      rintro (h | rfl)
      · exact h
      · exact hmem
    next => simp
  · simp [addSubscriber, heq]

theorem mem_unsubscribe {resource resource' : R} {clientId clientId' : C} :
    clientId' ∈ (s.unsubscribe resource clientId).resourceSubscribers resource' ↔
      clientId' ∈ s.resourceSubscribers resource' ∧
        ¬ (clientId' = clientId ∧ resource' = resource) := by
  by_cases heq : resource' = resource
  · subst heq
    simp [unsubscribe]
  · simp [unsubscribe, heq]

theorem mem_setFirst {α : Type} {p : α → Bool} {x y : α} {l : List α}
    (h : ∀ z ∈ l, p z = true → z = x) : y ∈ setFirst p x l ↔ y ∈ l ∨ y = x := by
  induction l with
  | nil => simp [setFirst]
  | cons z l ih =>
    rw [forall_mem_cons] at h
    rw [setFirst]
    split
    next hz =>
      rw [h.1 hz, mem_cons]
      tauto
    next => rw [mem_cons, mem_cons, ih h.2, or_assoc]

theorem mem_setSubscription (hkinds : ∀ sub ∈ s.subscriptions client, sub.kind = kindOf config sub.uri)
    {sub sub' : ChannelSubscription U} (hkind : sub.kind = kindOf config sub.uri)
    {conn : ConnectedClient C} :
    sub' ∈ (s.setSubscription client sub).subscriptions conn ↔
      sub' ∈ s.subscriptions conn ∨ (conn = client ∧ sub' = sub) := by
  by_cases heq : conn = client
  · subst heq
    simp only [setSubscription, Function.update_self, true_and]
    refine mem_setFirst fun other hother huri => ?_
    have huri : other.uri = sub.uri := by simpa using huri
    have hother := hkinds other hother
    rw [huri, ← hkind] at hother
    cases other
    cases sub
    simp_all
  · simp [setSubscription, heq]

variable (config) in
def Releases (s : ProtocolServerHandler T C U R) (client : ConnectedClient C)
    (record : ClientRecord C) (subs : List (ChannelSubscription U)) (resource : R) : Prop :=
  ∃ sub ∈ subs, sub.kind = .state ∧
    s.hasSubscriptionInOtherConnection record client sub.uri = false ∧ config.parse sub.uri = resource

theorem releaseEach_eq (record : ClientRecord C) (subs : List (ChannelSubscription U)) :
    ∃ subscribers, releaseEach config client record subs s =
        { s with resourceSubscribers := subscribers } ∧
      ∀ resource clientId, clientId ∈ subscribers resource ↔
        clientId ∈ s.resourceSubscribers resource ∧
          ¬ (clientId = client.clientId ∧ Releases config s client record subs resource) := by
  induction subs generalizing s with
  | nil => exact ⟨s.resourceSubscribers, rfl, by simp [Releases]⟩
  | cons sub subs ih =>
    rw [releaseEach]
    split
    next hsub =>
      obtain ⟨subscribers, heq, hmem⟩ := @ih (s.unsubscribe (config.parse sub.uri) client.clientId)
      refine ⟨subscribers, heq, fun resource clientId => ?_⟩
      rw [hmem, mem_unsubscribe]
      have hreleases : Releases config s client record (sub :: subs) resource ↔
          config.parse sub.uri = resource ∨
            Releases config (s.unsubscribe (config.parse sub.uri) client.clientId) client record
              subs resource := by
        simp only [Releases, exists_mem_cons_iff, hsub.1, hsub.2, true_and]
        rfl
      rw [hreleases]
      tauto
    next hsub =>
      obtain ⟨subscribers, heq, hmem⟩ := @ih s
      refine ⟨subscribers, heq, fun resource clientId => ?_⟩
      have hreleases : Releases config s client record (sub :: subs) resource ↔
          Releases config s client record subs resource := by
        rw [Releases, exists_mem_cons_iff, or_iff_right]
        · rfl
        · exact fun h => hsub ⟨h.1, h.2.1⟩
      rw [hmem, hreleases]

end Primitives

section Ledger

theorem uses_setSubscription (h : Bookkept config s) {sub : ChannelSubscription U}
    (hkind : sub.kind = kindOf config sub.uri) {conn : ConnectedClient C} {resource : R} :
    Uses config (s.setSubscription client sub) conn resource ↔
      Uses config s conn resource ∨
        (conn = client ∧ sub.kind = .state ∧ config.parse sub.uri = resource) := by
  simp only [Uses, mem_setSubscription (h.kinds client) hkind]
  constructor
  · rintro ⟨sub', hmem | ⟨rfl, rfl⟩, hsub'⟩
    · exact .inl ⟨sub', hmem, hsub'⟩
    · exact .inr ⟨rfl, hsub'⟩
  · rintro (⟨sub', hmem, hsub'⟩ | ⟨rfl, hsub⟩)
    · exact ⟨sub', .inl hmem, hsub'⟩
    · exact ⟨sub, .inr ⟨rfl, rfl⟩, hsub⟩

theorem wanted_setSubscription (h : Bookkept config s) {sub : ChannelSubscription U}
    (hkind : sub.kind = kindOf config sub.uri) {clientId : C} {resource : R} :
    Wanted config (s.setSubscription client sub) clientId resource ↔
      Wanted config s clientId resource ∨ (client ∈ connectionsOf s clientId ∧ sub.kind = .state ∧
        config.parse sub.uri = resource) := by
  have hconnections : connectionsOf (s.setSubscription client sub) clientId = connectionsOf s clientId := rfl
  simp only [Wanted, uses_setSubscription h hkind, hconnections]
  constructor
  · rintro (⟨conn, hconn, huses | ⟨rfl, hsub⟩⟩ | hawaits)
    · exact .inl (.inl ⟨conn, hconn, huses⟩)
    · exact .inr ⟨hconn, hsub⟩
    · exact .inl (.inr hawaits)
  · rintro ((⟨conn, hconn, huses⟩ | hawaits) | ⟨hclient, hsub⟩)
    · exact .inl ⟨conn, hconn, .inl huses⟩
    · exact .inr hawaits
    · exact .inl ⟨client, hclient, .inr ⟨rfl, hsub⟩⟩

theorem Bookkept.setSubscription (h : Bookkept config s) (hid : client.id < s.nextId)
    {sub : ChannelSubscription U} (hkind : sub.kind = kindOf config sub.uri) :
    Bookkept config (s.setSubscription client sub) where
  kinds conn sub' hsub' := by
    rcases (mem_setSubscription (h.kinds client) hkind).mp hsub' with hsub' | ⟨rfl, rfl⟩
    · exact h.kinds conn sub' hsub'
    · exact hkind
  fresh conn hconn := by
    have hne : conn ≠ client := by
      rintro rfl
      exact absurd hconn (not_le.mpr hid)
    simpa [ProtocolServerHandler.setSubscription, Function.update_of_ne hne] using h.fresh conn hconn
  pending := h.pending
  nodup := h.nodup
  connections := h.connections

theorem Bookkept.withSubscribers (h : Bookkept config s) (resourceSubscribers : R → List C) :
    Bookkept config { s with resourceSubscribers } :=
  ⟨h.kinds, h.fresh, h.pending, h.nodup, h.connections⟩

theorem Bookkept.erasePending (h : Bookkept config s) (p : ConnectedClient C × U) :
    Bookkept config { s with pendingSubscribes := s.pendingSubscribes.erase p } :=
  ⟨h.kinds, h.fresh, fun q hq => h.pending q (mem_of_mem_erase hq), h.nodup, h.connections⟩

theorem Ledger.setOther (h : Ledger config s) (hid : client.id < s.nextId)
    {sub : ChannelSubscription U} (hkind : sub.kind = kindOf config sub.uri)
    (hne : sub.kind ≠ .state) : Ledger config (s.setSubscription client sub) := by
  refine ⟨h.toBookkept.setSubscription hid hkind, fun clientId channel hchannel => ?_⟩
  rw [wanted_setSubscription h.toBookkept hkind, or_iff_left fun hstate => hne hstate.2.1]
  exact h.subscribers clientId channel hchannel

theorem Ledger.addSubscriber_of_ne (h : Ledger config s) {resource : R} {clientId : C}
    (hne : ∀ channel, IsStateChannel config channel → config.parse channel ≠ resource) :
    Ledger config (s.addSubscriber resource clientId) := by
  refine ⟨h.toBookkept.withSubscribers _, fun clientId channel hchannel => ?_⟩
  rw [mem_addSubscriber, or_iff_left fun heq => hne channel hchannel heq.2]
  exact h.subscribers clientId channel hchannel

theorem Ledger.install (h : Ledger config s) (hclient : client ∈ connectionsOf s client.clientId)
    {channel : U} (hchannel : IsStateChannel config channel) :
    Ledger config ((s.setSubscription client ⟨.state, channel⟩).addSubscriber
      (config.parse channel) client.clientId) := by
  have hkind : ChannelKind.state = kindOf config channel := (kindOf_eq_state.mpr hchannel).symm
  have hid := (h.connections _ client hclient).2
  refine ⟨(h.toBookkept.setSubscription hid hkind).withSubscribers _, fun clientId other hother => ?_⟩
  refine Iff.trans ?_ (wanted_setSubscription h.toBookkept hkind).symm
  rw [← h.subscribers clientId other hother]
  refine mem_addSubscriber.trans (or_congr Iff.rfl ⟨?_, ?_⟩)
  · rintro ⟨rfl, heq⟩
    exact ⟨hclient, rfl, heq.symm⟩
  · rintro ⟨hmem, -, heq⟩
    exact ⟨(h.connections clientId client hmem).1.symm, heq.symm⟩

theorem awaits_append {pending : List (ConnectedClient C × U)} {channel : U} {clientId : C}
    {resource : R} :
    Awaits config (pending ++ [(client, channel)]) clientId resource ↔
      Awaits config pending clientId resource ∨
        (client.clientId = clientId ∧ config.parse channel = resource) := by
  simp only [Awaits, mem_append, mem_singleton, or_and_right, exists_or, exists_eq_left]

theorem awaits_erase {pending : List (ConnectedClient C × U)} {channel : U} {clientId : C}
    {resource : R} (h : (client, channel) ∈ pending) :
    Awaits config pending clientId resource ↔
      Awaits config (pending.erase (client, channel)) clientId resource ∨
        (client.clientId = clientId ∧ config.parse channel = resource) := by
  have hperm := perm_cons_erase h
  simp only [Awaits, hperm.mem_iff, mem_cons, or_and_right, exists_or, exists_eq_left]
  exact or_comm

theorem Ledger.awaitSubscribe (h : Ledger config s) (hid : client.id < s.nextId) {channel : U}
    (hchannel : IsStateChannel config channel) :
    Ledger config { s.addSubscriber (config.parse channel) client.clientId with
      pendingSubscribes := s.pendingSubscribes ++ [(client, channel)] } where
  kinds := h.kinds
  fresh := h.fresh
  pending p hp := by
    rcases mem_append.mp hp with hp | hp
    · exact h.pending p hp
    · rw [mem_singleton.mp hp]
      exact ⟨hchannel, hid⟩
  nodup := h.nodup
  connections := h.connections
  subscribers clientId other hother := by
    refine mem_addSubscriber.trans ?_
    rw [h.subscribers clientId other hother, Wanted, Wanted, or_assoc]
    refine or_congr Iff.rfl ?_
    rw [awaits_append]
    refine or_congr Iff.rfl ⟨?_, ?_⟩ <;> exact fun heq => ⟨heq.1.symm, heq.2.symm⟩

theorem Ledger.addInitialSubscription (h : Ledger config s)
    (hclient : client ∈ connectionsOf s client.clientId) (channel : U) :
    Ledger config (s.addInitialSubscription config client channel) := by
  have hid := (h.connections _ client hclient).2
  rw [ProtocolServerHandler.addInitialSubscription]
  split
  next => exact h
  next uri hsub =>
    split
    · exact h.setOther hid (kind_eq_of_classifyChannel hsub) (by simp)
    · exact h
  next sub hne hsub =>
    have hkind := kind_eq_of_classifyChannel hsub
    obtain ⟨kind, uri⟩ := sub
    cases kind with
    | otlpLogs => exact (hne uri rfl).elim
    | state => exact h.install hclient (kindOf_eq_state.mp hkind.symm)
    | resourceWatch =>
      refine (h.setOther hid hkind (by simp)).addSubscriber_of_ne fun channel hchannel => ?_
      exact parse_ne_of_resourceWatch hkind.symm hchannel

theorem Ledger.startSubscription (h : Ledger config s) (hid : client.id < s.nextId) (channel : U)
    (hasDescriptor : Bool) :
    Ledger config (s.startSubscription config client channel hasDescriptor) := by
  rw [ProtocolServerHandler.startSubscription]
  split
  next => exact h
  next uri hsub =>
    split
    · exact h.setOther hid (kind_eq_of_classifyChannel hsub) (by simp)
    · exact h
  next uri hsub =>
    split
    · exact h.setOther hid (kind_eq_of_classifyChannel hsub) (by simp)
    · exact h
  next uri hsub =>
    obtain rfl : uri = channel := uri_of_classifyChannel hsub (by simp)
    exact h.awaitSubscribe hid (kindOf_eq_state.mp (kind_eq_of_classifyChannel hsub).symm)

theorem Ledger.resolve (h : Ledger config s) {channel : U}
    (hmem : (client, channel) ∈ s.pendingSubscribes)
    (hsafe : client ∈ connectionsOf s client.clientId ∨
      Wanted config { s with pendingSubscribes := s.pendingSubscribes.erase (client, channel) }
        client.clientId (config.parse channel)) :
    Ledger config (s.settleSubscription config client channel true) := by
  obtain ⟨hchannel, hid⟩ := h.pending _ hmem
  have hkind : ChannelKind.state = kindOf config channel := (kindOf_eq_state.mpr hchannel).symm
  have hbook := h.toBookkept.erasePending (client, channel)
  refine ⟨hbook.setSubscription hid hkind, fun clientId other hother => ?_⟩
  refine (h.subscribers clientId other hother).trans (Iff.trans ?_ (wanted_setSubscription hbook hkind).symm)
  rw [Wanted, awaits_erase hmem, ← or_assoc]
  refine ⟨?_, ?_⟩
  · rintro (hwanted | ⟨rfl, heq⟩)
    · exact .inl hwanted
    · rcases hsafe with hclient | hwanted
      · exact .inr ⟨hclient, rfl, heq⟩
      · exact .inl (heq ▸ hwanted)
  · rintro (hwanted | ⟨hclient, -, heq⟩)
    · exact .inl hwanted
    · exact .inr ⟨(h.connections clientId client hclient).1, heq⟩

theorem Ledger.reject (h : Ledger config s) {channel : U}
    (hmem : (client, channel) ∈ s.pendingSubscribes)
    (hsafe : ¬ Wanted config
      { s with pendingSubscribes := s.pendingSubscribes.erase (client, channel) }
        client.clientId (config.parse channel)) :
    Ledger config (s.settleSubscription config client channel false) := by
  refine ⟨(h.toBookkept.erasePending (client, channel)).withSubscribers _, fun clientId other hother => ?_⟩
  refine mem_unsubscribe.trans ?_
  refine (and_congr_left' (h.subscribers clientId other hother)).trans ?_
  rw [Wanted, awaits_erase hmem, ← or_assoc]
  refine ⟨?_, fun hwanted => ⟨.inl hwanted, ?_⟩⟩
  · rintro ⟨hwanted | ⟨rfl, heq⟩, hne⟩
    · exact hwanted
    · exact absurd ⟨rfl, heq.symm⟩ hne
  · rintro ⟨rfl, heq⟩
    exact hsafe (heq ▸ hwanted)

theorem connectionsOf_attachConnection (stale : List C) (clientId : C) :
    connectionsOf (s.attachConnection client stale) clientId =
      if clientId = client.clientId then connectionsOf s clientId ++ [client]
      else connectionsOf s clientId := by
  by_cases heq : clientId = client.clientId
  · subst heq
    simp only [connectionsOf, attachConnection, if_true]
    cases s.clients client.clientId with
    | none => rfl
    | some record => cases record <;> rfl
  · simp only [connectionsOf, attachConnection, if_neg heq]
    cases s.clients clientId with
    | none => rfl
    | some record =>
      cases record with
      | active connections => rfl
      | grace =>
        dsimp only
        split
        next h =>
          split at h
          · cases h
          · cases h
        next => rfl

theorem Ledger.attach (h : Ledger config s) (clientId : C) (stale : List C) :
    Ledger config
      ({ s with nextId := s.nextId + 1 }.attachConnection ⟨s.nextId, clientId⟩ stale) := by
  have hconnections (c : C) := @connectionsOf_attachConnection _ _ _ _ _ _ _ _
    { s with nextId := s.nextId + 1 } ⟨s.nextId, clientId⟩ stale c
  have hmem (c : C) (conn : ConnectedClient C) : conn ∈ connectionsOf
      ({ s with nextId := s.nextId + 1 }.attachConnection ⟨s.nextId, clientId⟩ stale) c ↔
      conn ∈ connectionsOf s c ∨ (c = clientId ∧ conn = ⟨s.nextId, clientId⟩) := by
    rw [hconnections]
    split
    next heq => simp [heq, connectionsOf]
    next heq => simp [heq, connectionsOf]
  refine ⟨⟨h.kinds, fun conn hconn => h.fresh conn (Nat.le_of_succ_le hconn), fun p hp => ?_,
    fun c => ?_, fun c conn hconn => ?_⟩, fun c channel hchannel => ?_⟩
  · exact ⟨(h.pending p hp).1, Nat.lt_succ_of_lt (h.pending p hp).2⟩
  · rw [hconnections]
    split
    next heq =>
      refine nodup_append.mpr ⟨h.nodup c, nodup_singleton _, ?_⟩
      rintro conn hconn other hother rfl
      rw [mem_singleton.mp hother] at hconn
      exact absurd (h.connections c _ hconn).2 (lt_irrefl _)
    next => exact h.nodup c
  · rcases (hmem c conn).mp hconn with hconn | ⟨rfl, rfl⟩
    · exact ⟨(h.connections c conn hconn).1, Nat.lt_succ_of_lt (h.connections c conn hconn).2⟩
    · exact ⟨rfl, Nat.lt_succ_self _⟩
  · refine (h.subscribers c channel hchannel).trans (or_congr ?_ Iff.rfl)
    have hfresh : ¬ Uses config s ⟨s.nextId, clientId⟩ (config.parse channel) := by
      rintro ⟨sub, hsub, -⟩
      rw [h.fresh _ le_rfl] at hsub
      cases hsub
    refine ⟨fun ⟨conn, hconn, huses⟩ => ⟨conn, (hmem c conn).mpr (.inl hconn), huses⟩, ?_⟩
    rintro ⟨conn, hconn, huses⟩
    rcases (hmem c conn).mp hconn with hconn | ⟨-, rfl⟩
    · exact ⟨conn, hconn, huses⟩
    · exact absurd huses hfresh

variable (config) in
/-- Nothing needs the registration of a channel once the client's entry for it is released. -/
def MayRelease (s : ProtocolServerHandler T C U R) (client : ConnectedClient C)
    (kept : List (ChannelSubscription U)) (channel : U) : Prop :=
  (∃ other ∈ connectionsOf s client.clientId, other ≠ client ∧
      ∃ sub ∈ s.subscriptions other, sub.uri = channel) ∨
    (¬ Awaits config s.pendingSubscribes client.clientId (config.parse channel) ∧
      (∀ sub ∈ kept, sub.kind = .state → config.parse sub.uri ≠ config.parse channel) ∧
        ∀ other ∈ connectionsOf s client.clientId, other ≠ client → ¬ Uses config s other (config.parse channel))

theorem hasSubscriptionInOtherConnection_iff {connections : List (ConnectedClient C)} {uri : U} :
    s.hasSubscriptionInOtherConnection (.active connections) client uri = true ↔
      ∃ other ∈ connections, other ≠ client ∧ ∃ sub ∈ s.subscriptions other, sub.uri = uri := by
  simp [hasSubscriptionInOtherConnection, any_eq_true]

theorem Ledger.released (h : Ledger config s) (hclient : client ∈ connectionsOf s client.clientId)
    (released kept : List (ChannelSubscription U))
    (hentries : ∀ sub, sub ∈ s.subscriptions client ↔ sub ∈ released ∨ sub ∈ kept)
    (hsafe : ∀ sub ∈ released, sub.kind = .state → MayRelease config s client kept sub.uri)
    (clientId : C) {channel : U} (hchannel : IsStateChannel config channel) :
    (clientId ∈ s.resourceSubscribers (config.parse channel) ∧
      ¬ (clientId = client.clientId ∧
        Releases config s client (.active (connectionsOf s client.clientId)) released (config.parse channel))) ↔
      (∃ conn ∈ connectionsOf s clientId, conn ≠ client ∧ Uses config s conn (config.parse channel)) ∨
        (clientId = client.clientId ∧ ∃ sub ∈ kept, sub.kind = .state ∧ config.parse sub.uri = config.parse channel) ∨
        Awaits config s.pendingSubscribes clientId (config.parse channel) := by
  rw [h.subscribers clientId channel hchannel]
  constructor
  · rintro ⟨⟨conn, hconn, huses⟩ | hawaits, hnot⟩
    · by_cases hne : conn = client
      · subst hne
        obtain rfl := (h.connections clientId conn hconn).1
        obtain ⟨sub, hsub, hkind, hparse⟩ := huses
        rcases (hentries sub).mp hsub with hsub | hsub
        · -- the entry was released without an effect on the registration
          rcases hsafe sub hsub hkind with ⟨other, hother, hne, sub', hsub', huri⟩ | hsafe
          · refine .inl ⟨other, hother, hne, sub', hsub', ?_, by rw [huri, hparse]⟩
            rw [h.kinds other sub' hsub', huri, ← h.kinds conn sub ((hentries sub).mpr (.inl hsub)), hkind]
          · refine absurd ⟨rfl, sub, hsub, hkind, ?_, hparse⟩ hnot
            rw [Bool.eq_false_iff]
            intro hother
            obtain ⟨other, hother, hne, sub', hsub', huri⟩ := hasSubscriptionInOtherConnection_iff.mp hother
            refine hsafe.2.2 other hother hne ⟨sub', hsub', ?_, by rw [huri]⟩
            rw [h.kinds other sub' hsub', huri, ← h.kinds conn sub ((hentries sub).mpr (.inl hsub)), hkind]
        · exact .inr (.inl ⟨rfl, sub, hsub, hkind, hparse⟩)
      · exact .inl ⟨conn, hconn, hne, huses⟩
    · exact .inr (.inr hawaits)
  · intro hwanted
    refine ⟨?_, ?_⟩
    · rcases hwanted with ⟨conn, hconn, -, huses⟩ | ⟨rfl, sub, hsub, hkind, hparse⟩ | hawaits
      · exact .inl ⟨conn, hconn, huses⟩
      · exact .inl ⟨client, hclient, sub, (hentries sub).mpr (.inr hsub), hkind, hparse⟩
      · exact .inr hawaits
    · rintro ⟨rfl, sub, hsub, hkind, hother, hparse⟩
      rcases hsafe sub hsub hkind with hshared | ⟨hawaits, hkept, hothers⟩
      · rw [hasSubscriptionInOtherConnection_iff.mpr hshared] at hother
        cases hother
      · rw [hparse] at hawaits hkept hothers
        rcases hwanted with ⟨conn, hconn, hne, huses⟩ | ⟨-, sub', hsub', hkind', hparse'⟩ | h'
        · exact hothers conn hconn hne huses
        · exact hkept sub' hsub' hkind' hparse'
        · exact hawaits h'

end Ledger

end Gavea.AgentHost.ProtocolServerHandler
