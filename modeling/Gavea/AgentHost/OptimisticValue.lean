import Gavea.AgentHost.Rejection

namespace Gavea.AgentHost

open Gavea.Lib.Runs Subscription

variable {S A : Type}

def replay (C : Component S A) (confirmed : S) (times : List Timestamp)
    (pending : List (PendingAction A)) : S :=
  (times.zip pending).foldl (fun state p => C.reducer p.1 state p.2.action) confirmed

def Current (C : Component S A) (s : Subscription S A) : Prop :=
  match s.confirmedState with
  | none => s.optimisticState = none
  | some confirmed =>
    ∃ times : List Timestamp, times.length = s.pendingActions.length ∧
      s.optimisticState.getD confirmed = replay C confirmed times s.pendingActions

def ValueIsReplay (C : Component S A) (s : Subscription S A) : Prop :=
  s.error = none →
    match s.verifiedValue with
    | none => s.value = .undefined
    | some confirmed =>
      ∃ times : List Timestamp, times.length = s.pendingActions.length ∧
        s.value = .state (replay C confirmed times s.pendingActions)

theorem Current.valueIsReplay {C : Component S A} {s : Subscription S A} (h : Current C s) :
    ValueIsReplay C s := by
  intro herr
  unfold Current at h
  cases hc : s.confirmedState with
  | none =>
    rw [hc] at h
    simp only [verifiedValue, hc, value, herr, h]
    rfl
  | some confirmed =>
    rw [hc] at h
    obtain ⟨times, hlen, hopt⟩ := h
    simp only [verifiedValue, hc]
    refine ⟨times, hlen, ?_⟩
    rw [← hopt, value, herr, hc]
    cases s.optimisticState <;> rfl

theorem Current.congr {C : Component S A} {s s' : Subscription S A} (h : Current C s)
    (hconfirmed : s'.confirmedState = s.confirmedState)
    (hpending : s'.pendingActions = s.pendingActions)
    (hoptimistic : s'.optimisticState = s.optimisticState) : Current C s' := by
  unfold Current at h ⊢
  rw [hconfirmed, hpending, hoptimistic]
  exact h

theorem replay_replicate (C : Component S A) (now : Timestamp) (confirmed : S)
    (pending : List (PendingAction A)) :
    replay C confirmed (List.replicate pending.length now) pending =
      pending.foldl (fun state p => C.reducer now state p.action) confirmed := by
  induction pending generalizing confirmed with
  | nil => rfl
  | cons p pending ih => exact ih (C.reducer now confirmed p.action)

theorem replay_append (C : Component S A) (confirmed : S) (times : List Timestamp)
    (pending : List (PendingAction A)) (h : times.length = pending.length) (now : Timestamp)
    (p : PendingAction A) :
    replay C confirmed (times ++ [now]) (pending ++ [p]) =
      C.reducer now (replay C confirmed times pending) p.action := by
  rw [replay, List.zip_append h, List.foldl_append]
  rfl

theorem recomputeOptimistic_current (C : Component S A) (now : Timestamp)
    (s : Subscription S A) : Current C (s.recomputeOptimistic C now) := by
  unfold Current
  rw [recomputeOptimistic_confirmedState, recomputeOptimistic_pendingActions]
  cases hc : s.confirmedState with
  | none => simp [recomputeOptimistic, hc]
  | some confirmed =>
    refine ⟨List.replicate s.pendingActions.length now, List.length_replicate, ?_⟩
    rw [replay_replicate]
    by_cases hp : s.pendingActions = []
    · simp [recomputeOptimistic, hc, hp]
    · simp [recomputeOptimistic, hc, hp]

theorem applyOptimistic_current (C : Component S A) (now : Timestamp) (s : Subscription S A)
    (clientSeq : Nat) (action : A) (h : Current C s) :
    Current C (s.applyOptimistic C now clientSeq action) := by
  unfold Current at h
  cases hc : s.confirmedState with
  | none =>
    rw [hc] at h
    simp [Current, applyOptimistic, verifiedValue, hc, h]
  | some confirmed =>
    rw [hc] at h
    obtain ⟨times, hlen, hopt⟩ := h
    have hbase : (s.optimisticState <|> s.verifiedValue) =
        some (s.optimisticState.getD confirmed) := by
      rw [verifiedValue, hc]
      cases s.optimisticState <;> rfl
    simp only [Current, applyOptimistic, hbase, hc]
    refine ⟨times ++ [now], by simp [hlen], ?_⟩
    rw [replay_append C confirmed times s.pendingActions hlen, ← hopt]
    rfl

theorem clearPending_current (C : Component S A) (s : Subscription S A) :
    Current C s.clearPending := by
  unfold Current
  split
  · rfl
  · exact ⟨[], rfl, rfl⟩

theorem dropPending_current (C : Component S A) (s : Subscription S A) (clientSeq : Nat)
    (h : Current C s) (hno : (s.confirmedState.isSome && s.hasPending clientSeq) = false) :
    Current C (s.dropPending clientSeq) := by
  cases hc : s.confirmedState with
  | none =>
    unfold Current at h ⊢
    rw [hc] at h
    simpa [dropPending, hc] using h
  | some confirmed =>
    rw [hc, Option.isSome_some, Bool.true_and] at hno
    have herase : s.pendingActions.eraseP (·.clientSeq == clientSeq) = s.pendingActions := by
      refine List.eraseP_of_forall_not fun p hp hseq => ?_
      rw [hasPending] at hno
      exact Bool.false_ne_true (hno.symm.trans (List.any_eq_true.mpr ⟨p, hp, hseq⟩))
    exact h.congr rfl herase rfl

def recomputes (C : SubscriptionClass S A) (s : Subscription S A) : Operation S A → Bool
  | .handleSnapshot .. | .applyReconnectSnapshot .. | .clearPending => true
  | .receiveEnvelope envelope => s.isRelevantEnvelope C.toComponent envelope && s.confirmedState.isSome
  | .markSubscriptionMissing _ => C.sessionOrChat
  | .applyOptimistic .. | .dropPendingByClientSeq _ | .setError _ => false

def leavesBehind (s : Subscription S A) : Operation S A → Bool
  | .dropPendingByClientSeq clientSeq => s.confirmedState.isSome && s.hasPending clientSeq
  | _ => false

/-- After the run the optimistic state still shows an action that was dropped. -/
def stale (C : SubscriptionClass S A) :
    Bool → Subscription S A → List (TimedOperation S A) → Bool
  | before, _, [] => before
  | before, s, e :: es =>
    match C.step s e with
    | none => before
    | some s' => stale C (!recomputes C s e.operation && (before || leavesBehind s e.operation)) s' es

theorem handleSnapshot_current (k : Kind) (now : Timestamp) (s : Subscription k.State k.Action)
    (state : k.State) (fromSeq : Nat) :
    Current k.subscriptionClass.toComponent (k.subscriptionClass.handleSnapshot now s state fromSeq) :=
  recomputeOptimistic_current _ _ _

theorem step_current (k : Kind) {s s' : Subscription k.State k.Action}
    {timed : TimedOperation k.State k.Action} {before : Bool}
    (h : before = false → Current k.subscriptionClass.toComponent s)
    (hstep : k.subscriptionClass.step s timed = some s')
    (hstale : (!recomputes k.subscriptionClass s timed.operation &&
      (before || leavesBehind s timed.operation)) = false) :
    Current k.subscriptionClass.toComponent s' := by
  unfold SubscriptionClass.step at hstep
  split at hstep
  · obtain rfl := Option.some.inj hstep
    exact handleSnapshot_current k _ _ _ _
  · next envelope heq =>
      obtain rfl := Option.some.inj hstep
      rw [heq] at hstale
      simp only [recomputes, leavesBehind, Bool.or_false] at hstale
      unfold SubscriptionClass.receiveEnvelope
      split
      · next hrelevant =>
          split
          · next hc =>
              simp only [hrelevant, hc, Option.isSome_none, Bool.and_false, Bool.not_false, Bool.true_and] at hstale
              exact (h hstale).congr rfl rfl rfl
          · obtain ⟨next, -, heq⟩ := reconcile_reseats timed.now envelope k s (s.isOwnAction envelope)
            rw [heq]
            exact recomputeOptimistic_current _ _ _
      · next hrelevant =>
          simp only [hrelevant, Bool.false_and, Bool.not_false, Bool.true_and] at hstale
          exact h hstale
  · next clientSeq action heq =>
      obtain rfl := Option.some.inj hstep
      rw [heq] at hstale
      simp only [recomputes, leavesBehind, Bool.or_false, Bool.not_false, Bool.true_and] at hstale
      exact applyOptimistic_current _ _ _ _ _ (h hstale)
  · next clientSeq heq =>
      rw [heq] at hstale
      simp only [recomputes, leavesBehind, Bool.not_false, Bool.true_and, Bool.or_eq_false_iff] at hstale
      split at hstep
      · obtain rfl := Option.some.inj hstep
        exact dropPending_current _ s clientSeq (h hstale.1) hstale.2
      · cases hstep
  · split at hstep
    · obtain rfl := Option.some.inj hstep
      exact clearPending_current _ s
    · cases hstep
  · obtain rfl := Option.some.inj hstep
    exact handleSnapshot_current k _ _ _ _
  · next message heq =>
      obtain rfl := Option.some.inj hstep
      rw [heq] at hstale
      simp only [recomputes, leavesBehind, Bool.or_false] at hstale
      unfold SubscriptionClass.markSubscriptionMissing
      split
      · exact (clearPending_current _ s).congr rfl rfl rfl
      · next hclass =>
          simp only [hclass, Bool.not_false, Bool.true_and] at hstale
          exact (h hstale).congr rfl rfl rfl
  · next message heq =>
      obtain rfl := Option.some.inj hstep
      rw [heq] at hstale
      simp only [recomputes, leavesBehind, Bool.or_false, Bool.not_false, Bool.true_and] at hstale
      exact (h hstale).congr rfl rfl rfl

theorem run_current (k : Kind) {s s' : Subscription k.State k.Action} {before : Bool}
    {es : List (TimedOperation k.State k.Action)}
    (h : before = false → Current k.subscriptionClass.toComponent s)
    (hrun : run k.subscriptionClass.step s es = some s')
    (hstale : stale k.subscriptionClass before s es = false) :
    Current k.subscriptionClass.toComponent s' := by
  induction es generalizing s before with
  | nil =>
    obtain rfl := Option.some.inj hrun
    exact h hstale
  | cons e es ih =>
    rw [run_cons] at hrun
    obtain ⟨m, hm, hrun⟩ := Option.bind_eq_some_iff.mp hrun
    simp only [stale, hm] at hstale
    exact ih (fun hb => step_current k h hm hb) hrun hstale

def discardsPending : Operation S A → Bool
  | .applyReconnectSnapshot _ _ preservePending => !preservePending
  | _ => false

/-- The manager clears the pending actions of sessions and chats; of the others it can
only find none. -/
def CanDiscard (C : SubscriptionClass S A) (s : Subscription S A) (timed : TimedOperation S A) :
    Prop :=
  discardsPending timed.operation = true → C.sessionOrChat = true ∨ s.pendingActions = []

theorem replayBuffered_pendingActions (k : Kind) (now : Timestamp) (fromSeq : Nat)
    (s : Subscription k.State k.Action) (buffered : List ActionEnvelope)
    (h : s.pendingActions = []) :
    (k.subscriptionClass.replayBuffered now fromSeq s buffered).pendingActions = [] := by
  unfold SubscriptionClass.replayBuffered
  generalize buffered.filter _ = envelopes
  induction envelopes generalizing s with
  | nil => exact h
  | cons envelope envelopes ih =>
    obtain ⟨next, hnext, heq⟩ := reconcile_reseats now envelope k s (s.isOwnAction envelope)
    rw [List.foldl_cons, heq]
    refine ih _ ?_
    rw [recomputeOptimistic_pendingActions]
    exact List.sublist_nil.mp (h ▸ hnext.sublist)

theorem handleSnapshot_pendingActions (k : Kind) (now : Timestamp)
    (s : Subscription k.State k.Action) (state : k.State) (fromSeq : Nat)
    (h : s.pendingActions = []) :
    (k.subscriptionClass.handleSnapshot now s state fromSeq).pendingActions = [] := by
  unfold SubscriptionClass.handleSnapshot
  rw [recomputeOptimistic_pendingActions]
  exact replayBuffered_pendingActions k now fromSeq _ _ h

theorem step_discards (k : Kind) {s s' : Subscription k.State k.Action}
    {timed : TimedOperation k.State k.Action} (hcan : CanDiscard k.subscriptionClass s timed)
    (hstep : k.subscriptionClass.step s timed = some s')
    (hdiscards : discardsPending timed.operation = true) : s'.pendingActions = [] := by
  obtain ⟨now, operation⟩ := timed
  cases operation with
  | applyReconnectSnapshot state fromSeq preservePending =>
    obtain rfl := Option.some.inj hstep
    unfold SubscriptionClass.applyReconnectSnapshot
    refine handleSnapshot_pendingActions k now _ state fromSeq ?_
    have hpreserve : (!preservePending) = true := hdiscards
    rcases hcan hdiscards with hclass | hnone
    · simp [hpreserve, hclass, clearPending]
    · split
      · rfl
      · exact hnone
  | _ => cases hdiscards

/-- The value is the replay of the pending actions, and none is left after a reconnect
snapshot that does not preserve them. -/
structure OptimisticSound (C : SubscriptionClass S A) (es : List (TimedOperation S A))
    (s : Subscription S A) : Prop where
  value : ValueIsReplay C.toComponent s
  discarded : ∀ past timed, es = past ++ [timed] → discardsPending timed.operation = true → s.pendingActions = []

/-- A run in which no dropped action is left in the optimistic state and each reconnect
snapshot can discard what it should ends in a sound state. -/
theorem optimisticSound_of_run (k : Kind) {clientId : String} {uri : URI}
    {es : List (TimedOperation k.State k.Action)} {s : Subscription k.State k.Action}
    (hrun : run k.subscriptionClass.step (Subscription.new clientId uri) es = some s)
    (hstale : stale k.subscriptionClass false (Subscription.new clientId uri) es = false)
    (hcan : Guarded k.subscriptionClass.step (CanDiscard k.subscriptionClass) (Subscription.new clientId uri) es) :
    OptimisticSound k.subscriptionClass es s := by
  have hcurrent := run_current k (fun _ => by exact rfl) hrun hstale
  refine ⟨hcurrent.valueIsReplay, ?_⟩
  rintro past timed rfl hdiscards
  obtain ⟨m, hm, hlast⟩ := run_append_eq_some _ hrun
  have hguard := (hcan.of_append hm).2
  rw [run_cons] at hlast
  obtain ⟨s', hstep, hlast⟩ := Option.bind_eq_some_iff.mp hlast
  obtain rfl := Option.some.inj hlast
  exact step_discards k hguard.1 hstep hdiscards

/-- An own annotation that the server has not answered yet. -/
theorem optimisticSound_of_run_pending :
    OptimisticSound AnnotationsStateSubscription
      [⟨0, .handleSnapshot ⟨[]⟩ 0⟩, ⟨1, .applyOptimistic 1 (.annotationsSet deniedComment)⟩]
      ⟨"client", "annotations", some ⟨[]⟩, none, [], [⟨1, .annotationsSet deniedComment⟩], some ⟨[deniedComment]⟩⟩ :=
  @optimisticSound_of_run .annotations "client" "annotations" _ _ rfl rfl
    (Guarded.of_forall (by simp [CanDiscard, discardsPending]))

def emptySession : SessionState :=
  ⟨"", SessionStatus.idle, none, none, .ready, none, none, [], [], none, none, none, none, none, none⟩

/-- A dropped action stays visible. -/
theorem not_optimisticSound_of_drop :
    ¬ ∀ (k : Kind) (clientId : String) (uri : URI) (es : List (TimedOperation k.State k.Action))
      (s : Subscription k.State k.Action),
      run k.subscriptionClass.step (Subscription.new clientId uri) es = some s →
        OptimisticSound k.subscriptionClass es s := by
  intro h
  have hs := h .session "client" "session"
    [⟨0, .handleSnapshot emptySession 0⟩, ⟨1, .applyOptimistic 1 (.titleChanged "draft")⟩,
      ⟨2, .dropPendingByClientSeq 1⟩] _ rfl
  obtain ⟨times, hlen, hvalue⟩ := hs.value rfl
  obtain rfl := List.length_eq_zero_iff.mp hlen
  exact absurd hvalue (by decide)

end Gavea.AgentHost

namespace Gavea.AgentHost

open Gavea.Lib.Runs Subscription

variable {S A : Type}

def ChatState.stampedAt (state : ChatState) (now : Timestamp) : ChatState := { state with modifiedAt := now }

theorem updateInputRequest_stampedAt (state : ChatState) (m : Timestamp) (requestId : String)
    (f : ChatInputRequest → ResponsePart) :
    (state.stampedAt m).updateInputRequest requestId f =
      (state.updateInputRequest requestId f).map (·.stampedAt m) := by
  simp only [ChatState.updateInputRequest, ChatState.stampedAt]
  split
  · rfl
  · split <;> rfl

theorem chatReducer_stampedAt (now now' m : Timestamp) (state : ChatState) (action : ChatAction) :
    (chatReducer now' (state.stampedAt m) action).stampedAt 0 =
      (chatReducer now state action).stampedAt 0 := by
  cases action with
  | inputAnswerChanged requestId questionId answer =>
    simp only [chatReducer, updateInputRequest_stampedAt]
    generalize state.updateInputRequest requestId _ = next
    cases next <;> rfl
  | inputCompleted requestId response answers =>
    simp only [chatReducer, updateInputRequest_stampedAt]
    generalize state.updateInputRequest requestId _ = next
    cases next <;> rfl
  | turnStarted turnId startedAt message queuedMessageId =>
    cases queuedMessageId with
    | none => rfl
    | some id =>
      simp only [chatReducer]
      split <;> rfl
  | inputRequested request =>
    simp only [chatReducer, ChatState.upsertInputRequestPart, ChatState.stampedAt]
    split <;> rfl
  | truncated turnId =>
    cases turnId with
    | none => rfl
    | some turnId =>
      simp only [chatReducer, ChatState.stampedAt]
      split <;> rfl
  | pendingMessageSet kind id message => cases kind <;> rfl
  | pendingMessageRemoved kind id =>
    cases kind with
    | steering => rfl
    | queued =>
      simp only [chatReducer, ChatState.stampedAt]
      split
      · rfl
      · split <;> rfl
  | workingDirectorySet directory =>
    by_cases hd : directory ∈ state.workingDirectories.getD [] <;> simp [chatReducer, ChatState.stampedAt, hd]
  | turnComplete turnId duration | turnCancelled turnId duration | error turnId duration error =>
    simp only [chatReducer, ChatState.endTurn, ChatState.stampedAt]
    split
    · rfl
    · split <;> rfl
  | toolCall turnId toolCallId _meta action =>
    simp only [chatReducer, ChatState.updateToolCallInParts, ChatState.updateActiveTurn, ChatState.stampedAt]
    split <;> split <;> (try split) <;> rfl
  | delta turnId partId content | reasoning turnId partId content =>
    simp only [chatReducer, ChatState.updateResponsePart, ChatState.updateActiveTurn, ChatState.stampedAt]
    split
    · split <;> rfl
    · rfl
  | responsePart turnId part | toolCallStart turnId part | usage turnId part =>
    simp only [chatReducer, ChatState.updateActiveTurn, ChatState.stampedAt]
    split
    · split <;> rfl
    · rfl
  | activityChanged | workingDirectoryRemoved | turnsLoaded | queuedMessagesReordered
  | draftChanged => rfl

theorem chatReducer_unstamped (now now' : Timestamp) (state state' : ChatState)
    (action : ChatAction) (h : state.stampedAt 0 = state'.stampedAt 0) :
    (chatReducer now state action).stampedAt 0 = (chatReducer now' state' action).stampedAt 0 := by
  have hstate : state' = state.stampedAt state'.modifiedAt := by
    cases state
    cases state'
    simp only [ChatState.stampedAt, ChatState.mk.injEq] at h ⊢
    grind
  rw [hstate]
  exact (chatReducer_stampedAt now now' state'.modifiedAt state action).symm

theorem Kind.applyReducer_unstamped (k : Kind) (now now' : Timestamp) (state state' : k.State)
    (action : StateAction)
    (h : k.subscriptionClass.unstamped state = k.subscriptionClass.unstamped state') :
    k.subscriptionClass.unstamped (k.subscriptionClass.applyReducer now state action) =
      k.subscriptionClass.unstamped (k.subscriptionClass.applyReducer now' state' action) := by
  unfold Component.applyReducer
  split
  · next a _ =>
      cases k with
      | chat => exact chatReducer_unstamped now now' state state' a h
      | session | changeset | annotations =>
        obtain rfl : state = state' := h
        rfl
  · exact h

def promotesIntoConfirmed (s : Subscription ChatState ChatAction) (envelope : ActionEnvelope) :
    Bool :=
  promotes envelope s &&
    s.confirmedState.any fun confirmed =>
      confirmed.activeTurn.all fun turn => envelope.action.terminatedTurn != some turn.id

/-- The envelope is processed as at any other client: no own turn start is promoted with
it, and where rejections are not looked at it is none. -/
def Undisturbed : (k : Kind) → Subscription k.State k.Action → ActionEnvelope → Prop
  | .session, _, _ => True
  | .chat, s, envelope => promotesIntoConfirmed s envelope = false
  | .changeset, _, envelope | .annotations, _, envelope => envelope.rejected = false

/-- What every client makes of an envelope, but for the time stamps. -/
def Component.accept (C : Component S A) (state : S) (envelope : ActionEnvelope) : S :=
  if envelope.rejected then state else C.applyReducer 0 state envelope.action

theorem promote_confirmedState (now : Timestamp) (s : Subscription ChatState ChatAction)
    (envelope : ActionEnvelope) (hown : s.isOwnAction envelope = false)
    (hrejected : envelope.rejected = false) (h : promotesIntoConfirmed s envelope = false) :
    (promotePendingTurnStartIfTerminal now s envelope.action).confirmedState =
      s.confirmedState := by
  unfold promotePendingTurnStartIfTerminal
  split
  · rfl
  · next turnId hturn =>
      split
      · rfl
      · next pending hpending =>
          cases hc : s.confirmedState with
          | none => rfl
          | some confirmed =>
            have hany : s.pendingActions.any (fun p => p.action.startsTurn turnId) = true :=
              List.any_eq_true.mpr ⟨pending, List.mem_of_find?_eq_some hpending,
                List.find?_some (p := fun q : PendingAction ChatAction => q.action.startsTurn turnId) hpending⟩
            have hactive : confirmed.activeTurn.all (fun turn => turn.id != turnId) = false := by
              simp only [promotesIntoConfirmed, promotes, hown, hrejected, hturn, hany, hc,
                Option.any_some, Bool.not_false, Bool.true_and] at h
              rw [← h]
              congr 1
              funext turn
              simp [bne, Bool.beq_comm]
            rw [Option.map_some, hactive]
            rfl

theorem reconcileChat_confirmedState (now : Timestamp) (s : Subscription ChatState ChatAction)
    (envelope : ActionEnvelope) (h : promotesIntoConfirmed s envelope = false) :
    (reconcileChat chatComponent now s envelope (s.isOwnAction envelope)).confirmedState =
      if envelope.rejected then s.confirmedState
      else s.confirmedState.map (chatComponent.applyReducer now · envelope.action) := by
  cases hp : promotes envelope s with
  | false =>
    rw [reconcileChat_eq now envelope s hp, reconcileSession_eq, recomputeOptimistic_confirmedState]
    rfl
  | true =>
    simp only [promotes, Bool.and_eq_true, Bool.not_eq_true'] at hp
    obtain ⟨⟨hrejected, hown⟩, -⟩ := hp
    simp only [reconcileChat, hown, hrejected, Bool.not_false, if_true,
      recomputeOptimistic_confirmedState, confirmedApply]
    rw [promote_confirmedState now s envelope hown hrejected h]
    rfl

theorem reconcile_confirmedState (k : Kind) (now : Timestamp)
    (s : Subscription k.State k.Action) (envelope : ActionEnvelope) (h : Undisturbed k s envelope) :
    (k.subscriptionClass.reconcile now s envelope (s.isOwnAction envelope)).confirmedState =
      if envelope.rejected then s.confirmedState
      else s.confirmedState.map (k.subscriptionClass.applyReducer now · envelope.action) := by
  cases k with
  | session =>
    have heq := reconcileSession_eq now envelope sessionComponent s
    exact (congrArg confirmedState heq).trans (recomputeOptimistic_confirmedState _ _ _)
  | chat => exact reconcileChat_confirmedState now s envelope h
  | changeset =>
    have heq := reconcileUnguarded_eq now envelope changesetComponent s
    rw [show envelope.rejected = false from h] at heq ⊢
    exact (congrArg confirmedState heq).trans (recomputeOptimistic_confirmedState _ _ _)
  | annotations =>
    have heq := reconcileUnguarded_eq now envelope annotationsComponent s
    rw [show envelope.rejected = false from h] at heq ⊢
    exact (congrArg confirmedState heq).trans (recomputeOptimistic_confirmedState _ _ _)

/-- What the server delivered to a subscription: the envelopes that wait for a snapshot,
and the last snapshot with the envelopes that count on it. -/
structure Delivered (S : Type) where
  buffered : List ActionEnvelope
  applied : Option (S × List ActionEnvelope)

/-- Of the envelopes that came before a snapshot those up to fromSeq are dropped. -/
def Delivered.next (C : Component S A) (uri : URI) (d : Delivered S) :
    Operation S A → Delivered S
  | .handleSnapshot state fromSeq | .applyReconnectSnapshot state fromSeq _ =>
    ⟨[], some (state, d.buffered.filter fun envelope => decide (fromSeq < envelope.serverSeq))⟩
  | .receiveEnvelope envelope =>
    if (C.narrow envelope.action).isSome && envelope.channel == uri then
      match d.applied with
      | none => ⟨d.buffered ++ [envelope], none⟩
      | some (state, envelopes) => ⟨d.buffered, some (state, envelopes ++ [envelope])⟩
    else d
  | _ => d

def delivered (C : Component S A) (uri : URI) (es : List (TimedOperation S A)) : Delivered S :=
  es.foldl (fun d timed => d.next C uri timed.operation) ⟨[], none⟩

/-- The confirmed state that what was delivered gives at every client, without time stamps. -/
def Delivered.confirmed (C : Component S A) (d : Delivered S) : Option S :=
  d.applied.map fun p => C.unstamped (p.2.foldl C.accept p.1)

/-- The envelopes that a snapshot lets through are processed undisturbed. -/
def ReplaysUndisturbed (k : Kind) (now : Timestamp) (s : Subscription k.State k.Action)
    (state : k.State) (fromSeq : Nat) : Prop :=
  Guarded
    (fun s envelope => some (k.subscriptionClass.reconcile now s envelope (s.isOwnAction envelope)))
    (Undisturbed k)
    { s with confirmedState := some state, error := none, bufferedEnvelopes := [] }
    (s.bufferedEnvelopes.filter fun envelope => decide (fromSeq < envelope.serverSeq))

def StepUndisturbed (k : Kind) (s : Subscription k.State k.Action)
    (timed : TimedOperation k.State k.Action) : Prop :=
  match timed.operation with
  | .handleSnapshot state fromSeq => ReplaysUndisturbed k timed.now s state fromSeq
  | .applyReconnectSnapshot state fromSeq preservePending =>
    ReplaysUndisturbed k timed.now
      (if !preservePending && k.subscriptionClass.sessionOrChat then s.clearPending else s)
      state fromSeq
  | .receiveEnvelope envelope =>
    s.isRelevantEnvelope k.subscriptionClass.toComponent envelope = true →
      s.confirmedState.isSome = true → Undisturbed k s envelope
  | _ => True

section

variable (k : Kind) {uri : URI}

theorem reconcile_keeps (now : Timestamp) (s : Subscription k.State k.Action)
    (envelope : ActionEnvelope) (own : Bool) :
    (k.subscriptionClass.reconcile now s envelope own).uri = s.uri ∧
      (k.subscriptionClass.reconcile now s envelope own).bufferedEnvelopes =
        s.bufferedEnvelopes := by
  obtain ⟨next, hnext, heq⟩ := reconcile_reseats now envelope k s own
  rw [heq, hnext.eq]
  unfold recomputeOptimistic
  split
  · exact ⟨rfl, rfl⟩
  · split <;> exact ⟨rfl, rfl⟩

theorem reconcile_accept (now : Timestamp) (s : Subscription k.State k.Action)
    (envelope : ActionEnvelope) (h : Undisturbed k s envelope) (state : k.State)
    (hs : s.confirmedState.map k.subscriptionClass.unstamped = some (k.subscriptionClass.unstamped state)) :
    (k.subscriptionClass.reconcile now s envelope (s.isOwnAction envelope)).confirmedState.map
        k.subscriptionClass.unstamped =
      some (k.subscriptionClass.unstamped (k.subscriptionClass.accept state envelope)) := by
  obtain ⟨confirmed, hc, hstate⟩ := Option.map_eq_some_iff.mp hs
  rw [reconcile_confirmedState k now s envelope h, Component.accept, hc]
  cases envelope.rejected with
  | true => exact congrArg some hstate
  | false => exact congrArg some (k.applyReducer_unstamped now 0 confirmed state _ hstate)

theorem replay_accept (now : Timestamp) (envelopes : List ActionEnvelope)
    (s : Subscription k.State k.Action) (state : k.State)
    (hok : Guarded
      (fun s envelope => some (k.subscriptionClass.reconcile now s envelope (s.isOwnAction envelope)))
      (Undisturbed k) s envelopes)
    (hs : s.confirmedState.map k.subscriptionClass.unstamped = some (k.subscriptionClass.unstamped state)) :
    let s' := envelopes.foldl (fun s envelope =>
      k.subscriptionClass.reconcile now s envelope (s.isOwnAction envelope)) s
    s'.confirmedState.map k.subscriptionClass.unstamped =
        some (k.subscriptionClass.unstamped (envelopes.foldl k.subscriptionClass.accept state)) ∧
      s'.uri = s.uri ∧ s'.bufferedEnvelopes = s.bufferedEnvelopes := by
  induction envelopes generalizing s state with
  | nil => exact ⟨hs, rfl, rfl⟩
  | cons envelope envelopes ih =>
    obtain ⟨huri, hbuf⟩ := reconcile_keeps k now s envelope (s.isOwnAction envelope)
    obtain ⟨h1, h2, h3⟩ := ih _ (k.subscriptionClass.accept state envelope)
      (hok.2 _ rfl) (reconcile_accept k now s envelope hok.1 state hs)
    exact ⟨h1, h2.trans huri, h3.trans hbuf⟩

structure HoldsDelivered (uri : URI) (d : Delivered k.State)
    (s : Subscription k.State k.Action) : Prop where
  uri : s.uri = uri
  buffered : s.bufferedEnvelopes = d.buffered
  confirmed : s.confirmedState.map k.subscriptionClass.unstamped = d.confirmed k.subscriptionClass.toComponent

variable {k}

theorem HoldsDelivered.of_eq {d : Delivered k.State} {s s' : Subscription k.State k.Action}
    (h : HoldsDelivered k uri d s) (huri : s'.uri = s.uri)
    (hbuffered : s'.bufferedEnvelopes = s.bufferedEnvelopes)
    (hconfirmed : s'.confirmedState = s.confirmedState) : HoldsDelivered k uri d s' :=
  ⟨huri.trans h.uri, hbuffered.trans h.buffered, hconfirmed ▸ h.confirmed⟩

theorem HoldsDelivered.handleSnapshot {d : Delivered k.State}
    {s : Subscription k.State k.Action} (h : HoldsDelivered k uri d s) (now : Timestamp)
    (state : k.State) (fromSeq : Nat) (hok : ReplaysUndisturbed k now s state fromSeq) :
    HoldsDelivered k uri
      (d.next k.subscriptionClass.toComponent uri (.handleSnapshot state fromSeq))
      (k.subscriptionClass.handleSnapshot now s state fromSeq) := by
  obtain ⟨h1, h2, h3⟩ := replay_accept k now _ _ state hok rfl
  have hkeep : ∀ s : Subscription k.State k.Action,
      (s.recomputeOptimistic k.subscriptionClass.toComponent now).uri = s.uri ∧
        (s.recomputeOptimistic k.subscriptionClass.toComponent now).bufferedEnvelopes =
          s.bufferedEnvelopes := by
    intro s
    unfold recomputeOptimistic
    split
    · exact ⟨rfl, rfl⟩
    · split <;> exact ⟨rfl, rfl⟩
  unfold SubscriptionClass.handleSnapshot SubscriptionClass.replayBuffered
  refine ⟨(hkeep _).1.trans (h2.trans h.uri), (hkeep _).2.trans h3, ?_⟩
  rw [recomputeOptimistic_confirmedState]
  refine h1.trans ?_
  rw [h.buffered]
  rfl

theorem HoldsDelivered.receiveEnvelope {d : Delivered k.State}
    {s : Subscription k.State k.Action} (h : HoldsDelivered k uri d s) (now : Timestamp)
    (envelope : ActionEnvelope)
    (hok : s.isRelevantEnvelope k.subscriptionClass.toComponent envelope = true →
      s.confirmedState.isSome = true → Undisturbed k s envelope) :
    HoldsDelivered k uri
      (d.next k.subscriptionClass.toComponent uri (.receiveEnvelope envelope))
      (k.subscriptionClass.receiveEnvelope now s envelope) := by
  have hrelevant : s.isRelevantEnvelope k.subscriptionClass.toComponent envelope =
      ((k.subscriptionClass.narrow envelope.action).isSome && envelope.channel == uri) := by
    rw [isRelevantEnvelope, h.uri]
  simp only [SubscriptionClass.receiveEnvelope, Delivered.next, ← hrelevant]
  cases hr : s.isRelevantEnvelope k.subscriptionClass.toComponent envelope with
  | false => exact h
  | true =>
    have hconfirmed := h.confirmed
    cases hc : s.confirmedState with
    | none =>
      rw [hc] at hconfirmed
      have happlied : d.applied = none := Option.map_eq_none_iff.mp hconfirmed.symm
      simp only [if_true, happlied]
      exact ⟨h.uri, congrArg (· ++ [envelope]) h.buffered, rfl⟩
    | some confirmed =>
      obtain ⟨p, happlied, hp⟩ := Option.map_eq_some_iff.mp (hconfirmed.symm.trans (by
        rw [hc, Option.map_some]))
      simp only [if_true, happlied]
      obtain ⟨huri, hbuf⟩ := reconcile_keeps k now s envelope (s.isOwnAction envelope)
      refine ⟨huri.trans h.uri, hbuf.trans h.buffered, ?_⟩
      rw [reconcile_accept k now s envelope (hok hr (by rw [hc, Option.isSome_some]))
        (p.2.foldl k.subscriptionClass.accept p.1) (by rw [hc, Option.map_some, hp])]
      simp only [Delivered.confirmed, Option.map_some, List.foldl_append, List.foldl_cons, List.foldl_nil]

theorem HoldsDelivered.step {d : Delivered k.State} {s s' : Subscription k.State k.Action}
    {timed : TimedOperation k.State k.Action} (h : HoldsDelivered k uri d s)
    (hok : StepUndisturbed k s timed) (hstep : k.subscriptionClass.step s timed = some s') :
    HoldsDelivered k uri (d.next k.subscriptionClass.toComponent uri timed.operation) s' := by
  unfold StepUndisturbed at hok
  unfold SubscriptionClass.step at hstep
  split at hstep
  · next state fromSeq heq =>
      obtain rfl := Option.some.inj hstep
      rw [heq] at hok ⊢
      exact h.handleSnapshot timed.now state fromSeq hok
  · next envelope heq =>
      obtain rfl := Option.some.inj hstep
      rw [heq] at hok ⊢
      exact h.receiveEnvelope timed.now envelope hok
  · next clientSeq action heq =>
      obtain rfl := Option.some.inj hstep
      rw [heq]
      unfold applyOptimistic
      split <;> exact h.of_eq rfl rfl rfl
  · next clientSeq heq =>
      split at hstep
      · obtain rfl := Option.some.inj hstep
        rw [heq]
        exact h.of_eq rfl rfl rfl
      · cases hstep
  · next heq =>
      split at hstep
      · obtain rfl := Option.some.inj hstep
        rw [heq]
        exact h.of_eq rfl rfl rfl
      · cases hstep
  · next state fromSeq preservePending heq =>
      obtain rfl := Option.some.inj hstep
      rw [heq] at hok ⊢
      unfold SubscriptionClass.applyReconnectSnapshot
      refine HoldsDelivered.handleSnapshot ?_ timed.now state fromSeq hok
      split
      · exact h.of_eq rfl rfl rfl
      · exact h
  · next message heq =>
      obtain rfl := Option.some.inj hstep
      rw [heq]
      unfold SubscriptionClass.markSubscriptionMissing
      split <;> exact h.of_eq rfl rfl rfl
  · next message heq =>
      obtain rfl := Option.some.inj hstep
      rw [heq]
      exact h.of_eq rfl rfl rfl

theorem holdsDelivered_of_run {clientId : String} {es : List (TimedOperation k.State k.Action)}
    {s : Subscription k.State k.Action}
    (hrun : run k.subscriptionClass.step (Subscription.new clientId uri) es = some s)
    (hok : Guarded k.subscriptionClass.step (StepUndisturbed k) (Subscription.new clientId uri) es) :
    HoldsDelivered k uri (delivered k.subscriptionClass.toComponent uri es) s := by
  refine guarded_run_invariant
    (fun past s => HoldsDelivered k uri (delivered k.subscriptionClass.toComponent uri past) s)
    (fun past s e s' h hok hstep => ?_) [] ⟨rfl, rfl, rfl⟩ hok hrun
  rw [delivered, List.foldl_append]
  exact h.step hok hstep

end

/-- Two clients to which the same was delivered hold the same verified value, but for the
local time stamps, whatever each of them dispatched and whenever it did so. -/
theorem verifiedValue_converges (k : Kind) {clientId clientId' : String} {uri : URI}
    {es es' : List (TimedOperation k.State k.Action)} {s s' : Subscription k.State k.Action}
    (hrun : run k.subscriptionClass.step (Subscription.new clientId uri) es = some s)
    (hrun' : run k.subscriptionClass.step (Subscription.new clientId' uri) es' = some s')
    (hok : Guarded k.subscriptionClass.step (StepUndisturbed k) (Subscription.new clientId uri) es)
    (hok' : Guarded k.subscriptionClass.step (StepUndisturbed k) (Subscription.new clientId' uri) es')
    (hsame : (delivered k.subscriptionClass.toComponent uri es).applied =
      (delivered k.subscriptionClass.toComponent uri es').applied) :
    s.verifiedValue.map k.subscriptionClass.unstamped =
      s'.verifiedValue.map k.subscriptionClass.unstamped := by
  rw [verifiedValue, verifiedValue, (holdsDelivered_of_run hrun hok).confirmed,
    (holdsDelivered_of_run hrun' hok').confirmed, Delivered.confirmed, hsame]
  rfl

def titleEcho : ActionEnvelope := ⟨"session", .session (.titleChanged "draft"), 1, some ⟨"client", 1⟩, none⟩

/-- The client that dispatched a title and one that only heard of it, before its snapshot. -/
theorem verifiedValue_converges_echo :
    (run SessionStateSubscription.step (Subscription.new "client" "session")
      [⟨0, .handleSnapshot emptySession 0⟩, ⟨1, .applyOptimistic 1 (.titleChanged "draft")⟩,
        ⟨2, .receiveEnvelope titleEcho⟩]).bind Subscription.verifiedValue =
    (run SessionStateSubscription.step (Subscription.new "other" "session")
      [⟨5, .receiveEnvelope titleEcho⟩, ⟨6, .handleSnapshot emptySession 0⟩]).bind Subscription.verifiedValue :=
  @verifiedValue_converges .session "client" "other" "session"
    [⟨0, .handleSnapshot emptySession 0⟩, ⟨1, .applyOptimistic 1 (.titleChanged "draft")⟩,
      ⟨2, .receiveEnvelope titleEcho⟩]
    [⟨5, .receiveEnvelope titleEcho⟩, ⟨6, .handleSnapshot emptySession 0⟩] _ _ rfl rfl
    ⟨trivial, fun _ _ => ⟨trivial, fun _ _ => ⟨fun _ _ => trivial, fun _ _ => trivial⟩⟩⟩
    ⟨fun _ _ => trivial, fun _ h => Option.some.inj h ▸ ⟨⟨trivial, fun _ _ => trivial⟩, fun _ _ => trivial⟩⟩
    rfl

def idleChat : ChatState := ⟨SessionStatus.idle, none, 0, none, [], none, none, none, none, none⟩

def turnEnd : ActionEnvelope := ⟨"chat", .chat (.turnComplete "t1" 5), 1, none, none⟩

/-- The client that started the turn promotes its start into the confirmed state. -/
theorem not_verifiedValue_converges_of_promotion :
    ¬ ∀ (k : Kind) (clientId clientId' : String) (uri : URI)
      (es es' : List (TimedOperation k.State k.Action)) (s s' : Subscription k.State k.Action),
      run k.subscriptionClass.step (Subscription.new clientId uri) es = some s →
        run k.subscriptionClass.step (Subscription.new clientId' uri) es' = some s' →
          (delivered k.subscriptionClass.toComponent uri es).applied =
              (delivered k.subscriptionClass.toComponent uri es').applied →
            s.verifiedValue = s'.verifiedValue := by
  intro h
  have hv := h .chat "client" "other" "chat"
    [⟨0, .handleSnapshot idleChat 0⟩, ⟨0, .applyOptimistic 1 (.turnStarted "t1" "now" emptyText none)⟩, ⟨0,
      .receiveEnvelope turnEnd⟩]
    [⟨0, .handleSnapshot idleChat 0⟩, ⟨0, .receiveEnvelope turnEnd⟩] _ _ rfl rfl rfl
  exact absurd hv (by decide)

end Gavea.AgentHost
