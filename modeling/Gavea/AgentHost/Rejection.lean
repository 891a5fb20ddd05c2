import Gavea.AgentHost.AgentSubscription
import Gavea.Lib.Runs

namespace Gavea.AgentHost

open Gavea.Lib.Runs List

variable {S A : Type}

namespace Subscription

def answers (s : Subscription S A) (envelope : ActionEnvelope) (p : PendingAction A) : Bool :=
  envelope.origin.any fun origin => origin.clientId == s.clientId && p.clientSeq == origin.clientSeq

def isAnswered (s : Subscription S A) (envelope : ActionEnvelope) : Bool := s.pendingActions.any (s.answers envelope)

def replayedValue (C : Component S A) (now : Timestamp) (s : Subscription S A) : Value S :=
  match s.error, s.confirmedState with
  | some message, _ => .error message
  | none, none => .undefined
  | none, some confirmed => .state (s.pendingActions.foldl (fun state p => C.reducer now state p.action) confirmed)

def answered (s : Subscription S A) (envelope : ActionEnvelope) (confirmedState : Option S) :
    Subscription S A :=
  { s with
    confirmedState
    pendingActions := s.pendingActions.eraseP (s.answers envelope) }

variable (C : Component S A) (now : Timestamp) (s : Subscription S A) (envelope : ActionEnvelope)

@[simp] theorem recomputeOptimistic_confirmedState :
    (s.recomputeOptimistic C now).confirmedState = s.confirmedState := by
  unfold recomputeOptimistic
  split
  · rfl
  · split <;> rfl

@[simp] theorem recomputeOptimistic_pendingActions :
    (s.recomputeOptimistic C now).pendingActions = s.pendingActions := by
  unfold recomputeOptimistic
  split
  · rfl
  · split <;> rfl

@[simp] theorem recomputeOptimistic_error :
    (s.recomputeOptimistic C now).error = s.error := by
  unfold recomputeOptimistic
  split
  · rfl
  · split <;> rfl

theorem recomputeOptimistic_value :
    (s.recomputeOptimistic C now).value = (s.recomputeOptimistic C now).replayedValue C now := by
  rw [value, replayedValue, recomputeOptimistic_error, recomputeOptimistic_confirmedState,
    recomputeOptimistic_pendingActions]
  cases s.error with
  | some message => rfl
  | none =>
    cases hc : s.confirmedState with
    | none => simp [recomputeOptimistic, hc]
    | some confirmed =>
      by_cases hp : s.pendingActions = []
      · simp [recomputeOptimistic, hc, hp]
      · simp [recomputeOptimistic, hc, hp]

theorem eraseP_answers_of_foreign (h : s.isOwnAction envelope = false) :
    s.pendingActions.eraseP (s.answers envelope) = s.pendingActions := by
  refine eraseP_of_forall_not fun p _ => ?_
  cases ho : envelope.origin with
  | none => simp [answers, ho]
  | some origin =>
    simp only [isOwnAction, ho, Option.any_some] at h
    simp [answers, ho, h]

theorem answers_of_own {origin : ActionOrigin} (ho : envelope.origin = some origin)
    (h : s.isOwnAction envelope = true) :
    s.answers envelope = fun p => p.clientSeq == origin.clientSeq := by
  simp only [isOwnAction, ho, Option.any_some] at h
  funext p
  simp [answers, ho, h]

theorem isAnswered_of_foreign (h : s.isOwnAction envelope = false) :
    s.isAnswered envelope = false := by
  cases ho : envelope.origin with
  | none => simp [isAnswered, answers, ho]
  | some origin =>
    simp only [isOwnAction, ho, Option.any_some] at h
    simp [isAnswered, answers, ho, h]

theorem answered_of_foreign (h : s.isOwnAction envelope = false) (confirmedState : Option S) :
    s.answered envelope confirmedState = { s with confirmedState } := by
  rw [answered, s.eraseP_answers_of_foreign envelope h]

theorem origin_of_own (h : s.isOwnAction envelope = true) :
    ∃ origin, envelope.origin = some origin := by
  cases ho : envelope.origin with
  | none => simp [isOwnAction, ho] at h
  | some origin => exact ⟨origin, rfl⟩

end Subscription

open Subscription

variable (now : Timestamp) (envelope : ActionEnvelope)

/-- What a reconciliation of an own envelope comes to when a rejected action is applied
only if nothing pending matches it and applyUnmatched says so. -/
theorem own_reconciled (C : Component S A) (s : Subscription S A) {origin : ActionOrigin}
    (ho : envelope.origin = some origin) (h : s.isOwnAction envelope = true)
    (applyUnmatched : Bool) :
    (if s.hasPending origin.clientSeq then
        (if !envelope.rejected then s.confirmedApply C now envelope.action else s).dropPending origin.clientSeq
      else if applyUnmatched then s.confirmedApply C now envelope.action
      else s) =
      s.answered envelope
        (if (if s.isAnswered envelope then !envelope.rejected else applyUnmatched) then
          s.confirmedState.map (C.applyReducer now · envelope.action)
        else s.confirmedState) := by
  have hans := s.answers_of_own envelope ho h
  have hany : s.isAnswered envelope = s.hasPending origin.clientSeq := by
    rw [isAnswered, hans, hasPending]
  rw [hany, answered, hans]
  by_cases hp : s.hasPending origin.clientSeq = true
  · simp only [hp, if_true]
    cases envelope.rejected <;> rfl
  · have herase : s.pendingActions.eraseP (fun p => p.clientSeq == origin.clientSeq) =
        s.pendingActions := by
      refine eraseP_of_forall_not fun p hmem hseq => hp ?_
      exact any_eq_true.mpr ⟨p, hmem, hseq⟩
    simp only [hp, Bool.false_eq_true, if_false, herase]
    cases applyUnmatched <;> rfl

theorem reconcileSession_eq (C : Component S A) (s : Subscription S A) :
    reconcileSession C now s envelope (s.isOwnAction envelope) =
      (s.answered envelope
        (if envelope.rejected then s.confirmedState
        else s.confirmedState.map (C.applyReducer now · envelope.action))).recomputeOptimistic
          C now := by
  unfold reconcileSession
  cases hown : s.isOwnAction envelope with
  | true =>
    obtain ⟨origin, ho⟩ := s.origin_of_own envelope hown
    simp only [ho]
    rw [own_reconciled now envelope C s ho hown]
    cases envelope.rejected <;> simp
  | false =>
    rw [s.answered_of_foreign envelope hown]
    cases envelope.rejected <;> rfl

theorem reconcileUnguarded_eq (C : Component S A) (s : Subscription S A) :
    reconcileUnguarded C now s envelope (s.isOwnAction envelope) =
      (s.answered envelope
        (if envelope.rejected && s.isAnswered envelope then s.confirmedState
        else s.confirmedState.map (C.applyReducer now · envelope.action))).recomputeOptimistic
          C now := by
  unfold reconcileUnguarded
  cases hown : s.isOwnAction envelope with
  | true =>
    obtain ⟨origin, ho⟩ := s.origin_of_own envelope hown
    have h := own_reconciled now envelope C s ho hown true
    simp only [if_true] at h
    simp only [ho]
    rw [h]
    cases envelope.rejected <;> cases s.isAnswered envelope <;> simp
  | false =>
    rw [s.answered_of_foreign envelope hown, s.isAnswered_of_foreign envelope hown]
    simp only [Bool.and_false]
    rfl

/-- A pending turn start goes into the confirmed state, or at least out of the list, when
the backend ends its turn. -/
def promotes (s : Subscription ChatState ChatAction) : Bool :=
  !envelope.rejected && !s.isOwnAction envelope &&
    envelope.action.terminatedTurn.any fun turnId => s.pendingActions.any fun p => p.action.startsTurn turnId

theorem promote_of_not_any (s : Subscription ChatState ChatAction)
    (h : (envelope.action.terminatedTurn.any fun turnId =>
      s.pendingActions.any fun p => p.action.startsTurn turnId) = false) :
    promotePendingTurnStartIfTerminal now s envelope.action = s := by
  unfold promotePendingTurnStartIfTerminal
  split
  · rfl
  · next turnId hturn =>
      have hnone : s.pendingActions.find? (fun p => p.action.startsTurn turnId) = none := by
        rw [hturn, Option.any_some] at h
        exact find?_eq_none.mpr fun p hp hstart => Bool.false_ne_true (h.symm.trans (any_eq_true.mpr ⟨p, hp, hstart⟩))
      rw [hnone]

theorem reconcileChat_eq (s : Subscription ChatState ChatAction)
    (h : promotes envelope s = false) (C : Component ChatState ChatAction) :
    reconcileChat C now s envelope (s.isOwnAction envelope) =
      reconcileSession C now s envelope (s.isOwnAction envelope) := by
  unfold reconcileChat reconcileSession
  cases hown : s.isOwnAction envelope with
  | true =>
    obtain ⟨origin, ho⟩ := s.origin_of_own envelope hown
    simp only [ho]
  | false =>
    cases hr : envelope.rejected with
    | true => rfl
    | false =>
      simp only [promotes, hown, hr, Bool.not_false, Bool.true_and] at h
      simp only [Bool.not_false, if_true]
      rw [promote_of_not_any now envelope s h]

structure Reseats (s s' : Subscription S A) : Prop where
  eq : s' = { s with
    confirmedState := s'.confirmedState, pendingActions := s'.pendingActions }
  isSome : s'.confirmedState.isSome = s.confirmedState.isSome
  sublist : s'.pendingActions.Sublist s.pendingActions

theorem Reseats.refl (s : Subscription S A) : Reseats s s := ⟨rfl, rfl, .refl _⟩

theorem Reseats.confirmedApply {s s' : Subscription S A} (h : Reseats s s') (C : Component S A)
    (action : StateAction) : Reseats s (s'.confirmedApply C now action) := by
  refine ⟨?_, ?_, h.sublist⟩
  · rw [h.eq]
    rfl
  · simpa [Subscription.confirmedApply] using h.isSome

theorem Reseats.dropPending {s s' : Subscription S A} (h : Reseats s s') (clientSeq : Nat) :
    Reseats s (s'.dropPending clientSeq) := by
  refine ⟨?_, h.isSome, eraseP_sublist.trans h.sublist⟩
  rw [h.eq]
  rfl

theorem Reseats.promote (s : Subscription ChatState ChatAction) (action : StateAction) :
    Reseats s (promotePendingTurnStartIfTerminal now s action) := by
  unfold promotePendingTurnStartIfTerminal
  split
  · exact .refl s
  · split
    · exact .refl s
    · exact ⟨rfl, by simp, eraseP_sublist⟩

theorem own_reseats (C : Component S A) (s unmatched : Subscription S A) (clientSeq : Nat)
    (h : Reseats s unmatched) :
    Reseats s
      (if s.hasPending clientSeq then
        (if !envelope.rejected then s.confirmedApply C now envelope.action else s).dropPending clientSeq
      else unmatched) := by
  split
  · refine Reseats.dropPending ?_ clientSeq
    split
    · exact (Reseats.refl s).confirmedApply now C envelope.action
    · exact .refl s
  · exact h

theorem guarded_reseats (C : Component S A) (s : Subscription S A) :
    Reseats s (if !envelope.rejected then s.confirmedApply C now envelope.action else s) := by
  split
  · exact (Reseats.refl s).confirmedApply now C envelope.action
  · exact .refl s

theorem reconcileSession_reseats (C : Component S A) (s : Subscription S A) (own : Bool) :
    ∃ next, Reseats s next ∧
      reconcileSession C now s envelope own = next.recomputeOptimistic C now := by
  refine ⟨_, ?_, rfl⟩
  split
  · exact own_reseats now envelope C s _ _ (guarded_reseats now envelope C s)
  · exact guarded_reseats now envelope C s

theorem reconcileChat_reseats (C : Component ChatState ChatAction)
    (s : Subscription ChatState ChatAction) (own : Bool) :
    ∃ next, Reseats s next ∧
      reconcileChat C now s envelope own = next.recomputeOptimistic C now := by
  refine ⟨_, ?_, rfl⟩
  split
  · exact own_reseats now envelope C s _ _ (guarded_reseats now envelope C s)
  · split
    · exact (Reseats.promote now s envelope.action).confirmedApply now C envelope.action
    · exact .refl s

theorem reconcileUnguarded_reseats (C : Component S A) (s : Subscription S A) (own : Bool) :
    ∃ next, Reseats s next ∧
      reconcileUnguarded C now s envelope own = next.recomputeOptimistic C now := by
  refine ⟨_, ?_, rfl⟩
  split
  · exact own_reseats now envelope C s _ _ ((Reseats.refl s).confirmedApply now C envelope.action)
  · exact (Reseats.refl s).confirmedApply now C envelope.action

theorem reconcile_reseats (k : Kind) (s : Subscription k.State k.Action) (own : Bool) :
    ∃ next, Reseats s next ∧ k.subscriptionClass.reconcile now s envelope own =
      next.recomputeOptimistic k.subscriptionClass.toComponent now := by
  cases k with
  | session => exact reconcileSession_reseats now envelope sessionComponent s own
  | chat => exact reconcileChat_reseats now envelope chatComponent s own
  | changeset => exact reconcileUnguarded_reseats now envelope changesetComponent s own
  | annotations => exact reconcileUnguarded_reseats now envelope annotationsComponent s own

def Hydrated (s : Subscription S A) : Prop := s.confirmedState = none → s.optimisticState = none

theorem recomputeOptimistic_hydrated (C : Component S A) (s : Subscription S A) :
    Hydrated (s.recomputeOptimistic C now) := by
  intro h
  rw [recomputeOptimistic_confirmedState] at h
  simp [recomputeOptimistic, h]

theorem applyOptimistic_hydrated (C : Component S A) (s : Subscription S A) (clientSeq : Nat)
    (action : A) (h : Hydrated s) : Hydrated (s.applyOptimistic C now clientSeq action) := by
  intro hnone
  unfold applyOptimistic at hnone ⊢
  split at hnone
  · next base hbase =>
      have hc : s.confirmedState = none := hnone
      simp [verifiedValue, hc, h hc] at hbase
  · exact h hnone

theorem step_hydrated (k : Kind) (s : Subscription k.State k.Action)
    (timed : TimedOperation k.State k.Action) (s' : Subscription k.State k.Action)
    (h : Hydrated s) (hstep : k.subscriptionClass.step s timed = some s') : Hydrated s' := by
  unfold SubscriptionClass.step at hstep
  split at hstep
  · obtain rfl := Option.some.inj hstep
    exact recomputeOptimistic_hydrated _ _ _
  · next envelope _ =>
      obtain rfl := Option.some.inj hstep
      unfold SubscriptionClass.receiveEnvelope
      split
      · split
        · exact h
        · obtain ⟨next, -, heq⟩ := reconcile_reseats timed.now envelope k s (s.isOwnAction envelope)
          rw [heq]
          exact recomputeOptimistic_hydrated _ _ _
      · exact h
  · next clientSeq action _ =>
      obtain rfl := Option.some.inj hstep
      exact applyOptimistic_hydrated _ _ s clientSeq action h
  · split at hstep
    · obtain rfl := Option.some.inj hstep
      exact h
    · cases hstep
  · split at hstep
    · obtain rfl := Option.some.inj hstep
      exact fun _ => rfl
    · cases hstep
  · obtain rfl := Option.some.inj hstep
    exact recomputeOptimistic_hydrated _ _ _
  · obtain rfl := Option.some.inj hstep
    unfold SubscriptionClass.markSubscriptionMissing
    split
    · exact fun _ => rfl
    · exact h
  · obtain rfl := Option.some.inj hstep
    exact h

theorem run_hydrated (k : Kind) {clientId : String} {uri : URI}
    {es : List (TimedOperation k.State k.Action)} {s : Subscription k.State k.Action}
    (hrun : run k.subscriptionClass.step (Subscription.new clientId uri) es = some s) :
    Hydrated s :=
  run_invariant Hydrated (fun s e s' h (_ : True) => step_hydrated k s e s' h) (fun _ => rfl)
    (Guarded.of_forall fun _ _ _ => trivial) hrun

/-- A rejected envelope leaves the confirmed state alone, takes its own pending action out
and has the value computed from the others. -/
structure HonoursRejection (C : Component S A) (s s' : Subscription S A) : Prop where
  verifiedValue : s'.verifiedValue = s.verifiedValue
  pendingActions : s'.pendingActions = s.pendingActions.eraseP (s.answers envelope)
  value : s'.value = s'.replayedValue C now

def Kind.guardsRejection : Kind → Bool
  | .session | .chat => true
  | .changeset | .annotations => false

def Kind.promotes : (k : Kind) → Subscription k.State k.Action → Bool
  | .chat, s => AgentHost.promotes envelope s
  | _, _ => false

def RejectionIsSeen (k : Kind) (s : Subscription k.State k.Action) : Prop :=
  match s.confirmedState with
  | none => s.isAnswered envelope = false
  | some confirmed =>
    envelope.rejected = true ∧ (k.guardsRejection || s.isAnswered envelope) = true ∨
      k.promotes envelope s = false ∧ k.subscriptionClass.applyReducer now confirmed envelope.action = confirmed

theorem honoursRejection_answered (C : Component S A) (s : Subscription S A)
    (confirmedState : Option S) :
    HonoursRejection now envelope C s
        ((s.answered envelope confirmedState).recomputeOptimistic C now) ↔
      confirmedState = s.confirmedState := by
  refine ⟨fun h => ?_, fun h => ⟨?_, ?_, recomputeOptimistic_value C now _⟩⟩
  · simpa [verifiedValue, answered] using h.verifiedValue
  · simpa [verifiedValue, answered] using h
  · simp [answered]

theorem honoursRejection_buffered (C : Component S A) (s : Subscription S A) (hs : Hydrated s)
    (hc : s.confirmedState = none) :
    HonoursRejection now envelope C s
        { s with bufferedEnvelopes := s.bufferedEnvelopes ++ [envelope] } ↔
      s.isAnswered envelope = false := by
  have hvalue : { s with bufferedEnvelopes := s.bufferedEnvelopes ++ [envelope] }.value =
      { s with bufferedEnvelopes := s.bufferedEnvelopes ++ [envelope] }.replayedValue C now := by
    simp only [value, replayedValue, hc, hs hc]
    cases s.error <;> rfl
  refine ⟨fun h => ?_, fun h => ⟨rfl, ?_, hvalue⟩⟩
  · by_contra hany
    rw [Bool.not_eq_false, isAnswered, any_eq_true] at hany
    obtain ⟨p, hp, hans⟩ := hany
    have hlen := length_eraseP_of_mem hp hans
    rw [← h.pendingActions] at hlen
    have := length_pos_of_mem hp
    simp only at hlen
    omega
  · refine (eraseP_of_forall_not fun p hp hans => ?_).symm
    rw [isAnswered] at h
    exact Bool.false_ne_true (h.symm.trans (any_eq_true.mpr ⟨p, hp, hans⟩))

theorem not_honoursRejection_of_promotes (s : Subscription ChatState ChatAction)
    (h : promotes envelope s = true) :
    ¬ HonoursRejection now envelope chatComponent s
      (reconcileChat chatComponent now s envelope (s.isOwnAction envelope)) := by
  simp only [promotes, Bool.and_eq_true, Bool.not_eq_true', Option.any_eq_true, any_eq_true] at h
  obtain ⟨⟨hr, hown⟩, turnId, hturn, p, hp, hstart⟩ := h
  intro hh
  have hpending := hh.pendingActions
  rw [s.eraseP_answers_of_foreign envelope hown] at hpending
  obtain ⟨q, hq⟩ : ∃ q, s.pendingActions.find? (fun p => p.action.startsTurn turnId) = some q := by
    rw [← Option.isSome_iff_exists, find?_isSome]
    exact ⟨p, hp, hstart⟩
  have hres : (reconcileChat chatComponent now s envelope (s.isOwnAction envelope)).pendingActions =
      s.pendingActions.eraseP (fun p => p.action.startsTurn turnId) := by
    simp [reconcileChat, hown, hr, promotePendingTurnStartIfTerminal, hturn, hq, confirmedApply]
  have hlen := length_eraseP_of_mem (p := fun p => p.action.startsTurn turnId) hp hstart
  have := length_pos_of_mem hp
  rw [← hres, hpending] at hlen
  omega

theorem honoursRejection_of_reconciled (C : Component S A) (s : Subscription S A) {confirmed : S}
    (hc : s.confirmedState = some confirmed) (skips : Bool) :
    HonoursRejection now envelope C s
        ((s.answered envelope
          (if skips then s.confirmedState
          else s.confirmedState.map (C.applyReducer now · envelope.action))).recomputeOptimistic C now) ↔
      skips = true ∨ C.applyReducer now confirmed envelope.action = confirmed := by
  rw [honoursRejection_answered, hc]
  cases skips <;> simp

theorem honoursRejection_reconcile (k : Kind) (s : Subscription k.State k.Action)
    {confirmed : k.State} (hc : s.confirmedState = some confirmed) :
    HonoursRejection now envelope k.subscriptionClass.toComponent s
        (k.subscriptionClass.reconcile now s envelope (s.isOwnAction envelope)) ↔
      RejectionIsSeen now envelope k s := by
  simp only [RejectionIsSeen, hc]
  cases k with
  | session =>
    have h := honoursRejection_of_reconciled now envelope sessionComponent s hc envelope.rejected
    rw [← reconcileSession_eq] at h
    refine Iff.trans h ?_
    simp only [Kind.guardsRejection, Kind.promotes, Bool.true_or, and_true, true_and]
    exact Iff.rfl
  | chat =>
    cases hp : promotes envelope s with
    | true =>
      have hrej : envelope.rejected = false := by
        simp only [promotes, Bool.and_eq_true, Bool.not_eq_true'] at hp
        exact hp.1.1
      simp only [Kind.promotes, hp, hrej, Bool.false_eq_true, false_and, Bool.true_eq_false, or_self, iff_false]
      exact not_honoursRejection_of_promotes now envelope s hp
    | false =>
      have h := honoursRejection_of_reconciled now envelope chatComponent s hc envelope.rejected
      rw [← reconcileSession_eq, ← reconcileChat_eq now envelope s hp] at h
      refine Iff.trans h ?_
      simp only [Kind.guardsRejection, Kind.promotes, hp, Bool.true_or, and_true, true_and]
      exact Iff.rfl
  | changeset =>
    have h := honoursRejection_of_reconciled now envelope changesetComponent s hc
      (envelope.rejected && s.isAnswered envelope)
    rw [← reconcileUnguarded_eq, Bool.and_eq_true] at h
    refine Iff.trans h ?_
    simp only [Kind.guardsRejection, Kind.promotes, Bool.false_or, true_and]
    exact Iff.rfl
  | annotations =>
    have h := honoursRejection_of_reconciled now envelope annotationsComponent s hc
      (envelope.rejected && s.isAnswered envelope)
    rw [← reconcileUnguarded_eq, Bool.and_eq_true] at h
    refine Iff.trans h ?_
    simp only [Kind.guardsRejection, Kind.promotes, Bool.false_or, true_and]
    exact Iff.rfl

/-- In every reachable state a subscription honours the rejection that an envelope carries
exactly when it sees it. -/
theorem honoursRejection_iff (k : Kind) {clientId : String} {uri : URI}
    {es : List (TimedOperation k.State k.Action)} {s : Subscription k.State k.Action}
    (hrun : run k.subscriptionClass.step (Subscription.new clientId uri) es = some s)
    (hrelevant : s.isRelevantEnvelope k.subscriptionClass.toComponent envelope = true)
    {reason : String} (_hreason : envelope.rejectionReason = some reason) :
    HonoursRejection now envelope k.subscriptionClass.toComponent s
        (k.subscriptionClass.receiveEnvelope now s envelope) ↔
      RejectionIsSeen now envelope k s := by
  rw [SubscriptionClass.receiveEnvelope, if_pos hrelevant]
  split
  · next hc =>
      rw [honoursRejection_buffered now envelope _ s (run_hydrated k hrun) hc]
      simp only [RejectionIsSeen, hc]
  · next confirmed hc => exact honoursRejection_reconcile now envelope k s hc

def deniedComment : Annotation := ⟨"a1", "turn", "file:///a.ts", none, false, [], none⟩

def foreignRejection (channel : URI) (action : StateAction) : ActionEnvelope :=
  ⟨channel, action, 1, some ⟨"other", 7⟩, some "denied"⟩

/-- A chat sees the rejection of another client's action. -/
theorem honoursRejection_iff_foreign :
    HonoursRejection 0 (foreignRejection "chat" (.chat (.activityChanged (some "typing"))))
      chatComponent
      { Subscription.new "client" "chat" with
        confirmedState := some ⟨SessionStatus.idle, none, 0, none, [], none, none, none, none, none⟩ }
      { Subscription.new "client" "chat" with
        confirmedState := some ⟨SessionStatus.idle, none, 0, none, [], none, none, none, none, none⟩ } :=
  (@honoursRejection_iff 0
    (foreignRejection "chat" (.chat (.activityChanged (some "typing")))) .chat "client" "chat"
    [⟨0, .handleSnapshot ⟨SessionStatus.idle, none, 0, none, [], none, none, none, none, none⟩ 0⟩] _
    rfl rfl _ rfl).mpr (Or.inl ⟨rfl, rfl⟩)

/-- The rejection of another client's annotation still sets it here. -/
theorem not_honoursRejection_of_foreign :
    ¬ ∀ (k : Kind) (clientId : String) (uri : URI) (es : List (TimedOperation k.State k.Action))
      (s : Subscription k.State k.Action) (now : Timestamp) (envelope : ActionEnvelope)
      (reason : String),
      run k.subscriptionClass.step (Subscription.new clientId uri) es = some s →
        s.isRelevantEnvelope k.subscriptionClass.toComponent envelope = true →
          envelope.rejectionReason = some reason →
            HonoursRejection now envelope k.subscriptionClass.toComponent s
              (k.subscriptionClass.receiveEnvelope now s envelope) := by
  intro h
  have hh := h .annotations "client" "annotations" [⟨0, .handleSnapshot ⟨[]⟩ 0⟩] _ 0
    (foreignRejection "annotations" (.annotations (.annotationsSet deniedComment))) "denied"
    rfl rfl rfl
  exact absurd hh.verifiedValue (by decide)

end Gavea.AgentHost
