import Gavea.AgentHost.ChatReducer

namespace Gavea.AgentHost

open Gavea.Lib

inductive SessionLifecycle
  | creating
  | ready
  | creationFailed
  deriving DecidableEq

/-- fields holds the other fields of the summary, which updates change key by key. -/
structure ChatSummary where
  resource : URI
  fields : Record Payload
  deriving DecidableEq

structure SessionActiveClient where
  clientId : String
  details : Payload
  deriving DecidableEq

inductive SessionInputRequestKind
  | chatInput
  | toolConfirmation
  | toolClientExecution
  | toolAuthentication
  deriving DecidableEq

structure SessionInputRequest where
  id : String
  kind : SessionInputRequestKind
  details : Payload
  deriving DecidableEq

structure SessionConfigState where
  schema : Payload
  values : Record Payload
  deriving DecidableEq

structure CustomizationEnablement where
  scope : Payload
  enabled : Bool
  deriving DecidableEq

structure McpServerCustomization where
  id : String
  enablement : Option (List CustomizationEnablement)
  state : Payload
  channel : Option URI
  details : Payload
  deriving DecidableEq

inductive ChildCustomization
  | plain (id : String) (enabled : Option Bool) (details : Payload)
  | mcpServer (server : McpServerCustomization)
  deriving DecidableEq

inductive Customization
  | plugin (id : String) (enablement : Option (List CustomizationEnablement))
      (children : Option (List ChildCustomization)) (details : Payload)
  | directory (id : String) (enabled : Bool) (children : Option (List ChildCustomization)) (details : Payload)
  | mcpServer (server : McpServerCustomization)
  deriving DecidableEq

structure SessionState where
  title : String
  status : SessionStatus
  activity : Option String
  workingDirectories : Option (List URI)
  lifecycle : SessionLifecycle
  creationError : Option Payload
  serverTools : Option (List Payload)
  activeClients : List SessionActiveClient
  chats : List ChatSummary
  defaultChat : Option URI
  config : Option SessionConfigState
  customizations : Option (List Customization)
  changesets : Option (List Payload)
  inputNeeded : Option (List SessionInputRequest)
  _meta : Option Payload
  deriving DecidableEq

inductive SessionAction
  | ready
  | creationFailed (error : Payload)
  | chatAdded (summary : ChatSummary)
  | chatRemoved (chat : URI)
  | chatUpdated (chat : URI) (changes : Record Payload)
  | defaultChatChanged (defaultChat : Option URI)
  | titleChanged (title : String)
  | isReadChanged (isRead : Bool)
  | isArchivedChanged (isArchived : Bool)
  | activityChanged (activity : Option String)
  | changesetsChanged (changesets : Option (List Payload))
  | configChanged (config : Record Payload) (replace : Bool)
  | metaChanged (_meta : Option Payload)
  | serverToolsChanged (tools : List Payload)
  | activeClientSet (activeClient : SessionActiveClient)
  | activeClientRemoved (clientId : String)
  | workingDirectorySet (directory : URI)
  | workingDirectoryRemoved (directory : URI)
  | inputNeededSet (request : SessionInputRequest)
  | inputNeededRemoved (id : String)
  | customizationsChanged (customizations : List Customization)
  | customizationToggled (id : String) (enablement : List CustomizationEnablement)
  | customizationUpdated (customization : Customization)
  | customizationRemoved (id : String)
  | mcpServerStateChanged (id : String) (state : Payload) (channel : Option URI)
  | mcpServerStartRequested (id : String)
  | mcpServerStopRequested (id : String)

def awaitsUser (request : SessionInputRequest) : Bool := request.kind != .toolClientExecution

def withInputNeededStatus (status : SessionStatus) (inputNeeded : List SessionInputRequest) :
    SessionStatus :=
  if inputNeeded.any awaitsUser then
    status &&& ~~~statusActivityMask ||| SessionStatus.inputNeeded
  else status &&& ~~~(SessionStatus.inputNeeded &&& ~~~SessionStatus.inProgress)

/-- `enablement` of a plugin or an MCP server: an empty list of decisions is left out. -/
def explicitEnablement (enablement : List CustomizationEnablement) :
    Option (List CustomizationEnablement) :=
  if enablement = [] then none else some enablement

def legacyEnabled (enablement : List CustomizationEnablement) : Bool := (enablement.head?.map (·.enabled)).getD true

namespace ChildCustomization

def id : ChildCustomization → String
  | .plain id .. => id
  | .mcpServer server => server.id

def applyEnablement (enablement : List CustomizationEnablement) :
    ChildCustomization → ChildCustomization
  | .plain id _ details => .plain id (some (legacyEnabled enablement)) details
  | .mcpServer server => .mcpServer { server with enablement := explicitEnablement enablement }

end ChildCustomization

namespace Customization

def id : Customization → String
  | .plugin id .. | .directory id .. => id
  | .mcpServer server => server.id

def children : Customization → Option (List ChildCustomization)
  | .plugin _ _ children _ | .directory _ _ children _ => children
  | .mcpServer _ => none

def withChildren (children : List ChildCustomization) : Customization → Customization
  | .plugin id enablement _ details => .plugin id enablement (some children) details
  | .directory id enabled _ details => .directory id enabled (some children) details
  | .mcpServer server => .mcpServer server

def applyEnablement (enablement : List CustomizationEnablement) : Customization → Customization
  | .plugin id _ children details => .plugin id (explicitEnablement enablement) children details
  | .directory id _ children details => .directory id (legacyEnabled enablement) children details
  | .mcpServer server => .mcpServer { server with enablement := explicitEnablement enablement }

def hasChild (childId : String) (container : Customization) : Bool := (container.children.getD []).any (·.id == childId)

def modifyChild (childId : String) (f : ChildCustomization → ChildCustomization)
    (container : Customization) : Customization :=
  match container.children with
  | some children =>
    if children.any (·.id == childId) then
      container.withChildren (modifyFirst (·.id == childId) f children)
    else container
  | none => container

def removeChild (childId : String) (container : Customization) : Customization :=
  match container.children with
  | some children =>
    if children.any (·.id == childId) then
      container.withChildren (children.eraseP (·.id == childId))
    else container
  | none => container

end Customization

def updateMcpServerCustomization (state : SessionState) (id : String)
    (update : McpServerCustomization → McpServerCustomization) : SessionState :=
  match state.customizations with
  | none => state
  | some list =>
    if list.any (·.id == id) then
      { state with
        customizations := some <| modifyFirst (·.id == id) (fun
          | .mcpServer entry => .mcpServer (update entry)
          | entry => entry) list }
    else
      { state with
        customizations := some <| list.map <| Customization.modifyChild id fun
          | .mcpServer child => .mcpServer (update child)
          | child => child }

def mcpServerStatus (kind : String) : Payload := "\x7b\"kind\":\"" ++ kind ++ "\"\x7d"

def sessionReducer (state : SessionState) : SessionAction → SessionState
  | .ready => { state with lifecycle := .ready }
  | .creationFailed error => { state with lifecycle := .creationFailed, creationError := some error }
  | .chatAdded summary => { state with chats := setFirst (·.resource == summary.resource) summary state.chats }
  | .chatRemoved chat =>
    if state.chats.any (·.resource == chat) then
      { state with
        chats := state.chats.eraseP (·.resource == chat)
        defaultChat := if state.defaultChat = some chat then none else state.defaultChat }
    else state
  | .chatUpdated chat changes =>
    { state with
      chats := modifyFirst (·.resource == chat)
        (fun summary => { summary with fields := summary.fields.spread (changes.delete "resource") })
        state.chats }
  | .defaultChatChanged defaultChat => { state with defaultChat := defaultChat }
  | .titleChanged title => { state with title := title }
  | .isReadChanged isRead => { state with status := withStatusFlag state.status SessionStatus.isRead isRead }
  | .isArchivedChanged isArchived =>
    { state with status := withStatusFlag state.status SessionStatus.isArchived isArchived }
  | .activityChanged activity => { state with activity := activity }
  | .changesetsChanged changesets => { state with changesets := changesets }
  | .configChanged config replace =>
    { state with
      config := state.config.map fun current =>
        { current with values := if replace then config else current.values.spread config } }
  | .metaChanged _meta => { state with _meta := _meta }
  | .serverToolsChanged tools => { state with serverTools := some tools }
  | .activeClientSet activeClient =>
    { state with
      activeClients := setFirst (·.clientId == activeClient.clientId) activeClient state.activeClients }
  | .activeClientRemoved clientId => { state with activeClients := state.activeClients.eraseP (·.clientId == clientId) }
  | .workingDirectorySet directory =>
    let list := state.workingDirectories.getD []
    if list.contains directory then state
    else { state with workingDirectories := some (list ++ [directory]) }
  | .workingDirectoryRemoved directory =>
    { state with workingDirectories := state.workingDirectories.map (·.erase directory) }
  | .inputNeededSet request =>
    let inputNeeded := setFirst (·.id == request.id) request (state.inputNeeded.getD [])
    { state with
      inputNeeded := some inputNeeded
      status := withInputNeededStatus state.status inputNeeded }
  | .inputNeededRemoved id =>
    match state.inputNeeded with
    | none => state
    | some list =>
      if list.any (·.id == id) then
        let remaining := list.eraseP (·.id == id)
        { state with
          inputNeeded := if remaining = [] then none else some remaining
          status := withInputNeededStatus state.status remaining }
      else state
  | .customizationsChanged customizations => { state with customizations := some customizations }
  | .customizationToggled id enablement =>
    { state with
      customizations := state.customizations.map fun list =>
        if list.any (·.id == id) then
          modifyFirst (·.id == id) (·.applyEnablement enablement) list
        else
          -- only the first container that has a child with this id is changed
          modifyFirst (·.hasChild id) (·.modifyChild id (ChildCustomization.applyEnablement enablement)) list }
  | .customizationUpdated customization =>
    { state with
      customizations := some (setFirst (·.id == customization.id) customization (state.customizations.getD [])) }
  | .customizationRemoved id =>
    { state with
      customizations := state.customizations.map fun list =>
        if list.any (·.id == id) then list.eraseP (·.id == id)
        else list.map (Customization.removeChild id) }
  | .mcpServerStateChanged id serverState channel =>
    updateMcpServerCustomization state id fun entry => { entry with state := serverState, channel := channel }
  | .mcpServerStartRequested id =>
    updateMcpServerCustomization state id fun entry =>
      { entry with state := mcpServerStatus "starting", channel := none }
  | .mcpServerStopRequested id =>
    updateMcpServerCustomization state id fun entry =>
      { entry with state := mcpServerStatus "stopped", channel := none }

inductive StateAction
  | session (action : SessionAction)
  | chat (action : ChatAction)
  | changeset (action : ChangesetAction)
  | annotations (action : AnnotationsAction)
  | other (type : String)

structure ActionOrigin where
  clientId : String
  clientSeq : Nat

structure ActionEnvelope where
  channel : URI
  action : StateAction
  serverSeq : Nat
  origin : Option ActionOrigin
  rejectionReason : Option String

def ActionEnvelope.rejected (envelope : ActionEnvelope) : Bool :=
  match envelope.rejectionReason with
  | some reason => reason != ""
  | none => false

structure PendingAction (A : Type) where
  clientSeq : Nat
  action : A

/-- A subscription that keeps optimistic actions; bufferedEnvelopes is empty where the
code has `undefined`. -/
structure Subscription (S A : Type) where
  clientId : String
  uri : URI
  confirmedState : Option S
  error : Option String
  bufferedEnvelopes : List ActionEnvelope
  pendingActions : List (PendingAction A)
  optimisticState : Option S

inductive Value (S : Type)
  | undefined
  | error (message : String)
  | state (state : S)
  deriving DecidableEq

/-- What the classes of subscriptions differ in besides their reconciliation. unstamped
takes the readings of the local clock out of a state. -/
structure Component (S A : Type) where
  narrow : StateAction → Option A
  reducer : Timestamp → S → A → S
  unstamped : S → S

variable {S A : Type}

def Component.applyReducer (C : Component S A) (now : Timestamp) (state : S)
    (action : StateAction) : S :=
  match C.narrow action with
  | some a => C.reducer now state a
  | none => state

namespace Subscription

def new (clientId : String) (uri : URI) : Subscription S A where
  clientId := clientId
  uri := uri
  confirmedState := none
  error := none
  bufferedEnvelopes := []
  pendingActions := []
  optimisticState := none

def verifiedValue (s : Subscription S A) : Option S := s.confirmedState

def value (s : Subscription S A) : Value S :=
  match s.error with
  | some message => .error message
  | none =>
    match s.optimisticState <|> s.confirmedState with
    | some state => .state state
    | none => .undefined

def isRelevantEnvelope (C : Component S A) (s : Subscription S A) (envelope : ActionEnvelope) :
    Bool :=
  (C.narrow envelope.action).isSome && envelope.channel == s.uri

def isOwnAction (s : Subscription S A) (envelope : ActionEnvelope) : Bool :=
  envelope.origin.any (·.clientId == s.clientId)

def applyOptimistic (C : Component S A) (now : Timestamp) (s : Subscription S A)
    (clientSeq : Nat) (action : A) : Subscription S A :=
  let pushed := { s with pendingActions := s.pendingActions ++ [⟨clientSeq, action⟩] }
  match s.optimisticState <|> s.verifiedValue with
  | some base => { pushed with optimisticState := some (C.reducer now base action) }
  | none => pushed

def confirmedApply (C : Component S A) (now : Timestamp) (s : Subscription S A)
    (action : StateAction) : Subscription S A :=
  { s with confirmedState := s.confirmedState.map fun state => C.applyReducer now state action }

def recomputeOptimistic (C : Component S A) (now : Timestamp) (s : Subscription S A) :
    Subscription S A :=
  match s.confirmedState with
  | none => { s with optimisticState := none }
  | some confirmed =>
    if s.pendingActions = [] then { s with optimisticState := none }
    else
      { s with
        optimisticState := some (s.pendingActions.foldl (fun state p => C.reducer now state p.action) confirmed) }

def dropPending (s : Subscription S A) (clientSeq : Nat) : Subscription S A :=
  { s with pendingActions := s.pendingActions.eraseP (·.clientSeq == clientSeq) }

def hasPending (s : Subscription S A) (clientSeq : Nat) : Bool := s.pendingActions.any (·.clientSeq == clientSeq)

def clearPending (s : Subscription S A) : Subscription S A := { s with pendingActions := [], optimisticState := none }

end Subscription

open Subscription

def reconcileSession (C : Component S A) (now : Timestamp) (s : Subscription S A)
    (envelope : ActionEnvelope) (isOwnAction : Bool) : Subscription S A :=
  let next :=
    match isOwnAction, envelope.origin with
    | true, some origin =>
      if s.hasPending origin.clientSeq then
        let confirmed :=
          if !envelope.rejected then s.confirmedApply C now envelope.action else s
        confirmed.dropPending origin.clientSeq
      else if !envelope.rejected then s.confirmedApply C now envelope.action
      else s
    | _, _ => if !envelope.rejected then s.confirmedApply C now envelope.action else s
  next.recomputeOptimistic C now

def StateAction.terminatedTurn : StateAction → Option String
  | .chat (.turnComplete turnId _) | .chat (.turnCancelled turnId _)
  | .chat (.error turnId _ _) => some turnId
  | _ => none

def ChatAction.startsTurn (turnId : String) : ChatAction → Bool
  | .turnStarted id .. => id == turnId
  | _ => false

def promotePendingTurnStartIfTerminal (now : Timestamp) (s : Subscription ChatState ChatAction)
    (action : StateAction) : Subscription ChatState ChatAction :=
  match action.terminatedTurn with
  | none => s
  | some turnId =>
    match s.pendingActions.find? (·.action.startsTurn turnId) with
    | none => s
    | some pending =>
      { s with
        pendingActions := s.pendingActions.eraseP (·.action.startsTurn turnId)
        confirmedState := s.confirmedState.map fun confirmed =>
          if confirmed.activeTurn.all (·.id != turnId) then
            chatReducer now confirmed pending.action
          else confirmed }

def reconcileChat (C : Component ChatState ChatAction) (now : Timestamp)
    (s : Subscription ChatState ChatAction) (envelope : ActionEnvelope) (isOwnAction : Bool) :
    Subscription ChatState ChatAction :=
  let next :=
    match isOwnAction, envelope.origin with
    | true, some origin =>
      if s.hasPending origin.clientSeq then
        let confirmed :=
          if !envelope.rejected then s.confirmedApply C now envelope.action else s
        confirmed.dropPending origin.clientSeq
      else if !envelope.rejected then s.confirmedApply C now envelope.action
      else s
    | _, _ =>
      if !envelope.rejected then
        (promotePendingTurnStartIfTerminal now s envelope.action).confirmedApply C now envelope.action
      else s
  next.recomputeOptimistic C now

def reconcileUnguarded (C : Component S A) (now : Timestamp) (s : Subscription S A)
    (envelope : ActionEnvelope) (isOwnAction : Bool) : Subscription S A :=
  let next :=
    match isOwnAction, envelope.origin with
    | true, some origin =>
      if s.hasPending origin.clientSeq then
        let confirmed :=
          if !envelope.rejected then s.confirmedApply C now envelope.action else s
        confirmed.dropPending origin.clientSeq
      else s.confirmedApply C now envelope.action
    | _, _ => s.confirmedApply C now envelope.action
  next.recomputeOptimistic C now

/-- A class of subscriptions; sessionOrChat is the `instanceof` test of the manager, which
only these two classes with their `clearPending` pass. -/
structure SubscriptionClass (S A : Type) extends Component S A where
  reconcile : Timestamp → Subscription S A → ActionEnvelope → Bool → Subscription S A
  sessionOrChat : Bool

def sessionComponent : Component SessionState SessionAction where
  narrow
    | .session action => some action
    | _ => none
  reducer _ := sessionReducer
  unstamped := id

def SessionStateSubscription : SubscriptionClass SessionState SessionAction where
  toComponent := sessionComponent
  reconcile := reconcileSession sessionComponent
  sessionOrChat := true

def chatComponent : Component ChatState ChatAction where
  narrow
    | .chat action => some action
    | _ => none
  reducer := chatReducer
  unstamped state := { state with modifiedAt := 0 }

def ChatStateSubscription : SubscriptionClass ChatState ChatAction where
  toComponent := chatComponent
  reconcile := reconcileChat chatComponent
  sessionOrChat := true

def changesetComponent : Component ChangesetState ChangesetAction where
  narrow
    | .changeset action => some action
    | _ => none
  reducer _ := changesetReducer
  unstamped := id

def ChangesetStateSubscription : SubscriptionClass ChangesetState ChangesetAction where
  toComponent := changesetComponent
  reconcile := reconcileUnguarded changesetComponent
  sessionOrChat := false

def annotationsComponent : Component AnnotationsState AnnotationsAction where
  narrow
    | .annotations action => some action
    | _ => none
  reducer _ := annotationsReducer
  unstamped := id

def AnnotationsStateSubscription : SubscriptionClass AnnotationsState AnnotationsAction where
  toComponent := annotationsComponent
  reconcile := reconcileUnguarded annotationsComponent
  sessionOrChat := false

namespace SubscriptionClass

variable (C : SubscriptionClass S A)

def replayBuffered (now : Timestamp) (fromSeq : Nat) (s : Subscription S A)
    (buffered : List ActionEnvelope) : Subscription S A :=
  (buffered.filter fun envelope => decide (fromSeq < envelope.serverSeq)).foldl
    (fun s envelope => C.reconcile now s envelope (s.isOwnAction envelope)) s

def handleSnapshot (now : Timestamp) (s : Subscription S A) (state : S) (fromSeq : Nat) :
    Subscription S A :=
  let seated := { s with confirmedState := some state, error := none, bufferedEnvelopes := [] }
  (C.replayBuffered now fromSeq seated s.bufferedEnvelopes).recomputeOptimistic C.toComponent now

def receiveEnvelope (now : Timestamp) (s : Subscription S A) (envelope : ActionEnvelope) :
    Subscription S A :=
  if s.isRelevantEnvelope C.toComponent envelope then
    match s.confirmedState with
    | none => { s with bufferedEnvelopes := s.bufferedEnvelopes ++ [envelope] }
    | some _ => C.reconcile now s envelope (s.isOwnAction envelope)
  else s

def applyReconnectSnapshot (now : Timestamp) (s : Subscription S A) (state : S) (fromSeq : Nat)
    (preservePending : Bool) : Subscription S A :=
  let cleared := if !preservePending && C.sessionOrChat then s.clearPending else s
  C.handleSnapshot now cleared state fromSeq

def markSubscriptionMissing (s : Subscription S A) (message : String) : Subscription S A :=
  let cleared := if C.sessionOrChat then s.clearPending else s
  { cleared with error := some message }

end SubscriptionClass

inductive Operation (S A : Type)
  | handleSnapshot (state : S) (fromSeq : Nat)
  | receiveEnvelope (envelope : ActionEnvelope)
  | applyOptimistic (clientSeq : Nat) (action : A)
  | dropPendingByClientSeq (clientSeq : Nat)
  | clearPending
  | applyReconnectSnapshot (state : S) (fromSeq : Nat) (preservePending : Bool)
  | markSubscriptionMissing (message : String)
  | setError (message : String)

structure TimedOperation (S A : Type) where
  now : Timestamp
  operation : Operation S A

def SubscriptionClass.step (C : SubscriptionClass S A) (s : Subscription S A)
    (timed : TimedOperation S A) : Option (Subscription S A) :=
  match timed.operation with
  | .handleSnapshot state fromSeq => some (C.handleSnapshot timed.now s state fromSeq)
  | .receiveEnvelope envelope => some (C.receiveEnvelope timed.now s envelope)
  | .applyOptimistic clientSeq action => some (s.applyOptimistic C.toComponent timed.now clientSeq action)
  | .dropPendingByClientSeq clientSeq => if C.sessionOrChat then some (s.dropPending clientSeq) else none
  | .clearPending => if C.sessionOrChat then some s.clearPending else none
  | .applyReconnectSnapshot state fromSeq preservePending =>
    some (C.applyReconnectSnapshot timed.now s state fromSeq preservePending)
  | .markSubscriptionMissing message => some (C.markSubscriptionMissing s message)
  | .setError message => some { s with error := some message }

inductive Kind
  | session
  | chat
  | changeset
  | annotations

namespace Kind

abbrev State : Kind → Type
  | .session => SessionState
  | .chat => ChatState
  | .changeset => ChangesetState
  | .annotations => AnnotationsState

abbrev Action : Kind → Type
  | .session => SessionAction
  | .chat => ChatAction
  | .changeset => ChangesetAction
  | .annotations => AnnotationsAction

def subscriptionClass : (k : Kind) → SubscriptionClass k.State k.Action
  | .session => SessionStateSubscription
  | .chat => ChatStateSubscription
  | .changeset => ChangesetStateSubscription
  | .annotations => AnnotationsStateSubscription

end Kind

end Gavea.AgentHost
