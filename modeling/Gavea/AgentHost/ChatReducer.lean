import Gavea.Lib.Collections

namespace Gavea.AgentHost

open Gavea.Lib

/-- The JSON text of data that the reducers pass on without looking into it. -/
abbrev Payload := String

def emptyText : Payload := "\"\""

abbrev URI := String

structure AnnotationEntry where
  id : String
  text : Payload
  _meta : Option Payload
  deriving DecidableEq

structure Annotation where
  id : String
  turnId : String
  resource : URI
  range : Option Payload
  resolved : Bool
  entries : List AnnotationEntry
  _meta : Option Payload
  deriving DecidableEq

structure AnnotationsState where
  annotations : List Annotation
  deriving DecidableEq

inductive AnnotationsAction
  | annotationsSet (item : Annotation)
  | annotationsUpdated (annotationId : String) (turnId : Option String) (resource : Option URI)
      (range : Option Payload) (resolved : Option Bool)
  | annotationsRemoved (annotationId : String)
  | annotationsEntrySet (annotationId : String) (entry : AnnotationEntry)
  | annotationsEntryRemoved (annotationId entryId : String)

def annotationsReducer (state : AnnotationsState) : AnnotationsAction → AnnotationsState
  | .annotationsSet item => { state with annotations := setFirst (·.id == item.id) item state.annotations }
  | .annotationsUpdated annotationId turnId resource range resolved =>
    { state with
      annotations := modifyFirst (·.id == annotationId)
        (fun item =>
          { item with
            turnId := turnId.getD item.turnId
            resource := resource.getD item.resource
            range := range <|> item.range
            resolved := resolved.getD item.resolved })
        state.annotations }
  | .annotationsRemoved annotationId => { state with annotations := state.annotations.eraseP (·.id == annotationId) }
  | .annotationsEntrySet annotationId entry =>
    { state with
      annotations := modifyFirst (·.id == annotationId)
        (fun item => { item with entries := setFirst (·.id == entry.id) entry item.entries })
        state.annotations }
  | .annotationsEntryRemoved annotationId entryId =>
    { state with
      annotations := modifyFirst (·.id == annotationId)
        (fun item => { item with entries := item.entries.eraseP (·.id == entryId) })
        state.annotations }

inductive ChangesetStatus
  | computing
  | ready
  | error
  deriving DecidableEq

inductive ChangesetOperationStatus
  | idle
  | running
  | error
  | disabled
  deriving DecidableEq

structure ChangesetFile where
  id : String
  edit : Payload
  reviewed : Option Bool
  _meta : Option Payload

/-- details stands for the fields that say what the operation is, from the label to the group. -/
structure ChangesetOperation where
  id : String
  details : Payload
  status : ChangesetOperationStatus
  error : Option Payload

structure ChangesetState where
  status : ChangesetStatus
  error : Option Payload
  files : List ChangesetFile
  operations : Option (List ChangesetOperation)

inductive ChangesetAction
  | changesetStatusChanged (status : ChangesetStatus) (error : Option Payload)
  | changesetFileSet (file : ChangesetFile)
  | changesetFileRemoved (fileId : String)
  | changesetFilesReviewChanged (files : List String) (reviewed : Bool)
  | changesetContentChanged (files : List ChangesetFile)
      (operations : Option (List ChangesetOperation)) (error : Option Payload)
  | changesetOperationsChanged (operations : Option (List ChangesetOperation))
  | changesetOperationStatusChanged (operationId : String) (status : ChangesetOperationStatus) (error : Option Payload)
  | changesetCleared

def changesetReducer (state : ChangesetState) : ChangesetAction → ChangesetState
  | .changesetStatusChanged status error =>
    -- the error stays only on a changeset whose status says so
    if status = .error then { state with status := status, error := error }
    else { state with status := status, error := none }
  | .changesetFileSet file => { state with files := setFirst (·.id == file.id) file state.files }
  | .changesetFileRemoved fileId => { state with files := state.files.eraseP (·.id == fileId) }
  | .changesetFilesReviewChanged files reviewed =>
    { state with
      files := state.files.map fun f =>
        if !files.contains f.id || f.reviewed == some reviewed then f
        else { f with reviewed := some reviewed } }
  | .changesetContentChanged files operations error =>
    { state with files := files, operations := operations <|> state.operations, error := error }
  | .changesetOperationsChanged operations => { state with operations := operations }
  | .changesetOperationStatusChanged operationId status error =>
    { state with
      operations := state.operations.map <| modifyFirst (·.id == operationId) fun current =>
        if status = .error then { current with status := status, error := error }
        else { current with status := status, error := none } }
  | .changesetCleared => { state with files := [] }

/-- A time in milliseconds, as `Date.now()` returns it; the states hold its ISO form. -/
abbrev Timestamp := Nat

abbrev SessionStatus := BitVec 32

namespace SessionStatus

def idle : SessionStatus := 1#32

def error : SessionStatus := 2#32

def inProgress : SessionStatus := 8#32

def inputNeeded : SessionStatus := 24#32

def isRead : SessionStatus := 32#32

def isArchived : SessionStatus := 64#32

end SessionStatus

def statusActivityMask : SessionStatus := (1#32 <<< 5) - 1#32

def withStatusFlag (status flag : SessionStatus) (set : Bool) : SessionStatus :=
  if set then status ||| flag else status &&& ~~~flag

inductive ToolCallContributor
  | client (clientId : String)
  | mcp (customizationId : String)
  deriving DecidableEq

structure ToolCallBase where
  toolCallId : String
  toolName : String
  displayName : String
  intention : Option String
  contributor : Option ToolCallContributor
  _meta : Option Payload
  deriving DecidableEq

inductive ToolInput
  | text (value : String)
  | contentRef (ref : Payload)
  deriving DecidableEq

structure ToolCallParameterFields where
  invocationMessage : Payload
  toolInput : Option ToolInput
  deriving DecidableEq

structure ConfirmationOption where
  id : String
  details : Payload
  deriving DecidableEq

inductive ToolCallConfirmationReason
  | notNeeded
  | userAction
  | setting
  deriving DecidableEq

structure ToolCallPostConfirmationFields where
  confirmed : ToolCallConfirmationReason
  selectedOption : Option ConfirmationOption
  deriving DecidableEq

inductive ToolCallCancellationReason
  | denied
  | skipped
  | resultDenied
  deriving DecidableEq

structure ToolCallResult where
  success : Bool
  pastTenseMessage : Payload
  content : Option (List Payload)
  structuredContent : Option Payload
  error : Option Payload
  deriving DecidableEq

inductive ToolCallState
  | streaming (base : ToolCallBase) (partialInput : Option String) (invocationMessage : Option Payload)
  | pendingConfirmation (base : ToolCallBase) (params : ToolCallParameterFields)
      (confirmationTitle riskAssessment edits : Option Payload) (editable : Option Bool)
      (options : Option (List ConfirmationOption))
  | running (base : ToolCallBase) (params : ToolCallParameterFields)
      (confirmation : ToolCallPostConfirmationFields) (content : Option (List Payload))
  | authRequired (base : ToolCallBase) (params : ToolCallParameterFields)
      (confirmation : ToolCallPostConfirmationFields) (auth : Payload)
      (content : Option (List Payload))
  | pendingResultConfirmation (base : ToolCallBase) (params : ToolCallParameterFields)
      (confirmation : ToolCallPostConfirmationFields) (result : ToolCallResult)
  | completed (base : ToolCallBase) (params : ToolCallParameterFields)
      (confirmation : ToolCallPostConfirmationFields) (result : ToolCallResult)
  | cancelled (base : ToolCallBase) (params : ToolCallParameterFields)
      (reason : ToolCallCancellationReason) (reasonMessage userSuggestion : Option Payload)
      (selectedOption : Option ConfirmationOption)
  deriving DecidableEq

/-- details stands for the purpose, the message, the url and the questions. -/
structure ChatInputRequest where
  id : String
  details : Payload
  answers : Option (Record Payload)
  deriving DecidableEq

inductive ResponsePart
  | markdown (id content : String)
  | contentRef (ref : Payload)
  | toolCall (toolCall : ToolCallState)
  | reasoning (id content : String)
  | systemNotification (content : Payload)
  | inputRequest (request : ChatInputRequest) (response : Option Payload)
  deriving DecidableEq

inductive TurnState
  | complete
  | cancelled
  | error
  deriving DecidableEq

structure Turn where
  id : String
  startedAt : Option String
  duration : Option Int
  message : Payload
  responseParts : List ResponsePart
  usage : Option Payload
  state : TurnState
  error : Option Payload
  deriving DecidableEq

structure ActiveTurn where
  id : String
  startedAt : String
  message : Payload
  responseParts : List ResponsePart
  usage : Option Payload
  deriving DecidableEq

structure PendingMessage where
  id : String
  message : Payload
  deriving DecidableEq

inductive PendingMessageKind
  | steering
  | queued

structure ChatState where
  status : SessionStatus
  activity : Option String
  modifiedAt : Timestamp
  workingDirectories : Option (List URI)
  turns : List Turn
  turnsNextCursor : Option String
  activeTurn : Option ActiveTurn
  steeringMessage : Option PendingMessage
  queuedMessages : Option (List PendingMessage)
  draft : Option Payload
  deriving DecidableEq

inductive ToolCallDecision
  | approved (confirmed : ToolCallConfirmationReason) (editedToolInput : Option String)
  | denied (reason : ToolCallCancellationReason) (reasonMessage userSuggestion : Option Payload)

inductive ToolCallAction
  | delta (content : Option String) (invocationMessage : Option Payload)
  | ready (contributor : Option ToolCallContributor) (intention : Option String)
      (invocationMessage : Payload) (toolInput : Option ToolInput)
      (confirmationTitle riskAssessment edits : Option Payload) (editable : Option Bool)
      (confirmed : Option ToolCallConfirmationReason) (options : Option (List ConfirmationOption))
  | confirmed (decision : ToolCallDecision) (selectedOptionId : Option String)
  | complete (result : ToolCallResult) (requiresResultConfirmation : Bool)
  | resultConfirmed (approved : Bool)
  | contentChanged (content : List Payload)
  | authRequired (auth : Payload)
  | authResolved

inductive ChatAction
  | turnStarted (turnId startedAt : String) (message : Payload) (queuedMessageId : Option String)
  | delta (turnId partId content : String)
  | responsePart (turnId : String) (part : ResponsePart)
  | toolCallStart (turnId : String) (base : ToolCallBase)
  | toolCall (turnId toolCallId : String) (_meta : Option Payload) (action : ToolCallAction)
  | turnComplete (turnId : String) (duration : Int)
  | turnCancelled (turnId : String) (duration : Int)
  | error (turnId : String) (duration : Int) (error : Payload)
  | activityChanged (activity : Option String)
  | workingDirectorySet (directory : URI)
  | workingDirectoryRemoved (directory : URI)
  | usage (turnId : String) (usage : Payload)
  | reasoning (turnId partId content : String)
  | truncated (turnId : Option String)
  | turnsLoaded (turns : List Turn) (turnsNextCursor : Option String)
  | pendingMessageSet (kind : PendingMessageKind) (id : String) (message : Payload)
  | pendingMessageRemoved (kind : PendingMessageKind) (id : String)
  | queuedMessagesReordered (order : List String)
  | draftChanged (draft : Option Payload)
  | inputRequested (request : ChatInputRequest)
  | inputAnswerChanged (requestId questionId : String) (answer : Option Payload)
  | inputCompleted (requestId : String) (response : Payload) (answers : Option (Record Payload))

namespace ToolCallState

def base : ToolCallState → ToolCallBase
  | .streaming b .. | .pendingConfirmation b .. | .running b .. | .authRequired b ..
  | .pendingResultConfirmation b .. | .completed b .. | .cancelled b .. => b

def baseWithMeta (tc : ToolCallState) (_meta : Option Payload) : ToolCallBase :=
  { tc.base with _meta := _meta <|> tc.base._meta }

def isBlocking : ToolCallState → Bool
  | .pendingConfirmation .. | .pendingResultConfirmation .. | .authRequired .. => true
  | _ => false

def skip : ToolCallState → ToolCallState
  | .streaming b _ invocationMessage => .cancelled b ⟨invocationMessage.getD emptyText, none⟩ .skipped none none none
  | .pendingConfirmation b params .. | .running b params .. | .authRequired b params ..
  | .pendingResultConfirmation b params .. => .cancelled b params .skipped none none none
  | tc => tc

end ToolCallState

def refineToolCallContributor (current next : Option ToolCallContributor) :
    Option ToolCallContributor :=
  match current, next with
  | current, none => current
  | some (.client clientId), some (.client clientId') =>
    if clientId' = clientId then some (.client clientId') else some (.client clientId)
  | some (.client clientId), some (.mcp _) => some (.client clientId)
  | current, some (.client _) => current
  | _, some (.mcp customizationId) => some (.mcp customizationId)

def resolveSelectedOption (options : Option (List ConfirmationOption)) (id : Option String) :
    Option ConfirmationOption :=
  match id, options with
  | some id, some options => if id = "" then none else options.find? (·.id == id)
  | _, _ => none

def ToolCallDecision.resolve (base : ToolCallBase) (params : ToolCallParameterFields)
    (selectedOption : Option ConfirmationOption) : ToolCallDecision → ToolCallState
  | .approved reason editedToolInput =>
    let toolInput :=
      match editedToolInput, params.toolInput with
      | some edited, some (.text _) => some (.text edited)
      | _, toolInput => toolInput
    .running base ⟨params.invocationMessage, toolInput⟩ ⟨reason, selectedOption⟩ none
  | .denied reason reasonMessage userSuggestion =>
    .cancelled base params reason reasonMessage userSuggestion selectedOption

def ToolCallAction.update (_meta : Option Payload) (tc : ToolCallState) :
    ToolCallAction → ToolCallState
  | .delta content invocationMessage =>
    match tc with
    | .streaming b partialInput message =>
      .streaming { b with _meta := _meta <|> b._meta }
        (match content with
          | some content => some (partialInput.getD "" ++ content)
          | none => partialInput)
        (invocationMessage <|> message)
    | tc => tc
  | .ready contributor intention invocationMessage toolInput confirmationTitle riskAssessment edits
      editable confirmReason options =>
      let base : ToolCallBase :=
        { tc.baseWithMeta _meta with
          contributor := refineToolCallContributor tc.base.contributor contributor
          intention := intention <|> tc.base.intention }
      let proceed (toolInput : Option ToolInput) (title risk edits : Option Payload)
          (editable : Option Bool) (options : Option (List ConfirmationOption)) : ToolCallState :=
        match confirmReason with
        | some reason => .running base ⟨invocationMessage, toolInput⟩ ⟨reason, none⟩ none
        | none => .pendingConfirmation base ⟨invocationMessage, toolInput⟩ title risk edits editable options
      match tc with
      | .streaming .. => proceed toolInput confirmationTitle riskAssessment edits editable options
      | .running _ params .. =>
        proceed (toolInput <|> params.toolInput) confirmationTitle riskAssessment edits editable options
      | .pendingConfirmation _ params title risk edits' editable' options' =>
        proceed (toolInput <|> params.toolInput) (confirmationTitle <|> title)
          (riskAssessment <|> risk) (edits <|> edits') (editable <|> editable')
          (options <|> options')
      | tc => tc
  | .confirmed decision selectedOptionId =>
    match tc with
    | .pendingConfirmation _ params _ _ _ _ options =>
      decision.resolve (tc.baseWithMeta _meta) params (resolveSelectedOption options selectedOptionId)
    | tc => tc
  | .complete result requiresResultConfirmation =>
    match tc with
    | .running _ params confirmation _ =>
      if requiresResultConfirmation then
        .pendingResultConfirmation (tc.baseWithMeta _meta) params confirmation result
      else .completed (tc.baseWithMeta _meta) params confirmation result
    | .pendingConfirmation _ params .. =>
      if requiresResultConfirmation then
        .pendingResultConfirmation (tc.baseWithMeta _meta) params ⟨.notNeeded, none⟩ result
      else .completed (tc.baseWithMeta _meta) params ⟨.notNeeded, none⟩ result
    | .authRequired _ params confirmation _ content =>
      -- only a failed result completes it: the client gave up on the challenge
      if result.success then tc
      else .completed (tc.baseWithMeta _meta) params confirmation { result with content := result.content <|> content }
    | tc => tc
  | .resultConfirmed approved =>
    match tc with
    | .pendingResultConfirmation _ params confirmation result =>
      if approved then .completed (tc.baseWithMeta _meta) params confirmation result
      else .cancelled (tc.baseWithMeta _meta) params .resultDenied none none confirmation.selectedOption
    | tc => tc
  | .contentChanged content =>
    match tc with
    | .running b params confirmation _ =>
      .running { b with _meta := _meta <|> b._meta } params confirmation (some content)
    | tc => tc
  | .authRequired auth =>
    match tc with
    | .running b params confirmation content =>
      -- only a call that an MCP server contributed can wait for authentication
      if let some (.mcp _) := b.contributor then
        .authRequired (tc.baseWithMeta _meta) params confirmation auth content
      else tc
    | tc => tc
  | .authResolved =>
    match tc with
    | .authRequired _ params confirmation _ content => .running (tc.baseWithMeta _meta) params confirmation content
    | tc => tc

def ToolCallAction.refreshes : ToolCallAction → Bool
  | .delta .. | .contentChanged .. => false
  | _ => true

namespace ResponsePart

def isOpenInputRequest (requestId : String) : ResponsePart → Bool
  | .inputRequest request none => request.id == requestId
  | _ => false

def id : ResponsePart → Option String
  | .markdown id _ | .reasoning id _ => some id
  | .toolCall tc => some tc.base.toolCallId
  | _ => none

end ResponsePart

namespace ChatState

def hasBlockingToolCall (state : ChatState) : Bool :=
  match state.activeTurn with
  | none => false
  | some turn => turn.responseParts.any fun
      | .toolCall tc => tc.isBlocking
      | _ => false

def hasOpenInputRequest (state : ChatState) : Bool :=
  match state.activeTurn with
  | none => false
  | some turn => turn.responseParts.any fun
      | .inputRequest _ none => true
      | _ => false

def summaryStatus (state : ChatState) (terminalStatus : Option SessionStatus) : SessionStatus :=
  let activity :=
    match terminalStatus with
    | some status => status
    | none =>
      if state.hasOpenInputRequest || state.hasBlockingToolCall then SessionStatus.inputNeeded
      else if state.activeTurn.isSome then SessionStatus.inProgress
      else SessionStatus.idle
  state.status &&& ~~~statusActivityMask ||| activity

def refreshSummaryStatus (state : ChatState) : ChatState := { state with status := state.summaryStatus none }

def updateActiveTurn (state : ChatState) (turnId : String) (f : ActiveTurn → ActiveTurn) :
    ChatState :=
  match state.activeTurn with
  | some turn => if turn.id = turnId then { state with activeTurn := some (f turn) } else state
  | none => state

def endTurn (now : Timestamp) (state : ChatState) (turnId : String) (turnState : TurnState)
    (duration : Int) (terminalStatus : Option SessionStatus) (error : Option Payload) :
    ChatState :=
  match state.activeTurn with
  | none => state
  | some active =>
    if active.id ≠ turnId then state
    else
      let responseParts := active.responseParts.map fun
        | .toolCall tc => .toolCall tc.skip
        | part => part
      let turn : Turn :=
        { id := active.id
          startedAt := some active.startedAt
          duration := some (max 0 duration)
          message := active.message
          responseParts
          usage := active.usage
          state := turnState
          error }
      let next : ChatState :=
        { state with turns := state.turns ++ [turn], activeTurn := none, modifiedAt := now }
      { next with status := next.summaryStatus terminalStatus }

def upsertInputRequestPart (now : Timestamp) (state : ChatState) (request : ChatInputRequest) :
    ChatState :=
  match state.activeTurn with
  | none => state
  | some activeTurn =>
    let responseParts :=
      if activeTurn.responseParts.any (·.isOpenInputRequest request.id) then
        modifyFirst (·.isOpenInputRequest request.id) (fun
          | .inputRequest existing _ =>
            .inputRequest { request with answers := request.answers <|> existing.answers } none
          | part => part) activeTurn.responseParts
      else activeTurn.responseParts ++ [.inputRequest request none]
    let next : ChatState :=
      { state with activeTurn := some { activeTurn with responseParts } }
    { next with
      status := withStatusFlag (next.summaryStatus none) SessionStatus.isRead false
      modifiedAt := now }

def updateInputRequest (state : ChatState) (requestId : String)
    (f : ChatInputRequest → ResponsePart) : Option ChatState :=
  match state.activeTurn with
  | none => none
  | some activeTurn =>
    if activeTurn.responseParts.any (·.isOpenInputRequest requestId) then
      let responseParts := modifyFirst (·.isOpenInputRequest requestId) (fun
        | .inputRequest request _ => f request
        | part => part) activeTurn.responseParts
      some { state with activeTurn := some { activeTurn with responseParts } }
    else none

def updateToolCallInParts (state : ChatState) (turnId toolCallId : String)
    (updater : ToolCallState → ToolCallState) : ChatState :=
  state.updateActiveTurn turnId fun turn =>
    { turn with
      responseParts := turn.responseParts.map fun
        | .toolCall tc => if tc.base.toolCallId = toolCallId then .toolCall (updater tc)
            else .toolCall tc
        | part => part }

def updateResponsePart (state : ChatState) (turnId partId : String)
    (updater : ResponsePart → ResponsePart) : ChatState :=
  state.updateActiveTurn turnId fun turn =>
    { turn with responseParts := modifyFirst (·.id == some partId) updater turn.responseParts }

end ChatState

def nonEmptyMessages (messages : List PendingMessage) : Option (List PendingMessage) :=
  if messages = [] then none else some messages

def nonEmptyAnswers (answers : Record Payload) : Option (Record Payload) := if answers = [] then none else some answers

def reorderMessages (existing : List PendingMessage) (order : List String) :
    List PendingMessage :=
  let ordered := (order.filter fun id => existing.any (·.id == id)).eraseDups
  ordered.filterMap (fun id => existing.reverse.find? (·.id == id)) ++ existing.filter fun m => !ordered.contains m.id

def chatReducer (now : Timestamp) (state : ChatState) : ChatAction → ChatState
  | .turnStarted turnId startedAt message queuedMessageId =>
    let started : ChatState :=
      { state with activeTurn := some ⟨turnId, startedAt, message, [], none⟩ }
    let next : ChatState :=
      { started with
        status := withStatusFlag (started.summaryStatus none) SessionStatus.isRead false
        modifiedAt := now }
    match queuedMessageId with
    | none => next
    | some id =>
      if id = "" then next
      else
        { next with
          steeringMessage := next.steeringMessage.filter fun m => m.id != id
          queuedMessages := next.queuedMessages.bind fun messages =>
            nonEmptyMessages (messages.filter fun m => m.id != id) }
  | .delta turnId partId content =>
    state.updateResponsePart turnId partId fun
      | .markdown id text => .markdown id (text ++ content)
      | part => part
  | .responsePart turnId part =>
    state.updateActiveTurn turnId fun turn => { turn with responseParts := turn.responseParts ++ [part] }
  | .toolCallStart turnId base =>
    state.updateActiveTurn turnId fun turn =>
      { turn with responseParts := turn.responseParts ++ [.toolCall (.streaming base none none)] }
  | .toolCall turnId toolCallId _meta action =>
    let next := state.updateToolCallInParts turnId toolCallId fun tc => action.update _meta tc
    if action.refreshes then next.refreshSummaryStatus else next
  | .turnComplete turnId duration => state.endTurn now turnId .complete duration none none
  | .turnCancelled turnId duration => state.endTurn now turnId .cancelled duration none none
  | .error turnId duration error => state.endTurn now turnId .error duration (some SessionStatus.error) (some error)
  | .activityChanged activity => { state with activity := activity }
  | .workingDirectorySet directory =>
    let list := state.workingDirectories.getD []
    if list.contains directory then state
    else { state with workingDirectories := some (list ++ [directory]) }
  | .workingDirectoryRemoved directory =>
    { state with workingDirectories := state.workingDirectories.map (·.erase directory) }
  | .usage turnId usage => state.updateActiveTurn turnId fun turn => { turn with usage := some usage }
  | .reasoning turnId partId content =>
    state.updateResponsePart turnId partId fun
      | .reasoning id text => .reasoning id (text ++ content)
      | part => part
  | .truncated none =>
    let next : ChatState :=
      { state with turns := [], activeTurn := none, modifiedAt := now, turnsNextCursor := none }
    next.refreshSummaryStatus
  | .truncated (some turnId) =>
    match state.turns.findIdx? (·.id == turnId) with
    | none => state
    | some idx =>
      let next : ChatState :=
        { state with turns := state.turns.take (idx + 1), activeTurn := none, modifiedAt := now }
      next.refreshSummaryStatus
  | .turnsLoaded turns turnsNextCursor =>
    { state with
      turns := turns.filter (fun turn => !state.turns.any (·.id == turn.id)) ++ state.turns
      turnsNextCursor }
  | .pendingMessageSet .steering id message => { state with steeringMessage := some ⟨id, message⟩ }
  | .pendingMessageSet .queued id message =>
    { state with
      queuedMessages := some (setFirst (·.id == id) ⟨id, message⟩ (state.queuedMessages.getD [])) }
  | .pendingMessageRemoved .steering id =>
    { state with steeringMessage := state.steeringMessage.filter fun m => m.id != id }
  | .pendingMessageRemoved .queued id =>
    match state.queuedMessages with
    | none => state
    | some existing =>
      let filtered := existing.filter fun m => m.id != id
      if filtered.length = existing.length then state
      else { state with queuedMessages := nonEmptyMessages filtered }
  | .queuedMessagesReordered order =>
    { state with queuedMessages := state.queuedMessages.map (reorderMessages · order) }
  | .draftChanged draft => { state with draft := draft }
  | .inputRequested request => state.upsertInputRequestPart now request
  | .inputAnswerChanged requestId questionId answer =>
    match state.updateInputRequest requestId fun request =>
        let answers := request.answers.getD []
        let answers :=
          match answer with
          | none => answers.delete questionId
          | some answer => answers.set questionId answer
        .inputRequest { request with answers := nonEmptyAnswers answers } none with
    | none => state
    | some next => { next with modifiedAt := now }
  | .inputCompleted requestId response answers =>
    match state.updateInputRequest requestId fun request =>
        let finalAnswers := (request.answers.getD []).spread (answers.getD [])
        .inputRequest { request with answers := nonEmptyAnswers finalAnswers } (some response) with
    | none => state
    | some next => { next.refreshSummaryStatus with modifiedAt := now }

end Gavea.AgentHost
