import Mathlib.Tactic

namespace Gavea.IntervalTree

inductive TrackedRangeStickiness
  | alwaysGrowsWhenTypingAtEdges
  | neverGrowsWhenTypingAtEdges
  | growsOnlyWhenTypingBefore
  | growsOnlyWhenTypingAfter
  deriving DecidableEq

/-- A decoration with its absolute offsets; stop is the field `end`. -/
structure IntervalNode where
  metadata : Nat
  start : Int
  stop : Int

namespace IntervalNode

def getNodeStickiness (node : IntervalNode) : TrackedRangeStickiness :=
  match (node.metadata &&& 24) >>> 3 with
  | 0 => .alwaysGrowsWhenTypingAtEdges
  | 1 => .neverGrowsWhenTypingAtEdges
  | 2 => .growsOnlyWhenTypingBefore
  | _ => .growsOnlyWhenTypingAfter

def getCollapseOnReplaceEdit (node : IntervalNode) : Bool := (node.metadata &&& 32) >>> 5 == 1

/-- Both ends lie in a document of the given length, in this order. -/
def Within (length : Int) (node : IntervalNode) : Prop := 0 ≤ node.start ∧ node.start ≤ node.stop ∧ node.stop ≤ length

instance (length : Int) (node : IntervalNode) : Decidable (node.Within length) := inferInstanceAs (Decidable (_ ∧ _))

def delta (offset : Int) (node : IntervalNode) : IntervalNode :=
  { node with start := node.start + offset, stop := node.stop + offset }

end IntervalNode

inductive MarkerMoveSemantics
  | markerDefined
  | forceMove
  | forceStay

def adjustMarkerBeforeColumn (markerOffset : Int) (markerStickToPreviousCharacter : Bool)
    (checkOffset : Int) (moveSemantics : MarkerMoveSemantics) : Bool :=
  if markerOffset < checkOffset then true
  else if markerOffset > checkOffset then false
  else
    match moveSemantics with
    | .forceMove => false
    | .forceStay => true
    | .markerDefined => markerStickToPreviousCharacter

/-- What `nodeAcceptEdit` does with either end of a node that does not collapse: the
place where its `startDone` or `endDone` is set decides about the offset. -/
def acceptEditAtMarker (markerOffset : Int) (markerStickToPreviousCharacter : Bool)
    (start stop textLength : Int) (forceMoveMarkers : Bool) : Int :=
  let deletingCnt := stop - start
  let insertingCnt := textLength
  let commonLength := min deletingCnt insertingCnt
  if adjustMarkerBeforeColumn markerOffset markerStickToPreviousCharacter start
      (if forceMoveMarkers then .forceMove
        else if deletingCnt > 0 then .forceStay else .markerDefined) then
    markerOffset
  else if commonLength > 0 && !forceMoveMarkers &&
      adjustMarkerBeforeColumn markerOffset markerStickToPreviousCharacter (start + commonLength)
        (if deletingCnt > insertingCnt then .forceStay else .markerDefined) then
    markerOffset
  else if adjustMarkerBeforeColumn markerOffset markerStickToPreviousCharacter stop
      (if forceMoveMarkers then .forceMove else .markerDefined) then
    start + insertingCnt
  else max 0 (markerOffset + (insertingCnt - deletingCnt))

def nodeAcceptEdit (node : IntervalNode) (start stop textLength : Int) (forceMoveMarkers : Bool) :
    IntervalNode :=
  let nodeStickiness := node.getNodeStickiness
  let startStickToPreviousCharacter :=
    nodeStickiness == .alwaysGrowsWhenTypingAtEdges || nodeStickiness == .growsOnlyWhenTypingBefore
  let endStickToPreviousCharacter :=
    nodeStickiness == .neverGrowsWhenTypingAtEdges || nodeStickiness == .growsOnlyWhenTypingBefore
  -- an edit around the whole decoration, which has asked to become collapsed
  if start ≤ node.start ∧ node.stop ≤ stop ∧ node.getCollapseOnReplaceEdit then
    { node with start := start, stop := start }
  else
    let newStart := acceptEditAtMarker node.start startStickToPreviousCharacter start stop textLength
      forceMoveMarkers
    let newEnd := acceptEditAtMarker node.stop endStickToPreviousCharacter start stop textLength
      forceMoveMarkers
    { node with start := newStart, stop := if newStart > newEnd then newStart else newEnd }

/-- The offset keeps its place in the text around the edit: it stays in front of it, moves
behind it, and from inside or from its edges it comes to lie on what has been written. -/
def KeepsPlace (start stop textLength p p' : Int) : Prop :=
  (p < start → p' = p) ∧ (stop < p → p' = p + (textLength - (stop - start))) ∧
    (start ≤ p → p ≤ stop → start ≤ p' ∧ p' ≤ start + textLength)

theorem adjustMarkerBeforeColumn_of_lt {markerOffset checkOffset : Int} (sticks : Bool)
    (semantics : MarkerMoveSemantics) (h : markerOffset < checkOffset) :
    adjustMarkerBeforeColumn markerOffset sticks checkOffset semantics = true := if_pos h

theorem le_of_adjustMarkerBeforeColumn {markerOffset checkOffset : Int} {sticks : Bool}
    {semantics : MarkerMoveSemantics}
    (h : adjustMarkerBeforeColumn markerOffset sticks checkOffset semantics = true) :
    markerOffset ≤ checkOffset := by
  by_contra hlt
  rw [adjustMarkerBeforeColumn.eq_def, if_neg (by omega), if_pos (by omega)] at h
  cases h

theorem le_of_not_adjustMarkerBeforeColumn {markerOffset checkOffset : Int} {sticks : Bool}
    {semantics : MarkerMoveSemantics}
    (h : ¬adjustMarkerBeforeColumn markerOffset sticks checkOffset semantics = true) :
    checkOffset ≤ markerOffset := by
  by_contra hlt
  exact h (adjustMarkerBeforeColumn_of_lt sticks semantics (not_le.mp hlt))

section Marker

variable {p start stop textLength : Int} {sticks forceMoveMarkers : Bool}

theorem keepsPlace_of_checks {before common behind : Bool} (h0 : 0 ≤ start) (hle : start ≤ stop)
    (htext : 0 ≤ textLength) (hbefore : before = true → p ≤ start)
    (hbefore' : ¬before = true → start ≤ p)
    (hcommon : common = true → p ≤ start + min (stop - start) textLength)
    (hbehind : behind = true → p ≤ stop) (hbehind' : ¬behind = true → stop ≤ p) :
    KeepsPlace start stop textLength p (if before then p else if common then p
      else if behind then start + textLength
      else max 0 (p + (textLength - (stop - start)))) := by
  split_ifs with hb hc he
  · have := hbefore hb
    refine ⟨?_, ?_, ?_⟩ <;> omega
  · have := hbefore' hb
    have := hcommon hc
    refine ⟨?_, ?_, ?_⟩ <;> omega
  · have := hbefore' hb
    have := hbehind he
    refine ⟨?_, ?_, ?_⟩ <;> omega
  · have := hbefore' hb
    have := hbehind' he
    refine ⟨?_, ?_, ?_⟩ <;> omega

theorem acceptEditAtMarker_keepsPlace (sticks forceMoveMarkers : Bool) (h0 : 0 ≤ start)
    (hle : start ≤ stop) (htext : 0 ≤ textLength) : KeepsPlace start stop textLength p
      (acceptEditAtMarker p sticks start stop textLength forceMoveMarkers) :=
  keepsPlace_of_checks h0 hle htext le_of_adjustMarkerBeforeColumn
    le_of_not_adjustMarkerBeforeColumn
    (fun h => le_of_adjustMarkerBeforeColumn (Bool.and_eq_true_iff.mp h).2)
    le_of_adjustMarkerBeforeColumn le_of_not_adjustMarkerBeforeColumn

theorem KeepsPlace.max {q p' q' : Int} (hle : start ≤ stop) (htext : 0 ≤ textLength) (hpq : p ≤ q)
    (hp : KeepsPlace start stop textLength p p') (hq : KeepsPlace start stop textLength q q') :
    KeepsPlace start stop textLength q (if p' > q' then p' else q') := by
  obtain ⟨hp1, hp2, hp3⟩ := hp
  obtain ⟨hq1, hq2, hq3⟩ := hq
  refine ⟨?_, ?_, ?_⟩ <;> split_ifs <;> omega

end Marker

variable {node : IntervalNode} {length start stop textLength : Int}

theorem nodeAcceptEdit_keepsPlace (forceMoveMarkers : Bool) (hnode : node.start ≤ node.stop)
    (h0 : 0 ≤ start) (hle : start ≤ stop) (htext : 0 ≤ textLength) :
    KeepsPlace start stop textLength node.start
        (nodeAcceptEdit node start stop textLength forceMoveMarkers).start ∧
      KeepsPlace start stop textLength node.stop
        (nodeAcceptEdit node start stop textLength forceMoveMarkers).stop := by
  rw [nodeAcceptEdit]
  split_ifs with hcollapse
  · have hinside {p : Int} (h1 : start ≤ p) (h2 : p ≤ stop) :
        KeepsPlace start stop textLength p start := by
      refine ⟨?_, ?_, ?_⟩ <;> omega
    obtain ⟨hstart, hstop, -⟩ := hcollapse
    exact ⟨hinside hstart (by omega), hinside (by omega) hstop⟩
  · have hstart := fun sticks => @acceptEditAtMarker_keepsPlace node.start _ _ _ sticks forceMoveMarkers h0 hle htext
    have hstop := fun sticks => @acceptEditAtMarker_keepsPlace node.stop _ _ _ sticks forceMoveMarkers h0 hle htext
    exact ⟨hstart _, .max hle htext hnode (hstart _) (hstop _)⟩

theorem nodeAcceptEdit_start_le (forceMoveMarkers : Bool) :
    (nodeAcceptEdit node start stop textLength forceMoveMarkers).start ≤
      (nodeAcceptEdit node start stop textLength forceMoveMarkers).stop := by
  rw [nodeAcceptEdit]
  split_ifs with hcollapse
  · exact le_rfl
  · simp only
    split_ifs with hcross
    · exact le_rfl
    · exact not_lt.mp hcross

theorem nodeAcceptEdit_metadata (forceMoveMarkers : Bool) :
    (nodeAcceptEdit node start stop textLength forceMoveMarkers).metadata = node.metadata := by
  rw [nodeAcceptEdit]
  split_ifs <;> rfl

theorem nodeAcceptEdit_placed (forceMoveMarkers : Bool) (hnode : node.Within length)
    (h0 : 0 ≤ start) (hle : start ≤ stop) (hlength : stop ≤ length) (htext : 0 ≤ textLength) :
    (nodeAcceptEdit node start stop textLength forceMoveMarkers).Within
        (length + (textLength - (stop - start))) ∧
      (node.stop < start → nodeAcceptEdit node start stop textLength forceMoveMarkers = node) ∧
      (stop < node.start → nodeAcceptEdit node start stop textLength forceMoveMarkers =
        node.delta (textLength - (stop - start))) := by
  obtain ⟨hnode0, hnodeLe, hnodeLength⟩ := hnode
  obtain ⟨hstart, hstop⟩ := nodeAcceptEdit_keepsPlace forceMoveMarkers hnodeLe h0 hle htext
  have hsorted := @nodeAcceptEdit_start_le node start stop textLength forceMoveMarkers
  have hmetadata := @nodeAcceptEdit_metadata node start stop textLength forceMoveMarkers
  generalize nodeAcceptEdit node start stop textLength forceMoveMarkers = moved at *
  obtain ⟨metadata, s, e⟩ := node
  obtain ⟨metadata', s', e'⟩ := moved
  simp only [KeepsPlace, IntervalNode.Within, IntervalNode.delta, IntervalNode.mk.injEq] at *
  refine ⟨⟨?_, hsorted, ?_⟩, fun _ => ⟨hmetadata, ?_, ?_⟩, fun _ => ⟨hmetadata, ?_, ?_⟩⟩ <;> omega

/-- An edit inside the document leaves every decoration inside the document, moves the
ones on either side as a whole and keeps the place of both ends in the text around it. -/
theorem nodeAcceptEdit_within (forceMoveMarkers : Bool) (hnode : node.Within length)
    (h0 : 0 ≤ start) (hle : start ≤ stop) (hlength : stop ≤ length) (htext : 0 ≤ textLength) :
    (nodeAcceptEdit node start stop textLength forceMoveMarkers).Within
        (length + (textLength - (stop - start))) ∧
      (node.stop < start → nodeAcceptEdit node start stop textLength forceMoveMarkers = node) ∧
      (stop < node.start → nodeAcceptEdit node start stop textLength forceMoveMarkers =
        node.delta (textLength - (stop - start))) ∧
      KeepsPlace start stop textLength node.start (nodeAcceptEdit node start stop textLength forceMoveMarkers).start ∧
      KeepsPlace start stop textLength node.stop
        (nodeAcceptEdit node start stop textLength forceMoveMarkers).stop := by
  obtain ⟨hwithin, hbefore, hbehind⟩ := nodeAcceptEdit_placed forceMoveMarkers hnode h0 hle hlength htext
  have hplace := nodeAcceptEdit_keepsPlace forceMoveMarkers hnode.2.1 h0 hle htext
  exact ⟨hwithin, hbefore, hbehind, hplace⟩

/-- A decoration over the last two of three characters, of which the middle one is replaced. -/
theorem nodeAcceptEdit_within_middle :
    (nodeAcceptEdit ⟨8, 1, 3⟩ 1 2 4 false).Within 6 ∧
      KeepsPlace 1 2 4 3 (nodeAcceptEdit ⟨8, 1, 3⟩ 1 2 4 false).stop := by
  obtain ⟨hwithin, -, -, -, hstop⟩ := @nodeAcceptEdit_within ⟨8, 1, 3⟩ 3 1 2 4 false (by decide)
    (by decide) (by decide) (by decide) (by decide)
  exact ⟨hwithin, hstop⟩

end Gavea.IntervalTree
