import Gavea.ViewLayout.LineHeights

namespace Gavea.ViewLayout

structure EditorWhitespace where
  id : String
  afterLineNumber : Int
  ordinal : Int
  height : Int
  minWidth : Int
  prefixSum : Int

structure IPendingChange where
  id : String
  newAfterLineNumber : Int
  newHeight : Int

/-- What a batch has asked for, in order; a remove is the id. -/
structure PendingChanges where
  inserts : List EditorWhitespace
  changes : List IPendingChange
  removes : List String

inductive AccessorCall
  | insertWhitespace (afterLineNumber ordinal heightInPx minWidth : Int)
  | changeOneWhitespace (id : String) (newAfterLineNumber newHeight : Int)
  | removeWhitespace (id : String)

/-- The whitespaces between the lines, with their prefix sums up to a valid index. -/
structure LinesLayout where
  instanceId : String
  lastWhitespaceId : Nat
  arr : List EditorWhitespace
  prefixSumValidIndex : Int
  minWidth : Int
  lineCount : Int
  paddingTop : ℚ
  paddingBottom : ℚ
  lineHeightsManager : LineHeightsManager

def toInt32 (x : Int) : Int := x.bmod (2 ^ 32)

/-- `x | 0`, which rounds towards zero. -/
def truncInt32 (x : ℚ) : Int := toInt32 (x.num.tdiv x.den)

namespace LinesLayout

def new (instanceId : String) (lineCount : Int) (defaultLineHeight paddingTop paddingBottom : ℚ)
    (customLineHeightData : List CustomLineHeightData) : LinesLayout :=
  { instanceId := instanceId
    lastWhitespaceId := 0
    arr := []
    prefixSumValidIndex := -1
    minWidth := -1
    lineCount := lineCount
    paddingTop := paddingTop
    paddingBottom := paddingBottom
    lineHeightsManager := .new defaultLineHeight customLineHeightData }

/-- Whether the key of the new value is not in front of the one of the whitespace. -/
def goesBehind (afterLineNumber ordinal : Int) (whitespace : EditorWhitespace) : Bool :=
  if afterLineNumber = whitespace.afterLineNumber then !decide (ordinal < whitespace.ordinal)
  else !decide (afterLineNumber < whitespace.afterLineNumber)

def insertionLoop (arr : List EditorWhitespace) (afterLineNumber ordinal : Int) (low high : Nat) :
    Nat :=
  if low < high then
    let mid := (low + high) / 2
    if (arr[mid]?).any (goesBehind afterLineNumber ordinal) then
      insertionLoop arr afterLineNumber ordinal (mid + 1) high
    else insertionLoop arr afterLineNumber ordinal low mid
  else low
termination_by high - low

def findInsertionIndex (arr : List EditorWhitespace) (afterLineNumber ordinal : Int) : Nat :=
  insertionLoop arr afterLineNumber ordinal 0 arr.length

def setPadding (s : LinesLayout) (paddingTop paddingBottom : ℚ) : LinesLayout :=
  { s with
    paddingTop := paddingTop
    paddingBottom := paddingBottom }

section Commit

def insertWhitespace (s : LinesLayout) (whitespace : EditorWhitespace) : LinesLayout :=
  let insertIndex := findInsertionIndex s.arr whitespace.afterLineNumber whitespace.ordinal
  { s with
    arr := s.arr.take insertIndex ++ whitespace :: s.arr.drop insertIndex
    prefixSumValidIndex := min s.prefixSumValidIndex (insertIndex - 1) }

def findWhitespaceIndex (arr : List EditorWhitespace) (id : String) : Option Nat :=
  arr.findIdx? fun whitespace => whitespace.id = id

def removeWhitespace (s : LinesLayout) (removeIndex : Nat) : LinesLayout :=
  { s with
    arr := s.arr.eraseIdx removeIndex
    prefixSumValidIndex := min s.prefixSumValidIndex (removeIndex - 1) }

def changeHeight (s : LinesLayout) (index : Nat) (whitespace : EditorWhitespace) (newHeight : Int) :
    LinesLayout :=
  if whitespace.height ≠ newHeight then
    { s with
      arr := s.arr.set index { whitespace with height := newHeight }
      prefixSumValidIndex := min s.prefixSumValidIndex (index - 1) }
  else s

def changeOneWhitespace (s : LinesLayout) (change : IPendingChange) : LinesLayout :=
  match findWhitespaceIndex s.arr change.id with
  | none => s
  | some index =>
    match s.arr[index]? with
    | none => s
    | some whitespace =>
      let s := s.changeHeight index whitespace change.newHeight
      if whitespace.afterLineNumber ≠ change.newAfterLineNumber then
        (s.removeWhitespace index).insertWhitespace
          { whitespace with
            height := change.newHeight
            afterLineNumber := change.newAfterLineNumber }
      else s

def removeOneWhitespace (s : LinesLayout) (id : String) : LinesLayout :=
  match findWhitespaceIndex s.arr id with
  | none => s
  | some index => s.removeWhitespace index

/-- When only one thing happened, it is handled delicately. -/
def commitSingly (s : LinesLayout) (pending : PendingChanges) : LinesLayout :=
  pending.removes.foldl removeOneWhitespace
    (pending.changes.foldl changeOneWhitespace (pending.inserts.foldl insertWhitespace s))

def toChange (changes : List IPendingChange) (id : String) : Option IPendingChange :=
  changes.reverse.find? fun change => change.id = id

def applyChange (changes : List IPendingChange) (whitespace : EditorWhitespace) :
    EditorWhitespace :=
  match toChange changes whitespace.id with
  | some change =>
    { whitespace with
      afterLineNumber := change.newAfterLineNumber
      height := change.newHeight }
  | none => whitespace

def applyRemoveAndChange (pending : PendingChanges) (whitespaces : List EditorWhitespace) :
    List EditorWhitespace :=
  (whitespaces.filter fun whitespace => whitespace.id ∉ pending.removes).map (applyChange pending.changes)

def StartsNoLater (a b : EditorWhitespace) : Prop :=
  a.afterLineNumber < b.afterLineNumber ∨ a.afterLineNumber = b.afterLineNumber ∧ a.ordinal ≤ b.ordinal

instance : DecidableRel StartsNoLater := fun _ _ => inferInstanceAs (Decidable (_ ∨ _))

/-- Simply rebuilds the entire data structure. -/
def commitRebuilding (s : LinesLayout) (pending : PendingChanges) : LinesLayout :=
  let result := applyRemoveAndChange pending s.arr ++ applyRemoveAndChange pending pending.inserts
  { s with
    arr := result.insertionSort StartsNoLater
    prefixSumValidIndex := -1 }

def commitPendingChanges (s : LinesLayout) (pending : PendingChanges) : LinesLayout :=
  let s := if pending.inserts ≠ [] ∨ pending.removes ≠ [] then { s with minWidth := -1 } else s
  if pending.inserts.length + pending.changes.length + pending.removes.length ≤ 1 then
    s.commitSingly pending
  else s.commitRebuilding pending

def access (s : LinesLayout × PendingChanges) : AccessorCall → LinesLayout × PendingChanges
  | .insertWhitespace afterLineNumber ordinal heightInPx minWidth =>
    let lastWhitespaceId := s.1.lastWhitespaceId + 1
    ({ s.1 with lastWhitespaceId := lastWhitespaceId },
      { s.2 with inserts := s.2.inserts ++
        [⟨s.1.instanceId ++ toString lastWhitespaceId, toInt32 afterLineNumber, toInt32 ordinal,
          toInt32 heightInPx, toInt32 minWidth, 0⟩] })
  | .changeOneWhitespace id newAfterLineNumber newHeight =>
    (s.1, { s.2 with changes := s.2.changes ++ [⟨id, toInt32 newAfterLineNumber, toInt32 newHeight⟩] })
  | .removeWhitespace id => (s.1, { s.2 with removes := s.2.removes ++ [id] })

/-- A batch, up to its commit; a callback that throws has made the calls before. -/
def pend (s : LinesLayout) (calls : List AccessorCall) : LinesLayout × PendingChanges :=
  calls.foldl access (s, ⟨[], [], []⟩)

def changeWhitespace (s : LinesLayout) (calls : List AccessorCall) : LinesLayout :=
  (s.pend calls).1.commitPendingChanges (s.pend calls).2

end Commit

section Lines

def moveUp (fromLineNumber toLineNumber : Int) (whitespace : EditorWhitespace) : EditorWhitespace :=
  if fromLineNumber ≤ whitespace.afterLineNumber ∧ whitespace.afterLineNumber ≤ toLineNumber then
    { whitespace with afterLineNumber := fromLineNumber - 1 }
  else if whitespace.afterLineNumber > toLineNumber then
    { whitespace with
      afterLineNumber := whitespace.afterLineNumber - (toLineNumber - fromLineNumber + 1) }
  else whitespace

def onLinesDeleted (s : LinesLayout) (fromLineNumber toLineNumber : Int) : LinesLayout :=
  let fromLineNumber := toInt32 fromLineNumber
  let toLineNumber := toInt32 toLineNumber
  { s with
    lineCount := s.lineCount - (toLineNumber - fromLineNumber + 1)
    arr := s.arr.map (moveUp fromLineNumber toLineNumber)
    lineHeightsManager := s.lineHeightsManager.onLinesDeleted fromLineNumber toLineNumber }

def moveDown (fromLineNumber toLineNumber : Int) (whitespace : EditorWhitespace) :
    EditorWhitespace :=
  if fromLineNumber ≤ whitespace.afterLineNumber then
    { whitespace with
      afterLineNumber := whitespace.afterLineNumber + (toLineNumber - fromLineNumber + 1) }
  else whitespace

def onLinesInserted (s : LinesLayout) (fromLineNumber toLineNumber : Int) : LinesLayout :=
  let fromLineNumber := toInt32 fromLineNumber
  let toLineNumber := toInt32 toLineNumber
  { s with
    lineCount := s.lineCount + (toLineNumber - fromLineNumber + 1)
    arr := s.arr.map (moveDown fromLineNumber toLineNumber)
    lineHeightsManager := s.lineHeightsManager.onLinesInserted fromLineNumber toLineNumber }

end Lines

section Sums

def prefixSumAt (arr : List EditorWhitespace) (index : Nat) : Int := ((arr[index]?).map (·.prefixSum)).getD 0

/-- The loop of `getWhitespacesAccumulatedHeight`. -/
def sumLoop (arr : List EditorWhitespace) (i : Nat) : Nat → List EditorWhitespace
  | 0 => arr
  | count + 1 =>
    sumLoop
      (arr.modify i fun whitespace => { whitespace with prefixSum := prefixSumAt arr (i - 1) + whitespace.height })
      (i + 1) count

def getWhitespacesAccumulatedHeight (s : LinesLayout) (index : Nat) : Int × LinesLayout :=
  let startIndex := (max 0 (s.prefixSumValidIndex + 1)).toNat
  let first := if startIndex = 0 then
      s.arr.modify 0 fun whitespace => { whitespace with prefixSum := whitespace.height }
    else s.arr
  let startIndex := if startIndex = 0 then 1 else startIndex
  let arr := sumLoop first startIndex (index + 1 - startIndex)
  (prefixSumAt arr index,
    { s with
      arr := arr
      prefixSumValidIndex := max s.prefixSumValidIndex index })

def lastBeforeLoop (arr : List EditorWhitespace) (lineNumber : Int) (low high : Nat) : Option Nat :=
  if low < high then
    let mid := low + (high - 1 - low) / 2
    if (arr[mid]?).any fun whitespace => whitespace.afterLineNumber < lineNumber then
      if (arr[mid + 1]?).all fun whitespace => whitespace.afterLineNumber ≥ lineNumber then
        some mid
      else lastBeforeLoop arr lineNumber (mid + 1) high
    else lastBeforeLoop arr lineNumber low mid
  else none
termination_by high - low

def findLastWhitespaceBeforeLineNumber (s : LinesLayout) (lineNumber : Int) : Option Nat :=
  lastBeforeLoop s.arr lineNumber 0 s.arr.length

def getWhitespaceAccumulatedHeightBeforeLineNumber (s : LinesLayout) (lineNumber : Int) :
    Int × LinesLayout :=
  match s.findLastWhitespaceBeforeLineNumber (toInt32 lineNumber) with
  | none => (0, s)
  | some index => s.getWhitespacesAccumulatedHeight index

def getWhitespacesTotalHeight (s : LinesLayout) : Int × LinesLayout :=
  if s.arr = [] then (0, s) else s.getWhitespacesAccumulatedHeight (s.arr.length - 1)

end Sums

section Offsets

def getLineHeightForLineNumber (s : LinesLayout) (lineNumber : Int) : ℚ × LinesLayout :=
  let (height, lineHeightsManager) := s.lineHeightsManager.heightForLineNumber lineNumber
  (height, { s with lineHeightsManager := lineHeightsManager })

def getAccumulatedLineHeights (s : LinesLayout) (lineNumber : Int) : ℚ × LinesLayout :=
  let (height, lineHeightsManager) :=
    s.lineHeightsManager.getAccumulatedLineHeightsIncludingLineNumber lineNumber
  (height, { s with lineHeightsManager := lineHeightsManager })

/-- The sum of the heights for all objects above a line. -/
def getVerticalOffsetForLineNumber (s : LinesLayout) (lineNumber : Int)
    (includeViewZones : Bool := false) : ℚ × LinesLayout :=
  let lineNumber := toInt32 lineNumber
  let (previousLinesHeight, s) :=
    if lineNumber > 1 then s.getAccumulatedLineHeights (lineNumber - 1) else (0, s)
  let (previousWhitespacesHeight, s) := s.getWhitespaceAccumulatedHeightBeforeLineNumber
    (lineNumber - if includeViewZones then 1 else 0)
  (previousLinesHeight + previousWhitespacesHeight + s.paddingTop, s)

def getLinesTotalHeight (s : LinesLayout) : ℚ × LinesLayout :=
  let (linesHeight, s) := s.getAccumulatedLineHeights s.lineCount
  let (whitespacesHeight, s) := s.getWhitespacesTotalHeight
  (linesHeight + whitespacesHeight + s.paddingTop + s.paddingBottom, s)

def measure (s : LinesLayout) (lineNumber : Int) : (ℚ × Int) × LinesLayout :=
  let (lineHeight, s) := s.getLineHeightForLineNumber lineNumber
  let (verticalOffset, s) := s.getVerticalOffsetForLineNumber lineNumber
  ((lineHeight, truncInt32 verticalOffset), s)

def lineAtOrAfterLoop (verticalOffset : Int) (s : LinesLayout) (minLineNumber maxLineNumber : Int) :
    (Int × Bool) × LinesLayout :=
  if minLineNumber < maxLineNumber then
    let midLineNumber := (minLineNumber + maxLineNumber) / 2
    let mid := s.measure midLineNumber
    if verticalOffset ≥ mid.1.2 + mid.1.1 then
      lineAtOrAfterLoop verticalOffset mid.2 (midLineNumber + 1) maxLineNumber
    else if verticalOffset ≥ mid.1.2 then ((midLineNumber, true), mid.2)
    else lineAtOrAfterLoop verticalOffset mid.2 minLineNumber midLineNumber
  else ((minLineNumber, false), s)
termination_by (maxLineNumber - minLineNumber).toNat

def getLineNumberAtOrAfterVerticalOffset (s : LinesLayout) (verticalOffset : ℚ) :
    Int × LinesLayout :=
  let verticalOffset := truncInt32 verticalOffset
  if verticalOffset < 0 then (1, s)
  else
    let linesCount := toInt32 s.lineCount
    let found := lineAtOrAfterLoop verticalOffset s 1 linesCount
    if found.1.2 then (found.1.1, found.2)
    else if found.1.1 > linesCount then (linesCount, found.2)
    else (found.1.1, found.2)

end Offsets

section Viewport

structure IPartialViewLinesViewportData where
  bigNumbersDelta : ℚ
  startLineNumber : Int
  endLineNumber : Int
  relativeVerticalOffset : List ℚ
  centeredLineNumber : Int
  completelyVisibleStartLineNumber : Int
  completelyVisibleEndLineNumber : Int
  lineHeight : ℚ

structure Walk where
  whitespaceIndex : Nat
  currentWhitespaceAfterLineNumber : Int
  currentWhitespaceHeight : Int
  currentVerticalOffset : ℚ
  currentLineRelativeOffset : ℚ
  linesOffsets : List ℚ
  centeredLineNumber : Int

def pushDown (arr : List EditorWhitespace) (lineNumber endLineNumber : Int) (w : Walk) : Walk :=
  if w.currentWhitespaceAfterLineNumber = lineNumber then
    let pushed :=
      { w with
        currentLineRelativeOffset := w.currentLineRelativeOffset + w.currentWhitespaceHeight
        currentVerticalOffset := w.currentVerticalOffset + w.currentWhitespaceHeight
        whitespaceIndex := w.whitespaceIndex + 1 }
    match _h : arr[w.whitespaceIndex + 1]? with
    | none => { pushed with currentWhitespaceAfterLineNumber := endLineNumber + 1 }
    | some whitespace =>
      pushDown arr lineNumber endLineNumber
        { pushed with
          currentWhitespaceAfterLineNumber := toInt32 whitespace.afterLineNumber
          currentWhitespaceHeight := toInt32 whitespace.height }
  else w
termination_by arr.length - w.whitespaceIndex
decreasing_by
  have hlt := (List.getElem?_eq_some_iff.mp _h).1
  change arr.length - (w.whitespaceIndex + 1) < _
  omega

def walkLine (lineHeight verticalCenter : ℚ) (arr : List EditorWhitespace)
    (lineNumber endLineNumber : Int) (w : Walk) : Walk :=
  let currentLineTop := w.currentVerticalOffset
  let currentLineBottom := w.currentVerticalOffset + lineHeight
  let centeredLineNumber :=
    if w.centeredLineNumber = -1 ∧
        (currentLineTop ≤ verticalCenter ∧ verticalCenter < currentLineBottom ∨
          currentLineTop > verticalCenter) then lineNumber
    else w.centeredLineNumber
  pushDown arr lineNumber endLineNumber
    { w with
      centeredLineNumber := centeredLineNumber
      currentVerticalOffset := w.currentVerticalOffset + lineHeight
      linesOffsets := w.linesOffsets ++ [w.currentLineRelativeOffset]
      currentLineRelativeOffset := w.currentLineRelativeOffset + lineHeight }

def walkLines (verticalOffset2 : Int) (verticalCenter : ℚ) (endLineNumber : Int) :
    Nat → LinesLayout → Int → Walk → (Walk × Int) × LinesLayout
  | 0, s, _, w => ((w, endLineNumber), s)
  | count + 1, s, lineNumber, w =>
    let line := s.getLineHeightForLineNumber lineNumber
    let w := walkLine line.1 verticalCenter s.arr lineNumber endLineNumber w
    if w.currentVerticalOffset ≥ verticalOffset2 then ((w, lineNumber), line.2)
    else walkLines verticalOffset2 verticalCenter endLineNumber count line.2 (lineNumber + 1) w

def stepSize : Int := 500000

def bigNumbersDeltaOf (startLineNumberVerticalOffset : Int) (defaultLineHeight : ℚ) : ℚ :=
  if startLineNumberVerticalOffset ≥ stepSize then
    ⌊((⌊(startLineNumberVerticalOffset : ℚ) / stepSize⌋ * stepSize : Int) : ℚ) / defaultLineHeight⌋ * defaultLineHeight
  else 0

/-- The whitespace cursor in front of the first line of the viewport. -/
def startWalk (s : LinesLayout) (startLineNumber endLineNumber startLineNumberVerticalOffset : Int)
    (bigNumbersDelta : ℚ) : Walk :=
  let whitespaceIndex := match s.findLastWhitespaceBeforeLineNumber startLineNumber with
    | none => 0
    | some index => index + 1
  let walk :=
    { whitespaceIndex := s.arr.length
      currentWhitespaceAfterLineNumber := endLineNumber + 1
      currentWhitespaceHeight := 0
      currentVerticalOffset := startLineNumberVerticalOffset
      currentLineRelativeOffset := startLineNumberVerticalOffset - bigNumbersDelta
      linesOffsets := []
      centeredLineNumber := -1 }
  match s.arr[whitespaceIndex]? with
  | none => walk
  | some whitespace =>
    { walk with
      whitespaceIndex := whitespaceIndex
      currentWhitespaceAfterLineNumber := toInt32 whitespace.afterLineNumber
      currentWhitespaceHeight := toInt32 whitespace.height }

def completelyVisible (s : LinesLayout) (startLineNumber endLineNumber : Int)
    (startLineNumberVerticalOffset verticalOffset1 verticalOffset2 : Int) :
    (Int × Int) × LinesLayout :=
  let endOffset := s.getVerticalOffsetForLineNumber endLineNumber
  let completelyVisibleStartLineNumber :=
    if startLineNumber < endLineNumber ∧ startLineNumberVerticalOffset < verticalOffset1 then
      startLineNumber + 1
    else startLineNumber
  if completelyVisibleStartLineNumber < endLineNumber then
    let endLine := endOffset.2.getLineHeightForLineNumber endLineNumber
    if truncInt32 endOffset.1 + endLine.1 > verticalOffset2 then
      ((completelyVisibleStartLineNumber, endLineNumber - 1), endLine.2)
    else ((completelyVisibleStartLineNumber, endLineNumber), endLine.2)
  else ((completelyVisibleStartLineNumber, endLineNumber), endOffset.2)

def getLinesViewportData (s : LinesLayout) (verticalOffset1 verticalOffset2 : ℚ) :
    IPartialViewLinesViewportData × LinesLayout :=
  let verticalOffset1 := truncInt32 verticalOffset1
  let verticalOffset2 := truncInt32 verticalOffset2
  let first := s.getLineNumberAtOrAfterVerticalOffset verticalOffset1
  let startLineNumber := first.1
  let firstOffset := first.2.getVerticalOffsetForLineNumber startLineNumber
  let startLineNumberVerticalOffset := truncInt32 firstOffset.1
  let lastLineNumber := toInt32 firstOffset.2.lineCount
  let bigNumbersDelta := bigNumbersDeltaOf startLineNumberVerticalOffset
    firstOffset.2.lineHeightsManager.defaultLineHeight
  let verticalCenter : ℚ := verticalOffset1 + ((verticalOffset2 - verticalOffset1 : Int) : ℚ) / 2
  let walk := walkLines verticalOffset2 verticalCenter lastLineNumber
    (lastLineNumber + 1 - startLineNumber).toNat firstOffset.2 startLineNumber
    (firstOffset.2.startWalk startLineNumber lastLineNumber startLineNumberVerticalOffset bigNumbersDelta)
  let endLineNumber := walk.1.2
  let visible := completelyVisible walk.2 startLineNumber endLineNumber
    startLineNumberVerticalOffset verticalOffset1 verticalOffset2
  ({  bigNumbersDelta := bigNumbersDelta
      startLineNumber := startLineNumber
      endLineNumber := endLineNumber
      relativeVerticalOffset := walk.1.1.linesOffsets
      centeredLineNumber := if walk.1.1.centeredLineNumber = -1 then endLineNumber else walk.1.1.centeredLineNumber
      completelyVisibleStartLineNumber := visible.1.1
      completelyVisibleEndLineNumber := visible.1.2
      lineHeight := visible.2.lineHeightsManager.defaultLineHeight }, visible.2)

end Viewport

section Runs

/-- What may happen to a layout; a query computes sums and commits what is pending. -/
inductive Event
  | changeWhitespace (calls : List AccessorCall)
  | linesDeleted (fromLineNumber toLineNumber : Int)
  | linesInserted (fromLineNumber toLineNumber : Int)
  | insertOrChangeCustomLineHeight (decorationId : String) (startLineNumber endLineNumber : Int) (lineHeight : ℚ)
  | removeCustomLineHeight (decorationId : String)
  | setPadding (paddingTop paddingBottom : ℚ)
  | getLineHeightForLineNumber (lineNumber : Int)
  | getVerticalOffsetForLineNumber (lineNumber : Int) (includeViewZones : Bool)
  | getLinesTotalHeight
  | getLineNumberAtOrAfterVerticalOffset (verticalOffset : ℚ)
  | getLinesViewportData (verticalOffset1 verticalOffset2 : ℚ)

def step (s : LinesLayout) : Event → LinesLayout
  | .changeWhitespace calls => s.changeWhitespace calls
  | .linesDeleted fromLineNumber toLineNumber => s.onLinesDeleted fromLineNumber toLineNumber
  | .linesInserted fromLineNumber toLineNumber => s.onLinesInserted fromLineNumber toLineNumber
  | .insertOrChangeCustomLineHeight decorationId startLineNumber endLineNumber lineHeight =>
    { s with
      lineHeightsManager := s.lineHeightsManager.insertOrChangeCustomLineHeight decorationId
        startLineNumber endLineNumber lineHeight }
  | .removeCustomLineHeight decorationId =>
    { s with lineHeightsManager := s.lineHeightsManager.removeCustomLineHeight decorationId }
  | .setPadding paddingTop paddingBottom => s.setPadding paddingTop paddingBottom
  | .getLineHeightForLineNumber lineNumber => (s.getLineHeightForLineNumber lineNumber).2
  | .getVerticalOffsetForLineNumber lineNumber includeViewZones =>
    (s.getVerticalOffsetForLineNumber lineNumber includeViewZones).2
  | .getLinesTotalHeight => s.getLinesTotalHeight.2
  | .getLineNumberAtOrAfterVerticalOffset verticalOffset => (s.getLineNumberAtOrAfterVerticalOffset verticalOffset).2
  | .getLinesViewportData verticalOffset1 verticalOffset2 => (s.getLinesViewportData verticalOffset1 verticalOffset2).2

end Runs

end LinesLayout

end Gavea.ViewLayout
