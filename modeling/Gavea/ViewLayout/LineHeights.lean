import Mathlib.Tactic

namespace Gavea.Base

def binarySearchLoop (compareToKey : Nat → Ordering) : Nat → Nat → Nat → Int
  | 0, low, _ => -(low + 1)
  | fuel + 1, low, stop =>
    if low < stop then
      let mid := (low + (stop - 1)) / 2
      match compareToKey mid with
      | .lt => binarySearchLoop compareToKey fuel (mid + 1) stop
      | .gt => binarySearchLoop compareToKey fuel low mid
      | .eq => mid
    else -(low + 1)

def binarySearch2 (length : Nat) (compareToKey : Nat → Ordering) : Int := binarySearchLoop compareToKey length 0 length

inductive Found (length : Nat) (compareToKey : Nat → Ordering) : Int → Prop
  | here (i : Nat) (hi : i < length) (h : compareToKey i = .eq) : Found length compareToKey i
  | before (p : Nat) (hp : p ≤ length) (hlt : ∀ i < p, compareToKey i = .lt)
      (hgt : ∀ i, p ≤ i → i < length → compareToKey i = .gt) : Found length compareToKey (-(p + 1))

theorem binarySearchLoop_found {length : Nat} {compareToKey : Nat → Ordering}
    (hlt : ∀ i j, i ≤ j → j < length → compareToKey j = .lt → compareToKey i = .lt)
    (hgt : ∀ i j, i ≤ j → j < length → compareToKey i = .gt → compareToKey j = .gt) (fuel : Nat) :
    ∀ low stop : Nat, low ≤ stop → stop ≤ length → stop - low ≤ fuel →
      (∀ i < low, compareToKey i = .lt) →
      (∀ i, stop ≤ i → i < length → compareToKey i = .gt) →
      Found length compareToKey (binarySearchLoop compareToKey fuel low stop) := by
  induction fuel with
  | zero =>
    intro low stop hle hstop hfuel hlow hhigh
    obtain rfl : low = stop := by omega
    exact Found.before low hstop hlow hhigh
  | succ fuel ih =>
    intro low stop hle hstop hfuel hlow hhigh
    rw [binarySearchLoop]
    by_cases hlt' : low < stop
    · rw [if_pos hlt']
      have hmid : low ≤ (low + (stop - 1)) / 2 ∧ (low + (stop - 1)) / 2 < stop := by omega
      generalize (low + (stop - 1)) / 2 = mid at hmid
      simp only
      split
      · next hcompare =>
          exact ih (mid + 1) stop (by omega) hstop (by omega)
            (fun i hi => hlt i mid (by omega) (by omega) hcompare) hhigh
      · next hcompare => exact ih low mid hmid.1 (by omega) (by omega) hlow fun i hi hi' => hgt mid i hi hi' hcompare
      · next hcompare => exact Found.here mid (by omega) hcompare
    · rw [if_neg hlt']
      obtain rfl : low = stop := by omega
      exact Found.before low hstop hlow hhigh

theorem binarySearch2_found {length : Nat} {compareToKey : Nat → Ordering}
    (hlt : ∀ i j, i ≤ j → j < length → compareToKey j = .lt → compareToKey i = .lt)
    (hgt : ∀ i j, i ≤ j → j < length → compareToKey i = .gt → compareToKey j = .gt) :
    Found length compareToKey (binarySearch2 length compareToKey) :=
  binarySearchLoop_found hlt hgt length 0 length (Nat.zero_le _) le_rfl (Nat.sub_le _ _)
    (fun i hi => absurd hi (Nat.not_lt_zero i)) fun _ hi hi' => absurd hi' (Nat.not_lt.mpr hi)

end Gavea.Base

namespace Gavea.ViewLayout

open Gavea.Base

inductive PendingChange
  | insertOrChange (decorationId : String) (startLineNumber endLineNumber : Int) (lineHeight : ℚ)
  | remove (decorationId : String)
  | linesDeleted (fromLineNumber toLineNumber : Int)
  | linesInserted (fromLineNumber toLineNumber : Int)

structure CustomLine where
  decorationId : String
  index : Int
  lineNumber : Int
  specialHeight : ℚ
  prefixSum : ℚ
  maximumSpecialHeight : ℚ
  deleted : Bool
  deriving DecidableEq

def CustomLine.new (decorationId : String) (index lineNumber : Int)
    (specialHeight prefixSum : ℚ) : CustomLine :=
  ⟨decorationId, index, lineNumber, specialHeight, prefixSum, specialHeight, false⟩

structure CustomLineHeightData where
  decorationId : String
  startLineNumber : Int
  endLineNumber : Int
  lineHeight : ℚ

/-- The lines with a special height, sorted, and the changes that wait for the next query. An
absent invalid index is infinite. -/
structure LineHeightsManager where
  orderedCustomLines : List CustomLine
  pendingChanges : List PendingChange
  invalidIndex : Option Int
  defaultLineHeight : ℚ

namespace LineHeightsManager

def new (defaultLineHeight : ℚ) (customLineHeightData : List CustomLineHeightData) :
    LineHeightsManager :=
  { orderedCustomLines := []
    pendingChanges := customLineHeightData.map fun data =>
      .insertOrChange data.decorationId data.startLineNumber data.endLineNumber data.lineHeight
    invalidIndex := none
    defaultLineHeight := defaultLineHeight }

def pushPendingChange (m : LineHeightsManager) (change : PendingChange) : LineHeightsManager :=
  { m with pendingChanges := m.pendingChanges ++ [change] }

def removeCustomLineHeight (m : LineHeightsManager) (decorationId : String) : LineHeightsManager :=
  m.pushPendingChange (.remove decorationId)

def insertOrChangeCustomLineHeight (m : LineHeightsManager) (decorationId : String)
    (startLineNumber endLineNumber : Int) (lineHeight : ℚ) : LineHeightsManager :=
  m.pushPendingChange (.insertOrChange decorationId startLineNumber endLineNumber lineHeight)

def onLinesDeleted (m : LineHeightsManager) (fromLineNumber toLineNumber : Int) :
    LineHeightsManager :=
  m.pushPendingChange (.linesDeleted fromLineNumber toLineNumber)

def onLinesInserted (m : LineHeightsManager) (fromLineNumber toLineNumber : Int) :
    LineHeightsManager :=
  m.pushPendingChange (.linesInserted fromLineNumber toLineNumber)

def binarySearchOverOrderedCustomLinesArray (orderedCustomLines : List CustomLine)
    (lineNumber : Int) : Int :=
  binarySearch2 orderedCustomLines.length fun index =>
    match orderedCustomLines[index]? with
    | some line => compare line.lineNumber lineNumber
    | none => .gt

def customLinesOf (m : LineHeightsManager) (decorationId : String) : List CustomLine :=
  m.orderedCustomLines.filter fun line => line.decorationId = decorationId ∧ line.deleted = false

def minIndex (invalidIndex : Option Int) (index : Int) : Option Int :=
  match invalidIndex with
  | none => some index
  | some k => some (min k index)

def markDeleted (decorationId : String) (line : CustomLine) : CustomLine :=
  if line.decorationId = decorationId then { line with deleted := true } else line

section Staged

abbrev Staged := LineHeightsManager × List CustomLine

def doRemoveCustomLineHeight (decorationId : String) : Staged → Staged
  | (m, stagedInserts) =>
    ({ m with
        orderedCustomLines := m.orderedCustomLines.map (markDeleted decorationId)
        invalidIndex := (m.customLinesOf decorationId).foldl
          (fun invalidIndex line => minIndex invalidIndex line.index) m.invalidIndex },
      stagedInserts.map (markDeleted decorationId))

def lineRange (startLineNumber endLineNumber : Int) : List Int :=
  (List.range (endLineNumber + 1 - startLineNumber).toNat).map fun (i : Nat) => startLineNumber + i

def doInsertOrChangeCustomLineHeight (data : CustomLineHeightData) (s : Staged) : Staged :=
  let (m, stagedInserts) := doRemoveCustomLineHeight data.decorationId s
  (m, stagedInserts ++ (lineRange data.startLineNumber data.endLineNumber).map fun lineNumber =>
    CustomLine.new data.decorationId (-1) lineNumber data.lineHeight 0)

def insertStaged (m : LineHeightsManager) (pendingChange : CustomLine) : LineHeightsManager :=
  if pendingChange.deleted then m
  else
    let candidate :=
      binarySearchOverOrderedCustomLinesArray m.orderedCustomLines pendingChange.lineNumber
    let insertionIndex := (if 0 ≤ candidate then candidate else -(candidate + 1)).toNat
    { m with
      orderedCustomLines := m.orderedCustomLines.take insertionIndex ++
        pendingChange :: m.orderedCustomLines.drop insertionIndex
      invalidIndex := minIndex m.invalidIndex insertionIndex }

def maximumFrom (lineNumber : Int) (maximumSpecialHeight : ℚ) : List CustomLine → ℚ
  | [] => maximumSpecialHeight
  | next :: lines =>
    if next.deleted then maximumFrom lineNumber maximumSpecialHeight lines
    else if next.lineNumber ≠ lineNumber then maximumSpecialHeight
    else maximumFrom lineNumber (max maximumSpecialHeight next.specialHeight) lines

/-- The lines from the invalid index on, without the deleted ones and with new sums. -/
def rebuild (defaultLineHeight : ℚ) (previousSpecialLine : Option CustomLine) (index : Int) :
    List CustomLine → List CustomLine
  | [] => []
  | customLine :: lines =>
    if customLine.deleted then rebuild defaultLineHeight previousSpecialLine index lines
    else
      let fresh := fun (prefixSum : ℚ) =>
        { customLine with
          index := index
          maximumSpecialHeight := maximumFrom customLine.lineNumber customLine.specialHeight (customLine :: lines)
          prefixSum := prefixSum }
      let rebuilt :=
        match previousSpecialLine with
        | some previous =>
          if previous.lineNumber = customLine.lineNumber then
            { customLine with
              index := index
              maximumSpecialHeight := previous.maximumSpecialHeight
              prefixSum := previous.prefixSum }
          else fresh (previous.prefixSum + previous.maximumSpecialHeight +
            defaultLineHeight * (customLine.lineNumber - previous.lineNumber - 1))
        | none => fresh (defaultLineHeight * (customLine.lineNumber - 1))
      rebuilt :: rebuild defaultLineHeight (some rebuilt) (index + 1) lines

def flushStagedDecorationChanges : Staged → Staged
  | (m, stagedInserts) =>
    if stagedInserts = [] ∧ m.invalidIndex = none then (m, stagedInserts)
    else
      let m := stagedInserts.foldl insertStaged m
      match m.invalidIndex with
      | none => (m, [])
      | some invalidIndex =>
        let kept := m.orderedCustomLines.take invalidIndex.toNat
        ({ m with
            orderedCustomLines := kept ++ rebuild m.defaultLineHeight kept.getLast? invalidIndex
              (m.orderedCustomLines.drop invalidIndex.toNat)
            invalidIndex := none }, [])

end Staged

section LinesDeleted

def startIndexOfDeletion (lines : List CustomLine) (fromLineNumber : Int) : Nat :=
  let candidate := binarySearchOverOrderedCustomLinesArray lines fromLineNumber
  if 0 ≤ candidate then
    candidate.toNat - ((lines.take candidate.toNat).reverse.takeWhile
      fun line => line.lineNumber = fromLineNumber).length
  else if candidate = -(lines.length + 1) ∧ candidate ≠ -1 then lines.length - 1
  else (-(candidate + 1)).toNat

def endIndexOfDeletion (lines : List CustomLine) (toLineNumber : Int) : Nat :=
  let candidate := binarySearchOverOrderedCustomLinesArray lines toLineNumber
  if 0 ≤ candidate then
    candidate.toNat + ((lines.drop (candidate.toNat + 1)).takeWhile fun line => line.lineNumber = toLineNumber).length
  else if candidate = -(lines.length + 1) ∧ candidate ≠ -1 then lines.length - 1
  else (-(candidate + 1)).toNat

def coversCustomLine (lines : List CustomLine) (fromLineNumber toLineNumber : Int) : Bool :=
  let start := startIndexOfDeletion lines fromLineNumber
  let stop := endIndexOfDeletion lines toLineNumber
  start < stop || start == stop && (lines[start]?).any fun line =>
    fromLineNumber ≤ line.lineNumber && line.lineNumber ≤ toLineNumber

/-- One line for each decoration that was not seen yet, in the place of the deleted ones. -/
def collapse (fromLineNumber : Int) (prefixSum maximumSpecialHeight : ℚ) :
    List String → Int → List CustomLine → List CustomLine
  | _, _, [] => []
  | seen, numberOfDeletions, customLine :: lines =>
    if customLine.decorationId ∈ seen then
      collapse fromLineNumber prefixSum maximumSpecialHeight seen (numberOfDeletions + 1) lines
    else
      { customLine with
        index := customLine.index - numberOfDeletions
        lineNumber := fromLineNumber
        prefixSum := prefixSum
        maximumSpecialHeight := maximumSpecialHeight } ::
        collapse fromLineNumber prefixSum maximumSpecialHeight (customLine.decorationId :: seen) numberOfDeletions lines

def shiftBack (deleteCount numberOfDeletions : Int) (totalHeightDeleted : ℚ)
    (customLine : CustomLine) : CustomLine :=
  { customLine with
    index := customLine.index - numberOfDeletions
    lineNumber := customLine.lineNumber - deleteCount
    prefixSum := customLine.prefixSum - totalHeightDeleted }

def prefixSumOnDeletedInterval (defaultLineHeight : ℚ) (previousSpecialLine : Option CustomLine)
    (fromLineNumber : Int) : ℚ :=
  match previousSpecialLine with
  | some previous =>
    previous.prefixSum + previous.maximumSpecialHeight + defaultLineHeight * (fromLineNumber - previous.lineNumber - 1)
  | none => if fromLineNumber > 0 then (fromLineNumber - 1) * defaultLineHeight else 0

def maximumOnDeletedInterval (deleted : List CustomLine) : ℚ :=
  deleted.foldl (fun maximum line => max maximum line.maximumSpecialHeight) 0

def heightOfFirstLineAfterDeletion (defaultLineHeight : ℚ) (after : List CustomLine)
    (toLineNumber : Int) : ℚ :=
  match after.head? with
  | some line => if line.lineNumber = toLineNumber + 1 then line.maximumSpecialHeight else defaultLineHeight
  | none => defaultLineHeight

def collapseDeleted (defaultLineHeight : ℚ) (fromLineNumber toLineNumber : Int)
    (before : List CustomLine) (first last : CustomLine) (deleted after : List CustomLine) :
    List CustomLine :=
  let deleteCount := toLineNumber - fromLineNumber + 1
  let maximum := maximumOnDeletedInterval deleted
  let prefixSum := prefixSumOnDeletedInterval defaultLineHeight before.getLast? fromLineNumber
  let totalHeightDeleted := last.prefixSum + last.maximumSpecialHeight - first.prefixSum +
    defaultLineHeight * (toLineNumber - last.lineNumber) +
    defaultLineHeight * (first.lineNumber - fromLineNumber) +
    heightOfFirstLineAfterDeletion defaultLineHeight after toLineNumber - maximum
  let collapsed := collapse fromLineNumber prefixSum maximum (before.map (·.decorationId)) 0 deleted
  before ++ collapsed ++ after.map (shiftBack deleteCount (deleted.length - collapsed.length) totalHeightDeleted)

def doLinesDeleted (m : LineHeightsManager) (fromLineNumber toLineNumber : Int) :
    LineHeightsManager :=
  let lines := m.orderedCustomLines
  let deleteCount := toLineNumber - fromLineNumber + 1
  let start := startIndexOfDeletion lines fromLineNumber
  let stop := endIndexOfDeletion lines toLineNumber
  if coversCustomLine lines fromLineNumber toLineNumber then
    match lines[start]?, lines[stop]? with
    | some first, some last =>
      { m with
        orderedCustomLines := collapseDeleted m.defaultLineHeight fromLineNumber toLineNumber
          (lines.take start) first last ((lines.take (stop + 1)).drop start)
          (lines.drop (stop + 1)) }
    | _, _ => m
  else
    { m with
      orderedCustomLines := lines.take stop ++ (lines.drop stop).map fun customLine =>
        if customLine.lineNumber > toLineNumber then
          shiftBack deleteCount 0 (deleteCount * m.defaultLineHeight) customLine
        else customLine }

end LinesDeleted

section LinesInserted

def startIndexOfInsertion (lines : List CustomLine) (fromLineNumber : Int) : Nat :=
  let candidate := binarySearchOverOrderedCustomLinesArray lines fromLineNumber
  if 0 ≤ candidate then
    candidate.toNat - ((lines.take candidate.toNat).reverse.takeWhile
      fun line => line.lineNumber = fromLineNumber).length
  else (-(candidate + 1)).toNat

def decorationsOn (lineNumber : Int) (lines : List CustomLine) : List String :=
  ((lines.filter fun line => line.lineNumber = lineNumber).map (·.decorationId)).reverse.dedup.reverse

def shiftForward (insertCount : Int) (prefixSumToAdd : ℚ) (customLine : CustomLine) : CustomLine :=
  { customLine with
    lineNumber := customLine.lineNumber + insertCount
    prefixSum := customLine.prefixSum + prefixSumToAdd }

def hull (m : LineHeightsManager) (fromLineNumber : Int) (decorationId : String) :
    CustomLineHeightData :=
  let decoration := m.customLinesOf decorationId
  { decorationId := decorationId
    startLineNumber := decoration.foldl (fun low line => min low line.lineNumber) fromLineNumber
    endLineNumber := decoration.foldl (fun high line => max high line.lineNumber) fromLineNumber
    lineHeight := decoration.foldl (fun height line => max height line.specialHeight) 0 }

def doLinesInserted (fromLineNumber toLineNumber : Int) : Staged → Staged
  | (m, stagedInserts) =>
    let lines := m.orderedCustomLines
    let insertCount := toLineNumber - fromLineNumber + 1
    let start := startIndexOfInsertion lines fromLineNumber
    let decorationsImmediatelyAfter := decorationsOn fromLineNumber (lines.drop start)
    let decorationsImmediatelyBefore := decorationsOn (fromLineNumber - 1) (lines.take start)
    let decorationsWithGaps :=
      decorationsImmediatelyAfter.filter (· ∈ decorationsImmediatelyBefore)
    let shifted :=
      { m with
        orderedCustomLines := lines.take start ++
          (lines.drop start).map (shiftForward insertCount (insertCount * m.defaultLineHeight)) }
    let toReAdd := decorationsWithGaps.map (shifted.hull fromLineNumber)
    toReAdd.foldl (fun s data => doInsertOrChangeCustomLineHeight data s) (shifted, stagedInserts)

end LinesInserted

section Queries

def commitChange (s : Staged) : PendingChange → Staged
  | .remove decorationId => doRemoveCustomLineHeight decorationId s
  | .insertOrChange decorationId startLineNumber endLineNumber lineHeight =>
    doInsertOrChangeCustomLineHeight ⟨decorationId, startLineNumber, endLineNumber, lineHeight⟩ s
  | .linesDeleted fromLineNumber toLineNumber =>
    let (m, stagedInserts) := flushStagedDecorationChanges s
    (doLinesDeleted m fromLineNumber toLineNumber, stagedInserts)
  | .linesInserted fromLineNumber toLineNumber =>
    doLinesInserted fromLineNumber toLineNumber (flushStagedDecorationChanges s)

def commit (m : LineHeightsManager) : LineHeightsManager :=
  if m.pendingChanges = [] then m
  else
    (flushStagedDecorationChanges (m.pendingChanges.foldl commitChange ({ m with pendingChanges := [] }, []))).1

def heightAt (m : LineHeightsManager) (lineNumber : Int) : ℚ :=
  let searchIndex := binarySearchOverOrderedCustomLinesArray m.orderedCustomLines lineNumber
  if 0 ≤ searchIndex then
    ((m.orderedCustomLines[searchIndex.toNat]?).map (·.maximumSpecialHeight)).getD m.defaultLineHeight
  else m.defaultLineHeight

def heightForLineNumber (m : LineHeightsManager) (lineNumber : Int) : ℚ × LineHeightsManager :=
  (m.commit.heightAt lineNumber, m.commit)

def accumulatedAt (m : LineHeightsManager) (lineNumber : Int) : ℚ :=
  let searchIndex := binarySearchOverOrderedCustomLinesArray m.orderedCustomLines lineNumber
  if 0 ≤ searchIndex then
    ((m.orderedCustomLines[searchIndex.toNat]?).map fun line => line.prefixSum + line.maximumSpecialHeight).getD 0
  else if searchIndex = -1 then m.defaultLineHeight * lineNumber
  else
    ((m.orderedCustomLines[(-(searchIndex + 1) - 1).toNat]?).map fun previousSpecialLine =>
      previousSpecialLine.prefixSum + previousSpecialLine.maximumSpecialHeight +
        m.defaultLineHeight * (lineNumber - previousSpecialLine.lineNumber)).getD 0

def getAccumulatedLineHeightsIncludingLineNumber (m : LineHeightsManager) (lineNumber : Int) :
    ℚ × LineHeightsManager :=
  (m.commit.accumulatedAt lineNumber, m.commit)

end Queries

end LineHeightsManager

end Gavea.ViewLayout
