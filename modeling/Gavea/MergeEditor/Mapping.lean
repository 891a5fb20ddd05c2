import Gavea.Core.StringText
import Mathlib.Data.List.Sort
import Mathlib.Logic.Function.Basic
import Gavea.Lib.Hunks

namespace Gavea.MergeEditor

open Lib.Js

inductive MergeEditorError
  | lineRange (startLineNumber endLineNumberExclusive : Int)
  | notContained
  | noDiff
  | unknownDiff
  | conflictingEdit
  | unexpectedState
  | unknownBaseRange
  | lineNumber (lineNumber : Int)
  deriving DecidableEq

abbrev Lines := List JsString

/-- A range of lines. The constructor of the source throws unless the start is at most the end,
so every range carries that fact. -/
structure LineRange where
  startLineNumber : Int
  endLineNumberExclusive : Int
  le : startLineNumber ≤ endLineNumberExclusive

namespace LineRange

instance : DecidableEq LineRange := fun ⟨a, b, _⟩ ⟨c, d, _⟩ =>
  decidable_of_iff (a = c ∧ b = d) (by rw [mk.injEq])

def lines (startLineNumber : Int) (length : Nat) : LineRange :=
  ⟨startLineNumber, length + startLineNumber, Int.le_add_of_nonneg_left (Int.natCast_nonneg length)⟩

def fromLineNumbers (startLineNumber endExclusiveLineNumber : Int) :
    Except MergeEditorError LineRange :=
  if h : startLineNumber ≤ endExclusiveLineNumber then
    .ok ⟨startLineNumber, endExclusiveLineNumber, h⟩
  else .error (.lineRange startLineNumber endExclusiveLineNumber)

theorem fromLineNumbers_ok {a b : Int} (h : a ≤ b) : fromLineNumbers a b = .ok ⟨a, b, h⟩ := dif_pos h

def fromLength (startLineNumber length : Int) : Except MergeEditorError LineRange :=
  fromLineNumbers startLineNumber (startLineNumber + length)

def length (r : LineRange) : Int := r.endLineNumberExclusive - r.startLineNumber

def join (r other : LineRange) : LineRange where
  startLineNumber := min r.startLineNumber other.startLineNumber
  endLineNumberExclusive := max r.endLineNumberExclusive other.endLineNumberExclusive
  le := by
    have := r.le
    omega

def delta (r : LineRange) (lineDelta : Int) : LineRange where
  startLineNumber := r.startLineNumber + lineDelta
  endLineNumberExclusive := r.endLineNumberExclusive + lineDelta
  le := by
    have := r.le
    omega

def isAfter (r range : LineRange) : Bool := range.endLineNumberExclusive ≤ r.startLineNumber

def contains (r : LineRange) (lineNumber : Int) : Bool :=
  r.startLineNumber ≤ lineNumber && lineNumber < r.endLineNumberExclusive

def containsRange (r range : LineRange) : Bool :=
  r.startLineNumber ≤ range.startLineNumber && range.endLineNumberExclusive ≤ r.endLineNumberExclusive

def intersectsOrTouches (r other : LineRange) : Bool :=
  r.startLineNumber ≤ other.endLineNumberExclusive && other.startLineNumber ≤ r.endLineNumberExclusive

theorem containsRange_iff {r range : LineRange} :
    r.containsRange range = true ↔ r.startLineNumber ≤ range.startLineNumber ∧
      range.endLineNumberExclusive ≤ r.endLineNumberExclusive := by
  simp [containsRange]

theorem intersectsOrTouches_iff {r other : LineRange} :
    r.intersectsOrTouches other = true ↔ r.startLineNumber ≤ other.endLineNumberExclusive ∧
      other.startLineNumber ≤ r.endLineNumberExclusive := by
  simp [intersectsOrTouches]

@[simp] theorem startLineNumber_join (r other : LineRange) :
    (r.join other).startLineNumber = min r.startLineNumber other.startLineNumber := rfl

@[simp] theorem endLineNumberExclusive_join (r other : LineRange) :
    (r.join other).endLineNumberExclusive = max r.endLineNumberExclusive other.endLineNumberExclusive := rfl

@[simp] theorem startLineNumber_delta (r : LineRange) (d : Int) :
    (r.delta d).startLineNumber = r.startLineNumber + d := rfl

@[simp] theorem endLineNumberExclusive_delta (r : LineRange) (d : Int) :
    (r.delta d).endLineNumberExclusive = r.endLineNumberExclusive + d := rfl

def getLines (r : LineRange) (model : Lines) : Except MergeEditorError Lines :=
  (List.range r.length.toNat).mapM fun (i : Nat) =>
    let lineNumber := r.startLineNumber + i
    if 1 ≤ lineNumber then
      match model[(lineNumber - 1).toNat]? with
      | some line => .ok line
      | none => .error (.lineNumber lineNumber)
    else .error (.lineNumber lineNumber)

end LineRange

structure LineRangeEdit where
  range : LineRange
  newLines : Lines
  deriving DecidableEq

structure LineRangeMapping where
  inputRange : LineRange
  outputRange : LineRange
  deriving DecidableEq

namespace LineRangeMapping

def extendInputRange (m : LineRangeMapping) (extendedInputRange : LineRange) :
    Except MergeEditorError LineRangeMapping :=
  if extendedInputRange.containsRange m.inputRange then
    let startDelta := extendedInputRange.startLineNumber - m.inputRange.startLineNumber
    let endDelta := extendedInputRange.endLineNumberExclusive - m.inputRange.endLineNumberExclusive
    (LineRange.fromLength (m.outputRange.startLineNumber + startDelta)
      (m.outputRange.length - startDelta + endDelta)).map fun outputRange => ⟨extendedInputRange, outputRange⟩
  else .error .notContained

def join (m other : LineRangeMapping) : LineRangeMapping :=
  ⟨m.inputRange.join other.inputRange, m.outputRange.join other.outputRange⟩

def joinAll : List LineRangeMapping → Option LineRangeMapping
  | [] => none
  | m :: ms => some (ms.foldl join m)

def resultingDeltaFromOriginalToModified (m : LineRangeMapping) : Int :=
  m.outputRange.endLineNumberExclusive - m.inputRange.endLineNumberExclusive

def addOutputLineDelta (m : LineRangeMapping) (delta : Int) : LineRangeMapping :=
  ⟨m.inputRange, m.outputRange.delta delta⟩

def getLineEdit (m : LineRangeMapping) (outputTextModel : Lines) :
    Except MergeEditorError LineRangeEdit :=
  (m.outputRange.getLines outputTextModel).map fun newLines => ⟨m.inputRange, newLines⟩

def getReverseLineEdit (m : LineRangeMapping) (inputTextModel : Lines) :
    Except MergeEditorError LineRangeEdit :=
  (m.inputRange.getLines inputTextModel).map fun newLines => ⟨m.outputRange, newLines⟩

end LineRangeMapping

open Gavea.Core

inductive InputNumber
  | input1
  | input2
  deriving DecidableEq

def InputNumber.other : InputNumber → InputNumber
  | input1 => input2
  | input2 => input1

structure RangeMapping where
  inputRange : Range
  outputRange : Range
  deriving DecidableEq

structure DetailedLineRangeMapping extends LineRangeMapping where
  rangeMappings : List RangeMapping
  deriving DecidableEq

structure MappingAlignment (T : Type) where
  inputRange : LineRange
  output1Range : LineRange
  output1LineMappings : List T
  output2Range : LineRange
  output2LineMappings : List T

namespace MappingAlignment

variable {T : Type}

def outputRange (a : MappingAlignment T) : InputNumber → LineRange
  | .input1 => a.output1Range
  | .input2 => a.output2Range

def outputLineMappings (a : MappingAlignment T) : InputNumber → List T
  | .input1 => a.output1LineMappings
  | .input2 => a.output2LineMappings

structure Sweep (T : Type) where
  currentDiffs : InputNumber → List T
  deltaFromBaseToInput : InputNumber → Int
  alignments : List (MappingAlignment T)
  currentInputRange : Option LineRange

namespace Sweep

variable (ranges : T → LineRangeMapping)

def new : Sweep T := ⟨fun _ => [], fun _ => 0, [], none⟩

def extendedOutput (s : Sweep T) (source : InputNumber) (inputRange : LineRange) :
    Except MergeEditorError LineRange :=
  let mapping := (LineRangeMapping.joinAll ((s.currentDiffs source).map ranges)).getD
    ⟨inputRange, inputRange.delta (s.deltaFromBaseToInput source)⟩
  (mapping.extendInputRange inputRange).map LineRangeMapping.outputRange

def pushAndReset (s : Sweep T) (inputRange : LineRange) : Except MergeEditorError (Sweep T) := do
  let output1 ← s.extendedOutput ranges .input1 inputRange
  let output2 ← s.extendedOutput ranges .input2 inputRange
  .ok { s with
    currentDiffs := fun _ => []
    alignments := s.alignments ++ [⟨inputRange, output1, s.currentDiffs .input1, output2, s.currentDiffs .input2⟩]
    currentInputRange := none }

def closeBefore (s : Sweep T) (range : LineRange) : Except MergeEditorError (Sweep T) :=
  match s.currentInputRange with
  | some current => if current.intersectsOrTouches range then .ok s else s.pushAndReset ranges current
  | none => .ok s

def add (s : Sweep T) (source : InputNumber) (diff : T) : Sweep T :=
  let range := (ranges diff).inputRange
  { s with
    currentDiffs := Function.update s.currentDiffs source (s.currentDiffs source ++ [diff])
    deltaFromBaseToInput := Function.update s.deltaFromBaseToInput source
      (ranges diff).resultingDeltaFromOriginalToModified
    currentInputRange := some ((s.currentInputRange.map fun current => current.join range).getD range) }

def step (s : Sweep T) (diff : InputNumber × T) : Except MergeEditorError (Sweep T) :=
  (s.closeBefore ranges (ranges diff.2).inputRange).map fun s => s.add ranges diff.1 diff.2

end Sweep

def StartsNoLater (ranges : T → LineRangeMapping) (a b : InputNumber × T) : Prop :=
  (ranges a.2).inputRange.startLineNumber ≤ (ranges b.2).inputRange.startLineNumber

instance (ranges : T → LineRangeMapping) : DecidableRel (StartsNoLater ranges) :=
  fun _ _ => inferInstanceAs (Decidable (_ ≤ _))

def combinedDiffs (ranges : T → LineRangeMapping) (fromInputToOutput1 fromInputToOutput2 : List T) :
    List (InputNumber × T) :=
  (fromInputToOutput1.map (fun diff => (InputNumber.input1, diff)) ++
    fromInputToOutput2.map fun diff => (InputNumber.input2, diff)).insertionSort (StartsNoLater ranges)

def compute (ranges : T → LineRangeMapping) (fromInputToOutput1 fromInputToOutput2 : List T) :
    Except MergeEditorError (List (MappingAlignment T)) := do
  let s ← (combinedDiffs ranges fromInputToOutput1 fromInputToOutput2).foldlM (Sweep.step ranges)
    Sweep.new
  let s ← match s.currentInputRange with
    | some current => s.pushAndReset ranges current
    | none => .ok s
  .ok s.alignments

end MappingAlignment

structure ModifiedBaseRange where
  baseRange : LineRange
  input1Range : LineRange
  input1Diffs : List DetailedLineRangeMapping
  input2Range : LineRange
  input2Diffs : List DetailedLineRangeMapping
  isEqualChange : Bool

namespace ModifiedBaseRange

def haveEqualEdits (input1 input2 : Lines) (a b : DetailedLineRangeMapping) :
    Except MergeEditorError Bool := do
  let edit ← a.getLineEdit input1
  let other ← b.getLineEdit input2
  .ok (decide (edit = other))

/-- `equals` of arrays of one length, up to the first difference. -/
def pairwiseEqualEdits (input1 input2 : Lines) :
    List DetailedLineRangeMapping → List DetailedLineRangeMapping → Except MergeEditorError Bool
  | a :: as, b :: bs => do
      if ← haveEqualEdits input1 input2 a b then pairwiseEqualEdits input1 input2 as bs
      else .ok false
  | _, _ => .ok true

def computeIsEqualChange (input1 input2 : Lines) (input1Diffs input2Diffs : List DetailedLineRangeMapping) :
    Except MergeEditorError Bool :=
  if input1Diffs.length = input2Diffs.length then pairwiseEqualEdits input1 input2 input1Diffs input2Diffs
  else .ok false

def new (input1 input2 : Lines) (a : MappingAlignment DetailedLineRangeMapping) :
    Except MergeEditorError ModifiedBaseRange := do
  let isEqualChange ← computeIsEqualChange input1 input2 a.output1LineMappings a.output2LineMappings
  if a.output1LineMappings.isEmpty && a.output2LineMappings.isEmpty then .error .noDiff
  else .ok ⟨a.inputRange, a.output1Range, a.output1LineMappings, a.output2Range, a.output2LineMappings, isEqualChange⟩

def fromDiffs (input1 input2 : Lines) (diffs1 diffs2 : List DetailedLineRangeMapping) :
    Except MergeEditorError (List ModifiedBaseRange) := do
  let alignments ← MappingAlignment.compute DetailedLineRangeMapping.toLineRangeMapping diffs1 diffs2
  alignments.mapM (new input1 input2)

end ModifiedBaseRange

def lineAt (source : Lines) (lineNumber : Int) : JsString :=
  if 1 ≤ lineNumber then source.getD (lineNumber - 1).toNat [] else []

def linesOf (source : Lines) (lineRange : LineRange) : Lines :=
  (List.range lineRange.length.toNat).map fun (i : Nat) => lineAt source (lineRange.startLineNumber + i)

structure MergeTexts where
  base : Lines
  input1 : Lines
  input2 : Lines

namespace MergeTexts

def autoMergedLines (texts : MergeTexts) (baseRange : ModifiedBaseRange) : Lines :=
  if baseRange.input1Diffs.length = 0 then linesOf texts.input2 baseRange.input2Range
  else if baseRange.input2Diffs.length = 0 then linesOf texts.input1 baseRange.input1Range
  else if baseRange.isEqualChange then linesOf texts.input1 baseRange.input1Range
  else linesOf texts.base baseRange.baseRange

def autoMergedFrom (texts : MergeTexts) (baseStartLineNumber : Int) :
    List ModifiedBaseRange → Except MergeEditorError Lines
  | [] => do
      let rest ← LineRange.fromLineNumbers baseStartLineNumber (texts.base.length + 1)
      .ok (linesOf texts.base rest)
  | baseRange :: baseRanges => do
      let gap ← LineRange.fromLineNumbers baseStartLineNumber baseRange.baseRange.startLineNumber
      let rest ← texts.autoMergedFrom baseRange.baseRange.endLineNumberExclusive baseRanges
      .ok (linesOf texts.base gap ++ (texts.autoMergedLines baseRange ++ rest))

def computeAutoMergedResult (texts : MergeTexts) (eol : JsString)
    (baseRanges : List ModifiedBaseRange) : Except MergeEditorError JsString :=
  (texts.autoMergedFrom 1 baseRanges).map fun resultLines => (resultLines.intersperse eol).flatten

end MergeTexts

open Lib.Hunks List

def LineRangeMapping.hunk (m : LineRangeMapping) : Hunk :=
  ⟨m.inputRange.startLineNumber, m.inputRange.endLineNumberExclusive,
    m.outputRange.startLineNumber, m.outputRange.endLineNumberExclusive⟩

structure CorrectDiffs (base output : Lines) (diffs : List LineRangeMapping) : Prop where
  aligned : Aligned 1 1 (diffs.map LineRangeMapping.hunk) base output
  apart : Apart (diffs.map LineRangeMapping.hunk)

namespace LineRangeMapping

theorem extendInputRange_ok {m : LineRangeMapping} {r : LineRange}
    (h : r.containsRange m.inputRange = true) :
    ∃ e, m.extendInputRange r = .ok e ∧
      e.outputRange.startLineNumber =
        m.outputRange.startLineNumber + (r.startLineNumber - m.inputRange.startLineNumber) ∧
      e.outputRange.endLineNumberExclusive =
        r.endLineNumberExclusive + m.resultingDeltaFromOriginalToModified := by
  have hout := m.outputRange.le
  have hcontains := h
  rw [LineRange.containsRange_iff] at hcontains
  have hlength : m.outputRange.length = m.outputRange.endLineNumberExclusive - m.outputRange.startLineNumber := rfl
  rw [extendInputRange, if_pos h]
  dsimp only
  rw [LineRange.fromLength, LineRange.fromLineNumbers_ok (by omega)]
  refine ⟨_, rfl, rfl, ?_⟩
  simp only [resultingDeltaFromOriginalToModified]
  omega

theorem foldl_join {d : Int} {ms : List LineRangeMapping} {acc : LineRangeMapping}
    (hacc : acc.resultingDeltaFromOriginalToModified = d) (hnumbered : Numbered d (ms.map hunk))
    (hapart : Apart ((acc :: ms).map hunk)) :
    (ms.foldl join acc).inputRange.startLineNumber = acc.inputRange.startLineNumber ∧
      (ms.foldl join acc).outputRange.startLineNumber = acc.outputRange.startLineNumber ∧
      (ms.foldl join acc).resultingDeltaFromOriginalToModified = deltaAfter d (ms.map hunk) ∧
      ∀ r : LineRange, (∀ m ∈ acc :: ms, r.containsRange m.inputRange = true) →
        r.containsRange (ms.foldl join acc).inputRange = true := by
  induction ms generalizing acc d with
  | nil => exact ⟨rfl, rfl, hacc, fun r hr => hr acc mem_cons_self⟩
  | cons m ms ih =>
    obtain ⟨hstart, hle, hle', hrest⟩ := hnumbered
    rw [Apart, map_cons, map_cons, pairwise_cons, pairwise_cons] at hapart
    obtain ⟨haccs, hms, htail⟩ := hapart
    have haccm := haccs m.hunk mem_cons_self
    have hin := acc.inputRange.le
    have hout := acc.outputRange.le
    simp only [hunk, resultingDeltaFromOriginalToModified] at hstart hle hle' haccm hacc
    have hjoin : (acc.join m).inputRange.startLineNumber = acc.inputRange.startLineNumber ∧
        (acc.join m).inputRange.endLineNumberExclusive = m.inputRange.endLineNumberExclusive ∧
        (acc.join m).outputRange.startLineNumber = acc.outputRange.startLineNumber ∧
        (acc.join m).outputRange.endLineNumberExclusive =
          m.outputRange.endLineNumberExclusive := by
      simp only [join, LineRange.startLineNumber_join, LineRange.endLineNumberExclusive_join]
      omega
    obtain ⟨h1, h2, h3, h4⟩ := hjoin
    have hdelta : (acc.join m).resultingDeltaFromOriginalToModified =
        m.hunk.newStop - m.hunk.stop := by
      simp only [resultingDeltaFromOriginalToModified, h2, h4, hunk]
    have hapart' : Apart ((acc.join m :: ms).map hunk) := by
      rw [Apart, map_cons, pairwise_cons]
      refine ⟨fun x hx => ?_, htail⟩
      have := hms x hx
      simp only [hunk, h2] at this ⊢
      exact this
    obtain ⟨i1, i2, i3, i4⟩ := ih hdelta hrest hapart'
    rw [foldl_cons]
    refine ⟨i1.trans h1, i2.trans h3, i3, fun r hr => i4 r fun x hx => ?_⟩
    rcases mem_cons.mp hx with rfl | hx
    · have hracc := hr acc mem_cons_self
      have hrm := hr m (mem_cons_of_mem acc mem_cons_self)
      rw [LineRange.containsRange_iff] at hracc hrm ⊢
      omega
    · exact hr x (mem_cons_of_mem acc (mem_cons_of_mem m hx))

end LineRangeMapping

namespace MappingAlignment

variable {T : Type} {ranges : T → LineRangeMapping}

def hunks (ranges : T → LineRangeMapping) (diffs : List T) : List Hunk := diffs.map fun diff => (ranges diff).hunk

theorem hunks_append (diffs diffs' : List T) :
    hunks ranges (diffs ++ diffs') = hunks ranges diffs ++ hunks ranges diffs' :=
  map_append

theorem hunks_eq_map (diffs : List T) :
    hunks ranges diffs = (diffs.map ranges).map LineRangeMapping.hunk := by
  rw [map_map]
  rfl

structure Sound (ranges : T → LineRangeMapping) (diffs : List T) : Prop where
  numbered : Numbered 0 (hunks ranges diffs)
  apart : Apart (hunks ranges diffs)

theorem Sweep.extendedOutput_ok {s : Sweep T} {source : InputNumber} {before : List T}
    {r : LineRange} (hsound : Sound ranges (before ++ s.currentDiffs source))
    (hdelta : s.deltaFromBaseToInput source = deltaAfter 0 (hunks ranges (before ++ s.currentDiffs source)))
    (hin : ∀ d ∈ s.currentDiffs source, r.containsRange (ranges d).inputRange = true) :
    ∃ output, s.extendedOutput ranges source r = .ok output ∧
      output.startLineNumber = r.startLineNumber + deltaAfter 0 (hunks ranges before) ∧
      output.endLineNumberExclusive = r.endLineNumberExclusive +
        deltaAfter (deltaAfter 0 (hunks ranges before)) (hunks ranges (s.currentDiffs source)) := by
  obtain ⟨hnumbered, hapart⟩ := hsound
  rw [hunks_append] at hnumbered hapart hdelta
  rw [deltaAfter_append] at hdelta
  have hnumbered := (Numbered.append.mp hnumbered).2
  have hapart := (pairwise_append.mp hapart).2.1
  rw [Sweep.extendedOutput]
  generalize deltaAfter 0 (hunks ranges before) = d at hdelta hnumbered
  generalize s.currentDiffs source = current at hdelta hin hnumbered hapart
  cases current with
  | nil =>
    have hself : r.containsRange r = true := by simp [LineRange.containsRange_iff]
    obtain ⟨e, he, hstart, hstop⟩ := @LineRangeMapping.extendInputRange_ok
      ⟨r, r.delta (s.deltaFromBaseToInput source)⟩ r hself
    rw [map_nil, LineRangeMapping.joinAll, Option.getD_none, he]
    refine ⟨e.outputRange, rfl, ?_, ?_⟩
    · rw [hstart, hdelta]
      simp [hunks]
    · rw [hstop, hdelta]
      simp [LineRangeMapping.resultingDeltaFromOriginalToModified, hunks]
  | cons m ms =>
    obtain ⟨hstart, hle, hle', hrest⟩ := hnumbered
    rw [hunks_eq_map] at hapart
    have hjoin := @LineRangeMapping.foldl_join _ (ms.map ranges) (ranges m) rfl
      (by rw [← hunks_eq_map]; exact hrest) hapart
    rw [← hunks_eq_map] at hjoin
    obtain ⟨h1, h2, h3, h4⟩ := hjoin
    have hcontains : ∀ x ∈ ranges m :: ms.map ranges, r.containsRange x.inputRange = true := by
      intro x hx
      rw [← map_cons] at hx
      obtain ⟨y, hy, rfl⟩ := mem_map.mp hx
      exact hin y hy
    obtain ⟨e, he, hestart, hestop⟩ := LineRangeMapping.extendInputRange_ok (h4 r hcontains)
    rw [map_cons, LineRangeMapping.joinAll, Option.getD_some, he]
    refine ⟨e.outputRange, rfl, ?_, ?_⟩
    · rw [hestart, h1, h2]
      simp only [LineRangeMapping.hunk] at hstart
      omega
    · rw [hestop, h3]
      rfl

def hunk (i : InputNumber) (a : MappingAlignment T) : Hunk := LineRangeMapping.hunk ⟨a.inputRange, a.outputRange i⟩

def group (ranges : T → LineRangeMapping) (i : InputNumber) (a : MappingAlignment T) : Group :=
  ⟨a.inputRange.startLineNumber, a.inputRange.endLineNumberExclusive, hunks ranges (a.outputLineMappings i)⟩

theorem flatMap_group (i : InputNumber) (as : List (MappingAlignment T)) :
    (as.map (group ranges i)).flatMap Group.hunks =
      hunks ranges (as.flatMap fun a => a.outputLineMappings i) := by
  rw [flatMap_map, hunks, map_flatMap]
  rfl

/-- The alignments that are complete, over the diffs of each input that they are made of. -/
structure Aligns (ranges : T → LineRangeMapping) (lo hi : Int)
    (alignments : List (MappingAlignment T)) : Prop where
  outputs : ∀ i, alignments.map (hunk i) = coarse 0 (alignments.map (group ranges i))
  apart : alignments.Pairwise fun a b => a.inputRange.endLineNumberExclusive < b.inputRange.startLineNumber
  contains : ∀ a ∈ alignments, ∀ i, ∀ d ∈ a.outputLineMappings i,
    a.inputRange.containsRange (ranges d).inputRange = true
  touched : ∀ a ∈ alignments, ∃ i, a.outputLineMappings i ≠ []
  bounds : ∀ a ∈ alignments, lo ≤ a.inputRange.startLineNumber ∧ a.inputRange.endLineNumberExclusive ≤ hi

structure Swept (ranges : T → LineRangeMapping) (lo hi : Int) (ds : InputNumber → List T)
    (s : Sweep T) : Prop where
  parts : ∀ i, (s.alignments.flatMap fun a => a.outputLineMappings i) ++ s.currentDiffs i = ds i
  delta : ∀ i, s.deltaFromBaseToInput i = deltaAfter 0 (hunks ranges (ds i))
  aligns : Aligns ranges lo hi s.alignments
  current : ∀ r, s.currentInputRange = some r →
    (∀ a ∈ s.alignments, a.inputRange.endLineNumberExclusive < r.startLineNumber) ∧
      (∀ i, ∀ d ∈ s.currentDiffs i, r.containsRange (ranges d).inputRange = true) ∧
        (∃ i, s.currentDiffs i ≠ []) ∧ lo ≤ r.startLineNumber ∧ r.endLineNumberExclusive ≤ hi
  rest : s.currentInputRange = none → ∀ i, s.currentDiffs i = []

variable {lo hi : Int} {ds : InputNumber → List T} {s : Sweep T}

theorem Aligns.concat {alignments : List (MappingAlignment T)} {a : MappingAlignment T}
    (h : Aligns ranges lo hi alignments)
    (houtputs : ∀ i, a.hunk i = ⟨a.inputRange.startLineNumber, a.inputRange.endLineNumberExclusive,
      a.inputRange.startLineNumber + deltaAfter 0 (hunks ranges (alignments.flatMap fun a => a.outputLineMappings i)),
      a.inputRange.endLineNumberExclusive +
        deltaAfter (deltaAfter 0 (hunks ranges (alignments.flatMap fun a => a.outputLineMappings i)))
          (hunks ranges (a.outputLineMappings i))⟩)
    (hapart : ∀ b ∈ alignments, b.inputRange.endLineNumberExclusive < a.inputRange.startLineNumber)
    (hcontains : ∀ i, ∀ d ∈ a.outputLineMappings i, a.inputRange.containsRange (ranges d).inputRange = true)
    (htouched : ∃ i, a.outputLineMappings i ≠ [])
    (hbounds : lo ≤ a.inputRange.startLineNumber ∧ a.inputRange.endLineNumberExclusive ≤ hi) :
    Aligns ranges lo hi (alignments ++ [a]) := by
  refine ⟨fun i => ?_, ?_, ?_, ?_, ?_⟩
  · rw [map_append, map_append, map_singleton, map_singleton, coarse_concat, h.outputs i, houtputs i, flatMap_group]
    rfl
  · rw [pairwise_append]
    refine ⟨h.apart, pairwise_singleton _ a, fun b hb c hc => ?_⟩
    rw [mem_singleton.mp hc]
    exact hapart b hb
  all_goals
    intro b hb
    rcases mem_append.mp hb with hb | hb
  · exact h.contains b hb
  · rw [mem_singleton.mp hb]
    exact hcontains
  · exact h.touched b hb
  · rw [mem_singleton.mp hb]
    exact htouched
  · exact h.bounds b hb
  · rw [mem_singleton.mp hb]
    exact hbounds

theorem Swept.pushAndReset (h : Swept ranges lo hi ds s) (hsound : ∀ i, Sound ranges (ds i))
    {r : LineRange} (hr : s.currentInputRange = some r) :
    ∃ s', s.pushAndReset ranges r = .ok s' ∧ Swept ranges lo hi ds s' ∧
      s'.currentInputRange = none ∧
        ∀ a ∈ s'.alignments, a.inputRange.endLineNumberExclusive ≤ r.endLineNumberExclusive := by
  obtain ⟨hbefore, hin, htouched, hbounds⟩ := h.current r hr
  have houtput : ∀ i, ∃ output, s.extendedOutput ranges i r = .ok output ∧
      output.startLineNumber = r.startLineNumber +
        deltaAfter 0 (hunks ranges (s.alignments.flatMap fun a => a.outputLineMappings i)) ∧
      output.endLineNumberExclusive = r.endLineNumberExclusive +
        deltaAfter (deltaAfter 0
          (hunks ranges (s.alignments.flatMap fun a => a.outputLineMappings i)))
          (hunks ranges (s.currentDiffs i)) := by
    intro i
    refine Sweep.extendedOutput_ok ?_ ?_ (hin i)
    · rw [h.parts i]
      exact hsound i
    · rw [h.parts i]
      exact h.delta i
  obtain ⟨output1, hok1, hstart1, hstop1⟩ := houtput .input1
  obtain ⟨output2, hok2, hstart2, hstop2⟩ := houtput .input2
  rw [Sweep.pushAndReset, hok1, hok2]
  refine ⟨_, rfl, ⟨fun i => ?_, h.delta, ?_, fun r' hr' => ?_, fun _ _ => rfl⟩, rfl, ?_⟩
  · rw [← h.parts i, flatMap_append, append_nil, flatMap_singleton]
    cases i <;> rfl
  · refine h.aligns.concat (fun i => ?_) hbefore (fun i => ?_) ?_ hbounds
    · cases i
      · simp only [hunk, LineRangeMapping.hunk, outputRange, outputLineMappings, hstart1, hstop1]
      · simp only [hunk, LineRangeMapping.hunk, outputRange, outputLineMappings, hstart2, hstop2]
    · cases i
      · exact hin .input1
      · exact hin .input2
    · obtain ⟨i, hi⟩ := htouched
      refine ⟨i, ?_⟩
      cases i <;> exact hi
  · cases hr'
  · intro a ha
    rcases mem_append.mp ha with ha | ha
    · have := hbefore a ha
      have := r.le
      omega
    · rw [mem_singleton.mp ha]

theorem Swept.closeBefore (h : Swept ranges lo hi ds s) (hsound : ∀ i, Sound ranges (ds i))
    (hnone : s.currentInputRange = none → s.alignments = []) {range : LineRange}
    (hstart : ∀ r, s.currentInputRange = some r → r.startLineNumber ≤ range.startLineNumber) :
    ∃ s', s.closeBefore ranges range = .ok s' ∧ Swept ranges lo hi ds s' ∧
      (∀ r, s'.currentInputRange = some r → r.startLineNumber ≤ range.startLineNumber) ∧
        (s'.currentInputRange = none →
          ∀ a ∈ s'.alignments, a.inputRange.endLineNumberExclusive < range.startLineNumber) := by
  rw [Sweep.closeBefore]
  cases hr : s.currentInputRange with
  | none =>
    refine ⟨s, rfl, h, fun r hr' => ?_, fun _ => ?_⟩
    · rw [hr] at hr'
      cases hr'
    · rw [hnone hr]
      exact fun a ha => absurd ha not_mem_nil
  | some current =>
    have hle := hstart current hr
    have hrange := range.le
    dsimp only
    split
    · refine ⟨s, rfl, h, hstart, fun hn => ?_⟩
      rw [hr] at hn
      cases hn
    · next htouch =>
        obtain ⟨s', hs', hswept, hcurrent, hstops⟩ := h.pushAndReset hsound hr
        refine ⟨s', hs', hswept, fun r hr' => ?_, fun _ a ha => ?_⟩
        · rw [hcurrent] at hr'
          cases hr'
        · have := hstops a ha
          rw [LineRange.intersectsOrTouches_iff] at htouch
          omega

theorem Swept.add (h : Swept ranges lo hi ds s) {source : InputNumber} {diff : T}
    (hstart : ∀ r, s.currentInputRange = some r → r.startLineNumber ≤ (ranges diff).inputRange.startLineNumber)
    (hnone : s.currentInputRange = none → ∀ a ∈ s.alignments,
      a.inputRange.endLineNumberExclusive < (ranges diff).inputRange.startLineNumber)
    (hlo : lo ≤ (ranges diff).inputRange.startLineNumber)
    (hhi : (ranges diff).inputRange.endLineNumberExclusive ≤ hi) :
    Swept ranges lo hi (Function.update ds source (ds source ++ [diff])) (s.add ranges source diff) ∧
      ∃ r, (s.add ranges source diff).currentInputRange = some r ∧
        r.startLineNumber ≤ (ranges diff).inputRange.startLineNumber := by
  have hcurrent : ∃ r, (s.add ranges source diff).currentInputRange = some r ∧
      r.startLineNumber ≤ (ranges diff).inputRange.startLineNumber ∧
      (∀ a ∈ s.alignments, a.inputRange.endLineNumberExclusive < r.startLineNumber) ∧
      r.containsRange (ranges diff).inputRange = true ∧
      (∀ i, ∀ d ∈ s.currentDiffs i, r.containsRange (ranges d).inputRange = true) ∧
      lo ≤ r.startLineNumber ∧ r.endLineNumberExclusive ≤ hi := by
    cases hr : s.currentInputRange with
    | none =>
      refine ⟨(ranges diff).inputRange, by simp [Sweep.add, hr], le_rfl, hnone hr,
        by simp [LineRange.containsRange_iff], fun i d hd => ?_, hlo, hhi⟩
      rw [h.rest hr i] at hd
      cases hd
    | some current =>
      obtain ⟨hbefore, hin, -, hlo', hhi'⟩ := h.current current hr
      have hle := hstart current hr
      refine ⟨current.join (ranges diff).inputRange, by simp [Sweep.add, hr], ?_, fun a ha => ?_, ?_,
        fun i d hd => ?_, ?_, ?_⟩
      · exact min_le_right _ _
      · have := hbefore a ha
        rw [LineRange.startLineNumber_join]
        omega
      · simp [LineRange.containsRange_iff]
      · have := hin i d hd
        rw [LineRange.containsRange_iff] at this ⊢
        rw [LineRange.startLineNumber_join, LineRange.endLineNumberExclusive_join]
        omega
      · rw [LineRange.startLineNumber_join]
        omega
      · rw [LineRange.endLineNumberExclusive_join]
        omega
  obtain ⟨r, hr, hle, hbefore, hself, hin, hbounds⟩ := hcurrent
  refine ⟨⟨fun i => ?_, fun i => ?_, h.aligns, fun r' hr' => ?_, fun hn => ?_⟩, r, hr, hle⟩
  · by_cases hi : i = source
    · subst hi
      simp only [Sweep.add, Function.update_self]
      rw [← append_assoc, h.parts]
    · simp only [Sweep.add, Function.update_of_ne hi]
      exact h.parts i
  · by_cases hi : i = source
    · subst hi
      simp only [Sweep.add, Function.update_self]
      rw [hunks_append, deltaAfter_append]
      rfl
    · simp only [Sweep.add, Function.update_of_ne hi]
      exact h.delta i
  · rw [hr, Option.some.injEq] at hr'
    subst hr'
    refine ⟨hbefore, fun i d hd => ?_, ⟨source, ?_⟩, hbounds⟩
    · by_cases hi : i = source
      · subst hi
        simp only [Sweep.add, Function.update_self, mem_append, mem_singleton] at hd
        rcases hd with hd | rfl
        · exact hin i d hd
        · exact hself
      · simp only [Sweep.add, Function.update_of_ne hi] at hd
        exact hin i d hd
    · simp [Sweep.add]
  · rw [hr] at hn
    cases hn

theorem Sound.of_append {diffs diffs' : List T} (h : Sound ranges (diffs ++ diffs')) :
    Sound ranges diffs := by
  obtain ⟨hnumbered, hapart⟩ := h
  rw [hunks_append] at hnumbered hapart
  exact ⟨(Numbered.append.mp hnumbered).1, (pairwise_append.mp hapart).1⟩

def ofSource (i : InputNumber) (diffs : List (InputNumber × T)) : List T := (diffs.filter fun x => x.1 = i).map Prod.snd

theorem ofSource_cons (i : InputNumber) (x : InputNumber × T) (diffs : List (InputNumber × T)) :
    ofSource i (x :: diffs) = if x.1 = i then x.2 :: ofSource i diffs else ofSource i diffs := by
  by_cases h : x.1 = i <;> simp [ofSource, h]

theorem Swept.foldlM {diffs : List (InputNumber × T)} (h : Swept ranges lo hi ds s)
    (hnone : s.currentInputRange = none → s.alignments = [])
    (hstart : ∀ r, s.currentInputRange = some r →
      ∀ x ∈ diffs, r.startLineNumber ≤ (ranges x.2).inputRange.startLineNumber)
    (hsorted : diffs.Pairwise (StartsNoLater ranges))
    (hsound : ∀ i, Sound ranges (ds i ++ ofSource i diffs))
    (hbounds : ∀ x ∈ diffs, lo ≤ (ranges x.2).inputRange.startLineNumber ∧
      (ranges x.2).inputRange.endLineNumberExclusive ≤ hi) :
    ∃ s', diffs.foldlM (Sweep.step ranges) s = .ok s' ∧
      Swept ranges lo hi (fun i => ds i ++ ofSource i diffs) s' := by
  induction diffs generalizing s ds with
  | nil =>
    have hds : (fun i => ds i ++ ofSource i ([] : List (InputNumber × T))) = ds := by
      funext i
      exact append_nil (ds i)
    rw [hds]
    exact ⟨s, rfl, h⟩
  | cons x diffs ih =>
    rw [pairwise_cons] at hsorted
    obtain ⟨s₁, hs₁, hswept₁, hstart₁, hnone₁⟩ := h.closeBefore (fun i => (hsound i).of_append)
      hnone fun r hr => hstart r hr x mem_cons_self
    obtain ⟨hlo, hhi⟩ := hbounds x mem_cons_self
    obtain ⟨hswept₂, r, hr, hle⟩ := @Swept.add _ _ _ _ _ _ hswept₁ x.1 x.2 hstart₁ hnone₁ hlo hhi
    have hds : (fun i => Function.update ds x.1 (ds x.1 ++ [x.2]) i ++ ofSource i diffs) =
        fun i => ds i ++ ofSource i (x :: diffs) := by
      funext i
      rw [ofSource_cons]
      by_cases hi : x.1 = i
      · subst hi
        simp
      · rw [Function.update_of_ne (Ne.symm hi), if_neg hi]
    have hstart₂ : ∀ r', (s₁.add ranges x.1 x.2).currentInputRange = some r' →
        ∀ y ∈ diffs, r'.startLineNumber ≤ (ranges y.2).inputRange.startLineNumber := by
      intro r' hr' y hy
      rw [hr, Option.some.injEq] at hr'
      subst hr'
      exact hle.trans (hsorted.1 y hy)
    have hsound₂ : ∀ i, Sound ranges
        (Function.update ds x.1 (ds x.1 ++ [x.2]) i ++ ofSource i diffs) := by
      intro i
      rw [congrFun hds i]
      exact hsound i
    obtain ⟨s', hs', hswept'⟩ := ih hswept₂ (fun hn => by rw [hr] at hn; cases hn) hstart₂
      hsorted.2 hsound₂ fun y hy => hbounds y (mem_cons_of_mem x hy)
    refine ⟨s', ?_, hds ▸ hswept'⟩
    rw [foldlM_cons, Sweep.step, hs₁]
    exact hs'

def sources (diffs1 diffs2 : List T) : InputNumber → List T
  | .input1 => diffs1
  | .input2 => diffs2

theorem combinedDiffs_perm (diffs1 diffs2 : List T) :
    List.Perm (combinedDiffs ranges diffs1 diffs2)
      (diffs1.map (fun d => (InputNumber.input1, d)) ++ diffs2.map fun d => (InputNumber.input2, d)) :=
  perm_insertionSort _ _

instance : Std.Total (StartsNoLater ranges) := ⟨fun _ _ => le_total _ _⟩

instance : IsTrans (InputNumber × T) (StartsNoLater ranges) := ⟨fun _ _ _ h h' => le_trans h h'⟩

theorem combinedDiffs_sorted (diffs1 diffs2 : List T) :
    (combinedDiffs ranges diffs1 diffs2).Pairwise (StartsNoLater ranges) :=
  pairwise_insertionSort _ _

theorem apart_pairwise {diffs : List T} (h : Sound ranges diffs) :
    diffs.Pairwise fun a b =>
      (ranges a).inputRange.startLineNumber ≤ (ranges b).inputRange.startLineNumber := by
  have hpair := h.apart
  rw [Apart, hunks, pairwise_map] at hpair
  refine hpair.imp fun {a b} hab => ?_
  have := (ranges a).inputRange.le
  simp only [LineRangeMapping.hunk] at hab
  omega

theorem ofSource_combinedDiffs {diffs1 diffs2 : List T}
    (hsound : ∀ i, Sound ranges (sources diffs1 diffs2 i)) (i : InputNumber) :
    ofSource i (combinedDiffs ranges diffs1 diffs2) = sources diffs1 diffs2 i := by
  have hsub : List.Sublist ((sources diffs1 diffs2 i).map fun d => (i, d))
      (diffs1.map (fun d => (InputNumber.input1, d)) ++
        diffs2.map fun d => (InputNumber.input2, d)) := by
    cases i
    · exact sublist_append_left _ _
    · exact sublist_append_right _ _
  have hsorted : ((sources diffs1 diffs2 i).map fun d => (i, d)).Pairwise
      (StartsNoLater ranges) := by
    rw [pairwise_map]
    exact apart_pairwise (hsound i)
  have hsub' : List.Sublist ((sources diffs1 diffs2 i).map fun d => (i, d))
      (combinedDiffs ranges diffs1 diffs2) := sublist_insertionSort hsorted hsub
  have hfilter := hsub'.filter fun x => decide (x.1 = i)
  have hself : ((sources diffs1 diffs2 i).map fun d => (i, d)).filter (fun x => decide (x.1 = i)) =
      (sources diffs1 diffs2 i).map fun d => (i, d) := by
    rw [filter_eq_self]
    intro x hx
    obtain ⟨d, -, rfl⟩ := mem_map.mp hx
    exact decide_eq_true rfl
  rw [hself] at hfilter
  have hlength : ((sources diffs1 diffs2 i).map fun d => (i, d)).length =
      ((combinedDiffs ranges diffs1 diffs2).filter fun x => decide (x.1 = i)).length := by
    rw [((combinedDiffs_perm diffs1 diffs2).filter _).length_eq, filter_append, length_append]
    cases i <;> simp [sources, filter_map, Function.comp_def]
  rw [ofSource]
  have heq := hfilter.eq_of_length hlength
  rw [← heq, map_map]
  exact map_id _

theorem swept_new (lo hi : Int) : Swept ranges lo hi (fun _ => []) Sweep.new := by
  refine ⟨fun i => rfl, fun i => rfl, ⟨fun i => rfl, List.Pairwise.nil, ?_, ?_, ?_⟩,
    fun r hr => ?_, fun _ _ => rfl⟩
  · exact fun a ha => absurd ha not_mem_nil
  · exact fun a ha => absurd ha not_mem_nil
  · exact fun a ha => absurd ha not_mem_nil
  · cases hr

theorem compute_aligns {diffs1 diffs2 : List T}
    (hsound : ∀ i, Sound ranges (sources diffs1 diffs2 i))
    (hbounds : ∀ i, ∀ d ∈ sources diffs1 diffs2 i, lo ≤ (ranges d).inputRange.startLineNumber ∧
      (ranges d).inputRange.endLineNumberExclusive ≤ hi) :
    ∃ alignments, compute ranges diffs1 diffs2 = .ok alignments ∧
      Aligns ranges lo hi alignments ∧
        ∀ i, (alignments.flatMap fun a => a.outputLineMappings i) = sources diffs1 diffs2 i := by
  have hall : ∀ x ∈ combinedDiffs ranges diffs1 diffs2,
      lo ≤ (ranges x.2).inputRange.startLineNumber ∧
        (ranges x.2).inputRange.endLineNumberExclusive ≤ hi := by
    intro x hx
    rcases mem_append.mp ((combinedDiffs_perm diffs1 diffs2).mem_iff.mp hx) with hx | hx
    · obtain ⟨d, hd, rfl⟩ := mem_map.mp hx
      exact hbounds .input1 d hd
    · obtain ⟨d, hd, rfl⟩ := mem_map.mp hx
      exact hbounds .input2 d hd
  obtain ⟨s, hs, hswept⟩ := (swept_new lo hi).foldlM (fun _ => rfl)
    (fun r hr => by cases hr) (combinedDiffs_sorted diffs1 diffs2)
    (fun i => by rw [nil_append, ofSource_combinedDiffs hsound]; exact hsound i) hall
  have hds : (fun i => [] ++ ofSource i (combinedDiffs ranges diffs1 diffs2)) =
      sources diffs1 diffs2 := by
    funext i
    rw [nil_append, ofSource_combinedDiffs hsound]
  rw [hds] at hswept
  rw [compute, hs]
  cases hr : s.currentInputRange with
  | none =>
    refine ⟨s.alignments, by simp only [bind, Except.bind, hr], hswept.aligns, fun i => ?_⟩
    rw [← hswept.parts i, hswept.rest hr i, append_nil]
  | some r =>
    obtain ⟨s', hs', hswept', hnone, -⟩ := hswept.pushAndReset hsound hr
    refine ⟨s'.alignments, by simp only [bind, Except.bind, hr, hs'], hswept'.aligns, fun i => ?_⟩
    rw [← hswept'.parts i, hswept'.rest hnone i, append_nil]

end MappingAlignment

end Gavea.MergeEditor
