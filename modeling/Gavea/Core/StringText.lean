import Gavea.Lib.Js

namespace Gavea.Core

structure Position where
  lineNumber : Int
  column : Int
  deriving DecidableEq

namespace Position

def isBefore (a b : Position) : Bool :=
  if a.lineNumber < b.lineNumber then true
  else if b.lineNumber < a.lineNumber then false
  else a.column < b.column

def isBeforeOrEqual (a b : Position) : Bool :=
  if a.lineNumber < b.lineNumber then true
  else if b.lineNumber < a.lineNumber then false
  else a.column ≤ b.column

theorem isBefore_iff (a b : Position) : a.isBefore b ↔
    a.lineNumber < b.lineNumber ∨ a.lineNumber = b.lineNumber ∧ a.column < b.column := by
  simp only [isBefore]
  split_ifs <;> simp <;> omega

theorem isBeforeOrEqual_iff (a b : Position) : a.isBeforeOrEqual b ↔
    a.lineNumber < b.lineNumber ∨ a.lineNumber = b.lineNumber ∧ a.column ≤ b.column := by
  simp only [isBeforeOrEqual]
  split_ifs <;> simp <;> omega

end Position

/-- The constructor of the source swaps the ends when they come in the wrong order,
so every range starts before it ends. -/
structure Range where
  startLineNumber : Int
  startColumn : Int
  endLineNumber : Int
  endColumn : Int
  le : startLineNumber < endLineNumber ∨ startLineNumber = endLineNumber ∧ startColumn ≤ endColumn
  deriving DecidableEq

namespace Range

def new (startLineNumber startColumn endLineNumber endColumn : Int) : Range :=
  if h : startLineNumber > endLineNumber ∨
      (startLineNumber = endLineNumber ∧ startColumn > endColumn) then
    ⟨endLineNumber, endColumn, startLineNumber, startColumn, by omega⟩
  else ⟨startLineNumber, startColumn, endLineNumber, endColumn, by omega⟩

def fromPositions (start stop : Position) : Range := new start.lineNumber start.column stop.lineNumber stop.column

def getStartPosition (r : Range) : Position := ⟨r.startLineNumber, r.startColumn⟩

def getEndPosition (r : Range) : Position := ⟨r.endLineNumber, r.endColumn⟩

def isEmpty (r : Range) : Bool := r.startLineNumber == r.endLineNumber && r.startColumn == r.endColumn

/-- A reunion of the two ranges. -/
def plusRange (a b : Range) : Range :=
  let start : Position :=
    if b.startLineNumber < a.startLineNumber then ⟨b.startLineNumber, b.startColumn⟩
    else if b.startLineNumber = a.startLineNumber then
      ⟨b.startLineNumber, min b.startColumn a.startColumn⟩
    else ⟨a.startLineNumber, a.startColumn⟩
  let stop : Position :=
    if b.endLineNumber > a.endLineNumber then ⟨b.endLineNumber, b.endColumn⟩
    else if b.endLineNumber = a.endLineNumber then
      ⟨b.endLineNumber, max b.endColumn a.endColumn⟩
    else ⟨a.endLineNumber, a.endColumn⟩
  new start.lineNumber start.column stop.lineNumber stop.column

theorem fromPositions_spec {start stop : Position} (h : start.isBeforeOrEqual stop) :
    (fromPositions start stop).getStartPosition = start ∧
      (fromPositions start stop).getEndPosition = stop := by
  rw [Position.isBeforeOrEqual_iff] at h
  rw [fromPositions, new, dif_neg (by omega)]
  exact ⟨rfl, rfl⟩

theorem isBeforeOrEqual (r : Range) : r.getStartPosition.isBeforeOrEqual r.getEndPosition := by
  rw [Position.isBeforeOrEqual_iff]
  exact r.le

theorem isEmpty_iff (r : Range) : r.isEmpty ↔ r.getStartPosition = r.getEndPosition := by
  simp [isEmpty, getStartPosition, getEndPosition]

theorem plusRange_touching {a b : Range} (h : a.getEndPosition = b.getStartPosition) :
    (a.plusRange b).getStartPosition = a.getStartPosition ∧
      (a.plusRange b).getEndPosition = b.getEndPosition := by
  obtain ⟨al, ac, bl, bc, ha⟩ := a
  obtain ⟨cl, cc, dl, dc, hb⟩ := b
  simp only [getStartPosition, getEndPosition, Position.mk.injEq] at h ⊢
  obtain ⟨rfl, rfl⟩ := h
  have hstart : (if bl < al then (⟨bl, bc⟩ : Position)
      else if bl = al then ⟨bl, min bc ac⟩ else ⟨al, ac⟩) = ⟨al, ac⟩ := by
    split_ifs <;> simp <;> omega
  have hstop : (if dl > bl then (⟨dl, dc⟩ : Position)
      else if dl = bl then ⟨dl, max dc bc⟩ else ⟨bl, bc⟩) = ⟨dl, dc⟩ := by
    split_ifs <;> simp <;> omega
  simp only [plusRange, hstart, hstop, new]
  rw [dif_neg (by omega)]
  exact ⟨⟨rfl, rfl⟩, rfl, rfl⟩

end Range

structure TextLength where
  lineCount : Int
  columnCount : Int
  deriving DecidableEq

namespace TextLength

def zero : TextLength := ⟨0, 0⟩

def betweenPositions (position1 position2 : Position) : TextLength :=
  if position1.lineNumber = position2.lineNumber then
    ⟨0, position2.column - position1.column⟩
  else ⟨position2.lineNumber - position1.lineNumber, position2.column - 1⟩

def addToPosition (len : TextLength) (position : Position) : Position :=
  if len.lineCount = 0 then ⟨position.lineNumber, position.column + len.columnCount⟩
  else ⟨position.lineNumber + len.lineCount, len.columnCount + 1⟩

def add (len other : TextLength) : TextLength :=
  if other.lineCount = 0 then ⟨len.lineCount, len.columnCount + other.columnCount⟩
  else ⟨len.lineCount + other.lineCount, other.columnCount⟩

end TextLength

open Lib.Js List

namespace TextLength

def push (len : TextLength) (c : CodeUnit) : TextLength :=
  if c = lineFeed then ⟨len.lineCount + 1, 0⟩ else ⟨len.lineCount, len.columnCount + 1⟩

def ofCodeUnits (text : JsString) : TextLength := text.foldl push zero

@[simp] theorem ofCodeUnits_nil : ofCodeUnits [] = zero := rfl

theorem ofCodeUnits_concat (u : JsString) (c : CodeUnit) :
    ofCodeUnits (u ++ [c]) = (ofCodeUnits u).push c := foldl_concat ..

theorem ofCodeUnits_nonneg (u : JsString) :
    0 ≤ (ofCodeUnits u).lineCount ∧ 0 ≤ (ofCodeUnits u).columnCount := by
  induction u using List.reverseRecOn with
  | nil => simp [zero]
  | append_singleton u c ih =>
    rw [ofCodeUnits_concat, push]
    split_ifs <;> simp <;> omega

theorem columnCount_le_length (u : JsString) : (ofCodeUnits u).columnCount ≤ u.length := by
  induction u using List.reverseRecOn with
  | nil => simp [zero]
  | append_singleton u c ih =>
    rw [ofCodeUnits_concat, push, length_append, length_singleton]
    split_ifs
    · exact Int.natCast_nonneg _
    · push_cast
      omega

theorem ofCodeUnits_append (u v : JsString) :
    ofCodeUnits (u ++ v) = (ofCodeUnits u).add (ofCodeUnits v) := by
  induction v using List.reverseRecOn with
  | nil => simp [add, zero]
  | append_singleton v c ih =>
    have hv := (ofCodeUnits_nonneg v).1
    rw [← append_assoc, ofCodeUnits_concat, ofCodeUnits_concat, ih]
    simp only [add, push]
    split_ifs <;> simp at * <;> omega

theorem columnCount_of_lineCount_eq_zero {u : JsString} (h : (ofCodeUnits u).lineCount = 0) :
    (ofCodeUnits u).columnCount = u.length := by
  induction u using List.reverseRecOn with
  | nil => rfl
  | append_singleton u c ih =>
    have hu := (ofCodeUnits_nonneg u).1
    rw [ofCodeUnits_concat, push] at h ⊢
    split_ifs at h ⊢ with hc
    · simp only at h
      omega
    · rw [length_append, length_singleton]
      push_cast
      rw [← ih h]

theorem addToPosition_zero (p : Position) : zero.addToPosition p = p := by
  simp [addToPosition, zero]

end TextLength

open TextLength

def endPosition (text : JsString) : Position := (ofCodeUnits text).addToPosition ⟨1, 1⟩

theorem endPosition_eq (u : JsString) :
    endPosition u = ⟨(ofCodeUnits u).lineCount + 1, (ofCodeUnits u).columnCount + 1⟩ := by
  rw [endPosition, addToPosition]
  split_ifs <;> simp <;> omega

@[simp] theorem endPosition_nil : endPosition [] = ⟨1, 1⟩ := rfl

theorem endPosition_append (u v : JsString) :
    endPosition (u ++ v) = (ofCodeUnits v).addToPosition (endPosition u) := by
  rw [endPosition_eq, endPosition_eq, ofCodeUnits_append, add, addToPosition]
  split_ifs <;> simp <;> omega

theorem betweenPositions_append (u v : JsString) :
    betweenPositions (endPosition u) (endPosition (u ++ v)) = ofCodeUnits v := by
  rw [endPosition_eq, endPosition_eq, ofCodeUnits_append, add, betweenPositions]
  by_cases h : (ofCodeUnits v).lineCount = 0
  · rw [if_pos h, if_pos rfl]
    simp [← h]
  · rw [if_neg h, if_neg (by simp only; omega)]
    simp

theorem isBefore_append {u v : JsString} (h : v ≠ []) :
    (endPosition u).isBefore (endPosition (u ++ v)) := by
  have hv := (ofCodeUnits_nonneg v).1
  rw [Position.isBefore_iff, endPosition_eq, endPosition_eq, ofCodeUnits_append, add]
  by_cases hz : (ofCodeUnits v).lineCount = 0
  · have hlen := length_pos_of_ne_nil h
    have hcol := columnCount_of_lineCount_eq_zero hz
    rw [if_pos hz]
    exact .inr ⟨rfl, by simp only; omega⟩
  · rw [if_neg hz]
    exact .inl (by simp only; omega)

def textBetween (s : JsString) (a b : Int) : JsString := (s.take b.toNat).drop a.toNat

def positionAt (s : JsString) (k : Int) : Position := endPosition (s.take k.toNat)

section Offsets

variable {s : JsString} {a b c : Int}

theorem take_append_textBetween (hab : a ≤ b) : s.take a.toNat ++ textBetween s a b = s.take b.toNat := by
  have h := take_append_drop a.toNat (s.take b.toNat)
  rwa [take_take, min_eq_left (by omega)] at h

theorem textBetween_append (ha : a ≤ b) (hb : b ≤ c) :
    textBetween s a b ++ textBetween s b c = textBetween s a c := by
  refine @append_cancel_left _ (s.take a.toNat) _ _ ?_
  rw [← append_assoc, take_append_textBetween ha, take_append_textBetween hb, take_append_textBetween (ha.trans hb)]

theorem length_textBetween (ha : 0 ≤ a) (hab : a ≤ b) (hb : b ≤ s.length) :
    ((textBetween s a b).length : Int) = b - a := by
  rw [textBetween, length_drop, length_take]
  omega

@[simp] theorem textBetween_self : textBetween s a a = [] := by
  rw [textBetween, drop_eq_nil_iff, length_take]
  omega

theorem textBetween_eq_take_drop (ha : 0 ≤ a) (hab : a ≤ b) :
    textBetween s a b = (s.drop a.toNat).take (b - a).toNat := by
  have hsub : b.toNat - a.toNat = (b - a).toNat := by omega
  rw [textBetween, drop_take, hsub]

theorem drop_append {u rest : JsString} (ha : 0 ≤ a) (ha' : a ≤ s.length)
    (h : s.drop a.toNat = u ++ rest) :
    textBetween s a (a + u.length) = u ∧ s.drop (a + u.length).toNat = rest ∧
      a + u.length ≤ s.length := by
  have hlen := congrArg List.length h
  have hsum : (a + u.length).toNat = a.toNat + u.length := by omega
  rw [length_drop, length_append] at hlen
  refine ⟨?_, ?_, by omega⟩
  · rw [textBetween_eq_take_drop ha (by omega), h, add_sub_cancel_left, Int.toNat_natCast, take_left]
  · rw [hsum, ← drop_drop, h, drop_left]

theorem getLast?_take (ha : 0 ≤ a) (hab : a < b) (hb : b ≤ s.length) :
    (s.take b.toNat).getLast? = (textBetween s a b).getLast? := by
  have hlen := length_textBetween ha hab.le hb
  have hne : textBetween s a b ≠ [] := by
    rw [← length_pos_iff]
    omega
  rw [← take_append_textBetween hab.le, getLast?_append_of_ne_nil _ hne]

theorem positionAt_zero : positionAt s 0 = ⟨1, 1⟩ := rfl

theorem addToPosition_textBetween (hab : a ≤ b) :
    (ofCodeUnits (textBetween s a b)).addToPosition (positionAt s a) = positionAt s b := by
  rw [positionAt, ← endPosition_append, take_append_textBetween hab, positionAt]

theorem betweenPositions_positionAt (hab : a ≤ b) :
    betweenPositions (positionAt s a) (positionAt s b) = ofCodeUnits (textBetween s a b) := by
  rw [positionAt, positionAt, ← take_append_textBetween hab, betweenPositions_append]

theorem isBefore_positionAt (ha : 0 ≤ a) (hab : a < b) (hb : b ≤ s.length) :
    (positionAt s a).isBefore (positionAt s b) := by
  have hne : textBetween s a b ≠ [] := by
    have := length_textBetween ha hab.le hb
    rw [← length_pos_iff]
    omega
  rw [positionAt, positionAt, ← take_append_textBetween hab.le]
  exact isBefore_append hne

theorem isBefore_positionAt_iff (ha : 0 ≤ a) (ha' : a ≤ s.length) (hb : 0 ≤ b)
    (hb' : b ≤ s.length) : (positionAt s a).isBefore (positionAt s b) ↔ a < b := by
  refine ⟨fun h => ?_, fun h => isBefore_positionAt ha h hb'⟩
  by_contra hle
  rw [Position.isBefore_iff] at h
  rcases (not_lt.mp hle).lt_or_eq with hlt | rfl
  · have h' := isBefore_positionAt hb hlt ha'
    rw [Position.isBefore_iff] at h'
    omega
  · omega

theorem positionAt_inj (ha : 0 ≤ a) (ha' : a ≤ s.length) (hb : 0 ≤ b) (hb' : b ≤ s.length)
    (h : positionAt s a = positionAt s b) : a = b := by
  have hab := isBefore_positionAt_iff ha ha' hb hb'
  have hba := isBefore_positionAt_iff hb hb' ha ha'
  rw [h, Position.isBefore_iff] at hab hba
  omega

theorem isBeforeOrEqual_positionAt (hab : a ≤ b) (ha : 0 ≤ a) (hb : b ≤ s.length) :
    (positionAt s a).isBeforeOrEqual (positionAt s b) := by
  rw [Position.isBeforeOrEqual_iff]
  rcases hab.lt_or_eq with hlt | rfl
  · have h := isBefore_positionAt ha hlt hb
    rw [Position.isBefore_iff] at h
    omega
  · exact .inr ⟨rfl, le_rfl⟩

end Offsets

open Lib.Js

inductive BugIndicatingError
  | invalidRange (start endExclusive : Int)
  | invalidJoin (start endExclusive start' endExclusive' : Int)
  | notDisjointAndSorted (start endExclusive lastEndEx : Int)
  | invariantViolation
  | startMustBeBeforeEnd
  | textLengthMismatch
  | assertionFailed
  deriving DecidableEq

structure OffsetRange where
  start : Int
  endExclusive : Int
  le : start ≤ endExclusive
  deriving DecidableEq

namespace OffsetRange

def new (start endExclusive : Int) : Except BugIndicatingError OffsetRange :=
  if h : start ≤ endExclusive then .ok ⟨start, endExclusive, h⟩
  else .error (.invalidRange start endExclusive)

def emptyAt (offset : Int) : OffsetRange := ⟨offset, offset, le_rfl⟩

def ofLength (length : Nat) : OffsetRange := ⟨0, length, by omega⟩

def ofStartAndLength (start : Int) (length : Nat) : OffsetRange := ⟨start, start + length, by omega⟩

def isEmpty (r : OffsetRange) : Bool := r.start == r.endExclusive

def length (r : OffsetRange) : Nat := (r.endExclusive - r.start).toNat

def delta (r : OffsetRange) (offset : Int) : OffsetRange :=
  ⟨r.start + offset, r.endExclusive + offset, by have := r.le; omega⟩

def deltaStart (r : OffsetRange) (offset : Int) : Except BugIndicatingError OffsetRange :=
  new (r.start + offset) r.endExclusive

def deltaEnd (r : OffsetRange) (offset : Int) : Except BugIndicatingError OffsetRange :=
  new r.start (r.endExclusive + offset)

def intersects (r other : OffsetRange) : Bool := max r.start other.start < min r.endExclusive other.endExclusive

def intersectsOrTouches (r other : OffsetRange) : Bool :=
  max r.start other.start ≤ min r.endExclusive other.endExclusive

def isBefore (r other : OffsetRange) : Bool := r.endExclusive ≤ other.start

def contains (r : OffsetRange) (offset : Int) : Bool := r.start ≤ offset && offset < r.endExclusive

/-- The smallest range that contains both ranges. -/
def join (r other : OffsetRange) : OffsetRange :=
  ⟨min r.start other.start, max r.endExclusive other.endExclusive, by
    have hle := r.le
    omega⟩

/-- Undefined if the ranges do not even touch. -/
def intersect (r other : OffsetRange) : Option OffsetRange :=
  if h : max r.start other.start ≤ min r.endExclusive other.endExclusive then some ⟨_, _, h⟩ else none

def slice {α : Type*} (r : OffsetRange) (arr : List α) : List α := Lib.Js.slice arr r.start r.endExclusive

def substring (r : OffsetRange) (str : JsString) : JsString := Lib.Js.substring str r.start r.endExclusive

def joinRightTouching (r range : OffsetRange) : Except BugIndicatingError OffsetRange :=
  if r.endExclusive ≠ range.start then
    .error (.invalidJoin r.start r.endExclusive range.start range.endExclusive)
  else new r.start range.endExclusive

theorem new_ok {a b : Int} (h : a ≤ b) : new a b = .ok ⟨a, b, h⟩ := dif_pos h

theorem joinRightTouching_ok {r range : OffsetRange} (h : r.endExclusive = range.start) :
    r.joinRightTouching range = .ok ⟨r.start, range.endExclusive,
      r.le.trans (h.le.trans range.le)⟩ := by
  rw [joinRightTouching, if_neg (not_not.mpr h), new_ok]

theorem length_cast (r : OffsetRange) : (r.length : Int) = r.endExclusive - r.start := by
  have := r.le
  rw [length]; omega

theorem intersects_iff (r other : OffsetRange) : r.intersects other = true ↔
    max r.start other.start < min r.endExclusive other.endExclusive := by
  rw [intersects, decide_eq_true_eq]

theorem intersectsOrTouches_iff (r other : OffsetRange) : r.intersectsOrTouches other = true ↔
    r.start ≤ other.endExclusive ∧ other.start ≤ r.endExclusive := by
  have hle := r.le
  have hle' := other.le
  rw [intersectsOrTouches, decide_eq_true_eq]
  omega

@[simp] theorem contains_iff (r : OffsetRange) (offset : Int) :
    r.contains offset = true ↔ r.start ≤ offset ∧ offset < r.endExclusive := by
  rw [contains, Bool.and_eq_true, decide_eq_true_eq, decide_eq_true_eq]

@[simp] theorem delta_start (r : OffsetRange) (k : Int) : (r.delta k).start = r.start + k := rfl

@[simp] theorem delta_endExclusive (r : OffsetRange) (k : Int) : (r.delta k).endExclusive = r.endExclusive + k := rfl

end OffsetRange

def maxSafeInteger : Int := 2 ^ 53 - 1

structure StringText where
  value : JsString

namespace StringText

/-- The loop of `_computeLineOffsets` from index i on, with the character before it:
the starts of the lines that begin later, and the ends of all lines from here on. -/
def lineOffsetsFrom (i : Nat) (previous : Option CodeUnit) : JsString → List Int × List Int
  | [] => ([], [(i : Int)])
  | c :: rest =>
    let (starts, ends) := lineOffsetsFrom (i + 1) (some c) rest
    if c = lineFeed then
      ((i + 1 : Int) :: starts, (if previous = some carriageReturn then (i - 1 : Int) else i) :: ends)
    else (starts, ends)

variable (t : StringText)

def lineStartOffsetByLineIdx : List Int := 0 :: (lineOffsetsFrom 0 none t.value).1

def lineEndOffsetByLineIdx : List Int := (lineOffsetsFrom 0 none t.value).2

/-- Reads an array at an index that the callers have validated. -/
def offsetAt (offsets : List Int) (idx : Int) : Int := offsets.getD idx.toNat 0

def length : TextLength :=
  let lineIdx : Int := t.lineStartOffsetByLineIdx.length - 1
  ⟨lineIdx, t.value.length - offsetAt t.lineStartOffsetByLineIdx lineIdx⟩

def getLineLength (lineNumber : Int) : Int :=
  offsetAt t.lineEndOffsetByLineIdx (lineNumber - 1) - offsetAt t.lineStartOffsetByLineIdx (lineNumber - 1)

def validatePosition (position : Position) : Position :=
  if position.lineNumber < 1 then ⟨1, 1⟩
  else
    let lineCount := t.length.lineCount + 1
    if position.lineNumber > lineCount then ⟨lineCount, t.getLineLength lineCount + 1⟩
    else if position.column < 1 then ⟨position.lineNumber, 1⟩
    else
      let lineLength := t.getLineLength position.lineNumber
      if position.column - 1 > lineLength then ⟨position.lineNumber, lineLength + 1⟩
      else position

def getOffset (position : Position) : Int :=
  let valPos := t.validatePosition position
  offsetAt t.lineStartOffsetByLineIdx (valPos.lineNumber - 1) + valPos.column - 1

def getOffsetRange (range : Range) : Except BugIndicatingError OffsetRange :=
  OffsetRange.new (t.getOffset range.getStartPosition) (t.getOffset range.getEndPosition)

def getValueOfRange (range : Range) : Except BugIndicatingError JsString :=
  (t.getOffsetRange range).map fun r => r.substring t.value

def endPositionExclusive : Position := t.length.addToPosition ⟨1, 1⟩

/-- The offset is a place where a cursor may stand: not between `\r` and `\n`. -/
def ValidOffset (s : JsString) (k : Int) : Prop :=
  0 ≤ k ∧ k ≤ s.length ∧ ¬ ((s.take k.toNat).getLast? = some carriageReturn ∧ (s.drop k.toNat).head? = some lineFeed)

section LineOffsets

open TextLength

theorem ofCodeUnits_cons (c : CodeUnit) (u : JsString) : ofCodeUnits (c :: u) =
    if c = lineFeed then ⟨(ofCodeUnits u).lineCount + 1, (ofCodeUnits u).columnCount⟩
    else if (ofCodeUnits u).lineCount = 0 then ⟨0, (ofCodeUnits u).columnCount + 1⟩
    else ofCodeUnits u := by
  have h := ofCodeUnits_append [c] u
  rw [singleton_append] at h
  rw [h]
  change (zero.push c).add _ = _
  simp only [push, zero, add]
  split_ifs <;> simp <;> omega

theorem lineOffsetsFrom_lineFeed (i : Nat) (previous : Option CodeUnit) (rest : JsString) :
    lineOffsetsFrom i previous (lineFeed :: rest) =
      ((i + 1 : Int) :: (lineOffsetsFrom (i + 1) (some lineFeed) rest).1,
        (if previous = some carriageReturn then (i - 1 : Int) else i) ::
          (lineOffsetsFrom (i + 1) (some lineFeed) rest).2) := by
  rw [lineOffsetsFrom]
  exact if_pos rfl

theorem lineOffsetsFrom_of_ne (i : Nat) (previous : Option CodeUnit) {c : CodeUnit}
    (h : c ≠ lineFeed) (rest : JsString) :
    lineOffsetsFrom i previous (c :: rest) = lineOffsetsFrom (i + 1) (some c) rest := by
  rw [lineOffsetsFrom]
  exact if_neg h

theorem lineOffsetsFrom_append (i : Nat) (previous : Option CodeUnit) (u v : JsString) :
    ∃ starts ends : List Int,
      lineOffsetsFrom i previous (u ++ v) =
        (starts ++ (lineOffsetsFrom (i + u.length) (u.getLast?.or previous) v).1,
          ends ++ (lineOffsetsFrom (i + u.length) (u.getLast?.or previous) v).2) ∧
      (starts.length : Int) = (ofCodeUnits u).lineCount ∧
      (ends.length : Int) = (ofCodeUnits u).lineCount ∧
      ∀ d : Int, (d :: starts).getLast? = some (if (ofCodeUnits u).lineCount = 0 then d
        else i + u.length - (ofCodeUnits u).columnCount) := by
  induction u generalizing i previous with
  | nil => exact ⟨[], [], by simp [zero]⟩
  | cons c u ih =>
    obtain ⟨starts, ends, hse, hls, hle, hlast⟩ := ih (i + 1) (some c)
    have hu := ofCodeUnits_nonneg u
    have hprev : u.getLast?.or (some c) = (c :: u).getLast?.or previous := by
      rw [getLast?_cons]
      cases u.getLast? <;> rfl
    have hi : i + 1 + u.length = i + (c :: u).length := by rw [length_cons]; omega
    have hlen : ((c :: u).length : Int) = u.length + 1 := by simp
    rw [hprev, hi] at hse
    rw [cons_append, ofCodeUnits_cons]
    by_cases hc : c = lineFeed
    · subst hc
      rw [if_pos rfl, lineOffsetsFrom_lineFeed, hse]
      refine ⟨(i + 1 : Int) :: starts, _ :: ends, rfl, by simp [hls], by simp [hle], fun d => ?_⟩
      have hne : ¬ (ofCodeUnits u).lineCount + 1 = 0 := by omega
      simp only [getLast?_cons_cons, hlast, if_neg hne]
      split_ifs with hz
      · have := columnCount_of_lineCount_eq_zero hz
        congr 1
        omega
      · rw [hlen]
        push_cast
        congr 1
        ring
    · rw [if_neg hc, lineOffsetsFrom_of_ne i previous hc, hse]
      refine ⟨starts, ends, rfl, ?_, ?_, fun d => ?_⟩
      · split_ifs <;> simp [*]
      · split_ifs <;> simp [*]
      · rw [hlast]
        by_cases hz : (ofCodeUnits u).lineCount = 0
        · simp only [hz, if_true]
        · simp only [hz, if_false, hlen, Option.some.injEq]
          push_cast
          ring

theorem lineOffsetsFrom_end (i : Nat) (previous : Option CodeUnit) (v : JsString) :
    ∃ (e : Int) (ends : List Int), (lineOffsetsFrom i previous v).2 = e :: ends ∧
      (¬ (previous = some carriageReturn ∧ v.head? = some lineFeed) → i ≤ e) ∧
      (previous = some carriageReturn ∧ v.head? = some lineFeed → e = i - 1) := by
  induction v generalizing i previous with
  | nil => exact ⟨i, [], rfl, fun _ => le_rfl, by simp⟩
  | cons c v ih =>
    by_cases hc : c = lineFeed
    · subst hc
      rw [lineOffsetsFrom_lineFeed]
      refine ⟨_, _, rfl, fun h => ?_, fun h => if_pos h.1⟩
      rw [if_neg fun hp => h ⟨hp, rfl⟩]
    · rw [lineOffsetsFrom_of_ne i previous hc]
      obtain ⟨e, ends, he, hle, heq⟩ := ih (i + 1) (some c)
      refine ⟨e, ends, he, fun _ => ?_, fun h => absurd (Option.some.inj h.2) hc⟩
      by_cases hbetween : some c = some carriageReturn ∧ v.head? = some lineFeed
      · have := heq hbetween
        omega
      · have := hle hbetween
        omega

variable (t : StringText) {u v : JsString}

theorem offsetAt_append (starts rest : List Int) (x : Int) :
    offsetAt (starts ++ x :: rest) starts.length = x := by
  simp [offsetAt]

theorem lineStart_eq (h : t.value = u ++ v) :
    offsetAt t.lineStartOffsetByLineIdx (ofCodeUnits u).lineCount =
      u.length - (ofCodeUnits u).columnCount := by
  obtain ⟨starts, ends, hse, hls, -, hlast⟩ := lineOffsetsFrom_append 0 none u v
  obtain ⟨init, hinit⟩ := getLast?_eq_some_iff.mp (hlast 0)
  have hlen : (init.length : Int) = (ofCodeUnits u).lineCount := by
    have := congrArg List.length hinit
    simp at this
    omega
  rw [lineStartOffsetByLineIdx, h, hse, ← cons_append, hinit, append_assoc, singleton_append, ← hlen, offsetAt_append]
  split_ifs with hz
  · rw [columnCount_of_lineCount_eq_zero (by omega)]
    ring
  · push_cast
    ring

theorem lineEnd_spec (h : t.value = u ++ v) :
    ((u.getLast? = some carriageReturn ∧ v.head? = some lineFeed) →
      offsetAt t.lineEndOffsetByLineIdx (ofCodeUnits u).lineCount = u.length - 1) ∧
    (¬ (u.getLast? = some carriageReturn ∧ v.head? = some lineFeed) →
      u.length ≤ offsetAt t.lineEndOffsetByLineIdx (ofCodeUnits u).lineCount) := by
  obtain ⟨starts, ends, hse, -, hle, -⟩ := lineOffsetsFrom_append 0 none u v
  obtain ⟨e, ends', he, hge, heq⟩ := lineOffsetsFrom_end (0 + u.length) (u.getLast?.or none) v
  rw [lineEndOffsetByLineIdx, h, hse, he, ← hle, offsetAt_append]
  simp only [Option.or_none, Nat.zero_add] at hge heq
  exact ⟨heq, hge⟩

theorem length_eq : t.length = ofCodeUnits t.value := by
  obtain ⟨starts, ends, hse, hls, -, -⟩ := lineOffsetsFrom_append 0 none t.value []
  have hstart := lineStart_eq t (u := t.value) (v := []) (by simp)
  rw [append_nil] at hse
  have hcount : (t.lineStartOffsetByLineIdx.length : Int) - 1 = (ofCodeUnits t.value).lineCount := by
    rw [lineStartOffsetByLineIdx, hse, ← hls]
    simp [lineOffsetsFrom]
  rw [length, hcount, hstart, sub_sub_cancel]

theorem endPositionExclusive_eq : t.endPositionExclusive = positionAt t.value t.value.length := by
  rw [endPositionExclusive, length_eq, positionAt, endPosition, Int.toNat_natCast, take_length]

theorem exists_prefix (i : Nat) (previous : Option CodeUnit) (v : JsString) (n : Nat) (d c : Int)
    (hn : n < (d :: (lineOffsetsFrom i previous v).1).length) (hc : 0 ≤ c)
    (hge : n = 0 → i ≤ d + c)
    (hle : (d :: (lineOffsetsFrom i previous v).1).getD n 0 + c ≤ (lineOffsetsFrom i previous v).2.getD n 0) :
    ∃ u w, v = u ++ w ∧ (ofCodeUnits u).lineCount = n ∧
      i + u.length = (d :: (lineOffsetsFrom i previous v).1).getD n 0 + c := by
  induction v generalizing i previous n d with
  | nil =>
    obtain rfl : n = 0 := by simpa [lineOffsetsFrom] using hn
    refine ⟨[], [], rfl, rfl, ?_⟩
    simp [lineOffsetsFrom] at hle hge ⊢
    omega
  | cons x v ih =>
    by_cases hstop : n = 0 ∧ d + c = i
    · obtain ⟨rfl, hstop⟩ := hstop
      exact ⟨[], x :: v, rfl, rfl, by simp [hstop]⟩
    by_cases hx : x = lineFeed
    · subst hx
      rw [lineOffsetsFrom_lineFeed] at hn hle ⊢
      cases n with
      | zero =>
        simp only [getD_cons_zero] at hle
        have := hge rfl
        split_ifs at hle <;> omega
      | succ n =>
        simp only [getD_cons_succ, length_cons, Nat.add_lt_add_iff_right] at hn hle ⊢
        obtain ⟨u, w, hv, hlines, hlen⟩ := ih (i + 1) (some lineFeed) n (i + 1) hn (fun _ => by push_cast; omega) hle
        refine ⟨lineFeed :: u, w, by rw [hv]; rfl, ?_, ?_⟩
        · rw [ofCodeUnits_cons, if_pos rfl, hlines]
          push_cast
          rfl
        · rw [← hlen, length_cons]
          push_cast
          ring
    · rw [lineOffsetsFrom_of_ne i previous hx] at hn hle ⊢
      obtain ⟨u, w, hv, hlines, hlen⟩ := ih (i + 1) (some x) n d hn (fun h => by have := hge h; push_cast; omega) hle
      refine ⟨x :: u, w, by rw [hv]; rfl, ?_, ?_⟩
      · rw [ofCodeUnits_cons, if_neg hx]
        split_ifs with hz
        · rw [← hlines, hz]
        · exact hlines
      · rw [← hlen, length_cons]
        push_cast
        ring

theorem getOffset_positionAt {k : Int} (h : ValidOffset t.value k) :
    t.validatePosition (positionAt t.value k) = positionAt t.value k ∧
      t.getOffset (positionAt t.value k) = k := by
  obtain ⟨h0, hk, hbetween⟩ := h
  have hsplit : t.value = t.value.take k.toNat ++ t.value.drop k.toNat := (take_append_drop ..).symm
  have hstart := lineStart_eq t hsplit
  have hend := (lineEnd_spec t hsplit).2 hbetween
  have hnonneg := ofCodeUnits_nonneg (t.value.take k.toNat)
  have hlen : ((t.value.take k.toNat).length : Int) = k := by
    rw [length_take]
    omega
  have hcount : (ofCodeUnits (t.value.take k.toNat)).lineCount ≤ t.length.lineCount := by
    have hrest := ofCodeUnits_nonneg (t.value.drop k.toNat)
    rw [length_eq, hsplit, ofCodeUnits_append, ← hsplit, add]
    split_ifs <;> simp only <;> omega
  have hvalid : t.validatePosition (positionAt t.value k) = positionAt t.value k := by
    rw [positionAt, endPosition_eq]
    simp only [validatePosition, getLineLength, add_sub_cancel_right, hstart]
    rw [if_neg (by omega), if_neg (by omega), if_neg (by omega), if_neg (by omega)]
  refine ⟨hvalid, ?_⟩
  rw [getOffset, hvalid, positionAt, endPosition_eq]
  simp only [add_sub_cancel_right, hstart]
  omega

theorem validatePosition_eq_self_iff (p : Position) : t.validatePosition p = p ↔
    1 ≤ p.lineNumber ∧ p.lineNumber ≤ t.length.lineCount + 1 ∧ 1 ≤ p.column ∧
      p.column - 1 ≤ t.getLineLength p.lineNumber := by
  obtain ⟨line, column⟩ := p
  simp only [validatePosition]
  split_ifs <;> simp <;> omega

theorem exists_offset {p : Position} (h : t.validatePosition p = p) :
    ∃ k, ValidOffset t.value k ∧ p = positionAt t.value k := by
  obtain ⟨hline, hcount, hcolumn, hlength⟩ := (t.validatePosition_eq_self_iff p).mp h
  have hn : ((p.lineNumber - 1).toNat : Int) = p.lineNumber - 1 := by omega
  have hlt : (p.lineNumber - 1).toNat < t.lineStartOffsetByLineIdx.length := by
    rw [length] at hcount
    simp only at hcount
    omega
  rw [getLineLength, offsetAt, offsetAt] at hlength
  obtain ⟨u, w, hsplit, hlines, hlen⟩ := exists_prefix 0 none t.value (p.lineNumber - 1).toNat 0
    (p.column - 1) hlt (by omega) (fun _ => by push_cast; omega) (by
      rw [lineStartOffsetByLineIdx, lineEndOffsetByLineIdx] at hlength
      omega)
  have hstart := lineStart_eq t hsplit
  have hend := (lineEnd_spec t hsplit).1
  rw [hlines, offsetAt, Int.toNat_natCast] at hstart hend
  rw [← lineStartOffsetByLineIdx, hstart] at hlen
  have htake : t.value.take u.length = u := by rw [hsplit, take_left]
  have hdrop : t.value.drop u.length = w := by rw [hsplit, drop_left]
  refine ⟨u.length, ⟨by omega, by rw [hsplit, length_append]; omega, ?_⟩, ?_⟩
  · rw [Int.toNat_natCast, htake, hdrop]
    intro hbetween
    have := hend hbetween
    omega
  · rw [positionAt, Int.toNat_natCast, htake, endPosition_eq, hlines, hn]
    obtain ⟨line, column⟩ := p
    simp only [Position.mk.injEq] at hlen ⊢
    omega

end LineOffsets

end StringText

end Gavea.Core
