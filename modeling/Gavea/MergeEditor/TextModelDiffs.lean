import Gavea.MergeEditor.AutoMerge
import Gavea.Lib.HunkEdits

namespace Gavea.MergeEditor

open Gavea.Core Lib.Js List

/-- `splitLines`: the parts between `\r\n`, `\r` and `\n`. -/
def splitLines : JsString → Lines
  | [] => [[]]
  | [c] => if c = lineFeed ∨ c = carriageReturn then [[], []] else [[c]]
  | c :: d :: rest =>
    if c = carriageReturn ∧ d = lineFeed then [] :: splitLines rest
    else if c = lineFeed ∨ c = carriageReturn then [] :: splitLines (d :: rest)
    else (splitLines (d :: rest)).modifyHead (c :: ·)

def isHighSurrogate (charCode : CodeUnit) : Bool := 0xD800 ≤ charCode && charCode ≤ 0xDBFF

/-- A column of a range. No line is as long as `Number.MAX_SAFE_INTEGER`. -/
inductive Column
  | nth (column : Int)
  | maxSafeInteger

def Column.isBefore : Column → Column → Bool
  | nth a, nth b => a < b
  | nth _, maxSafeInteger => true
  | maxSafeInteger, _ => false

structure RawRange where
  startLineNumber : Int
  startColumn : Column
  endLineNumber : Int
  endColumn : Column

def RawRange.new (startLineNumber : Int) (startColumn : Column) (endLineNumber : Int)
    (endColumn : Column) : RawRange :=
  if endLineNumber < startLineNumber ∨
      startLineNumber = endLineNumber ∧ endColumn.isBefore startColumn then
    ⟨endLineNumber, endColumn, startLineNumber, startColumn⟩
  else ⟨startLineNumber, startColumn, endLineNumber, endColumn⟩

def RawRange.ofRange (r : Range) : RawRange :=
  ⟨r.startLineNumber, .nth r.startColumn, r.endLineNumber, .nth r.endColumn⟩

def getLineContent (text : Lines) (lineNumber : Int) : JsString := text.getD (lineNumber - 1).toNat []

def getLineMaxColumn (text : Lines) (lineNumber : Int) : Int := (getLineContent text lineNumber).length + 1

def validatePosition (text : Lines) (lineNumber : Int) (column : Column) : Position :=
  if lineNumber < 1 then ⟨1, 1⟩
  else if text.length < lineNumber then ⟨text.length, getLineMaxColumn text text.length⟩
  else
    let maxColumn := getLineMaxColumn text lineNumber
    match column with
    | .nth c => ⟨lineNumber, if c ≤ 1 then 1 else if maxColumn ≤ c then maxColumn else c⟩
    | .maxSafeInteger => ⟨lineNumber, maxColumn⟩

def isAfterHighSurrogate (text : Lines) (p : Position) : Bool :=
  1 < p.column && ((getLineContent text p.lineNumber)[(p.column - 2).toNat]?).any isHighSurrogate

/-- `validateRange`: no end of the range is inside a surrogate pair. The start counts as inside
one behind any high surrogate, the end only in front of another character. -/
def validateRange (text : Lines) (range : RawRange) : Range :=
  let start := validatePosition text range.startLineNumber range.startColumn
  let stop := validatePosition text range.endLineNumber range.endColumn
  let startInsideSurrogatePair := isAfterHighSurrogate text start
  let endInsideSurrogatePair :=
    stop.column ≤ (getLineContent text stop.lineNumber).length && isAfterHighSurrogate text stop
  if !startInsideSurrogatePair && !endInsideSurrogatePair then
    Range.new start.lineNumber start.column stop.lineNumber stop.column
  else if start = stop then
    Range.new start.lineNumber (start.column - 1) stop.lineNumber (stop.column - 1)
  else if startInsideSurrogatePair && endInsideSurrogatePair then
    Range.new start.lineNumber (start.column - 1) stop.lineNumber (stop.column + 1)
  else if startInsideSurrogatePair then
    Range.new start.lineNumber (start.column - 1) stop.lineNumber stop.column
  else Range.new start.lineNumber start.column stop.lineNumber (stop.column + 1)

def textBefore (text : Lines) (p : Position) : JsString := (getLineContent text p.lineNumber).take (p.column - 1).toNat

def textAfter (text : Lines) (p : Position) : JsString := (getLineContent text p.lineNumber).drop (p.column - 1).toNat

def getValueInRange (eol : JsString) (text : Lines) (range : Range) : JsString :=
  let r := validateRange text (.ofRange range)
  if r.startLineNumber = r.endLineNumber then
    (textBefore text r.getEndPosition).drop (r.startColumn - 1).toNat
  else
    let inner := (text.take (r.endLineNumber - 1).toNat).drop r.startLineNumber.toNat
    textAfter text r.getStartPosition ++ eol ++ (inner.flatMap fun line => line ++ eol) ++
      textBefore text r.getEndPosition

structure SingleEdit where
  range : RawRange
  text : JsString

/-- `pushEditOperations` for one edit, while no line waits for its automatic whitespace to be
trimmed. -/
def applyEdit (text : Lines) (e : SingleEdit) : Lines :=
  let r := validateRange text e.range
  text.take (r.startLineNumber - 1).toNat ++
    splitLines (textBefore text r.getStartPosition ++ e.text ++ textAfter text r.getEndPosition) ++
      text.drop r.endLineNumber.toNat

def applyEdits (text : Lines) (edits : List SingleEdit) : Lines := edits.foldl applyEdit text

def LineRangeEdit.toEdit (modelLineCount : Int) (e : LineRangeEdit) : SingleEdit :=
  if e.range.endLineNumberExclusive ≤ modelLineCount then
    ⟨.new e.range.startLineNumber (.nth 1) e.range.endLineNumberExclusive (.nth 1),
      e.newLines.flatMap fun s => s ++ [lineFeed]⟩
  else if e.range.startLineNumber = 1 then
    ⟨.new 1 (.nth 1) modelLineCount .maxSafeInteger, (e.newLines.intersperse [lineFeed]).flatten⟩
  else
    ⟨.new (e.range.startLineNumber - 1) .maxSafeInteger modelLineCount .maxSafeInteger,
      e.newLines.flatMap fun s => lineFeed :: s⟩

def LineEdits.toEdits (edits : List LineRangeEdit) (modelLineCount : Int) : List SingleEdit :=
  edits.map (LineRangeEdit.toEdit modelLineCount)

def LineRangeEdit.toEdits (e : LineRangeEdit) (modelLineCount : Int) : List SingleEdit :=
  LineEdits.toEdits [e] modelLineCount

def NoLineBreak (line : JsString) : Prop := lineFeed ∉ line ∧ carriageReturn ∉ line

structure IsText (text : Lines) : Prop where
  ne_nil : text ≠ []
  noLineBreak : ∀ line ∈ text, NoLineBreak line

@[simp] theorem splitLines_nil : splitLines [] = [[]] := rfl

theorem splitLines_cons {c : CodeUnit} (hc : c ≠ lineFeed ∧ c ≠ carriageReturn) (s : JsString) :
    splitLines (c :: s) = (splitLines s).modifyHead (c :: ·) := by
  cases s with
  | nil => simp [splitLines, hc]
  | cons d rest => simp [splitLines, hc]

theorem splitLines_lineFeed (s : JsString) :
    splitLines (lineFeed :: s) = [] :: splitLines s := by
  cases s with
  | nil => rfl
  | cons d rest =>
    have hne : lineFeed ≠ carriageReturn := by decide
    simp [splitLines, hne]

theorem splitLines_ne_nil (s : JsString) : splitLines s ≠ [] := by
  fun_induction splitLines s with
  | case1 => simp
  | case2 => simp
  | case3 => simp
  | case4 => simp
  | case5 => simp
  | case6 c d rest _ _ ih =>
    cases h : splitLines (d :: rest) with
    | nil => exact absurd h ih
    | cons l ls => simp

theorem splitLines_append {line : JsString} (h : NoLineBreak line) (s : JsString) :
    splitLines (line ++ s) = (splitLines s).modifyHead (line ++ ·) := by
  induction line with
  | nil =>
    cases hs : splitLines s with
    | nil => exact absurd hs (splitLines_ne_nil s)
    | cons l ls => simpa using hs
  | cons c line ih =>
    have hc : c ≠ lineFeed ∧ c ≠ carriageReturn :=
      ⟨fun heq => h.1 (heq ▸ mem_cons_self), fun heq => h.2 (heq ▸ mem_cons_self)⟩
    have hline : NoLineBreak line := ⟨fun hm => h.1 (mem_cons_of_mem c hm), fun hm => h.2 (mem_cons_of_mem c hm)⟩
    rw [cons_append, splitLines_cons hc, ih hline]
    cases splitLines s with
    | nil => rfl
    | cons l ls => rfl

theorem splitLines_of_noLineBreak {line : JsString} (h : NoLineBreak line) :
    splitLines line = [line] := by
  have happend := splitLines_append h []
  rwa [append_nil, splitLines_nil, modifyHead_cons, append_nil] at happend

theorem splitLines_line {line : JsString} (h : NoLineBreak line) (s : JsString) :
    splitLines (line ++ lineFeed :: s) = line :: splitLines s := by
  rw [splitLines_append h, splitLines_lineFeed, modifyHead_cons, append_nil]

theorem splitLines_flatMap_append {lines : Lines} (h : ∀ line ∈ lines, NoLineBreak line)
    (s : JsString) :
    splitLines (lines.flatMap (fun line => line ++ [lineFeed]) ++ s) = lines ++ splitLines s := by
  induction lines with
  | nil => rfl
  | cons line lines ih =>
    rw [flatMap_cons, append_assoc, append_assoc, singleton_append, splitLines_line (h line mem_cons_self),
      ih fun l hl => h l (mem_cons_of_mem line hl), cons_append]

theorem splitLines_append_flatMap {lines : Lines} (h : ∀ line ∈ lines, NoLineBreak line)
    {first : JsString} (hfirst : NoLineBreak first) :
    splitLines (first ++ lines.flatMap fun line => lineFeed :: line) = first :: lines := by
  induction lines generalizing first with
  | nil => rw [flatMap_nil, append_nil, splitLines_of_noLineBreak hfirst]
  | cons line lines ih =>
    rw [flatMap_cons, cons_append, splitLines_line hfirst,
      ih (fun l hl => h l (mem_cons_of_mem line hl)) (h line mem_cons_self)]

theorem splitLines_intersperse {lines : Lines} (h : ∀ line ∈ lines, NoLineBreak line)
    (hne : lines ≠ []) : splitLines (lines.intersperse [lineFeed]).flatten = lines := by
  induction lines with
  | nil => exact absurd rfl hne
  | cons line lines ih =>
    cases lines with
    | nil =>
      rw [intersperse_singleton, flatten_cons, flatten_nil, append_nil,
        splitLines_of_noLineBreak (h line mem_cons_self)]
    | cons next lines =>
      rw [intersperse_cons_cons, flatten_cons, flatten_cons, singleton_append, splitLines_line (h line mem_cons_self),
        ih (fun l hl => h l (mem_cons_of_mem line hl)) (cons_ne_nil next lines)]

theorem noLineBreak_of_mem_splitLines (s : JsString) : ∀ line ∈ splitLines s, NoLineBreak line := by
  have hnil : NoLineBreak [] := ⟨not_mem_nil, not_mem_nil⟩
  fun_induction splitLines s with
  | case1 => simpa using hnil
  | case2 => simpa using hnil
  | case3 c hc =>
    rw [not_or] at hc
    simpa [NoLineBreak, eq_comm] using hc
  | case4 c d rest hcd ih => simpa using ⟨hnil, ih⟩
  | case5 c d rest _ hc ih => simpa using ⟨hnil, ih⟩
  | case6 c d rest _ hc ih =>
    rw [not_or] at hc
    cases hs : splitLines (d :: rest) with
    | nil => exact absurd hs (splitLines_ne_nil _)
    | cons l ls =>
      rw [hs] at ih
      rw [modifyHead_cons]
      intro line hline
      rcases mem_cons.mp hline with rfl | hline
      · obtain ⟨h1, h2⟩ := ih l mem_cons_self
        simp [NoLineBreak, h1, h2, Ne.symm hc.1, Ne.symm hc.2]
      · exact ih line (mem_cons_of_mem l hline)

def endsWithHighSurrogate (line : JsString) : Bool := line.getLast?.any isHighSurrogate

def LineRange.IsClear (text : Lines) (r : LineRange) : Prop :=
  r.endLineNumberExclusive ≤ text.length ∨ r.startLineNumber = 1 ∨
    endsWithHighSurrogate (getLineContent text (r.startLineNumber - 1)) = false

instance (text : Lines) (r : LineRange) : Decidable (r.IsClear text) := inferInstanceAs (Decidable (_ ∨ _ ∨ _))

def LineRangeEdit.apply (e : LineRangeEdit) (text : Lines) : Lines :=
  text.take (e.range.startLineNumber - 1).toNat ++ (e.newLines ++ text.drop (e.range.endLineNumberExclusive - 1).toNat)

theorem RawRange.new_eq {a b : Int} {c d : Column} (h : a < b ∨ a = b ∧ d.isBefore c = false) :
    RawRange.new a c b d = ⟨a, c, b, d⟩ := by
  rw [RawRange.new, if_neg]
  rintro (hlt | ⟨rfl, hlt⟩)
  · omega
  · simp_all

theorem validatePosition_first {text : Lines} {lineNumber : Int} (h1 : 1 ≤ lineNumber)
    (h2 : lineNumber ≤ text.length) : validatePosition text lineNumber (.nth 1) = ⟨lineNumber, 1⟩ := by
  rw [validatePosition, if_neg (by omega), if_neg (by omega)]
  rfl

theorem validatePosition_last {text : Lines} {lineNumber : Int} (h1 : 1 ≤ lineNumber)
    (h2 : lineNumber ≤ text.length) : validatePosition text lineNumber .maxSafeInteger =
      ⟨lineNumber, getLineMaxColumn text lineNumber⟩ := by
  rw [validatePosition, if_neg (by omega), if_neg (by omega)]

theorem isAfterHighSurrogate_last (text : Lines) (lineNumber : Int) :
    isAfterHighSurrogate text ⟨lineNumber, getLineMaxColumn text lineNumber⟩ =
      endsWithHighSurrogate (getLineContent text lineNumber) := by
  rw [isAfterHighSurrogate, endsWithHighSurrogate, getLineMaxColumn, getLast?_eq_getElem?]
  dsimp only
  rcases Nat.eq_zero_or_pos (getLineContent text lineNumber).length with hzero | hpos
  · rw [length_eq_zero_iff] at hzero
    rw [hzero]
    rfl
  · rw [show (((getLineContent text lineNumber).length : Int) + 1 - 2).toNat =
      (getLineContent text lineNumber).length - 1 by omega]
    simp [hpos]

theorem validateRange_eq {text : Lines} {range : RawRange} {start stop : Position}
    (hstart : validatePosition text range.startLineNumber range.startColumn = start)
    (hstop : validatePosition text range.endLineNumber range.endColumn = stop)
    (hclear : isAfterHighSurrogate text start = false)
    (hend : stop.column = 1 ∨ stop.column = getLineMaxColumn text stop.lineNumber) :
    validateRange text range =
      Range.new start.lineNumber start.column stop.lineNumber stop.column := by
  have hinside : (decide (stop.column ≤ (getLineContent text stop.lineNumber).length) &&
      isAfterHighSurrogate text stop) = false := by
    rcases hend with hend | hend
    · rw [isAfterHighSurrogate, hend]
      simp
    · rw [hend, getLineMaxColumn, decide_eq_false (by omega), Bool.false_and]
  simp only [validateRange, hstart, hstop]
  rw [hclear, hinside]
  rfl

theorem applyEdit_eq {text : Lines} {e : SingleEdit} {start stop : Position}
    (hstart : validatePosition text e.range.startLineNumber e.range.startColumn = start)
    (hstop : validatePosition text e.range.endLineNumber e.range.endColumn = stop)
    (hclear : isAfterHighSurrogate text start = false)
    (hend : stop.column = 1 ∨ stop.column = getLineMaxColumn text stop.lineNumber)
    (hle : start.lineNumber < stop.lineNumber ∨ start.lineNumber = stop.lineNumber ∧ start.column ≤ stop.column) :
    applyEdit text e = text.take (start.lineNumber - 1).toNat ++
      splitLines (textBefore text start ++ e.text ++ textAfter text stop) ++
        text.drop stop.lineNumber.toNat := by
  rw [applyEdit, validateRange_eq hstart hstop hclear hend, Range.new, dif_neg (by omega)]
  rfl

@[simp] theorem textBefore_first (text : Lines) (lineNumber : Int) : textBefore text ⟨lineNumber, 1⟩ = [] := rfl

@[simp] theorem textAfter_first (text : Lines) (lineNumber : Int) :
    textAfter text ⟨lineNumber, 1⟩ = getLineContent text lineNumber := rfl

@[simp] theorem textBefore_last (text : Lines) (lineNumber : Int) :
    textBefore text ⟨lineNumber, getLineMaxColumn text lineNumber⟩ =
      getLineContent text lineNumber := by
  rw [textBefore]
  exact take_of_length_le (by simp only [getLineMaxColumn]; omega)

@[simp] theorem textAfter_last (text : Lines) (lineNumber : Int) :
    textAfter text ⟨lineNumber, getLineMaxColumn text lineNumber⟩ = [] := by
  rw [textAfter]
  exact drop_eq_nil_of_le (by simp only [getLineMaxColumn]; omega)

theorem getLineContent_eq {text : Lines} {lineNumber : Int} (h1 : 1 ≤ lineNumber)
    (h2 : lineNumber ≤ text.length) :
    ∃ line ∈ text, getLineContent text lineNumber = line ∧
      text.drop (lineNumber - 1).toNat = line :: text.drop lineNumber.toNat ∧
      text.take lineNumber.toNat = text.take (lineNumber - 1).toNat ++ [line] := by
  have hlt : (lineNumber - 1).toNat < text.length := by omega
  refine ⟨text[(lineNumber - 1).toNat], getElem_mem hlt, ?_, ?_, ?_⟩
  · rw [getLineContent, getD_eq_getElem?_getD, getElem?_eq_getElem hlt, Option.getD_some]
  · rw [drop_eq_getElem_cons hlt, show (lineNumber - 1).toNat + 1 = lineNumber.toNat by omega]
  · rw [take_append_getElem hlt, show (lineNumber - 1).toNat + 1 = lineNumber.toNat by omega]

theorem applyEdits_toEdits {text : Lines} {e : LineRangeEdit} (h : IsText text)
    (hstart : 1 ≤ e.range.startLineNumber)
    (hstop : e.range.endLineNumberExclusive ≤ text.length + 1)
    (hlines : ∀ line ∈ e.newLines, NoLineBreak line)
    (hsome : e.range.startLineNumber = 1 → e.range.endLineNumberExclusive = text.length + 1 → e.newLines ≠ [])
    (hclear : e.range.IsClear text) :
    applyEdits text (e.toEdits text.length) = e.apply text := by
  have hle := e.range.le
  have hlength : 1 ≤ text.length := length_pos_of_ne_nil h.ne_nil
  change applyEdit text (e.toEdit text.length) = _
  rw [LineRangeEdit.toEdit, LineRangeEdit.apply]
  split
  · next hinner =>
      obtain ⟨line, hmem, hcontent, hdrop, -⟩ := @getLineContent_eq text _ (by omega) hinner
      rw [RawRange.new_eq (hle.lt_or_eq.imp_right fun heq => ⟨heq, by simp [Column.isBefore]⟩), applyEdit_eq (validatePosition_first hstart (by omega))
        (validatePosition_first (by omega) hinner) rfl (.inl rfl) (by simp; omega)]
      simp only [textBefore_first, textAfter_first, nil_append]
      rw [hcontent, splitLines_flatMap_append hlines, splitLines_of_noLineBreak (h.noLineBreak line hmem), hdrop]
      simp
  · split
    · next hinner hone =>
        have hend : e.range.endLineNumberExclusive = text.length + 1 := by omega
        rw [RawRange.new_eq (by simp [Column.isBefore]; omega),
          applyEdit_eq (validatePosition_first le_rfl (by omega))
            (validatePosition_last (by omega) le_rfl) rfl (.inr rfl)
            (by simp only [getLineMaxColumn]; omega)]
        simp only [textBefore_first, textAfter_last, nil_append, append_nil]
        rw [splitLines_intersperse hlines (hsome hone hend), hone, hend, add_sub_cancel_right, append_assoc]
    · next hinner hone =>
        have hend : e.range.endLineNumberExclusive = text.length + 1 := by omega
        have hfalse : endsWithHighSurrogate
            (getLineContent text (e.range.startLineNumber - 1)) = false := by
          rcases hclear with h1 | h1 | h1
          · omega
          · exact absurd h1 hone
          · exact h1
        obtain ⟨line, hmem, hcontent, -, htake⟩ :=
          @getLineContent_eq text (e.range.startLineNumber - 1) (by omega) (by omega)
        have hbefore : validatePosition text (e.range.startLineNumber - 1) .maxSafeInteger =
            ⟨e.range.startLineNumber - 1, getLineMaxColumn text (e.range.startLineNumber - 1)⟩ :=
          validatePosition_last (by omega) (by omega)
        rw [RawRange.new_eq (by simp [Column.isBefore]; omega),
          applyEdit_eq hbefore (validatePosition_last (by omega) le_rfl)
            ((isAfterHighSurrogate_last text _).trans hfalse) (.inr rfl) ?_]
        · simp only [textBefore_last, textAfter_last, append_nil]
          rw [hcontent, splitLines_append_flatMap hlines (h.noLineBreak line hmem), htake, hend, add_sub_cancel_right]
          simp
        · rcases lt_or_eq_of_le (show e.range.startLineNumber - 1 ≤ text.length by omega) with h1 | h1
          · exact .inl h1
          · exact .inr ⟨h1, by rw [h1]⟩

open Lib.Hunks

def LineRange.toExclusiveRange (r : LineRange) : Range := Range.new r.startLineNumber 1 r.endLineNumberExclusive 1

def RangeMapping.addOutputLineDelta (m : RangeMapping) (deltaLines : Int) : RangeMapping :=
  ⟨m.inputRange, Range.new (m.outputRange.startLineNumber + deltaLines) m.outputRange.startColumn
    (m.outputRange.endLineNumber + deltaLines) m.outputRange.endColumn⟩

namespace DetailedLineRangeMapping

def ofRanges (inputRange outputRange : LineRange) : DetailedLineRangeMapping :=
  ⟨⟨inputRange, outputRange⟩, [⟨inputRange.toExclusiveRange, outputRange.toExclusiveRange⟩]⟩

def join (m other : DetailedLineRangeMapping) : DetailedLineRangeMapping :=
  ofRanges (m.inputRange.join other.inputRange) (m.outputRange.join other.outputRange)

def joinAll : List DetailedLineRangeMapping → Option DetailedLineRangeMapping
  | [] => none
  | m :: ms => some (ms.foldl join m)

def addOutputLineDelta (m : DetailedLineRangeMapping) (delta : Int) : DetailedLineRangeMapping :=
  ⟨m.toLineRangeMapping.addOutputLineDelta delta, m.rangeMappings.map fun d => d.addOutputLineDelta delta⟩

end DetailedLineRangeMapping

structure TextModelDiffs where
  baseTextModel : Lines
  textModel : Lines
  diffs : List DetailedLineRangeMapping

namespace TextModelDiffs

def StartsNoLater (a b : DetailedLineRangeMapping) : Prop := a.inputRange.startLineNumber ≤ b.inputRange.startLineNumber

instance : DecidableRel StartsNoLater := fun _ _ => inferInstanceAs (Decidable (_ ≤ _))

def revert (baseTextModel textModel : Lines) (diffToRemove : DetailedLineRangeMapping) :
    Except MergeEditorError Lines :=
  (diffToRemove.getReverseLineEdit baseTextModel).map fun edit => applyEdits textModel (edit.toEdits textModel.length)

def remainingDiffs (toRemove : List DetailedLineRangeMapping) :
    Int → List DetailedLineRangeMapping → List DetailedLineRangeMapping
  | _, [] => []
  | cumulativeDelta, d :: ds =>
    if d ∈ toRemove then
      remainingDiffs toRemove (cumulativeDelta + (d.inputRange.length - d.outputRange.length)) ds
    else
      (if cumulativeDelta ≠ 0 then d.addOutputLineDelta cumulativeDelta else d) ::
        remainingDiffs toRemove cumulativeDelta ds

def removeDiffs (m : TextModelDiffs) (diffToRemoves : List DetailedLineRangeMapping) :
    Except MergeEditorError TextModelDiffs :=
  let bottomUp := (diffToRemoves.insertionSort StartsNoLater).reverse
  if bottomUp.Nodup ∧ ∀ d ∈ bottomUp, d ∈ m.diffs then
    (bottomUp.foldlM (revert m.baseTextModel) m.textModel).map fun textModel =>
      { m with textModel, diffs := remainingDiffs bottomUp 0 m.diffs }
  else .error .unknownDiff

structure Insertion where
  firstAfter : Bool
  delta : Int
  newDiffs : List DetailedLineRangeMapping

namespace Insertion

def editMapping (edit : LineRangeEdit) : DetailedLineRangeMapping :=
  .ofRanges edit.range ⟨edit.range.startLineNumber, edit.range.startLineNumber + edit.newLines.length,
    by omega⟩

def pushEdit (edit : LineRangeEdit) (s : Insertion) : Insertion :=
  if s.firstAfter then s
  else { s with
    firstAfter := true
    newDiffs := s.newDiffs ++ [(editMapping edit).addOutputLineDelta s.delta] }

def step (edit : LineRangeEdit) (s : Insertion) (diff : DetailedLineRangeMapping) :
    Except MergeEditorError Insertion :=
  if diff.inputRange.intersectsOrTouches edit.range then .error .conflictingEdit
  else
    let s :=
      if diff.inputRange.isAfter edit.range then
        let s := s.pushEdit edit
        { s with newDiffs := s.newDiffs ++ [diff.addOutputLineDelta (edit.newLines.length - edit.range.length)] }
      else { s with newDiffs := s.newDiffs ++ [diff] }
    .ok (if s.firstAfter then s
      else { s with delta := s.delta + (diff.outputRange.length - diff.inputRange.length) })

end Insertion

def applyEditRelativeToOriginal (m : TextModelDiffs) (edit : LineRangeEdit) :
    Except MergeEditorError TextModelDiffs := do
  let s ← m.diffs.foldlM (Insertion.step edit) ⟨false, 0, []⟩
  let s := s.pushEdit edit
  let edits := LineRangeEdit.toEdits ⟨edit.range.delta s.delta, edit.newLines⟩ m.textModel.length
  .ok { m with textModel := applyEdits m.textModel edits, diffs := s.newDiffs }

def findTouchingDiffs (m : TextModelDiffs) (baseRange : LineRange) : List DetailedLineRangeMapping :=
  m.diffs.filter fun d => d.inputRange.intersectsOrTouches baseRange

def getResultLine (lineNumber : Int) :
    Int → List DetailedLineRangeMapping → Int ⊕ DetailedLineRangeMapping
  | offset, [] => .inl (lineNumber + offset)
  | offset, diff :: diffs =>
    if diff.inputRange.contains lineNumber || diff.inputRange.endLineNumberExclusive = lineNumber then
      .inr diff
    else if diff.inputRange.endLineNumberExclusive < lineNumber then
      getResultLine lineNumber diff.resultingDeltaFromOriginalToModified diffs
    else .inl (lineNumber + offset)

def getResultLineRange (m : TextModelDiffs) (baseRange : LineRange) :
    Except MergeEditorError LineRange :=
  let start := (getResultLine baseRange.startLineNumber 0 m.diffs).elim id
    fun diff => diff.outputRange.startLineNumber
  let endExclusive := (getResultLine baseRange.endLineNumberExclusive 0 m.diffs).elim id
    fun diff => diff.outputRange.endLineNumberExclusive
  LineRange.fromLineNumbers start endExclusive

end TextModelDiffs

end Gavea.MergeEditor
