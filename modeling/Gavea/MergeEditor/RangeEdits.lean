import Gavea.MergeEditor.DiffEdits

namespace Gavea.MergeEditor

open Gavea.Core Lib.Js

inductive ModifiedBaseRangeState
  | base
  | input1
  | input2
  | both (firstInput : InputNumber) (smartCombination : Bool)
  | unrecognized

namespace ModifiedBaseRangeState

def includesInput1 : ModifiedBaseRangeState → Bool
  | input1 => true
  | both _ _ => true
  | _ => false

def includesInput2 : ModifiedBaseRangeState → Bool
  | input2 => true
  | both _ _ => true
  | _ => false

def ofInput : InputNumber → ModifiedBaseRangeState
  | .input1 => input1
  | .input2 => input2

def withInputValue : ModifiedBaseRangeState → InputNumber → Bool → Bool → ModifiedBaseRangeState
  | base, inputNumber, true, _ => ofInput inputNumber
  | base, _, false, _ => base
  | input1, .input1, value, _ => if value then input1 else base
  | input1, .input2, value, smartCombination => if value then both .input1 smartCombination else input2
  | input2, .input2, value, _ => if value then input2 else base
  | input2, .input1, value, smartCombination => if value then both .input2 smartCombination else input2
  | both firstInput smart, _, true, _ => both firstInput smart
  | both _ _, inputNumber, false, _ => ofInput inputNumber.other
  | unrecognized, inputNumber, true, _ => ofInput inputNumber
  | unrecognized, _, false, _ => unrecognized

end ModifiedBaseRangeState

structure MergeModels extends MergeTexts where
  baseEol : JsString
  inputEol : InputNumber → JsString

namespace MergeModels

def getBaseValueInRange (models : MergeModels) (range : Range) : JsString :=
  getValueInRange models.baseEol models.base range

def getInputValueInRange (models : MergeModels) (input : InputNumber) (range : Range) : JsString :=
  getValueInRange (models.inputEol input) (models.toMergeTexts.input input) range

end MergeModels

structure RangeEdit where
  range : Range
  newText : JsString

def maxSafeSmallInteger : Int := 2 ^ 30

def appendEdits (models : MergeModels) : Position → JsString → List RangeEdit →
    Option (Position × JsString)
  | currentPosition, text, [] => some (currentPosition, text)
  | currentPosition, text, edit :: edits =>
    let diffStart := edit.range.getStartPosition
    if currentPosition.isBeforeOrEqual diffStart then
      let originalText := models.getBaseValueInRange (Range.fromPositions currentPosition diffStart)
      -- the virtual line break behind the last line
      let originalText :=
        if diffStart.lineNumber > models.base.length then originalText ++ [lineFeed]
        else originalText
      appendEdits models edit.range.getEndPosition (text ++ originalText ++ edit.newText) edits
    else none

/-- Takes the empty line away that stands for the line break in front of the range. -/
def shiftEmpty : Lines → Option Lines
  | [] :: lines => some lines
  | _ => none

/-- Takes the empty line away that stands for the line break at the end of the range. -/
def popEmpty (lines : Lines) : Option Lines := if lines.getLast? = some [] then some lines.dropLast else none

def editStart (models : MergeModels) (range : LineRange) : Position :=
  if range.startLineNumber > 1 then
    ⟨range.startLineNumber - 1, getLineMaxColumn models.base (range.startLineNumber - 1)⟩
  else ⟨range.startLineNumber, 1⟩

def editEnd (models : MergeModels) (range : LineRange) : Position :=
  if range.endLineNumberExclusive ≤ models.base.length then ⟨range.endLineNumberExclusive, 1⟩
  else ⟨range.endLineNumberExclusive - 1, maxSafeSmallInteger⟩

def trimLines (models : MergeModels) (range : LineRange) (lines : Lines) : Option Lines :=
  (if range.startLineNumber > 1 then shiftEmpty lines else some lines).bind fun lines =>
    if range.endLineNumberExclusive ≤ models.base.length then popEmpty lines else some lines

def editsToLineRangeEdit (models : MergeModels) (range : LineRange) (sortedEdits : List RangeEdit) :
    Option LineRangeEdit :=
  (appendEdits models (editStart models range) [] sortedEdits).bind fun (currentPosition, text) =>
    let originalText :=
      models.getBaseValueInRange (Range.fromPositions currentPosition (editEnd models range))
    (trimLines models range (splitLines (text ++ originalText))).map fun lines => ⟨range, lines⟩

namespace ModifiedBaseRange

def rangeStartsNoLater (a b : Range) : Bool :=
  if a.startLineNumber = b.startLineNumber then
    if a.startColumn = b.startColumn then
      if a.endLineNumber = b.endLineNumber then a.endColumn ≤ b.endColumn
      else a.endLineNumber < b.endLineNumber
    else a.startColumn < b.startColumn
  else a.startLineNumber < b.startLineNumber

def combinedNoLater (firstInput : InputNumber) (a b : RangeMapping × InputNumber) : Bool :=
  if a.1.inputRange = b.1.inputRange then a.2 = firstInput || b.2 ≠ firstInput
  else rangeStartsNoLater a.1.inputRange b.1.inputRange

def innerMappings (r : ModifiedBaseRange) (input : InputNumber) : List (RangeMapping × InputNumber) :=
  (r.inputDiffs input).flatMap fun diffs => diffs.rangeMappings.map fun diff => (diff, input)

def combinedDiffs (r : ModifiedBaseRange) (firstInput : InputNumber) :
    List (RangeMapping × InputNumber) :=
  (r.innerMappings .input1 ++ r.innerMappings .input2).insertionSort fun a b => combinedNoLater firstInput a b = true

def smartCombineInputs (models : MergeModels) (r : ModifiedBaseRange) (firstInput : InputNumber) :
    Option LineRangeEdit :=
  let sortedEdits := (r.combinedDiffs firstInput).map fun d =>
    (⟨d.1.inputRange, models.getInputValueInRange d.2 d.1.outputRange⟩ : RangeEdit)
  editsToLineRangeEdit models r.baseRange sortedEdits

def dumbCombineInputs (models : MergeModels) (r : ModifiedBaseRange) (firstInput : InputNumber) :
    Except MergeEditorError LineRangeEdit := do
  let input1Lines ← r.input1Range.getLines models.input1
  let input2Lines ← r.input2Range.getLines models.input2
  .ok ⟨r.baseRange, match firstInput with
    | .input1 => input1Lines ++ input2Lines
    | .input2 => input2Lines ++ input1Lines⟩

def combinedDiff (r : ModifiedBaseRange) (input : InputNumber) : Option DetailedLineRangeMapping :=
  DetailedLineRangeMapping.joinAll (r.inputDiffs input)

/-- The combined edit of both inputs, `undefined` if they cannot be combined. -/
def combineInputs (models : MergeModels) (r : ModifiedBaseRange) (firstInput : InputNumber)
    (smartCombination : Bool) : Except MergeEditorError (Option LineRangeEdit) :=
  if smartCombination then .ok (r.smartCombineInputs models firstInput)
  else (r.dumbCombineInputs models firstInput).map some

def getEditForBase (models : MergeModels) (r : ModifiedBaseRange) (state : ModifiedBaseRangeState) :
    Except MergeEditorError (Option LineRangeEdit × ModifiedBaseRangeState) :=
  let diff1 := if state.includesInput1 then r.combinedDiff .input1 else none
  let diff2 := if state.includesInput2 then r.combinedDiff .input2 else none
  match diff1, diff2 with
  | none, none => .ok (none, .base)
  | some diff, none => (diff.getLineEdit models.input1).map fun edit =>
    (some edit, ModifiedBaseRangeState.base.withInputValue .input1 true false)
  | none, some diff => (diff.getLineEdit models.input2).map fun edit =>
    (some edit, ModifiedBaseRangeState.base.withInputValue .input2 true false)
  | some diff1, some diff2 =>
    match state with
    | .both firstInput smartCombination => do
        match ← r.combineInputs models firstInput smartCombination with
        | some edit => .ok (some edit, state)
        | none =>
          let other := firstInput.other
          let edit ← match other with
            | .input1 => diff1.getLineEdit models.input1
            | .input2 => diff2.getLineEdit models.input2
          .ok (some edit, ModifiedBaseRangeState.base.withInputValue other true false)
    | _ => .error .unexpectedState

end ModifiedBaseRange

open Gavea.Core Lib.Js Lib.Hunks List

structure IsEditOf (base : Lines) (baseRange : LineRange) (edit : LineRangeEdit) : Prop where
  inside : baseRange.containsRange edit.range = true
  noLineBreak : ∀ line ∈ edit.newLines, NoLineBreak line
  ne_nil : edit.range.startLineNumber = 1 → edit.range.endLineNumberExclusive = base.length + 1 → edit.newLines ≠ []

theorem length_textIn {text : Lines} {r : LineRange} (h1 : 1 ≤ r.startLineNumber)
    (h2 : r.endLineNumberExclusive ≤ text.length + 1) :
    ((textIn text r).length : Int) = r.length := by
  have hle := r.le
  rw [textIn, length_drop, length_take, LineRange.length]
  omega

theorem IsText.textIn {text : Lines} (h : IsText text) (r : LineRange) :
    ∀ line ∈ MergeEditor.textIn text r, NoLineBreak line := fun line hline =>
  h.noLineBreak line (mem_of_mem_take (mem_of_mem_drop hline))

theorem inputRange_join (m x : DetailedLineRangeMapping) : (m.join x).inputRange = m.inputRange.join x.inputRange := rfl

theorem outputRange_join (m x : DetailedLineRangeMapping) :
    (m.join x).outputRange = m.outputRange.join x.outputRange := rfl

theorem foldl_join_spans {lo hi : Int} (ms : List DetailedLineRangeMapping)
    (m : DetailedLineRangeMapping)
    (h : ∀ d ∈ m :: ms, lo ≤ d.outputRange.startLineNumber ∧ d.outputRange.endLineNumberExclusive ≤ hi) :
    (lo ≤ (ms.foldl .join m).outputRange.startLineNumber ∧
      (ms.foldl .join m).outputRange.endLineNumberExclusive ≤ hi) ∧
      (∀ d ∈ m :: ms, (ms.foldl .join m).outputRange.containsRange d.outputRange = true) ∧
      (∃ d ∈ m :: ms, d.inputRange.startLineNumber = (ms.foldl .join m).inputRange.startLineNumber) ∧
      ∃ d ∈ m :: ms,
        d.inputRange.endLineNumberExclusive = (ms.foldl .join m).inputRange.endLineNumberExclusive := by
  induction ms generalizing m with
  | nil =>
    have hm := h m mem_cons_self
    refine ⟨hm, fun d hd => ?_, ⟨m, mem_cons_self, rfl⟩, ⟨m, mem_cons_self, rfl⟩⟩
    rw [mem_singleton.mp hd, LineRange.containsRange_iff]
    exact ⟨le_rfl, le_rfl⟩
  | cons x xs ih =>
    have hm := h m mem_cons_self
    have hx := h x (mem_cons_of_mem m mem_cons_self)
    have hjoined : lo ≤ (m.join x).outputRange.startLineNumber ∧
        (m.join x).outputRange.endLineNumberExclusive ≤ hi := by
      rw [outputRange_join, LineRange.startLineNumber_join, LineRange.endLineNumberExclusive_join]
      omega
    obtain ⟨hin, hout, ⟨a, ha, hastart⟩, ⟨b, hb, hbstop⟩⟩ := ih (m.join x)
      (forall_mem_cons.mpr ⟨hjoined, fun d hd => h d (mem_cons_of_mem m (mem_cons_of_mem x hd))⟩)
    have hcontains := hout (m.join x) mem_cons_self
    rw [LineRange.containsRange_iff, outputRange_join, LineRange.startLineNumber_join,
      LineRange.endLineNumberExclusive_join] at hcontains
    rw [foldl_cons]
    refine ⟨hin, forall_mem_cons.mpr ⟨?_, forall_mem_cons.mpr ⟨?_, fun d hd =>
      hout d (mem_cons_of_mem _ hd)⟩⟩, ?_, ?_⟩
    · rw [LineRange.containsRange_iff]
      omega
    · rw [LineRange.containsRange_iff]
      omega
    · rcases mem_cons.mp ha with rfl | ha
      · rw [← hastart]
        rcases min_choice m.inputRange.startLineNumber x.inputRange.startLineNumber with hmin | hmin
        · exact ⟨m, mem_cons_self, hmin.symm⟩
        · exact ⟨x, mem_cons_of_mem m mem_cons_self, hmin.symm⟩
      · exact ⟨a, mem_cons_of_mem m (mem_cons_of_mem x ha), hastart⟩
    · rcases mem_cons.mp hb with rfl | hb
      · rw [← hbstop]
        rcases max_choice m.inputRange.endLineNumberExclusive x.inputRange.endLineNumberExclusive
          with hmax | hmax
        · exact ⟨m, mem_cons_self, hmax.symm⟩
        · exact ⟨x, mem_cons_of_mem m mem_cons_self, hmax.symm⟩
      · exact ⟨b, mem_cons_of_mem m (mem_cons_of_mem x hb), hbstop⟩

theorem foldl_join_inside {r : LineRange} (ms : List DetailedLineRangeMapping)
    (m : DetailedLineRangeMapping) (h : ∀ d ∈ m :: ms, r.containsRange d.inputRange = true) :
    r.containsRange (ms.foldl .join m).inputRange = true := by
  induction ms generalizing m with
  | nil => exact h m mem_cons_self
  | cons x xs ih =>
    obtain ⟨hm, hrest⟩ := forall_mem_cons.mp h
    obtain ⟨hx, hxs⟩ := forall_mem_cons.mp hrest
    refine ih (m.join x) (forall_mem_cons.mpr ⟨?_, hxs⟩)
    rw [LineRange.containsRange_iff] at hm hx ⊢
    rw [inputRange_join, LineRange.startLineNumber_join, LineRange.endLineNumberExclusive_join]
    omega

theorem combinedDiff_edit {base input : Lines} {diffs ms : List DetailedLineRangeMapping}
    {m : DetailedLineRangeMapping} {r : LineRange} (h : Leads base input diffs)
    (hinput : IsText input) (hsub : ∀ d ∈ m :: ms, d ∈ diffs)
    (hinside : ∀ d ∈ m :: ms, r.containsRange d.inputRange = true) :
    ∃ edit, (ms.foldl DetailedLineRangeMapping.join m).getLineEdit input = .ok edit ∧
      IsEditOf base r edit := by
  have hbounds : ∀ d ∈ m :: ms, 1 ≤ d.outputRange.startLineNumber ∧
      d.outputRange.endLineNumberExclusive ≤ (input.length : Int) + 1 := by
    intro d hd
    obtain ⟨-, h1, -, h2⟩ := h.aligned.inside d.hunk (mem_map_of_mem (hsub d hd))
    simp only [LineRangeMapping.hunk] at h1 h2
    exact ⟨h1, by omega⟩
  obtain ⟨hin, hout, ⟨a, ha, hastart⟩, ⟨b, hb, hbstop⟩⟩ := foldl_join_spans ms m hbounds
  refine ⟨_, getLineEdit_ok hin, foldl_join_inside ms m hinside, hinput.textIn _, fun h1 h2 => ?_⟩
  have hfirst : a.outputRange.startLineNumber = 1 :=
    h.aligned.first h.apart (mem_map_of_mem (hsub a ha)) (hastart.trans h1)
  have hlast : b.outputRange.endLineNumberExclusive = 1 + input.length :=
    h.aligned.last h.apart (mem_map_of_mem (hsub b hb)) (hbstop.trans (h2.trans (add_comm _ _)))
  have hacontains := hout a ha
  have hbcontains := hout b hb
  rw [LineRange.containsRange_iff] at hacontains hbcontains
  have hpos := length_pos_of_ne_nil hinput.ne_nil
  have hlength := length_textIn hin.1 hin.2
  rw [LineRange.length] at hlength
  exact ne_nil_of_length_pos (Int.natCast_pos.mp (by rw [hlength]; omega))

theorem mem_of_shiftEmpty {lines lines' : Lines} (h : shiftEmpty lines = some lines') :
    ∀ line ∈ lines', line ∈ lines := by
  unfold shiftEmpty at h
  split at h
  · next rest =>
      obtain rfl := Option.some.inj h
      exact fun line hline => mem_cons_of_mem _ hline
  · cases h

theorem mem_of_popEmpty {lines lines' : Lines} (h : popEmpty lines = some lines') :
    ∀ line ∈ lines', line ∈ lines := by
  rw [popEmpty] at h
  split at h
  · obtain rfl := Option.some.inj h
    exact fun line hline => mem_of_mem_dropLast hline
  · cases h

theorem editsToLineRangeEdit_isEditOf {models : MergeModels} {range : LineRange}
    {sortedEdits : List RangeEdit} {edit : LineRangeEdit}
    (h : editsToLineRangeEdit models range sortedEdits = some edit) :
    IsEditOf models.base range edit := by
  obtain ⟨⟨position, text⟩, -, h⟩ := Option.bind_eq_some_iff.mp h
  obtain ⟨lines2, htrim, rfl⟩ := Option.map_eq_some_iff.mp h
  obtain ⟨lines1, h1, h2⟩ := Option.bind_eq_some_iff.mp htrim
  refine ⟨?_, ?_, fun hstart hstop => ?_⟩
  · rw [LineRange.containsRange_iff]
    exact ⟨le_rfl, le_rfl⟩
  · have hmem2 : ∀ line ∈ lines2, line ∈ lines1 := by
      split at h2
      · exact mem_of_popEmpty h2
      · obtain rfl := Option.some.inj h2
        exact fun line hline => hline
    split at h1
    · exact fun line hline => noLineBreak_of_mem_splitLines _ line (mem_of_shiftEmpty h1 line (hmem2 line hline))
    · obtain rfl := Option.some.inj h1
      exact fun line hline => noLineBreak_of_mem_splitLines _ line (hmem2 line hline)
  · rw [if_neg (by simp only at hstop; omega)] at h2
    rw [if_neg (by simp only at hstart; omega)] at h1
    obtain rfl := Option.some.inj h2
    obtain rfl := Option.some.inj h1
    exact splitLines_ne_nil _

structure IsMerge (models : MergeModels) (diffs1 diffs2 : List DetailedLineRangeMapping)
    (baseRanges : List ModifiedBaseRange) : Prop where
  base : IsText models.base
  inputs : ∀ i, IsText (models.toMergeTexts.input i)
  leads : ∀ i, Leads models.base (models.toMergeTexts.input i) (MappingAlignment.sources diffs1 diffs2 i)
  aligned : AreAligned models.toMergeTexts (MappingAlignment.sources diffs1 diffs2) baseRanges
  inBase : ∀ r ∈ baseRanges, 1 ≤ r.baseRange.startLineNumber ∧
    r.baseRange.endLineNumberExclusive ≤ models.base.length + 1

namespace IsMerge

variable {models : MergeModels} {diffs1 diffs2 : List DetailedLineRangeMapping}
  {rs : List ModifiedBaseRange} {r : ModifiedBaseRange}

theorem combinedDiff (h : IsMerge models diffs1 diffs2 rs) (hr : r ∈ rs) (i : InputNumber)
    {diff : DetailedLineRangeMapping} (hdiff : r.combinedDiff i = some diff) :
    ∃ edit, diff.getLineEdit (models.toMergeTexts.input i) = .ok edit ∧
      IsEditOf models.base r.baseRange edit := by
  have hexact := h.aligned.exact r hr i
  rw [ModifiedBaseRange.combinedDiff] at hdiff
  cases hdiffs : r.inputDiffs i with
  | nil =>
    rw [hdiffs] at hdiff
    cases hdiff
  | cons m ms =>
    rw [hdiffs] at hdiff hexact
    obtain rfl := Option.some.inj hdiff
    have hmem : ∀ d ∈ m :: ms, d ∈ (MappingAlignment.sources diffs1 diffs2 i).filter fun d =>
        r.baseRange.containsRange d.inputRange := fun d hd => hexact ▸ hd
    exact combinedDiff_edit (h.leads i) (h.inputs i)
      (fun d hd => (mem_filter.mp (hmem d hd)).1) fun d hd => (mem_filter.mp (hmem d hd)).2

theorem inputRange (h : IsMerge models diffs1 diffs2 rs) (hr : r ∈ rs) (i : InputNumber) :
    (1 ≤ (r.inputRange i).startLineNumber ∧ (r.inputRange i).endLineNumberExclusive ≤
      ((models.toMergeTexts.input i).length : Int) + 1) ∧
      (r.baseRange.startLineNumber = 1 →
        r.baseRange.endLineNumberExclusive = models.base.length + 1 →
          textIn (models.toMergeTexts.input i) (r.inputRange i) ≠ []) := by
  have hcorrect := h.aligned.correct i
  have hmem : LineRangeMapping.hunk ⟨r.baseRange, r.inputRange i⟩ ∈
      (rs.map fun r => (⟨r.baseRange, r.inputRange i⟩ : LineRangeMapping)).map LineRangeMapping.hunk :=
    mem_map_of_mem (mem_map_of_mem hr)
  obtain ⟨-, h1, -, h2⟩ := hcorrect.aligned.inside _ hmem
  simp only [LineRangeMapping.hunk] at h1 h2
  refine ⟨⟨h1, by omega⟩, fun hstart hstop => ?_⟩
  have hfirst := hcorrect.aligned.first hcorrect.apart hmem hstart
  have hlast := hcorrect.aligned.last hcorrect.apart hmem (hstop.trans (add_comm _ _))
  simp only [LineRangeMapping.hunk] at hfirst hlast
  have hpos := length_pos_of_ne_nil (h.inputs i).ne_nil
  have hlength := @length_textIn (models.toMergeTexts.input i) (r.inputRange i) h1 (by omega)
  rw [LineRange.length] at hlength
  exact ne_nil_of_length_pos (Int.natCast_pos.mp (by rw [hlength]; omega))

theorem dumbCombineInputs (h : IsMerge models diffs1 diffs2 rs) (hr : r ∈ rs)
    (firstInput : InputNumber) :
    ∃ edit, r.dumbCombineInputs models firstInput = .ok edit ∧
      IsEditOf models.base r.baseRange edit := by
  obtain ⟨h1, hne⟩ := h.inputRange hr .input1
  obtain ⟨h2, -⟩ := h.inputRange hr .input2
  have hcontains : r.baseRange.containsRange r.baseRange = true := LineRange.containsRange_iff.mpr ⟨le_rfl, le_rfl⟩
  have hlines : ∀ line ∈ textIn models.input1 r.input1Range ++ textIn models.input2 r.input2Range,
      NoLineBreak line := by
    intro line hline
    rcases mem_append.mp hline with hline | hline
    · exact (h.inputs .input1).textIn r.input1Range line hline
    · exact (h.inputs .input2).textIn r.input2Range line hline
  have hget1 : r.input1Range.getLines models.input1 = .ok (textIn models.input1 r.input1Range) := getLines_ok h1.1 h1.2
  have hget2 : r.input2Range.getLines models.input2 = .ok (textIn models.input2 r.input2Range) := getLines_ok h2.1 h2.2
  rw [ModifiedBaseRange.dumbCombineInputs, hget1, hget2]
  refine ⟨_, rfl, hcontains, ?_, fun hstart hstop => ?_⟩
  · cases firstInput with
    | input1 => exact hlines
    | input2 => exact fun line hline => hlines line (mem_append.mpr (mem_append.mp hline).symm)
  · have hne1 : textIn models.input1 r.input1Range ≠ [] := hne hstart hstop
    cases firstInput with
    | input1 => exact append_ne_nil_of_left_ne_nil hne1 _
    | input2 => exact append_ne_nil_of_right_ne_nil _ hne1

theorem combineInputs (h : IsMerge models diffs1 diffs2 rs) (hr : r ∈ rs) (firstInput : InputNumber)
    (smartCombination : Bool) :
    ∃ edit, r.combineInputs models firstInput smartCombination = .ok edit ∧
      ∀ e ∈ edit, IsEditOf models.base r.baseRange e := by
  cases smartCombination with
  | true => exact ⟨_, rfl, fun e he => editsToLineRangeEdit_isEditOf he⟩
  | false =>
    obtain ⟨edit, hedit, hok⟩ := h.dumbCombineInputs hr firstInput
    refine ⟨some edit, congrArg (Except.map some) hedit, fun e he => ?_⟩
    rwa [← Option.some.inj he]

/-- The edit for a state never throws and is an edit of its range. -/
theorem getEditForBase (h : IsMerge models diffs1 diffs2 rs) (hr : r ∈ rs)
    (state : ModifiedBaseRangeState) :
    ∃ edit effectiveState, r.getEditForBase models state = .ok (edit, effectiveState) ∧
      ∀ e ∈ edit, IsEditOf models.base r.baseRange e := by
  have hsome : ∀ {b : Bool} {i : InputNumber} {diff : DetailedLineRangeMapping},
      (if b then r.combinedDiff i else none) = some diff →
        ∃ edit, diff.getLineEdit (models.toMergeTexts.input i) = .ok edit ∧
          IsEditOf models.base r.baseRange edit := by
    intro b i diff hdiff
    cases b with
    | true => exact h.combinedDiff hr i hdiff
    | false => cases hdiff
  rw [ModifiedBaseRange.getEditForBase]
  generalize h1 : (if state.includesInput1 then r.combinedDiff .input1 else none) = diff1
  generalize h2 : (if state.includesInput2 then r.combinedDiff .input2 else none) = diff2
  cases diff1 with
  | none =>
    cases diff2 with
    | none => exact ⟨none, .base, rfl, fun e he => absurd he (Option.not_mem_none e)⟩
    | some diff2 =>
      obtain ⟨edit, hedit, hok⟩ := hsome h2
      refine ⟨some edit, _, congrArg (Except.map _) hedit, fun e he => ?_⟩
      rwa [← Option.some.inj he]
  | some diff1 =>
    obtain ⟨edit1, hedit1, hok1⟩ := hsome h1
    cases diff2 with
    | none =>
      refine ⟨some edit1, _, congrArg (Except.map _) hedit1, fun e he => ?_⟩
      rwa [← Option.some.inj he]
    | some diff2 =>
      obtain ⟨edit2, hedit2, hok2⟩ := hsome h2
      -- both diffs are there for a state of kind `both` only
      cases state with
      | base => cases h1
      | input1 => cases h2
      | input2 => cases h1
      | unrecognized => cases h1
      | both firstInput smartCombination =>
        obtain ⟨combined, hcombined, hok⟩ := h.combineInputs hr firstInput smartCombination
        dsimp only
        rw [hcombined]
        cases combined with
        | some edit =>
          refine ⟨some edit, _, rfl, fun e he => ?_⟩
          rw [← Option.some.inj he]
          exact hok edit rfl
        | none =>
          cases firstInput with
          | input1 =>
            have hget : diff2.getLineEdit models.input2 = .ok edit2 := hedit2
            simp only [bind, Except.bind, InputNumber.other]
            rw [hget]
            refine ⟨some edit2, _, rfl, fun e he => ?_⟩
            rwa [← Option.some.inj he]
          | input2 =>
            have hget : diff1.getLineEdit models.input1 = .ok edit1 := hedit1
            simp only [bind, Except.bind, InputNumber.other]
            rw [hget]
            refine ⟨some edit1, _, rfl, fun e he => ?_⟩
            rwa [← Option.some.inj he]

end IsMerge

end Gavea.MergeEditor
