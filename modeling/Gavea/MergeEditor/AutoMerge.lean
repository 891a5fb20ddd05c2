import Gavea.MergeEditor.Mapping

namespace Gavea.MergeEditor

open Lib.Js Lib.Hunks Lib.Splicing List

def textIn (text : Lines) (r : LineRange) : Lines :=
  (text.take (r.endLineNumberExclusive - 1).toNat).drop (r.startLineNumber - 1).toNat

theorem newText_hunk (m : LineRangeMapping) (text : Lines) : m.hunk.newText 1 text = textIn text m.outputRange := rfl

theorem map_range_getElem {text : Lines} {a n : Nat} (f : Nat → JsString)
    (hf : ∀ i < n, text[a + i]? = some (f i)) :
    (List.range n).map f = (text.drop a).take n := by
  apply ext_getElem?
  intro i
  rcases Nat.lt_or_ge i n with hi | hi
  · rw [getElem?_take_of_lt hi, getElem?_drop, hf i hi, getElem?_map, getElem?_range hi, Option.map_some]
  · rw [getElem?_eq_none (by simpa using hi), getElem?_eq_none (by rw [length_take, length_drop]; omega)]

theorem textIn_eq (text : Lines) (r : LineRange) (h : 1 ≤ r.startLineNumber) :
    textIn text r = (text.drop (r.startLineNumber - 1).toNat).take r.length.toNat := by
  have hle := r.le
  have hlength : r.length = r.endLineNumberExclusive - r.startLineNumber := rfl
  rw [textIn, take_drop,
    show (r.startLineNumber - 1).toNat + r.length.toNat = (r.endLineNumberExclusive - 1).toNat by
      omega]

theorem linesOf_eq {text : Lines} {r : LineRange} (hstart : 1 ≤ r.startLineNumber)
    (hstop : r.endLineNumberExclusive ≤ text.length + 1) : linesOf text r = textIn text r := by
  have hle := r.le
  have hlength : r.length = r.endLineNumberExclusive - r.startLineNumber := rfl
  rw [textIn_eq text r hstart, linesOf]
  refine map_range_getElem _ fun i hi => ?_
  rw [lineAt, if_pos (by omega), show (r.startLineNumber + i - 1).toNat =
    (r.startLineNumber - 1).toNat + i by omega, getD_eq_getElem?_getD,
    getElem?_eq_getElem (by omega), Option.getD_some]

theorem mapM_ok {α β ε : Type} {f : α → Except ε β} {g : α → β} {l : List α}
    (h : ∀ a ∈ l, f a = .ok (g a)) : l.mapM f = .ok (l.map g) := by
  induction l with
  | nil => rfl
  | cons a l ih =>
    rw [mapM_cons, h a mem_cons_self, ih fun b hb => h b (mem_cons_of_mem a hb)]
    rfl

theorem getLines_ok {text : Lines} {r : LineRange} (hstart : 1 ≤ r.startLineNumber)
    (hstop : r.endLineNumberExclusive ≤ text.length + 1) :
    r.getLines text = .ok (textIn text r) := by
  have hle := r.le
  have hlength : r.length = r.endLineNumberExclusive - r.startLineNumber := rfl
  rw [← linesOf_eq hstart hstop, LineRange.getLines, linesOf]
  refine mapM_ok fun i hi => ?_
  have hlt := mem_range.mp hi
  have hget : text[(r.startLineNumber + i - 1).toNat]? =
      some text[(r.startLineNumber + i - 1).toNat] := getElem?_eq_getElem (by omega)
  dsimp only
  rw [if_pos (by omega), hget, lineAt, if_pos (by omega), getD_eq_getElem?_getD, hget]
  rfl

def editsOf (diffs : List DetailedLineRangeMapping) (text : Lines) : List LineRangeEdit :=
  diffs.map fun d => ⟨d.inputRange, textIn text d.outputRange⟩

def OutputsIn (diffs : List DetailedLineRangeMapping) (text : Lines) : Prop :=
  ∀ d ∈ diffs, 1 ≤ d.outputRange.startLineNumber ∧ d.outputRange.endLineNumberExclusive ≤ text.length + 1

theorem getLineEdit_ok {d : DetailedLineRangeMapping} {text : Lines}
    (h : 1 ≤ d.outputRange.startLineNumber ∧ d.outputRange.endLineNumberExclusive ≤ text.length + 1) :
    d.getLineEdit text = .ok ⟨d.inputRange, textIn text d.outputRange⟩ := by
  rw [LineRangeMapping.getLineEdit, getLines_ok h.1 h.2]
  rfl

theorem pairwiseEqualEdits_ok {input1 input2 : Lines} {diffs1 diffs2 : List DetailedLineRangeMapping}
    (h1 : OutputsIn diffs1 input1) (h2 : OutputsIn diffs2 input2)
    (hlength : diffs1.length = diffs2.length) :
    ModifiedBaseRange.pairwiseEqualEdits input1 input2 diffs1 diffs2 =
      .ok (decide (editsOf diffs1 input1 = editsOf diffs2 input2)) := by
  induction diffs1 generalizing diffs2 with
  | nil =>
    cases diffs2 with
    | nil => rfl
    | cons b bs => cases hlength
  | cons a as ih =>
    cases diffs2 with
    | nil => cases hlength
    | cons b bs =>
      have hrest := ih (fun d hd => h1 d (mem_cons_of_mem a hd))
        (fun d hd => h2 d (mem_cons_of_mem b hd)) (Nat.succ.inj hlength)
      rw [ModifiedBaseRange.pairwiseEqualEdits, ModifiedBaseRange.haveEqualEdits,
        getLineEdit_ok (h1 a mem_cons_self), getLineEdit_ok (h2 b mem_cons_self)]
      simp only [bind, Except.bind, hrest, decide_eq_true_eq]
      split
      · next hab =>
          refine congrArg Except.ok (decide_eq_decide.mpr ?_)
          simp only [editsOf, map_cons, List.cons.injEq, hab, true_and]
      · next hab =>
          refine congrArg Except.ok (decide_eq_false ?_).symm
          simp only [editsOf, map_cons, List.cons.injEq, hab, false_and, not_false_eq_true]

theorem computeIsEqualChange_ok {input1 input2 : Lines}
    {diffs1 diffs2 : List DetailedLineRangeMapping} (h1 : OutputsIn diffs1 input1)
    (h2 : OutputsIn diffs2 input2) :
    ModifiedBaseRange.computeIsEqualChange input1 input2 diffs1 diffs2 =
      .ok (decide (editsOf diffs1 input1 = editsOf diffs2 input2)) := by
  rw [ModifiedBaseRange.computeIsEqualChange]
  split
  · next hlength => exact pairwiseEqualEdits_ok h1 h2 hlength
  · next hlength =>
      have hne : editsOf diffs1 input1 ≠ editsOf diffs2 input2 := by
        intro heq
        have := congrArg List.length heq
        rw [editsOf, editsOf, length_map, length_map] at this
        exact hlength this
      rw [decide_eq_false hne]

namespace ModifiedBaseRange

def inputRange (r : ModifiedBaseRange) : InputNumber → LineRange
  | .input1 => r.input1Range
  | .input2 => r.input2Range

def inputDiffs (r : ModifiedBaseRange) : InputNumber → List DetailedLineRangeMapping
  | .input1 => r.input1Diffs
  | .input2 => r.input2Diffs

end ModifiedBaseRange

def MergeTexts.input (texts : MergeTexts) : InputNumber → Lines
  | .input1 => texts.input1
  | .input2 => texts.input2

def imageStart (diffs : List DetailedLineRangeMapping) (lineNumber : Int) : Int :=
  lineNumber + deltaAfter 0 ((diffs.filter fun d =>
    d.inputRange.endLineNumberExclusive < lineNumber).map fun d => d.toLineRangeMapping.hunk)

/-- The same if they are in front of it. -/
def imageStop (diffs : List DetailedLineRangeMapping) (lineNumber : Int) : Int :=
  lineNumber + deltaAfter 0 ((diffs.filter fun d =>
    d.inputRange.startLineNumber ≤ lineNumber).map fun d => d.toLineRangeMapping.hunk)

structure AreAligned (texts : MergeTexts) (diffs : InputNumber → List DetailedLineRangeMapping)
    (baseRanges : List ModifiedBaseRange) : Prop where
  sorted : baseRanges.Pairwise fun r r' => r.baseRange.endLineNumberExclusive < r'.baseRange.startLineNumber
  covered : ∀ i, (baseRanges.flatMap fun r => r.inputDiffs i) = diffs i
  exact : ∀ r ∈ baseRanges, ∀ i, r.inputDiffs i = (diffs i).filter fun d => r.baseRange.containsRange d.inputRange
  touched : ∀ r ∈ baseRanges, ∃ i, r.inputDiffs i ≠ []
  images : ∀ r ∈ baseRanges, ∀ i,
    (r.inputRange i).startLineNumber = imageStart (diffs i) r.baseRange.startLineNumber ∧
      (r.inputRange i).endLineNumberExclusive = imageStop (diffs i) r.baseRange.endLineNumberExclusive
  correct : ∀ i, CorrectDiffs texts.base (texts.input i) (baseRanges.map fun r => ⟨r.baseRange, r.inputRange i⟩)

namespace MappingAlignment

def toBaseRange (texts : MergeTexts) (a : MappingAlignment DetailedLineRangeMapping) :
    ModifiedBaseRange :=
  ⟨a.inputRange, a.output1Range, a.output1LineMappings, a.output2Range, a.output2LineMappings,
    decide (editsOf a.output1LineMappings texts.input1 = editsOf a.output2LineMappings texts.input2)⟩

theorem inputDiffs_toBaseRange (texts : MergeTexts) (i : InputNumber)
    (a : MappingAlignment DetailedLineRangeMapping) :
    (a.toBaseRange texts).inputDiffs i = a.outputLineMappings i := by
  cases i <;> rfl

theorem inputRange_toBaseRange (texts : MergeTexts) (i : InputNumber)
    (a : MappingAlignment DetailedLineRangeMapping) :
    (a.toBaseRange texts).inputRange i = a.outputRange i := by
  cases i <;> rfl

variable {T : Type} {ranges : T → LineRangeMapping} {lo hi : Int}

theorem Aligns.split {pre post : List (MappingAlignment T)} {a : MappingAlignment T}
    (h : Aligns ranges lo hi (pre ++ a :: post)) (i : InputNumber) :
    a.hunk i = ⟨a.inputRange.startLineNumber, a.inputRange.endLineNumberExclusive,
        a.inputRange.startLineNumber + deltaAfter 0 (hunks ranges (pre.flatMap fun b => b.outputLineMappings i)),
        a.inputRange.endLineNumberExclusive +
          deltaAfter 0 (hunks ranges ((pre.flatMap fun b => b.outputLineMappings i) ++ a.outputLineMappings i))⟩ ∧
      (∀ d ∈ pre.flatMap fun b => b.outputLineMappings i,
        (ranges d).inputRange.endLineNumberExclusive < a.inputRange.startLineNumber) ∧
      (∀ d ∈ a.outputLineMappings i, a.inputRange.containsRange (ranges d).inputRange = true) ∧
      ∀ d ∈ post.flatMap fun b => b.outputLineMappings i,
        a.inputRange.endLineNumberExclusive < (ranges d).inputRange.startLineNumber := by
  have hpair := pairwise_append.mp h.apart
  refine ⟨?_, fun d hd => ?_, fun d hd => ?_, fun d hd => ?_⟩
  · have houtputs := h.outputs i
    rw [map_append, map_append, coarse_append, map_cons, map_cons, coarse] at houtputs
    have hcons := (append_inj houtputs (by simp)).2
    rw [(List.cons.inj hcons).1, flatMap_group, hunks_append, deltaAfter_append]
    rfl
  · obtain ⟨b, hb, hdb⟩ := mem_flatMap.mp hd
    have hcontains := h.contains b (mem_append_left _ hb) i d hdb
    have := hpair.2.2 b hb a mem_cons_self
    rw [LineRange.containsRange_iff] at hcontains
    omega
  · exact h.contains a (mem_append_right pre mem_cons_self) i d hd
  · obtain ⟨b, hb, hdb⟩ := mem_flatMap.mp hd
    have hcontains := h.contains b (mem_append_right pre (mem_cons_of_mem a hb)) i d hdb
    have := (pairwise_cons.mp hpair.2.1).1 b hb
    rw [LineRange.containsRange_iff] at hcontains
    omega

theorem filter_middle {l m r : List T} {p : T → Bool} (hl : ∀ d ∈ l, p d = false)
    (hm : ∀ d ∈ m, p d = true) (hr : ∀ d ∈ r, p d = false) : (l ++ (m ++ r)).filter p = m := by
  rw [filter_append, filter_append, filter_eq_nil_iff.mpr fun d hd => by simp [hl d hd], filter_eq_self.mpr hm,
    filter_eq_nil_iff.mpr fun d hd => by simp [hr d hd], nil_append, append_nil]

open DetailedLineRangeMapping (toLineRangeMapping)

variable {texts : MergeTexts} {diffs1 diffs2 : List DetailedLineRangeMapping}
  {alignments : List (MappingAlignment DetailedLineRangeMapping)}

theorem Aligns.within (h : Aligns toLineRangeMapping lo hi alignments) (hlo : lo ≤ hi)
    (i : InputNumber) : Within lo (alignments.map (group toLineRangeMapping i)) hi := by
  refine within_of_pairwise hlo ?_ (fun g hg => ?_) fun g hg x hx => ?_
  · rw [pairwise_map]
    exact h.apart.imp fun hab => hab.le
  · obtain ⟨a, ha, rfl⟩ := mem_map.mp hg
    obtain ⟨h1, h2⟩ := h.bounds a ha
    exact ⟨h1, a.inputRange.le, h2⟩
  · obtain ⟨a, ha, rfl⟩ := mem_map.mp hg
    obtain ⟨d, hd, rfl⟩ := mem_map.mp hx
    exact LineRange.containsRange_iff.mp (h.contains a ha i d hd)

theorem Aligns.correct (h : Aligns toLineRangeMapping 1 (texts.base.length + 1) alignments)
    (i : InputNumber)
    (hcorrect : CorrectDiffs texts.base (texts.input i)
      ((alignments.flatMap fun a => a.outputLineMappings i).map toLineRangeMapping)) :
    CorrectDiffs texts.base (texts.input i)
      ((alignments.map (toBaseRange texts)).map fun r => ⟨r.baseRange, r.inputRange i⟩) := by
  have hhunks : ((alignments.map (toBaseRange texts)).map fun r =>
      (⟨r.baseRange, r.inputRange i⟩ : LineRangeMapping)).map LineRangeMapping.hunk =
        alignments.map (hunk i) := by
    rw [map_map, map_map]
    apply map_congr_left
    intro a _
    simp only [Function.comp_apply, inputRange_toBaseRange]
    rfl
  have haligned := hcorrect.aligned
  rw [← hunks_eq_map, ← flatMap_group] at haligned
  have hcoarse := haligned.coarse (by
    rw [add_comm]
    exact h.within (by omega) i)
  refine ⟨?_, ?_⟩
  · rw [hhunks, h.outputs i]
    exact hcoarse
  · rw [hhunks, Apart, pairwise_map]
    exact h.apart

theorem Aligns.images {alignments : List (MappingAlignment DetailedLineRangeMapping)}
    (h : Aligns toLineRangeMapping lo hi alignments) (i : InputNumber)
    {a : MappingAlignment DetailedLineRangeMapping} (ha : a ∈ alignments) :
    (a.outputRange i).startLineNumber = imageStart
        (alignments.flatMap fun b => b.outputLineMappings i) a.inputRange.startLineNumber ∧
      (a.outputRange i).endLineNumberExclusive = imageStop
        (alignments.flatMap fun b => b.outputLineMappings i) a.inputRange.endLineNumberExclusive ∧
      a.outputLineMappings i = (alignments.flatMap fun b => b.outputLineMappings i).filter fun d =>
        a.inputRange.containsRange d.inputRange := by
  obtain ⟨pre, post, rfl⟩ := append_of_mem ha
  obtain ⟨hhunk, hpre, hself, hpost⟩ := h.split i
  have hle : ∀ d : DetailedLineRangeMapping,
      d.inputRange.startLineNumber ≤ d.inputRange.endLineNumberExclusive := fun d => d.inputRange.le
  have hale := a.inputRange.le
  have hself' := fun d hd => LineRange.containsRange_iff.mp (hself d hd)
  have hbefore : ((pre ++ a :: post).flatMap fun b => b.outputLineMappings i).filter (fun d =>
      d.inputRange.endLineNumberExclusive < a.inputRange.startLineNumber) =
        pre.flatMap fun b => b.outputLineMappings i := by
    rw [flatMap_append, flatMap_cons, filter_append, filter_append,
      filter_eq_self.mpr fun d hd => decide_eq_true (hpre d hd), filter_eq_nil_iff.mpr fun d hd => ?_,
      filter_eq_nil_iff.mpr fun d hd => ?_, append_nil, append_nil]
    · have := hpost d hd
      have := hle d
      rw [decide_eq_true_eq]
      omega
    · have := hself' d hd
      have := hle d
      rw [decide_eq_true_eq]
      omega
  have hupTo : ((pre ++ a :: post).flatMap fun b => b.outputLineMappings i).filter (fun d =>
      d.inputRange.startLineNumber ≤ a.inputRange.endLineNumberExclusive) =
        (pre.flatMap fun b => b.outputLineMappings i) ++ a.outputLineMappings i := by
    rw [flatMap_append, flatMap_cons, filter_append, filter_append, filter_eq_self.mpr fun d hd => ?_,
      filter_eq_self.mpr fun d hd => ?_, filter_eq_nil_iff.mpr fun d hd => ?_, append_nil]
    · have := hpost d hd
      rw [decide_eq_true_eq]
      omega
    · have := hself' d hd
      have := hle d
      rw [decide_eq_true_eq]
      omega
    · have := hpre d hd
      have := hle d
      rw [decide_eq_true_eq]
      omega
  refine ⟨?_, ?_, ?_⟩
  · rw [imageStart, hbefore]
    exact congrArg Hunk.newStart hhunk
  · rw [imageStop, hupTo]
    exact congrArg Hunk.newStop hhunk
  · rw [flatMap_append, flatMap_cons]
    refine (filter_middle (fun d hd => ?_) hself fun d hd => ?_).symm
    · have := hpre d hd
      have := hle d
      rw [Bool.eq_false_iff, ne_eq, LineRange.containsRange_iff]
      omega
    · have := hpost d hd
      have := hle d
      rw [Bool.eq_false_iff, ne_eq, LineRange.containsRange_iff]
      omega

theorem new_ok {a : MappingAlignment DetailedLineRangeMapping}
    (h1 : OutputsIn a.output1LineMappings texts.input1)
    (h2 : OutputsIn a.output2LineMappings texts.input2)
    (htouched : ∃ i, a.outputLineMappings i ≠ []) :
    ModifiedBaseRange.new texts.input1 texts.input2 a = .ok (a.toBaseRange texts) := by
  have hempty : (a.output1LineMappings.isEmpty && a.output2LineMappings.isEmpty) = false := by
    obtain ⟨i, hi⟩ := htouched
    rw [Bool.and_eq_false_iff, isEmpty_eq_false_iff, isEmpty_eq_false_iff]
    cases i
    · exact .inl hi
    · exact .inr hi
  rw [ModifiedBaseRange.new, computeIsEqualChange_ok h1 h2]
  simp only [bind, Except.bind, hempty, Bool.false_eq_true, if_false]
  rfl

end MappingAlignment

theorem CorrectDiffs.outputsIn {base output : Lines} {diffs : List DetailedLineRangeMapping}
    (h : CorrectDiffs base output (diffs.map DetailedLineRangeMapping.toLineRangeMapping)) :
    OutputsIn diffs output := by
  intro d hd
  obtain ⟨-, h1, -, h2⟩ := h.aligned.inside d.hunk (mem_map_of_mem (mem_map_of_mem hd))
  simp only [LineRangeMapping.hunk] at h1 h2
  exact ⟨h1, by omega⟩

theorem fromDiffs_areAligned {texts : MergeTexts} {diffs1 diffs2 : List DetailedLineRangeMapping}
    (h : ∀ i, CorrectDiffs texts.base (texts.input i)
      ((MappingAlignment.sources diffs1 diffs2 i).map DetailedLineRangeMapping.toLineRangeMapping)) :
    ∃ baseRanges, ModifiedBaseRange.fromDiffs texts.input1 texts.input2 diffs1 diffs2 =
        .ok baseRanges ∧
      AreAligned texts (MappingAlignment.sources diffs1 diffs2) baseRanges ∧
      (∀ r ∈ baseRanges, r.isEqualChange =
        decide (editsOf r.input1Diffs texts.input1 = editsOf r.input2Diffs texts.input2)) ∧
      ∀ r ∈ baseRanges, 1 ≤ r.baseRange.startLineNumber ∧
        r.baseRange.endLineNumberExclusive ≤ texts.base.length + 1 := by
  have hbounds : ∀ i, ∀ d ∈ MappingAlignment.sources diffs1 diffs2 i,
      1 ≤ d.inputRange.startLineNumber ∧
        d.inputRange.endLineNumberExclusive ≤ (texts.base.length : Int) + 1 := by
    intro i d hd
    obtain ⟨⟨h1, -, h2⟩, -⟩ := (h i).aligned.inside d.hunk (mem_map_of_mem (mem_map_of_mem hd))
    simp only [LineRangeMapping.hunk] at h1 h2
    exact ⟨h1, by omega⟩
  have hsound : ∀ i, MappingAlignment.Sound DetailedLineRangeMapping.toLineRangeMapping
      (MappingAlignment.sources diffs1 diffs2 i) := by
    intro i
    have hnumbered := (h i).aligned.numbered
    have hapart := (h i).apart
    rw [← MappingAlignment.hunks_eq_map] at hnumbered hapart
    exact ⟨hnumbered, hapart⟩
  obtain ⟨alignments, hcompute, haligns, hparts⟩ := MappingAlignment.compute_aligns hsound hbounds
  have hmem : ∀ a ∈ alignments, ∀ i, ∀ d ∈ a.outputLineMappings i,
      d ∈ MappingAlignment.sources diffs1 diffs2 i := by
    intro a ha i d hd
    rw [← hparts i]
    exact mem_flatMap.mpr ⟨a, ha, hd⟩
  refine ⟨alignments.map (MappingAlignment.toBaseRange texts), ?_, ?_, ?_, ?_⟩
  · rw [ModifiedBaseRange.fromDiffs, hcompute]
    refine mapM_ok fun a ha => MappingAlignment.new_ok (fun d hd => ?_) (fun d hd => ?_)
      (haligns.touched a ha)
    · exact (h .input1).outputsIn d (hmem a ha .input1 d hd)
    · exact (h .input2).outputsIn d (hmem a ha .input2 d hd)
  · refine ⟨?_, fun i => ?_, fun r hr i => ?_, fun r hr => ?_, fun r hr i => ?_, fun i => ?_⟩
    · rw [pairwise_map]
      exact haligns.apart
    · rw [flatMap_map, ← hparts i]
      simp only [MappingAlignment.inputDiffs_toBaseRange]
    · obtain ⟨a, ha, rfl⟩ := mem_map.mp hr
      rw [MappingAlignment.inputDiffs_toBaseRange, ← hparts i]
      exact (haligns.images i ha).2.2
    · obtain ⟨a, ha, rfl⟩ := mem_map.mp hr
      obtain ⟨i, hi⟩ := haligns.touched a ha
      exact ⟨i, by rwa [MappingAlignment.inputDiffs_toBaseRange]⟩
    · obtain ⟨a, ha, rfl⟩ := mem_map.mp hr
      obtain ⟨h1, h2, -⟩ := haligns.images i ha
      rw [MappingAlignment.inputRange_toBaseRange, ← hparts i]
      exact ⟨h1, h2⟩
    · refine haligns.correct i ?_
      rw [hparts i]
      exact h i
  · intro r hr
    obtain ⟨a, -, rfl⟩ := mem_map.mp hr
    rfl
  · intro r hr
    obtain ⟨a, ha, rfl⟩ := mem_map.mp hr
    exact haligns.bounds a ha

def replacement (texts : MergeTexts) (r : ModifiedBaseRange) : Option Lines :=
  if r.input1Diffs = [] then some (textIn texts.input2 r.input2Range)
  else if r.input2Diffs = [] ∨
      editsOf r.input1Diffs texts.input1 = editsOf r.input2Diffs texts.input2 then
    some (textIn texts.input1 r.input1Range)
  else none

def taken (texts : MergeTexts) (r : ModifiedBaseRange) : Option (Splice JsString) :=
  (replacement texts r).map fun text => ⟨r.baseRange.startLineNumber, r.baseRange.endLineNumberExclusive, text⟩

def InOrder : Int → List ModifiedBaseRange → Int → Prop
  | lo, [], hi => lo ≤ hi
  | lo, r :: rs, hi => lo ≤ r.baseRange.startLineNumber ∧ InOrder r.baseRange.endLineNumberExclusive rs hi

theorem InOrder.le {lo hi : Int} {rs : List ModifiedBaseRange} (h : InOrder lo rs hi) : lo ≤ hi := by
  induction rs generalizing lo with
  | nil => exact h
  | cons r rs ih =>
    have := r.baseRange.le
    have := ih h.2
    have := h.1
    omega

theorem inOrder_of_sorted {lo hi : Int} {rs : List ModifiedBaseRange} (hlo : lo ≤ hi)
    (hsorted : rs.Pairwise fun r r' => r.baseRange.endLineNumberExclusive < r'.baseRange.startLineNumber)
    (hbounds : ∀ r ∈ rs, lo ≤ r.baseRange.startLineNumber ∧
      r.baseRange.endLineNumberExclusive ≤ hi) : InOrder lo rs hi := by
  induction rs generalizing lo with
  | nil => exact hlo
  | cons r rs ih =>
    rw [pairwise_cons] at hsorted
    obtain ⟨h1, h2⟩ := hbounds r mem_cons_self
    refine ⟨h1, ih h2 hsorted.2 fun x hx => ⟨(hsorted.1 x hx).le, ?_⟩⟩
    exact (hbounds x (mem_cons_of_mem r hx)).2

theorem InOrder.chain {lo hi : Int} {rs : List ModifiedBaseRange} (h : InOrder lo rs hi)
    (texts : MergeTexts) : Chain lo (rs.filterMap (taken texts)) := by
  induction rs generalizing lo with
  | nil => trivial
  | cons r rs ih =>
    have hrest := ih h.2
    have hle := r.baseRange.le
    cases htaken : taken texts r with
    | none =>
      rw [filterMap_cons_none htaken]
      exact hrest.mono (h.1.trans hle)
    | some x =>
      rw [filterMap_cons_some htaken]
      obtain ⟨text, -, rfl⟩ := Option.map_eq_some_iff.mp htaken
      exact ⟨h.1, hle, hrest⟩

structure Readable (texts : MergeTexts) (r : ModifiedBaseRange) : Prop where
  base : 1 ≤ r.baseRange.startLineNumber ∧ r.baseRange.endLineNumberExclusive ≤ texts.base.length + 1
  inputs : ∀ i, 1 ≤ (r.inputRange i).startLineNumber ∧
    (r.inputRange i).endLineNumberExclusive ≤ (texts.input i).length + 1
  isEqualChange : r.isEqualChange = decide (editsOf r.input1Diffs texts.input1 = editsOf r.input2Diffs texts.input2)

theorem Readable.autoMergedLines_eq {texts : MergeTexts} {r : ModifiedBaseRange}
    (h : Readable texts r) :
    texts.autoMergedLines r = (replacement texts r).getD (textIn texts.base r.baseRange) := by
  have h1 := h.inputs .input1
  have h2 := h.inputs .input2
  rw [MergeTexts.autoMergedLines, replacement]
  simp only [length_eq_zero_iff, h.isEqualChange, decide_eq_true_eq]
  by_cases hempty1 : r.input1Diffs = []
  · rw [if_pos hempty1, if_pos hempty1]
    exact linesOf_eq h2.1 h2.2
  · rw [if_neg hempty1, if_neg hempty1]
    by_cases hempty2 : r.input2Diffs = []
    · rw [if_pos hempty2, if_pos (.inl hempty2)]
      exact linesOf_eq h1.1 h1.2
    · rw [if_neg hempty2]
      by_cases hequal : editsOf r.input1Diffs texts.input1 = editsOf r.input2Diffs texts.input2
      · rw [if_pos hequal, if_pos (.inr hequal)]
        exact linesOf_eq h1.1 h1.2
      · rw [if_neg hequal, if_neg (by simp [hempty2, hequal])]
        exact linesOf_eq h.base.1 h.base.2

theorem autoMergedFrom_eq {texts : MergeTexts} {rs : List ModifiedBaseRange} {p : Int}
    (hp : 1 ≤ p) (horder : InOrder p rs (texts.base.length + 1))
    (hreadable : ∀ r ∈ rs, Readable texts r) :
    texts.autoMergedFrom p rs =
      .ok (splice p (rs.filterMap (taken texts)) (texts.base.drop (p - 1).toNat)) := by
  induction rs generalizing p with
  | nil =>
    have hle : p ≤ texts.base.length + 1 := horder
    rw [MergeTexts.autoMergedFrom, LineRange.fromLineNumbers_ok hle]
    simp only [bind, Except.bind]
    rw [linesOf_eq hp le_rfl, textIn, take_of_length_le (by dsimp only; omega)]
    rfl
  | cons r rs ih =>
    obtain ⟨hlo, hrest⟩ := horder
    have hle := r.baseRange.le
    have hhi := hrest.le
    have hr := hreadable r mem_cons_self
    rw [MergeTexts.autoMergedFrom, LineRange.fromLineNumbers_ok hlo,
      ih (by omega) hrest fun x hx => hreadable x (mem_cons_of_mem r hx)]
    simp only [bind, Except.bind]
    rw [linesOf_eq hp (by dsimp only; omega), hr.autoMergedLines_eq]
    refine congrArg Except.ok ?_
    have hgap : textIn texts.base ⟨p, r.baseRange.startLineNumber, hlo⟩ =
        (texts.base.drop (p - 1).toNat).take (r.baseRange.startLineNumber - p).toNat := by
      rw [textIn, take_drop, show (p - 1).toNat + (r.baseRange.startLineNumber - p).toNat =
        (r.baseRange.startLineNumber - 1).toNat by omega]
    have hdrop : (texts.base.drop (p - 1).toNat).drop
        (r.baseRange.endLineNumberExclusive - p).toNat =
          texts.base.drop (r.baseRange.endLineNumberExclusive - 1).toNat := by
      rw [drop_drop, show (p - 1).toNat + (r.baseRange.endLineNumberExclusive - p).toNat =
        (r.baseRange.endLineNumberExclusive - 1).toNat by omega]
    cases hreplacement : replacement texts r with
    | some text =>
      rw [filterMap_cons_some (by rw [taken, hreplacement, Option.map_some]), splice_cons,
        hgap, hdrop, Option.getD_some]
    | none =>
      have hown : (texts.base.drop (p - 1).toNat).take
          (r.baseRange.endLineNumberExclusive - p).toNat =
            textIn texts.base ⟨p, r.baseRange.startLineNumber, hlo⟩ ++
              textIn texts.base r.baseRange := by
        rw [hgap, textIn_eq texts.base r.baseRange hr.base.1,
          show (r.baseRange.endLineNumberExclusive - p).toNat =
            (r.baseRange.startLineNumber - p).toNat + r.baseRange.length.toNat by
              rw [LineRange.length]; omega, take_add, drop_drop,
          show (p - 1).toNat + (r.baseRange.startLineNumber - p).toNat =
            (r.baseRange.startLineNumber - 1).toNat by omega]
      rw [filterMap_cons_none (by rw [taken, hreplacement, Option.map_none]),
        splice_take_drop _ (hlo.trans hle) (hrest.chain texts), hown, hdrop, Option.getD_none, append_assoc]

namespace AreAligned

variable {texts : MergeTexts} {diffs1 diffs2 : List DetailedLineRangeMapping}
  {rs : List ModifiedBaseRange}

theorem readable (h : AreAligned texts (MappingAlignment.sources diffs1 diffs2) rs)
    {r : ModifiedBaseRange} (hr : r ∈ rs)
    (hbase : 1 ≤ r.baseRange.startLineNumber ∧ r.baseRange.endLineNumberExclusive ≤ texts.base.length + 1)
    (hequal : r.isEqualChange = decide (editsOf r.input1Diffs texts.input1 = editsOf r.input2Diffs texts.input2)) :
    Readable texts r := by
  refine ⟨hbase, fun i => ?_, hequal⟩
  obtain ⟨-, h1, -, h2⟩ := (h.correct i).aligned.inside
    (LineRangeMapping.hunk ⟨r.baseRange, r.inputRange i⟩)
    (mem_map_of_mem (mem_map_of_mem hr))
  simp only [LineRangeMapping.hunk] at h1 h2
  exact ⟨h1, by omega⟩

theorem splice_input (h : AreAligned texts (MappingAlignment.sources diffs1 diffs2) rs)
    (i : InputNumber)
    (htaken : ∀ r ∈ rs, replacement texts r = some (textIn (texts.input i) (r.inputRange i))) :
    splice 1 (rs.filterMap (taken texts)) texts.base = texts.input i := by
  have hsplices : rs.filterMap (taken texts) =
      ((rs.map fun r => (⟨r.baseRange, r.inputRange i⟩ : LineRangeMapping)).map
        LineRangeMapping.hunk).map fun x => x.splice 1 (texts.input i) := by
    rw [map_map, map_map, ← filterMap_eq_map]
    apply filterMap_congr
    intro r hr
    rw [taken, htaken r hr]
    rfl
  rw [hsplices]
  exact (h.correct i).aligned.splice_eq

theorem inputDiffs_eq_nil (h : AreAligned texts (MappingAlignment.sources diffs1 diffs2) rs)
    (i : InputNumber) (hnil : MappingAlignment.sources diffs1 diffs2 i = [])
    {r : ModifiedBaseRange} (hr : r ∈ rs) : r.inputDiffs i = [] := by
  have hcovered := h.covered i
  rw [hnil, flatMap_eq_nil_iff] at hcovered
  exact hcovered r hr

theorem editsOf_eq (h : AreAligned texts (MappingAlignment.sources diffs1 diffs2) rs)
    (hequal : editsOf diffs1 texts.input1 = editsOf diffs2 texts.input2)
    {r : ModifiedBaseRange} (hr : r ∈ rs) :
    editsOf r.input1Diffs texts.input1 = editsOf r.input2Diffs texts.input2 := by
  have hfilter : ∀ (diffs : List DetailedLineRangeMapping) (text : Lines),
      editsOf (diffs.filter fun d => r.baseRange.containsRange d.inputRange) text =
        (editsOf diffs text).filter fun e => r.baseRange.containsRange e.range := by
    intro diffs text
    rw [editsOf, editsOf, filter_map]
    rfl
  have h1 : r.input1Diffs = _ := h.exact r hr .input1
  have h2 : r.input2Diffs = _ := h.exact r hr .input2
  rw [h1, h2, hfilter, hfilter]
  exact congrArg (List.filter _) hequal

theorem replacement_of_equal (h : AreAligned texts (MappingAlignment.sources diffs1 diffs2) rs)
    (hequal : editsOf diffs1 texts.input1 = editsOf diffs2 texts.input2)
    {r : ModifiedBaseRange} (hr : r ∈ rs) :
    replacement texts r = some (textIn texts.input1 r.input1Range) := by
  have hedits := h.editsOf_eq hequal hr
  have hne : r.input1Diffs ≠ [] := by
    intro hnil
    rw [hnil] at hedits
    have hnil2 : r.input2Diffs = [] := map_eq_nil_iff.mp hedits.symm
    obtain ⟨i, hi⟩ := h.touched r hr
    cases i
    · exact hi hnil
    · exact hi hnil2
  rw [replacement, if_neg hne, if_pos (.inr hedits)]

end AreAligned

def mergedLines (texts : MergeTexts) (baseRanges : List ModifiedBaseRange) : Lines :=
  splice 1 (baseRanges.filterMap (taken texts)) texts.base

def joinLines (eol : JsString) (lines : Lines) : JsString := (lines.intersperse eol).flatten

/-- The automatic merge of correct diffs is a three-way merge. An input without diffs gives way
to the other one. -/
theorem autoMerge_sound (texts : MergeTexts) (eol : JsString)
    (diffs1 diffs2 : List DetailedLineRangeMapping)
    (h1 : CorrectDiffs texts.base texts.input1 (diffs1.map DetailedLineRangeMapping.toLineRangeMapping))
    (h2 : CorrectDiffs texts.base texts.input2 (diffs2.map DetailedLineRangeMapping.toLineRangeMapping)) :
    ∃ baseRanges, ModifiedBaseRange.fromDiffs texts.input1 texts.input2 diffs1 diffs2 =
        .ok baseRanges ∧
      AreAligned texts (MappingAlignment.sources diffs1 diffs2) baseRanges ∧
      texts.computeAutoMergedResult eol baseRanges = .ok (joinLines eol (mergedLines texts baseRanges)) ∧
      (diffs1 = [] → mergedLines texts baseRanges = texts.input2) ∧
      (diffs2 = [] → mergedLines texts baseRanges = texts.input1) ∧
      (editsOf diffs1 texts.input1 = editsOf diffs2 texts.input2 →
        mergedLines texts baseRanges = texts.input1) := by
  obtain ⟨baseRanges, hfrom, haligned, hequal, hbase⟩ := @fromDiffs_areAligned texts diffs1 diffs2
    fun i => by
      cases i
      · exact h1
      · exact h2
  have hreadable : ∀ r ∈ baseRanges, Readable texts r := fun r hr => haligned.readable hr (hbase r hr) (hequal r hr)
  have horder : InOrder 1 baseRanges (texts.base.length + 1) := inOrder_of_sorted (by omega) haligned.sorted hbase
  refine ⟨baseRanges, hfrom, haligned, ?_, fun hnil => ?_, fun hnil => ?_, fun hsame => ?_⟩
  · rw [MergeTexts.computeAutoMergedResult, autoMergedFrom_eq le_rfl horder hreadable]
    rfl
  · refine haligned.splice_input .input2 fun r hr => ?_
    exact if_pos (haligned.inputDiffs_eq_nil .input1 hnil hr)
  · refine haligned.splice_input .input1 fun r hr => ?_
    have hnil2 : r.input2Diffs = [] := haligned.inputDiffs_eq_nil .input2 hnil hr
    have hne : r.input1Diffs ≠ [] := by
      obtain ⟨i, hi⟩ := haligned.touched r hr
      cases i
      · exact hi
      · exact absurd hnil2 hi
    rw [replacement, if_neg hne, if_pos (.inl hnil2)]
    rfl
  · exact haligned.splice_input .input1 fun r hr => haligned.replacement_of_equal hsame hr

/-- A deletion and an insertion that make no difference together. -/
def exampleDiffs1 : List DetailedLineRangeMapping :=
  [⟨⟨.lines 1 1, .lines 1 0⟩, []⟩, ⟨⟨.lines 3 0, .lines 2 1⟩, []⟩]

def exampleDiffs2 : List DetailedLineRangeMapping := [⟨⟨.lines 1 1, .lines 1 1⟩, []⟩]

def exampleTexts : MergeTexts := ⟨[[97], [97]], [[97], [97]], [[98], [97]]⟩

theorem exampleDiffs1_correct : CorrectDiffs exampleTexts.base exampleTexts.input1
    (exampleDiffs1.map DetailedLineRangeMapping.toLineRangeMapping) := by
  refine ⟨?_, ?_⟩
  · simp [exampleDiffs1, LineRange.lines, exampleTexts, Aligned, LineRangeMapping.hunk]
  · simp [exampleDiffs1, LineRange.lines, Apart, LineRangeMapping.hunk]

theorem exampleDiffs2_correct : CorrectDiffs exampleTexts.base exampleTexts.input2
    (exampleDiffs2.map DetailedLineRangeMapping.toLineRangeMapping) := by
  refine ⟨?_, ?_⟩
  · simp [exampleDiffs2, LineRange.lines, exampleTexts, Aligned, LineRangeMapping.hunk]
  · simp [exampleDiffs2, LineRange.lines, Apart]

theorem autoMerge_sound_of_conflict :
    ∃ baseRanges, ModifiedBaseRange.fromDiffs exampleTexts.input1 exampleTexts.input2 exampleDiffs1
        exampleDiffs2 = .ok baseRanges ∧
      exampleTexts.computeAutoMergedResult [10] baseRanges =
        .ok (joinLines [10] (mergedLines exampleTexts baseRanges)) := by
  obtain ⟨baseRanges, hfrom, -, hmerged, -⟩ := autoMerge_sound exampleTexts [10] exampleDiffs1
    exampleDiffs2 exampleDiffs1_correct exampleDiffs2_correct
  exact ⟨baseRanges, hfrom, hmerged⟩

/-- Equal texts may have diffs: then the merge is not the other input. -/
theorem not_autoMerge_of_equal_base :
    ¬∀ (texts : MergeTexts) (diffs1 diffs2 : List DetailedLineRangeMapping),
      CorrectDiffs texts.base texts.input1 (diffs1.map DetailedLineRangeMapping.toLineRangeMapping) →
      CorrectDiffs texts.base texts.input2 (diffs2.map DetailedLineRangeMapping.toLineRangeMapping) →
      texts.input1 = texts.base →
      ∃ baseRanges, ModifiedBaseRange.fromDiffs texts.input1 texts.input2 diffs1 diffs2 =
          .ok baseRanges ∧
        texts.computeAutoMergedResult [10] baseRanges = .ok (joinLines [10] texts.input2) := by
  intro hall
  obtain ⟨baseRanges, hfrom, hmerged⟩ := hall exampleTexts exampleDiffs1 exampleDiffs2
    exampleDiffs1_correct exampleDiffs2_correct rfl
  have hcomputed : (ModifiedBaseRange.fromDiffs exampleTexts.input1 exampleTexts.input2
      exampleDiffs1 exampleDiffs2).bind (exampleTexts.computeAutoMergedResult [10]) = .ok [97, 10, 97, 10, 97] := by rfl
  rw [hfrom] at hcomputed
  have hcontra := hmerged.symm.trans hcomputed
  revert hcontra
  decide

end Gavea.MergeEditor
