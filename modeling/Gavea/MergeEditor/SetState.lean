import Gavea.Lib.Runs
import Gavea.MergeEditor.RangeEdits

namespace Gavea.MergeEditor

open Lib.Hunks Lib.Splicing List

def LineRangeEdit.toSplice (e : LineRangeEdit) : Splice Lib.Js.JsString :=
  ⟨e.range.startLineNumber, e.range.endLineNumberExclusive, e.newLines⟩

theorem map_toSplice (diffs : List DetailedLineRangeMapping) (text : Lines) :
    (editsOf diffs text).map LineRangeEdit.toSplice =
      (hunksOf diffs).map fun x => x.splice 1 text := by
  rw [editsOf, hunksOf, map_map, map_map]
  rfl

theorem UpToDate.splice_eq {m : TextModelDiffs} (h : UpToDate m) :
    splice 1 ((editsOf m.diffs m.textModel).map LineRangeEdit.toSplice) m.baseTextModel =
      m.textModel := by
  rw [map_toSplice]
  exact h.leads.aligned.splice_eq

def hullStart (r : LineRange) (mid : List DetailedLineRangeMapping) : Int :=
  mid.head?.elim r.startLineNumber fun d => min r.startLineNumber d.inputRange.startLineNumber

def hullEnd (r : LineRange) (mid : List DetailedLineRangeMapping) : Int :=
  mid.getLast?.elim r.endLineNumberExclusive fun d => max r.endLineNumberExclusive d.inputRange.endLineNumberExclusive

namespace TextModelDiffs

theorem getResultLine_skip {lineNumber offset : Int} {pre rest : List DetailedLineRangeMapping}
    (h : ∀ d ∈ pre, d.inputRange.endLineNumberExclusive < lineNumber) :
    getResultLine lineNumber offset (pre ++ rest) =
      getResultLine lineNumber (deltaAfter offset (hunksOf pre)) rest := by
  induction pre generalizing offset with
  | nil => rfl
  | cons d ds ih =>
    have hd := h d mem_cons_self
    have hnot : (d.inputRange.contains lineNumber ||
        decide (d.inputRange.endLineNumberExclusive = lineNumber)) = false := by
      rw [LineRange.contains, Bool.or_eq_false_iff, Bool.and_eq_false_iff, decide_eq_false_iff_not,
        decide_eq_false_iff_not, decide_eq_false_iff_not]
      omega
    rw [cons_append, getResultLine, hnot, if_pos hd]
    exact ih fun x hx => h x (mem_cons_of_mem d hx)

theorem getResultLine_behind {lineNumber offset : Int} {rest : List DetailedLineRangeMapping}
    (h : ∀ d ∈ rest, lineNumber < d.inputRange.startLineNumber) :
    getResultLine lineNumber offset rest = .inl (lineNumber + offset) := by
  cases rest with
  | nil => rfl
  | cons d ds =>
    have hd := h d mem_cons_self
    have hle := d.inputRange.le
    have hnot : (d.inputRange.contains lineNumber ||
        decide (d.inputRange.endLineNumberExclusive = lineNumber)) = false := by
      rw [LineRange.contains, Bool.or_eq_false_iff, Bool.and_eq_false_iff, decide_eq_false_iff_not,
        decide_eq_false_iff_not, decide_eq_false_iff_not]
      omega
    rw [getResultLine, hnot, if_neg (by simp), if_neg (by omega)]

theorem getResultLine_at {lineNumber offset : Int} {d : DetailedLineRangeMapping}
    {ds : List DetailedLineRangeMapping} (h1 : d.inputRange.startLineNumber ≤ lineNumber)
    (h2 : lineNumber ≤ d.inputRange.endLineNumberExclusive) :
    getResultLine lineNumber offset (d :: ds) = .inr d := by
  have hyes : (d.inputRange.contains lineNumber ||
      decide (d.inputRange.endLineNumberExclusive = lineNumber)) = true := by
    rw [LineRange.contains, Bool.or_eq_true, Bool.and_eq_true, decide_eq_true_iff, decide_eq_true_iff,
      decide_eq_true_iff]
    omega
  rw [getResultLine, hyes, if_pos rfl]

theorem getResultLine_start {r : LineRange} {pre mid post : List DetailedLineRangeMapping}
    (h : Around r pre mid post) (hnumbered : Numbered 0 (hunksOf (pre ++ (mid ++ post)))) :
    (getResultLine r.startLineNumber 0 (pre ++ (mid ++ post))).elim id
        (fun d => d.outputRange.startLineNumber) =
      hullStart r mid + deltaAfter 0 (hunksOf pre) := by
  have hle := r.le
  rw [getResultLine_skip h.before]
  rw [hunksOf_append] at hnumbered
  obtain ⟨-, hnumbered⟩ := Numbered.append.mp hnumbered
  cases mid with
  | nil =>
    rw [nil_append, getResultLine_behind fun d hd => hle.trans_lt (h.behind d hd)]
    rfl
  | cons d ds =>
    have htouch := h.touching d mem_cons_self
    rw [LineRange.intersectsOrTouches_iff] at htouch
    have hstart := hnumbered.1
    simp only [LineRangeMapping.hunk] at hstart
    simp only [hullStart, head?_cons, Option.elim_some]
    by_cases hfirst : d.inputRange.startLineNumber ≤ r.startLineNumber
    · rw [cons_append, getResultLine_at hfirst htouch.2]
      simp only [Sum.elim_inr]
      omega
    · have hnot : (d.inputRange.contains r.startLineNumber ||
          decide (d.inputRange.endLineNumberExclusive = r.startLineNumber)) = false := by
        have hled := d.inputRange.le
        rw [LineRange.contains, Bool.or_eq_false_iff, Bool.and_eq_false_iff,
          decide_eq_false_iff_not, decide_eq_false_iff_not, decide_eq_false_iff_not]
        omega
      rw [cons_append, getResultLine, hnot, if_neg (by simp), if_neg (by omega)]
      simp only [Sum.elim_inl, id]
      omega

theorem getResultLine_stop {r : LineRange} {offset : Int}
    {mid post : List DetailedLineRangeMapping} (h : Around r [] mid post)
    (hapart : Apart (hunksOf mid)) :
    (getResultLine r.endLineNumberExclusive offset (mid ++ post)).elim id
        (fun d => d.outputRange.endLineNumberExclusive) =
      hullEnd r mid + deltaAfter offset (hunksOf mid) := by
  induction mid generalizing offset with
  | nil =>
    rw [nil_append, getResultLine_behind h.behind]
    rfl
  | cons d ds ih =>
    have htouch := h.touching d mem_cons_self
    rw [LineRange.intersectsOrTouches_iff] at htouch
    obtain ⟨hhead, htail⟩ := pairwise_cons.mp hapart
    by_cases hlast : r.endLineNumberExclusive ≤ d.inputRange.endLineNumberExclusive
    · have hnil : ds = [] := by
        refine eq_nil_iff_forall_not_mem.mpr fun x hx => ?_
        have h1 := hhead x.hunk (mem_map_of_mem hx)
        have h2 := h.touching x (mem_cons_of_mem d hx)
        rw [LineRange.intersectsOrTouches_iff] at h2
        simp only [LineRangeMapping.hunk] at h1
        omega
      subst hnil
      rw [cons_append, getResultLine_at htouch.1 hlast]
      simp only [Sum.elim_inr, hullEnd, getLast?_singleton, Option.elim_some, hunksOf_cons,
        deltaAfter_cons, LineRangeMapping.hunk]
      rw [max_eq_right hlast]
      change _ = _ + (_ - _)
      omega
    · have hskip := @getResultLine_skip r.endLineNumberExclusive offset [d] (ds ++ post) fun x hx => by
        rw [mem_singleton.mp hx]
        omega
      have hrest := @ih (d.outputRange.endLineNumberExclusive - d.inputRange.endLineNumberExclusive)
        ⟨h.before, fun x hx => h.touching x (mem_cons_of_mem d hx), h.behind⟩ htail
      rw [cons_append]
      refine (congrArg (fun x => Sum.elim id _ x) hskip).trans (hrest.trans ?_)
      have hhull : hullEnd r ds = hullEnd r (d :: ds) := by
        cases ds with
        | nil =>
          simp only [hullEnd, getLast?_nil, Option.elim_none, getLast?_singleton, Option.elim_some]
          omega
        | cons y ys => rw [hullEnd, hullEnd, getLast?_cons_cons]
      rw [hhull]
      rfl

end TextModelDiffs

theorem hullStart_le (r : LineRange) (mid : List DetailedLineRangeMapping) :
    hullStart r mid ≤ r.startLineNumber := by
  rw [hullStart]
  cases mid.head? with
  | none => exact le_rfl
  | some d => exact min_le_left _ _

theorem le_hullEnd (r : LineRange) (mid : List DetailedLineRangeMapping) :
    r.endLineNumberExclusive ≤ hullEnd r mid := by
  rw [hullEnd]
  cases mid.getLast? with
  | none => exact le_rfl
  | some d => exact le_max_left _ _

section

variable {m : TextModelDiffs} {r : LineRange} {pre mid post : List DetailedLineRangeMapping}

theorem UpToDate.hull (h : UpToDate m) (hdiffs : m.diffs = pre ++ (mid ++ post))
    (haround : Around r pre mid post)
    (hr : 1 ≤ r.startLineNumber ∧ r.endLineNumberExclusive ≤ m.baseTextModel.length + 1) :
    Hull 1 m.baseTextModel (hunksOf pre) (hunksOf mid) (hunksOf post) (hullStart r mid)
      (hullEnd r mid) := by
  have hapart := h.leads.apart
  have hinside := h.leads.aligned.inside
  rw [hdiffs, hunksOf_append, hunksOf_append] at hapart hinside
  obtain ⟨-, hrest, hpre⟩ := pairwise_append.mp hapart
  obtain ⟨hmid, -, hpost⟩ := pairwise_append.mp hrest
  have hle := r.le
  have hstart := hullStart_le r mid
  have hend := le_hullEnd r mid
  refine ⟨⟨?_, by omega, ?_⟩, fun x hx => ?_, fun x hx => ⟨?_, ?_⟩, fun x hx => ?_⟩
  · cases mid with
    | nil => exact hr.1
    | cons d ds =>
      have hd := (hinside d.hunk (mem_append_right _ (mem_append_left _ mem_cons_self))).1.1
      exact le_min hr.1 hd
  · rcases eq_nil_or_concat mid with rfl | ⟨ds, d, rfl⟩
    · exact hr.2.trans_eq (add_comm _ _)
    · have hd := (hinside d.hunk (mem_append_right _ (mem_append_left _ (mem_map_of_mem (by simp))))).1.2.2
      rw [hullEnd, concat_eq_append, getLast?_concat, Option.elim_some]
      simp only [LineRangeMapping.hunk] at hd
      omega
  · obtain ⟨d, hd, rfl⟩ := mem_map.mp hx
    cases mid with
    | nil => exact (haround.before d hd).le
    | cons y ys =>
      have h1 := haround.before d hd
      have h2 := hpre d.hunk hx y.hunk (mem_append_left _ mem_cons_self)
      exact le_min h1.le h2.le
  · cases mid with
    | nil => exact absurd hx not_mem_nil
    | cons y ys =>
      refine (min_le_right _ _).trans ?_
      rcases mem_cons.mp hx with rfl | hx
      · exact le_rfl
      · have := (pairwise_cons.mp hmid).1 x hx
        have := y.inputRange.le
        simp only [LineRangeMapping.hunk] at *
        omega
  · rcases eq_nil_or_concat mid with rfl | ⟨ds, d, rfl⟩
    · exact absurd hx not_mem_nil
    · rw [hullEnd, concat_eq_append, getLast?_concat, Option.elim_some]
      refine le_trans ?_ (le_max_right _ _)
      rw [concat_eq_append, hunksOf_append] at hx hmid
      rcases mem_append.mp hx with hx | hx
      · have h1 := (pairwise_append.mp hmid).2.2 x hx d.hunk mem_cons_self
        have h2 := d.inputRange.le
        simp only [LineRangeMapping.hunk] at h1
        omega
      · rw [mem_singleton.mp hx]
        exact le_rfl
  · obtain ⟨d, hd, rfl⟩ := mem_map.mp hx
    rcases eq_nil_or_concat mid with rfl | ⟨ds, y, rfl⟩
    · exact (haround.behind d hd).le
    · rw [hullEnd, concat_eq_append, getLast?_concat, Option.elim_some]
      have h1 := haround.behind d hd
      have h2 := hpost y.hunk (mem_map_of_mem (by simp)) d.hunk hx
      exact max_le h1.le h2.le

theorem getResultLineRange_ok (h : UpToDate m) (hdiffs : m.diffs = pre ++ (mid ++ post))
    (haround : Around r pre mid post)
    (hr : 1 ≤ r.startLineNumber ∧ r.endLineNumberExclusive ≤ m.baseTextModel.length + 1) :
    ∃ image, m.getResultLineRange r = .ok image ∧
      image.startLineNumber = hullStart r mid + deltaAfter 0 (hunksOf pre) ∧
      image.endLineNumberExclusive = hullEnd r mid + deltaAfter 0 (hunksOf (pre ++ mid)) := by
  have hhull := h.hull hdiffs haround hr
  have haligned := h.leads.aligned
  have hapart := h.leads.apart
  rw [hdiffs] at haligned hapart
  have hnumbered := haligned.numbered
  rw [sub_self] at hnumbered
  have hstart := TextModelDiffs.getResultLine_start haround hnumbered
  have hstop : (TextModelDiffs.getResultLine r.endLineNumberExclusive 0 (pre ++ (mid ++ post))).elim id
      (fun d => d.outputRange.endLineNumberExclusive) =
        hullEnd r mid + deltaAfter 0 (hunksOf (pre ++ mid)) := by
    rw [TextModelDiffs.getResultLine_skip fun d hd => (haround.before d hd).trans_le r.le,
      hunksOf_append, deltaAfter_append]
    rw [hunksOf_append, hunksOf_append] at hapart
    exact TextModelDiffs.getResultLine_stop ⟨fun d hd => absurd hd not_mem_nil,
      haround.touching, haround.behind⟩
      (pairwise_append.mp (pairwise_append.mp hapart).2.1).1
  rw [hunksOf_append, hunksOf_append] at haligned
  obtain ⟨hbounds1, hbounds2, hbounds3⟩ := hhull.bounds
  obtain ⟨-, -, hreach⟩ := haligned.reach hbounds1 (by omega) hhull.before fun x hx => by
    rcases mem_append.mp hx with hx | hx
    · exact (hhull.within x hx).1
    · exact hbounds2.trans (hhull.behind x hx)
  obtain ⟨hle, -, -⟩ := hreach.reach hbounds2 (by rw [length_drop]; omega)
    (fun x hx => (hhull.within x hx).2) hhull.behind
  rw [show (1 : Int) - 1 = 0 by omega, add_sub_cancel_left] at hle
  rw [← deltaAfter_append, ← hunksOf_append] at hle
  refine ⟨⟨_, _, hstart.trans_le (hle.trans_eq hstop.symm)⟩, ?_, hstart, hstop⟩
  rw [TextModelDiffs.getResultLineRange, hdiffs]
  exact LineRange.fromLineNumbers_ok _

end

open Lib Lib.Js Lib.Hunks Lib.Splicing

structure ModifiedBaseRangeData where
  accepted : ModifiedBaseRangeState
  handledInput1 : Bool
  handledInput2 : Bool
  computedFromDiffing : Bool
  previousNonDiffingState : Option ModifiedBaseRangeState

namespace ModifiedBaseRangeData

def new : ModifiedBaseRangeData := ⟨.base, false, false, false, none⟩

end ModifiedBaseRangeData

structure MergeEditorModel where
  models : MergeModels
  resultTextModelDiffs : TextModelDiffs
  modifiedBaseRangeResultStates : List (ModifiedBaseRange × ModifiedBaseRangeData)

namespace MergeEditorModel

def modifiedBaseRanges (m : MergeEditorModel) : List ModifiedBaseRange := m.modifiedBaseRangeResultStates.map Prod.fst

def applyToResult (diffs : TextModelDiffs) :
    Option LineRangeEdit → Except MergeEditorError TextModelDiffs
  | some edit => diffs.applyEditRelativeToOriginal edit
  | none => .ok diffs

def setState (m : MergeEditorModel) (index : Nat) (state : ModifiedBaseRangeState) :
    Except MergeEditorError MergeEditorModel :=
  match m.modifiedBaseRangeResultStates[index]? with
  | none => .error .unknownBaseRange
  | some (baseRange, existingState) => do
      let conflictingDiffs := m.resultTextModelDiffs.findTouchingDiffs baseRange.baseRange
      let cleared ← m.resultTextModelDiffs.removeDiffs conflictingDiffs
      let (edit, effectiveState) ← baseRange.getEditForBase m.models state
      let edited ← applyToResult cleared edit
      .ok { m with
        resultTextModelDiffs := edited
        modifiedBaseRangeResultStates := m.modifiedBaseRangeResultStates.set index
          (baseRange, { existingState with
            accepted := effectiveState
            handledInput1 := true
            handledInput2 := true
            computedFromDiffing := false
            previousNonDiffingState := none }) }

abbrev Call := Nat × ModifiedBaseRangeState

def step (m : MergeEditorModel) (call : Call) : Option MergeEditorModel := (m.setState call.1 call.2).toOption

def editedRanges (m : MergeEditorModel) (call : Call) : List LineRange :=
  match m.modifiedBaseRangeResultStates[call.1]? with
  | none => []
  | some (baseRange, _) =>
    (m.resultTextModelDiffs.findTouchingDiffs baseRange.baseRange).map (fun d => d.inputRange) ++
      match baseRange.getEditForBase m.models call.2 with
      | .ok (some edit, _) => [edit.range]
      | _ => []

/-- No edit of the call begins behind half of a surrogate pair at the end of the text. -/
def IsClearCall (m : MergeEditorModel) (call : Call) : Prop :=
  ∀ range ∈ m.editedRanges call, range.IsClear m.models.base

instance (m : MergeEditorModel) (call : Call) : Decidable (m.IsClearCall call) :=
  inferInstanceAs (Decidable (∀ range ∈ m.editedRanges call, range.IsClear m.models.base))

structure Correct (m : MergeEditorModel) (diffs1 diffs2 : List DetailedLineRangeMapping) : Prop where
  base : IsText m.models.base
  inputs : ∀ i, IsText (m.models.toMergeTexts.input i)
  result : IsText m.resultTextModelDiffs.textModel
  sameBase : m.resultTextModelDiffs.baseTextModel = m.models.base
  inputDiffs : ∀ i, CorrectDiffs m.models.base (m.models.toMergeTexts.input i)
    ((MappingAlignment.sources diffs1 diffs2 i).map DetailedLineRangeMapping.toLineRangeMapping)
  resultDiffs : CorrectDiffs m.models.base m.resultTextModelDiffs.textModel
    (m.resultTextModelDiffs.diffs.map DetailedLineRangeMapping.toLineRangeMapping)
  baseRanges : ModifiedBaseRange.fromDiffs m.models.input1 m.models.input2 diffs1 diffs2 = .ok m.modifiedBaseRanges

def recordedEdits (m : MergeEditorModel) : List LineRangeEdit :=
  editsOf m.resultTextModelDiffs.diffs m.resultTextModelDiffs.textModel

end MergeEditorModel

def editedLines (base : Lines) (range : LineRange) (edit : Option LineRangeEdit) : Lines :=
  splice range.startLineNumber (edit.toList.map LineRangeEdit.toSplice) (textIn base range)

structure SetStateEffect (m m' : MergeEditorModel) (index : Nat) (baseRange : ModifiedBaseRange)
    (edit : Option LineRangeEdit) (effectiveState : ModifiedBaseRangeState) : Prop where
  models : m'.models = m.models
  states : m'.modifiedBaseRangeResultStates = m.modifiedBaseRangeResultStates.set index
    (baseRange, ⟨effectiveState, true, true, false, none⟩)
  /-- The edits that do not touch the range stay, and the edit of the state is added. -/
  edits : ∃ before behind,
    (m.recordedEdits.filter fun e => !e.range.intersectsOrTouches baseRange.baseRange) =
      before ++ behind ∧ m'.recordedEdits = before ++ edit.toList ++ behind
  /-- The lines that stand for the range. -/
  standing : ∃ image, m'.resultTextModelDiffs.getResultLineRange baseRange.baseRange = .ok image ∧
    textIn m'.resultTextModelDiffs.textModel image = editedLines m.models.base baseRange.baseRange edit
  /-- The lines outside of the image of the range. -/
  unchanged : ∃ image lines, m.resultTextModelDiffs.getResultLineRange baseRange.baseRange =
      .ok image ∧
    m'.resultTextModelDiffs.textModel =
      m.resultTextModelDiffs.textModel.take (image.startLineNumber - 1).toNat ++
        (lines ++ m.resultTextModelDiffs.textModel.drop (image.endLineNumberExclusive - 1).toNat)

section

variable {m m' : TextModelDiffs} {r : LineRange} {pre mid post pre' mid' post' : List DetailedLineRangeMapping}

theorem hullStart_eq (h : ∀ d ∈ mid, r.containsRange d.inputRange = true) :
    hullStart r mid = r.startLineNumber := by
  cases mid with
  | nil => rfl
  | cons d ds =>
    have hd := h d List.mem_cons_self
    rw [LineRange.containsRange_iff] at hd
    exact min_eq_left hd.1

theorem hullEnd_eq (h : ∀ d ∈ mid, r.containsRange d.inputRange = true) :
    hullEnd r mid = r.endLineNumberExclusive := by
  rw [hullEnd]
  cases hlast : mid.getLast? with
  | none => rfl
  | some d =>
    have hd := h d (List.mem_of_getLast? hlast)
    rw [LineRange.containsRange_iff] at hd
    exact max_eq_left hd.2

theorem UpToDate.standing (h : UpToDate m) (hdiffs : m.diffs = pre ++ (mid ++ post))
    (haround : Around r pre mid post)
    (hr : 1 ≤ r.startLineNumber ∧ r.endLineNumberExclusive ≤ m.baseTextModel.length + 1)
    (hinside : ∀ d ∈ mid, r.containsRange d.inputRange = true) :
    ∃ image, m.getResultLineRange r = .ok image ∧ textIn m.textModel image =
      splice r.startLineNumber ((editsOf mid m.textModel).map LineRangeEdit.toSplice)
        (textIn m.baseTextModel r) := by
  obtain ⟨image, himage, hstart, hstop⟩ := getResultLineRange_ok h hdiffs haround hr
  have haligned := h.leads.aligned
  rw [hdiffs, hunksOf_append, hunksOf_append] at haligned
  have hmiddle := (h.hull hdiffs haround hr).inside_eq haligned
  rw [sub_self, ← hunksOf_append, ← hstart, ← hstop, hullStart_eq hinside, hullEnd_eq hinside] at hmiddle
  refine ⟨image, himage, ?_⟩
  rw [map_toSplice]
  exact hmiddle

theorem UpToDate.unchanged (h : UpToDate m) (h' : UpToDate m')
    (hbase : m'.baseTextModel = m.baseTextModel) (hdiffs : m.diffs = pre ++ (mid ++ post))
    (hdiffs' : m'.diffs = pre' ++ (mid' ++ post')) (haround : Around r pre mid post)
    (hr : 1 ≤ r.startLineNumber ∧ r.endLineNumberExclusive ≤ m.baseTextModel.length + 1)
    (hinside : ∀ d ∈ mid', r.containsRange d.inputRange = true)
    (hpre : editsOf pre' m'.textModel = editsOf pre m.textModel)
    (hpost : editsOf post' m'.textModel = editsOf post m.textModel) :
    ∃ image lines, m.getResultLineRange r = .ok image ∧
      m'.textModel = m.textModel.take (image.startLineNumber - 1).toNat ++
        (lines ++ m.textModel.drop (image.endLineNumberExclusive - 1).toNat) := by
  obtain ⟨image, himage, hstart, hstop⟩ := getResultLineRange_ok h hdiffs haround hr
  have haligned := h.leads.aligned
  have haligned' := h'.leads.aligned
  rw [hdiffs, hunksOf_append, hunksOf_append] at haligned
  rw [hdiffs', hunksOf_append, hunksOf_append, hbase] at haligned'
  have hhull := h.hull hdiffs haround hr
  have hranges : ∀ {ds ds' : List DetailedLineRangeMapping} {text text' : Lines},
      editsOf ds' text' = editsOf ds text → ∀ x ∈ hunksOf ds', ∃ y ∈ hunksOf ds,
        x.start = y.start ∧ x.stop = y.stop := by
    intro ds ds' text text' heq x hx
    obtain ⟨d, hd, rfl⟩ := List.mem_map.mp hx
    have hmem : (⟨d.inputRange, textIn text' d.outputRange⟩ : LineRangeEdit) ∈ editsOf ds text :=
      heq ▸ List.mem_map_of_mem hd
    obtain ⟨y, hy, hyd⟩ := List.mem_map.mp hmem
    have hrange : y.inputRange = d.inputRange := congrArg LineRangeEdit.range hyd
    exact ⟨y.hunk, List.mem_map_of_mem hy, congrArg LineRange.startLineNumber hrange.symm,
      congrArg LineRange.endLineNumberExclusive hrange.symm⟩
  have hhull' : Hull 1 m.baseTextModel (hunksOf pre') (hunksOf mid') (hunksOf post')
      (hullStart r mid) (hullEnd r mid) := by
    refine ⟨hhull.bounds, fun x hx => ?_, fun x hx => ?_, fun x hx => ?_⟩
    · obtain ⟨y, hy, -, hstop⟩ := hranges hpre x hx
      exact hstop.trans_le (hhull.before y hy)
    · obtain ⟨d, hd, rfl⟩ := List.mem_map.mp hx
      have hd' := hinside d hd
      rw [LineRange.containsRange_iff] at hd'
      exact ⟨(hullStart_le r mid).trans hd'.1, hd'.2.trans (le_hullEnd r mid)⟩
    · obtain ⟨y, hy, hstart, -⟩ := hranges hpost x hx
      exact (hhull.behind y hy).trans_eq hstart.symm
  have hsplices : ∀ {ds ds' : List DetailedLineRangeMapping} {text text' : Lines},
      editsOf ds' text' = editsOf ds text →
        ((hunksOf ds).map fun x => x.splice 1 text) = (hunksOf ds').map fun x => x.splice 1 text' := by
    intro ds ds' text text' heq
    rw [← map_toSplice, ← map_toSplice, heq]
  obtain ⟨lines, hlines⟩ := hhull.outside_eq hhull' haligned haligned' (hsplices hpre) (hsplices hpost)
  rw [sub_self, ← hunksOf_append, ← hstart, ← hstop] at hlines
  exact ⟨image, lines, himage, hlines⟩

end

theorem filter_editsOf (diffs : List DetailedLineRangeMapping) (text : Lines) (r : LineRange) :
    ((editsOf diffs text).filter fun e => !e.range.intersectsOrTouches r) =
      editsOf (diffs.filter fun d => !d.inputRange.intersectsOrTouches r) text := by
  rw [editsOf, editsOf, List.filter_map]
  rfl

theorem Around.filter_not_touching {r : LineRange} {pre mid post : List DetailedLineRangeMapping}
    (h : Around r pre mid post) :
    ((pre ++ (mid ++ post)).filter fun d => !d.inputRange.intersectsOrTouches r) = pre ++ post := by
  rw [List.filter_append, List.filter_append,
    List.filter_eq_self.mpr fun d hd => by simp [h.not_touching d (List.mem_append_left _ hd)],
    List.filter_eq_nil_iff.mpr fun d hd => by simp [h.touching d hd],
    List.filter_eq_self.mpr fun d hd => by simp [h.not_touching d (List.mem_append_right _ hd)], List.nil_append]

namespace MergeEditorModel

theorem Correct.upToDate {m : MergeEditorModel} {diffs1 diffs2 : List DetailedLineRangeMapping}
    (h : m.Correct diffs1 diffs2) : UpToDate m.resultTextModelDiffs :=
  ⟨h.sameBase ▸ h.base, h.result, h.sameBase ▸ leads_iff.mpr h.resultDiffs⟩

theorem Correct.isMerge {m : MergeEditorModel} {diffs1 diffs2 : List DetailedLineRangeMapping}
    (h : m.Correct diffs1 diffs2) : IsMerge m.models diffs1 diffs2 m.modifiedBaseRanges := by
  obtain ⟨baseRanges, hfrom, haligned, -, hbounds⟩ := fromDiffs_areAligned h.inputDiffs
  obtain rfl := Except.ok.inj (hfrom.symm.trans h.baseRanges)
  exact ⟨h.base, h.inputs, fun i => leads_iff.mpr (h.inputDiffs i), haligned, hbounds⟩

theorem setState_ok {m : MergeEditorModel} {diffs1 diffs2 : List DetailedLineRangeMapping}
    (h : m.Correct diffs1 diffs2) {call : Call} {baseRange : ModifiedBaseRange}
    {data : ModifiedBaseRangeData}
    (hget : m.modifiedBaseRangeResultStates[call.1]? = some (baseRange, data))
    (hclear : m.IsClearCall call) :
    ∃ m' edit effectiveState, m.setState call.1 call.2 = .ok m' ∧
      baseRange.getEditForBase m.models call.2 = .ok (edit, effectiveState) ∧
      SetStateEffect m m' call.1 baseRange edit effectiveState ∧ m'.Correct diffs1 diffs2 := by
  have hup := h.upToDate
  have hmem : baseRange ∈ m.modifiedBaseRanges := List.mem_map_of_mem (List.mem_of_getElem? hget)
  have hr := h.isMerge.inBase baseRange hmem
  rw [← h.sameBase] at hr
  obtain ⟨edit, effectiveState, hedit, hisEdit⟩ := h.isMerge.getEditForBase hmem call.2
  obtain ⟨pre, mid, post, hdiffs, haround⟩ := exists_around hup.leads.apart baseRange.baseRange
  have htouching : m.resultTextModelDiffs.findTouchingDiffs baseRange.baseRange = mid := by
    rw [TextModelDiffs.findTouchingDiffs, hdiffs, haround.filter_touching]
  rw [IsClearCall, editedRanges, hget] at hclear
  simp only [htouching, hedit] at hclear
  rw [← h.sameBase] at hclear
  obtain ⟨m1, post1, hremove, hup1, hbase1, hdiffs1, haround1, hedits1⟩ :=
    removeDiffs_ok hup hdiffs haround fun d hd => hclear d.inputRange (List.mem_append_left _ (List.mem_map_of_mem hd))
  rw [hdiffs1, editsOf_append, editsOf_append] at hedits1
  obtain ⟨hpre1, hpost1⟩ := List.append_inj hedits1 (by rw [length_editsOf, length_editsOf])
  obtain ⟨m2, mid2, post2, happly, hup2, hbase2, hdiffs2, haround2, hinside2, hmid2, hpre2, hpost2⟩ :
      ∃ m2 mid2 post2, applyToResult m1 edit = .ok m2 ∧ UpToDate m2 ∧
        m2.baseTextModel = m1.baseTextModel ∧ m2.diffs = pre ++ (mid2 ++ post2) ∧
        Around baseRange.baseRange pre mid2 post2 ∧
        (∀ d ∈ mid2, baseRange.baseRange.containsRange d.inputRange = true) ∧
        editsOf mid2 m2.textModel = edit.toList ∧
        editsOf pre m2.textModel = editsOf pre m1.textModel ∧
        editsOf post2 m2.textModel = editsOf post1 m1.textModel := by
    cases edit with
    | none =>
      exact ⟨m1, [], post1, rfl, hup1, rfl, hdiffs1, haround1, fun d hd => absurd hd List.not_mem_nil, rfl, rfl, rfl⟩
    | some edit =>
      obtain ⟨hcontains, hlines, hsome⟩ := hisEdit edit rfl
      have hcontains' := hcontains
      rw [LineRange.containsRange_iff] at hcontains'
      obtain ⟨m2, d, delta, happly, hup2, hbase2, hdiffs2, hd, hedits2⟩ :=
        applyEdit_ok hup1 hdiffs1 (haround1.of_containsRange hcontains)
          (by rw [hbase1]; omega) hlines (by rw [hbase1, h.sameBase]; exact hsome)
          (by rw [hbase1]; exact hclear edit.range (List.mem_append_right _ List.mem_cons_self))
      rw [hdiffs2, editsOf_append] at hedits2
      obtain ⟨hpre2, hrest2⟩ := List.append_inj hedits2 (by rw [length_editsOf, length_editsOf])
      obtain ⟨hd2, hpost2⟩ := List.cons_eq_cons.mp hrest2
      refine ⟨m2, [d], moved delta post1, happly, hup2, hbase2, hdiffs2, ⟨haround1.before, ?_, ?_⟩,
        ?_, congrArg (· :: []) hd2, hpre2, hpost2⟩
      · intro x hx
        rw [List.mem_singleton.mp hx, hd, LineRange.intersectsOrTouches_iff]
        have := edit.range.le
        omega
      · intro x hx
        obtain ⟨y, hy, rfl⟩ := List.mem_map.mp hx
        exact haround1.behind y hy
      · intro x hx
        rw [List.mem_singleton.mp hx, hd]
        exact hcontains
  rw [hpre1] at hpre2
  rw [hpost1] at hpost2
  rw [hbase1] at hbase2
  have hrecorded : m.recordedEdits = _ := congrArg (fun ds => editsOf ds _) hdiffs
  have hrecorded2 : editsOf m2.diffs m2.textModel =
      editsOf pre m.resultTextModelDiffs.textModel ++ edit.toList ++
        editsOf post m.resultTextModelDiffs.textModel := by
    rw [hdiffs2, editsOf_append, editsOf_append, hpre2, hmid2, hpost2, List.append_assoc]
  have hstanding := hup2.standing hdiffs2 haround2 (by rw [hbase2]; exact hr) hinside2
  rw [hmid2, hbase2, h.sameBase] at hstanding
  refine ⟨{ m with
      resultTextModelDiffs := m2
      modifiedBaseRangeResultStates := m.modifiedBaseRangeResultStates.set call.1
        (baseRange, ⟨effectiveState, true, true, false, none⟩) }, edit, effectiveState, ?_, hedit,
    ⟨rfl, rfl, ⟨editsOf pre m.resultTextModelDiffs.textModel, editsOf post m.resultTextModelDiffs.textModel, ?_,
      hrecorded2⟩, hstanding, hup.unchanged hup2 hbase2 hdiffs hdiffs2 haround hr hinside2 hpre2 hpost2⟩,
    ⟨h.base, h.inputs, hup2.text, hbase2.trans h.sameBase, h.inputDiffs, ?_, ?_⟩⟩
  · rw [setState, hget]
    simp only [htouching, hremove, hedit, happly, bind, Except.bind]
  · rw [hrecorded, filter_editsOf, haround.filter_not_touching, editsOf_append]
  · have hleads := leads_iff.mp hup2.leads
    rwa [hbase2, h.sameBase] at hleads
  · rw [h.baseRanges, modifiedBaseRanges, modifiedBaseRanges]
    dsimp only
    obtain ⟨hlt, hfst⟩ : ∃ hlt, (m.modifiedBaseRangeResultStates.map Prod.fst).get ⟨call.1, hlt⟩ =
        baseRange := by
      obtain ⟨hlt, hval⟩ := List.getElem?_eq_some_iff.mp hget
      exact ⟨by rwa [List.length_map], by simp [hval]⟩
    rw [List.map_set]
    exact congrArg Except.ok ((congrArg _ hfst.symm).trans (List.set_getElem_self hlt)).symm

open Runs in
/-- If no edit of a run begins behind half of a surrogate pair at the end of the text, no call of
`setState` throws, the result is base with the recorded edits all the time, and every call puts
its edit in the place of those that touch its range. -/
theorem setState_run (m : MergeEditorModel) (diffs1 diffs2 : List DetailedLineRangeMapping)
    (h : m.Correct diffs1 diffs2) (calls : List Call)
    (hcalls : ∀ call ∈ calls, call.1 < m.modifiedBaseRanges.length)
    (hclear : Guarded step IsClearCall m calls) :
    ∃ m', run step m calls = some m' ∧ m'.Correct diffs1 diffs2 ∧
      splice 1 (m'.recordedEdits.map LineRangeEdit.toSplice) m'.models.base = m'.resultTextModelDiffs.textModel ∧
      ∀ past call rest, calls = past ++ call :: rest →
        ∃ m1 m2 baseRange edit effectiveState, run step m past = some m1 ∧
          m1.setState call.1 call.2 = .ok m2 ∧ run step m2 rest = some m' ∧
          m1.modifiedBaseRanges[call.1]? = some baseRange ∧
          baseRange.getEditForBase m1.models call.2 = .ok (edit, effectiveState) ∧
          SetStateEffect m1 m2 call.1 baseRange edit effectiveState := by
  induction calls generalizing m with
  | nil =>
    refine ⟨m, rfl, h, ?_, fun past call rest heq => ?_⟩
    · rw [← h.sameBase]
      exact h.upToDate.splice_eq
    · exact absurd heq.symm (List.append_ne_nil_of_right_ne_nil _ (List.cons_ne_nil _ _))
  | cons call calls ih =>
    have hlt := hcalls call List.mem_cons_self
    obtain ⟨⟨baseRange, data⟩, hget⟩ : ∃ x, m.modifiedBaseRangeResultStates[call.1]? = some x :=
      ⟨_, List.getElem?_eq_getElem (by rwa [modifiedBaseRanges, List.length_map] at hlt)⟩
    obtain ⟨m1, edit, effectiveState, hset, hedit, heffect, h1⟩ := setState_ok h hget hclear.1
    have hstep : step m call = some m1 := congrArg Except.toOption hset
    have hsame : m1.modifiedBaseRanges = m.modifiedBaseRanges :=
      Except.ok.inj (h1.baseRanges.symm.trans (by rw [heffect.models]; exact h.baseRanges))
    obtain ⟨m', hrun, h', hsplice, hall⟩ := ih m1 h1
      (fun c hc => hsame ▸ hcalls c (List.mem_cons_of_mem call hc)) (hclear.2 m1 hstep)
    refine ⟨m', by rw [run_cons, hstep]; exact hrun, h', hsplice, fun past c rest heq => ?_⟩
    cases past with
    | nil =>
      obtain ⟨rfl, rfl⟩ := List.cons.inj heq
      refine ⟨m, m1, baseRange, edit, effectiveState, rfl, hset, hrun, ?_, hedit, heffect⟩
      rw [modifiedBaseRanges, List.getElem?_map, hget]
      rfl
    | cons c' past =>
      obtain ⟨rfl, rfl⟩ := List.cons.inj heq
      obtain ⟨a, b, r, e, s, hpast, hrest⟩ := hall past c rest rfl
      exact ⟨a, b, r, e, s, by rw [run_cons, hstep]; exact hpast, hrest⟩

/-- A line of base behind which the first input adds another one. -/
def exampleModel (line : JsString) : MergeEditorModel where
  models := ⟨⟨[line], [line, [98]], [line]⟩, [10], fun _ => [10]⟩
  resultTextModelDiffs := ⟨[line], [line], []⟩
  modifiedBaseRangeResultStates :=
    [(⟨.lines 2 0, .lines 2 1, [⟨⟨.lines 2 0, .lines 2 1⟩, []⟩], .lines 2 0, [], false⟩, .new)]

def addedDiff : DetailedLineRangeMapping := ⟨⟨.lines 2 0, .lines 2 1⟩, []⟩

theorem exampleModel_correct {line : JsString} (h : NoLineBreak line) :
    (exampleModel line).Correct [addedDiff] [] := by
  have hb : NoLineBreak [98] := by
    constructor <;> decide
  have hone : IsText [line] := ⟨List.cons_ne_nil _ _, by simpa using h⟩
  have htwo : IsText [line, [98]] := ⟨List.cons_ne_nil _ _, by simpa using ⟨h, hb⟩⟩
  refine ⟨hone, fun i => ?_, hone, rfl, fun i => ?_, ⟨rfl, List.Pairwise.nil⟩, ?_⟩
  · cases i
    · exact htwo
    · exact hone
  · cases i
    · refine ⟨?_, ?_⟩
      · simp [MappingAlignment.sources, addedDiff, LineRange.lines, exampleModel, MergeTexts.input, Aligned, LineRangeMapping.hunk]
      · simp [MappingAlignment.sources, addedDiff, LineRange.lines, Apart]
    · exact ⟨rfl, List.Pairwise.nil⟩
  · rfl

theorem setState_run_of_line :
    ∃ m', Runs.run step (exampleModel [97]) [(0, .input1)] = some m' ∧
      splice 1 (m'.recordedEdits.map LineRangeEdit.toSplice) m'.models.base =
        m'.resultTextModelDiffs.textModel := by
  obtain ⟨m', hrun, -, hsplice, -⟩ := setState_run (exampleModel [97]) [addedDiff] []
    (exampleModel_correct (by constructor <;> decide)) [(0, .input1)] (by simp [exampleModel, modifiedBaseRanges])
    (by decide)
  exact ⟨m', hrun, hsplice⟩

/-- Behind half of a surrogate pair at the end of the text the edit begins one character early. -/
theorem not_setState_run_behind_surrogate :
    ¬∀ (m : MergeEditorModel) (diffs1 diffs2 : List DetailedLineRangeMapping),
      m.Correct diffs1 diffs2 → ∀ calls : List Call,
        (∀ call ∈ calls, call.1 < m.modifiedBaseRanges.length) →
          ∃ m', Runs.run step m calls = some m' ∧
            splice 1 (m'.recordedEdits.map LineRangeEdit.toSplice) m'.models.base =
              m'.resultTextModelDiffs.textModel := by
  intro hall
  obtain ⟨m', hrun, hsplice⟩ := hall (exampleModel [0xD800]) [addedDiff] []
    (exampleModel_correct (by constructor <;> decide)) [(0, .input1)] (by simp [exampleModel, modifiedBaseRanges])
  have hcomputed : (Runs.run step (exampleModel [0xD800]) [(0, .input1)]).map (fun m =>
      decide (splice 1 (m.recordedEdits.map LineRangeEdit.toSplice) m.models.base =
        m.resultTextModelDiffs.textModel)) = some false := by decide
  rw [hrun, Option.map_some, hsplice, decide_eq_true rfl] at hcomputed
  exact absurd hcomputed (by decide)

end MergeEditorModel

end Gavea.MergeEditor
