import Gavea.ViewLayout.VerticalOffsets

namespace Gavea.ViewLayout

open Gavea.Lib.Runs

namespace LinesLayout

section Cursor

variable {arr : List EditorWhitespace} {lineNumber endLineNumber : Int} {w : Walk}

def passed (arr : List EditorWhitespace) (w : Walk) : Int := ((arr.take w.whitespaceIndex).map (·.height)).sum

def Int32Whitespaces (arr : List EditorWhitespace) : Prop :=
  ∀ x ∈ arr, toInt32 x.afterLineNumber = x.afterLineNumber ∧ toInt32 x.height = x.height

def AtCursor (arr : List EditorWhitespace) (endLineNumber : Int) (w : Walk) : Prop :=
  match arr[w.whitespaceIndex]? with
  | none => w.currentWhitespaceAfterLineNumber = endLineNumber + 1
  | some x => w.currentWhitespaceAfterLineNumber = x.afterLineNumber ∧ w.currentWhitespaceHeight = x.height

structure InFront (arr : List EditorWhitespace) (endLineNumber lineNumber : Int) (w : Walk) :
    Prop where
  atCursor : AtCursor arr endLineNumber w
  front : ∀ x ∈ arr.take w.whitespaceIndex, x.afterLineNumber < lineNumber
  back : ∀ x ∈ arr.drop w.whitespaceIndex, lineNumber ≤ x.afterLineNumber

theorem InFront.passed_eq (h : InFront arr endLineNumber lineNumber w) :
    passed arr w = heightBefore arr lineNumber := (heightBefore_split h.front h.back).symm

/-- What a loop over the whitespaces after a line does: both offsets grow by the same heights. -/
structure Pushed (arr : List EditorWhitespace) (w w' : Walk) : Prop where
  verticalOffset : w'.currentVerticalOffset - passed arr w' = w.currentVerticalOffset - passed arr w
  relativeOffset : w'.currentLineRelativeOffset - passed arr w' = w.currentLineRelativeOffset - passed arr w
  linesOffsets : w'.linesOffsets = w.linesOffsets

theorem passed_succ {i : Nat} {x : EditorWhitespace} (h : arr[i]? = some x) :
    ((arr.take (i + 1)).map (·.height)).sum = ((arr.take i).map (·.height)).sum + x.height := by
  obtain ⟨hlt, rfl⟩ := List.getElem?_eq_some_iff.mp h
  rw [List.take_succ_eq_append_getElem hlt, List.map_append, List.sum_append, List.map_singleton, List.sum_singleton]

theorem add_sub_passed {x : EditorWhitespace} (hx : arr[w.whitespaceIndex]? = some x)
    (hheight : w.currentWhitespaceHeight = x.height) (offset : ℚ) :
    offset + w.currentWhitespaceHeight - (((arr.take (w.whitespaceIndex + 1)).map (·.height)).sum : Int) =
    offset - passed arr w := by
  rw [passed, passed_succ hx, hheight]
  push_cast
  ring

theorem forall_take_succ {i : Nat} {x : EditorWhitespace} {P : EditorWhitespace → Prop}
    (h : arr[i]? = some x) (hx : P x) (hfront : ∀ y ∈ arr.take i, P y) :
    ∀ y ∈ arr.take (i + 1), P y := by
  obtain ⟨hlt, rfl⟩ := List.getElem?_eq_some_iff.mp h
  rw [List.take_succ_eq_append_getElem hlt]
  intro y hy
  rcases List.mem_append.mp hy with hy | hy
  · exact hfront y hy
  · rwa [List.mem_singleton.mp hy]

theorem pushDown_spec (hint : Int32Whitespaces arr) (hsorted : ByLine arr)
    (hend : lineNumber ≤ endLineNumber) (hcursor : AtCursor arr endLineNumber w)
    (hfront : ∀ x ∈ arr.take w.whitespaceIndex, x.afterLineNumber < lineNumber + 1)
    (hback : ∀ x ∈ arr.drop w.whitespaceIndex, lineNumber ≤ x.afterLineNumber) :
    InFront arr endLineNumber (lineNumber + 1) (pushDown arr lineNumber endLineNumber w) ∧
      Pushed arr w (pushDown arr lineNumber endLineNumber w) := by
  have hsome : ∀ w : Walk, AtCursor arr endLineNumber w →
      w.currentWhitespaceAfterLineNumber = lineNumber → ∃ x, arr[w.whitespaceIndex]? = some x ∧
        x.afterLineNumber = lineNumber ∧ w.currentWhitespaceHeight = x.height := by
    intro w hcursor hline
    unfold AtCursor at hcursor
    split at hcursor
    · omega
    · rename_i x hx
      exact ⟨x, hx, hcursor.1 ▸ hline, hcursor.2⟩
  induction w using pushDown.induct arr lineNumber with
  | case1 w hline hnone =>
    obtain ⟨x, hx, hafter, hheight⟩ := hsome w hcursor hline
    have hlen := List.getElem?_eq_none_iff.mp hnone
    rw [pushDown, if_pos hline]
    split
    · refine ⟨⟨?_, ?_, ?_⟩, ⟨?_, ?_, rfl⟩⟩
      · unfold AtCursor
        rw [hnone]
      · exact forall_take_succ hx (by omega) hfront
      · intro y hy
        rw [List.drop_eq_nil_of_le hlen] at hy
        cases hy
      · exact add_sub_passed hx hheight _
      · exact add_sub_passed hx hheight _
    · rename_i y hy
      rw [hnone] at hy
      cases hy
  | case2 w hline pushed y hy ih =>
    obtain ⟨x, hx, hafter, hheight⟩ := hsome w hcursor hline
    obtain ⟨hint1, hint2⟩ := hint y (List.mem_of_getElem? hy)
    rw [pushDown, if_pos hline]
    split
    · rename_i hnone
      rw [hnone] at hy
      cases hy
    · rename_i z hz
      obtain rfl := Option.some.inj (hy.symm.trans hz)
      obtain ⟨hin, hoffset, hrelative, hlines⟩ := ih (by
          unfold AtCursor
          rw [hy]
          exact ⟨hint1, hint2⟩)
        (forall_take_succ hx (by omega) hfront)
        (fun z hz => hback z (List.drop_subset_drop_left arr (Nat.le_succ _) hz))
      refine ⟨hin, ⟨hoffset.trans ?_, hrelative.trans ?_, hlines⟩⟩
      · exact add_sub_passed hx hheight _
      · exact add_sub_passed hx hheight _
  | case3 w hline =>
    rw [pushDown, if_neg hline]
    refine ⟨⟨hcursor, hfront, fun y hy => ?_⟩, ⟨rfl, rfl, rfl⟩⟩
    obtain ⟨i, hi, rfl⟩ := List.mem_iff_getElem.mp hy
    rw [List.length_drop] at hi
    have hlt : w.whitespaceIndex < arr.length := by omega
    unfold AtCursor at hcursor
    rw [List.getElem?_eq_getElem hlt] at hcursor
    have hfirst := hback arr[w.whitespaceIndex] (List.mem_of_getElem? (i := 0) (by
      rw [List.getElem?_drop, Nat.add_zero, List.getElem?_eq_getElem hlt]))
    rw [List.getElem_drop]
    rcases Nat.eq_zero_or_pos i with rfl | hpos
    · simp only [Nat.add_zero]
      omega
    · have hle := List.pairwise_iff_getElem.mp hsorted w.whitespaceIndex (w.whitespaceIndex + i)
        hlt (by omega) (by omega)
      omega

end Cursor

section Walk

variable {s₀ s : LinesLayout} {arr : List EditorWhitespace} {first last lineNumber : Int}
  {delta : ℚ} {w : Walk}

structure Walkable (s₀ : LinesLayout) (arr : List EditorWhitespace) : Prop where
  int32 : Int32Whitespaces arr
  byLine : ByLine arr
  top_succ : ∀ n, 1 ≤ n → s₀.topOf (n + 1) = s₀.topOf n + s₀.heightOf n +
    ((heightBefore arr (n + 1) - heightBefore arr n : Int) : ℚ)

structure Walked (s₀ : LinesLayout) (arr : List EditorWhitespace) (first last : Int) (delta : ℚ)
    (lineNumber : Int) (w : Walk) : Prop where
  cursor : InFront arr last lineNumber w
  verticalOffset : w.currentVerticalOffset = s₀.topOf lineNumber
  relativeOffset : w.currentLineRelativeOffset = s₀.topOf lineNumber - delta
  linesOffsets : w.linesOffsets =
    (List.range (lineNumber - first).toNat).map fun i : Nat => s₀.topOf (first + i) - delta

theorem walkLine_spec (hwalk : Walkable s₀ arr) (h : InFront arr last lineNumber w)
    (hlast : lineNumber ≤ last) (lineHeight verticalCenter : ℚ) :
    ∃ w', walkLine lineHeight verticalCenter arr lineNumber last w = w' ∧
      InFront arr last (lineNumber + 1) w' ∧
      w'.currentVerticalOffset - heightBefore arr (lineNumber + 1) =
        w.currentVerticalOffset + lineHeight - heightBefore arr lineNumber ∧
      w'.currentLineRelativeOffset - heightBefore arr (lineNumber + 1) =
        w.currentLineRelativeOffset + lineHeight - heightBefore arr lineNumber ∧
      w'.linesOffsets = w.linesOffsets ++ [w.currentLineRelativeOffset] := by
  refine ⟨_, rfl, ?_⟩
  obtain ⟨hin, hoffset, hrelative, hlines⟩ := pushDown_spec (w :=
      { w with
        centeredLineNumber := if w.centeredLineNumber = -1 ∧
            (w.currentVerticalOffset ≤ verticalCenter ∧
              verticalCenter < w.currentVerticalOffset + lineHeight ∨
              w.currentVerticalOffset > verticalCenter) then lineNumber
          else w.centeredLineNumber
        currentVerticalOffset := w.currentVerticalOffset + lineHeight
        linesOffsets := w.linesOffsets ++ [w.currentLineRelativeOffset]
        currentLineRelativeOffset := w.currentLineRelativeOffset + lineHeight })
    hwalk.int32 hwalk.byLine hlast h.atCursor
    (fun x hx => Int.lt_add_one_of_le (h.front x hx).le) h.back
  rw [hin.passed_eq] at hoffset hrelative
  rw [← h.passed_eq]
  exact ⟨hin, hoffset, hrelative, hlines⟩

theorem walkLine_walked (hwalk : Walkable s₀ arr) (h : Walked s₀ arr first last delta lineNumber w)
    (hpos : 1 ≤ lineNumber) (hfirst : first ≤ lineNumber) (hlast : lineNumber ≤ last)
    (verticalCenter : ℚ) :
    Walked s₀ arr first last delta (lineNumber + 1)
      (walkLine (s₀.heightOf lineNumber) verticalCenter arr lineNumber last w) := by
  obtain ⟨hcursor, hoffset, hrelative, hlines⟩ := h
  obtain ⟨w', hw', hin, hoffset', hrelative', hlines'⟩ := walkLine_spec hwalk hcursor hlast
    (s₀.heightOf lineNumber) verticalCenter
  rw [hoffset] at hoffset'
  rw [hrelative] at hrelative'
  have hsucc := hwalk.top_succ lineNumber hpos
  push_cast at hsucc
  rw [hw']
  refine ⟨hin, by linarith, by linarith, ?_⟩
  have hcount : (lineNumber + 1 - first).toNat = (lineNumber - first).toNat + 1 := by omega
  rw [hlines', hcount, List.range_succ, List.map_append, List.map_singleton, ← hlines, hrelative,
    Int.toNat_of_nonneg (by omega), add_sub_cancel]

theorem walkLines_spec (hwalk : Walkable s₀ arr) (verticalOffset2 : Int) (verticalCenter : ℚ)
    (count : Nat) (hs : Unmoved s₀ s) (harr : s.arr = arr)
    (h : Walked s₀ arr first last delta lineNumber w) (hpos : 1 ≤ lineNumber)
    (hfirst : first ≤ lineNumber) (hcount : (count : Int) = last + 1 - lineNumber) :
    ∃ w' endLineNumber,
      (walkLines verticalOffset2 verticalCenter last count s lineNumber w).1 = (w', endLineNumber) ∧
      Walked s₀ arr first last delta (endLineNumber + 1) w' ∧
      lineNumber ≤ endLineNumber + 1 ∧ (0 < count → lineNumber ≤ endLineNumber) ∧
      endLineNumber ≤ last ∧
      (endLineNumber = last ∨ (verticalOffset2 : ℚ) ≤ s₀.topOf (endLineNumber + 1)) ∧
      ∀ n, lineNumber ≤ n → n < endLineNumber → s₀.topOf (n + 1) < verticalOffset2 := by
  induction count generalizing s lineNumber w with
  | zero =>
    obtain rfl : lineNumber = last + 1 := by omega
    exact ⟨w, last, rfl, h, le_rfl, fun hcount => absurd hcount (Nat.lt_irrefl 0), le_rfl,
      Or.inl rfl, fun n hn hn' => by omega⟩
  | succ count ih =>
    have hlast : lineNumber ≤ last := by omega
    have hline := walkLine_walked hwalk h hpos hfirst hlast verticalCenter
    rw [walkLines]
    simp only [getLineHeightForLineNumber_eq, hs.heightOf, harr]
    split_ifs with hcovered
    · rw [hline.verticalOffset] at hcovered
      exact ⟨_, lineNumber, rfl, hline, by omega, fun _ => le_rfl, hlast, Or.inr hcovered, fun n hn hn' => by omega⟩
    · rw [hline.verticalOffset, ge_iff_le, not_le] at hcovered
      have hs' := hs.trans (getLineHeightForLineNumber_unmoved s lineNumber)
      obtain ⟨w', e, heq, hwalked, hle, -, hlast', hcover, hmore⟩ := ih hs' harr hline (by omega) (by omega) (by omega)
      refine ⟨w', e, heq, hwalked, by omega, fun _ => by omega, hlast', hcover, fun n hn hn' => ?_⟩
      rcases lt_or_eq_of_le hn with hn | rfl
      · exact hmore n (by omega) hn'
      · exact hcovered

theorem startWalk_walked (hint : Int32Whitespaces s.arr) (hsorted : ByLine s.arr)
    {top : Int} (htop : (top : ℚ) = s₀.topOf first) :
    Walked s₀ s.arr first last delta first (s.startWalk first last top delta) := by
  have hlines : ([] : List ℚ) =
      (List.range (first - first).toNat).map fun i : Nat => s₀.topOf (first + i) - delta := by
    rw [Int.sub_self]
    rfl
  obtain ⟨k, hstart, hfront, hback⟩ : ∃ k,
      s.startWalk first last top delta = (match s.arr[k]? with
        | none => ⟨s.arr.length, last + 1, 0, top, top - delta, [], -1⟩
        | some x => ⟨k, toInt32 x.afterLineNumber, toInt32 x.height, top, top - delta, [], -1⟩) ∧
      (∀ x ∈ s.arr.take k, x.afterLineNumber < first) ∧
      ∀ x ∈ s.arr.drop k, first ≤ x.afterLineNumber := by
    have hspec := findLast_spec hsorted first
    unfold startWalk
    cases hlast : s.findLastWhitespaceBeforeLineNumber first with
    | none =>
      rw [hlast] at hspec
      exact ⟨0, rfl, fun x hx => absurd hx List.not_mem_nil, hspec⟩
    | some index =>
      rw [hlast] at hspec
      exact ⟨index + 1, rfl, hspec.2⟩
  rw [hstart]
  cases hget : s.arr[k]? with
  | none =>
    have hlen := List.getElem?_eq_none_iff.mp hget
    refine ⟨⟨?_, ?_, ?_⟩, htop, by rw [htop], hlines⟩
    · unfold AtCursor
      rw [List.getElem?_eq_none le_rfl]
    · rw [List.take_length]
      rwa [List.take_of_length_le hlen] at hfront
    · intro x hx
      rw [List.drop_length] at hx
      cases hx
  | some x =>
    refine ⟨⟨?_, hfront, hback⟩, htop, by rw [htop], hlines⟩
    unfold AtCursor
    rw [hget]
    exact hint x (List.mem_of_getElem? hget)

theorem completelyVisible_eq (h : Laid s) (first top verticalOffset1 verticalOffset2 : Int)
    (hline : toInt32 lineNumber = lineNumber) :
    (s.completelyVisible first lineNumber top verticalOffset1 verticalOffset2).1 =
      let start := if first < lineNumber ∧ top < verticalOffset1 then first + 1 else first
      (start, if start < lineNumber ∧
          truncInt32 (s.topOf lineNumber) + s.heightOf lineNumber > verticalOffset2 then
        lineNumber - 1 else lineNumber) := by
  have hend := getVerticalOffsetForLineNumber_unmoved lineNumber false h.exact
  unfold completelyVisible
  simp only
  generalize (if first < lineNumber ∧ top < verticalOffset1 then first + 1 else first) = start
  rw [getLineHeightForLineNumber_eq, hend.heightOf, getVerticalOffsetForLineNumber_eq h hline]
  by_cases hlt : start < lineNumber
  · by_cases hgt : truncInt32 (s.topOf lineNumber) + s.heightOf lineNumber > verticalOffset2
    · rw [if_pos hlt, if_pos hgt, if_pos ⟨hlt, hgt⟩]
    · rw [if_pos hlt, if_neg hgt, if_neg fun hand => hgt hand.2]
  · rw [if_neg hlt, if_neg fun hand => hlt hand.1]

structure Answered (s : LinesLayout) (verticalOffset1 verticalOffset2 : Int)
    (data : IPartialViewLinesViewportData) : Prop where
  start : s.IsLineAt verticalOffset1 data.startLineNumber
  le : data.startLineNumber ≤ data.endLineNumber
  le_last : data.endLineNumber ≤ s.lineCount
  covered : data.endLineNumber = s.lineCount ∨ (verticalOffset2 : ℚ) ≤ s.topOf (data.endLineNumber + 1)
  uncovered : ∀ n, data.startLineNumber ≤ n → n < data.endLineNumber → s.topOf (n + 1) < verticalOffset2
  offsets : data.relativeVerticalOffset =
    (List.range (data.endLineNumber + 1 - data.startLineNumber).toNat).map
      fun i : Nat => s.topOf (data.startLineNumber + i) - data.bigNumbersDelta
  visibleStart : data.completelyVisibleStartLineNumber =
    if data.startLineNumber < data.endLineNumber ∧ s.topOf data.startLineNumber < verticalOffset1
    then data.startLineNumber + 1 else data.startLineNumber
  visibleEnd : data.completelyVisibleEndLineNumber =
    if data.completelyVisibleStartLineNumber < data.endLineNumber ∧
      (verticalOffset2 : ℚ) < s.topOf data.endLineNumber + s.heightOf data.endLineNumber
    then data.endLineNumber - 1 else data.endLineNumber

theorem truncInt32_mem (x : ℚ) : -2 ^ 31 ≤ truncInt32 x ∧ truncInt32 x < 2 ^ 31 := by
  unfold truncInt32 toInt32
  have hle := Int.le_bmod (x := x.num.tdiv x.den) (m := 2 ^ 32) (by omega)
  have hlt := Int.bmod_lt (x := x.num.tdiv x.den) (m := 2 ^ 32) (by omega)
  exact ⟨by omega, by omega⟩

variable {defaultLineHeight : ℚ}

theorem walkable (h : LaidOut defaultLineHeight s₀) (hfits : CommitFits s₀.lineHeightsManager)
    (hint : Int32Whitespaces s₀.arr) (hs : Unmoved s₀ s) : Walkable s₀ s.arr := by
  refine ⟨?_, (h.laid.unmoved hs).byLine, fun n hn => ?_⟩
  · have hshape : ∀ x ∈ s₀.arr.map shape,
        toInt32 x.afterLineNumber = x.afterLineNumber ∧ toInt32 x.height = x.height := by
      intro x hx
      obtain ⟨y, hy, rfl⟩ := List.mem_map.mp hx
      exact hint y hy
    rw [← hs.shape] at hshape
    exact fun x hx => hshape (shape x) (List.mem_map_of_mem hx)
  · rw [heightBefore_of_shape hs.shape, heightBefore_of_shape hs.shape]
    exact topOf_succ h hfits hn

theorem getLinesViewportData_answered (h : LaidOut defaultLineHeight s)
    (hfits : CommitFits s.lineHeightsManager) (hm : Measured s)
    (hint : Int32Whitespaces s.arr) (verticalOffset1 verticalOffset2 : ℚ) :
    Answered s (truncInt32 verticalOffset1) (truncInt32 verticalOffset2)
      (s.getLinesViewportData verticalOffset1 verticalOffset2).1 := by
  obtain ⟨hcount, hsmall⟩ := hm.lines
  have hedged := edged h hfits hm
  generalize hv1 : truncInt32 verticalOffset1 = v1
  generalize hv2 : truncInt32 verticalOffset2 = v2
  have hv1' := truncInt32_mem verticalOffset1
  rw [hv1] at hv1'
  have hoffset : s.OffsetFits (v1 : ℚ) := by
    refine ⟨by exact_mod_cast (by omega : -2 ^ 31 - 1 < v1), by exact_mod_cast hv1'.2, ?_⟩
    rcases lt_or_ge v1 0 with hneg | hpos
    · exact Or.inl (by exact_mod_cast (by omega : v1 ≤ -1))
    · exact Or.inr (Or.inl (by exact_mod_cast hpos))
  have hfirst := getLineNumberAtOrAfterVerticalOffset_spec h hfits hm hoffset
  have hunmoved := getLineNumberAtOrAfterVerticalOffset_unmoved (v1 : ℚ) h.laid.exact
  unfold getLinesViewportData
  dsimp only
  rw [hv1, hv2]
  generalize s.getLineNumberAtOrAfterVerticalOffset (v1 : ℚ) = first at hfirst hunmoved ⊢
  obtain ⟨start, s₁⟩ := first
  dsimp only at hfirst hunmoved ⊢
  obtain ⟨hpos, hle⟩ := And.intro hfirst.1 hfirst.2.1
  have htop : (s₁.getVerticalOffsetForLineNumber start).1 = s.topOf start := by
    rw [getVerticalOffsetForLineNumber_eq (h.laid.unmoved hunmoved)
      (toInt32_of_mem (by omega) (by omega)), hunmoved.topOf]
  have hunmoved' := hunmoved.trans (getVerticalOffsetForLineNumber_unmoved start false (hunmoved.exact h.laid.exact))
  generalize s₁.getVerticalOffsetForLineNumber start = firstOffset at htop hunmoved' ⊢
  obtain ⟨offset, s₂⟩ := firstOffset
  dsimp only at htop hunmoved' ⊢
  subst htop
  rw [hunmoved'.lineCount, toInt32_of_mem (by omega) hsmall]
  have hwalk := walkable h hfits hint hunmoved'
  have hwhole := hedged.whole start hpos hle
  have hlaid := h.laid.unmoved hunmoved'
  generalize bigNumbersDeltaOf (truncInt32 (s.topOf start)) s₂.lineHeightsManager.defaultLineHeight = delta
  have hstart : Walked s s₂.arr start s.lineCount delta start
      (s₂.startWalk start s.lineCount (truncInt32 (s.topOf start)) delta) :=
    startWalk_walked hwalk.int32 hwalk.byLine hwhole
  obtain ⟨w', e, heq, hwalked, -, hge, hlast, hcovered, huncovered⟩ := walkLines_spec hwalk v2
    ((v1 : ℚ) + ((v2 - v1 : Int) : ℚ) / 2) (s.lineCount + 1 - start).toNat hunmoved' rfl hstart
    hpos le_rfl (by omega)
  have hunmoved'' := hunmoved'.trans (walkLines_unmoved v2 ((v1 : ℚ) + ((v2 - v1 : Int) : ℚ) / 2)
    s.lineCount (s.lineCount + 1 - start).toNat s₂ start
    (s₂.startWalk start s.lineCount (truncInt32 (s.topOf start)) delta))
  generalize walkLines v2 ((v1 : ℚ) + ((v2 - v1 : Int) : ℚ) / 2) s.lineCount
    (s.lineCount + 1 - start).toNat s₂ start
    (s₂.startWalk start s.lineCount (truncInt32 (s.topOf start)) delta) = walk at heq hunmoved'' ⊢
  obtain ⟨found, s₃⟩ := walk
  dsimp only at heq hunmoved'' ⊢
  subst heq
  have hge' := hge (by omega)
  have hvisible := completelyVisible_eq (h.laid.unmoved hunmoved'') start
    (truncInt32 (s.topOf start)) v1 v2 (toInt32_of_mem (n := e) (by omega) (by omega))
  rw [hunmoved''.topOf, hunmoved''.heightOf, hedged.whole e (by omega) hlast] at hvisible
  have hbefore : truncInt32 (s.topOf start) < v1 ↔ s.topOf start < v1 := by
    conv_rhs => rw [← hwhole]
    exact Int.cast_lt.symm
  refine ⟨hfirst, hge', hlast, hcovered, huncovered, hwalked.linesOffsets, ?_, ?_⟩
  · exact (congrArg Prod.fst hvisible).trans (if_congr (and_congr_right' hbefore) rfl rfl)
  · have hstart := congrArg Prod.fst hvisible
    dsimp only at hstart ⊢
    rw [hstart]
    exact congrArg Prod.snd hvisible

end Walk

section Viewport

variable {s : LinesLayout} {defaultLineHeight : ℚ}

def Intersects (s : LinesLayout) (top bottom : ℚ) (lineNumber : Int) : Prop :=
  1 ≤ lineNumber ∧ lineNumber ≤ s.lineCount ∧
  (s.getVerticalOffsetForLineNumber lineNumber).1 < bottom ∧ top < s.bottomEdge lineNumber

/-- A line of a viewport that sticks out at neither end. -/
def Inside (s : LinesLayout) (top bottom : ℚ) (lineNumber : Int) : Prop :=
  s.Intersects top bottom lineNumber ∧
  top ≤ (s.getVerticalOffsetForLineNumber lineNumber).1 ∧ s.bottomEdge lineNumber ≤ bottom

structure Covers (s : LinesLayout) (top bottom : ℚ) (data : IPartialViewLinesViewportData) :
    Prop where
  range : 1 ≤ data.startLineNumber ∧ data.startLineNumber ≤ data.endLineNumber ∧ data.endLineNumber ≤ s.lineCount
  length : (data.relativeVerticalOffset.length : Int) = data.endLineNumber + 1 - data.startLineNumber
  offsets : ∀ (i : Nat) (offset : ℚ), data.relativeVerticalOffset[i]? = some offset →
    offset + data.bigNumbersDelta = (s.getVerticalOffsetForLineNumber (data.startLineNumber + i)).1
  intersecting : ∀ n, s.Intersects top bottom n → data.startLineNumber ≤ n ∧ n ≤ data.endLineNumber
  visible : (∃ n, s.Inside top bottom n) → ∀ n,
    data.completelyVisibleStartLineNumber ≤ n ∧ n ≤ data.completelyVisibleEndLineNumber ↔ s.Inside top bottom n

def Rounds (s : LinesLayout) (verticalOffset : ℚ) : Prop :=
  ∀ n, 1 ≤ n → n ≤ s.lineCount →
    ((s.getVerticalOffsetForLineNumber n).1 < truncInt32 verticalOffset ↔
      (s.getVerticalOffsetForLineNumber n).1 < verticalOffset) ∧
    (s.bottomEdge n ≤ truncInt32 verticalOffset ↔ s.bottomEdge n ≤ verticalOffset)

theorem rounds_intCast (s : LinesLayout) {k : Int} (hge : -2 ^ 31 ≤ k) (hlt : k < 2 ^ 31) :
    s.Rounds k := by
  intro n _ _
  rw [truncInt32_intCast hge hlt]
  exact ⟨Iff.rfl, Iff.rfl⟩

theorem Rounds.intersects {top bottom : ℚ} (htop : s.Rounds top) (hbottom : s.Rounds bottom)
    (n : Int) :
    s.Intersects (truncInt32 top) (truncInt32 bottom) n ↔ s.Intersects top bottom n := by
  refine and_congr_right fun hn => and_congr_right fun hn' => ?_
  rw [(hbottom n hn hn').1, ← @not_le _ _ (s.bottomEdge n), (htop n hn hn').2, not_le]

theorem Rounds.inside {top bottom : ℚ} (htop : s.Rounds top) (hbottom : s.Rounds bottom) (n : Int) :
    s.Inside (truncInt32 top) (truncInt32 bottom) n ↔ s.Inside top bottom n := by
  unfold Inside
  rw [htop.intersects hbottom]
  refine and_congr_right fun hn => ?_
  rw [(hbottom n hn.1 hn.2.1).2, ← not_lt, (htop n hn.1 hn.2.1).1, not_lt]

theorem Covers.of_rounds {top bottom : ℚ} {data : IPartialViewLinesViewportData}
    (htop : s.Rounds top) (hbottom : s.Rounds bottom)
    (h : s.Covers (truncInt32 top) (truncInt32 bottom) data) : s.Covers top bottom data := by
  obtain ⟨hrange, hlength, hoffsets, hintersecting, hvisible⟩ := h
  refine ⟨hrange, hlength, hoffsets, fun n hn => hintersecting n ?_, fun ⟨n, hn⟩ m => ?_⟩
  · exact (htop.intersects hbottom n).mpr hn
  · rw [hvisible ⟨n, (htop.inside hbottom n).mpr hn⟩, htop.inside hbottom]

variable {v1 v2 : Int} {data : IPartialViewLinesViewportData}

theorem Answered.inside_iff (h : Answered s v1 v2 data) (hedged : Edged s s.lineCount)
    (hintersecting : ∀ n, s.Intersects v1 v2 n → data.startLineNumber ≤ n ∧ n ≤ data.endLineNumber)
    (hlt : data.startLineNumber < data.endLineNumber) (n : Int) :
    s.Inside v1 v2 n ↔ (data.startLineNumber ≤ n ∧ n ≤ data.endLineNumber) ∧
      (n = data.startLineNumber → ¬s.topOf data.startLineNumber < v1) ∧
      (n = data.endLineNumber →
        ¬(v2 : ℚ) < s.topOf data.endLineNumber + s.heightOf data.endLineNumber) := by
  obtain ⟨⟨hpos, -, -, hback⟩, -, hlast, -, huncovered, -, -, -⟩ := h
  have hsmall := hedged.small
  constructor
  · rintro ⟨hin, habove, hbelow⟩
    have hn := hintersecting n hin
    rw [getVerticalOffsetForLineNumber_eq hedged.laid (toInt32_of_mem (by omega) (by omega))] at habove
    rw [bottomEdge_eq hedged.laid (by omega) (by omega)] at hbelow
    exact ⟨hn, fun heq => not_lt.mpr (heq ▸ habove), fun heq => not_lt.mpr (heq ▸ hbelow)⟩
  · rintro ⟨⟨hn, hn'⟩, habove, hbelow⟩
    have hheight := hedged.height n (by omega) (by omega)
    have hfirst : (v1 : ℚ) < s.topOf data.startLineNumber + s.heightOf data.startLineNumber := by
      rw [← bottomEdge_eq hedged.laid hpos (by omega)]
      exact hback.resolve_right (by omega)
    have hfit : (v1 : ℚ) ≤ s.topOf n ∧ (v1 : ℚ) < s.topOf n + s.heightOf n := by
      rcases eq_or_lt_of_le hn with rfl | hgt
      · exact ⟨not_lt.mp (habove rfl), hfirst⟩
      · have hmono := hedged.top_mono hpos hgt (by omega)
        exact ⟨by linarith, by linarith⟩
    have hfit' : s.topOf n + s.heightOf n ≤ v2 ∧ s.topOf n < v2 := by
      rcases eq_or_lt_of_le hn' with rfl | hlt'
      · have hprev := huncovered (data.endLineNumber - 1) (by omega) (by omega)
        rw [Int.sub_add_cancel] at hprev
        exact ⟨not_lt.mp (hbelow rfl), hprev⟩
      · have hnext := huncovered n hn hlt'
        have hmono := hedged.next n (by omega) (by omega)
        exact ⟨by linarith, by linarith⟩
    unfold Inside Intersects
    rw [getVerticalOffsetForLineNumber_eq hedged.laid (toInt32_of_mem (by omega) (by omega)),
      bottomEdge_eq hedged.laid (by omega) (by omega)]
    exact ⟨⟨by omega, by omega, hfit'.2, hfit.2⟩, hfit.1, hfit'.1⟩

theorem Answered.visible (h : Answered s v1 v2 data) (hedged : Edged s s.lineCount)
    (hintersecting : ∀ n, s.Intersects v1 v2 n → data.startLineNumber ≤ n ∧ n ≤ data.endLineNumber)
    {m : Int} (hm : s.Inside v1 v2 m) (n : Int) :
    data.completelyVisibleStartLineNumber ≤ n ∧ n ≤ data.completelyVisibleEndLineNumber ↔
      s.Inside v1 v2 n := by
  have hstart := h.visibleStart
  have hend := h.visibleEnd
  rcases eq_or_lt_of_le h.le with heq | hlt
  · rw [if_neg (by omega)] at hstart
    rw [if_neg (by omega)] at hend
    have hm' := hintersecting m hm.1
    constructor
    · intro hn
      obtain rfl : n = m := by omega
      exact hm
    · intro hn
      have hn' := hintersecting n hn.1
      omega
  · have hin := h.inside_iff hedged hintersecting hlt
    have hm' := (hin m).mp hm
    rw [hin n]
    by_cases habove : s.topOf data.startLineNumber < v1
    · rw [if_pos ⟨hlt, habove⟩] at hstart
      by_cases hbelow : (v2 : ℚ) < s.topOf data.endLineNumber + s.heightOf data.endLineNumber
      · have hne : m ≠ data.startLineNumber := fun heq => hm'.2.1 heq habove
        have hne' : m ≠ data.endLineNumber := fun heq => hm'.2.2 heq hbelow
        rw [if_pos ⟨by omega, hbelow⟩] at hend
        simp only [habove, hbelow, not_true_eq_false, imp_false]
        omega
      · rw [if_neg fun hand => hbelow hand.2] at hend
        simp only [habove, hbelow, not_true_eq_false, not_false_eq_true, imp_false, implies_true, and_true]
        omega
    · rw [if_neg fun hand => habove hand.2] at hstart
      by_cases hbelow : (v2 : ℚ) < s.topOf data.endLineNumber + s.heightOf data.endLineNumber
      · rw [if_pos ⟨by omega, hbelow⟩] at hend
        simp only [habove, hbelow, not_true_eq_false, not_false_eq_true, imp_false, implies_true, true_and]
        omega
      · rw [if_neg fun hand => hbelow hand.2] at hend
        simp only [habove, hbelow, not_false_eq_true, implies_true, and_true]
        omega

theorem Answered.intersecting (h : Answered s v1 v2 data) (hedged : Edged s s.lineCount) (n : Int)
    (hn : s.Intersects v1 v2 n) : data.startLineNumber ≤ n ∧ n ≤ data.endLineNumber := by
  obtain ⟨⟨hpos, -, hfront, -⟩, hle, -, hcovered, -, -, -, -⟩ := h
  obtain ⟨hn, hn', hbelow, habove⟩ := hn
  have hsmall := hedged.small
  rw [getVerticalOffsetForLineNumber_eq hedged.laid (toInt32_of_mem (by omega) (by omega))] at hbelow
  refine ⟨le_of_not_gt fun hlt => ?_, le_of_not_gt fun hlt => ?_⟩
  · exact absurd (hfront n hn hlt) (not_le.mpr habove)
  · rcases hcovered with heq | hcovered
    · omega
    · have hrest : s.topOf (data.endLineNumber + 1) ≤ s.topOf n := by
        rcases eq_or_lt_of_le (Int.add_one_le_of_lt hlt) with heq | hlt'
        · rw [heq]
        · have hmono := hedged.top_mono (n := data.endLineNumber + 1) (by omega) hlt' hn'
          linarith [hedged.height (data.endLineNumber + 1) (by omega) (by omega)]
      linarith

theorem Answered.covers (h : Answered s v1 v2 data) (hedged : Edged s s.lineCount) :
    s.Covers v1 v2 data := by
  have hintersecting := h.intersecting hedged
  have hpos := h.start.1
  have hle := h.le
  have hlast := h.le_last
  have hsmall := hedged.small
  refine ⟨⟨hpos, hle, hlast⟩, ?_, fun i offset hoffset => ?_, hintersecting,
    fun ⟨m, hm⟩ => h.visible hedged hintersecting hm⟩
  · rw [h.offsets, List.length_map, List.length_range, Int.toNat_of_nonneg (by omega)]
  · rw [h.offsets, List.getElem?_map, Option.map_eq_some_iff] at hoffset
    obtain ⟨j, hj, rfl⟩ := hoffset
    obtain ⟨hlt, hj⟩ := List.getElem?_eq_some_iff.mp hj
    rw [List.length_range] at hlt
    rw [List.getElem_range] at hj
    subst hj
    rw [getVerticalOffsetForLineNumber_eq hedged.laid (toInt32_of_mem (by omega) (by omega))]
    ring

structure Viewable (s : LinesLayout) : Prop extends Measured s where
  default : 0 < s.lineHeightsManager.defaultLineHeight
  int32 : Int32Whitespaces s.arr

end Viewport

end LinesLayout

end Gavea.ViewLayout
