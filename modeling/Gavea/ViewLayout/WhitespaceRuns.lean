import Gavea.ViewLayout.WhitespaceOrder
import Gavea.ViewLayout.Answers
import Gavea.Lib.Runs

namespace Gavea.ViewLayout

open Gavea.Lib.Runs List

namespace LinesLayout

section PrefixSums

variable {s s' : LinesLayout} {arr arr' : List EditorWhitespace} {validIndex : Int} {k : Nat}

def Exact (arr : List EditorWhitespace) (validIndex : Int) : Prop :=
  ∀ i : Nat, (i : Int) ≤ validIndex → ∃ w, arr[i]? = some w ∧ w.prefixSum = ((arr.take (i + 1)).map (·.height)).sum

theorem Exact.none : Exact arr (-1) := fun i hi => by omega

def cell (w : EditorWhitespace) : Int × Int := (w.height, w.prefixSum)

theorem Exact.of_take (h : Exact arr validIndex)
    (htake : (arr'.take k).map cell = (arr.take k).map cell) :
    Exact arr' (min validIndex (k - 1)) := by
  intro i hi
  obtain ⟨w, hw, hsum⟩ := h i (by omega)
  have hik : i < k := by omega
  have hcell : (arr'[i]?).map cell = (arr[i]?).map cell := by
    rw [← getElem?_take_of_lt hik, ← getElem?_map, htake, getElem?_map, getElem?_take_of_lt hik]
  rw [hw, Option.map_some, Option.map_eq_some_iff] at hcell
  obtain ⟨w', hw', hcell⟩ := hcell
  refine ⟨w', hw', ?_⟩
  have hheights : (arr'.take (i + 1)).map (·.height) = (arr.take (i + 1)).map (·.height) := by
    have hmin : min (i + 1) k = i + 1 := by omega
    have hmap := congrArg (List.map Prod.fst) (congrArg (List.take (i + 1)) htake)
    rw [← map_take, ← map_take, take_take, take_take, hmin, map_map, map_map] at hmap
    exact hmap
  rw [hheights, ← hsum]
  exact congrArg Prod.snd hcell

theorem Exact.of_map (h : Exact arr validIndex) (hmap : arr'.map cell = arr.map cell) :
    Exact arr' validIndex := by
  intro i hi
  have htake : (arr'.take (i + 1)).map cell = (arr.take (i + 1)).map cell := by
    rw [map_take, hmap, map_take]
  exact h.of_take htake i (by omega)

theorem insertWhitespace_exact (h : Exact s.arr s.prefixSumValidIndex) (w : EditorWhitespace) :
    Exact (s.insertWhitespace w).arr (s.insertWhitespace w).prefixSumValidIndex := by
  refine h.of_take ?_
  have hle := (findInsertionIndex_spec s.arr w.afterLineNumber w.ordinal).1
  rw [insertWhitespace, take_left' (length_take_of_le hle)]

theorem removeWhitespace_exact (h : Exact s.arr s.prefixSumValidIndex) (index : Nat) :
    Exact (s.removeWhitespace index).arr (s.removeWhitespace index).prefixSumValidIndex := by
  refine h.of_take ?_
  rw [removeWhitespace, take_eraseIdx_eq_take_of_le _ _ _ (Nat.le_refl index)]

theorem changeHeight_exact (h : Exact s.arr s.prefixSumValidIndex) (index : Nat)
    (w : EditorWhitespace) (newHeight : Int) :
    Exact (s.changeHeight index w newHeight).arr
      (s.changeHeight index w newHeight).prefixSumValidIndex := by
  unfold changeHeight
  split
  · refine h.of_take ?_
    rw [take_set_of_le (Nat.le_refl index)]
  · exact h

theorem changeOneWhitespace_exact (h : Exact s.arr s.prefixSumValidIndex)
    (change : IPendingChange) :
    Exact (s.changeOneWhitespace change).arr
      (s.changeOneWhitespace change).prefixSumValidIndex := by
  unfold changeOneWhitespace
  split
  · exact h
  · split
    · exact h
    · simp only
      split
      · exact insertWhitespace_exact (removeWhitespace_exact (changeHeight_exact h _ _ _) _) _
      · exact changeHeight_exact h _ _ _

theorem removeOneWhitespace_exact (h : Exact s.arr s.prefixSumValidIndex) (id : String) :
    Exact (s.removeOneWhitespace id).arr (s.removeOneWhitespace id).prefixSumValidIndex := by
  unfold removeOneWhitespace
  split
  · exact h
  · exact removeWhitespace_exact h _

theorem foldl_keeps {σ α : Type*} {P : σ → Prop} {f : σ → α → σ}
    (hf : ∀ {s} a, P s → P (f s a)) (l : List α) {s : σ} (h : P s) : P (l.foldl f s) := by
  induction l generalizing s with
  | nil => exact h
  | cons a l ih => exact ih (hf a h)

theorem commitSingly_exact (h : Exact s.arr s.prefixSumValidIndex) (pending : PendingChanges) :
    Exact (s.commitSingly pending).arr (s.commitSingly pending).prefixSumValidIndex := by
  have hinserts : Exact (pending.inserts.foldl insertWhitespace s).arr
      (pending.inserts.foldl insertWhitespace s).prefixSumValidIndex :=
    foldl_keeps (P := fun s : LinesLayout => Exact s.arr s.prefixSumValidIndex)
      (fun w h => insertWhitespace_exact h w) _ h
  have hchanges := foldl_keeps (P := fun s : LinesLayout => Exact s.arr s.prefixSumValidIndex)
    (fun c h => changeOneWhitespace_exact h c) pending.changes hinserts
  exact foldl_keeps (P := fun s : LinesLayout => Exact s.arr s.prefixSumValidIndex)
    (fun id h => removeOneWhitespace_exact h id) pending.removes hchanges

def shape (w : EditorWhitespace) : EditorWhitespace := { w with prefixSum := 0 }

theorem heights_of_shape (h : arr'.map shape = arr.map shape) (k : Nat) :
    ((arr'.take k).map (·.height)) = (arr.take k).map (·.height) := by
  have hmap := congrArg (List.map (·.height)) (congrArg (List.take k) h)
  rw [← map_take, ← map_take, map_map, map_map] at hmap
  exact hmap

theorem prefixSumAt_eq (h : Exact arr validIndex) {i : Nat} (hi : (i : Int) ≤ validIndex) :
    prefixSumAt arr i = ((arr.take (i + 1)).map (·.height)).sum := by
  obtain ⟨w, hw, hsum⟩ := h i hi
  rw [prefixSumAt, hw, Option.map_some, Option.getD_some, hsum]

theorem modify_exact {sum : Int} (h : Exact arr ((k : Int) - 1)) (hk : k < arr.length)
    (hsum : sum = ((arr.take k).map (·.height)).sum) :
    Exact (arr.modify k fun w => { w with prefixSum := sum + w.height }) k ∧
      (arr.modify k fun w => { w with prefixSum := sum + w.height }).map shape = arr.map shape := by
  have hshape : (arr.modify k fun w => { w with prefixSum := sum + w.height }).map shape =
      arr.map shape := by
    refine ext_getElem? fun i => ?_
    rw [getElem?_map, getElem?_map, getElem?_modify]
    cases arr[i]? with
    | none => rfl
    | some w =>
      by_cases hki : k = i
      · simp only [Option.map_eq_map, Option.map_some, if_pos hki, shape]
      · simp only [Option.map_eq_map, Option.map_some, if_neg hki]
  refine ⟨fun i hi => ?_, hshape⟩
  rcases Nat.lt_or_ge i k with hik | hik
  · obtain ⟨w, hw, hwsum⟩ := h i (by omega)
    rw [heights_of_shape hshape, getElem?_modify_ne _ _ (by omega)]
    exact ⟨w, hw, hwsum⟩
  · obtain rfl : i = k := by omega
    rw [heights_of_shape hshape, getElem?_modify_eq, getElem?_eq_getElem hk]
    refine ⟨_, rfl, ?_⟩
    rw [take_add_one, getElem?_eq_getElem hk, Option.toList_some, map_append,
      sum_append, ← hsum, map_singleton, sum_singleton]

theorem sumLoop_spec (count : Nat) {i : Nat} (hi : 0 < i) (h : Exact arr ((i : Int) - 1))
    (hle : i + count ≤ arr.length) :
    Exact (sumLoop arr i count) ((i : Int) + count - 1) ∧
      (sumLoop arr i count).map shape = arr.map shape := by
  induction count generalizing arr i with
  | zero => exact ⟨by simpa [sumLoop] using h, rfl⟩
  | succ count ih =>
    have hsum : prefixSumAt arr (i - 1) = ((arr.take i).map (·.height)).sum := by
      rw [prefixSumAt_eq h (by omega), Nat.sub_add_cancel hi]
    obtain ⟨hexact, hshape⟩ := modify_exact h (by omega) hsum
    have hlen := congrArg List.length hshape
    rw [length_map, length_map] at hlen
    obtain ⟨hexact', hshape'⟩ := ih (Nat.succ_pos i)
      (by rw [Nat.cast_succ, Int.add_sub_cancel]; exact hexact) (by omega)
    refine ⟨?_, hshape'.trans hshape⟩
    have hindex : ((i + 1 : Nat) : Int) + count - 1 = i + (count + 1 : Nat) - 1 := by
      push_cast
      omega
    rwa [hindex] at hexact'

theorem commit_commit (m : LineHeightsManager) : m.commit.commit = m.commit := by
  have hnil : m.commit.pendingChanges = [] := by
    unfold LineHeightsManager.commit
    split_ifs with h
    · exact h
    · rw [flush_pendingChanges]
      exact foldl_keeps (P := fun t : LineHeightsManager.Staged => t.1.pendingChanges = [])
        (fun c ht => (commitChange_pendingChanges _ c).trans ht) m.pendingChanges rfl
  conv_lhs => rw [LineHeightsManager.commit]
  rw [if_pos hnil]

structure Unmoved (s s' : LinesLayout) : Prop where
  manager : s'.lineHeightsManager = s.lineHeightsManager ∨ s'.lineHeightsManager = s.lineHeightsManager.commit
  shape : s'.arr.map shape = s.arr.map shape
  instanceId : s'.instanceId = s.instanceId
  lastWhitespaceId : s'.lastWhitespaceId = s.lastWhitespaceId
  lineCount : s'.lineCount = s.lineCount
  paddingTop : s'.paddingTop = s.paddingTop
  exact : Exact s.arr s.prefixSumValidIndex → Exact s'.arr s'.prefixSumValidIndex

theorem Unmoved.refl (s : LinesLayout) : Unmoved s s := ⟨Or.inl rfl, rfl, rfl, rfl, rfl, rfl, id⟩

theorem Unmoved.trans {s'' : LinesLayout} (h : Unmoved s s') (h' : Unmoved s' s'') :
    Unmoved s s'' := by
  refine ⟨?_, h'.shape.trans h.shape, h'.instanceId.trans h.instanceId, h'.lastWhitespaceId.trans h.lastWhitespaceId,
    h'.lineCount.trans h.lineCount, h'.paddingTop.trans h.paddingTop, fun hexact => h'.exact (h.exact hexact)⟩
  rcases h.manager with heq | heq <;> rcases h'.manager with heq' | heq'
  · exact Or.inl (heq'.trans heq)
  · exact Or.inr (heq'.trans (congrArg _ heq))
  · exact Or.inr (heq'.trans heq)
  · exact Or.inr (heq'.trans ((congrArg _ heq).trans (commit_commit _)))

theorem Unmoved.commit (h : Unmoved s s') :
    s'.lineHeightsManager.commit = s.lineHeightsManager.commit := by
  rcases h.manager with heq | heq
  · rw [heq]
  · rw [heq, commit_commit]

theorem getWhitespacesAccumulatedHeight_spec (h : Exact s.arr s.prefixSumValidIndex) {index : Nat}
    (hindex : index < s.arr.length) :
    (s.getWhitespacesAccumulatedHeight index).1 =
        ((s.arr.take (index + 1)).map (·.height)).sum ∧
      Exact (s.getWhitespacesAccumulatedHeight index).2.arr
        (s.getWhitespacesAccumulatedHeight index).2.prefixSumValidIndex ∧
      (s.getWhitespacesAccumulatedHeight index).2.arr.map shape = s.arr.map shape := by
  have hvalid : s.prefixSumValidIndex < s.arr.length := by
    by_contra hge
    obtain ⟨w, hw, -⟩ := h s.arr.length (by omega)
    rw [getElem?_eq_none (Nat.le_refl _)] at hw
    cases hw
  -- the sums in front of the loop
  obtain ⟨first, start, hfirst, hpos, hstart, hexact, hshape, heq⟩ :
      ∃ (first : List EditorWhitespace) (start : Nat),
        first.length = s.arr.length ∧ 0 < start ∧
        ((start : Int) = s.prefixSumValidIndex + 1 ∨ start = 1 ∧ s.prefixSumValidIndex < 0) ∧
        Exact first ((start : Int) - 1) ∧ first.map shape = s.arr.map shape ∧
        s.getWhitespacesAccumulatedHeight index =
          (prefixSumAt (sumLoop first start (index + 1 - start)) index,
            { s with
              arr := sumLoop first start (index + 1 - start)
              prefixSumValidIndex := max s.prefixSumValidIndex index }) := by
    by_cases hzero : (max 0 (s.prefixSumValidIndex + 1)).toNat = 0
    · have hsum : s.arr.modify 0 (fun w => { w with prefixSum := w.height }) =
          s.arr.modify 0 fun w => { w with prefixSum := 0 + w.height } := by
        simp only [Int.zero_add]
      obtain ⟨hexact, hshape⟩ := @modify_exact s.arr 0 0 (fun i hi => by omega) (by omega) rfl
      refine ⟨s.arr.modify 0 fun w => { w with prefixSum := w.height }, 1, length_modify _ _ _,
        Nat.one_pos, Or.inr ⟨rfl, by omega⟩, ?_, ?_, ?_⟩
      · rw [hsum]
        exact hexact
      · rw [hsum]
        exact hshape
      · simp only [getWhitespacesAccumulatedHeight, if_pos hzero]
    · refine ⟨s.arr, (max 0 (s.prefixSumValidIndex + 1)).toNat, rfl, by omega, Or.inl (by omega),
        ?_, rfl, ?_⟩
      · have hcast : (((max 0 (s.prefixSumValidIndex + 1)).toNat : Int)) - 1 = s.prefixSumValidIndex := by omega
        rw [hcast]
        exact h
      · simp only [getWhitespacesAccumulatedHeight, if_neg hzero]
  obtain ⟨hexact', hshape'⟩ := sumLoop_spec (index + 1 - start) hpos hexact (by omega)
  have hmax : max s.prefixSumValidIndex index ≤ (start : Int) + (index + 1 - start : Nat) - 1 := by
    omega
  have hvalid' : Exact (sumLoop first start (index + 1 - start))
      (max s.prefixSumValidIndex index) := fun i hi => hexact' i (by omega)
  rw [heq]
  refine ⟨?_, hvalid', hshape'.trans hshape⟩
  rw [prefixSumAt_eq hvalid' (le_max_right _ _), heights_of_shape (hshape'.trans hshape)]

theorem lastBeforeLoop_lt {lineNumber : Int} {low high index : Nat} (hhigh : high ≤ arr.length)
    (h : lastBeforeLoop arr lineNumber low high = some index) : index < arr.length := by
  induction low, high using lastBeforeLoop.induct arr lineNumber with
  | case1 low high hlt mid hany hall =>
    rw [lastBeforeLoop, if_pos hlt, if_pos hany, if_pos hall] at h
    cases h
    omega
  | case2 low high hlt mid hany hall ih =>
    rw [lastBeforeLoop, if_pos hlt, if_pos hany, if_neg hall] at h
    exact ih hhigh h
  | case3 low high hlt mid hany ih =>
    rw [lastBeforeLoop, if_pos hlt, if_neg hany] at h
    exact ih (by omega) h
  | case4 low high hge =>
    rw [lastBeforeLoop, if_neg hge] at h
    cases h

theorem getWhitespacesAccumulatedHeight_unmoved {index : Nat} (hindex : index < s.arr.length)
    (h : Exact s.arr s.prefixSumValidIndex) :
    Unmoved s (s.getWhitespacesAccumulatedHeight index).2 := by
  obtain ⟨-, hexact, hshape⟩ := getWhitespacesAccumulatedHeight_spec h hindex
  exact ⟨Or.inl rfl, hshape, rfl, rfl, rfl, rfl, fun _ => hexact⟩

theorem getWhitespaceAccumulatedHeightBeforeLineNumber_unmoved (lineNumber : Int)
    (h : Exact s.arr s.prefixSumValidIndex) :
    Unmoved s (s.getWhitespaceAccumulatedHeightBeforeLineNumber lineNumber).2 := by
  unfold getWhitespaceAccumulatedHeightBeforeLineNumber
  cases hlast : s.findLastWhitespaceBeforeLineNumber (toInt32 lineNumber) with
  | none => exact Unmoved.refl s
  | some index => exact getWhitespacesAccumulatedHeight_unmoved (lastBeforeLoop_lt (Nat.le_refl _) hlast) h

theorem getWhitespacesTotalHeight_unmoved (h : Exact s.arr s.prefixSumValidIndex) :
    Unmoved s s.getWhitespacesTotalHeight.2 := by
  unfold getWhitespacesTotalHeight
  split_ifs with hnil
  · exact Unmoved.refl s
  · have hpos := length_pos_of_ne_nil hnil
    exact getWhitespacesAccumulatedHeight_unmoved (by omega) h

theorem getLineHeightForLineNumber_unmoved (s : LinesLayout) (lineNumber : Int) :
    Unmoved s (s.getLineHeightForLineNumber lineNumber).2 :=
  ⟨Or.inr rfl, rfl, rfl, rfl, rfl, rfl, id⟩

theorem getAccumulatedLineHeights_unmoved (s : LinesLayout) (lineNumber : Int) :
    Unmoved s (s.getAccumulatedLineHeights lineNumber).2 :=
  ⟨Or.inr rfl, rfl, rfl, rfl, rfl, rfl, id⟩

theorem getVerticalOffsetForLineNumber_unmoved (lineNumber : Int) (includeViewZones : Bool)
    (h : Exact s.arr s.prefixSumValidIndex) :
    Unmoved s (s.getVerticalOffsetForLineNumber lineNumber includeViewZones).2 := by
  unfold getVerticalOffsetForLineNumber
  simp only
  split_ifs
  all_goals
    first
    | exact (getAccumulatedLineHeights_unmoved s _).trans (getWhitespaceAccumulatedHeightBeforeLineNumber_unmoved _ h)
    | exact getWhitespaceAccumulatedHeightBeforeLineNumber_unmoved _ h

theorem getLinesTotalHeight_unmoved (h : Exact s.arr s.prefixSumValidIndex) :
    Unmoved s s.getLinesTotalHeight.2 :=
  (getAccumulatedLineHeights_unmoved s s.lineCount).trans
    (@getWhitespacesTotalHeight_unmoved (s.getAccumulatedLineHeights s.lineCount).2 h)

theorem measure_unmoved (lineNumber : Int) (h : Exact s.arr s.prefixSumValidIndex) :
    Unmoved s (s.measure lineNumber).2 :=
  (getLineHeightForLineNumber_unmoved s lineNumber).trans
    (@getVerticalOffsetForLineNumber_unmoved (s.getLineHeightForLineNumber lineNumber).2 lineNumber false h)

theorem lineAtOrAfterLoop_unmoved (verticalOffset minLineNumber maxLineNumber : Int)
    (h : Exact s.arr s.prefixSumValidIndex) :
    Unmoved s (lineAtOrAfterLoop verticalOffset s minLineNumber maxLineNumber).2 := by
  induction s, minLineNumber, maxLineNumber using lineAtOrAfterLoop.induct verticalOffset with
  | case1 s low high hlt midLineNumber mid hafter ih =>
    rw [lineAtOrAfterLoop, if_pos hlt, if_pos hafter]
    have hmid := measure_unmoved midLineNumber h
    exact hmid.trans (ih (hmid.exact h))
  | case2 s low high hlt midLineNumber mid hafter hhit =>
    rw [lineAtOrAfterLoop, if_pos hlt, if_neg hafter, if_pos hhit]
    exact measure_unmoved midLineNumber h
  | case3 s low high hlt midLineNumber mid hafter hhit ih =>
    rw [lineAtOrAfterLoop, if_pos hlt, if_neg hafter, if_neg hhit]
    have hmid := measure_unmoved midLineNumber h
    exact hmid.trans (ih (hmid.exact h))
  | case4 s low high hge =>
    rw [lineAtOrAfterLoop, if_neg hge]
    exact Unmoved.refl s

theorem getLineNumberAtOrAfterVerticalOffset_unmoved (verticalOffset : ℚ)
    (h : Exact s.arr s.prefixSumValidIndex) :
    Unmoved s (s.getLineNumberAtOrAfterVerticalOffset verticalOffset).2 := by
  unfold getLineNumberAtOrAfterVerticalOffset
  simp only
  split_ifs
  · exact Unmoved.refl s
  all_goals exact lineAtOrAfterLoop_unmoved _ _ _ h

theorem walkLines_unmoved (verticalOffset2 : Int) (verticalCenter : ℚ) (endLineNumber : Int)
    (count : Nat) (s : LinesLayout) (lineNumber : Int) (w : Walk) :
    Unmoved s (walkLines verticalOffset2 verticalCenter endLineNumber count s lineNumber w).2 := by
  induction count generalizing s lineNumber w with
  | zero => exact Unmoved.refl s
  | succ count ih =>
    rw [walkLines]
    split_ifs
    · exact getLineHeightForLineNumber_unmoved s lineNumber
    · exact (getLineHeightForLineNumber_unmoved s lineNumber).trans (ih _ _ _)

theorem completelyVisible_unmoved (startLineNumber endLineNumber : Int)
    (startLineNumberVerticalOffset verticalOffset1 verticalOffset2 : Int)
    (h : Exact s.arr s.prefixSumValidIndex) :
    Unmoved s (s.completelyVisible startLineNumber endLineNumber startLineNumberVerticalOffset
      verticalOffset1 verticalOffset2).2 := by
  have hend := getVerticalOffsetForLineNumber_unmoved endLineNumber false h
  have hline := hend.trans (getLineHeightForLineNumber_unmoved
    (s.getVerticalOffsetForLineNumber endLineNumber).2 endLineNumber)
  unfold completelyVisible
  generalize (if startLineNumber < endLineNumber ∧ startLineNumberVerticalOffset < verticalOffset1
    then startLineNumber + 1 else startLineNumber) = first
  simp only
  split_ifs
  · exact hline
  · exact hline
  · exact hend

theorem getLinesViewportData_unmoved (verticalOffset1 verticalOffset2 : ℚ)
    (h : Exact s.arr s.prefixSumValidIndex) :
    Unmoved s (s.getLinesViewportData verticalOffset1 verticalOffset2).2 := by
  have hfirst := getLineNumberAtOrAfterVerticalOffset_unmoved (truncInt32 verticalOffset1 : ℚ) h
  have hoffset := hfirst.trans (getVerticalOffsetForLineNumber_unmoved
    (s.getLineNumberAtOrAfterVerticalOffset (truncInt32 verticalOffset1 : ℚ)).1 false
    (hfirst.exact h))
  have hwalk := fun a b c d e f => hoffset.trans (walkLines_unmoved a b c d _ e f)
  exact (hwalk _ _ _ _ _ _).trans (completelyVisible_unmoved _ _ _ _ _ ((hwalk _ _ _ _ _ _).exact h))

end PrefixSums

section Names

variable {s : LinesLayout} {pending : PendingChanges}

def idOf (instanceId : String) (k : Nat) : String := instanceId ++ toString k

theorem idOf_injective (instanceId : String) : Function.Injective (idOf instanceId) := by
  intro k k' h
  have hdigits := congrArg String.toList ((String.append_right_inj instanceId).mp h)
  have hnumber (n : Nat) : Nat.ofDigitChars 10 (toString n).toList 0 = n := by
    change Nat.ofDigitChars 10 n.repr.toList 0 = n
    rw [Nat.toList_repr, Nat.ofDigitChars_toDigits (by omega) (by omega)]
  rw [← hnumber k, hdigits, hnumber]

/-- The whitespaces have ids of their own, which were given out already. -/
structure Named (s : LinesLayout) : Prop where
  nodup : (s.arr.map (·.id)).Nodup
  given : ∀ w ∈ s.arr, ∃ k, k ≤ s.lastWhitespaceId ∧ w.id = idOf s.instanceId k

structure Pended (s : LinesLayout) (t : LinesLayout × PendingChanges) : Prop where
  layout : t.1 = { s with lastWhitespaceId := s.lastWhitespaceId + t.2.inserts.length }
  inserted : t.2.inserts.map (·.id) = (List.range' (s.lastWhitespaceId + 1) t.2.inserts.length).map (idOf s.instanceId)

theorem access_pended {t : LinesLayout × PendingChanges} (h : Pended s t) (call : AccessorCall) :
    Pended s (access t call) := by
  obtain ⟨hlayout, hinserted⟩ := h
  cases call with
  | insertWhitespace afterLineNumber ordinal heightInPx minWidth =>
    refine ⟨?_, ?_⟩
    · rw [access, hlayout]
      simp only [length_append, length_singleton, Nat.add_assoc]
    · rw [access, hlayout]
      simp only [map_append, map_singleton, length_append, length_singleton, hinserted, List.range'_concat, Nat.one_mul]
      rw [Nat.add_right_comm]
      rfl
  | changeOneWhitespace id newAfterLineNumber newHeight => exact ⟨hlayout, hinserted⟩
  | removeWhitespace id => exact ⟨hlayout, hinserted⟩

theorem pend_pended (s : LinesLayout) (calls : List AccessorCall) : Pended s (s.pend calls) := by
  have hfold : ∀ t, Pended s t → Pended s (calls.foldl access t) :=
    fun t ht => foldl_keeps (P := Pended s) (fun call h => access_pended h call) calls ht
  exact hfold _ ⟨rfl, rfl⟩

theorem nodup_pend (h : Named s) (calls : List AccessorCall) :
    ((s.arr ++ (s.pend calls).2.inserts).map (·.id)).Nodup := by
  have hinserted := (pend_pended s calls).inserted
  rw [map_append, hinserted]
  refine List.Nodup.append h.nodup (List.Nodup.map (idOf_injective _) nodup_range') ?_
  intro id hid hid'
  obtain ⟨w, hw, rfl⟩ := mem_map.mp hid
  obtain ⟨k, hk, heq⟩ := h.given w hw
  obtain ⟨k', hk', heq'⟩ := mem_map.mp hid'
  rw [mem_range'_1] at hk'
  have := idOf_injective _ (heq'.trans heq)
  omega

end Names

section Order

variable {s : LinesLayout} {pending : PendingChanges} {arr : List EditorWhitespace}
  {fromLineNumber toLineNumber : Int}

def KeepsOrder (arr : List EditorWhitespace) (fromLineNumber toLineNumber : Int) : Prop :=
  (arr.filter fun w => fromLineNumber - 1 ≤ w.afterLineNumber ∧
    w.afterLineNumber ≤ toLineNumber).Pairwise fun w w' => w.ordinal ≤ w'.ordinal

instance : Decidable (KeepsOrder arr fromLineNumber toLineNumber) := inferInstanceAs (Decidable (List.Pairwise _ _))

theorem ordered_moveUp_iff (h : Ordered arr) (hle : fromLineNumber ≤ toLineNumber) :
    Ordered (arr.map (moveUp fromLineNumber toLineNumber)) ↔
      KeepsOrder arr fromLineNumber toLineNumber := by
  have hmoved (w w' : EditorWhitespace) (hw : StartsNoLater w w') :
      StartsNoLater (moveUp fromLineNumber toLineNumber w) (moveUp fromLineNumber toLineNumber w') ↔
      ¬((fromLineNumber - 1 ≤ w.afterLineNumber ∧ w.afterLineNumber ≤ toLineNumber) ∧
        (fromLineNumber - 1 ≤ w'.afterLineNumber ∧ w'.afterLineNumber ≤ toLineNumber) ∧
        w'.ordinal < w.ordinal) := by
    unfold StartsNoLater at *
    unfold moveUp
    split_ifs <;> (try simp only [lt_irrefl, true_and, false_or]) <;> omega
  have hkey (w w' : EditorWhitespace) (hw : StartsNoLater w w') :
      StartsNoLater (moveUp fromLineNumber toLineNumber w) (moveUp fromLineNumber toLineNumber w') ↔
      (decide (fromLineNumber - 1 ≤ w.afterLineNumber ∧ w.afterLineNumber ≤ toLineNumber) = true →
        decide (fromLineNumber - 1 ≤ w'.afterLineNumber ∧ w'.afterLineNumber ≤ toLineNumber) =
          true → w.ordinal ≤ w'.ordinal) := by
    rw [hmoved w w' hw, decide_eq_true_eq, decide_eq_true_eq, not_and, not_and, not_lt]
  rw [Ordered, pairwise_map, KeepsOrder, pairwise_filter]
  constructor
  · intro hmap
    exact (h.and hmap).imp fun {w w'} hboth => (hkey w w' hboth.1).mp hboth.2
  · intro hfilter
    exact (h.and hfilter).imp fun {w w'} hboth => (hkey w w' hboth.1).mpr hboth.2

theorem ordered_moveDown (h : Ordered arr) (hle : fromLineNumber ≤ toLineNumber) :
    Ordered (arr.map (moveDown fromLineNumber toLineNumber)) := by
  refine pairwise_map.mpr (h.imp fun {w w'} hw => ?_)
  unfold StartsNoLater at *
  unfold moveDown
  split_ifs <;> (try simp only) <;> omega

structure Sorted (s : LinesLayout) : Prop where
  ordered : Ordered s.arr
  exact : Exact s.arr s.prefixSumValidIndex
  named : Named s

theorem ordered_of_shape {arr' : List EditorWhitespace} (h : Ordered arr)
    (hshape : arr'.map shape = arr.map shape) : Ordered arr' := by
  have hmap : (arr.map shape).Pairwise StartsNoLater := pairwise_map.mpr (h.imp fun hw => hw)
  rw [← hshape] at hmap
  exact (pairwise_map.mp hmap).imp fun hw => hw

theorem Sorted.unmoved {s' : LinesLayout} (h : Sorted s) (hs : Unmoved s s') : Sorted s' := by
  have hids : s'.arr.map (·.id) = s.arr.map (·.id) := by
    have hmap := congrArg (List.map (·.id)) hs.shape
    rwa [map_map, map_map] at hmap
  refine ⟨ordered_of_shape h.ordered hs.shape, hs.exact h.exact, ?_, fun w hw => ?_⟩
  · rw [hids]
    exact h.named.nodup
  · have hmem : w.id ∈ s.arr.map (·.id) := hids ▸ mem_map_of_mem hw
    obtain ⟨w', hw', heq⟩ := mem_map.mp hmem
    obtain ⟨k, hk, hid⟩ := h.named.given w' hw'
    exact ⟨k, hs.lastWhitespaceId ▸ hk, hs.instanceId ▸ heq ▸ hid⟩

theorem remaining_id {e : Entry} (he : e ∈ s.remaining pending) :
    ∃ w ∈ s.arr ++ pending.inserts, e.1.id = w.id := by
  obtain ⟨x, hx, rfl⟩ := mem_map.mp he
  refine ⟨x.1, fst_mem_of_mem_zipIdx (mem_of_mem_filter hx), ?_⟩
  rw [fst_moveAll, applyChange]
  split <;> rfl

theorem remaining_given (h : Named s) {calls : List AccessorCall} {e : Entry}
    (he : e ∈ s.remaining (s.pend calls).2) :
    ∃ k, k ≤ s.lastWhitespaceId + (s.pend calls).2.inserts.length ∧
      e.1.id = idOf s.instanceId k := by
  obtain ⟨w, hw, heq⟩ := remaining_id he
  rcases mem_append.mp hw with hw | hw
  · obtain ⟨k, hk, hid⟩ := h.given w hw
    exact ⟨k, by omega, heq.trans hid⟩
  · have hmem : w.id ∈ (s.pend calls).2.inserts.map (·.id) := mem_map_of_mem hw
    rw [(pend_pended s calls).inserted] at hmem
    obtain ⟨k, hk, hid⟩ := mem_map.mp hmem
    rw [mem_range'_1] at hk
    exact ⟨k, by omega, heq.trans hid.symm⟩

def Rearranged (s s' : LinesLayout) : Prop :=
  s' = { s with arr := s'.arr, prefixSumValidIndex := s'.prefixSumValidIndex }

theorem Rearranged.trans {s s' s'' : LinesLayout} (h : Rearranged s s') (h' : Rearranged s' s'') :
    Rearranged s s'' := by
  unfold Rearranged at *
  rw [h', h]

theorem insertWhitespace_rearranged (s : LinesLayout) (w : EditorWhitespace) :
    Rearranged s (s.insertWhitespace w) := rfl

theorem changeOneWhitespace_rearranged (s : LinesLayout) (change : IPendingChange) :
    Rearranged s (s.changeOneWhitespace change) := by
  have hheight (index : Nat) (w : EditorWhitespace) (height : Int) :
      Rearranged s (s.changeHeight index w height) := by
    unfold changeHeight
    split <;> rfl
  unfold changeOneWhitespace
  split
  · rfl
  · split
    · rfl
    · simp only
      split
      · exact (hheight _ _ _).trans rfl
      · exact hheight _ _ _

theorem removeOneWhitespace_rearranged (s : LinesLayout) (id : String) :
    Rearranged s (s.removeOneWhitespace id) := by
  unfold removeOneWhitespace
  split <;> rfl

theorem commitSingly_rearranged (s : LinesLayout) (pending : PendingChanges) :
    Rearranged s (s.commitSingly pending) := by
  have hinserts : Rearranged s (pending.inserts.foldl insertWhitespace s) :=
    foldl_keeps (P := Rearranged s) (f := insertWhitespace)
      (fun w h => h.trans (insertWhitespace_rearranged _ w)) pending.inserts rfl
  have hchanges := foldl_keeps (P := Rearranged s)
    (fun c h => h.trans (changeOneWhitespace_rearranged _ c)) pending.changes hinserts
  exact foldl_keeps (P := Rearranged s)
    (fun id h => h.trans (removeOneWhitespace_rearranged _ id)) pending.removes hchanges

theorem commit_sorted (h : Sorted s) (calls : List AccessorCall) :
    Sorted (s.changeWhitespace calls) := by
  obtain ⟨hlayout, -⟩ := pend_pended s calls
  have harr : (s.pend calls).1.arr = s.arr := by rw [hlayout]
  have hremaining : (s.pend calls).1.remaining (s.pend calls).2 = s.remaining (s.pend calls).2 := by
    rw [remaining, remaining, harr]
  -- the layout behind the marker of the width
  obtain ⟨t, ht, htarr, htlast, htid, htvalid⟩ : ∃ t : LinesLayout,
      s.changeWhitespace calls =
        (if (s.pend calls).2.inserts.length + (s.pend calls).2.changes.length +
          (s.pend calls).2.removes.length ≤ 1 then t.commitSingly (s.pend calls).2
        else t.commitRebuilding (s.pend calls).2) ∧ t.arr = s.arr ∧
      t.lastWhitespaceId = s.lastWhitespaceId + (s.pend calls).2.inserts.length ∧
      t.instanceId = s.instanceId ∧ t.prefixSumValidIndex = s.prefixSumValidIndex := by
    rw [changeWhitespace, commitPendingChanges]
    split_ifs
    all_goals exact ⟨_, rfl, by rw [hlayout], by rw [hlayout], by rw [hlayout], by rw [hlayout]⟩
  have hids := nodup_pend h.named calls
  rw [← htarr] at hids
  have hordered : Ordered t.arr := htarr ▸ h.ordered
  have htremaining : t.remaining (s.pend calls).2 = s.remaining (s.pend calls).2 := by
    rw [remaining, remaining, htarr]
  have hnodup := nodup_ids_remaining hids
  -- both ways leave what remains, in some order
  have hcase : ∀ t' : LinesLayout, t'.arr.Perm ((t.remaining (s.pend calls).2).map Prod.fst) →
      t'.lastWhitespaceId = t.lastWhitespaceId → t'.instanceId = t.instanceId → Named t' := by
    intro t' hperm hlast hinstance
    refine ⟨(hperm.map _).nodup_iff.mpr (by rwa [map_map]), fun w hw => ?_⟩
    obtain ⟨e, he, rfl⟩ := mem_map.mp (hperm.mem_iff.mp hw)
    rw [htremaining] at he
    obtain ⟨k, hk, hid⟩ := remaining_given h.named he
    exact ⟨k, by omega, by rw [hid, hinstance, htid]⟩
  rw [ht]
  split_ifs
  · obtain ⟨l, hperm, hsorted, harr'⟩ := commitSingly_spec hordered hids
    refine ⟨?_, commitSingly_exact (by rw [htarr, htvalid]; exact h.exact) _, ?_⟩
    · rw [harr']
      refine pairwise_map.mpr (hsorted.imp fun {e e'} hprec => ?_)
      unfold Precedes at hprec
      unfold StartsNoLater
      omega
    · have hsame := commitSingly_rearranged t (s.pend calls).2
      exact hcase _ (by rw [harr']; exact hperm.map _) (by rw [hsame]) (by rw [hsame])
  · refine ⟨?_, Exact.none, ?_⟩
    · rw [commitRebuilding_arr]
      exact pairwise_insertionSort _ _
    · exact hcase _ (by rw [commitRebuilding_arr]; exact perm_insertionSort _ _) rfl rfl

def Event.Keeps (s : LinesLayout) : Event → Prop
  | .linesDeleted fromLineNumber toLineNumber =>
    toInt32 fromLineNumber ≤ toInt32 toLineNumber ∧ KeepsOrder s.arr (toInt32 fromLineNumber) (toInt32 toLineNumber)
  | .linesInserted fromLineNumber toLineNumber => toInt32 fromLineNumber ≤ toInt32 toLineNumber
  | _ => True

theorem map_sorted (h : Sorted s) {f : EditorWhitespace → EditorWhitespace}
    (hcell : ∀ w, cell (f w) = cell w) (hid : ∀ w, (f w).id = w.id) :
    Exact (s.arr.map f) s.prefixSumValidIndex ∧ ((s.arr.map f).map (·.id)).Nodup ∧
      ∀ w ∈ s.arr.map f, ∃ k, k ≤ s.lastWhitespaceId ∧ w.id = idOf s.instanceId k := by
  have hids : (s.arr.map f).map (·.id) = s.arr.map (·.id) := by
    rw [map_map]
    exact map_congr_left fun w _ => hid w
  refine ⟨h.exact.of_map ?_, hids ▸ h.named.nodup, fun w hw => ?_⟩
  · rw [map_map]
    exact map_congr_left fun w _ => hcell w
  · obtain ⟨w', hw', rfl⟩ := mem_map.mp hw
    rw [hid]
    exact h.named.given w' hw'

theorem step_sorted (h : Sorted s) (e : Event) (hkeeps : e.Keeps s) : Sorted (s.step e) := by
  cases e with
  | changeWhitespace calls => exact commit_sorted h calls
  | linesDeleted fromLineNumber toLineNumber =>
    have hordered := (ordered_moveUp_iff h.ordered hkeeps.1).mpr hkeeps.2
    obtain ⟨hexact, hnodup, hgiven⟩ := map_sorted h (f := moveUp _ _)
      (fun w => by unfold moveUp; split_ifs <;> rfl)
      (fun w => by unfold moveUp; split_ifs <;> rfl)
    exact ⟨hordered, hexact, hnodup, hgiven⟩
  | linesInserted fromLineNumber toLineNumber =>
    have hordered := ordered_moveDown h.ordered hkeeps
    obtain ⟨hexact, hnodup, hgiven⟩ := map_sorted h (f := moveDown _ _)
      (fun w => by unfold moveDown; split_ifs <;> rfl)
      (fun w => by unfold moveDown; split_ifs <;> rfl)
    exact ⟨hordered, hexact, hnodup, hgiven⟩
  | insertOrChangeCustomLineHeight => exact ⟨h.ordered, h.exact, h.named.nodup, h.named.given⟩
  | removeCustomLineHeight => exact ⟨h.ordered, h.exact, h.named.nodup, h.named.given⟩
  | setPadding => exact ⟨h.ordered, h.exact, h.named.nodup, h.named.given⟩
  | getLineHeightForLineNumber lineNumber => exact h.unmoved (getLineHeightForLineNumber_unmoved s lineNumber)
  | getVerticalOffsetForLineNumber lineNumber includeViewZones =>
    exact h.unmoved (getVerticalOffsetForLineNumber_unmoved lineNumber includeViewZones h.exact)
  | getLinesTotalHeight => exact h.unmoved (getLinesTotalHeight_unmoved h.exact)
  | getLineNumberAtOrAfterVerticalOffset verticalOffset =>
    exact h.unmoved (getLineNumberAtOrAfterVerticalOffset_unmoved verticalOffset h.exact)
  | getLinesViewportData verticalOffset1 verticalOffset2 =>
    exact h.unmoved (getLinesViewportData_unmoved verticalOffset1 verticalOffset2 h.exact)

theorem new_sorted (instanceId : String) (lineCount : Int)
    (defaultLineHeight paddingTop paddingBottom : ℚ)
    (customLineHeightData : List CustomLineHeightData) :
    Sorted (new instanceId lineCount defaultLineHeight paddingTop paddingBottom customLineHeightData) :=
  ⟨List.Pairwise.nil, Exact.none, nodup_nil, fun _ h => absurd h not_mem_nil⟩

abbrev next (s : LinesLayout) (e : Event) : Option LinesLayout := some (s.step e)

/-- In every run in which no deletion moves a whitespace past another one, the whitespaces are
sorted and the valid sums exact, and both ways to commit a batch give the same exactly if it moves
no whitespace past another one of the same line and ordinal. -/
theorem sorted_exact_committed {instanceId : String} {lineCount : Int}
    {defaultLineHeight paddingTop paddingBottom : ℚ}
    {customLineHeightData : List CustomLineHeightData} {events : List Event} {s : LinesLayout}
    (hkeeps : Guarded next (fun s e => e.Keeps s) (new instanceId lineCount defaultLineHeight
      paddingTop paddingBottom customLineHeightData) events)
    (hrun : run next (new instanceId lineCount defaultLineHeight paddingTop paddingBottom
      customLineHeightData) events = some s) :
    Ordered s.arr ∧ Exact s.arr s.prefixSumValidIndex ∧
    ∀ calls : List AccessorCall,
      ((s.pend calls).1.commitSingly (s.pend calls).2).arr = ((s.pend calls).1.commitRebuilding (s.pend calls).2).arr ↔
      (s.pend calls).1.Untangled (s.pend calls).2 := by
  have hsorted : Sorted s := run_invariant Sorted
    (fun _ e _ h hok hs => Option.some.inj hs ▸ step_sorted h e hok)
    (new_sorted _ _ _ _ _ _) hkeeps hrun
  refine ⟨hsorted.ordered, hsorted.exact, fun calls => ?_⟩
  have harr : (s.pend calls).1.arr = s.arr := by rw [(pend_pended s calls).layout]
  refine commitSingly_eq_iff (harr ▸ hsorted.ordered) ?_
  rw [harr]
  exact nodup_pend hsorted.named calls

/-- Two whitespaces of a batch that a deletion moves to one line in the order of their ordinals. -/
theorem sorted_exact_committed_deleted :
    Ordered ((((new "a" 9 10 0 0 []).step (.changeWhitespace
      [.insertWhitespace 3 1 10 0, .insertWhitespace 4 5 10 0])).step (.linesDeleted 3 4)).arr) :=
  (@sorted_exact_committed "a" 9 10 0 0 []
    [.changeWhitespace [.insertWhitespace 3 1 10 0, .insertWhitespace 4 5 10 0], .linesDeleted 3 4] _
    ⟨trivial, fun s hs => by
      obtain rfl := Option.some.inj hs
      exact ⟨⟨by decide, by decide⟩, fun _ _ => trivial⟩⟩ rfl).1

/-- A deletion that moves two whitespaces to one line, and a change that moves a whitespace to the
line and ordinal of the next one. -/
theorem not_sorted_exact_committed :
    ¬Ordered (((new "a" 9 10 0 0 []).changeWhitespace
      [.insertWhitespace 3 5 10 0, .insertWhitespace 4 1 10 0]).onLinesDeleted 3 4).arr ∧
    (((new "a" 9 10 0 0 []).changeWhitespace
        [.insertWhitespace 1 0 10 0, .insertWhitespace 2 0 10 0]).commitSingly ⟨[], [⟨"a1", 2, 10⟩], []⟩).arr ≠
      (((new "a" 9 10 0 0 []).changeWhitespace
        [.insertWhitespace 1 0 10 0, .insertWhitespace 2 0 10 0]).commitRebuilding
          ⟨[], [⟨"a1", 2, 10⟩], []⟩).arr := by
  refine ⟨by decide, fun heq => ?_⟩
  exact absurd ((commitSingly_eq_iff (by decide) (by decide)).mp heq) (by decide)

end Order

end LinesLayout

end Gavea.ViewLayout
