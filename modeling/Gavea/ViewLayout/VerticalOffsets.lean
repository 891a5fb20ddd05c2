import Gavea.ViewLayout.WhitespaceRuns

namespace Gavea.ViewLayout

open Gavea.Lib.Runs

namespace LinesLayout

section Whitespaces

variable {s s' : LinesLayout} {arr arr' : List EditorWhitespace} {lineNumber : Int}

abbrev ByLine (arr : List EditorWhitespace) : Prop := arr.Pairwise fun w w' => w.afterLineNumber ≤ w'.afterLineNumber

def heightBefore (arr : List EditorWhitespace) (lineNumber : Int) : Int :=
  ((arr.filter fun w => w.afterLineNumber < lineNumber).map (·.height)).sum

theorem heightBefore_of_shape (h : arr'.map shape = arr.map shape) :
    heightBefore arr' lineNumber = heightBefore arr lineNumber := by
  have hmap (l : List EditorWhitespace) : heightBefore l lineNumber =
      (((l.map shape).filter fun w => w.afterLineNumber < lineNumber).map (·.height)).sum := by
    rw [List.filter_map, List.map_map]
    rfl
  rw [hmap, hmap, h]

theorem heightBefore_split {k : Nat} (hfront : ∀ w ∈ arr.take k, w.afterLineNumber < lineNumber)
    (hback : ∀ w ∈ arr.drop k, lineNumber ≤ w.afterLineNumber) :
    heightBefore arr lineNumber = ((arr.take k).map (·.height)).sum := by
  have hfilter : (arr.take k ++ arr.drop k).filter (fun w => w.afterLineNumber < lineNumber) =
      arr.take k := by
    rw [List.filter_append, List.filter_eq_self.mpr fun w hw => decide_eq_true (hfront w hw),
      List.filter_eq_nil_iff.mpr fun w hw => by simpa using hback w hw, List.append_nil]
  rw [List.take_append_drop] at hfilter
  rw [heightBefore, hfilter]

theorem lastBeforeLoop_spec (h : ByLine arr) {low high : Nat} (hle : low ≤ high)
    (hhigh : high ≤ arr.length)
    (hlow : low = 0 ∨ ∃ w, arr[low]? = some w ∧ w.afterLineNumber < lineNumber)
    (hback : ∀ w ∈ arr.drop high, lineNumber ≤ w.afterLineNumber) :
    match lastBeforeLoop arr lineNumber low high with
    | none => ∀ w ∈ arr, lineNumber ≤ w.afterLineNumber
    | some index => index < arr.length ∧
        (∀ w ∈ arr.take (index + 1), w.afterLineNumber < lineNumber) ∧
        ∀ w ∈ arr.drop (index + 1), lineNumber ≤ w.afterLineNumber := by
  induction low, high using lastBeforeLoop.induct arr lineNumber with
  | case1 low high hlt mid hany hall =>
    rw [lastBeforeLoop, if_pos hlt, if_pos hany, if_pos hall]
    have hmid : mid < arr.length := by omega
    rw [List.getElem?_eq_getElem hmid, Option.any_some, decide_eq_true_eq] at hany
    refine ⟨hmid, fun w hw => ?_, fun w hw => ?_⟩
    · obtain ⟨i, hi, rfl⟩ := List.mem_iff_getElem.mp hw
      rw [List.length_take] at hi
      rw [List.getElem_take]
      rcases Nat.lt_or_ge i mid with him | him
      · exact lt_of_le_of_lt (List.pairwise_iff_getElem.mp h i mid (by omega) hmid him) hany
      · obtain rfl : i = mid := by omega
        exact hany
    · obtain ⟨i, hi, rfl⟩ := List.mem_iff_getElem.mp hw
      rw [List.length_drop] at hi
      rw [List.getElem?_eq_getElem (by omega), Option.all_some, decide_eq_true_eq] at hall
      rw [List.getElem_drop]
      rcases Nat.eq_zero_or_pos i with rfl | hpos
      · exact hall
      · exact le_trans hall (List.pairwise_iff_getElem.mp h (mid + 1) (mid + 1 + i) (by omega) (by omega) (by omega))
  | case2 low high hlt mid hany hall ih =>
    rw [lastBeforeLoop, if_pos hlt, if_pos hany, if_neg hall]
    have hmid : mid < arr.length := by omega
    cases hnext : arr[mid + 1]? with
    | none => rw [hnext] at hall; exact absurd rfl hall
    | some w =>
      rw [hnext, Option.all_some, decide_eq_true_eq, not_le] at hall
      have hmid' := (List.getElem?_eq_some_iff.mp hnext).1
      refine ih (by omega) hhigh (Or.inr ⟨w, hnext, hall⟩) hback
  | case3 low high hlt mid hany ih =>
    rw [lastBeforeLoop, if_pos hlt, if_neg hany]
    have hmid : mid < arr.length := by omega
    rw [List.getElem?_eq_getElem hmid, Option.any_some, decide_eq_true_eq, not_lt] at hany
    refine ih (by omega) (by omega) hlow fun w hw => ?_
    obtain ⟨i, hi, rfl⟩ := List.mem_iff_getElem.mp hw
    rw [List.length_drop] at hi
    rw [List.getElem_drop]
    rcases Nat.eq_zero_or_pos i with rfl | hpos
    · exact hany
    · exact le_trans hany (List.pairwise_iff_getElem.mp h mid (mid + i) hmid (by omega) (by omega))
  | case4 low high hge =>
    rw [lastBeforeLoop, if_neg hge]
    obtain rfl : low = high := by omega
    rcases hlow with rfl | ⟨w, hw, hlt⟩
    · rwa [List.drop_zero] at hback
    · have hmem : w ∈ arr.drop low := by
        refine List.mem_of_getElem? (i := 0) ?_
        rw [List.getElem?_drop, Nat.add_zero, hw]
      exact absurd (hback w hmem) (not_le.mpr hlt)

structure Laid (s : LinesLayout) : Prop where
  byLine : ByLine s.arr
  exact : Exact s.arr s.prefixSumValidIndex

theorem byLine_of_shape (h : ByLine arr) (hshape : arr'.map shape = arr.map shape) :
    ByLine arr' := by
  have hmap : (arr.map shape).Pairwise fun w w' => w.afterLineNumber ≤ w'.afterLineNumber := List.pairwise_map.mpr h
  rw [← hshape] at hmap
  exact (List.pairwise_map.mp hmap).imp fun hw => hw

theorem Laid.unmoved (h : Laid s) (hs : Unmoved s s') : Laid s' := ⟨byLine_of_shape h.byLine hs.shape, hs.exact h.exact⟩

theorem findLast_spec (h : ByLine s.arr) (lineNumber : Int) :
    match s.findLastWhitespaceBeforeLineNumber lineNumber with
    | none => ∀ w ∈ s.arr, lineNumber ≤ w.afterLineNumber
    | some index => index < s.arr.length ∧
        (∀ w ∈ s.arr.take (index + 1), w.afterLineNumber < lineNumber) ∧
        ∀ w ∈ s.arr.drop (index + 1), lineNumber ≤ w.afterLineNumber :=
  lastBeforeLoop_spec h (Nat.zero_le _) (Nat.le_refl _) (Or.inl rfl) fun w hw => by
    rw [List.drop_length] at hw
    cases hw

theorem getWhitespaceAccumulatedHeightBeforeLineNumber_eq (h : Laid s)
    (hline : toInt32 lineNumber = lineNumber) :
    (s.getWhitespaceAccumulatedHeightBeforeLineNumber lineNumber).1 =
      heightBefore s.arr lineNumber := by
  have hspec := findLast_spec h.byLine lineNumber
  unfold getWhitespaceAccumulatedHeightBeforeLineNumber
  rw [hline]
  cases hlast : s.findLastWhitespaceBeforeLineNumber lineNumber with
  | none =>
    rw [hlast] at hspec
    rw [heightBefore, List.filter_eq_nil_iff.mpr fun w hw => by simpa using hspec w hw]
    rfl
  | some index =>
    rw [hlast] at hspec
    obtain ⟨hlt, hfront, hback⟩ := hspec
    rw [heightBefore_split hfront hback]
    exact (getWhitespacesAccumulatedHeight_spec h.exact hlt).1

theorem heightBefore_le (hpos : ∀ w ∈ arr, 0 ≤ w.height) {n m : Int} (hle : n ≤ m) :
    heightBefore arr n ≤ heightBefore arr m := by
  induction arr with
  | nil => exact le_rfl
  | cons w arr ih =>
    obtain ⟨hw, hrest⟩ := List.forall_mem_cons.mp hpos
    have hstep := ih hrest
    unfold heightBefore at hstep ⊢
    rw [List.filter_cons, List.filter_cons]
    split_ifs with h1 h2 h2
    · rw [List.map_cons, List.map_cons, List.sum_cons, List.sum_cons]
      omega
    · rw [decide_eq_true_eq] at h1 h2
      omega
    · rw [List.map_cons, List.sum_cons]
      omega
    · exact hstep

end Whitespaces

section Steps

variable {s : LinesLayout}

theorem insertWhitespace_byLine (h : ByLine s.arr) (w : EditorWhitespace) :
    ByLine (s.insertWhitespace w).arr := by
  obtain ⟨-, hfront, hback⟩ := findInsertionIndex_spec s.arr w.afterLineNumber w.ordinal
  refine pairwise_splice le_trans h (fun x hx => ?_) fun x hx => ?_
  · have hkey := goesBehind_iff.mp (hfront x hx)
    omega
  · have hkey := hback x hx
    rw [← Bool.not_eq_true, goesBehind_iff] at hkey
    omega

theorem map_set_same {α β : Type*} {l : List α} {f : α → β} {i : Nat} {a b : α}
    (h : l[i]? = some a) (hf : f b = f a) : (l.set i b).map f = l.map f := by
  obtain ⟨hlt, rfl⟩ := List.getElem?_eq_some_iff.mp h
  have hlt' : i < (l.map f).length := by rwa [List.length_map]
  rw [List.map_set, hf, ← List.getElem_map f (h := hlt'), List.set_getElem_self]

theorem changeHeight_byLine (h : ByLine s.arr) {index : Nat} {w : EditorWhitespace}
    (hw : s.arr[index]? = some w) (newHeight : Int) :
    ByLine (s.changeHeight index w newHeight).arr := by
  unfold changeHeight
  split_ifs
  · have hmap := map_set_same (f := (·.afterLineNumber)) (b := { w with height := newHeight }) hw rfl
    have hlines : (s.arr.map (·.afterLineNumber)).Pairwise (· ≤ ·) := List.pairwise_map.mpr h
    rw [← hmap] at hlines
    exact List.pairwise_map.mp hlines
  · exact h

theorem changeOneWhitespace_byLine (h : ByLine s.arr) (change : IPendingChange) :
    ByLine (s.changeOneWhitespace change).arr := by
  unfold changeOneWhitespace
  split
  · exact h
  · split
    · exact h
    · rename_i index _ w hw
      have hheight := changeHeight_byLine h hw change.newHeight
      simp only
      split
      · exact insertWhitespace_byLine (hheight.sublist (List.eraseIdx_sublist _ _)) _
      · exact hheight

theorem removeOneWhitespace_byLine (h : ByLine s.arr) (id : String) :
    ByLine (s.removeOneWhitespace id).arr := by
  unfold removeOneWhitespace
  split
  · exact h
  · exact h.sublist (List.eraseIdx_sublist _ _)

theorem commitSingly_byLine (h : ByLine s.arr) (pending : PendingChanges) :
    ByLine (s.commitSingly pending).arr := by
  have hinserts : ByLine (pending.inserts.foldl insertWhitespace s).arr :=
    foldl_keeps (P := fun s : LinesLayout => ByLine s.arr) (fun w h => insertWhitespace_byLine h w) _ h
  have hchanges := foldl_keeps (P := fun s : LinesLayout => ByLine s.arr)
    (fun c h => changeOneWhitespace_byLine h c) pending.changes hinserts
  exact foldl_keeps (P := fun s : LinesLayout => ByLine s.arr)
    (fun id h => removeOneWhitespace_byLine h id) pending.removes hchanges

theorem commit_laid (h : Laid s) (calls : List AccessorCall) : Laid (s.changeWhitespace calls) := by
  obtain ⟨hlayout, -⟩ := pend_pended s calls
  have ht : ∀ t : LinesLayout, t.arr = s.arr → t.prefixSumValidIndex = s.prefixSumValidIndex →
      Laid t := fun t harr hvalid => ⟨harr ▸ h.byLine, by rw [harr, hvalid]; exact h.exact⟩
  have hsingly : ∀ t : LinesLayout, Laid t → Laid (t.commitSingly (s.pend calls).2) :=
    fun t ht => ⟨commitSingly_byLine ht.byLine _, commitSingly_exact ht.exact _⟩
  have hrebuilding : ∀ t : LinesLayout, Laid (t.commitRebuilding (s.pend calls).2) := fun t =>
    ⟨(List.pairwise_insertionSort StartsNoLater _).imp fun hw => by
      unfold StartsNoLater at hw
      omega, Exact.none⟩
  rw [changeWhitespace, commitPendingChanges]
  split_ifs
  · exact hsingly _ (ht _ (by rw [hlayout]) (by rw [hlayout]))
  · exact hsingly _ (ht _ (by rw [hlayout]) (by rw [hlayout]))
  · exact hrebuilding _
  · exact hrebuilding _

theorem changeWhitespace_manager (s : LinesLayout) (calls : List AccessorCall) :
    (s.changeWhitespace calls).lineHeightsManager = s.lineHeightsManager := by
  obtain ⟨hlayout, -⟩ := pend_pended s calls
  rw [changeWhitespace, commitPendingChanges]
  split_ifs
  · rw [commitSingly_rearranged _ _, hlayout]
  · rw [commitSingly_rearranged _ _, hlayout]
  · rw [commitRebuilding, hlayout]
  · rw [commitRebuilding, hlayout]

def Event.isQuery : Event → Bool
  | .getLineHeightForLineNumber _ | .getVerticalOffsetForLineNumber _ _ | .getLinesTotalHeight
  | .getLineNumberAtOrAfterVerticalOffset _ | .getLinesViewportData _ _ => true
  | _ => false

def Event.Fits (s : LinesLayout) : Event → Prop
  | .linesInserted fromLineNumber toLineNumber => toInt32 fromLineNumber ≤ toInt32 toLineNumber
  | e => e.isQuery = true → CommitFits s.lineHeightsManager

structure LaidOut (defaultLineHeight : ℚ) (s : LinesLayout) : Prop where
  laid : Laid s
  represents : ∃ lines, Represents defaultLineHeight lines s.lineHeightsManager

variable {defaultLineHeight : ℚ} {s' : LinesLayout}

theorem LaidOut.unmoved (h : LaidOut defaultLineHeight s)
    (hfits : CommitFits s.lineHeightsManager) (hs : Unmoved s s') :
    LaidOut defaultLineHeight s' := by
  obtain ⟨hlaid, lines, hrepresents⟩ := h
  refine ⟨hlaid.unmoved hs, lines, ?_⟩
  rcases hs.manager with heq | heq
  · rwa [heq]
  · rw [heq]
    exact (commit_represents hrepresents hfits).2.2.2

theorem map_laid (h : Laid s) {f : EditorWhitespace → EditorWhitespace}
    (hcell : ∀ w, cell (f w) = cell w)
    (hmono : ∀ w w', w.afterLineNumber ≤ w'.afterLineNumber → (f w).afterLineNumber ≤ (f w').afterLineNumber) :
    ByLine (s.arr.map f) ∧ Exact (s.arr.map f) s.prefixSumValidIndex := by
  refine ⟨List.pairwise_map.mpr (h.byLine.imp fun hw => hmono _ _ hw), h.exact.of_map ?_⟩
  rw [List.map_map]
  exact List.map_congr_left fun w _ => hcell w

theorem step_laidOut (h : LaidOut defaultLineHeight s) (e : Event) (hfits : e.Fits s) :
    LaidOut defaultLineHeight (s.step e) := by
  obtain ⟨lines, hrepresents⟩ := h.represents
  cases e with
  | changeWhitespace calls =>
    refine ⟨commit_laid h.laid calls, lines, ?_⟩
    rw [step, changeWhitespace_manager]
    exact hrepresents
  | linesDeleted fromLineNumber toLineNumber =>
    obtain ⟨hline, hexact⟩ := map_laid h.laid
      (f := moveUp (toInt32 fromLineNumber) (toInt32 toLineNumber))
      (fun w => by unfold moveUp; split_ifs <;> rfl)
      (fun w w' hle => by unfold moveUp; split_ifs <;> (try simp only) <;> omega)
    exact ⟨⟨hline, hexact⟩, _, represents_push hrepresents (.linesDeleted _ _)⟩
  | linesInserted fromLineNumber toLineNumber =>
    have hfits' : toInt32 fromLineNumber ≤ toInt32 toLineNumber := hfits
    obtain ⟨hline, hexact⟩ := map_laid h.laid
      (f := moveDown (toInt32 fromLineNumber) (toInt32 toLineNumber))
      (fun w => by unfold moveDown; split_ifs <;> rfl)
      (fun w w' hle => by unfold moveDown; split_ifs <;> (try simp only) <;> omega)
    exact ⟨⟨hline, hexact⟩, _, represents_push hrepresents (.linesInserted _ _)⟩
  | insertOrChangeCustomLineHeight decorationId startLineNumber endLineNumber lineHeight =>
    exact ⟨⟨h.laid.byLine, h.laid.exact⟩, _, represents_push hrepresents
      (.insertOrChange decorationId startLineNumber endLineNumber lineHeight)⟩
  | removeCustomLineHeight decorationId =>
    exact ⟨⟨h.laid.byLine, h.laid.exact⟩, _, represents_push hrepresents (.remove decorationId)⟩
  | setPadding paddingTop paddingBottom => exact ⟨⟨h.laid.byLine, h.laid.exact⟩, lines, hrepresents⟩
  | getLineHeightForLineNumber lineNumber =>
    exact h.unmoved (hfits rfl) (getLineHeightForLineNumber_unmoved s lineNumber)
  | getVerticalOffsetForLineNumber lineNumber includeViewZones =>
    exact h.unmoved (hfits rfl) (getVerticalOffsetForLineNumber_unmoved lineNumber includeViewZones h.laid.exact)
  | getLinesTotalHeight => exact h.unmoved (hfits rfl) (getLinesTotalHeight_unmoved h.laid.exact)
  | getLineNumberAtOrAfterVerticalOffset verticalOffset =>
    exact h.unmoved (hfits rfl) (getLineNumberAtOrAfterVerticalOffset_unmoved verticalOffset h.laid.exact)
  | getLinesViewportData verticalOffset1 verticalOffset2 =>
    exact h.unmoved (hfits rfl) (getLinesViewportData_unmoved verticalOffset1 verticalOffset2 h.laid.exact)

theorem new_laidOut (instanceId : String) (lineCount : Int)
    (defaultLineHeight paddingTop paddingBottom : ℚ)
    (customLineHeightData : List CustomLineHeightData) :
    LaidOut defaultLineHeight (new instanceId lineCount defaultLineHeight paddingTop paddingBottom
      customLineHeightData) :=
  ⟨⟨List.Pairwise.nil, Exact.none⟩, _, represents_new defaultLineHeight customLineHeightData⟩

end Steps

section Edges

variable {s s' : LinesLayout} {defaultLineHeight : ℚ} {lineNumber : Int}

def heightOf (s : LinesLayout) (lineNumber : Int) : ℚ := s.lineHeightsManager.commit.heightAt lineNumber

def topOf (s : LinesLayout) (lineNumber : Int) : ℚ :=
  (if lineNumber > 1 then s.lineHeightsManager.commit.accumulatedAt (lineNumber - 1) else 0) +
    heightBefore s.arr lineNumber + s.paddingTop

theorem Unmoved.heightOf (h : Unmoved s s') : s'.heightOf = s.heightOf := by
  funext lineNumber
  rw [LinesLayout.heightOf, LinesLayout.heightOf, h.commit]

theorem Unmoved.topOf (h : Unmoved s s') : s'.topOf = s.topOf := by
  funext lineNumber
  rw [LinesLayout.topOf, LinesLayout.topOf, h.commit, h.paddingTop, heightBefore_of_shape h.shape]

theorem getLineHeightForLineNumber_eq (s : LinesLayout) (lineNumber : Int) :
    (s.getLineHeightForLineNumber lineNumber).1 = s.heightOf lineNumber := rfl

theorem getVerticalOffsetForLineNumber_eq (h : Laid s) (hline : toInt32 lineNumber = lineNumber) :
    (s.getVerticalOffsetForLineNumber lineNumber).1 = s.topOf lineNumber := by
  unfold getVerticalOffsetForLineNumber topOf
  simp only [hline, Bool.false_eq_true, if_false, Int.sub_zero]
  split_ifs
  · have hlaid : Laid (s.getAccumulatedLineHeights (lineNumber - 1)).2 :=
      h.unmoved (getAccumulatedLineHeights_unmoved s _)
    rw [getWhitespaceAccumulatedHeightBeforeLineNumber_eq hlaid hline,
      (getWhitespaceAccumulatedHeightBeforeLineNumber_unmoved lineNumber hlaid.exact).paddingTop]
    rfl
  · rw [getWhitespaceAccumulatedHeightBeforeLineNumber_eq h hline,
      (getWhitespaceAccumulatedHeightBeforeLineNumber_unmoved lineNumber h.exact).paddingTop]

theorem topOf_succ (h : LaidOut defaultLineHeight s) (hfits : CommitFits s.lineHeightsManager)
    (hpos : 1 ≤ lineNumber) :
    s.topOf (lineNumber + 1) = s.topOf lineNumber + s.heightOf lineNumber +
      ((heightBefore s.arr (lineNumber + 1) - heightBefore s.arr lineNumber : Int) : ℚ) := by
  obtain ⟨lines, hrepresents⟩ := h.represents
  obtain ⟨hspread, htracks, hcommit, -⟩ := commit_represents hrepresents hfits
  rw [← hcommit] at htracks
  have hsum : s.lineHeightsManager.commit.accumulatedAt lineNumber =
      (if lineNumber > 1 then s.lineHeightsManager.commit.accumulatedAt (lineNumber - 1) else 0) +
        s.heightOf lineNumber := by
    have hsucc := @NaiveLines.accumulated_succ s.lineHeightsManager.commit.defaultLineHeight lines
      (lineNumber - 1) (by omega)
    rw [Int.sub_add_cancel] at hsucc
    rw [LineHeightsManager.accumulatedAt_eq htracks hspread (by omega), hsucc, heightOf,
      LineHeightsManager.heightAt_eq htracks]
    split_ifs with hgt
    · rw [LineHeightsManager.accumulatedAt_eq htracks hspread (by omega)]
    · obtain rfl : lineNumber = 1 := by omega
      rfl
  rw [topOf, topOf, if_pos (by omega), Int.add_sub_cancel, hsum]
  push_cast
  ring

structure Stacked (s : LinesLayout) (count : Int) : Prop where
  height : ∀ n, 1 ≤ n → n ≤ count → 0 ≤ s.heightOf n
  next : ∀ n, 1 ≤ n → n < count → s.topOf n + s.heightOf n ≤ s.topOf (n + 1)

/-- What a search for a line relies on: edges that are whole and in order. -/
structure Edged (s : LinesLayout) (count : Int) : Prop extends Stacked s count where
  laid : Laid s
  small : count < 2 ^ 31
  whole : ∀ n, 1 ≤ n → n ≤ count → truncInt32 (s.topOf n) = s.topOf n

theorem toInt32_of_mem {n : Int} (h : -2 ^ 31 ≤ n) (h' : n < 2 ^ 31) : toInt32 n = n := by
  unfold toInt32
  exact Int.bmod_eq_of_le (by omega) (by omega)

theorem Edged.unmoved {count : Int} (h : Edged s count) (hs : Unmoved s s') : Edged s' count := by
  refine ⟨⟨?_, ?_⟩, h.laid.unmoved hs, h.small, ?_⟩
  · rw [hs.heightOf]
    exact h.height
  · rw [hs.topOf, hs.heightOf]
    exact h.next
  · rw [hs.topOf]
    exact h.whole

theorem measure_eq {count : Int} (h : Edged s count) {n : Int} (hpos : 1 ≤ n) (hle : n ≤ count) :
    (s.measure n).1 = (s.heightOf n, truncInt32 (s.topOf n)) := by
  have hline := getLineHeightForLineNumber_unmoved s n
  have hcount := h.small
  have htop := getVerticalOffsetForLineNumber_eq (h.laid.unmoved hline) (toInt32_of_mem (n := n) (by omega) (by omega))
  rw [measure, ← hline.topOf, ← htop]
  rfl

theorem Stacked.top_mono {count : Int} (h : Stacked s count) {n n' : Int} (hpos : 1 ≤ n)
    (hlt : n < n') (hle : n' ≤ count) : s.topOf n + s.heightOf n ≤ s.topOf n' := by
  obtain ⟨k, rfl⟩ : ∃ k : Nat, n' = n + 1 + k := ⟨(n' - n - 1).toNat, by omega⟩
  induction k with
  | zero => simpa using h.next n hpos (by omega)
  | succ k ih =>
    have hstep := h.next (n + 1 + k) (by omega) (by push_cast at hle; omega)
    have hrest := ih (by omega) (by push_cast at hle; omega)
    have hheight := h.height (n + 1 + k) (by omega) (by push_cast at hle; omega)
    have heq : n + 1 + ((k + 1 : Nat) : Int) = n + 1 + k + 1 := by push_cast; omega
    rw [heq]
    linarith

theorem lineAtOrAfterLoop_spec {count low high : Int} (verticalOffset : Int) (h : Edged s count)
    (hlow : 1 ≤ low) (hle : low ≤ high) (hhigh : high ≤ count)
    (hfront : ∀ n, 1 ≤ n → n < low → s.topOf n + s.heightOf n ≤ verticalOffset)
    (hback : high = count ∨ (verticalOffset : ℚ) < s.topOf high + s.heightOf high) :
    low ≤ (lineAtOrAfterLoop verticalOffset s low high).1.1 ∧
    (lineAtOrAfterLoop verticalOffset s low high).1.1 ≤ high ∧
    (∀ n, 1 ≤ n → n < (lineAtOrAfterLoop verticalOffset s low high).1.1 → s.topOf n + s.heightOf n ≤ verticalOffset) ∧
    ((lineAtOrAfterLoop verticalOffset s low high).1.1 = count ∨
      (verticalOffset : ℚ) <
        s.topOf (lineAtOrAfterLoop verticalOffset s low high).1.1 +
          s.heightOf (lineAtOrAfterLoop verticalOffset s low high).1.1) := by
  induction s, low, high using lineAtOrAfterLoop.induct verticalOffset with
  | case1 s low high hlt midLineNumber mid hafter ih =>
    rw [lineAtOrAfterLoop, if_pos hlt, if_pos hafter]
    have hmid := measure_eq h (n := midLineNumber) (by omega) (by omega)
    have hwhole := h.whole midLineNumber (by omega) (by omega)
    have hunmoved := measure_unmoved midLineNumber h.laid.exact
    rw [hmid, hwhole] at hafter
    have hfront' : ∀ n, 1 ≤ n → n < midLineNumber + 1 →
        s.topOf n + s.heightOf n ≤ verticalOffset := by
      intro n hn hlt'
      rcases lt_or_eq_of_le (Int.lt_add_one_iff.mp hlt') with hn' | rfl
      · have htop := h.top_mono hn hn' (by omega)
        have hheight := h.height midLineNumber (by omega) (by omega)
        linarith
      · exact hafter
    have hspec := ih (h.unmoved hunmoved) (by omega) (by omega) hhigh
    rw [hunmoved.topOf, hunmoved.heightOf] at hspec
    obtain ⟨h1, h2, h3, h4⟩ := hspec hfront' hback
    exact ⟨le_trans (by omega : low ≤ midLineNumber + 1) h1, h2, h3, h4⟩
  | case2 s low high hlt midLineNumber mid hafter hhit =>
    rw [lineAtOrAfterLoop, if_pos hlt, if_neg hafter, if_pos hhit]
    have hmid := measure_eq h (n := midLineNumber) (by omega) (by omega)
    have hwhole := h.whole midLineNumber (by omega) (by omega)
    rw [hmid, hwhole, not_le] at hafter
    rw [hmid] at hhit
    have htop : s.topOf midLineNumber ≤ verticalOffset := by
      rw [← hwhole]
      exact_mod_cast hhit
    have hin : low ≤ midLineNumber ∧ midLineNumber ≤ high := by omega
    refine ⟨hin.1, hin.2, fun n hn hn' => ?_, Or.inr hafter⟩
    exact (h.top_mono hn hn' (hin.2.trans hhigh)).trans htop
  | case3 s low high hlt midLineNumber mid hafter hhit ih =>
    rw [lineAtOrAfterLoop, if_pos hlt, if_neg hafter, if_neg hhit]
    have hmid := measure_eq h (n := midLineNumber) (by omega) (by omega)
    have hwhole := h.whole midLineNumber (by omega) (by omega)
    have hunmoved := measure_unmoved midLineNumber h.laid.exact
    rw [hmid, hwhole, not_le] at hafter
    have hspec := ih (h.unmoved hunmoved) hlow (by omega) (by omega)
    rw [hunmoved.topOf, hunmoved.heightOf] at hspec
    obtain ⟨h1, h2, h3, h4⟩ := hspec hfront (Or.inr hafter)
    exact ⟨h1, h2.trans (by omega : midLineNumber ≤ high), h3, h4⟩
  | case4 s low high hge =>
    rw [lineAtOrAfterLoop, if_neg hge]
    obtain rfl : low = high := by omega
    exact ⟨le_rfl, le_rfl, hfront, hback⟩

def bottomEdge (s : LinesLayout) (lineNumber : Int) : ℚ :=
  (s.getVerticalOffsetForLineNumber lineNumber).1 + (s.getLineHeightForLineNumber lineNumber).1

/-- Lines, with heights that are whole and not negative and below 2³¹ in total. -/
structure Measured (s : LinesLayout) : Prop where
  lines : 1 ≤ s.lineCount ∧ s.lineCount < 2 ^ 31
  line : ∀ n, 1 ≤ n → n ≤ s.lineCount → ∃ k : Nat, (s.getLineHeightForLineNumber n).1 = k
  whitespace : ∀ w ∈ s.arr, 0 ≤ w.height
  padding : ∃ k : Nat, s.paddingTop = k
  total : s.bottomEdge s.lineCount < 2 ^ 31

theorem bottomEdge_eq (h : Laid s) {n : Int} (hpos : 1 ≤ n) (hlt : n < 2 ^ 31) :
    s.bottomEdge n = s.topOf n + s.heightOf n := by
  rw [bottomEdge, getVerticalOffsetForLineNumber_eq h (toInt32_of_mem (by omega) hlt), getLineHeightForLineNumber_eq]

theorem truncInt32_intCast {k : Int} (hge : -2 ^ 31 ≤ k) (hlt : k < 2 ^ 31) :
    truncInt32 (k : ℚ) = k := by
  rw [truncInt32, Rat.num_intCast, Rat.den_intCast, Nat.cast_one, Int.tdiv_one, toInt32_of_mem hge hlt]

theorem heightBefore_nonneg (hpos : ∀ w ∈ s.arr, 0 ≤ w.height) (n : Int) :
    0 ≤ heightBefore s.arr n := by
  refine List.sum_nonneg fun x hx => ?_
  obtain ⟨w, hw, rfl⟩ := List.mem_map.mp hx
  exact hpos w (List.mem_of_mem_filter hw)

theorem topOf_whole (h : LaidOut defaultLineHeight s) (hfits : CommitFits s.lineHeightsManager)
    (hm : Measured s) (i : Nat) (hle : (i : Int) + 1 ≤ s.lineCount) :
    ∃ k : Nat, s.topOf (i + 1) = k := by
  induction i with
  | zero =>
    obtain ⟨p, hp⟩ := hm.padding
    obtain ⟨b, hb⟩ := Int.eq_ofNat_of_zero_le (heightBefore_nonneg hm.whitespace 1)
    refine ⟨b + p, ?_⟩
    rw [topOf, Nat.cast_zero, Int.zero_add, if_neg (by omega), hb, hp]
    push_cast
    ring
  | succ i ih =>
    push_cast at hle ⊢
    obtain ⟨t, ht⟩ := ih (by omega)
    obtain ⟨k, hk⟩ := hm.line (i + 1) (by omega) (by omega)
    obtain ⟨b, hb⟩ := Int.eq_ofNat_of_zero_le (sub_nonneg.mpr
      (heightBefore_le hm.whitespace (n := i + 1) (m := i + 1 + 1) (by omega)))
    refine ⟨t + k + b, ?_⟩
    rw [getLineHeightForLineNumber_eq] at hk
    rw [topOf_succ h hfits (by omega), ht, hk, hb]
    push_cast
    ring

theorem edged (h : LaidOut defaultLineHeight s) (hfits : CommitFits s.lineHeightsManager)
    (hm : Measured s) : Edged s s.lineCount := by
  obtain ⟨hpos, hsmall⟩ := hm.lines
  have hheight : ∀ n, 1 ≤ n → n ≤ s.lineCount → 0 ≤ s.heightOf n := fun n hn hn' => by
    obtain ⟨k, hk⟩ := hm.line n hn hn'
    rw [getLineHeightForLineNumber_eq] at hk
    rw [hk]
    exact Nat.cast_nonneg k
  have hnext : ∀ n, 1 ≤ n → n < s.lineCount → s.topOf n + s.heightOf n ≤ s.topOf (n + 1) := by
    intro n hn _
    have hbefore := heightBefore_le hm.whitespace (n := n) (m := n + 1) (by omega)
    rw [topOf_succ h hfits hn, le_add_iff_nonneg_right]
    exact_mod_cast sub_nonneg.mpr hbefore
  have hstacked : Stacked s s.lineCount := ⟨hheight, hnext⟩
  refine ⟨hstacked, h.laid, hsmall, fun n hn hn' => ?_⟩
  obtain ⟨k, hk⟩ := topOf_whole h hfits hm (n - 1).toNat (by omega)
  rw [Int.toNat_of_nonneg (by omega), Int.sub_add_cancel] at hk
  have htotal := hm.total
  rw [bottomEdge_eq h.laid hpos hsmall] at htotal
  have hle : s.topOf n ≤ s.topOf s.lineCount + s.heightOf s.lineCount := by
    rcases lt_or_eq_of_le hn' with hlt | rfl
    · have hbelow := hstacked.top_mono hn hlt le_rfl
      linarith [hheight n hn hn', hheight _ hpos le_rfl]
    · exact le_add_of_nonneg_right (hheight _ hn le_rfl)
  have hk' : (k : Int) < 2 ^ 31 := by
    rw [hk] at hle
    exact_mod_cast lt_of_le_of_lt hle htotal
  rw [hk, ← Int.cast_natCast, truncInt32_intCast (by omega) hk']

theorem tdiv_eq_floor {x : ℚ} (hpos : 0 ≤ x) : x.num.tdiv x.den = ⌊x⌋ := by
  rw [Rat.floor_def', Int.tdiv_eq_ediv_of_nonneg (Rat.num_nonneg.mpr hpos)]

theorem truncInt32_eq_floor {x : ℚ} (hpos : 0 ≤ x) (hlt : x < 2 ^ 31) : truncInt32 x = ⌊x⌋ := by
  have hpos' : 0 ≤ ⌊x⌋ := Int.floor_nonneg.mpr hpos
  have hlt' : ⌊x⌋ < 2 ^ 31 := Int.floor_lt.mpr (by exact_mod_cast hlt)
  rw [truncInt32, tdiv_eq_floor hpos, toInt32_of_mem (by omega) hlt']

theorem truncInt32_of_neg {x : ℚ} (hneg : x < 0) (hgt : -2 ^ 31 - 1 < x) :
    truncInt32 x = -⌊-x⌋ := by
  have hpos' : 0 ≤ ⌊-x⌋ := Int.floor_nonneg.mpr (by linarith)
  have hlt' : ⌊-x⌋ < 2 ^ 31 + 1 := Int.floor_lt.mpr (by push_cast; linarith)
  have hdiv := tdiv_eq_floor (x := -x) (by linarith)
  rw [Rat.num_neg_eq_neg_num, Rat.den_neg_eq_den, Int.neg_tdiv] at hdiv
  rw [truncInt32, ← hdiv, neg_neg]
  exact toInt32_of_mem (by omega) (by omega)

def IsLineAt (s : LinesLayout) (verticalOffset : ℚ) (lineNumber : Int) : Prop :=
  1 ≤ lineNumber ∧ lineNumber ≤ s.lineCount ∧
  (∀ n, 1 ≤ n → n < lineNumber → s.bottomEdge n ≤ verticalOffset) ∧
  (verticalOffset < s.bottomEdge lineNumber ∨ lineNumber = s.lineCount)

/-- An offset that `| 0` rounds without leaving 32 bits, and past no line without a height. -/
def OffsetFits (s : LinesLayout) (verticalOffset : ℚ) : Prop :=
  -2 ^ 31 - 1 < verticalOffset ∧ verticalOffset < 2 ^ 31 ∧
  (verticalOffset ≤ -1 ∨ 0 ≤ verticalOffset ∨ 0 < s.bottomEdge 1)

theorem bottomEdge_whole (h : LaidOut defaultLineHeight s) (hfits : CommitFits s.lineHeightsManager)
    (hm : Measured s) {n : Int} (hpos : 1 ≤ n) (hle : n ≤ s.lineCount) :
    ∃ k : Nat, s.bottomEdge n = k := by
  obtain ⟨t, ht⟩ := topOf_whole h hfits hm (n - 1).toNat (by omega)
  obtain ⟨k, hk⟩ := hm.line n hpos hle
  rw [Int.toNat_of_nonneg (by omega), Int.sub_add_cancel] at ht
  rw [getLineHeightForLineNumber_eq] at hk
  refine ⟨t + k, ?_⟩
  rw [bottomEdge_eq h.laid hpos (by have := hm.lines; omega), ht, hk, Nat.cast_add]

theorem search_spec (h : LaidOut defaultLineHeight s) (hfits : CommitFits s.lineHeightsManager)
    (hm : Measured s) (verticalOffset : ℚ) (hpos : 0 ≤ truncInt32 verticalOffset) :
    s.IsLineAt (truncInt32 verticalOffset : ℚ)
      (s.getLineNumberAtOrAfterVerticalOffset verticalOffset).1 := by
  obtain ⟨hcount, hsmall⟩ := hm.lines
  have hedged := edged h hfits hm
  have hedge : ∀ n, 1 ≤ n → n ≤ s.lineCount → s.bottomEdge n = s.topOf n + s.heightOf n :=
    fun n hn hn' => bottomEdge_eq h.laid hn (by omega)
  obtain ⟨hge, hle, hfront, hback⟩ := lineAtOrAfterLoop_spec
    (truncInt32 verticalOffset) hedged le_rfl hcount le_rfl (fun n hn hn' => by omega)
    (Or.inl rfl)
  have hfound : (s.getLineNumberAtOrAfterVerticalOffset verticalOffset).1 =
      (lineAtOrAfterLoop (truncInt32 verticalOffset) s 1 s.lineCount).1.1 := by
    unfold getLineNumberAtOrAfterVerticalOffset
    rw [toInt32_of_mem (by omega) hsmall, if_neg (by omega)]
    simp only [if_neg (not_lt.mpr hle), ite_self]
  rw [hfound]
  refine ⟨hge, hle, fun n hn hn' => ?_, ?_⟩
  · rw [hedge n hn (by omega)]
    exact hfront n hn hn'
  · rw [hedge _ hge hle, or_comm]
    exact hback

theorem getLineNumberAtOrAfterVerticalOffset_spec (h : LaidOut defaultLineHeight s)
    (hfits : CommitFits s.lineHeightsManager) (hm : Measured s) {verticalOffset : ℚ}
    (hoffset : s.OffsetFits verticalOffset) :
    s.IsLineAt verticalOffset (s.getLineNumberAtOrAfterVerticalOffset verticalOffset).1 := by
  obtain ⟨hgt, hlt, hzero⟩ := hoffset
  obtain ⟨hcount, hsmall⟩ := hm.lines
  have hfirst : 0 ≤ s.bottomEdge 1 := by
    obtain ⟨k, hk⟩ := bottomEdge_whole h hfits hm le_rfl hcount
    rw [hk]
    exact Nat.cast_nonneg k
  have hone : verticalOffset < s.bottomEdge 1 → s.IsLineAt verticalOffset 1 := fun hx =>
    ⟨le_rfl, hcount, fun n hn hn' => by omega, Or.inl hx⟩
  rcases lt_or_ge verticalOffset 0 with hneg | hpos
  · have htrunc := truncInt32_of_neg hneg hgt
    rcases le_or_gt verticalOffset (-1) with hle | hgt'
    · have hfloor : 1 ≤ ⌊-verticalOffset⌋ := Int.le_floor.mpr (by push_cast; linarith)
      have hfound : (s.getLineNumberAtOrAfterVerticalOffset verticalOffset).1 = 1 := by
        unfold getLineNumberAtOrAfterVerticalOffset
        rw [if_pos (by omega)]
      rw [hfound]
      exact hone (by linarith)
    · have hfloor : ⌊-verticalOffset⌋ = 0 := Int.floor_eq_zero_iff.mpr ⟨by linarith, by linarith⟩
      rw [hfloor, neg_zero] at htrunc
      obtain ⟨hge, hle, hfront, hback⟩ := search_spec h hfits hm verticalOffset (by omega)
      have hpositive : 0 < s.bottomEdge 1 := by
        rcases hzero with hzero | hzero | hzero
        · linarith
        · linarith
        · exact hzero
      rw [htrunc] at hfront
      rcases lt_or_eq_of_le hge with hmore | heq
      · have hflat := hfront 1 le_rfl hmore
        rw [Int.cast_zero] at hflat
        exact absurd hpositive (not_lt.mpr hflat)
      · rw [← heq]
        exact hone (by linarith)
  · have htrunc := truncInt32_eq_floor hpos hlt
    obtain ⟨hge, hle, hfront, hback⟩ := search_spec h hfits hm verticalOffset
      (by rw [htrunc]; exact Int.floor_nonneg.mpr hpos)
    rw [htrunc] at hfront hback
    refine ⟨hge, hle, fun n hn hn' => ?_, hback.imp_left fun hlt' => ?_⟩
    · exact (hfront n hn hn').trans (Int.floor_le verticalOffset)
    · obtain ⟨k, hk⟩ := bottomEdge_whole h hfits hm hge hle
      rw [hk] at hlt' ⊢
      have hk' : ⌊verticalOffset⌋ < (k : Int) := by exact_mod_cast hlt'
      exact_mod_cast Int.floor_lt.mp hk'

/-- In every run that fits, a query for the line at or after an offset is right. -/
theorem getLineNumberAtOrAfterVerticalOffset_run {instanceId : String} {lineCount : Int}
    {defaultLineHeight paddingTop paddingBottom : ℚ}
    {customLineHeightData : List CustomLineHeightData} {events : List Event} {s : LinesLayout}
    (hfits : Guarded next (fun s e => e.Fits s) (new instanceId lineCount defaultLineHeight
      paddingTop paddingBottom customLineHeightData) events)
    (hrun : run next (new instanceId lineCount defaultLineHeight paddingTop paddingBottom
      customLineHeightData) events = some s)
    (hcommit : CommitFits s.lineHeightsManager) (hm : Measured s) {verticalOffset : ℚ}
    (hoffset : s.OffsetFits verticalOffset) :
    s.IsLineAt verticalOffset (s.getLineNumberAtOrAfterVerticalOffset verticalOffset).1 := by
  have hlaid : LaidOut defaultLineHeight s := run_invariant (LaidOut defaultLineHeight)
    (fun _ e _ h hok hs => Option.some.inj hs ▸ step_laidOut h e hok)
    (new_laidOut _ _ _ _ _ _) hfits hrun
  exact getLineNumberAtOrAfterVerticalOffset_spec hlaid hcommit hm hoffset

def spaced : LinesLayout := (new "a" 3 10 5 0 [⟨"b", 2, 2, 30⟩]).step (.changeWhitespace [.insertWhitespace 1 0 7 0])

theorem spaced_measured : Measured spaced := by
  refine ⟨by decide, fun n hn hn' => ?_, by decide +kernel, ⟨5, rfl⟩, by decide +kernel⟩
  have hn'' : n ≤ 3 := hn'
  interval_cases n
  · exact ⟨10, by decide +kernel⟩
  · exact ⟨30, by decide +kernel⟩
  · exact ⟨10, by decide +kernel⟩

theorem getLineNumberAtOrAfterVerticalOffset_run_spaced :
    spaced.IsLineAt 20 (spaced.getLineNumberAtOrAfterVerticalOffset 20).1 :=
  @getLineNumberAtOrAfterVerticalOffset_run "a" 3 10 5 0 [⟨"b", 2, 2, 30⟩]
    [.changeWhitespace [.insertWhitespace 1 0 7 0]] spaced
    ⟨fun h => (nomatch h), fun _ _ => trivial⟩ rfl (by decide +kernel) spaced_measured 20
    ⟨by norm_num, by norm_num, Or.inr (Or.inl (by norm_num))⟩

/-- A deletion after which a decoration that covers the first line is left out of the sums. -/
def misplaced : LinesLayout :=
  [Event.insertOrChangeCustomLineHeight "b" 2 4 20, .insertOrChangeCustomLineHeight "a" 4 5 50,
    .linesDeleted 1 3].foldl step (new "c" 8 10 0 0 [])

theorem misplaced_measured : Measured misplaced := by
  refine ⟨by decide, fun n hn hn' => ?_, by decide +kernel, ⟨0, rfl⟩, by decide +kernel⟩
  have hn'' : n ≤ 5 := hn'
  interval_cases n
  · exact ⟨50, by decide +kernel⟩
  · exact ⟨50, by decide +kernel⟩
  · exact ⟨10, by decide +kernel⟩
  · exact ⟨10, by decide +kernel⟩
  · exact ⟨10, by decide +kernel⟩

theorem not_getLineNumberAtOrAfterVerticalOffset_run :
    Measured misplaced ∧ misplaced.OffsetFits 20 ∧
    ¬ misplaced.IsLineAt 20 (misplaced.getLineNumberAtOrAfterVerticalOffset 20).1 := by
  refine ⟨misplaced_measured, ⟨by norm_num, by norm_num, Or.inr (Or.inl (by norm_num))⟩, ?_⟩
  rintro ⟨-, -, hfront, -⟩
  have hfound : (misplaced.getLineNumberAtOrAfterVerticalOffset 20).1 = 2 := by decide +kernel
  rw [hfound] at hfront
  exact absurd (hfront 1 le_rfl (by omega)) (by decide +kernel)

end Edges

end LinesLayout

end Gavea.ViewLayout
