import Gavea.ViewLayout.DeletedRange

namespace Gavea.ViewLayout

open Gavea.Base LineHeightsManager List

def DeletionFits (l : List CustomLine) (fromLineNumber toLineNumber : Int) : Prop :=
  coversCustomLine l fromLineNumber toLineNumber = true →
    let before := l.take (startIndexOfDeletion l fromLineNumber)
    let deleted := (l.take (endIndexOfDeletion l toLineNumber + 1)).drop
      (startIndexOfDeletion l fromLineNumber)
    let after := l.drop (endIndexOfDeletion l toLineNumber + 1)
    (∀ last ∈ deleted.getLast?, last.lineNumber ≤ toLineNumber ∨
        last.lineNumber = toLineNumber + 1 ∧ ∀ e ∈ after, e.lineNumber ≠ toLineNumber + 1) ∧
      (∀ e ∈ deleted, e.decorationId ∈ before.map (·.decorationId) →
        ∃ e' ∈ after, e'.lineNumber = toLineNumber + 1 ∧ e'.decorationId = e.decorationId) ∧
      ∀ e ∈ after, e.lineNumber = toLineNumber + 1 → e.maximumSpecialHeight = maximumOnDeletedInterval deleted

instance (l : List CustomLine) (fromLineNumber toLineNumber : Int) :
    Decidable (DeletionFits l fromLineNumber toLineNumber) :=
  inferInstanceAs (Decidable (_ → _ ∧ _ ∧ _))

/-- What a deletion does to sorted lines: those in front, those that fall on the first line of the
range, and those behind. -/
structure Deletion (fromLineNumber toLineNumber : Int) (before deleted after : List CustomLine) :
    Prop where
  le : fromLineNumber ≤ toLineNumber
  front : ∀ e ∈ before, e.lineNumber < fromLineNumber
  range : ∀ e ∈ deleted, fromLineNumber ≤ e.lineNumber ∧ e.lineNumber ≤ toLineNumber + 1
  back : ∀ e ∈ after, toLineNumber < e.lineNumber
  last : ∀ e ∈ deleted.getLast?, e.lineNumber ≤ toLineNumber ∨
    e.lineNumber = toLineNumber + 1 ∧ ∀ e ∈ after, e.lineNumber ≠ toLineNumber + 1
  seen : ∀ e ∈ deleted, e.decorationId ∈ before.map (·.decorationId) →
    ∃ e' ∈ after, e'.lineNumber = toLineNumber + 1 ∧ e'.decorationId = e.decorationId
  height : ∀ e ∈ after, e.lineNumber = toLineNumber + 1 → e.maximumSpecialHeight = maximumOnDeletedInterval deleted

section Collapse

theorem maximumOnDeletedInterval_spec (deleted : List CustomLine) :
    0 ≤ maximumOnDeletedInterval deleted ∧
      (∀ e ∈ deleted, e.maximumSpecialHeight ≤ maximumOnDeletedInterval deleted) ∧
      (maximumOnDeletedInterval deleted = 0 ∨
        ∃ e ∈ deleted, maximumOnDeletedInterval deleted = e.maximumSpecialHeight) := by
  have hfold : ∀ (deleted : List CustomLine) (start : ℚ),
      let maximum := deleted.foldl (fun maximum e => max maximum e.maximumSpecialHeight) start
      start ≤ maximum ∧ (∀ e ∈ deleted, e.maximumSpecialHeight ≤ maximum) ∧
        (maximum = start ∨ ∃ e ∈ deleted, maximum = e.maximumSpecialHeight) := by
    intro deleted
    induction deleted with
    | nil => exact fun start => ⟨le_rfl, fun e he => absurd he not_mem_nil, Or.inl rfl⟩
    | cons e deleted ih =>
      intro start
      obtain ⟨h1, h2, h3⟩ := ih (max start e.maximumSpecialHeight)
      rw [foldl_cons]
      refine ⟨(le_max_left _ _).trans h1, forall_mem_cons.mpr ⟨(le_max_right _ _).trans h1, h2⟩, ?_⟩
      rcases h3 with h3 | ⟨e', he', h3⟩
      · rcases max_choice start e.maximumSpecialHeight with hmax | hmax
        · exact Or.inl (h3.trans hmax)
        · exact Or.inr ⟨e, mem_cons_self, h3.trans hmax⟩
      · exact Or.inr ⟨e', mem_cons_of_mem e he', h3⟩
  exact hfold deleted 0

variable {fromLineNumber : Int} {prefixSum maximum : ℚ}

theorem mem_collapse (deleted : List CustomLine) : ∀ (seen : List String) (numberOfDeletions : Int),
    ∀ r ∈ collapse fromLineNumber prefixSum maximum seen numberOfDeletions deleted,
      ∃ e ∈ deleted, r.decoration = e.decoration ∧ r.deleted = e.deleted ∧
        r.lineNumber = fromLineNumber ∧ r.prefixSum = prefixSum ∧
        r.maximumSpecialHeight = maximum := by
  induction deleted with
  | nil => exact fun _ _ r hr => absurd hr not_mem_nil
  | cons e deleted ih =>
    intro seen numberOfDeletions r hr
    rw [collapse] at hr
    split at hr
    · obtain ⟨e', he', h⟩ := ih _ _ r hr
      exact ⟨e', mem_cons_of_mem e he', h⟩
    · rcases mem_cons.mp hr with rfl | hr
      · exact ⟨e, mem_cons_self, rfl, rfl, rfl, rfl, rfl⟩
      · obtain ⟨e', he', h⟩ := ih _ _ r hr
        exact ⟨e', mem_cons_of_mem e he', h⟩

theorem exists_mem_collapse (deleted : List CustomLine) :
    ∀ (seen : List String) (numberOfDeletions : Int), ∀ e ∈ deleted, e.decorationId ∉ seen →
      ∃ r ∈ collapse fromLineNumber prefixSum maximum seen numberOfDeletions deleted,
        r.decorationId = e.decorationId := by
  induction deleted with
  | nil => exact fun _ _ e he => absurd he not_mem_nil
  | cons e deleted ih =>
    intro seen numberOfDeletions e' he' hseen
    rw [collapse]
    split
    · next hmem =>
        rcases mem_cons.mp he' with rfl | he'
        · exact absurd hmem hseen
        · exact ih _ _ e' he' hseen
    · by_cases hid : e'.decorationId = e.decorationId
      · exact ⟨_, mem_cons_self, hid.symm⟩
      · rcases mem_cons.mp he' with rfl | he'
        · exact absurd rfl hid
        · obtain ⟨r, hr, hr'⟩ := ih (e.decorationId :: seen) numberOfDeletions e' he' fun hmem =>
            (mem_cons.mp hmem).elim hid hseen
          exact ⟨r, mem_cons_of_mem _ hr, hr'⟩

theorem index_collapse (deleted : List CustomLine) :
    ∀ (seen : List String) (numberOfDeletions start : Int),
      (∀ i (h : i < deleted.length), deleted[i].index = start + i) →
      ∀ i (h : i < (collapse fromLineNumber prefixSum maximum seen numberOfDeletions
        deleted).length),
        (collapse fromLineNumber prefixSum maximum seen numberOfDeletions deleted)[i].index =
          start - numberOfDeletions + i := by
  induction deleted with
  | nil => exact fun _ _ _ _ i h => absurd h (Nat.not_lt_zero i)
  | cons e deleted ih =>
    intro seen numberOfDeletions start hindex i hi
    have hrest : ∀ i (h : i < deleted.length), deleted[i].index = start + 1 + i := by
      intro i h
      have hnext := hindex (i + 1) (by rw [length_cons]; omega)
      rw [getElem_cons_succ] at hnext
      push_cast at hnext
      omega
    unfold collapse at hi ⊢
    split
    · next hmem =>
        simp only [hmem, if_true] at hi
        rw [ih seen (numberOfDeletions + 1) (start + 1) hrest i hi]
        omega
    · next hmem =>
        simp only [hmem, if_false] at hi
        cases i with
        | zero =>
          have hfirst := hindex 0 (by rw [length_cons]; omega)
          rw [getElem_cons_zero] at hfirst ⊢
          simp only [hfirst]
          omega
        | succ i =>
          rw [getElem_cons_succ, ih _ numberOfDeletions (start + 1) hrest i (by simpa using hi)]
          push_cast
          omega

end Collapse

section Sums

variable {defaultLineHeight : ℚ} {lines : NaiveLines} {fromLineNumber toLineNumber : Int}

theorem linesDeleted_of_lt {n : Int} (h : n < fromLineNumber) :
    lines.linesDeleted fromLineNumber toLineNumber n = lines n := if_pos h

theorem linesDeleted_of_gt {n : Int} (h : fromLineNumber < n) :
    lines.linesDeleted fromLineNumber toLineNumber n =
      lines (n + (toLineNumber - fromLineNumber + 1)) := by
  rw [NaiveLines.linesDeleted, if_neg (by omega), if_neg (by omega)]

theorem accumulated_linesDeleted_front {n : Int} (h : n < fromLineNumber) :
    (lines.linesDeleted fromLineNumber toLineNumber).accumulated defaultLineHeight n =
      lines.accumulated defaultLineHeight n :=
  NaiveLines.accumulated_congr fun _ _ hk => NaiveLines.height_congr (linesDeleted_of_lt (by omega))

theorem accumulated_linesDeleted_back (hfrom : 1 ≤ fromLineNumber)
    (hle : fromLineNumber ≤ toLineNumber) {n : Int} (h : fromLineNumber ≤ n) :
    (lines.linesDeleted fromLineNumber toLineNumber).accumulated defaultLineHeight n =
      lines.accumulated defaultLineHeight (n + (toLineNumber - fromLineNumber + 1)) -
        (lines.accumulated defaultLineHeight (toLineNumber + 1) -
          lines.accumulated defaultLineHeight (fromLineNumber - 1) -
          (lines.linesDeleted fromLineNumber toLineNumber).height defaultLineHeight
            fromLineNumber) := by
  have hfirst := @NaiveLines.accumulated_succ defaultLineHeight
    (lines.linesDeleted fromLineNumber toLineNumber) (fromLineNumber - 1) (by omega)
  have hfront := @accumulated_linesDeleted_front defaultLineHeight lines fromLineNumber toLineNumber
    (fromLineNumber - 1) (by omega)
  rw [Int.sub_add_cancel, hfront] at hfirst
  have hshift := @NaiveLines.accumulated_shift defaultLineHeight lines
    (lines.linesDeleted fromLineNumber toLineNumber) fromLineNumber (toLineNumber + 1) (by omega)
    (by omega) (n - fromLineNumber).toNat fun j _ => by
      have hline : fromLineNumber < fromLineNumber + j + 1 := by omega
      refine NaiveLines.height_congr ((linesDeleted_of_gt hline).trans ?_)
      rw [show fromLineNumber + j + 1 + (toLineNumber - fromLineNumber + 1) = toLineNumber + 1 + j + 1 by omega]
  rw [show fromLineNumber + ((n - fromLineNumber).toNat : Int) = n by omega,
    show toLineNumber + 1 + ((n - fromLineNumber).toNat : Int) =
      n + (toLineNumber - fromLineNumber + 1) by omega, hfirst] at hshift
  linarith

end Sums

namespace Deletion

variable {defaultLineHeight : ℚ} {lines : NaiveLines} {fromLineNumber toLineNumber : Int}
  {before deleted after : List CustomLine}

theorem mem_range (h : Deletion fromLineNumber toLineNumber before deleted after)
    {e : CustomLine} (he : e ∈ before ++ (deleted ++ after)) (hfrom : fromLineNumber ≤ e.lineNumber)
    (hto : e.lineNumber ≤ toLineNumber + 1) :
    e ∈ deleted ∨ e ∈ after ∧ e.lineNumber = toLineNumber + 1 := by
  rcases mem_append.mp he with he | he
  · have := h.front e he
    omega
  rcases mem_append.mp he with he | he
  · exact Or.inl he
  · have := h.back e he
    exact Or.inr ⟨he, by omega⟩

variable (h : Deletion fromLineNumber toLineNumber before deleted after)
  (htracks : Tracks defaultLineHeight lines (before ++ (deleted ++ after)))
  (hs : lines.Spread)

include h htracks hs

theorem height_first (hne : deleted ≠ []) :
    (lines.linesDeleted fromLineNumber toLineNumber).height defaultLineHeight fromLineNumber =
      maximumOnDeletedInterval deleted := by
  obtain ⟨hnonneg, hle, heq⟩ := maximumOnDeletedInterval_spec deleted
  have hmoved : ∀ k, fromLineNumber ≤ k → k ≤ toLineNumber + 1 →
      NaiveLines.moved fromLineNumber toLineNumber k = fromLineNumber := by
    intro k hk hk'
    unfold NaiveLines.moved
    split_ifs <;> omega
  have hmaxLe : ∀ d ∈ lines.linesDeleted fromLineNumber toLineNumber fromLineNumber,
      d.2 ≤ maximumOnDeletedInterval deleted := by
    intro d hd
    obtain ⟨k, hk, hd⟩ := (NaiveLines.mem_linesDeleted h.le).mp hd
    obtain ⟨e, he, rfl, rfl⟩ := (htracks.covered k d).mp hd
    have hheight := NaiveLines.le_height defaultLineHeight hd
    rw [← htracks.maximum e he] at hheight
    have hrange : fromLineNumber ≤ e.lineNumber ∧ e.lineNumber ≤ toLineNumber + 1 := by
      unfold NaiveLines.moved at hk
      split_ifs at hk <;> omega
    rcases h.mem_range he hrange.1 hrange.2 with he' | ⟨he', hline⟩
    · exact hheight.trans (hle e he')
    · exact hheight.trans (h.height e he' hline).le
  obtain ⟨e, he, hmax⟩ : ∃ e ∈ deleted,
      maximumOnDeletedInterval deleted = e.maximumSpecialHeight := by
    rcases heq with heq | heq
    · obtain ⟨e, deleted', rfl⟩ := exists_cons_of_ne_nil hne
      refine ⟨e, mem_cons_self, le_antisymm ?_ (hle e mem_cons_self)⟩
      have hmem := mem_append_right before (mem_append_left after (mem_cons_self (a := e) (l := deleted')))
      rw [heq, htracks.maximum e hmem]
      exact ((hs.positive _ _ (htracks.mem hmem)).2).trans (NaiveLines.le_height defaultLineHeight (htracks.mem hmem))
    · exact heq
  have hmem := mem_append_right before (mem_append_left after he)
  obtain ⟨d, hd, hheight⟩ := NaiveLines.exists_height defaultLineHeight (htracks.mem hmem)
  have hmax' : maximumOnDeletedInterval deleted = d.2 := by
    rw [hmax, htracks.maximum e hmem, hheight]
  rw [hmax'] at hmaxLe ⊢
  exact NaiveLines.height_eq ((NaiveLines.mem_linesDeleted h.le).mpr
    ⟨_, hmoved _ (h.range e he).1 (h.range e he).2, hd⟩) hmaxLe

omit h hs in
theorem sorted_parts : SortedLines before ∧ SortedLines deleted ∧ SortedLines after ∧
    ∀ e ∈ deleted, ∀ e' ∈ after, e.lineNumber ≤ e'.lineNumber := by
  obtain ⟨hbefore, hrest, -⟩ := pairwise_append.mp htracks.sorted
  obtain ⟨hdeleted, hafter, hbetween⟩ := pairwise_append.mp hrest
  exact ⟨hbefore, hdeleted, hafter, hbetween⟩

omit htracks hs h in
theorem le_last {l : List CustomLine} (hl : SortedLines l) {last : CustomLine}
    (hlast : last ∈ l.getLast?) : ∀ e ∈ l, e.lineNumber ≤ last.lineNumber := by
  obtain ⟨init, rfl⟩ := getLast?_eq_some_iff.mp hlast
  intro e he
  rcases mem_append.mp he with he | he
  · exact (pairwise_append.mp hl).2.2 e he last (mem_singleton_self last)
  · rw [mem_singleton.mp he]

omit htracks hs h in
theorem head_le {l : List CustomLine} (hl : SortedLines l) {first : CustomLine}
    (hfirst : first ∈ l.head?) : ∀ e ∈ l, first.lineNumber ≤ e.lineNumber := by
  obtain ⟨l', rfl⟩ := head?_eq_some_iff.mp hfirst
  intro e he
  rcases mem_cons.mp he with rfl | he
  · exact le_rfl
  · exact (pairwise_cons.mp hl).1 e he

theorem prefixSum_front (hfrom : 1 ≤ fromLineNumber) :
    prefixSumOnDeletedInterval defaultLineHeight before.getLast? fromLineNumber =
      lines.accumulated defaultLineHeight (fromLineNumber - 1) := by
  have hempty : ∀ k < fromLineNumber, (∀ e ∈ before, e.lineNumber ≠ k) → lines k = ∅ := by
    intro k hk hne
    refine htracks.eq_empty fun e he => ?_
    rcases mem_append.mp he with he | he
    · exact hne e he
    · rcases mem_append.mp he with he | he
      · have := (h.range e he).1
        omega
      · have := h.back e he
        have := h.le
        omega
  unfold prefixSumOnDeletedInterval
  cases hlast : before.getLast? with
  | none =>
    obtain rfl := getLast?_eq_none_iff.mp hlast
    simp only
    rw [if_pos (by omega), NaiveLines.accumulated_front (by omega) fun k _ hk =>
      hempty k (by omega) fun e he => absurd he not_mem_nil]
    push_cast
    ring
  | some last =>
    have hmem := mem_append_left (deleted ++ after) (mem_of_getLast? hlast)
    have hlt := h.front last (mem_of_getLast? hlast)
    simp only
    rw [NaiveLines.accumulated_after (htracks.positive hs hmem) (htracks.sum _ hmem)
      (htracks.maximum _ hmem) (n := fromLineNumber - 1) (by omega) fun k hk hk' => hempty k (by omega) fun e he => ?_]
    · push_cast
      ring
    · have := le_last (sorted_parts htracks).1 hlast e he
      omega

omit htracks hs h in
theorem heightAfter_default (hnone : ∀ e ∈ after, e.lineNumber ≠ toLineNumber + 1) :
    heightOfFirstLineAfterDeletion defaultLineHeight after toLineNumber = defaultLineHeight := by
  unfold heightOfFirstLineAfterDeletion
  cases hhead : after.head? with
  | none => rfl
  | some e => exact if_neg (hnone e (mem_of_mem_head? hhead))

omit hs in
theorem heightAfter_eq (hto : ∀ e ∈ deleted, e.lineNumber ≤ toLineNumber) :
    heightOfFirstLineAfterDeletion defaultLineHeight after toLineNumber =
      lines.height defaultLineHeight (toLineNumber + 1) := by
  obtain ⟨-, -, hafter, -⟩ := sorted_parts htracks
  have hle := h.le
  by_cases hnone : ∀ e ∈ after, e.lineNumber ≠ toLineNumber + 1
  · rw [heightAfter_default hnone]
    refine (NaiveLines.height_of_eq_empty (htracks.eq_empty fun e he hline => ?_)).symm
    rcases mem_append.mp he with he | he
    · have := h.front e he
      omega
    rcases mem_append.mp he with he | he
    · have := hto e he
      omega
    · exact hnone e he hline
  · obtain ⟨e, he, hline⟩ : ∃ e ∈ after, e.lineNumber = toLineNumber + 1 := by
      simpa using hnone
    unfold heightOfFirstLineAfterDeletion
    cases hhead : after.head? with
    | none =>
      obtain rfl := head?_eq_none_iff.mp hhead
      cases he
    | some first =>
      have hfirst := mem_of_mem_head? hhead
      have hfirstLine : first.lineNumber = toLineNumber + 1 := by
        have := h.back first hfirst
        have := head_le hafter hhead e he
        omega
      simp only
      rw [if_pos hfirstLine, htracks.maximum first (mem_append_right _ (mem_append_right _ hfirst)), hfirstLine]

theorem total_eq (hfrom : 1 ≤ fromLineNumber) {first last : CustomLine}
    (hfirst : first ∈ deleted.head?) (hlast : last ∈ deleted.getLast?) :
    last.prefixSum + last.maximumSpecialHeight - first.prefixSum +
        defaultLineHeight * (toLineNumber - last.lineNumber) +
        defaultLineHeight * (first.lineNumber - fromLineNumber) +
        heightOfFirstLineAfterDeletion defaultLineHeight after toLineNumber =
      lines.accumulated defaultLineHeight (toLineNumber + 1) -
        lines.accumulated defaultLineHeight (fromLineNumber - 1) := by
  obtain ⟨-, hdeleted, hafter, hbetween⟩ := sorted_parts htracks
  have hle := h.le
  have hfirstMem := mem_of_mem_head? hfirst
  have hlastMem := mem_of_getLast? hlast
  have hmem : ∀ {e}, e ∈ deleted → e ∈ before ++ (deleted ++ after) := fun he =>
    mem_append_right before (mem_append_left after he)
  -- no line in front of the first one is covered
  have hstart : lines.accumulated defaultLineHeight (first.lineNumber - 1) =
      lines.accumulated defaultLineHeight (fromLineNumber - 1) +
        defaultLineHeight * (first.lineNumber - fromLineNumber) := by
    have hrange := (h.range first hfirstMem).1
    have hsum := @NaiveLines.accumulated_of_eq_empty defaultLineHeight lines (fromLineNumber - 1)
      (by omega) (first.lineNumber - fromLineNumber).toNat fun j hj => by
        refine htracks.eq_empty fun e he hline => ?_
        rcases mem_append.mp he with he | he
        · have := h.front e he
          omega
        rcases mem_append.mp he with he | he
        · have := head_le hdeleted hfirst e he
          omega
        · have := hbetween first hfirstMem e he
          omega
    rwa [show fromLineNumber - 1 + ((first.lineNumber - fromLineNumber).toNat : Int) =
      first.lineNumber - 1 by omega, NaiveLines.cast_toNat (by omega), Int.cast_sub] at hsum
  have hfirstSum := htracks.sum first (hmem hfirstMem)
  have hpos := htracks.positive hs (hmem hlastMem)
  have hrange := (h.range last hlastMem).1
  have hend : lines.accumulated defaultLineHeight (toLineNumber + 1) =
      last.prefixSum + last.maximumSpecialHeight +
        defaultLineHeight * (toLineNumber - last.lineNumber) +
        heightOfFirstLineAfterDeletion defaultLineHeight after toLineNumber := by
    rcases h.last last hlast with hlast' | ⟨hlast', hnone⟩
    · rw [heightAfter_eq h htracks fun e he => (le_last hdeleted hlast e he).trans hlast',
        NaiveLines.accumulated_succ (by omega), NaiveLines.accumulated_after hpos
          (htracks.sum _ (hmem hlastMem)) (htracks.maximum _ (hmem hlastMem)) hlast' fun k hk hk' => ?_]
      refine htracks.eq_empty fun e he hline => ?_
      rcases mem_append.mp he with he | he
      · have := h.front e he
        omega
      rcases mem_append.mp he with he | he
      · have := le_last hdeleted hlast e he
        omega
      · have := h.back e he
        omega
    · rw [heightAfter_default hnone, NaiveLines.accumulated_after hpos
        (htracks.sum _ (hmem hlastMem)) (htracks.maximum _ (hmem hlastMem)) (n := toLineNumber + 1)
        (by omega) fun k hk hk' => by omega]
      push_cast
      ring
  rw [hend, hfirstSum, hstart]
  ring

theorem covered_collapse {prefixSum maximum totalHeightDeleted : ℚ} {numberOfDeletions : Int}
    (n : Int) (d : String × ℚ) :
    d ∈ lines.linesDeleted fromLineNumber toLineNumber n ↔
      ∃ e ∈ before ++ collapse fromLineNumber prefixSum maximum (before.map (·.decorationId)) 0
          deleted ++ after.map (shiftBack (toLineNumber - fromLineNumber + 1) numberOfDeletions totalHeightDeleted),
        e.lineNumber = n ∧ e.decoration = d := by
  have hmemDeleted : ∀ {e}, e ∈ deleted → e ∈ before ++ (deleted ++ after) := fun he =>
    mem_append_right before (mem_append_left after he)
  have hmemAfter : ∀ {e}, e ∈ after → e ∈ before ++ (deleted ++ after) := fun he =>
    mem_append_right before (mem_append_right deleted he)
  have hle := h.le
  have hmoved : ∀ k, NaiveLines.moved fromLineNumber toLineNumber k =
      if k < fromLineNumber then k
      else if k ≤ toLineNumber then fromLineNumber
      else k - (toLineNumber - fromLineNumber + 1) := fun _ => rfl
  -- two custom lines of one decoration have one height
  have hsame : ∀ {a b}, a ∈ before ++ (deleted ++ after) → b ∈ before ++ (deleted ++ after) →
      a.decorationId = b.decorationId → a.decoration = b.decoration := by
    intro a b ha hb hid
    refine Prod.ext hid (hs.single a.lineNumber b.lineNumber a.decorationId _ _ (htracks.mem ha) ?_)
    rw [hid]
    exact htracks.mem hb
  rw [NaiveLines.mem_linesDeleted hle]
  constructor
  · rintro ⟨k, hk, hd⟩
    obtain ⟨e, he, rfl, rfl⟩ := (htracks.covered k d).mp hd
    rcases mem_append.mp he with he | he
    · have hfront := h.front e he
      rw [hmoved, if_pos hfront] at hk
      exact ⟨e, mem_append_left _ (mem_append_left _ he), hk, rfl⟩
    rcases mem_append.mp he with he | he
    · have hrange := h.range e he
      have hn : n = fromLineNumber := by
        rw [hmoved] at hk
        split_ifs at hk <;> omega
      by_cases hseen : e.decorationId ∈ before.map (·.decorationId)
      · obtain ⟨e', he', hline, hid⟩ := h.seen e he hseen
        have hdecoration := hsame (hmemAfter he') (hmemDeleted he) hid
        refine ⟨_, mem_append_right _ (mem_map_of_mem he'), ?_, hdecoration⟩
        show e'.lineNumber - (toLineNumber - fromLineNumber + 1) = n
        omega
      · obtain ⟨r, hr, hid⟩ := @exists_mem_collapse fromLineNumber prefixSum maximum deleted _ 0 e he hseen
        obtain ⟨e', he', hdecoration, -, hline, -⟩ := mem_collapse deleted _ _ r hr
        refine ⟨r, mem_append_left _ (mem_append_right _ hr), hline.trans hn.symm, ?_⟩
        rw [hdecoration]
        refine hsame (hmemDeleted he') (hmemDeleted he) ?_
        rw [← hid]
        exact (congrArg Prod.fst hdecoration).symm
    · have hback := h.back e he
      refine ⟨_, mem_append_right _ (mem_map_of_mem he), ?_, rfl⟩
      show e.lineNumber - (toLineNumber - fromLineNumber + 1) = n
      rw [hmoved] at hk
      split_ifs at hk <;> omega
  · rintro ⟨r, hr, rfl, rfl⟩
    rcases mem_append.mp hr with hr | hr
    · rcases mem_append.mp hr with hr | hr
      · refine ⟨r.lineNumber, ?_, htracks.mem (mem_append_left _ hr)⟩
        rw [hmoved, if_pos (h.front r hr)]
      · obtain ⟨e, he, hdecoration, -, hline, -⟩ := mem_collapse deleted _ _ r hr
        have hrange := h.range e he
        refine ⟨e.lineNumber, ?_, hdecoration ▸ htracks.mem (hmemDeleted he)⟩
        rw [hmoved, hline]
        split_ifs <;> omega
    · obtain ⟨e, he, rfl⟩ := mem_map.mp hr
      have hback := h.back e he
      refine ⟨e.lineNumber, ?_, htracks.mem (hmemAfter he)⟩
      rw [hmoved]
      show _ = e.lineNumber - (toLineNumber - fromLineNumber + 1)
      split_ifs <;> omega

omit h hs in
theorem index_deleted (i : Nat) (hi : i < deleted.length) :
    deleted[i].index = before.length + i := by
  have hindex := htracks.index (before.length + i) (by simp only [length_append]; omega)
  rw [getElem_append_right (Nat.le_add_right _ _)] at hindex
  simp only [Nat.add_sub_cancel_left, getElem_append_left hi] at hindex
  exact_mod_cast hindex

omit h hs in
theorem index_after (i : Nat) (hi : i < after.length) :
    after[i].index = before.length + deleted.length + i := by
  have hindex := htracks.index (before.length + (deleted.length + i)) (by simp only [length_append]; omega)
  rw [getElem_append_right (Nat.le_add_right _ _)] at hindex
  simp only [Nat.add_sub_cancel_left, getElem_append_right (Nat.le_add_right deleted.length i)] at hindex
  rw [hindex]
  push_cast
  omega

theorem tracks_collapse (hfrom : 1 ≤ fromLineNumber) {first last : CustomLine}
    (hfirst : first ∈ deleted.head?) (hlast : last ∈ deleted.getLast?) :
    Tracks defaultLineHeight (lines.linesDeleted fromLineNumber toLineNumber)
      (collapseDeleted defaultLineHeight fromLineNumber toLineNumber before first last deleted
        after) := by
  obtain ⟨hbefore, hdeleted, hafter, hbetween⟩ := sorted_parts htracks
  have hle := h.le
  have hheight := h.height_first htracks hs (ne_nil_of_mem (mem_of_getLast? hlast))
  have htotal := h.total_eq htracks hs hfrom hfirst hlast
  have hsums := h.prefixSum_front htracks hs hfrom
  unfold collapseDeleted
  simp only [hsums, htotal]
  have hcollapsed := @mem_collapse fromLineNumber
    (lines.accumulated defaultLineHeight (fromLineNumber - 1)) (maximumOnDeletedInterval deleted)
    deleted (before.map (·.decorationId)) 0
  have hmemAfter : ∀ {e}, e ∈ after → e ∈ before ++ (deleted ++ after) := fun he =>
    mem_append_right before (mem_append_right deleted he)
  refine ⟨?_, ?_, ?_, h.covered_collapse htracks hs, ?_, ?_⟩
  · refine pairwise_append.mpr ⟨pairwise_append.mpr ⟨hbefore, ?_, ?_⟩, ?_, ?_⟩
    · refine pairwise_of_forall_mem_list fun a ha b hb => ?_
      obtain ⟨-, -, -, -, ha, -⟩ := hcollapsed a ha
      obtain ⟨-, -, -, -, hb, -⟩ := hcollapsed b hb
      omega
    · intro a ha b hb
      obtain ⟨-, -, -, -, hb, -⟩ := hcollapsed b hb
      have := h.front a ha
      omega
    · exact pairwise_map.mpr (hafter.imp fun {a b} hab => Int.sub_le_sub_right hab _)
    · intro a ha r hr
      obtain ⟨e, he, rfl⟩ := mem_map.mp hr
      have hback := h.back e he
      show a.lineNumber ≤ e.lineNumber - (toLineNumber - fromLineNumber + 1)
      rcases mem_append.mp ha with ha | ha
      · have := h.front a ha
        omega
      · obtain ⟨-, -, -, -, ha, -⟩ := hcollapsed a ha
        omega
  · intro i hi
    rw [getElem_append]
    split
    · next hi' =>
        rw [getElem_append]
        split
        · next hi'' =>
            have hindex := htracks.index i (by rw [length_append]; omega)
            rwa [getElem_append_left hi''] at hindex
        · next hi'' =>
            rw [length_append] at hi'
            rw [index_collapse deleted _ 0 before.length (index_deleted htracks) (i - before.length) (by omega)]
            omega
    · next hi' =>
        rw [length_append] at hi'
        simp only [length_append, length_map] at hi
        rw [getElem_map]
        show CustomLine.index _ - _ = _
        rw [index_after htracks, length_append]
        omega
  · refine forall_mem_append.mpr ⟨forall_mem_append.mpr ⟨?_, ?_⟩, ?_⟩
    · exact fun e he => htracks.live e (mem_append_left _ he)
    · intro r hr
      obtain ⟨e, he, -, hlive, -⟩ := hcollapsed r hr
      rw [hlive]
      exact htracks.live e (mem_append_right _ (mem_append_left _ he))
    · intro r hr
      obtain ⟨e, he, rfl⟩ := mem_map.mp hr
      exact htracks.live e (hmemAfter he)
  · refine forall_mem_append.mpr ⟨forall_mem_append.mpr ⟨?_, ?_⟩, ?_⟩
    · intro e he
      rw [NaiveLines.height_congr (linesDeleted_of_lt (h.front e he))]
      exact htracks.maximum e (mem_append_left _ he)
    · intro r hr
      obtain ⟨-, -, -, -, hline, -, hmax⟩ := hcollapsed r hr
      rw [hmax, hline, hheight]
    · intro r hr
      obtain ⟨e, he, rfl⟩ := mem_map.mp hr
      have hback := h.back e he
      show e.maximumSpecialHeight = (lines.linesDeleted fromLineNumber toLineNumber).height
        defaultLineHeight (e.lineNumber - (toLineNumber - fromLineNumber + 1))
      by_cases hline : e.lineNumber = toLineNumber + 1
      · rw [hline, show toLineNumber + 1 - (toLineNumber - fromLineNumber + 1) = fromLineNumber by
          omega, hheight, h.height e he hline]
      · have hgt : fromLineNumber < e.lineNumber - (toLineNumber - fromLineNumber + 1) := by omega
        rw [NaiveLines.height_congr (linesDeleted_of_gt hgt), Int.sub_add_cancel]
        exact htracks.maximum e (hmemAfter he)
  · refine forall_mem_append.mpr ⟨forall_mem_append.mpr ⟨?_, ?_⟩, ?_⟩
    · intro e he
      have := h.front e he
      rw [accumulated_linesDeleted_front (by omega)]
      exact htracks.sum e (mem_append_left _ he)
    · intro r hr
      obtain ⟨-, -, -, -, hline, hsum, -⟩ := hcollapsed r hr
      rw [hsum, hline, accumulated_linesDeleted_front (by omega)]
    · intro r hr
      obtain ⟨e, he, rfl⟩ := mem_map.mp hr
      have hback := h.back e he
      have hsum := htracks.sum e (hmemAfter he)
      show e.prefixSum - _ = (lines.linesDeleted fromLineNumber toLineNumber).accumulated
        defaultLineHeight (e.lineNumber - (toLineNumber - fromLineNumber + 1) - 1)
      rw [hsum]
      by_cases hline : e.lineNumber = toLineNumber + 1
      · have hafter := @NaiveLines.accumulated_succ defaultLineHeight lines toLineNumber (by omega)
        have hmax := htracks.maximum e (hmemAfter he)
        rw [h.height e he hline, hline] at hmax
        rw [hline, show toLineNumber + 1 - (toLineNumber - fromLineNumber + 1) - 1 =
          fromLineNumber - 1 by omega, accumulated_linesDeleted_front (by omega),
          Int.add_sub_cancel, hafter, ← hmax]
        ring
      · rw [accumulated_linesDeleted_back hfrom hle (by omega), hheight,
          show e.lineNumber - (toLineNumber - fromLineNumber + 1) - 1 +
            (toLineNumber - fromLineNumber + 1) = e.lineNumber - 1 by omega]

end Deletion

section Split

variable {l : List CustomLine} {fromLineNumber toLineNumber : Int}

theorem covers_spec (h : SortedLines l)
    (hcovers : coversCustomLine l fromLineNumber toLineNumber = true) :
    startIndexOfDeletion l fromLineNumber ≤ endIndexOfDeletion l toLineNumber ∧
      endIndexOfDeletion l toLineNumber < l.length ∧
      (∀ e ∈ l.take (startIndexOfDeletion l fromLineNumber), e.lineNumber < fromLineNumber) ∧
      (∀ e ∈ l.drop (startIndexOfDeletion l fromLineNumber), fromLineNumber ≤ e.lineNumber) ∧
      ∀ e ∈ l.drop (endIndexOfDeletion l toLineNumber + 1), toLineNumber < e.lineNumber := by
  have hcovers' : startIndexOfDeletion l fromLineNumber < endIndexOfDeletion l toLineNumber ∨
      startIndexOfDeletion l fromLineNumber = endIndexOfDeletion l toLineNumber ∧
        ∃ e ∈ l[startIndexOfDeletion l fromLineNumber]?, fromLineNumber ≤ e.lineNumber := by
    unfold coversCustomLine at hcovers
    simp only [Bool.or_eq_true, decide_eq_true_eq, Bool.and_eq_true, beq_iff_eq] at hcovers
    refine hcovers.imp_right fun ⟨heq, hany⟩ => ⟨heq, ?_⟩
    cases hget : l[startIndexOfDeletion l fromLineNumber]? with
    | none =>
      rw [hget] at hany
      cases hany
    | some e =>
      rw [hget, Option.any_some, Bool.and_eq_true, decide_eq_true_eq] at hany
      exact ⟨e, rfl, hany.1⟩
  have hstop : endIndexOfDeletion l toLineNumber < l.length ∧
      ∀ e ∈ l.drop (endIndexOfDeletion l toLineNumber + 1), toLineNumber < e.lineNumber := by
    rcases endIndexOfDeletion_spec h toLineNumber with ⟨rfl, hzero⟩ | ⟨hlt, hspec⟩
    · rw [hzero] at hcovers'
      rcases hcovers' with hlt | ⟨-, e, he, -⟩
      · omega
      · cases he
    · refine ⟨hlt, ?_⟩
      rcases hspec with ⟨-, hspec⟩ | ⟨-, hspec⟩
      · exact hspec
      · intro e he
        rw [← drop_drop] at he
        exact hspec e (mem_of_mem_drop he)
  rcases startIndexOfDeletion_spec h fromLineNumber with ⟨hlow, hhigh⟩ | ⟨hlast, hall⟩
  · exact ⟨hcovers'.elim le_of_lt fun h => h.1.le, hstop.1, hlow, hhigh, hstop.2⟩
  · rcases hcovers' with hlt | ⟨-, e, he, hge⟩
    · omega
    · have := hall e (mem_of_getElem? he)
      omega

theorem not_covers_spec (h : SortedLines l)
    (hcovers : coversCustomLine l fromLineNumber toLineNumber = false) :
    (∀ e ∈ l, e.lineNumber < fromLineNumber ∨ toLineNumber < e.lineNumber) ∧
      ∀ e ∈ l.take (endIndexOfDeletion l toLineNumber), e.lineNumber ≤ toLineNumber := by
  have hcovers' : endIndexOfDeletion l toLineNumber ≤ startIndexOfDeletion l fromLineNumber ∧
      (startIndexOfDeletion l fromLineNumber = endIndexOfDeletion l toLineNumber →
        ∀ e ∈ l[startIndexOfDeletion l fromLineNumber]?,
          e.lineNumber < fromLineNumber ∨ toLineNumber < e.lineNumber) := by
    unfold coversCustomLine at hcovers
    simp only [Bool.or_eq_false_iff, decide_eq_false_iff_not, not_lt] at hcovers
    refine ⟨hcovers.1, fun heq e he => ?_⟩
    have hany := hcovers.2
    rw [Option.mem_def.mp he, heq, beq_self_eq_true, Bool.true_and, Option.any_some,
      Bool.and_eq_false_iff, decide_eq_false_iff_not, decide_eq_false_iff_not] at hany
    omega
  rcases endIndexOfDeletion_spec h toLineNumber with ⟨rfl, hzero⟩ | ⟨hlt, hspec⟩
  · exact ⟨fun e he => absurd he not_mem_nil, fun e he => by cases mem_of_mem_take he⟩
  have hfront : ∀ e ∈ l.take (endIndexOfDeletion l toLineNumber), e.lineNumber ≤ toLineNumber := by
    rcases hspec with ⟨hspec, -⟩ | ⟨hspec, -⟩
    · exact fun e he => hspec e (mem_of_mem_take (i := endIndexOfDeletion l toLineNumber)
        (by rwa [take_take, Nat.min_eq_left (Nat.le_succ _)]))
    · exact fun e he => (hspec e he).le
  refine ⟨?_, hfront⟩
  rcases startIndexOfDeletion_spec h fromLineNumber with ⟨hlow, hhigh⟩ | ⟨-, hall⟩
  · -- what is not in front of the range is at the end index or behind it
    intro e he
    obtain ⟨i, hi, rfl⟩ := mem_iff_getElem.mp he
    by_cases his : i < startIndexOfDeletion l fromLineNumber
    · exact Or.inl (hlow _ (mem_take_iff_getElem.mpr ⟨i, by omega, rfl⟩))
    · rcases hspec with ⟨-, hspec⟩ | ⟨-, hspec⟩
      · by_cases hie : i = endIndexOfDeletion l toLineNumber
        · have heq : startIndexOfDeletion l fromLineNumber = endIndexOfDeletion l toLineNumber := by
            omega
          refine hcovers'.2 heq _ ?_
          rw [heq, ← hie]
          exact getElem?_eq_getElem hi
        · exact Or.inr (hspec _ (mem_drop_iff_getElem.mpr
            ⟨i - (endIndexOfDeletion l toLineNumber + 1), by omega, by congr 1; omega⟩))
      · exact Or.inr (hspec _ (mem_drop_iff_getElem.mpr
          ⟨i - endIndexOfDeletion l toLineNumber, by omega, by congr 1; omega⟩))
  · exact fun e he => Or.inl (hall e he)

end Split

section Deleted

variable {defaultLineHeight : ℚ} {lines : NaiveLines} {l : List CustomLine}
  {fromLineNumber toLineNumber : Int}

theorem tracks_shiftBack (h : Tracks defaultLineHeight lines l)
    (hfrom : 1 ≤ fromLineNumber) (hle : fromLineNumber ≤ toLineNumber)
    (hnone : ∀ e ∈ l, e.lineNumber < fromLineNumber ∨ toLineNumber < e.lineNumber) :
    Tracks defaultLineHeight (lines.linesDeleted fromLineNumber toLineNumber)
      (l.map fun e => if e.lineNumber > toLineNumber then
        shiftBack (toLineNumber - fromLineNumber + 1) 0
          (((toLineNumber - fromLineNumber + 1 : Int) : ℚ) * defaultLineHeight) e else e) := by
  have hempty : ∀ k, fromLineNumber ≤ k → k ≤ toLineNumber → lines k = ∅ := by
    intro k hk hk'
    refine h.eq_empty fun e he hline => ?_
    have := hnone e he
    omega
  have hat : ∀ n, fromLineNumber ≤ n → lines.linesDeleted fromLineNumber toLineNumber n =
      lines (n + (toLineNumber - fromLineNumber + 1)) := by
    intro n hn
    rcases eq_or_lt_of_le hn with rfl | hlt
    · ext d
      rw [NaiveLines.mem_linesDeleted hle]
      constructor
      · rintro ⟨k, hk, hd⟩
        unfold NaiveLines.moved at hk
        by_cases hk' : k = fromLineNumber + (toLineNumber - fromLineNumber + 1)
        · rwa [← hk']
        · rw [hempty k (by split_ifs at hk <;> omega) (by split_ifs at hk <;> omega)] at hd
          cases hd
      · refine fun hd => ⟨_, ?_, hd⟩
        unfold NaiveLines.moved
        split_ifs <;> omega
    · exact linesDeleted_of_gt hlt
  have hsum : ∀ n, fromLineNumber - 1 ≤ n →
      (lines.linesDeleted fromLineNumber toLineNumber).accumulated defaultLineHeight n =
        lines.accumulated defaultLineHeight (n + (toLineNumber - fromLineNumber + 1)) -
          ((toLineNumber - fromLineNumber + 1 : Int) : ℚ) * defaultLineHeight := by
    intro n hn
    have hshift := @NaiveLines.accumulated_shift defaultLineHeight lines
      (lines.linesDeleted fromLineNumber toLineNumber) (fromLineNumber - 1) toLineNumber (by omega)
      (by omega) (n - (fromLineNumber - 1)).toNat fun j _ => by
        refine NaiveLines.height_congr ((hat _ (by omega)).trans ?_)
        rw [show fromLineNumber - 1 + j + 1 + (toLineNumber - fromLineNumber + 1) = toLineNumber + j + 1 by omega]
    have hrange := @NaiveLines.accumulated_of_eq_empty defaultLineHeight lines (fromLineNumber - 1)
      (by omega) (toLineNumber - fromLineNumber + 1).toNat fun j _ => hempty _ (by omega) (by omega)
    have hfront := @accumulated_linesDeleted_front defaultLineHeight lines fromLineNumber
      toLineNumber (fromLineNumber - 1) (by omega)
    rw [show fromLineNumber - 1 + ((toLineNumber - fromLineNumber + 1).toNat : Int) = toLineNumber by
      omega, NaiveLines.cast_toNat (by omega)] at hrange
    rw [show fromLineNumber - 1 + ((n - (fromLineNumber - 1)).toNat : Int) = n by omega,
      show toLineNumber + ((n - (fromLineNumber - 1)).toNat : Int) =
        n + (toLineNumber - fromLineNumber + 1) by omega, hfront, hrange] at hshift
    linarith
  have hcases : ∀ e ∈ l, e.lineNumber < fromLineNumber ∧
        (if e.lineNumber > toLineNumber then
          shiftBack (toLineNumber - fromLineNumber + 1) 0
            (((toLineNumber - fromLineNumber + 1 : Int) : ℚ) * defaultLineHeight) e else e) = e ∨
      toLineNumber < e.lineNumber ∧
        (if e.lineNumber > toLineNumber then
          shiftBack (toLineNumber - fromLineNumber + 1) 0
            (((toLineNumber - fromLineNumber + 1 : Int) : ℚ) * defaultLineHeight) e else e) =
          shiftBack (toLineNumber - fromLineNumber + 1) 0
            (((toLineNumber - fromLineNumber + 1 : Int) : ℚ) * defaultLineHeight) e := by
    intro e he
    refine (hnone e he).imp (fun hlt => ⟨hlt, if_neg (by omega)⟩) fun hgt => ⟨hgt, if_pos hgt⟩
  refine ⟨?_, fun i hi => ?_, fun r hr => ?_, fun n d => ?_, fun r hr => ?_, fun r hr => ?_⟩
  · refine pairwise_map.mpr (h.sorted.imp_of_mem fun {a b} ha hb hab => ?_)
    rcases hcases a ha with ⟨ha', ha⟩ | ⟨ha', ha⟩ <;>
      rcases hcases b hb with ⟨hb', hb⟩ | ⟨hb', hb⟩ <;> rw [ha, hb]
    · exact hab
    · show a.lineNumber ≤ b.lineNumber - (toLineNumber - fromLineNumber + 1)
      omega
    · omega
    · exact Int.sub_le_sub_right hab _
  · rw [length_map] at hi
    rw [getElem_map]
    rcases hcases l[i] (getElem_mem hi) with ⟨-, he⟩ | ⟨-, he⟩ <;> rw [he]
    · exact h.index i hi
    · show l[i].index - 0 = i
      rw [h.index i hi, Int.sub_zero]
  · obtain ⟨e, he, rfl⟩ := mem_map.mp hr
    rcases hcases e he with ⟨-, he'⟩ | ⟨-, he'⟩ <;> rw [he'] <;> exact h.live e he
  · rw [NaiveLines.mem_linesDeleted hle]
    constructor
    · rintro ⟨k, hk, hd⟩
      obtain ⟨e, he, rfl, rfl⟩ := (h.covered k d).mp hd
      unfold NaiveLines.moved at hk
      refine ⟨_, mem_map_of_mem he, ?_⟩
      rcases hcases e he with ⟨hline, he'⟩ | ⟨hline, he'⟩ <;> rw [he']
      · rw [if_pos hline] at hk
        exact ⟨hk, rfl⟩
      · rw [if_neg (by omega), if_neg (by omega)] at hk
        exact ⟨hk, rfl⟩
    · rintro ⟨r, hr, rfl, rfl⟩
      obtain ⟨e, he, rfl⟩ := mem_map.mp hr
      refine ⟨e.lineNumber, ?_⟩
      unfold NaiveLines.moved
      rcases hcases e he with ⟨hline, he'⟩ | ⟨hline, he'⟩ <;> rw [he']
      · exact ⟨if_pos hline, h.mem he⟩
      · rw [if_neg (by omega), if_neg (by omega)]
        exact ⟨rfl, h.mem he⟩
  · obtain ⟨e, he, rfl⟩ := mem_map.mp hr
    rcases hcases e he with ⟨hline, he'⟩ | ⟨hline, he'⟩ <;> rw [he']
    · rw [NaiveLines.height_congr (linesDeleted_of_lt hline)]
      exact h.maximum e he
    · show e.maximumSpecialHeight = (lines.linesDeleted fromLineNumber toLineNumber).height
        defaultLineHeight (e.lineNumber - (toLineNumber - fromLineNumber + 1))
      rw [NaiveLines.height_congr (hat _ (by omega)), Int.sub_add_cancel]
      exact h.maximum e he
  · obtain ⟨e, he, rfl⟩ := mem_map.mp hr
    rcases hcases e he with ⟨hline, he'⟩ | ⟨hline, he'⟩ <;> rw [he']
    · rw [accumulated_linesDeleted_front (by omega)]
      exact h.sum e he
    · show e.prefixSum - _ = (lines.linesDeleted fromLineNumber toLineNumber).accumulated
        defaultLineHeight (e.lineNumber - (toLineNumber - fromLineNumber + 1) - 1)
      rw [hsum _ (by omega), h.sum e he,
        show e.lineNumber - (toLineNumber - fromLineNumber + 1) - 1 +
          (toLineNumber - fromLineNumber + 1) = e.lineNumber - 1 by omega]

theorem doLinesDeleted_tracks {m : LineHeightsManager}
    (h : Tracks m.defaultLineHeight lines m.orderedCustomLines) (hs : lines.Spread)
    (hfrom : 1 ≤ fromLineNumber) (hle : fromLineNumber ≤ toLineNumber)
    (hfits : DeletionFits m.orderedCustomLines fromLineNumber toLineNumber) :
    Tracks m.defaultLineHeight (lines.linesDeleted fromLineNumber toLineNumber)
      (doLinesDeleted m fromLineNumber toLineNumber).orderedCustomLines := by
  unfold doLinesDeleted
  simp only
  unfold DeletionFits at hfits
  cases hcovers : coversCustomLine m.orderedCustomLines fromLineNumber toLineNumber with
  | false =>
    obtain ⟨hnone, hfront⟩ := not_covers_spec h.sorted hcovers
    rw [if_neg Bool.false_ne_true]
    have htracks := tracks_shiftBack h hfrom hle hnone
    rw [← take_append_drop (endIndexOfDeletion m.orderedCustomLines toLineNumber)
      m.orderedCustomLines, map_append] at htracks
    have hkept : ((m.orderedCustomLines.take
        (endIndexOfDeletion m.orderedCustomLines toLineNumber)).map fun e =>
          if e.lineNumber > toLineNumber then
            shiftBack (toLineNumber - fromLineNumber + 1) 0
              (((toLineNumber - fromLineNumber + 1 : Int) : ℚ) * m.defaultLineHeight) e else e) =
        m.orderedCustomLines.take (endIndexOfDeletion m.orderedCustomLines toLineNumber) := by
      refine (map_congr_left fun e he => if_neg ?_).trans (map_id _)
      have := hfront e he
      omega
    rw [hkept] at htracks
    exact htracks
  | true =>
    obtain ⟨hstart, hstop, hfront, hback, hafter⟩ := covers_spec h.sorted hcovers
    obtain ⟨hlast, hseen, hheight⟩ := hfits hcovers
    rw [if_pos rfl]
    generalize startIndexOfDeletion m.orderedCustomLines fromLineNumber = start at *
    generalize endIndexOfDeletion m.orderedCustomLines toLineNumber = stop at *
    rw [getElem?_eq_getElem (by omega : start < m.orderedCustomLines.length), getElem?_eq_getElem hstop]
    simp only
    have hparts : m.orderedCustomLines.take start ++
        ((m.orderedCustomLines.take (stop + 1)).drop start ++
          m.orderedCustomLines.drop (stop + 1)) = m.orderedCustomLines := by
      rw [← append_assoc, ← Nat.min_eq_left (show start ≤ stop + 1 by omega), ← take_take,
        Nat.min_eq_left (show start ≤ stop + 1 by omega), take_append_drop, take_append_drop]
    have hhead : m.orderedCustomLines[start] ∈
        ((m.orderedCustomLines.take (stop + 1)).drop start).head? := by
      rw [head?_drop, getElem?_take_of_lt (by omega),
        getElem?_eq_getElem (by omega : start < m.orderedCustomLines.length)]
      rfl
    have hend : m.orderedCustomLines[stop] ∈
        ((m.orderedCustomLines.take (stop + 1)).drop start).getLast? := by
      rw [getLast?_eq_getElem?, getElem?_drop, length_drop, length_take,
        show start + (min (stop + 1) m.orderedCustomLines.length - start - 1) = stop by omega,
        getElem?_take_of_lt (by omega), getElem?_eq_getElem hstop]
      rfl
    have hsorted := (h.sorted.sublist (take_sublist (stop + 1) _)).sublist (drop_sublist start _)
    have hdeletion : Deletion fromLineNumber toLineNumber (m.orderedCustomLines.take start)
        ((m.orderedCustomLines.take (stop + 1)).drop start)
        (m.orderedCustomLines.drop (stop + 1)) := by
      refine ⟨hle, hfront, fun e he => ⟨hback e ?_, ?_⟩, hafter, hlast, hseen, hheight⟩
      · rw [drop_take] at he
        exact mem_of_mem_take he
      · have hle' := Deletion.le_last hsorted hend e he
        rcases hlast _ hend with hto | ⟨hto, -⟩ <;> omega
    rw [← hparts] at h
    exact hdeletion.tracks_collapse h hs hfrom hhead hend

end Deleted

end Gavea.ViewLayout
