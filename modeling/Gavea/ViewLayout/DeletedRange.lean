import Gavea.ViewLayout.Flush
import Mathlib.Data.List.TakeWhile

namespace Gavea.ViewLayout

open Gavea.Base LineHeightsManager List

def Indexed (l : List CustomLine) : Prop := ∀ i (h : i < l.length), l[i].index = i

variable {defaultLineHeight : ℚ} {base lines : NaiveLines} {l : List CustomLine}

@[simp] theorem markDeleted_lineNumber (decorationId : String) (e : CustomLine) :
    (markDeleted decorationId e).lineNumber = e.lineNumber := by
  unfold markDeleted
  split <;> rfl

@[simp] theorem markDeleted_index (decorationId : String) (e : CustomLine) :
    (markDeleted decorationId e).index = e.index := by
  unfold markDeleted
  split <;> rfl

@[simp] theorem markDeleted_decoration (decorationId : String) (e : CustomLine) :
    (markDeleted decorationId e).decoration = e.decoration := by
  unfold markDeleted
  split <;> rfl

theorem markDeleted_of_ne {decorationId : String} {e : CustomLine}
    (h : e.decorationId ≠ decorationId) : markDeleted decorationId e = e := if_neg h

theorem markDeleted_deleted_eq_false {decorationId : String} {e : CustomLine} :
    (markDeleted decorationId e).deleted = false ↔
      e.deleted = false ∧ e.decorationId ≠ decorationId := by
  unfold markDeleted
  split
  · next h => simp [h]
  · next h => simp [h]

theorem foldl_minIndex (removed : List CustomLine) : ∀ k : Option Int,
    (removed.foldl (fun k e => minIndex k e.index) k = none → removed = [] ∧ k = none) ∧
      ∀ k' ∈ removed.foldl (fun k e => minIndex k e.index) k,
        (∀ e ∈ removed, k' ≤ e.index) ∧ ∀ i ∈ k, k' ≤ i := by
  induction removed with
  | nil =>
    intro k
    refine ⟨fun h => ⟨rfl, h⟩, fun k' hk' => ⟨fun e he => absurd he not_mem_nil, ?_⟩⟩
    intro i hi
    rw [foldl_nil, Option.mem_def.mp hi] at hk'
    exact (Option.some.inj hk').ge
  | cons e removed ih =>
    intro k
    obtain ⟨hnone, hsome⟩ := ih (minIndex k e.index)
    rw [foldl_cons]
    refine ⟨fun h => ?_, fun k' hk' => ?_⟩
    · obtain ⟨-, h⟩ := hnone h
      cases k <;> cases h
    · obtain ⟨hrest, hmin⟩ := hsome k' hk'
      cases k with
      | none =>
        refine ⟨fun e' he' => ?_, fun i hi => by cases hi⟩
        rcases mem_cons.mp he' with rfl | he'
        · exact hmin _ rfl
        · exact hrest e' he'
      | some i =>
        have hle : k' ≤ min i e.index := hmin _ rfl
        refine ⟨fun e' he' => ?_, fun j hj => ?_⟩
        · rcases mem_cons.mp he' with rfl | he'
          · exact hle.trans (min_le_right _ _)
          · exact hrest e' he'
        · obtain rfl := Option.some.inj hj
          exact hle.trans (min_le_left _ _)

theorem KeptLines.foldl (removed : List CustomLine) : ∀ {k : Option Int},
    KeptLines defaultLineHeight base l k →
    (∀ e ∈ removed, 0 ≤ e.index ∧ e.index ≤ l.length) →
    KeptLines defaultLineHeight base l (removed.foldl (fun k e => minIndex k e.index) k) := by
  induction removed with
  | nil => exact fun h _ => h
  | cons e removed ih =>
    intro k h hindex
    obtain ⟨hnonneg, hlen⟩ := hindex e mem_cons_self
    exact ih (h.take hnonneg hlen rfl) fun e' he' => hindex e' (mem_cons_of_mem e he')

theorem Indexed.bounds (h : Indexed l) {e : CustomLine} (he : e ∈ l) :
    0 ≤ e.index ∧ e.index ≤ l.length := by
  obtain ⟨i, hi, rfl⟩ := mem_iff_getElem.mp he
  rw [h i hi]
  omega

theorem doRemove_staging {s : Staged} (h : Staging lines s)
    (hindex : Indexed s.1.orderedCustomLines) (decorationId : String) :
    Staging (lines.remove decorationId) (doRemoveCustomLineHeight decorationId s) ∧
      Indexed (doRemoveCustomLineHeight decorationId s).1.orderedCustomLines := by
  obtain ⟨m, staged⟩ := s
  obtain ⟨hsorted, ⟨base, hkept⟩, hcovered⟩ := h
  simp only at hsorted hkept hcovered hindex
  unfold doRemoveCustomLineHeight
  simp only
  refine ⟨⟨?_, ⟨base, ?_⟩, fun n d => ?_⟩, fun i hi => ?_⟩
  · refine pairwise_map.mpr (hsorted.imp fun {a b} hab => ?_)
    rwa [markDeleted_lineNumber, markDeleted_lineNumber]
  · have hfold := hkept.foldl (m.customLinesOf decorationId) fun e he => hindex.bounds (mem_of_mem_filter he)
    obtain ⟨hnone, hsome⟩ := foldl_minIndex (m.customLinesOf decorationId) m.invalidIndex
    -- a line of the decoration that is live is one of those that the index is taken from
    have hunmarked : ∀ e ∈ m.orderedCustomLines, e.deleted = false →
        e ∉ m.customLinesOf decorationId → markDeleted decorationId e = e := by
      intro e he hlive hnot
      refine markDeleted_of_ne fun hid => hnot ?_
      exact mem_filter.mpr ⟨he, decide_eq_true ⟨hid, hlive⟩⟩
    cases hk : (m.customLinesOf decorationId).foldl (fun k e => minIndex k e.index) m.invalidIndex with
    | none =>
      rw [hk] at hfold
      have hmap : m.orderedCustomLines.map (markDeleted decorationId) = m.orderedCustomLines := by
        refine (map_congr_left fun e he => ?_).trans (map_id _)
        refine hunmarked e he (hfold.live e he) ?_
        rw [(hnone hk).1]
        exact not_mem_nil
      simp only [hmap]
      exact hfold
    | some k =>
      rw [hk] at hfold
      obtain ⟨hk0, hlen, hfold⟩ := hfold
      refine ⟨hk0, by rwa [length_map], ?_⟩
      have hmap : (m.orderedCustomLines.map (markDeleted decorationId)).take k.toNat =
          m.orderedCustomLines.take k.toNat := by
        rw [← map_take]
        refine (map_congr_left fun e he => ?_).trans (map_id _)
        refine hunmarked e (mem_of_mem_take he) (hfold.live e he) fun hremoved => ?_
        have hle := (hsome k hk).1 e hremoved
        obtain ⟨i, hi, rfl⟩ := mem_take_iff_getElem.mp he
        rw [hindex i (by omega)] at hle
        omega
      rw [hmap]
      exact hfold
  · rw [NaiveLines.mem_remove, hcovered, ← map_append]
    constructor
    · rintro ⟨⟨e, he, hlive, hline, rfl⟩, hne⟩
      exact ⟨_, mem_map_of_mem he, markDeleted_deleted_eq_false.mpr ⟨hlive, hne⟩,
        (markDeleted_lineNumber _ _).trans hline, markDeleted_decoration _ _⟩
    · rintro ⟨e', he', hlive, hline, rfl⟩
      obtain ⟨e, he, rfl⟩ := mem_map.mp he'
      obtain ⟨hlive, hne⟩ := markDeleted_deleted_eq_false.mp hlive
      rw [markDeleted_lineNumber] at hline
      rw [markDeleted_decoration]
      exact ⟨⟨e, he, hlive, hline, rfl⟩, hne⟩
  · rw [getElem_map, markDeleted_index]
    exact hindex i _

theorem Staging.append {m : LineHeightsManager} {staged : List CustomLine}
    (h : Staging lines (m, staged)) (data : CustomLineHeightData)
    {lines' : NaiveLines} (hlines : ∀ n d, d ∈ lines' n ↔ d ∈ lines n ∨
      (data.startLineNumber ≤ n ∧ n ≤ data.endLineNumber) ∧ d = (data.decorationId, data.lineHeight)) :
    Staging lines' (m, staged ++ (lineRange data.startLineNumber data.endLineNumber).map
      fun lineNumber => CustomLine.new data.decorationId (-1) lineNumber data.lineHeight 0) := by
  refine ⟨h.sorted, h.kept, fun n d => ?_⟩
  rw [hlines, h.covered]
  simp only [← append_assoc]
  generalize m.orderedCustomLines ++ staged = l
  simp only [mem_append, or_and_right, exists_or]
  refine or_congr_right ?_
  constructor
  · rintro ⟨hn, rfl⟩
    exact ⟨_, mem_map_of_mem (mem_lineRange.mpr hn), rfl, rfl, rfl⟩
  · rintro ⟨e, he, -, rfl, rfl⟩
    obtain ⟨n, hn, rfl⟩ := mem_map.mp he
    exact ⟨mem_lineRange.mp hn, rfl⟩

theorem doInsertOrChange_staging {s : Staged} (h : Staging lines s)
    (hindex : Indexed s.1.orderedCustomLines) (data : CustomLineHeightData) :
    Staging (lines.insertOrChange data) (doInsertOrChangeCustomLineHeight data s) ∧
      Indexed (doInsertOrChangeCustomLineHeight data s).1.orderedCustomLines := by
  obtain ⟨hremoved, hindex'⟩ := doRemove_staging h hindex data.decorationId
  refine ⟨hremoved.append data fun n d => ?_, hindex'⟩
  rw [NaiveLines.mem_insertOrChange, NaiveLines.mem_remove]

end Gavea.ViewLayout

namespace Gavea.ViewLayout

open List

open Gavea.Base LineHeightsManager

section Indices

variable {l : List CustomLine} {n : Int}

theorem lt_of_mem_dropWhile (h : SortedLines l) (hge : ∀ e ∈ l, n ≤ e.lineNumber) :
    ∀ e ∈ l.dropWhile fun e => e.lineNumber = n, n < e.lineNumber := by
  induction l with
  | nil => exact fun e he => absurd he not_mem_nil
  | cons a l ih =>
    obtain ⟨hhead, htail⟩ := pairwise_cons.mp h
    intro e he
    by_cases ha : a.lineNumber = n
    · rw [dropWhile_cons_of_pos (by simpa using ha)] at he
      exact ih htail (fun e he => hge e (mem_cons_of_mem a he)) e he
    · rw [dropWhile_cons_of_neg (by simpa using ha)] at he
      have hlt : n < a.lineNumber := lt_of_le_of_ne (hge a mem_cons_self) (Ne.symm ha)
      rcases mem_cons.mp he with rfl | he
      · exact hlt
      · exact lt_of_lt_of_le hlt (hhead e he)

theorem gt_of_mem_dropWhile (h : l.Pairwise fun a b => b.lineNumber ≤ a.lineNumber)
    (hle : ∀ e ∈ l, e.lineNumber ≤ n) :
    ∀ e ∈ l.dropWhile fun e => e.lineNumber = n, e.lineNumber < n := by
  induction l with
  | nil => exact fun e he => absurd he not_mem_nil
  | cons a l ih =>
    obtain ⟨hhead, htail⟩ := pairwise_cons.mp h
    intro e he
    by_cases ha : a.lineNumber = n
    · rw [dropWhile_cons_of_pos (by simpa using ha)] at he
      exact ih htail (fun e he => hle e (mem_cons_of_mem a he)) e he
    · rw [dropWhile_cons_of_neg (by simpa using ha)] at he
      have hlt : a.lineNumber < n := lt_of_le_of_ne (hle a mem_cons_self) ha
      rcases mem_cons.mp he with rfl | he
      · exact hlt
      · exact lt_of_le_of_lt (hhead e he) hlt

theorem firstOnLine_spec (h : SortedLines l) {i : Nat} (hi : i < l.length)
    (hline : l[i].lineNumber = n) :
    ∃ p ≤ i, i - ((l.take i).reverse.takeWhile fun e => e.lineNumber = n).length = p ∧
      (∀ e ∈ l.take p, e.lineNumber < n) ∧ ∀ e ∈ l.drop p, n ≤ e.lineNumber := by
  have hle : ∀ e ∈ l.take i, e.lineNumber ≤ n := by
    intro e he
    obtain ⟨j, hj, rfl⟩ := mem_take_iff_getElem.mp he
    rw [← hline]
    exact h.lineNumber_le (by omega) hi
  have hreverse := (h.sublist (take_sublist i l)).reverse
  have hrun := takeWhile_append_dropWhile (p := fun e => decide (e.lineNumber = n)) (l := (l.take i).reverse)
  have hfront : ∀ e ∈ ((l.take i).reverse.dropWhile fun e => e.lineNumber = n),
      e.lineNumber < n := gt_of_mem_dropWhile hreverse fun e he => hle e (mem_reverse.mp he)
  have honLine : ∀ e ∈ ((l.take i).reverse.takeWhile fun e => e.lineNumber = n),
      e.lineNumber = n := fun e he => by simpa using mem_takeWhile_imp he
  generalize (l.take i).reverse.takeWhile (fun e => e.lineNumber = n) = run at hrun honLine ⊢
  generalize (l.take i).reverse.dropWhile (fun e => e.lineNumber = n) = front at hrun hfront
  have htake : l.take i = front.reverse ++ run.reverse := by
    rw [← reverse_append, hrun, reverse_reverse]
  have hlen := congrArg List.length htake
  rw [length_take, length_append, length_reverse, length_reverse] at hlen
  have hl : l = front.reverse ++ (run.reverse ++ l.drop i) := by
    rw [← append_assoc, ← htake, take_append_drop]
  have hp : front.reverse.length = i - run.length := by
    rw [length_reverse]
    omega
  refine ⟨i - run.length, Nat.sub_le _ _, rfl, fun e he => ?_, fun e he => ?_⟩
  · rw [hl, take_left' hp] at he
    exact hfront e (mem_reverse.mp he)
  · rw [hl, drop_left' hp] at he
    rcases mem_append.mp he with he | he
    · exact (honLine e (mem_reverse.mp he)).ge
    · obtain ⟨j, hj, rfl⟩ := mem_drop_iff_getElem.mp he
      rw [← hline]
      exact h.lineNumber_le (Nat.le_add_right i j) (by omega)

theorem lastOnLine_spec (h : SortedLines l) {i : Nat} (hi : i < l.length)
    (hline : l[i].lineNumber = n) :
    ∃ p, i ≤ p ∧ p < l.length ∧
      i + ((l.drop (i + 1)).takeWhile fun e => e.lineNumber = n).length = p ∧
      (∀ e ∈ l.take (p + 1), e.lineNumber ≤ n) ∧ ∀ e ∈ l.drop (p + 1), n < e.lineNumber := by
  have hge : ∀ e ∈ l.drop (i + 1), n ≤ e.lineNumber := by
    intro e he
    obtain ⟨j, hj, rfl⟩ := mem_drop_iff_getElem.mp he
    rw [← hline]
    exact h.lineNumber_le (by omega) (by omega)
  have hrun := takeWhile_append_dropWhile (p := fun e => decide (e.lineNumber = n)) (l := l.drop (i + 1))
  have hback := lt_of_mem_dropWhile (h.sublist (drop_sublist (i + 1) l)) hge
  have honLine : ∀ e ∈ ((l.drop (i + 1)).takeWhile fun e => e.lineNumber = n),
      e.lineNumber = n := fun e he => by simpa using mem_takeWhile_imp he
  generalize (l.drop (i + 1)).takeWhile (fun e => e.lineNumber = n) = run at hrun honLine ⊢
  generalize (l.drop (i + 1)).dropWhile (fun e => e.lineNumber = n) = back at hrun hback
  have hlen := congrArg List.length hrun
  rw [length_append, length_drop] at hlen
  have hl : l = (l.take (i + 1) ++ run) ++ back := by
    rw [append_assoc, hrun, take_append_drop]
  have hp : (l.take (i + 1) ++ run).length = i + run.length + 1 := by
    rw [length_append, length_take]
    omega
  refine ⟨i + run.length, Nat.le_add_right _ _, by omega, rfl, fun e he => ?_, fun e he => ?_⟩
  · rw [hl, take_left' hp] at he
    rcases mem_append.mp he with he | he
    · obtain ⟨j, hj, rfl⟩ := mem_take_iff_getElem.mp he
      rw [← hline]
      exact h.lineNumber_le (by omega) hi
    · exact (honLine e he).le
  · rw [hl, drop_left' hp] at he
    exact hback e he

theorem startIndexOfDeletion_spec (h : SortedLines l) (n : Int) :
    (∀ e ∈ l.take (startIndexOfDeletion l n), e.lineNumber < n) ∧
        (∀ e ∈ l.drop (startIndexOfDeletion l n), n ≤ e.lineNumber) ∨
      startIndexOfDeletion l n + 1 = l.length ∧ ∀ e ∈ l, e.lineNumber < n := by
  unfold startIndexOfDeletion
  have hfound := binarySearch_found h n
  generalize binarySearchOverOrderedCustomLinesArray l n = r at hfound
  cases hfound with
  | here i hi hline =>
    obtain ⟨p, -, hp, hlow, hhigh⟩ := firstOnLine_spec h hi hline
    simp only [Int.natCast_nonneg, if_true, Int.toNat_natCast, hp]
    exact Or.inl ⟨hlow, hhigh⟩
  | before p hp hlow hhigh =>
    simp only [show ¬ (0 : Int) ≤ -(p + 1) by omega, if_false]
    by_cases hall : (-((p : Int) + 1) = -((l.length : Int) + 1) ∧ -((p : Int) + 1) ≠ -1)
    · rw [if_pos hall]
      obtain rfl : p = l.length := by omega
      rw [take_length] at hlow
      exact Or.inr ⟨by omega, hlow⟩
    · rw [if_neg hall, show (-(-((p : Int) + 1) + 1)).toNat = p by omega]
      exact Or.inl ⟨hlow, fun e he => (hhigh e he).le⟩

theorem endIndexOfDeletion_spec (h : SortedLines l) (n : Int) :
    l = [] ∧ endIndexOfDeletion l n = 0 ∨ endIndexOfDeletion l n < l.length ∧
      ((∀ e ∈ l.take (endIndexOfDeletion l n + 1), e.lineNumber ≤ n) ∧
          (∀ e ∈ l.drop (endIndexOfDeletion l n + 1), n < e.lineNumber) ∨
        (∀ e ∈ l.take (endIndexOfDeletion l n), e.lineNumber < n) ∧
          ∀ e ∈ l.drop (endIndexOfDeletion l n), n < e.lineNumber) := by
  unfold endIndexOfDeletion
  have hfound := binarySearch_found h n
  generalize binarySearchOverOrderedCustomLinesArray l n = r at hfound
  cases hfound with
  | here i hi hline =>
    obtain ⟨p, -, hlt, hp, hlow, hhigh⟩ := lastOnLine_spec h hi hline
    simp only [Int.natCast_nonneg, if_true, Int.toNat_natCast, hp]
    exact Or.inr ⟨hlt, Or.inl ⟨hlow, hhigh⟩⟩
  | before p hp hlow hhigh =>
    simp only [show ¬ (0 : Int) ≤ -(p + 1) by omega, if_false]
    by_cases hall : (-((p : Int) + 1) = -((l.length : Int) + 1) ∧ -((p : Int) + 1) ≠ -1)
    · rw [if_pos hall]
      obtain rfl : p = l.length := by omega
      rw [take_length] at hlow
      refine Or.inr ⟨by omega, Or.inl ⟨fun e he => (hlow e (mem_of_mem_take he)).le, ?_⟩⟩
      intro e he
      rw [show l.length - 1 + 1 = l.length by omega, drop_length] at he
      cases he
    · rw [if_neg hall, show (-(-((p : Int) + 1) + 1)).toNat = p by omega]
      rcases eq_or_lt_of_le hp with rfl | hlt
      · refine Or.inl ⟨length_eq_zero_iff.mp (by omega), by omega⟩
      · exact Or.inr ⟨hlt, Or.inr ⟨hlow, hhigh⟩⟩

end Indices

end Gavea.ViewLayout
