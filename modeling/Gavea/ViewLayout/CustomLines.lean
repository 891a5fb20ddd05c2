import Gavea.ViewLayout.LineHeights

namespace Gavea.ViewLayout

open List

theorem LineHeightsManager.mem_lineRange {a b n : Int} : n ∈ lineRange a b ↔ a ≤ n ∧ n ≤ b := by
  rw [lineRange, mem_map]
  constructor
  · rintro ⟨i, hi, rfl⟩
    have := mem_range.mp hi
    omega
  · rintro ⟨ha, hb⟩
    exact ⟨(n - a).toNat, mem_range.mpr (by omega), by omega⟩

open LineHeightsManager

/-- A line array: the decorations that cover a line, with their heights. -/
abbrev NaiveLines := Int → Finset (String × ℚ)

namespace NaiveLines

def empty : NaiveLines := fun _ => ∅

def remove (lines : NaiveLines) (decorationId : String) : NaiveLines := fun n =>
  (lines n).filter fun d => d.1 ≠ decorationId

def insertOrChange (lines : NaiveLines) (data : CustomLineHeightData) : NaiveLines := fun n =>
  lines.remove data.decorationId n ∪
    if data.startLineNumber ≤ n ∧ n ≤ data.endLineNumber then {(data.decorationId, data.lineHeight)}
    else ∅

def linesDeleted (lines : NaiveLines) (fromLineNumber toLineNumber : Int) : NaiveLines := fun n =>
  if n < fromLineNumber then lines n
  else if n = fromLineNumber then (lineRange fromLineNumber (toLineNumber + 1)).toFinset.biUnion lines
  else lines (n + (toLineNumber - fromLineNumber + 1))

/-- Lines behind move down, and what covers both neighbours covers the new lines. -/
def linesInserted (lines : NaiveLines) (fromLineNumber toLineNumber : Int) : NaiveLines := fun n =>
  if n < fromLineNumber then lines n
  else if n ≤ toLineNumber then lines (fromLineNumber - 1) ∩ lines fromLineNumber
  else lines (n - (toLineNumber - fromLineNumber + 1))

def change (lines : NaiveLines) : PendingChange → NaiveLines
  | .insertOrChange decorationId startLineNumber endLineNumber lineHeight =>
    lines.insertOrChange ⟨decorationId, startLineNumber, endLineNumber, lineHeight⟩
  | .remove decorationId => lines.remove decorationId
  | .linesDeleted fromLineNumber toLineNumber => lines.linesDeleted fromLineNumber toLineNumber
  | .linesInserted fromLineNumber toLineNumber => lines.linesInserted fromLineNumber toLineNumber

def height (defaultLineHeight : ℚ) (lines : NaiveLines) (n : Int) : ℚ :=
  ((lines n).image Prod.snd).max.unbotD defaultLineHeight

def accumulated (defaultLineHeight : ℚ) (lines : NaiveLines) (n : Int) : ℚ :=
  ∑ i ∈ Finset.range n.toNat, height defaultLineHeight lines (i + 1)

section Heights

variable {defaultLineHeight : ℚ} {lines lines' : NaiveLines} {n : Int}

theorem height_of_eq_empty (h : lines n = ∅) :
    height defaultLineHeight lines n = defaultLineHeight := by
  rw [height, h]
  rfl

theorem height_congr {k : Int} (h : lines' k = lines n) :
    height defaultLineHeight lines' k = height defaultLineHeight lines n := by
  rw [height, height, h]

theorem height_eq {d : String × ℚ} (hd : d ∈ lines n) (hmax : ∀ d' ∈ lines n, d'.2 ≤ d.2) :
    height defaultLineHeight lines n = d.2 := by
  have hmem : d.2 ∈ (lines n).image Prod.snd := Finset.mem_image_of_mem Prod.snd hd
  obtain ⟨m, hm⟩ := Finset.max_of_mem hmem
  have hle : m ≤ d.2 := by
    obtain ⟨d', hd', rfl⟩ := Finset.mem_image.mp (Finset.mem_of_max hm)
    exact hmax d' hd'
  rw [height, hm]
  exact le_antisymm hle (Finset.le_max_of_eq hmem hm)

variable (defaultLineHeight) in
theorem le_height {d : String × ℚ} (hd : d ∈ lines n) : d.2 ≤ height defaultLineHeight lines n := by
  have hmem : d.2 ∈ (lines n).image Prod.snd := Finset.mem_image_of_mem Prod.snd hd
  obtain ⟨m, hm⟩ := Finset.max_of_mem hmem
  rw [height, hm]
  exact Finset.le_max_of_eq hmem hm

variable (defaultLineHeight) in
theorem exists_height {d : String × ℚ} (hd : d ∈ lines n) :
    ∃ d' ∈ lines n, height defaultLineHeight lines n = d'.2 := by
  obtain ⟨m, hm⟩ := Finset.max_of_mem (Finset.mem_image_of_mem Prod.snd hd)
  obtain ⟨d', hd', hm'⟩ := Finset.mem_image.mp (Finset.mem_of_max hm)
  refine ⟨d', hd', ?_⟩
  rw [height, hm, hm']
  rfl

@[simp] theorem accumulated_zero : accumulated defaultLineHeight lines 0 = 0 := rfl

theorem accumulated_succ (h : 0 ≤ n) :
    accumulated defaultLineHeight lines (n + 1) =
      accumulated defaultLineHeight lines n + height defaultLineHeight lines (n + 1) := by
  rw [accumulated, accumulated, Int.toNat_add h (by omega), show (1 : Int).toNat = 1 by rfl,
    Finset.sum_range_succ, Int.toNat_of_nonneg h]

theorem accumulated_congr
    (h : ∀ k, 1 ≤ k → k ≤ n → height defaultLineHeight lines' k = height defaultLineHeight lines k) :
    accumulated defaultLineHeight lines' n = accumulated defaultLineHeight lines n := by
  refine Finset.sum_congr rfl fun i hi => h _ (by omega) ?_
  have := Finset.mem_range.mp hi
  omega

theorem accumulated_shift {a b : Int} (ha : 0 ≤ a) (hb : 0 ≤ b) (k : Nat)
    (h : ∀ j : Nat, j < k → height defaultLineHeight lines' (a + j + 1) = height defaultLineHeight lines (b + j + 1)) :
    accumulated defaultLineHeight lines' (a + k) - accumulated defaultLineHeight lines' a =
      accumulated defaultLineHeight lines (b + k) - accumulated defaultLineHeight lines b := by
  induction k with
  | zero => simp
  | succ k ih =>
    have hk := ih fun j hj => h j (by omega)
    have ha' := @accumulated_succ defaultLineHeight lines' (a + k) (by omega)
    have hb' := @accumulated_succ defaultLineHeight lines (b + k) (by omega)
    have hlast := h k (by omega)
    push_cast
    rw [← add_assoc, ← add_assoc, ha', hb', hlast]
    linarith

theorem accumulated_of_eq_empty {a : Int} (ha : 0 ≤ a) (k : Nat)
    (h : ∀ j : Nat, j < k → lines (a + j + 1) = ∅) :
    accumulated defaultLineHeight lines (a + k) =
      accumulated defaultLineHeight lines a + defaultLineHeight * k := by
  induction k with
  | zero => simp
  | succ k ih =>
    have hk := ih fun j hj => h j (by omega)
    have ha' := @accumulated_succ defaultLineHeight lines (a + k) (by omega)
    have hlast := @height_of_eq_empty defaultLineHeight lines _ (h k (by omega))
    push_cast
    rw [← add_assoc, ha', hlast, hk]
    ring

theorem cast_toNat {n : Int} (h : 0 ≤ n) : (n.toNat : ℚ) = n := by
  rw [← Int.cast_natCast, Int.toNat_of_nonneg h]

theorem accumulated_after {line : Int} {sum maximum : ℚ} (hpos : 1 ≤ line)
    (hsum : sum = accumulated defaultLineHeight lines (line - 1))
    (hmax : maximum = height defaultLineHeight lines line) (hn : line ≤ n)
    (hempty : ∀ k, line < k → k ≤ n → lines k = ∅) :
    accumulated defaultLineHeight lines n =
      sum + maximum + defaultLineHeight * (n - line) := by
  have hline := @accumulated_succ defaultLineHeight lines (line - 1) (by omega)
  rw [Int.sub_add_cancel, ← hsum, ← hmax] at hline
  have hrest := @accumulated_of_eq_empty defaultLineHeight lines line (by omega) (n - line).toNat
    fun j hj => hempty _ (by omega) (by omega)
  rw [Int.toNat_of_nonneg (by omega), cast_toNat (by omega), hline, add_sub_cancel] at hrest
  rw [hrest, Int.cast_sub]

theorem accumulated_front (hn : 0 ≤ n) (hempty : ∀ k, 1 ≤ k → k ≤ n → lines k = ∅) :
    accumulated defaultLineHeight lines n = defaultLineHeight * n := by
  have hrest := @accumulated_of_eq_empty defaultLineHeight lines 0 le_rfl n.toNat fun j hj => hempty _ (by omega) (by omega)
  rwa [zero_add, Int.toNat_of_nonneg hn, accumulated_zero, zero_add, cast_toNat hn] at hrest

end Heights

/-- What holds of the line array of decorations that each cover lines in a row. -/
structure Spread (lines : NaiveLines) : Prop where
  positive : ∀ n, ∀ d ∈ lines n, 1 ≤ n ∧ 0 ≤ d.2
  single : ∀ a b id h h', (id, h) ∈ lines a → (id, h') ∈ lines b → h = h'
  convex : ∀ a b c d, a ≤ b → b ≤ c → d ∈ lines a → d ∈ lines c → d ∈ lines b

theorem Spread.empty : Spread empty := by
  refine ⟨fun n d hd => ?_, fun a b id h h' hd => ?_, fun a b c d _ _ hd => ?_⟩ <;> cases hd

theorem mem_remove {lines : NaiveLines} {decorationId : String} {n : Int} {d : String × ℚ} :
    d ∈ lines.remove decorationId n ↔ d ∈ lines n ∧ d.1 ≠ decorationId := Finset.mem_filter

theorem mem_insertOrChange {lines : NaiveLines} {data : CustomLineHeightData} {n : Int}
    {d : String × ℚ} :
    d ∈ lines.insertOrChange data n ↔ (d ∈ lines n ∧ d.1 ≠ data.decorationId) ∨
      (data.startLineNumber ≤ n ∧ n ≤ data.endLineNumber) ∧
        d = (data.decorationId, data.lineHeight) := by
  rw [insertOrChange, Finset.mem_union, mem_remove]
  refine or_congr_right ?_
  split
  · next h => simp [h]
  · next h => simp [h]

def moved (fromLineNumber toLineNumber n : Int) : Int :=
  if n < fromLineNumber then n
  else if n ≤ toLineNumber then fromLineNumber
  else n - (toLineNumber - fromLineNumber + 1)

theorem mem_linesDeleted {lines : NaiveLines} {fromLineNumber toLineNumber n : Int}
    {d : String × ℚ} (hle : fromLineNumber ≤ toLineNumber) :
    d ∈ lines.linesDeleted fromLineNumber toLineNumber n ↔
      ∃ k, moved fromLineNumber toLineNumber k = n ∧ d ∈ lines k := by
  have hmoved : ∀ k, moved fromLineNumber toLineNumber k = n ↔
      n < fromLineNumber ∧ k = n ∨
      n = fromLineNumber ∧ fromLineNumber ≤ k ∧ k ≤ toLineNumber + 1 ∨
      fromLineNumber < n ∧ k = n + (toLineNumber - fromLineNumber + 1) := by
    intro k
    unfold moved
    split_ifs <;> omega
  simp only [hmoved, linesDeleted]
  rcases lt_trichotomy n fromLineNumber with h | h | h
  · have h' : ¬ n = fromLineNumber ∧ ¬ fromLineNumber < n := by omega
    simp [h, h'.1, h'.2]
  · have h' : ¬ n < fromLineNumber ∧ ¬ fromLineNumber < n := by omega
    simp [h, and_assoc, mem_lineRange]
  · have h' : ¬ n < fromLineNumber ∧ ¬ n = fromLineNumber := by omega
    simp [h, h'.1, h'.2]

theorem mem_linesInserted {lines : NaiveLines} {fromLineNumber toLineNumber n : Int}
    {d : String × ℚ} (hle : fromLineNumber ≤ toLineNumber) :
    d ∈ lines.linesInserted fromLineNumber toLineNumber n ↔
      n < fromLineNumber ∧ d ∈ lines n ∨
      (fromLineNumber ≤ n ∧ n ≤ toLineNumber) ∧ d ∈ lines (fromLineNumber - 1) ∧ d ∈ lines fromLineNumber ∨
      toLineNumber < n ∧ d ∈ lines (n - (toLineNumber - fromLineNumber + 1)) := by
  rw [linesInserted]
  by_cases h : n < fromLineNumber
  · rw [if_pos h]
    have h' : ¬ fromLineNumber ≤ n ∧ ¬ toLineNumber < n := by omega
    simp [h, h'.1, h'.2]
  · rw [if_neg h]
    by_cases h' : n ≤ toLineNumber
    · rw [if_pos h', Finset.mem_inter]
      have h'' : ¬ toLineNumber < n ∧ fromLineNumber ≤ n := by omega
      simp [h, h', h''.1, h''.2]
    · rw [if_neg h']
      simp [h, h', not_le.mp h']

end NaiveLines

def PendingChange.WellFormed : PendingChange → Prop
  | .insertOrChange _ startLineNumber _ lineHeight => 1 ≤ startLineNumber ∧ 0 ≤ lineHeight
  | .remove _ => True
  | .linesDeleted fromLineNumber toLineNumber | .linesInserted fromLineNumber toLineNumber =>
    1 ≤ fromLineNumber ∧ fromLineNumber ≤ toLineNumber

namespace NaiveLines

variable {lines : NaiveLines}

theorem Spread.remove (h : Spread lines) (decorationId : String) :
    Spread (lines.remove decorationId) where
  positive n d hd := h.positive n d (mem_remove.mp hd).1
  single a b id x y hx hy := h.single a b id x y (mem_remove.mp hx).1 (mem_remove.mp hy).1
  convex a b c d hab hbc ha hc := by
    obtain ⟨ha, hne⟩ := mem_remove.mp ha
    exact mem_remove.mpr ⟨h.convex a b c d hab hbc ha (mem_remove.mp hc).1, hne⟩

theorem Spread.insertOrChange (h : Spread lines) {data : CustomLineHeightData}
    (hstart : 1 ≤ data.startLineNumber) (hheight : 0 ≤ data.lineHeight) :
    Spread (lines.insertOrChange data) where
  positive n d hd := by
    rcases mem_insertOrChange.mp hd with ⟨hd, -⟩ | ⟨hn, rfl⟩
    · exact h.positive n d hd
    · exact ⟨by omega, hheight⟩
  single a b id x y hx hy := by
    rcases mem_insertOrChange.mp hx with ⟨hx, hne⟩ | ⟨-, hx⟩ <;>
      rcases mem_insertOrChange.mp hy with ⟨hy, hne'⟩ | ⟨-, hy⟩
    · exact h.single a b id x y hx hy
    · exact absurd (congrArg Prod.fst hy) hne
    · exact absurd (congrArg Prod.fst hx) hne'
    · exact (congrArg Prod.snd hx).trans (congrArg Prod.snd hy).symm
  convex a b c d hab hbc ha hc := by
    rcases mem_insertOrChange.mp ha with ⟨ha, hne⟩ | ⟨ha, rfl⟩ <;>
      rcases mem_insertOrChange.mp hc with ⟨hc, hne'⟩ | ⟨hc, hd⟩
    · exact mem_insertOrChange.mpr (Or.inl ⟨h.convex a b c d hab hbc ha hc, hne⟩)
    · exact absurd (congrArg Prod.fst hd) hne
    · exact absurd rfl hne'
    · exact mem_insertOrChange.mpr (Or.inr ⟨by omega, rfl⟩)

theorem Spread.linesDeleted (h : Spread lines) {fromLineNumber toLineNumber : Int}
    (hfrom : 1 ≤ fromLineNumber) (hle : fromLineNumber ≤ toLineNumber) :
    Spread (lines.linesDeleted fromLineNumber toLineNumber) where
  positive n d hd := by
    obtain ⟨k, hk, hd⟩ := (mem_linesDeleted hle).mp hd
    obtain ⟨hpos, hheight⟩ := h.positive k d hd
    refine ⟨?_, hheight⟩
    unfold moved at hk
    split_ifs at hk <;> omega
  single a b id x y hx hy := by
    obtain ⟨k, -, hx⟩ := (mem_linesDeleted hle).mp hx
    obtain ⟨l, -, hy⟩ := (mem_linesDeleted hle).mp hy
    exact h.single k l id x y hx hy
  convex a b c d hab hbc ha hc := by
    obtain ⟨k, hk, hdk⟩ := (mem_linesDeleted hle).mp ha
    obtain ⟨l, hl, hdl⟩ := (mem_linesDeleted hle).mp hc
    refine (mem_linesDeleted hle).mpr ?_
    rcases eq_or_lt_of_le hab with rfl | hab
    · exact ⟨k, hk, hdk⟩
    rcases eq_or_lt_of_le hbc with rfl | hbc
    · exact ⟨l, hl, hdl⟩
    refine ⟨if b < fromLineNumber then b else b + (toLineNumber - fromLineNumber + 1), ?_,
      h.convex k _ l d ?_ ?_ hdk hdl⟩ <;> unfold moved at * <;> split_ifs at * <;> omega

theorem Spread.linesInserted (h : Spread lines) {fromLineNumber toLineNumber : Int}
    (hfrom : 1 ≤ fromLineNumber) (hle : fromLineNumber ≤ toLineNumber) :
    Spread (lines.linesInserted fromLineNumber toLineNumber) where
  positive n d hd := by
    rcases (mem_linesInserted hle).mp hd with ⟨-, hd⟩ | ⟨hn, hd, -⟩ | ⟨hn, hd⟩
    · exact h.positive n d hd
    · exact ⟨by omega, (h.positive _ d hd).2⟩
    · exact ⟨by omega, (h.positive _ d hd).2⟩
  single a b id x y hx hy := by
    have hsource : ∀ {n : Int} {d : String × ℚ},
        d ∈ lines.linesInserted fromLineNumber toLineNumber n → ∃ k, d ∈ lines k := by
      intro n d hd
      rcases (mem_linesInserted hle).mp hd with ⟨-, hd⟩ | ⟨-, hd, -⟩ | ⟨-, hd⟩ <;> exact ⟨_, hd⟩
    obtain ⟨k, hx⟩ := hsource hx
    obtain ⟨l, hy⟩ := hsource hy
    exact h.single k l id x y hx hy
  convex a b c d hab hbc ha hc := by
    have hbetween : ∀ k, (∃ i, i ≤ k ∧ d ∈ lines i) → (∃ j, k ≤ j ∧ d ∈ lines j) → d ∈ lines k := by
      rintro k ⟨i, hi, hdi⟩ ⟨j, hj, hdj⟩
      exact h.convex i k j d hi hj hdi hdj
    have hlow : ∀ k, (b < fromLineNumber → b ≤ k) → (fromLineNumber ≤ b → fromLineNumber - 1 ≤ k) →
        (toLineNumber < b → b - (toLineNumber - fromLineNumber + 1) ≤ k) →
        ∃ i, i ≤ k ∧ d ∈ lines i := by
      intro k h1 h2 h3
      rcases (mem_linesInserted hle).mp ha with ⟨hn, hd⟩ | ⟨hn, hd, -⟩ | ⟨hn, hd⟩
      · exact ⟨_, by omega, hd⟩
      · exact ⟨_, by omega, hd⟩
      · exact ⟨_, by omega, hd⟩
    have hhigh : ∀ k, (b < fromLineNumber → k ≤ b) → (b ≤ toLineNumber → k ≤ fromLineNumber) →
        (toLineNumber < b → k ≤ b - (toLineNumber - fromLineNumber + 1)) →
        ∃ j, k ≤ j ∧ d ∈ lines j := by
      intro k h1 h2 h3
      rcases (mem_linesInserted hle).mp hc with ⟨hn, hd⟩ | ⟨hn, -, hd⟩ | ⟨hn, hd⟩
      · exact ⟨_, by omega, hd⟩
      · exact ⟨_, by omega, hd⟩
      · exact ⟨_, by omega, hd⟩
    rw [mem_linesInserted hle]
    rcases lt_or_ge b fromLineNumber with hb | hb
    · exact Or.inl ⟨hb, hbetween b (hlow b (by omega) (by omega) (by omega)) (hhigh b (by omega) (by omega) (by omega))⟩
    rcases le_or_gt b toLineNumber with hb' | hb'
    · refine Or.inr (Or.inl ⟨⟨hb, hb'⟩, hbetween _ (hlow _ (by omega) (by omega) (by omega))
        (hhigh _ (by omega) (by omega) (by omega)), hbetween _ (hlow _ (by omega) (by omega)
          (by omega)) (hhigh _ (by omega) (by omega) (by omega))⟩)
    · exact Or.inr (Or.inr ⟨hb', hbetween _ (hlow _ (by omega) (by omega) (by omega))
        (hhigh _ (by omega) (by omega) (by omega))⟩)

theorem Spread.change (h : Spread lines) {c : PendingChange} (hc : c.WellFormed) :
    Spread (lines.change c) := by
  cases c with
  | insertOrChange decorationId startLineNumber endLineNumber lineHeight => exact h.insertOrChange hc.1 hc.2
  | remove decorationId => exact h.remove decorationId
  | linesDeleted fromLineNumber toLineNumber => exact h.linesDeleted hc.1 hc.2
  | linesInserted fromLineNumber toLineNumber => exact h.linesInserted hc.1 hc.2

end NaiveLines

open Gavea.Base LineHeightsManager

def CustomLine.decoration (e : CustomLine) : String × ℚ := (e.decorationId, e.specialHeight)

abbrev SortedLines (l : List CustomLine) : Prop := l.Pairwise fun e e' => e.lineNumber ≤ e'.lineNumber

structure Tracks (defaultLineHeight : ℚ) (lines : NaiveLines) (l : List CustomLine) : Prop where
  sorted : SortedLines l
  index : ∀ i (h : i < l.length), l[i].index = i
  live : ∀ e ∈ l, e.deleted = false
  covered : ∀ n d, d ∈ lines n ↔ ∃ e ∈ l, e.lineNumber = n ∧ e.decoration = d
  maximum : ∀ e ∈ l, e.maximumSpecialHeight = lines.height defaultLineHeight e.lineNumber
  sum : ∀ e ∈ l, e.prefixSum = lines.accumulated defaultLineHeight (e.lineNumber - 1)

theorem SortedLines.lineNumber_le {l : List CustomLine} (h : SortedLines l) {i j : Nat}
    (hij : i ≤ j) (hj : j < l.length) (hi : i < l.length := by omega) :
    l[i].lineNumber ≤ l[j].lineNumber := by
  rcases eq_or_lt_of_le hij with rfl | hlt
  · exact le_rfl
  · exact pairwise_iff_getElem.mp h i j (by omega) hj hlt

inductive FoundLine (l : List CustomLine) (n : Int) : Int → Prop
  | here (i : Nat) (hi : i < l.length) (h : l[i].lineNumber = n) : FoundLine l n i
  | before (p : Nat) (hp : p ≤ l.length) (hlt : ∀ e ∈ l.take p, e.lineNumber < n)
      (hgt : ∀ e ∈ l.drop p, n < e.lineNumber) : FoundLine l n (-(p + 1))

theorem binarySearch_found {l : List CustomLine} (h : SortedLines l) (n : Int) :
    FoundLine l n (binarySearchOverOrderedCustomLinesArray l n) := by
  obtain ⟨compareToKey, heq, hcompare⟩ : ∃ compareToKey : Nat → Ordering,
      binarySearchOverOrderedCustomLinesArray l n = binarySearch2 l.length compareToKey ∧
        ∀ i (hi : i < l.length), compareToKey i = compare l[i].lineNumber n :=
    ⟨_, rfl, fun i hi => by rw [getElem?_eq_getElem hi]⟩
  have hfound := @binarySearch2_found l.length compareToKey ?_ ?_
  · rw [heq]
    generalize binarySearch2 l.length _ = r at hfound
    cases hfound with
    | here i hi heq =>
      refine FoundLine.here i hi ?_
      simp only [hcompare i hi] at heq
      exact compare_eq_iff_eq.mp heq
    | before p hp hlt hgt =>
      refine FoundLine.before p hp (fun e he => ?_) fun e he => ?_
      · obtain ⟨i, hi, rfl⟩ := mem_iff_getElem.mp he
        rw [length_take] at hi
        have hi' := hlt i (by omega)
        simp only [hcompare i (by omega)] at hi'
        rw [getElem_take]
        exact compare_lt_iff_lt.mp hi'
      · obtain ⟨i, hi, rfl⟩ := mem_iff_getElem.mp he
        rw [length_drop] at hi
        have hi' := hgt (p + i) (by omega) (by omega)
        simp only [hcompare (p + i) (by omega)] at hi'
        rw [getElem_drop]
        exact compare_gt_iff_gt.mp hi'
  · intro i j hij hj hlt
    simp only [hcompare i (by omega), hcompare j hj] at hlt ⊢
    exact compare_lt_iff_lt.mpr (lt_of_le_of_lt (h.lineNumber_le hij hj) (compare_lt_iff_lt.mp hlt))
  · intro i j hij hj hgt
    simp only [hcompare i (by omega), hcompare j hj] at hgt ⊢
    exact compare_gt_iff_gt.mpr (lt_of_lt_of_le (compare_gt_iff_gt.mp hgt) (h.lineNumber_le hij hj))

namespace Tracks

variable {defaultLineHeight : ℚ} {lines : NaiveLines} {l : List CustomLine}

theorem mem (h : Tracks defaultLineHeight lines l) {e : CustomLine} (he : e ∈ l) :
    e.decoration ∈ lines e.lineNumber := (h.covered _ _).mpr ⟨e, he, rfl, rfl⟩

theorem eq_empty (h : Tracks defaultLineHeight lines l) {n : Int} (hn : ∀ e ∈ l, e.lineNumber ≠ n) :
    lines n = ∅ := by
  refine Finset.eq_empty_of_forall_notMem fun d hd => ?_
  obtain ⟨e, he, heq, -⟩ := (h.covered n d).mp hd
  exact hn e he heq

theorem positive (h : Tracks defaultLineHeight lines l) (hs : lines.Spread) {e : CustomLine}
    (he : e ∈ l) : 1 ≤ e.lineNumber := (hs.positive _ _ (h.mem he)).1

end Tracks

namespace LineHeightsManager

variable {lines : NaiveLines} {m : LineHeightsManager}

theorem heightAt_eq (h : Tracks m.defaultLineHeight lines m.orderedCustomLines) (n : Int) :
    m.heightAt n = lines.height m.defaultLineHeight n := by
  unfold heightAt
  have hfound := binarySearch_found h.sorted n
  generalize binarySearchOverOrderedCustomLinesArray m.orderedCustomLines n = r at hfound
  cases hfound with
  | here i hi heq =>
    simp only [Int.natCast_nonneg, if_true, Int.toNat_natCast, getElem?_eq_getElem hi,
      Option.map_some, Option.getD_some]
    rw [h.maximum _ (getElem_mem hi), heq]
  | before p hp hlt hgt =>
    rw [if_neg (by omega), NaiveLines.height_of_eq_empty]
    refine h.eq_empty fun e he => ?_
    rw [← take_append_drop p m.orderedCustomLines] at he
    rcases mem_append.mp he with he | he
    · exact (hlt e he).ne
    · exact (hgt e he).ne'

theorem accumulatedAt_eq (h : Tracks m.defaultLineHeight lines m.orderedCustomLines)
    (hs : lines.Spread) {n : Int} (hn : 0 ≤ n) :
    m.accumulatedAt n = lines.accumulated m.defaultLineHeight n := by
  unfold accumulatedAt
  have hfound := binarySearch_found h.sorted n
  generalize binarySearchOverOrderedCustomLinesArray m.orderedCustomLines n = r at hfound
  cases hfound with
  | here i hi heq =>
    simp only [Int.natCast_nonneg, if_true, Int.toNat_natCast, getElem?_eq_getElem hi,
      Option.map_some, Option.getD_some]
    have hmem := getElem_mem hi
    have hsum := NaiveLines.accumulated_after (h.positive hs hmem) (h.sum _ hmem)
      (h.maximum _ hmem) heq.le fun k hk hk' => by omega
    rw [hsum, heq, sub_self, mul_zero, add_zero]
  | before p hp hlt hgt =>
    have hempty : ∀ k, k ≤ n → (∀ e ∈ m.orderedCustomLines.take p, e.lineNumber ≠ k) →
        lines k = ∅ := by
      intro k hk hne
      refine h.eq_empty fun e he => ?_
      rw [← take_append_drop p m.orderedCustomLines] at he
      rcases mem_append.mp he with he | he
      · exact hne e he
      · exact (lt_of_le_of_lt hk (hgt e he)).ne'
    rw [if_neg (by omega)]
    cases p with
    | zero =>
      rw [if_pos (by simp), NaiveLines.accumulated_front hn fun k _ hk' => hempty k hk' ?_]
      intro e he
      rw [take_zero] at he
      cases he
    | succ p =>
      rw [if_neg (by omega), show (-(-(((p + 1 : Nat) : Int) + 1) + 1) - 1).toNat = p by omega]
      have hp' : p < m.orderedCustomLines.length := by omega
      simp only [getElem?_eq_getElem hp', Option.map_some, Option.getD_some]
      have hmem : m.orderedCustomLines[p] ∈ m.orderedCustomLines.take (p + 1) := by
        rw [mem_take_iff_getElem]
        exact ⟨p, by omega, rfl⟩
      have hmem' := getElem_mem hp'
      refine (NaiveLines.accumulated_after (h.positive hs hmem') (h.sum _ hmem')
        (h.maximum _ hmem') (hlt _ hmem).le fun k hk hk' => ?_).symm
      refine hempty k hk' fun e he heq => ?_
      obtain ⟨i, hi, rfl⟩ := mem_take_iff_getElem.mp he
      have hle := h.sorted.lineNumber_le (show i ≤ p by omega) hp'
      omega

end LineHeightsManager

end Gavea.ViewLayout
