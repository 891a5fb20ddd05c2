import Mathlib.Algebra.Order.Floor.Ring
import Mathlib.Data.Rat.Floor
import Gavea.Lib.Runs

namespace Gavea.ListView

open List

structure IRange where
  start : Int
  stop : Int

inductive RangeEnd
  | at (index : Int)
  | positiveInfinity

namespace RangeEnd

def reaches : RangeEnd → Int → Bool
  | .at stop, index => stop ≤ index
  | .positiveInfinity, _ => false

def isBefore : RangeEnd → Int → Bool
  | .at stop, index => stop < index
  | .positiveInfinity, _ => false

def minWith : RangeEnd → Int → Int
  | .at stop, index => min stop index
  | .positiveInfinity, index => index

end RangeEnd

namespace Range

def empty : IRange := ⟨0, 0⟩

def intersect (start : Int) (stop : RangeEnd) (other : IRange) : IRange :=
  if start ≥ other.stop ∨ stop.reaches other.start then empty
  else
    let first := max start other.start
    let last := stop.minWith other.stop
    if last - first ≤ 0 then empty else ⟨first, last⟩

def isEmpty (range : IRange) : Bool := range.stop - range.start ≤ 0

end Range

structure IItem where
  size : ℚ

structure IRangedGroup where
  range : IRange
  size : ℚ

def groupIntersect (start : Int) (stop : RangeEnd) : List IRangedGroup → List IRangedGroup
  | [] => []
  | r :: groups =>
    if start ≥ r.range.stop then groupIntersect start stop groups
    else if stop.isBefore r.range.start then []
    else
      let intersection := Range.intersect start stop r.range
      if Range.isEmpty intersection then groupIntersect start stop groups
      else ⟨intersection, r.size⟩ :: groupIntersect start stop groups

def shift (range : IRange) (much : Int) : IRange := ⟨range.start + much, range.stop + much⟩

def consolidateLoop (previousGroup : IRangedGroup) : List IRangedGroup → List IRangedGroup
  | [] => [previousGroup]
  | group :: groups =>
    if group.size = previousGroup.size then
      consolidateLoop ⟨⟨previousGroup.range.start, group.range.stop⟩, previousGroup.size⟩ groups
    else previousGroup :: consolidateLoop group groups

def consolidate : List IRangedGroup → List IRangedGroup
  | [] => []
  | group :: groups => consolidateLoop group groups

def concat (groups : List (List IRangedGroup)) : List IRangedGroup := consolidate (groups.foldl (· ++ ·) [])

def groupCount (group : IRangedGroup) : Int := group.range.stop - group.range.start

structure RangeMap where
  groups : List IRangedGroup
  size : ℚ
  paddingTop : ℚ

namespace RangeMap

def new (topPadding : ℚ) : RangeMap := ⟨[], topPadding, topPadding⟩

def setPaddingTop (m : RangeMap) (paddingTop : ℚ) : RangeMap :=
  { m with size := m.size + paddingTop - m.paddingTop, paddingTop := paddingTop }

def itemGroups (index : Int) : List IItem → List IRangedGroup
  | [] => []
  | item :: items => ⟨⟨index, index + 1⟩, item.size⟩ :: itemGroups (index + 1) items

def splice (m : RangeMap) (index deleteCount : Int) (items : List IItem) : RangeMap :=
  let diff := (items.length : Int) - deleteCount
  let before := groupIntersect 0 (.at index) m.groups
  let after := (groupIntersect (index + deleteCount) .positiveInfinity m.groups).map fun g =>
    ⟨shift g.range diff, g.size⟩
  let middle := itemGroups index items
  let groups := concat [before, middle, after]
  { m with
    groups := groups
    size := m.paddingTop + groups.foldl (fun t g => t + g.size * groupCount g) 0 }

def count (m : RangeMap) : Int :=
  match m.groups.getLast? with
  | none => 0
  | some group => group.range.stop

def indexAtLoop (position : ℚ) (index : Int) (size : ℚ) : List IRangedGroup → Int
  | [] => index
  | group :: groups =>
    let newSize := size + groupCount group * group.size
    if position < newSize then index + ⌊(position - size) / group.size⌋
    else indexAtLoop position (index + groupCount group) newSize groups

def indexAt (m : RangeMap) (position : ℚ) : Int :=
  if position < 0 then -1
  else if position < m.paddingTop then 0
  else indexAtLoop position 0 m.paddingTop m.groups

def positionAtLoop (paddingTop : ℚ) (index : Int) (position : ℚ) (count : Int) :
    List IRangedGroup → ℚ
  | [] => -1
  | group :: groups =>
    let newCount := count + groupCount group
    if index < newCount then paddingTop + position + (index - count : Int) * group.size
    else positionAtLoop paddingTop index (position + groupCount group * group.size) newCount groups

def positionAt (m : RangeMap) (index : Int) : ℚ :=
  if index < 0 then -1 else positionAtLoop m.paddingTop index 0 0 m.groups

end RangeMap

/-- The groups tile the indices from `first` until `last`, and none of them is empty. -/
def Tiles : Int → Int → List IRangedGroup → Prop
  | first, last, [] => first = last
  | first, last, g :: groups => g.range.start = first ∧ first < g.range.stop ∧ Tiles g.range.stop last groups

/-- The sizes of the items one by one. -/
def expand (groups : List IRangedGroup) : List ℚ := groups.flatMap fun g => List.replicate (groupCount g).toNat g.size

@[simp] theorem expand_nil : expand [] = [] := rfl

@[simp] theorem expand_cons (g : IRangedGroup) (groups : List IRangedGroup) :
    expand (g :: groups) = List.replicate (groupCount g).toNat g.size ++ expand groups :=
  flatMap_cons

@[simp] theorem expand_append (groups groups' : List IRangedGroup) :
    expand (groups ++ groups') = expand groups ++ expand groups' :=
  flatMap_append

theorem Tiles.le {first last : Int} {groups : List IRangedGroup} (h : Tiles first last groups) :
    first ≤ last := by
  induction groups generalizing first with
  | nil => exact le_of_eq h
  | cons g groups ih =>
    obtain ⟨-, hlt, hrest⟩ := h
    exact hlt.le.trans (ih hrest)

theorem Tiles.length {first last : Int} {groups : List IRangedGroup} (h : Tiles first last groups) :
    ((expand groups).length : Int) = last - first := by
  induction groups generalizing first with
  | nil =>
    obtain rfl : first = last := h
    simp
  | cons g groups ih =>
    obtain ⟨hstart, hlt, hrest⟩ := h
    have hlength := ih hrest
    rw [expand_cons, length_append, length_replicate, groupCount]
    omega

theorem Tiles.append {first mid last : Int} {groups groups' : List IRangedGroup}
    (h : Tiles first mid groups) (h' : Tiles mid last groups') :
    Tiles first last (groups ++ groups') := by
  induction groups generalizing first with
  | nil =>
    obtain rfl : first = mid := h
    exact h'
  | cons g groups ih => exact ⟨h.1, h.2.1, ih h.2.2⟩

theorem groupIntersect_of_le {index first last : Int} {groups : List IRangedGroup}
    (hpos : 0 ≤ first) (hle : index ≤ first) (h : Tiles first last groups) :
    groupIntersect 0 (.at index) groups = [] := by
  induction groups generalizing first with
  | nil => rfl
  | cons g groups ih =>
    obtain ⟨hstart, hlt, hrest⟩ := h
    have hempty : Range.intersect 0 (.at index) g.range = Range.empty := by
      rw [Range.intersect, if_pos (Or.inr ?_)]
      simp [RangeEnd.reaches, hstart, hle]
    rw [groupIntersect, if_neg (by omega), hempty]
    split
    · rfl
    · rw [ih (by omega) (by omega) hrest]
      rfl

theorem groupIntersect_before {index first last : Int} {groups : List IRangedGroup}
    (hpos : 0 ≤ first) (h : Tiles first last groups) :
    Tiles first (max first (min last index)) (groupIntersect 0 (.at index) groups) ∧
      expand (groupIntersect 0 (.at index) groups) =
        (expand groups).take (index - first).toNat := by
  induction groups generalizing first with
  | nil =>
    obtain rfl : first = last := h
    exact ⟨(max_eq_left (min_le_left first index)).symm, by simp [groupIntersect]⟩
  | cons g groups ih =>
    by_cases hle : index ≤ first
    · rw [groupIntersect_of_le hpos hle h, Int.toNat_of_nonpos (by omega)]
      exact ⟨(max_eq_left ((min_le_right last index).trans hle)).symm, rfl⟩
    · obtain ⟨hstart, hlt, hrest⟩ := h
      have hlast := hrest.le
      obtain ⟨htiles, hexpand⟩ := ih (by omega) hrest
      have hcut : Range.intersect 0 (.at index) g.range = ⟨first, min index g.range.stop⟩ := by
        rw [Range.intersect, if_neg (by simp [RangeEnd.reaches]; omega)]
        dsimp only [RangeEnd.minWith]
        rw [if_neg (by omega), hstart, max_eq_right hpos]
      rw [groupIntersect, if_neg (by omega), if_neg (by simp [RangeEnd.isBefore]; omega), hcut,
        if_neg (by simp [Range.isEmpty]; omega)]
      refine ⟨⟨rfl, ?_, ?_⟩, ?_⟩
      · dsimp only
        omega
      · dsimp only
        by_cases hstop : g.range.stop ≤ index
        · rw [min_eq_right hstop, show max first (min last index) = max g.range.stop (min last index) by omega]
          exact htiles
        · rw [groupIntersect_of_le (by omega) (by omega) hrest]
          show min index g.range.stop = max first (min last index)
          omega
      · rw [expand_cons, expand_cons, hexpand, take_append, length_replicate, take_replicate]
        dsimp only [groupCount]
        congr 2 <;> omega

theorem groupIntersect_after {start first last : Int} {groups : List IRangedGroup}
    (h : Tiles first last groups) :
    Tiles (max first start) (max last start)
        (groupIntersect start .positiveInfinity groups) ∧
      expand (groupIntersect start .positiveInfinity groups) =
        (expand groups).drop (start - first).toNat := by
  induction groups generalizing first with
  | nil =>
    obtain rfl : first = last := h
    exact ⟨rfl, by simp [groupIntersect]⟩
  | cons g groups ih =>
    obtain ⟨hstart, hlt, hrest⟩ := h
    obtain ⟨htiles, hexpand⟩ := ih hrest
    rw [groupIntersect]
    by_cases hstop : start ≥ g.range.stop
    · have hskip : (List.replicate (groupCount g).toNat g.size).drop (start - first).toNat = [] :=
        drop_eq_nil_of_le (by rw [length_replicate, groupCount]; omega)
      rw [if_pos hstop, hexpand, expand_cons, drop_append, length_replicate, hskip, nil_append]
      refine ⟨?_, ?_⟩
      · rw [show max first start = max g.range.stop start by omega]
        exact htiles
      · congr 1
        simp only [groupCount]
        omega
    · have hcut : Range.intersect start .positiveInfinity g.range =
          ⟨max start first, g.range.stop⟩ := by
        rw [Range.intersect, if_neg (by simp [RangeEnd.reaches]; omega)]
        dsimp only [RangeEnd.minWith]
        rw [if_neg (by omega), hstart]
      rw [if_neg hstop, if_neg (by simp [RangeEnd.isBefore]), hcut, if_neg (by simp [Range.isEmpty]; omega)]
      refine ⟨⟨max_comm _ _, ?_, ?_⟩, ?_⟩
      · dsimp only
        omega
      · dsimp only
        rw [max_eq_left (by omega)] at htiles
        exact htiles
      · rw [expand_cons, expand_cons, hexpand, drop_append, length_replicate, drop_replicate]
        dsimp only [groupCount]
        congr 2 <;> omega

theorem tiles_shift {first last much : Int} {groups : List IRangedGroup}
    (h : Tiles first last groups) :
    Tiles (first + much) (last + much) (groups.map fun g => ⟨shift g.range much, g.size⟩) ∧
      expand (groups.map fun g => ⟨shift g.range much, g.size⟩) = expand groups := by
  induction groups generalizing first with
  | nil => exact ⟨congrArg (· + much) h, rfl⟩
  | cons g groups ih =>
    obtain ⟨hstart, hlt, hrest⟩ := h
    obtain ⟨htiles, hexpand⟩ := ih hrest
    refine ⟨⟨congrArg (· + much) hstart, ?_, htiles⟩, ?_⟩
    · dsimp only [shift]
      omega
    · rw [map_cons, expand_cons, expand_cons, hexpand]
      dsimp only [groupCount, shift]
      congr 2
      omega

theorem tiles_itemGroups (index : Int) (items : List IItem) :
    Tiles index (index + items.length) (RangeMap.itemGroups index items) ∧
      expand (RangeMap.itemGroups index items) = items.map IItem.size := by
  induction items generalizing index with
  | nil => exact ⟨(Int.add_zero index).symm, rfl⟩
  | cons item items ih =>
    obtain ⟨htiles, hexpand⟩ := ih (index + 1)
    refine ⟨⟨rfl, ?_, ?_⟩, ?_⟩
    · dsimp only
      omega
    · rw [length_cons, Nat.cast_succ, Int.add_comm (items.length : Int), ← Int.add_assoc]
      exact htiles
    · rw [RangeMap.itemGroups, expand_cons, hexpand, groupCount]
      simp

def Alternating (groups : List IRangedGroup) : Prop := groups.IsChain fun g g' => g.size ≠ g'.size

theorem consolidateLoop_spec {first last : Int} (groups : List IRangedGroup) :
    ∀ previous : IRangedGroup, Tiles first last (previous :: groups) →
      Tiles first last (consolidateLoop previous groups) ∧
        expand (consolidateLoop previous groups) = expand (previous :: groups) ∧
        Alternating (consolidateLoop previous groups) ∧
        ∀ g ∈ (consolidateLoop previous groups).head?, g.size = previous.size := by
  induction groups generalizing first with
  | nil =>
    intro previous h
    exact ⟨h, rfl, isChain_singleton previous, fun g hg => by
      obtain rfl := Option.some.inj hg
      rfl⟩
  | cons g groups ih =>
    intro previous h
    obtain ⟨hstart, hlt, hstart', hlt', hrest⟩ := h
    rw [consolidateLoop]
    by_cases hsize : g.size = previous.size
    · obtain ⟨htiles, hexpand, halternating, hhead⟩ :=
        ih ⟨⟨previous.range.start, g.range.stop⟩, previous.size⟩ ⟨hstart, hlt.trans hlt', hrest⟩
      rw [if_pos hsize]
      refine ⟨htiles, ?_, halternating, hhead⟩
      rw [hexpand, expand_cons, expand_cons, expand_cons, hsize, ← append_assoc, ← replicate_add]
      dsimp only [groupCount]
      congr 2
      omega
    · obtain ⟨htiles, hexpand, halternating, hhead⟩ := ih g ⟨hstart', hlt', hrest⟩
      rw [if_neg hsize]
      refine ⟨⟨hstart, hlt, htiles⟩, ?_, ?_, ?_⟩
      · rw [expand_cons, hexpand, expand_cons previous]
      · refine List.IsChain.cons halternating fun g' hg' => ?_
        rw [hhead g' hg']
        exact Ne.symm hsize
      · intro g' hg'
        obtain rfl := Option.some.inj hg'
        rfl

theorem consolidate_spec {first last : Int} {groups : List IRangedGroup}
    (h : Tiles first last groups) :
    Tiles first last (consolidate groups) ∧ expand (consolidate groups) = expand groups ∧
      Alternating (consolidate groups) := by
  cases groups with
  | nil => exact ⟨h, rfl, isChain_nil⟩
  | cons g groups =>
    obtain ⟨htiles, hexpand, halternating, -⟩ := consolidateLoop_spec groups g h
    exact ⟨htiles, hexpand, halternating⟩

structure SizeList where
  paddingTop : ℚ
  sizes : List ℚ

inductive Change
  | splice (index deleteCount : Int) (items : List IItem)
  | setPaddingTop (paddingTop : ℚ)

def RangeMap.apply (m : RangeMap) : Change → RangeMap
  | .splice index deleteCount items => m.splice index deleteCount items
  | .setPaddingTop paddingTop => m.setPaddingTop paddingTop

namespace SizeList

def apply (l : SizeList) : Change → SizeList
  | .splice index deleteCount items =>
    { l with sizes := l.sizes.take index.toNat ++ items.map IItem.size ++ l.sizes.drop (index + deleteCount).toNat }
  | .setPaddingTop paddingTop => { l with paddingTop := paddingTop }

def positionBehind (l : SizeList) (i : Nat) : ℚ := l.paddingTop + (l.sizes.take i).sum

def InRange (l : SizeList) : Change → Prop
  | .splice index deleteCount items =>
    0 ≤ index ∧ 0 ≤ deleteCount ∧ index + deleteCount ≤ l.sizes.length ∧ ∀ item ∈ items, 0 ≤ item.size
  | .setPaddingTop _ => True

end SizeList

structure Refines (m : RangeMap) (l : SizeList) : Prop where
  count : m.count = l.sizes.length
  size : m.size = l.paddingTop + l.sizes.sum
  paddingTop : m.paddingTop = l.paddingTop
  positionAt : ∀ i < l.sizes.length, m.positionAt i = l.positionBehind i
  positionAt_outside : ∀ i : Int, i < 0 ∨ l.sizes.length ≤ i → m.positionAt i = -1
  indexAt_negative : ∀ position < 0, m.indexAt position = -1
  indexAt_padding : ∀ position, 0 ≤ position → position < l.paddingTop → m.indexAt position = 0
  indexAt_item : ∀ position, 0 ≤ position → ∀ i < l.sizes.length,
    l.positionBehind i ≤ position → position < l.positionBehind (i + 1) → m.indexAt position = i
  indexAt_end : ∀ position, 0 ≤ position → l.paddingTop + l.sizes.sum ≤ position → m.indexAt position = l.sizes.length
  tiles : Tiles 0 l.sizes.length m.groups
  alternating : Alternating m.groups

structure Grouped (m : RangeMap) (l : SizeList) : Prop where
  tiles : Tiles 0 l.sizes.length m.groups
  expand : expand m.groups = l.sizes
  alternating : Alternating m.groups
  paddingTop : m.paddingTop = l.paddingTop
  size : m.size = l.paddingTop + l.sizes.sum
  nonneg : ∀ size ∈ l.sizes, 0 ≤ size

theorem sum_expand_cons (g : IRangedGroup) (groups : List IRangedGroup)
    (h : 0 ≤ groupCount g) :
    (expand (g :: groups)).sum = groupCount g * g.size + (expand groups).sum := by
  have hcast : ((groupCount g).toNat : ℚ) = groupCount g := by
    rw [← Int.cast_natCast, Int.toNat_of_nonneg h]
  rw [expand_cons, sum_append, sum_replicate, nsmul_eq_mul, hcast]

theorem foldl_size {first last : Int} {groups : List IRangedGroup} (h : Tiles first last groups)
    (t : ℚ) : groups.foldl (fun t g => t + g.size * groupCount g) t = t + (expand groups).sum := by
  induction groups generalizing first t with
  | nil => simp
  | cons g groups ih =>
    obtain ⟨hstart, hlt, hrest⟩ := h
    rw [foldl_cons, ih hrest, sum_expand_cons g groups (by rw [groupCount]; omega)]
    ring

theorem stop_getLast {first last : Int} {groups : List IRangedGroup} (h : Tiles first last groups)
    (g : IRangedGroup) (hg : groups.getLast? = some g) : g.range.stop = last := by
  induction groups generalizing first with
  | nil => exact nomatch hg
  | cons g' groups ih =>
    obtain ⟨-, -, hrest⟩ := h
    cases groups with
    | nil =>
      obtain rfl := Option.some.inj hg
      exact hrest
    | cons g'' groups => exact ih hrest hg

theorem grouped_splice {m : RangeMap} {l : SizeList} (h : Grouped m l) {index deleteCount : Int}
    {items : List IItem} (hindex : 0 ≤ index) (hcount : 0 ≤ deleteCount)
    (hle : index + deleteCount ≤ l.sizes.length) (hitems : ∀ item ∈ items, 0 ≤ item.size) :
    Grouped (m.splice index deleteCount items) (l.apply (.splice index deleteCount items)) := by
  have hbefore := @groupIntersect_before index _ _ _ le_rfl h.tiles
  have hafter := @groupIntersect_after (index + deleteCount) _ _ _ h.tiles
  have hshift := @tiles_shift _ _ ((items.length : Int) - deleteCount) _ hafter.1
  have hmiddle := tiles_itemGroups index items
  rw [max_eq_right (by omega), min_eq_right (by omega), h.expand] at hbefore
  rw [hafter.2, h.expand, max_eq_right (by omega), max_eq_left hle,
    show index + deleteCount + ((items.length : Int) - deleteCount) = index + items.length by omega]
    at hshift
  rw [Int.sub_zero] at hbefore hshift
  have htiles := (hbefore.1.append hmiddle.1).append hshift.1
  obtain ⟨hgroups, hexpand, halternating⟩ := consolidate_spec htiles
  rw [expand_append, expand_append, hbefore.2, hmiddle.2, hshift.2] at hexpand
  have hconcat : (m.splice index deleteCount items).groups = consolidate
      (groupIntersect 0 (.at index) m.groups ++ RangeMap.itemGroups index items ++
        (groupIntersect (index + deleteCount) .positiveInfinity m.groups).map fun g =>
          ⟨shift g.range ((items.length : Int) - deleteCount), g.size⟩) :=
    rfl
  have hlength := hgroups.length
  rw [hexpand] at hlength
  constructor
  case tiles =>
    rw [hconcat]
    rw [Int.sub_zero] at hlength
    exact hlength.symm ▸ hgroups
  case expand => rw [hconcat, hexpand, SizeList.apply]
  case alternating =>
    rw [hconcat]
    exact halternating
  case paddingTop => exact h.paddingTop
  case size =>
    have hsize : (m.splice index deleteCount items).size = m.paddingTop +
        (m.splice index deleteCount items).groups.foldl (fun t g => t + g.size * groupCount g) 0 :=
      rfl
    rw [hsize, hconcat, foldl_size hgroups, hexpand, zero_add, h.paddingTop]
    rfl
  case nonneg =>
    intro size hsize
    rw [SizeList.apply, mem_append, mem_append] at hsize
    rcases hsize with (hsize | hsize) | hsize
    · exact h.nonneg size (mem_of_mem_take hsize)
    · obtain ⟨item, hitem, rfl⟩ := mem_map.mp hsize
      exact hitems item hitem
    · exact h.nonneg size (mem_of_mem_drop hsize)

theorem grouped_setPaddingTop {m : RangeMap} {l : SizeList} (h : Grouped m l) (paddingTop : ℚ) :
    Grouped (m.setPaddingTop paddingTop) (l.apply (.setPaddingTop paddingTop)) where
  tiles := h.tiles
  expand := h.expand
  alternating := h.alternating
  paddingTop := rfl
  size := by
    rw [RangeMap.setPaddingTop, h.size, h.paddingTop]
    dsimp only [SizeList.apply]
    ring
  nonneg := h.nonneg

theorem grouped_new (topPadding : ℚ) : Grouped (.new topPadding) ⟨topPadding, []⟩ where
  tiles := rfl
  expand := rfl
  alternating := isChain_nil
  paddingTop := rfl
  size := (add_zero topPadding).symm
  nonneg _ hsize := nomatch hsize

theorem take_replicate_append_of_lt {n i : Nat} (size : ℚ) (rest : List ℚ) (h : i ≤ n) :
    ((List.replicate n size ++ rest).take i).sum = i * size := by
  rw [take_append_of_le_length (by simpa using h), take_replicate, min_eq_left h, sum_replicate, nsmul_eq_mul]

theorem take_replicate_append_of_le {n i : Nat} (size : ℚ) (rest : List ℚ) (h : n ≤ i) :
    ((List.replicate n size ++ rest).take i).sum = n * size + (rest.take (i - n)).sum := by
  rw [take_append, length_replicate, take_of_length_le (by simpa using h), sum_append, sum_replicate, nsmul_eq_mul]

theorem cast_groupCount {g : IRangedGroup} (h : 0 ≤ groupCount g) :
    ((groupCount g : Int) : ℚ) = ((groupCount g).toNat : ℚ) := by
  rw [← Int.cast_natCast, Int.toNat_of_nonneg h]

theorem positionAtLoop_spec {first last : Int} (paddingTop : ℚ) (groups : List IRangedGroup) :
    Tiles first last groups → ∀ (index : Int) (position : ℚ) (count : Int), count ≤ index →
      RangeMap.positionAtLoop paddingTop index position count groups =
        if index < count + (last - first) then
          paddingTop + position + ((expand groups).take (index - count).toNat).sum
        else -1 := by
  induction groups generalizing first with
  | nil =>
    intro h index position count hle
    obtain rfl : first = last := h
    rw [RangeMap.positionAtLoop, if_neg (by omega)]
  | cons g groups ih =>
    intro h index position count hle
    obtain ⟨hstart, hlt, hrest⟩ := h
    have hlast := hrest.le
    have hcount : groupCount g = g.range.stop - first := by rw [groupCount, hstart]
    rw [RangeMap.positionAtLoop, expand_cons]
    by_cases hin : index < count + groupCount g
    · have hcast : ((index - count : Int) : ℚ) = ((index - count).toNat : ℚ) := by
        rw [← Int.cast_natCast, Int.toNat_of_nonneg (by omega)]
      rw [if_pos hin, if_pos (by omega), take_replicate_append_of_lt _ _ (by omega), hcast]
    · rw [if_neg hin, ih hrest _ _ _ (by omega)]
      have hiff : index < count + groupCount g + (last - g.range.stop) ↔ index < count + (last - first) := by omega
      simp only [hiff]
      split
      · rw [take_replicate_append_of_le _ _ (by omega), cast_groupCount (by omega),
          show (index - (count + groupCount g)).toNat = (index - count).toNat - (groupCount g).toNat by omega]
        ring
      · rfl

theorem indexAtLoop_item {first last : Int} {position : ℚ} (groups : List IRangedGroup) :
    Tiles first last groups → ∀ (index : Int) (size : ℚ) (i : Nat),
      (∀ s ∈ expand groups, 0 ≤ s) → i < (expand groups).length →
      size + ((expand groups).take i).sum ≤ position →
      position < size + ((expand groups).take (i + 1)).sum →
      RangeMap.indexAtLoop position index size groups = index + i := by
  induction groups generalizing first with
  | nil => intro _ _ _ i _ hi; exact absurd hi (Nat.not_lt_zero i)
  | cons g groups ih =>
    intro h index size i hnonneg hi hlo hhi
    obtain ⟨hstart, hlt, hrest⟩ := h
    have hpos : 0 < groupCount g := by rw [groupCount]; omega
    have hcast := cast_groupCount hpos.le
    rw [expand_cons] at hnonneg hi hlo hhi
    rw [RangeMap.indexAtLoop]
    by_cases hin : i < (groupCount g).toNat
    · rw [take_replicate_append_of_lt _ _ hin.le] at hlo
      rw [take_replicate_append_of_lt _ _ hin] at hhi
      have hsize : 0 < g.size := by
        push_cast at hhi
        nlinarith
      have hle : ((i : ℚ) + 1) * g.size ≤ (groupCount g).toNat * g.size := by
        have : ((i + 1 : Nat) : ℚ) ≤ ((groupCount g).toNat : ℚ) := by exact_mod_cast hin
        push_cast at this
        exact mul_le_mul_of_nonneg_right this hsize.le
      push_cast at hhi
      rw [hcast, if_pos (by linarith)]
      congr 1
      rw [Int.floor_eq_iff, le_div_iff₀ hsize, div_lt_iff₀ hsize]
      push_cast
      exact ⟨by linarith, by linarith⟩
    · rw [take_replicate_append_of_le _ _ (by omega)] at hlo hhi
      have hrestpos : ∀ s ∈ expand groups, 0 ≤ s := fun s hs => hnonneg s (mem_append_right _ hs)
      have hsum : 0 ≤ ((expand groups).take (i - (groupCount g).toNat)).sum :=
        sum_nonneg fun s hs => hrestpos s (mem_of_mem_take hs)
      rw [hcast, if_neg (by linarith), ih hrest (index + groupCount g) _
        (i - (groupCount g).toNat) hrestpos]
      · omega
      · rw [length_append, length_replicate] at hi
        omega
      · linarith
      · rw [show i - (groupCount g).toNat + 1 = i + 1 - (groupCount g).toNat by omega]
        linarith

theorem indexAtLoop_end {first last : Int} {position : ℚ} (groups : List IRangedGroup) :
    Tiles first last groups → ∀ (index : Int) (size : ℚ),
      (∀ s ∈ expand groups, 0 ≤ s) → size + (expand groups).sum ≤ position →
      RangeMap.indexAtLoop position index size groups = index + (last - first) := by
  induction groups generalizing first with
  | nil =>
    intro h index size _ _
    obtain rfl : first = last := h
    rw [RangeMap.indexAtLoop, sub_self, add_zero]
  | cons g groups ih =>
    intro h index size hnonneg hle
    obtain ⟨hstart, hlt, hrest⟩ := h
    have hcount : groupCount g = g.range.stop - first := by rw [groupCount, hstart]
    rw [sum_expand_cons g groups (by omega)] at hle
    rw [expand_cons] at hnonneg
    have hrestpos : ∀ s ∈ expand groups, 0 ≤ s := fun s hs => hnonneg s (mem_append_right _ hs)
    have hsum := sum_nonneg hrestpos
    rw [RangeMap.indexAtLoop, if_neg (by linarith), ih hrest _ _ hrestpos (by linarith)]
    omega

theorem refines_of_grouped {m : RangeMap} {l : SizeList} (h : Grouped m l) : Refines m l := by
  have hnonneg : ∀ s ∈ expand m.groups, 0 ≤ s := by
    rw [h.expand]
    exact h.nonneg
  have hposition (index : Int) (hindex : 0 ≤ index) :=
    positionAtLoop_spec m.paddingTop m.groups h.tiles index 0 0 hindex
  have hindex {position : ℚ} (h0 : 0 ≤ position) (hpadding : l.paddingTop ≤ position) :
      m.indexAt position = RangeMap.indexAtLoop position 0 l.paddingTop m.groups := by
    rw [RangeMap.indexAt, h.paddingTop, if_neg (not_lt.mpr h0), if_neg (not_lt.mpr hpadding)]
  constructor
  case count =>
    rw [RangeMap.count]
    split
    · next hnone =>
        have htiles := h.tiles
        rw [getLast?_eq_none_iff.mp hnone] at htiles
        exact htiles
    · next g hg => exact stop_getLast h.tiles g hg
  case size => exact h.size
  case paddingTop => exact h.paddingTop
  case positionAt =>
    intro i hi
    have hloop := hposition i (Int.natCast_nonneg i)
    rw [if_pos (by omega), add_zero, h.expand, h.paddingTop, Int.sub_zero, Int.toNat_natCast] at hloop
    rw [RangeMap.positionAt, if_neg (by omega), h.paddingTop, hloop, SizeList.positionBehind]
  case positionAt_outside =>
    intro i hi
    rw [RangeMap.positionAt]
    split
    · rfl
    · next hneg => rw [hposition i (by omega), if_neg (by omega)]
  case indexAt_negative =>
    intro position hneg
    rw [RangeMap.indexAt, if_pos hneg]
  case indexAt_padding =>
    intro position h0 hpadding
    rw [RangeMap.indexAt, if_neg (not_lt.mpr h0), h.paddingTop, if_pos hpadding]
  case indexAt_item =>
    intro position h0 i hi hlo hhi
    have hsum : 0 ≤ (l.sizes.take i).sum := sum_nonneg fun s hs => h.nonneg s (mem_of_mem_take hs)
    rw [SizeList.positionBehind] at hlo hhi
    rw [hindex h0 (by linarith), indexAtLoop_item m.groups h.tiles 0 l.paddingTop i hnonneg
      (by rw [h.expand]; exact hi) (by rw [h.expand]; exact hlo) (by rw [h.expand]; exact hhi),
      zero_add]
  case indexAt_end =>
    intro position h0 hle
    have hsum := sum_nonneg h.nonneg
    rw [hindex h0 (by linarith), indexAtLoop_end m.groups h.tiles 0 l.paddingTop hnonneg (by rw [h.expand]; exact hle)]
    omega
  case tiles => exact h.tiles
  case alternating => exact h.alternating

def change (s : RangeMap × SizeList) (c : Change) : Option (RangeMap × SizeList) := some (s.1.apply c, s.2.apply c)

theorem grouped_change {s s' : RangeMap × SizeList} {c : Change} (h : Grouped s.1 s.2)
    (hrange : s.2.InRange c) (hchange : change s c = some s') : Grouped s'.1 s'.2 := by
  obtain rfl := Option.some.inj hchange
  cases c with
  | splice index deleteCount items =>
    obtain ⟨hindex, hcount, hle, hitems⟩ := hrange
    exact grouped_splice h hindex hcount hle hitems
  | setPaddingTop paddingTop => exact grouped_setPaddingTop h paddingTop

end Gavea.ListView
