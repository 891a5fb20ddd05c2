import Mathlib.Tactic
import Mathlib.Order.CompletePartialOrder

namespace Gavea.Core

open List

section MonotonousSearch

variable {α : Type*} {array : List α} {predicate : α → Bool}

def findLastIdxLoop (array : List α) (predicate : α → Bool) (i j : Nat) : Nat :=
  if i < j then
    let k := (i + j) / 2
    if (array[k]?).any predicate then findLastIdxLoop array predicate (k + 1) j
    else findLastIdxLoop array predicate i k
  else i
  termination_by j - i

def findLastIdxMonotonous (array : List α) (predicate : α → Bool) : Int :=
  findLastIdxLoop array predicate 0 array.length - 1

def findLastMonotonous (array : List α) (predicate : α → Bool) : Option α :=
  let idx := findLastIdxMonotonous array predicate
  if idx = -1 then none else array[idx.toNat]?

def findFirstIdxLoop (array : List α) (predicate : α → Bool) (i j : Nat) : Nat :=
  if i < j then
    let k := (i + j) / 2
    if (array[k]?).any predicate then findFirstIdxLoop array predicate i k
    else findFirstIdxLoop array predicate (k + 1) j
  else i
  termination_by j - i

def findFirstIdxMonotonousOrArrLen (array : List α) (predicate : α → Bool) : Nat :=
  findFirstIdxLoop array predicate 0 array.length

theorem findLastIdxLoop_eq {n : Nat}
    (h : ∀ k < array.length, (array[k]?).any predicate = decide (k < n)) {i j : Nat} (hi : i ≤ n)
    (hj : n ≤ j) (hlen : j ≤ array.length) : findLastIdxLoop array predicate i j = n := by
  induction i, j using findLastIdxLoop.induct array predicate with
  | case1 i j hlt k hk ih =>
    rw [findLastIdxLoop, if_pos hlt]
    simp only
    rw [if_pos hk]
    rw [h k (by omega), decide_eq_true_eq] at hk
    exact ih (by omega) hj hlen
  | case2 i j hlt k hk ih =>
    rw [findLastIdxLoop, if_pos hlt]
    simp only
    rw [if_neg hk]
    rw [h k (by omega), decide_eq_true_eq] at hk
    exact ih hi (by omega) (by omega)
  | case3 i j hge =>
    rw [findLastIdxLoop, if_neg hge]
    omega

theorem findFirstIdxLoop_eq {n : Nat}
    (h : ∀ k < array.length, (array[k]?).any predicate = decide (n ≤ k)) {i j : Nat} (hi : i ≤ n)
    (hj : n ≤ j) (hlen : j ≤ array.length) : findFirstIdxLoop array predicate i j = n := by
  induction i, j using findFirstIdxLoop.induct array predicate with
  | case1 i j hlt k hk ih =>
    rw [findFirstIdxLoop, if_pos hlt]
    simp only
    rw [if_pos hk]
    rw [h k (by omega), decide_eq_true_eq] at hk
    exact ih hi hk (by omega)
  | case2 i j hlt k hk ih =>
    rw [findFirstIdxLoop, if_pos hlt]
    simp only
    rw [if_neg hk]
    rw [h k (by omega), decide_eq_true_eq] at hk
    exact ih (by omega) hj hlen
  | case3 i j hge =>
    rw [findFirstIdxLoop, if_neg hge]
    omega

variable {front back : List α}

theorem exists_split_of_pairwise {l : List α}
    (h : l.Pairwise fun x y => predicate y = true → predicate x = true) :
    ∃ front back, l = front ++ back ∧ (∀ x ∈ front, predicate x = true) ∧
      ∀ x ∈ back, predicate x = false := by
  induction l with
  | nil => exact ⟨[], [], rfl, fun _ hx => absurd hx not_mem_nil, fun _ hx => absurd hx not_mem_nil⟩
  | cons x l ih =>
    obtain ⟨hx, hl⟩ := pairwise_cons.mp h
    obtain ⟨front, back, rfl, hfront, hback⟩ := ih hl
    cases hp : predicate x with
    | true => exact ⟨x :: front, back, rfl, forall_mem_cons.mpr ⟨hp, hfront⟩, hback⟩
    | false =>
      refine ⟨[], x :: (front ++ back), rfl, fun _ hx => absurd hx not_mem_nil,
        forall_mem_cons.mpr ⟨hp, fun y hy => ?_⟩⟩
      rw [Bool.eq_false_iff]
      intro hpy
      rw [hx y hy hpy] at hp
      cases hp

theorem any_getElem?_append {b : Bool} (hfront : ∀ x ∈ front, predicate x = b)
    (hback : ∀ x ∈ back, predicate x = !b) {k : Nat} (hk : k < (front ++ back).length) :
    ((front ++ back)[k]?).any predicate = if k < front.length then b else !b := by
  by_cases hlt : k < front.length
  · rw [getElem?_append_left hlt, getElem?_eq_getElem hlt, Option.any_some, if_pos hlt]
    exact hfront _ (getElem_mem hlt)
  · have hlt' : k - front.length < back.length := by
      rw [length_append] at hk
      omega
    rw [getElem?_append_right (not_lt.mp hlt), getElem?_eq_getElem hlt', Option.any_some, if_neg hlt]
    exact hback _ (getElem_mem hlt')

theorem findLastIdxMonotonous_append (hfront : ∀ x ∈ front, predicate x = true)
    (hback : ∀ x ∈ back, predicate x = false) :
    findLastIdxMonotonous (front ++ back) predicate = front.length - 1 := by
  rw [findLastIdxMonotonous, findLastIdxLoop_eq (n := front.length) (fun k hk => ?_)
    (Nat.zero_le _) (by rw [length_append]; omega) le_rfl]
  rw [any_getElem?_append hfront hback hk]
  split_ifs with hlt
  · exact (decide_eq_true hlt).symm
  · exact (decide_eq_false hlt).symm

theorem findFirstIdxMonotonousOrArrLen_append (hfront : ∀ x ∈ front, predicate x = false)
    (hback : ∀ x ∈ back, predicate x = true) :
    findFirstIdxMonotonousOrArrLen (front ++ back) predicate = front.length := by
  rw [findFirstIdxMonotonousOrArrLen, findFirstIdxLoop_eq (n := front.length) (fun k hk => ?_)
    (Nat.zero_le _) (by rw [length_append]; omega) le_rfl]
  rw [any_getElem?_append hfront hback hk]
  split_ifs with hlt
  · exact (decide_eq_false (not_le.mpr hlt)).symm
  · exact (decide_eq_true (not_lt.mp hlt)).symm

theorem findLastMonotonous_append (hfront : ∀ x ∈ front, predicate x = true)
    (hback : ∀ x ∈ back, predicate x = false) :
    findLastMonotonous (front ++ back) predicate = front.getLast? := by
  rw [findLastMonotonous, findLastIdxMonotonous_append hfront hback]
  rcases eq_nil_or_concat front with rfl | ⟨init, last, rfl⟩
  · rfl
  · have hlen : ((init ++ [last]).length : Int) - 1 = init.length := by
      rw [length_append, length_singleton]
      omega
    simp only [concat_eq_append, hlen, Int.toNat_natCast]
    rw [if_neg (by omega), getLast?_concat, append_assoc, getElem?_append_right le_rfl, Nat.sub_self]
    rfl

end MonotonousSearch

structure LineRange where
  startLineNumber : Int
  endLineNumberExclusive : Int
  le : startLineNumber ≤ endLineNumberExclusive

namespace LineRange

def length (r : LineRange) : Int := r.endLineNumberExclusive - r.startLineNumber

def isEmpty (r : LineRange) : Bool := r.startLineNumber = r.endLineNumberExclusive

def delta (r : LineRange) (offset : Int) : LineRange where
  startLineNumber := r.startLineNumber + offset
  endLineNumberExclusive := r.endLineNumberExclusive + offset
  le := by
    have := r.le
    omega

def join (r other : LineRange) : LineRange where
  startLineNumber := min r.startLineNumber other.startLineNumber
  endLineNumberExclusive := max r.endLineNumberExclusive other.endLineNumberExclusive
  le := by
    have := r.le
    omega

def intersect (r other : LineRange) : Option LineRange :=
  if h : max r.startLineNumber other.startLineNumber ≤
      min r.endLineNumberExclusive other.endLineNumberExclusive then some ⟨_, _, h⟩
  else none

end LineRange

structure LineRangeSet where
  normalizedRanges : List LineRange

namespace LineRangeSet

def new : LineRangeSet := ⟨[]⟩

def joinRange (s : LineRangeSet) (range : LineRange) : Nat × Nat :=
  (findFirstIdxMonotonousOrArrLen s.normalizedRanges
      fun r => r.endLineNumberExclusive ≥ range.startLineNumber,
    (findLastIdxMonotonous s.normalizedRanges (fun r => r.startLineNumber ≤ range.endLineNumberExclusive) + 1).toNat)

def addRange (s : LineRangeSet) (range : LineRange) : LineRangeSet :=
  if range.length = 0 then s
  else
    let (startIdx, endIdx) := s.joinRange range
    if startIdx = endIdx then
      ⟨s.normalizedRanges.take startIdx ++ range :: s.normalizedRanges.drop startIdx⟩
    else
      match s.normalizedRanges[startIdx]?, s.normalizedRanges[endIdx - 1]? with
      | some first, some last =>
        let joined := if startIdx = endIdx - 1 then first.join range
          else (first.join last).join range
        ⟨s.normalizedRanges.take startIdx ++ joined :: s.normalizedRanges.drop endIdx⟩
      | _, _ => s

def contains (s : LineRangeSet) (lineNumber : Int) : Bool :=
  match findLastMonotonous s.normalizedRanges fun r => r.startLineNumber ≤ lineNumber with
  | some r => r.endLineNumberExclusive > lineNumber
  | none => false

def intersects (s : LineRangeSet) (range : LineRange) : Bool :=
  match findLastMonotonous s.normalizedRanges
    fun r => r.startLineNumber < range.endLineNumberExclusive with
  | some r => r.endLineNumberExclusive > range.startLineNumber
  | none => false

/-- What a turn of the loop of `getUnion` does with the next range: the current one and the ones
that are pushed. -/
def unionStep : Option LineRange × List LineRange → LineRange → Option LineRange × List LineRange
  | (none, result), next => (some next, result)
  | (some current, result), next =>
    if current.endLineNumberExclusive ≥ next.startLineNumber then
      (some ⟨current.startLineNumber, max current.endLineNumberExclusive next.endLineNumberExclusive,
        current.le.trans (le_max_left _ _)⟩, result)
    else (some next, result ++ [current])

def unionLoop : (ranges1 ranges2 : List LineRange) → Option LineRange × List LineRange →
    Option LineRange × List LineRange
  | r1 :: ranges1, r2 :: ranges2, state =>
    if r1.startLineNumber < r2.startLineNumber then
      unionLoop ranges1 (r2 :: ranges2) (unionStep state r1)
    else unionLoop (r1 :: ranges1) ranges2 (unionStep state r2)
  | r1 :: ranges1, [], state => unionLoop ranges1 [] (unionStep state r1)
  | [], r2 :: ranges2, state => unionLoop [] ranges2 (unionStep state r2)
  | [], [], state => state
  termination_by ranges1 ranges2 => ranges1.length + ranges2.length

def getUnion (s other : LineRangeSet) : LineRangeSet :=
  if s.normalizedRanges.length = 0 then other
  else if other.normalizedRanges.length = 0 then s
  else
    let (current, result) := unionLoop s.normalizedRanges other.normalizedRanges (none, [])
    ⟨result ++ current.toList⟩

def subtractLoop (endLineNumberExclusive : Int) : List LineRange → Int → List LineRange
  | [], startLineNumber =>
    if h : startLineNumber < endLineNumberExclusive then
      [⟨startLineNumber, endLineNumberExclusive, h.le⟩]
    else []
  | r :: ranges, startLineNumber =>
    let rest := subtractLoop endLineNumberExclusive ranges r.endLineNumberExclusive
    if h : r.startLineNumber > startLineNumber then
      ⟨startLineNumber, r.startLineNumber, h.lt.le⟩ :: rest
    else rest

def subtractFrom (s : LineRangeSet) (range : LineRange) : LineRangeSet :=
  let (startIdx, endIdx) := s.joinRange range
  if startIdx = endIdx then ⟨[range]⟩
  else
    ⟨subtractLoop range.endLineNumberExclusive
      ((s.normalizedRanges.drop startIdx).take (endIdx - startIdx)) range.startLineNumber⟩

/-- What two ranges have in common, unless it is empty, in front of what is pushed after it. -/
def pushIntersection (r1 r2 : LineRange) (rest : List LineRange) : List LineRange :=
  match r1.intersect r2 with
  | some i => if i.isEmpty then rest else i :: rest
  | none => rest

def intersectionLoop : (ranges1 ranges2 : List LineRange) → List LineRange
  | r1 :: ranges1, r2 :: ranges2 =>
    pushIntersection r1 r2
      (if r1.endLineNumberExclusive < r2.endLineNumberExclusive then
        intersectionLoop ranges1 (r2 :: ranges2)
      else intersectionLoop (r1 :: ranges1) ranges2)
  | _, _ => []
  termination_by ranges1 ranges2 => ranges1.length + ranges2.length

def getIntersection (s other : LineRangeSet) : LineRangeSet :=
  ⟨intersectionLoop s.normalizedRanges other.normalizedRanges⟩

def getWithDelta (s : LineRangeSet) (value : Int) : LineRangeSet := ⟨s.normalizedRanges.map fun r => r.delta value⟩

/-- The sets that the operations build from ranges that are not empty. -/
inductive Built : LineRangeSet → Prop
  | new : Built new
  | addRange {s : LineRangeSet} (range : LineRange) : Built s → range.isEmpty = false → Built (s.addRange range)
  | getUnion {s other : LineRangeSet} : Built s → Built other → Built (s.getUnion other)
  | subtractFrom {s : LineRangeSet} (range : LineRange) : Built s → range.isEmpty = false → Built (s.subtractFrom range)
  | getIntersection {s other : LineRangeSet} : Built s → Built other → Built (s.getIntersection other)
  | getWithDelta {s : LineRangeSet} (value : Int) : Built s → Built (s.getWithDelta value)

structure Normal (ranges : List LineRange) : Prop where
  nonempty : ∀ r ∈ ranges, r.startLineNumber < r.endLineNumberExclusive
  sorted : ranges.Pairwise fun r r' => r.endLineNumberExclusive < r'.startLineNumber

def lines (ranges : List LineRange) : Set Int :=
  { x | ∃ r ∈ ranges, r.startLineNumber ≤ x ∧ x < r.endLineNumberExclusive }

variable {s other : LineRangeSet} {range r : LineRange} {ranges ranges' front back : List LineRange}
  {x : Int}

theorem mem_lines : x ∈ lines ranges ↔ ∃ r ∈ ranges, r.startLineNumber ≤ x ∧ x < r.endLineNumberExclusive := Iff.rfl

theorem lines_nil : lines [] = ∅ := by
  ext x
  simp [lines]

theorem mem_lines_append :
    x ∈ lines (ranges ++ ranges') ↔ x ∈ lines ranges ∨ x ∈ lines ranges' := by
  simp only [mem_lines, mem_append, or_and_right, exists_or]

theorem mem_lines_cons : x ∈ lines (r :: ranges) ↔
    (r.startLineNumber ≤ x ∧ x < r.endLineNumberExclusive) ∨ x ∈ lines ranges := by
  simp only [mem_lines, mem_cons, exists_eq_or_imp]

namespace Normal

theorem nil : Normal [] := ⟨fun _ h => absurd h not_mem_nil, List.Pairwise.nil⟩

theorem singleton (h : r.startLineNumber < r.endLineNumberExclusive) : Normal [r] :=
  ⟨fun _ hr => mem_singleton.mp hr ▸ h, pairwise_singleton _ _⟩

theorem cons_iff : Normal (r :: ranges) ↔ r.startLineNumber < r.endLineNumberExclusive ∧
    (∀ r' ∈ ranges, r.endLineNumberExclusive < r'.startLineNumber) ∧ Normal ranges := by
  constructor
  · rintro ⟨hne, hsorted⟩
    obtain ⟨hlt, hsorted⟩ := pairwise_cons.mp hsorted
    exact ⟨hne r mem_cons_self, hlt, fun r' hr' => hne r' (mem_cons_of_mem _ hr'), hsorted⟩
  · rintro ⟨hne, hlt, hrest⟩
    exact ⟨forall_mem_cons.mpr ⟨hne, hrest.nonempty⟩, pairwise_cons.mpr ⟨hlt, hrest.sorted⟩⟩

theorem append_iff : Normal (front ++ back) ↔ Normal front ∧ Normal back ∧
    ∀ r ∈ front, ∀ r' ∈ back, r.endLineNumberExclusive < r'.startLineNumber := by
  constructor
  · rintro ⟨hne, hsorted⟩
    obtain ⟨hfront, hback, hlt⟩ := pairwise_append.mp hsorted
    exact ⟨⟨fun r hr => hne r (mem_append_left _ hr), hfront⟩, ⟨fun r hr => hne r (mem_append_right _ hr), hback⟩, hlt⟩
  · rintro ⟨hfront, hback, hlt⟩
    refine ⟨fun r hr => ?_, pairwise_append.mpr ⟨hfront.sorted, hback.sorted, hlt⟩⟩
    rcases mem_append.mp hr with hr | hr
    · exact hfront.nonempty r hr
    · exact hback.nonempty r hr

theorem exists_parts (h : Normal ranges) (range : LineRange) : ∃ front touching back,
    ranges = front ++ (touching ++ back) ∧
    (∀ r ∈ front, r.endLineNumberExclusive < range.startLineNumber) ∧
    (∀ r ∈ touching, range.startLineNumber ≤ r.endLineNumberExclusive ∧
      r.startLineNumber ≤ range.endLineNumberExclusive) ∧
    ∀ r ∈ back, range.endLineNumberExclusive < r.startLineNumber := by
  have hends : ranges.Pairwise fun r r' =>
      decide (r'.endLineNumberExclusive < range.startLineNumber) = true →
        decide (r.endLineNumberExclusive < range.startLineNumber) = true := by
    refine h.sorted.imp fun {r r'} hlt => ?_
    have := r'.le
    simp only [decide_eq_true_eq]
    omega
  obtain ⟨front, rest, rfl, hfront, hrest⟩ := exists_split_of_pairwise hends
  have hstarts : rest.Pairwise fun r r' =>
      decide (r'.startLineNumber ≤ range.endLineNumberExclusive) = true →
        decide (r.startLineNumber ≤ range.endLineNumberExclusive) = true := by
    refine (append_iff.mp h).2.1.sorted.imp fun {r r'} hlt => ?_
    have := r.le
    simp only [decide_eq_true_eq]
    omega
  obtain ⟨touching, back, rfl, htouching, hback⟩ := exists_split_of_pairwise hstarts
  refine ⟨front, touching, back, rfl, fun r hr => of_decide_eq_true (hfront r hr), fun r hr => ⟨?_,
    of_decide_eq_true (htouching r hr)⟩, fun r hr => not_le.mp (of_decide_eq_false (hback r hr))⟩
  exact not_lt.mp (of_decide_eq_false (hrest r (mem_append_left _ hr)))

theorem start_le (h : Normal (r :: ranges)) {r' : LineRange} (hr' : r' ∈ r :: ranges) :
    r.startLineNumber ≤ r'.startLineNumber := by
  obtain ⟨hne, hlt, -⟩ := cons_iff.mp h
  rcases mem_cons.mp hr' with rfl | hr'
  · exact le_rfl
  · have := hlt r' hr'
    omega

theorem le_end (h : Normal (ranges ++ [r])) {r' : LineRange} (hr' : r' ∈ ranges ++ [r]) :
    r'.endLineNumberExclusive ≤ r.endLineNumberExclusive := by
  obtain ⟨-, hr, hlt⟩ := append_iff.mp h
  rcases mem_append.mp hr' with hr' | hr'
  · have := hlt r' hr' r (mem_singleton_self r)
    have := r.le
    omega
  · rw [mem_singleton.mp hr']

end Normal

theorem mem_hull {touching : List LineRange} {first last : LineRange} (h : Normal touching)
    (hfirst : touching.head? = some first) (hlast : touching.getLast? = some last)
    (htouch : ∀ r ∈ touching, range.startLineNumber ≤ r.endLineNumberExclusive ∧
      r.startLineNumber ≤ range.endLineNumberExclusive) :
    (min first.startLineNumber range.startLineNumber ≤ x ∧
      x < max last.endLineNumberExclusive range.endLineNumberExclusive) ↔
    (range.startLineNumber ≤ x ∧ x < range.endLineNumberExclusive) ∨ x ∈ lines touching := by
  obtain ⟨rest, hcons⟩ := head?_eq_some_iff.mp hfirst
  obtain ⟨init, hconcat⟩ := getLast?_eq_some_iff.mp hlast
  have hmemFirst : first ∈ touching := hcons ▸ mem_cons_self
  have hmemLast : last ∈ touching := hconcat ▸ mem_append_right _ (mem_singleton_self _)
  have htouchFirst := htouch first hmemFirst
  have htouchLast := htouch last hmemLast
  constructor
  · rintro ⟨hstart, hend⟩
    by_cases hlow : x < range.startLineNumber
    · exact Or.inr ⟨first, hmemFirst, by omega, by omega⟩
    · by_cases hhigh : range.endLineNumberExclusive ≤ x
      · exact Or.inr ⟨last, hmemLast, by omega, by omega⟩
      · exact Or.inl ⟨not_lt.mp hlow, not_le.mp hhigh⟩
  · rintro (⟨hstart, hend⟩ | ⟨r, hr, hstart, hend⟩)
    · omega
    · have hle := (hcons ▸ h).start_le (hcons ▸ hr)
      have hge := (hconcat ▸ h).le_end (hconcat ▸ hr)
      omega

section Join

variable {touching : List LineRange} (hfront : ∀ r ∈ front,
    r.endLineNumberExclusive < range.startLineNumber)
  (htouch : ∀ r ∈ touching, range.startLineNumber ≤ r.endLineNumberExclusive ∧
    r.startLineNumber ≤ range.endLineNumberExclusive)
  (hback : ∀ r ∈ back, range.endLineNumberExclusive < r.startLineNumber)

include hfront htouch hback

theorem joinRange_eq : joinRange ⟨front ++ (touching ++ back)⟩ range =
    (front.length, front.length + touching.length) := by
  have hrange := range.le
  have hfirst : findFirstIdxMonotonousOrArrLen (front ++ (touching ++ back))
      (fun r => r.endLineNumberExclusive ≥ range.startLineNumber) = front.length := by
    refine findFirstIdxMonotonousOrArrLen_append (fun r hr => ?_) fun r hr => ?_
    · exact decide_eq_false (not_le.mpr (hfront r hr))
    · refine decide_eq_true ?_
      rcases mem_append.mp hr with hr | hr
      · exact (htouch r hr).1
      · have := hback r hr
        have := r.le
        omega
  have hlast : findLastIdxMonotonous (front ++ (touching ++ back))
      (fun r => r.startLineNumber ≤ range.endLineNumberExclusive) =
        (front ++ touching).length - 1 := by
    rw [← append_assoc]
    refine findLastIdxMonotonous_append (fun r hr => ?_) fun r hr => ?_
    · refine decide_eq_true ?_
      rcases mem_append.mp hr with hr | hr
      · have := hfront r hr
        have := r.le
        omega
      · exact (htouch r hr).2
    · exact decide_eq_false (not_le.mpr (hback r hr))
  rw [joinRange, hfirst, hlast, length_append]
  simp only [Prod.mk.injEq, true_and]
  omega

theorem addRange_parts (hne : range.startLineNumber < range.endLineNumberExclusive)
    (h : Normal (front ++ (touching ++ back))) :
    ∃ joined : LineRange, (addRange ⟨front ++ (touching ++ back)⟩ range).normalizedRanges =
        front ++ joined :: back ∧
      (∀ r ∈ front, r.endLineNumberExclusive < joined.startLineNumber) ∧
      joined.startLineNumber < joined.endLineNumberExclusive ∧
      (∀ r ∈ back, joined.endLineNumberExclusive < r.startLineNumber) ∧
      ∀ x, (joined.startLineNumber ≤ x ∧ x < joined.endLineNumberExclusive) ↔
        (range.startLineNumber ≤ x ∧ x < range.endLineNumberExclusive) ∨ x ∈ lines touching := by
  have hlength : range.length ≠ 0 := by
    rw [LineRange.length]
    omega
  obtain ⟨-, hrest, hlt⟩ := Normal.append_iff.mp h
  obtain ⟨hnormal, -, hltBack⟩ := Normal.append_iff.mp hrest
  rw [addRange, if_neg hlength, joinRange_eq hfront htouch hback]
  simp only
  rcases hfirst : touching.head? with _ | first
  · obtain rfl := head?_eq_none_iff.mp hfirst
    refine ⟨range, ?_, hfront, hne, hback, fun x => by simp [lines_nil]⟩
    simp
  · obtain ⟨rest, hcons⟩ := head?_eq_some_iff.mp hfirst
    obtain ⟨last, hlast⟩ : ∃ last, touching.getLast? = some last := by
      rw [hcons]
      exact ⟨_, getLast?_eq_getLast_of_ne_nil (cons_ne_nil _ _)⟩
    obtain ⟨init, hconcat⟩ := getLast?_eq_some_iff.mp hlast
    have hmemFirst : first ∈ touching := hcons ▸ mem_cons_self
    have hmemLast : last ∈ touching := hconcat ▸ mem_append_right _ (mem_singleton_self _)
    have hlen : touching.length ≠ 0 := by
      rw [hcons, length_cons]
      omega
    have hstart : (front ++ (touching ++ back))[front.length]? = some first := by
      rw [getElem?_append_right le_rfl, Nat.sub_self, hcons]
      rfl
    have hstop : (front ++ (touching ++ back))[front.length + touching.length - 1]? =
        some last := by
      rw [getElem?_append_right (by omega), getElem?_append_left (by omega),
        show front.length + touching.length - 1 - front.length = touching.length - 1 by omega,
        ← getLast?_eq_getElem?, hlast]
    have htake : (front ++ (touching ++ back)).take front.length = front := take_left
    have hdrop : (front ++ (touching ++ back)).drop (front.length + touching.length) = back := by
      rw [← append_assoc, ← length_append, drop_left]
    rw [if_neg (by omega), hstart, hstop, htake, hdrop]
    simp only
    have hle := (hcons ▸ hnormal).start_le (hcons ▸ hmemLast)
    have hge := (hconcat ▸ hnormal).le_end (hconcat ▸ hmemFirst)
    have hneFirst := hnormal.nonempty first hmemFirst
    have hbounds : ∀ joined : LineRange, joined = (if front.length = front.length +
        touching.length - 1 then first.join range else (first.join last).join range) →
        joined.startLineNumber = min first.startLineNumber range.startLineNumber ∧
        joined.endLineNumberExclusive =
          max last.endLineNumberExclusive range.endLineNumberExclusive := by
      rintro joined rfl
      split_ifs with hone
      · have hsame : first = last := by
          have hrest : rest.length = 0 := by
            rw [hcons, length_cons] at hone
            omega
          rw [hcons, length_eq_zero_iff.mp hrest] at hlast
          exact Option.some.inj hlast
        rw [← hsame]
        exact ⟨rfl, rfl⟩
      · simp only [LineRange.join]
        omega
    generalize (if front.length = front.length + touching.length - 1 then first.join range
      else (first.join last).join range) = joined at hbounds
    obtain ⟨hjoinedStart, hjoinedEnd⟩ := hbounds joined rfl
    refine ⟨joined, rfl, fun r hr => ?_, ?_, fun r hr => ?_, fun x => ?_⟩
    · have := hfront r hr
      have := hlt r hr first (mem_append_left _ hmemFirst)
      omega
    · omega
    · have := hback r hr
      have := hltBack last hmemLast r hr
      omega
    · rw [hjoinedStart, hjoinedEnd]
      exact mem_hull hnormal hfirst hlast htouch

end Join

theorem Normal.addRange (h : Normal s.normalizedRanges)
    (hne : range.startLineNumber < range.endLineNumberExclusive) :
    Normal (s.addRange range).normalizedRanges := by
  obtain ⟨ranges⟩ := s
  obtain ⟨front, touching, back, rfl, hfront, htouch, hback⟩ := h.exists_parts range
  obtain ⟨joined, heq, hbefore, hjoined, hbehind, -⟩ := addRange_parts hfront htouch hback hne h
  obtain ⟨hnormal, hrest, hlt⟩ := Normal.append_iff.mp h
  obtain ⟨-, hnormalBack, -⟩ := Normal.append_iff.mp hrest
  rw [heq, Normal.append_iff, Normal.cons_iff]
  refine ⟨hnormal, ⟨hjoined, hbehind, hnormalBack⟩, fun r hr r' hr' => ?_⟩
  rcases mem_cons.mp hr' with rfl | hr'
  · exact hbefore r hr
  · exact hlt r hr r' (mem_append_right _ hr')

theorem mem_addRange (h : Normal s.normalizedRanges)
    (hne : range.startLineNumber < range.endLineNumberExclusive) :
    x ∈ lines (s.addRange range).normalizedRanges ↔ x ∈ lines s.normalizedRanges ∨
      (range.startLineNumber ≤ x ∧ x < range.endLineNumberExclusive) := by
  obtain ⟨ranges⟩ := s
  obtain ⟨front, touching, back, rfl, hfront, htouch, hback⟩ := h.exists_parts range
  obtain ⟨joined, heq, -, -, -, hlines⟩ := addRange_parts hfront htouch hback hne h
  rw [heq, mem_lines_append, mem_lines_cons, hlines, mem_lines_append, mem_lines_append]
  tauto

theorem contains_iff (h : Normal s.normalizedRanges) :
    s.contains x = true ↔ x ∈ lines s.normalizedRanges := by
  obtain ⟨ranges⟩ := s
  have hstarts : ranges.Pairwise fun r r' => decide (r'.startLineNumber ≤ x) = true →
      decide (r.startLineNumber ≤ x) = true := by
    refine h.sorted.imp fun {r r'} hlt => ?_
    have := r.le
    simp only [decide_eq_true_eq]
    omega
  obtain ⟨front, back, rfl, hfront, hback⟩ := exists_split_of_pairwise hstarts
  rw [contains, findLastMonotonous_append hfront hback, mem_lines_append]
  have hnot : x ∉ lines back := by
    rintro ⟨r, hr, hle, -⟩
    exact of_decide_eq_false (hback r hr) hle
  rw [or_iff_left hnot]
  cases hlast : front.getLast? with
  | none =>
    rw [getLast?_eq_none_iff.mp hlast, lines_nil]
    simp
  | some last =>
    obtain ⟨init, rfl⟩ := getLast?_eq_some_iff.mp hlast
    have hmem : last ∈ init ++ [last] := mem_append_right _ (mem_singleton_self _)
    have hle := of_decide_eq_true (hfront last hmem)
    simp only [gt_iff_lt, decide_eq_true_eq]
    constructor
    · exact fun hlt => ⟨last, hmem, hle, hlt⟩
    · rintro ⟨r, hr, -, hlt⟩
      have := (Normal.append_iff.mp h).1.le_end hr
      omega

theorem intersects_iff (h : Normal s.normalizedRanges) :
    s.intersects range = true ↔ ∃ r ∈ s.normalizedRanges,
      r.startLineNumber < range.endLineNumberExclusive ∧
        range.startLineNumber < r.endLineNumberExclusive := by
  obtain ⟨ranges⟩ := s
  have hstarts : ranges.Pairwise fun r r' =>
      decide (r'.startLineNumber < range.endLineNumberExclusive) = true →
        decide (r.startLineNumber < range.endLineNumberExclusive) = true := by
    refine h.sorted.imp fun {r r'} hlt => ?_
    have := r.le
    simp only [decide_eq_true_eq]
    omega
  obtain ⟨front, back, rfl, hfront, hback⟩ := exists_split_of_pairwise hstarts
  rw [intersects, findLastMonotonous_append hfront hback]
  cases hlast : front.getLast? with
  | none =>
    have hnil := getLast?_eq_none_iff.mp hlast
    refine iff_of_false (by simp) ?_
    rintro ⟨r, hr, hlt, -⟩
    rw [hnil, nil_append] at hr
    exact of_decide_eq_false (hback r hr) hlt
  | some last =>
    obtain ⟨init, rfl⟩ := getLast?_eq_some_iff.mp hlast
    have hmem : last ∈ init ++ [last] := mem_append_right _ (mem_singleton_self _)
    have hle := of_decide_eq_true (hfront last hmem)
    simp only [gt_iff_lt, decide_eq_true_eq]
    constructor
    · exact fun hlt => ⟨last, mem_append_left _ hmem, hle, hlt⟩
    · rintro ⟨r, hr, hlt, hgt⟩
      rcases mem_append.mp hr with hr | hr
      · have := (Normal.append_iff.mp h).1.le_end hr
        omega
      · exact absurd hlt (of_decide_eq_false (hback r hr))

theorem exists_mem_both_iff {r range : LineRange}
    (hr : r.startLineNumber < r.endLineNumberExclusive)
    (hrange : range.startLineNumber < range.endLineNumberExclusive) :
    (∃ x, (range.startLineNumber ≤ x ∧ x < range.endLineNumberExclusive) ∧
      r.startLineNumber ≤ x ∧ x < r.endLineNumberExclusive) ↔
      r.startLineNumber < range.endLineNumberExclusive ∧
        range.startLineNumber < r.endLineNumberExclusive := by
  constructor
  · rintro ⟨x, hx⟩
    omega
  · intro hlt
    exact ⟨max r.startLineNumber range.startLineNumber, by omega⟩

/-- What the loop of `getUnion` has come to: normal ranges with the lines of what it has taken,
and all that is to come starts behind the start of the last one. -/
structure UnionState (state : Option LineRange × List LineRange) (taken : Set Int) : Prop where
  normal : Normal (state.2 ++ state.1.toList)
  mem : ∀ x, x ∈ lines (state.2 ++ state.1.toList) ↔ x ∈ taken

theorem UnionState.step {state : Option LineRange × List LineRange} {taken : Set Int}
    (h : UnionState state taken) {next : LineRange}
    (hne : next.startLineNumber < next.endLineNumberExclusive)
    (hnext : ∀ current ∈ state.1, current.startLineNumber ≤ next.startLineNumber)
    (hnone : state.1 = none → state.2 = []) :
    UnionState (unionStep state next) (taken ∪ lines [next]) ∧
      ∃ current, (unionStep state next).1 = some current ∧
        current.startLineNumber ≤ next.startLineNumber := by
  obtain ⟨current, result⟩ := state
  cases current with
  | none =>
    obtain rfl : result = [] := hnone rfl
    refine ⟨⟨Normal.singleton hne, fun x => ?_⟩, next, rfl, le_rfl⟩
    have := h.mem x
    simp only [Option.toList_none, append_nil, lines_nil] at this
    rw [Set.mem_union, ← this]
    simp [unionStep]
  | some current =>
    have hle : current.startLineNumber ≤ next.startLineNumber := hnext current rfl
    obtain ⟨hnormal, hlines⟩ := h
    simp only [Option.toList_some] at hnormal hlines
    obtain ⟨hresult, hcurrent, hlt⟩ := Normal.append_iff.mp hnormal
    rw [unionStep]
    split_ifs with hmerge
    · refine ⟨⟨?_, fun x => ?_⟩, _, rfl, hle⟩
      · simp only [Option.toList_some]
        rw [Normal.append_iff]
        refine ⟨hresult, Normal.singleton (by simp only; omega), fun r hr r' hr' => ?_⟩
        rw [mem_singleton.mp hr']
        exact hlt r hr current (mem_singleton_self _)
      · have := hlines x
        simp only [Option.toList_some]
        rw [Set.mem_union, ← this, mem_lines_append, mem_lines_append, mem_lines_cons,
          mem_lines_cons, mem_lines_cons, or_assoc]
        refine or_congr_right ?_
        simp only [lines_nil, Set.mem_empty_iff_false, or_false]
        omega
    · refine ⟨⟨?_, fun x => ?_⟩, next, rfl, le_rfl⟩
      · simp only [Option.toList_some]
        rw [Normal.append_iff]
        refine ⟨hnormal, Normal.singleton hne, fun r hr r' hr' => ?_⟩
        rw [mem_singleton.mp hr']
        have := hnormal.le_end hr
        omega
      · have := hlines x
        simp only [Option.toList_some]
        rw [Set.mem_union, ← this, mem_lines_append]

theorem lines_cons_eq (r : LineRange) (ranges : List LineRange) :
    lines (r :: ranges) = lines [r] ∪ lines ranges := by
  ext x
  rw [Set.mem_union, ← mem_lines_append]
  rfl

theorem union_taken (taken a b c : Set Int) : taken ∪ (a ∪ (b ∪ c)) = taken ∪ b ∪ (a ∪ c) := by
  rw [Set.union_left_comm a, Set.union_assoc]

theorem UnionState.loop (ranges1 ranges2 : List LineRange)
    {state : Option LineRange × List LineRange} {taken : Set Int} (h : UnionState state taken)
    (h1 : Normal ranges1) (h2 : Normal ranges2) (hnone : state.1 = none → state.2 = [])
    (hnext : ∀ current ∈ state.1, ∀ r ∈ ranges1 ++ ranges2, current.startLineNumber ≤ r.startLineNumber) :
    UnionState (unionLoop ranges1 ranges2 state) (taken ∪ (lines ranges1 ∪ lines ranges2)) := by
  induction ranges1, ranges2, state using unionLoop.induct generalizing taken with
  | case1 r1 ranges1 r2 ranges2 state hlt ih =>
    obtain ⟨hne, hafter, hrest⟩ := Normal.cons_iff.mp h1
    obtain ⟨hstep, current, hcurrent, hle⟩ := h.step hne
      (fun c hc => hnext c hc r1 (mem_append_left _ mem_cons_self)) hnone
    rw [unionLoop, if_pos hlt, lines_cons_eq r1, Set.union_assoc, ← Set.union_assoc taken]
    refine ih hstep hrest h2 (fun hc => by rw [hcurrent] at hc; cases hc) fun c hc r hr => ?_
    rw [hcurrent] at hc
    obtain rfl := Option.some.inj hc
    rcases mem_append.mp hr with hr | hr
    · have := hafter r hr
      omega
    · have := h2.start_le hr
      omega
  | case2 r1 ranges1 r2 ranges2 state hge ih =>
    obtain ⟨hne, hafter, hrest⟩ := Normal.cons_iff.mp h2
    obtain ⟨hstep, current, hcurrent, hle⟩ := h.step hne
      (fun c hc => hnext c hc r2 (mem_append_right _ mem_cons_self)) hnone
    rw [unionLoop, if_neg hge, lines_cons_eq r2, union_taken]
    refine ih hstep h1 hrest (fun hc => by rw [hcurrent] at hc; cases hc) fun c hc r hr => ?_
    rw [hcurrent] at hc
    obtain rfl := Option.some.inj hc
    rcases mem_append.mp hr with hr | hr
    · have := h1.start_le hr
      omega
    · have := hafter r hr
      omega
  | case3 r1 ranges1 state ih =>
    obtain ⟨hne, hafter, hrest⟩ := Normal.cons_iff.mp h1
    obtain ⟨hstep, current, hcurrent, hle⟩ := h.step hne
      (fun c hc => hnext c hc r1 (mem_append_left _ mem_cons_self)) hnone
    rw [unionLoop, lines_cons_eq r1, Set.union_assoc, ← Set.union_assoc taken]
    refine ih hstep hrest h2 (fun hc => by rw [hcurrent] at hc; cases hc) fun c hc r hr => ?_
    rw [hcurrent] at hc
    obtain rfl := Option.some.inj hc
    rw [append_nil] at hr
    have := hafter r hr
    omega
  | case4 r2 ranges2 state ih =>
    obtain ⟨hne, hafter, hrest⟩ := Normal.cons_iff.mp h2
    obtain ⟨hstep, current, hcurrent, hle⟩ := h.step hne
      (fun c hc => hnext c hc r2 (mem_append_right _ mem_cons_self)) hnone
    rw [unionLoop, lines_cons_eq r2, union_taken]
    refine ih hstep h1 hrest (fun hc => by rw [hcurrent] at hc; cases hc) fun c hc r hr => ?_
    rw [hcurrent] at hc
    obtain rfl := Option.some.inj hc
    have := hafter r hr
    omega
  | case5 state =>
    rw [unionLoop, lines_nil, Set.union_empty, Set.union_empty]
    exact h

theorem getUnion_spec (h : Normal s.normalizedRanges) (hother : Normal other.normalizedRanges) :
    Normal (s.getUnion other).normalizedRanges ∧
      ∀ x, x ∈ lines (s.getUnion other).normalizedRanges ↔
        x ∈ lines s.normalizedRanges ∨ x ∈ lines other.normalizedRanges := by
  rw [getUnion]
  split_ifs with hs ho
  · rw [length_eq_zero_iff.mp hs, lines_nil]
    exact ⟨hother, fun x => by simp⟩
  · rw [length_eq_zero_iff.mp ho, lines_nil]
    exact ⟨h, fun x => by simp⟩
  · have hempty : UnionState (none, []) ∅ := ⟨Normal.nil, fun x => by simp [lines]⟩
    have hloop := hempty.loop _ _ h hother (fun _ => rfl) fun c hc => (nomatch hc)
    rw [Set.empty_union] at hloop
    exact ⟨hloop.normal, hloop.mem⟩

theorem subtractLoop_spec {stop : Int} (h : Normal ranges)
    (hstops : ∀ r ∈ ranges, r.startLineNumber ≤ stop) (start : Int)
    (hstart : ∀ r ∈ ranges, start ≤ r.endLineNumberExclusive) :
    Normal (subtractLoop stop ranges start) ∧
      (∀ p ∈ subtractLoop stop ranges start, start ≤ p.startLineNumber) ∧
      ∀ x, x ∈ lines (subtractLoop stop ranges start) ↔
        (start ≤ x ∧ x < stop) ∧ x ∉ lines ranges := by
  induction ranges generalizing start with
  | nil =>
    rw [subtractLoop]
    split_ifs with hlt
    · refine ⟨Normal.singleton hlt, fun p hp => ?_, fun x => ?_⟩
      · rw [mem_singleton.mp hp]
      · simp [lines]
    · refine ⟨Normal.nil, fun p hp => absurd hp not_mem_nil, fun x => ?_⟩
      simp only [lines_nil, Set.mem_empty_iff_false, not_false_eq_true, and_true, false_iff]
      omega
  | cons r ranges ih =>
    obtain ⟨hne, hafter, hrest⟩ := Normal.cons_iff.mp h
    obtain ⟨hnormal, hbehind, hlines⟩ := ih hrest
      (fun r' hr' => hstops r' (mem_cons_of_mem _ hr')) r.endLineNumberExclusive
      fun r' hr' => by
        have := hafter r' hr'
        have := r'.le
        omega
    have hle := hstart r mem_cons_self
    have hstop := hstops r mem_cons_self
    rw [subtractLoop]
    split_ifs with hlt
    · refine ⟨Normal.cons_iff.mpr ⟨hlt, fun p hp => ?_, hnormal⟩,
        forall_mem_cons.mpr ⟨le_rfl, fun p hp => ?_⟩, fun x => ?_⟩
      · have := hbehind p hp
        exact hne.trans_le this
      · have := hbehind p hp
        omega
      · have hgap : x ∈ lines ranges → r.endLineNumberExclusive < x := by
          rintro ⟨r', hr', hx, -⟩
          exact (hafter r' hr').trans_le hx
        rw [mem_lines_cons, mem_lines_cons, hlines]
        simp only
        by_cases hx : x ∈ lines ranges
        · have := hgap hx
          refine iff_of_false ?_ fun h => h.2 (Or.inr hx)
          rintro (h | h)
          · omega
          · exact h.2 hx
        · simp only [hx, not_false_eq_true, and_true, or_false]
          omega
    · refine ⟨hnormal, fun p hp => ?_, fun x => ?_⟩
      · have := hbehind p hp
        omega
      · have hgap : x ∈ lines ranges → r.endLineNumberExclusive < x := by
          rintro ⟨r', hr', hx, -⟩
          exact (hafter r' hr').trans_le hx
        rw [mem_lines_cons, hlines]
        by_cases hx : x ∈ lines ranges
        · simp only [hx, not_true_eq_false, and_false, or_true]
        · simp only [hx, not_false_eq_true, and_true, or_false]
          omega

theorem subtractFrom_spec (h : Normal s.normalizedRanges)
    (hne : range.startLineNumber < range.endLineNumberExclusive) :
    Normal (s.subtractFrom range).normalizedRanges ∧
      ∀ x, x ∈ lines (s.subtractFrom range).normalizedRanges ↔
        (range.startLineNumber ≤ x ∧ x < range.endLineNumberExclusive) ∧
          x ∉ lines s.normalizedRanges := by
  obtain ⟨ranges⟩ := s
  obtain ⟨front, touching, back, rfl, hfront, htouch, hback⟩ := h.exists_parts range
  have houtside (x : Int) (hx : range.startLineNumber ≤ x ∧ x < range.endLineNumberExclusive) :
      x ∈ lines (front ++ (touching ++ back)) ↔ x ∈ lines touching := by
    rw [mem_lines_append, mem_lines_append]
    constructor
    · rintro (⟨r, hr, -, hlt⟩ | ht | ⟨r, hr, hle, -⟩)
      · have := hfront r hr
        omega
      · exact ht
      · have := hback r hr
        omega
    · exact fun ht => Or.inr (Or.inl ht)
  rw [subtractFrom, joinRange_eq hfront htouch hback]
  simp only
  split_ifs with hnone
  · obtain rfl : touching = [] := length_eq_zero_iff.mp (by omega)
    refine ⟨Normal.singleton hne, fun x => ?_⟩
    rw [mem_lines_cons, lines_nil]
    simp only [Set.mem_empty_iff_false, or_false]
    constructor
    · intro hx
      refine ⟨hx, fun hin => ?_⟩
      rw [houtside x hx, lines_nil] at hin
      exact hin
    · exact fun hx => hx.1
  · have htaken : ((front ++ (touching ++ back)).drop front.length).take
        (front.length + touching.length - front.length) = touching := by
      rw [drop_left, Nat.add_sub_cancel_left, take_left]
    rw [htaken]
    have hnormal := (Normal.append_iff.mp (Normal.append_iff.mp h).2.1).1
    obtain ⟨hresult, -, hlines⟩ := subtractLoop_spec hnormal (fun r hr => (htouch r hr).2)
      range.startLineNumber fun r hr => (htouch r hr).1
    refine ⟨hresult, fun x => (hlines x).trans ?_⟩
    exact and_congr_right fun hx => not_congr (houtside x hx).symm

theorem mem_intersect {r1 r2 i : LineRange} (h : r1.intersect r2 = some i) :
    i.startLineNumber = max r1.startLineNumber r2.startLineNumber ∧
      i.endLineNumberExclusive = min r1.endLineNumberExclusive r2.endLineNumberExclusive := by
  rw [LineRange.intersect] at h
  split_ifs at h
  obtain rfl := Option.some.inj h
  exact ⟨rfl, rfl⟩

theorem intersect_eq_none {r1 r2 : LineRange} (h : r1.intersect r2 = none) :
    min r1.endLineNumberExclusive r2.endLineNumberExclusive <
      max r1.startLineNumber r2.startLineNumber := by
  rw [LineRange.intersect] at h
  split_ifs at h with hle
  exact not_le.mp hle

theorem pushIntersection_spec {r1 r2 : LineRange} {rest : List LineRange} (hnormal : Normal rest)
    (hbehind : ∀ p ∈ rest, min r1.endLineNumberExclusive r2.endLineNumberExclusive < p.startLineNumber) :
    Normal (pushIntersection r1 r2 rest) ∧
      (∀ p ∈ pushIntersection r1 r2 rest, p ∈ rest ∨ p.startLineNumber = max r1.startLineNumber r2.startLineNumber) ∧
      ∀ x, x ∈ lines (pushIntersection r1 r2 rest) ↔
        ((r1.startLineNumber ≤ x ∧ x < r1.endLineNumberExclusive) ∧
          r2.startLineNumber ≤ x ∧ x < r2.endLineNumberExclusive) ∨ x ∈ lines rest := by
  rw [pushIntersection]
  cases hi : r1.intersect r2 with
  | none =>
    have hlt := intersect_eq_none hi
    refine ⟨hnormal, fun p hp => Or.inl hp, fun x => ?_⟩
    simp only
    rw [or_iff_right]
    omega
  | some i =>
    obtain ⟨hstart, hstop⟩ := mem_intersect hi
    have hle := i.le
    simp only
    split_ifs with hempty
    · have heq := of_decide_eq_true hempty
      refine ⟨hnormal, fun p hp => Or.inl hp, fun x => ?_⟩
      rw [or_iff_right]
      omega
    · have hne : i.startLineNumber ≠ i.endLineNumberExclusive := fun heq => hempty (decide_eq_true heq)
      refine ⟨Normal.cons_iff.mpr ⟨by omega, fun p hp => ?_, hnormal⟩, fun p hp => ?_,
        fun x => ?_⟩
      · rw [hstop]
        exact hbehind p hp
      · rcases mem_cons.mp hp with rfl | hp
        · exact Or.inr hstart
        · exact Or.inl hp
      · rw [mem_lines_cons]
        refine or_congr_left ?_
        omega

structure Common (ranges1 ranges2 pieces : List LineRange) : Prop where
  normal : Normal pieces
  starts : ∀ p ∈ pieces, (∃ r ∈ ranges1, r.startLineNumber ≤ p.startLineNumber) ∧
    ∃ r ∈ ranges2, r.startLineNumber ≤ p.startLineNumber
  mem : ∀ x, x ∈ lines pieces ↔ x ∈ lines ranges1 ∧ x ∈ lines ranges2

section Common

variable {r1 r2 : LineRange} {ranges1 ranges2 : List LineRange} (h1 : Normal (r1 :: ranges1))
  (h2 : Normal (r2 :: ranges2))

include h1 h2

theorem intersectionLoop_left (hlt : r1.endLineNumberExclusive < r2.endLineNumberExclusive)
    (ih : Common ranges1 (r2 :: ranges2) (intersectionLoop ranges1 (r2 :: ranges2))) :
    Common (r1 :: ranges1) (r2 :: ranges2) (intersectionLoop (r1 :: ranges1) (r2 :: ranges2)) := by
  obtain ⟨-, hafter1, -⟩ := Normal.cons_iff.mp h1
  obtain ⟨-, hafter2, -⟩ := Normal.cons_iff.mp h2
  obtain ⟨hnormal, hstarts, hlines⟩ := ih
  rw [intersectionLoop, if_pos hlt]
  obtain ⟨hpushed, hpieces, hmem⟩ := @pushIntersection_spec r1 r2 _ hnormal fun p hp => by
    obtain ⟨⟨r, hr, hle⟩, -⟩ := hstarts p hp
    have := hafter1 r hr
    omega
  refine ⟨hpushed, fun p hp => ?_, fun x => ?_⟩
  · rcases hpieces p hp with hp | hp
    · obtain ⟨⟨r, hr, hle⟩, hsecond⟩ := hstarts p hp
      exact ⟨⟨r, mem_cons_of_mem _ hr, hle⟩, hsecond⟩
    · exact ⟨⟨r1, mem_cons_self, by omega⟩, r2, mem_cons_self, by omega⟩
  · have hgap : x ∈ lines ranges2 → r2.endLineNumberExclusive < x := by
      rintro ⟨r, hr, hx, -⟩
      exact (hafter2 r hr).trans_le hx
    rw [hmem, hlines, mem_lines_cons, mem_lines_cons, or_and_right]
    refine or_congr_left (and_congr_right fun hx => (or_iff_left fun hin => ?_).symm)
    have := hgap hin
    omega

theorem intersectionLoop_right (hge : ¬r1.endLineNumberExclusive < r2.endLineNumberExclusive)
    (ih : Common (r1 :: ranges1) ranges2 (intersectionLoop (r1 :: ranges1) ranges2)) :
    Common (r1 :: ranges1) (r2 :: ranges2) (intersectionLoop (r1 :: ranges1) (r2 :: ranges2)) := by
  obtain ⟨-, hafter1, -⟩ := Normal.cons_iff.mp h1
  obtain ⟨-, hafter2, -⟩ := Normal.cons_iff.mp h2
  obtain ⟨hnormal, hstarts, hlines⟩ := ih
  rw [intersectionLoop, if_neg hge]
  obtain ⟨hpushed, hpieces, hmem⟩ := @pushIntersection_spec r1 r2 _ hnormal fun p hp => by
    obtain ⟨-, r, hr, hle⟩ := hstarts p hp
    have := hafter2 r hr
    omega
  refine ⟨hpushed, fun p hp => ?_, fun x => ?_⟩
  · rcases hpieces p hp with hp | hp
    · obtain ⟨hfirst, r, hr, hle⟩ := hstarts p hp
      exact ⟨hfirst, r, mem_cons_of_mem _ hr, hle⟩
    · exact ⟨⟨r1, mem_cons_self, by omega⟩, r2, mem_cons_self, by omega⟩
  · have hgap : x ∈ lines ranges1 → r1.endLineNumberExclusive < x := by
      rintro ⟨r, hr, hx, -⟩
      exact (hafter1 r hr).trans_le hx
    rw [hmem, hlines, mem_lines_cons, mem_lines_cons, and_or_left]
    refine or_congr_left (and_congr_left fun hx => (or_iff_left fun hin => ?_).symm)
    have := hgap hin
    omega

end Common

theorem intersectionLoop_spec (ranges1 ranges2 : List LineRange) (h1 : Normal ranges1)
    (h2 : Normal ranges2) : Common ranges1 ranges2 (intersectionLoop ranges1 ranges2) := by
  induction ranges1, ranges2 using intersectionLoop.induct with
  | case1 r1 ranges1 r2 ranges2 ih1 ih2 =>
    by_cases hlt : r1.endLineNumberExclusive < r2.endLineNumberExclusive
    · exact intersectionLoop_left h1 h2 hlt (ih1 (Normal.cons_iff.mp h1).2.2 h2)
    · exact intersectionLoop_right h1 h2 hlt (ih2 h1 (Normal.cons_iff.mp h2).2.2)
  | case2 ranges1 ranges2 hnot =>
    have hnil : intersectionLoop ranges1 ranges2 = [] ∧
        ∀ x, ¬(x ∈ lines ranges1 ∧ x ∈ lines ranges2) := by
      cases ranges1 with
      | nil => exact ⟨by rw [intersectionLoop]; exact hnot, fun x hx => by simp [lines] at hx⟩
      | cons r1 ranges1 =>
        cases ranges2 with
        | nil => exact ⟨by rw [intersectionLoop]; exact hnot, fun x hx => by simp [lines] at hx⟩
        | cons r2 ranges2 => exact absurd rfl (hnot r1 ranges1 r2 ranges2 rfl)
    rw [hnil.1]
    refine ⟨Normal.nil, fun p hp => absurd hp not_mem_nil, fun x => ?_⟩
    rw [lines_nil]
    exact iff_of_false (Set.notMem_empty x) (hnil.2 x)

theorem getWithDelta_spec (h : Normal s.normalizedRanges) (value : Int) :
    Normal (s.getWithDelta value).normalizedRanges ∧
      ∀ x, x ∈ lines (s.getWithDelta value).normalizedRanges ↔
        x - value ∈ lines s.normalizedRanges := by
  refine ⟨⟨fun r' hr' => ?_, ?_⟩, fun x => ?_⟩
  · obtain ⟨r, hr, rfl⟩ := mem_map.mp hr'
    have := h.nonempty r hr
    simp only [LineRange.delta]
    omega
  · refine pairwise_map.mpr (h.sorted.imp fun {r r'} hlt => ?_)
    simp only [LineRange.delta]
    omega
  · simp only [mem_lines, getWithDelta, mem_map, exists_exists_and_eq_and, LineRange.delta]
    refine exists_congr fun r => and_congr_right fun _ => ?_
    omega

theorem lt_of_isEmpty (h : range.isEmpty = false) :
    range.startLineNumber < range.endLineNumberExclusive :=
  lt_of_le_of_ne range.le (of_decide_eq_false h)

theorem Built.normal (h : Built s) : Normal s.normalizedRanges := by
  induction h with
  | new => exact Normal.nil
  | addRange range _ hne ih => exact ih.addRange (lt_of_isEmpty hne)
  | getUnion _ _ ih ih' => exact (getUnion_spec ih ih').1
  | subtractFrom range _ hne ih => exact (subtractFrom_spec ih (lt_of_isEmpty hne)).1
  | getIntersection _ _ ih ih' => exact (intersectionLoop_spec _ _ ih ih').normal
  | getWithDelta value _ ih => exact (getWithDelta_spec ih value).1

/-- The sets that the operations build are in normal form, and the operations are those of the
sets of lines. -/
theorem built_denotes (h : Built s) (hother : Built other) (hne : range.isEmpty = false)
    (value : Int) :
    Normal s.normalizedRanges ∧
    lines (s.addRange range).normalizedRanges = lines s.normalizedRanges ∪ lines [range] ∧
    lines (s.getUnion other).normalizedRanges = lines s.normalizedRanges ∪ lines other.normalizedRanges ∧
    lines (s.subtractFrom range).normalizedRanges = lines [range] \ lines s.normalizedRanges ∧
    lines (s.getIntersection other).normalizedRanges = lines s.normalizedRanges ∩ lines other.normalizedRanges ∧
    lines (s.getWithDelta value).normalizedRanges = (fun x => x + value) '' lines s.normalizedRanges ∧
    (∀ x, s.contains x = true ↔ x ∈ lines s.normalizedRanges) ∧
    (s.intersects range = true ↔ ¬Disjoint (lines s.normalizedRanges) (lines [range])) := by
  have hlt := lt_of_isEmpty hne
  have hone (x : Int) : x ∈ lines [range] ↔
      range.startLineNumber ≤ x ∧ x < range.endLineNumberExclusive := by
    rw [mem_lines_cons, lines_nil]
    simp
  refine ⟨h.normal, ?_, ?_, ?_, ?_, ?_, fun x => contains_iff h.normal, ?_⟩
  · ext x
    rw [mem_addRange h.normal hlt, Set.mem_union, hone]
  · ext x
    rw [(getUnion_spec h.normal hother.normal).2, Set.mem_union]
  · ext x
    rw [(subtractFrom_spec h.normal hlt).2, Set.mem_sdiff, hone]
  · ext x
    rw [getIntersection, (intersectionLoop_spec _ _ h.normal hother.normal).mem, Set.mem_inter_iff]
  · ext x
    rw [(getWithDelta_spec h.normal value).2, Set.mem_image]
    constructor
    · exact fun hx => ⟨x - value, hx, by omega⟩
    · rintro ⟨y, hy, rfl⟩
      rwa [Int.add_sub_cancel]
  · rw [intersects_iff h.normal, Set.not_disjoint_iff]
    constructor
    · rintro ⟨r, hr, hboth⟩
      obtain ⟨x, hx, hxr⟩ := (exists_mem_both_iff (h.normal.nonempty r hr) hlt).mpr hboth
      exact ⟨x, ⟨r, hr, hxr⟩, (hone x).mpr hx⟩
    · rintro ⟨x, ⟨r, hr, hxr⟩, hx⟩
      exact ⟨r, hr, (exists_mem_both_iff (h.normal.nonempty r hr) hlt).mp ⟨x, (hone x).mp hx, hxr⟩⟩

/-- Two sets that touch. -/
theorem built_denotes_touching :
    Normal (new.addRange ⟨1, 3, by decide⟩).normalizedRanges ∧
    lines ((new.addRange ⟨1, 3, by decide⟩).getUnion
        (new.addRange ⟨3, 5, by decide⟩)).normalizedRanges =
      lines (new.addRange ⟨1, 3, by decide⟩).normalizedRanges ∪
        lines (new.addRange ⟨3, 5, by decide⟩).normalizedRanges := by
  obtain ⟨hnormal, -, hunion, -⟩ := @built_denotes (new.addRange ⟨1, 3, by decide⟩)
    (new.addRange ⟨3, 5, by decide⟩) ⟨2, 4, by decide⟩ (.addRange _ .new rfl)
    (.addRange _ .new rfl) rfl 1
  exact ⟨hnormal, hunion⟩

end LineRangeSet

end Gavea.Core
