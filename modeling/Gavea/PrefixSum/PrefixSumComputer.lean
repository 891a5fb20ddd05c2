import Gavea.Lib.Js
import Gavea.Lib.PrefixSums

namespace Gavea.PrefixSum

open Lib.Js List

def toInt32 (v : Int) : Int := v.bmod 4294967296

def toUint32 (v : Int) : Int :=
  if v < 0 then 0
  else if v > 4294967295 then 4294967295
  else toInt32 v

/-- What a `Uint32Array` holds after a number has been written to it. -/
def toElement (v : Int) : UInt32 := .ofNat (v % 4294967296).toNat

/-- A read outside of a typed array gives `undefined`. -/
def readAt (a : List UInt32) (index : Int) : Option UInt32 := if index < 0 then none else a[index.toNat]?

/-- A write outside of a typed array is ignored. -/
def writeAt (a : List UInt32) (index : Int) (v : UInt32) : List UInt32 := if index < 0 then a else a.set index.toNat v

def setAll (a source : List UInt32) (offset : Int) : Option (List UInt32) :=
  if offset < 0 ∨ source.length + offset > a.length then none
  else some (a.take offset.toNat ++ source ++ a.drop (offset.toNat + source.length))

/-- The sum of two elements as an element; `NaN` is stored as 0. -/
def addElements : Option UInt32 → Option UInt32 → UInt32
  | some a, some b => a + b
  | _, _ => 0

/-- prefixSumValidIndex is the element of the `Int32Array` of that name. -/
structure PrefixSumComputer where
  values : List UInt32
  prefixSum : List UInt32
  prefixSumValidIndex : Int

/-- The index and the remainder; none where the remainder is `NaN`. -/
structure PrefixSumIndexOfResult where
  index : Int
  remainder : Option Int
  deriving DecidableEq

namespace PrefixSumComputer

def new (values : List UInt32) : PrefixSumComputer := ⟨values, List.replicate values.length 0, -1⟩

def keepPrefixSums (values oldPrefixSum : List UInt32) (prefixSumValidIndex : Int) :
    Option PrefixSumComputer := do
  let zeros := List.replicate values.length 0
  let prefixSum ←
    if prefixSumValidIndex ≥ 0 then
      setAll zeros (slice oldPrefixSum 0 (prefixSumValidIndex + 1)) 0
    else some zeros
  return ⟨values, prefixSum, prefixSumValidIndex⟩

def lowerValidIndex (c : PrefixSumComputer) (index : Int) : Int :=
  if index - 1 < c.prefixSumValidIndex then toInt32 (index - 1) else c.prefixSumValidIndex

def insertValues (c : PrefixSumComputer) (insertIndex : Int) (insertValues : List UInt32) :
    Option (Bool × PrefixSumComputer) :=
  let insertIndex := toUint32 insertIndex
  if insertValues.length = 0 then some (false, c)
  else do
    let values := List.replicate (c.values.length + insertValues.length) 0
    let values ← setAll values (slice c.values 0 insertIndex) 0
    let values ← setAll values (sliceFrom c.values insertIndex) (insertIndex + insertValues.length)
    let values ← setAll values insertValues insertIndex
    let c ← keepPrefixSums values c.prefixSum (c.lowerValidIndex insertIndex)
    return (true, c)

def setValue (c : PrefixSumComputer) (index value : Int) : Bool × PrefixSumComputer :=
  let index := toUint32 index
  let value := toUint32 value
  if (readAt c.values index).any fun v => (v.toNat : Int) == value then (false, c)
  else
    (true, { c with
      values := writeAt c.values index (toElement value)
      prefixSumValidIndex := c.lowerValidIndex index })

def removeValues (c : PrefixSumComputer) (startIndex count : Int) :
    Option (Bool × PrefixSumComputer) :=
  let startIndex := toUint32 startIndex
  let count := toUint32 count
  if startIndex ≥ c.values.length then some (false, c)
  else
    let maxCount := c.values.length - startIndex
    let count := if count ≥ maxCount then maxCount else count
    if count = 0 then some (false, c)
    else do
      let values := List.replicate (c.values.length - count).toNat 0
      let values ← setAll values (slice c.values 0 startIndex) 0
      let values ← setAll values (sliceFrom c.values (startIndex + count)) startIndex
      let c ← keepPrefixSums values c.prefixSum (c.lowerValidIndex startIndex)
      return (true, c)

def sumLoop (values : List UInt32) : (n : Nat) → (i : Int) → List UInt32 → List UInt32
  | 0, _, prefixSum => prefixSum
  | n + 1, i, prefixSum =>
    sumLoop values n (i + 1) (writeAt prefixSum i (addElements (readAt prefixSum (i - 1)) (readAt values i)))

def loopStart (c : PrefixSumComputer) : List UInt32 × Int :=
  let startIndex := c.prefixSumValidIndex + 1
  if startIndex = 0 then (writeAt c.prefixSum 0 ((readAt c.values 0).getD 0), startIndex + 1)
  else (c.prefixSum, startIndex)

def prefixSumUpTo (c : PrefixSumComputer) (index : Int) : Option UInt32 × PrefixSumComputer :=
  if index ≤ c.prefixSumValidIndex then (readAt c.prefixSum index, c)
  else
    let index := if index ≥ c.values.length then (c.values.length : Int) - 1 else index
    let prefixSum := sumLoop c.values (index + 1 - c.loopStart.2).toNat c.loopStart.2 c.loopStart.1
    (readAt prefixSum index, ⟨c.values, prefixSum, toInt32 (max c.prefixSumValidIndex index)⟩)

def getTotalSum (c : PrefixSumComputer) : Option UInt32 × PrefixSumComputer :=
  if c.values.length = 0 then (some 0, c) else c.prefixSumUpTo (c.values.length - 1)

def getPrefixSum (c : PrefixSumComputer) (index : Int) : Option UInt32 × PrefixSumComputer :=
  if index < 0 then (some 0, c) else c.prefixSumUpTo (toUint32 index)

/-- The loop of `getIndexOf`; none when it goes on for longer than there are values. -/
def searchLoop (c : PrefixSumComputer) (sum : Int) :
    (fuel : Nat) → (low high mid : Int) → (midStart : Option Int) → Option PrefixSumIndexOfResult
  | fuel, low, high, mid, midStart =>
    if low ≤ high then
      match fuel with
      | 0 => none
      | fuel + 1 =>
        let mid := toInt32 ((low + high) / 2)
        match readAt c.prefixSum mid, readAt c.values mid with
        | some midStop, some value =>
          let midStart : Int := midStop.toNat - value.toNat
          if sum < midStart then searchLoop c sum fuel low (mid - 1) mid (some midStart)
          else if sum ≥ midStop.toNat then
            searchLoop c sum fuel (mid + 1) high mid (some midStart)
          else some ⟨mid, some (sum - midStart)⟩
        -- every comparison with `undefined` is false
        | _, _ => some ⟨mid, none⟩
    else some ⟨mid, midStart.map (sum - ·)⟩

def getIndexOf (c : PrefixSumComputer) (sum : Int) :
    Option (PrefixSumIndexOfResult × PrefixSumComputer) := do
  let c := c.getTotalSum.2
  let result ← c.searchLoop sum (c.values.length + 1) 0 (c.values.length - 1) 0 (some 0)
  return (result, c)

end PrefixSumComputer

open Lib.PrefixSums

theorem toInt32_of_lt {v : Int} (hle : -2147483648 ≤ v) (hlt : v < 2147483648) : toInt32 v = v :=
  Int.bmod_eq_of_le (by omega) (by omega)

theorem toUint32_of_lt {v : Int} (h0 : 0 ≤ v) (hlt : v < 2147483648) : toUint32 v = v := by
  rw [toUint32, if_neg (by omega), if_neg (by omega), toInt32_of_lt (by omega) hlt]

theorem toUint32_lt {v : Int} (hle : 2147483648 ≤ v) (hlt : v < 4294967296) : toUint32 v = v - 4294967296 := by
  rw [toUint32, if_neg (by omega), if_neg (by omega), toInt32, Int.bmod_def]
  have hmod : v % 4294967296 = v := Int.emod_eq_of_lt (by omega) hlt
  simp only [Nat.cast_ofNat, hmod]
  rw [if_neg (by omega)]

theorem toElement_toUint32 {v : Nat} (h : v < 4294967296) : toElement (toUint32 v) = .ofNat v := by
  rw [toElement]
  rcases Nat.lt_or_ge v 2147483648 with hlt | hge
  · rw [toUint32_of_lt (by omega) (by omega), Int.emod_eq_of_lt (by omega) (by omega), Int.toNat_natCast]
  · have hmod : ((v : Int) - 4294967296) % 4294967296 = v := by omega
    rw [toUint32_lt (by omega) (by omega), hmod, Int.toNat_natCast]

theorem readAt_natCast (a : List UInt32) (i : Nat) : readAt a i = a[i]? := by
  rw [readAt, if_neg (by omega), Int.toNat_natCast]

theorem writeAt_natCast (a : List UInt32) (i : Nat) (v : UInt32) : writeAt a i v = a.set i v := by
  rw [writeAt, if_neg (by omega), Int.toNat_natCast]

theorem setAll_append (x y z source : List UInt32) {offset : Int} (hx : offset = x.length)
    (hy : y.length = source.length) : setAll (x ++ (y ++ z)) source offset =
      some (x ++ (source ++ z)) := by
  have hdrop : x.length + source.length = x.length + y.length := by rw [hy]
  rw [setAll, if_neg (by simp only [length_append]; omega), hx, Int.toNat_natCast, take_left,
    hdrop, ← drop_drop, drop_left, drop_left, append_assoc]

def elements (values : List Nat) : List UInt32 := values.map .ofNat

theorem length_elements (values : List Nat) : (elements values).length = values.length := length_map ..

theorem getElem?_elements {values : List Nat} {i : Nat} (h : i < values.length) :
    (elements values)[i]? = some (.ofNat values[i]) := by
  rw [elements, getElem?_map, getElem?_eq_getElem h, Option.map_some]

def Summed (values : List Nat) (n : Nat) (prefixSum : List UInt32) : Prop :=
  ∀ i < n, prefixSum[i]? = some (.ofNat (sumOf values (i + 1)))

namespace PrefixSumComputer

structure Represents (c : PrefixSumComputer) (values : List Nat) : Prop where
  values_eq : c.values = elements values
  length_prefixSum : c.prefixSum.length = values.length
  le : -1 ≤ c.prefixSumValidIndex
  lt : c.prefixSumValidIndex < values.length
  summed : Summed values (c.prefixSumValidIndex + 1).toNat c.prefixSum

variable {c : PrefixSumComputer} {values values' : List Nat}

theorem represents_new (values : List Nat) : Represents (new (elements values)) values :=
  ⟨rfl, by simp [new, length_elements], le_rfl, by simp only [new]; omega, fun _ hi => absurd hi (by simp [new])⟩

theorem Represents.length_values (h : Represents c values) : c.values.length = values.length := by
  rw [h.values_eq, length_elements]

theorem sumLoop_summed (n i : Nat) {prefixSum : List UInt32} (hpos : 0 < i)
    (hle : i + n ≤ values.length) (hlength : prefixSum.length = values.length)
    (h : Summed values i prefixSum) :
    (sumLoop (elements values) n i prefixSum).length = values.length ∧
      Summed values (i + n) (sumLoop (elements values) n i prefixSum) := by
  induction n generalizing i prefixSum with
  | zero => exact ⟨hlength, h⟩
  | succ n ih =>
    have hlt : i < values.length := by omega
    have hbefore : ((i : Int) - 1) = ((i - 1 : Nat) : Int) := by omega
    have hsum := h (i - 1) (by omega)
    rw [Nat.sub_add_cancel hpos] at hsum
    have hnext : (i : Int) + 1 = ((i + 1 : Nat) : Int) := by push_cast; rfl
    have hassoc : i + (n + 1) = i + 1 + n := by omega
    rw [sumLoop, hbefore, readAt_natCast, readAt_natCast, hsum, getElem?_elements hlt,
      addElements, writeAt_natCast, ← UInt32.ofNat_add, ← sumOf_succ hlt, hnext, hassoc]
    refine ih (i + 1) (by omega) (by omega) (by rw [length_set, hlength]) fun j hj => ?_
    rcases Nat.lt_succ_iff_lt_or_eq.mp hj with hj | rfl
    · rw [getElem?_set_ne (by omega)]
      exact h j hj
    · rw [getElem?_set_self (by omega)]

theorem loopStart_spec (h : Represents c values) (hpos : 0 < values.length) : ∃ n : Nat,
    c.loopStart.2 = n ∧ 0 < n ∧ n ≤ max (c.prefixSumValidIndex + 1) 1 ∧
      c.loopStart.1.length = values.length ∧ Summed values n c.loopStart.1 := by
  obtain ⟨hvalues, hlength, hle, hvalid, hsummed⟩ := h
  rw [loopStart]
  by_cases hzero : c.prefixSumValidIndex + 1 = 0
  · have hread := readAt_natCast c.values 0
    have hwrite := writeAt_natCast c.prefixSum 0 (.ofNat values[0])
    rw [hvalues, getElem?_elements hpos] at hread
    rw [Nat.cast_zero] at hread hwrite
    rw [if_pos hzero, hzero, hvalues, hread, Option.getD_some, hwrite]
    refine ⟨1, rfl, by omega, by omega, by rw [length_set, hlength], fun i hi => ?_⟩
    obtain rfl : i = 0 := by omega
    rw [getElem?_set_self (by omega), sumOf_succ hpos, sumOf_zero, Nat.zero_add]
  · rw [if_neg hzero]
    exact ⟨(c.prefixSumValidIndex + 1).toNat, by simp only; omega, by omega, by omega, hlength, hsummed⟩

theorem prefixSumUpTo_spec (h : Represents c values) {index : Nat} (hindex : index < values.length)
    (hlt : index < 2147483648) :
    (c.prefixSumUpTo index).1 = some (.ofNat (sumOf values (index + 1))) ∧
      Represents (c.prefixSumUpTo index).2 values ∧
      index ≤ (c.prefixSumUpTo index).2.prefixSumValidIndex := by
  have hle := h.le
  rw [prefixSumUpTo]
  by_cases hknown : (index : Int) ≤ c.prefixSumValidIndex
  · rw [if_pos hknown]
    refine ⟨?_, h, hknown⟩
    rw [readAt_natCast]
    exact h.summed index (by omega)
  · obtain ⟨n, hstart, hpos, hn, hlengthStart, hsummedStart⟩ := loopStart_spec h (by omega)
    have hcount : ((index : Int) + 1 - (n : Nat)).toNat = index + 1 - n := by omega
    obtain ⟨hlengthLoop, hsummedLoop⟩ := sumLoop_summed (index + 1 - n) n hpos (by omega) hlengthStart hsummedStart
    have hend : n + (index + 1 - n) = index + 1 := by omega
    have hmax : toInt32 (max c.prefixSumValidIndex index) = index := by
      rw [max_eq_right (by omega), toInt32_of_lt (by omega) (by omega)]
    have hclamp : ¬(index : Int) ≥ values.length := by omega
    rw [hend] at hsummedLoop
    rw [if_neg hknown, h.length_values]
    simp only [if_neg hclamp, hstart, hcount, h.values_eq, hmax, readAt_natCast]
    refine ⟨hsummedLoop index (by omega), ⟨rfl, hlengthLoop, ?_, ?_, ?_⟩, le_rfl⟩
    · simp only
      omega
    · exact Int.ofNat_lt.mpr hindex
    · simpa using hsummedLoop

theorem getTotalSum_spec (h : Represents c values) (hlength : values.length ≤ 2147483648) :
    c.getTotalSum.1 = some (.ofNat values.sum) ∧ Represents c.getTotalSum.2 values ∧
      Summed values values.length c.getTotalSum.2.prefixSum := by
  rw [getTotalSum, h.length_values]
  split_ifs with hzero
  · rw [length_eq_zero_iff.mp hzero] at h ⊢
    exact ⟨rfl, h, fun i hi => by cases hi⟩
  · have hlast : (values.length : Int) - 1 = ((values.length - 1 : Nat) : Int) := by omega
    have hpos : values.length - 1 + 1 = values.length := by omega
    obtain ⟨hsum, hrepresents, hvalid⟩ := @prefixSumUpTo_spec c values h (values.length - 1) (by omega) (by omega)
    rw [hlast]
    rw [hpos, sumOf_of_length_le le_rfl] at hsum
    refine ⟨hsum, hrepresents, fun i hi => hrepresents.summed i (by omega)⟩

theorem getPrefixSum_spec (h : Represents c values) {count : Nat} (hcount : count ≤ values.length)
    (hlt : count ≤ 2147483648) :
    (c.getPrefixSum (count - 1)).1 = some (.ofNat (sumOf values count)) ∧
      Represents (c.getPrefixSum (count - 1)).2 values := by
  rw [getPrefixSum]
  cases count with
  | zero => exact ⟨rfl, h⟩
  | succ index =>
    have hindex : ((index + 1 : Nat) : Int) - 1 = index := by push_cast; ring
    rw [hindex, if_neg (by omega), toUint32_of_lt (by omega) (by omega)]
    obtain ⟨hsum, hrepresents, -⟩ := @prefixSumUpTo_spec c values h index (by omega) (by omega)
    exact ⟨hsum, hrepresents⟩

theorem toNat_ofNat_sumOf {n : Nat} (htotal : values.sum < 4294967296) :
    (UInt32.ofNat (sumOf values n)).toNat = sumOf values n :=
  UInt32.toNat_ofNat_of_lt' ((sumOf_le_sum values n).trans_lt htotal)

theorem getElem_le_sum {i : Nat} (h : i < values.length) : values[i] ≤ values.sum := by
  have hsum := sumOf_le_sum values (i + 1)
  rw [sumOf_succ h] at hsum
  omega

theorem searchLoop_done {sum : Nat} (fuel : Nat) {low : Nat} {mid midStart : Int}
    (hlow : sumOf values low ≤ sum) (hend : sum < sumOf values low ∨ low = values.length ∧
      mid = ((low - 1 : Nat) : Int) ∧ midStart = sumOf values (low - 1)) :
    c.searchLoop sum fuel low ((low : Int) - 1) mid (some midStart) =
      some ⟨(locate values sum).1, some (locate values sum).2⟩ := by
  obtain hlt | ⟨rfl, rfl, rfl⟩ := hend
  · omega
  · rw [sumOf_of_length_le le_rfl] at hlow
    have hcast : ((sum - sumOf values (values.length - 1) : Nat) : Int) =
        sum - sumOf values (values.length - 1) :=
      Nat.cast_sub ((sumOf_le_sum values _).trans hlow)
    cases fuel <;> rw [searchLoop, if_neg (by omega), locate_eq_of_ge hlow, Option.map_some, hcast]

theorem searchLoop_spec {sum : Nat} (hvalues : c.values = elements values)
    (hsummed : Summed values values.length c.prefixSum) (htotal : values.sum < 4294967296)
    (hlength : values.length ≤ 2147483648) (fuel : Nat) {low top : Nat} {mid midStart : Int}
    (hle : low ≤ top) (htop : top ≤ values.length) (hfuel : top ≤ low + fuel)
    (hlow : sumOf values low ≤ sum)
    (hend : sum < sumOf values top ∨ top = values.length ∧ mid = ((low - 1 : Nat) : Int) ∧
      midStart = sumOf values (low - 1)) :
    c.searchLoop sum fuel low ((top : Int) - 1) mid (some midStart) =
      some ⟨(locate values sum).1, some (locate values sum).2⟩ := by
  induction fuel generalizing low top mid midStart with
  | zero =>
    obtain rfl : low = top := by omega
    exact searchLoop_done 0 hlow hend
  | succ fuel ih =>
    by_cases hdone : low = top
    · subst hdone
      exact searchLoop_done (fuel + 1) hlow hend
    · obtain ⟨m, hm⟩ : ∃ m : Nat, ((low : Int) + (top - 1)) / 2 = m := ⟨(((low : Int) + (top - 1)) / 2).toNat, by omega⟩
      have hlt : m < values.length := by omega
      have hmid : toInt32 (((low : Int) + (top - 1)) / 2) = m := by
        rw [hm, toInt32_of_lt (by omega) (by omega)]
      have hsum : c.prefixSum[m]? = some (.ofNat (sumOf values (m + 1))) := hsummed m hlt
      have hvalue := getElem?_elements hlt
      have hstart : ((UInt32.ofNat (sumOf values (m + 1))).toNat : Int) -
          (UInt32.ofNat values[m]).toNat = sumOf values m := by
        rw [toNat_ofNat_sumOf htotal, UInt32.toNat_ofNat_of_lt' ((getElem_le_sum hlt).trans_lt htotal), sumOf_succ hlt]
        push_cast
        ring
      rw [searchLoop, if_pos (by omega)]
      simp only [hmid, readAt_natCast, hsum, hvalues, hvalue, hstart]
      rw [toNat_ofNat_sumOf htotal]
      split_ifs with hbefore hbehind
      · exact ih (by omega) (by omega) (by omega) hlow (.inl (by omega))
      · have hnext : (m : Int) + 1 = ((m + 1 : Nat) : Int) := by push_cast; rfl
        rw [hnext]
        refine ih (by omega) htop (by omega) (by omega) ?_
        obtain hlt' | ⟨rfl, -, -⟩ := hend
        · exact .inl hlt'
        · exact .inr ⟨rfl, rfl, rfl⟩
      · rw [locate_eq_of_lt hlt (by omega) (by omega), Nat.cast_sub (by omega)]

theorem getIndexOf_spec (h : Represents c values) (htotal : values.sum < 4294967296)
    (hlength : values.length ≤ 2147483648) (sum : Nat) :
    ∃ c', c.getIndexOf sum = some (⟨(locate values sum).1, some (locate values sum).2⟩, c') ∧
      Represents c' values := by
  obtain ⟨-, hrepresents, hsummed⟩ := getTotalSum_spec h hlength
  have hsearch := @searchLoop_spec _ values sum hrepresents.values_eq hsummed htotal hlength
    (values.length + 1) 0 _ _ _ (Nat.zero_le values.length) le_rfl (by omega) (Nat.zero_le _)
    (.inr ⟨rfl, rfl, rfl⟩)
  refine ⟨c.getTotalSum.2, ?_, hrepresents⟩
  rw [getIndexOf, hrepresents.length_values]
  simp only [zero_tsub, sumOf_zero, Nat.cast_zero] at hsearch
  simp only [hsearch, Option.bind_eq_bind, Option.bind_some, Option.pure_def]

end PrefixSumComputer

open Lib Lib.Js Lib.PrefixSums List

structure ConstantTimePrefixSumComputer where
  values : List Nat
  isValid : Bool
  validEndIndex : Int
  prefixSum : SparseArray Nat
  indexBySum : SparseArray Nat

namespace ConstantTimePrefixSumComputer

def new (values : List Nat) : ConstantTimePrefixSumComputer := ⟨values, false, -1, .empty, .empty⟩

def indexLoop (i sumAbove : Nat) : (n : Nat) → (j : Nat) → SparseArray Nat → SparseArray Nat
  | 0, _, indexBySum => indexBySum
  | n + 1, j, indexBySum => indexLoop i sumAbove n (j + 1) (indexBySum.set (sumAbove + j) i)

def validLoop (values : List Nat) :
    (n : Nat) → (i : Nat) → SparseArray Nat × SparseArray Nat → SparseArray Nat × SparseArray Nat
  | 0, _, arrays => arrays
  | n + 1, i, (prefixSum, indexBySum) =>
    let value := values.getD i 0
    let sumAbove := if i > 0 then (prefixSum.get (i - 1)).getD 0 else 0
    validLoop values n (i + 1) (prefixSum.set i (sumAbove + value), indexLoop i sumAbove value 0 indexBySum)

def ensureValid (c : ConstantTimePrefixSumComputer) : ConstantTimePrefixSumComputer :=
  if c.isValid then c
  else
    let start := (c.validEndIndex + 1).toNat
    let arrays := validLoop c.values (c.values.length - start) start (c.prefixSum, c.indexBySum)
    -- trim things
    let prefixSum := arrays.1.setLength c.values.length
    let indexBySum := arrays.2.setLength
      (if c.values.length > 0 then (prefixSum.get (c.values.length - 1)).getD 0 else 0)
    ⟨c.values, true, c.values.length - 1, prefixSum, indexBySum⟩

def getTotalSum (c : ConstantTimePrefixSumComputer) : Nat × ConstantTimePrefixSumComputer :=
  (c.ensureValid.indexBySum.length, c.ensureValid)

def getPrefixSum (c : ConstantTimePrefixSumComputer) (count : Nat) :
    Option Nat × ConstantTimePrefixSumComputer :=
  (if count = 0 then some 0 else c.ensureValid.prefixSum.get (count - 1), c.ensureValid)

def getIndexOf (c : ConstantTimePrefixSumComputer) (sum : Nat) :
    PrefixSumIndexOfResult × ConstantTimePrefixSumComputer :=
  let c := c.ensureValid
  let remainder (sumAbove : Option Nat) : Option Int :=
    sumAbove.map fun above : Nat => (sum : Int) - (above : Int)
  match c.indexBySum.get sum with
  | none =>
    let lastIdx := c.values.length - 1
    let lastPrefixSum := if lastIdx > 0 then c.prefixSum.get (lastIdx - 1) else some 0
    (⟨lastIdx, remainder lastPrefixSum⟩, c)
  | some idx =>
    let viewLinesAbove := if idx > 0 then c.prefixSum.get (idx - 1) else some 0
    (⟨idx, remainder viewLinesAbove⟩, c)

def invalidate (c : ConstantTimePrefixSumComputer) (index : Int) : ConstantTimePrefixSumComputer :=
  { c with isValid := false, validEndIndex := min c.validEndIndex (index - 1) }

def removeValues (c : ConstantTimePrefixSumComputer) (start deleteCount : Nat) :
    ConstantTimePrefixSumComputer :=
  { c with values := c.values.take start ++ c.values.drop (start + deleteCount) }.invalidate start

def insertValues (c : ConstantTimePrefixSumComputer) (insertIndex : Nat) (insertArr : List Nat) :
    ConstantTimePrefixSumComputer :=
  { c with values := c.values.take insertIndex ++ (insertArr ++ c.values.drop insertIndex) }.invalidate insertIndex

def setValue (c : ConstantTimePrefixSumComputer) (index value : Nat) :
    ConstantTimePrefixSumComputer :=
  if c.values[index]? = some value then c
  else { c with values := c.values.set index value }.invalidate index

structure Known (values : List Nat) (n : Nat) (arrays : SparseArray Nat × SparseArray Nat) :
    Prop where
  sums : ∀ i < n, arrays.1.get i = some (sumOf values (i + 1))
  indices : ∀ i < n, ∀ s, sumOf values i ≤ s → s < sumOf values (i + 1) → arrays.2.get s = some i

variable {values values' : List Nat} {arrays : SparseArray Nat × SparseArray Nat} {n : Nat}

theorem Known.congr {m : Nat} (h : Known values n arrays) (hle : m ≤ n)
    (heq : values.take m = values'.take m) : Known values' m arrays := by
  refine ⟨fun i hi => ?_, fun i hi s hle' hlt => ?_⟩
  · rw [h.sums i (by omega), sumOf_congr heq hi]
  · rw [← sumOf_congr heq hi.le] at hle'
    rw [← sumOf_congr heq hi] at hlt
    exact h.indices i (by omega) s hle' hlt

theorem get_indexLoop (i sumAbove : Nat) (n j : Nat) (indexBySum : SparseArray Nat) (s : Nat) :
    (indexLoop i sumAbove n j indexBySum).get s =
      if sumAbove + j ≤ s ∧ s < sumAbove + j + n then some i else indexBySum.get s := by
  induction n generalizing j indexBySum with
  | zero => rw [indexLoop, if_neg (by omega)]
  | succ n ih =>
    rw [indexLoop, ih]
    by_cases hs : s = sumAbove + j
    · rw [hs, if_neg (by omega), if_pos (by omega), SparseArray.get_set_self]
    · rw [SparseArray.get_set_of_ne _ _ hs]
      split_ifs <;> first | rfl | omega

theorem validLoop_known (m : Nat) (h : Known values n arrays) (hle : n + m ≤ values.length) :
    Known values (n + m) (validLoop values m n arrays) := by
  induction m generalizing n arrays with
  | zero => exact h
  | succ m ih =>
    obtain ⟨prefixSum, indexBySum⟩ := arrays
    have hlt : n < values.length := by omega
    have hvalue : values.getD n 0 = values[n] := by
      rw [getD_eq_getElem?_getD, getElem?_eq_getElem hlt, Option.getD_some]
    have habove : (if n > 0 then (prefixSum.get (n - 1)).getD 0 else 0) = sumOf values n := by
      split_ifs with hn
      · have hsum := h.sums (n - 1) (by omega)
        rw [Nat.sub_add_cancel hn] at hsum
        rw [hsum, Option.getD_some]
      · rw [Nat.eq_zero_of_not_pos hn, sumOf_zero]
    have hassoc : n + (m + 1) = n + 1 + m := by omega
    simp only [validLoop, habove, hvalue]
    rw [hassoc]
    refine ih ⟨fun i hi => ?_, fun i hi s hs hs' => ?_⟩ (by omega)
    · rcases Nat.lt_succ_iff_lt_or_eq.mp hi with hi | rfl
      · rw [SparseArray.get_set_of_ne _ _ (by omega)]
        exact h.sums i hi
      · rw [SparseArray.get_set_self, sumOf_succ hlt]
    · rw [get_indexLoop, add_zero, ← sumOf_succ hlt]
      rcases Nat.lt_succ_iff_lt_or_eq.mp hi with hi | rfl
      · have hmono : sumOf values (i + 1) ≤ sumOf values n := sumOf_mono hi
        rw [if_neg (by omega)]
        exact h.indices i hi s hs hs'
      · rw [if_pos ⟨hs, hs'⟩]

structure Represents (c : ConstantTimePrefixSumComputer) (values : List Nat) : Prop where
  values_eq : c.values = values
  le : -1 ≤ c.validEndIndex
  lt : c.validEndIndex < values.length
  known : Known values (c.validEndIndex + 1).toNat (c.prefixSum, c.indexBySum)
  valid : c.isValid → c.validEndIndex = values.length - 1 ∧ c.indexBySum.length = values.sum

variable {c : ConstantTimePrefixSumComputer}

theorem represents_new (values : List Nat) : Represents (new values) values :=
  ⟨rfl, le_rfl, by simp [new]; omega, ⟨fun _ hi => absurd hi (by simp [new]),
    fun _ hi => absurd hi (by simp [new])⟩, fun h => by cases h⟩

theorem ensureValid_spec (h : Represents c values) : Represents c.ensureValid values ∧
    Known values values.length (c.ensureValid.prefixSum, c.ensureValid.indexBySum) ∧
    c.ensureValid.indexBySum.length = values.sum := by
  by_cases hvalid : c.isValid
  · rw [ensureValid, if_pos hvalid]
    obtain ⟨hend, hlength⟩ := h.valid hvalid
    have hall := h.known
    rw [hend, sub_add_cancel, Int.toNat_natCast] at hall
    exact ⟨h, hall, hlength⟩
  · rw [ensureValid, if_neg hvalid]
    have hlt := h.lt
    have hle := h.le
    have hstart : (c.validEndIndex + 1).toNat ≤ values.length := by omega
    have hknown := validLoop_known (values.length - (c.validEndIndex + 1).toNat) h.known (by omega)
    rw [Nat.add_sub_cancel' hstart] at hknown
    simp only [h.values_eq]
    generalize validLoop values _ _ _ = arrays at hknown ⊢
    have htotal : (if values.length > 0 then
        ((arrays.1.setLength values.length).get (values.length - 1)).getD 0 else 0) = values.sum := by
      split_ifs with hpos
      · have hsum := hknown.sums (values.length - 1) (by omega)
        rw [Nat.sub_add_cancel hpos, sumOf_of_length_le le_rfl] at hsum
        rw [SparseArray.get_setLength_of_lt _ (by omega), hsum, Option.getD_some]
      · rw [length_eq_zero_iff.mp (Nat.eq_zero_of_not_pos hpos)]
        rfl
    rw [htotal]
    have hall : Known values values.length
        (arrays.1.setLength values.length, arrays.2.setLength values.sum) := by
      refine ⟨fun i hi => ?_, fun i hi s hs hs' => ?_⟩
      · rw [SparseArray.get_setLength_of_lt _ hi]
        exact hknown.sums i hi
      · have := sumOf_le_sum values (i + 1)
        rw [SparseArray.get_setLength_of_lt _ (by omega)]
        exact hknown.indices i hi s hs hs'
    refine ⟨⟨rfl, by simp only; omega, by simp only; omega, ?_, fun _ => ⟨rfl, rfl⟩⟩, hall, rfl⟩
    simp only [sub_add_cancel, Int.toNat_natCast]
    exact hall

theorem getTotalSum_spec (h : Represents c values) :
    c.getTotalSum.1 = values.sum ∧ Represents c.getTotalSum.2 values := by
  obtain ⟨hvalid, -, hlength⟩ := ensureValid_spec h
  exact ⟨hlength, hvalid⟩

theorem Known.above (h : Known values values.length arrays) {i : Nat} (hi : i ≤ values.length) :
    (if i > 0 then arrays.1.get (i - 1) else some 0) = some (sumOf values i) := by
  split_ifs with hpos
  · rw [h.sums (i - 1) (by omega), Nat.sub_add_cancel hpos]
  · rw [Nat.eq_zero_of_not_pos hpos, sumOf_zero]

theorem getPrefixSum_spec (h : Represents c values) {count : Nat} (hcount : count ≤ values.length) :
    (c.getPrefixSum count).1 = some (sumOf values count) ∧
      Represents (c.getPrefixSum count).2 values := by
  obtain ⟨hvalid, hknown, -⟩ := ensureValid_spec h
  refine ⟨?_, hvalid⟩
  have habove := hknown.above hcount
  simp only [getPrefixSum]
  split_ifs at habove ⊢ with h0 h1 h1
  · omega
  · exact habove
  · exact habove
  · omega

theorem getIndexOf_spec (h : Represents c values) (sum : Nat) :
    (c.getIndexOf sum).1 = ⟨(locate values sum).1, some (locate values sum).2⟩ ∧
      Represents (c.getIndexOf sum).2 values := by
  obtain ⟨hvalid, hknown, hlength⟩ := ensureValid_spec h
  have hvalues := hvalid.values_eq
  simp only [getIndexOf]
  rcases Nat.lt_or_ge sum values.sum with hlt | hge
  · obtain ⟨i, hi, hle, hbelow⟩ := exists_place hlt
    have hget := hknown.indices i hi sum hle hbelow
    have habove := hknown.above hi.le
    simp only at hget habove
    rw [locate_eq_of_lt hi hle hbelow]
    simp only [hget, habove, Option.map_some]
    refine ⟨?_, hvalid⟩
    rw [Nat.cast_sub hle]
  · have hget := c.ensureValid.indexBySum.outside sum (by rw [hlength]; exact hge)
    have habove := hknown.above (Nat.sub_le values.length 1)
    have hbound := sumOf_le_sum values (values.length - 1)
    simp only at habove
    rw [locate_eq_of_ge hge]
    simp only [hget, hvalues, habove, Option.map_some]
    refine ⟨?_, hvalid⟩
    rw [Nat.cast_sub (hbound.trans hge)]

theorem Represents.invalidate {index : Nat} (h : Represents c values)
    (htake : values.take index = values'.take index) (hlength : index ≤ values'.length) :
    Represents (ConstantTimePrefixSumComputer.invalidate { c with values := values' } index) values' := by
  have hle := h.le
  have hlt := h.lt
  have hend : (min c.validEndIndex ((index : Int) - 1) + 1).toNat ≤ index := by omega
  refine ⟨rfl, ?_, ?_, ?_, fun hvalid => by cases hvalid⟩
  · simp only [ConstantTimePrefixSumComputer.invalidate]
    omega
  · simp only [ConstantTimePrefixSumComputer.invalidate]
    omega
  · refine h.known.congr (by simp only [ConstantTimePrefixSumComputer.invalidate]; omega) ?_
    have hshort := congrArg (List.take (min c.validEndIndex ((index : Int) - 1) + 1).toNat) htake
    rwa [take_take, take_take, min_eq_left hend] at hshort

theorem take_append_take (values rest : List Nat) {i : Nat} (h : i ≤ values.length) :
    (values.take i ++ rest).take i = values.take i := by
  rw [take_append_of_le_length (by rw [length_take]; omega), take_take, min_self]

theorem removeValues_spec (h : Represents c values) {start : Nat} (hstart : start ≤ values.length)
    (deleteCount : Nat) : Represents (c.removeValues start deleteCount)
      (values.take start ++ values.drop (start + deleteCount)) := by
  rw [removeValues, h.values_eq]
  refine h.invalidate (take_append_take values _ hstart).symm ?_
  rw [length_append, length_take]
  omega

theorem insertValues_spec (h : Represents c values) {insertIndex : Nat}
    (hindex : insertIndex ≤ values.length) (insertArr : List Nat) :
    Represents (c.insertValues insertIndex insertArr)
      (values.take insertIndex ++ (insertArr ++ values.drop insertIndex)) := by
  rw [insertValues, h.values_eq]
  refine h.invalidate (take_append_take values _ hindex).symm ?_
  rw [length_append, length_take]
  omega

theorem setValue_spec (h : Represents c values) {index : Nat} (hindex : index < values.length)
    (value : Nat) : Represents (c.setValue index value) (values.set index value) := by
  rw [setValue, h.values_eq]
  split_ifs with hsame
  · rw [getElem?_eq_some_iff] at hsame
    obtain ⟨-, rfl⟩ := hsame
    rwa [set_getElem_self]
  · refine h.invalidate ?_ (by rw [length_set]; omega)
    rw [take_set_of_le le_rfl]

end ConstantTimePrefixSumComputer

end Gavea.PrefixSum
