import Gavea.PrefixSum.PrefixSumComputer

namespace Gavea.PrefixSum

open Lib.Js Lib.PrefixSums List

namespace PrefixSumComputer

variable {c : PrefixSumComputer} {values values' : List Nat}

theorem setAll_zeros (source : List UInt32) {n : Nat} (h : source.length ≤ n) :
    setAll (List.replicate n 0) source 0 =
      some (source ++ List.replicate (n - source.length) 0) := by
  have hzeros : List.replicate n (0 : UInt32) =
      List.replicate source.length 0 ++ List.replicate (n - source.length) 0 := by
    rw [← replicate_add, Nat.add_sub_cancel' h]
  have hset := @setAll_append [] (List.replicate source.length 0)
    (List.replicate (n - source.length) 0) source 0 rfl (length_replicate ..)
  rw [hzeros]
  exact hset

theorem keepPrefixSums_spec (h : Represents c values) {valid : Int} (hle : -1 ≤ valid)
    (hold : valid ≤ c.prefixSumValidIndex) (hlt : valid < values'.length)
    (htake : values.take (valid + 1).toNat = values'.take (valid + 1).toNat) :
    ∃ c', keepPrefixSums (elements values') c.prefixSum valid = some c' ∧ Represents c' values' := by
  have hvalid := h.lt
  have hlength := h.length_prefixSum
  simp only [keepPrefixSums, length_elements]
  by_cases hneg : valid ≥ 0
  · have hslice : slice c.prefixSum 0 (valid + 1) = c.prefixSum.take (valid + 1).toNat := by
      rw [slice_eq _ le_rfl (by omega)]
      rfl
    have hshort : (c.prefixSum.take (valid + 1).toNat).length = (valid + 1).toNat := by
      rw [length_take]
      omega
    rw [if_pos hneg, hslice, setAll_zeros _ (by omega)]
    refine ⟨_, rfl, rfl, ?_, hle, hlt, fun i hi => ?_⟩
    · rw [length_append, length_replicate, hshort]
      omega
    · simp only at hi ⊢
      rw [getElem?_append_left (by omega), getElem?_take_of_lt hi, h.summed i (by omega), sumOf_congr htake (by omega)]
  · rw [if_neg hneg]
    exact ⟨_, rfl, rfl, length_replicate .., hle, hlt, fun i hi => by
      simp only at hi
      omega⟩

theorem lowerValidIndex_eq (c : PrefixSumComputer) {index : Nat} (hlt : index < 2147483648) :
    c.lowerValidIndex index = min c.prefixSumValidIndex (index - 1) := by
  rw [lowerValidIndex]
  split_ifs with hlower
  · rw [toInt32_of_lt (by omega) (by omega)]
    omega
  · omega

theorem keepPrefixSums_lowered (h : Represents c values) {index : Nat} (hlt : index < 2147483648)
    (hindex : index ≤ values'.length) (htake : values.take index = values'.take index) :
    ∃ c', keepPrefixSums (elements values') c.prefixSum (c.lowerValidIndex index) = some c' ∧
      Represents c' values' := by
  have hle := h.le
  rw [lowerValidIndex_eq c hlt]
  have hshort : (min c.prefixSumValidIndex ((index : Int) - 1) + 1).toNat ≤ index := by omega
  refine keepPrefixSums_spec h (by omega) (by omega) (by omega) ?_
  have hprefix := congrArg (List.take (min c.prefixSumValidIndex ((index : Int) - 1) + 1).toNat) htake
  rwa [take_take, take_take, min_eq_left hshort] at hprefix

theorem elements_append (a b : List Nat) : elements (a ++ b) = elements a ++ elements b := map_append ..

theorem elements_take (a : List Nat) (n : Nat) : elements (a.take n) = (elements a).take n := map_take ..

theorem elements_drop (a : List Nat) (n : Nat) : elements (a.drop n) = (elements a).drop n := map_drop ..

theorem insertValues_spec (h : Represents c values) {insertIndex : Nat}
    (hindex : insertIndex ≤ values.length) (hlt : insertIndex < 2147483648) (inserted : List Nat) :
    ∃ changed c', c.insertValues insertIndex (elements inserted) = some (changed, c') ∧
      Represents c' (values.take insertIndex ++ (inserted ++ values.drop insertIndex)) := by
  rw [insertValues, toUint32_of_lt (by omega) (by omega), length_elements]
  split_ifs with hempty
  · rw [length_eq_zero_iff.mp hempty, nil_append, take_append_drop]
    exact ⟨false, c, rfl, h⟩
  · have hfront : (elements (values.take insertIndex)).length = insertIndex := by
      rw [length_elements, length_take]
      omega
    have hback : (elements (values.drop insertIndex)).length = values.length - insertIndex := by
      rw [length_elements, length_drop]
    have hslice : slice (elements values) 0 insertIndex = elements (values.take insertIndex) := by
      rw [slice_eq _ le_rfl (by omega), Int.toNat_natCast, elements_take]
      rfl
    have hslice' : sliceFrom (elements values) insertIndex = elements (values.drop insertIndex) := by
      rw [sliceFrom_eq _ (by omega), Int.toNat_natCast, elements_drop]
    -- the front is there; then come the zeros for the new values, and for the back
    have hrest : values.length + inserted.length - insertIndex =
        inserted.length + (values.length - insertIndex) := by omega
    have hset1 := setAll_zeros (elements (values.take insertIndex)) (n := values.length + inserted.length) (by omega)
    have hzeros : List.replicate (inserted.length + (values.length - insertIndex)) (0 : UInt32) =
        List.replicate inserted.length 0 ++ List.replicate (values.length - insertIndex) 0 :=
      replicate_add ..
    rw [hfront, hrest, hzeros] at hset1
    have hset2 := @setAll_append (elements (values.take insertIndex) ++
        List.replicate inserted.length 0) (List.replicate (values.length - insertIndex) 0) []
      (elements (values.drop insertIndex)) (insertIndex + inserted.length)
      (by rw [length_append, hfront, length_replicate]; push_cast; rfl)
      (by rw [length_replicate, hback])
    rw [append_nil, append_nil, append_assoc, append_assoc] at hset2
    have hset3 := @setAll_append (elements (values.take insertIndex))
      (List.replicate inserted.length 0) (elements (values.drop insertIndex)) (elements inserted)
      insertIndex (by rw [hfront]) (by rw [length_replicate, length_elements])
    rw [← elements_append, ← elements_append] at hset3
    obtain ⟨c', hkeep, hrepresents⟩ := @keepPrefixSums_lowered c values
      (values.take insertIndex ++ (inserted ++ values.drop insertIndex)) h insertIndex hlt
      (by rw [length_append, length_take]; omega)
      (ConstantTimePrefixSumComputer.take_append_take values _ hindex).symm
    refine ⟨true, c', ?_, hrepresents⟩
    rw [h.values_eq, length_elements, hslice, hslice']
    simp only [Option.bind_eq_bind, Option.bind_some, hset1, hset2, hset3, hkeep, Option.pure_def]

theorem removeValues_spec (h : Represents c values) {startIndex count : Nat}
    (hstart : startIndex ≤ values.length) (hlength : values.length ≤ 2147483648)
    (hlt : startIndex < 2147483648)
    (hcount : startIndex < values.length → count < 2147483648 ∨ 4294967296 ≤ count) :
    ∃ changed c', c.removeValues startIndex count = some (changed, c') ∧
      Represents c' (values.take startIndex ++ values.drop (startIndex + count)) := by
  rw [removeValues, toUint32_of_lt (by omega) (by omega), h.length_values]
  by_cases hend : (startIndex : Int) ≥ values.length
  · rw [if_pos hend, take_of_length_le (by omega), drop_of_length_le (by omega), append_nil]
    exact ⟨false, c, rfl, h⟩
  · obtain ⟨n, hn, hle, hdrop⟩ : ∃ n : Nat, (if toUint32 count ≥ (values.length : Int) - startIndex
        then (values.length : Int) - startIndex else toUint32 count) = n ∧
        startIndex + n ≤ values.length ∧
        values.drop (startIndex + count) = values.drop (startIndex + n) := by
      have hclamped : toUint32 count = min (count : Int) 4294967295 := by
        rcases hcount (by omega) with hsmall | hlarge
        · rw [toUint32_of_lt (by omega) (by omega)]
          omega
        · rw [toUint32, if_neg (by omega), if_pos (by omega)]
          omega
      refine ⟨min count (values.length - startIndex), ?_, by omega, ?_⟩
      · rw [hclamped]
        split_ifs <;> omega
      · rcases Nat.le_total count (values.length - startIndex) with hfew | hmany
        · rw [min_eq_left hfew]
        · rw [min_eq_right hmany, drop_of_length_le (by omega), drop_of_length_le (by omega)]
    simp only [if_neg hend, hn, hdrop]
    by_cases hzero : (n : Int) = 0
    · obtain rfl : n = 0 := by omega
      rw [if_pos hzero, Nat.add_zero, take_append_drop]
      exact ⟨false, c, rfl, h⟩
    · have hfront : (elements (values.take startIndex)).length = startIndex := by
        rw [length_elements, length_take]
        omega
      have hslice : slice (elements values) 0 startIndex = elements (values.take startIndex) := by
        rw [slice_eq _ le_rfl (by omega), Int.toNat_natCast, elements_take]
        rfl
      have hslice' : sliceFrom (elements values) ((startIndex : Int) + n) =
          elements (values.drop (startIndex + n)) := by
        have hsum : ((startIndex : Int) + n).toNat = startIndex + n := by omega
        rw [sliceFrom_eq _ (by omega), hsum, elements_drop]
      have hcast : ((values.length : Int) - n).toNat = values.length - n := by omega
      have hrest : values.length - n - startIndex = values.length - (startIndex + n) := by omega
      have hset1 := setAll_zeros (elements (values.take startIndex)) (n := values.length - n) (by omega)
      rw [hfront, hrest] at hset1
      have hset2 := @setAll_append (elements (values.take startIndex))
        (List.replicate (values.length - (startIndex + n)) 0) []
        (elements (values.drop (startIndex + n))) startIndex (by rw [hfront])
        (by rw [length_replicate, length_elements, length_drop])
      rw [append_nil, append_nil, ← elements_append] at hset2
      obtain ⟨c', hkeep, hrepresents⟩ := @keepPrefixSums_lowered c values
        (values.take startIndex ++ values.drop (startIndex + n)) h startIndex hlt
        (by rw [length_append, length_take]; omega)
        (ConstantTimePrefixSumComputer.take_append_take values _ hstart).symm
      refine ⟨true, c', ?_, hrepresents⟩
      rw [if_neg hzero, h.values_eq, hcast, hslice, hslice']
      simp only [Option.bind_eq_bind, Option.bind_some, hset1, hset2, hkeep, Option.pure_def]

theorem setValue_spec (h : Represents c values) {index value : Nat} (hindex : index < values.length)
    (hlt : index < 2147483648) (hvalue : value < 4294967296) (htotal : values.sum < 4294967296) :
    Represents (c.setValue index value).2 (values.set index value) := by
  have hold : values[index] < 4294967296 := (getElem_le_sum hindex).trans_lt htotal
  have hread : readAt c.values index = some (.ofNat values[index]) := by
    rw [readAt_natCast, h.values_eq, getElem?_elements hindex]
  rw [setValue, toUint32_of_lt (v := index) (by omega) (by omega)]
  simp only [hread, Option.any_some, UInt32.toNat_ofNat_of_lt' hold]
  split_ifs with hsame
  · rw [beq_iff_eq] at hsame
    have heq : values[index] = value := by
      rcases Nat.lt_or_ge value 2147483648 with hsmall | hlarge
      · rw [toUint32_of_lt (by omega) (by omega)] at hsame
        omega
      · rw [toUint32_lt (by omega) (by omega)] at hsame
        omega
    rw [← heq, set_getElem_self]
    exact h
  · have hle := h.le
    have hvalid := h.lt
    refine ⟨?_, by rw [length_set]; exact h.length_prefixSum, ?_, ?_, fun i hi => ?_⟩
    · simp only [writeAt_natCast, h.values_eq, toElement_toUint32 hvalue, elements, map_set]
    · simp only [lowerValidIndex_eq c hlt]
      omega
    · simp only [lowerValidIndex_eq c hlt, length_set]
      omega
    · simp only [lowerValidIndex_eq c hlt] at hi
      have htake : values.take index = (values.set index value).take index := by
        rw [take_set_of_le le_rfl]
      rw [h.summed i (by omega), sumOf_congr htake (by omega)]

end PrefixSumComputer

/-- A call, with the number of values that are to be summed up as the argument of
`getPrefixSum`: the index that `PrefixSumComputer` takes is one less. -/
inductive Call
  | insertValues (insertIndex : Nat) (inserted : List Nat)
  | removeValues (startIndex count : Nat)
  | setValue (index value : Nat)
  | getTotalSum
  | getPrefixSum (count : Nat)
  | getIndexOf (sum : Nat)

inductive Answer
  | done
  | sum (result : Option Nat)
  | indexOf (result : PrefixSumIndexOfResult)
  deriving DecidableEq

def change (values : List Nat) : Call → List Nat
  | .insertValues insertIndex inserted => values.take insertIndex ++ (inserted ++ values.drop insertIndex)
  | .removeValues startIndex count => values.take startIndex ++ values.drop (startIndex + count)
  | .setValue index value => values.set index value
  | _ => values

def answer (values : List Nat) : Call → Answer
  | .getTotalSum => .sum (some values.sum)
  | .getPrefixSum count => .sum (some (sumOf values count))
  | .getIndexOf sum => .indexOf ⟨(locate values sum).1, some (locate values sum).2⟩
  | _ => .done

def answers : List Nat → List Call → List Answer
  | _, [] => []
  | values, call :: calls => answer values call :: answers (change values call) calls

def ConstantTimePrefixSumComputer.perform (c : ConstantTimePrefixSumComputer) :
    Call → Answer × ConstantTimePrefixSumComputer
  | .insertValues insertIndex inserted => (.done, c.insertValues insertIndex inserted)
  | .removeValues startIndex count => (.done, c.removeValues startIndex count)
  | .setValue index value => (.done, c.setValue index value)
  | .getTotalSum => (.sum (some c.getTotalSum.1), c.getTotalSum.2)
  | .getPrefixSum count => (.sum (c.getPrefixSum count).1, (c.getPrefixSum count).2)
  | .getIndexOf sum => (.indexOf (c.getIndexOf sum).1, (c.getIndexOf sum).2)

def ConstantTimePrefixSumComputer.performAll (c : ConstantTimePrefixSumComputer) :
    List Call → List Answer
  | [] => []
  | call :: calls => (c.perform call).1 :: (c.perform call).2.performAll calls

def PrefixSumComputer.perform (c : PrefixSumComputer) : Call → Option (Answer × PrefixSumComputer)
  | .insertValues insertIndex inserted =>
    (c.insertValues insertIndex (elements inserted)).map fun result => (.done, result.2)
  | .removeValues startIndex count => (c.removeValues startIndex count).map fun result => (.done, result.2)
  | .setValue index value => some (.done, (c.setValue index value).2)
  | .getTotalSum => some (.sum (c.getTotalSum.1.map UInt32.toNat), c.getTotalSum.2)
  | .getPrefixSum count => some (.sum ((c.getPrefixSum (count - 1)).1.map UInt32.toNat), (c.getPrefixSum (count - 1)).2)
  | .getIndexOf sum => (c.getIndexOf sum).map fun result => (.indexOf result.1, result.2)

def PrefixSumComputer.performAll (c : PrefixSumComputer) : List Call → Option (List Answer)
  | [] => some []
  | call :: calls => do
      let (answer, c) ← c.perform call
      let answers ← c.performAll calls
      return answer :: answers

def InRange (values : List Nat) : Call → Prop
  | .insertValues insertIndex _ => insertIndex ≤ values.length
  | .removeValues startIndex _ => startIndex ≤ values.length
  | .setValue index _ => index < values.length
  | .getPrefixSum count => count ≤ values.length
  | _ => True

def Allowed : List Nat → List Call → Prop
  | values, [] => values.sum < 4294967296
  | values, call :: calls => values.sum < 4294967296 ∧ InRange values call ∧ Allowed (change values call) calls

/-- The list is not longer than 2 ^ 31, and what goes through `toUint32` does not turn negative. -/
def FitsInt32 (values : List Nat) (call : Call) : Prop :=
  values.length ≤ 2147483648 ∧
    match call with
    | .insertValues insertIndex _ => insertIndex < 2147483648
    | .removeValues startIndex count => startIndex < 2147483648 ∧
        (startIndex < values.length → count < 2147483648 ∨ 4294967296 ≤ count)
    | _ => True

def EveryCallFits : List Nat → List Call → Prop
  | _, [] => True
  | values, call :: calls => FitsInt32 values call ∧ EveryCallFits (change values call) calls

theorem Allowed.total {values : List Nat} {calls : List Call} (h : Allowed values calls) :
    values.sum < 4294967296 := by
  cases calls with
  | nil => exact h
  | cons call calls => exact h.1

theorem ConstantTimePrefixSumComputer.perform_spec {c : ConstantTimePrefixSumComputer}
    {values : List Nat} {call : Call} (h : c.Represents values) (hrange : InRange values call) :
    (c.perform call).1 = answer values call ∧ (c.perform call).2.Represents (change values call) := by
  cases call with
  | insertValues insertIndex inserted => exact ⟨rfl, insertValues_spec h hrange inserted⟩
  | removeValues startIndex count => exact ⟨rfl, removeValues_spec h hrange count⟩
  | setValue index value => exact ⟨rfl, setValue_spec h hrange value⟩
  | getTotalSum =>
    obtain ⟨hsum, hrepresents⟩ := getTotalSum_spec h
    exact ⟨congrArg (fun sum => Answer.sum (some sum)) hsum, hrepresents⟩
  | getPrefixSum count =>
    obtain ⟨hsum, hrepresents⟩ := getPrefixSum_spec h hrange
    exact ⟨congrArg Answer.sum hsum, hrepresents⟩
  | getIndexOf sum =>
    obtain ⟨hindex, hrepresents⟩ := getIndexOf_spec h sum
    exact ⟨congrArg Answer.indexOf hindex, hrepresents⟩

theorem ConstantTimePrefixSumComputer.performAll_spec {c : ConstantTimePrefixSumComputer}
    {values : List Nat} {calls : List Call} (h : c.Represents values) (hallowed : Allowed values calls) :
    c.performAll calls = answers values calls := by
  induction calls generalizing c values with
  | nil => rfl
  | cons call calls ih =>
    obtain ⟨hanswer, hrepresents⟩ := perform_spec h hallowed.2.1
    rw [performAll, answers, hanswer, ih hrepresents hallowed.2.2]

theorem PrefixSumComputer.perform_spec {c : PrefixSumComputer} {values : List Nat} {call : Call}
    (h : c.Represents values) (hrange : InRange values call) (htotal : values.sum < 4294967296)
    (hchanged : (change values call).sum < 4294967296) (hfits : FitsInt32 values call) :
    ∃ c', c.perform call = some (answer values call, c') ∧ c'.Represents (change values call) := by
  obtain ⟨hlength, hfits⟩ := hfits
  cases call with
  | insertValues insertIndex inserted =>
    obtain ⟨changed, c', heq, hrepresents⟩ := insertValues_spec h hrange hfits inserted
    exact ⟨c', by rw [perform, heq]; rfl, hrepresents⟩
  | removeValues startIndex count =>
    obtain ⟨changed, c', heq, hrepresents⟩ := removeValues_spec h hrange hlength hfits.1 hfits.2
    exact ⟨c', by rw [perform, heq]; rfl, hrepresents⟩
  | setValue index value =>
    have hindex : index < (values.set index value).length := by rwa [length_set]
    have hvalue := (getElem_le_sum hindex).trans_lt hchanged
    rw [getElem_set_self] at hvalue
    have hlt : index < values.length := hrange
    exact ⟨_, rfl, setValue_spec h hrange (by omega) hvalue htotal⟩
  | getTotalSum =>
    obtain ⟨hsum, hrepresents, -⟩ := getTotalSum_spec h hlength
    refine ⟨_, ?_, hrepresents⟩
    rw [perform, hsum, Option.map_some, UInt32.toNat_ofNat_of_lt' htotal]
    rfl
  | getPrefixSum count =>
    have hcount : count ≤ values.length := hrange
    obtain ⟨hsum, hrepresents⟩ := getPrefixSum_spec h hrange (hcount.trans hlength)
    refine ⟨_, ?_, hrepresents⟩
    rw [perform, hsum, Option.map_some, toNat_ofNat_sumOf htotal]
    rfl
  | getIndexOf sum =>
    obtain ⟨c', heq, hrepresents⟩ := getIndexOf_spec h htotal hlength sum
    exact ⟨c', by rw [perform, heq]; rfl, hrepresents⟩

theorem PrefixSumComputer.performAll_spec {c : PrefixSumComputer} {values : List Nat}
    {calls : List Call} (h : c.Represents values) (hallowed : Allowed values calls)
    (hfits : EveryCallFits values calls) : c.performAll calls = some (answers values calls) := by
  induction calls generalizing c values with
  | nil => rfl
  | cons call calls ih =>
    obtain ⟨htotal, hrange, hrest⟩ := hallowed
    obtain ⟨c', hperform, hrepresents⟩ := perform_spec h hrange htotal hrest.total hfits.1
    simp only [performAll, hperform, Option.bind_eq_bind, Option.bind_some,
      ih hrepresents hrest hfits.2, answers, Option.pure_def]

/-- Both computers answer like the plain list in every run, the one with typed arrays as long
as nothing that goes through `toUint32` turns negative; and below the total the index and the
remainder are the only ones that add up. -/
theorem computers_answer (values : List Nat) (calls : List Call) :
    (Allowed values calls → (ConstantTimePrefixSumComputer.new values).performAll calls = answers values calls) ∧
    (Allowed values calls → EveryCallFits values calls →
      (PrefixSumComputer.new (elements values)).performAll calls = some (answers values calls)) ∧
    ∀ (sum i r : Nat), sum < values.sum →
      (answer values (.getIndexOf sum) = .indexOf ⟨i, some r⟩ ↔
        ∃ hi : i < values.length, sumOf values i + r = sum ∧ r < values[i]) := by
  refine ⟨fun hallowed => ConstantTimePrefixSumComputer.performAll_spec
      (ConstantTimePrefixSumComputer.represents_new values) hallowed,
    fun hallowed hfits => PrefixSumComputer.performAll_spec
      (PrefixSumComputer.represents_new values) hallowed hfits, fun sum i r hlt => ?_⟩
  rw [← locate_iff hlt, answer, Answer.indexOf.injEq, PrefixSumIndexOfResult.mk.injEq,
    Option.some.injEq, Int.natCast_inj, Int.natCast_inj, Prod.ext_iff]

/-- Values with an empty one among them, of which the last is removed. -/
theorem computers_answer_removed :
    (PrefixSumComputer.new (elements [2, 0, 3])).performAll
        [.getIndexOf 2, .removeValues 2 4294967296, .getTotalSum] =
      some (answers [2, 0, 3] [.getIndexOf 2, .removeValues 2 4294967296, .getTotalSum]) := by
  refine (computers_answer [2, 0, 3] [.getIndexOf 2, .removeValues 2 4294967296, .getTotalSum]).2.1
    ⟨by decide, trivial, by decide, Nat.le_of_ble_eq_true rfl, by decide, trivial,
      by rw [Allowed]; decide⟩
    ⟨⟨Nat.le_of_ble_eq_true rfl, trivial⟩, ⟨Nat.le_of_ble_eq_true rfl, Nat.le_of_ble_eq_true rfl,
      fun _ => .inr le_rfl⟩, ⟨Nat.le_of_ble_eq_true rfl, trivial⟩, trivial⟩

/-- Asked to remove 2 ^ 32 - 1 values, the computer takes it for minus one and adds one. -/
theorem not_computers_answer : ¬∀ (values : List Nat) (calls : List Call), Allowed values calls →
    (PrefixSumComputer.new (elements values)).performAll calls = some (answers values calls) := by
  intro hall
  have h := hall [1] [.removeValues 0 4294967295, .getTotalSum]
    ⟨by decide, Nat.zero_le _, by decide, trivial, by rw [Allowed]; decide⟩
  exact absurd h (by decide)

end Gavea.PrefixSum
