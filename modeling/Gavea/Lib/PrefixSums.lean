import Mathlib.Tactic
import Mathlib.Logic.Function.Basic

namespace Gavea.Lib.PrefixSums

open List

def sumOf (values : List Nat) (n : Nat) : Nat := (values.take n).sum

/-- The index at which the values come to exceed sum, with what sum has beyond the values in
front of it; the last index where they never do. -/
def locate : List Nat → Nat → Nat × Nat
  | v :: w :: rest, sum =>
    if sum < v then (0, sum)
    else ((locate (w :: rest) (sum - v)).1 + 1, (locate (w :: rest) (sum - v)).2)
  | _, sum => (0, sum)

variable {values : List Nat} {i n sum : Nat}

@[simp] theorem sumOf_zero (values : List Nat) : sumOf values 0 = 0 := rfl

@[simp] theorem sumOf_cons_succ (v : Nat) (values : List Nat) (n : Nat) :
    sumOf (v :: values) (n + 1) = v + sumOf values n := by
  rw [sumOf, take_succ_cons, sum_cons, sumOf]

theorem sumOf_succ (h : i < values.length) : sumOf values (i + 1) = sumOf values i + values[i] := by
  rw [sumOf, sumOf, take_add_one, getElem?_eq_getElem h, sum_append]
  simp

theorem sumOf_of_length_le (h : values.length ≤ n) : sumOf values n = values.sum := by
  rw [sumOf, take_of_length_le h]

theorem sumOf_le_sum (values : List Nat) (n : Nat) : sumOf values n ≤ values.sum := by
  have h := sum_take_add_sum_drop values n
  rw [sumOf]
  omega

theorem sumOf_mono (h : i ≤ n) : sumOf values i ≤ sumOf values n := by
  have hle := sumOf_le_sum (values.take n) i
  rwa [sumOf, take_take, min_eq_left h] at hle

theorem sumOf_congr {values values' : List Nat} (h : values.take n = values'.take n) (hi : i ≤ n) :
    sumOf values i = sumOf values' i := by
  have htake := congrArg (List.take i) h
  rw [take_take, take_take, min_eq_left hi] at htake
  rw [sumOf, sumOf, htake]

theorem locate_eq_of_lt (h : i < values.length) (hle : sumOf values i ≤ sum)
    (hlt : sum < sumOf values (i + 1)) : locate values sum = (i, sum - sumOf values i) := by
  induction values generalizing i sum with
  | nil => cases h
  | cons v rest ih =>
    cases i with
    | zero =>
      cases rest with
      | nil => rfl
      | cons w rest =>
        rw [sumOf_cons_succ, sumOf_zero, add_zero] at hlt
        rw [locate, if_pos hlt]
        rfl
    | succ i =>
      rw [sumOf_cons_succ] at hle hlt
      cases rest with
      | nil => simp at h
      | cons w rest =>
        have hnext : locate (w :: rest) (sum - v) = (i, sum - v - sumOf (w :: rest) i) :=
          ih (Nat.lt_of_succ_lt_succ h) (by omega) (by omega)
        rw [locate, if_neg (by omega), hnext, sumOf_cons_succ, Nat.sub_sub]

theorem locate_eq_of_ge (h : values.sum ≤ sum) :
    locate values sum = (values.length - 1, sum - sumOf values (values.length - 1)) := by
  induction values generalizing sum with
  | nil => rfl
  | cons v rest ih =>
    cases rest with
    | nil => rfl
    | cons w rest =>
      rw [sum_cons] at h
      rw [locate, if_neg (by omega), ih (by omega)]
      simp only [length_cons, Nat.add_sub_cancel, sumOf_cons_succ, Nat.sub_sub]

theorem exists_place (h : sum < values.sum) :
    ∃ i, i < values.length ∧ sumOf values i ≤ sum ∧ sum < sumOf values (i + 1) := by
  induction values generalizing sum with
  | nil => cases h
  | cons v rest ih =>
    rw [sum_cons] at h
    rcases Nat.lt_or_ge sum v with hlt | hge
    · exact ⟨0, by simp, Nat.zero_le _, by simpa using hlt⟩
    · obtain ⟨i, hi, hle, hlt⟩ := @ih (sum - v) (by omega)
      exact ⟨i + 1, by simpa using hi, by rw [sumOf_cons_succ]; omega,
        by rw [sumOf_cons_succ]; omega⟩

theorem locate_iff (h : sum < values.sum) (i r : Nat) : locate values sum = (i, r) ↔
    ∃ hi : i < values.length, sumOf values i + r = sum ∧ r < values[i] := by
  constructor
  · intro heq
    obtain ⟨j, hj, hle, hlt⟩ := exists_place h
    rw [locate_eq_of_lt hj hle hlt, Prod.mk.injEq] at heq
    obtain ⟨rfl, rfl⟩ := heq
    rw [sumOf_succ hj] at hlt
    exact ⟨hj, by omega, by omega⟩
  · rintro ⟨hi, hsum, hr⟩
    rw [locate_eq_of_lt hi (by omega) (by rw [sumOf_succ hi]; omega)]
    congr 1
    omega

end Gavea.Lib.PrefixSums

namespace Gavea.Lib

open List

structure SparseArray (α : Type*) where
  length : Nat
  get : Nat → Option α
  outside : ∀ i, length ≤ i → get i = none

namespace SparseArray

variable {α : Type*}

def empty : SparseArray α := ⟨0, fun _ => none, fun _ _ => rfl⟩

def set (a : SparseArray α) (i : Nat) (v : α) : SparseArray α where
  length := max a.length (i + 1)
  get := Function.update a.get i (some v)
  outside j hj := by
    rw [Function.update_of_ne (by omega)]
    exact a.outside j (by omega)

def setLength (a : SparseArray α) (n : Nat) : SparseArray α where
  length := n
  get i := if i < n then a.get i else none
  outside i hi := if_neg (by omega)

@[simp] theorem get_set_self (a : SparseArray α) (i : Nat) (v : α) : (a.set i v).get i = some v :=
  Function.update_self ..

theorem get_set_of_ne (a : SparseArray α) {i j : Nat} (v : α) (h : j ≠ i) :
    (a.set i v).get j = a.get j := Function.update_of_ne h ..

theorem get_setLength_of_lt (a : SparseArray α) {i n : Nat} (h : i < n) : (a.setLength n).get i = a.get i := if_pos h

end SparseArray

end Gavea.Lib
