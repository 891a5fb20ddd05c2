import Mathlib.Data.List.Basic
import Mathlib.Tactic

namespace Gavea.Lib.Js

open List

abbrev CodeUnit := UInt16

abbrev JsString := List CodeUnit

def lineFeed : CodeUnit := 10

def carriageReturn : CodeUnit := 13

def substring (str : JsString) (start stop : Int) : JsString :=
  let a := min start.toNat str.length
  let b := min stop.toNat str.length
  (str.take (max a b)).drop (min a b)

def substringFrom (str : JsString) (start : Int) : JsString := substring str start str.length

/-- A negative argument of `Array.slice` counts from the end. -/
def relativeIndex (length : Nat) (i : Int) : Nat := if i < 0 then (length + i).toNat else min i.toNat length

def slice {α : Type*} (arr : List α) (start stop : Int) : List α :=
  (arr.take (relativeIndex arr.length stop)).drop (relativeIndex arr.length start)

def sliceFrom {α : Type*} (arr : List α) (start : Int) : List α := slice arr start arr.length

theorem drop_min_take_min {α : Type*} (l : List α) {a b : Nat} (h : a ≤ b) :
    (l.take (min b l.length)).drop (min a l.length) = (l.take b).drop a := by
  rcases le_total a l.length with ha | ha
  · rw [min_eq_left ha]
    rcases le_total b l.length with hb | hb
    · rw [min_eq_left hb]
    · rw [min_eq_right hb, take_length, take_of_length_le hb]
  · rw [min_eq_right ha, min_eq_right (ha.trans h), take_length,
      take_of_length_le (ha.trans h), drop_length, drop_eq_nil_of_le ha]

theorem substring_eq (str : JsString) {start stop : Int} (h : start ≤ stop) :
    substring str start stop = (str.take stop.toNat).drop start.toNat := by
  have hab : min start.toNat str.length ≤ min stop.toNat str.length := by omega
  simp only [substring, max_eq_right hab, min_eq_left hab]
  exact drop_min_take_min str (by omega)

theorem substringFrom_eq (str : JsString) (start : Int) :
    substringFrom str start = str.drop start.toNat := by
  rcases le_total start str.length with h | h
  · rw [substringFrom, substring_eq str h, Int.toNat_natCast, take_length]
  · have hle : str.length ≤ start.toNat := by omega
    simp only [substringFrom, substring, Int.toNat_natCast, min_self, min_eq_right hle, max_self,
      take_length, drop_length, drop_eq_nil_of_le hle]

theorem slice_eq {α : Type*} (arr : List α) {start stop : Int} (h0 : 0 ≤ start)
    (h : start ≤ stop) : slice arr start stop = (arr.take stop.toNat).drop start.toNat := by
  rw [slice, relativeIndex, relativeIndex, if_neg (by omega), if_neg (by omega)]
  exact drop_min_take_min arr (by omega)

theorem sliceFrom_eq {α : Type*} (arr : List α) {start : Int} (h0 : 0 ≤ start) :
    sliceFrom arr start = arr.drop start.toNat := by
  rw [sliceFrom, slice, relativeIndex, relativeIndex, if_neg (by omega), if_neg (by omega),
    Int.toNat_natCast, min_self, take_length]
  rcases le_total start.toNat arr.length with h | h
  · rw [min_eq_left h]
  · rw [min_eq_right h, drop_length, drop_eq_nil_of_le h]

end Gavea.Lib.Js
