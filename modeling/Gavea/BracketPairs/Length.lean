import Mathlib.Data.List.Basic
import Mathlib.Data.List.Infix
import Mathlib.Tactic.Linarith

namespace Gavea.BracketPairs

open List

def lengthZero : Nat := 0

def factor : Nat := 2 ^ 26

def toLength (lineCount columnCount : Nat) : Nat := lineCount * factor + columnCount

def lengthAdd (l1 l2 : Nat) : Nat := if l2 ≥ factor then l1 + l2 - l1 % factor else l1 + l2

def sumLengths {α : Type*} (items : List α) (lengthFn : α → Nat) : Nat :=
  items.foldl (fun a b => lengthAdd a (lengthFn b)) lengthZero

def lengthDiffNonNegative (l1 l2 : Nat) : Nat :=
  if l2 ≤ l1 then lengthZero
  else
    let lineCount1 := l1 / factor
    let lineCount2 := l2 / factor
    let colCount2 := l2 - lineCount2 * factor
    if lineCount1 = lineCount2 then toLength 0 (colCount2 - (l1 - lineCount1 * factor))
    else toLength (lineCount2 - lineCount1) colCount2

section Texts

/-- A text: code units and line breaks. -/
abbrev Text := List (Option UInt16)

def lineBreaks (t : Text) : Nat := t.count none

def columnsFrom (columns : Nat) (t : Text) : Nat :=
  t.foldl (fun columns c => if c.isSome then columns + 1 else 0) columns

def lastLine (t : Text) : Nat := columnsFrom 0 t

def lengthOf (t : Text) : Nat := toLength (lineBreaks t) (lastLine t)

/-- No overflow: fewer than 2²⁶ lines, and each of them with fewer than 2²⁶ columns. -/
structure Fits (t : Text) : Prop where
  lines : lineBreaks t < factor
  columns : ∀ line : Text, line <:+: t → none ∉ line → line.length < factor

variable {t u v : Text}

theorem Fits.infix (h : Fits t) (hu : u <:+: t) : Fits u :=
  ⟨lt_of_le_of_lt (hu.sublist.count_le none) h.lines, fun line hline hnone => h.columns line (hline.trans hu) hnone⟩

theorem Fits.left (h : Fits (u ++ v)) : Fits u := h.infix (prefix_append u v).isInfix

theorem Fits.right (h : Fits (u ++ v)) : Fits v := h.infix (suffix_append u v).isInfix

@[simp] theorem lengthOf_nil : lengthOf [] = 0 := by decide

theorem exists_lastLine (t : Text) : ∃ line : Text, line <:+ t ∧ none ∉ line ∧
    line.length = lastLine t := by
  induction t using List.reverseRecOn with
  | nil => exact ⟨[], suffix_rfl, not_mem_nil, rfl⟩
  | append_singleton t c ih =>
    obtain ⟨line, ⟨front, hfront⟩, hnone, hlength⟩ := ih
    cases c with
    | none =>
      refine ⟨[], nil_suffix, not_mem_nil, ?_⟩
      rw [lastLine, columnsFrom, foldl_append]
      rfl
    | some a =>
      refine ⟨line ++ [some a], ⟨front, by rw [← hfront, append_assoc]⟩, ?_, ?_⟩
      · rw [mem_append, not_or]
        exact ⟨hnone, by simp⟩
      · rw [lastLine, columnsFrom, foldl_append, length_append, hlength]
        rfl

theorem Fits.lastLine_lt (h : Fits t) : lastLine t < factor := by
  obtain ⟨line, hsuffix, hnone, hlength⟩ := exists_lastLine t
  rw [← hlength]
  exact h.columns line hsuffix.isInfix hnone

theorem lineBreaks_append (u v : Text) : lineBreaks (u ++ v) = lineBreaks u + lineBreaks v := count_append ..

theorem columnsFrom_eq (n : Nat) (t : Text) :
    columnsFrom n t = if lineBreaks t = 0 then n + lastLine t else lastLine t := by
  induction t generalizing n with
  | nil => rfl
  | cons c t ih =>
    cases c with
    | none =>
      rw [if_neg (by rw [lineBreaks, count_cons_self]; omega)]
      rfl
    | some a =>
      have hbreaks : lineBreaks (some a :: t) = lineBreaks t := count_cons_of_ne (by simp)
      have hn := ih (n + 1)
      have hone := ih 1
      change columnsFrom n (some a :: t) = _ at hn
      change lastLine (some a :: t) = _ at hone
      rw [hn, hone, hbreaks]
      split_ifs <;> omega

theorem lastLine_append (u v : Text) :
    lastLine (u ++ v) = if lineBreaks v = 0 then lastLine u + lastLine v else lastLine v := by
  rw [← columnsFrom_eq, lastLine, columnsFrom, foldl_append]
  rfl

theorem lengthOf_append (h : Fits (u ++ v)) :
    lengthOf (u ++ v) = lengthAdd (lengthOf u) (lengthOf v) := by
  have hu := h.left.lastLine_lt
  have hv := h.right.lastLine_lt
  unfold lengthOf lengthAdd toLength
  rw [lineBreaks_append, lastLine_append, Nat.mul_add_mod_of_lt hu]
  unfold factor at *
  split_ifs <;> omega

theorem lastLine_of_lineBreaks (h : lineBreaks t = 0) : lastLine t = t.length := by
  induction t with
  | nil => rfl
  | cons c t ih =>
    cases c with
    | none =>
      rw [lineBreaks, count_cons_self] at h
      omega
    | some a =>
      rw [lineBreaks, count_cons_of_ne (by simp)] at h
      have hone : lastLine (some a :: t) = columnsFrom 1 t := rfl
      have h : lineBreaks t = 0 := h
      rw [hone, columnsFrom_eq, if_pos h, ih h, length_cons, Nat.add_comm]

theorem lengthOf_eq_zero : lengthOf t = 0 ↔ t = [] := by
  constructor
  · intro h
    rw [lengthOf, toLength, Nat.add_eq_zero_iff, Nat.mul_eq_zero] at h
    have hbreaks : lineBreaks t = 0 := h.1.resolve_right (by decide)
    rw [lastLine_of_lineBreaks hbreaks] at h
    exact length_eq_zero_iff.mp h.2
  · rintro rfl
    exact lengthOf_nil

theorem lengthOf_le_append (h : Fits (u ++ v)) : lengthOf u ≤ lengthOf (u ++ v) := by
  rw [lengthOf_append h]
  unfold lengthAdd
  have hmod : lengthOf u % factor < factor := Nat.mod_lt _ (by decide)
  split_ifs <;> omega

theorem lengthDiffNonNegative_append (h : Fits (u ++ v)) :
    lengthDiffNonNegative (lengthOf u) (lengthOf (u ++ v)) = lengthOf v := by
  have hu := h.left.lastLine_lt
  have hv := h.right.lastLine_lt
  have huv := h.lastLine_lt
  rw [lastLine_append] at huv
  unfold lengthDiffNonNegative lengthOf toLength lengthZero
  rw [lineBreaks_append, lastLine_append]
  unfold factor at *
  dsimp only
  split_ifs at * <;> omega

end Texts

end Gavea.BracketPairs
