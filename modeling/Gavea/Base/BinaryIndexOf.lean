import Mathlib.Data.List.Infix
import Mathlib.Logic.Function.Basic
import Mathlib.Tactic

namespace Gavea.Base

def indexOfByte (haystack : List UInt8) (byte : UInt8) (offset : Nat) : Int :=
  match (haystack.drop offset).findIdx? (· == byte) with
  | none => -1
  | some k => offset + k

def tableLoop (needleLen : Nat) : Nat → List UInt8 → (UInt8 → UInt8) → UInt8 → UInt8
  | _, [], table => table
  | i, b :: rest, table => tableLoop needleLen (i + 1) rest (Function.update table b (UInt8.ofNat (needleLen - i - 1)))

/-- The table of the shifts; its entries are bytes, as those of the array are. -/
def indexOfTable (needle : List UInt8) : UInt8 → UInt8 :=
  tableLoop needle.length 0 needle fun _ => UInt8.ofNat needle.length

def searchLoop (haystack needle : List UInt8) (hneedle : 0 < needle.length)
    (table : UInt8 → UInt8) (i j : Nat) : Int :=
  if i < haystack.length then
    if haystack[i]? = needle[j]? then
      if j = 0 then i else searchLoop haystack needle hneedle table (i - 1) (j - 1)
    else
      searchLoop haystack needle hneedle table
        (i + max (needle.length - j) (table (haystack.getD i 0)).toNat) (needle.length - 1)
  else -1
termination_by (haystack.length + j - i, j)
decreasing_by
  · have hle : haystack.length + (j - 1) - (i - 1) ≤ haystack.length + j - i := by omega
    have hlt : j - 1 < j := by omega
    exact Prod.Lex.right' _ hle hlt
  · have hmax := Nat.le_max_left (needle.length - j) (table (haystack.getD i 0)).toNat
    generalize max (needle.length - j) (table (haystack.getD i 0)).toNat = shift at hmax ⊢
    have hlt : haystack.length + (needle.length - 1) - (i + shift) < haystack.length + j - i := by
      omega
    exact Prod.Lex.left _ _ hlt

/-- Like `String.indexOf`, but on bytes. -/
def binaryIndexOf (haystack needle : List UInt8) (offset : Nat) : Int :=
  match needle with
  | [] => 0
  | [b] => indexOfByte haystack b offset
  | a :: b :: rest =>
    let needle := a :: b :: rest
    if (needle.length : Int) > haystack.length - offset then -1
    else
      searchLoop haystack needle (Nat.succ_pos _) (indexOfTable needle)
        (offset + needle.length - 1) (offset + needle.length - 1)

variable {haystack needle : List UInt8} {offset i j : Nat}

theorem tableLoop_of_notMem {b : UInt8} (needleLen : Nat) {rest : List UInt8} (h : b ∉ rest)
    (index : Nat) (table : UInt8 → UInt8) : tableLoop needleLen index rest table b = table b := by
  induction rest generalizing index table with
  | nil => rfl
  | cons c rest ih =>
    rw [List.mem_cons, not_or] at h
    rw [tableLoop, ih h.2, Function.update_of_ne h.1]

theorem tableLoop_le {b : UInt8} (needleLen : Nat) {rest : List UInt8} {k : Nat}
    (h : rest[k]? = some b) (index : Nat) (table : UInt8 → UInt8) :
    (tableLoop needleLen index rest table b).toNat ≤ needleLen - (index + k) - 1 := by
  induction rest generalizing index table k with
  | nil => exact nomatch h
  | cons c rest ih =>
    rw [tableLoop]
    by_cases hrest : b ∈ rest
    · cases k with
      | zero =>
        obtain ⟨k', hk'⟩ := List.mem_iff_getElem?.mp hrest
        exact (ih hk' (index + 1) _).trans (by omega)
      | succ k =>
        rw [List.getElem?_cons_succ] at h
        exact (ih h (index + 1) _).trans (by omega)
    · cases k with
      | zero =>
        rw [List.getElem?_cons_zero] at h
        obtain rfl := Option.some.inj h
        rw [tableLoop_of_notMem needleLen hrest, Function.update_self, UInt8.toNat_ofNat']
        exact Nat.mod_le _ _
      | succ k =>
        rw [List.getElem?_cons_succ] at h
        exact absurd (List.mem_of_getElem? h) hrest

theorem indexOfTable_le {b : UInt8} {k : Nat} (h : needle[k]? = some b) :
    (indexOfTable needle b).toNat ≤ needle.length - k - 1 := by
  have hle := tableLoop_le needle.length h 0 fun _ => UInt8.ofNat needle.length
  rwa [Nat.zero_add] at hle

theorem indexOfTable_le_length (needle : List UInt8) (b : UInt8) :
    (indexOfTable needle b).toNat ≤ needle.length := by
  by_cases h : b ∈ needle
  · obtain ⟨k, hk⟩ := List.mem_iff_getElem?.mp h
    exact (indexOfTable_le hk).trans (by omega)
  · rw [indexOfTable, tableLoop_of_notMem _ h, UInt8.toNat_ofNat']
    exact Nat.mod_le _ _

def OccursAt (haystack needle : List UInt8) (k : Nat) : Prop := needle <+: haystack.drop k

theorem occursAt_iff {k : Nat} :
    OccursAt haystack needle k ↔ ∀ l < needle.length, haystack[k + l]? = needle[l]? := by
  rw [OccursAt, List.prefix_iff_getElem?]
  constructor
  · intro h l hl
    rw [List.getElem?_eq_getElem hl, ← List.getElem?_drop]
    exact h l hl
  · intro h l hl
    rw [List.getElem?_drop, h l hl, List.getElem?_eq_getElem hl]

/-- The answer of a search: the first index at or behind the offset, or -1. -/
def FirstOccurrence (haystack needle : List UInt8) (offset : Nat) (result : Int) : Prop :=
  (∃ k : Nat, result = k ∧ offset ≤ k ∧ OccursAt haystack needle k ∧
      ∀ m, offset ≤ m → m < k → ¬OccursAt haystack needle m) ∨
    result = -1 ∧ ∀ m, offset ≤ m → ¬OccursAt haystack needle m

theorem OccursAt.lt {k l : Nat} (h : OccursAt haystack needle k) (hl : l < needle.length) :
    k + l < haystack.length := by
  have hget := occursAt_iff.mp h l hl
  rw [List.getElem?_eq_getElem hl] at hget
  exact (List.getElem?_eq_some_iff.mp hget).1

theorem not_occursAt_of_shift {b : UInt8} (hi : haystack[i]? = some b) {m : Nat}
    (hend : i < m + needle.length)
    (hshift : m + needle.length ≤ i + (indexOfTable needle b).toNat) :
    ¬OccursAt haystack needle m := by
  intro hoccurs
  have hle := indexOfTable_le_length needle b
  have hget := occursAt_iff.mp hoccurs (i - m) (by omega)
  rw [show m + (i - m) = i by omega, hi] at hget
  have htable := indexOfTable_le hget.symm
  omega

theorem searchLoop_spec (hneedle : 0 < needle.length) (hj : j < needle.length) (hij : j ≤ i) (hoffset : offset ≤ i - j)
    (hnone : ∀ m, offset ≤ m → m < i - j → ¬OccursAt haystack needle m)
    (hmatched : ∀ l, j < l → l < needle.length → haystack[i - j + l]? = needle[l]?) :
    FirstOccurrence haystack needle offset
      (searchLoop haystack needle hneedle (indexOfTable needle) i j) := by
  fun_induction searchLoop haystack needle hneedle (indexOfTable needle) i j with
  | case1 i hi hsame =>
    refine Or.inl ⟨i, rfl, hoffset, occursAt_iff.mpr fun l hl => ?_, hnone⟩
    cases l with
    | zero => exact hsame
    | succ l => exact hmatched (l + 1) (Nat.succ_pos l) hl
  | case2 i j hi hsame hpos ih =>
    have hstart : i - 1 - (j - 1) = i - j := by omega
    refine ih (by omega) (by omega) (by omega) (by rwa [hstart]) fun l hl hl' => ?_
    rw [hstart]
    rcases Nat.lt_or_eq_of_le (show j ≤ l by omega) with hlt | rfl
    · exact hmatched l hlt hl'
    · rwa [Nat.sub_add_cancel hij]
  | case3 i j hi hdiffers ih =>
    have hget : haystack[i]? = some (haystack.getD i 0) := by
      rw [List.getD_eq_getElem?_getD, List.getElem?_eq_getElem hi]
      rfl
    refine ih (by omega) (by omega) (by omega) (fun m hm hlt => ?_) fun l hl hl' => by omega
    rcases Nat.lt_trichotomy m (i - j) with hbefore | rfl | hbehind
    · exact hnone m hm hbefore
    · intro hoccurs
      have hsame := occursAt_iff.mp hoccurs j hj
      rw [Nat.sub_add_cancel hij] at hsame
      exact hdiffers hsame
    · exact not_occursAt_of_shift hget (by omega) (by omega)
  | case4 i j hi =>
    refine Or.inr ⟨rfl, fun m hm hoccurs => ?_⟩
    rcases Nat.lt_or_ge m (i - j) with hlt | hge
    · exact hnone m hm hlt hoccurs
    · have hlt := hoccurs.lt hj
      omega

theorem indexOfByte_spec (b : UInt8) : FirstOccurrence haystack [b] offset (indexOfByte haystack b offset) := by
  have hoccurs (m : Nat) : OccursAt haystack [b] m ↔ haystack[m]? = some b := by
    rw [occursAt_iff]
    constructor
    · intro h
      exact h 0 Nat.one_pos
    · intro h l hl
      obtain rfl : l = 0 := Nat.lt_one_iff.mp hl
      exact h
  rw [indexOfByte]
  cases hfind : (haystack.drop offset).findIdx? (· == b) with
  | none =>
    refine Or.inr ⟨rfl, fun m hm hocc => ?_⟩
    rw [List.findIdx?_eq_none_iff] at hfind
    have hmem : b ∈ haystack.drop offset := by
      refine List.mem_iff_getElem?.mpr ⟨m - offset, ?_⟩
      rw [List.getElem?_drop, show offset + (m - offset) = m by omega]
      exact (hoccurs m).mp hocc
    simpa using hfind b hmem
  | some k =>
    rw [List.findIdx?_eq_some_iff_getElem] at hfind
    obtain ⟨hk, hb, hbefore⟩ := hfind
    refine Or.inl ⟨offset + k, by push_cast; rfl, Nat.le_add_right _ _, (hoccurs _).mpr ?_, ?_⟩
    · rw [← List.getElem?_drop, List.getElem?_eq_getElem hk]
      exact congrArg some (beq_iff_eq.mp hb)
    · intro m hm hlt hocc
      have hget := (hoccurs m).mp hocc
      have hnot := hbefore (m - offset) (by omega)
      have hsome : (haystack.drop offset)[m - offset]? = some b := by
        rw [List.getElem?_drop, show offset + (m - offset) = m by omega, hget]
      rw [(List.getElem?_eq_some_iff.mp hsome).2] at hnot
      simp at hnot

theorem searchLoop_start (hneedle : 0 < needle.length) (hfits : offset + needle.length ≤ haystack.length) :
    FirstOccurrence haystack needle offset
      (searchLoop haystack needle hneedle (indexOfTable needle) (offset + needle.length - 1)
        (offset + needle.length - 1)) := by
  rcases Nat.eq_zero_or_pos offset with rfl | hpos
  · exact searchLoop_spec hneedle (by omega) (le_refl _) (by omega) (fun m _ hm => by omega) fun l hl hl' => by omega
  · have hi : offset + needle.length - 1 < haystack.length := by omega
    have hget : haystack[offset + needle.length - 1]? =
        some (haystack.getD (offset + needle.length - 1) 0) := by
      rw [List.getD_eq_getElem?_getD, List.getElem?_eq_getElem hi]
      rfl
    have hbehind : needle[offset + needle.length - 1]? = none := List.getElem?_eq_none (by omega)
    rw [searchLoop, if_pos hi, if_neg (by rw [hget, hbehind]; simp)]
    refine searchLoop_spec hneedle (by omega) (by omega) (by omega) (fun m hm hlt => ?_) fun l hl hl' => by omega
    exact not_occursAt_of_shift hget (by omega) (by omega)

theorem binaryIndexOf_of_two_le (h : 2 ≤ needle.length) (haystack : List UInt8) (offset : Nat) :
    binaryIndexOf haystack needle offset =
      if (needle.length : Int) > haystack.length - offset then -1
      else
        searchLoop haystack needle (Nat.lt_of_succ_lt h) (indexOfTable needle)
          (offset + needle.length - 1) (offset + needle.length - 1) := by
  match needle, h with
  | _ :: _ :: _, _ => rfl

/-- `binaryIndexOf` answers as the naive search does. -/
theorem binaryIndexOf_firstOccurrence (haystack needle : List UInt8) (offset : Nat)
    (hneedle : needle ≠ []) (_hoffset : offset ≤ haystack.length) :
    FirstOccurrence haystack needle offset (binaryIndexOf haystack needle offset) := by
  rcases Nat.lt_or_ge needle.length 2 with hshort | hlong
  · obtain ⟨b, rfl⟩ := List.length_eq_one_iff.mp
      (show needle.length = 1 by have := List.length_pos_of_ne_nil hneedle; omega)
    exact indexOfByte_spec b
  · rw [binaryIndexOf_of_two_le hlong]
    split_ifs with hsize
    · refine Or.inr ⟨rfl, fun m hm hoccurs => ?_⟩
      have hlt := hoccurs.lt (show needle.length - 1 < needle.length by omega)
      omega
    · exact searchLoop_start (by omega) (by omega)

theorem binaryIndexOf_firstOccurrence_second :
    FirstOccurrence [1, 2, 1, 2, 3] [1, 2] 1 (binaryIndexOf [1, 2, 1, 2, 3] [1, 2] 1) :=
  binaryIndexOf_firstOccurrence [1, 2, 1, 2, 3] [1, 2] 1 (by decide) (by decide)

end Gavea.Base
