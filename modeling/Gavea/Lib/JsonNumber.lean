import Gavea.Lib.JsonLex
import Mathlib.Data.Rat.Floor

namespace Gavea.Lib.Js

open List

def isDigit (c : Char) : Bool := decide (48 ≤ c.toNat) && decide (c.toNat ≤ 57)

def isNumberChar (c : Char) : Bool := isDigit c || c == '+' || c == '-' || c == '.' || c == 'e' || c == 'E'

def dropSign : List Char → List Char
  | [] => []
  | c :: t => if c = '-' then t else c :: t

def exponentDigits : List Char → List Char
  | [] => []
  | c :: t => if c = '+' ∨ c = '-' then t else c :: t

def isExponent : List Char → Bool
  | [] => true
  | c :: t => (c == 'e' || c == 'E') && !(exponentDigits t).isEmpty && (exponentDigits t).all isDigit

def isFraction : List Char → Bool
  | [] => true
  | c :: t =>
    if c = '.' then !(t.takeWhile isDigit).isEmpty && isExponent (t.dropWhile isDigit)
    else isExponent (c :: t)

def isNumber (t : List Char) : Bool :=
  t.all isNumberChar &&
    !((dropSign t).takeWhile isDigit).isEmpty &&
    (decide (((dropSign t).takeWhile isDigit).length = 1) || (dropSign t).head? != some '0') &&
    isFraction ((dropSign t).dropWhile isDigit)

structure Number where
  text : List Char
  valid : isNumber text = true
  deriving DecidableEq

def digitsValue (t : List Char) : Nat := t.foldl (fun n c => 10 * n + (c.toNat - 48)) 0

def exponentValue : List Char → Int
  | [] => 0
  | _ :: t =>
    if t.head? = some '-' then -digitsValue (exponentDigits t)
    else digitsValue (exponentDigits t)

def fractionParts : List Char → List Char × Int
  | [] => ([], 0)
  | c :: t =>
    if c = '.' then (t.takeWhile isDigit, exponentValue (t.dropWhile isDigit))
    else ([], exponentValue (c :: t))

namespace Number

def value (n : Number) : ℚ :=
  let int := (dropSign n.text).takeWhile isDigit
  let (frac, exp) := fractionParts ((dropSign n.text).dropWhile isDigit)
  let magnitude := (digitsValue (int ++ frac) : ℚ) * (10 : ℚ) ^ (exp - frac.length)
  if n.text.head? = some '-' then -magnitude else magnitude

def toInt? (n : Number) : Option Int := if n.value.den = 1 then some n.value.num else none

end Number

def digitChar (n : Nat) : Char := Char.ofNat (48 + n)

def decimalDigits : Nat → Nat → List Char
  | 0, _ => []
  | fuel + 1, n => if n < 10 then [digitChar n] else decimalDigits fuel (n / 10) ++ [digitChar (n % 10)]

def decimal (n : Nat) : List Char := decimalDigits (n + 1) n

theorem toNat_digitChar {n : Nat} (h : n < 10) : (digitChar n).toNat = 48 + n := by
  refine toNat_ofNat_of_valid ?_
  left
  omega

theorem isDigit_digitChar {n : Nat} (h : n < 10) : isDigit (digitChar n) = true := by
  simp only [isDigit, toNat_digitChar h, Bool.and_eq_true, decide_eq_true_eq]
  omega

/-- What the digits of a number are: they denote it and only zero starts with a zero. -/
structure IsDecimal (n : Nat) (t : List Char) : Prop where
  digits : ∀ c ∈ t, isDigit c = true
  ne_nil : t ≠ []
  head : t.length = 1 ∨ t.head? ≠ some '0'
  value : digitsValue t = n

theorem isDecimal_digitChar {n : Nat} (h : n < 10) : IsDecimal n [digitChar n] where
  digits c hc := by
    rw [mem_singleton.mp hc]
    exact isDigit_digitChar h
  ne_nil := cons_ne_nil _ _
  head := Or.inl rfl
  value := by
    simp [digitsValue, toNat_digitChar h]

theorem IsDecimal.concat {n d : Nat} {t : List Char} (h : IsDecimal n t) (hn : n ≠ 0)
    (hd : d < 10) : IsDecimal (10 * n + d) (t ++ [digitChar d]) where
  digits c hc := by
    rcases mem_append.mp hc with hc | hc
    · exact h.digits c hc
    · rw [mem_singleton.mp hc]
      exact isDigit_digitChar hd
  ne_nil := by simp
  head := by
    right
    obtain ⟨c, t', rfl⟩ := exists_cons_of_ne_nil h.ne_nil
    rw [cons_append, head?_cons]
    rcases h.head with h1 | h1
    · obtain rfl : t' = [] := by simpa using h1
      rintro hzero
      obtain rfl := Option.some.inj hzero
      exact hn h.value.symm
    · simpa using h1
  value := by
    have hv := h.value
    unfold digitsValue at hv ⊢
    rw [foldl_append, hv]
    simp [toNat_digitChar hd]

theorem isDecimal_decimalDigits (fuel n : Nat) (h : n < fuel) :
    IsDecimal n (decimalDigits fuel n) := by
  induction fuel generalizing n with
  | zero => omega
  | succ fuel ih =>
    rw [decimalDigits]
    split
    · next hlt => exact isDecimal_digitChar hlt
    · next hge =>
        have hrec := (ih (n / 10) (by omega)).concat (d := n % 10) (by omega) (by omega)
        rwa [show 10 * (n / 10) + n % 10 = n by omega] at hrec

theorem isDecimal_decimal (n : Nat) : IsDecimal n (decimal n) := isDecimal_decimalDigits (n + 1) n (by omega)

theorem length_decimalDigits (fuel n k : Nat) (h : n < 10 ^ (k + 1)) :
    (decimalDigits fuel n).length ≤ k + 1 := by
  induction fuel generalizing n k with
  | zero => simp [decimalDigits]
  | succ fuel ih =>
    rw [decimalDigits]
    split
    · simp
    · next hge =>
        cases k with
        | zero =>
          rw [pow_one] at h
          omega
        | succ k =>
          have hrec := ih (n / 10) k (by rw [pow_succ] at h; omega)
          rw [length_append, length_singleton]
          omega

theorem length_decimal {n k : Nat} (h : n < 10 ^ (k + 1)) : (decimal n).length ≤ k + 1 :=
  length_decimalDigits (n + 1) n k h

theorem takeWhile_eq_self {p : Char → Bool} {t : List Char} (h : ∀ c ∈ t, p c = true) :
    t.takeWhile p = t ∧ t.dropWhile p = [] := by
  induction t with
  | nil => exact ⟨rfl, rfl⟩
  | cons c t ih =>
    obtain ⟨h1, h2⟩ := ih fun c' hc' => h c' (mem_cons_of_mem c hc')
    have hc := h c mem_cons_self
    simp [hc, h1, h2]

theorem IsDecimal.dropSign {n : Nat} {t : List Char} (h : IsDecimal n t) : dropSign t = t := by
  obtain ⟨c, t', rfl⟩ := exists_cons_of_ne_nil h.ne_nil
  have hc := h.digits c mem_cons_self
  have hne : c ≠ '-' := by
    rintro rfl
    exact absurd hc (by decide)
  rw [Js.dropSign, if_neg hne]

theorem IsDecimal.isNumber {n : Nat} {t : List Char} (h : IsDecimal n t) :
    isNumber t = true := by
  obtain ⟨htake, hdrop⟩ := takeWhile_eq_self h.digits
  have hchars : t.all isNumberChar = true := all_eq_true.mpr fun c hc => by simp [isNumberChar, h.digits c hc]
  have hempty : t.isEmpty = false := by simpa using h.ne_nil
  have hhead : (decide (t.length = 1) || t.head? != some '0') = true := by
    simpa [bne_iff_ne] using h.head
  rw [Js.isNumber, h.dropSign, htake, hdrop, hchars, hempty, hhead]
  rfl

def Number.ofNat (n : Nat) : Number := ⟨decimal n, (isDecimal_decimal n).isNumber⟩

theorem Number.value_ofNat (n : Nat) : (Number.ofNat n).value = n := by
  have h := isDecimal_decimal n
  obtain ⟨htake, hdrop⟩ := takeWhile_eq_self h.digits
  have hsign : (decimal n).head? ≠ some '-' := by
    intro hhead
    have hmem := mem_of_mem_head? hhead
    exact absurd (h.digits _ hmem) (by decide)
  simp only [Number.value, Number.ofNat, h.dropSign, htake, hdrop, fractionParts, append_nil, h.value, if_neg hsign]
  simp

theorem Number.toInt?_ofNat (n : Nat) : (Number.ofNat n).toInt? = some (n : Int) := by
  simp [Number.toInt?, Number.value_ofNat]

end Gavea.Lib.Js
