import Gavea.Lib.Js

namespace Gavea.Lib.Js

def isHigh (u : CodeUnit) : Bool := decide (0xD800 ≤ u.toNat) && decide (u.toNat < 0xDC00)

def isLow (u : CodeUnit) : Bool := decide (0xDC00 ≤ u.toNat) && decide (u.toNat < 0xE000)

def pairChar (high low : CodeUnit) : Char := Char.ofNat (0x10000 + (high.toNat - 0xD800) * 0x400 + (low.toNat - 0xDC00))

def unitsOf (c : Char) : JsString :=
  if c.toNat < 0x10000 then [UInt16.ofNat c.toNat]
  else [UInt16.ofNat (0xD800 + (c.toNat - 0x10000) / 0x400), UInt16.ofNat (0xDC00 + (c.toNat - 0x10000) % 0x400)]

def ofText (text : String) : JsString := text.toList.flatMap unitsOf

theorem toNat_ofNat_of_valid {n : Nat} (h : n.isValidChar) : (Char.ofNat n).toNat = n := by
  unfold Char.ofNat
  rw [dif_pos h]
  rfl

theorem unitsOf_pairChar {high low : CodeUnit} (hh : isHigh high = true) (hl : isLow low = true) :
    unitsOf (pairChar high low) = [high, low] := by
  simp only [isHigh, isLow, Bool.and_eq_true, decide_eq_true_eq] at hh hl
  have hvalid : Nat.isValidChar
      (0x10000 + (high.toNat - 0xD800) * 0x400 + (low.toNat - 0xDC00)) := by
    right
    omega
  have hnat : (pairChar high low).toNat =
      0x10000 + (high.toNat - 0xD800) * 0x400 + (low.toNat - 0xDC00) := by
    rw [pairChar, toNat_ofNat_of_valid hvalid]
  rw [unitsOf, hnat, if_neg (by omega)]
  have h1 : 0xD800 + (0x10000 + (high.toNat - 0xD800) * 0x400 + (low.toNat - 0xDC00) - 0x10000) /
      0x400 = high.toNat := by omega
  have h2 : 0xDC00 + (0x10000 + (high.toNat - 0xD800) * 0x400 + (low.toNat - 0xDC00) - 0x10000) %
      0x400 = low.toNat := by omega
  rw [h1, h2, UInt16.ofNat_toNat, UInt16.ofNat_toNat]

theorem toNat_ofNat_of_plain {u : CodeUnit} (hh : isHigh u = false) (hl : isLow u = false) :
    (Char.ofNat u.toNat).toNat = u.toNat := by
  refine toNat_ofNat_of_valid ?_
  simp only [isHigh, isLow, Bool.and_eq_false_iff, decide_eq_false_iff_not] at hh hl
  have hlt := u.toNat_lt
  unfold Nat.isValidChar
  omega

theorem unitsOf_ofNat {u : CodeUnit} (hh : isHigh u = false) (hl : isLow u = false) :
    unitsOf (Char.ofNat u.toNat) = [u] := by
  have hlt := u.toNat_lt
  rw [unitsOf, toNat_ofNat_of_plain hh hl, if_pos (by omega), UInt16.ofNat_toNat]

def hexDigit (n : Nat) : Char := Char.ofNat (if n < 10 then 48 + n else 87 + n)

def hexValue (c : Char) : Option Nat :=
  let n := c.toNat
  if 48 ≤ n ∧ n ≤ 57 then some (n - 48)
  else if 97 ≤ n ∧ n ≤ 102 then some (n - 87)
  else if 65 ≤ n ∧ n ≤ 70 then some (n - 55)
  else none

theorem hexValue_hexDigit {n : Nat} (h : n < 16) : hexValue (hexDigit n) = some n := by
  have hall : ∀ n, n < 16 → hexValue (hexDigit n) = some n := by decide
  exact hall n h

def unicodeEscape (u : CodeUnit) : List Char :=
  ['\\', 'u', hexDigit (u.toNat / 4096), hexDigit (u.toNat / 256 % 16),
    hexDigit (u.toNat / 16 % 16), hexDigit (u.toNat % 16)]

def fromHex (a b c d : Char) : Option CodeUnit :=
  (hexValue a).bind fun a => (hexValue b).bind fun b => (hexValue c).bind fun c =>
    (hexValue d).map fun d => UInt16.ofNat (a * 4096 + b * 256 + c * 16 + d)

theorem fromHex_unicodeEscape (u : CodeUnit) :
    fromHex (hexDigit (u.toNat / 4096)) (hexDigit (u.toNat / 256 % 16))
      (hexDigit (u.toNat / 16 % 16)) (hexDigit (u.toNat % 16)) = some u := by
  have hlt := u.toNat_lt
  have hsum : u.toNat / 4096 * 4096 + u.toNat / 256 % 16 * 256 + u.toNat / 16 % 16 * 16 +
      u.toNat % 16 = u.toNat := by omega
  simp only [fromHex, hexValue_hexDigit (show u.toNat / 4096 < 16 by omega),
    hexValue_hexDigit (show u.toNat / 256 % 16 < 16 by omega), hexValue_hexDigit (show u.toNat / 16 % 16 < 16 by omega),
    hexValue_hexDigit (show u.toNat % 16 < 16 by omega), Option.bind_some, Option.map_some, hsum, UInt16.ofNat_toNat]

def shortEscapes : List (CodeUnit × Char) :=
  [(34, '"'), (92, '\\'), (8, 'b'), (9, 't'), (10, 'n'), (12, 'f'), (13, 'r')]

def shortEscape (u : CodeUnit) : Option Char := (shortEscapes.find? fun p => p.1 == u).map Prod.snd

def unescape (c : Char) : Option CodeUnit :=
  if c = '/' then some 47 else (shortEscapes.find? fun p => p.2 == c).map Prod.fst

theorem shortEscape_spec {u : CodeUnit} {c : Char} (h : shortEscape u = some c) :
    unescape c = some u ∧ c ≠ 'u' := by
  obtain ⟨p, hp, rfl⟩ := Option.map_eq_some_iff.mp h
  have hu : p.1 = u := by simpa using List.find?_some hp
  have hall : ∀ p ∈ shortEscapes, unescape p.2 = some p.1 ∧ p.2 ≠ 'u' := by decide
  rw [← hu]
  exact hall p (List.mem_of_find?_eq_some hp)

theorem shortEscape_none {u : CodeUnit} (h : shortEscape u = none) :
    u.toNat ≠ 34 ∧ u.toNat ≠ 92 := by
  have hnone := List.find?_eq_none.mp (Option.map_eq_none_iff.mp h)
  have h34 := hnone (34, '"') (by decide)
  have h92 := hnone (92, '\\') (by decide)
  simp only [beq_iff_eq] at h34 h92
  exact ⟨fun hu => h34 (UInt16.toNat_inj.mp hu.symm), fun hu => h92 (UInt16.toNat_inj.mp hu.symm)⟩

def quoteUnit (u : CodeUnit) : List Char :=
  match shortEscape u with
  | some c => ['\\', c]
  | none => if u.toNat < 0x20 || isHigh u || isLow u then unicodeEscape u else [Char.ofNat u.toNat]

/-- The inside of the JSON string: well-formed, so a lone surrogate is escaped. -/
def quoteUnits : JsString → List Char
  | [] => []
  | [u] => quoteUnit u
  | u :: v :: rest =>
    if isHigh u && isLow v then pairChar u v :: quoteUnits rest
    else quoteUnit u ++ quoteUnits (v :: rest)

def quote (s : JsString) : List Char := '"' :: quoteUnits s ++ ['"']

/-- Reads the rest of a JSON string and what follows it. -/
def parseString : List Char → Option (JsString × List Char)
  | [] => none
  | c :: rest =>
    if c = '"' then some ([], rest)
    else if c = '\\' then
      match rest with
      | [] => none
      | e :: rest =>
        if e = 'u' then
          match rest with
          | h₁ :: h₂ :: h₃ :: h₄ :: rest =>
            (fromHex h₁ h₂ h₃ h₄).bind fun u => (parseString rest).map fun p => (u :: p.1, p.2)
          | _ => none
        else
          (unescape e).bind fun u => (parseString rest).map fun p => (u :: p.1, p.2)
    else if c.toNat < 0x20 then none
    else (parseString rest).map fun p => (unitsOf c ++ p.1, p.2)

theorem parseString_plain {c : Char} (hq : c.toNat ≠ 34) (hb : c.toNat ≠ 92)
    (hc : 0x20 ≤ c.toNat) (rest : List Char) :
    parseString (c :: rest) = (parseString rest).map fun p => (unitsOf c ++ p.1, p.2) := by
  have hq' : c ≠ '"' := fun h => hq (by rw [h]; rfl)
  have hb' : c ≠ '\\' := fun h => hb (by rw [h]; rfl)
  have hc' : ¬ c.toNat < 0x20 := by omega
  rw [parseString.eq_def]
  simp only [hq', hb', hc', if_false]

theorem parseString_end (rest : List Char) : parseString ('"' :: rest) = some ([], rest) := by
  rw [parseString.eq_def]
  simp only [if_true]

theorem parseString_unicodeEscape (u : CodeUnit) (rest : List Char) :
    parseString (unicodeEscape u ++ rest) =
      (parseString rest).map fun p => (u :: p.1, p.2) := by
  have hu := fromHex_unicodeEscape u
  simp only [unicodeEscape, List.cons_append, List.nil_append]
  rw [parseString.eq_def]
  simp only [if_true, hu, Option.bind_some, show ¬ ('\\' = '"') by decide, if_false]

theorem parseString_shortEscape {u : CodeUnit} {c : Char} (h : shortEscape u = some c)
    (rest : List Char) :
    parseString ('\\' :: c :: rest) = (parseString rest).map fun p => (u :: p.1, p.2) := by
  obtain ⟨hc, hne⟩ := shortEscape_spec h
  rw [parseString.eq_def]
  simp only [if_true, hne, if_false, hc, Option.bind_some, show ¬ ('\\' = '"') by decide]

theorem parseString_quoteUnit (u : CodeUnit) (rest : List Char) :
    parseString (quoteUnit u ++ rest) = (parseString rest).map fun p => (u :: p.1, p.2) := by
  unfold quoteUnit
  split
  · next c h => exact parseString_shortEscape h rest
  · next h =>
      obtain ⟨hq, hb⟩ := shortEscape_none h
      split
      · exact parseString_unicodeEscape u rest
      · next hplain =>
          simp only [Bool.or_eq_true, decide_eq_true_eq, not_or, Bool.not_eq_true] at hplain
          obtain ⟨⟨hc, hh⟩, hl⟩ := hplain
          have hunits := unitsOf_ofNat hh hl
          have hnat := toNat_ofNat_of_plain hh hl
          rw [List.singleton_append, parseString_plain (by omega) (by omega) (by omega), hunits]
          rfl

theorem parseString_quoteUnits (s : JsString) (rest : List Char) :
    parseString (quoteUnits s ++ '"' :: rest) = some (s, rest) := by
  fun_induction quoteUnits s with
  | case1 => exact parseString_end rest
  | case2 u =>
    rw [parseString_quoteUnit, parseString_end]
    rfl
  | case3 u v s h ih =>
    simp only [Bool.and_eq_true] at h
    have hunits := unitsOf_pairChar h.1 h.2
    generalize pairChar u v = c at hunits
    have hnat : ¬ c.toNat < 0x10000 := by
      intro hlt
      rw [unitsOf, if_pos hlt] at hunits
      cases hunits
    rw [List.cons_append, parseString_plain (by omega) (by omega) (by omega), ih, Option.map_some, hunits]
    rfl
  | case4 u v s h ih =>
    rw [List.append_assoc, parseString_quoteUnit, ih]
    rfl

end Gavea.Lib.Js
