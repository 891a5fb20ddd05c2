import Gavea.Lib.Utf8

namespace Gavea.Lib.Js

open List

def percentSign : CodeUnit := 37

def isDigitUnit (u : CodeUnit) : Bool := decide (48 ≤ u.toNat) && decide (u.toNat ≤ 57)

def isUpperUnit (u : CodeUnit) : Bool := decide (65 ≤ u.toNat) && decide (u.toNat ≤ 90)

def isLowerUnit (u : CodeUnit) : Bool := decide (97 ≤ u.toNat) && decide (u.toNat ≤ 122)

/-- The class `[0-9A-Za-z]`. -/
def isAlphanumeric (u : CodeUnit) : Bool := isDigitUnit u || isUpperUnit u || isLowerUnit u

def codePoints : JsString → Option (List Char)
  | [] => some []
  | [u] => if isHigh u || isLow u then none else some [Char.ofNat u.toNat]
  | u :: v :: rest =>
    if isHigh u then
      if isLow v then (codePoints rest).map fun t => pairChar u v :: t else none
    else if isLow u then none
    else (codePoints (v :: rest)).map fun t => Char.ofNat u.toNat :: t

def textUnits (t : List Char) : JsString := t.flatMap unitsOf

def WellPaired (s : JsString) : Prop := (codePoints s).isSome = true

instance (s : JsString) : Decidable (WellPaired s) := inferInstanceAs (Decidable (_ = _))

/-- The digit of `%XX`, as the encoder writes it. -/
def hexUnit (n : Nat) : CodeUnit := UInt16.ofNat (if n < 10 then 48 + n else 55 + n)

def hexUnitValue (u : CodeUnit) : Option Nat :=
  if isDigitUnit u then some (u.toNat - 48)
  else if 97 ≤ u.toNat ∧ u.toNat ≤ 102 then some (u.toNat - 87)
  else if 65 ≤ u.toNat ∧ u.toNat ≤ 70 then some (u.toNat - 55)
  else none

def percentByte (b : UInt8) : JsString := [percentSign, hexUnit (b.toNat / 16), hexUnit (b.toNat % 16)]

def percentBytes (bytes : List UInt8) : JsString := bytes.flatMap percentByte

/-- The escape of a character: each byte of its UTF-8 form. -/
def percentChar (c : Char) : JsString := percentBytes (String.utf8EncodeChar c)

/-- The characters that `encodeURIComponent` keeps. -/
def isUriUnescaped (c : Char) : Bool := c.isAlphanum || decide (c ∈ ['-', '_', '.', '!', '~', '*', '\'', '(', ')'])

def encodeURIComponent (s : JsString) : Option JsString :=
  (codePoints s).map fun t => t.flatMap fun c => if isUriUnescaped c then unitsOf c else percentChar c

def bytesText (bytes : List UInt8) : Option JsString :=
  bytes.toByteArray.utf8Decode?.map fun t => textUnits t.toList

def hexByte (a b : CodeUnit) : Option UInt8 :=
  (hexUnitValue a).bind fun high => (hexUnitValue b).map fun low => UInt8.ofNat (high * 16 + low)

/-- `decodeURIComponent`, after the escapes of `bytes`: throws at an escape that has no two
hexadecimal digits, and at escapes that are no UTF-8. -/
def decodeFrom (bytes : List UInt8) : JsString → Option JsString
  | [] => bytesText bytes
  | [u] =>
    if u = percentSign then none
    else (bytesText bytes).map fun t => t ++ [u]
  | [u, v] =>
    if u = percentSign then none
    else (bytesText bytes).bind fun t => (decodeFrom [] [v]).map fun s => t ++ u :: s
  | u :: a :: b :: rest =>
    if u = percentSign then (hexByte a b).bind fun byte => decodeFrom (bytes ++ [byte]) rest
    else (bytesText bytes).bind fun t => (decodeFrom [] (a :: b :: rest)).map fun s => t ++ u :: s

def decodeURIComponent (s : JsString) : Option JsString := decodeFrom [] s

theorem textUnits_cons (c : Char) (t : List Char) : textUnits (c :: t) = unitsOf c ++ textUnits t := flatMap_cons

@[simp] theorem textUnits_append (s t : List Char) :
    textUnits (s ++ t) = textUnits s ++ textUnits t :=
  flatMap_append

theorem percentBytes_cons (b : UInt8) (bytes : List UInt8) :
    percentBytes (b :: bytes) = percentByte b ++ percentBytes bytes :=
  flatMap_cons

theorem percentBytes_utf8Bytes (t : List Char) :
    percentBytes (utf8Bytes t) = t.flatMap percentChar := by
  rw [percentBytes, utf8Bytes, flatMap_assoc]
  rfl

theorem codePoints_cons_plain {u : CodeUnit} (hh : isHigh u = false) (hl : isLow u = false)
    (s : JsString) : codePoints (u :: s) = (codePoints s).map fun t => Char.ofNat u.toNat :: t := by
  cases s with
  | nil => simp [codePoints, hh, hl]
  | cons v rest => simp [codePoints, hh, hl]

theorem textUnits_codePoints {s : JsString} {t : List Char} (h : codePoints s = some t) :
    textUnits t = s := by
  induction s using codePoints.induct generalizing t with
  | case1 =>
    cases h
    rfl
  | case2 u hu => simp [codePoints, hu] at h
  | case3 u hu =>
    simp only [Bool.not_eq_true, Bool.or_eq_false_iff] at hu
    simp only [codePoints, hu.1, hu.2, Bool.or_self, Bool.false_eq_true, if_false, Option.some.injEq] at h
    rw [← h, textUnits_cons, unitsOf_ofNat hu.1 hu.2]
    rfl
  | case4 u v rest hu hv ih =>
    simp only [codePoints, hu, hv, if_true] at h
    obtain ⟨t', ht', rfl⟩ := Option.map_eq_some_iff.mp h
    rw [textUnits_cons, unitsOf_pairChar hu hv, ih ht']
    rfl
  | case5 u v rest hu hv => simp [codePoints, hu, hv] at h
  | case6 u v rest hh hl => simp [codePoints, hh, hl] at h
  | case7 u v rest hh hl ih =>
    rw [codePoints_cons_plain (by simpa using hh) (by simpa using hl)] at h
    obtain ⟨t', ht', rfl⟩ := Option.map_eq_some_iff.mp h
    rw [textUnits_cons, unitsOf_ofNat (by simpa using hh) (by simpa using hl), ih ht']
    rfl

theorem wellPaired_around {u : CodeUnit} (hh : isHigh u = false) (hl : isLow u = false)
    (s r : JsString) : WellPaired (s ++ u :: r) ↔ WellPaired s ∧ WellPaired r := by
  induction s using codePoints.induct with
  | case1 => simp [WellPaired, codePoints, codePoints_cons_plain hh hl]
  | case2 v hv => rcases Bool.or_eq_true_iff.mp hv with h | h <;> simp [WellPaired, codePoints, h, hl]
  | case3 v hv =>
    simp only [Bool.not_eq_true, Bool.or_eq_false_iff] at hv
    simp [WellPaired, codePoints, hv.1, hv.2, codePoints_cons_plain hh hl]
  | case4 v w rest hv hw ih => simpa [WellPaired, codePoints, hv, hw] using ih
  | case5 v w rest hv hw => simp [WellPaired, codePoints, hv, hw]
  | case6 v w rest hv hw => simp [WellPaired, codePoints, hv, hw]
  | case7 v w rest hv hw ih => simpa [WellPaired, codePoints, hv, hw] using ih

theorem hexUnitValue_hexUnit {n : Nat} (h : n < 16) : hexUnitValue (hexUnit n) = some n := by
  have hall : ∀ n, n < 16 → hexUnitValue (hexUnit n) = some n := by decide
  exact hall n h

theorem isAlphanumeric_hexUnit {n : Nat} (h : n < 16) : isAlphanumeric (hexUnit n) = true := by
  have hall : ∀ n, n < 16 → isAlphanumeric (hexUnit n) = true := by decide
  exact hall n h

theorem hexByte_percentByte (b : UInt8) :
    hexByte (hexUnit (b.toNat / 16)) (hexUnit (b.toNat % 16)) = some b := by
  have hlt := b.toNat_lt
  rw [hexByte, hexUnitValue_hexUnit (by omega), hexUnitValue_hexUnit (by omega), Option.bind_some,
    Option.map_some, show b.toNat / 16 * 16 + b.toNat % 16 = b.toNat by omega, UInt8.ofNat_toNat]

theorem bytesText_utf8Bytes (t : List Char) : bytesText (utf8Bytes t) = some (textUnits t) := by
  have hdecode : (utf8Bytes t).toByteArray.utf8Decode? = some t.toArray := utf8Decode?_utf8Encode
  rw [bytesText, hdecode, Option.map_some, toList_toArray]

theorem decodeFrom_percentBytes (bytes rest : List UInt8) :
    decodeFrom bytes (percentBytes rest) = bytesText (bytes ++ rest) := by
  induction rest generalizing bytes with
  | nil => simp [percentBytes, decodeFrom]
  | cons b rest ih =>
    rw [percentBytes_cons, percentByte]
    simp only [cons_append, nil_append, decodeFrom, if_true, hexByte_percentByte, Option.bind_some]
    rw [ih, append_assoc, singleton_append]

theorem decodeURIComponent_percentChars (t : List Char) :
    decodeURIComponent (t.flatMap percentChar) = some (textUnits t) := by
  rw [decodeURIComponent, ← percentBytes_utf8Bytes, decodeFrom_percentBytes, nil_append,
    bytesText_utf8Bytes]

/-- `e` is `s` with some of its characters escaped; the others are literal. -/
inductive Encoded (literal : CodeUnit → Prop) : JsString → JsString → Prop
  | nil : Encoded literal [] []
  | literal {u : CodeUnit} {e s : JsString} (hu : literal u) (h : Encoded literal e s) :
      Encoded literal (u :: e) (u :: s)
  | escaped (c : Char) {e s : JsString} (h : Encoded literal e s) :
      Encoded literal (percentChar c ++ e) (unitsOf c ++ s)

section encoded

variable {literal : CodeUnit → Prop} {e e' s s' : JsString}

theorem Encoded.append (h : Encoded literal e s) (h' : Encoded literal e' s') :
    Encoded literal (e ++ e') (s ++ s') := by
  induction h with
  | nil => exact h'
  | literal hu h ih => exact .literal hu ih
  | escaped c h ih =>
    rw [append_assoc, append_assoc]
    exact .escaped c ih

theorem Encoded.ofLiterals (h : ∀ u ∈ s, literal u) : Encoded literal s s := by
  induction s with
  | nil => exact .nil
  | cons u s ih => exact .literal (h u mem_cons_self) (ih fun v hv => h v (mem_cons_of_mem u hv))

theorem Encoded.ofChar (c : Char) : Encoded literal (percentChar c) (unitsOf c) := by
  simpa using @Encoded.escaped literal c _ _ .nil

theorem mem_percentChar {u : CodeUnit} {c : Char} (h : u ∈ percentChar c) :
    u = percentSign ∨ isAlphanumeric u = true := by
  obtain ⟨b, hb, hu⟩ := mem_flatMap.mp h
  have hlt := b.toNat_lt
  simp only [percentByte, mem_cons, not_mem_nil, or_false] at hu
  rcases hu with rfl | rfl | rfl
  · exact .inl rfl
  · exact .inr (isAlphanumeric_hexUnit (by omega))
  · exact .inr (isAlphanumeric_hexUnit (by omega))

theorem Encoded.mem (h : Encoded literal e s) {u : CodeUnit} (hu : u ∈ e) :
    literal u ∨ u = percentSign ∨ isAlphanumeric u = true := by
  induction h with
  | nil => cases hu
  | literal hv h ih =>
    rcases mem_cons.mp hu with rfl | hu
    · exact .inl hv
    · exact ih hu
  | escaped c h ih =>
    rcases mem_append.mp hu with hu | hu
    · exact .inr (mem_percentChar hu)
    · exact ih hu

theorem percentChar_eq_cons (c : Char) : ∃ r, percentChar c = percentSign :: r := by
  obtain ⟨b, bytes, hb⟩ := exists_cons_of_ne_nil (String.utf8EncodeChar_ne_nil (c := c))
  rw [percentChar, hb, percentBytes_cons, percentByte]
  exact ⟨_, rfl⟩

theorem Encoded.cons_inv {u : CodeUnit} (h : Encoded literal (u :: e) s) (hu : u ≠ percentSign) :
    ∃ r, s = u :: r ∧ Encoded literal e r := by
  generalize he : u :: e = e' at h
  cases h with
  | nil => cases he
  | literal hv h =>
    obtain ⟨rfl, rfl⟩ := List.cons.inj he
    exact ⟨_, rfl, h⟩
  | escaped c h =>
    obtain ⟨r, hr⟩ := percentChar_eq_cons c
    rw [hr, cons_append] at he
    exact absurd (List.cons.inj he).1 hu

theorem unitsOf_ne_nil (c : Char) : unitsOf c ≠ [] := by
  unfold unitsOf
  split <;> simp

theorem Encoded.eq_nil (h : Encoded literal e []) : e = [] := by
  generalize hs : ([] : JsString) = s at h
  cases h with
  | nil => rfl
  | literal hu h => cases hs
  | escaped c h => exact absurd (append_eq_nil_iff.mp hs.symm).1 (unitsOf_ne_nil c)

theorem isUriUnescaped_spec {c : Char} (h : isUriUnescaped c = true) :
    unitsOf c = [UInt16.ofNat c.toNat] ∧ c.toNat < 128 := by
  have hlt : c.toNat < 128 := by
    rcases Bool.or_eq_true_iff.mp h with h | h
    · change (decide (65 ≤ c.toNat ∧ c.toNat ≤ 90) || decide (97 ≤ c.toNat) && decide (c.toNat ≤ 122) ||
        decide (48 ≤ c.toNat) && decide (c.toNat ≤ 57)) = true at h
      simp only [Bool.or_eq_true, Bool.and_eq_true, decide_eq_true_eq] at h
      omega
    · simp only [decide_eq_true_eq] at h
      have hall : ['-', '_', '.', '!', '~', '*', '\'', '(', ')'].all
          (fun c => decide (c.toNat < 128)) = true := by decide
      exact of_decide_eq_true (all_eq_true.mp hall c h)
  exact ⟨by rw [unitsOf, if_pos (by omega)], hlt⟩

theorem encoded_text
    (hkept : ∀ c, isUriUnescaped c = true → literal (UInt16.ofNat c.toNat)) (t : List Char) :
    Encoded literal (t.flatMap fun c => if isUriUnescaped c then unitsOf c else percentChar c)
      (textUnits t) := by
  induction t with
  | nil => exact .nil
  | cons c t ih =>
    rw [flatMap_cons, textUnits_cons]
    refine Encoded.append ?_ ih
    split
    · next hc =>
        rw [(isUriUnescaped_spec hc).1]
        exact .ofLiterals (by simpa using hkept c hc)
    · exact .ofChar c

theorem encodeURIComponent_encoded
    (hkept : ∀ c, isUriUnescaped c = true → literal (UInt16.ofNat c.toNat)) (h : WellPaired s) :
    ∃ e, encodeURIComponent s = some e ∧ Encoded literal e s := by
  obtain ⟨t, ht⟩ := Option.isSome_iff_exists.mp h
  refine ⟨_, by rw [encodeURIComponent, ht, Option.map_some], ?_⟩
  rw [← textUnits_codePoints ht]
  exact encoded_text hkept t

end encoded

theorem length_unitsOf_le (c : Char) : (unitsOf c).length ≤ 2 := by
  unfold unitsOf
  split <;> simp

theorem length_textUnits_le (t : List Char) : (textUnits t).length ≤ 2 * t.length := by
  induction t with
  | nil => simp [textUnits]
  | cons c t ih =>
    have hc := length_unitsOf_le c
    rw [textUnits_cons, length_append, length_cons]
    omega

theorem length_le_utf8Bytes (t : List Char) : t.length ≤ (utf8Bytes t).length := by
  induction t with
  | nil => simp
  | cons c t ih =>
    have hc := length_pos_of_ne_nil (String.utf8EncodeChar_ne_nil (c := c))
    rw [utf8Bytes_cons, length_append, length_cons]
    omega

theorem length_bytesText_le {bytes : List UInt8} {s : JsString} (h : bytesText bytes = some s) :
    s.length ≤ 2 * bytes.length := by
  obtain ⟨t, ht, rfl⟩ := Option.map_eq_some_iff.mp h
  have hsome : bytes.toByteArray.utf8Decode?.isSome := by rw [ht]; rfl
  have hget : bytes.toByteArray.utf8Decode?.get hsome = t := by simp [ht]
  have hencode := ByteArray.utf8Encode_get_utf8Decode? (b := bytes.toByteArray) (h := hsome)
  rw [hget] at hencode
  have hlength := congrArg ByteArray.size hencode
  have hle := length_le_utf8Bytes t.toList
  have hunits := length_textUnits_le t.toList
  rw [List.utf8Encode, size_toByteArray, size_toByteArray] at hlength
  rw [utf8Bytes] at hle
  omega

theorem length_decodeFrom_le {bytes : List UInt8} {s r : JsString}
    (h : decodeFrom bytes s = some r) : r.length ≤ 2 * bytes.length + s.length := by
  induction bytes, s using decodeFrom.induct generalizing r with
  | case1 bytes =>
    have := length_bytesText_le h
    simp only [length_nil]
    omega
  | case2 bytes => simp [decodeFrom] at h
  | case3 bytes u hu =>
    simp only [decodeFrom, hu, if_false] at h
    obtain ⟨t, ht, rfl⟩ := Option.map_eq_some_iff.mp h
    have := length_bytesText_le ht
    simp only [length_append, length_cons, length_nil]
    omega
  | case4 bytes v => simp [decodeFrom] at h
  | case5 bytes u v hu ih =>
    simp only [decodeFrom, hu, if_false] at h
    obtain ⟨t, ht, h⟩ := Option.bind_eq_some_iff.mp h
    obtain ⟨s, hs, rfl⟩ := Option.map_eq_some_iff.mp h
    have := length_bytesText_le ht
    have := ih hs
    simp only [length_append, length_cons, length_nil] at *
    omega
  | case6 bytes a b rest ih =>
    simp only [decodeFrom, if_true] at h
    obtain ⟨byte, hbyte, h⟩ := Option.bind_eq_some_iff.mp h
    have := ih byte h
    simp only [length_append, length_cons, length_nil] at *
    omega
  | case7 bytes u a b rest hu ih =>
    simp only [decodeFrom, hu, if_false] at h
    obtain ⟨t, ht, h⟩ := Option.bind_eq_some_iff.mp h
    obtain ⟨s, hs, rfl⟩ := Option.map_eq_some_iff.mp h
    have := length_bytesText_le ht
    have := ih hs
    simp only [length_append, length_cons, length_nil] at *
    omega

end Gavea.Lib.Js
