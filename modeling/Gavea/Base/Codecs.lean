import Gavea.Lib.JsonLex

namespace Gavea.Base

open Gavea.Lib.Js

def base64Alphabet : JsString := ofText "ABCDEFGHIJKLMNOPQRSTUVWXYZabcdefghijklmnopqrstuvwxyz0123456789+/"

def base64UrlSafeAlphabet : JsString := ofText "ABCDEFGHIJKLMNOPQRSTUVWXYZabcdefghijklmnopqrstuvwxyz0123456789-_"

def padding : CodeUnit := 61

def encodeBase64 (buffer : List UInt8) (padded urlSafe : Bool) : JsString :=
  let dictionary := if urlSafe then base64UrlSafeAlphabet else base64Alphabet
  match buffer with
  | [] => []
  | [a] =>
    [dictionary.getD (a.toNat >>> 2) 0, dictionary.getD ((a.toNat <<< 4) &&& 0b111111) 0] ++
      if padded then [padding, padding] else []
  | [a, b] =>
    [dictionary.getD (a.toNat >>> 2) 0, dictionary.getD ((a.toNat <<< 4 ||| b.toNat >>> 4) &&& 0b111111) 0,
      dictionary.getD ((b.toNat <<< 2) &&& 0b111111) 0] ++
      if padded then [padding] else []
  | a :: b :: c :: rest =>
    dictionary.getD (a.toNat >>> 2) 0 ::
      dictionary.getD ((a.toNat <<< 4 ||| b.toNat >>> 4) &&& 0b111111) 0 ::
      dictionary.getD ((b.toNat <<< 2 ||| c.toNat >>> 6) &&& 0b111111) 0 ::
      dictionary.getD (c.toNat &&& 0b111111) 0 :: encodeBase64 rest padded urlSafe

/-- The variables of the decoder; the buffer is what is written so far. -/
structure Decoder where
  building : Nat
  remainder : Nat
  buffer : List UInt8

def Decoder.append (d : Decoder) (value : Nat) : Decoder :=
  match d.remainder with
  | 3 => { d with buffer := d.buffer ++ [UInt8.ofNat (d.building ||| value)], remainder := 0 }
  | 2 =>
    { buffer := d.buffer ++ [UInt8.ofNat (d.building ||| value >>> 2)]
      building := value <<< 6
      remainder := 3 }
  | 1 =>
    { buffer := d.buffer ++ [UInt8.ofNat (d.building ||| value >>> 4)]
      building := value <<< 4
      remainder := 2 }
  | _ => { d with building := value <<< 2, remainder := 1 }

/-- The value of a base64 character; the characters of both alphabets are read. -/
def sextet (code : CodeUnit) : Option Nat :=
  let n := code.toNat
  if 65 ≤ n ∧ n ≤ 90 then some (n - 65)
  else if 97 ≤ n ∧ n ≤ 122 then some (n - 97 + 26)
  else if 48 ≤ n ∧ n ≤ 57 then some (n - 48 + 52)
  else if n = 43 ∨ n = 45 then some 62
  else if n = 47 ∨ n = 95 then some 63
  else none

/-- The loop over the characters, which ends at the padding; the error is the character that
is none of the alphabet. -/
def decodeFrom (d : Decoder) : JsString → Except CodeUnit Decoder
  | [] => .ok d
  | code :: rest =>
    match sextet code with
    | some value => decodeFrom (d.append value) rest
    | none => if code = padding then .ok d else .error code

/-- Decodes base64 to a buffer. What is written after the loop lies behind the part that is
returned. -/
def decodeBase64 (encoded : JsString) : Except CodeUnit (List UInt8) :=
  (decodeFrom ⟨0, 0, []⟩ encoded).map Decoder.buffer

def dictionary (urlSafe : Bool) : JsString := if urlSafe then base64UrlSafeAlphabet else base64Alphabet

set_option maxRecDepth 4000 in
theorem sextet_dictionary (urlSafe : Bool) {n : Nat} (h : n < 64) :
    sextet ((dictionary urlSafe).getD n 0) = some n := by
  have hall : ∀ urlSafe n, n < 64 → sextet ((dictionary urlSafe).getD n 0) = some n := by decide
  exact hall urlSafe n h

theorem decodeFrom_dictionary (urlSafe : Bool) {n : Nat} (h : n < 64) (d : Decoder)
    (rest : JsString) :
    decodeFrom d ((dictionary urlSafe).getD n 0 :: rest) = decodeFrom (d.append n) rest := by
  rw [decodeFrom, sextet_dictionary urlSafe h]

theorem decodeFrom_padding (d : Decoder) (rest : JsString) :
    decodeFrom d (padding :: rest) = .ok d := by
  rw [decodeFrom, show sextet padding = none by decide]
  rfl

theorem and_sextet_lt (n : Nat) : n &&& 0b111111 < 64 := Nat.and_lt_two_pow n (by decide : _ < 2 ^ 6)

theorem shiftRight_two_lt (a : UInt8) : a.toNat >>> 2 < 64 := by
  have h := a.toNat_lt
  rw [Nat.shiftRight_eq_div_pow]
  omega

theorem shiftRight_four_lt (a : UInt8) : a.toNat >>> 4 < 2 ^ 4 := by
  have h := a.toNat_lt
  rw [Nat.shiftRight_eq_div_pow]
  omega

theorem shiftRight_six_lt (a : UInt8) : a.toNat >>> 6 < 2 ^ 2 := by
  have h := a.toNat_lt
  rw [Nat.shiftRight_eq_div_pow]
  omega

theorem testBit_of_lt {n k : Nat} (h : n < 2 ^ k) (j : Nat) (hj : k ≤ j) : n.testBit j = false :=
  Nat.testBit_lt_two_pow (lt_of_lt_of_le h (Nat.pow_le_pow_right (by decide) hj))

theorem ofNat_eq_of_testBit {n : Nat} (a : UInt8)
    (h : ∀ i, i < 8 → n.testBit i = a.toNat.testBit i) : UInt8.ofNat n = a := by
  have hmod : n % 2 ^ 8 = a.toNat := by
    refine Nat.eq_of_testBit_eq fun i => ?_
    rw [Nat.testBit_mod_two_pow]
    rcases lt_or_ge i 8 with hi | hi
    · simp [hi, h i hi]
    · simp [testBit_of_lt a.toNat_lt i hi, show ¬ i < 8 by omega]
  rw [← UInt8.toNat_inj, UInt8.toNat_ofNat', hmod]

theorem first_byte (a : UInt8) {low : Nat} (h : low < 2 ^ 4) :
    UInt8.ofNat ((a.toNat >>> 2) <<< 2 ||| ((a.toNat <<< 4 ||| low) &&& 0b111111) >>> 4) = a := by
  have hlow := testBit_of_lt h
  refine ofNat_eq_of_testBit a fun i hi => ?_
  rw [show 0b111111 = 2 ^ 6 - 1 by rfl]
  simp only [Nat.testBit_or, Nat.testBit_shiftLeft, Nat.testBit_shiftRight, Nat.testBit_and,
    Nat.testBit_two_pow_sub_one]
  grind

theorem second_byte (a : Nat) (b : UInt8) {low : Nat} (h : low < 2 ^ 2) :
    UInt8.ofNat (((a <<< 4 ||| b.toNat >>> 4) &&& 0b111111) <<< 4 |||
      ((b.toNat <<< 2 ||| low) &&& 0b111111) >>> 2) = b := by
  have hlow := testBit_of_lt h
  refine ofNat_eq_of_testBit b fun i hi => ?_
  rw [show 0b111111 = 2 ^ 6 - 1 by rfl]
  simp only [Nat.testBit_or, Nat.testBit_shiftLeft, Nat.testBit_shiftRight, Nat.testBit_and,
    Nat.testBit_two_pow_sub_one]
  grind

theorem third_byte (b : Nat) (c : UInt8) :
    UInt8.ofNat (((b <<< 2 ||| c.toNat >>> 6) &&& 0b111111) <<< 6 ||| (c.toNat &&& 0b111111)) =
      c := by
  refine ofNat_eq_of_testBit c fun i hi => ?_
  rw [show 0b111111 = 2 ^ 6 - 1 by rfl]
  simp only [Nat.testBit_or, Nat.testBit_shiftLeft, Nat.testBit_shiftRight, Nat.testBit_and,
    Nat.testBit_two_pow_sub_one]
  grind

theorem append_zero (building : Nat) (buffer : List UInt8) (value : Nat) :
    Decoder.append ⟨building, 0, buffer⟩ value = ⟨value <<< 2, 1, buffer⟩ := rfl

theorem append_one (building : Nat) (buffer : List UInt8) (value : Nat) :
    Decoder.append ⟨building, 1, buffer⟩ value =
      ⟨value <<< 4, 2, buffer ++ [UInt8.ofNat (building ||| value >>> 4)]⟩ := rfl

theorem append_two (building : Nat) (buffer : List UInt8) (value : Nat) :
    Decoder.append ⟨building, 2, buffer⟩ value =
      ⟨value <<< 6, 3, buffer ++ [UInt8.ofNat (building ||| value >>> 2)]⟩ := rfl

theorem append_three (building : Nat) (buffer : List UInt8) (value : Nat) :
    Decoder.append ⟨building, 3, buffer⟩ value = ⟨building, 0, buffer ++ [UInt8.ofNat (building ||| value)]⟩ := rfl

theorem decodeFrom_end (d : Decoder) (padded : Bool) (n : Nat) :
    decodeFrom d (if padded then padding :: List.replicate n padding else []) = .ok d := by
  cases padded with
  | true => exact decodeFrom_padding d _
  | false => rfl

theorem decodeFrom_encodeBase64 (bytes : List UInt8) (padded urlSafe : Bool) (building : Nat)
    (buffer : List UInt8) :
    (decodeFrom ⟨building, 0, buffer⟩ (encodeBase64 bytes padded urlSafe)).map Decoder.buffer =
      .ok (buffer ++ bytes) := by
  fun_induction encodeBase64 bytes padded urlSafe generalizing building buffer with
  | case1 => simp [decodeFrom, Except.map]
  | case2 used a =>
    have hend := decodeFrom_end ⟨(a.toNat <<< 4 &&& 0b111111) <<< 4, 2, buffer ++ [a]⟩ padded 1
    have ha := @first_byte a 0 (by decide)
    rw [Nat.or_zero] at ha
    rw [show used = dictionary urlSafe from rfl, List.cons_append, List.cons_append,
      List.nil_append, decodeFrom_dictionary urlSafe (shiftRight_two_lt a), append_zero,
      decodeFrom_dictionary urlSafe (and_sextet_lt _), append_one, ha]
    exact congrArg (Except.map Decoder.buffer) hend
  | case3 used a b =>
    have hend := decodeFrom_end ⟨(b.toNat <<< 2 &&& 0b111111) <<< 6, 3, buffer ++ [a] ++ [b]⟩ padded 0
    have hb := @second_byte a.toNat b 0 (by decide)
    rw [Nat.or_zero] at hb
    rw [show used = dictionary urlSafe from rfl, List.cons_append, List.cons_append, List.cons_append, List.nil_append,
      decodeFrom_dictionary urlSafe (shiftRight_two_lt a), append_zero, decodeFrom_dictionary urlSafe (and_sextet_lt _),
      append_one, first_byte a (shiftRight_four_lt b), decodeFrom_dictionary urlSafe (and_sextet_lt _), append_two, hb]
    have hjoin : buffer ++ [a, b] = buffer ++ [a] ++ [b] := by simp
    rw [hjoin]
    exact congrArg (Except.map Decoder.buffer) hend
  | case4 used a b c rest ih =>
    rw [show used = dictionary urlSafe from rfl, decodeFrom_dictionary urlSafe (shiftRight_two_lt a), append_zero,
      decodeFrom_dictionary urlSafe (and_sextet_lt _), append_one, first_byte a (shiftRight_four_lt b),
      decodeFrom_dictionary urlSafe (and_sextet_lt _), append_two, second_byte a.toNat b (shiftRight_six_lt c),
      decodeFrom_dictionary urlSafe (and_sextet_lt _), append_three, third_byte, ih]
    simp

theorem decodeBase64_encodeBase64 (bytes : List UInt8) (padded urlSafe : Bool) :
    decodeBase64 (encodeBase64 bytes padded urlSafe) = .ok bytes :=
  decodeFrom_encodeBase64 bytes padded urlSafe 0 []

open Gavea.Lib.Js List

structure BufferDecoder where
  building : Nat
  remainder : Nat
  bufi : Nat
  buffer : List UInt8

namespace BufferDecoder

def write (d : BufferDecoder) (value : Nat) : BufferDecoder :=
  { d with buffer := d.buffer.set d.bufi (UInt8.ofNat value), bufi := d.bufi + 1 }

def append (d : BufferDecoder) (value : Nat) : BufferDecoder :=
  match d.remainder with
  | 3 => { d.write (d.building ||| value) with remainder := 0 }
  | 2 => { d.write (d.building ||| value >>> 2) with building := value <<< 6, remainder := 3 }
  | 1 => { d.write (d.building ||| value >>> 4) with building := value <<< 4, remainder := 2 }
  | _ => { d with building := value <<< 2, remainder := 1 }

theorem remainder_append (d : BufferDecoder) (value : Nat) :
    (d.append value).remainder =
      match d.remainder with
      | 3 => 0
      | 2 => 3
      | 1 => 2
      | _ => 1 := by
  rw [append]
  split <;> rfl

/-- How often zeros are still appended. -/
def flushesLeft : Nat → Nat
  | 0 => 0
  | 1 => 3
  | 2 => 2
  | 3 => 1
  | _ => 4

theorem flushesLeft_append {d : BufferDecoder} (h : d.remainder > 0) (value : Nat) :
    flushesLeft (d.append value).remainder < flushesLeft d.remainder := by
  rw [remainder_append]
  match d.remainder, h with
  | 1, _ | 2, _ | 3, _ => decide
  | n + 4, _ => exact (by decide : 3 < 4)

def flush (d : BufferDecoder) : BufferDecoder := if d.remainder > 0 then flush (d.append 0) else d
termination_by flushesLeft d.remainder
decreasing_by next hpos => exact flushesLeft_append hpos 0

/-- The loop over the characters; the error is the character that is in no alphabet. -/
def decodeLoop (d : BufferDecoder) : JsString → Except CodeUnit BufferDecoder
  | [] => .ok d
  | code :: rest =>
    match sextet code with
    | some value => decodeLoop (d.append value) rest
    | none => if code = padding then .ok d else .error code

/-- `new Uint8Array(Math.floor(encoded.length / 4 * 3))` -/
def allocate (encoded : JsString) : BufferDecoder := ⟨0, 0, 0, List.replicate (encoded.length * 3 / 4) 0⟩

def decode (encoded : JsString) : Except CodeUnit (List UInt8) := do
  let d ← decodeLoop (allocate encoded) encoded
  let unpadded := d.bufi
  return slice d.flush.buffer 0 unpadded

def written (d : BufferDecoder) : Decoder := ⟨d.building, d.remainder, d.buffer.take d.bufi⟩

structure Within (d : BufferDecoder) (read : Nat) : Prop where
  remainder : d.remainder = read % 4
  bufi : d.bufi = read * 3 / 4
  inside : d.bufi ≤ d.buffer.length

theorem written_write {d : BufferDecoder} (h : d.bufi < d.buffer.length) (value building remainder : Nat) :
    written { d.write value with building := building, remainder := remainder } =
      ⟨building, remainder, d.written.buffer ++ [UInt8.ofNat value]⟩ := by
  refine congrArg (Decoder.mk building remainder) ?_
  show (d.buffer.set d.bufi (UInt8.ofNat value)).take (d.bufi + 1) = _
  rw [take_set, take_succ_eq_append_getElem h, set_append_right _ _ (by simp)]
  simp [written, Nat.min_eq_left h.le]

theorem within_write {d : BufferDecoder} {read : Nat} (h : d.Within read) (hread : 1 ≤ read % 4)
    (hroom : (read + 1) * 3 / 4 ≤ d.buffer.length) (value building : Nat) :
    Within { d.write value with building := building, remainder := (read + 1) % 4 } (read + 1) := by
  have hbufi := h.bufi
  obtain ⟨q, hq⟩ : ∃ q, read = 4 * q + 1 ∨ read = 4 * q + 2 ∨ read = 4 * q + 3 := ⟨read / 4, by omega⟩
  have hnext : d.bufi + 1 = (read + 1) * 3 / 4 := by
    rcases hq with rfl | rfl | rfl <;> omega
  refine ⟨rfl, hnext, ?_⟩
  show d.bufi + 1 ≤ (d.buffer.set d.bufi _).length
  rw [length_set, hnext]
  exact hroom

theorem append_spec {d : BufferDecoder} {read : Nat} (h : d.Within read)
    (hroom : (read + 1) * 3 / 4 ≤ d.buffer.length) (value : Nat) :
    (d.append value).Within (read + 1) ∧ (d.append value).written = d.written.append value ∧
      (d.append value).buffer.length = d.buffer.length := by
  have hremainder := h.remainder
  have hbufi := h.bufi
  have hwrite := @within_write d read h
  have hcases : read % 4 = 0 ∨ read % 4 = 1 ∨ read % 4 = 2 ∨ read % 4 = 3 := by omega
  rcases hcases with hr | hr | hr | hr
  all_goals
    rw [hr] at hremainder
    have hnext : (read + 1) % 4 = (read % 4 + 1) % 4 := by omega
    rw [hr] at hnext hwrite
    rw [hnext] at hwrite
    rw [append, Decoder.append, hremainder, show d.written.remainder = _ from hremainder]
    dsimp only
  · exact ⟨⟨hnext.symm, by show d.bufi = _; omega, h.inside⟩, rfl, rfl⟩
  · exact ⟨hwrite (by decide) hroom _ _, written_write (by omega) _ _ _, length_set⟩
  · exact ⟨hwrite (by decide) hroom _ _, written_write (by omega) _ _ _, length_set⟩
  · exact ⟨hwrite (by decide) hroom _ _, written_write (by omega) _ _ _, length_set⟩

def significant (encoded : JsString) : JsString := encoded.takeWhile (· ≠ padding)

/-- The loop fills the buffer as the characters are read, and never writes behind it. -/
theorem decodeLoop_spec {d : BufferDecoder} {read : Nat} (h : d.Within read) (encoded : JsString)
    (hroom : (read + encoded.length) * 3 / 4 ≤ d.buffer.length) :
    match decodeFrom d.written encoded with
    | .error code => decodeLoop d encoded = .error code
    | .ok w => ∃ d', decodeLoop d encoded = .ok d' ∧ d'.written = w ∧
        d'.Within (read + (significant encoded).length) ∧ d'.buffer.length = d.buffer.length := by
  induction encoded generalizing d read with
  | nil => exact ⟨d, rfl, rfl, h, rfl⟩
  | cons code rest ih =>
    rw [decodeFrom, decodeLoop]
    cases hsextet : sextet code with
    | none =>
      dsimp only
      by_cases hpadding : code = padding
      · rw [if_pos hpadding, if_pos hpadding]
        have hnil : significant (code :: rest) = [] := by simp [significant, hpadding]
        rw [hnil]
        exact ⟨d, rfl, rfl, h, rfl⟩
      · rw [if_neg hpadding, if_neg hpadding]
    | some value =>
      dsimp only
      rw [length_cons] at hroom
      have hpadding : code ≠ padding := by
        rintro rfl
        exact nomatch (show sextet padding = none by decide).symm.trans hsextet
      have hmore : significant (code :: rest) = code :: significant rest := by
        simp [significant, hpadding]
      obtain ⟨hwithin, hwritten, hlength⟩ := append_spec h (by omega) value
      have hrest := ih hwithin (by rw [hlength]; omega)
      rw [hwritten] at hrest
      rw [hmore, length_cons, show read + ((significant rest).length + 1) =
        read + 1 + (significant rest).length by omega]
      cases hfrom : decodeFrom (d.written.append value) rest with
      | error code' =>
        rw [hfrom] at hrest
        exact hrest
      | ok w =>
        rw [hfrom] at hrest
        obtain ⟨d', hloop, hw, hwithin', hlength'⟩ := hrest
        exact ⟨d', hloop, hw, hwithin', hlength'.trans hlength⟩

theorem flush_spec (d : BufferDecoder) :
    d.flush.buffer.length = d.buffer.length ∧
      d.flush.buffer.take d.bufi = d.buffer.take d.bufi ∧
      (d.remainder ≤ 3 → d.flush.bufi = d.bufi + flushesLeft d.remainder) := by
  fun_induction flush d with
  | case1 d hpos ih =>
    obtain ⟨hlength, htake, hbufi⟩ := ih
    have hstep : (d.append 0).buffer.length = d.buffer.length ∧
        (d.append 0).buffer.take d.bufi = d.buffer.take d.bufi ∧ d.bufi ≤ (d.append 0).bufi := by
      rw [append]
      split
      all_goals simp [write, take_set, set_eq_of_length_le (length_take_le d.bufi d.buffer)]
    obtain ⟨hlength', htake', hle⟩ := hstep
    refine ⟨hlength.trans hlength', ?_, fun hthree => ?_⟩
    · rw [← htake', ← Nat.min_eq_left hle, ← take_take, htake, take_take]
    · have hcases : d.remainder = 1 ∨ d.remainder = 2 ∨ d.remainder = 3 := by omega
      have hnext := remainder_append d 0
      rcases hcases with hr | hr | hr
      all_goals
        rw [hr] at hnext
        have hmore : (d.append 0).bufi = d.bufi + 1 := by
          rw [append, hr]
          rfl
        rw [hbufi (by rw [hnext]; decide), hnext, hmore, hr]
        rfl
  | case2 d hzero =>
    refine ⟨rfl, rfl, fun _ => ?_⟩
    rw [Nat.eq_zero_of_not_pos hzero]
    rfl

theorem within_allocate (encoded : JsString) : (allocate encoded).Within 0 := ⟨rfl, rfl, Nat.zero_le _⟩

theorem decode_of_loop {encoded : JsString} {d : BufferDecoder}
    (h : decodeLoop (allocate encoded) encoded = .ok d) :
    decode encoded = .ok (d.buffer.take d.bufi) := by
  rw [decode, h]
  refine congrArg Except.ok ?_
  rw [slice_eq _ (le_refl 0) (Int.natCast_nonneg _), Int.toNat_natCast]
  exact (flush_spec d).2.1

theorem decode_eq (encoded : JsString) : decode encoded = decodeBase64 encoded := by
  have hspec := @decodeLoop_spec (allocate encoded) 0 (within_allocate encoded) encoded (by simp [allocate])
  rw [decodeBase64]
  rw [show (allocate encoded).written = ⟨0, 0, []⟩ by simp [written, allocate]] at hspec
  cases hfrom : decodeFrom ⟨0, 0, []⟩ encoded with
  | error code =>
    rw [hfrom] at hspec
    rw [decode, hspec]
    rfl
  | ok w =>
    rw [hfrom] at hspec
    obtain ⟨d, hloop, rfl, -⟩ := hspec
    exact decode_of_loop hloop

theorem flush_room {read n : Nat} (h : read ≤ n) :
    read * 3 / 4 + flushesLeft (read % 4) ≤ n * 3 / 4 ↔
      read % 4 = 0 ∨ 4 * (read / 4 + 1) ≤ n := by
  obtain ⟨q, hq⟩ : ∃ q, read = 4 * q ∨ read = 4 * q + 1 ∨ read = 4 * q + 2 ∨ read = 4 * q + 3 := ⟨read / 4, by omega⟩
  rcases hq with rfl | rfl | rfl | rfl
  · rw [show 4 * q % 4 = 0 by omega, show flushesLeft 0 = 0 from rfl]
    omega
  · rw [show (4 * q + 1) % 4 = 1 by omega, show flushesLeft 1 = 3 from rfl]
    omega
  · rw [show (4 * q + 2) % 4 = 2 by omega, show flushesLeft 2 = 2 from rfl]
    omega
  · rw [show (4 * q + 3) % 4 = 3 by omega, show flushesLeft 3 = 1 from rfl]
    omega

theorem writes_of_loop {encoded : JsString} {d : BufferDecoder}
    (h : decodeLoop (allocate encoded) encoded = .ok d) :
    d.bufi ≤ (allocate encoded).buffer.length ∧
      (d.flush.bufi ≤ (allocate encoded).buffer.length ↔
        (significant encoded).length % 4 = 0 ∨
          4 * ((significant encoded).length / 4 + 1) ≤ encoded.length) := by
  have hspec := @decodeLoop_spec (allocate encoded) 0 (within_allocate encoded) encoded (by simp [allocate])
  cases hfrom : decodeFrom (allocate encoded).written encoded with
  | error code =>
    rw [hfrom] at hspec
    exact nomatch h.symm.trans hspec
  | ok w =>
    rw [hfrom] at hspec
    obtain ⟨d', hloop, -, hwithin, hlength⟩ := hspec
    obtain rfl := Except.ok.inj (h.symm.trans hloop)
    have hinside := hwithin.inside
    have hremainder := hwithin.remainder
    have hbufi := hwithin.bufi
    have hflush := (flush_spec d).2.2 (by omega)
    have hroom : (allocate encoded).buffer.length = encoded.length * 3 / 4 := by simp [allocate]
    rw [Nat.zero_add] at hremainder hbufi
    refine ⟨hlength ▸ hinside, ?_⟩
    rw [hflush, hremainder, hbufi, hroom]
    exact flush_room (takeWhile_sublist _).length_le

set_option maxRecDepth 8000 in
theorem mem_dictionary_of_sextet {code : CodeUnit} {value : Nat} (h : sextet code = some value) :
    code ∈ dictionary false ∨ code ∈ dictionary true := by
  have hsmall : ∀ n < 128, (sextet (UInt16.ofNat n)).isSome = true →
      UInt16.ofNat n ∈ dictionary false ∨ UInt16.ofNat n ∈ dictionary true := by decide
  have hlt : code.toNat < 128 := by
    by_contra hlarge
    rw [sextet] at h
    rw [if_neg (by omega), if_neg (by omega), if_neg (by omega), if_neg (by omega), if_neg (by omega)] at h
    exact nomatch h
  have hcode := hsmall code.toNat hlt
  rw [UInt16.ofNat_toNat] at hcode
  exact hcode (by rw [h]; rfl)

theorem length_dictionary (urlSafe : Bool) : (dictionary urlSafe).length = 64 := by
  cases urlSafe <;> rfl

theorem sextet_isSome_of_mem_dictionary {code : CodeUnit} {urlSafe : Bool}
    (h : code ∈ dictionary urlSafe) : (sextet code).isSome = true := by
  obtain ⟨n, hn, rfl⟩ := mem_iff_getElem.mp h
  have hsextet := sextet_dictionary urlSafe (length_dictionary urlSafe ▸ hn)
  rw [getD_eq_getElem?_getD, getElem?_eq_getElem hn, Option.getD_some] at hsextet
  rw [hsextet]
  rfl

theorem sextet_isSome_of_mem {code : CodeUnit}
    (h : code ∈ dictionary false ∨ code ∈ dictionary true) : (sextet code).isSome = true :=
  h.elim sextet_isSome_of_mem_dictionary sextet_isSome_of_mem_dictionary

theorem decodeFrom_isOk_iff (d : Decoder) (encoded : JsString) :
    (∃ w, decodeFrom d encoded = .ok w) ↔
      ∀ code ∈ significant encoded, code ∈ dictionary false ∨ code ∈ dictionary true := by
  induction encoded generalizing d with
  | nil => exact ⟨fun _ _ h => (nomatch h), fun _ => ⟨d, rfl⟩⟩
  | cons code rest ih =>
    rw [decodeFrom]
    by_cases hpadding : code = padding
    · subst hpadding
      have hnil : significant (padding :: rest) = [] := by simp [significant]
      rw [show sextet padding = none by decide, hnil]
      exact ⟨fun _ _ h => (nomatch h), fun _ => ⟨d, rfl⟩⟩
    · have hmore : significant (code :: rest) = code :: significant rest := by
        simp [significant, hpadding]
      rw [hmore, forall_mem_cons]
      cases hsextet : sextet code with
      | some value =>
        dsimp only
        rw [ih, and_iff_right (mem_dictionary_of_sextet hsextet)]
      | none =>
        dsimp only
        rw [if_neg hpadding]
        refine ⟨fun ⟨_, h⟩ => (nomatch h), fun h => ?_⟩
        have hsome := sextet_isSome_of_mem h.1
        rw [hsextet] at hsome
        exact nomatch hsome

theorem decode_isOk_iff (encoded : JsString) :
    (∃ bytes, decode encoded = .ok bytes) ↔
      ∀ code ∈ significant encoded, code ∈ dictionary false ∨ code ∈ dictionary true := by
  rw [decode_eq, decodeBase64, ← decodeFrom_isOk_iff ⟨0, 0, []⟩ encoded]
  cases decodeFrom ⟨0, 0, []⟩ encoded with
  | error code => exact ⟨fun ⟨_, h⟩ => (nomatch h), fun ⟨_, h⟩ => (nomatch h)⟩
  | ok w => exact ⟨fun _ => ⟨w, rfl⟩, fun _ => ⟨w.buffer, rfl⟩⟩

end BufferDecoder

def hexChars : JsString := ofText "0123456789abcdef"

def encodeHex (buffer : List UInt8) : JsString :=
  buffer.flatMap fun byte => [hexChars.getD (byte.toNat >>> 4) 0, hexChars.getD (byte.toNat &&& 0x0f) 0]

inductive HexError
  | oddLength
  | invalidCharacter (position : Nat)

def decodeHexChar (code : CodeUnit) (position : Nat) : Except HexError Nat :=
  let s := code.toNat
  if 48 ≤ s ∧ s ≤ 57 then .ok (s - 48)
  else if 97 ≤ s ∧ s ≤ 102 then .ok (s - 87)
  else if 65 ≤ s ∧ s ≤ 70 then .ok (s - 55)
  else .error (.invalidCharacter position)

def decodeHexLoop : Nat → JsString → Except HexError (List UInt8)
  | i, high :: low :: rest => do
      let h ← decodeHexChar high i
      let l ← decodeHexChar low (i + 1)
      let out ← decodeHexLoop (i + 2) rest
      return UInt8.ofNat (h <<< 4 ||| l) :: out
  | _, _ => .ok []

def decodeHex (hex : JsString) : Except HexError (List UInt8) :=
  if hex.length % 2 ≠ 0 then .error .oddLength else decodeHexLoop 0 hex

theorem decodeHexChar_hexChars {n : Nat} (h : n < 16) (position : Nat) :
    decodeHexChar (hexChars.getD n 0) position = .ok n := by
  have hall : ∀ n < 16, 48 ≤ (hexChars.getD n 0).toNat ∧ (hexChars.getD n 0).toNat ≤ 57 ∧
        (hexChars.getD n 0).toNat - 48 = n ∨
      97 ≤ (hexChars.getD n 0).toNat ∧ (hexChars.getD n 0).toNat ≤ 102 ∧ (hexChars.getD n 0).toNat - 87 = n := by decide
  rw [decodeHexChar]
  rcases hall n h with ⟨hlow, hhigh, hn⟩ | ⟨hlow, hhigh, hn⟩
  · rw [if_pos ⟨hlow, hhigh⟩, hn]
  · rw [if_neg (by omega), if_pos ⟨hlow, hhigh⟩, hn]

theorem hex_byte (a : UInt8) : UInt8.ofNat ((a.toNat >>> 4) <<< 4 ||| (a.toNat &&& 0x0f)) = a := by
  refine ofNat_eq_of_testBit a fun i hi => ?_
  rw [show 0x0f = 2 ^ 4 - 1 by rfl]
  simp only [Nat.testBit_or, Nat.testBit_shiftLeft, Nat.testBit_shiftRight, Nat.testBit_and,
    Nat.testBit_two_pow_sub_one]
  grind

theorem decodeHexLoop_encodeHex (bytes : List UInt8) (i : Nat) :
    decodeHexLoop i (encodeHex bytes) = .ok bytes := by
  induction bytes generalizing i with
  | nil => rfl
  | cons a bytes ih =>
    have hcons : encodeHex (a :: bytes) = hexChars.getD (a.toNat >>> 4) 0 ::
        hexChars.getD (a.toNat &&& 0x0f) 0 :: encodeHex bytes := rfl
    rw [hcons, decodeHexLoop, decodeHexChar_hexChars (shiftRight_four_lt a),
      decodeHexChar_hexChars (Nat.and_lt_two_pow _ (by decide : _ < 2 ^ 4)), ih]
    exact congrArg (fun b => Except.ok (b :: bytes)) (hex_byte a)

theorem length_encodeHex (bytes : List UInt8) : (encodeHex bytes).length = 2 * bytes.length := by
  induction bytes with
  | nil => rfl
  | cons a bytes ih =>
    have hcons : encodeHex (a :: bytes) = hexChars.getD (a.toNat >>> 4) 0 ::
        hexChars.getD (a.toNat &&& 0x0f) 0 :: encodeHex bytes := rfl
    rw [hcons, length_cons, length_cons, ih, length_cons]
    omega

theorem decodeHex_encodeHex (bytes : List UInt8) : decodeHex (encodeHex bytes) = .ok bytes := by
  rw [decodeHex, length_encodeHex, if_neg (by omega), decodeHexLoop_encodeHex]

open BufferDecoder in
/-- Both codecs read back what they have written, the base64 decoder accepts the strings of the
alphabets, and only the zeros behind its loop can be assigned outside of the buffer, where the
text lacks its padding and behind all that is returned. -/
theorem codecs_roundTrip :
    (∀ bytes padded urlSafe, decode (encodeBase64 bytes padded urlSafe) = .ok bytes) ∧
      (∀ encoded, (∃ bytes, decode encoded = .ok bytes) ↔
        ∀ code ∈ significant encoded, code ∈ base64Alphabet ∨ code ∈ base64UrlSafeAlphabet) ∧
      (∀ encoded d, decodeLoop (allocate encoded) encoded = .ok d →
        d.bufi ≤ (allocate encoded).buffer.length ∧ decode encoded = .ok (d.buffer.take d.bufi) ∧
          d.flush.buffer.take d.bufi = d.buffer.take d.bufi ∧
          (d.flush.bufi ≤ (allocate encoded).buffer.length ↔
            (significant encoded).length % 4 = 0 ∨ 4 * ((significant encoded).length / 4 + 1) ≤ encoded.length)) ∧
      ∀ bytes, decodeHex (encodeHex bytes) = .ok bytes := by
  refine ⟨fun bytes padded urlSafe => ?_, decode_isOk_iff, fun encoded d hloop => ?_,
    decodeHex_encodeHex⟩
  · rw [decode_eq, decodeBase64_encodeBase64]
  · obtain ⟨hinside, hflush⟩ := writes_of_loop hloop
    exact ⟨hinside, decode_of_loop hloop, (flush_spec d).2.1, hflush⟩

open BufferDecoder in
/-- The zeros behind the two characters `QQ` are assigned to the second and the third byte of a
buffer of one byte. -/
theorem codecs_outside_of_unpadded :
    ∃ d, decodeLoop (allocate [81, 81]) [81, 81] = .ok d ∧
      (allocate [81, 81]).buffer.length < d.flush.bufi := by
  refine ⟨((allocate [81, 81]).append 16).append 16, rfl, ?_⟩
  rw [(flush_spec _).2.2 (by decide)]
  decide

end Gavea.Base
