import Gavea.Lib.EditDistance
import Gavea.Lib.Js

namespace Gavea.Diff

open Gavea.Lib.Js Gavea.Lib.EditDistance

/-- What the bitwise operators of the language work on; `+` is followed by one of them. -/
abbrev Int32 := BitVec 32

abbrev EqualityArray := CodeUnit → Int32

def shiftedOne (k : Nat) : Int32 := 1#32 <<< (k % 32)

def charCodeAt (str : JsString) (index : Nat) : CodeUnit := str.getD index 0

def orShiftedOne (str : JsString) (k : Nat) (equality : EqualityArray) : EqualityArray :=
  Function.update equality (charCodeAt str k) (equality (charCodeAt str k) ||| shiftedOne k)

def resetAt (str : JsString) (k : Nat) (equality : EqualityArray) : EqualityArray :=
  Function.update equality (charCodeAt str k) 0

/-- `while (index--)` -/
def countDown (f : Nat → EqualityArray → EqualityArray) : Nat → EqualityArray → EqualityArray
  | 0, equality => equality
  | index + 1, equality => countDown f index (f index equality)

def countUp (f : Nat → EqualityArray → EqualityArray) (start : Nat) : Nat → EqualityArray →
    EqualityArray
  | 0, equality => equality
  | count + 1, equality => f (start + count) (countUp f start count equality)

structure ShortState where
  positiveVector : Int32
  negativeVector : Int32
  distance : Int

def shortStep (lastBitMask : Int32) (equality : EqualityArray) (st : ShortState)
    (charCode : CodeUnit) :
    ShortState :=
  let equalityMask := equality charCode
  let combinedVector := equalityMask ||| st.negativeVector
  let equalityMask := equalityMask |||
    (((equalityMask &&& st.positiveVector) + st.positiveVector) ^^^ st.positiveVector)
  let negativeVector := st.negativeVector ||| ~~~(equalityMask ||| st.positiveVector)
  let positiveVector := st.positiveVector &&& equalityMask
  let distance := if negativeVector &&& lastBitMask ≠ 0 then st.distance + 1 else st.distance
  let distance := if positiveVector &&& lastBitMask ≠ 0 then distance - 1 else distance
  let negativeVector := (negativeVector <<< 1) ||| 1#32
  let positiveVector := (positiveVector <<< 1) ||| ~~~(combinedVector ||| negativeVector)
  ⟨positiveVector, negativeVector &&& combinedVector, distance⟩

def computeLevenshteinDistanceForShortStrings (equality : EqualityArray)
    (firstString secondString : JsString) : Int × EqualityArray :=
  let lastBitMask := shiftedOne (firstString.length - 1)
  let equality := countDown (orShiftedOne firstString) firstString.length equality
  let st := secondString.foldl (shortStep lastBitMask equality) ⟨-1#32, 0#32, firstString.length⟩
  (st.distance, countDown (resetAt firstString) firstString.length equality)

structure LongState where
  positiveVector : Int32
  negativeVector : Int32
  horizontalBitArray : List Int32
  verticalBitArray : List Int32

def bitAt (bits : List Int32) (i : Nat) : Int32 := (bits.getD (i / 32) 0 >>> (i % 32)) &&& 1#32

def toggle (bits : List Int32) (i : Nat) (vector bit : Int32) : List Int32 :=
  if (vector >>> 31) ^^^ bit ≠ 0 then bits.modify (i / 32) (· ^^^ shiftedOne i) else bits

/-- One character of the first string, with the horizontal vectors before they are shifted. -/
def longStep (equality : EqualityArray) (i : Nat) (charCode : CodeUnit) (st : LongState) :
    LongState × Int32 × Int32 :=
  let equalityMask := equality charCode
  let previousBit := bitAt st.horizontalBitArray i
  let matchBit := bitAt st.verticalBitArray i
  let combinedVector := equalityMask ||| st.negativeVector
  let combinedHorizontalVector := ((((equalityMask ||| matchBit) &&& st.positiveVector) +
    st.positiveVector) ^^^ st.positiveVector) ||| equalityMask ||| matchBit
  let positiveHorizontalVector := st.negativeVector |||
    ~~~(combinedHorizontalVector ||| st.positiveVector)
  let negativeHorizontalVector := st.positiveVector &&& combinedHorizontalVector
  let horizontalBitArray := toggle st.horizontalBitArray i positiveHorizontalVector previousBit
  let verticalBitArray := toggle st.verticalBitArray i negativeHorizontalVector matchBit
  let shiftedPositive := (positiveHorizontalVector <<< 1) ||| previousBit
  let shiftedNegative := (negativeHorizontalVector <<< 1) ||| matchBit
  (⟨shiftedNegative ||| ~~~(combinedVector ||| shiftedPositive), shiftedPositive &&& combinedVector,
    horizontalBitArray, verticalBitArray⟩, positiveHorizontalVector, negativeHorizontalVector)

def blockLoop (equality : EqualityArray) : Nat → List CodeUnit → LongState → LongState
  | _, [], st => st
  | i, charCode :: rest, st => blockLoop equality (i + 1) rest (longStep equality i charCode st).1

def blocksLoop (firstString secondString : JsString) :
    Nat → Nat → EqualityArray → List Int32 × List Int32 → EqualityArray × List Int32 × List Int32
  | 0, _, equality, bits => (equality, bits)
  | blocks + 1, verticalIndex, equality, bits =>
    let start := verticalIndex * 32
    let count := min 32 secondString.length
    let equality := countUp (orShiftedOne secondString) start count equality
    let st := blockLoop equality 0 firstString ⟨-1#32, 0#32, bits.1, bits.2⟩
    let equality := countUp (resetAt secondString) start count equality
    blocksLoop firstString secondString blocks (verticalIndex + 1) equality (st.horizontalBitArray, st.verticalBitArray)

def lastLoop (equality : EqualityArray) (secondStringLength : Nat) :
    Nat → List CodeUnit → LongState → Int → Int
  | _, [], _, distance => distance
  | i, charCode :: rest, st, distance =>
    let (st, positiveHorizontalVector, negativeHorizontalVector) := longStep equality i charCode st
    let shift := (secondStringLength - 1) % 32
    let distance := distance + ((positiveHorizontalVector >>> shift) &&& 1#32).toNat
    let distance := distance - ((negativeHorizontalVector >>> shift) &&& 1#32).toNat
    lastLoop equality secondStringLength (i + 1) rest st distance

def computeLevenshteinDistanceForLongStrings (equality : EqualityArray)
    (firstString secondString : JsString) : Int × EqualityArray :=
  let horizontalSize := (firstString.length + 31) / 32
  let verticalSize := (secondString.length + 31) / 32
  let (equality, bits) := blocksLoop firstString secondString (verticalSize - 1) 0 equality
    (List.replicate horizontalSize (-1#32), List.replicate horizontalSize 0#32)
  let start := (verticalSize - 1) * 32
  let count := min 32 (secondString.length - start)
  let equality := countUp (orShiftedOne secondString) start count equality
  let distance := lastLoop equality secondString.length 0 firstString ⟨-1#32, 0#32, bits.1, bits.2⟩
    secondString.length
  (distance, countUp (resetAt secondString) start count equality)

def computeLevenshteinDistance (equality : EqualityArray) (firstString secondString : JsString) :
    Int × EqualityArray :=
  let (firstString, secondString) := if firstString.length < secondString.length then
    (secondString, firstString) else (firstString, secondString)
  if secondString.length = 0 then (firstString.length, equality)
  else if firstString.length ≤ 32 then
    computeLevenshteinDistanceForShortStrings equality firstString secondString
  else computeLevenshteinDistanceForLongStrings equality firstString secondString

section EqualityArray

variable {str : JsString} {equality : EqualityArray} {c : CodeUnit}

theorem getLsbD_shiftedOne (k i : Nat) : (shiftedOne k).getLsbD i = decide (i = k % 32) := by
  have hlt := Nat.mod_lt k (by decide : 32 > 0)
  rw [shiftedOne, BitVec.getLsbD_shiftLeft, BitVec.getLsbD_one]
  by_cases heq : i = k % 32
  · simp [heq, hlt]
  · simp only [heq, decide_false]
    by_cases hi : i < k % 32
    · simp [hi]
    · have hne : i - k % 32 ≠ 0 := by omega
      simp [hne]

theorem orShiftedOne_apply (str : JsString) (k : Nat) (equality : EqualityArray) (c : CodeUnit)
    (i : Nat) :
    (orShiftedOne str k equality c).getLsbD i =
      ((equality c).getLsbD i || (decide (charCodeAt str k = c) && decide (i = k % 32))) := by
  rw [orShiftedOne]
  by_cases heq : charCodeAt str k = c
  · rw [decide_eq_true heq, ← heq, Function.update_self, BitVec.getLsbD_or, getLsbD_shiftedOne, Bool.true_and]
  · rw [Function.update_of_ne (Ne.symm heq), decide_eq_false heq, Bool.false_and, Bool.or_false]

theorem resetAt_apply (str : JsString) (k : Nat) (equality : EqualityArray) (c : CodeUnit) :
    resetAt str k equality c = if charCodeAt str k = c then 0 else equality c := by
  rw [resetAt]
  by_cases heq : charCodeAt str k = c
  · rw [← heq, Function.update_self, if_pos rfl]
  · rw [Function.update_of_ne (Ne.symm heq), if_neg heq]

theorem charCodeAt_eq_iff {k : Nat} (h : k < str.length) :
    charCodeAt str k = c ↔ str[k]? = some c := by
  rw [charCodeAt, List.getD_eq_getElem?_getD, List.getElem?_eq_getElem h, Option.getD_some, Option.some.injEq]

theorem countUp_orShiftedOne {start count : Nat} (hstart : start % 32 = 0) (hcount : count ≤ 32)
    (hle : start + count ≤ str.length) {i : Nat} :
    (countUp (orShiftedOne str) start count (fun _ => 0) c).getLsbD i = true ↔
      i < count ∧ str[start + i]? = some c := by
  induction count with
  | zero => simp [countUp]
  | succ count ih =>
    have hmod : (start + count) % 32 = count := by omega
    rw [countUp, orShiftedOne_apply, Bool.or_eq_true, ih (by omega) (by omega), Bool.and_eq_true,
      decide_eq_true_eq, decide_eq_true_eq, charCodeAt_eq_iff (by omega), hmod]
    constructor
    · rintro (⟨hlt, heq⟩ | ⟨heq, rfl⟩)
      · exact ⟨by omega, heq⟩
      · exact ⟨by omega, heq⟩
    · rintro ⟨hlt, heq⟩
      rcases Nat.lt_succ_iff_lt_or_eq.mp hlt with hlt | rfl
      · exact .inl ⟨hlt, heq⟩
      · exact .inr ⟨heq, rfl⟩

theorem countDown_orShiftedOne {count : Nat} (hcount : count ≤ 32) (hle : count ≤ str.length)
    {i : Nat} :
    (countDown (orShiftedOne str) count equality c).getLsbD i = true ↔
      (equality c).getLsbD i = true ∨ i < count ∧ str[i]? = some c := by
  induction count generalizing equality with
  | zero => simp [countDown]
  | succ count ih =>
    have hmod : count % 32 = count := by omega
    rw [countDown, ih (by omega) (by omega), orShiftedOne_apply, Bool.or_eq_true, Bool.and_eq_true,
      decide_eq_true_eq, decide_eq_true_eq, charCodeAt_eq_iff (by omega), hmod, or_assoc]
    refine or_congr_right ⟨?_, fun ⟨hlt, heq⟩ => ?_⟩
    · rintro (⟨heq, rfl⟩ | ⟨hlt, heq⟩)
      · exact ⟨by omega, heq⟩
      · exact ⟨by omega, heq⟩
    · rcases Nat.lt_succ_iff_lt_or_eq.mp hlt with hlt | rfl
      · exact .inr ⟨hlt, heq⟩
      · exact .inl ⟨heq, rfl⟩

theorem countUp_orShiftedOne_of_ne {start count : Nat}
    (h : ∀ k, k < count → charCodeAt str (start + k) ≠ c) :
    countUp (orShiftedOne str) start count equality c = equality c := by
  induction count with
  | zero => rfl
  | succ count ih =>
    rw [countUp, orShiftedOne, Function.update_of_ne (h count (by omega)).symm, ih fun k hk => h k (by omega)]

theorem countDown_orShiftedOne_of_ne {count : Nat} (h : ∀ k, k < count → charCodeAt str k ≠ c) :
    countDown (orShiftedOne str) count equality c = equality c := by
  induction count generalizing equality with
  | zero => rfl
  | succ count ih =>
    rw [countDown, ih fun k hk => h k (by omega), orShiftedOne, Function.update_of_ne (h count (by omega)).symm]

theorem countUp_resetAt {start count : Nat}
    (h : equality c = 0 ∨ ∃ k, k < count ∧ charCodeAt str (start + k) = c) :
    countUp (resetAt str) start count equality c = 0 := by
  induction count with
  | zero => exact h.resolve_right fun ⟨k, hk, _⟩ => absurd hk (Nat.not_lt_zero k)
  | succ count ih =>
    rw [countUp, resetAt_apply]
    split_ifs with heq
    · rfl
    · refine ih (h.imp_right fun ⟨k, hk, hc⟩ => ⟨k, ?_, hc⟩)
      rcases Nat.lt_succ_iff_lt_or_eq.mp hk with hlt | rfl
      · exact hlt
      · exact absurd hc heq

theorem countDown_resetAt {count : Nat}
    (h : equality c = 0 ∨ ∃ k, k < count ∧ charCodeAt str k = c) :
    countDown (resetAt str) count equality c = 0 := by
  induction count generalizing equality with
  | zero => exact h.resolve_right fun ⟨k, hk, _⟩ => absurd hk (Nat.not_lt_zero k)
  | succ count ih =>
    rw [countDown]
    refine ih ?_
    rw [resetAt_apply]
    split_ifs with heq
    · exact .inl rfl
    · refine h.imp_right fun ⟨k, hk, hc⟩ => ⟨k, ?_, hc⟩
      rcases Nat.lt_succ_iff_lt_or_eq.mp hk with hlt | rfl
      · exact hlt
      · exact absurd hc heq

theorem countUp_reset_set (str : JsString) (start count : Nat) :
    countUp (resetAt str) start count (countUp (orShiftedOne str) start count fun _ => 0) =
      fun _ => 0 := by
  funext c
  refine countUp_resetAt ?_
  by_cases h : ∃ k, k < count ∧ charCodeAt str (start + k) = c
  · exact .inr h
  · exact .inl (countUp_orShiftedOne_of_ne fun k hk heq => h ⟨k, hk, heq⟩)

theorem countDown_reset_set (str : JsString) (count : Nat) :
    countDown (resetAt str) count (countDown (orShiftedOne str) count fun _ => 0) = fun _ => 0 := by
  funext c
  refine countDown_resetAt ?_
  by_cases h : ∃ k, k < count ∧ charCodeAt str k = c
  · exact .inr h
  · exact .inl (countDown_orShiftedOne_of_ne fun k hk heq => h ⟨k, hk, heq⟩)

end EqualityArray

section Column

variable {E P N matchBit previousBit : Int32}

def combined (E P matchBit : Int32) : Int32 := ((((E ||| matchBit) &&& P) + P) ^^^ P) ||| E ||| matchBit

theorem getLsbD_combined {k : Nat} (hk : k < 32) : (combined E P matchBit).getLsbD k =
    ((E ||| matchBit).getLsbD k || BitVec.carry k ((E ||| matchBit) &&& P) P false) := by
  rw [combined, BitVec.or_assoc, BitVec.getLsbD_or, BitVec.getLsbD_xor, BitVec.getLsbD_add hk, BitVec.getLsbD_and]
  generalize (E ||| matchBit).getLsbD k = e
  generalize P.getLsbD k = p
  generalize BitVec.carry k ((E ||| matchBit) &&& P) P false = carry
  cases e <;> cases p <;> cases carry <;> rfl

theorem getLsbD_combined_zero :
    (combined E P matchBit).getLsbD 0 = (E ||| matchBit).getLsbD 0 := by
  rw [getLsbD_combined (by decide), BitVec.carry_zero, Bool.or_false]

theorem getLsbD_combined_succ {k : Nat} (hk : k + 1 < 32) :
    (combined E P matchBit).getLsbD (k + 1) =
      ((E ||| matchBit).getLsbD (k + 1) || (P.getLsbD k && (combined E P matchBit).getLsbD k)) := by
  rw [getLsbD_combined hk, getLsbD_combined (by omega), BitVec.carry_succ, BitVec.getLsbD_and]
  generalize (E ||| matchBit).getLsbD k = e
  generalize P.getLsbD k = p
  generalize BitVec.carry k ((E ||| matchBit) &&& P) P false = carry
  cases e <;> cases p <;> cases carry <;> rfl

def IsBit (word : Int32) (b : Bool) : Prop := ∀ k, word.getLsbD k = (decide (k = 0) && b)

variable {a b : List CodeUnit} {r n j : Nat}

def Encodes (a b : List CodeUnit) (r n j : Nat) (P N : Int32) : Prop :=
  ∀ k, k < n → (P.getLsbD k = true ↔ vertical a b (r + k) j = 1) ∧ (N.getLsbD k = true ↔ vertical a b (r + k) j = -1)

/-- What comes into a block of rows: the equal characters and the step along the row on top. -/
structure Incoming (a b : List CodeUnit) (r n j : Nat) (E previousBit matchBit : Int32) : Prop where
  le : n ≤ 32
  equal : ∀ k, k < n → (E.getLsbD k = true ↔ a[r + k]? = b[j]?)
  previous : IsBit previousBit (decide (horizontal a b r j = 1))
  matches_ : IsBit matchBit (decide (horizontal a b r j = -1))

theorem or_isBit_zero (hm : IsBit matchBit (decide (horizontal a b r j = -1))) :
    (E ||| matchBit).getLsbD 0 = true ↔ E.getLsbD 0 = true ∨ horizontal a b r j = -1 := by
  rw [BitVec.getLsbD_or, hm, Bool.or_eq_true, decide_eq_true rfl, Bool.true_and, decide_eq_true_eq]

theorem or_isBit_succ {m : Bool} (hm : IsBit matchBit m) (k : Nat) :
    (E ||| matchBit).getLsbD (k + 1) = E.getLsbD (k + 1) := by
  rw [BitVec.getLsbD_or, hm, decide_eq_false (Nat.succ_ne_zero k), Bool.false_and, Bool.or_false]

theorem combined_iff (h : Incoming a b r n j E previousBit matchBit) (henc : Encodes a b r n j P N)
    {k : Nat} (hk : k < n) : (combined E P matchBit).getLsbD k = true ↔
      a[r + k]? = b[j]? ∨ horizontal a b (r + k) j = -1 := by
  have hle := h.le
  induction k with
  | zero => rw [getLsbD_combined_zero, or_isBit_zero h.matches_, h.equal 0 hk, add_zero]
  | succ k ih =>
    have hcell := (cell_steps a b (r + k) j).2.1
    have hprev : (combined E P matchBit).getLsbD k = true ↔
        a[r + k]? = b[j]? ∨ horizontal a b (r + k) j = -1 := ih (by omega)
    rw [getLsbD_combined_succ (by omega), or_isBit_succ h.matches_, Bool.or_eq_true,
      Bool.and_eq_true, h.equal (k + 1) hk, hprev, (henc k (by omega)).1, ← add_assoc, hcell, Free]
    refine or_congr_right (and_congr_right fun hv => ?_)
    have hne : vertical a b (r + k) j ≠ -1 := by rw [hv]; decide
    rw [or_iff_right hne]

theorem horizontal_bits (h : Incoming a b r n j E previousBit matchBit)
    (henc : Encodes a b r n j P N) {k : Nat} (hk : k < n) :
    ((N ||| ~~~(combined E P matchBit ||| P)).getLsbD k = true ↔ horizontal a b (r + k + 1) j = 1) ∧
      ((P &&& combined E P matchBit).getLsbD k = true ↔ horizontal a b (r + k + 1) j = -1) := by
  have hle := h.le
  obtain ⟨hpos, hneg⟩ := henc k hk
  have hcombined := combined_iff h henc hk
  obtain ⟨hcell1, hcell2, -, -⟩ := cell_steps a b (r + k) j
  have hk32 : k < 32 := by omega
  have hfree : Free a b (r + k) j ↔ vertical a b (r + k) j = -1 ∨
      (combined E P matchBit).getLsbD k = true := by
    rw [hcombined, Free, or_left_comm]
  rw [hcell1, hcell2, hfree, ← hpos, ← hneg, BitVec.getLsbD_or, BitVec.getLsbD_not,
    BitVec.getLsbD_or, BitVec.getLsbD_and, decide_eq_true hk32, Bool.true_and]
  have hne : ¬(P.getLsbD k = true ∧ N.getLsbD k = true) := by
    rw [hpos, hneg]
    omega
  generalize P.getLsbD k = p at hne
  generalize N.getLsbD k = m at hne
  generalize (combined E P matchBit).getLsbD k = c
  revert hne
  cases p <;> cases m <;> cases c <;> decide

theorem shifted_bits {word bit : Int32} {value : Int}
    (hword : ∀ k, k < n → (word.getLsbD k = true ↔ horizontal a b (r + k + 1) j = value))
    (hbit : IsBit bit (decide (horizontal a b r j = value))) (hle : n ≤ 32) {k : Nat} (hk : k < n) :
    ((word <<< 1) ||| bit).getLsbD k = true ↔ horizontal a b (r + k) j = value := by
  rw [BitVec.getLsbD_or, BitVec.getLsbD_shiftLeft, hbit]
  cases k with
  | zero => simp
  | succ k =>
    have hk32 : k + 1 < 32 := by omega
    simpa [hk32, add_assoc] using hword k (by omega)

theorem encodes_next (h : Incoming a b r n j E previousBit matchBit) (henc : Encodes a b r n j P N) :
    Encodes a b r n (j + 1)
      (((P &&& combined E P matchBit) <<< 1 ||| matchBit) ||| ~~~((E ||| N) |||
        ((N ||| ~~~(combined E P matchBit ||| P)) <<< 1 ||| previousBit)))
      (((N ||| ~~~(combined E P matchBit ||| P)) <<< 1 ||| previousBit) &&& (E ||| N)) := by
  intro k hk
  have hle := h.le
  have hk32 : k < 32 := by omega
  have hpositive := shifted_bits (fun k hk => (horizontal_bits h henc hk).1) h.previous hle hk
  have hnegative := shifted_bits (fun k hk => (horizontal_bits h henc hk).2) h.matches_ hle hk
  obtain ⟨-, hneg⟩ := henc k hk
  obtain ⟨-, -, hcell3, hcell4⟩ := cell_steps a b (r + k) j
  have hfree : Free a b (r + k) j ↔ horizontal a b (r + k) j = -1 ∨
      E.getLsbD k = true ∨ N.getLsbD k = true := by
    rw [h.equal k hk, hneg, Free, or_comm, or_assoc, or_comm, or_assoc]
  rw [hcell3, hcell4, hfree, ← hpositive, ← hnegative]
  generalize ((N ||| ~~~(combined E P matchBit ||| P)) <<< 1 ||| previousBit) = PH at hpositive
  generalize ((P &&& combined E P matchBit) <<< 1 ||| matchBit) = MH at hnegative
  have hne : ¬(PH.getLsbD k = true ∧ MH.getLsbD k = true) := by
    rw [hpositive, hnegative]
    omega
  rw [BitVec.getLsbD_or, BitVec.getLsbD_not, BitVec.getLsbD_or, BitVec.getLsbD_and,
    BitVec.getLsbD_or, decide_eq_true hk32, Bool.true_and]
  generalize PH.getLsbD k = p at hne
  generalize MH.getLsbD k = m at hne
  generalize E.getLsbD k = e
  generalize N.getLsbD k = c
  revert hne
  cases p <;> cases m <;> cases e <;> cases c <;> decide

end Column

theorem isBit_one : IsBit 1#32 true := by
  intro k
  rw [BitVec.getLsbD_one, Bool.and_true, decide_eq_true (by decide : 0 < 32), Bool.true_and]

theorem isBit_zero : IsBit 0#32 false := by
  intro k
  rw [BitVec.getLsbD_zero, Bool.and_false]

theorem IsBit.eq {word : Int32} {bit : Bool} (h : IsBit word bit) :
    word = if bit then 1#32 else 0#32 := by
  refine BitVec.eq_of_getLsbD_eq fun k _ => ?_
  rw [h]
  cases bit with
  | false => exact (isBit_zero k).symm
  | true => exact (isBit_one k).symm

theorem IsBit.ne_zero_iff {word : Int32} {bit : Bool} (h : IsBit word bit) :
    word ≠ 0 ↔ bit = true := by
  rw [h.eq]
  cases bit <;> decide

theorem IsBit.toNat_eq {word : Int32} {bit : Bool} (h : IsBit word bit) :
    (word.toNat : Int) = if bit then 1 else 0 := by
  rw [h.eq]
  cases bit <;> rfl

theorem isBit_shiftRight (word : Int32) (k : Nat) :
    IsBit ((word >>> k) &&& 1#32) (word.getLsbD k) := by
  intro i
  rw [BitVec.getLsbD_and, BitVec.getLsbD_ushiftRight, isBit_one i, Bool.and_true, Bool.and_comm]
  by_cases hi : i = 0
  · rw [hi, add_zero]
  · rw [decide_eq_false hi, Bool.false_and, Bool.false_and]

theorem and_shiftedOne_ne_zero {word : Int32} {k : Nat} (hk : k < 32) :
    word &&& shiftedOne k ≠ 0 ↔ word.getLsbD k = true := by
  constructor
  · intro hne
    by_contra hbit
    refine hne (BitVec.eq_of_getLsbD_eq fun i _ => ?_)
    rw [BitVec.getLsbD_and, getLsbD_shiftedOne, Nat.mod_eq_of_lt hk]
    by_cases hi : i = k
    · rw [hi, (Bool.not_eq_true _).mp hbit, Bool.false_and]
      exact BitVec.getLsbD_zero.symm
    · simp [hi]
  · intro hbit hzero
    have hget := congrArg (fun w : Int32 => w.getLsbD k) hzero
    simp only [BitVec.getLsbD_and, getLsbD_shiftedOne, Nat.mod_eq_of_lt hk, hbit] at hget
    simp at hget

section Short

variable {a b : List CodeUnit} {j : Nat} {st : ShortState} {equality : EqualityArray}

theorem incoming_top {r n : Nat} {E : Int32} (hle : n ≤ 32)
    (hE : ∀ k, k < n → (E.getLsbD k = true ↔ a[r + k]? = b[j]?)) (hr : r = 0) :
    Incoming a b r n j E 1#32 0#32 := by
  subst hr
  have hstep := horizontal_zero a b j
  refine ⟨hle, hE, ?_, ?_⟩
  · rw [hstep]
    exact isBit_one
  · rw [hstep]
    exact isBit_zero

structure ShortInv (a b : List CodeUnit) (j : Nat) (st : ShortState) : Prop where
  encodes : Encodes a b 0 a.length j st.positiveVector st.negativeVector
  distance : st.distance = distanceAt a b a.length j

theorem encodes_zero (a b : List CodeUnit) (r : Nat) {n : Nat} (hle : n ≤ 32) :
    Encodes a b r n 0 (-1#32) 0#32 := by
  intro k hk
  have hones : (-1#32).getLsbD k = true := by
    rw [BitVec.neg_one_eq_allOnes, BitVec.getLsbD_allOnes]
    exact decide_eq_true (by omega)
  rw [vertical_zero_right, hones, BitVec.getLsbD_zero]
  decide

theorem shortInv_start (hle : a.length ≤ 32) : ShortInv a b 0 ⟨-1#32, 0#32, a.length⟩ := by
  refine ⟨encodes_zero a b 0 hle, ?_⟩
  rw [distanceAt_zero_right]

theorem horizontal_cases (a b : List CodeUnit) (i j : Nat) :
    horizontal a b i j = 1 ∨ horizontal a b i j = 0 ∨ horizontal a b i j = -1 := by
  have h1 := distanceAt_succ_right_le a b i j
  have h2 := le_distanceAt_succ_right a b i j
  rw [horizontal]
  omega

theorem shortStep_spec (hpos : 0 < a.length) (hle : a.length ≤ 32) {c : CodeUnit}
    (hE : ∀ k, k < a.length → ((equality c).getLsbD k = true ↔ a[k]? = b[j]?))
    (h : ShortInv a b j st) :
    ShortInv a b (j + 1) (shortStep (shiftedOne (a.length - 1)) equality st c) := by
  obtain ⟨P, N, distance⟩ := st
  have hin : Incoming a b 0 a.length j (equality c) 1#32 0#32 :=
    incoming_top hle (by simpa only [zero_add] using hE) rfl
  have hcombined : equality c ||| (((equality c &&& P) + P) ^^^ P) = combined (equality c) P 0#32
      := by
    rw [combined, BitVec.or_zero, BitVec.or_zero, BitVec.or_comm]
  have hnext := encodes_next hin h.encodes
  have hbits := horizontal_bits hin h.encodes (k := a.length - 1) (by omega)
  have hrow : 0 + (a.length - 1) + 1 = a.length := by omega
  rw [hrow] at hbits
  have hvalue := h.distance
  have hstep : (distanceAt a b a.length (j + 1) : Int) =
      distanceAt a b a.length j + horizontal a b a.length j := by
    rw [horizontal]
    omega
  refine ⟨?_, ?_⟩
  · rw [BitVec.or_zero] at hnext
    simp only [shortStep, hcombined]
    exact hnext
  · simp only [shortStep, hcombined]
    rw [hstep, ← hvalue]
    simp only [and_shiftedOne_ne_zero (show a.length - 1 < 32 by omega)]
    obtain ⟨hplus, hminus⟩ := hbits
    simp only [hplus, hminus]
    rcases horizontal_cases a b a.length j with hcase | hcase | hcase <;> simp [hcase, sub_eq_add_neg]

theorem foldl_shortStep (hpos : 0 < a.length) (hle : a.length ≤ 32)
    (hE : ∀ c k, k < a.length → ((equality c).getLsbD k = true ↔ a[k]? = some c))
    {rest : List CodeUnit} (hrest : b.drop j = rest) (h : ShortInv a b j st) :
    ShortInv a b (j + rest.length) (rest.foldl (shortStep (shiftedOne (a.length - 1)) equality) st)
        := by
  induction rest generalizing j st with
  | nil => exact h
  | cons c rest ih =>
    have hget : b[j]? = some c := by
      rw [← List.head?_drop, hrest, List.head?_cons]
    have hnext : b.drop (j + 1) = rest := by
      rw [← List.tail_drop, hrest, List.tail_cons]
    rw [List.length_cons, List.foldl_cons, ← add_assoc, add_right_comm]
    refine ih hnext (shortStep_spec hpos hle (fun k hk => ?_) h)
    rw [hget]
    exact hE c k hk

theorem computeLevenshteinDistanceForShortStrings_spec (a b : List CodeUnit) (hpos : 0 < a.length)
    (hle : a.length ≤ 32) : computeLevenshteinDistanceForShortStrings (fun _ => 0) a b =
      ((editDistance a b : Int), fun _ => 0) := by
  have hE (c : CodeUnit) (k : Nat) (hk : k < a.length) :
      ((countDown (orShiftedOne a) a.length (fun _ => 0) c).getLsbD k = true ↔ a[k]? = some c) := by
    rw [countDown_orShiftedOne hle le_rfl, and_iff_right hk]
    exact or_iff_right fun h => absurd (BitVec.getLsbD_zero.symm.trans h) (by decide)
  have hfold := foldl_shortStep hpos hle hE (List.drop_zero (l := b)) (shortInv_start hle)
  rw [zero_add] at hfold
  simp only [computeLevenshteinDistanceForShortStrings, hfold.distance, countDown_reset_set, editDistance]

end Short

section Carried

variable {bits : List Int32} {vector bit : Int32} {i : Nat}

def bitOf (bits : List Int32) (i : Nat) : Bool := (bits.getD (i / 32) 0).getLsbD (i % 32)

theorem isBit_bitAt (bits : List Int32) (i : Nat) : IsBit (bitAt bits i) (bitOf bits i) := isBit_shiftRight _ _

theorem isBit_high (vector : Int32) : IsBit (vector >>> 31) (vector.getLsbD 31) := by
  intro k
  rw [BitVec.getLsbD_ushiftRight]
  by_cases hk : k = 0
  · rw [hk, decide_eq_true rfl, Bool.true_and]
  · rw [decide_eq_false hk, Bool.false_and]
    exact BitVec.getLsbD_of_ge _ _ (by omega)

theorem high_xor_ne_zero (vector : Int32) {b : Bool} (hbit : IsBit bit b) :
    (vector >>> 31) ^^^ bit ≠ 0 ↔ (vector.getLsbD 31 ^^ b) = true := by
  refine IsBit.ne_zero_iff fun k => ?_
  rw [BitVec.getLsbD_xor, isBit_high, hbit]
  cases decide (k = 0) <;> cases vector.getLsbD 31 <;> cases b <;> rfl

theorem length_toggle : (toggle bits i vector bit).length = bits.length := by
  rw [toggle]
  split_ifs
  · rw [List.length_modify]
  · rfl

theorem bitOf_modify (hi : i < 32 * bits.length) (k : Nat) :
    bitOf (bits.modify (i / 32) (· ^^^ shiftedOne i)) k = (bitOf bits k ^^ decide (k = i)) := by
  have hlt : i / 32 < bits.length := by omega
  rw [bitOf, bitOf, List.getD_eq_getElem?_getD, List.getElem?_modify, List.getD_eq_getElem?_getD]
  by_cases hword : i / 32 = k / 32
  · simp only [if_pos hword]
    rw [← hword, List.getElem?_eq_getElem hlt, Option.map_eq_map, Option.map_some, Option.getD_some,
      Option.getD_some, BitVec.getLsbD_xor, getLsbD_shiftedOne]
    congr 1
    exact decide_eq_decide.mpr (by omega)
  · have hne : k ≠ i := fun heq => hword (by rw [heq])
    simp only [if_neg hword]
    rw [decide_eq_false hne, Bool.xor_false, Option.map_eq_map, Option.map_id']

theorem bitOf_toggle (vector : Int32) (hbit : IsBit bit (bitOf bits i)) (hi : i < 32 * bits.length)
    (k : Nat) :
    bitOf (toggle bits i vector bit) k = if k = i then vector.getLsbD 31 else bitOf bits k := by
  rw [toggle]
  have hcond := high_xor_ne_zero vector hbit
  by_cases hne : (vector >>> 31) ^^^ bit ≠ 0
  · rw [if_pos hne, bitOf_modify hi]
    have hxor := hcond.mp hne
    by_cases hk : k = i
    · rw [if_pos hk, decide_eq_true hk, hk]
      revert hxor
      cases vector.getLsbD 31 <;> cases bitOf bits i <;> decide
    · rw [if_neg hk, decide_eq_false hk, Bool.xor_false]
  · rw [if_neg hne]
    have hxor := mt hcond.mpr hne
    by_cases hk : k = i
    · rw [if_pos hk, hk]
      revert hxor
      cases vector.getLsbD 31 <;> cases bitOf bits i <;> decide
    · rw [if_neg hk]

theorem bitOf_replicate {size : Nat} (word : Int32) (hi : i < 32 * size) :
    bitOf (List.replicate size word) i = word.getLsbD (i % 32) := by
  have hlt : i / 32 < size := by omega
  rw [bitOf, List.getD_eq_getElem?_getD, List.getElem?_replicate, if_pos hlt, Option.getD_some]

end Carried

section Block

variable {a b : List CodeUnit} {r n i : Nat} {st : LongState} {equality : EqualityArray}

def Boundary (a b : List CodeUnit) (r i : Nat) (bits : List Int32 × List Int32) : Prop :=
  (bitOf bits.1 i = true ↔ horizontal a b r i = 1) ∧ (bitOf bits.2 i = true ↔ horizontal a b r i = -1)

structure BlockInv (a b : List CodeUnit) (r n i : Nat) (st : LongState) : Prop where
  encodes : Encodes a b r n i st.positiveVector st.negativeVector
  horizontalSize : b.length ≤ 32 * st.horizontalBitArray.length
  verticalSize : b.length ≤ 32 * st.verticalBitArray.length
  ahead : ∀ k, i ≤ k → k < b.length → Boundary a b r k (st.horizontalBitArray, st.verticalBitArray)
  behind : n = 32 → ∀ k, k < i → Boundary a b (r + 32) k (st.horizontalBitArray, st.verticalBitArray)

theorem isBit_of_iff {word : Int32} {bit : Bool} {p : Prop} [Decidable p] (h : IsBit word bit)
    (hbit : bit = true ↔ p) : IsBit word (decide p) := by
  have heq : decide p = bit := by
    cases bit with
    | false => exact decide_eq_false (mt hbit.mpr Bool.false_ne_true)
    | true => exact decide_eq_true (hbit.mp rfl)
  rw [heq]
  exact h

theorem longStep_spec (hle : n ≤ 32) (hi : i < b.length) {c : CodeUnit}
    (hE : ∀ k, k < n → ((equality c).getLsbD k = true ↔ a[r + k]? = b[i]?))
    (h : BlockInv a b r n i st) :
    BlockInv a b r n (i + 1) (longStep equality i c st).1 ∧
      ∀ k, k < n → ((longStep equality i c st).2.1.getLsbD k = true ↔ horizontal a b (r + k + 1) i
          = 1) ∧
        ((longStep equality i c st).2.2.getLsbD k = true ↔ horizontal a b (r + k + 1) i = -1) := by
  obtain ⟨P, N, H, V⟩ := st
  obtain ⟨hprevious, hmatch⟩ := h.ahead i le_rfl hi
  have hin : Incoming a b r n i (equality c) (bitAt H i) (bitAt V i) :=
    ⟨hle, hE, isBit_of_iff (isBit_bitAt H i) hprevious, isBit_of_iff (isBit_bitAt V i) hmatch⟩
  have hbits (k : Nat) (hk : k < n) := horizontal_bits hin h.encodes hk
  have hH : i < 32 * H.length := lt_of_lt_of_le hi h.horizontalSize
  have hV : i < 32 * V.length := lt_of_lt_of_le hi h.verticalSize
  have htoggleH (k : Nat) := bitOf_toggle
      (N ||| ~~~(combined (equality c) P (bitAt V i) ||| P))
    (isBit_bitAt H i) hH k
  have htoggleV (k : Nat) := bitOf_toggle (P &&& combined (equality c) P (bitAt V i)) (isBit_bitAt V i) hV k
  refine ⟨⟨encodes_next hin h.encodes, ?_, ?_, ?_, ?_⟩, hbits⟩
  · exact h.horizontalSize.trans_eq (congrArg _ length_toggle.symm)
  · exact h.verticalSize.trans_eq (congrArg _ length_toggle.symm)
  · intro k hk hlt
    have hne : k ≠ i := by omega
    have hold := h.ahead k (by omega) hlt
    refine ⟨?_, ?_⟩
    · rw [← hold.1]
      exact iff_of_eq (congrArg (· = true) ((htoggleH k).trans (if_neg hne)))
    · rw [← hold.2]
      exact iff_of_eq (congrArg (· = true) ((htoggleV k).trans (if_neg hne)))
  · intro hn k hk
    rcases Nat.lt_succ_iff_lt_or_eq.mp hk with hlt | rfl
    · have hne : k ≠ i := by omega
      have hold := h.behind hn k hlt
      refine ⟨?_, ?_⟩
      · rw [← hold.1]
        exact iff_of_eq (congrArg (· = true) ((htoggleH k).trans (if_neg hne)))
      · rw [← hold.2]
        exact iff_of_eq (congrArg (· = true) ((htoggleV k).trans (if_neg hne)))
    · have hlast := hbits 31 (by omega)
      refine ⟨?_, ?_⟩
      · refine Iff.trans ?_ hlast.1
        exact iff_of_eq (congrArg (· = true) ((htoggleH k).trans (if_pos rfl)))
      · refine Iff.trans ?_ hlast.2
        exact iff_of_eq (congrArg (· = true) ((htoggleV k).trans (if_pos rfl)))

def Masks (a : List CodeUnit) (r n : Nat) (equality : EqualityArray) : Prop :=
  ∀ c k, k < n → ((equality c).getLsbD k = true ↔ a[r + k]? = some c)

theorem masks_countUp (start count : Nat) (hstart : start % 32 = 0) (hcount : count ≤ 32)
    (hle : start + count ≤ a.length) :
    Masks a start count (countUp (orShiftedOne a) start count fun _ => 0) := by
  intro c k hk
  rw [countUp_orShiftedOne hstart hcount hle, and_iff_right hk]

theorem drop_cons {rest : List CodeUnit} {c : CodeUnit} (hrest : b.drop i = c :: rest) :
    i < b.length ∧ b[i]? = some c ∧ b.drop (i + 1) = rest := by
  have hget : b[i]? = some c := by
    rw [← List.head?_drop, hrest, List.head?_cons]
  refine ⟨(List.getElem?_eq_some_iff.mp hget).1, hget, ?_⟩
  rw [← List.tail_drop, hrest, List.tail_cons]

theorem blockLoop_spec (hle : n ≤ 32) (hmasks : Masks a r n equality) {rest : List CodeUnit}
    (hrest : b.drop i = rest) (h : BlockInv a b r n i st) :
    BlockInv a b r n (i + rest.length) (blockLoop equality i rest st) := by
  induction rest generalizing i st with
  | nil => exact h
  | cons c rest ih =>
    obtain ⟨hi, hget, hnext⟩ := drop_cons hrest
    rw [blockLoop, List.length_cons, ← add_assoc, add_right_comm]
    refine ih hnext (longStep_spec hle hi (fun k hk => ?_) h).1
    rw [hget]
    exact hmasks c k hk

theorem lastLoop_spec (hle : n ≤ 32) (hpos : 0 < n) (hr : r % 32 = 0) (hlast : a.length = r + n)
    (hmasks : Masks a r n equality) {rest : List CodeUnit} (hrest : b.drop i = rest)
    (h : BlockInv a b r n i st) :
    lastLoop equality a.length i rest st (distanceAt a b a.length i) =
      distanceAt a b a.length (i + rest.length) := by
  induction rest generalizing i st with
  | nil => rfl
  | cons c rest ih =>
    obtain ⟨hi, hget, hnext⟩ := drop_cons hrest
    obtain ⟨hinv, hbits⟩ := longStep_spec (c := c) hle hi (fun k hk => by rw [hget]; exact hmasks c k hk) h
    obtain ⟨hplus, hminus⟩ := hbits (n - 1) (by omega)
    have hshift : (a.length - 1) % 32 = n - 1 := by omega
    have hrow : r + (n - 1) + 1 = a.length := by omega
    rw [hrow] at hplus hminus
    have hstep : (distanceAt a b a.length (i + 1) : Int) =
        distanceAt a b a.length i + horizontal a b a.length i := by
      rw [horizontal]
      omega
    have hread (word : Int32) := (isBit_shiftRight word (n - 1)).toNat_eq
    rw [lastLoop, List.length_cons, ← add_assoc, add_right_comm, ← ih hnext hinv, hstep, hshift]
    simp only [hread, hplus, hminus]
    rcases horizontal_cases a b a.length i with hcase | hcase | hcase <;> simp [hcase, sub_eq_add_neg]

end Block

section Long

variable {a b : List CodeUnit} {r n : Nat} {bits : List Int32 × List Int32}

structure Holds (a b : List CodeUnit) (r : Nat) (bits : List Int32 × List Int32) : Prop where
  horizontalSize : b.length ≤ 32 * bits.1.length
  verticalSize : b.length ≤ 32 * bits.2.length
  boundary : ∀ k, k < b.length → Boundary a b r k bits

theorem Holds.blockInv (h : Holds a b r bits) (hle : n ≤ 32) :
    BlockInv a b r n 0 ⟨-1#32, 0#32, bits.1, bits.2⟩ where
  encodes := encodes_zero a b r hle
  horizontalSize := h.horizontalSize
  verticalSize := h.verticalSize
  ahead k _ hk := h.boundary k hk
  behind _ k hk := absurd hk (Nat.not_lt_zero k)

theorem BlockInv.holds {st : LongState} (h : BlockInv a b r 32 b.length st) :
    Holds a b (r + 32) (st.horizontalBitArray, st.verticalBitArray) where
  horizontalSize := h.horizontalSize
  verticalSize := h.verticalSize
  boundary k hk := h.behind rfl k hk

theorem holds_start (a b : List CodeUnit) : Holds a b 0
    (List.replicate ((b.length + 31) / 32) (-1#32), List.replicate ((b.length + 31) / 32) 0#32) := by
  refine ⟨?_, ?_, fun k hk => ?_⟩
  · rw [List.length_replicate]
    omega
  · rw [List.length_replicate]
    omega
  · have hlt : k < 32 * ((b.length + 31) / 32) := by omega
    have hones : (-1#32).getLsbD (k % 32) = true := by
      rw [BitVec.neg_one_eq_allOnes, BitVec.getLsbD_allOnes]
      exact decide_eq_true (Nat.mod_lt k (by decide))
    rw [Boundary, bitOf_replicate _ hlt, bitOf_replicate _ hlt, horizontal_zero, hones, BitVec.getLsbD_zero]
    decide

theorem blocksLoop_spec (blocks verticalIndex : Nat) (hlt : 32 * (verticalIndex + blocks) < a.length)
    (h : Holds a b (32 * verticalIndex) bits) :
    (blocksLoop b a blocks verticalIndex (fun _ => 0) bits).1 = (fun _ => 0) ∧
      Holds a b (32 * (verticalIndex + blocks))
          (blocksLoop b a blocks verticalIndex (fun _ => 0) bits).2 := by
  induction blocks generalizing verticalIndex bits with
  | zero => exact ⟨rfl, h⟩
  | succ blocks ih =>
    have hcount : min 32 a.length = 32 := min_eq_left (by omega)
    have hmasks := masks_countUp (a := a) (32 * verticalIndex) 32 (by omega)
        le_rfl
      (by omega)
    have hblock := blockLoop_spec le_rfl hmasks (List.drop_zero (l := b)) (h.blockInv le_rfl)
    rw [zero_add] at hblock
    have hnext := ih (verticalIndex + 1) (by omega) hblock.holds
    rw [add_right_comm, add_assoc] at hnext
    simp only [blocksLoop, hcount, mul_comm verticalIndex 32, countUp_reset_set]
    exact hnext

theorem computeLevenshteinDistanceForLongStrings_spec (a b : List CodeUnit) (hpos : 0 < a.length) :
    computeLevenshteinDistanceForLongStrings (fun _ => 0) b a =
      ((editDistance a b : Int), fun _ => 0) := by
  have hsize : 32 * (0 + ((a.length + 31) / 32 - 1)) < a.length := by omega
  obtain ⟨hzero, hholds⟩ := blocksLoop_spec ((a.length + 31) / 32 - 1) 0 hsize (holds_start a b)
  rw [zero_add] at hholds
  have hcount : min 32 (a.length - 32 * ((a.length + 31) / 32 - 1)) =
      a.length - 32 * ((a.length + 31) / 32 - 1) := min_eq_right (by omega)
  have hmasks := masks_countUp (a := a) (32 * ((a.length + 31) / 32 - 1))
    (a.length - 32 * ((a.length + 31) / 32 - 1)) (by omega) (by omega) (by omega)
  have hlast := lastLoop_spec (by omega) (by omega) (by omega) (by omega) hmasks
    (List.drop_zero (l := b)) (hholds.blockInv (by omega))
  rw [distanceAt_zero_right, zero_add] at hlast
  simp only [computeLevenshteinDistanceForLongStrings, hzero, hcount,
    mul_comm ((a.length + 31) / 32 - 1) 32, countUp_reset_set]
  rw [hlast, editDistance]

end Long

theorem computeLevenshteinDistance_spec (firstString secondString : JsString) :
    computeLevenshteinDistance (fun _ => 0) firstString secondString =
      ((editDistance firstString secondString : Int), fun _ => 0) := by
  have hsorted (first second : JsString) (hle : second.length ≤ first.length) :
      (if second.length = 0 then ((first.length : Int), fun _ => 0)
        else if first.length ≤ 32 then
          computeLevenshteinDistanceForShortStrings (fun _ => 0) first second
        else computeLevenshteinDistanceForLongStrings (fun _ => 0) first second) =
      ((editDistance first second : Int), (fun _ => 0 : EqualityArray)) := by
    split_ifs with hnil hshort
    · rw [editDistance, hnil, distanceAt_zero_right]
    · exact computeLevenshteinDistanceForShortStrings_spec first second (by omega) hshort
    · rw [computeLevenshteinDistanceForLongStrings_spec second first (by omega), editDistance_comm]
  rw [computeLevenshteinDistance]
  by_cases hlt : firstString.length < secondString.length
  · rw [if_pos hlt, editDistance_comm]
    exact hsorted secondString firstString hlt.le
  · rw [if_neg hlt]
    exact hsorted firstString secondString (not_lt.mp hlt)

def equalityArrayAfter (calls : List (JsString × JsString)) : EqualityArray :=
  calls.foldl (fun equality call => (computeLevenshteinDistance equality call.1 call.2).2) fun _ => 0

theorem equalityArrayAfter_eq (calls : List (JsString × JsString)) :
    equalityArrayAfter calls = fun _ => 0 := by
  rw [equalityArrayAfter]
  induction calls with
  | nil => rfl
  | cons call calls ih =>
    rw [List.foldl_cons, computeLevenshteinDistance_spec]
    exact ih

/-- Whatever has been computed before, a call returns the edit distance and leaves the array all
zero. -/
theorem computeLevenshteinDistance_editDistance (calls : List (JsString × JsString))
    (firstString secondString : JsString) :
    computeLevenshteinDistance (equalityArrayAfter calls) firstString secondString =
      ((editDistance firstString secondString : Int), fun _ => 0) := by
  rw [equalityArrayAfter_eq, computeLevenshteinDistance_spec]

end Gavea.Diff
