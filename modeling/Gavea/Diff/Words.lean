import Gavea.Core.StringText

namespace Gavea.Diff

open Gavea.Core (OffsetRange BugIndicatingError)

structure OffsetPair where
  offset1 : Int
  offset2 : Int
deriving DecidableEq

def OffsetPair.zero : OffsetPair := ⟨0, 0⟩

def OffsetPair.delta (p : OffsetPair) (offset : Int) : OffsetPair := ⟨p.offset1 + offset, p.offset2 + offset⟩

structure SequenceDiff where
  seq1Range : OffsetRange
  seq2Range : OffsetRange
deriving DecidableEq

namespace SequenceDiff

def getStarts (d : SequenceDiff) : OffsetPair := ⟨d.seq1Range.start, d.seq2Range.start⟩

def getEndExclusives (d : SequenceDiff) : OffsetPair := ⟨d.seq1Range.endExclusive, d.seq2Range.endExclusive⟩

def join (d other : SequenceDiff) : SequenceDiff := ⟨d.seq1Range.join other.seq1Range, d.seq2Range.join other.seq2Range⟩

def intersect (d other : SequenceDiff) : Option SequenceDiff := do
  let i1 ← d.seq1Range.intersect other.seq1Range
  let i2 ← d.seq2Range.intersect other.seq2Range
  pure ⟨i1, i2⟩

def fromOffsetPairs (start endExclusive : OffsetPair) : Except BugIndicatingError SequenceDiff := do
  let seq1Range ← OffsetRange.new start.offset1 endExclusive.offset1
  let seq2Range ← OffsetRange.new start.offset2 endExclusive.offset2
  pure ⟨seq1Range, seq2Range⟩

def invertFrom (a : OffsetPair) (doc1Length : Int) :
    List SequenceDiff → Except BugIndicatingError (List SequenceDiff)
  | [] => do
      let m ← fromOffsetPairs a ⟨doc1Length, a.offset2 - a.offset1 + doc1Length⟩
      pure [m]
  | b :: rest => do
      let m ← fromOffsetPairs a b.getStarts
      let ms ← invertFrom b.getEndExclusives doc1Length rest
      pure (m :: ms)

def invert (sequenceDiffs : List SequenceDiff) (doc1Length : Int) :
    Except BugIndicatingError (List SequenceDiff) :=
  invertFrom OffsetPair.zero doc1Length sequenceDiffs

end SequenceDiff

def isWordChar (charCode : Nat) : Bool :=
  (97 ≤ charCode ∧ charCode ≤ 122) ∨ (65 ≤ charCode ∧ charCode ≤ 90) ∨ (48 ≤ charCode ∧ charCode ≤ 57)

def isUpperCase (charCode : Nat) : Bool := 65 ≤ charCode ∧ charCode ≤ 90

/-- What a `LinesSliceCharSequence` holds of its lines for the words: the char codes. -/
abbrev Elements := List Nat

def getElement (elements : Elements) (offset : Int) : Option Nat := if offset < 0 then none else elements[offset.toNat]?

def findStart (goesOn : Nat → Bool) : Nat → Nat
  | 0 => 0
  | start + 1 => if goesOn (start + 1) then findStart goesOn start else start + 1

def findEnd (goesOn : Nat → Bool) (stop : Nat) : List Nat → Nat
  | [] => stop
  | c :: rest => if goesOn c then findEnd goesOn (stop + 1) rest else stop

theorem findStart_le (goesOn : Nat → Bool) (start : Nat) : findStart goesOn start ≤ start := by
  induction start with
  | zero => exact le_refl 0
  | succ start ih =>
    rw [findStart]
    split_ifs
    · omega
    · exact le_refl _

theorem le_findEnd (goesOn : Nat → Bool) (stop : Nat) (elements : List Nat) :
    stop ≤ findEnd goesOn stop elements := by
  induction elements generalizing stop with
  | nil => exact le_refl stop
  | cons c rest ih =>
    rw [findEnd]
    split_ifs
    · exact (Nat.le_succ stop).trans (ih (stop + 1))
    · exact le_refl stop

def wordStart (within : Nat → Bool) (elements : Elements) (offset : Nat) : Nat :=
  findStart (fun start => (elements[start - 1]?).any isWordChar && (elements[start]?).any within) offset

def wordEnd (within : Nat → Bool) (elements : Elements) (offset : Nat) : Nat :=
  findEnd (fun c => isWordChar c && within c) offset (elements.drop offset)

theorem wordStart_le_wordEnd (within : Nat → Bool) (elements : Elements) (offset : Nat) :
    wordStart within elements offset ≤ wordEnd within elements offset :=
  (findStart_le _ _).trans (le_findEnd _ _ _)

def findContaining (within : Nat → Bool) (elements : Elements) (offset : Int) : Option OffsetRange :=
  if offset < 0 then none
  else
    match elements[offset.toNat]? with
    | none => none
    | some c =>
      if isWordChar c then
        some ⟨wordStart within elements offset.toNat, wordEnd within elements offset.toNat,
          Int.ofNat_le.mpr (wordStart_le_wordEnd within elements offset.toNat)⟩
      else none

def findWordContaining : Elements → Int → Option OffsetRange := findContaining fun _ => true

def findSubWordContaining : Elements → Int → Option OffsetRange := findContaining fun c => !isUpperCase c

structure ScanState where
  equalMappings : List SequenceDiff
  additional : List SequenceDiff
  lastPoint : OffsetPair
deriving DecidableEq

/-- The word with the next ones that it reaches, and the number of its equal characters. -/
structure ScannedWord where
  w : SequenceDiff
  equalChars : Nat
  equalMappings : List SequenceDiff

section

variable (findParent : Elements → Int → Option OffsetRange) (sequence1 sequence2 : Elements)

/-- The inner loop of `scanWord`; none where the code would read a property of undefined. -/
def joinNext (w : SequenceDiff) (equalChars : Nat) : List SequenceDiff → Option ScannedWord
  | [] => some ⟨w, equalChars, []⟩
  | next :: rest =>
    if next.seq1Range.intersects w.seq1Range || next.seq2Range.intersects w.seq2Range then do
      let v1 ← findParent sequence1 next.seq1Range.start
      let v2 ← findParent sequence2 next.seq2Range.start
      let v : SequenceDiff := ⟨v1, v2⟩
      let equalPart ← v.intersect next
      let equalChars := equalChars + equalPart.seq1Range.length + equalPart.seq2Range.length
      let w := w.join v
      if w.seq1Range.endExclusive ≥ next.seq1Range.endExclusive then joinNext w equalChars rest
      else some ⟨w, equalChars, next :: rest⟩
    else some ⟨w, equalChars, next :: rest⟩

def scanWord (force : Bool) (pair : OffsetPair) (equalMapping : SequenceDiff) (s : ScanState) :
    Option ScanState :=
  if pair.offset1 < s.lastPoint.offset1 ∨ pair.offset2 < s.lastPoint.offset2 then some s
  else
    match findParent sequence1 pair.offset1, findParent sequence2 pair.offset2 with
    | some w1, some w2 => do
        let w : SequenceDiff := ⟨w1, w2⟩
        let equalPart ← w.intersect equalMapping
        let scanned ← joinNext findParent sequence1 sequence2 w
          (equalPart.seq1Range.length + equalPart.seq2Range.length) s.equalMappings
        let total := scanned.w.seq1Range.length + scanned.w.seq2Range.length
        let isAdditional : Bool :=
          (force && scanned.equalChars < total) || 3 * scanned.equalChars < 2 * total
        some {
          equalMappings := scanned.equalMappings
          additional := if isAdditional then s.additional ++ [scanned.w] else s.additional
          lastPoint := scanned.w.getEndExclusives }
    | _, _ => some s

def scanAll (force : Bool) : Nat → ScanState → Option ScanState
  | rounds, s =>
    match s.equalMappings, rounds with
    | [], _ => some s
    | _ :: _, 0 => none
    | next :: rest, rounds + 1 =>
      let s := { s with equalMappings := rest }
      if next.seq1Range.isEmpty then scanAll force rounds s
      else do
        let s ← scanWord findParent sequence1 sequence2 force next.getStarts next s
        let s ← scanWord findParent sequence1 sequence2 force (next.getEndExclusives.delta (-1)) next s
        scanAll force rounds s
termination_by structural rounds => rounds

end

def pushJoined (next : SequenceDiff) : List SequenceDiff → List SequenceDiff
  | [] => [next]
  | last :: result =>
    if last.seq1Range.endExclusive ≥ next.seq1Range.start then last.join next :: result
    else next :: last :: result

def mergeLoop (result : List SequenceDiff) : List SequenceDiff → List SequenceDiff → List SequenceDiff
  | [], [] => result
  | sd1 :: rest1, [] => mergeLoop (pushJoined sd1 result) rest1 []
  | [], sd2 :: rest2 => mergeLoop (pushJoined sd2 result) [] rest2
  | sd1 :: rest1, sd2 :: rest2 =>
    if sd1.seq1Range.start < sd2.seq1Range.start then
      mergeLoop (pushJoined sd1 result) rest1 (sd2 :: rest2)
    else mergeLoop (pushJoined sd2 result) (sd1 :: rest1) rest2
termination_by sequenceDiffs1 sequenceDiffs2 => sequenceDiffs1.length + sequenceDiffs2.length

def mergeSequenceDiffs (sequenceDiffs1 sequenceDiffs2 : List SequenceDiff) : List SequenceDiff :=
  (mergeLoop [] sequenceDiffs1 sequenceDiffs2).reverse

/-- none where the code throws -/
def extendDiffsToEntireWordIfAppropriate (sequence1 sequence2 : Elements)
    (sequenceDiffs : List SequenceDiff) (findParent : Elements → Int → Option OffsetRange)
    (force : Bool) : Option (List SequenceDiff) := do
  let equalMappings ← (SequenceDiff.invert sequenceDiffs sequence1.length).toOption
  let s ← scanAll findParent sequence1 sequence2 force equalMappings.length
    ⟨equalMappings, [], OffsetPair.zero⟩
  pure (mergeSequenceDiffs sequenceDiffs s.additional)

open Gavea.Core (OffsetRange)

def WordAt (elements : Elements) (i : Int) : Prop := (getElement elements i).any isWordChar = true

def ContAt (within : Nat → Bool) (elements : Elements) (i : Int) : Prop :=
  (getElement elements i).any (fun c => isWordChar c && within c) = true

variable {within : Nat → Bool} {elements : Elements} {i o o' stop : Int} {w w' : OffsetRange}

theorem ContAt.wordAt (h : ContAt within elements i) : WordAt elements i := by
  rw [ContAt, Option.any_eq_true] at h
  obtain ⟨c, hc, h⟩ := h
  rw [WordAt, Option.any_eq_true]
  exact ⟨c, hc, (Bool.and_eq_true _ _ ▸ h).1⟩

theorem WordAt.bounds (h : WordAt elements i) : 0 ≤ i ∧ i < elements.length := by
  rw [WordAt, Option.any_eq_true] at h
  obtain ⟨c, hc, -⟩ := h
  rw [getElement] at hc
  split_ifs at hc with hneg
  have hlt := (List.getElem?_eq_some_iff.mp hc).1
  omega

theorem getElement_natCast (n : Nat) : getElement elements n = elements[n]? := by
  rw [getElement, if_neg (by omega), Int.toNat_natCast]

/-- The word around an offset: it goes on to the left while its characters belong to the ones
before them, and to the right while they belong to it. -/
structure IsWord (within : Nat → Bool) (elements : Elements) (o : Int) (w : OffsetRange) : Prop where
  start_le : w.start ≤ o
  le_end : o ≤ w.endExclusive
  end_le : w.endExclusive ≤ elements.length
  left : ∀ i, w.start < i → i ≤ o → ContAt within elements i
  word : ∀ i, w.start ≤ i → i ≤ o → WordAt elements i
  start_stop : WordAt elements (w.start - 1) → ¬ContAt within elements w.start
  right : ∀ i, o ≤ i → i < w.endExclusive → ContAt within elements i
  end_stop : ¬ContAt within elements w.endExclusive

theorem findStart_spec (goesOn : Nat → Bool) (start : Nat) :
    (∀ i, findStart goesOn start < i → i ≤ start → goesOn i = true) ∧
      (findStart goesOn start = 0 ∨ goesOn (findStart goesOn start) = false) := by
  induction start with
  | zero => exact ⟨fun i h1 h2 => absurd h1 (by rw [findStart]; omega), Or.inl rfl⟩
  | succ start ih =>
    rw [findStart]
    split_ifs with hstep
    · refine ⟨fun i h1 h2 => ?_, ih.2⟩
      rcases h2.lt_or_eq with hlt | rfl
      · exact ih.1 i h1 (by omega)
      · exact hstep
    · exact ⟨fun i h1 h2 => absurd h1 (by omega), Or.inr (Bool.eq_false_of_not_eq_true hstep)⟩

theorem findEnd_spec (goesOn : Nat → Bool) (elements : List Nat) :
    ∀ (n : Nat) (rest : List Nat), elements.drop n = rest →
      (∀ i, n ≤ i → i < findEnd goesOn n rest → (elements[i]?).any goesOn = true) ∧
        (elements[findEnd goesOn n rest]?).any goesOn = false := by
  intro n rest
  induction rest generalizing n with
  | nil =>
    intro hrest
    rw [findEnd, List.getElem?_eq_none (List.drop_eq_nil_iff.mp hrest)]
    exact ⟨fun i h1 h2 => absurd h1 (by omega), rfl⟩
  | cons c rest ih =>
    intro hrest
    have hc : elements[n]? = some c := by
      rw [← List.head?_drop, hrest]
      rfl
    rw [findEnd]
    split_ifs with hstep
    · have hrest' : elements.drop (n + 1) = rest := by
        rw [← List.drop_drop, hrest]
        rfl
      obtain ⟨hbetween, hstop⟩ := ih (n + 1) hrest'
      refine ⟨fun i h1 h2 => ?_, hstop⟩
      rcases h1.lt_or_eq with hlt | rfl
      · exact hbetween i hlt h2
      · rw [hc]
        exact hstep
    · refine ⟨fun i h1 h2 => absurd h1 (by omega), ?_⟩
      rw [hc]
      exact Bool.eq_false_of_not_eq_true hstep

theorem findContaining_eq_none (h : ¬WordAt elements o) : findContaining within elements o = none := by
  rw [findContaining]
  split_ifs with hneg
  · rfl
  · rw [WordAt, getElement, if_neg hneg] at h
    cases hc : elements[o.toNat]? with
    | none => rfl
    | some c =>
      rw [hc] at h
      exact if_neg h

theorem findContaining_natCast {n : Nat} (h : WordAt elements n) :
    findContaining within elements n =
      some ⟨wordStart within elements n, wordEnd within elements n,
        Int.ofNat_le.mpr (wordStart_le_wordEnd within elements n)⟩ := by
  rw [WordAt, getElement_natCast, Option.any_eq_true] at h
  obtain ⟨c, hc, hword⟩ := h
  rw [findContaining, if_neg (by omega)]
  dsimp only [Int.toNat_natCast]
  rw [hc]
  exact if_pos hword

theorem contAt_natCast (n : Nat) : ContAt within elements n ↔
    (elements[n]?).any (fun c => isWordChar c && within c) = true := by
  rw [ContAt, getElement_natCast]

theorem wordAt_natCast (n : Nat) : WordAt elements n ↔ (elements[n]?).any isWordChar = true := by
  rw [WordAt, getElement_natCast]

theorem contAt_of_wordAt {n : Nat} (h : WordAt elements n)
    (hwithin : (elements[n]?).any within = true) : ContAt within elements n := by
  rw [wordAt_natCast] at h
  rw [contAt_natCast]
  cases hc : elements[n]? with
  | none =>
    rw [hc] at h
    exact Bool.noConfusion h
  | some c =>
    rw [hc] at h hwithin
    exact (Bool.and_eq_true _ _).symm ▸ ⟨h, hwithin⟩

theorem ContAt.any_within {n : Nat} (h : ContAt within elements n) : (elements[n]?).any within = true := by
  rw [contAt_natCast, Option.any_eq_true] at h
  obtain ⟨c, hc, h⟩ := h
  rw [Option.any_eq_true]
  exact ⟨c, hc, (Bool.and_eq_true _ _ ▸ h).2⟩

theorem isWord_of_loops {n s e : Nat} (hle : (s : Int) ≤ e) (h : WordAt elements n) (hstart_le : s ≤ n)
    (hle_stop : n ≤ e)
    (hleft : ∀ i, s < i → i ≤ n → ((elements[i - 1]?).any isWordChar && (elements[i]?).any within) = true)
    (hstart : s = 0 ∨ ((elements[s - 1]?).any isWordChar && (elements[s]?).any within) = false)
    (hright : ∀ i, n ≤ i → i < e → (elements[i]?).any (fun c => isWordChar c && within c) = true)
    (hstop : (elements[e]?).any (fun c => isWordChar c && within c) = false) :
    IsWord within elements n ⟨s, e, hle⟩ := by
  have hword (i : Nat) (h1 : s ≤ i) (h2 : i ≤ n) : WordAt elements i := by
    rcases h2.lt_or_eq with hlt | rfl
    · rw [wordAt_natCast]
      exact ((Bool.and_eq_true _ _).mp (hleft (i + 1) (by omega) hlt)).1
    · exact h
  have hend : e ≤ elements.length := by
    by_contra hgt
    have hlength := h.bounds.2
    have hlast := hright (e - 1) (by omega) (by omega)
    rw [List.getElem?_eq_none (by omega)] at hlast
    exact Bool.noConfusion hlast
  refine ⟨Int.ofNat_le.mpr hstart_le, Int.ofNat_le.mpr hle_stop, Int.ofNat_le.mpr hend,
    fun i h1 h2 => ?_, fun i h1 h2 => ?_, fun hprev hcont => ?_, fun i h1 h2 => ?_, ?_⟩
  · dsimp only at h1
    obtain ⟨k, rfl⟩ := Int.eq_ofNat_of_zero_le (show 0 ≤ i by omega)
    refine contAt_of_wordAt (hword k (by omega) (by omega)) ?_
    exact ((Bool.and_eq_true _ _).mp (hleft k (by omega) (by omega))).2
  · dsimp only at h1
    obtain ⟨k, rfl⟩ := Int.eq_ofNat_of_zero_le (show 0 ≤ i by omega)
    exact hword k (by omega) (by omega)
  · dsimp only at hprev hcont
    have hpos := hprev.bounds.1
    have hcast : ((s : Int) - 1) = ((s - 1 : Nat) : Int) := by omega
    rw [hcast, wordAt_natCast] at hprev
    rcases hstart with hzero | hfalse
    · omega
    · rw [hprev, hcont.any_within] at hfalse
      exact Bool.noConfusion hfalse
  · dsimp only at h2
    obtain ⟨k, rfl⟩ := Int.eq_ofNat_of_zero_le (show 0 ≤ i by omega)
    rw [contAt_natCast]
    exact hright k (by omega) (by omega)
  · dsimp only
    rw [contAt_natCast, hstop]
    exact Bool.false_ne_true

theorem exists_isWord (h : WordAt elements o) :
    ∃ w, findContaining within elements o = some w ∧ IsWord within elements o w := by
  obtain ⟨hnonneg, -⟩ := h.bounds
  obtain ⟨n, rfl⟩ := Int.eq_ofNat_of_zero_le hnonneg
  obtain ⟨hleft, hstart⟩ := findStart_spec (fun start =>
    (elements[start - 1]?).any isWordChar && (elements[start]?).any within) n
  obtain ⟨hright, hstop⟩ := findEnd_spec (fun c => isWordChar c && within c) elements n _ rfl
  exact ⟨_, findContaining_natCast h,
    isWord_of_loops _ h (findStart_le _ _) (le_findEnd _ _ _) hleft hstart hright hstop⟩

theorem IsWord.end_le_of_not_contAt (h : IsWord within elements o w) (ho : o ≤ i)
    (hnot : ¬ContAt within elements i) : w.endExclusive ≤ i := by
  by_contra hlt
  exact hnot (h.right i ho (by omega))

theorem IsWord.le_end_of_contAt (h : IsWord within elements o w)
    (hcont : ∀ i, o ≤ i → i < stop → ContAt within elements i) : stop ≤ w.endExclusive := by
  by_contra hlt
  exact h.end_stop (hcont w.endExclusive h.le_end (by omega))

theorem IsWord.le_start_of_not_contAt (h : IsWord within elements o w) (ho : i ≤ o)
    (hnot : ¬ContAt within elements i) : i ≤ w.start := by
  by_contra hlt
  exact hnot (h.left i (by omega) ho)

theorem IsWord.start_eq (h : IsWord within elements o w) (h' : IsWord within elements o' w')
    (hstart : w.start ≤ o') (ho : o' ≤ o) : w'.start = w.start := by
  have hcont (i : Int) (h1 : w.start < i) (h2 : i ≤ o) := h.left i h1 h2
  refine le_antisymm ?_ ?_
  · by_contra hlt
    refine h'.start_stop ?_ (hcont w'.start (by omega) (h'.start_le.trans ho))
    exact h.word _ (by omega) (by have := h'.start_le; omega)
  · by_contra hlt
    refine h.start_stop ?_ (h'.left w.start (by omega) hstart)
    exact h'.word _ (by omega) (by omega)

end Gavea.Diff
