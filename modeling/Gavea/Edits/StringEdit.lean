import Gavea.Core.StringText
import Gavea.Lib.Splicing

namespace Gavea.Edits

open Gavea.Core

variable {T : Type}

/-- What `BaseEdit` uses of its replacements. -/
class BaseReplacement (T : Type) where
  replaceRange : T → OffsetRange
  getNewLength : T → Nat
  tryJoinTouching : T → T → Except BugIndicatingError (Option T)
  slice : T → OffsetRange → OffsetRange → T

open BaseReplacement

/-- The check of the `BaseEdit` constructor, from a given `lastEndEx` on. -/
def DisjointAndSorted [BaseReplacement T] : Int → List T → Prop
  | _, [] => True
  | lastEndEx, r :: rs => lastEndEx ≤ (replaceRange r).start ∧ DisjointAndSorted (replaceRange r).endExclusive rs

instance DisjointAndSorted.decidable [BaseReplacement T] :
    (lastEndEx : Int) → (rs : List T) → Decidable (DisjointAndSorted lastEndEx rs)
  | _, [] => inferInstanceAs (Decidable True)
  | lastEndEx, r :: rs =>
    have := DisjointAndSorted.decidable (replaceRange r).endExclusive rs
    inferInstanceAs (Decidable (lastEndEx ≤ (replaceRange r).start ∧ _))

theorem DisjointAndSorted.mono [BaseReplacement T] {lo lo' : Int} {rs : List T}
    (h : DisjointAndSorted lo rs) (hle : lo' ≤ lo) : DisjointAndSorted lo' rs := by
  cases rs with
  | nil => trivial
  | cons r rs => exact ⟨hle.trans h.1, h.2⟩

theorem DisjointAndSorted.le_start [BaseReplacement T] {lo : Int} {rs : List T}
    (h : DisjointAndSorted lo rs) : ∀ r ∈ rs, lo ≤ (replaceRange r).start := by
  induction rs generalizing lo with
  | nil => simp
  | cons r rs ih =>
    intro q hq
    rcases List.mem_cons.mp hq with rfl | hq
    · exact h.1
    · exact h.1.trans ((replaceRange r).le.trans (ih h.2 q hq))

def checkDisjointAndSorted [BaseReplacement T] :
    (lastEndEx : Int) → (rs : List T) → Except BugIndicatingError (PLift (DisjointAndSorted lastEndEx rs))
  | _, [] => .ok ⟨trivial⟩
  | lastEndEx, r :: rs =>
    if h : (replaceRange r).start ≥ lastEndEx then
      (checkDisjointAndSorted (replaceRange r).endExclusive rs).map fun hs => ⟨h, hs.down⟩
    else
      .error (.notDisjointAndSorted (replaceRange r).start (replaceRange r).endExclusive lastEndEx)

theorem checkDisjointAndSorted_ok [BaseReplacement T] {lastEndEx : Int} {rs : List T}
    (h : DisjointAndSorted lastEndEx rs) : checkDisjointAndSorted lastEndEx rs = .ok ⟨h⟩ := by
  induction rs generalizing lastEndEx with
  | nil => rfl
  | cons r rs ih =>
    rw [checkDisjointAndSorted, dif_pos h.1, ih h.2]
    rfl

structure BaseEdit (T : Type) [BaseReplacement T] where
  replacements : List T
  sorted : DisjointAndSorted (-1) replacements

namespace BaseEdit

variable [BaseReplacement T]

@[ext] theorem ext {a b : BaseEdit T} (h : a.replacements = b.replacements) : a = b := by
  cases a; cases b; cases h; rfl

instance [DecidableEq T] : DecidableEq (BaseEdit T) := fun _ _ => decidable_of_iff _ BaseEdit.ext_iff.symm

/-- The constructor; `_createNew` of every kind of edit is this call. -/
def new (replacements : List T) : Except BugIndicatingError (BaseEdit T) :=
  (checkDisjointAndSorted (-1) replacements).map fun h => ⟨replacements, h.down⟩

theorem new_ok {rs : List T} (h : DisjointAndSorted (-1) rs) : new rs = .ok ⟨rs, h⟩ := by
  rw [new, checkDisjointAndSorted_ok h]
  rfl

def empty : BaseEdit T := ⟨[], trivial⟩

def isEmpty (e : BaseEdit T) : Bool := e.replacements.length == 0

def ValidOn (e : BaseEdit T) (dataLength : Nat) : Prop :=
  ∀ r ∈ e.replacements, 0 ≤ (replaceRange r).start ∧ (replaceRange r).endExclusive ≤ dataLength

instance (e : BaseEdit T) (dataLength : Nat) : Decidable (e.ValidOn dataLength) :=
  inferInstanceAs (Decidable (∀ r ∈ e.replacements, _))

def getLengthDelta (e : BaseEdit T) : Int :=
  (e.replacements.map (fun r => (getNewLength r : Int) - (replaceRange r).length)).sum

def getNewDataLength (e : BaseEdit T) (dataLength : Int) : Int := dataLength + e.getLengthDelta

def normalizeLoop : List T → List T → Option T → Except BugIndicatingError (List T)
  | [], newReplacements, lastReplacement => .ok (newReplacements ++ lastReplacement.toList)
  | r :: rs, newReplacements, lastReplacement =>
    if getNewLength r = 0 ∧ (replaceRange r).length = 0 then
      normalizeLoop rs newReplacements lastReplacement
    else
      match lastReplacement with
      | none => normalizeLoop rs newReplacements (some r)
      | some last =>
        if (replaceRange last).endExclusive = (replaceRange r).start then
          match tryJoinTouching last r with
          | .error e => .error e
          | .ok (some joined) => normalizeLoop rs newReplacements (some joined)
          | .ok none => normalizeLoop rs (newReplacements ++ [last]) (some r)
        else normalizeLoop rs (newReplacements ++ [last]) (some r)

/-- Removes empty replacements and joins touching ones. -/
def normalize (e : BaseEdit T) : Except BugIndicatingError (BaseEdit T) := do
  new (← normalizeLoop e.replacements [] none)

structure ComposeState (T : Type) where
  edit1Queue : List T
  result : List T
  edit1ToEdit2 : Int

def copyUntilTouching (r2 : T) : List T → List T → Int → ComposeState T
  | [], result, edit1ToEdit2 => ⟨[], result, edit1ToEdit2⟩
  | r1 :: queue, result, edit1ToEdit2 =>
    if (replaceRange r1).start + edit1ToEdit2 + getNewLength r1 ≥ (replaceRange r2).start then
      ⟨r1 :: queue, result, edit1ToEdit2⟩
    else
      copyUntilTouching r2 queue (result ++ [r1]) (edit1ToEdit2 + ((getNewLength r1 : Int) - (replaceRange r1).length))

structure Intersecting (T : Type) where
  edit1Queue : List T
  firstIntersecting : Option T
  lastIntersecting : Option T
  edit1ToEdit2 : Int

def takeIntersecting (r2 : T) : List T → Option T → Option T → Int → Intersecting T
  | [], first, last, edit1ToEdit2 => ⟨[], first, last, edit1ToEdit2⟩
  | r1 :: queue, first, last, edit1ToEdit2 =>
    if (replaceRange r1).start + edit1ToEdit2 > (replaceRange r2).endExclusive then
      ⟨r1 :: queue, first, last, edit1ToEdit2⟩
    else
      takeIntersecting r2 queue (some (first.getD r1)) (some r1)
        (edit1ToEdit2 + ((getNewLength r1 : Int) - (replaceRange r1).length))

def delta (r : T) (offset : Int) : T := slice r ((replaceRange r).delta offset) (.ofLength (getNewLength r))

/-- The tail of the first edit's last intersecting replacement that r2 leaves alone
goes back into the queue as an insertion. -/
def requeueSuffix (last : T) (suffixLength : Int) (queue : List T) (edit1ToEdit2 : Int) :
    Except BugIndicatingError (List T × Int) :=
  if suffixLength > 0 then
    (OffsetRange.new (getNewLength last - suffixLength) (getNewLength last)).map fun range =>
      let e := slice last (.ofStartAndLength (replaceRange last).endExclusive 0) range
      (e :: queue, edit1ToEdit2 - ((getNewLength e : Int) - (replaceRange e).length))
  else .ok (queue, edit1ToEdit2)

def pushPrefix (r2 : T) (result : List T) (firstEdit1ToEdit2 : Int) (first : T)
    (newReplaceRangeStart : Int) : Except BugIndicatingError (List T) :=
  let prefixLength := (replaceRange r2).start - ((replaceRange first).start + firstEdit1ToEdit2)
  if prefixLength > 0 then
    (OffsetRange.new 0 prefixLength).map fun range => result ++ [slice first (.emptyAt newReplaceRangeStart) range]
  else .ok result

def replaceIntersecting (r2 : T) (result : List T) (firstEdit1ToEdit2 : Int) (first : T)
    (st : Intersecting T) : Except BugIndicatingError (ComposeState T) := do
  let newReplaceRangeStart :=
    min (replaceRange first).start ((replaceRange r2).start - firstEdit1ToEdit2)
  let result ← pushPrefix r2 result firstEdit1ToEdit2 first newReplaceRangeStart
  match st.lastIntersecting with
  | none => throw .invariantViolation
  | some last =>
    let suffixLength :=
      (replaceRange last).endExclusive + st.edit1ToEdit2 - (replaceRange r2).endExclusive
    let (queue, edit1ToEdit2) ← requeueSuffix last suffixLength st.edit1Queue st.edit1ToEdit2
    let newReplaceRange ← (OffsetRange.new newReplaceRangeStart
      ((replaceRange r2).endExclusive - edit1ToEdit2))
    let middle := slice r2 newReplaceRange (.ofLength (getNewLength r2))
    return ⟨queue, result ++ [middle], edit1ToEdit2⟩

def composeStep (st : ComposeState T) (r2 : T) : Except BugIndicatingError (ComposeState T) :=
  let copied := copyUntilTouching r2 st.edit1Queue st.result st.edit1ToEdit2
  let taken := takeIntersecting r2 copied.edit1Queue none none copied.edit1ToEdit2
  match taken.firstIntersecting with
  | none => .ok ⟨taken.edit1Queue, copied.result ++ [delta r2 (-taken.edit1ToEdit2)], taken.edit1ToEdit2⟩
  | some first => replaceIntersecting r2 copied.result copied.edit1ToEdit2 first taken

def compose (e other : BaseEdit T) : Except BugIndicatingError (BaseEdit T) := do
  let edits1 ← e.normalize
  let edits2 ← other.normalize
  if edits1.isEmpty then return edits2
  if edits2.isEmpty then return edits1
  let st ← edits2.replacements.foldlM composeStep ⟨edits1.replacements, [], 0⟩
  (← new (st.result ++ st.edit1Queue)).normalize

end BaseEdit

end Gavea.Edits

namespace Gavea.Edits

open Gavea.Core Lib.Js BaseReplacement

variable {α : Type}

structure ArrayReplacement (α : Type) where
  replaceRange : OffsetRange
  newValue : List α

namespace ArrayReplacement

def tryJoinTouching (r other : ArrayReplacement α) :
    Except BugIndicatingError (Option (ArrayReplacement α)) :=
  (r.replaceRange.joinRightTouching other.replaceRange).map fun range => some ⟨range, r.newValue ++ other.newValue⟩

def slice (r : ArrayReplacement α) (range rangeInReplacement : OffsetRange) : ArrayReplacement α :=
  ⟨range, rangeInReplacement.slice r.newValue⟩

instance : BaseReplacement (ArrayReplacement α) where
  replaceRange := replaceRange
  getNewLength r := r.newValue.length
  tryJoinTouching := tryJoinTouching
  slice := slice

end ArrayReplacement

abbrev ArrayEdit (α : Type) := BaseEdit (ArrayReplacement α)

namespace ArrayEdit

def applyLoop (data : List α) : List (ArrayReplacement α) → Int → List α
  | [], pos => sliceFrom data pos
  | edit :: rest, pos =>
    Lib.Js.slice data pos edit.replaceRange.start ++
      (edit.newValue ++ applyLoop data rest edit.replaceRange.endExclusive)

def apply (e : ArrayEdit α) (data : List α) : List α := applyLoop data e.replacements 0

end ArrayEdit

structure LengthReplacement where
  replaceRange : OffsetRange
  newLength : Nat

namespace LengthReplacement

def tryJoinTouching (r other : LengthReplacement) :
    Except BugIndicatingError (Option LengthReplacement) :=
  (r.replaceRange.joinRightTouching other.replaceRange).map fun range => some ⟨range, r.newLength + other.newLength⟩

def slice (_r : LengthReplacement) (range rangeInReplacement : OffsetRange) : LengthReplacement :=
  ⟨range, rangeInReplacement.length⟩

instance : BaseReplacement LengthReplacement where
  replaceRange := replaceRange
  getNewLength r := r.newLength
  tryJoinTouching := tryJoinTouching
  slice := slice

end LengthReplacement

abbrev LengthEdit := BaseEdit LengthReplacement

structure StringReplacement where
  replaceRange : OffsetRange
  newText : JsString
  deriving DecidableEq

namespace StringReplacement

def tryJoinTouching (r other : StringReplacement) :
    Except BugIndicatingError (Option StringReplacement) :=
  (r.replaceRange.joinRightTouching other.replaceRange).map fun range => some ⟨range, r.newText ++ other.newText⟩

def slice (r : StringReplacement) (range : OffsetRange)
    (rangeInReplacement : Option OffsetRange) : StringReplacement :=
  ⟨range, match rangeInReplacement with
    | some inner => inner.substring r.newText
    | none => r.newText⟩

instance : BaseReplacement StringReplacement where
  replaceRange := replaceRange
  getNewLength r := r.newText.length
  tryJoinTouching := tryJoinTouching
  slice r range rangeInReplacement := r.slice range (some rangeInReplacement)

end StringReplacement

abbrev StringEdit := BaseEdit StringReplacement

/-- Both ranges are insertions at the same position: their order would matter. -/
def areConcurrentInserts (r1 r2 : OffsetRange) : Bool := r1.isEmpty && r2.isEmpty && r1.start == r2.start

def isInsertStrictlyInsideRange (insert range : OffsetRange) : Bool :=
  insert.isEmpty && decide (range.start < insert.start) && decide (insert.start < range.endExclusive)

/-- The condition under which `_tryRebase` gives up one of our edits. -/
def isConflicting (our base : OffsetRange) : Bool :=
  our.intersects base || areConcurrentInserts our base ||
    isInsertStrictlyInsideRange our base || isInsertStrictlyInsideRange base our

namespace StringEdit

def applyLoop (base : JsString) : List StringReplacement → Int → JsString
  | [], pos => substringFrom base pos
  | edit :: rest, pos =>
    substring base pos edit.replaceRange.start ++ (edit.newText ++ applyLoop base rest edit.replaceRange.endExclusive)

def apply (e : StringEdit) (base : JsString) : JsString := applyLoop base e.replacements 0

def tryRebaseLoop (noOverlap : Bool) :
    List StringReplacement → List StringReplacement → List StringReplacement → Int → Option (List StringReplacement)
  | [], _, newEdits, _ => some newEdits
  | ourEdit :: ours, [], newEdits, offset =>
    tryRebaseLoop noOverlap ours [] (newEdits ++ [⟨ourEdit.replaceRange.delta offset, ourEdit.newText⟩]) offset
  | ourEdit :: ours, baseEdit :: bases, newEdits, offset =>
    if isConflicting ourEdit.replaceRange baseEdit.replaceRange then
      if noOverlap then none
      else tryRebaseLoop noOverlap ours (baseEdit :: bases) newEdits offset
    else if ourEdit.replaceRange.start < baseEdit.replaceRange.start ∨
        (ourEdit.replaceRange.isEmpty ∧ ourEdit.replaceRange.start = baseEdit.replaceRange.start) then
      tryRebaseLoop noOverlap ours (baseEdit :: bases)
        (newEdits ++ [⟨ourEdit.replaceRange.delta offset, ourEdit.newText⟩]) offset
    else
      tryRebaseLoop noOverlap (ourEdit :: ours) bases newEdits
        (offset + ((baseEdit.newText.length : Int) - baseEdit.replaceRange.length))
  termination_by ours bases => ours.length + bases.length

def tryRebaseWith (e base : StringEdit) (noOverlap : Bool) :
    Except BugIndicatingError (Option StringEdit) :=
  match tryRebaseLoop noOverlap e.replacements base.replacements [] 0 with
  | none => .ok none
  | some newEdits => (BaseEdit.new newEdits).map some

def tryRebase (e base : StringEdit) : Except BugIndicatingError (Option StringEdit) := tryRebaseWith e base true

/-- The source asserts with `!` that the result is defined. -/
def rebaseSkipConflicting (e base : StringEdit) :
    Except BugIndicatingError (Option StringEdit) :=
  tryRebaseWith e base false

end StringEdit

end Gavea.Edits
