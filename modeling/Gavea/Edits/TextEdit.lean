import Gavea.Core.StringText
import Gavea.Lib.Splicing

namespace Gavea.Edits

open Gavea.Core Lib.Js TextLength

structure TextReplacement where
  range : Range
  text : JsString
  deriving DecidableEq

def TextReplacement.isEmpty (r : TextReplacement) : Bool := r.range.isEmpty && r.text.length == 0

def rangeFromPositions (start stop : Position) : Except BugIndicatingError Range :=
  if start.lineNumber = stop.lineNumber ∧ start.column = maxSafeInteger then
    .ok (Range.fromPositions stop stop)
  else if !start.isBeforeOrEqual stop then .error .startMustBeBeforeEnd
  else .ok (Range.fromPositions start stop)

def checkAdjacentItems {α : Type*} (predicate : α → α → Bool) : List α → Bool
  | a :: b :: rest => predicate a b && checkAdjacentItems predicate (b :: rest)
  | _ => true

structure TextEdit where
  replacements : List TextReplacement
  deriving DecidableEq

namespace TextEdit

/-- What the constructor asserts. It reports a failure as an unexpected error and
goes on. -/
def asserted (e : TextEdit) : Bool :=
  checkAdjacentItems (fun a b => a.range.getEndPosition.isBeforeOrEqual b.range.getStartPosition) e.replacements

def normalizeStep (replacements : List TextReplacement) (r : TextReplacement) :
    List TextReplacement :=
  match replacements.getLast? with
  | some last =>
    if last.range.getEndPosition = r.range.getStartPosition then
      replacements.dropLast ++ [⟨last.range.plusRange r.range, last.text ++ r.text⟩]
    else if !r.isEmpty then replacements ++ [r]
    else replacements
  | none => if !r.isEmpty then replacements ++ [r] else replacements

def normalize (e : TextEdit) : TextEdit := ⟨e.replacements.foldl normalizeStep []⟩

/-- The value of a range that `apply` reads, unless the range is empty. -/
def valueBetween (text : StringText) (start stop : Position) :
    Except BugIndicatingError JsString := do
  let r ← rangeFromPositions start stop
  if !r.isEmpty then text.getValueOfRange r else return []

def applyLoop (text : StringText) :
    List TextReplacement → Position → Except BugIndicatingError JsString
  | [], lastEditEnd => valueBetween text lastEditEnd text.endPositionExclusive
  | replacement :: rest, lastEditEnd => do
      let gap ← valueBetween text lastEditEnd replacement.range.getStartPosition
      let result ← applyLoop text rest replacement.range.getEndPosition
      return gap ++ (replacement.text ++ result)

def apply (e : TextEdit) (text : StringText) : Except BugIndicatingError JsString :=
  applyLoop text e.replacements ⟨1, 1⟩

def applyToString (e : TextEdit) (str : JsString) : Except BugIndicatingError JsString := e.apply ⟨str⟩

/-- The next piece of the text between the two edits: untouched source, when text is
none, or what the first edit wrote over a range of the source; behind its last
replacement a piece without end. -/
inductive Head
  | finite (srcRangeStart srcRangeEnd : Position) (text : Option JsString) (length : TextLength)
  | infinite (srcRangeStart : Position)

def Head.srcRangeStart : Head → Position
  | .finite srcRangeStart _ _ _ => srcRangeStart
  | .infinite srcRangeStart => srcRangeStart

structure ComposeState where
  edit1Queue : List TextReplacement
  lastEdit1EndS0 : Position
  head : Option Head
  currentPosInS1 : Position
  resultReplacements : List TextReplacement

def ensureHead (st : ComposeState) : Head × ComposeState :=
  match st.head with
  | some head => (head, st)
  | none =>
    match st.edit1Queue with
    | [] =>
      let head := .infinite st.lastEdit1EndS0
      (head, { st with head := some head })
    | nextEdit :: queue =>
      let nextEditStart := nextEdit.range.getStartPosition
      if st.lastEdit1EndS0 ≠ nextEditStart then
        let head := .finite st.lastEdit1EndS0 nextEditStart none
          (betweenPositions st.lastEdit1EndS0 nextEditStart)
        (head, { st with head := some head, lastEdit1EndS0 := nextEditStart })
      else
        let nextEditEnd := nextEdit.range.getEndPosition
        let head := .finite nextEditStart nextEditEnd (some nextEdit.text)
          (ofCodeUnits nextEdit.text)
        (head, { st with head := some head, lastEdit1EndS0 := nextEditEnd, edit1Queue := queue })

def indexOfLineFeed (text : JsString) (offset : Nat) : Option Nat :=
  ((text.drop offset).findIdx? (· = lineFeed)).map (offset + ·)

def skipLines (text : JsString) : (lines : Nat) → (offset : Nat) → Except BugIndicatingError Nat
  | 0, offset => .ok offset
  | lines + 1, offset =>
    match indexOfLineFeed text offset with
    | none => .error .textLengthMismatch
    | some idx => skipLines text lines (idx + 1)

def splitText (text : JsString) (len : TextLength) :
    Except BugIndicatingError (JsString × JsString) :=
  if len = zero then .ok ([], text)
  else
    (skipLines text len.lineCount.toNat 0).map fun offset =>
      let offset : Int := offset + len.columnCount
      (substring text 0 offset, substringFrom text offset)

def remainingLength (len split : TextLength) : TextLength :=
  if split.lineCount = len.lineCount then ⟨0, len.columnCount - split.columnCount⟩
  else ⟨len.lineCount - split.lineCount, len.columnCount⟩

def headsLeft (queue : List TextReplacement) (lastEdit1EndS0 : Position) (head : Option Head) : Nat :=
  (if head.isSome then 1 else 0) +
    match queue with
    | [] => 0
    | nextEdit :: rest => 2 * rest.length + if lastEdit1EndS0 = nextEdit.range.getStartPosition then 1 else 2

theorem headsLeft_ensureHead {st st' : ComposeState} {s e : Position} {text : Option JsString}
    {len : TextLength} (h : ensureHead st = (.finite s e text len, st')) :
    headsLeft st'.edit1Queue st'.lastEdit1EndS0 none <
      headsLeft st.edit1Queue st.lastEdit1EndS0 st.head := by
  obtain ⟨queue, last, head, current, result⟩ := st
  cases head with
  | some head =>
    obtain ⟨-, rfl⟩ := Prod.mk.inj h
    simp [headsLeft]
  | none =>
    cases queue with
    | nil => cases (Prod.mk.inj h).1
    | cons nextEdit queue =>
      simp only [ensureHead] at h
      split_ifs at h with hgap
      · -- the gap before the next replacement
        obtain ⟨-, rfl⟩ := Prod.mk.inj h
        simp [headsLeft, hgap]
      · obtain ⟨-, rfl⟩ := Prod.mk.inj h
        rw [not_not] at hgap
        cases queue with
        | nil => simp [headsLeft, hgap]
        | cons r rest =>
          simp only [headsLeft, hgap, Option.isSome_none, Bool.false_eq_true, if_false, if_true, List.length_cons]
          split_ifs <;> omega

def pushHead (result : List TextReplacement) (srcRangeStart srcRangeEnd : Position)
    (text : Option JsString) : List TextReplacement :=
  match text with
  | some text => result ++ [⟨Range.fromPositions srcRangeStart srcRangeEnd, text⟩]
  | none => result

def advanceWithin (r2Start : Position) (st : ComposeState) (srcRangeStart srcRangeEnd : Position)
    (text : Option JsString) (length : TextLength) : Except BugIndicatingError ComposeState :=
  let splitLen := betweenPositions st.currentPosInS1 r2Start
  match text with
  | some text => do
      let (t1, t2) ← splitText text splitLen
      return { st with
        resultReplacements := st.resultReplacements ++ [⟨Range.fromPositions srcRangeStart srcRangeEnd, t1⟩]
        head := some (.finite srcRangeEnd srcRangeEnd (some t2) (remainingLength length splitLen))
        currentPosInS1 := r2Start }
  | none => .ok { st with
      head := some (.finite (splitLen.addToPosition srcRangeStart) srcRangeEnd none (remainingLength length splitLen))
      currentPosInS1 := r2Start }

def advanceTo (r2Start : Position) (st : ComposeState) : Except BugIndicatingError ComposeState :=
  if st.currentPosInS1 = r2Start then .ok st
  else
    match _h : ensureHead st with
    | (.infinite srcRangeStart, st') =>
      let dist := betweenPositions st'.currentPosInS1 r2Start
      .ok { st' with
        currentPosInS1 := r2Start
        head := some (.infinite (dist.addToPosition srcRangeStart)) }
    | (.finite srcRangeStart srcRangeEnd text length, st') =>
      let headEndInS1 := length.addToPosition st'.currentPosInS1
      if r2Start.isBefore headEndInS1 then
        advanceWithin r2Start st' srcRangeStart srcRangeEnd text length
      else
        advanceTo r2Start { st' with
          resultReplacements := pushHead st'.resultReplacements srcRangeStart srcRangeEnd text
          currentPosInS1 := headEndInS1
          head := none }
  termination_by headsLeft st.edit1Queue st.lastEdit1EndS0 st.head
  decreasing_by exact headsLeft_ensureHead _h

/-- The stretch of the source that r2 consumes, from the first piece it takes on. -/
def consume (consumed : Option (Position × Position)) (start stop : Position) :
    Option (Position × Position) :=
  some ((consumed.map Prod.fst).getD start, stop)

def consumeWithin (r2End : Position) (st : ComposeState) (consumed : Option (Position × Position))
    (srcRangeStart srcRangeEnd : Position) (text : Option JsString) (length : TextLength) :
    Except BugIndicatingError (ComposeState × Option (Position × Position)) :=
  let splitLen := betweenPositions st.currentPosInS1 r2End
  match text with
  | some text => do
      let (_, t2) ← splitText text splitLen
      return ({ st with
        head := some (.finite srcRangeEnd srcRangeEnd (some t2) (remainingLength length splitLen))
        currentPosInS1 := r2End }, consume consumed srcRangeStart srcRangeEnd)
  | none =>
    let splitPos := splitLen.addToPosition srcRangeStart
    .ok ({ st with
      head := some (.finite splitPos srcRangeEnd none (remainingLength length splitLen))
      currentPosInS1 := r2End }, consume consumed srcRangeStart splitPos)

def consumeTo (r2End : Position) (st : ComposeState) (consumed : Option (Position × Position)) :
    Except BugIndicatingError (ComposeState × Option (Position × Position)) :=
  if st.currentPosInS1 = r2End then .ok (st, consumed)
  else
    match _h : ensureHead st with
    | (.infinite srcRangeStart, st') =>
      let rangeInS0End := (betweenPositions st'.currentPosInS1 r2End).addToPosition srcRangeStart
      .ok ({ st' with
        currentPosInS1 := r2End
        head := some (.infinite rangeInS0End) }, consume consumed srcRangeStart rangeInS0End)
    | (.finite srcRangeStart srcRangeEnd text length, st') =>
      let headEndInS1 := length.addToPosition st'.currentPosInS1
      if r2End.isBefore headEndInS1 then
        consumeWithin r2End st' consumed srcRangeStart srcRangeEnd text length
      else
        consumeTo r2End { st' with currentPosInS1 := headEndInS1, head := none }
          (consume consumed srcRangeStart srcRangeEnd)
  termination_by headsLeft st.edit1Queue st.lastEdit1EndS0 st.head
  decreasing_by exact headsLeft_ensureHead _h

def composeStep (st : ComposeState) (r2 : TextReplacement) :
    Except BugIndicatingError ComposeState := do
  let st ← advanceTo r2.range.getStartPosition st
  let (st, consumed) ← consumeTo r2.range.getEndPosition st none
  match consumed with
  | some (consumedStartS0, consumedEndS0) =>
    return { st with resultReplacements := st.resultReplacements ++
      [⟨Range.fromPositions consumedStartS0 consumedEndS0, r2.text⟩] }
  | none =>
    let (head, st) := ensureHead st
    return { st with resultReplacements := st.resultReplacements ++
      [⟨Range.fromPositions head.srcRangeStart head.srcRangeStart, r2.text⟩] }

def flushHeads (st : ComposeState) : List TextReplacement :=
  match _h : ensureHead st with
  | (.infinite _, st') => st'.resultReplacements
  | (.finite srcRangeStart srcRangeEnd text _, st') =>
    flushHeads { st' with
      resultReplacements := pushHead st'.resultReplacements srcRangeStart srcRangeEnd text
      head := none }
  termination_by headsLeft st.edit1Queue st.lastEdit1EndS0 st.head
  decreasing_by exact headsLeft_ensureHead _h

def composeNormalized (edits1 edits2 : TextEdit) : Except BugIndicatingError TextEdit := do
  let st ← edits2.replacements.foldlM composeStep ⟨edits1.replacements, ⟨1, 1⟩, none, ⟨1, 1⟩, []⟩
  return ⟨flushHeads st⟩

def compose (e other : TextEdit) : Except BugIndicatingError TextEdit := do
  let edits1 := e.normalize
  let edits2 := other.normalize
  if edits1.replacements.length = 0 then return edits2
  if edits2.replacements.length = 0 then return edits1
  return (← composeNormalized edits1 edits2).normalize

def ValidOn (e : TextEdit) (str : JsString) : Prop :=
  e.asserted ∧ ∀ r ∈ e.replacements,
    (⟨str⟩ : StringText).validatePosition r.range.getStartPosition = r.range.getStartPosition ∧
    (⟨str⟩ : StringText).validatePosition r.range.getEndPosition = r.range.getEndPosition

end TextEdit

open Gavea.Core Lib.Js Lib.Splicing TextLength StringText List

structure Denotes (s : JsString) (r : TextReplacement) (sp : Splice CodeUnit) : Prop where
  text : r.text = sp.text
  start : ValidOffset s sp.start
  stop : ValidOffset s sp.stop
  le : sp.start ≤ sp.stop
  startPosition : r.range.getStartPosition = positionAt s sp.start
  endPosition : r.range.getEndPosition = positionAt s sp.stop

variable {s : JsString}

theorem Denotes.mk_range {a b : Int} {u : JsString} (ha : ValidOffset s a) (hb : ValidOffset s b)
    (hab : a ≤ b) :
    Denotes s ⟨Range.fromPositions (positionAt s a) (positionAt s b), u⟩ ⟨a, b, u⟩ := by
  have h := Range.fromPositions_spec (isBeforeOrEqual_positionAt hab ha.1 hb.2.1)
  exact ⟨rfl, ha, hb, hab, h.1, h.2⟩

theorem isBeforeOrEqual_positionAt_iff {a b : Int} (ha : ValidOffset s a) (hb : ValidOffset s b) :
    (positionAt s a).isBeforeOrEqual (positionAt s b) ↔ a ≤ b := by
  refine ⟨fun h => ?_, fun h => isBeforeOrEqual_positionAt h ha.1 hb.2.1⟩
  by_contra hlt
  have h' := isBefore_positionAt hb.1 (not_le.mp hlt) ha.2.1
  rw [Position.isBeforeOrEqual_iff] at h
  rw [Position.isBefore_iff] at h'
  omega

namespace TextEdit

theorem exists_splices_from {rs : List TextReplacement} (h : ValidOn ⟨rs⟩ s) :
    ∃ sps, List.Forall₂ (Denotes s) rs sps ∧
      ∀ lo : Int, lo ≤ s.length → (∀ sp ∈ sps.head?, lo ≤ sp.start) → ChainTo lo sps s.length := by
  induction rs with
  | nil => exact ⟨[], .nil, fun lo hlo _ => hlo⟩
  | cons r rs ih =>
    obtain ⟨hasserted, hvalid⟩ := h
    obtain ⟨hr1, hr2⟩ := hvalid r mem_cons_self
    obtain ⟨a, ha, hstart⟩ := exists_offset ⟨s⟩ hr1
    obtain ⟨b, hb, hend⟩ := exists_offset ⟨s⟩ hr2
    have hab : a ≤ b := by
      rw [← isBeforeOrEqual_positionAt_iff ha hb, ← hstart, ← hend]
      exact r.range.isBeforeOrEqual
    have hrest : ValidOn ⟨rs⟩ s := by
      refine ⟨?_, fun q hq => hvalid q (mem_cons_of_mem r hq)⟩
      cases rs with
      | nil => rfl
      | cons q rs => exact (Bool.and_eq_true_iff.mp hasserted).2
    obtain ⟨sps, hsps, hchain⟩ := ih hrest
    refine ⟨⟨a, b, r.text⟩ :: sps, .cons ⟨rfl, ha, hb, hab, hstart, hend⟩ hsps, fun lo _ hlo => ?_⟩
    refine ⟨hlo _ rfl, hab, hchain b hb.2.1 fun sp hsp => ?_⟩
    cases hsps with
    | nil => cases hsp
    | cons hq _ =>
      obtain rfl := Option.some.inj hsp
      have hbefore := (Bool.and_eq_true_iff.mp hasserted).1
      simp only [hend, hq.startPosition] at hbefore
      exact (isBeforeOrEqual_positionAt_iff hb hq.start).mp hbefore

theorem ValidOn.exists_splices {e : TextEdit} (h : e.ValidOn s) :
    ∃ sps, List.Forall₂ (Denotes s) e.replacements sps ∧ ChainTo 0 sps s.length := by
  obtain ⟨rs⟩ := e
  obtain ⟨sps, hsps, hchain⟩ := exists_splices_from h
  refine ⟨sps, hsps, hchain 0 (Int.natCast_nonneg _) fun sp hsp => ?_⟩
  cases hsps with
  | nil => cases hsp
  | cons hr _ =>
    obtain rfl := Option.some.inj hsp
    exact hr.start.1

theorem asserted_of_chain {rs : List TextReplacement} {sps : List (Splice CodeUnit)} {lo : Int}
    (h : List.Forall₂ (Denotes s) rs sps) (hchain : Chain lo sps) : (⟨rs⟩ : TextEdit).asserted := by
  induction h generalizing lo with
  | nil => rfl
  | @cons r sp rs sps hr hrs ih =>
    cases hrs with
    | nil => rfl
    | cons hq hrs =>
      refine Bool.and_eq_true_iff.mpr ⟨?_, ih hchain.2.2⟩
      simp only
      rw [hr.endPosition, hq.startPosition, isBeforeOrEqual_positionAt_iff hr.stop hq.start]
      exact hchain.2.2.1

theorem valueBetween_eq (hlen : s.length < maxSafeInteger) {a b : Int} (ha : ValidOffset s a)
    (hb : ValidOffset s b) (hab : a ≤ b) :
    valueBetween ⟨s⟩ (positionAt s a) (positionAt s b) = .ok (textBetween s a b) := by
  have hempty {p q : Position} (h : p.isBeforeOrEqual q) :
      (Range.fromPositions p q).isEmpty ↔ p = q := by
    rw [Range.isEmpty_iff, (Range.fromPositions_spec h).1, (Range.fromPositions_spec h).2]
  have hle := isBeforeOrEqual_positionAt hab ha.1 hb.2.1
  rcases hab.lt_or_eq with hlt | rfl
  · have hne : ¬ (Range.fromPositions (positionAt s a) (positionAt s b)).isEmpty := by
      rw [hempty hle]
      intro heq
      exact hlt.ne (positionAt_inj ha.1 ha.2.1 hb.1 hb.2.1 heq)
    have hcolumn : (positionAt s a).column ≠ maxSafeInteger := by
      have := columnCount_le_length (s.take a.toNat)
      rw [length_take] at this
      have := ha.1
      have := hb.2.1
      rw [positionAt, endPosition_eq]
      simp only
      omega
    have hrange : rangeFromPositions (positionAt s a) (positionAt s b) =
        .ok (Range.fromPositions (positionAt s a) (positionAt s b)) := by
      rw [rangeFromPositions, if_neg fun h => hcolumn h.2, hle]
      rfl
    simp only [valueBetween, hrange, bind, Except.bind, hne, getValueOfRange, getOffsetRange,
      (Range.fromPositions_spec hle).1, (Range.fromPositions_spec hle).2,
      (getOffset_positionAt ⟨s⟩ ha).2, (getOffset_positionAt ⟨s⟩ hb).2, OffsetRange.new_ok hab]
    change Except.ok (substring s a b) = _
    rw [substring_eq s hab]
    rfl
  · have hself := (hempty (p := positionAt s a) (q := positionAt s a) (by
      rw [isBeforeOrEqual_positionAt_iff ha ha])).mpr rfl
    have hrange : rangeFromPositions (positionAt s a) (positionAt s a) =
        .ok (Range.fromPositions (positionAt s a) (positionAt s a)) := by
      rw [rangeFromPositions, hle]
      simp
    simp only [valueBetween, hrange, bind, Except.bind, hself, textBetween_self]
    rfl

theorem applyLoop_eq (hlen : s.length < maxSafeInteger) {rs : List TextReplacement}
    {sps : List (Splice CodeUnit)} {p : Int} (h : List.Forall₂ (Denotes s) rs sps)
    (hp : ValidOffset s p) (hchain : ChainTo p sps s.length) :
    applyLoop ⟨s⟩ rs (positionAt s p) = .ok (splice p sps (s.drop p.toNat)) := by
  induction h generalizing p with
  | nil =>
    have hend : ValidOffset s s.length := ⟨Int.natCast_nonneg _, le_rfl, by simp⟩
    rw [applyLoop, endPositionExclusive_eq, valueBetween_eq hlen hp hend hp.2.1]
    simp [textBetween]
  | @cons r sp rs sps hr hrs ih =>
    rw [applyLoop, hr.startPosition, hr.endPosition, valueBetween_eq hlen hp hr.start hchain.1,
      ih hr.stop hchain.2.2, splice_cons_drop _ _ hp.1 hchain.1 hchain.2.1, hr.text]
    rfl

theorem applyToString_eq (hlen : s.length < maxSafeInteger) {rs : List TextReplacement}
    {sps : List (Splice CodeUnit)} (h : List.Forall₂ (Denotes s) rs sps)
    (hchain : ChainTo 0 sps s.length) : applyToString ⟨rs⟩ s = .ok (splice 0 sps s) := by
  have hzero : ValidOffset s 0 := ⟨le_rfl, Int.natCast_nonneg _, by simp⟩
  exact applyLoop_eq hlen h hzero hchain

theorem exists_concat {rs : List TextReplacement} {last : TextReplacement}
    {sps : List (Splice CodeUnit)} (h : List.Forall₂ (Denotes s) (rs ++ [last]) sps) :
    ∃ init sp, sps = init ++ [sp] ∧ List.Forall₂ (Denotes s) rs init ∧ Denotes s last sp := by
  induction rs generalizing sps with
  | nil =>
    obtain _ | ⟨hlast, hnil⟩ := h
    cases hnil
    exact ⟨[], _, rfl, .nil, hlast⟩
  | cons r rs ih =>
    obtain _ | ⟨hr, hrs⟩ := h
    obtain ⟨init, sp, rfl, hinit, hsp⟩ := ih hrs
    exact ⟨_ :: init, sp, rfl, .cons hr hinit, hsp⟩

theorem forall₂_concat {rs : List TextReplacement} {r : TextReplacement}
    {sps : List (Splice CodeUnit)} {sp : Splice CodeUnit} (h : List.Forall₂ (Denotes s) rs sps)
    (hr : Denotes s r sp) : List.Forall₂ (Denotes s) (rs ++ [r]) (sps ++ [sp]) :=
  rel_append h (.cons hr .nil)

theorem splice_of_isEmpty {r : TextReplacement} {sp : Splice CodeUnit} (h : Denotes s r sp)
    (hempty : r.isEmpty) : sp = ⟨sp.start, sp.start, []⟩ := by
  simp only [TextReplacement.isEmpty, Bool.and_eq_true, beq_iff_eq, length_eq_zero_iff,
    Range.isEmpty_iff, h.startPosition, h.endPosition] at hempty
  have hstop := positionAt_inj h.start.1 h.start.2.1 h.stop.1 h.stop.2.1 hempty.1
  have htext := h.text.symm.trans hempty.2
  obtain ⟨start, stop, text⟩ := sp
  simp only at hstop htext
  rw [hstop, htext]

theorem pushUnlessEmpty_spec {acc : List TextReplacement} {r : TextReplacement}
    {A R : List (Splice CodeUnit)} {sp : Splice CodeUnit} (hA : List.Forall₂ (Denotes s) acc A)
    (hr : Denotes s r sp) (hchain : ChainTo 0 (A ++ sp :: R) s.length) :
    ∃ A', List.Forall₂ (Denotes s) (if !r.isEmpty then acc ++ [r] else acc) A' ∧
      ChainTo 0 (A' ++ R) s.length ∧ splice 0 (A' ++ R) s = splice 0 (A ++ sp :: R) s := by
  by_cases hempty : r.isEmpty
  · obtain ⟨hfront, hback⟩ := hchain.split
    have hsp := splice_of_isEmpty hr hempty
    have hrest : ChainTo sp.start R s.length := hback.2.2.mono_left hr.le
    refine ⟨A, by rwa [if_neg (by simp [hempty])], hfront.append hrest, ?_⟩
    refine splice_append_congr s hfront hrest.chain hback.chain fun t => ?_
    rw [hsp]
    exact (splice_cons_empty t le_rfl hrest.chain).symm
  · refine ⟨A ++ [sp], by rw [if_pos (by simp [hempty])]; exact forall₂_concat hA hr, ?_, ?_⟩
    · simpa using hchain
    · simp

theorem normalizeStep_spec {acc : List TextReplacement} {r : TextReplacement}
    {A R : List (Splice CodeUnit)} {sp : Splice CodeUnit} (hA : List.Forall₂ (Denotes s) acc A)
    (hr : Denotes s r sp) (hchain : ChainTo 0 (A ++ sp :: R) s.length) :
    ∃ A', List.Forall₂ (Denotes s) (normalizeStep acc r) A' ∧ ChainTo 0 (A' ++ R) s.length ∧
      splice 0 (A' ++ R) s = splice 0 (A ++ sp :: R) s := by
  rw [normalizeStep]
  cases hlast : acc.getLast? with
  | none => exact pushUnlessEmpty_spec hA hr hchain
  | some last =>
    by_cases htouch : last.range.getEndPosition = r.range.getStartPosition
    · simp only [if_pos htouch]
      obtain ⟨init, rfl⟩ := getLast?_eq_some_iff.mp hlast
      obtain ⟨B, l, rfl, hB, hl⟩ := exists_concat hA
      have hjoin : l.stop = sp.start := by
        rw [hl.endPosition, hr.startPosition] at htouch
        exact positionAt_inj hl.stop.1 hl.stop.2.1 hr.start.1 hr.start.2.1 htouch
      have hpositions := Range.plusRange_touching htouch
      have hdenotes : Denotes s ⟨last.range.plusRange r.range, last.text ++ r.text⟩
          ⟨l.start, sp.stop, l.text ++ sp.text⟩ :=
        ⟨by rw [hl.text, hr.text], hl.start, hr.stop, hl.le.trans (hjoin.le.trans hr.le),
          hpositions.1.trans hl.startPosition, hpositions.2.trans hr.endPosition⟩
      rw [append_assoc] at hchain
      obtain ⟨hfront, hback⟩ := ChainTo.split hchain
      have hback' : ChainTo l.start (⟨l.start, sp.stop, l.text ++ sp.text⟩ :: R) s.length :=
        ⟨le_rfl, hdenotes.le, hback.2.2.2.2⟩
      refine ⟨B ++ [⟨l.start, sp.stop, l.text ++ sp.text⟩], ?_, ?_, ?_⟩
      · rw [dropLast_concat]
        exact forall₂_concat hB hdenotes
      · rw [append_assoc]
        exact hfront.append hback'
      · rw [append_assoc, append_assoc]
        refine splice_append_congr s hfront hback'.chain hback.chain fun t => ?_
        exact (splice_cons_join t le_rfl hl.le hr.le hjoin).symm
    · simp only [if_neg htouch]
      exact pushUnlessEmpty_spec hA hr hchain

theorem normalize_spec {rs : List TextReplacement} {sps : List (Splice CodeUnit)}
    (h : List.Forall₂ (Denotes s) rs sps) (hchain : ChainTo 0 sps s.length) :
    ∃ out, List.Forall₂ (Denotes s) (normalize ⟨rs⟩).replacements out ∧ ChainTo 0 out s.length ∧
      splice 0 out s = splice 0 sps s := by
  have hloop (acc : List TextReplacement) (A : List (Splice CodeUnit))
      (hA : List.Forall₂ (Denotes s) acc A) (hchain : ChainTo 0 (A ++ sps) s.length) :
      ∃ out, List.Forall₂ (Denotes s) (rs.foldl normalizeStep acc) out ∧ ChainTo 0 out s.length ∧
        splice 0 out s = splice 0 (A ++ sps) s := by
    clear * - h hA hchain
    induction h generalizing acc A with
    | nil => exact ⟨A, hA, by simpa using hchain, by simp⟩
    | cons hr hrs ih =>
      obtain ⟨A', hA', hchain', heq'⟩ := normalizeStep_spec hA hr hchain
      obtain ⟨out, hout, hchain'', heq''⟩ := ih _ A' hA' hchain'
      exact ⟨out, hout, hchain'', heq''.trans heq'⟩
  exact hloop [] [] .nil hchain

end TextEdit

end Gavea.Edits
