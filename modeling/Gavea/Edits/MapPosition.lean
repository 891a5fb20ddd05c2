import Gavea.Edits.TextInverse
import Gavea.Core.LineRangeSet

namespace Gavea.Core

open Lib.Js TextLength List

namespace StringText

def getPosition (t : StringText) (offset : Int) : Position :=
  let idx := findLastIdxMonotonous t.lineStartOffsetByLineIdx fun i => decide (i ≤ offset)
  ⟨idx + 1, offset - offsetAt t.lineStartOffsetByLineIdx idx + 1⟩

def getRange (t : StringText) (offsetRange : OffsetRange) : Range :=
  Range.fromPositions (t.getPosition offsetRange.start) (t.getPosition offsetRange.endExclusive)

theorem starts_congr (i : Nat) (previous previous' : Option CodeUnit) (v : JsString) :
    (lineOffsetsFrom i previous v).1 = (lineOffsetsFrom i previous' v).1 := by
  cases v with
  | nil => rfl
  | cons c v =>
    simp only [lineOffsetsFrom]
    split_ifs <;> rfl

theorem starts_append (i : Nat) (previous previous' : Option CodeUnit) (u v : JsString) :
    (lineOffsetsFrom i previous (u ++ v)).1 =
      (lineOffsetsFrom i previous u).1 ++ (lineOffsetsFrom (i + u.length) previous' v).1 := by
  induction u generalizing i previous with
  | nil => exact starts_congr i previous previous' v
  | cons c u ih =>
    have hi : i + 1 + u.length = i + (c :: u).length := by
      rw [length_cons]
      omega
    rw [cons_append]
    by_cases hc : c = lineFeed
    · subst hc
      rw [lineOffsetsFrom_lineFeed, lineOffsetsFrom_lineFeed, cons_append, ih, hi]
    · rw [lineOffsetsFrom_of_ne i previous hc, lineOffsetsFrom_of_ne i previous hc, ih, hi]

theorem mem_starts {i : Nat} {previous : Option CodeUnit} {v : JsString} {x : Int}
    (h : x ∈ (lineOffsetsFrom i previous v).1) : i < x ∧ x ≤ i + v.length := by
  induction v generalizing i previous with
  | nil => simp [lineOffsetsFrom] at h
  | cons c v ih =>
    rw [length_cons]
    push_cast
    by_cases hc : c = lineFeed
    · subst hc
      rw [lineOffsetsFrom_lineFeed, mem_cons] at h
      rcases h with rfl | h
      · omega
      · have := ih h
        push_cast at this
        omega
    · rw [lineOffsetsFrom_of_ne i previous hc] at h
      have := ih h
      push_cast at this
      omega

theorem length_starts (i : Nat) (previous : Option CodeUnit) (u : JsString) :
    ((lineOffsetsFrom i previous u).1.length : Int) = (ofCodeUnits u).lineCount := by
  obtain ⟨starts, ends, hse, hlen, -⟩ := lineOffsetsFrom_append i previous u []
  rw [append_nil] at hse
  rw [hse, ← hlen]
  simp [lineOffsetsFrom]

theorem getPosition_eq (t : StringText) {k : Int} (h0 : 0 ≤ k) (hk : k ≤ t.value.length) :
    t.getPosition k = positionAt t.value k := by
  have hsplit : t.value = t.value.take k.toNat ++ t.value.drop k.toNat := (take_append_drop ..).symm
  have hlen : ((t.value.take k.toNat).length : Int) = k := by
    rw [length_take]
    omega
  have hlist : t.lineStartOffsetByLineIdx = (0 :: (lineOffsetsFrom 0 none (t.value.take k.toNat)).1) ++
      (lineOffsetsFrom (0 + (t.value.take k.toNat).length) none (t.value.drop k.toNat)).1 := by
    rw [lineStartOffsetByLineIdx]
    conv_lhs => rw [hsplit]
    rw [starts_append 0 none none, cons_append]
  have hcount := length_starts 0 none (t.value.take k.toNat)
  have hstart := lineStart_eq t hsplit
  have hfound : findLastIdxMonotonous t.lineStartOffsetByLineIdx (fun i => decide (i ≤ k)) =
      (ofCodeUnits (t.value.take k.toNat)).lineCount := by
    have hloop := @findLastIdxLoop_eq _ t.lineStartOffsetByLineIdx (fun i => decide (i ≤ k))
      (0 :: (lineOffsetsFrom 0 none (t.value.take k.toNat)).1).length (fun idx hidx => by
        rw [hlist]
        by_cases hlt : idx < (0 :: (lineOffsetsFrom 0 none (t.value.take k.toNat)).1).length
        · rw [getElem?_append_left hlt, getElem?_eq_getElem hlt, Option.any_some, decide_eq_true hlt, decide_eq_true_eq]
          have hmem := getElem_mem hlt
          rw [mem_cons] at hmem
          rcases hmem with hzero | hmem
          · rw [hzero]
            exact h0
          · have := (mem_starts hmem).2
            omega
        · rw [hlist, length_append] at hidx
          have hlt' : idx - (0 :: (lineOffsetsFrom 0 none (t.value.take k.toNat)).1).length <
              (lineOffsetsFrom (0 + (t.value.take k.toNat).length) none (t.value.drop k.toNat)).1.length := by omega
          rw [getElem?_append_right (not_lt.mp hlt), getElem?_eq_getElem hlt',
            Option.any_some, decide_eq_false hlt, decide_eq_false_iff_not]
          have := (mem_starts (getElem_mem hlt')).1
          omega) 0 t.lineStartOffsetByLineIdx.length (Nat.zero_le _)
        (by rw [hlist, length_append]; omega) le_rfl
    rw [findLastIdxMonotonous, hloop, length_cons, ← hcount]
    push_cast
    ring
  rw [getPosition, hfound, hstart, positionAt, endPosition_eq, hlen]
  simp only [Position.mk.injEq, true_and]
  ring

end StringText

end Gavea.Core

namespace Gavea.Edits

open List

open Gavea.Core Lib.Js Lib.Splicing TextLength StringText BaseReplacement

namespace BaseEdit

variable {T : Type} [BaseReplacement T]

def applyToOffsetLoop (originalOffset : Int) : List T → (accumulatedDelta : Int) → Int
  | [], accumulatedDelta => originalOffset + accumulatedDelta
  | r :: rest, accumulatedDelta =>
    if (replaceRange r).start ≤ originalOffset then
      if originalOffset < (replaceRange r).endExclusive then
        (replaceRange r).start + accumulatedDelta
      else
        applyToOffsetLoop originalOffset rest (accumulatedDelta + ((getNewLength r : Int) - (replaceRange r).length))
    else originalOffset + accumulatedDelta

def applyToOffset (e : BaseEdit T) (originalOffset : Int) : Int := applyToOffsetLoop originalOffset e.replacements 0

end BaseEdit

def getStringReplacement (t : StringText) (edit : TextReplacement) :
    Except BugIndicatingError StringReplacement :=
  (t.getOffsetRange edit.range).map fun range => ⟨range, edit.text⟩

def getStringEdit (t : StringText) (edit : TextEdit) : Except BugIndicatingError StringEdit :=
  (edit.replacements.mapM (getStringReplacement t)).bind BaseEdit.new

namespace TextEdit

def mapPositionLoop (position : Position) : List TextReplacement →
    (lineDelta curLine columnDeltaInCurLine : Int) → Except BugIndicatingError (Position ⊕ Range)
  | [], lineDelta, curLine, columnDeltaInCurLine =>
    .ok (.inl ⟨position.lineNumber + lineDelta, position.column +
      if position.lineNumber + lineDelta = curLine then columnDeltaInCurLine else 0⟩)
  | replacement :: rest, lineDelta, curLine, columnDeltaInCurLine =>
    let start := replacement.range.getStartPosition
    if position.isBeforeOrEqual start then
      .ok (.inl ⟨position.lineNumber + lineDelta, position.column +
        if position.lineNumber + lineDelta = curLine then columnDeltaInCurLine else 0⟩)
    else
      let stop := replacement.range.getEndPosition
      let len := ofText replacement.text
      if position.isBefore stop then
        let startPos : Position := ⟨start.lineNumber + lineDelta, start.column +
          if start.lineNumber + lineDelta = curLine then columnDeltaInCurLine else 0⟩
        (rangeFromPositions startPos (len.addToPosition startPos)).map .inr
      else
        let columnDeltaInCurLine :=
          if start.lineNumber + lineDelta ≠ curLine then 0 else columnDeltaInCurLine
        let lineDelta := lineDelta +
          (len.lineCount - (replacement.range.endLineNumber - replacement.range.startLineNumber))
        let columnDeltaInCurLine :=
          if len.lineCount = 0 then
            if stop.lineNumber ≠ start.lineNumber then
              columnDeltaInCurLine + (len.columnCount - (stop.column - 1))
            else columnDeltaInCurLine + (len.columnCount - (stop.column - start.column))
          else len.columnCount
        mapPositionLoop position rest lineDelta (stop.lineNumber + lineDelta) columnDeltaInCurLine

def mapPosition (e : TextEdit) (position : Position) :
    Except BugIndicatingError (Position ⊕ Range) :=
  mapPositionLoop position e.replacements 0 0 0

/-- How far the column delta of `mapPosition` is off behind a replacement, when it is off by drift
at its start. -/
def driftBehind (r : TextReplacement) (drift : Int) : Int :=
  let pairs : Int := surrogatePairs (lastLine r.text)
  if lineFeed ∈ r.text then r.range.endColumn - 1 - pairs
  else if r.range.startLineNumber = r.range.endLineNumber then drift - pairs
  else drift - pairs - (r.range.startColumn - 1)

def insertedAt (position : Position) (rs : List TextReplacement) : JsString :=
  (rs.filter fun r => r.range.getStartPosition = position ∧ r.range.getEndPosition = position).flatMap
    TextReplacement.text

def driftOn (line drift lineNumber : Int) : Int := if lineNumber = line then drift else 0

def MapsWell (position : Position) : List TextReplacement → (line drift : Int) → Prop
  | [], line, drift => driftOn line drift position.lineNumber = 0
  | r :: rs, line, drift =>
    if position.isBeforeOrEqual r.range.getStartPosition then
      lineFeed ∉ insertedAt position (r :: rs) ∧
        ((insertedAt position (r :: rs)).length : Int) = driftOn line drift position.lineNumber
    else if position.isBefore r.range.getEndPosition then
      driftOn line drift r.range.startLineNumber = 0 ∧ surrogatePairs (lastLine r.text) = 0
    else
      MapsWell position rs r.range.endLineNumber (driftBehind r (driftOn line drift r.range.startLineNumber))

instance MapsWell.decidable (position : Position) : (rs : List TextReplacement) →
    (line drift : Int) → Decidable (MapsWell position rs line drift)
  | [], line, drift => inferInstanceAs (Decidable (driftOn line drift position.lineNumber = 0))
  | r :: rs, line, drift =>
    have := MapsWell.decidable position rs r.range.endLineNumber
      (driftBehind r (driftOn line drift r.range.startLineNumber))
    inferInstanceAs (Decidable (if position.isBeforeOrEqual r.range.getStartPosition then _ else
      if position.isBefore r.range.getEndPosition then _ else _))

end TextEdit

def TextReplacement.hasInside (r : TextReplacement) (position : Position) : Bool :=
  r.range.getStartPosition.isBefore position && position.isBefore r.range.getEndPosition

def mapThroughOffsets (t t1 : StringText) (e : TextEdit) (offsets : StringEdit)
    (position : Position) : Position ⊕ Range :=
  match e.replacements.find? fun r => r.hasInside position with
  | some r => .inr (t1.getRange (OffsetRange.ofStartAndLength
      (offsets.applyToOffset (t.getOffset r.range.getStartPosition)) r.text.length))
  | none => .inl (t1.getPosition (offsets.applyToOffset (t.getOffset position)))

namespace TextEdit

structure MapState (place place' : Position)
    (lineDelta curLine columnDeltaInCurLine line drift : Int) : Prop where
  lineDelta_eq : lineDelta = place'.lineNumber - place.lineNumber
  column_eq : ∀ l, place.lineNumber ≤ l →
    (if l + lineDelta = curLine then columnDeltaInCurLine else 0) =
      (if l = place.lineNumber then place'.column - place.column else 0) + driftOn line drift l

variable {place place' : Position} {lineDelta curLine columnDeltaInCurLine line drift : Int}
  {r : TextReplacement} {rs : List TextReplacement} {q : StringReplacement}
  {qs : List StringReplacement} {s s1 : JsString} {sp : Splice CodeUnit}
  {sps : List (Splice CodeUnit)} {a b k : Int}

theorem MapState.position (h : MapState place place' lineDelta curLine columnDeltaInCurLine line drift)
    {p : Position} (hle : place.lineNumber ≤ p.lineNumber) :
    (⟨p.lineNumber + lineDelta, p.column +
      if p.lineNumber + lineDelta = curLine then columnDeltaInCurLine else 0⟩ : Position) =
      ⟨(shifted place place' p).lineNumber,
        (shifted place place' p).column + driftOn line drift p.lineNumber⟩ := by
  rw [h.column_eq _ hle, h.lineDelta_eq, shifted, add_assoc]

theorem MapState.next (h : MapState place place' lineDelta curLine columnDeltaInCurLine line drift)
    (hle : place.lineNumber ≤ r.range.startLineNumber) :
    let start := r.range.getStartPosition
    let stop := r.range.getEndPosition
    let len := ofText r.text
    let columnDelta := if start.lineNumber + lineDelta ≠ curLine then 0 else columnDeltaInCurLine
    let lineDelta' := lineDelta +
      (len.lineCount - (r.range.endLineNumber - r.range.startLineNumber))
    MapState stop ((ofCodeUnits r.text).addToPosition (shifted place place' start)) lineDelta'
      (stop.lineNumber + lineDelta')
      (if len.lineCount = 0 then
        if stop.lineNumber ≠ start.lineNumber then
          columnDelta + (len.columnCount - (stop.column - 1))
        else columnDelta + (len.columnCount - (stop.column - start.column))
      else len.columnCount)
      r.range.endLineNumber (driftBehind r (driftOn line drift r.range.startLineNumber)) := by
  intro start stop len columnDelta lineDelta'
  have hlen : len = ⟨(ofCodeUnits r.text).lineCount,
      (ofCodeUnits r.text).columnCount - surrogatePairs (lastLine r.text)⟩ := ofText_eq r.text
  have hcolumn : columnDelta = (shifted place place' start).column - start.column +
      driftOn line drift r.range.startLineNumber := by
    have hstart := h.column_eq r.range.startLineNumber hle
    have hflip : columnDelta =
        if r.range.startLineNumber + lineDelta = curLine then columnDeltaInCurLine else 0 := by
      simp only [columnDelta, ite_not]
      rfl
    rw [hflip, hstart, shifted]
    change _ = start.column + (if r.range.startLineNumber = _ then _ else _) - _ + _
    ring
  have hshift : (shifted place place' start).lineNumber = r.range.startLineNumber + lineDelta := by
    rw [h.lineDelta_eq, shifted]
    rfl
  have hlineDelta : lineDelta' =
      ((ofCodeUnits r.text).addToPosition (shifted place place' start)).lineNumber -
        stop.lineNumber := by
    have hstop : stop.lineNumber = r.range.endLineNumber := rfl
    have hdelta : lineDelta' = lineDelta + ((ofCodeUnits r.text).lineCount -
        (r.range.endLineNumber - r.range.startLineNumber)) := by
      simp only [lineDelta', hlen]
    rw [hdelta, addToPosition]
    split_ifs with hz <;> simp only [hshift] <;> omega
  refine ⟨hlineDelta, fun l _ => ?_⟩
  have hstop : stop.lineNumber = r.range.endLineNumber := rfl
  by_cases hl : l = stop.lineNumber
  · rw [hl, if_pos rfl, if_pos rfl, hstop, driftOn, if_pos rfl, driftBehind, hcolumn, hlen, addToPosition]
    simp only [ne_eq]
    have hstartLine : start.lineNumber = r.range.startLineNumber := rfl
    have hstartColumn : start.column = r.range.startColumn := rfl
    have hstopColumn : stop.column = r.range.endColumn := rfl
    by_cases hz : (ofCodeUnits r.text).lineCount = 0
    · have hmem := (lineCount_eq_zero_iff r.text).mp hz
      rw [if_pos hz, if_pos hz, if_neg hmem, hstartLine]
      split_ifs <;> simp only [hstartColumn, hstopColumn] <;> omega
    · have hmem : lineFeed ∈ r.text := not_not.mp fun hmem => hz ((lineCount_eq_zero_iff r.text).mpr hmem)
      rw [if_neg hz, if_neg hz, if_pos hmem]
      simp only [hstopColumn]
      omega
  · have hne : ¬l + lineDelta' = stop.lineNumber + lineDelta' := by omega
    have hl' : ¬l = r.range.endLineNumber := hl
    rw [if_neg hne, if_neg hl, driftOn, if_neg hl', add_zero]

structure Addresses (q : StringReplacement) (sp : Splice CodeUnit) : Prop where
  start : q.replaceRange.start = sp.start
  stop : q.replaceRange.endExclusive = sp.stop
  text : q.newText = sp.text

theorem sorted_of_chain {lo : Int} (h : List.Forall₂ Addresses qs sps) (hchain : Chain lo sps) :
    DisjointAndSorted lo qs := by
  induction h generalizing lo with
  | nil => trivial
  | @cons q sp qs sps hq hqs ih =>
    refine ⟨?_, ?_⟩
    · change lo ≤ q.replaceRange.start
      rw [hq.start]
      exact hchain.1
    · change DisjointAndSorted q.replaceRange.endExclusive qs
      rw [hq.stop]
      exact ih hchain.2.2

theorem exists_stringEdit (h : List.Forall₂ (Denotes s) rs sps) (hchain : ChainTo 0 sps s.length) :
    ∃ offsets, getStringEdit ⟨s⟩ ⟨rs⟩ = .ok offsets ∧
      List.Forall₂ Addresses offsets.replacements sps := by
  have hmap : ∃ qs, rs.mapM (getStringReplacement ⟨s⟩) = .ok qs ∧ List.Forall₂ Addresses qs sps := by
    clear hchain
    induction h with
    | nil => exact ⟨[], rfl, .nil⟩
    | @cons r sp rs sps hr hrs ih =>
      obtain ⟨qs, hqs, hall⟩ := ih
      refine ⟨⟨⟨sp.start, sp.stop, hr.le⟩, r.text⟩ :: qs, ?_, .cons ⟨rfl, rfl, hr.text⟩ hall⟩
      rw [mapM_cons, getStringReplacement, getOffsetRange, getOffset_start hr,
        getOffset_end hr, OffsetRange.new_ok hr.le, hqs]
      rfl
  obtain ⟨qs, hqs, hall⟩ := hmap
  have hsorted := sorted_of_chain hall (hchain.chain.mono (by omega : (-1 : Int) ≤ 0))
  refine ⟨⟨qs, hsorted⟩, ?_, hall⟩
  rw [getStringEdit, hqs]
  exact BaseEdit.new_ok hsorted

section Offsets

variable {accumulatedDelta x : Int}

theorem applyToOffsetLoop_behind (h : Addresses q sp) (hle : sp.start ≤ sp.stop) (hx : sp.stop ≤ x) :
    BaseEdit.applyToOffsetLoop x (q :: qs) accumulatedDelta =
      BaseEdit.applyToOffsetLoop x qs
        (accumulatedDelta + (sp.text.length - (sp.stop - sp.start))) := by
  have hlength : ((getNewLength q : Int) - (replaceRange q).length) =
      sp.text.length - (sp.stop - sp.start) := by
    rw [OffsetRange.length_cast]
    change ((q.newText.length : Int) - (q.replaceRange.endExclusive - q.replaceRange.start)) = _
    rw [h.start, h.stop, h.text]
  have hstart : (replaceRange q).start = sp.start := h.start
  have hstop : (replaceRange q).endExclusive = sp.stop := h.stop
  rw [BaseEdit.applyToOffsetLoop, hlength, hstart, hstop, if_pos (by omega), if_neg (by omega)]

theorem applyToOffsetLoop_within (h : Addresses q sp) (hx : sp.start ≤ x) (hlt : x < sp.stop) :
    BaseEdit.applyToOffsetLoop x (q :: qs) accumulatedDelta = sp.start + accumulatedDelta := by
  have hstart : (replaceRange q).start = sp.start := h.start
  have hstop : (replaceRange q).endExclusive = sp.stop := h.stop
  rw [BaseEdit.applyToOffsetLoop, hstart, hstop, if_pos hx, if_pos hlt]

theorem applyToOffsetLoop_front (h : Addresses q sp) (hx : x < sp.start) :
    BaseEdit.applyToOffsetLoop x (q :: qs) accumulatedDelta = x + accumulatedDelta := by
  have hstart : (replaceRange q).start = sp.start := h.start
  rw [BaseEdit.applyToOffsetLoop, hstart, if_neg (by omega)]

theorem positionAt_eq_iff {x y : Int} (hx : ValidOffset s x) (hy : ValidOffset s y) :
    positionAt s x = positionAt s y ↔ x = y :=
  ⟨positionAt_inj hx.1 hx.2.1 hy.1 hy.2.1, fun h => by rw [h]⟩

theorem insertedAt_cons (h : Denotes s r sp) (hk : ValidOffset s k) :
    insertedAt (positionAt s k) (r :: rs) =
      (if sp.start = k ∧ sp.stop = k then sp.text else []) ++ insertedAt (positionAt s k) rs := by
  have hiff : (r.range.getStartPosition = positionAt s k ∧ r.range.getEndPosition = positionAt s k) ↔
      sp.start = k ∧ sp.stop = k := by
    rw [h.startPosition, h.endPosition, positionAt_eq_iff h.start hk, positionAt_eq_iff h.stop hk]
  rw [insertedAt, filter_cons]
  by_cases hat : sp.start = k ∧ sp.stop = k
  · rw [if_pos (decide_eq_true (hiff.mpr hat)), if_pos hat, flatMap_cons, h.text]
    rfl
  · rw [if_neg fun hmem => hat (hiff.mp (of_decide_eq_true hmem)), if_neg hat]
    rfl

theorem insertedAt_front (h : List.Forall₂ (Denotes s) rs sps) (hchain : Chain a sps)
    (hk : ValidOffset s k) (hlt : k < a) : insertedAt (positionAt s k) rs = [] := by
  induction h generalizing a with
  | nil => rfl
  | @cons r sp rs sps hr hrs ih =>
    obtain ⟨h1, h2, h3⟩ := hchain
    rw [insertedAt_cons hr hk, if_neg (by omega), ih h3 (by omega), append_nil]

theorem addToPosition_append (u v : JsString) (p : Position) :
    (ofCodeUnits (u ++ v)).addToPosition p =
      (ofCodeUnits v).addToPosition ((ofCodeUnits u).addToPosition p) := by
  have hu := (ofCodeUnits_nonneg u).1
  have hv := (ofCodeUnits_nonneg v).1
  rw [ofCodeUnits_append]
  by_cases hvz : (ofCodeUnits v).lineCount = 0
  · by_cases huz : (ofCodeUnits u).lineCount = 0 <;> simp [addToPosition, add, hvz, huz, add_assoc, add_comm]
  · have hne : (ofCodeUnits u).lineCount + (ofCodeUnits v).lineCount ≠ 0 := by omega
    by_cases huz : (ofCodeUnits u).lineCount = 0 <;> simp [addToPosition, add, hvz, huz, hne, add_assoc]

theorem inserted_nothing (h : Synced s s1 sps k b) {inserted : JsString} (hnone : inserted = [])
    {y : Int} (hxy : x = y) : x = y + inserted.length ∧ b + inserted.length ≤ s1.length ∧
      positionAt s1 (b + inserted.length) =
        (ofCodeUnits inserted).addToPosition (positionAt s1 b) := by
  rw [hnone, hxy]
  simpa [addToPosition_zero] using h.le'

theorem applyToOffsetLoop_inserted (hsync : Synced s s1 sps k b)
    (h : List.Forall₂ (Denotes s) rs sps) (hq : List.Forall₂ Addresses qs sps)
    (hk : ValidOffset s k) :
    BaseEdit.applyToOffsetLoop k qs accumulatedDelta =
        k + accumulatedDelta + (insertedAt (positionAt s k) rs).length ∧
      b + (insertedAt (positionAt s k) rs).length ≤ s1.length ∧
      positionAt s1 (b + (insertedAt (positionAt s k) rs).length) =
        (ofCodeUnits (insertedAt (positionAt s k) rs)).addToPosition (positionAt s1 b) := by
  induction h generalizing b qs accumulatedDelta with
  | nil =>
    cases hq
    exact inserted_nothing hsync rfl rfl
  | @cons r sp rs sps hr hrs ih =>
    obtain _ | ⟨hq, hqs⟩ := hq
    obtain ⟨h1, h2, h3⟩ := hsync.chain
    rcases h1.lt_or_eq with hlt | hat
    · refine inserted_nothing hsync ?_ (applyToOffsetLoop_front hq hlt)
      rw [insertedAt_cons hr hk, if_neg (by omega), insertedAt_front hrs h3.chain hk (by omega), append_nil]
    · rcases h2.lt_or_eq with hlt | hempty
      · refine inserted_nothing hsync ?_ ?_
        · rw [insertedAt_cons hr hk, if_neg (by omega), insertedAt_front hrs h3.chain hk (by omega), append_nil]
        · rw [applyToOffsetLoop_within hq hat.ge (by omega), hat]
      · -- an insertion at the offset
        rw [hat] at hsync
        obtain ⟨hsync', -, hposition⟩ := hsync.replace
        rw [← hempty, ← hat] at hsync'
        obtain ⟨ihOffset, ihLe, ihPosition⟩ := @ih _ _ (accumulatedDelta + sp.text.length) hsync' hqs
        rw [insertedAt_cons hr hk, if_pos ⟨hat.symm, by omega⟩, length_append]
        push_cast
        rw [← add_assoc b]
        refine ⟨?_, ihLe, ?_⟩
        · rw [applyToOffsetLoop_behind hq h2 (by omega), ← hempty, sub_self, sub_zero, ihOffset]
          ring
        · rw [ihPosition, hposition, addToPosition_append]

end Offsets

def mapThroughLoop (t t1 : StringText) (rs : List TextReplacement) (qs : List StringReplacement)
    (accumulatedDelta : Int) (position : Position) : Position ⊕ Range :=
  match rs.find? fun r => r.hasInside position with
  | some r => .inr (t1.getRange (OffsetRange.ofStartAndLength
      (BaseEdit.applyToOffsetLoop (t.getOffset r.range.getStartPosition) qs accumulatedDelta)
      r.text.length))
  | none => .inl (t1.getPosition (BaseEdit.applyToOffsetLoop (t.getOffset position) qs accumulatedDelta))

theorem hasInside_iff (h : Denotes s r sp) (hk : ValidOffset s k) :
    r.hasInside (positionAt s k) ↔ sp.start < k ∧ k < sp.stop := by
  rw [TextReplacement.hasInside, h.startPosition, h.endPosition, Bool.and_eq_true,
    isBefore_positionAt_iff h.start.1 h.start.2.1 hk.1 hk.2.1, isBefore_positionAt_iff hk.1 hk.2.1 h.stop.1 h.stop.2.1]

theorem find?_cons_of_pos {p : Position} (h : r.hasInside p) :
    (r :: rs).find? (fun r => r.hasInside p) = some r := by
  rw [find?_cons]
  simp only [h]

theorem find?_cons_of_neg {p : Position} (h : ¬r.hasInside p) :
    (r :: rs).find? (fun r => r.hasInside p) = rs.find? fun r => r.hasInside p := by
  rw [find?_cons]
  simp only [h]

theorem find?_front (h : List.Forall₂ (Denotes s) rs sps) (hchain : Chain k sps)
    (hk : ValidOffset s k) : rs.find? (fun r => r.hasInside (positionAt s k)) = none := by
  obtain ⟨c, hc, hlow⟩ : ∃ c, Chain c sps ∧ k ≤ c := ⟨k, hchain, le_rfl⟩
  clear hchain
  induction h generalizing c with
  | nil => rfl
  | @cons r sp rs sps hr hrs ih =>
    obtain ⟨h1, h2, h3⟩ := hc
    have hout : ¬r.hasInside (positionAt s k) := by
      rw [hasInside_iff hr hk]
      omega
    rw [find?_cons_of_neg hout]
    exact ih sp.stop h3 (by omega)

theorem mapThroughLoop_behind {t1 : StringText} {delta : Int} (hr : Denotes s r sp)
    (h : List.Forall₂ (Denotes s) rs sps) (hq : Addresses q sp) (hk : ValidOffset s k)
    (hle : sp.stop ≤ k) (hchain : Chain sp.stop sps) :
    mapThroughLoop ⟨s⟩ t1 (r :: rs) (q :: qs) delta (positionAt s k) =
      mapThroughLoop ⟨s⟩ t1 rs qs (delta + (sp.text.length - (sp.stop - sp.start)))
        (positionAt s k) := by
  have hout : ¬r.hasInside (positionAt s k) := by
    rw [hasInside_iff hr hk]
    omega
  have hstart : ∀ r' ∈ rs, sp.stop ≤ (⟨s⟩ : StringText).getOffset r'.range.getStartPosition := by
    obtain ⟨c, hc, hlow⟩ : ∃ c, Chain c sps ∧ sp.stop ≤ c := ⟨_, hchain, le_rfl⟩
    clear hchain
    induction h generalizing c with
    | nil => exact fun r' hr' => absurd hr' not_mem_nil
    | @cons r' sp' rs sps hr' hrs ih =>
      obtain ⟨h1, h2, h3⟩ := hc
      refine forall_mem_cons.mpr ⟨?_, ih sp'.stop h3 (by omega)⟩
      rw [getOffset_start hr']
      omega
  rw [mapThroughLoop, mapThroughLoop, find?_cons_of_neg hout]
  cases hfind : rs.find? fun r => r.hasInside (positionAt s k) with
  | none =>
    simp only
    rw [applyToOffsetLoop_behind hq hr.le]
    rwa [(getOffset_positionAt ⟨s⟩ hk).2]
  | some r' =>
    simp only
    rw [applyToOffsetLoop_behind hq hr.le (hstart r' (mem_of_find?_eq_some hfind))]

theorem outside_iff (hsync : Synced s s1 sps a b) (h : List.Forall₂ (Denotes s) rs sps)
    (hq : List.Forall₂ Addresses qs sps) (hk : ValidOffset s k) (hak : a ≤ k)
    (hgap : ChainTo k sps s.length) (hstate : MapState (positionAt s a) (positionAt s1 b)
      lineDelta curLine columnDeltaInCurLine line drift) :
    (Except.ok (.inl ⟨(positionAt s k).lineNumber + lineDelta, (positionAt s k).column +
        if (positionAt s k).lineNumber + lineDelta = curLine then columnDeltaInCurLine else 0⟩) :
        Except BugIndicatingError (Position ⊕ Range)) =
      .ok (mapThroughLoop ⟨s⟩ ⟨s1⟩ rs qs (b - a) (positionAt s k)) ↔
    lineFeed ∉ insertedAt (positionAt s k) rs ∧
      ((insertedAt (positionAt s k) rs).length : Int) =
        driftOn line drift (positionAt s k).lineNumber := by
  obtain ⟨hsync', -, hposition⟩ := hsync.follow hak hgap
  have hoffset : b + (k - a) = k + (b - a) := by ring
  rw [hoffset] at hsync' hposition
  obtain ⟨hmoved, hle, hbehind⟩ := @applyToOffsetLoop_inserted _ _ _ _ _ _ _ (b - a) hsync' h hq hk
  have hnonneg := hsync'.nonneg'
  rw [mapThroughLoop, find?_front h hgap.chain hk]
  simp only
  rw [(getOffset_positionAt ⟨s⟩ hk).2, hmoved, getPosition_eq ⟨s1⟩ (by omega) hle, hbehind,
    hposition, hstate.position (line_le_positionAt hsync hak hk.2.1), Except.ok.injEq,
    Sum.inl.injEq, addToPosition, ← lineCount_eq_zero_iff]
  by_cases hz : (ofCodeUnits (insertedAt (positionAt s k) rs)).lineCount = 0
  · rw [if_pos hz, ← columnCount_of_lineCount_eq_zero hz, Position.mk.injEq]
    constructor
    · rintro ⟨-, hcolumn⟩
      exact ⟨hz, by omega⟩
    · rintro ⟨-, hcolumn⟩
      exact ⟨rfl, by omega⟩
  · rw [if_neg hz, Position.mk.injEq]
    exact iff_of_false (fun heq => hz (by omega)) fun hins => hz hins.1

theorem isBeforeOrEqual_addToPosition {len : TextLength}
    (h : 0 ≤ len.lineCount ∧ 0 ≤ len.columnCount) (p : Position) :
    p.isBeforeOrEqual (len.addToPosition p) := by
  rw [Position.isBeforeOrEqual_iff, addToPosition]
  split_ifs
  · exact .inr ⟨rfl, by simp only; omega⟩
  · exact .inl (by simp only; omega)

theorem rangeFromPositions_eq_iff {p p' q q' : Position} (hp : p.isBeforeOrEqual p')
    (hq : q.isBeforeOrEqual q') (hcolumn : q'.column ≤ maxSafeInteger) :
    rangeFromPositions p p' = .ok (Range.fromPositions q q') ↔ p = q ∧ p' = q' := by
  have hself : p'.isBeforeOrEqual p' := by
    rw [Position.isBeforeOrEqual_iff]
    exact .inr ⟨rfl, le_rfl⟩
  have hends := Range.fromPositions_spec hq
  rw [Position.isBeforeOrEqual_iff] at hp hq
  rw [rangeFromPositions]
  split_ifs with hspecial hnot
  · -- an end that is also taken for the start
    have hboth := Range.fromPositions_spec hself
    constructor
    · intro heq
      rw [Except.ok.injEq] at heq
      rw [heq, hends.1] at hboth
      rw [hends.2] at hboth
      obtain ⟨hstart, hstop⟩ := hboth
      refine ⟨?_, hstop.symm⟩
      rw [hstart]
      rw [hstop] at hcolumn
      obtain ⟨line, column⟩ := p
      obtain ⟨line', column'⟩ := p'
      simp only [Position.mk.injEq] at *
      omega
    · rintro ⟨rfl, rfl⟩
      have hsame : p = p' := by
        obtain ⟨line, column⟩ := p
        obtain ⟨line', column'⟩ := p'
        simp only [Position.mk.injEq] at *
        omega
      rw [hsame]
  · rw [Bool.not_eq_true', ← Bool.not_eq_true, Position.isBeforeOrEqual_iff] at hnot
    exact absurd hp hnot
  · have hboth := Range.fromPositions_spec ((Position.isBeforeOrEqual_iff p p').mpr hp)
    constructor
    · intro heq
      rw [Except.ok.injEq] at heq
      rw [heq, hends.1, hends.2] at hboth
      exact ⟨hboth.1.symm, hboth.2.symm⟩
    · rintro ⟨rfl, rfl⟩
      rfl

theorem column_positionAt_le (hlen : s.length < maxSafeInteger) (k : Int) :
    (positionAt s k).column ≤ maxSafeInteger := by
  have hcount := columnCount_le_length (s.take k.toNat)
  rw [length_take] at hcount
  rw [positionAt, endPosition_eq]
  simp only
  omega

theorem inside_iff (hsync : Synced s s1 (sp :: sps) a b) (hr : Denotes s r sp)
    (hq : Addresses q sp) (hk : ValidOffset s k) (hstart : sp.start < k) (hstop : k < sp.stop)
    (hlen1 : s1.length < maxSafeInteger) (hstate : MapState (positionAt s a) (positionAt s1 b)
      lineDelta curLine columnDeltaInCurLine line drift) :
    (rangeFromPositions
        ⟨r.range.startLineNumber + lineDelta, r.range.startColumn +
          if r.range.startLineNumber + lineDelta = curLine then columnDeltaInCurLine else 0⟩
        ((ofText r.text).addToPosition
          ⟨r.range.startLineNumber + lineDelta, r.range.startColumn +
            if r.range.startLineNumber + lineDelta = curLine then columnDeltaInCurLine else 0⟩)).map
        Sum.inr =
      .ok (mapThroughLoop ⟨s⟩ ⟨s1⟩ (r :: rs) (q :: qs) (b - a) (positionAt s k)) ↔
    driftOn line drift r.range.startLineNumber = 0 ∧ surrogatePairs (lastLine r.text) = 0 := by
  obtain ⟨hle, hspan, hchain⟩ := hsync.chain
  obtain ⟨hsync1, -, hposition1⟩ := hsync.follow hle ⟨le_rfl, hspan, hchain⟩
  obtain ⟨hsync2, -, hposition2⟩ := hsync1.replace
  have hoffset : b + (sp.start - a) = sp.start + (b - a) := by ring
  rw [hoffset] at hsync1 hposition1 hsync2 hposition2
  have hinside : r.hasInside (positionAt s k) := (hasInside_iff hr hk).mpr ⟨hstart, hstop⟩
  have hplace : (⟨r.range.startLineNumber + lineDelta, r.range.startColumn +
      if r.range.startLineNumber + lineDelta = curLine then columnDeltaInCurLine else 0⟩ : Position) =
      ⟨(positionAt s1 (sp.start + (b - a))).lineNumber,
        (positionAt s1 (sp.start + (b - a))).column +
          driftOn line drift r.range.startLineNumber⟩ := by
    have hposition := @MapState.position _ _ _ _ _ _ _ hstate r.range.getStartPosition (by
      rw [hr.startPosition]
      exact line_le_positionAt hsync hle hr.start.2.1)
    rw [hr.startPosition, ← hposition1, ← hr.startPosition] at hposition
    exact hposition
  have hlength : (r.text.length : Int) = sp.text.length := by rw [hr.text]
  rw [hplace, mapThroughLoop, find?_cons_of_pos hinside]
  simp only [OffsetRange.ofStartAndLength]
  rw [getOffset_start hr, applyToOffsetLoop_within hq le_rfl (by omega), getRange]
  simp only
  rw [getPosition_eq ⟨s1⟩ hsync1.nonneg' hsync1.le', hlength, getPosition_eq ⟨s1⟩ hsync2.nonneg' hsync2.le']
  have hcolumn := column_positionAt_le hlen1 (sp.start + (b - a) + sp.text.length)
  rw [hposition2] at hcolumn ⊢
  have hiff := rangeFromPositions_eq_iff
    (isBeforeOrEqual_addToPosition (ofText_nonneg r.text)
      ⟨(positionAt s1 (sp.start + (b - a))).lineNumber,
        (positionAt s1 (sp.start + (b - a))).column + driftOn line drift r.range.startLineNumber⟩)
    (isBeforeOrEqual_addToPosition (ofCodeUnits_nonneg sp.text) (positionAt s1 (sp.start + (b - a))))
    hcolumn
  have hmap (x : Except BugIndicatingError Range) (y : Range) :
      x.map Sum.inr = .ok (Sum.inr y : Position ⊕ Range) ↔ x = .ok y := by
    cases x <;> simp [Except.map]
  rw [hmap, hiff, ← hr.text, ofText_eq]
  generalize positionAt s1 (sp.start + (b - a)) = place
  obtain ⟨placeLine, placeColumn⟩ := place
  by_cases hz : (ofCodeUnits r.text).lineCount = 0
  · simp only [addToPosition, hz, if_true, Position.mk.injEq, true_and]
    omega
  · simp only [addToPosition, hz, if_false, Position.mk.injEq, true_and]
    omega

theorem mapPosition_loop (hsync : Synced s s1 sps a b) (h : List.Forall₂ (Denotes s) rs sps)
    (hq : List.Forall₂ Addresses qs sps) (hk : ValidOffset s k) (hak : a ≤ k)
    (hlen1 : s1.length < maxSafeInteger) (hstate : MapState (positionAt s a) (positionAt s1 b)
      lineDelta curLine columnDeltaInCurLine line drift) :
    mapPositionLoop (positionAt s k) rs lineDelta curLine columnDeltaInCurLine =
        .ok (mapThroughLoop ⟨s⟩ ⟨s1⟩ rs qs (b - a) (positionAt s k)) ↔
      MapsWell (positionAt s k) rs line drift := by
  induction h generalizing a b qs lineDelta curLine columnDeltaInCurLine line drift with
  | nil =>
    cases hq
    rw [mapPositionLoop, outside_iff hsync .nil .nil hk hak hk.2.1 hstate, MapsWell]
    simp [insertedAt, eq_comm]
  | @cons r sp rs sps hr hrs ih =>
    obtain _ | ⟨hqr, hqs⟩ := hq
    obtain ⟨hle, hspan, hchain⟩ := hsync.chain
    rw [mapPositionLoop, MapsWell]
    by_cases hfront : k ≤ sp.start
    · have hbefore : (positionAt s k).isBeforeOrEqual r.range.getStartPosition := by
        rw [hr.startPosition, isBeforeOrEqual_positionAt_iff hk hr.start]
        exact hfront
      simp only [hbefore, if_true]
      exact outside_iff hsync (.cons hr hrs) (.cons hqr hqs) hk hak ⟨hfront, hspan, hchain⟩ hstate
    · have hnot : ¬(positionAt s k).isBeforeOrEqual r.range.getStartPosition := by
        rw [hr.startPosition, isBeforeOrEqual_positionAt_iff hk hr.start]
        exact hfront
      have hstop : (positionAt s k).isBefore r.range.getEndPosition ↔ k < sp.stop := by
        rw [hr.endPosition, isBefore_positionAt_iff hk.1 hk.2.1 hr.stop.1 hr.stop.2.1]
      rw [if_neg hnot, if_neg hnot]
      by_cases hinside : k < sp.stop
      · simp only [hstop.mpr hinside, if_true]
        exact inside_iff hsync hr hqr hk (by omega) hinside hlen1 hstate
      · have hbehind : ¬(positionAt s k).isBefore r.range.getEndPosition := by
          rwa [hstop]
        rw [if_neg hbehind, if_neg hbehind]
        obtain ⟨hsync1, -, hposition1⟩ := hsync.follow hle ⟨le_rfl, hspan, hchain⟩
        obtain ⟨hsync2, -, hposition2⟩ := hsync1.replace
        have hline : (positionAt s a).lineNumber ≤ r.range.startLineNumber := by
          have hle := line_le_positionAt hsync hle hr.start.2.1
          rwa [← hr.startPosition] at hle
        have hnext := hstate.next hline
        have hplace : (ofCodeUnits r.text).addToPosition (shifted (positionAt s a) (positionAt s1 b)
            r.range.getStartPosition) = positionAt s1 (b + (sp.start - a) + sp.text.length) := by
          rw [hposition2, hposition1, hr.text, hr.startPosition]
        have hdelta : b + (sp.start - a) + sp.text.length - sp.stop =
            b - a + (sp.text.length - (sp.stop - sp.start)) := by ring
        rw [mapThroughLoop_behind hr hrs hqr hk (not_lt.mp hinside) hchain.chain, ← hdelta]
        refine ih hsync2 hqs (by omega) ?_
        rw [← hplace, ← hr.endPosition]
        exact hnext

theorem mapThroughOffsets_eq {t t1 : StringText} {offsets : StringEdit} {p : Position} :
    mapThroughOffsets t t1 ⟨rs⟩ offsets p = mapThroughLoop t t1 rs offsets.replacements 0 p := by
  rw [mapThroughOffsets, mapThroughLoop]
  cases rs.find? fun r => r.hasInside p <;> rfl

theorem splices_of_addresses (h : List.Forall₂ Addresses qs sps) :
    (StringReplacement.meaning id).splices qs = sps := by
  induction h with
  | nil => rfl
  | @cons q sp qs sps hq hqs ih =>
    rw [Meaning.splices_cons, ih]
    congr 1
    obtain ⟨start, stop, text⟩ := sp
    simp only [Meaning.splice, StringReplacement.meaning, map_id_fun, id_eq, Splice.mk.injEq]
    exact ⟨hq.start, hq.stop, hq.text⟩

/-- The position of what the offset is mapped to, or for a position within a replacement the range
of the new text, exactly where the deltas have not drifted and nothing is inserted there. -/
theorem mapPosition_iff {e : TextEdit} {p : Position} (h : e.ValidOn s)
    (hlen : s.length < maxSafeInteger) (happly : e.applyToString s = .ok s1)
    (hlen1 : s1.length < maxSafeInteger) (hp : (⟨s⟩ : StringText).validatePosition p = p) :
    ∃ offsets, getStringEdit ⟨s⟩ e = .ok offsets ∧ offsets.apply s = s1 ∧
      (e.mapPosition p = .ok (mapThroughOffsets ⟨s⟩ ⟨s1⟩ e offsets p) ↔
        MapsWell p e.replacements 0 0) := by
  obtain ⟨rs⟩ := e
  obtain ⟨sps, hsps, hchain⟩ := h.exists_splices
  obtain ⟨offsets, hoffsets, haddresses⟩ := exists_stringEdit hsps hchain
  obtain ⟨k, hk, rfl⟩ := exists_offset ⟨s⟩ hp
  rw [applyToString_eq hlen hsps hchain, Except.ok.injEq] at happly
  subst happly
  have hstate : MapState (positionAt s 0) (positionAt (splice 0 sps s) 0) 0 0 0 0 0 := by
    refine ⟨rfl, fun l _ => ?_⟩
    simp [positionAt_zero, driftOn]
  have hsplices := splices_of_addresses haddresses
  have hloop := mapPosition_loop (synced_start hchain) hsps haddresses hk hk.1 hlen1 hstate
  rw [sub_zero, ← mapThroughOffsets_eq] at hloop
  refine ⟨offsets, hoffsets, ?_, hloop⟩
  rw [StringEdit.apply_eq offsets s (by rw [hsplices]; exact hchain.chain), hsplices]

/-- "ab", line feed, "cd": two lines in front of the "a", a longer word for the "b". -/
theorem mapPosition_iff_line :
    let e : TextEdit := ⟨[⟨⟨1, 1, 1, 1, by decide⟩, [10, 120]⟩, ⟨⟨1, 2, 1, 3, by decide⟩, [121, 122]⟩]⟩
    ∃ offsets, getStringEdit ⟨[97, 98, 10, 99, 100]⟩ e = .ok offsets ∧
      offsets.apply [97, 98, 10, 99, 100] = [10, 120, 97, 121, 122, 10, 99, 100] ∧
      e.mapPosition ⟨1, 3⟩ = .ok (mapThroughOffsets ⟨[97, 98, 10, 99, 100]⟩
        ⟨[10, 120, 97, 121, 122, 10, 99, 100]⟩ e offsets ⟨1, 3⟩) := by
  intro e
  obtain ⟨offsets, hoffsets, happly, hiff⟩ := @mapPosition_iff [97, 98, 10, 99, 100]
    [10, 120, 97, 121, 122, 10, 99, 100] e ⟨1, 3⟩ (by decide) (by decide) (by decide) (by decide)
    (by decide)
  exact ⟨offsets, hoffsets, happly, hiff.mpr (by decide)⟩

/-- Behind "ab" with a line break between its letters. -/
theorem not_mapPosition_eq :
    ¬ ∀ (e : TextEdit) (s s1 : JsString) (p : Position), e.ValidOn s →
      s.length < maxSafeInteger → e.applyToString s = .ok s1 → s1.length < maxSafeInteger →
      (⟨s⟩ : StringText).validatePosition p = p → ∃ offsets, getStringEdit ⟨s⟩ e = .ok offsets ∧
        e.mapPosition p = .ok (mapThroughOffsets ⟨s⟩ ⟨s1⟩ e offsets p) := by
  intro h
  obtain ⟨offsets, hoffsets, heq⟩ := h ⟨[⟨⟨1, 2, 1, 2, by decide⟩, [10]⟩]⟩ [97, 98] [97, 10, 98]
    ⟨1, 3⟩ (by decide) (by decide) (by decide) (by decide) (by decide)
  have hdefault : getStringEdit ⟨[97, 98]⟩ ⟨[⟨⟨1, 2, 1, 2, by decide⟩, [10]⟩]⟩ =
      .ok ⟨[⟨⟨1, 1, by decide⟩, [10]⟩], by decide⟩ := by decide
  obtain rfl := Except.ok.inj (hoffsets.symm.trans hdefault)
  rw [mapThroughOffsets] at heq
  have hnone : ([⟨⟨1, 2, 1, 2, by decide⟩, [10]⟩] : List TextReplacement).find?
      (fun r => r.hasInside ⟨1, 3⟩) = none := by decide
  have hoffset : (⟨[⟨⟨1, 1, by decide⟩, [10]⟩], by decide⟩ : StringEdit).applyToOffset
      ((⟨[97, 98]⟩ : StringText).getOffset ⟨1, 3⟩) = 3 := by decide
  simp only [hnone, hoffset] at heq
  rw [getPosition_eq ⟨[97, 10, 98]⟩ (by decide) (by decide)] at heq
  exact absurd heq (by decide)

end TextEdit

end Gavea.Edits
