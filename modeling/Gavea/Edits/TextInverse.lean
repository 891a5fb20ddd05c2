import Gavea.Edits.TextEdit
import Gavea.Edits.Inverse

namespace Gavea.Core.TextLength

open Lib.Js List

def isSurrogatePair (c d : CodeUnit) : Bool := (0xD800 ≤ c && c ≤ 0xDBFF) && (0xDC00 ≤ d && d ≤ 0xDFFF)

/-- The loop of `ofText` over the rest of a text. It takes code points, so a surrogate pair is
one turn and one column. -/
def ofTextLoop (len : TextLength) : JsString → TextLength
  | [] => len
  | [c] => len.push c
  | c :: d :: rest =>
    if isSurrogatePair c d then ofTextLoop ⟨len.lineCount, len.columnCount + 1⟩ rest
    else ofTextLoop (len.push c) (d :: rest)

def ofText (text : JsString) : TextLength := ofTextLoop zero text

def createRange (len : TextLength) (startPosition : Position) : Range :=
  if len.lineCount = 0 then
    Range.new startPosition.lineNumber startPosition.column startPosition.lineNumber
      (startPosition.column + len.columnCount)
  else
    Range.new startPosition.lineNumber startPosition.column
      (startPosition.lineNumber + len.lineCount) (len.columnCount + 1)

def surrogatePairs : JsString → Nat
  | [] => 0
  | [_] => 0
  | c :: d :: rest => if isSurrogatePair c d then surrogatePairs rest + 1 else surrogatePairs (d :: rest)

def lastLine : JsString → JsString
  | [] => []
  | c :: rest => if lineFeed ∈ c :: rest then lastLine rest else c :: rest

theorem lineCount_eq_zero_iff (u : JsString) : (ofCodeUnits u).lineCount = 0 ↔ lineFeed ∉ u := by
  induction u with
  | nil => simp [zero]
  | cons c u ih =>
    have hu := (ofCodeUnits_nonneg u).1
    rw [StringText.ofCodeUnits_cons, mem_cons, not_or, ← ih]
    by_cases hc : c = lineFeed
    · rw [if_pos hc]
      refine iff_of_false (by simp only; omega) fun h => h.1 hc.symm
    · rw [if_neg hc]
      split_ifs with hz
      · exact iff_of_true rfl ⟨fun h => hc h.symm, hz⟩
      · exact iff_of_false hz fun h => hz h.2

theorem lastLine_of_notMem {u : JsString} (h : lineFeed ∉ u) : lastLine u = u := by
  cases u with
  | nil => rfl
  | cons c u => rw [lastLine, if_neg h]

theorem lastLine_cons_of_mem {c : CodeUnit} {u : JsString} (h : lineFeed ∈ c :: u) :
    lastLine (c :: u) = lastLine u := by
  rw [lastLine, if_pos h]

theorem surrogatePairs_of_pair {c d : CodeUnit} (h : isSurrogatePair c d) (u : JsString) :
    surrogatePairs (c :: d :: u) = surrogatePairs u + 1 := by
  rw [surrogatePairs, if_pos h]

theorem surrogatePairs_of_not_pair {c d : CodeUnit} (h : ¬isSurrogatePair c d) (u : JsString) :
    surrogatePairs (c :: d :: u) = surrogatePairs (d :: u) := by
  rw [surrogatePairs, if_neg h]

theorem ne_lineFeed_of_pair {c d : CodeUnit} (h : isSurrogatePair c d) :
    c ≠ lineFeed ∧ d ≠ lineFeed := by
  constructor <;> rintro rfl <;> simp [isSurrogatePair, lineFeed] at h

theorem add_cons_of_ne (len : TextLength) {c : CodeUnit} (h : c ≠ lineFeed) (u : JsString) :
    len.add (ofCodeUnits (c :: u)) =
      (⟨len.lineCount, len.columnCount + 1⟩ : TextLength).add (ofCodeUnits u) := by
  rw [StringText.ofCodeUnits_cons, if_neg h]
  simp only [add]
  split_ifs <;> simp_all
  ring

theorem add_cons (len : TextLength) (c : CodeUnit) (u : JsString) :
    len.add (ofCodeUnits (c :: u)) = (len.push c).add (ofCodeUnits u) := by
  by_cases h : c = lineFeed
  · have hu := (ofCodeUnits_nonneg u).1
    rw [StringText.ofCodeUnits_cons, if_pos h, push, if_pos h]
    simp only [add]
    rw [if_neg (by omega)]
    split_ifs with hz
    · simp [hz]
    · simp only [TextLength.mk.injEq, and_true]
      ring
  · rw [add_cons_of_ne len h, push, if_neg h]

theorem ofTextLoop_eq (len : TextLength) (u : JsString) : ofTextLoop len u =
    ⟨(len.add (ofCodeUnits u)).lineCount,
      (len.add (ofCodeUnits u)).columnCount - surrogatePairs (lastLine u)⟩ := by
  induction len, u using ofTextLoop.induct with
  | case1 len => simp [ofTextLoop, lastLine, surrogatePairs, add, zero]
  | case2 len c =>
    have hnone : surrogatePairs (lastLine [c]) = 0 := by
      rw [lastLine]
      split_ifs <;> rfl
    rw [ofTextLoop, add_cons, hnone]
    simp [add, zero]
  | case3 len c d rest hpair ih =>
    obtain ⟨hc, hd⟩ := ne_lineFeed_of_pair hpair
    rw [ofTextLoop, if_pos hpair, ih, add_cons_of_ne len hc, add_cons_of_ne _ hd]
    by_cases hmem : lineFeed ∈ rest
    · have hlines : (ofCodeUnits rest).lineCount ≠ 0 := by
        rw [ne_eq, lineCount_eq_zero_iff, not_not]
        exact hmem
      rw [lastLine_cons_of_mem (by simp [hmem]), lastLine_cons_of_mem (by simp [hmem])]
      simp only [add, if_neg hlines]
    · have hlines := (lineCount_eq_zero_iff rest).mpr hmem
      have hnone : lineFeed ∉ c :: d :: rest := by
        simp [hmem, Ne.symm hc, Ne.symm hd]
      rw [lastLine_of_notMem hmem, lastLine_of_notMem hnone, surrogatePairs_of_pair hpair]
      simp only [add, if_pos hlines, TextLength.mk.injEq, true_and]
      push_cast
      ring
  | case4 len c d rest hpair ih =>
    rw [ofTextLoop, if_neg hpair, ih, add_cons len c]
    by_cases hmem : lineFeed ∈ c :: d :: rest
    · rw [lastLine_cons_of_mem hmem]
    · have hrest : lineFeed ∉ d :: rest := fun h => hmem (mem_cons_of_mem c h)
      rw [lastLine_of_notMem hmem, lastLine_of_notMem hrest, surrogatePairs_of_not_pair hpair]

theorem ofText_eq (u : JsString) : ofText u =
    ⟨(ofCodeUnits u).lineCount, (ofCodeUnits u).columnCount - surrogatePairs (lastLine u)⟩ := by
  rw [ofText, ofTextLoop_eq]
  simp only [add, zero, zero_add]
  split_ifs with h <;> simp [h]

theorem ofText_nonneg (u : JsString) : 0 ≤ (ofText u).lineCount ∧ 0 ≤ (ofText u).columnCount := by
  have hloop (len : TextLength) (h : 0 ≤ len.lineCount ∧ 0 ≤ len.columnCount) :
      0 ≤ (ofTextLoop len u).lineCount ∧ 0 ≤ (ofTextLoop len u).columnCount := by
    have hpush (c : CodeUnit) {len : TextLength} (h : 0 ≤ len.lineCount ∧ 0 ≤ len.columnCount) :
        0 ≤ (len.push c).lineCount ∧ 0 ≤ (len.push c).columnCount := by
      rw [push]
      split_ifs <;> simp only <;> omega
    induction len, u using ofTextLoop.induct with
    | case1 len => exact h
    | case2 len c => exact hpush c h
    | case3 len c d rest hpair ih =>
      rw [ofTextLoop, if_pos hpair]
      exact ih ⟨h.1, Int.add_nonneg h.2 Int.one_nonneg⟩
    | case4 len c d rest hpair ih =>
      rw [ofTextLoop, if_neg hpair]
      exact ih (hpush c h)
  exact hloop zero ⟨le_rfl, le_rfl⟩

theorem createRange_spec {len : TextLength} (h : 0 ≤ len.lineCount ∧ 0 ≤ len.columnCount)
    (p : Position) : (len.createRange p).getStartPosition = p ∧
      (len.createRange p).getEndPosition = len.addToPosition p := by
  rw [createRange, addToPosition]
  split_ifs with hz <;> rw [Range.new, dif_neg (by omega)] <;> exact ⟨rfl, rfl⟩

end Gavea.Core.TextLength

namespace Gavea.Edits

open List

open Gavea.Core Lib.Js Lib.Splicing TextLength StringText

namespace TextEdit

def newRangesLoop : List TextReplacement →
    (previousEditEndLineNumber lineOffset columnOffset : Int) → List Range
  | [], _, _, _ => []
  | replacement :: rest, previousEditEndLineNumber, lineOffset, columnOffset =>
    let newRangeStart : Position :=
      ⟨replacement.range.startLineNumber + lineOffset, replacement.range.startColumn +
        if replacement.range.startLineNumber = previousEditEndLineNumber then columnOffset else 0⟩
    let newRange := (ofText replacement.text).createRange newRangeStart
    newRange :: newRangesLoop rest replacement.range.endLineNumber
      (newRange.endLineNumber - replacement.range.endLineNumber)
      (newRange.endColumn - replacement.range.endColumn)

def getNewRanges (e : TextEdit) : List Range := newRangesLoop e.replacements 0 0 0

def inverseReplacement (doc : StringText) (replacement : TextReplacement × Range) :
    Except BugIndicatingError TextReplacement :=
  (doc.getValueOfRange replacement.1.range).map (TextReplacement.mk replacement.2)

def inverse (e : TextEdit) (doc : StringText) : Except BugIndicatingError TextEdit :=
  ((e.replacements.zip e.getNewRanges).mapM (inverseReplacement doc)).map TextEdit.mk

end TextEdit

def shifted (place place' position : Position) : Position :=
  ⟨position.lineNumber + (place'.lineNumber - place.lineNumber), position.column +
    if position.lineNumber = place.lineNumber then place'.column - place.column else 0⟩

theorem shifted_addToPosition (len : TextLength) (p p' : Position) :
    shifted p p' (len.addToPosition p) = len.addToPosition p' := by
  rw [addToPosition, addToPosition]
  split_ifs with hz
  · simp only [shifted, if_true, Position.mk.injEq]
    omega
  · have hne : p.lineNumber + len.lineCount ≠ p.lineNumber := by omega
    simp only [shifted, if_neg hne, Position.mk.injEq]
    omega

/-- From one offset of a text and one of the edited text on, the edited text is the rest of the
text with the remaining splices. -/
structure Synced (s s1 : JsString) (sps : List (Splice CodeUnit)) (a b : Int) : Prop where
  nonneg : 0 ≤ a
  chain : ChainTo a sps s.length
  nonneg' : 0 ≤ b
  le' : b ≤ s1.length
  rest : s1.drop b.toNat = splice a sps (s.drop a.toNat)

variable {s s1 : JsString} {sp : Splice CodeUnit} {sps : List (Splice CodeUnit)} {a b k : Int}

theorem synced_start (h : ChainTo 0 sps s.length) : Synced s (splice 0 sps s) sps 0 0 :=
  ⟨le_rfl, h, le_rfl, Int.natCast_nonneg _, rfl⟩

namespace Synced

theorem follow (h : Synced s s1 sps a b) (hak : a ≤ k) (hk : ChainTo k sps s.length) :
    Synced s s1 sps k (b + (k - a)) ∧ textBetween s1 b (b + (k - a)) = textBetween s a k ∧
      positionAt s1 (b + (k - a)) = shifted (positionAt s a) (positionAt s1 b) (positionAt s k) := by
  obtain ⟨ha, -, hb, hb', hrest⟩ := h
  have hle := hk.le
  have hgap : (s.drop a.toNat).take (k - a).toNat = textBetween s a k := (textBetween_eq_take_drop ha hak).symm
  have hd : a.toNat + (k - a).toNat = k.toNat := by omega
  rw [splice_take_drop _ hak hk.chain, drop_drop, hd, hgap] at hrest
  have hlen := length_textBetween ha hak hle
  obtain ⟨htext, hdrop, hend⟩ := Gavea.Core.drop_append hb hb' hrest
  rw [hlen] at htext hdrop hend
  refine ⟨⟨by omega, hk, by omega, hend, hdrop⟩, htext, ?_⟩
  have hs := shifted_addToPosition (ofCodeUnits (textBetween s a k)) (positionAt s a) (positionAt s1 b)
  rw [addToPosition_textBetween hak] at hs
  rw [hs, ← htext, addToPosition_textBetween (by omega)]

theorem replace (h : Synced s s1 (sp :: sps) sp.start b) :
    Synced s s1 sps sp.stop (b + sp.text.length) ∧
      textBetween s1 b (b + sp.text.length) = sp.text ∧
      positionAt s1 (b + sp.text.length) = (ofCodeUnits sp.text).addToPosition (positionAt s1 b) := by
  obtain ⟨ha, hchain, hb, hb', hrest⟩ := h
  have hle := hchain.2.1
  have hd : sp.start.toNat + (sp.stop - sp.start).toNat = sp.stop.toNat := by omega
  rw [splice_cons, sub_self, Int.toNat_zero, take_zero, nil_append, drop_drop, hd] at hrest
  obtain ⟨htext, hdrop, hend⟩ := Gavea.Core.drop_append hb hb' hrest
  refine ⟨⟨by omega, hchain.2.2, by omega, hend, hdrop⟩, htext, ?_⟩
  have hadd := @addToPosition_textBetween s1 b (b + sp.text.length) (by omega)
  rwa [htext, eq_comm] at hadd

end Synced

namespace TextEdit

def editedParts (text : StringText) :
    List TextReplacement → (lastEditEnd : Int) → List JsString
  | [], lastEditEnd => [text.value.drop lastEditEnd.toNat]
  | r :: rs, lastEditEnd =>
    textBetween text.value lastEditEnd (text.getOffset r.range.getStartPosition) :: r.text ::
      editedParts text rs (text.getOffset r.range.getEndPosition)

/-- No two texts that follow one another end and start with the halves of a `\r\n`. -/
def CleanSeams (parts : List JsString) : Prop :=
  ∀ n ≤ parts.length, ¬((parts.take n).flatten.getLast? = some carriageReturn ∧
    (parts.drop n).flatten.head? = some lineFeed)

instance (parts : List JsString) : Decidable (CleanSeams parts) := inferInstanceAs (Decidable (∀ n ≤ parts.length, _))

theorem CleanSeams.seam {front back : List JsString} (h : CleanSeams (front ++ back)) :
    ¬(front.flatten.getLast? = some carriageReturn ∧ back.flatten.head? = some lineFeed) := by
  have hseam := h front.length (by simp)
  rwa [take_left, drop_left] at hseam

variable {rs : List TextReplacement} {r : TextReplacement}

theorem getOffset_start (h : Denotes s r sp) :
    (⟨s⟩ : StringText).getOffset r.range.getStartPosition = sp.start := by
  rw [h.startPosition]
  exact (getOffset_positionAt ⟨s⟩ h.start).2

theorem getOffset_end (h : Denotes s r sp) :
    (⟨s⟩ : StringText).getOffset r.range.getEndPosition = sp.stop := by
  rw [h.endPosition]
  exact (getOffset_positionAt ⟨s⟩ h.stop).2

theorem getValueOfRange_eq (h : Denotes s r sp) :
    (⟨s⟩ : StringText).getValueOfRange r.range = .ok (textBetween s sp.start sp.stop) := by
  rw [getValueOfRange, getOffsetRange, getOffset_start h, getOffset_end h, OffsetRange.new_ok h.le]
  change Except.ok (substring s sp.start sp.stop) = _
  rw [substring_eq s h.le]
  rfl

theorem flatten_editedParts (h : List.Forall₂ (Denotes s) rs sps) (ha : 0 ≤ a)
    (hchain : ChainTo a sps s.length) :
    (editedParts ⟨s⟩ rs a).flatten = splice a sps (s.drop a.toNat) := by
  induction h generalizing a with
  | nil => simp [editedParts]
  | @cons r sp rs sps hr hrs ih =>
    obtain ⟨h1, h2, h3⟩ := hchain
    rw [editedParts, getOffset_start hr, getOffset_end hr, flatten_cons, flatten_cons,
      ih (ha.trans (h1.trans h2)) h3, splice_cons_drop _ _ ha h1 h2, hr.text]
    rfl

theorem validOffset_of_seam (h : Synced s s1 sps a b) {front back : List JsString}
    (hclean : CleanSeams (front ++ back)) (hfront : front.flatten = s1.take b.toNat)
    (hback : back.flatten = s1.drop b.toNat) : ValidOffset s1 b := by
  refine ⟨h.nonneg', h.le', ?_⟩
  rw [← hfront, ← hback]
  exact hclean.seam

theorem line_le_positionAt (h : Synced s s1 sps a b) (hak : a ≤ k) (hk : k ≤ s.length) :
    (positionAt s a).lineNumber ≤ (positionAt s k).lineNumber := by
  have hle := isBeforeOrEqual_positionAt hak h.nonneg hk
  rw [Position.isBeforeOrEqual_iff] at hle
  omega

theorem inverse_loop (hsync : Synced s s1 sps a b) (h : List.Forall₂ (Denotes s) rs sps)
    (hplain : ∀ r ∈ rs, surrogatePairs (lastLine r.text) = 0) {front : List JsString}
    (hfront : front.flatten = s1.take b.toNat)
    (hclean : CleanSeams (front ++ editedParts ⟨s⟩ rs a))
    {previousEditEndLineNumber lineOffset columnOffset : Int}
    (hline : lineOffset = (positionAt s1 b).lineNumber - (positionAt s a).lineNumber)
    (hcolumn : ∀ line, (positionAt s a).lineNumber ≤ line →
      (if line = previousEditEndLineNumber then columnOffset else 0) =
        if line = (positionAt s a).lineNumber then (positionAt s1 b).column - (positionAt s a).column
        else 0) :
    ∃ out, (rs.zip (newRangesLoop rs previousEditEndLineNumber lineOffset columnOffset)).mapM
        (inverseReplacement ⟨s⟩) = .ok out ∧
      List.Forall₂ (Denotes s1) out (inverted (textBetween s) (b - a) sps) ∧
      ChainTo b (inverted (textBetween s) (b - a) sps) s1.length := by
  induction h generalizing a b front previousEditEndLineNumber lineOffset columnOffset with
  | nil => exact ⟨[], rfl, .nil, hsync.le'⟩
  | @cons r sp rs sps hr hrs ih =>
    obtain ⟨hle, hspan, hchain⟩ := hsync.chain
    obtain ⟨hsync1, htext1, hposition1⟩ := hsync.follow hle ⟨le_rfl, hspan, hchain⟩
    obtain ⟨hsync2, htext2, hposition2⟩ := hsync1.replace
    have hoffset : b + (sp.start - a) = sp.start + (b - a) := by ring
    rw [hoffset] at hsync1 htext1 hposition1 hsync2 htext2 hposition2
    -- both ends of the new text are valid offsets of the edited text
    have hrest : (r.text :: editedParts ⟨s⟩ rs sp.stop).flatten =
        s1.drop (sp.start + (b - a)).toNat := by
      have hd : sp.start.toNat + (sp.stop - sp.start).toNat = sp.stop.toNat := by
        have := hsync1.nonneg
        omega
      rw [hsync1.rest, flatten_cons, flatten_editedParts hrs hsync2.nonneg hchain, hr.text,
        splice_cons, sub_self, Int.toNat_zero, take_zero, nil_append, drop_drop, hd]
    have hfront1 : (front ++ [textBetween s a sp.start]).flatten =
        s1.take (sp.start + (b - a)).toNat := by
      rw [flatten_append, hfront, flatten_singleton, ← htext1]
      exact take_append_textBetween (by omega)
    have hfront2 : (front ++ [textBetween s a sp.start] ++ [r.text]).flatten =
        s1.take (sp.start + (b - a) + sp.text.length).toNat := by
      rw [flatten_append, hfront1, flatten_singleton, hr.text]
      conv_lhs => rw [← htext2]
      exact take_append_textBetween (by omega)
    have hback2 : (editedParts ⟨s⟩ rs sp.stop).flatten =
        s1.drop (sp.start + (b - a) + sp.text.length).toNat := by
      rw [flatten_editedParts hrs hsync2.nonneg hchain, hsync2.rest]
    rw [editedParts, getOffset_start hr, getOffset_end hr] at hclean
    have hclean1 : CleanSeams (front ++ [textBetween s a sp.start] ++
        r.text :: editedParts ⟨s⟩ rs sp.stop) := by simpa using hclean
    have hclean2 : CleanSeams (front ++ [textBetween s a sp.start] ++ [r.text] ++
        editedParts ⟨s⟩ rs sp.stop) := by simpa using hclean
    have hvalid1 := validOffset_of_seam hsync1 hclean1 hfront1 hrest
    have hvalid2 := validOffset_of_seam hsync2 hclean2 hfront2 hback2
    -- the new range is where the new text stands
    have hnone := hplain r mem_cons_self
    have hlength : ofText r.text = ofCodeUnits sp.text := by
      rw [ofText_eq, hnone, hr.text]
      simp
    have hstart : (⟨r.range.startLineNumber + lineOffset, r.range.startColumn +
        if r.range.startLineNumber = previousEditEndLineNumber then columnOffset else 0⟩ :
        Position) = positionAt s1 (sp.start + (b - a)) := by
      have hline1 : r.range.startLineNumber = (positionAt s sp.start).lineNumber :=
        congrArg Position.lineNumber hr.startPosition
      have hcolumn1 : r.range.startColumn = (positionAt s sp.start).column := congrArg Position.column hr.startPosition
      rw [hposition1, hline1, hcolumn1, hline, hcolumn _ (line_le_positionAt hsync hle hr.start.2.1)]
      rfl
    have hrange := createRange_spec (ofText_nonneg r.text) (positionAt s1 (sp.start + (b - a)))
    rw [hlength, ← hposition2] at hrange
    have hdenotes : Denotes s1 ⟨(ofText r.text).createRange (positionAt s1 (sp.start + (b - a))),
        textBetween s sp.start sp.stop⟩ ⟨sp.start + (b - a),
        sp.start + (b - a) + sp.text.length, textBetween s sp.start sp.stop⟩ := by
      rw [hlength]
      exact ⟨rfl, hvalid1, hvalid2, by simp, hrange.1, hrange.2⟩
    have hend := hrange.2
    rw [← hlength] at hend
    have hendLine : ((ofText r.text).createRange
        (positionAt s1 (sp.start + (b - a)))).endLineNumber = _ := congrArg Position.lineNumber hend
    have hendColumn : ((ofText r.text).createRange
        (positionAt s1 (sp.start + (b - a)))).endColumn = _ := congrArg Position.column hend
    have hline2 : r.range.endLineNumber = (positionAt s sp.stop).lineNumber :=
      congrArg Position.lineNumber hr.endPosition
    have hcolumn2 : r.range.endColumn = (positionAt s sp.stop).column := congrArg Position.column hr.endPosition
    obtain ⟨out, hout, hall, hchainOut⟩ := ih hsync2
      (fun q hq => hplain q (mem_cons_of_mem r hq)) hfront2 hclean2 rfl fun line _ => rfl
    have hnext : sp.start + (b - a) + sp.text.length - sp.stop =
        b - a + (sp.text.length - (sp.stop - sp.start)) := by ring
    rw [hnext] at hall hchainOut
    refine ⟨_ :: out, ?_, .cons hdenotes hall, ?_⟩
    · rw [newRangesLoop, zip_cons_cons, mapM_cons, inverseReplacement, getValueOfRange_eq hr]
      simp only [hstart]
      rw [hendLine, hendColumn, hline2, hcolumn2, hout]
      rfl
    · refine ⟨by simp only; omega, by simp, hchainOut⟩

theorem exists_inverse {e : TextEdit} (h : e.ValidOn s) (hlen : s.length < maxSafeInteger)
    (happly : e.applyToString s = .ok s1) (hlen1 : s1.length < maxSafeInteger)
    (hplain : ∀ r ∈ e.replacements, surrogatePairs (lastLine r.text) = 0)
    (hclean : CleanSeams (editedParts ⟨s⟩ e.replacements 0)) :
    ∃ inv, e.inverse ⟨s⟩ = .ok inv ∧ inv.applyToString s1 = .ok s := by
  obtain ⟨sps, hsps, hchain⟩ := h.exists_splices
  rw [applyToString_eq hlen hsps hchain, Except.ok.injEq] at happly
  subst happly
  have hfront : ([] : List JsString).flatten = (splice 0 sps s).take (0 : Int).toNat := rfl
  have hposition (line : Int) (hle : (positionAt s 0).lineNumber ≤ line) :
      (if line = 0 then (0 : Int) else 0) = if line = (positionAt s 0).lineNumber then
        (positionAt (splice 0 sps s) 0).column - (positionAt s 0).column else 0 := by
    simp [positionAt_zero]
  have hline : (0 : Int) = (positionAt (splice 0 sps s) 0).lineNumber - (positionAt s 0).lineNumber := rfl
  obtain ⟨out, hout, hall, hchainOut⟩ := inverse_loop (synced_start hchain) hsps hplain hfront hclean hline hposition
  have hslice (x y : Int) (hx : 0 ≤ x) (hxy : x ≤ y) :
      textBetween s x y = (s.drop (x - 0).toNat).take (y - x).toNat := by
    rw [sub_zero, textBetween_eq_take_drop hx hxy]
  have hback := @splice_inverted _ (textBetween s) 0 0 sps s (by rwa [zero_add]) hslice
  rw [zero_add] at hback
  rw [sub_zero] at hall hchainOut
  refine ⟨⟨out⟩, ?_, ?_⟩
  · rw [inverse, getNewRanges, hout]
    rfl
  · rw [applyToString_eq hlen1 hall hchainOut, hback]

instance (e : TextEdit) (str : JsString) : Decidable (e.ValidOn str) := inferInstanceAs (Decidable (_ ∧ _))

end TextEdit

end Gavea.Edits
