import Gavea.Lib.Js

namespace Gavea.LineDecorations

open Lib.Js List

inductive InlineDecorationType
  | regular
  | before
  | after
  | regularAffectingLetterSpacing

structure LineDecoration where
  startColumn : Int
  endColumn : Int
  className : JsString
  type : InlineDecorationType

namespace LineDecoration

def typeOrder : InlineDecorationType → Int
  | .regular => 2
  | .before => 0
  | .after => 1
  | .regularAffectingLetterSpacing => 3

def compare (a b : LineDecoration) : Int :=
  if a.startColumn ≠ b.startColumn then a.startColumn - b.startColumn
  else if a.endColumn ≠ b.endColumn then a.endColumn - b.endColumn
  else if typeOrder a.type - typeOrder b.type ≠ 0 then typeOrder a.type - typeOrder b.type
  else if a.className ≠ b.className then if a.className < b.className then -1 else 1
  else 0

def metadata (d : LineDecoration) : Nat :=
  match d.type with
  | .before => 2
  | .after => 4
  | _ => 0

end LineDecoration

structure DecorationSegment where
  startOffset : Int
  endOffset : Int
  className : JsString
  metadata : Nat

def maxSafeSmallInteger : Int := 2 ^ 30

def joinClassNames : List JsString → JsString
  | [] => []
  | [className] => className
  | className :: classNames => className ++ 32 :: joinClassNames classNames

def orMetadata (metadata : List Nat) : Nat := metadata.foldl (· ||| ·) 0

structure Stack where
  count : Nat
  stopOffsets : List Int
  classNames : List JsString
  metadata : List Nat

namespace Stack

def new : Stack := ⟨0, [], [], []⟩

def lastEqual : List Int → Nat
  | a :: b :: stopOffsets => if a = b then lastEqual (b :: stopOffsets) + 1 else 0
  | _ => 0

def splice (s : Stack) (i : Nat) : Stack :=
  { count := s.count - (i + 1)
    stopOffsets := s.stopOffsets.drop (i + 1)
    classNames := s.classNames.drop (i + 1)
    metadata := s.metadata.drop (i + 1) }

def segment (s : Stack) (startOffset endOffset : Int) : DecorationSegment :=
  ⟨startOffset, endOffset, joinClassNames s.classNames, orMetadata s.metadata⟩

/-- The outer loop of `consumeLowerThan`, which every time consumes something. -/
def consumeLoop (maxStopOffset : Int) :
    Nat → Stack → Int → List DecorationSegment → Stack × Int × List DecorationSegment
  | 0, s, nextStartOffset, result => (s, nextStartOffset, result)
  | fuel + 1, s, nextStartOffset, result =>
    match s.stopOffsets[0]? with
    | some stopOffset =>
      if s.count > 0 ∧ stopOffset < maxStopOffset then
        let i := lastEqual s.stopOffsets
        let stopOffset := s.stopOffsets.getD i 0
        consumeLoop maxStopOffset fuel (s.splice i) (stopOffset + 1) (result ++ [s.segment nextStartOffset stopOffset])
      else (s, nextStartOffset, result)
    | none => (s, nextStartOffset, result)

def consumeLowerThan (s : Stack) (maxStopOffset nextStartOffset : Int)
    (result : List DecorationSegment) : Stack × Int × List DecorationSegment :=
  let (s, nextStartOffset, result) := consumeLoop maxStopOffset s.count s nextStartOffset result
  if s.count > 0 ∧ nextStartOffset < maxStopOffset then
    (s, maxStopOffset, result ++ [s.segment nextStartOffset (maxStopOffset - 1)])
  else (s, nextStartOffset, result)

def insert (s : Stack) (stopOffset : Int) (className : JsString) (metadata : Nat) : Stack :=
  if s.count = 0 ∨ s.stopOffsets.getD (s.count - 1) 0 ≤ stopOffset then
    ⟨s.count + 1, s.stopOffsets ++ [stopOffset], s.classNames ++ [className], s.metadata ++ [metadata]⟩
  else
    match s.stopOffsets.findIdx? fun other => other ≥ stopOffset with
    | some i =>
      ⟨s.count + 1, s.stopOffsets.insertIdx i stopOffset, s.classNames.insertIdx i className,
        s.metadata.insertIdx i metadata⟩
    | none => { s with count := s.count + 1 }

end Stack

def isHighSurrogate (charCode : CodeUnit) : Bool := 0xD800 ≤ charCode && charCode ≤ 0xDBFF

def isLowSurrogate (charCode : CodeUnit) : Bool := 0xDC00 ≤ charCode && charCode ≤ 0xDFFF

/-- The column, or the one before if the character in front of it is a high surrogate. -/
def beforePair (lineContent : JsString) (column : Int) : Int :=
  if column > 1 then
    match lineContent[(column - 2).toNat]? with
    | some charCodeBefore => if isHighSurrogate charCodeBefore then column - 1 else column
    | none => column
  else column

def normalizeLoop (lineContent : JsString) :
    List LineDecoration → Stack → Int → List DecorationSegment → Stack × Int × List DecorationSegment
  | [], stack, nextStartOffset, result => (stack, nextStartOffset, result)
  | d :: lineDecorations, stack, nextStartOffset, result =>
    let currentStartOffset := beforePair lineContent d.startColumn - 1
    let currentEndOffset := beforePair lineContent d.endColumn - 2
    let (stack, nextStartOffset, result) :=
      stack.consumeLowerThan currentStartOffset nextStartOffset result
    let nextStartOffset := if stack.count = 0 then currentStartOffset else nextStartOffset
    normalizeLoop lineContent lineDecorations
      (stack.insert currentEndOffset d.className d.metadata) nextStartOffset result

def normalize (lineContent : JsString) (lineDecorations : List LineDecoration) :
    List DecorationSegment :=
  if lineDecorations.length = 0 then []
  else
    let (stack, nextStartOffset, result) := normalizeLoop lineContent lineDecorations .new 0 []
    (stack.consumeLowerThan maxSafeSmallInteger nextStartOffset result).2.2

open List

open Lib.Js

def splitsPair (content : JsString) (column : Int) : Bool :=
  column > 1 && (content[(column - 2).toNat]?).any isHighSurrogate && (content[(column - 1).toNat]?).any isLowSurrogate

def movedColumn (content : JsString) (column : Int) : Int := if splitsPair content column then column - 1 else column

structure WellFormed (content : JsString) : Prop where
  high : ∀ (i : Nat) (u : CodeUnit), content[i]? = some u → isHighSurrogate u = true →
    ∃ v, content[i + 1]? = some v ∧ isLowSurrogate v = true
  low : ∀ (i : Nat) (u : CodeUnit), content[i]? = some u → isLowSurrogate u = true →
    ∃ v, 0 < i ∧ content[i - 1]? = some v ∧ isHighSurrogate v = true

def LineDecoration.covers (content : JsString) (d : LineDecoration) (offset : Int) : Bool :=
  movedColumn content d.startColumn ≤ offset + 1 && offset + 1 < movedColumn content d.endColumn

structure DecorationSegment.Shows (s : DecorationSegment) (ds : List LineDecoration) : Prop where
  className : s.className = joinClassNames (ds.map LineDecoration.className)
  metadata : s.metadata = orMetadata (ds.map LineDecoration.metadata)

structure Overlay (content : JsString) (ds : List LineDecoration) (segments : List DecorationSegment) :
    Prop where
  sorted : (segments.filter fun s => s.startOffset ≤ s.endOffset).Pairwise fun s s' => s.endOffset < s'.startOffset
  covered : ∀ offset : Int, (∃ s ∈ segments, s.startOffset ≤ offset ∧ offset ≤ s.endOffset) ↔
    ∃ d ∈ ds, d.covers content offset = true
  shows : ∀ s ∈ segments, ∀ offset : Int, s.startOffset ≤ offset → offset ≤ s.endOffset →
    ∃ ds', ds'.Perm (ds.filter fun d => d.covers content offset) ∧ s.Shows ds'
  present : ∀ d ∈ ds, ∃ s ∈ segments, ∃ ds', d ∈ ds' ∧ ds' ⊆ ds ∧ s.Shows ds'

section

variable (content : JsString)

def startOffset (d : LineDecoration) : Int := beforePair content d.startColumn - 1

def stopOffset (d : LineDecoration) : Int := beforePair content d.endColumn - 2

def Stack.ofDecorations (ds : List LineDecoration) : Stack :=
  ⟨ds.length, ds.map (stopOffset content), ds.map LineDecoration.className, ds.map LineDecoration.metadata⟩

structure Piece where
  first : Int
  last : Int
  decorations : List LineDecoration

def Piece.segment (p : Piece) : DecorationSegment :=
  ⟨p.first, p.last, joinClassNames (p.decorations.map LineDecoration.className),
    orMetadata (p.decorations.map LineDecoration.metadata)⟩

def upTo (offset : Int) (ds : List LineDecoration) : List LineDecoration :=
  ds.filter fun d => offset ≤ stopOffset content d

structure Emits (ds : List LineDecoration) (lo hi : Int) (pieces : List Piece) : Prop where
  sorted : (pieces.filter fun p => p.first ≤ p.last).Pairwise fun p p' => p.last < p'.first
  inside : ∀ p ∈ pieces, p.first ≤ p.last → lo ≤ p.first ∧ p.last < hi
  covered : ∀ x : Int, lo ≤ x → x < hi → ((∃ p ∈ pieces, p.first ≤ x ∧ x ≤ p.last) ↔ upTo content x ds ≠ [])
  shows : ∀ p ∈ pieces, p.decorations ⊆ ds ∧ ∀ x : Int, p.first ≤ x → x ≤ p.last → p.decorations = upTo content x ds
  present : ∀ d ∈ ds, stopOffset content d < hi → ∃ p ∈ pieces, d ∈ p.decorations

variable {content}

theorem upTo_upTo {lo x : Int} (h : lo ≤ x) (ds : List LineDecoration) :
    upTo content x (upTo content lo ds) = upTo content x ds := by
  rw [upTo, upTo, upTo, filter_filter]
  refine filter_congr fun d _ => ?_
  by_cases hx : x ≤ stopOffset content d
  · simp [hx, h.trans hx]
  · simp [hx]

theorem Emits.append {ds : List LineDecoration} {lo mid hi : Int} {pieces pieces' : List Piece}
    (h : Emits content ds lo mid pieces) (h' : Emits content (upTo content mid ds) mid hi pieces')
    (hle : lo ≤ mid) (hle' : mid ≤ hi) : Emits content ds lo hi (pieces ++ pieces') := by
  refine ⟨?_, ?_, ?_, ?_, ?_⟩
  · rw [filter_append, pairwise_append]
    refine ⟨h.sorted, h'.sorted, fun p hp p' hp' => ?_⟩
    obtain ⟨hp, hne⟩ := mem_filter.mp hp
    obtain ⟨hp', hne'⟩ := mem_filter.mp hp'
    have := (h.inside p hp (of_decide_eq_true hne)).2
    have := (h'.inside p' hp' (of_decide_eq_true hne')).1
    omega
  · intro p hp hne
    rcases mem_append.mp hp with hp | hp
    · have := h.inside p hp hne
      omega
    · have := h'.inside p hp hne
      omega
  · intro x hlo hhi
    by_cases hx : x < mid
    · rw [← h.covered x hlo hx]
      constructor
      · rintro ⟨p, hp, hfirst, hlast⟩
        rcases mem_append.mp hp with hp | hp
        · exact ⟨p, hp, hfirst, hlast⟩
        · have := (h'.inside p hp (by omega)).1
          omega
      · rintro ⟨p, hp, hx⟩
        exact ⟨p, mem_append_left _ hp, hx⟩
    · rw [← upTo_upTo (not_lt.mp hx), ← h'.covered x (not_lt.mp hx) hhi]
      constructor
      · rintro ⟨p, hp, hfirst, hlast⟩
        rcases mem_append.mp hp with hp | hp
        · have := (h.inside p hp (by omega)).2
          omega
        · exact ⟨p, hp, hfirst, hlast⟩
      · rintro ⟨p, hp, hx⟩
        exact ⟨p, mem_append_right _ hp, hx⟩
  · intro p hp
    rcases mem_append.mp hp with hp | hp
    · exact h.shows p hp
    · obtain ⟨hsub, hshows⟩ := h'.shows p hp
      refine ⟨fun d hd => mem_of_mem_filter (hsub hd), fun x hfirst hlast => ?_⟩
      rw [hshows x hfirst hlast]
      exact upTo_upTo ((h'.inside p hp (by omega)).1.trans hfirst) ds
  · intro d hd hstop
    by_cases hmid : stopOffset content d < mid
    · obtain ⟨p, hp, hdp⟩ := h.present d hd hmid
      exact ⟨p, mem_append_left _ hp, hdp⟩
    · obtain ⟨p, hp, hdp⟩ := h'.present d (mem_filter.mpr ⟨hd, decide_eq_true (not_lt.mp hmid)⟩) hstop
      exact ⟨p, mem_append_right _ hp, hdp⟩

def Sorted (content : JsString) (ds : List LineDecoration) : Prop :=
  ds.Pairwise fun d d' => stopOffset content d ≤ stopOffset content d'

theorem sorted_upTo {ds : List LineDecoration} (h : Sorted content ds) (x : Int) :
    Sorted content (upTo content x ds) :=
  h.filter _

theorem upTo_of_le {ds : List LineDecoration} {x : Int}
    (h : ∀ d ∈ ds, x ≤ stopOffset content d) : upTo content x ds = ds :=
  filter_eq_self.mpr fun d hd => decide_eq_true (h d hd)

theorem head_le {d : LineDecoration} {ds : List LineDecoration} (h : Sorted content (d :: ds)) :
    ∀ d' ∈ d :: ds, stopOffset content d ≤ stopOffset content d' := by
  intro d' hd'
  rcases mem_cons.mp hd' with rfl | hd'
  · exact le_rfl
  · exact rel_of_pairwise_cons h hd'

theorem lastEqual_spec {d : LineDecoration} {ds : List LineDecoration}
    (h : Sorted content (d :: ds)) :
    ((d :: ds).map (stopOffset content)).getD (Stack.lastEqual ((d :: ds).map (stopOffset content))) 0 =
        stopOffset content d ∧
      (d :: ds).drop (Stack.lastEqual ((d :: ds).map (stopOffset content)) + 1) =
        upTo content (stopOffset content d + 1) (d :: ds) := by
  induction ds generalizing d with
  | nil => simp [Stack.lastEqual, upTo]
  | cons e es ih =>
    have htail : Sorted content (e :: es) := List.Pairwise.of_cons h
    have hle : stopOffset content d ≤ stopOffset content e := head_le h e (mem_cons_of_mem d mem_cons_self)
    obtain ⟨hstop, hdrop⟩ := ih htail
    have hfirst : upTo content (stopOffset content d + 1) (d :: e :: es) =
        upTo content (stopOffset content d + 1) (e :: es) := by
      rw [upTo, filter_cons_of_neg (by simp), upTo]
    simp only [map_cons, Stack.lastEqual] at hstop hdrop ⊢
    by_cases heq : stopOffset content d = stopOffset content e
    · rw [if_pos heq, hfirst]
      refine ⟨?_, ?_⟩
      · rw [getD_cons_succ, hstop, heq]
      · rw [drop_succ_cons, hdrop, heq]
    · rw [if_neg heq, hfirst]
      refine ⟨rfl, (upTo_of_le fun d' hd' => ?_).symm⟩
      have := head_le htail d' hd'
      omega

theorem splice_ofDecorations {d : LineDecoration} {ds : List LineDecoration}
    (h : Sorted content (d :: ds)) :
    (Stack.ofDecorations content (d :: ds)).splice
        (Stack.lastEqual (Stack.ofDecorations content (d :: ds)).stopOffsets) =
      Stack.ofDecorations content (upTo content (stopOffset content d + 1) (d :: ds)) := by
  rw [← (lastEqual_spec h).2]
  simp only [Stack.splice, Stack.ofDecorations, map_drop, length_drop]

theorem emits_nil (x y : Int) : Emits content [] x y [] where
  sorted := List.Pairwise.nil
  inside _ hp := nomatch hp
  covered _ _ _ := by simp [upTo]
  shows _ hp := nomatch hp
  present _ hd := nomatch hd

theorem emits_none {ds : List LineDecoration} {x : Int}
    (h : ∀ d ∈ ds, x ≤ stopOffset content d) : Emits content ds x x [] where
  sorted := List.Pairwise.nil
  inside _ hp := nomatch hp
  covered _ hlo hhi := absurd (hlo.trans_lt hhi) (lt_irrefl x)
  shows _ hp := nomatch hp
  present d hd hlt := absurd (hlt.trans_le (h d hd)) (lt_irrefl _)

theorem emits_piece {ds : List LineDecoration} {first last : Int}
    (hle : ∀ d ∈ ds, last ≤ stopOffset content d) (hne : ds ≠ []) :
    Emits content ds first (last + 1) [⟨first, last, ds⟩] where
  sorted := List.Pairwise.filter _ (pairwise_singleton _ _)
  inside p hp _ := by
    obtain rfl := mem_singleton.mp hp
    exact ⟨le_rfl, by simp⟩
  covered x hlo hhi := by
    rw [upTo_of_le fun d hd => (show x ≤ last by omega).trans (hle d hd)]
    exact ⟨fun _ => hne, fun _ => ⟨_, mem_singleton_self _, hlo, by simp; omega⟩⟩
  shows p hp := by
    obtain rfl := mem_singleton.mp hp
    exact ⟨fun _ h => h, fun x _ hlast => (upTo_of_le fun d hd => hlast.trans (hle d hd)).symm⟩
  present d hd _ := ⟨_, mem_singleton_self _, hd⟩

end

end Gavea.LineDecorations
