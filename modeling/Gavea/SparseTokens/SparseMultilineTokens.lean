import Gavea.Core.StringText
import Gavea.ContiguousTokens.ContiguousTokensStore

namespace Gavea.SparseTokens

open Gavea.Core (Range)

structure SparseToken where
  deltaLine : Nat
  startCharacter : Nat
  endCharacter : Nat
  metadata : UInt32

structure SparseMultilineTokens where
  startLineNumber : Int
  tokens : List SparseToken

def getMaxDeltaLine (tokens : List SparseToken) : Int :=
  match tokens.getLast? with
  | none => -1
  | some t => t.deltaLine

def getDeltaLine (tokens : List SparseToken) (tokenIndex : Nat) : Nat :=
  (tokens[tokenIndex]?.map SparseToken.deltaLine).getD 0

def firstOnLine (tokens : List SparseToken) (deltaLine low : Nat) : Nat → Nat
  | 0 => 0
  | min + 1 =>
    if min + 1 > low ∧ getDeltaLine tokens min = deltaLine then firstOnLine tokens deltaLine low min
    else min + 1

def lastOnLine (tokens : List SparseToken) (deltaLine high max : Nat) : Nat :=
  if max < high ∧ getDeltaLine tokens (max + 1) = deltaLine then
    lastOnLine tokens deltaLine high (max + 1)
  else max
termination_by high - max

def lineTokensLoop (tokens : List SparseToken) (deltaLine low high : Nat) :
    Option (List SparseToken) :=
  if low < high then
    let mid := low + (high - low) / 2
    let midDeltaLine := getDeltaLine tokens mid
    if midDeltaLine < deltaLine then lineTokensLoop tokens deltaLine (mid + 1) high
    else if midDeltaLine > deltaLine then lineTokensLoop tokens deltaLine low (mid - 1)
    else
      let min := firstOnLine tokens deltaLine low mid
      let max := lastOnLine tokens deltaLine high mid
      some ((tokens.drop min).take (max + 1 - min))
  else if getDeltaLine tokens low = deltaLine then some ((tokens.drop low).take 1)
  else none
termination_by high - low

namespace SparseMultilineTokens

def endLineNumber (p : SparseMultilineTokens) : Int := p.startLineNumber + getMaxDeltaLine p.tokens

def isEmpty (p : SparseMultilineTokens) : Bool := p.tokens.isEmpty

def getLineTokens (p : SparseMultilineTokens) (lineNumber : Int) : Option (List SparseToken) :=
  if p.startLineNumber ≤ lineNumber ∧ lineNumber ≤ p.endLineNumber then
    lineTokensLoop p.tokens (lineNumber - p.startLineNumber).toNat 0 (p.tokens.length - 1)
  else none

def tokensOnLine (p : SparseMultilineTokens) (lineNumber : Int) : List SparseToken :=
  p.tokens.filter fun t => p.startLineNumber + t.deltaLine = lineNumber

def InLineOrder (p : SparseMultilineTokens) : Prop := p.tokens.Pairwise (·.deltaLine ≤ ·.deltaLine)

end SparseMultilineTokens

variable {tokens : List SparseToken} {d : Nat}

theorem getDeltaLine_eq {i : Nat} (h : i < tokens.length) :
    getDeltaLine tokens i = tokens[i].deltaLine := by
  rw [getDeltaLine, List.getElem?_eq_getElem h]
  rfl

theorem getDeltaLine_le (h : tokens.Pairwise (·.deltaLine ≤ ·.deltaLine)) {i j : Nat} (hij : i ≤ j)
    (hj : j < tokens.length) : getDeltaLine tokens i ≤ getDeltaLine tokens j := by
  rw [getDeltaLine_eq (by omega), getDeltaLine_eq hj]
  rcases hij.lt_or_eq with hlt | rfl
  · exact List.pairwise_iff_getElem.mp h i j (by omega) hj hlt
  · exact le_refl _

theorem filter_eq_between {i j : Nat} (hbefore : ∀ k < i, getDeltaLine tokens k ≠ d)
    (hbetween : ∀ k, i ≤ k → k < j → getDeltaLine tokens k = d)
    (hbehind : ∀ k, j ≤ k → k < tokens.length → getDeltaLine tokens k ≠ d) (hij : i ≤ j)
    (hj : j ≤ tokens.length) :
    tokens.filter (fun t => t.deltaLine = d) = (tokens.drop i).take (j - i) := by
  have hsplit : tokens = tokens.take i ++ ((tokens.drop i).take (j - i) ++ tokens.drop j) := by
    rw [show tokens.drop j = (tokens.drop i).drop (j - i) by
      rw [List.drop_drop, Nat.add_sub_cancel' hij], List.take_append_drop, List.take_append_drop]
  have hmem {l : List SparseToken} {t : SparseToken} (ht : t ∈ l) {n : Nat}
      (hl : ∀ k (hk : k < l.length), tokens[n + k]? = some l[k]) :
      ∃ k < l.length, getDeltaLine tokens (n + k) = t.deltaLine := by
    obtain ⟨k, hk, rfl⟩ := List.mem_iff_getElem.mp ht
    refine ⟨k, hk, ?_⟩
    rw [getDeltaLine, hl k hk]
    rfl
  conv_lhs => rw [hsplit]
  rw [List.filter_append, List.filter_append, List.filter_eq_nil_iff.mpr, List.filter_eq_self.mpr,
    List.filter_eq_nil_iff.mpr, List.append_nil, List.nil_append]
  · intro t ht
    obtain ⟨k, hk, heq⟩ := hmem ht (n := j) fun k hk => by
      rw [List.getElem_drop, List.getElem?_eq_getElem]
    rw [List.length_drop] at hk
    rw [decide_eq_true_eq, ← heq]
    exact hbehind (j + k) (by omega) (by omega)
  · intro t ht
    obtain ⟨k, hk, heq⟩ := hmem ht (n := i) fun k hk => by
      rw [List.getElem_take, List.getElem_drop, List.getElem?_eq_getElem]
    rw [List.length_take, List.length_drop] at hk
    rw [decide_eq_true_eq, ← heq]
    exact hbetween (i + k) (by omega) (by omega)
  · intro t ht
    obtain ⟨k, hk, heq⟩ := hmem ht (n := 0) fun k hk => by
      rw [List.getElem_take, Nat.zero_add, List.getElem?_eq_getElem]
    rw [List.length_take] at hk
    rw [decide_eq_true_eq, ← heq]
    exact hbefore (0 + k) (by omega)

theorem firstOnLine_spec (low min : Nat) (hlow : low ≤ min) (hmin : getDeltaLine tokens min = d) :
    low ≤ firstOnLine tokens d low min ∧ firstOnLine tokens d low min ≤ min ∧
      (∀ k, firstOnLine tokens d low min ≤ k → k ≤ min → getDeltaLine tokens k = d) ∧
      (firstOnLine tokens d low min = low ∨
        getDeltaLine tokens (firstOnLine tokens d low min - 1) ≠ d) := by
  induction min with
  | zero =>
    refine ⟨hlow, le_refl _, fun k _ hk => ?_, Or.inl (Nat.le_zero.mp hlow).symm⟩
    rw [Nat.le_zero.mp hk, hmin]
  | succ min ih =>
    rw [firstOnLine]
    split_ifs with hstep
    · obtain ⟨h1, h2, h3, h4⟩ := ih (by omega) hstep.2
      refine ⟨h1, by omega, fun k hk hle => ?_, h4⟩
      rcases hle.lt_or_eq with hlt | rfl
      · exact h3 k hk (by omega)
      · exact hmin
    · refine ⟨hlow, le_refl _, fun k hk hle => ?_, ?_⟩
      · rw [le_antisymm hle hk, hmin]
      · by_cases heq : min + 1 = low
        · exact Or.inl heq
        · exact Or.inr fun hd => hstep ⟨by omega, hd⟩

theorem lastOnLine_spec (high max : Nat) (hhigh : max ≤ high) (hmax : getDeltaLine tokens max = d) :
    max ≤ lastOnLine tokens d high max ∧ lastOnLine tokens d high max ≤ high ∧
      (∀ k, max ≤ k → k ≤ lastOnLine tokens d high max → getDeltaLine tokens k = d) ∧
      (lastOnLine tokens d high max = high ∨
        getDeltaLine tokens (lastOnLine tokens d high max + 1) ≠ d) := by
  induction hn : high - max generalizing max with
  | zero =>
    obtain rfl : max = high := by omega
    rw [lastOnLine, if_neg (by omega)]
    exact ⟨le_refl _, le_refl _, fun k h1 h2 => le_antisymm h2 h1 ▸ hmax, Or.inl rfl⟩
  | succ n ih =>
    rw [lastOnLine]
    split_ifs with hstep
    · obtain ⟨h1, h2, h3, h4⟩ := ih (max + 1) (by omega) hstep.2 (by omega)
      refine ⟨by omega, h2, fun k hk hle => ?_, h4⟩
      rcases hk.lt_or_eq with hlt | rfl
      · exact h3 k hlt hle
      · exact hmax
    · refine ⟨le_refl _, hhigh, fun k h1 h2 => le_antisymm h2 h1 ▸ hmax, Or.inr fun hd => ?_⟩
      exact hstep ⟨by omega, hd⟩

theorem lineTokensLoop_spec (h : tokens.Pairwise (·.deltaLine ≤ ·.deltaLine)) (n : Nat) :
    ∀ low high : Nat, high - low ≤ n → low < tokens.length → high < tokens.length → low ≤ high + 1 →
      (∀ k < low, getDeltaLine tokens k < d) →
      (∀ k, high < k → k < tokens.length → d < getDeltaLine tokens k) →
      (lineTokensLoop tokens d low high).getD [] = tokens.filter fun t => t.deltaLine = d := by
  induction n with
  | zero =>
    intro low high hn hlow hhigh hle hbefore hbehind
    rw [lineTokensLoop, if_neg (by omega)]
    split_ifs with hfound
    · obtain rfl : low = high := by
        by_contra hne
        exact absurd (hbehind low (by omega) hlow) (by omega)
      rw [Option.getD_some]
      symm
      refine (filter_eq_between (j := low + 1) (fun k hk => (hbefore k hk).ne) (fun k h1 h2 => ?_)
        (fun k h1 h2 => (hbehind k h1 h2).ne') (by omega) hlow).trans ?_
      · obtain rfl : k = low := by omega
        exact hfound
      · rw [Nat.add_sub_cancel_left]
    · symm
      refine (filter_eq_between (i := 0) (j := 0) (fun k hk => absurd hk (Nat.not_lt_zero k))
        (fun k _ hk => absurd hk (Nat.not_lt_zero k)) (fun k _ hk => ?_) (le_refl 0)
        (Nat.zero_le _)).trans ?_
      · rcases lt_trichotomy k low with hlt | rfl | hgt
        · exact (hbefore k hlt).ne
        · exact hfound
        · exact (hbehind k (by omega) hk).ne'
      · rfl
  | succ n ih =>
    intro low high hn hlow hhigh hle hbefore hbehind
    by_cases hlt : low < high
    · rw [lineTokensLoop, if_pos hlt]
      obtain ⟨mid, hmid⟩ : ∃ mid, mid = low + (high - low) / 2 := ⟨_, rfl⟩
      rw [← hmid]
      dsimp only
      split_ifs with hless hgreater
      · refine ih (mid + 1) high (by omega) (by omega) hhigh (by omega) (fun k hk => ?_) hbehind
        exact (getDeltaLine_le h (Nat.le_of_lt_succ hk) (by omega)).trans_lt hless
      · refine ih low (mid - 1) (by omega) hlow (by omega) (by omega) hbefore fun k h1 h2 => ?_
        exact lt_of_lt_of_le hgreater (getDeltaLine_le h (by omega) h2)
      · have hd : getDeltaLine tokens mid = d := by omega
        obtain ⟨hmin₁, hmin₂, hmin₃, hmin₄⟩ := firstOnLine_spec low mid (by omega) hd
        obtain ⟨hmax₁, hmax₂, hmax₃, hmax₄⟩ := lastOnLine_spec high mid (by omega) hd
        generalize firstOnLine tokens d low mid = min at *
        generalize lastOnLine tokens d high mid = max at *
        rw [Option.getD_some]
        symm
        refine filter_eq_between (fun k hk => ?_) (fun k h1 h2 => ?_) (fun k h1 h2 => ?_) (by omega)
          (by omega)
        · rcases hmin₄ with rfl | hne
          · exact (hbefore k hk).ne
          · have hprev := getDeltaLine_le h (show min - 1 ≤ mid by omega) (by omega)
            have hk' := getDeltaLine_le h (show k ≤ min - 1 by omega) (by omega)
            omega
        · rcases le_total k mid with hkm | hkm
          · exact hmin₃ k h1 hkm
          · exact hmax₃ k hkm (by omega)
        · rcases hmax₄ with rfl | hne
          · exact (hbehind k h1 h2).ne'
          · have hnext := getDeltaLine_le h (show mid ≤ max + 1 by omega) (by omega)
            have hk' := getDeltaLine_le h h1 h2
            omega
    · have hstuck := ih low high (by omega) hlow hhigh hle hbefore hbehind
      exact hstuck

theorem getMaxDeltaLine_le (h : tokens.Pairwise (·.deltaLine ≤ ·.deltaLine)) :
    ∀ t ∈ tokens, (t.deltaLine : Int) ≤ getMaxDeltaLine tokens := by
  intro t ht
  rcases List.eq_nil_or_concat tokens with rfl | ⟨init, last, rfl⟩
  · exact absurd ht List.not_mem_nil
  · rw [List.concat_eq_append] at h ht ⊢
    rw [getMaxDeltaLine, List.getLast?_concat]
    rcases List.mem_append.mp ht with hinit | hlast
    · exact Int.ofNat_le.mpr ((List.pairwise_append.mp h).2.2 t hinit last List.mem_cons_self)
    · obtain rfl := List.mem_singleton.mp hlast
      exact le_refl _

theorem SparseMultilineTokens.getLineTokens_spec {p : SparseMultilineTokens} (h : p.InLineOrder)
    (lineNumber : Int) : (p.getLineTokens lineNumber).getD [] = p.tokensOnLine lineNumber := by
  rw [getLineTokens, tokensOnLine]
  split_ifs with hline
  · have hne : p.tokens ≠ [] := by
      intro hnil
      have hend := hline.2
      rw [endLineNumber, hnil] at hend
      have hmax : getMaxDeltaLine [] = -1 := rfl
      omega
    have hpos := List.length_pos_of_ne_nil hne
    rw [lineTokensLoop_spec h _ 0 (p.tokens.length - 1) (le_refl _) hpos (by omega) (by omega)
      (fun k hk => absurd hk (Nat.not_lt_zero k)) (fun k h1 h2 => by omega)]
    refine List.filter_congr fun t _ => ?_
    rw [decide_eq_decide]
    omega
  · symm
    rw [Option.getD_none, List.filter_eq_nil_iff]
    intro t ht
    have hle := getMaxDeltaLine_le h t ht
    rw [decide_eq_true_eq]
    intro heq
    rw [endLineNumber] at hline
    omega

end Gavea.SparseTokens

namespace Gavea.SparseTokens

open ContiguousTokens (Token endOffsetAt)

structure LineTokens where
  tokens : List Token
  textLength : Nat

def LineTokens.getStartOffset (a : LineTokens) (tokenIndex : Nat) : Nat :=
  if tokenIndex > 0 then endOffsetAt a.tokens (tokenIndex - 1) else 0

def LineTokens.getMetadata (a : LineTokens) (tokenIndex : Nat) : UInt32 :=
  (a.tokens[tokenIndex]?.map Token.metadata).getD 0

namespace MetadataConsts

def ITALIC_MASK : UInt32 := 0x800
def BOLD_MASK : UInt32 := 0x1000
def UNDERLINE_MASK : UInt32 := 0x2000
def STRIKETHROUGH_MASK : UInt32 := 0x4000
def FOREGROUND_MASK : UInt32 := 0xff8000
def BACKGROUND_MASK : UInt32 := 0xff000000

def SEMANTIC_USE_ITALIC : UInt32 := 0x1
def SEMANTIC_USE_BOLD : UInt32 := 0x2
def SEMANTIC_USE_UNDERLINE : UInt32 := 0x4
def SEMANTIC_USE_STRIKETHROUGH : UInt32 := 0x8
def SEMANTIC_USE_FOREGROUND : UInt32 := 0x10
def SEMANTIC_USE_BACKGROUND : UInt32 := 0x20

end MetadataConsts

open MetadataConsts

/-- The fields that a sparse token's metadata is used for. -/
def bMask (bMetadata : UInt32) : UInt32 :=
  (if bMetadata &&& SEMANTIC_USE_ITALIC ≠ 0 then ITALIC_MASK else 0) |||
    (if bMetadata &&& SEMANTIC_USE_BOLD ≠ 0 then BOLD_MASK else 0) |||
    (if bMetadata &&& SEMANTIC_USE_UNDERLINE ≠ 0 then UNDERLINE_MASK else 0) |||
    (if bMetadata &&& SEMANTIC_USE_STRIKETHROUGH ≠ 0 then STRIKETHROUGH_MASK else 0) |||
    (if bMetadata &&& SEMANTIC_USE_FOREGROUND ≠ 0 then FOREGROUND_MASK else 0) |||
    (if bMetadata &&& SEMANTIC_USE_BACKGROUND ≠ 0 then BACKGROUND_MASK else 0)

def mergeMetadata (bMetadata aMetadata : UInt32) : UInt32 :=
  (aMetadata &&& ~~~bMask bMetadata) ||| (bMetadata &&& bMask bMetadata)

structure MergeState where
  aIndex : Nat
  lastEndOffset : Nat
  result : List Token

def MergeState.emitToken (s : MergeState) (endOffset : Nat) (metadata : UInt32) : MergeState :=
  if endOffset ≤ s.lastEndOffset then s
  else { s with lastEndOffset := endOffset, result := s.result ++ [⟨endOffset, metadata⟩] }

/-- `while (aIndex < aLen && …) { emitToken(…); aIndex++; }` over the tokens from `aIndex` on -/
def pushWhile (cond : Nat → Bool) (metadata : UInt32 → UInt32) : List Token → MergeState → MergeState
  | [], s => s
  | a :: rest, s =>
    if cond a.endOffset then
      let s := s.emitToken a.endOffset (metadata a.metadata)
      pushWhile cond metadata rest { s with aIndex := s.aIndex + 1 }
    else s

def pushIntersecting (aTokens : LineTokens) (bStartCharacter : Nat) (s : MergeState) : MergeState :=
  match aTokens.tokens[s.aIndex]? with
  | some a =>
    if aTokens.getStartOffset s.aIndex < bStartCharacter then s.emitToken bStartCharacter a.metadata
    else s
  | none => s

def pushSparse (aTokens : LineTokens) (bEndCharacter : Nat) (bMetadata : UInt32) (s : MergeState) :
    MergeState :=
  match aTokens.tokens[s.aIndex]? with
  | some a =>
    let s := s.emitToken bEndCharacter (mergeMetadata bMetadata a.metadata)
    if a.endOffset = bEndCharacter then { s with aIndex := s.aIndex + 1 } else s
  | none =>
    let aMergeIndex := min (s.aIndex - 1) (aTokens.tokens.length - 1)
    s.emitToken bEndCharacter (mergeMetadata bMetadata (aTokens.getMetadata aMergeIndex))

def mergeToken (aTokens : LineTokens) (s : MergeState) (b : SparseToken) : MergeState :=
  let bStartCharacter := min b.startCharacter aTokens.textLength
  let bEndCharacter := min b.endCharacter aTokens.textLength
  let s := pushWhile (· ≤ bStartCharacter) id (aTokens.tokens.drop s.aIndex) s
  let s := pushIntersecting aTokens bStartCharacter s
  let s := pushWhile (· < bEndCharacter) (mergeMetadata b.metadata) (aTokens.tokens.drop s.aIndex) s
  pushSparse aTokens bEndCharacter b.metadata s

def mergeTokens (aTokens : LineTokens) (bTokens : List SparseToken) : LineTokens :=
  let s := bTokens.foldl (mergeToken aTokens) ⟨0, 0, []⟩
  let s := pushWhile (fun _ => true) id (aTokens.tokens.drop s.aIndex) s
  { aTokens with tokens := s.result }

def firstPieceDown (pieces : List SparseMultilineTokens) (lineNumber : Int) (low : Nat) : Nat → Nat
  | 0 => 0
  | mid + 1 =>
    match pieces[mid]? with
    | some p =>
      if mid + 1 > low ∧ p.startLineNumber ≤ lineNumber ∧ lineNumber ≤ p.endLineNumber then
        firstPieceDown pieces lineNumber low mid
      else mid + 1
    | none => mid + 1

def firstPieceLoop (pieces : List SparseMultilineTokens) (lineNumber : Int) (low high : Nat) : Nat :=
  if low < high then
    let mid := low + (high - low) / 2
    match pieces[mid]? with
    | some p =>
      if p.endLineNumber < lineNumber then firstPieceLoop pieces lineNumber (mid + 1) high
      else if p.startLineNumber > lineNumber then firstPieceLoop pieces lineNumber low (mid - 1)
      else firstPieceDown pieces lineNumber low mid
    | none => low
  else low
termination_by high - low

def findFirstPieceWithLine (pieces : List SparseMultilineTokens) (lineNumber : Int) : Nat :=
  firstPieceLoop pieces lineNumber 0 (pieces.length - 1)

def addSparseTokens (pieces : List SparseMultilineTokens) (lineNumber : Int) (aTokens : LineTokens) :
    LineTokens :=
  if aTokens.textLength = 0 then aTokens
  else
    match pieces[findFirstPieceWithLine pieces lineNumber]? with
    | none => aTokens -- there are no pieces
    | some piece =>
      match piece.getLineTokens lineNumber with
      | none => aTokens
      | some bTokens => mergeTokens aTokens bTokens

open Gavea.Core (Range)

/-- The lines and characters of a range, counted like those of a piece's tokens. -/
structure DeltaRange where
  startDeltaLine : Int
  startChar : Int
  endDeltaLine : Int
  endChar : Int

def DeltaRange.reachesStart (r : DeltaRange) (t : SparseToken) : Bool :=
  (t.deltaLine : Int) > r.startDeltaLine ∨ (t.deltaLine : Int) = r.startDeltaLine ∧ (t.endCharacter : Int) ≥ r.startChar

def DeltaRange.reachesEnd (r : DeltaRange) (t : SparseToken) : Bool :=
  (t.deltaLine : Int) < r.endDeltaLine ∨ (t.deltaLine : Int) = r.endDeltaLine ∧ (t.startCharacter : Int) ≤ r.endChar

def removeLoop (r : DeltaRange) (newTokens : List SparseToken) (firstDeltaLine : Nat) :
    List SparseToken → List SparseToken × Nat
  | [] => (newTokens, firstDeltaLine)
  | t :: rest =>
    if r.reachesStart t && r.reachesEnd t then removeLoop r newTokens firstDeltaLine rest
    else
      let firstDeltaLine := if newTokens.length = 0 then t.deltaLine else firstDeltaLine
      removeLoop r (newTokens ++ [{ t with deltaLine := t.deltaLine - firstDeltaLine }]) firstDeltaLine rest

def splitLoop (r : DeltaRange) (aTokens bTokens : List SparseToken) (destIsB : Bool)
    (destFirstDeltaLine : Nat) : List SparseToken → List SparseToken × List SparseToken × Nat
  | [] => (aTokens, bTokens, destFirstDeltaLine)
  | t :: rest =>
    if r.reachesStart t && r.reachesEnd t then
      splitLoop r aTokens bTokens destIsB destFirstDeltaLine rest
    else
      let isFirstAfter := r.reachesStart t && !destIsB
      let destIsB := destIsB || isFirstAfter
      let destFirstDeltaLine := if isFirstAfter then t.deltaLine else destFirstDeltaLine
      let token := { t with deltaLine := t.deltaLine - destFirstDeltaLine }
      if destIsB then splitLoop r aTokens (bTokens ++ [token]) destIsB destFirstDeltaLine rest
      else splitLoop r (aTokens ++ [token]) bTokens destIsB destFirstDeltaLine rest

namespace SparseMultilineTokens

def deltaRange (p : SparseMultilineTokens) (range : Range) : DeltaRange :=
  ⟨range.startLineNumber - p.startLineNumber, range.startColumn - 1,
    range.endLineNumber - p.startLineNumber, range.endColumn - 1⟩

def getRange (p : SparseMultilineTokens) : Option Range :=
  match p.tokens.head?, p.tokens.getLast? with
  | some first, some last =>
    let deltaRange := Range.new 0 (first.startCharacter + 1) last.deltaLine (last.endCharacter + 1)
    some (Range.new (p.startLineNumber + deltaRange.startLineNumber) deltaRange.startColumn
      (p.startLineNumber + deltaRange.endLineNumber) deltaRange.endColumn)
  | _, _ => none

def removeTokens (p : SparseMultilineTokens) (range : Range) : SparseMultilineTokens :=
  let removed := removeLoop (p.deltaRange range) [] 0 p.tokens
  ⟨p.startLineNumber + removed.2, removed.1⟩

def split (p : SparseMultilineTokens) (range : Range) : SparseMultilineTokens × SparseMultilineTokens :=
  let parts := splitLoop (p.deltaRange range) [] [] false 0 p.tokens
  (⟨p.startLineNumber, parts.1⟩, ⟨p.startLineNumber + parts.2.2, parts.2.1⟩)

end SparseMultilineTokens

def setPartialLoop (range : Range) (done : List SparseMultilineTokens) (insertPosition : Option Nat) :
    List SparseMultilineTokens → List SparseMultilineTokens × Option Nat
  | [] => (done, insertPosition)
  | piece :: rest =>
    if piece.endLineNumber < range.startLineNumber then
      setPartialLoop range (done ++ [piece]) insertPosition rest
    else if piece.startLineNumber > range.endLineNumber then
      (done ++ piece :: rest, insertPosition <|> some done.length)
    else
      let piece := piece.removeTokens range
      if piece.isEmpty then setPartialLoop range done insertPosition rest
      else if piece.endLineNumber < range.startLineNumber then
        setPartialLoop range (done ++ [piece]) insertPosition rest
      else if piece.startLineNumber > range.endLineNumber then
        setPartialLoop range (done ++ [piece]) (insertPosition <|> some done.length) rest
      else
        let parts := piece.split range
        if parts.1.isEmpty then
          setPartialLoop range (done ++ [piece]) (insertPosition <|> some done.length) rest
        else if parts.2.isEmpty then setPartialLoop range (done ++ [piece]) insertPosition rest
        else
          setPartialLoop range (done ++ [parts.1, parts.2]) (insertPosition <|> some (done.length + 1)) rest

def setPartial (oldPieces : List SparseMultilineTokens) (range : Range)
    (pieces : List SparseMultilineTokens) : List SparseMultilineTokens × Range :=
  match pieces.head?, pieces.getLast? with
  | some first, some last =>
    match first.getRange, last.getRange with
    | some firstRange, some lastRange =>
      let range := (range.plusRange firstRange).plusRange lastRange
      let changed := setPartialLoop range [] none oldPieces
      let index := changed.2.getD changed.1.length
      (changed.1.take index ++ pieces ++ changed.1.drop index, range)
    | _, _ => (oldPieces, range)
  | _, _ => ((setPartialLoop range [] none oldPieces).1, range)

structure PositionedToken where
  line : Int
  startCharacter : Nat
  endCharacter : Nat
  metadata : UInt32
deriving DecidableEq

def SparseToken.position (startLineNumber : Int) (t : SparseToken) : PositionedToken :=
  ⟨startLineNumber + t.deltaLine, t.startCharacter, t.endCharacter, t.metadata⟩

def SparseMultilineTokens.positioned (p : SparseMultilineTokens) : List PositionedToken :=
  p.tokens.map (SparseToken.position p.startLineNumber)

def allTokens (pieces : List SparseMultilineTokens) : List PositionedToken :=
  pieces.flatMap SparseMultilineTokens.positioned

def IsBefore (range : Range) (t : PositionedToken) : Prop :=
  t.line < range.startLineNumber ∨ t.line = range.startLineNumber ∧ (t.endCharacter : Int) < range.startColumn - 1

def IsBehind (range : Range) (t : PositionedToken) : Prop :=
  t.line > range.endLineNumber ∨ t.line = range.endLineNumber ∧ (t.startCharacter : Int) > range.endColumn - 1

instance (range : Range) (t : PositionedToken) : Decidable (IsBefore range t) := inferInstanceAs (Decidable (_ ∨ _))

instance (range : Range) (t : PositionedToken) : Decidable (IsBehind range t) := inferInstanceAs (Decidable (_ ∨ _))

def touches (range : Range) (t : PositionedToken) : Bool := ¬IsBefore range t ∧ ¬IsBehind range t

def Precedes (t u : PositionedToken) : Prop := t.line < u.line ∨ t.line = u.line ∧ t.endCharacter ≤ u.startCharacter

structure SortedTokens (tokens : List PositionedToken) : Prop where
  pairwise : tokens.Pairwise Precedes
  nonneg : ∀ t ∈ tokens, t.startCharacter ≤ t.endCharacter

def PieceBefore (p q : SparseMultilineTokens) : Prop :=
  p.endLineNumber ≤ q.startLineNumber ∧ p.startLineNumber ≤ q.startLineNumber

structure SortedPieces (pieces : List SparseMultilineTokens) : Prop where
  tokens : SortedTokens (allTokens pieces)
  lines : pieces.Pairwise PieceBefore

variable {range : Range} {p p' : SparseMultilineTokens} {t u : PositionedToken}
  {tokens : List PositionedToken}

theorem SortedTokens.sublist {tokens' : List PositionedToken} (h : SortedTokens tokens)
    (hsub : tokens'.Sublist tokens) : SortedTokens tokens' :=
  ⟨h.pairwise.sublist hsub, fun t ht => h.nonneg t (hsub.subset ht)⟩

theorem IsBehind.of_precedes (h : IsBehind range t) (hle : t.startCharacter ≤ t.endCharacter)
    (htu : Precedes t u) : IsBehind range u := by
  rw [IsBehind, Precedes] at *
  omega

theorem not_isBefore_of_isBehind (h : IsBehind range t) (hle : t.startCharacter ≤ t.endCharacter) :
    ¬IsBefore range t := by
  have hrange := range.le
  rw [IsBehind] at h
  rw [IsBefore]
  omega

theorem touches_eq_false_iff : touches range t = false ↔ IsBefore range t ∨ IsBehind range t := by
  rw [touches, decide_eq_false_iff_not, not_and_or, not_not, not_not]

theorem reaches_eq (t : SparseToken) :
    ((p.deltaRange range).reachesStart t = !decide (IsBefore range (t.position p.startLineNumber))) ∧
      ((p.deltaRange range).reachesEnd t = !decide (IsBehind range (t.position p.startLineNumber))) := by
  rw [DeltaRange.reachesStart, DeltaRange.reachesEnd, ← decide_not, ← decide_not, decide_eq_decide,
    decide_eq_decide, IsBefore, IsBehind, SparseMultilineTokens.deltaRange, SparseToken.position]
  dsimp only
  omega

def rebase (firstDeltaLine : Nat) (t : SparseToken) : SparseToken :=
  { t with deltaLine := t.deltaLine - firstDeltaLine }

theorem position_rebase {startLineNumber : Int} {firstDeltaLine : Nat} {t : SparseToken}
    (h : firstDeltaLine ≤ t.deltaLine) :
    (rebase firstDeltaLine t).position (startLineNumber + firstDeltaLine) =
      t.position startLineNumber := by
  rw [SparseToken.position, SparseToken.position, rebase]
  congr 1
  dsimp only
  omega

def firstDelta (tokens : List SparseToken) : Nat := (tokens.head?.map SparseToken.deltaLine).getD 0

theorem firstDelta_le {tokens : List SparseToken} (h : tokens.Pairwise (·.deltaLine ≤ ·.deltaLine)) :
    ∀ t ∈ tokens, firstDelta tokens ≤ t.deltaLine := by
  cases tokens with
  | nil => exact fun t ht => absurd ht List.not_mem_nil
  | cons t rest =>
    intro u hu
    rcases List.mem_cons.mp hu with rfl | htail
    · exact le_refl _
    · exact (List.pairwise_cons.mp h).1 u htail

def rebased (startLineNumber : Int) (tokens : List SparseToken) : SparseMultilineTokens :=
  ⟨startLineNumber + firstDelta tokens, tokens.map (rebase (firstDelta tokens))⟩

theorem positioned_rebased {startLineNumber : Int} {tokens : List SparseToken}
    (h : tokens.Pairwise (·.deltaLine ≤ ·.deltaLine)) :
    (rebased startLineNumber tokens).positioned =
      tokens.map (SparseToken.position startLineNumber) := by
  rw [SparseMultilineTokens.positioned, rebased, List.map_map]
  exact List.map_congr_left fun t ht => position_rebase (firstDelta_le h t ht)

theorem removeLoop_eq (r : DeltaRange) (tokens kept : List SparseToken) (firstDeltaLine : Nat)
    (hfirst : firstDeltaLine = firstDelta kept) :
    removeLoop r (kept.map (rebase firstDeltaLine)) firstDeltaLine tokens =
      ((kept ++ tokens.filter fun t => !(r.reachesStart t && r.reachesEnd t)).map
        (rebase (firstDelta (kept ++ tokens.filter fun t => !(r.reachesStart t && r.reachesEnd t)))),
        firstDelta (kept ++ tokens.filter fun t => !(r.reachesStart t && r.reachesEnd t))) := by
  induction tokens generalizing kept firstDeltaLine with
  | nil => rw [removeLoop, List.filter_nil, List.append_nil, hfirst]
  | cons t rest ih =>
    rw [removeLoop]
    by_cases htouches : (r.reachesStart t && r.reachesEnd t) = true
    · rw [if_pos htouches, List.filter_cons_of_neg (by rw [htouches]; decide)]
      exact ih kept firstDeltaLine hfirst
    · rw [if_neg htouches, List.filter_cons_of_pos (by
        rw [Bool.eq_false_of_not_eq_true htouches]
        rfl), List.append_cons]
      dsimp only
      rw [List.length_map]
      have hnew : (if kept.length = 0 then t.deltaLine else firstDeltaLine) =
          firstDelta (kept ++ [t]) := by
        cases kept with
        | nil => rfl
        | cons u kept => exact hfirst
      rw [hnew, ← ih (kept ++ [t]) (firstDelta (kept ++ [t])) rfl, List.map_append]
      congr 2
      cases kept with
      | nil => rfl
      | cons u kept => rw [hfirst]; rfl

theorem positioned_filter (f : PositionedToken → Bool) (startLineNumber : Int)
    (tokens : List SparseToken) :
    (tokens.filter fun t => f (t.position startLineNumber)).map (SparseToken.position startLineNumber) =
      (tokens.map (SparseToken.position startLineNumber)).filter f := by
  rw [List.filter_map]
  rfl

theorem removeTokens_eq (range : Range) : p.removeTokens range =
    rebased p.startLineNumber
      (p.tokens.filter fun t => !touches range (t.position p.startLineNumber)) := by
  have hfilter : (fun t => !((p.deltaRange range).reachesStart t && (p.deltaRange range).reachesEnd t)) =
      fun t => !touches range (t.position p.startLineNumber) := by
    funext t
    rw [(reaches_eq t).1, (reaches_eq t).2, touches, Bool.decide_and, decide_not, decide_not]
  have hloop := removeLoop_eq (p.deltaRange range) p.tokens [] 0 rfl
  rw [List.nil_append, hfilter, List.map_nil] at hloop
  rw [SparseMultilineTokens.removeTokens, hloop]
  rfl

def DeltaRange.isBehind (r : DeltaRange) (t : SparseToken) : Bool := r.reachesStart t && !r.reachesEnd t

theorem splitLoop_behind {r : DeltaRange} {tokens : List SparseToken}
    (h : ∀ t ∈ tokens, r.isBehind t = true) (aTokens bTokens : List SparseToken) (firstDeltaLine : Nat) :
    splitLoop r aTokens bTokens true firstDeltaLine tokens =
      (aTokens, bTokens ++ tokens.map (rebase firstDeltaLine), firstDeltaLine) := by
  induction tokens generalizing bTokens with
  | nil => rw [splitLoop, List.map_nil, List.append_nil]
  | cons t rest ih =>
    obtain ⟨ht, hrest⟩ := List.forall_mem_cons.mp h
    rw [DeltaRange.isBehind, Bool.and_eq_true, Bool.not_eq_true'] at ht
    rw [splitLoop, ht.1, ht.2, List.map_cons, List.append_cons, ← ih hrest]
    rfl

theorem splitLoop_eq {r : DeltaRange} {tokens : List SparseToken}
    (h : tokens.Pairwise fun t u => r.isBehind t = true → r.isBehind u = true)
    (aTokens : List SparseToken) :
    splitLoop r aTokens [] false 0 tokens =
      (aTokens ++ tokens.filter (fun t => !r.reachesStart t),
        (tokens.filter r.isBehind).map (rebase (firstDelta (tokens.filter r.isBehind))),
        firstDelta (tokens.filter r.isBehind)) := by
  induction tokens generalizing aTokens with
  | nil =>
    rw [splitLoop, List.filter_nil, List.append_nil]
    rfl
  | cons t rest ih =>
    obtain ⟨ht, hrest⟩ := List.pairwise_cons.mp h
    have ih := ih hrest
    cases hstart : r.reachesStart t with
    | false =>
      rw [splitLoop, hstart, List.filter_cons_of_pos (by rw [hstart]; rfl),
        List.filter_cons_of_neg (by rw [DeltaRange.isBehind, hstart]; exact Bool.false_ne_true), List.append_cons, ← ih]
      rfl
    | true =>
      cases hend : r.reachesEnd t with
      | true =>
        rw [splitLoop, hstart, hend, List.filter_cons_of_neg (by rw [hstart]; decide),
          List.filter_cons_of_neg (by rw [DeltaRange.isBehind, hstart, hend]; decide), ← ih]
        rfl
      | false =>
        have hbehind : r.isBehind t = true := by
          rw [DeltaRange.isBehind, hstart, hend]
          rfl
        have hall (u : SparseToken) (hu : u ∈ rest) := ht u hu hbehind
        have hnone : rest.filter (fun u => !r.reachesStart u) = [] := by
          rw [List.filter_eq_nil_iff]
          intro u hu
          have hu := hall u hu
          rw [DeltaRange.isBehind, Bool.and_eq_true] at hu
          rw [hu.1]
          decide
        rw [splitLoop, hstart, hend, List.filter_cons_of_neg (by rw [hstart]; decide),
          List.filter_cons_of_pos hbehind, List.filter_eq_self.mpr hall, hnone, List.append_nil]
        exact splitLoop_behind hall aTokens _ t.deltaLine

theorem split_eq (h : SortedTokens p.positioned) (range : Range) :
    p.split range =
      (⟨p.startLineNumber, p.tokens.filter fun t => IsBefore range (t.position p.startLineNumber)⟩,
        rebased p.startLineNumber
          (p.tokens.filter fun t => IsBehind range (t.position p.startLineNumber))) := by
  have hbehind (t : SparseToken) (ht : t ∈ p.tokens) : (p.deltaRange range).isBehind t =
      decide (IsBehind range (t.position p.startLineNumber)) := by
    rw [DeltaRange.isBehind, (reaches_eq t).1, (reaches_eq t).2, Bool.not_not]
    by_cases hposition : IsBehind range (t.position p.startLineNumber)
    · have hnonneg := h.nonneg _ (List.mem_map_of_mem ht)
      rw [decide_eq_true hposition, decide_eq_false (not_isBefore_of_isBehind hposition hnonneg)]
      rfl
    · rw [decide_eq_false hposition, Bool.and_false]
  have hpairwise : p.tokens.Pairwise fun t u => (p.deltaRange range).isBehind t = true →
      (p.deltaRange range).isBehind u = true := by
    refine (List.pairwise_map.mp h.pairwise).imp_of_mem fun {t u} ht hu htu hbehind_t => ?_
    rw [hbehind t ht, decide_eq_true_eq] at hbehind_t
    rw [hbehind u hu, decide_eq_true_eq]
    exact hbehind_t.of_precedes (h.nonneg _ (List.mem_map_of_mem ht)) htu
  rw [SparseMultilineTokens.split, splitLoop_eq hpairwise, List.nil_append, List.filter_congr hbehind]
  congr 2
  refine List.filter_congr fun t _ => ?_
  rw [(reaches_eq t).1, Bool.not_not]

theorem mem_positioned (ht : t ∈ p.positioned) :
    ∃ u ∈ p.tokens, u.position p.startLineNumber = t :=
  List.mem_map.mp ht

theorem inLineOrder (h : SortedTokens p.positioned) : p.InLineOrder := by
  refine (List.pairwise_map.mp h.pairwise).imp fun {t u} htu => ?_
  rw [Precedes, SparseToken.position, SparseToken.position] at htu
  dsimp only at htu
  omega

theorem line_bounds (h : SortedTokens p.positioned) (ht : t ∈ p.positioned) :
    p.startLineNumber ≤ t.line ∧ t.line ≤ p.endLineNumber := by
  obtain ⟨u, hu, rfl⟩ := mem_positioned ht
  have hmax := getMaxDeltaLine_le (inLineOrder h) u hu
  rw [SparseToken.position, SparseMultilineTokens.endLineNumber]
  dsimp only
  omega

theorem exists_line_eq_end (hne : p.isEmpty = false) : ∃ t ∈ p.positioned, t.line = p.endLineNumber := by
  rw [SparseMultilineTokens.isEmpty, List.isEmpty_eq_false_iff] at hne
  obtain ⟨init, last, hlast⟩ := List.eq_nil_or_concat p.tokens |>.resolve_left hne
  rw [List.concat_eq_append] at hlast
  refine ⟨last.position p.startLineNumber, List.mem_map_of_mem (by rw [hlast]; simp), ?_⟩
  rw [SparseMultilineTokens.endLineNumber, getMaxDeltaLine, hlast, List.getLast?_concat]
  rfl

theorem exists_line_eq_start {startLineNumber : Int} {tokens : List SparseToken}
    (hne : (rebased startLineNumber tokens).isEmpty = false) :
    ∃ t ∈ (rebased startLineNumber tokens).positioned,
      t.line = (rebased startLineNumber tokens).startLineNumber := by
  cases tokens with
  | nil => exact nomatch hne
  | cons t rest =>
    refine ⟨_, List.mem_cons_self, ?_⟩
    rw [SparseToken.position, rebase]
    dsimp only
    rw [show firstDelta (t :: rest) = t.deltaLine from rfl, Nat.sub_self]
    exact add_zero _

theorem positioned_eq_nil (h : p.isEmpty = true) : p.positioned = [] := by
  rw [SparseMultilineTokens.isEmpty, List.isEmpty_iff] at h
  rw [SparseMultilineTokens.positioned, h]
  rfl

theorem endLineNumber_of_isEmpty (h : p.isEmpty = true) :
    p.endLineNumber = p.startLineNumber - 1 := by
  rw [SparseMultilineTokens.isEmpty, List.isEmpty_iff] at h
  rw [SparseMultilineTokens.endLineNumber, h]
  rfl

theorem start_le_end (h : SortedTokens p.positioned) :
    p.startLineNumber ≤ p.endLineNumber + 1 := by
  cases hempty : p.isEmpty with
  | true =>
    rw [endLineNumber_of_isEmpty hempty]
    omega
  | false =>
    obtain ⟨t, ht, hline⟩ := exists_line_eq_end hempty
    have hbounds := line_bounds h ht
    omega

end Gavea.SparseTokens
