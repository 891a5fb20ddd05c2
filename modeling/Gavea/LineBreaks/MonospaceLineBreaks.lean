import Mathlib.Data.Rat.Floor
import Gavea.LineDecorations.LineDecorations

namespace Gavea.LineBreaks

open Gavea.Lib.Js Gavea.LineDecorations

inductive CharacterClass
  | none
  | breakBefore
  | breakAfter
  | breakIdeographic
  deriving DecidableEq

/-- The codes that have been set; the others have the default class. -/
structure WrappingCharacterClassifier where
  actual : CodeUnit → CharacterClass

namespace WrappingCharacterClassifier

def set (classifier : WrappingCharacterClassifier) (charCode : CodeUnit) (value : CharacterClass) :
    WrappingCharacterClassifier :=
  ⟨Function.update classifier.actual charCode value⟩

def create (breakBefore breakAfter : JsString) : WrappingCharacterClassifier :=
  let classifier := breakBefore.foldl (fun c charCode => c.set charCode .breakBefore) ⟨fun _ => .none⟩
  breakAfter.foldl (fun c charCode => c.set charCode .breakAfter) classifier

/-- `none` is the `NaN` that `charCodeAt` returns behind the end. -/
def get (classifier : WrappingCharacterClassifier) : Option CodeUnit → CharacterClass
  | none => .none
  | some charCode =>
    if charCode < 256 then classifier.actual charCode
    else if (0x3040 ≤ charCode ∧ charCode ≤ 0x30FF) ∨ (0x3400 ≤ charCode ∧ charCode ≤ 0x4DBF) ∨
        (0x4E00 ≤ charCode ∧ charCode ≤ 0x9FFF) then .breakIdeographic
    else classifier.actual charCode

end WrappingCharacterClassifier

inductive WrappingIndent
  | none
  | same
  | indent
  | deepIndent
  deriving DecidableEq

inductive WordBreak
  | normal
  | keepAll
  deriving DecidableEq

structure WrapSettings where
  classifier : WrappingCharacterClassifier
  tabSize : Nat
  columnsForFullWidthChar : ℚ≥0
  wrappingIndent : WrappingIndent
  wordBreak : WordBreak

structure LineInjectedText where
  column : Nat
  content : JsString

structure ModelLineProjectionData where
  injectionOffsets : Option (List Int)
  injectionOptions : Option (List JsString)
  breakOffsets : List Nat
  breakOffsetsVisibleColumn : List ℚ
  wrappedTextIndentLength : ℚ
  deriving DecidableEq

def remainder (x : ℚ) (n : Nat) : ℚ := x - n * (if 0 ≤ x then ⌊x / n⌋ else ⌈x / n⌉)

def isFullWidthCharacter (charCode : CodeUnit) : Bool :=
  decide (0x2E80 ≤ charCode ∧ charCode ≤ 0xD7AF) || decide (0xF900 ≤ charCode ∧ charCode ≤ 0xFAFF) ||
    decide (0xFF01 ≤ charCode ∧ charCode ≤ 0xFF5E) || decide (0xFFE0 ≤ charCode ∧ charCode ≤ 0xFFE6)

def tab : CodeUnit := 9

def space : CodeUnit := 32

def tabCharacterWidth (visibleColumn : ℚ) (tabSize : Nat) : ℚ := tabSize - remainder visibleColumn tabSize

def computeCharWidth (charCode : CodeUnit) (visibleColumn : ℚ) (tabSize : Nat)
    (columnsForFullWidthChar : ℚ) : ℚ :=
  if charCode = tab then tabSize - remainder visibleColumn tabSize
  else if isFullWidthCharacter charCode then columnsForFullWidthChar
  else if charCode < 32 then columnsForFullWidthChar
  else 1

def canBreak (prevCharCodeClass : CharacterClass) (charCode : Option CodeUnit)
    (charCodeClass : CharacterClass) (isKeepAll : Bool) : Bool :=
  charCode ≠ some space &&
    (prevCharCodeClass = .breakAfter && charCodeClass ≠ .breakAfter ||
      prevCharCodeClass ≠ .breakBefore && charCodeClass = .breakBefore ||
      !isKeepAll && prevCharCodeClass = .breakIdeographic && charCodeClass ≠ .breakAfter ||
      !isKeepAll && charCodeClass = .breakIdeographic && prevCharCodeClass ≠ .breakBefore)

def firstNonWhitespaceIndex (str : JsString) : Option Nat := str.findIdx? fun chCode => chCode ≠ space && chCode ≠ tab

def computeWrappedTextIndentLength (settings : WrapSettings) (lineText : JsString)
    (firstLineBreakColumn : Int) : ℚ :=
  if settings.wrappingIndent = .none then 0
  else
    match firstNonWhitespaceIndex lineText with
    | none => 0
    | some firstNonWhitespaceIndex =>
      let existing := (lineText.take firstNonWhitespaceIndex).foldl (fun length charCode =>
        length + if charCode = tab then tabCharacterWidth length settings.tabSize else 1) 0
      let numberOfAdditionalTabs := match settings.wrappingIndent with
        | .deepIndent => 2
        | .indent => 1
        | _ => 0
      let length := (List.range numberOfAdditionalTabs).foldl (fun length _ =>
        length + tabCharacterWidth length settings.tabSize) existing
      if length + settings.columnsForFullWidthChar > firstLineBreakColumn then 0 else length

/-- The backslashes from before `j` on backwards. -/
def escapeLoop (lineText : JsString) : Nat → Nat → Bool
  | 0, _ => false
  | j + 1, escapeCount =>
    if lineText[j]? = some 92 then escapeLoop lineText j (escapeCount + 1)
    else escapeCount % 2 = 1

def isEscapedLineBreakAtPosition (lineText : JsString) (i : Nat) : Bool :=
  if 2 ≤ i ∧ lineText[i - 1]? = some 110 then escapeLoop lineText (i - 1) 0 else false

def applyInjectedText (lineText : JsString) (injectedTexts : List LineInjectedText) : JsString :=
  let (result, lastOriginalOffset) := injectedTexts.foldl
      (fun (result, lastOriginalOffset) injected =>
    (result ++ substring lineText lastOriginalOffset ((injected.column : Int) - 1) ++
        injected.content,
      (injected.column : Int) - 1)) (([], 0) : JsString × Int)
  result ++ substringFrom lineText lastOriginalOffset

structure BreakState where
  breakOffset : Nat
  breakOffsetVisibleColumn : ℚ
  breakingColumn : ℚ
  prevCharCodeClass : CharacterClass
  visibleColumn : ℚ
  breakingOffsets : List Nat
  breakingOffsetsVisibleColumn : List ℚ

section CreateLineBreaks

variable (settings : WrapSettings) (wrappedLineBreakColumn : ℚ)

def breakStep (charStartOffset : Nat) (charCode : CodeUnit) (charCodeClass : CharacterClass)
    (charWidth : ℚ) (wrapEscapedLineFeed : Bool) (st : BreakState) : BreakState :=
  let breaksHere := wrapEscapedLineFeed ||
    canBreak st.prevCharCodeClass (some charCode) charCodeClass (settings.wordBreak = .keepAll)
  let breakOffset := if breaksHere then charStartOffset else st.breakOffset
  let breakOffsetVisibleColumn := if breaksHere then st.visibleColumn else st.breakOffsetVisibleColumn
  let visibleColumn := st.visibleColumn + charWidth
  if visibleColumn > st.breakingColumn ∨ wrapEscapedLineFeed then
    let atChar := breakOffset = 0 ∨ visibleColumn - breakOffsetVisibleColumn > wrappedLineBreakColumn
    let breakOffset := if atChar then charStartOffset else breakOffset
    let breakOffsetVisibleColumn := if atChar then visibleColumn - charWidth else
        breakOffsetVisibleColumn
    ⟨0, breakOffsetVisibleColumn, breakOffsetVisibleColumn + wrappedLineBreakColumn, charCodeClass, visibleColumn,
      st.breakingOffsets ++ [breakOffset], st.breakingOffsetsVisibleColumn ++ [breakOffsetVisibleColumn]⟩
  else
    { st with
      breakOffset := breakOffset
      breakOffsetVisibleColumn := breakOffsetVisibleColumn
      visibleColumn := visibleColumn
      prevCharCodeClass := charCodeClass }

variable (lineText : JsString) (wrapOnEscapedLineFeeds : Bool)

/-- The loop from offset `i` on; a high surrogate takes the unit behind it along. -/
def breakLoop : Nat → List CodeUnit → BreakState → BreakState
  | _, [], st => st
  | i, [charCode], st =>
    if isHighSurrogate charCode then
      breakStep settings wrappedLineBreakColumn i charCode .none 2
        (wrapOnEscapedLineFeeds && isEscapedLineBreakAtPosition lineText (i + 1)) st
    else
      breakStep settings wrappedLineBreakColumn i charCode (settings.classifier.get charCode)
        (computeCharWidth charCode st.visibleColumn settings.tabSize settings.columnsForFullWidthChar)
        (wrapOnEscapedLineFeeds && isEscapedLineBreakAtPosition lineText i) st
  | i, charCode :: next :: rest, st =>
    if isHighSurrogate charCode then
      breakLoop (i + 2) rest (breakStep settings wrappedLineBreakColumn i charCode .none 2
        (wrapOnEscapedLineFeeds && isEscapedLineBreakAtPosition lineText (i + 1)) st)
    else
      breakLoop (i + 1) (next :: rest)
        (breakStep settings wrappedLineBreakColumn i charCode (settings.classifier.get charCode)
          (computeCharWidth charCode st.visibleColumn settings.tabSize settings.columnsForFullWidthChar)
          (wrapOnEscapedLineFeeds && isEscapedLineBreakAtPosition lineText i) st)

end CreateLineBreaks

/-- The loop starts behind the first character. -/
def breakAll (settings : WrapSettings) (wrappedLineBreakColumn : ℚ) (firstLineBreakColumn : Int)
    (wrapOnEscapedLineFeeds : Bool) (lineText : JsString) : BreakState :=
  match lineText with
  | [] => ⟨0, 0, firstLineBreakColumn, .none, 0, [], []⟩
  | prevCharCode :: rest =>
    let visibleColumn := computeCharWidth prevCharCode 0 settings.tabSize
        settings.columnsForFullWidthChar
    if isHighSurrogate prevCharCode then
      breakLoop settings wrappedLineBreakColumn lineText wrapOnEscapedLineFeeds 2 rest.tail
        ⟨0, 0, firstLineBreakColumn, settings.classifier.get rest.head?, visibleColumn + 1, [], []⟩
    else
      breakLoop settings wrappedLineBreakColumn lineText wrapOnEscapedLineFeeds 1 rest
        ⟨0, 0, firstLineBreakColumn, settings.classifier.get prevCharCode, visibleColumn, [], []⟩

def createLineBreaks (settings : WrapSettings) (_lineText : JsString)
    (injectedTexts : List LineInjectedText) (firstLineBreakColumn : Int)
    (wrapOnEscapedLineFeeds : Bool) : Option ModelLineProjectionData :=
  let lineText := applyInjectedText _lineText injectedTexts
  let injectionOptions := if injectedTexts ≠ [] then some (injectedTexts.map (·.content)) else none
  let injectionOffsets := if injectedTexts ≠ [] then
    some (injectedTexts.map fun text => (text.column : Int) - 1) else none
  if firstLineBreakColumn = -1 ∨ lineText.length ≤ 1 then
    match injectionOptions with
    | none => none
    | some _ => some ⟨injectionOffsets, injectionOptions, [lineText.length], [], 0⟩
  else
    let wrappedTextIndentLength := computeWrappedTextIndentLength settings lineText
        firstLineBreakColumn
    let st := breakAll settings (firstLineBreakColumn - wrappedTextIndentLength) firstLineBreakColumn
      wrapOnEscapedLineFeeds lineText
    if st.breakingOffsets = [] ∧ injectedTexts = [] then none
    else some ⟨injectionOffsets, injectionOptions, st.breakingOffsets ++ [lineText.length],
      st.breakingOffsetsVisibleColumn ++ [st.visibleColumn], wrappedTextIndentLength⟩

def writeAt {α : Type*} (arr : List α) (index : Nat) (value : α) : List α :=
  arr.take index ++ value :: arr.drop (index + 1)

/-- The width of a unit that may be a high surrogate, or the `NaN` behind the end. -/
def charWidthAt (settings : WrapSettings) (charCode : Option CodeUnit) (visibleColumn : ℚ) : ℚ :=
  match charCode with
  | none => 1
  | some charCode =>
    if isHighSurrogate charCode then 2
    else computeCharWidth charCode visibleColumn settings.tabSize settings.columnsForFullWidthChar

structure FoundBreaks where
  breakOffset : Nat
  breakOffsetVisibleColumn : ℚ
  forcedBreakOffset : Nat
  forcedBreakOffsetVisibleColumn : ℚ

section Search

variable (settings : WrapSettings) (lineText : JsString) (wrappedLineBreakColumn breakingColumn : ℚ)
  (lastBreakingOffset : Nat)

structure RightState where
  visibleColumn : ℚ
  prevCharCodeClass : CharacterClass
  breakOffset : Nat
  breakOffsetVisibleColumn : ℚ

def rightStep (charStartOffset stopOffset : Nat) (charCode : CodeUnit)
    (charCodeClass : CharacterClass)
    (charWidth : ℚ) (st : RightState) : RightState ⊕ FoundBreaks :=
  let breaksHere := decide (charStartOffset > lastBreakingOffset) &&
    canBreak st.prevCharCodeClass (some charCode) charCodeClass (settings.wordBreak = .keepAll)
  let breakOffset := if breaksHere then charStartOffset else st.breakOffset
  let breakOffsetVisibleColumn := if breaksHere then st.visibleColumn else st.breakOffsetVisibleColumn
  let visibleColumn := st.visibleColumn + charWidth
  if visibleColumn > breakingColumn then
    let breakOffset := if visibleColumn - breakOffsetVisibleColumn > wrappedLineBreakColumn then 0
      else breakOffset
    if charStartOffset > lastBreakingOffset then
      .inr ⟨breakOffset, breakOffsetVisibleColumn, charStartOffset, visibleColumn - charWidth⟩
    else .inr ⟨breakOffset, breakOffsetVisibleColumn, stopOffset, visibleColumn⟩
  else .inl ⟨visibleColumn, charCodeClass, breakOffset, breakOffsetVisibleColumn⟩

/-- `none` if the entire rest of the line fits. -/
def searchRight : Nat → List CodeUnit → RightState → Option FoundBreaks
  | _, [], _ => none
  | i, [charCode], st =>
    let step := if isHighSurrogate charCode then
      rightStep settings wrappedLineBreakColumn breakingColumn lastBreakingOffset i (i + 2) charCode .none 2 st
    else
      rightStep settings wrappedLineBreakColumn breakingColumn lastBreakingOffset i (i + 1) charCode
        (settings.classifier.get charCode) (charWidthAt settings charCode st.visibleColumn) st
    match step with
    | .inl _ => none
    | .inr found => some found
  | i, charCode :: next :: rest, st =>
    if isHighSurrogate charCode then
      match rightStep settings wrappedLineBreakColumn breakingColumn lastBreakingOffset i (i + 2)
          charCode .none 2 st with
      | .inl st => searchRight (i + 2) rest st
      | .inr found => some found
    else
      match rightStep settings wrappedLineBreakColumn breakingColumn lastBreakingOffset i (i + 1)
          charCode (settings.classifier.get charCode)
          (charWidthAt settings charCode st.visibleColumn) st with
      | .inl st => searchRight (i + 1) (next :: rest) st
      | .inr found => some found

structure LeftState where
  visibleColumn : ℚ
  charCode : Option CodeUnit
  charCodeClass : CharacterClass
  forcedBreakOffset : Nat
  forcedBreakOffsetVisibleColumn : ℚ

def LeftState.result (st : LeftState) (breakOffset : Nat) (breakOffsetVisibleColumn : ℚ)
    (hitATabCharacter : Bool) : FoundBreaks × Bool :=
  (⟨breakOffset, breakOffsetVisibleColumn, st.forcedBreakOffset, st.forcedBreakOffsetVisibleColumn⟩, hitATabCharacter)

/-- The place of which the unit in front is the next one; behind a low surrogate one is passed over. -/
def searchLeft : Nat → Bool → LeftState → FoundBreaks × Bool
  | 0, _, st => st.result 0 0 false
  | i + 1, true, st => searchLeft i false st
  | i + 1, false, st =>
    if i < lastBreakingOffset then st.result 0 0 false
    else
      let prevCharCode := lineText[i]?
      if prevCharCode = some tab then st.result 0 0 true
      else
        let isLow := prevCharCode.any isLowSurrogate
        let prevCharCodeClass := if isLow then .none else settings.classifier.get prevCharCode
        let prevCharWidth : ℚ := if isLow then 2
          else if prevCharCode.any isFullWidthCharacter then settings.columnsForFullWidthChar else 1
        let next (st : LeftState) : LeftState :=
          { st with
            visibleColumn := st.visibleColumn - prevCharWidth
            charCode := prevCharCode
            charCodeClass := prevCharCodeClass }
        if st.visibleColumn ≤ breakingColumn then
          let st := if st.forcedBreakOffset = 0 then
            { st with
              forcedBreakOffset := i + 1
              forcedBreakOffsetVisibleColumn := st.visibleColumn }
            else st
          if st.visibleColumn ≤ breakingColumn - wrappedLineBreakColumn then st.result 0 0 false
          else if canBreak prevCharCodeClass st.charCode st.charCodeClass
              (settings.wordBreak = .keepAll) then
            st.result (i + 1) st.visibleColumn false
          else searchLeft i isLow (next st)
        else searchLeft i isLow (next st)

end Search

structure RewrapState where
  prevIndex : Int
  breakingOffsets : List Nat
  breakingOffsetsVisibleColumn : List ℚ
  breakingOffsetsCount : Nat
  lastBreakingOffset : Nat
  lastBreakingOffsetVisibleColumn : ℚ
  breakingColumn : ℚ

def closestLoop (breakingColumn bestDistance : ℚ) : Nat → List ℚ → Nat
  | prevIndex, [] => prevIndex
  | prevIndex, visibleColumn :: rest =>
    let distance := |visibleColumn - breakingColumn|
    if distance ≥ bestDistance then prevIndex
    else closestLoop breakingColumn distance (prevIndex + 1) rest

def closest (prevBreakingOffsetsVisibleColumn : List ℚ) (breakingColumn : ℚ) (prevIndex : Nat) :
    Nat :=
  match prevBreakingOffsetsVisibleColumn.drop prevIndex with
  | [] => prevIndex
  | visibleColumn :: rest => closestLoop breakingColumn |visibleColumn - breakingColumn| prevIndex rest

def skipLoop (breakOffsetVisibleColumn : ℚ) : Nat → List ℚ → Nat
  | prevIndex, [] => prevIndex
  | prevIndex, visibleColumn :: rest =>
    if visibleColumn < breakOffsetVisibleColumn then
      skipLoop breakOffsetVisibleColumn (prevIndex + 1) rest
    else prevIndex

def skip (prevBreakingOffsetsVisibleColumn : List ℚ) (breakOffsetVisibleColumn : ℚ)
    (prevIndex : Nat) :
    Nat :=
  skipLoop breakOffsetVisibleColumn prevIndex (prevBreakingOffsetsVisibleColumn.drop prevIndex)

section Rewrap

variable (settings : WrapSettings) (lineText : JsString) (wrappedLineBreakColumn : ℚ)
  (prevBreakingOffsets : List Nat) (prevBreakingOffsetsVisibleColumn : List ℚ)

def startOfSearch (st : RewrapState) : Nat × ℚ :=
  let prevBreakOffset := if st.prevIndex < 0 then 0
    else prevBreakingOffsets.getD st.prevIndex.toNat 0
  let prevBreakOffsetVisibleColumn := if st.prevIndex < 0 then 0
    else prevBreakingOffsetsVisibleColumn.getD st.prevIndex.toNat 0
  if st.lastBreakingOffset > prevBreakOffset then
    (st.lastBreakingOffset, st.lastBreakingOffsetVisibleColumn)
  else (prevBreakOffset, prevBreakOffsetVisibleColumn)

/-- Breaking there is not worth it if the next line then needs an extra one. -/
def dropNeedless (found : FoundBreaks) : FoundBreaks :=
  if found.breakOffset ≠ 0 then
    let remainingWidthOfNextLine := wrappedLineBreakColumn -
      (found.forcedBreakOffsetVisibleColumn - found.breakOffsetVisibleColumn)
    if remainingWidthOfNextLine ≤ settings.tabSize then
      let charWidth := charWidthAt settings lineText[found.forcedBreakOffset]?
        found.forcedBreakOffsetVisibleColumn
      if remainingWidthOfNextLine - charWidth < 0 then { found with breakOffset := 0 } else found
    else found
  else found

def breakTaken (st : RewrapState) (found : FoundBreaks) : Nat × ℚ :=
  let (breakOffset, breakOffsetVisibleColumn) := if found.breakOffset = 0 then
    (found.forcedBreakOffset, found.forcedBreakOffsetVisibleColumn)
    else (found.breakOffset, found.breakOffsetVisibleColumn)
  if breakOffset ≤ st.lastBreakingOffset then
    let charCode := lineText[st.lastBreakingOffset]?
    (st.lastBreakingOffset + (if charCode.any isHighSurrogate then 2 else 1),
      st.lastBreakingOffsetVisibleColumn + charWidthAt settings charCode st.lastBreakingOffsetVisibleColumn)
  else (breakOffset, breakOffsetVisibleColumn)

def pushBreak (st : RewrapState) (taken : Nat × ℚ) : RewrapState where
  breakingOffsets := writeAt st.breakingOffsets st.breakingOffsetsCount taken.1
  breakingOffsetsVisibleColumn := writeAt st.breakingOffsetsVisibleColumn st.breakingOffsetsCount taken.2
  breakingOffsetsCount := st.breakingOffsetsCount + 1
  lastBreakingOffset := taken.1
  lastBreakingOffsetVisibleColumn := taken.2
  breakingColumn := taken.2 + wrappedLineBreakColumn
  prevIndex := closest prevBreakingOffsetsVisibleColumn (taken.2 + wrappedLineBreakColumn)
    (skip prevBreakingOffsetsVisibleColumn taken.2 st.prevIndex.toNat)

/-- There is no more need to break: the last segment is added if the line has been broken. -/
def pushRest (st : RewrapState) : RewrapState :=
  if st.breakingOffsetsCount > 0 then
    { st with
      breakingOffsets := writeAt st.breakingOffsets st.breakingOffsetsCount
        (prevBreakingOffsets.getD (prevBreakingOffsets.length - 1) 0)
      breakingOffsetsVisibleColumn := writeAt st.breakingOffsetsVisibleColumn st.breakingOffsetsCount
        (prevBreakingOffsetsVisibleColumn.getD (prevBreakingOffsets.length - 1) 0)
      breakingOffsetsCount := st.breakingOffsetsCount + 1 }
  else st

def rightOf (st : RewrapState) (start : Nat × ℚ) : Option FoundBreaks :=
  if start.2 ≤ st.breakingColumn then
    searchRight settings wrappedLineBreakColumn st.breakingColumn st.lastBreakingOffset start.1
      (lineText.drop start.1)
      ⟨start.2, if start.1 = 0 then .none else settings.classifier.get lineText[start.1 - 1]?, 0, 0⟩
  else some ⟨0, 0, 0, 0⟩

def leftOf (st : RewrapState) (start : Nat × ℚ) (found : FoundBreaks) : FoundBreaks × Bool :=
  searchLeft settings lineText wrappedLineBreakColumn st.breakingColumn st.lastBreakingOffset
      start.1 false
    ⟨start.2, lineText[start.1]?, settings.classifier.get lineText[start.1]?, found.forcedBreakOffset,
      found.forcedBreakOffsetVisibleColumn⟩

/-- A round of the loop; the second component says whether it goes on. -/
def rewrapRound (st : RewrapState) : RewrapState × Bool :=
  let start := startOfSearch prevBreakingOffsets prevBreakingOffsetsVisibleColumn st
  match rightOf settings lineText wrappedLineBreakColumn st start with
  | none => (pushRest prevBreakingOffsets prevBreakingOffsetsVisibleColumn st, false)
  | some found =>
    let (found, hitATabCharacter) := if found.breakOffset = 0 then
      let (found, hitATabCharacter) := leftOf settings lineText wrappedLineBreakColumn st start
          found
      (dropNeedless settings lineText wrappedLineBreakColumn found, hitATabCharacter)
      else (found, false)
    if hitATabCharacter then ({ st with prevIndex := st.prevIndex - 1 }, true)
    else (pushBreak wrappedLineBreakColumn prevBreakingOffsetsVisibleColumn st
      (breakTaken settings lineText st found), true)

def rewrapLoop : Nat → RewrapState → Option RewrapState
  | 0, _ => none
  | fuel + 1, st =>
    if st.prevIndex < prevBreakingOffsets.length then
      match rewrapRound settings lineText wrappedLineBreakColumn prevBreakingOffsets
          prevBreakingOffsetsVisibleColumn st with
      | (st, true) => rewrapLoop fuel st
      | (st, false) => some st
    else some st

end Rewrap

/-- The two arrays that are written to, which the data gives its own ones for. -/
structure ArrPools where
  arrPool1 : List Nat
  arrPool2 : List ℚ

def createLineBreaksFromPreviousLineBreaks (fuel : Nat) (settings : WrapSettings) (pools : ArrPools)
    (previousBreakingData : ModelLineProjectionData) (lineText : JsString)
    (firstLineBreakColumn : Int) : Option (Option ModelLineProjectionData × ArrPools) :=
  if firstLineBreakColumn = -1 ∨ lineText.length ≤ 1 then some (none, pools)
  else
    let prevBreakingOffsets := previousBreakingData.breakOffsets
    let prevBreakingOffsetsVisibleColumn := previousBreakingData.breakOffsetsVisibleColumn
    let wrappedTextIndentLength := computeWrappedTextIndentLength settings lineText
        firstLineBreakColumn
    let wrappedLineBreakColumn := firstLineBreakColumn - wrappedTextIndentLength
    let prevIndex := closest prevBreakingOffsetsVisibleColumn firstLineBreakColumn 0
    match rewrapLoop settings lineText wrappedLineBreakColumn prevBreakingOffsets
        prevBreakingOffsetsVisibleColumn fuel
        ⟨prevIndex, pools.arrPool1, pools.arrPool2, 0, 0, 0, firstLineBreakColumn⟩ with
    | none => none
    | some st =>
      if st.breakingOffsetsCount = 0 then
        some (none, ⟨st.breakingOffsets, st.breakingOffsetsVisibleColumn⟩)
      else
        some (some { previousBreakingData with
          breakOffsets := st.breakingOffsets.take st.breakingOffsetsCount
          breakOffsetsVisibleColumn := st.breakingOffsetsVisibleColumn.take st.breakingOffsetsCount
          wrappedTextIndentLength := wrappedTextIndentLength },
          ⟨prevBreakingOffsets, prevBreakingOffsetsVisibleColumn⟩)

end Gavea.LineBreaks
