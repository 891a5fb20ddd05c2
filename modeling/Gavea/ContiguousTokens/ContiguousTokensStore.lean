import Gavea.Lib.Runs

namespace Gavea.ContiguousTokens

structure Token where
  endOffset : Nat
  metadata : UInt32
deriving DecidableEq

/-- What is stored for a line: nothing, `EMPTY_LINE_TOKENS`, or the tokens. -/
inductive RawTokens
  | null
  | empty
  | array (tokens : List Token)
deriving DecidableEq

def Token.shift (t : Token) (delta : Int) : Token := { t with endOffset := (t.endOffset + delta).toNat }

def endOffsetAt (tokens : List Token) (index : Nat) : Nat := (tokens[index]?.map Token.endOffset).getD 0

def lastEndOffset (tokens : List Token) : Nat := endOffsetAt tokens (tokens.length - 1)

def findIndexLoop (tokens : List Token) (desiredIndex low high : Nat) : Nat :=
  if low < high then
    let mid := low + (high - low) / 2
    let endOffset := endOffsetAt tokens mid
    if endOffset = desiredIndex then mid + 1
    else if endOffset < desiredIndex then findIndexLoop tokens desiredIndex (mid + 1) high
    else findIndexLoop tokens desiredIndex low mid
  else low
termination_by high - low

def findIndexInTokensArray (tokens : List Token) (desiredIndex : Nat) : Nat :=
  if tokens.length ≤ 1 then 0 else findIndexLoop tokens desiredIndex 0 (tokens.length - 1)

namespace ContiguousTokensEditing

def trimLoop (delta : Int) : Int → List Token → List Token
  | _, [] => []
  | lastEnd, t :: rest =>
    let tokenEndOffset := (t.endOffset : Int) - delta
    if tokenEndOffset > lastEnd then
      { t with endOffset := tokenEndOffset.toNat } :: trimLoop delta tokenEndOffset rest
    else trimLoop delta lastEnd rest

def delete (lineTokens : RawTokens) (fromChIndex toChIndex : Nat) : RawTokens :=
  match lineTokens with
  | .null => .null
  | .empty => .empty
  | .array tokens =>
    if fromChIndex = toChIndex then .array tokens
    else if fromChIndex = 0 ∧ lastEndOffset tokens = toChIndex then .empty
    else
      let index := findIndexInTokensArray tokens fromChIndex
      let fromTokenStartOffset := if index > 0 then endOffsetAt tokens (index - 1) else 0
      let fromTokenEndOffset := endOffsetAt tokens index
      let delta : Int := toChIndex - fromChIndex
      if toChIndex < fromTokenEndOffset then
        .array (tokens.take index ++ (tokens.drop index).map (Token.shift · (-delta)))
      else
        match tokens.drop index with
        | [] => .array tokens
        | fromToken :: rest =>
          if fromTokenStartOffset ≠ fromChIndex then
            .array (tokens.take index ++ { fromToken with endOffset := fromChIndex } :: trimLoop delta fromChIndex rest)
          else .array (tokens.take index ++ trimLoop delta fromTokenStartOffset rest)

def deleteBeginning (lineTokens : RawTokens) (toChIndex : Nat) : RawTokens :=
  match lineTokens with
  | .null => .null
  | .empty => .empty
  | .array tokens => delete (.array tokens) 0 toChIndex

def deleteEnding (lineTokens : RawTokens) (fromChIndex : Nat) : RawTokens :=
  match lineTokens with
  | .null => .null
  | .empty => .empty
  | .array tokens => delete (.array tokens) fromChIndex (lastEndOffset tokens)

def append (lineTokens otherTokens : RawTokens) : RawTokens :=
  match lineTokens, otherTokens with
  | lineTokens, .empty => lineTokens
  | .empty, otherTokens => otherTokens
  | .null, _ => .null
  | _, .null => .null
  | .array myTokens, .array otherTokens => .array (myTokens ++ otherTokens.map (Token.shift · (lastEndOffset myTokens)))

def insert (lineTokens : RawTokens) (chIndex textLength : Nat) : RawTokens :=
  match lineTokens with
  | .null => .null
  | .empty => .empty
  | .array tokens =>
    let index := findIndexInTokensArray tokens chIndex
    let index := if index > 0 ∧ endOffsetAt tokens (index - 1) = chIndex then index - 1 else index
    .array (tokens.take index ++ (tokens.drop index).map (Token.shift · textLength))

end ContiguousTokensEditing

open ContiguousTokensEditing

def LANGUAGEID_MASK : UInt32 := 0xff

def FOREGROUND_OFFSET : UInt32 := 15

def BACKGROUND_OFFSET : UInt32 := 24

def BALANCED_BRACKETS_MASK : UInt32 := 0x400

def getLanguageId (metadata : UInt32) : UInt32 := metadata &&& LANGUAGEID_MASK

def getDefaultMetadata (topLevelLanguageId : UInt32) : UInt32 :=
  topLevelLanguageId ||| (1 <<< FOREGROUND_OFFSET) ||| (2 <<< BACKGROUND_OFFSET) ||| BALANCED_BRACKETS_MASK

def setLastEndOffset (lineTextLength : Nat) : List Token → List Token
  | [] => []
  | [t] => [{ t with endOffset := lineTextLength }]
  | t :: t' :: rest => t :: setLastEndOffset lineTextLength (t' :: rest)

def massageTokens (topLevelLanguageId : UInt32) (lineTextLength : Nat)
    (tokens : Option (List Token)) : RawTokens :=
  let hasDifferentLanguageId :=
    match tokens with
    | some (t :: _) => getLanguageId t.metadata != topLevelLanguageId
    | _ => false
  if lineTextLength = 0 ∧ hasDifferentLanguageId = false then .empty
  else
    match tokens with
    | none | some [] => .array [⟨lineTextLength, getDefaultMetadata topLevelLanguageId⟩]
    | some tokens => .array (setLastEndOffset lineTextLength tokens)

structure IRange where
  startLineNumber : Nat
  startColumn : Nat
  endLineNumber : Nat
  endColumn : Nat

structure ContiguousTokensStore where
  lineTokens : List RawTokens
deriving DecidableEq

namespace ContiguousTokensStore

def new : ContiguousTokensStore := ⟨[]⟩

def len (s : ContiguousTokensStore) : Nat := s.lineTokens.length

def tokensAt (s : ContiguousTokensStore) (lineIndex : Nat) : RawTokens := s.lineTokens.getD lineIndex .null

def setLine (s : ContiguousTokensStore) (lineIndex : Nat) (tokens : RawTokens) :
    ContiguousTokensStore :=
  ⟨s.lineTokens.set lineIndex tokens⟩

def ensureLine (s : ContiguousTokensStore) (lineIndex : Nat) : ContiguousTokensStore :=
  ⟨s.lineTokens ++ List.replicate (lineIndex + 1 - s.len) .null⟩

def deleteLines (s : ContiguousTokensStore) (start deleteCount : Nat) : ContiguousTokensStore :=
  if deleteCount = 0 then s
  else
    let deleteCount := if start + deleteCount > s.len then s.len - start else deleteCount
    ⟨s.lineTokens.take start ++ s.lineTokens.drop (start + deleteCount)⟩

def insertLines (s : ContiguousTokensStore) (insertIndex insertCount : Nat) :
    ContiguousTokensStore :=
  if insertCount = 0 then s
  else
    ⟨s.lineTokens.take insertIndex ++ List.replicate insertCount .null ++ s.lineTokens.drop insertIndex⟩

def equals : RawTokens → RawTokens → Bool
  | .null, .null => true
  | .empty, .empty => true
  | .array a, .array b => a = b
  | .empty, .array a | .array a, .empty => a = []
  | _, _ => false

def setTokens (s : ContiguousTokensStore) (topLevelLanguageId : UInt32)
    (lineIndex lineTextLength : Nat) (tokens : Option (List Token)) (checkEquality : Bool) :
    ContiguousTokensStore × Bool :=
  let tokens := massageTokens topLevelLanguageId lineTextLength tokens
  let s := s.ensureLine lineIndex
  let oldTokens := s.tokensAt lineIndex
  let s := s.setLine lineIndex tokens
  (s, if checkEquality then !equals oldTokens tokens else false)

def acceptDeleteRange (s : ContiguousTokensStore) (range : IRange) : ContiguousTokensStore :=
  let firstLineIndex := range.startLineNumber - 1
  if firstLineIndex ≥ s.len then s
  else if range.startLineNumber = range.endLineNumber then
    if range.startColumn = range.endColumn then s
    else
      s.setLine firstLineIndex (delete (s.tokensAt firstLineIndex) (range.startColumn - 1) (range.endColumn - 1))
  else
    let s := s.setLine firstLineIndex
      (deleteEnding (s.tokensAt firstLineIndex) (range.startColumn - 1))
    let lastLineIndex := range.endLineNumber - 1
    let lastLineTokens :=
      if lastLineIndex < s.len then deleteBeginning (s.tokensAt lastLineIndex) (range.endColumn - 1)
      else .null
    let s := s.setLine firstLineIndex (append (s.tokensAt firstLineIndex) lastLineTokens)
    s.deleteLines range.startLineNumber (range.endLineNumber - range.startLineNumber)

def acceptInsertText (s : ContiguousTokensStore) (lineNumber column eolCount firstLineLength : Nat) :
    ContiguousTokensStore :=
  if eolCount = 0 ∧ firstLineLength = 0 then s
  else
    let lineIndex := lineNumber - 1
    if lineIndex ≥ s.len then s
    else if eolCount = 0 then
      s.setLine lineIndex (insert (s.tokensAt lineIndex) (column - 1) firstLineLength)
    else
      let s := s.setLine lineIndex (deleteEnding (s.tokensAt lineIndex) (column - 1))
      let s := s.setLine lineIndex (insert (s.tokensAt lineIndex) (column - 1) firstLineLength)
      s.insertLines lineNumber eolCount

def acceptEdit (s : ContiguousTokensStore) (range : IRange) (eolCount firstLineLength : Nat) :
    ContiguousTokensStore :=
  (s.acceptDeleteRange range).acceptInsertText range.startLineNumber range.startColumn eolCount firstLineLength

end ContiguousTokensStore

abbrev Document := List Nat

def lineLength (document : Document) (lineIndex : Nat) : Nat := document.getD lineIndex 0

def ValidRange (document : Document) (range : IRange) : Prop :=
  0 < range.startLineNumber ∧ range.startLineNumber ≤ range.endLineNumber ∧
    range.endLineNumber ≤ document.length ∧ 0 < range.startColumn ∧ 0 < range.endColumn ∧
    range.startColumn - 1 ≤ lineLength document (range.startLineNumber - 1) ∧
    range.endColumn - 1 ≤ lineLength document (range.endLineNumber - 1) ∧
    (range.startLineNumber = range.endLineNumber → range.startColumn ≤ range.endColumn)

instance (document : Document) (range : IRange) : Decidable (ValidRange document range) :=
  inferInstanceAs (Decidable (_ ∧ _))

/-- The inserted lines behind the first one, with the rest of the range's last line. -/
def closeLines (after : Nat) : List Nat → List Nat
  | [] => []
  | [line] => [line + after]
  | line :: line' :: lines => line :: closeLines after (line' :: lines)

def editedLines (before after firstLineLength : Nat) (otherLines : List Nat) : List Nat :=
  if otherLines = [] then [before + firstLineLength + after]
  else (before + firstLineLength) :: closeLines after otherLines

def editDocument (document : Document) (range : IRange) (firstLineLength : Nat)
    (otherLines : List Nat) : Document :=
  document.take (range.startLineNumber - 1) ++
    editedLines (range.startColumn - 1)
      (lineLength document (range.endLineNumber - 1) - (range.endColumn - 1)) firstLineLength otherLines ++
    document.drop range.endLineNumber

def SortedTokens (lineTextLength : Nat) (tokens : List Token) : Prop :=
  tokens.Pairwise (·.endOffset < ·.endOffset) ∧ ∀ t ∈ tokens.dropLast, t.endOffset < lineTextLength

instance (lineTextLength : Nat) (tokens : List Token) : Decidable (SortedTokens lineTextLength tokens) :=
  inferInstanceAs (Decidable (_ ∧ _))

structure TokenizedDocument where
  document : Document
  store : ContiguousTokensStore
deriving DecidableEq

inductive Call
  | setTokens (topLevelLanguageId : UInt32) (lineIndex : Nat) (tokens : Option (List Token)) (checkEquality : Bool)
  | acceptEdit (range : IRange) (firstLineLength : Nat) (otherLines : List Nat)

def step (s : TokenizedDocument) : Call → Option TokenizedDocument
  | .setTokens topLevelLanguageId lineIndex tokens checkEquality =>
    if lineIndex < s.document.length ∧
        SortedTokens (lineLength s.document lineIndex) (tokens.getD []) then
      some { s with
        store := (s.store.setTokens topLevelLanguageId lineIndex (lineLength s.document lineIndex)
          tokens checkEquality).1 }
    else none
  | .acceptEdit range firstLineLength otherLines =>
    if ValidRange s.document range then
      some ⟨editDocument s.document range firstLineLength otherLines,
        s.store.acceptEdit range otherLines.length firstLineLength⟩
    else none

/-- What is left of the first line and of the last line fits together: no `EMPTY_LINE_TOKENS` of
text meets an array within one line, and no array follows that starts with a token of length 0. -/
def JoinsSafely (firstTokens lastTokens : RawTokens) (before firstLength toChIndex lastLength : Nat)
    (eolCount : Nat) : Prop :=
  match firstTokens, lastTokens with
  | .array _, .array tokens =>
    0 < before ∨ firstLength = 0 → toChIndex < lastLength ∨ lastLength = 0 → 0 < endOffsetAt tokens 0
  | .empty, .array _ => eolCount = 0 → toChIndex < lastLength ∨ lastLength = 0 → before = 0
  | .array _, .empty => eolCount = 0 → 0 < before ∨ firstLength = 0 → toChIndex = lastLength
  | _, _ => True

instance (before firstLength toChIndex lastLength eolCount : Nat) :
    (firstTokens lastTokens : RawTokens) →
      Decidable (JoinsSafely firstTokens lastTokens before firstLength toChIndex lastLength eolCount)
  | .array _, .array _ | .empty, .array _ | .array _, .empty => inferInstanceAs (Decidable (_ → _ → _))
  | .null, _ => inferInstanceAs (Decidable True)
  | .empty, .null | .empty, .empty | .array _, .null => inferInstanceAs (Decidable True)

def CallJoinsSafely (s : TokenizedDocument) : Call → Prop
  | .setTokens _ _ _ _ => True
  | .acceptEdit range _ otherLines =>
    range.startLineNumber < range.endLineNumber →
      JoinsSafely (s.store.tokensAt (range.startLineNumber - 1))
        (s.store.tokensAt (range.endLineNumber - 1)) (range.startColumn - 1)
        (lineLength s.document (range.startLineNumber - 1)) (range.endColumn - 1)
        (lineLength s.document (range.endLineNumber - 1)) otherLines.length

instance (s : TokenizedDocument) : (call : Call) → Decidable (CallJoinsSafely s call)
  | .setTokens _ _ _ _ => inferInstanceAs (Decidable True)
  | .acceptEdit _ _ _ => inferInstanceAs (Decidable (_ → _))

open List

def Increasing : Int → List Token → Prop
  | _, [] => True
  | bound, t :: rest => bound < t.endOffset ∧ Increasing t.endOffset rest

def endOf : Int → List Token → Int
  | bound, [] => bound
  | _, t :: rest => endOf t.endOffset rest

variable {bound bound' x : Int} {ts ts' pre post : List Token} {t : Token} {L : Nat}

@[simp] theorem endOf_nil : endOf bound [] = bound := rfl

@[simp] theorem endOf_cons : endOf bound (t :: ts) = endOf t.endOffset ts := rfl

theorem endOf_append : endOf bound (ts ++ ts') = endOf (endOf bound ts) ts' := by
  induction ts generalizing bound with
  | nil => rfl
  | cons t ts ih => exact ih

theorem endOf_of_ne_nil (h : ts ≠ []) (bound bound' : Int) : endOf bound ts = endOf bound' ts := by
  cases ts with
  | nil => exact absurd rfl h
  | cons t ts => rfl

theorem increasing_append :
    Increasing bound (ts ++ ts') ↔ Increasing bound ts ∧ Increasing (endOf bound ts) ts' := by
  induction ts generalizing bound with
  | nil => simp [Increasing]
  | cons t ts ih => simp only [cons_append, Increasing, ih, endOf_cons, and_assoc]

theorem Increasing.le_endOf (h : Increasing bound ts) : bound ≤ endOf bound ts := by
  induction ts generalizing bound with
  | nil => exact le_refl _
  | cons t ts ih => exact h.1.le.trans (ih h.2)

theorem Increasing.mono (h : Increasing bound ts) (hle : bound' ≤ bound) : Increasing bound' ts := by
  cases ts with
  | nil => trivial
  | cons t ts => exact ⟨hle.trans_lt h.1, h.2⟩

theorem endOffset_shift (t : Token) {delta : Int} (h : 0 ≤ t.endOffset + delta) :
    ((t.shift delta).endOffset : Int) = t.endOffset + delta :=
  Int.toNat_of_nonneg h

theorem Increasing.shift (h : Increasing bound ts) {delta : Int} (hdelta : -1 ≤ bound + delta) :
    Increasing (bound + delta) (ts.map (Token.shift · delta)) ∧
      endOf (bound + delta) (ts.map (Token.shift · delta)) = endOf bound ts + delta := by
  induction ts generalizing bound with
  | nil => exact ⟨trivial, rfl⟩
  | cons t ts ih =>
    have hbound := h.1
    have hend := endOffset_shift t (show 0 ≤ (t.endOffset : Int) + delta by omega)
    obtain ⟨hrest, hlast⟩ := ih h.2 (by omega)
    rw [map_cons, Increasing, endOf_cons, endOf_cons, hend]
    exact ⟨⟨by omega, hrest⟩, hlast⟩

structure Covers (ts : List Token) (L : Nat) : Prop where
  increasing : Increasing (-1) ts
  last : endOf (-1) ts = L

theorem endOffsetAt_append (pre : List Token) (t : Token) (post : List Token) :
    endOffsetAt (pre ++ t :: post) pre.length = t.endOffset := by
  rw [endOffsetAt, getElem?_append_right (le_refl _), Nat.sub_self]
  rfl

theorem lastEndOffset_eq (hne : ts ≠ []) (bound : Int) : (lastEndOffset ts : Int) = endOf bound ts := by
  obtain ⟨pre, t, rfl⟩ := eq_nil_or_concat ts |>.resolve_left hne
  rw [concat_eq_append, lastEndOffset, length_append, length_singleton,
    Nat.add_sub_cancel, endOffsetAt_append, endOf_append]
  rfl

theorem Covers.ne_nil (h : Covers ts L) : ts ≠ [] := by
  rintro rfl
  exact nomatch (h.last : (-1 : Int) = L)

theorem Covers.lastEndOffset (h : Covers ts L) : lastEndOffset ts = L := by
  have heq := lastEndOffset_eq h.ne_nil (-1)
  rw [h.last] at heq
  exact_mod_cast heq

theorem startOffset_eq (pre : List Token) (rest : List Token) :
    ((if pre.length > 0 then endOffsetAt (pre ++ rest) (pre.length - 1) else 0 : Nat) : Int) =
      endOf 0 pre := by
  rcases eq_nil_or_concat pre with rfl | ⟨init, t, rfl⟩
  · rfl
  · rw [concat_eq_append, length_append, length_singleton, if_pos (Nat.succ_pos _),
      Nat.add_sub_cancel, append_assoc, singleton_append, endOffsetAt_append, endOf_append]
    rfl

theorem endOffsetAt_lt (h : Increasing bound ts) {i j : Nat} (hij : i < j) (hj : j < ts.length) :
    endOffsetAt ts i < endOffsetAt ts j := by
  induction ts generalizing bound i j with
  | nil => exact absurd hj (Nat.not_lt_zero j)
  | cons t ts ih =>
    obtain ⟨j, rfl⟩ : ∃ k, j = k + 1 := ⟨j - 1, by omega⟩
    rw [length_cons] at hj
    have hstep (k : Nat) : endOffsetAt (t :: ts) (k + 1) = endOffsetAt ts k := rfl
    rw [hstep]
    cases i with
    | zero =>
      have hfirst : t.endOffset < endOffsetAt ts 0 := by
        cases ts with
        | nil => exact absurd hj (by simp)
        | cons t' ts => exact_mod_cast h.2.1
      cases j with
      | zero => exact hfirst
      | succ j => exact hfirst.trans (ih h.2 (Nat.succ_pos j) (by omega))
    | succ i =>
      rw [hstep]
      exact ih h.2 (by omega) (by omega)

theorem findIndexLoop_spec (h : Increasing bound ts) (desired : Nat) (k : Nat) :
    ∀ low high : Nat, high - low ≤ k → low ≤ high → high < ts.length →
      (∀ j < low, endOffsetAt ts j ≤ desired) →
      (high + 1 = ts.length ∨ desired < endOffsetAt ts high) →
      findIndexLoop ts desired low high < ts.length ∧
        (∀ j < findIndexLoop ts desired low high, endOffsetAt ts j ≤ desired) ∧
        (findIndexLoop ts desired low high + 1 = ts.length ∨
          desired < endOffsetAt ts (findIndexLoop ts desired low high)) := by
  induction k with
  | zero =>
    intro low high hk hle hhigh hlow hstop
    obtain rfl : low = high := by omega
    rw [findIndexLoop, if_neg (lt_irrefl low)]
    exact ⟨hhigh, hlow, hstop⟩
  | succ k ih =>
    intro low high hk hle hhigh hlow hstop
    rw [findIndexLoop]
    split_ifs with hlt
    · obtain ⟨mid, hmid⟩ : ∃ mid, mid = low + (high - low) / 2 := ⟨_, rfl⟩
      rw [← hmid]
      dsimp only
      have hnext := endOffsetAt_lt h (Nat.lt_add_one mid) (by omega)
      have hbefore (hmidle : endOffsetAt ts mid ≤ desired) :
          ∀ j < mid + 1, endOffsetAt ts j ≤ desired := by
        intro j hj
        rcases Nat.lt_or_eq_of_le (Nat.le_of_lt_succ hj) with hjm | rfl
        · exact (endOffsetAt_lt h hjm (by omega)).le.trans hmidle
        · exact hmidle
      split_ifs with heq hless
      · exact ⟨by omega, hbefore heq.le, Or.inr (heq ▸ hnext)⟩
      · exact ih (mid + 1) high (by omega) (by omega) hhigh (hbefore hless.le) hstop
      · exact ih low mid (by omega) (by omega) (by omega) hlow (Or.inr (by omega))
    · obtain rfl : low = high := by omega
      exact ⟨hhigh, hlow, hstop⟩

theorem endOf_le_of_forall (hbound : bound ≤ x) (h : ∀ j < ts.length, (endOffsetAt ts j : Int) ≤ x) :
    endOf bound ts ≤ x := by
  rcases eq_nil_or_concat ts with rfl | ⟨init, t, rfl⟩
  · exact hbound
  · rw [concat_eq_append] at *
    have hlast := h init.length (by simp)
    rw [endOffsetAt_append] at hlast
    rw [endOf_append]
    exact hlast

theorem findIndex_spec (h : Increasing (-1) ts) (hne : ts ≠ []) (desired : Nat) :
    ∃ pre t post, ts = pre ++ t :: post ∧ findIndexInTokensArray ts desired = pre.length ∧
      endOf 0 pre ≤ desired ∧ (post = [] ∨ desired < t.endOffset) := by
  have hpos := length_pos_of_ne_nil hne
  have hfound : ∃ index, findIndexInTokensArray ts desired = index ∧ index < ts.length ∧
      (∀ j < index, endOffsetAt ts j ≤ desired) ∧
      (index + 1 = ts.length ∨ desired < endOffsetAt ts index) := by
    refine ⟨_, rfl, ?_⟩
    rw [findIndexInTokensArray]
    split_ifs with hone
    · exact ⟨hpos, fun j hj => absurd hj (Nat.not_lt_zero j), Or.inl (by omega)⟩
    · exact findIndexLoop_spec h desired _ 0 (ts.length - 1) (le_refl _) (by omega) (by omega)
        (fun j hj => absurd hj (Nat.not_lt_zero j)) (Or.inl (by omega))
  obtain ⟨index, hindex, hlt, hbefore, hstop⟩ := hfound
  have hsplit : ts = ts.take index ++ ts[index] :: ts.drop (index + 1) := by
    rw [getElem_cons_drop, take_append_drop]
  have hlength : (ts.take index).length = index := length_take_of_le hlt.le
  refine ⟨ts.take index, ts[index], ts.drop (index + 1), hsplit, by rw [hindex, hlength], ?_, ?_⟩
  · refine endOf_le_of_forall (by omega) fun j hj => ?_
    rw [hlength] at hj
    have hget : endOffsetAt (ts.take index) j = endOffsetAt ts j := by
      rw [endOffsetAt, getElem?_take_of_lt hj, endOffsetAt]
    rw [hget]
    exact_mod_cast hbefore j hj
  · rcases hstop with hend | hless
    · exact Or.inl (drop_eq_nil_of_le (by omega))
    · right
      rwa [endOffsetAt, getElem?_eq_getElem hlt] at hless

open ContiguousTokensEditing

variable {bound : Int} {ts ts' pre post : List Token} {t : Token} {L : Nat}

theorem endOf_le_endOf {bound' : Int} (ts : List Token) (h : bound ≤ bound') :
    endOf bound ts ≤ endOf bound' ts := by
  cases ts with
  | nil => exact h
  | cons t ts => exact le_refl _

theorem endOf_of_covers (h : Covers ts L) (bound : Int) : endOf bound ts = L :=
  (endOf_of_ne_nil h.ne_nil bound (-1)).trans h.last

theorem trimLoop_spec (h : Increasing bound ts) {delta lastEnd : Int} (hlast : -1 ≤ lastEnd) :
    Increasing lastEnd (trimLoop delta lastEnd ts) ∧
      endOf lastEnd (trimLoop delta lastEnd ts) =
        max lastEnd (endOf (lastEnd + delta) ts - delta) := by
  induction ts generalizing bound lastEnd with
  | nil =>
    refine ⟨trivial, ?_⟩
    rw [trimLoop, endOf_nil, endOf_nil]
    omega
  | cons t ts ih =>
    have hrest := h.2.le_endOf
    rw [trimLoop, endOf_cons]
    split_ifs with hkept
    · obtain ⟨hincreasing, hend⟩ := ih h.2 (by omega : -1 ≤ (t.endOffset : Int) - delta)
      have hnat : (((t.endOffset : Int) - delta).toNat : Int) = t.endOffset - delta := Int.toNat_of_nonneg (by omega)
      rw [Increasing, endOf_cons]
      dsimp only
      rw [hnat]
      refine ⟨⟨hkept, hincreasing⟩, ?_⟩
      rw [hend, sub_add_cancel]
      omega
    · obtain ⟨hincreasing, hend⟩ := ih h.2 hlast
      refine ⟨hincreasing, ?_⟩
      rw [hend]
      cases ts with
      | nil =>
        rw [endOf_nil, endOf_nil]
        omega
      | cons t' ts => rfl

theorem delete_spec (h : Covers ts L) {fromChIndex toChIndex : Nat} (hlt : fromChIndex < toChIndex)
    (hle : toChIndex ≤ L) (hbound : Increasing bound ts) (hbound_le : bound ≤ 0) :
    delete (.array ts) fromChIndex toChIndex = .empty ∧ fromChIndex = 0 ∧ toChIndex = L ∨
      ∃ ts', delete (.array ts) fromChIndex toChIndex = .array ts' ∧ Increasing bound ts' ∧
        endOf (-1) ts' = (L - (toChIndex - fromChIndex) : Nat) := by
  rw [delete]
  dsimp only
  rw [if_neg hlt.ne, h.lastEndOffset]
  by_cases hall : fromChIndex = 0 ∧ L = toChIndex
  · rw [if_pos hall]
    exact Or.inl ⟨rfl, hall.1, hall.2.symm⟩
  · rw [if_neg hall]
    right
    obtain ⟨pre, t, post, rfl, hindex, hpre, hpost⟩ := findIndex_spec h.increasing h.ne_nil fromChIndex
    have hstart := startOffset_eq pre (t :: post)
    rw [hindex, take_left, drop_left, endOffsetAt_append]
    have hincreasing := increasing_append.mp hbound
    have hlast := h.last
    rw [endOf_append, endOf_cons] at hlast
    have hpost_le := hincreasing.2.2.le_endOf
    have hpre_le := endOf_le_endOf pre hbound_le
    have hinside : fromChIndex < t.endOffset := by
      rcases hpost with rfl | hlt'
      · rw [endOf_nil] at hlast
        omega
      · exact hlt'
    by_cases hone : toChIndex < t.endOffset
    · rw [if_pos hone]
      have hmoved : Increasing (toChIndex : Int) (t :: post) := ⟨by exact_mod_cast hone, hincreasing.2.2⟩
      have hdelta : -1 ≤ (toChIndex : Int) + -((toChIndex : Int) - fromChIndex) := by omega
      obtain ⟨hshift, hend⟩ := hmoved.shift hdelta
      refine ⟨_, rfl, increasing_append.mpr ⟨hincreasing.1, hshift.mono (by omega)⟩, ?_⟩
      rw [endOf_append, endOf_of_ne_nil (by simp) _ ((toChIndex : Int) + -(toChIndex - fromChIndex)),
        hend, endOf_cons, hlast]
      omega
    · rw [if_neg hone]
      dsimp only
      generalize hstartOffset : (if pre.length > 0 then
        endOffsetAt (pre ++ t :: post) (pre.length - 1) else 0) = start at hstart ⊢
      have hlastBound : endOf (fromChIndex : Int) post =
          if post = [] then (fromChIndex : Int) else (L : Int) := by
        split_ifs with hnil
        · rw [hnil, endOf_nil]
        · rw [endOf_of_ne_nil hnil _ t.endOffset, hlast]
      have htrim (lastEnd : Int) (hlastEnd : lastEnd = fromChIndex) :
          endOf lastEnd (trimLoop (toChIndex - fromChIndex) lastEnd post) =
            (L - (toChIndex - fromChIndex) : Nat) := by
        rw [(trimLoop_spec hincreasing.2.2 (by omega)).2, hlastEnd]
        cases post with
        | nil =>
          rw [endOf_nil] at hlast ⊢
          omega
        | cons t' post =>
          rw [endOf_cons] at hlast ⊢
          rw [hlast]
          omega
      by_cases hmiddle : start ≠ fromChIndex
      · rw [if_pos hmiddle]
        refine ⟨_, rfl, increasing_append.mpr ⟨hincreasing.1, ?_, ?_⟩, ?_⟩
        · dsimp only
          omega
        · exact (trimLoop_spec hincreasing.2.2 (by omega)).1
        · rw [endOf_append, endOf_cons]
          exact htrim fromChIndex rfl
      · rw [if_neg hmiddle]
        have hsame : (start : Int) = fromChIndex := by omega
        have hends := htrim start hsame
        refine ⟨_, rfl, increasing_append.mpr ⟨hincreasing.1, ?_⟩, ?_⟩
        · exact (trimLoop_spec hincreasing.2.2 (by omega)).1.mono (by omega)
        · rw [endOf_append, ← hends]
          cases pre with
          | cons s pre => rw [endOf_cons, hstart, endOf_cons]
          | nil =>
            rw [endOf_nil] at hstart ⊢
            refine endOf_of_ne_nil (fun hnil => ?_) _ _
            rw [hnil, endOf_nil] at hends
            omega

theorem deleteEnding_spec (h : Increasing (-1) ts) (hne : ts ≠ []) (fromChIndex : Nat) :
    deleteEnding (.array ts) fromChIndex = .empty ∧ fromChIndex = 0 ∨
      ∃ ts', deleteEnding (.array ts) fromChIndex = .array ts' ∧ Covers ts' fromChIndex := by
  have hcovers : Covers ts (lastEndOffset ts) := ⟨h, (lastEndOffset_eq hne (-1)).symm⟩
  rw [deleteEnding]
  generalize hlastEnd : lastEndOffset ts = L at hcovers ⊢
  rcases Nat.lt_trichotomy fromChIndex L with hlt | rfl | hgt
  · rcases delete_spec hcovers hlt (le_refl L) h (by decide) with
      ⟨heq, hzero, -⟩ | ⟨ts', heq, hincreasing, hend⟩
    · exact Or.inl ⟨heq, hzero⟩
    · right
      rw [Nat.sub_sub_self hlt.le] at hend
      exact ⟨ts', heq, hincreasing, hend⟩
  · right
    refine ⟨ts, ?_, hcovers⟩
    rw [delete]
    exact if_pos rfl
  · right
    obtain ⟨pre, t, post, rfl, hindex, hpre, hpost⟩ := findIndex_spec h hne fromChIndex
    have hincreasing := increasing_append.mp h
    have hlast := hcovers.last
    rw [endOf_append, endOf_cons] at hlast
    have hpost_le := hincreasing.2.2.le_endOf
    obtain rfl : post = [] := hpost.resolve_right (by omega)
    rw [endOf_nil] at hlast
    have hstart := startOffset_eq pre [t]
    have hpre_lt := hincreasing.2.1
    rw [delete]
    dsimp only
    rw [if_neg hgt.ne', if_neg (by omega), hindex, take_left, drop_left, endOffsetAt_append, if_neg (by omega)]
    dsimp only
    have hnot : (if pre.length > 0 then endOffsetAt (pre ++ [t]) (pre.length - 1) else 0) ≠
        fromChIndex := by
      intro heq
      rw [heq] at hstart
      cases pre with
      | nil =>
        rw [endOf_nil] at hstart
        omega
      | cons s pre =>
        rw [endOf_cons] at hstart hpre_lt
        omega
    rw [if_pos hnot]
    refine ⟨_, rfl, increasing_append.mpr ⟨hincreasing.1, ?_, trivial⟩, ?_⟩
    · dsimp only
      omega
    · rw [endOf_append]
      rfl

theorem deleteBeginning_spec (h : Covers ts L) {toChIndex : Nat} (hle : toChIndex ≤ L)
    (hbound : Increasing bound ts) (hbound_le : bound ≤ 0) :
    deleteBeginning (.array ts) toChIndex = .empty ∧ toChIndex = L ∨
      ∃ ts', deleteBeginning (.array ts) toChIndex = .array ts' ∧ Increasing bound ts' ∧
        endOf (-1) ts' = (L - toChIndex : Nat) := by
  rw [deleteBeginning]
  rcases Nat.eq_zero_or_pos toChIndex with rfl | hpos
  · right
    refine ⟨ts, ?_, hbound, h.last⟩
    rw [delete]
    exact if_pos rfl
  · rcases delete_spec h hpos hle hbound hbound_le with ⟨heq, -, hall⟩ | hkept
    · exact Or.inl ⟨heq, hall⟩
    · exact Or.inr hkept

theorem deleteEnding_zero (h : Covers ts L) (hpos : 0 < L) : deleteEnding (.array ts) 0 = .empty := by
  rw [deleteEnding, delete, h.lastEndOffset, if_neg hpos.ne]
  exact if_pos ⟨rfl, rfl⟩

theorem deleteBeginning_all (h : Covers ts L) (hpos : 0 < L) :
    deleteBeginning (.array ts) L = .empty := by
  rw [deleteBeginning, delete, h.lastEndOffset, if_neg hpos.ne]
  exact if_pos ⟨rfl, rfl⟩

theorem append_spec {L' : Nat} (h : Covers ts L) (h' : Covers ts' L') (hfirst : Increasing 0 ts') :
    ∃ joined, append (.array ts) (.array ts') = .array joined ∧ Covers joined (L + L') := by
  have hdelta : -1 ≤ (0 : Int) + L := by omega
  obtain ⟨hshift, hend⟩ := hfirst.shift hdelta
  rw [zero_add] at hshift hend
  refine ⟨_, rfl, increasing_append.mpr ⟨h.increasing, ?_⟩, ?_⟩
  · rw [h.last, h.lastEndOffset]
    exact hshift
  · rw [endOf_append, h.last, h.lastEndOffset, hend, endOf_of_covers h']
    push_cast
    ring

theorem covers_shift_suffix (h : Covers (pre ++ post) L) (hne : post ≠ []) (n : Nat) :
    Covers (pre ++ post.map (Token.shift · n)) (L + n) := by
  have hincreasing := increasing_append.mp h.increasing
  have hpre := hincreasing.1.le_endOf
  have hdelta : -1 ≤ endOf (-1) pre + (n : Int) := by omega
  obtain ⟨hshift, hend⟩ := hincreasing.2.shift hdelta
  refine ⟨increasing_append.mpr ⟨hincreasing.1, hshift.mono (by omega)⟩, ?_⟩
  have hlast := h.last
  rw [endOf_append] at hlast
  rw [endOf_append, endOf_of_ne_nil (by simpa using hne) _ (endOf (-1) pre + n), hend, hlast]
  push_cast
  ring

theorem insert_spec (h : Covers ts L) (chIndex textLength : Nat) :
    ∃ ts', ContiguousTokensEditing.insert (.array ts) chIndex textLength = .array ts' ∧ Covers ts' (L + textLength) := by
  obtain ⟨pre, t, post, hts, hindex, -⟩ := findIndex_spec h.increasing h.ne_nil chIndex
  have hsuffix {index : Nat} (hlt : index < ts.length) :
      Covers (ts.take index ++ (ts.drop index).map (Token.shift · textLength)) (L + textLength) := by
    refine covers_shift_suffix ?_ (by simpa using hlt) textLength
    rwa [take_append_drop]
  have hlength : pre.length < ts.length := by
    rw [hts, length_append, length_cons]
    omega
  rw [ContiguousTokensEditing.insert]
  rw [hindex]
  split_ifs
  · exact ⟨_, rfl, hsuffix (by omega)⟩
  · exact ⟨_, rfl, hsuffix hlength⟩

end Gavea.ContiguousTokens
