import Gavea.ContiguousTokens.ContiguousTokensStore

namespace Gavea.ContiguousTokens

open ContiguousTokensEditing

def Fits : RawTokens → Nat → Prop
  | .array tokens, length => Covers tokens length
  | _, _ => True

def Consistent : List RawTokens → Document → Prop
  | [], _ => True
  | _ :: _, [] => False
  | tokens :: lineTokens, length :: document => Fits tokens length ∧ Consistent lineTokens document

variable {a b lineTokens : List RawTokens} {d d' document : Document} {tokens : RawTokens} {L : Nat}

theorem Consistent.length_le (h : Consistent lineTokens document) :
    lineTokens.length ≤ document.length := by
  induction lineTokens generalizing document with
  | nil => exact Nat.zero_le _
  | cons t ts ih =>
    cases document with
    | nil => exact h.elim
    | cons L document => exact Nat.succ_le_succ (ih h.2)

theorem Consistent.getD (h : Consistent lineTokens document) (i : Nat) :
    Fits (lineTokens.getD i .null) (lineLength document i) := by
  induction lineTokens generalizing document i with
  | nil => trivial
  | cons t ts ih =>
    cases document with
    | nil => exact h.elim
    | cons L document =>
      cases i with
      | zero => exact h.1
      | succ i => exact ih h.2 i

theorem Consistent.append_right (h : Consistent lineTokens d) (d' : Document) :
    Consistent lineTokens (d ++ d') := by
  induction lineTokens generalizing d with
  | nil => trivial
  | cons t ts ih =>
    cases d with
    | nil => exact h.elim
    | cons L d => exact ⟨h.1, ih h.2⟩

theorem Consistent.append (h : Consistent a d) (hlength : a.length = d.length)
    (h' : Consistent b d') : Consistent (a ++ b) (d ++ d') := by
  induction a generalizing d with
  | nil =>
    obtain rfl := List.length_eq_zero_iff.mp hlength.symm
    exact h'
  | cons t ts ih =>
    cases d with
    | nil => exact h.elim
    | cons L d => exact ⟨h.1, ih h.2 (Nat.succ.inj hlength)⟩

theorem Consistent.take (h : Consistent lineTokens document) (n : Nat) :
    Consistent (lineTokens.take n) (document.take n) := by
  induction n generalizing lineTokens document with
  | zero => trivial
  | succ n ih =>
    match lineTokens, document, h with
    | [], _, _ => trivial
    | t :: ts, L :: document, h => exact ⟨h.1, ih h.2⟩

theorem Consistent.drop (h : Consistent lineTokens document) (n : Nat) :
    Consistent (lineTokens.drop n) (document.drop n) := by
  induction n generalizing lineTokens document with
  | zero => exact h
  | succ n ih =>
    match lineTokens, document, h with
    | [], _, _ => trivial
    | t :: ts, L :: document, h => exact ih h.2

theorem consistent_replicate_null {n : Nat} (h : n ≤ d.length) :
    Consistent (List.replicate n .null) d := by
  induction n generalizing d with
  | zero => trivial
  | succ n ih =>
    cases d with
    | nil => exact absurd h (Nat.not_succ_le_zero n)
    | cons L d => exact ⟨trivial, ih (Nat.le_of_succ_le_succ h)⟩

theorem Consistent.splice (h : Consistent lineTokens document) {first : Nat}
    (hfirst : first < lineTokens.length) (hmiddle : Consistent a d) (hlength : a.length = d.length)
    (last : Nat) :
    Consistent (lineTokens.take first ++ a ++ lineTokens.drop last)
      (document.take first ++ d ++ document.drop last) := by
  have hle := h.length_le
  refine ((h.take first).append ?_ hmiddle).append ?_ (h.drop last)
  · rw [List.length_take_of_le hfirst.le, List.length_take_of_le (by omega)]
  · rw [List.length_append, List.length_append, List.length_take_of_le hfirst.le,
      List.length_take_of_le (by omega), hlength]

theorem Consistent.unstored (h : Consistent lineTokens document) {first : Nat}
    (hfirst : lineTokens.length ≤ first) (d : Document) :
    Consistent lineTokens (document.take first ++ d) := by
  have htake := h.take first
  rw [List.take_of_length_le hfirst] at htake
  exact htake.append_right d

def Ordered : RawTokens → Prop
  | .array tokens => Increasing (-1) tokens ∧ tokens ≠ []
  | _ => True

theorem Fits.ordered (h : Fits tokens L) : Ordered tokens := by
  cases tokens with
  | null | empty => trivial
  | array ts => exact ⟨h.increasing, h.ne_nil⟩

theorem fits_insert (h : Fits tokens L) (chIndex textLength : Nat) :
    Fits (ContiguousTokensEditing.insert tokens chIndex textLength) (L + textLength) := by
  cases tokens with
  | null | empty => trivial
  | array ts =>
    obtain ⟨ts', heq, hcovers⟩ := insert_spec h chIndex textLength
    rw [heq]
    exact hcovers

theorem fits_deleteEnding (h : Ordered tokens) (fromChIndex : Nat) :
    Fits (deleteEnding tokens fromChIndex) fromChIndex := by
  cases tokens with
  | null | empty => trivial
  | array ts =>
    rcases deleteEnding_spec h.1 h.2 fromChIndex with ⟨heq, -⟩ | ⟨ts', heq, hcovers⟩ <;> rw [heq]
    · trivial
    · exact hcovers

theorem fits_delete (h : Fits tokens L) {fromChIndex toChIndex : Nat} (hle : fromChIndex ≤ toChIndex)
    (htoChIndex : toChIndex ≤ L) :
    Fits (delete tokens fromChIndex toChIndex) (L - (toChIndex - fromChIndex)) := by
  cases tokens with
  | null | empty => trivial
  | array ts =>
    rcases hle.lt_or_eq with hlt | rfl
    · rcases delete_spec h hlt htoChIndex h.increasing (by decide) with
        ⟨heq, -⟩ | ⟨ts', heq, hincreasing, hend⟩ <;> rw [heq]
      · trivial
      · exact ⟨hincreasing, hend⟩
    · rw [delete, if_pos rfl, Nat.sub_self]
      exact h

theorem deleteEnding_cases {ts : List Token} (h : Covers ts L) (before : Nat) :
    deleteEnding (.array ts) before = .empty ∧ before = 0 ∨
      ∃ ts', deleteEnding (.array ts) before = .array ts' ∧ Covers ts' before ∧ (0 < before ∨ L = 0) := by
  rcases deleteEnding_spec h.increasing h.ne_nil before with hempty | ⟨ts', heq, hcovers⟩
  · exact Or.inl hempty
  · refine Or.inr ⟨ts', heq, hcovers, ?_⟩
    by_contra hnot
    obtain rfl : before = 0 := by omega
    rw [deleteEnding_zero h (by omega)] at heq
    exact RawTokens.noConfusion heq

theorem deleteBeginning_cases {ts : List Token} (h : Covers ts L) {toChIndex : Nat}
    (hle : toChIndex ≤ L) :
    deleteBeginning (.array ts) toChIndex = .empty ∧ toChIndex = L ∨
      ∃ ts', deleteBeginning (.array ts) toChIndex = .array ts' ∧ Covers ts' (L - toChIndex) ∧
        (toChIndex < L ∨ L = 0) ∧ (0 < endOffsetAt ts 0 → Increasing 0 ts') := by
  rcases deleteBeginning_spec h hle h.increasing (by decide) with
    hempty | ⟨ts', heq, hincreasing, hend⟩
  · exact Or.inl hempty
  · refine Or.inr ⟨ts', heq, ⟨hincreasing, hend⟩, ?_, fun hpos => ?_⟩
    · by_contra hnot
      obtain rfl : toChIndex = L := by omega
      rw [deleteBeginning_all h (by omega)] at heq
      exact RawTokens.noConfusion heq
    · have hzero : Increasing 0 ts := by
        cases ts with
        | nil => trivial
        | cons t ts => exact ⟨by exact_mod_cast hpos, h.increasing.2⟩
      rcases deleteBeginning_spec h hle hzero (le_refl 0) with
        ⟨heq', -⟩ | ⟨ts'', heq', hincreasing', -⟩
      · exact RawTokens.noConfusion (heq.symm.trans heq')
      · obtain rfl := RawTokens.array.inj (heq.symm.trans heq')
        exact hincreasing'

theorem append_fits {firstTokens lastTokens : RawTokens}
    {before firstLength toChIndex lastLength eolCount : Nat} (hfirst : Fits firstTokens firstLength)
    (hlast : Fits lastTokens lastLength) (hle : toChIndex ≤ lastLength)
    (hjoins : JoinsSafely firstTokens lastTokens before firstLength toChIndex lastLength eolCount) :
    Ordered (append (deleteEnding firstTokens before) (deleteBeginning lastTokens toChIndex)) ∧
      (eolCount = 0 →
        Fits (append (deleteEnding firstTokens before) (deleteBeginning lastTokens toChIndex))
          (before + (lastLength - toChIndex))) := by
  have hcovers {ts : List Token} {L : Nat} (h : Covers ts L)
      (hL : eolCount = 0 → L = before + (lastLength - toChIndex)) :
      Ordered (.array ts) ∧ (eolCount = 0 → Fits (.array ts) (before + (lastLength - toChIndex))) :=
    ⟨⟨h.increasing, h.ne_nil⟩, fun heol => hL heol ▸ h⟩
  have htrivial : Ordered .empty ∧ (eolCount = 0 → Fits .empty (before + (lastLength - toChIndex))) :=
    ⟨trivial, fun _ => trivial⟩
  cases firstTokens with
  | null =>
    cases hb : deleteBeginning lastTokens toChIndex with
    | null | empty | array ts => exact ⟨trivial, fun _ => trivial⟩
  | empty =>
    cases lastTokens with
    | null => exact ⟨trivial, fun _ => trivial⟩
    | empty => exact htrivial
    | array ts =>
      rcases deleteBeginning_cases hlast hle with ⟨heq, -⟩ | ⟨ts', heq, hcovers', hkept, -⟩ <;>
        rw [heq]
      · exact htrivial
      · refine hcovers hcovers' fun heol => ?_
        rw [hjoins heol hkept, Nat.zero_add]
  | array ts =>
    rcases deleteEnding_cases hfirst before with ⟨heq, rfl⟩ | ⟨ts₁, heq, hcovers₁, hkept₁⟩ <;> rw [heq]
    · cases lastTokens with
      | null => exact ⟨trivial, fun _ => trivial⟩
      | empty => exact htrivial
      | array ts₂ =>
        rcases deleteBeginning_cases hlast hle with ⟨heq₂, -⟩ | ⟨ts', heq₂, hcovers', -, -⟩ <;>
          rw [heq₂]
        · exact htrivial
        · exact hcovers hcovers' fun _ => (Nat.zero_add _).symm
    · cases lastTokens with
      | null => exact ⟨trivial, fun _ => trivial⟩
      | empty =>
        refine hcovers hcovers₁ fun heol => ?_
        rw [hjoins heol hkept₁, Nat.sub_self, Nat.add_zero]
      | array ts₂ =>
        rcases deleteBeginning_cases hlast hle with
          ⟨heq₂, rfl⟩ | ⟨ts', heq₂, hcovers', hkept₂, hfirst₂⟩ <;> rw [heq₂]
        · exact hcovers hcovers₁ fun _ => by rw [Nat.sub_self, Nat.add_zero]
        · obtain ⟨joined, happend, hjoined⟩ := append_spec hcovers₁ hcovers' (hfirst₂ (hjoins hkept₁ hkept₂))
          rw [happend]
          exact hcovers hjoined fun _ => rfl

end Gavea.ContiguousTokens

namespace Gavea.ContiguousTokens

open ContiguousTokensEditing ContiguousTokensStore List

variable {s : ContiguousTokensStore} {document : Document} {range : IRange}

theorem document_split {n : Nat} (h : n < document.length) :
    document.take n ++ [lineLength document n] ++ document.drop (n + 1) = document := by
  rw [lineLength, getD_eq_getElem?_getD, getElem?_eq_getElem h, Option.getD_some,
    append_assoc, singleton_append, getElem_cons_drop, take_append_drop]

theorem setLine_lineTokens {n : Nat} (h : n < s.lineTokens.length) (tokens : RawTokens) :
    (s.setLine n tokens).lineTokens = s.lineTokens.take n ++ [tokens] ++ s.lineTokens.drop (n + 1) := by
  rw [setLine]
  dsimp only
  rw [set_eq_take_append_cons_drop, if_pos h, append_assoc, singleton_append]

theorem covers_setLastEndOffset {bound : Int} {tokens : List Token} {L : Nat} (hne : tokens ≠ [])
    (hbound : bound < L) (hfirst : ∀ t ∈ tokens.head?, bound < t.endOffset)
    (hsorted : SortedTokens L tokens) :
    Increasing bound (setLastEndOffset L tokens) ∧ endOf bound (setLastEndOffset L tokens) = L := by
  obtain ⟨hpairwise, hinside⟩ := hsorted
  induction tokens generalizing bound with
  | nil => exact absurd rfl hne
  | cons t rest ih =>
    cases rest with
    | nil => exact ⟨⟨hbound, trivial⟩, rfl⟩
    | cons t' rest =>
      rw [pairwise_cons] at hpairwise
      rw [dropLast_cons_cons, forall_mem_cons] at hinside
      obtain ⟨hincreasing, hend⟩ :=
        @ih t.endOffset (cons_ne_nil t' rest) (by exact_mod_cast hinside.1)
          (fun u hu => by
            obtain rfl := Option.some.inj hu
            exact_mod_cast hpairwise.1 _ mem_cons_self)
          hpairwise.2 hinside.2
      exact ⟨⟨hfirst t rfl, hincreasing⟩, hend⟩

theorem fits_massageTokens (topLevelLanguageId : UInt32) {lineTextLength : Nat}
    {tokens : Option (List Token)} (h : SortedTokens lineTextLength (tokens.getD [])) :
    Fits (massageTokens topLevelLanguageId lineTextLength tokens) lineTextLength := by
  have hbound : (-1 : Int) < lineTextLength := by omega
  unfold massageTokens
  dsimp only
  split_ifs
  · trivial
  · cases tokens with
    | none => exact ⟨⟨hbound, trivial⟩, rfl⟩
    | some tokens =>
      cases tokens with
      | nil => exact ⟨⟨hbound, trivial⟩, rfl⟩
      | cons t rest =>
        obtain ⟨hincreasing, hend⟩ := covers_setLastEndOffset (cons_ne_nil t rest) hbound (fun u _ => by omega) h
        exact ⟨hincreasing, hend⟩

theorem consistent_ensureLine (h : Consistent s.lineTokens document) {lineIndex : Nat}
    (hlt : lineIndex < document.length) : Consistent (s.ensureLine lineIndex).lineTokens document := by
  have hle := h.length_le
  rw [ensureLine, len]
  have htake := h.take s.lineTokens.length
  rw [take_length] at htake
  have happend := htake.append (length_take_of_le hle).symm
    (consistent_replicate_null (n := lineIndex + 1 - s.lineTokens.length)
      (d := document.drop s.lineTokens.length) (by rw [length_drop]; omega))
  rwa [take_append_drop] at happend

theorem consistent_setTokens (h : Consistent s.lineTokens document) (topLevelLanguageId : UInt32)
    {lineIndex : Nat} (hlt : lineIndex < document.length) {tokens : Option (List Token)}
    (hsorted : SortedTokens (lineLength document lineIndex) (tokens.getD [])) (checkEquality : Bool) :
    Consistent (s.setTokens topLevelLanguageId lineIndex (lineLength document lineIndex) tokens
      checkEquality).1.lineTokens document := by
  have hensured : lineIndex < (s.ensureLine lineIndex).lineTokens.length := by
    rw [ensureLine, len, length_append, length_replicate]
    omega
  have hspliced := (consistent_ensureLine h hlt).splice hensured
    (a := [massageTokens topLevelLanguageId (lineLength document lineIndex) tokens])
    (d := [lineLength document lineIndex]) ⟨fits_massageTokens topLevelLanguageId hsorted, trivial⟩ rfl
    (lineIndex + 1)
  rwa [document_split hlt, ← setLine_lineTokens hensured] at hspliced

variable {pre post : List RawTokens} {tokens : RawTokens} {L : Nat}

theorem tokensAt_append (h : s.lineTokens = pre ++ [tokens] ++ post) :
    s.tokensAt pre.length = tokens := by
  rw [tokensAt, h, append_assoc, getD_eq_getElem?_getD, getElem?_append_right (le_refl _), Nat.sub_self]
  rfl

theorem setLine_append (h : s.lineTokens = pre ++ [tokens] ++ post) (tokens' : RawTokens) :
    (s.setLine pre.length tokens').lineTokens = pre ++ [tokens'] ++ post := by
  rw [setLine, h, append_assoc, set_append_right _ _ (le_refl _), Nat.sub_self, append_assoc]
  rfl

@[simp] theorem len_setLine (n : Nat) (tokens : RawTokens) : (s.setLine n tokens).len = s.len := length_set

theorem setLine_setLine (n : Nat) (tokens tokens' : RawTokens) :
    (s.setLine n tokens).setLine n tokens' = s.setLine n tokens' :=
  congrArg ContiguousTokensStore.mk (set_set tokens)

theorem tokensAt_setLine_self {n : Nat} (h : n < s.len) (tokens : RawTokens) :
    (s.setLine n tokens).tokensAt n = tokens := by
  rw [tokensAt, setLine, getD_eq_getElem?_getD, getElem?_set_self h, Option.getD_some]

theorem tokensAt_setLine_ne {n m : Nat} (h : n ≠ m) (tokens : RawTokens) :
    (s.setLine n tokens).tokensAt m = s.tokensAt m := by
  rw [tokensAt, setLine, getD_eq_getElem?_getD, getElem?_set_ne h, tokensAt, getD_eq_getElem?_getD]

theorem tokensAt_of_len_le {n : Nat} (h : s.len ≤ n) : s.tokensAt n = .null := by
  rw [tokensAt, getD_eq_getElem?_getD, getElem?_eq_none h]
  rfl

theorem deleteLines_setLine {n : Nat} (h : n < s.len) (tokens : RawTokens) {deleteCount : Nat}
    (hpos : 0 < deleteCount) :
    ((s.setLine n tokens).deleteLines (n + 1) deleteCount).lineTokens =
      s.lineTokens.take n ++ [tokens] ++ s.lineTokens.drop (n + 1 + deleteCount) := by
  have htake : (s.setLine n tokens).lineTokens.take (n + 1) = s.lineTokens.take n ++ [tokens] := by
    rw [setLine_lineTokens h, take_left']
    rw [length_append, length_take_of_le (le_of_lt h), length_singleton]
  have hdrop (k : Nat) : (s.setLine n tokens).lineTokens.drop (n + 1 + k) =
      s.lineTokens.drop (n + 1 + k) :=
    drop_set_of_lt (by omega)
  rw [deleteLines, if_neg hpos.ne', len_setLine]
  dsimp only
  rw [htake, hdrop]
  split_ifs with hlarge
  · rw [drop_eq_nil_of_le, drop_eq_nil_of_le]
    · exact hlarge.le
    · rw [Nat.add_sub_cancel' h]
      exact le_refl _
  · rfl

theorem acceptDeleteRange_unstored (h : s.len ≤ range.startLineNumber - 1) :
    s.acceptDeleteRange range = s :=
  if_pos h

theorem acceptDeleteRange_spec (h : Consistent s.lineTokens document)
    (hvalid : ValidRange document range) (hstored : range.startLineNumber - 1 < s.lineTokens.length)
    {eolCount : Nat} (hjoins : range.startLineNumber < range.endLineNumber →
      JoinsSafely (s.tokensAt (range.startLineNumber - 1)) (s.tokensAt (range.endLineNumber - 1))
        (range.startColumn - 1) (lineLength document (range.startLineNumber - 1))
        (range.endColumn - 1) (lineLength document (range.endLineNumber - 1)) eolCount) :
    ∃ tokens, (s.acceptDeleteRange range).lineTokens =
        s.lineTokens.take (range.startLineNumber - 1) ++ [tokens] ++ s.lineTokens.drop range.endLineNumber ∧
      Ordered tokens ∧ (eolCount = 0 → Fits tokens (range.startColumn - 1 +
        (lineLength document (range.endLineNumber - 1) - (range.endColumn - 1)))) := by
  obtain ⟨hstart, hle, hend, hstartColumn, hendColumn, hfirst, hlast, hcolumns⟩ := hvalid
  obtain ⟨first, hfirstLine⟩ : ∃ first, range.startLineNumber = first + 1 := ⟨range.startLineNumber - 1, by omega⟩
  rw [hfirstLine, Nat.add_sub_cancel] at hstored hfirst hjoins ⊢
  have hsplit : s.lineTokens =
      s.lineTokens.take first ++ [s.tokensAt first] ++ s.lineTokens.drop (first + 1) := by
    rw [tokensAt, getD_eq_getElem?_getD, getElem?_eq_getElem hstored, Option.getD_some,
      append_assoc, singleton_append, getElem_cons_drop, take_append_drop]
  have hlength : (s.lineTokens.take first).length = first := length_take_of_le hstored.le
  have hset (tokens : RawTokens) := setLine_lineTokens hstored tokens
  have hfits (i : Nat) : Fits (s.tokensAt i) (lineLength document i) := h.getD i
  rw [acceptDeleteRange, hfirstLine, Nat.add_sub_cancel]
  dsimp only
  rw [if_neg (show ¬first ≥ s.len from not_le.mpr hstored)]
  by_cases hone : first + 1 = range.endLineNumber
  · rw [← hone, Nat.add_sub_cancel] at hlast ⊢
    have hcolumns := hcolumns (hfirstLine.trans hone)
    rw [if_pos rfl]
    split_ifs with hsame
    · refine ⟨s.tokensAt first, hsplit, (hfits first).ordered, fun _ => ?_⟩
      rw [hsame, Nat.add_sub_cancel' hlast]
      exact hfits first
    · have hdelete := fits_delete (hfits first) (by omega : range.startColumn - 1 ≤ range.endColumn - 1) hlast
      refine ⟨_, hset _, hdelete.ordered, fun _ => ?_⟩
      rwa [show range.startColumn - 1 + (lineLength document first - (range.endColumn - 1)) =
        lineLength document first - (range.endColumn - 1 - (range.startColumn - 1)) by omega]
  · have hlt : first + 1 < range.endLineNumber := by omega
    have hbeginning : (if range.endLineNumber - 1 < s.len then
        deleteBeginning (s.tokensAt (range.endLineNumber - 1)) (range.endColumn - 1) else .null) =
        deleteBeginning (s.tokensAt (range.endLineNumber - 1)) (range.endColumn - 1) := by
      split_ifs with hlastStored
      · rfl
      · rw [tokensAt_of_len_le (not_lt.mp hlastStored)]
        rfl
    rw [if_neg hone, setLine_setLine, tokensAt_setLine_self hstored, len_setLine, tokensAt_setLine_ne (by omega),
      hbeginning, deleteLines_setLine hstored _ (by omega), Nat.add_sub_cancel' hlt.le]
    obtain ⟨hordered, hjoined⟩ := append_fits (hfits first) (hfits (range.endLineNumber - 1)) hlast (hjoins hlt)
    exact ⟨_, rfl, hordered, hjoined⟩

theorem acceptInsertText_spec (hline : s.lineTokens = pre ++ [tokens] ++ post)
    (hordered : Ordered tokens) {column eolCount after : Nat}
    (hfits : eolCount = 0 → Fits tokens (column - 1 + after)) (firstLineLength : Nat) :
    ∃ tokens', (s.acceptInsertText (pre.length + 1) column eolCount firstLineLength).lineTokens =
        pre ++ tokens' :: List.replicate eolCount .null ++ post ∧
      Fits tokens' (column - 1 + firstLineLength + if eolCount = 0 then after else 0) := by
  have hlen : s.len = pre.length + 1 + post.length := by
    rw [len, hline, length_append, length_append, length_singleton]
  have htokens := tokensAt_append hline
  rw [acceptInsertText, Nat.add_sub_cancel]
  dsimp only
  rw [if_neg (by omega : ¬pre.length ≥ s.len), htokens]
  by_cases heol : eolCount = 0
  · subst heol
    rw [if_pos rfl, if_pos rfl, replicate_zero]
    by_cases hnone : firstLineLength = 0
    · subst hnone
      rw [if_pos ⟨rfl, rfl⟩]
      exact ⟨tokens, hline, hfits rfl⟩
    · rw [if_neg fun h => hnone h.2]
      refine ⟨_, setLine_append hline _, ?_⟩
      rw [Nat.add_right_comm]
      exact fits_insert (hfits rfl) _ _
  · rw [if_neg (fun h => heol h.1), if_neg heol, if_neg heol, setLine_setLine,
      tokensAt_setLine_self (by omega), insertLines, if_neg heol]
    refine ⟨_, ?_, fits_insert (fits_deleteEnding hordered (column - 1)) (column - 1) firstLineLength⟩
    dsimp only
    have hlength : (pre ++ [ContiguousTokensEditing.insert (deleteEnding tokens (column - 1))
        (column - 1) firstLineLength]).length = pre.length + 1 := by
      rw [length_append, length_singleton]
    rw [setLine_append hline, take_left' hlength, drop_left' hlength, append_assoc, append_assoc, append_assoc]
    rfl

theorem length_editedLines (before after firstLineLength : Nat) (otherLines : List Nat) :
    (editedLines before after firstLineLength otherLines).length = otherLines.length + 1 := by
  have hclose : ∀ lines : List Nat, (closeLines after lines).length = lines.length := by
    intro lines
    fun_induction closeLines after lines with
    | case1 | case2 => rfl
    | case3 line line' lines ih => rw [length_cons, ih, length_cons, length_cons, length_cons]
  rw [editedLines]
  split_ifs with hnil
  · rw [hnil]
    rfl
  · rw [length_cons, hclose]

theorem consistent_editedLines {before after firstLineLength : Nat} {otherLines : List Nat}
    (h : Fits tokens (before + firstLineLength + if otherLines.length = 0 then after else 0)) :
    Consistent (tokens :: List.replicate otherLines.length .null)
      (editedLines before after firstLineLength otherLines) := by
  have hlength := length_editedLines before after firstLineLength otherLines
  rw [editedLines] at hlength ⊢
  split_ifs at hlength ⊢ with hnil
  · rw [hnil] at h ⊢
    exact ⟨h, trivial⟩
  · rw [if_neg (fun hzero => hnil (length_eq_zero_iff.mp hzero))] at h
    exact ⟨h, consistent_replicate_null (Nat.succ.inj hlength).ge⟩

theorem consistent_acceptEdit (h : Consistent s.lineTokens document)
    (hvalid : ValidRange document range) {firstLineLength : Nat} {otherLines : List Nat}
    (hjoins : CallJoinsSafely ⟨document, s⟩ (.acceptEdit range firstLineLength otherLines)) :
    Consistent (s.acceptEdit range otherLines.length firstLineLength).lineTokens
      (editDocument document range firstLineLength otherLines) := by
  rw [acceptEdit, editDocument]
  by_cases hstored : range.startLineNumber - 1 < s.lineTokens.length
  · obtain ⟨tokens, hdeleted, hordered, hfits⟩ := acceptDeleteRange_spec h hvalid hstored hjoins
    have hlength : (s.lineTokens.take (range.startLineNumber - 1)).length =
        range.startLineNumber - 1 := length_take_of_le hstored.le
    obtain ⟨tokens', hinserted, hfits'⟩ := acceptInsertText_spec hdeleted hordered hfits firstLineLength
    rw [hlength, Nat.sub_add_cancel hvalid.1] at hinserted
    rw [hinserted]
    refine h.splice hstored (consistent_editedLines hfits') ?_ _
    rw [length_editedLines, length_cons, length_replicate]
  · have hunstored : range.startLineNumber - 1 ≥ s.len := not_lt.mp hstored
    rw [acceptDeleteRange_unstored hunstored, acceptInsertText]
    dsimp only
    rw [if_pos hunstored, ite_self, append_assoc]
    exact h.unstored hunstored _

theorem run_consistent {s s' : TokenizedDocument} {calls : List Call}
    (h : Consistent s.store.lineTokens s.document)
    (hsafe : Lib.Runs.Guarded step CallJoinsSafely s calls)
    (hrun : Lib.Runs.run step s calls = some s') :
    Consistent s'.store.lineTokens s'.document := by
  refine Lib.Runs.run_invariant (fun s => Consistent s.store.lineTokens s.document) ?_ h hsafe hrun
  intro s call s' hinv hok hstep
  cases call with
  | setTokens topLevelLanguageId lineIndex tokens checkEquality =>
    rw [step] at hstep
    split_ifs at hstep with hvalid
    obtain rfl := Option.some.inj hstep
    exact consistent_setTokens hinv topLevelLanguageId hvalid.1 hvalid.2 checkEquality
  | acceptEdit range firstLineLength otherLines =>
    rw [step] at hstep
    split_ifs at hstep with hvalid
    obtain rfl := Option.some.inj hstep
    exact consistent_acceptEdit hinv hvalid hok

/-- The same from a document without stored tokens on, line by line. -/
theorem store_fits_document {s' : TokenizedDocument} {calls : List Call}
    (hsafe : Lib.Runs.Guarded step CallJoinsSafely ⟨document, new⟩ calls)
    (hrun : Lib.Runs.run step ⟨document, new⟩ calls = some s') :
    s'.store.len ≤ s'.document.length ∧
      ∀ lineIndex, Fits (s'.store.tokensAt lineIndex) (lineLength s'.document lineIndex) :=
  have hconsistent : Consistent s'.store.lineTokens s'.document :=
    @run_consistent ⟨document, new⟩ s' calls trivial hsafe hrun
  ⟨hconsistent.length_le, hconsistent.getD⟩

def splitAndJoin : List Call :=
  [.setTokens 1 0 none true, .setTokens 1 1 (some [⟨4, 1⟩]) true,
    .acceptEdit ⟨2, 3, 2, 3⟩ 1 [1], .setTokens 1 2 (some [⟨3, 2⟩]) true, .acceptEdit ⟨2, 2, 3, 2⟩ 0 []]

theorem splitAndJoin_fits :
    ∃ s', Lib.Runs.run step ⟨[0, 4], new⟩ splitAndJoin = some s' ∧ s'.store.len ≤ s'.document.length ∧
      ∀ lineIndex, Fits (s'.store.tokensAt lineIndex) (lineLength s'.document lineIndex) :=
  have hrun : Lib.Runs.run step ⟨[0, 4], new⟩ splitAndJoin =
      some ⟨[0, 3], ⟨[.empty, .array [⟨1, 1⟩, ⟨3, 2⟩]]⟩⟩ := by decide
  ⟨_, hrun, store_fits_document (by decide) hrun⟩

/-- Text typed into an empty line keeps the marker; the next line's tokens are then stored for
both texts. -/
theorem store_not_fits_after_join :
    ¬∀ (document : Document) (calls : List Call) (s' : TokenizedDocument),
      Lib.Runs.run step ⟨document, new⟩ calls = some s' →
        s'.store.len ≤ s'.document.length ∧
          ∀ lineIndex, Fits (s'.store.tokensAt lineIndex) (lineLength s'.document lineIndex) := by
  intro h
  have hfits := (h [0, 2]
    [.setTokens 1 0 none true, .setTokens 1 1 (some [⟨2, 1⟩]) true, .acceptEdit ⟨1, 1, 1, 1⟩ 2 [],
      .acceptEdit ⟨1, 3, 2, 1⟩ 0 []] ⟨[4], ⟨[.array [⟨2, 1⟩]]⟩⟩ (by decide)).2 0
  exact absurd hfits.last (by decide)

end Gavea.ContiguousTokens
