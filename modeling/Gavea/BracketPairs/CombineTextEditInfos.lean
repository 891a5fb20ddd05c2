import Gavea.BracketPairs.Length

namespace Gavea.BracketPairs

open List

structure TextEditInfo where
  startOffset : Nat
  endOffset : Nat
  newLength : Nat

structure LengthMapping where
  modified : Bool
  lengthBefore : Nat
  lengthAfter : Nat

def LengthMapping.splitAt (m : LengthMapping) (lengthAfter : Nat) :
    LengthMapping × Option LengthMapping :=
  let remainingLengthAfter := lengthDiffNonNegative lengthAfter m.lengthAfter
  if remainingLengthAfter = lengthZero then (m, none)
  else if m.modified then
    (⟨m.modified, m.lengthBefore, lengthAfter⟩, some ⟨m.modified, lengthZero, remainingLengthAfter⟩)
  else
    (⟨m.modified, lengthAfter, lengthAfter⟩, some ⟨m.modified, remainingLengthAfter, remainingLengthAfter⟩)

def pushMapping (state : List LengthMapping × Nat) (textEditInfo : TextEditInfo) :
    List LengthMapping × Nat :=
  let spaceLength := lengthDiffNonNegative state.2 textEditInfo.startOffset
  let result := if spaceLength ≠ lengthZero then state.1 ++ [⟨false, spaceLength, spaceLength⟩]
    else state.1
  let lengthBefore := lengthDiffNonNegative textEditInfo.startOffset textEditInfo.endOffset
  (result ++ [⟨true, lengthBefore, textEditInfo.newLength⟩], textEditInfo.endOffset)

def toLengthMapping (textEditInfos : List TextEditInfo) : List LengthMapping :=
  (textEditInfos.foldl pushMapping ([], lengthZero)).1

theorem lengthDiffNonNegative_self (l : Nat) : lengthDiffNonNegative l l = lengthZero := if_pos le_rfl

theorem LengthMapping.splitAt_some {m item remainingItem : LengthMapping} {lengthAfter : Nat}
    (h : m.splitAt lengthAfter = (item, some remainingItem)) : item.lengthAfter = lengthAfter := by
  unfold LengthMapping.splitAt at h
  dsimp only at h
  split_ifs at h
  · cases h
  · obtain ⟨rfl, -⟩ := Prod.mk.inj h
    rfl
  · obtain ⟨rfl, -⟩ := Prod.mk.inj h
    rfl

def takeS1Length : List LengthMapping → Nat → List LengthMapping × List LengthMapping
  | [], s1Length => (if s1Length ≠ lengthZero then [⟨false, s1Length, s1Length⟩] else [], [])
  | curItem :: queue, s1Length =>
    if s1Length ≠ lengthZero then
      match _h : curItem.splitAt s1Length with
      | (item, none) =>
        let taken := takeS1Length queue (lengthDiffNonNegative item.lengthAfter s1Length)
        (item :: taken.1, taken.2)
      | (item, some remainingItem) =>
        let taken := takeS1Length (remainingItem :: queue)
          (lengthDiffNonNegative item.lengthAfter s1Length)
        (item :: taken.1, taken.2)
    else ([], curItem :: queue)
termination_by items s1Length => (items.length, s1Length)
decreasing_by
  · exact Prod.Lex.left _ _ (Nat.lt_succ_self _)
  · rename_i hne
    refine Prod.Lex.right _ ?_
    rw [LengthMapping.splitAt_some _h, lengthDiffNonNegative_self]
    exact Nat.pos_of_ne_zero hne

theorem takeS1Length_zero (curItem : LengthMapping) (queue : List LengthMapping) :
    takeS1Length (curItem :: queue) lengthZero = ([], curItem :: queue) := by
  rw [takeS1Length, if_neg (not_not.mpr rfl)]

def nextS0ToS1MapWithS1LengthOf (items : List LengthMapping) :
    Option Nat → List LengthMapping × List LengthMapping
  | none => (items, [])
  | some s1Length => takeS1Length items s1Length

def pushEdit (result : List TextEditInfo) (startOffset endOffset newLength : Nat) :
    List TextEditInfo :=
  match result.getLast? with
  | some lastResult =>
    if lastResult.endOffset = startOffset then
      result.dropLast ++ [⟨lastResult.startOffset, endOffset, lengthAdd lastResult.newLength newLength⟩]
    else result ++ [⟨startOffset, endOffset, newLength⟩]
  | none => result ++ [⟨startOffset, endOffset, newLength⟩]

structure Combining where
  items : List LengthMapping
  s0offset : Nat
  result : List TextEditInfo

def copyMapping (state : Nat × List TextEditInfo) (s1 : LengthMapping) :
    Nat × List TextEditInfo :=
  let s0offset := lengthAdd state.1 s1.lengthBefore
  (s0offset, if s1.modified then pushEdit state.2 state.1 s0offset s1.lengthAfter else state.2)

/-- A mapping of the second edit; none is the rest, which it does not modify. -/
def combineStep (state : Combining) (s1ToS2 : Option LengthMapping) : Combining :=
  let taken := nextS0ToS1MapWithS1LengthOf state.items (s1ToS2.map (·.lengthBefore))
  match s1ToS2 with
  | some ⟨true, _, lengthAfter⟩ =>
    let s0Length := sumLengths taken.1 (·.lengthBefore)
    let s0EndOffset := lengthAdd state.s0offset s0Length
    ⟨taken.2, s0EndOffset, pushEdit state.result state.s0offset s0EndOffset lengthAfter⟩
  | _ =>
    let copied := taken.1.foldl copyMapping (state.s0offset, state.result)
    ⟨taken.2, copied.1, copied.2⟩

def combineTextEditInfos (textEditInfoFirst textEditInfoSecond : List TextEditInfo) :
    List TextEditInfo :=
  if textEditInfoFirst = [] then textEditInfoSecond
  else if textEditInfoSecond = [] then textEditInfoFirst
  else
    (((toLengthMapping textEditInfoSecond).map some ++ [none]).foldl combineStep
      ⟨toLengthMapping textEditInfoFirst, lengthZero, []⟩).result

inductive Applies : List TextEditInfo → Text → Text → Prop
  | nil (t : Text) : Applies [] t t
  | snoc {edits : List TextEditInfo} {front front' : Text} (h : Applies edits front front')
      (deleted inserted rest : Text) :
      Applies (edits ++ [⟨lengthOf front, lengthOf (front ++ deleted), lengthOf inserted⟩])
        (front ++ deleted ++ rest) (front' ++ inserted ++ rest)

def SortedDisjoint (edits : List TextEditInfo) : Prop :=
  (∀ e ∈ edits, e.startOffset ≤ e.endOffset) ∧ edits.Pairwise fun e e' => e.endOffset ≤ e'.startOffset

section Applies

variable {edits : List TextEditInfo} {s t front front' deleted inserted rest : Text}

theorem Applies.eq_of_nil (h : Applies [] s t) : s = t := by
  generalize hnil : [] = edits at h
  cases h with
  | nil => rfl
  | snoc => exact absurd hnil.symm (append_ne_nil_of_right_ne_nil _ (cons_ne_nil _ _))

theorem Applies.append (h : Applies edits s t) (rest : Text) :
    Applies edits (s ++ rest) (t ++ rest) := by
  cases h with
  | nil => exact .nil _
  | snoc h deleted inserted rest' =>
    rw [append_assoc (_ ++ deleted), append_assoc (_ ++ inserted)]
    exact .snoc h deleted inserted (rest' ++ rest)

theorem Applies.ends_le (h : Applies edits s t) (hs : Fits s) :
    SortedDisjoint edits ∧ ∀ e ∈ edits, e.endOffset ≤ lengthOf s := by
  induction h with
  | nil => exact ⟨⟨fun e he => absurd he not_mem_nil, List.Pairwise.nil⟩, fun e he => absurd he not_mem_nil⟩
  | @snoc edits front front' h deleted inserted rest ih =>
    obtain ⟨⟨hstart, hsorted⟩, hends⟩ := ih hs.left.left
    have hle := lengthOf_le_append hs.left
    have hle' := lengthOf_le_append hs
    refine ⟨⟨fun e he => ?_, ?_⟩, fun e he => ?_⟩
    · rcases mem_append.mp he with he | he
      · exact hstart e he
      · obtain rfl := mem_singleton.mp he
        exact hle
    · refine pairwise_append.mpr ⟨hsorted, pairwise_singleton _ _, fun e he e' he' => ?_⟩
      obtain rfl := mem_singleton.mp he'
      exact hends e he
    · rcases mem_append.mp he with he | he
      · exact (hends e he).trans (hle.trans hle')
      · obtain rfl := mem_singleton.mp he
        exact hle'

theorem Applies.pushEdit (h : Applies edits front front') (hfits : Fits (front ++ deleted))
    (hfits' : Fits (front' ++ inserted)) :
    Applies (pushEdit edits (lengthOf front) (lengthOf (front ++ deleted)) (lengthOf inserted))
      (front ++ deleted) (front' ++ inserted) := by
  have hsnoc := Applies.snoc h deleted inserted []
  rw [append_nil, append_nil] at hsnoc
  unfold BracketPairs.pushEdit
  cases h with
  | nil => exact hsnoc
  | @snoc edits p q h d n g =>
    rw [getLast?_concat]
    dsimp only
    split_ifs with hjoin
    · have hdiff := lengthDiffNonNegative_append hfits.left
      rw [hjoin, lengthDiffNonNegative_self] at hdiff
      obtain rfl := lengthOf_eq_zero.mp hdiff.symm
      rw [append_nil] at hfits' ⊢
      have hins : lengthAdd (lengthOf n) (lengthOf inserted) = lengthOf (n ++ inserted) := by
        rw [append_assoc] at hfits'
        exact (lengthOf_append hfits'.right).symm
      have hjoined := Applies.snoc h (d ++ deleted) (n ++ inserted) []
      rw [dropLast_concat, hins]
      simpa only [append_nil, append_assoc] using hjoined
    · exact hsnoc

end Applies

structure Piece where
  modified : Bool
  before : Text
  after : Text
  same : modified = false → before = after

namespace Piece

def lengths (p : Piece) : LengthMapping := ⟨p.modified, lengthOf p.before, lengthOf p.after⟩

def kept (t : Text) : Piece := ⟨false, t, t, fun _ => rfl⟩

def replaced (before after : Text) : Piece := ⟨true, before, after, fun h => (nomatch h)⟩

def cut (p : Piece) (a c : Text) : Piece × Piece :=
  if p.modified then (replaced p.before a, replaced [] c) else (kept a, kept c)

end Piece

open Piece

def befores (pieces : List Piece) : Text := pieces.flatMap (·.before)

def afters (pieces : List Piece) : Text := pieces.flatMap (·.after)

section Pieces

variable {edits : List TextEditInfo} {s t a b c tail : Text} {pieces : List Piece} {p : Piece}

@[simp] theorem befores_append (ps qs : List Piece) : befores (ps ++ qs) = befores ps ++ befores qs := flatMap_append ..

@[simp] theorem afters_append (ps qs : List Piece) : afters (ps ++ qs) = afters ps ++ afters qs := flatMap_append ..

@[simp] theorem befores_cons (p : Piece) (ps : List Piece) :
    befores (p :: ps) = p.before ++ befores ps := flatMap_cons ..

@[simp] theorem afters_cons (p : Piece) (ps : List Piece) : afters (p :: ps) = p.after ++ afters ps := flatMap_cons ..

def gap (t : Text) : List Piece := if t = [] then [] else [kept t]

@[simp] theorem befores_gap (t : Text) : befores (gap t) = t := by
  unfold gap
  split_ifs with hnil
  · exact hnil.symm
  · exact append_nil t

@[simp] theorem afters_gap (t : Text) : afters (gap t) = t := by
  unfold gap
  split_ifs with hnil
  · exact hnil.symm
  · exact append_nil t

theorem lengths_gap (t : Text) : (gap t).map lengths =
    if lengthOf t ≠ lengthZero then [⟨false, lengthOf t, lengthOf t⟩] else [] := by
  unfold gap lengthZero
  split_ifs with hnil hne hne
  · exact absurd (lengthOf_eq_zero.mpr hnil) hne
  · rfl
  · rfl
  · exact absurd (lengthOf_eq_zero.mp (not_not.mp hne)) hnil

theorem toLengthMapping_pieces (h : Applies edits s t) (hs : Fits s) :
    ∃ pieces tail, edits.foldl pushMapping ([], lengthZero) =
        (pieces.map lengths, lengthOf (befores pieces)) ∧
      befores pieces ++ tail = s ∧ afters pieces ++ tail = t := by
  induction h with
  | nil t => exact ⟨[], t, by rw [show befores [] = [] from rfl, lengthOf_nil]; rfl, rfl, rfl⟩
  | @snoc edits front front' h deleted inserted rest ih =>
    obtain ⟨pieces, tail, hfold, rfl, rfl⟩ := ih hs.left.left
    have hspace := lengthDiffNonNegative_append hs.left.left
    have hbefore := lengthDiffNonNegative_append hs.left
    refine ⟨pieces ++ gap tail ++ [replaced deleted inserted], rest, ?_, ?_, ?_⟩
    · rw [foldl_append, hfold, foldl_cons, foldl_nil, pushMapping]
      dsimp only
      rw [hspace, hbefore, map_append, map_append, lengths_gap]
      have hend : befores (pieces ++ gap tail ++ [replaced deleted inserted]) =
          befores pieces ++ tail ++ deleted := by
        rw [befores_append, befores_append, befores_gap]
        exact congrArg _ (append_nil deleted)
      rw [hend]
      split_ifs
      · rfl
      · rw [append_nil]
        rfl
    · rw [befores_append, befores_append, befores_gap]
      exact congrArg (_ ++ · ++ rest) (append_nil deleted)
    · rw [afters_append, afters_append, afters_gap]
      exact congrArg (_ ++ · ++ rest) (append_nil inserted)

theorem lengths_splitAt_done (h : Fits (p.after ++ a)) :
    p.lengths.splitAt (lengthOf (p.after ++ a)) = (p.lengths, none) :=
  if_pos (if_pos (lengthOf_le_append h))

theorem lengths_splitAt_cut (hafter : p.after = a ++ c) (hfits : Fits (a ++ c)) (hc : c ≠ []) :
    p.lengths.splitAt (lengthOf a) =
      ((p.cut a c).1.lengths, some (p.cut a c).2.lengths) := by
  have hdiff := lengthDiffNonNegative_append hfits
  have hne : lengthOf c ≠ lengthZero := fun hzero => hc (lengthOf_eq_zero.mp hzero)
  have hlength : p.lengths.lengthAfter = lengthOf (a ++ c) := congrArg lengthOf hafter
  have hmodified : p.lengths.modified = p.modified := rfl
  unfold LengthMapping.splitAt Piece.cut
  dsimp only
  rw [hlength, hdiff, if_neg hne, hmodified]
  cases p.modified
  · rfl
  · change _ = ((⟨true, lengthOf p.before, lengthOf a⟩ : LengthMapping),
      some (⟨true, lengthOf [], lengthOf c⟩ : LengthMapping))
    rw [lengthOf_nil]
    rfl

theorem cut_after (p : Piece) (a c : Text) :
    (p.cut a c).1.after = a ∧ (p.cut a c).2.after = c := by
  unfold Piece.cut
  split_ifs
  · exact ⟨rfl, rfl⟩
  · exact ⟨rfl, rfl⟩

theorem cut_before (hafter : p.after = a ++ c) :
    (p.cut a c).1.before ++ (p.cut a c).2.before = p.before := by
  unfold Piece.cut
  split_ifs with hmodified
  · exact append_nil _
  · exact ((p.same (Bool.not_eq_true _ ▸ hmodified)).trans hafter).symm

theorem cut_cases {u v : Text} (h : u ++ v = a ++ b) :
    (∃ a', a = u ++ a' ∧ v = a' ++ b) ∨ ∃ c, c ≠ [] ∧ u = a ++ c ∧ b = c ++ v := by
  rcases append_eq_append_iff.mp h with ⟨a', ha, hv⟩ | ⟨c, hu, hb⟩
  · exact Or.inl ⟨a', ha, hv⟩
  · rcases eq_or_ne c [] with rfl | hc
    · exact Or.inl ⟨[], by rw [hu, append_nil, append_nil], hb.symm⟩
    · exact Or.inr ⟨c, hc, hu, hb⟩

theorem takeS1Length_pieces (pieces : List Piece) (h : afters pieces ++ tail = a ++ b)
    (hfits : Fits (a ++ b)) :
    ∃ taken left rest, takeS1Length (pieces.map lengths) (lengthOf a) =
        (taken.map lengths, left.map lengths) ∧
      afters taken = a ∧ afters left ++ rest = b ∧
      befores taken ++ befores left ++ rest = befores pieces ++ tail := by
  induction pieces generalizing a with
  | nil =>
    refine ⟨gap a, [], b, ?_, afters_gap a, rfl, ?_⟩
    · rw [map_nil, takeS1Length, lengths_gap]
    · rw [befores_gap]
      exact (congrArg (· ++ b) (append_nil a)).trans h.symm
  | cons p pieces ih =>
    rw [map_cons, takeS1Length]
    by_cases hzero : lengthOf a = lengthZero
    · obtain rfl := lengthOf_eq_zero.mp hzero
      rw [if_neg (not_not.mpr hzero)]
      exact ⟨[], p :: pieces, tail, rfl, rfl, h, rfl⟩
    · rw [if_pos hzero]
      rw [afters_cons, append_assoc] at h
      rcases cut_cases h with ⟨a', rfl, hrest⟩ | ⟨c, hc, hafter, rfl⟩
      · have hfits' := hfits
        rw [append_assoc] at hfits'
        obtain ⟨taken, left, rest, htake, htaken, hleft, hbefores⟩ := ih hrest hfits'.right
        have hsplit := lengths_splitAt_done hfits.left
        refine ⟨p :: taken, left, rest, ?_, by rw [afters_cons, htaken], hleft, ?_⟩
        · split
          · rename_i item heq
            obtain ⟨rfl, -⟩ := Prod.mk.inj (hsplit.symm.trans heq)
            have hdiff : lengthDiffNonNegative p.lengths.lengthAfter (lengthOf (p.after ++ a')) =
                lengthOf a' := lengthDiffNonNegative_append hfits.left
            rw [hdiff, htake]
            rfl
          · rename_i heq
            cases hsplit.symm.trans heq
        · rw [befores_cons, befores_cons, append_assoc p.before, append_assoc p.before, hbefores, append_assoc]
      · rw [← append_assoc] at hfits
        have hsplit := lengths_splitAt_cut hafter hfits.left hc
        obtain ⟨hfirst, hsecond⟩ := cut_after p a c
        refine ⟨[(p.cut a c).1], (p.cut a c).2 :: pieces, tail, ?_, ?_, ?_, ?_⟩
        · split
          · rename_i heq
            cases hsplit.symm.trans heq
          · rename_i item remainingItem heq
            obtain ⟨rfl, hsome⟩ := Prod.mk.inj (hsplit.symm.trans heq)
            obtain rfl := Option.some.inj hsome
            rw [LengthMapping.splitAt_some heq, lengthDiffNonNegative_self, takeS1Length_zero]
            rfl
        · rw [afters_cons, hfirst]
          exact append_nil a
        · rw [afters_cons, hsecond, append_assoc]
        · rw [befores_cons, befores_cons, befores_cons, ← cut_before hafter]
          simp only [append_assoc]
          rfl

end Pieces

section Combine

variable {s t u front front' rest : Text} {result : List TextEditInfo} {state : Combining}

theorem sumLengths_pieces (taken : List Piece) (h : Fits (befores taken)) :
    sumLengths (taken.map lengths) (·.lengthBefore) = lengthOf (befores taken) := by
  induction taken using List.reverseRecOn with
  | nil =>
    rw [show befores [] = [] from rfl, lengthOf_nil]
    rfl
  | append_singleton taken p ih =>
    rw [befores_append] at h ⊢
    have hlast : befores [p] = p.before := append_nil p.before
    rw [hlast] at h ⊢
    have hsum := ih h.left
    rw [lengthOf_append h, ← hsum, sumLengths, sumLengths, map_append, foldl_append,
      map_singleton, foldl_cons, foldl_nil, lengths]

theorem foldl_copyMapping (taken : List Piece) (h : Applies result front front')
    (hfits : Fits (front ++ befores taken)) (hfits' : Fits (front' ++ afters taken)) :
    ∃ result', (taken.map lengths).foldl copyMapping (lengthOf front, result) =
        (lengthOf (front ++ befores taken), result') ∧
      Applies result' (front ++ befores taken) (front' ++ afters taken) := by
  induction taken generalizing front front' result with
  | nil =>
    refine ⟨result, ?_, ?_⟩
    · rw [show befores [] = [] from rfl, append_nil]
      rfl
    · rw [show befores [] = [] from rfl, show afters [] = [] from rfl, append_nil, append_nil]
      exact h
  | cons p taken ih =>
    rw [befores_cons, ← append_assoc] at hfits ⊢
    rw [afters_cons, ← append_assoc] at hfits' ⊢
    have hoffset : lengthAdd (lengthOf front) p.lengths.lengthBefore =
        lengthOf (front ++ p.before) := (lengthOf_append hfits.left).symm
    rw [map_cons, foldl_cons, copyMapping, hoffset]
    dsimp only
    split_ifs with hmodified
    · exact ih (h.pushEdit hfits.left hfits'.left) hfits hfits'
    · have hsame := p.same (Bool.not_eq_true _ ▸ hmodified)
      have hcopied := h.append p.before
      refine ih ?_ hfits hfits'
      rwa [← hsame]

structure CombinedTo (s rest front front' : Text) (state : Combining) : Prop where
  items : ∃ left tail, state.items = left.map lengths ∧ front ++ befores left ++ tail = s ∧ afters left ++ tail = rest
  s0offset : state.s0offset = lengthOf front
  applies : Applies state.result front front'

theorem combineStep_combinedTo (p : Piece) (h : CombinedTo s (p.before ++ rest) front front' state)
    (hs : Fits s) (hrest : Fits (p.before ++ rest)) (hafter : Fits (front' ++ p.after)) :
    ∃ front₁, CombinedTo s rest front₁ (front' ++ p.after)
      (combineStep state (some p.lengths)) := by
  obtain ⟨⟨left, tail, hitems, hbefores, hafters⟩, hoffset, happlies⟩ := h
  obtain ⟨taken, left', tail', htake, htaken, hleft, hbefores'⟩ := takeS1Length_pieces left hafters hrest
  have hall : front ++ befores taken ++ befores left' ++ tail' = s := by
    rw [← hbefores, append_assoc front (befores left), ← hbefores']
    simp only [append_assoc]
  have hfront : Fits (front ++ befores taken) := by
    rw [← hall] at hs
    exact hs.left.left
  refine ⟨front ++ befores taken, ?_⟩
  have htaken' : nextS0ToS1MapWithS1LengthOf state.items (some p.lengths.lengthBefore) =
      (taken.map lengths, left'.map lengths) := by
    rw [hitems]
    exact htake
  cases hmodified : p.modified with
  | true =>
    have hlengths : p.lengths = ⟨true, p.lengths.lengthBefore, lengthOf p.after⟩ := by
      rw [lengths, hmodified]
    have hend : lengthAdd (lengthOf front) (lengthOf (befores taken)) =
        lengthOf (front ++ befores taken) := (lengthOf_append hfront).symm
    rw [hlengths, combineStep, Option.map_some]
    dsimp only
    rw [htaken', sumLengths_pieces taken hfront.right, hoffset, hend]
    exact ⟨⟨left', tail', rfl, hall, hleft⟩, rfl, happlies.pushEdit hfront hafter⟩
  | false =>
    have hlengths : p.lengths = ⟨false, p.lengths.lengthBefore, lengthOf p.after⟩ := by
      rw [lengths, hmodified]
    have hsame := p.same hmodified
    rw [← htaken.trans hsame] at hafter ⊢
    obtain ⟨result', hcopied, happlies'⟩ := foldl_copyMapping taken happlies hfront hafter
    rw [hlengths, combineStep, Option.map_some]
    dsimp only
    · rw [htaken', hoffset, hcopied]
      exact ⟨⟨left', tail', rfl, hall, hleft⟩, rfl, happlies'⟩
    · exact fun _ _ heq => (nomatch heq)

theorem foldl_combineStep (pieces : List Piece)
    (h : CombinedTo s (befores pieces ++ rest) front front' state) (hs : Fits s)
    (hrest : Fits (befores pieces ++ rest)) (hafter : Fits (front' ++ afters pieces)) :
    ∃ front₁, CombinedTo s rest front₁ (front' ++ afters pieces)
      ((pieces.map fun p => some p.lengths).foldl combineStep state) := by
  induction pieces generalizing front front' state with
  | nil =>
    refine ⟨front, ?_⟩
    rw [show afters [] = [] from rfl, append_nil]
    exact h
  | cons p pieces ih =>
    rw [befores_cons, append_assoc] at h hrest
    rw [afters_cons, ← append_assoc] at hafter ⊢
    obtain ⟨front₁, hstep⟩ := combineStep_combinedTo p h hs hrest hafter.left
    exact ih hstep hrest.right hafter

theorem combineStep_none (h : CombinedTo s rest front front' state) (hs : Fits s)
    (hrest : Fits (front' ++ rest)) :
    Applies (combineStep state none).result s (front' ++ rest) := by
  obtain ⟨⟨left, tail, hitems, rfl, rfl⟩, hoffset, happlies⟩ := h
  rw [← append_assoc] at hrest ⊢
  obtain ⟨result', hcopied, happlies'⟩ := foldl_copyMapping left happlies hs.left hrest.left
  have hresult : (combineStep state none).result = result' := by
    rw [combineStep, Option.map_none, nextS0ToS1MapWithS1LengthOf, hitems, hoffset, hcopied]
    exact fun _ _ heq => (nomatch heq)
  rw [hresult]
  exact happlies'.append tail

/-- The combined edits lead from the text before both edits to the one after both. -/
theorem combineTextEditInfos_applies {textEditInfoFirst textEditInfoSecond : List TextEditInfo}
    (hfirst : Applies textEditInfoFirst s t) (hsecond : Applies textEditInfoSecond t u)
    (hs : Fits s) (ht : Fits t) (hu : Fits u) :
    Applies (combineTextEditInfos textEditInfoFirst textEditInfoSecond) s u ∧
      SortedDisjoint (combineTextEditInfos textEditInfoFirst textEditInfoSecond) := by
  have happlies : Applies (combineTextEditInfos textEditInfoFirst textEditInfoSecond) s u := by
    unfold combineTextEditInfos
    split_ifs with hnil hnil'
    · subst hnil
      rwa [hfirst.eq_of_nil]
    · subst hnil'
      rwa [← hsecond.eq_of_nil]
    · obtain ⟨pieces, tail, hpieces, hs', ht'⟩ := toLengthMapping_pieces hfirst hs
      obtain ⟨pieces', tail', hpieces', ht'', rfl⟩ := toLengthMapping_pieces hsecond ht
      have hstart : CombinedTo s (befores pieces' ++ tail') [] []
          ⟨toLengthMapping textEditInfoFirst, lengthZero, []⟩ :=
        ⟨⟨pieces, tail, congrArg Prod.fst hpieces, hs', ht'.trans ht''.symm⟩, lengthOf_nil.symm, .nil []⟩
      obtain ⟨front₁, hloop⟩ := foldl_combineStep pieces' hstart hs (ht''.symm ▸ ht) hu.left
      have hmap : (toLengthMapping textEditInfoSecond).map some =
          pieces'.map fun p => some p.lengths := by
        rw [toLengthMapping, hpieces', map_map]
        rfl
      rw [foldl_append, hmap]
      exact combineStep_none hloop hs hu
  exact ⟨happlies, (happlies.ends_le hs).1⟩

theorem fits_of_length_lt (h : s.length < factor) : Fits s :=
  ⟨lt_of_le_of_lt count_le_length h, fun _ hline _ => lt_of_le_of_lt hline.length_le h⟩

/-- A replacement of three lines, then a deletion over its end and an insertion behind it. -/
theorem combineTextEditInfos_applies_lines :
    Applies (combineTextEditInfos
        [⟨lengthOf [some 97], lengthOf ([some 97] ++ [none, some 98]), lengthOf [some 99, none]⟩]
        [⟨lengthOf [some 97, some 99], lengthOf ([some 97, some 99] ++ [none, some 100]), lengthOf [none, none]⟩])
      [some 97, none, some 98, some 100, some 101]
      [some 97, some 99, none, none, some 101] :=
  (combineTextEditInfos_applies
    (.snoc (.nil [some 97]) [none, some 98] [some 99, none] [some 100, some 101])
    (.snoc (.nil [some 97, some 99]) [none, some 100] [none, none] [some 101])
    (fits_of_length_lt (by norm_num [factor])) (fits_of_length_lt (by norm_num [factor]))
    (fits_of_length_lt (by norm_num [factor]))).1

theorem lengthOf_of_no_lineBreak (h : lineBreaks s = 0) : lengthOf s = s.length := by
  rw [lengthOf, toLength, h, lastLine_of_lineBreaks h, Nat.zero_mul, Nat.zero_add]

theorem newLength_of_applies {e : TextEditInfo} (h : Applies [e] [] t) :
    e.newLength = lengthOf t := by
  generalize hedits : [e] = edits at h
  generalize hs : ([] : Text) = s at h
  cases h with
  | nil => cases hedits
  | @snoc edits front front' h deleted inserted rest =>
    obtain ⟨rfl, hlast⟩ := append_inj' (show [] ++ [e] = edits ++ [_] from hedits) rfl
    obtain ⟨hfront, rfl⟩ := append_eq_nil_iff.mp hs.symm
    obtain ⟨rfl, rfl⟩ := append_eq_nil_iff.mp hfront
    rw [← h.eq_of_nil, append_nil, nil_append, List.cons.inj hlast |>.1]

/-- An insertion of 2²⁶ columns behind one of a column: the columns go over into the lines. -/
theorem not_combineTextEditInfos_applies :
    ¬ ∀ (s t u : Text) (first second : List TextEditInfo), Applies first s t → Applies second t u →
      Applies (combineTextEditInfos first second) s u := by
  intro hall
  have hreplicate : lineBreaks (List.replicate factor (some 97)) = 0 :=
    count_eq_zero.mpr fun hnone => (nomatch (eq_of_mem_replicate hnone))
  have hline : lineBreaks (some 98 :: List.replicate factor (some 97)) = 0 :=
    (count_cons_of_ne (by simp)).trans hreplicate
  have hone : lengthOf [some 98] = 1 := lengthOf_of_no_lineBreak rfl
  have hmany : lengthOf (List.replicate factor (some 97)) = factor := by
    rw [lengthOf_of_no_lineBreak hreplicate, length_replicate]
  have hfirst := Applies.snoc (.nil []) [] [some 98] []
  rw [hone, append_nil, append_nil, lengthOf_nil] at hfirst
  have hsecond := Applies.snoc (.nil [some 98]) [] (List.replicate factor (some 97)) []
  rw [hmany, append_nil, append_nil, append_nil, hone] at hsecond
  have h : Applies (combineTextEditInfos [⟨0, 0, 1⟩] [⟨1, 1, factor⟩]) []
      (some 98 :: List.replicate factor (some 97)) := hall _ _ _ _ _ hfirst hsecond
  have hcombined : combineTextEditInfos [⟨0, 0, 1⟩] [⟨1, 1, factor⟩] = [⟨0, 0, factor⟩] := by
    simp [combineTextEditInfos, toLengthMapping, pushMapping, lengthDiffNonNegative, combineStep,
      nextS0ToS1MapWithS1LengthOf, takeS1Length, LengthMapping.splitAt, lengthZero, factor,
      copyMapping, pushEdit, lengthAdd, sumLengths, toLength]
  rw [hcombined] at h
  have hlength := newLength_of_applies h
  rw [lengthOf_of_no_lineBreak hline, length_cons, length_replicate] at hlength
  exact absurd hlength (Nat.ne_of_lt (Nat.lt_succ_self factor))

end Combine

end Gavea.BracketPairs
