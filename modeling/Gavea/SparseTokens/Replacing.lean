import Gavea.SparseTokens.SparseMultilineTokens

namespace Gavea.SparseTokens

open Gavea.Core (Range)

variable {range : Range} {p q : SparseMultilineTokens} {t : PositionedToken}
  {rest out : List SparseMultilineTokens}

structure PieceIsBefore (range : Range) (p : SparseMultilineTokens) : Prop where
  tokens : ∀ t ∈ p.positioned, IsBefore range t
  endLine : p.endLineNumber ≤ range.startLineNumber
  startLine : p.startLineNumber ≤ range.startLineNumber

structure PieceIsBehind (range : Range) (p : SparseMultilineTokens) : Prop where
  tokens : ∀ t ∈ p.positioned, IsBehind range t
  startLine : range.endLineNumber ≤ p.startLineNumber

structure Within (p q : SparseMultilineTokens) : Prop where
  startLine : p.startLineNumber ≤ q.startLineNumber
  endLine : q.endLineNumber ≤ p.endLineNumber
  le : q.startLineNumber ≤ q.endLineNumber

def KeepsOrder (pieces pieces' : List SparseMultilineTokens) : Prop :=
  ∀ pre : List SparseMultilineTokens, (pre ++ pieces).Pairwise PieceBefore → (pre ++ pieces').Pairwise PieceBefore

theorem keepsOrder_refl (pieces : List SparseMultilineTokens) : KeepsOrder pieces pieces := fun _ h => h

theorem KeepsOrder.cons (h : KeepsOrder rest out) (p : SparseMultilineTokens) :
    KeepsOrder (p :: rest) (p :: out) := by
  intro pre hpairwise
  rw [List.append_cons] at hpairwise ⊢
  exact h _ hpairwise

theorem KeepsOrder.replace (h : KeepsOrder rest out) (parts : List SparseMultilineTokens)
    (hwithin : ∀ q ∈ parts, Within p q) (hparts : parts.Pairwise PieceBefore) :
    KeepsOrder (p :: rest) (parts ++ out) := by
  intro pre hpairwise
  rw [← List.append_assoc]
  refine h (pre ++ parts) ?_
  obtain ⟨hpre, htail, hacross⟩ := List.pairwise_append.mp hpairwise
  obtain ⟨hp, hrest⟩ := List.pairwise_cons.mp htail
  refine List.pairwise_append.mpr ⟨List.pairwise_append.mpr ⟨hpre, hparts, ?_⟩, hrest, ?_⟩
  · intro r hr q hq
    have hrp := hacross r hr p List.mem_cons_self
    have hpq := (hwithin q hq).startLine
    exact ⟨hrp.1.trans hpq, hrp.2.trans hpq⟩
  · intro r hr q hq
    rcases List.mem_append.mp hr with hpre | hpart
    · exact hacross r hpre q (List.mem_cons_of_mem _ hq)
    · have hpq := (hp q hq).1
      have hw := hwithin r hpart
      exact ⟨hw.endLine.trans hpq, hw.le.trans (hw.endLine.trans hpq)⟩

theorem within_of_subset {p' : SparseMultilineTokens} (h : SortedTokens p.positioned)
    (h' : SortedTokens p'.positioned) (hsubset : ∀ t ∈ p'.positioned, t ∈ p.positioned)
    (hstart : p.startLineNumber ≤ p'.startLineNumber) (hne : p'.isEmpty = false) : Within p p' := by
  obtain ⟨t, ht, hline⟩ := exists_line_eq_end hne
  have hbounds := line_bounds h (hsubset t ht)
  have hbounds' := line_bounds h' ht
  exact ⟨hstart, by omega, by omega⟩

theorem positioned_removeTokens (h : SortedTokens p.positioned) (range : Range) :
    (p.removeTokens range).positioned = p.positioned.filter fun t => !touches range t := by
  rw [removeTokens_eq, positioned_rebased ((inLineOrder h).filter _)]
  exact positioned_filter (fun t => !touches range t) p.startLineNumber p.tokens

theorem sorted_removeTokens (h : SortedTokens p.positioned) (range : Range) :
    SortedTokens (p.removeTokens range).positioned := by
  rw [positioned_removeTokens h]
  exact h.sublist List.filter_sublist

theorem within_removeTokens (h : SortedTokens p.positioned)
    (hne : (p.removeTokens range).isEmpty = false) : Within p (p.removeTokens range) := by
  refine within_of_subset h (sorted_removeTokens h range) (fun t ht => ?_) ?_ hne
  · rw [positioned_removeTokens h] at ht
    exact List.mem_of_mem_filter ht
  · rw [removeTokens_eq, rebased]
    dsimp only
    omega

theorem removed_outside (h : SortedTokens p.positioned) (ht : t ∈ (p.removeTokens range).positioned) :
    IsBefore range t ∨ IsBehind range t := by
  rw [positioned_removeTokens h, List.mem_filter, Bool.not_eq_true'] at ht
  exact touches_eq_false_iff.mp ht.2

theorem pieceIsBefore_of_end_lt (h : SortedTokens p.positioned)
    (hlt : p.endLineNumber < range.startLineNumber) : PieceIsBefore range p := by
  have hstart := start_le_end h
  refine ⟨fun t ht => Or.inl ?_, hlt.le, by omega⟩
  have hbounds := line_bounds h ht
  omega

theorem pieceIsBehind_of_lt_start (h : SortedTokens p.positioned)
    (hlt : range.endLineNumber < p.startLineNumber) : PieceIsBehind range p := by
  refine ⟨fun t ht => Or.inl ?_, hlt.le⟩
  have hbounds := line_bounds h ht
  omega

theorem IsBefore.line_le (h : IsBefore range t) : t.line ≤ range.startLineNumber := by
  rw [IsBefore] at h
  omega

theorem IsBehind.le_line (h : IsBehind range t) : range.endLineNumber ≤ t.line := by
  rw [IsBehind] at h
  omega

theorem pieceIsBefore_of_tokens (h : SortedTokens p.positioned) (hne : p.isEmpty = false)
    (hbefore : ∀ t ∈ p.positioned, IsBefore range t) : PieceIsBefore range p := by
  obtain ⟨t, ht, hline⟩ := exists_line_eq_end hne
  have hle := (hbefore t ht).line_le
  have hbounds := line_bounds h ht
  exact ⟨hbefore, by omega, by omega⟩

theorem pieceIsBehind_of_tokens {startLineNumber : Int} {tokens : List SparseToken}
    (hp : p = rebased startLineNumber tokens) (hne : p.isEmpty = false)
    (hbehind : ∀ t ∈ p.positioned, IsBehind range t) : PieceIsBehind range p := by
  subst hp
  obtain ⟨t, ht, hline⟩ := exists_line_eq_start hne
  have hle := (hbehind t ht).le_line
  exact ⟨hbehind, by omega⟩

theorem split_fst (h : SortedTokens p.positioned) (range : Range) :
    (p.split range).1.positioned = p.positioned.filter fun t => IsBefore range t := by
  rw [split_eq h]
  exact positioned_filter (fun t => IsBefore range t) p.startLineNumber p.tokens

theorem split_snd (h : SortedTokens p.positioned) (range : Range) :
    (p.split range).2.positioned = p.positioned.filter fun t => IsBehind range t := by
  rw [split_eq h, positioned_rebased ((inLineOrder h).filter _)]
  exact positioned_filter (fun t => IsBehind range t) p.startLineNumber p.tokens

theorem mem_of_isEmpty_filter {f : PositionedToken → Bool} {p' : SparseMultilineTokens}
    (hpositioned : p'.positioned = p.positioned.filter f) (hempty : p'.isEmpty = true)
    (ht : t ∈ p.positioned) : f t = false := by
  rw [positioned_eq_nil hempty, eq_comm, List.filter_eq_nil_iff] at hpositioned
  exact Bool.eq_false_of_not_eq_true (hpositioned t ht)

theorem filter_before_append_behind {tokens : List PositionedToken} (h : SortedTokens tokens)
    (houtside : ∀ t ∈ tokens, IsBefore range t ∨ IsBehind range t) :
    tokens.filter (fun t => IsBefore range t) ++ tokens.filter (fun t => IsBehind range t) = tokens := by
  induction tokens with
  | nil => rfl
  | cons t rest ih =>
    obtain ⟨ht, hrest⟩ := List.forall_mem_cons.mp houtside
    have hsorted := h.sublist (List.sublist_cons_self t rest)
    have hnonneg := h.nonneg t List.mem_cons_self
    rcases ht with hbefore | hbehind
    · have hnot : ¬IsBehind range t := fun hbehind => not_isBefore_of_isBehind hbehind hnonneg hbefore
      rw [List.filter_cons_of_pos (p := fun t => IsBefore range t) (decide_eq_true hbefore),
        List.filter_cons_of_neg (p := fun t => IsBehind range t) (by simpa using hnot),
        List.cons_append, ih hsorted hrest]
    · have hnone : (t :: rest).filter (fun t => IsBefore range t) = [] := by
        rw [List.filter_eq_nil_iff]
        intro u hu hbefore
        have hbehind_u : IsBehind range u := by
          rcases List.mem_cons.mp hu with rfl | htail
          · exact hbehind
          · exact hbehind.of_precedes hnonneg ((List.pairwise_cons.mp h.pairwise).1 u htail)
        exact not_isBefore_of_isBehind hbehind_u (h.nonneg u hu) (of_decide_eq_true hbefore)
      rw [hnone, List.nil_append, List.filter_eq_self]
      intro u hu
      rw [decide_eq_true_eq]
      rcases List.mem_cons.mp hu with rfl | htail
      · exact hbehind
      · exact hbehind.of_precedes hnonneg ((List.pairwise_cons.mp h.pairwise).1 u htail)

theorem Within.trans {r : SparseMultilineTokens} (h : Within p q) (h' : Within q r) : Within p r :=
  ⟨h.startLine.trans h'.startLine, h'.endLine.trans h.endLine, h'.le⟩

theorem startLine_le (range : Range) : range.startLineNumber ≤ range.endLineNumber := by
  have hle := range.le
  omega

theorem split_spec (h : SortedTokens p.positioned)
    (houtside : ∀ t ∈ p.positioned, IsBefore range t ∨ IsBehind range t)
    (ha : (p.split range).1.isEmpty = false) (hb : (p.split range).2.isEmpty = false) :
    PieceIsBefore range (p.split range).1 ∧ PieceIsBehind range (p.split range).2 ∧
      (p.split range).1.positioned ++ (p.split range).2.positioned = p.positioned := by
  have hfst := split_fst h range
  have hsnd := split_snd h range
  refine ⟨?_, ?_, by rw [hfst, hsnd, filter_before_append_behind h houtside]⟩
  · refine pieceIsBefore_of_tokens (hfst ▸ h.sublist List.filter_sublist) ha fun t ht => ?_
    rw [hfst, List.mem_filter] at ht
    exact of_decide_eq_true ht.2
  · refine pieceIsBehind_of_tokens (by rw [split_eq h]) hb fun t ht => ?_
    rw [hsnd, List.mem_filter] at ht
    exact of_decide_eq_true ht.2

theorem within_split (h : SortedTokens p.positioned) (ha : (p.split range).1.isEmpty = false)
    (hb : (p.split range).2.isEmpty = false) :
    Within p (p.split range).1 ∧ Within p (p.split range).2 := by
  have hfst := split_fst h range
  have hsnd := split_snd h range
  constructor
  · refine within_of_subset h (hfst ▸ h.sublist List.filter_sublist)
      (fun t ht => List.mem_of_mem_filter (hfst ▸ ht)) ?_ ha
    rw [split_eq h]
  · refine within_of_subset h (hsnd ▸ h.sublist List.filter_sublist)
      (fun t ht => List.mem_of_mem_filter (hsnd ▸ ht)) ?_ hb
    rw [split_eq h, rebased]
    dsimp only
    omega

@[simp] theorem allTokens_cons (p : SparseMultilineTokens) (rest : List SparseMultilineTokens) :
    allTokens (p :: rest) = p.positioned ++ allTokens rest := rfl

theorem allTokens_append (a b : List SparseMultilineTokens) :
    allTokens (a ++ b) = allTokens a ++ allTokens b := List.flatMap_append

theorem filter_touches_of_behind {tokens : List PositionedToken} (h : ∀ t ∈ tokens, IsBehind range t) :
    tokens.filter (fun t => !touches range t) = tokens := by
  rw [List.filter_eq_self]
  intro t ht
  rw [touches_eq_false_iff.mpr (Or.inr (h t ht))]
  rfl

theorem PieceIsBehind.of_within {p' : SparseMultilineTokens} (h : PieceIsBehind range p)
    (hsubset : ∀ t ∈ p'.positioned, t ∈ p.positioned)
    (hstart : p.startLineNumber ≤ p'.startLineNumber) : PieceIsBehind range p' :=
  ⟨fun t ht => h.tokens t (hsubset t ht), h.startLine.trans hstart⟩

theorem setPartialLoop_behind (index : Nat) (done : List SparseMultilineTokens)
    (hbehind : ∀ p ∈ rest, PieceIsBehind range p ∧ SortedTokens p.positioned) :
    ∃ out, setPartialLoop range done (some index) rest = (done ++ out, some index) ∧
      allTokens out = allTokens rest ∧ KeepsOrder rest out ∧ ∀ p ∈ out, PieceIsBehind range p := by
  induction rest generalizing done with
  | nil => exact ⟨[], by rw [setPartialLoop, List.append_nil], rfl, keepsOrder_refl _, by simp⟩
  | cons p rest ih =>
    obtain ⟨⟨hp, hsorted⟩, hrest⟩ := List.forall_mem_cons.mp hbehind
    have hkeep (p' : SparseMultilineTokens) (hp' : PieceIsBehind range p')
        (htokens : p'.positioned = p.positioned)
        (horder : ∀ out, KeepsOrder rest out → KeepsOrder (p :: rest) (p' :: out)) :
        ∃ out, setPartialLoop range (done ++ [p']) (some index) rest = (done ++ out, some index) ∧
          allTokens out = allTokens (p :: rest) ∧ KeepsOrder (p :: rest) out ∧
          ∀ p ∈ out, PieceIsBehind range p := by
      obtain ⟨out, heq, hall, hkeeps, hout⟩ := ih (done ++ [p']) hrest
      refine ⟨p' :: out, ?_, ?_, horder out hkeeps, List.forall_mem_cons.mpr ⟨hp', hout⟩⟩
      · rw [heq, List.append_assoc]
        rfl
      · rw [allTokens_cons, allTokens_cons, hall, htokens]
    have htokens : (p.removeTokens range).positioned = p.positioned := by
      rw [positioned_removeTokens hsorted, filter_touches_of_behind hp.tokens]
    have hremoved (hne : (p.removeTokens range).isEmpty = false) :=
      hkeep (p.removeTokens range)
        (hp.of_within (fun t ht => htokens ▸ ht) (within_removeTokens hsorted hne).startLine) htokens
        fun out hkeeps => hkeeps.replace [p.removeTokens range]
          (fun q hq => List.mem_singleton.mp hq ▸ within_removeTokens hsorted hne)
          (List.pairwise_singleton _ _)
    rw [setPartialLoop]
    dsimp only
    split_ifs with hend hstart hempty hend' hstart' ha hb
    · exact hkeep p hp rfl fun out hkeeps => hkeeps.cons p
    · exact ⟨p :: rest, rfl, rfl, keepsOrder_refl _, fun q hq => (hbehind q hq).1⟩
    · obtain ⟨out, heq, hall, hkeeps, hout⟩ := ih done hrest
      refine ⟨out, heq, ?_, hkeeps.replace [] (by simp) List.Pairwise.nil, hout⟩
      rw [allTokens_cons, hall, ← htokens, positioned_eq_nil hempty]
      rfl
    · exact hremoved (Bool.eq_false_of_not_eq_true hempty)
    · exact hremoved (Bool.eq_false_of_not_eq_true hempty)
    · exact hremoved (Bool.eq_false_of_not_eq_true hempty)
    · exact hremoved (Bool.eq_false_of_not_eq_true hempty)
    · -- no part of the piece is before the range
      refine absurd (?_ : ((p.removeTokens range).split range).1.isEmpty = true) ha
      have hnone : ((p.removeTokens range).split range).1.positioned = [] := by
        rw [split_fst (sorted_removeTokens hsorted range), List.filter_eq_nil_iff, htokens]
        intro t ht hbefore
        exact not_isBefore_of_isBehind (hp.tokens t ht) (hsorted.nonneg t ht) (of_decide_eq_true hbefore)
      rw [SparseMultilineTokens.positioned, List.map_eq_nil_iff] at hnone
      rw [SparseMultilineTokens.isEmpty, hnone]
      rfl

def Replaced (range : Range) (done rest : List SparseMultilineTokens)
    (result : List SparseMultilineTokens × Option Nat) : Prop :=
  ∃ before behind, result.1 = done ++ (before ++ behind) ∧
    result.2.getD result.1.length = done.length + before.length ∧
    allTokens (before ++ behind) = (allTokens rest).filter (fun t => !touches range t) ∧
    KeepsOrder rest (before ++ behind) ∧ (∀ p ∈ before, PieceIsBefore range p) ∧
    ∀ p ∈ behind, PieceIsBehind range p

theorem Replaced.push_before {done : List SparseMultilineTokens} {p' : SparseMultilineTokens}
    {result : List SparseMultilineTokens × Option Nat}
    (h : Replaced range (done ++ [p']) rest result) (hp' : PieceIsBefore range p')
    (htokens : p'.positioned = p.positioned.filter fun t => !touches range t)
    (horder : ∀ out, KeepsOrder rest out → KeepsOrder (p :: rest) (p' :: out)) :
    Replaced range done (p :: rest) result := by
  obtain ⟨before, behind, hresult, hindex, hall, hkeeps, hbefore, hbehind⟩ := h
  refine ⟨p' :: before, behind, ?_, ?_, ?_, horder _ hkeeps, List.forall_mem_cons.mpr ⟨hp', hbefore⟩,
    hbehind⟩
  · rw [hresult, List.append_assoc]
    rfl
  · rw [hindex, List.length_append, List.length_singleton, List.length_cons, Nat.add_assoc, Nat.add_comm 1]
  · rw [List.cons_append, allTokens_cons, hall, allTokens_cons, List.filter_append, htokens]

theorem Replaced.push_behind {done : List SparseMultilineTokens} (before : List SparseMultilineTokens)
    {p' : SparseMultilineTokens} (hrest : ∀ q ∈ rest, PieceIsBehind range q ∧ SortedTokens q.positioned)
    (hbefore : ∀ q ∈ before, PieceIsBefore range q) (hp' : PieceIsBehind range p')
    (htokens : allTokens (before ++ [p']) = p.positioned.filter fun t => !touches range t)
    (horder : ∀ out, KeepsOrder rest out → KeepsOrder (p :: rest) (before ++ p' :: out)) :
    Replaced range done (p :: rest)
      (setPartialLoop range (done ++ (before ++ [p'])) (some (done.length + before.length)) rest) := by
  obtain ⟨out, heq, hall, hkeeps, hout⟩ :=
    setPartialLoop_behind (done.length + before.length) (done ++ (before ++ [p'])) hrest
  have hrest_tokens : (allTokens rest).filter (fun t => !touches range t) = allTokens rest := by
    refine filter_touches_of_behind fun t ht => ?_
    obtain ⟨q, hq, ht⟩ := List.mem_flatMap.mp ht
    exact (hrest q hq).1.tokens t ht
  refine ⟨before, p' :: out, ?_, ?_, ?_, horder out hkeeps, hbefore, List.forall_mem_cons.mpr ⟨hp', hout⟩⟩
  · rw [heq, List.append_assoc, List.append_assoc]
    rfl
  · rw [heq]
    rfl
  · rw [List.append_cons, allTokens_append, hall, htokens, allTokens_cons, List.filter_append, hrest_tokens]

theorem sublist_allTokens (hq : q ∈ rest) : q.positioned.Sublist (allTokens rest) := by
  rw [allTokens, List.flatMap_def]
  exact List.sublist_flatten_of_mem (List.mem_map_of_mem hq)

theorem behind_rest (hsorted : SortedTokens (allTokens (p :: rest)))
    (hlines : ∀ q ∈ rest, PieceBefore p q) (ht : t ∈ p.positioned) (hbehind : IsBehind range t) :
    ∀ q ∈ rest, PieceIsBehind range q ∧ SortedTokens q.positioned := by
  rw [allTokens_cons] at hsorted
  have hp := hsorted.sublist (List.sublist_append_left _ _)
  intro q hq
  have hsub : q.positioned.Sublist (p.positioned ++ allTokens rest) :=
    (sublist_allTokens hq).trans (List.sublist_append_right _ _)
  refine ⟨⟨fun u hu => ?_, ?_⟩, hsorted.sublist hsub⟩
  · exact hbehind.of_precedes (hp.nonneg t ht) ((List.pairwise_append.mp hsorted.pairwise).2.2 t ht u
      (List.mem_flatMap.mpr ⟨q, hq, hu⟩))
  · have hline := hbehind.le_line
    have hbounds := line_bounds hp ht
    have hpq := (hlines q hq).1
    omega

theorem setPartialLoop_spec (done : List SparseMultilineTokens)
    (hsorted : SortedTokens (allTokens rest)) (hlines : rest.Pairwise PieceBefore) :
    Replaced range done rest (setPartialLoop range done none rest) := by
  induction rest generalizing done with
  | nil =>
    refine ⟨[], [], ?_, rfl, rfl, keepsOrder_refl _, by simp, by simp⟩
    rw [setPartialLoop, List.append_nil, List.append_nil]
  | cons p rest ih =>
    obtain ⟨hp_lines, hrest_lines⟩ := List.pairwise_cons.mp hlines
    have hp : SortedTokens p.positioned := hsorted.sublist (List.sublist_append_left _ _)
    have hrest : SortedTokens (allTokens rest) := hsorted.sublist (List.sublist_append_right _ _)
    have htokens := positioned_removeTokens hp range
    have hp' := sorted_removeTokens hp range
    have horder (hne : (p.removeTokens range).isEmpty = false) (out : List SparseMultilineTokens)
        (hkeeps : KeepsOrder rest out) : KeepsOrder (p :: rest) (p.removeTokens range :: out) :=
      hkeeps.replace [p.removeTokens range]
        (fun q hq => List.mem_singleton.mp hq ▸ within_removeTokens hp hne)
        (List.pairwise_singleton _ _)
    have hpush (hne : (p.removeTokens range).isEmpty = false)
        (hbehind : ∀ t ∈ (p.removeTokens range).positioned, IsBehind range t) :
        Replaced range done (p :: rest)
          (setPartialLoop range (done ++ [p.removeTokens range]) (some done.length) rest) := by
      obtain ⟨t, ht, -⟩ := exists_line_eq_end hne
      have hmem := ht
      rw [htokens] at hmem
      refine Replaced.push_behind [] (behind_rest hsorted hp_lines
        (List.mem_of_mem_filter hmem) (hbehind t ht)) (by simp)
        (pieceIsBehind_of_tokens (removeTokens_eq range) hne hbehind) ?_ (horder hne)
      rw [List.nil_append, allTokens_cons, htokens]
      exact List.append_nil _
    have hsplit (hne : (p.removeTokens range).isEmpty = false)
        (ha : ((p.removeTokens range).split range).1.isEmpty = false)
        (hb : ((p.removeTokens range).split range).2.isEmpty = false) :
        Replaced range done (p :: rest) (setPartialLoop range (done ++
          [((p.removeTokens range).split range).1, ((p.removeTokens range).split range).2])
          (some (done.length + 1)) rest) := by
      obtain ⟨hbefore, hbehind, htogether⟩ := split_spec hp' (fun t ht => removed_outside hp ht) ha hb
      obtain ⟨hwithin_a, hwithin_b⟩ := within_split hp' ha hb
      have hwithin := within_removeTokens hp hne
      obtain ⟨t, ht, -⟩ := exists_line_eq_end hb
      have hmem := ht
      rw [split_snd hp', List.mem_filter, htokens] at hmem
      refine Replaced.push_behind [_] (behind_rest hsorted hp_lines
        (List.mem_of_mem_filter hmem.1) (of_decide_eq_true hmem.2))
        (fun q hq => List.mem_singleton.mp hq ▸ hbefore) hbehind ?_ fun out hkeeps => ?_
      · rw [List.singleton_append, allTokens_cons, allTokens_cons, ← htokens, ← htogether]
        exact congrArg _ (List.append_nil _)
      · refine hkeeps.replace [_, _] (fun q hq => ?_) (List.pairwise_pair.mpr ⟨?_, ?_⟩)
        · rcases List.mem_pair.mp hq with rfl | rfl
          · exact hwithin.trans hwithin_a
          · exact hwithin.trans hwithin_b
        · exact hbefore.endLine.trans ((startLine_le range).trans hbehind.startLine)
        · exact hbefore.startLine.trans ((startLine_le range).trans hbehind.startLine)
    rw [setPartialLoop]
    dsimp only
    split_ifs with hend hstart hempty hend' hstart' ha hb
    · have hbefore := pieceIsBefore_of_end_lt hp hend
      refine (ih (done ++ [p]) hrest hrest_lines).push_before hbefore ?_ fun out hkeeps => hkeeps.cons p
      symm
      rw [List.filter_eq_self]
      intro t ht
      rw [touches_eq_false_iff.mpr (Or.inl (hbefore.tokens t ht))]
      rfl
    · have hbehind : ∀ q ∈ p :: rest, PieceIsBehind range q := by
        refine List.forall_mem_cons.mpr ⟨pieceIsBehind_of_lt_start hp hstart, fun q hq => ?_⟩
        have hpq := (hp_lines q hq).2
        have hsub : SortedTokens q.positioned := hrest.sublist (sublist_allTokens hq)
        exact pieceIsBehind_of_lt_start hsub (by omega)
      refine ⟨[], p :: rest, rfl, rfl, ?_, keepsOrder_refl _, by simp, hbehind⟩
      symm
      refine filter_touches_of_behind fun t ht => ?_
      obtain ⟨q, hq, ht⟩ := List.mem_flatMap.mp ht
      exact (hbehind q hq).tokens t ht
    · obtain ⟨before, behind, hresult, hindex, hall, hkeeps, hbefore, hbehind⟩ := ih done hrest hrest_lines
      refine ⟨before, behind, hresult, hindex, ?_, hkeeps.replace [] (by simp) List.Pairwise.nil, hbefore, hbehind⟩
      rw [hall, allTokens_cons, List.filter_append, ← htokens, positioned_eq_nil hempty]
      rfl
    · exact (ih (done ++ [p.removeTokens range]) hrest hrest_lines).push_before
        (pieceIsBefore_of_end_lt hp' hend') htokens
        (horder (Bool.eq_false_of_not_eq_true hempty))
    · exact hpush (Bool.eq_false_of_not_eq_true hempty) (pieceIsBehind_of_lt_start hp' (by omega)).tokens
    · refine hpush (Bool.eq_false_of_not_eq_true hempty) fun t ht => ?_
      have hnot := mem_of_isEmpty_filter (split_fst hp' range) ha ht
      exact (removed_outside hp ht).resolve_left (of_decide_eq_false hnot)
    · refine (ih (done ++ [p.removeTokens range]) hrest hrest_lines).push_before
        (pieceIsBefore_of_tokens hp' (Bool.eq_false_of_not_eq_true hempty) fun t ht => ?_) htokens
        (horder (Bool.eq_false_of_not_eq_true hempty))
      have hnot := mem_of_isEmpty_filter (split_snd hp' range) hb ht
      exact (removed_outside hp ht).resolve_right (of_decide_eq_false hnot)
    · exact hsplit (Bool.eq_false_of_not_eq_true hempty) (Bool.eq_false_of_not_eq_true ha)
        (Bool.eq_false_of_not_eq_true hb)

end Gavea.SparseTokens
