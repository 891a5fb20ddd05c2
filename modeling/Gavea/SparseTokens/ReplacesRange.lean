import Gavea.SparseTokens.Replacing

namespace Gavea.SparseTokens

open Gavea.Core (Range)

variable {range r : Range} {p q : SparseMultilineTokens} {t u : PositionedToken}
  {tokens : List PositionedToken} {oldPieces pieces : List SparseMultilineTokens}

def StartsWithin (range : Range) (t : PositionedToken) : Prop :=
  range.startLineNumber < t.line ∨ range.startLineNumber = t.line ∧ range.startColumn - 1 ≤ t.startCharacter

def EndsWithin (range : Range) (t : PositionedToken) : Prop :=
  t.line < range.endLineNumber ∨ t.line = range.endLineNumber ∧ (t.endCharacter : Int) ≤ range.endColumn - 1

structure Covers (range r : Range) : Prop where
  start : range.startLineNumber < r.startLineNumber ∨
    range.startLineNumber = r.startLineNumber ∧ range.startColumn ≤ r.startColumn
  stop : r.endLineNumber < range.endLineNumber ∨ r.endLineNumber = range.endLineNumber ∧ r.endColumn ≤ range.endColumn

theorem Covers.trans {r' : Range} (h : Covers range r) (h' : Covers r r') : Covers range r' := by
  obtain ⟨hstart, hstop⟩ := h
  obtain ⟨hstart', hstop'⟩ := h'
  constructor <;> omega

theorem covers_plusRange (a b : Range) : Covers (a.plusRange b) a ∧ Covers (a.plusRange b) b := by
  have ha := a.le
  have hb := b.le
  obtain ⟨start, hstart, hstart_a, hstart_b⟩ : ∃ start : Core.Position,
      (if b.startLineNumber < a.startLineNumber then ⟨b.startLineNumber, b.startColumn⟩
        else if b.startLineNumber = a.startLineNumber then
          ⟨b.startLineNumber, min b.startColumn a.startColumn⟩
        else ⟨a.startLineNumber, a.startColumn⟩ : Core.Position) = start ∧
      (start.lineNumber < a.startLineNumber ∨ start.lineNumber = a.startLineNumber ∧ start.column ≤ a.startColumn) ∧
      (start.lineNumber < b.startLineNumber ∨
        start.lineNumber = b.startLineNumber ∧ start.column ≤ b.startColumn) := by
    refine ⟨_, rfl, ?_⟩
    split_ifs <;> dsimp only <;> omega
  obtain ⟨stop, hstop, hstop_a, hstop_b⟩ : ∃ stop : Core.Position,
      (if b.endLineNumber > a.endLineNumber then ⟨b.endLineNumber, b.endColumn⟩
        else if b.endLineNumber = a.endLineNumber then
          ⟨b.endLineNumber, max b.endColumn a.endColumn⟩
        else ⟨a.endLineNumber, a.endColumn⟩ : Core.Position) = stop ∧
      (a.endLineNumber < stop.lineNumber ∨ a.endLineNumber = stop.lineNumber ∧ a.endColumn ≤ stop.column) ∧
      (b.endLineNumber < stop.lineNumber ∨
        b.endLineNumber = stop.lineNumber ∧ b.endColumn ≤ stop.column) := by
    refine ⟨_, rfl, ?_⟩
    split_ifs <;> dsimp only <;> omega
  rw [Range.plusRange, hstart, hstop, Range.new, dif_neg (by omega)]
  exact ⟨⟨hstart_a, hstop_a⟩, hstart_b, hstop_b⟩

theorem StartsWithin.of_covers (h : Covers range r) (ht : StartsWithin r t) : StartsWithin range t := by
  have hstart := h.start
  rw [StartsWithin] at *
  omega

theorem EndsWithin.of_covers (h : Covers range r) (ht : EndsWithin r t) : EndsWithin range t := by
  have hstop := h.stop
  rw [EndsWithin] at *
  omega

theorem SortedTokens.head_precedes (h : SortedTokens tokens) (ht : tokens.head? = some t)
    (hu : u ∈ tokens) : u = t ∨ Precedes t u := by
  cases tokens with
  | nil => exact nomatch ht
  | cons t' rest =>
    obtain rfl := Option.some.inj ht
    rcases List.mem_cons.mp hu with rfl | htail
    · exact Or.inl rfl
    · exact Or.inr ((List.pairwise_cons.mp h.pairwise).1 u htail)

theorem SortedTokens.precedes_last (h : SortedTokens tokens) (ht : tokens.getLast? = some t)
    (hu : u ∈ tokens) : u = t ∨ Precedes u t := by
  obtain ⟨init, rfl⟩ := List.getLast?_eq_some_iff.mp ht
  rcases List.mem_append.mp hu with hinit | hlast
  · exact Or.inr ((List.pairwise_append.mp h.pairwise).2.2 u hinit t List.mem_cons_self)
  · exact Or.inl (List.mem_singleton.mp hlast)

theorem getRange_spec (h : SortedTokens p.positioned) (hne : p.isEmpty = false) :
    ∃ first last r, p.positioned.head? = some first ∧ p.positioned.getLast? = some last ∧
      p.getRange = some r ∧ StartsWithin r first ∧ EndsWithin r last ∧
      r.startLineNumber = p.startLineNumber ∧ r.endLineNumber = p.endLineNumber := by
  rw [SparseMultilineTokens.isEmpty, List.isEmpty_eq_false_iff] at hne
  obtain ⟨first, hfirst⟩ : ∃ first, p.tokens.head? = some first := ⟨_, List.head?_eq_some_head hne⟩
  obtain ⟨last, hlast⟩ : ∃ last, p.tokens.getLast? = some last := ⟨_, List.getLast?_eq_some_getLast hne⟩
  have hfirst' : p.positioned.head? = some (first.position p.startLineNumber) := by
    rw [SparseMultilineTokens.positioned, List.head?_map, hfirst]
    rfl
  have hlast' : p.positioned.getLast? = some (last.position p.startLineNumber) := by
    rw [SparseMultilineTokens.positioned, List.getLast?_map, hlast]
    rfl
  have hchars : (0 : Int) = last.deltaLine → first.startCharacter ≤ last.endCharacter := by
    intro hzero
    have hle := h.nonneg _ (List.mem_of_mem_getLast? hlast')
    have hle' := h.nonneg _ (List.mem_of_mem_head? hfirst')
    rcases h.head_precedes hfirst' (List.mem_of_mem_getLast? hlast') with heq | hprecedes
    · have hstart : last.startCharacter = first.startCharacter := congrArg PositionedToken.startCharacter heq
      exact hstart ▸ hle
    · dsimp only [Precedes, SparseToken.position] at hprecedes hle hle'
      omega
  have hnew : Range.new 0 (first.startCharacter + 1) last.deltaLine (last.endCharacter + 1) =
      ⟨0, first.startCharacter + 1, last.deltaLine, last.endCharacter + 1, by omega⟩ :=
    dif_neg (by omega)
  have hnew' : Range.new (p.startLineNumber + 0) (first.startCharacter + 1)
      (p.startLineNumber + last.deltaLine) (last.endCharacter + 1) =
      ⟨p.startLineNumber + 0, first.startCharacter + 1, p.startLineNumber + last.deltaLine,
        last.endCharacter + 1, by omega⟩ :=
    dif_neg (by omega)
  refine ⟨_, _, ⟨p.startLineNumber + 0, first.startCharacter + 1, p.startLineNumber + last.deltaLine,
    last.endCharacter + 1, by omega⟩, hfirst', hlast', ?_, ?_, ?_, add_zero _, ?_⟩
  · rw [SparseMultilineTokens.getRange, hfirst, hlast]
    dsimp only
    rw [hnew, hnew']
  · dsimp only [StartsWithin, SparseToken.position]
    omega
  · dsimp only [EndsWithin, SparseToken.position]
    omega
  · rw [SparseMultilineTokens.endLineNumber, getMaxDeltaLine, hlast]

structure PiecesWithin (range : Range) (pieces : List SparseMultilineTokens) : Prop where
  starts : ∀ t ∈ allTokens pieces, StartsWithin range t
  ends : ∀ t ∈ allTokens pieces, EndsWithin range t
  lines : ∀ p ∈ pieces, range.startLineNumber ≤ p.startLineNumber ∧
    p.startLineNumber ≤ range.endLineNumber ∧ p.endLineNumber ≤ range.endLineNumber

theorem StartsWithin.of_precedes (ht : StartsWithin range t) (hle : t.startCharacter ≤ t.endCharacter)
    (htu : Precedes t u) : StartsWithin range u := by
  rw [StartsWithin, Precedes] at *
  omega

theorem EndsWithin.of_precedes (ht : EndsWithin range t) (hle : t.startCharacter ≤ t.endCharacter)
    (hut : Precedes u t) : EndsWithin range u := by
  rw [EndsWithin, Precedes] at *
  omega

theorem sorted_piece (h : SortedPieces pieces) (hp : p ∈ pieces) : SortedTokens p.positioned :=
  h.tokens.sublist (sublist_allTokens hp)

theorem piecesWithin {first last : SparseMultilineTokens} {firstRange lastRange : Range}
    (h : SortedPieces pieces) (hfirst : pieces.head? = some first)
    (hlast : pieces.getLast? = some last) (hne : first.isEmpty = false) (hne' : last.isEmpty = false)
    (hfirstRange : first.getRange = some firstRange) (hlastRange : last.getRange = some lastRange)
    (hcovers : Covers range firstRange) (hcovers' : Covers range lastRange) :
    PiecesWithin range pieces := by
  have hfirst_mem := List.mem_of_mem_head? hfirst
  have hlast_mem := List.mem_of_mem_getLast? hlast
  obtain ⟨t, -, r, ht, -, hr, hstarts, -, hr_start, hr_end⟩ := getRange_spec (sorted_piece h hfirst_mem) hne
  obtain rfl := Option.some.inj (hr.symm.trans hfirstRange)
  obtain ⟨-, u, r', -, hu, hr', -, hends, hr'_start, hr'_end⟩ := getRange_spec (sorted_piece h hlast_mem) hne'
  obtain rfl := Option.some.inj (hr'.symm.trans hlastRange)
  have hstarts := hstarts.of_covers hcovers
  have hends := hends.of_covers hcovers'
  have ht_head : (allTokens pieces).head? = some t := by
    obtain ⟨tail, rfl⟩ := List.head?_eq_some_iff.mp hfirst
    rw [allTokens_cons, List.head?_append, ht]
    rfl
  have hu_last : (allTokens pieces).getLast? = some u := by
    obtain ⟨init, rfl⟩ := List.getLast?_eq_some_iff.mp hlast
    rw [allTokens_append, List.getLast?_append, allTokens_cons, List.getLast?_append, hu]
    rfl
  have ht_nonneg := h.tokens.nonneg t (List.mem_of_mem_head? ht_head)
  have hu_nonneg := h.tokens.nonneg u (List.mem_of_mem_getLast? hu_last)
  refine ⟨fun v hv => ?_, fun v hv => ?_, fun p hp => ?_⟩
  · rcases h.tokens.head_precedes ht_head hv with rfl | hprecedes
    · exact hstarts
    · exact hstarts.of_precedes ht_nonneg hprecedes
  · rcases h.tokens.precedes_last hu_last hv with rfl | hprecedes
    · exact hends
    · exact hends.of_precedes hu_nonneg hprecedes
  · have hstart := hcovers.start
    have hstop := hcovers'.stop
    have hp_first : p = first ∨ PieceBefore first p := by
      obtain ⟨tail, rfl⟩ := List.head?_eq_some_iff.mp hfirst
      exact (List.mem_cons.mp hp).imp_right ((List.pairwise_cons.mp h.lines).1 p)
    have hp_last : p = last ∨ PieceBefore p last := by
      obtain ⟨init, rfl⟩ := List.getLast?_eq_some_iff.mp hlast
      rcases List.mem_append.mp hp with hinit | hend
      · exact Or.inr ((List.pairwise_append.mp h.lines).2.2 p hinit last List.mem_cons_self)
      · exact Or.inl (List.mem_singleton.mp hend)
    have hlast_le : last.startLineNumber ≤ last.endLineNumber := by
      obtain ⟨v, hv, -⟩ := exists_line_eq_end hne'
      have hbounds := line_bounds (sorted_piece h hlast_mem) hv
      omega
    have hp_start : first.startLineNumber ≤ p.startLineNumber := by
      rcases hp_first with rfl | hbefore
      · exact le_refl _
      · exact hbefore.2
    have hp_end : p.startLineNumber ≤ last.endLineNumber ∧ p.endLineNumber ≤ last.endLineNumber := by
      rcases hp_last with rfl | hbefore
      · exact ⟨hlast_le, le_refl _⟩
      · exact ⟨hbefore.2.trans hlast_le, hbefore.1.trans hlast_le⟩
    omega

theorem IsBefore.precedes (h : IsBefore range t) (hu : StartsWithin range u) : Precedes t u := by
  rw [IsBefore] at h
  rw [StartsWithin] at hu
  rw [Precedes]
  omega

theorem IsBehind.precedes (h : IsBehind range t) (hu : EndsWithin range u) : Precedes u t := by
  rw [IsBehind] at h
  rw [EndsWithin] at hu
  rw [Precedes]
  omega

theorem sortedPieces_insert {before behind : List SparseMultilineTokens} (h : SortedPieces pieces)
    (hwithin : PiecesWithin range pieces) (hbefore : ∀ p ∈ before, PieceIsBefore range p)
    (hbehind : ∀ p ∈ behind, PieceIsBehind range p) (hrest : SortedPieces (before ++ behind)) :
    SortedPieces (before ++ pieces ++ behind) := by
  obtain ⟨hbefore_lines, hbehind_lines, hacross⟩ := List.pairwise_append.mp hrest.lines
  have hrest_tokens := hrest.tokens
  rw [allTokens_append] at hrest_tokens
  obtain ⟨hbefore_tokens, hbehind_tokens, hacross_tokens⟩ := List.pairwise_append.mp hrest_tokens.pairwise
  have hbefore' (t : PositionedToken) (ht : t ∈ allTokens before) : IsBefore range t := by
    obtain ⟨p, hp, ht⟩ := List.mem_flatMap.mp ht
    exact (hbefore p hp).tokens t ht
  have hbehind' (t : PositionedToken) (ht : t ∈ allTokens behind) : IsBehind range t := by
    obtain ⟨p, hp, ht⟩ := List.mem_flatMap.mp ht
    exact (hbehind p hp).tokens t ht
  refine ⟨⟨?_, fun t ht => ?_⟩, ?_⟩
  · rw [allTokens_append, allTokens_append]
    refine List.pairwise_append.mpr ⟨List.pairwise_append.mpr ⟨hbefore_tokens, h.tokens.pairwise,
      fun t ht u hu => (hbefore' t ht).precedes (hwithin.starts u hu)⟩, hbehind_tokens, fun t ht u hu => ?_⟩
    rcases List.mem_append.mp ht with hold | hnew
    · exact hacross_tokens t hold u hu
    · exact (hbehind' u hu).precedes (hwithin.ends t hnew)
  · rw [allTokens_append, allTokens_append] at ht
    rcases List.mem_append.mp ht with hfront | hback
    · rcases List.mem_append.mp hfront with hold | hnew
      · exact hrest_tokens.nonneg t (List.mem_append_left _ hold)
      · exact h.tokens.nonneg t hnew
    · exact hrest_tokens.nonneg t (List.mem_append_right _ hback)
  · refine List.pairwise_append.mpr ⟨List.pairwise_append.mpr ⟨hbefore_lines, h.lines,
      fun p hp q hq => ?_⟩, hbehind_lines, fun p hp q hq => ?_⟩
    · have hp' := hbefore p hp
      have hq' := (hwithin.lines q hq).1
      exact ⟨hp'.endLine.trans hq', hp'.startLine.trans hq'⟩
    · rcases List.mem_append.mp hp with hold | hnew
      · exact hacross p hold q hq
      · have hp' := (hwithin.lines p hnew).2
        have hq' := (hbehind q hq).startLine
        exact ⟨hp'.2.trans hq', hp'.1.trans hq'⟩

structure ReplacesRange (oldPieces : List SparseMultilineTokens) (range : Range)
    (pieces result : List SparseMultilineTokens) : Prop where
  tokens : (allTokens result).Perm ((allTokens oldPieces).filter (fun t => !touches range t) ++ allTokens pieces)
  sorted : SortedPieces result

theorem replacesRange_loop (hold : SortedPieces oldPieces) :
    ReplacesRange oldPieces range [] (setPartialLoop range [] none oldPieces).1 := by
  obtain ⟨before, behind, hresult, -, htokens, hkeeps, -, -⟩ := @setPartialLoop_spec range _ [] hold.tokens hold.lines
  rw [List.nil_append] at hresult
  rw [hresult]
  refine ⟨?_, ?_, hkeeps [] hold.lines⟩
  · rw [htokens]
    exact List.Perm.of_eq (List.append_nil _).symm
  · rw [htokens]
    exact hold.tokens.sublist List.filter_sublist

theorem replacesRange_insert (hold : SortedPieces oldPieces) (hnew : SortedPieces pieces)
    (hwithin : PiecesWithin range pieces) :
    ReplacesRange oldPieces range pieces
      ((setPartialLoop range [] none oldPieces).1.take
          ((setPartialLoop range [] none oldPieces).2.getD
            (setPartialLoop range [] none oldPieces).1.length) ++ pieces ++
        (setPartialLoop range [] none oldPieces).1.drop
          ((setPartialLoop range [] none oldPieces).2.getD
            (setPartialLoop range [] none oldPieces).1.length)) := by
  obtain ⟨before, behind, hresult, hindex, htokens, hkeeps, hbefore, hbehind⟩ :=
    @setPartialLoop_spec range _ [] hold.tokens hold.lines
  rw [List.nil_append] at hresult
  rw [List.length_nil, Nat.zero_add] at hindex
  rw [hindex, hresult, List.take_left, List.drop_left]
  refine ⟨?_, sortedPieces_insert hnew hwithin hbefore hbehind
    ⟨htokens ▸ hold.tokens.sublist List.filter_sublist, hkeeps [] hold.lines⟩⟩
  rw [← htokens, allTokens_append, allTokens_append, allTokens_append, List.append_assoc, List.append_assoc]
  exact List.perm_append_comm.append_left _

theorem getRange_eq_none (h : p.isEmpty = true) : p.getRange = none := by
  rw [SparseMultilineTokens.isEmpty, List.isEmpty_iff] at h
  rw [SparseMultilineTokens.getRange, h]
  rfl

theorem replacesRange_self_iff (hold : SortedPieces oldPieces) :
    ReplacesRange oldPieces range pieces oldPieces ↔
      ((allTokens oldPieces).filter (touches range)).Perm (allTokens pieces) := by
  have hparts : (allTokens oldPieces).Perm
      ((allTokens oldPieces).filter (fun t => !touches range t) ++ (allTokens oldPieces).filter (touches range)) :=
    ((List.perm_append_comm).trans (List.filter_append_perm (touches range) _)).symm
  constructor
  · intro h
    exact (List.perm_append_left_iff _).mp (hparts.symm.trans h.tokens)
  · intro h
    exact ⟨hparts.trans (h.append_left _), hold⟩

/-- The call replaces the tokens of the returned range exactly if there are no new pieces, or the
first and the last of them have tokens, or the tokens to replace are the new ones. -/
theorem setPartial_replaces_iff (range : Range) (hold : SortedPieces oldPieces)
    (hnew : SortedPieces pieces) :
    ReplacesRange oldPieces (setPartial oldPieces range pieces).2 pieces
        (setPartial oldPieces range pieces).1 ↔
      (∀ p ∈ pieces.head?, p.isEmpty = false) ∧ (∀ p ∈ pieces.getLast?, p.isEmpty = false) ∨
        ((allTokens oldPieces).filter (touches range)).Perm (allTokens pieces) := by
  rcases eq_or_ne pieces [] with rfl | hne
  · exact iff_of_true (replacesRange_loop hold) (Or.inl ⟨by simp, by simp⟩)
  · obtain ⟨first, hfirst⟩ : ∃ first, pieces.head? = some first := ⟨_, List.head?_eq_some_head hne⟩
    obtain ⟨last, hlast⟩ : ∃ last, pieces.getLast? = some last := ⟨_, List.getLast?_eq_some_getLast hne⟩
    have hempty (hnone : first.isEmpty = true ∨ last.isEmpty = true)
        (hsame : setPartial oldPieces range pieces = (oldPieces, range)) :
        ReplacesRange oldPieces (setPartial oldPieces range pieces).2 pieces
            (setPartial oldPieces range pieces).1 ↔
          (∀ p ∈ some first, p.isEmpty = false) ∧ (∀ p ∈ some last, p.isEmpty = false) ∨
            ((allTokens oldPieces).filter (touches range)).Perm (allTokens pieces) := by
      rw [hsame, replacesRange_self_iff hold, or_iff_right]
      rintro ⟨hfirst_some, hlast_some⟩
      rcases hnone with htrue | htrue
      · exact Bool.noConfusion (htrue.symm.trans (hfirst_some first rfl))
      · exact Bool.noConfusion (htrue.symm.trans (hlast_some last rfl))
    rw [hfirst, hlast]
    cases hfirst_empty : first.isEmpty with
    | true =>
      refine hempty (Or.inl hfirst_empty) ?_
      rw [setPartial, hfirst, hlast]
      dsimp only
      rw [getRange_eq_none hfirst_empty]
    | false =>
      obtain ⟨-, -, firstRange, -, -, hfirstRange, -⟩ :=
        getRange_spec (sorted_piece hnew (List.mem_of_mem_head? hfirst)) hfirst_empty
      cases hlast_empty : last.isEmpty with
      | true =>
        refine hempty (Or.inr hlast_empty) ?_
        rw [setPartial, hfirst, hlast]
        dsimp only
        rw [hfirstRange, getRange_eq_none hlast_empty]
      | false =>
        obtain ⟨-, -, lastRange, -, -, hlastRange, -⟩ :=
          getRange_spec (sorted_piece hnew (List.mem_of_mem_getLast? hlast)) hlast_empty
        have hcovers := covers_plusRange (range.plusRange firstRange) lastRange
        have hwithin := piecesWithin hnew hfirst hlast hfirst_empty hlast_empty hfirstRange
          hlastRange (hcovers.1.trans (covers_plusRange range firstRange).2) hcovers.2
        refine iff_of_true ?_ (Or.inl ⟨?_, ?_⟩)
        · rw [setPartial, hfirst, hlast]
          dsimp only
          rw [hfirstRange, hlastRange]
          exact replacesRange_insert hold hnew hwithin
        · intro p hp
          exact Option.some.inj hp ▸ hfirst_empty
        · intro p hp
          exact Option.some.inj hp ▸ hlast_empty

instance (t u : PositionedToken) : Decidable (Precedes t u) := inferInstanceAs (Decidable (_ ∨ _))

instance (p q : SparseMultilineTokens) : Decidable (PieceBefore p q) := inferInstanceAs (Decidable (_ ∧ _))

/-- A token in the middle of a piece is replaced, and the piece is split around the new one. -/
theorem setPartial_replaces_middle :
    ReplacesRange [⟨1, [⟨0, 0, 2, 1⟩, ⟨1, 0, 2, 2⟩, ⟨4, 0, 2, 3⟩]⟩]
      (setPartial [⟨1, [⟨0, 0, 2, 1⟩, ⟨1, 0, 2, 2⟩, ⟨4, 0, 2, 3⟩]⟩] ⟨2, 1, 2, 3, by decide⟩
        [⟨3, [⟨0, 1, 4, 5⟩]⟩]).2 [⟨3, [⟨0, 1, 4, 5⟩]⟩]
      (setPartial [⟨1, [⟨0, 0, 2, 1⟩, ⟨1, 0, 2, 2⟩, ⟨4, 0, 2, 3⟩]⟩] ⟨2, 1, 2, 3, by decide⟩ [⟨3, [⟨0, 1, 4, 5⟩]⟩]).1 :=
  (setPartial_replaces_iff ⟨2, 1, 2, 3, by decide⟩ ⟨⟨by decide, by decide⟩, by decide⟩
    ⟨⟨by decide, by decide⟩, by decide⟩).mpr (Or.inl ⟨by decide, by decide⟩)

/-- An empty first piece keeps the others out of the store, and the old token in it. -/
theorem setPartial_not_replaces_empty_first :
    ¬∀ (oldPieces : List SparseMultilineTokens) (range : Range) (pieces : List SparseMultilineTokens),
      SortedPieces oldPieces → SortedPieces pieces →
        ReplacesRange oldPieces (setPartial oldPieces range pieces).2 pieces
          (setPartial oldPieces range pieces).1 := by
  intro h
  have hreplaces := h [⟨1, [⟨0, 0, 2, 1⟩]⟩] ⟨1, 1, 3, 1, by decide⟩ [⟨0, []⟩, ⟨2, [⟨0, 0, 3, 5⟩]⟩]
    ⟨⟨by decide, by decide⟩, by decide⟩ ⟨⟨by decide, by decide⟩, by decide⟩
  exact absurd hreplaces.tokens (by decide)

end Gavea.SparseTokens
