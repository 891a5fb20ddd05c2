import Gavea.ViewLayout.LinesDeleted
import Gavea.ViewLayout.LinesInserted

namespace Gavea.ViewLayout

open Gavea.Base LineHeightsManager

instance (s : Staged) : Decidable (FlushKeepsHeight s) := inferInstanceAs (Decidable (∀ k ∈ _, ∀ e ∈ _, _))

instance : (c : PendingChange) → Decidable c.WellFormed
  | .insertOrChange .. | .linesDeleted .. | .linesInserted .. => inferInstanceAs (Decidable (_ ∧ _))
  | .remove _ => inferInstanceAs (Decidable True)

def ChangeFits (s : Staged) : PendingChange → Prop
  | .insertOrChange .. | .remove _ => True
  | .linesDeleted fromLineNumber toLineNumber =>
    FlushKeepsHeight s ∧ DeletionFits (flushStagedDecorationChanges s).1.orderedCustomLines fromLineNumber toLineNumber
  | .linesInserted .. => FlushKeepsHeight s

instance (s : Staged) : (c : PendingChange) → Decidable (ChangeFits s c)
  | .insertOrChange .. | .remove _ => inferInstanceAs (Decidable True)
  | .linesDeleted .. => inferInstanceAs (Decidable (_ ∧ _))
  | .linesInserted .. => inferInstanceAs (Decidable (FlushKeepsHeight s))

def ChangesFit : Staged → List PendingChange → Prop
  | s, [] => FlushKeepsHeight s
  | s, c :: changes => c.WellFormed ∧ ChangeFits s c ∧ ChangesFit (commitChange s c) changes

instance ChangesFit.decidable : (s : Staged) → (changes : List PendingChange) →
    Decidable (ChangesFit s changes)
  | s, [] => inferInstanceAs (Decidable (FlushKeepsHeight s))
  | s, c :: changes =>
    have := ChangesFit.decidable (commitChange s c) changes
    inferInstanceAs (Decidable (_ ∧ _ ∧ _))

def CommitFits (m : LineHeightsManager) : Prop := ChangesFit ({ m with pendingChanges := [] }, []) m.pendingChanges

instance (m : LineHeightsManager) : Decidable (CommitFits m) := inferInstanceAs (Decidable (ChangesFit _ _))

structure Committing (defaultLineHeight : ℚ) (lines : NaiveLines) (s : Staged) : Prop where
  spread : lines.Spread
  staging : Staging lines s
  indexed : Indexed s.1.orderedCustomLines
  default : s.1.defaultLineHeight = defaultLineHeight

/-- Between two calls: the custom lines are a line array that the pending changes make this one. -/
structure Represents (defaultLineHeight : ℚ) (lines : NaiveLines) (m : LineHeightsManager) :
    Prop where
  invalid : m.invalidIndex = none
  default : m.defaultLineHeight = defaultLineHeight
  tracks : ∃ base : NaiveLines, base.Spread ∧
    Tracks defaultLineHeight base m.orderedCustomLines ∧
    m.pendingChanges.foldl NaiveLines.change base = lines

section Commit

variable {defaultLineHeight : ℚ} {lines : NaiveLines}

theorem flush_pendingChanges (s : Staged) :
    (flushStagedDecorationChanges s).1.pendingChanges = s.1.pendingChanges := by
  have hfold : ∀ (staged : List CustomLine) (m : LineHeightsManager),
      (staged.foldl insertStaged m).pendingChanges = m.pendingChanges := by
    intro staged
    induction staged with
    | nil => exact fun _ => rfl
    | cons e staged ih =>
      intro m
      rw [List.foldl_cons, ih]
      unfold insertStaged
      split <;> rfl
  obtain ⟨m, staged⟩ := s
  unfold flushStagedDecorationChanges
  simp only
  split
  · rfl
  · split
    · exact hfold staged m
    · exact hfold staged m

theorem doLinesDeleted_fields (m : LineHeightsManager) (fromLineNumber toLineNumber : Int) :
    (doLinesDeleted m fromLineNumber toLineNumber).invalidIndex = m.invalidIndex ∧
      (doLinesDeleted m fromLineNumber toLineNumber).defaultLineHeight = m.defaultLineHeight ∧
      (doLinesDeleted m fromLineNumber toLineNumber).pendingChanges = m.pendingChanges := by
  unfold doLinesDeleted
  simp only
  split
  · split <;> exact ⟨rfl, rfl, rfl⟩
  · exact ⟨rfl, rfl, rfl⟩

theorem foldl_doInsertOrChange_pendingChanges (toReAdd : List CustomLineHeightData) :
    ∀ s : Staged, (toReAdd.foldl (fun s data => doInsertOrChangeCustomLineHeight data s)
      s).1.pendingChanges = s.1.pendingChanges := by
  induction toReAdd with
  | nil => exact fun _ => rfl
  | cons data toReAdd ih => exact fun s => (ih _).trans rfl

theorem commitChange_pendingChanges (s : Staged) (c : PendingChange) :
    (commitChange s c).1.pendingChanges = s.1.pendingChanges := by
  cases c with
  | insertOrChange | remove => rfl
  | linesDeleted fromLineNumber toLineNumber =>
    exact (doLinesDeleted_fields _ fromLineNumber toLineNumber).2.2.trans (flush_pendingChanges s)
  | linesInserted fromLineNumber toLineNumber =>
    exact (foldl_doInsertOrChange_pendingChanges _ _).trans (flush_pendingChanges s)

theorem commitChange_committing {s : Staged} (h : Committing defaultLineHeight lines s)
    {c : PendingChange} (hwf : c.WellFormed) (hfits : ChangeFits s c) :
    Committing defaultLineHeight (lines.change c) (commitChange s c) := by
  obtain ⟨hs, hstaging, hindex, hdefault⟩ := h
  have hs' := hs.change hwf
  cases c with
  | insertOrChange decorationId startLineNumber endLineNumber lineHeight =>
    obtain ⟨hstaging', hindex'⟩ := doInsertOrChange_staging hstaging hindex
      ⟨decorationId, startLineNumber, endLineNumber, lineHeight⟩
    exact ⟨hs', hstaging', hindex', hdefault⟩
  | remove decorationId =>
    obtain ⟨hstaging', hindex'⟩ := doRemove_staging hstaging hindex decorationId
    exact ⟨hs', hstaging', hindex', hdefault⟩
  | linesDeleted fromLineNumber toLineNumber =>
    obtain ⟨htracks, hinvalid, hempty, hdefault'⟩ := flush_tracks hs hstaging hfits.1
    obtain ⟨hinvalid', hdefault'', -⟩ := doLinesDeleted_fields
      (flushStagedDecorationChanges s).1 fromLineNumber toLineNumber
    rw [← hdefault'] at htracks
    have htracks' := doLinesDeleted_tracks htracks hs hwf.1 hwf.2 hfits.2
    rw [← hdefault''] at htracks'
    have hstaging' := htracks'.staging (hinvalid'.trans hinvalid)
    refine ⟨hs', ?_, htracks'.index, hdefault''.trans (hdefault'.trans hdefault)⟩
    show Staging _ (_, (flushStagedDecorationChanges s).2)
    rw [hempty]
    exact hstaging'
  | linesInserted fromLineNumber toLineNumber =>
    obtain ⟨htracks, hinvalid, hempty, hdefault'⟩ := flush_tracks hs hstaging hfits
    have hpair : flushStagedDecorationChanges s = ((flushStagedDecorationChanges s).1, []) := Prod.ext rfl hempty
    rw [← hdefault'] at htracks
    obtain ⟨hstaging', hindex', hdefault''⟩ := doLinesInserted_staging htracks hinvalid hs hwf.1 hwf.2
    rw [← hpair] at hstaging' hindex' hdefault''
    exact ⟨hs', hstaging', hindex', hdefault''.trans (hdefault'.trans hdefault)⟩

theorem changes_tracks (changes : List PendingChange) : ∀ {lines : NaiveLines} {s : Staged},
    Committing defaultLineHeight lines s → ChangesFit s changes →
    let s' := flushStagedDecorationChanges (changes.foldl commitChange s)
    (changes.foldl NaiveLines.change lines).Spread ∧
      Tracks defaultLineHeight (changes.foldl NaiveLines.change lines) s'.1.orderedCustomLines ∧
      s'.1.invalidIndex = none ∧ s'.1.defaultLineHeight = defaultLineHeight ∧
      s'.1.pendingChanges = s.1.pendingChanges := by
  induction changes with
  | nil =>
    intro lines s h hfits
    obtain ⟨htracks, hinvalid, -, hdefault⟩ := flush_tracks h.spread h.staging hfits
    rw [h.default] at htracks hdefault
    exact ⟨h.spread, htracks, hinvalid, hdefault, flush_pendingChanges s⟩
  | cons c changes ih =>
    intro lines s h hfits
    obtain ⟨h1, h2, h3, h4, h5⟩ := ih (commitChange_committing h hfits.1 hfits.2.1) hfits.2.2
    exact ⟨h1, h2, h3, h4, h5.trans (commitChange_pendingChanges s c)⟩

theorem commit_represents {m : LineHeightsManager} (h : Represents defaultLineHeight lines m)
    (hfits : CommitFits m) :
    lines.Spread ∧ Tracks defaultLineHeight lines m.commit.orderedCustomLines ∧
      m.commit.defaultLineHeight = defaultLineHeight ∧
      Represents defaultLineHeight lines m.commit := by
  obtain ⟨hinvalid, hdefault, base, hs, htracks, hlines⟩ := h
  unfold commit
  by_cases hpending : m.pendingChanges = []
  · rw [if_pos hpending]
    rw [hpending] at hlines
    subst hlines
    exact ⟨hs, htracks, hdefault, hinvalid, hdefault, base, hs, htracks, by rw [hpending]⟩
  · rw [if_neg hpending]
    have hcommitting : Committing defaultLineHeight base ({ m with pendingChanges := [] }, []) := by
      refine ⟨hs, Tracks.staging ?_ hinvalid, htracks.index, hdefault⟩
      rw [← hdefault] at htracks
      exact htracks
    obtain ⟨h1, h2, h3, h4, h5⟩ := changes_tracks m.pendingChanges hcommitting hfits
    rw [hlines] at h1 h2
    refine ⟨h1, h2, h4, h3, h4, lines, h1, h2, ?_⟩
    rw [h5]
    rfl

theorem represents_push {m : LineHeightsManager} (h : Represents defaultLineHeight lines m)
    (c : PendingChange) : Represents defaultLineHeight (lines.change c) (m.pushPendingChange c) := by
  obtain ⟨hinvalid, hdefault, base, hs, htracks, hlines⟩ := h
  refine ⟨hinvalid, hdefault, base, hs, htracks, ?_⟩
  rw [← hlines]
  exact List.foldl_concat _ _ _ _

theorem represents_new (defaultLineHeight : ℚ) (customLineHeightData : List CustomLineHeightData) :
    Represents defaultLineHeight
      (customLineHeightData.foldl NaiveLines.insertOrChange NaiveLines.empty)
      (new defaultLineHeight customLineHeightData) := by
  refine ⟨rfl, rfl, NaiveLines.empty, NaiveLines.Spread.empty, ?_, ?_⟩
  · refine ⟨List.Pairwise.nil, fun i h => absurd h (Nat.not_lt_zero i), ?_, fun n d => ?_, ?_, ?_⟩
    · exact fun e he => absurd he List.not_mem_nil
    · refine iff_of_false (Finset.notMem_empty d) ?_
      rintro ⟨e, he, -⟩
      cases he
    · exact fun e he => absurd he List.not_mem_nil
    · exact fun e he => absurd he List.not_mem_nil
  · rw [new, List.foldl_map]
    rfl

end Commit

inductive Call
  | insertOrChangeCustomLineHeight (decorationId : String) (startLineNumber endLineNumber : Int) (lineHeight : ℚ)
  | removeCustomLineHeight (decorationId : String)
  | onLinesDeleted (fromLineNumber toLineNumber : Int)
  | onLinesInserted (fromLineNumber toLineNumber : Int)
  | heightForLineNumber (lineNumber : Nat)
  | getAccumulatedLineHeightsIncludingLineNumber (lineNumber : Nat)

def Call.isQuery : Call → Bool
  | .heightForLineNumber _ | .getAccumulatedLineHeightsIncludingLineNumber _ => true
  | _ => false

def perform (m : LineHeightsManager) : Call → Option ℚ × LineHeightsManager
  | .insertOrChangeCustomLineHeight decorationId startLineNumber endLineNumber lineHeight =>
    (none, m.insertOrChangeCustomLineHeight decorationId startLineNumber endLineNumber lineHeight)
  | .removeCustomLineHeight decorationId => (none, m.removeCustomLineHeight decorationId)
  | .onLinesDeleted fromLineNumber toLineNumber => (none, m.onLinesDeleted fromLineNumber toLineNumber)
  | .onLinesInserted fromLineNumber toLineNumber => (none, m.onLinesInserted fromLineNumber toLineNumber)
  | .heightForLineNumber lineNumber => (m.heightForLineNumber lineNumber).map some id
  | .getAccumulatedLineHeightsIncludingLineNumber lineNumber =>
    (m.getAccumulatedLineHeightsIncludingLineNumber lineNumber).map some id

def NaiveLines.perform (defaultLineHeight : ℚ) (lines : NaiveLines) : Call → Option ℚ × NaiveLines
  | .insertOrChangeCustomLineHeight decorationId startLineNumber endLineNumber lineHeight =>
    (none, lines.insertOrChange ⟨decorationId, startLineNumber, endLineNumber, lineHeight⟩)
  | .removeCustomLineHeight decorationId => (none, lines.remove decorationId)
  | .onLinesDeleted fromLineNumber toLineNumber => (none, lines.linesDeleted fromLineNumber toLineNumber)
  | .onLinesInserted fromLineNumber toLineNumber => (none, lines.linesInserted fromLineNumber toLineNumber)
  | .heightForLineNumber lineNumber => (some (lines.height defaultLineHeight lineNumber), lines)
  | .getAccumulatedLineHeightsIncludingLineNumber lineNumber =>
    (some (lines.accumulated defaultLineHeight lineNumber), lines)

def answers (m : LineHeightsManager) : List Call → List (Option ℚ)
  | [] => []
  | call :: calls => (perform m call).1 :: answers (perform m call).2 calls

def naiveAnswers (defaultLineHeight : ℚ) (lines : NaiveLines) : List Call → List (Option ℚ)
  | [] => []
  | call :: calls =>
    (lines.perform defaultLineHeight call).1 ::
      naiveAnswers defaultLineHeight (lines.perform defaultLineHeight call).2 calls

def EveryCommitFits : LineHeightsManager → List Call → Prop
  | _, [] => True
  | m, call :: calls => (call.isQuery = true → CommitFits m) ∧ EveryCommitFits (perform m call).2 calls

instance EveryCommitFits.decidable : (m : LineHeightsManager) → (calls : List Call) →
    Decidable (EveryCommitFits m calls)
  | _, [] => inferInstanceAs (Decidable True)
  | m, call :: calls =>
    have := EveryCommitFits.decidable (perform m call).2 calls
    inferInstanceAs (Decidable ((_ → _) ∧ _))

theorem perform_represents {defaultLineHeight : ℚ} {lines : NaiveLines} {m : LineHeightsManager}
    (h : Represents defaultLineHeight lines m) (call : Call)
    (hfits : call.isQuery = true → CommitFits m) :
    (perform m call).1 = (lines.perform defaultLineHeight call).1 ∧
      Represents defaultLineHeight (lines.perform defaultLineHeight call).2 (perform m call).2 := by
  cases call with
  | insertOrChangeCustomLineHeight decorationId startLineNumber endLineNumber lineHeight =>
    exact ⟨rfl, represents_push h (.insertOrChange decorationId startLineNumber endLineNumber lineHeight)⟩
  | removeCustomLineHeight decorationId => exact ⟨rfl, represents_push h (.remove decorationId)⟩
  | onLinesDeleted fromLineNumber toLineNumber =>
    exact ⟨rfl, represents_push h (.linesDeleted fromLineNumber toLineNumber)⟩
  | onLinesInserted fromLineNumber toLineNumber =>
    exact ⟨rfl, represents_push h (.linesInserted fromLineNumber toLineNumber)⟩
  | heightForLineNumber lineNumber =>
    obtain ⟨-, htracks, hdefault, hcommit⟩ := commit_represents h (hfits rfl)
    rw [← hdefault] at htracks
    have hheight := heightAt_eq htracks lineNumber
    rw [hdefault] at hheight
    exact ⟨congrArg some hheight, hcommit⟩
  | getAccumulatedLineHeightsIncludingLineNumber lineNumber =>
    obtain ⟨hs, htracks, hdefault, hcommit⟩ := commit_represents h (hfits rfl)
    rw [← hdefault] at htracks
    have hsum := accumulatedAt_eq htracks hs (Int.natCast_nonneg lineNumber)
    rw [hdefault] at hsum
    exact ⟨congrArg some hsum, hcommit⟩

theorem answers_of_represents {defaultLineHeight : ℚ} (calls : List Call) :
    ∀ {lines : NaiveLines} {m : LineHeightsManager}, Represents defaultLineHeight lines m →
      EveryCommitFits m calls → answers m calls = naiveAnswers defaultLineHeight lines calls := by
  induction calls with
  | nil => exact fun _ _ => rfl
  | cons call calls ih =>
    intro lines m h hfits
    obtain ⟨hanswer, hnext⟩ := perform_represents h call hfits.1
    exact congrArg₂ _ hanswer (ih hnext hfits.2)

/-- Where every commit fits, the manager answers like the line array. -/
theorem answers_eq (defaultLineHeight : ℚ) (customLineHeightData : List CustomLineHeightData)
    (calls : List Call) (h : EveryCommitFits (new defaultLineHeight customLineHeightData) calls) :
    answers (new defaultLineHeight customLineHeightData) calls =
      naiveAnswers defaultLineHeight (customLineHeightData.foldl NaiveLines.insertOrChange NaiveLines.empty) calls :=
  answers_of_represents calls (represents_new defaultLineHeight customLineHeightData) h

/-- A decoration of two lines, on one of them with another one, then a line is inserted between
the two and another decoration goes away. -/
theorem answers_eq_inserted :
    EveryCommitFits (new 10 [⟨"a", 2, 3, 20⟩, ⟨"b", 3, 3, 30⟩])
        [.heightForLineNumber 3, .onLinesInserted 3 4, .removeCustomLineHeight "b", .heightForLineNumber 4,
          .onLinesDeleted 7 8, .getAccumulatedLineHeightsIncludingLineNumber 9] ∧
      answers (new 10 [⟨"a", 2, 3, 20⟩, ⟨"b", 3, 3, 30⟩])
          [.heightForLineNumber 3, .onLinesInserted 3 4, .removeCustomLineHeight "b", .heightForLineNumber 4,
            .onLinesDeleted 7 8, .getAccumulatedLineHeightsIncludingLineNumber 9] =
        naiveAnswers 10 ([⟨"a", 2, 3, 20⟩, ⟨"b", 3, 3, 30⟩].foldl NaiveLines.insertOrChange
            NaiveLines.empty)
          [.heightForLineNumber 3, .onLinesInserted 3 4, .removeCustomLineHeight "b",
            .heightForLineNumber 4, .onLinesDeleted 7 8,
            .getAccumulatedLineHeightsIncludingLineNumber 9] := by
  have hfits : EveryCommitFits (new 10 [⟨"a", 2, 3, 20⟩, ⟨"b", 3, 3, 30⟩])
      [.heightForLineNumber 3, .onLinesInserted 3 4, .removeCustomLineHeight "b",
        .heightForLineNumber 4, .onLinesDeleted 7 8,
        .getAccumulatedLineHeightsIncludingLineNumber 9] := by
    decide +kernel
  exact ⟨hfits, answers_eq 10 _ _ hfits⟩

/-- A decoration goes away that shared its line with a lower one in front of it. -/
theorem not_answers_eq :
    ¬ ∀ (defaultLineHeight : ℚ) (customLineHeightData : List CustomLineHeightData)
      (calls : List Call), answers (new defaultLineHeight customLineHeightData) calls =
        naiveAnswers defaultLineHeight
          (customLineHeightData.foldl NaiveLines.insertOrChange NaiveLines.empty) calls := by
  intro h
  have hanswers := h 10 [⟨"a", 5, 5, 30⟩, ⟨"b", 5, 5, 20⟩]
    [.heightForLineNumber 5, .removeCustomLineHeight "a", .heightForLineNumber 5]
  revert hanswers
  decide +kernel

def mutations (calls : List Call) : List Call := calls.filter fun call => !call.isQuery

theorem NaiveLines.perform_query (defaultLineHeight : ℚ) (lines : NaiveLines) {call : Call}
    (h : call.isQuery = true) : (lines.perform defaultLineHeight call).2 = lines := by
  cases call <;> first | rfl | cases h

theorem getElem?_naiveAnswers (defaultLineHeight : ℚ) {query : Call} :
    ∀ (calls : List Call) (lines : NaiveLines) (i : Nat), calls[i]? = some query →
      (naiveAnswers defaultLineHeight lines calls)[i]? = some (((mutations (calls.take i)).foldl
        (fun lines call => (lines.perform defaultLineHeight call).2) lines).perform
          defaultLineHeight query).1 := by
  intro calls
  induction calls with
  | nil => exact fun _ i h => absurd h (by simp)
  | cons call calls ih =>
    intro lines i h
    cases i with
    | zero =>
      obtain rfl := Option.some.inj h
      rfl
    | succ i =>
      rw [naiveAnswers, List.getElem?_cons_succ, ih _ i h, List.take_succ_cons, mutations, mutations, List.filter_cons]
      cases hquery : call.isQuery with
      | true =>
        rw [NaiveLines.perform_query defaultLineHeight lines hquery]
        rfl
      | false => rfl

/-- Where every commit of both runs fits, a query answers the same in both after the same
mutations, whatever was committed in between. -/
theorem answers_of_mutations_eq (defaultLineHeight : ℚ)
    (customLineHeightData : List CustomLineHeightData) {run run' : List Call} {i i' : Nat}
    {query : Call} (hfits : EveryCommitFits (new defaultLineHeight customLineHeightData) run)
    (hfits' : EveryCommitFits (new defaultLineHeight customLineHeightData) run')
    (hquery : run[i]? = some query) (hquery' : run'[i']? = some query)
    (hmutations : mutations (run.take i) = mutations (run'.take i')) :
    (answers (new defaultLineHeight customLineHeightData) run)[i]? =
      (answers (new defaultLineHeight customLineHeightData) run')[i']? := by
  have hnew := represents_new defaultLineHeight customLineHeightData
  rw [answers_of_represents run hnew hfits, answers_of_represents run' hnew hfits',
    getElem?_naiveAnswers defaultLineHeight run _ i hquery,
    getElem?_naiveAnswers defaultLineHeight run' _ i' hquery', hmutations]

/-- Two decorations share a line and the last one goes away, with and without a query before. -/
theorem answers_of_mutations_eq_removed :
    (answers (new 10 [⟨"a", 5, 5, 30⟩, ⟨"b", 5, 5, 20⟩])
        [.heightForLineNumber 5, .onLinesInserted 2 3, .heightForLineNumber 7])[2]? =
      (answers (new 10 [⟨"a", 5, 5, 30⟩, ⟨"b", 5, 5, 20⟩]) [.onLinesInserted 2 3, .heightForLineNumber 7])[1]? :=
  answers_of_mutations_eq 10 _ (by decide +kernel) (by decide +kernel)
    (show _ = some (Call.heightForLineNumber 7) from rfl) rfl rfl

/-- The height of a removed decoration stays where a query has put it into the list before. -/
theorem not_answers_of_mutations_eq :
    ¬ ∀ (defaultLineHeight : ℚ) (customLineHeightData : List CustomLineHeightData)
      (run run' : List Call) (i i' : Nat) (query : Call), run[i]? = some query →
        run'[i']? = some query → mutations (run.take i) = mutations (run'.take i') →
        (answers (new defaultLineHeight customLineHeightData) run)[i]? =
          (answers (new defaultLineHeight customLineHeightData) run')[i']? := by
  intro h
  have hanswers := h 10 [⟨"a", 5, 5, 30⟩, ⟨"b", 5, 5, 20⟩]
    [.heightForLineNumber 5, .removeCustomLineHeight "a", .heightForLineNumber 5]
    [.removeCustomLineHeight "a", .heightForLineNumber 5] 2 1 (.heightForLineNumber 5) rfl rfl rfl
  revert hanswers
  decide +kernel

end Gavea.ViewLayout
