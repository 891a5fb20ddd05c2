import Gavea.Lib.Js

namespace Gavea.Folding

open Lib.Js List

inductive FoldSource
  | provider
  | userDefined
  | recovered
deriving DecidableEq

structure FoldRange where
  startLineNumber : Int
  endLineNumber : Int
  type : Option JsString
  isCollapsed : Bool
  source : FoldSource
deriving DecidableEq

abbrev SelectedLines := Option (Int → Int → Bool)

def inPlaceOf (selection : SelectedLines) (nextA nextB : FoldRange) : FoldRange :=
  let startsInside := match selection with
    | none => false
    | some startsInside => startsInside (nextA.startLineNumber + 1) (nextA.endLineNumber + 1)
  { nextA with
    isCollapsed := nextB.isCollapsed && (nextA.endLineNumber = nextB.endLineNumber || !startsInside)
    source := .provider }

def asRecovered (nextB : FoldRange) : FoldRange :=
  if nextB.isCollapsed ∧ nextB.source = .provider then { nextB with source := .recovered }
  else nextB

def userFoldWins (nextA : FoldRange) : List FoldRange → Bool
  | [] => false
  | prescanB :: rangesB =>
    if prescanB.startLineNumber > nextA.endLineNumber then false
    else if prescanB.source = .userDefined ∧ prescanB.endLineNumber > nextA.endLineNumber then true
    else userFoldWins nextA rangesB

def nextRange (selection : SelectedLines) :
    List FoldRange → List FoldRange → Option FoldRange × List FoldRange × List FoldRange
  | [], [] => (none, [], [])
  | [], nextB :: rangesB => (some (asRecovered nextB), [], rangesB)
  | nextA :: rangesA, [] => (if userFoldWins nextA [] then none else some nextA, rangesA, [])
  | nextA :: rangesA, nextB :: rangesB =>
    if nextA.startLineNumber ≥ nextB.startLineNumber then
      if nextA.startLineNumber = nextB.startLineNumber then
        (some (if nextB.source = .userDefined then nextB else inPlaceOf selection nextA nextB), rangesA, rangesB)
      else (some (asRecovered nextB), nextA :: rangesA, rangesB)
    else
      (if userFoldWins nextA (nextB :: rangesB) then none else some nextA, rangesA, nextB :: rangesB)

structure Merging where
  stackedRanges : List FoldRange := []
  topStackedRange : Option FoldRange := none
  prevLineNumber : Int := 0
  resultRanges : List FoldRange := []

def popEnded (line : Int) : Option FoldRange → List FoldRange → Option FoldRange × List FoldRange
  | none, stacked => (none, stacked)
  | some top, [] => if top.endLineNumber < line then (none, []) else (some top, [])
  | some top, next :: stacked =>
    if top.endLineNumber < line then popEnded line (some next) stacked
    else (some top, next :: stacked)

def isAtMost (line : Int) : Option Int → Bool
  | none => true
  | some maxLineNumber => line ≤ maxLineNumber

def keepRange (maxLineNumber : Option Int) (m : Merging) (useRange : FoldRange) : Merging :=
  let (top, stacked) := popEnded useRange.startLineNumber m.topStackedRange m.stackedRanges
  if useRange.endLineNumber > useRange.startLineNumber
      ∧ useRange.startLineNumber > m.prevLineNumber
      ∧ isAtMost useRange.endLineNumber maxLineNumber
      ∧ top.all fun top => top.endLineNumber ≥ useRange.endLineNumber then
    { stackedRanges := top.toList ++ stacked
      topStackedRange := some useRange
      prevLineNumber := useRange.startLineNumber
      resultRanges := m.resultRanges ++ [useRange] }
  else { m with stackedRanges := stacked, topStackedRange := top }

def mergeLoop (maxLineNumber : Option Int) (selection : SelectedLines) :
    Nat → List FoldRange → List FoldRange → Merging → Merging
  | 0, _, _, m => m
  | rounds + 1, rangesA, rangesB, m =>
    if rangesA = [] ∧ rangesB = [] then m
    else
      let (useRange, rangesA, rangesB) := nextRange selection rangesA rangesB
      mergeLoop maxLineNumber selection rounds rangesA rangesB
        (match useRange with
          | none => m
          | some useRange => keepRange maxLineNumber m useRange)

def sanitizeAndMerge (rangesA rangesB : List FoldRange) (maxLineNumber : Option Int)
    (selection : SelectedLines) : List FoldRange :=
  (mergeLoop maxLineNumber selection (rangesA.length + rangesB.length) rangesA rangesB {}).resultRanges

open List

def Merging.openRanges (m : Merging) : List FoldRange := m.topStackedRange.toList ++ m.stackedRanges

def HasValidLines (maxLineNumber : Option Int) (r : FoldRange) : Prop :=
  1 ≤ r.startLineNumber ∧ r.startLineNumber < r.endLineNumber ∧ isAtMost r.endLineNumber maxLineNumber = true

instance (maxLineNumber : Option Int) (r : FoldRange) : Decidable (HasValidLines maxLineNumber r) :=
  inferInstanceAs (Decidable (_ ∧ _))

def NestedIn (outer inner : FoldRange) : Prop :=
  inner.endLineNumber ≤ outer.endLineNumber ∨ outer.endLineNumber < inner.startLineNumber

/-- What `sanitizeAndMerge` is to return. -/
structure WellFormedRanges (maxLineNumber : Option Int) (ranges : List FoldRange) : Prop where
  increasing : ranges.Pairwise fun r r' => r.startLineNumber < r'.startLineNumber
  valid : ∀ r ∈ ranges, HasValidLines maxLineNumber r
  nested : ranges.Pairwise NestedIn

structure Keeps (maxLineNumber : Option Int) (m : Merging) (line : Int) : Prop where
  wellFormed : WellFormedRanges maxLineNumber m.resultRanges
  prev_nonneg : 0 ≤ m.prevLineNumber
  prev : ∀ r ∈ m.resultRanges, r.startLineNumber ≤ m.prevLineNumber
  prev_mem : m.prevLineNumber = 0 ∨ ∃ r ∈ m.resultRanges, r.startLineNumber = m.prevLineNumber
  chain : m.openRanges.Pairwise fun r r' => r.endLineNumber ≤ r'.endLineNumber
  subset : m.openRanges ⊆ m.resultRanges
  closed : ∀ r ∈ m.resultRanges, r ∈ m.openRanges ∨ r.endLineNumber < line
  top : m.topStackedRange = none → m.stackedRanges = []

theorem keeps_start (maxLineNumber : Option Int) (line : Int) : Keeps maxLineNumber {} line where
  wellFormed := ⟨List.Pairwise.nil, fun _ hr => (nomatch hr), List.Pairwise.nil⟩
  prev_nonneg := le_rfl
  prev _ hr := nomatch hr
  prev_mem := Or.inl rfl
  chain := List.Pairwise.nil
  subset _ hr := nomatch hr
  closed _ hr := nomatch hr
  top _ := rfl

theorem popEnded_spec (line : Int) (stacked : List FoldRange) :
    ∀ top : Option FoldRange, (top = none → stacked = []) →
      ((top.toList ++ stacked).Pairwise fun r r' => r.endLineNumber ≤ r'.endLineNumber) →
      ((popEnded line top stacked).1 = none → (popEnded line top stacked).2 = []) ∧
        (popEnded line top stacked).1.toList ++ (popEnded line top stacked).2 =
          (top.toList ++ stacked).filter fun r => line ≤ r.endLineNumber := by
  induction stacked with
  | nil =>
    intro top _ _
    cases top with
    | none => exact ⟨fun _ => rfl, rfl⟩
    | some t =>
      rw [popEnded]
      by_cases hlt : t.endLineNumber < line
      · rw [if_pos hlt]
        refine ⟨fun _ => rfl, ?_⟩
        simp [hlt]
      · rw [if_neg hlt]
        refine ⟨fun h => (nomatch h), ?_⟩
        simp [not_lt.mp hlt]
  | cons next stacked ih =>
    intro top hnone hchain
    cases top with
    | none => exact nomatch hnone rfl
    | some t =>
      rw [popEnded]
      simp only [Option.toList_some, singleton_append] at hchain ⊢
      by_cases hlt : t.endLineNumber < line
      · rw [if_pos hlt, filter_cons_of_neg (by simp [hlt])]
        exact ih (some next) (fun h => nomatch h) (List.Pairwise.of_cons hchain)
      · rw [if_neg hlt]
        refine ⟨fun h => (nomatch h), (filter_eq_self.mpr fun r hr => ?_).symm⟩
        rcases mem_cons.mp hr with rfl | hr
        · exact decide_eq_true (not_lt.mp hlt)
        · exact decide_eq_true ((not_lt.mp hlt).trans (rel_of_pairwise_cons hchain hr))

def Fits (maxLineNumber : Option Int) (m : Merging) (r : FoldRange) : Prop :=
  HasValidLines maxLineNumber r ∧ ∀ r' ∈ m.resultRanges, r'.startLineNumber < r.startLineNumber ∧ NestedIn r' r

theorem keepRange_spec {maxLineNumber : Option Int} {m : Merging} {line : Int} {r : FoldRange}
    (h : Keeps maxLineNumber m line) (hline : line ≤ r.startLineNumber) :
    Keeps maxLineNumber (keepRange maxLineNumber m r) r.startLineNumber ∧
      ((keepRange maxLineNumber m r).resultRanges = m.resultRanges ++ [r] ∨
        (keepRange maxLineNumber m r).resultRanges = m.resultRanges) ∧
      (Fits maxLineNumber m r → r ∈ (keepRange maxLineNumber m r).resultRanges) := by
  obtain ⟨hnone, hopen⟩ := popEnded_spec r.startLineNumber m.stackedRanges m.topStackedRange h.top h.chain
  generalize hpop : popEnded r.startLineNumber m.topStackedRange m.stackedRanges = popped at hnone hopen
  obtain ⟨top, stacked⟩ := popped
  dsimp only at hnone hopen
  have hchain : (top.toList ++ stacked).Pairwise fun r r' => r.endLineNumber ≤ r'.endLineNumber := by
    rw [hopen]
    exact h.chain.filter _
  have hmem {r' : FoldRange} (hr' : r' ∈ top.toList ++ stacked) :
      r' ∈ m.resultRanges ∧ r.startLineNumber ≤ r'.endLineNumber := by
    rw [hopen, mem_filter, decide_eq_true_eq] at hr'
    exact ⟨h.subset hr'.1, hr'.2⟩
  have hclosed : ∀ r' ∈ m.resultRanges,
      r' ∈ top.toList ++ stacked ∨ r'.endLineNumber < r.startLineNumber := by
    intro r' hr'
    rcases h.closed r' hr' with hr'' | hlt
    · by_cases hle : r.startLineNumber ≤ r'.endLineNumber
      · rw [hopen, mem_filter]
        exact Or.inl ⟨hr'', decide_eq_true hle⟩
      · exact Or.inr (not_le.mp hle)
    · exact Or.inr (hlt.trans_le hline)
  have htop : (top.all fun top => top.endLineNumber ≥ r.endLineNumber) = true ↔
      ∀ r' ∈ top.toList ++ stacked, r.endLineNumber ≤ r'.endLineNumber := by
    cases top with
    | none =>
      rw [hnone rfl]
      exact ⟨fun _ r' hr' => (nomatch hr'), fun _ => rfl⟩
    | some t =>
      simp only [Option.all_some, Option.toList_some, singleton_append, decide_eq_true_eq] at hchain ⊢
      constructor
      · intro hle r' hr'
        rcases mem_cons.mp hr' with rfl | hr'
        · exact hle
        · exact hle.trans (rel_of_pairwise_cons hchain hr')
      · exact fun hall => hall t mem_cons_self
  by_cases hcond : r.endLineNumber > r.startLineNumber ∧ r.startLineNumber > m.prevLineNumber ∧
      isAtMost r.endLineNumber maxLineNumber = true ∧
      (top.all fun top => top.endLineNumber ≥ r.endLineNumber) = true
  · have hkeep : keepRange maxLineNumber m r =
        ⟨top.toList ++ stacked, some r, r.startLineNumber, m.resultRanges ++ [r]⟩ := by
      rw [keepRange, hpop]
      exact if_pos hcond
    obtain ⟨hends, hstarts, hmax, hall⟩ := hcond
    rw [htop] at hall
    have hbehind : ∀ r' ∈ m.resultRanges, r'.startLineNumber < r.startLineNumber :=
      fun r' hr' => (h.prev r' hr').trans_lt hstarts
    have hnested : ∀ r' ∈ m.resultRanges, NestedIn r' r := by
      intro r' hr'
      rcases hclosed r' hr' with hr'' | hlt
      · exact Or.inl (hall r' hr'')
      · exact Or.inr hlt
    have hprev := h.prev_nonneg
    rw [hkeep]
    refine ⟨⟨⟨?_, ?_, ?_⟩, ?_, ?_, ?_, ?_, ?_, ?_, ?_⟩, Or.inl rfl,
      fun _ => mem_append_right _ (mem_singleton_self r)⟩
    · exact pairwise_append.mpr ⟨h.wellFormed.increasing, pairwise_singleton _ r,
        fun r' hr' r'' hr'' => mem_singleton.mp hr'' ▸ hbehind r' hr'⟩
    · intro r' hr'
      rcases mem_append.mp hr' with hr' | hr'
      · exact h.wellFormed.valid r' hr'
      · rw [mem_singleton.mp hr']
        exact ⟨by omega, hends, hmax⟩
    · exact pairwise_append.mpr ⟨h.wellFormed.nested, pairwise_singleton _ r,
        fun r' hr' r'' hr'' => mem_singleton.mp hr'' ▸ hnested r' hr'⟩
    · dsimp only
      omega
    · intro r' hr'
      rcases mem_append.mp hr' with hr' | hr'
      · exact (hbehind r' hr').le
      · rw [mem_singleton.mp hr']
    · exact Or.inr ⟨r, mem_append_right _ (mem_singleton_self r), rfl⟩
    · exact pairwise_cons.mpr ⟨hall, hchain⟩
    · intro r' hr'
      rcases mem_cons.mp hr' with rfl | hr'
      · exact mem_append_right _ (mem_singleton_self _)
      · exact mem_append_left _ (hmem hr').1
    · intro r' hr'
      rcases mem_append.mp hr' with hr' | hr'
      · exact (hclosed r' hr').imp_left fun hr'' => mem_cons_of_mem r hr''
      · rw [mem_singleton.mp hr']
        exact Or.inl mem_cons_self
    · exact fun hnot => nomatch hnot
  · have hkeep : keepRange maxLineNumber m r =
        { m with stackedRanges := stacked, topStackedRange := top } := by
      rw [keepRange, hpop]
      exact if_neg hcond
    rw [hkeep]
    refine ⟨⟨h.wellFormed, h.prev_nonneg, h.prev, h.prev_mem, hchain, fun r' hr' => (hmem hr').1,
      hclosed, hnone⟩, Or.inr rfl, fun hfits => absurd ?_ hcond⟩
    obtain ⟨⟨hone, hlt, hmax⟩, hall⟩ := hfits
    refine ⟨hlt, ?_, hmax, htop.mpr fun r' hr' => ?_⟩
    · rcases h.prev_mem with hzero | ⟨r', hr', heq⟩
      · omega
      · exact heq ▸ (hall r' hr').1
    · obtain ⟨hres, hle⟩ := hmem hr'
      exact (hall r' hres).2.resolve_right (not_lt.mpr hle)

def SortedByStart (ranges : List FoldRange) : Prop := ranges.Pairwise fun r r' => r.startLineNumber ≤ r'.startLineNumber

instance (ranges : List FoldRange) : Decidable (SortedByStart ranges) := inferInstanceAs (Decidable (List.Pairwise _ _))

structure ValidUserRange (maxLineNumber : Option Int) (before : List FoldRange) (u : FoldRange) :
    Prop where
  source : u.source = .userDefined
  lines : HasValidLines maxLineNumber u
  before : ∀ b ∈ before, HasValidLines maxLineNumber b → b.startLineNumber ≠ u.startLineNumber ∧ NestedIn b u

def startCount (line : Int) (ranges : List FoldRange) : Nat := ranges.countP fun r => r.startLineNumber = line

def Replaces (rangesA rangesB : List FoldRange) (a b : FoldRange) : Prop :=
  b.source ≠ .userDefined ∧ a.startLineNumber = b.startLineNumber ∧
    ∃ as as' bs bs', rangesA = as ++ a :: as' ∧ rangesB = bs ++ b :: bs' ∧
      startCount a.startLineNumber as = startCount a.startLineNumber bs

def ReplacesSafely (rangesA rangesB : List FoldRange) (maxLineNumber : Option Int) : Prop :=
  ∀ before u behind, rangesB = before ++ u :: behind → ValidUserRange maxLineNumber before u →
    ∀ a b, Replaces rangesA before a b → a.startLineNumber ≠ u.startLineNumber ∧ NestedIn a u

inductive Taken (selection : SelectedLines) : List FoldRange → List FoldRange →
    Option FoldRange → List FoldRange → List FoldRange → Prop
  | fromB (b : FoldRange) (rangesA rangesB : List FoldRange)
      (h : ∀ a ∈ rangesA, b.startLineNumber < a.startLineNumber) :
      Taken selection rangesA (b :: rangesB) (some (asRecovered b)) rangesA rangesB
  | ofUser (a b : FoldRange) (rangesA rangesB : List FoldRange)
      (h : a.startLineNumber = b.startLineNumber) (hsource : b.source = .userDefined) :
      Taken selection (a :: rangesA) (b :: rangesB) (some b) rangesA rangesB
  | inPlace (a b : FoldRange) (rangesA rangesB : List FoldRange)
      (h : a.startLineNumber = b.startLineNumber) (hsource : b.source ≠ .userDefined) :
      Taken selection (a :: rangesA) (b :: rangesB) (some (inPlaceOf selection a b)) rangesA rangesB
  | fromA (a : FoldRange) (rangesA rangesB : List FoldRange)
      (h : ∀ b ∈ rangesB, a.startLineNumber < b.startLineNumber)
      (hwins : userFoldWins a rangesB = false) :
      Taken selection (a :: rangesA) rangesB (some a) rangesA rangesB
  | skippedA (a : FoldRange) (rangesA rangesB : List FoldRange)
      (h : ∀ b ∈ rangesB, a.startLineNumber < b.startLineNumber) :
      Taken selection (a :: rangesA) rangesB none rangesA rangesB

theorem head_start_le {r : FoldRange} {ranges : List FoldRange} (h : SortedByStart (r :: ranges)) :
    ∀ r' ∈ ranges, r.startLineNumber ≤ r'.startLineNumber :=
  fun _ hr' => rel_of_pairwise_cons h hr'

theorem nextRange_taken (selection : SelectedLines) {rangesA rangesB : List FoldRange}
    (hA : SortedByStart rangesA) (hB : SortedByStart rangesB)
    (hne : ¬ (rangesA = [] ∧ rangesB = [])) :
    Taken selection rangesA rangesB (nextRange selection rangesA rangesB).1
      (nextRange selection rangesA rangesB).2.1 (nextRange selection rangesA rangesB).2.2 := by
  cases rangesA with
  | nil =>
    cases rangesB with
    | nil => exact absurd ⟨rfl, rfl⟩ hne
    | cons b rangesB => exact .fromB b [] rangesB fun _ ha => (nomatch ha)
  | cons a rangesA =>
    cases rangesB with
    | nil => exact .fromA a rangesA [] (fun _ hb => (nomatch hb)) rfl
    | cons b rangesB =>
      have hAle := head_start_le hA
      have hBle := head_start_le hB
      rw [nextRange]
      by_cases hge : a.startLineNumber ≥ b.startLineNumber
      · by_cases heq : a.startLineNumber = b.startLineNumber
        · rw [if_pos hge, if_pos heq]
          by_cases hsource : b.source = .userDefined
          · rw [if_pos hsource]
            exact .ofUser a b rangesA rangesB heq hsource
          · rw [if_neg hsource]
            exact .inPlace a b rangesA rangesB heq hsource
        · rw [if_pos hge, if_neg heq]
          refine .fromB b (a :: rangesA) rangesB fun a' ha' => ?_
          rcases mem_cons.mp ha' with rfl | ha'
          · omega
          · have := hAle a' ha'
            omega
      · rw [if_neg hge]
        have hbefore : ∀ b' ∈ b :: rangesB, a.startLineNumber < b'.startLineNumber := by
          intro b' hb'
          rcases mem_cons.mp hb' with rfl | hb'
          · omega
          · have := hBle b' hb'
            omega
        cases hwins : userFoldWins a (b :: rangesB) with
        | true => exact .skippedA a rangesA (b :: rangesB) hbefore
        | false => exact .fromA a rangesA (b :: rangesB) hbefore hwins

theorem nestedIn_of_userFoldWins {a : FoldRange} {rangesB : List FoldRange}
    (hB : SortedByStart rangesB) (hwins : userFoldWins a rangesB = false) :
    ∀ u ∈ rangesB, u.source = .userDefined → NestedIn a u := by
  induction rangesB with
  | nil => intro u hu; exact nomatch hu
  | cons b rangesB ih =>
    intro u hu hsource
    have hle : b.startLineNumber ≤ u.startLineNumber := by
      rcases mem_cons.mp hu with rfl | hu
      · exact le_rfl
      · exact head_start_le hB u hu
    rw [userFoldWins] at hwins
    split at hwins
    · next hbehind => exact Or.inr (by omega)
    · split at hwins
      · exact Bool.noConfusion hwins
      · next hnot =>
          rcases mem_cons.mp hu with rfl | hu
          · exact Or.inl (not_lt.mp fun hlt => hnot ⟨hsource, hlt⟩)
          · exact ih hB.of_cons hwins u hu hsource

theorem asRecovered_lines (b : FoldRange) :
    (asRecovered b).startLineNumber = b.startLineNumber ∧
      (asRecovered b).endLineNumber = b.endLineNumber := by
  rw [asRecovered]
  split <;> exact ⟨rfl, rfl⟩

theorem asRecovered_user {b : FoldRange} (h : b.source = .userDefined) : asRecovered b = b := by
  rw [asRecovered, if_neg fun hp => by rw [h] at hp; exact nomatch hp.2]

variable {rangesA rangesB : List FoldRange} {maxLineNumber : Option Int}

/-- The merge behind the parts `pastA` and `pastB` of its inputs: every valid user-defined
range is kept, or nothing that is kept stands in its way, as long as the replacements are safe. -/
structure Merged (rangesA rangesB : List FoldRange) (maxLineNumber : Option Int)
    (pastA leftA pastB leftB : List FoldRange) (m : Merging) (line : Int) : Prop where
  splitA : rangesA = pastA ++ leftA
  splitB : rangesB = pastB ++ leftB
  line_le : ∀ r ∈ leftA ++ leftB, line ≤ r.startLineNumber
  keeps : Keeps maxLineNumber m line
  paired : ∀ start, (∃ a ∈ leftA, a.startLineNumber = start) →
    (∃ b ∈ leftB, b.startLineNumber = start) → startCount start pastA = startCount start pastB
  ahead : ReplacesSafely rangesA rangesB maxLineNumber →
    ∀ before u behind, leftB = before ++ u :: behind →
      ValidUserRange maxLineNumber (pastB ++ before) u →
        ∀ r ∈ m.resultRanges, r.startLineNumber < u.startLineNumber ∧ NestedIn r u
  kept : ReplacesSafely rangesA rangesB maxLineNumber →
    ∀ before u behind, pastB = before ++ u :: behind → ValidUserRange maxLineNumber before u → u ∈ m.resultRanges

theorem startCount_append (line : Int) (ranges ranges' : List FoldRange) :
    startCount line (ranges ++ ranges') = startCount line ranges + startCount line ranges' :=
  countP_append

theorem startCount_singleton (line : Int) (r : FoldRange) :
    startCount line [r] = if r.startLineNumber = line then 1 else 0 := by
  rw [startCount, countP_singleton]
  split <;> simp_all

theorem Merged.offer {pastA as leftA pastB bs leftB : List FoldRange} {m : Merging} {line : Int}
    {c : FoldRange}
    (h : Merged rangesA rangesB maxLineNumber pastA (as ++ leftA) pastB (bs ++ leftB) m line)
    (hline : line ≤ c.startLineNumber)
    (hleft : ∀ r ∈ leftA ++ leftB, c.startLineNumber ≤ r.startLineNumber)
    (hpaired : ∀ start, (∃ a ∈ leftA, a.startLineNumber = start) →
      (∃ b ∈ leftB, b.startLineNumber = start) → startCount start as = startCount start bs)
    (hahead : ReplacesSafely rangesA rangesB maxLineNumber →
      ∀ before u behind, leftB = before ++ u :: behind →
        ValidUserRange maxLineNumber (pastB ++ bs ++ before) u → HasValidLines maxLineNumber c →
          c.startLineNumber < u.startLineNumber ∧ NestedIn c u)
    (hkept : ∀ before u behind, bs = before ++ u :: behind →
      ValidUserRange maxLineNumber (pastB ++ before) u → before = [] ∧ c = u) :
    Merged rangesA rangesB maxLineNumber (pastA ++ as) leftA (pastB ++ bs) leftB
      (keepRange maxLineNumber m c) c.startLineNumber := by
  obtain ⟨hkeeps, hresult, hfits⟩ := keepRange_spec h.keeps hline
  constructor
  case splitA => rw [h.splitA, append_assoc]
  case splitB => rw [h.splitB, append_assoc]
  case line_le => exact hleft
  case keeps => exact hkeeps
  case paired =>
    rintro start ⟨a, ha, hstart⟩ ⟨b, hb, hstart'⟩
    rw [startCount_append, startCount_append, h.paired start ⟨a, mem_append_right as ha, hstart⟩ ⟨b,
      mem_append_right bs hb, hstart'⟩, hpaired start ⟨a, ha, hstart⟩ ⟨b, hb, hstart'⟩]
  case ahead =>
    intro hsafe before u behind hsplit hvalid r hr
    have hold : ∀ r ∈ m.resultRanges, r.startLineNumber < u.startLineNumber ∧ NestedIn r u :=
      h.ahead hsafe (bs ++ before) u behind (by rw [hsplit, append_assoc]) (by rw [← append_assoc]; exact hvalid)
    rcases hresult with heq | heq
    · have hlines := hkeeps.wellFormed.valid r hr
      rw [heq] at hr
      rcases mem_append.mp hr with hr | hr
      · exact hold r hr
      · rw [mem_singleton.mp hr] at hlines ⊢
        exact hahead hsafe before u behind hsplit hvalid hlines
    · rw [heq] at hr
      exact hold r hr
  case kept =>
    intro hsafe before u behind hsplit hvalid
    have hmono : ∀ r ∈ m.resultRanges, r ∈ (keepRange maxLineNumber m c).resultRanges := by
      intro r hr
      rcases hresult with heq | heq <;> rw [heq]
      · exact mem_append_left _ hr
      · exact hr
    rcases append_eq_append_iff.mp hsplit with ⟨more, hbefore, hbs⟩ | ⟨more, hpast, hrest⟩
    · rw [hbefore] at hvalid
      obtain ⟨rfl, rfl⟩ := hkept more u behind hbs hvalid
      refine hfits ⟨hvalid.lines, ?_⟩
      refine h.ahead hsafe [] c (behind ++ leftB) ?_ hvalid
      rw [hbs]
      simp
    · cases more with
      | nil =>
        rw [nil_append] at hrest
        rw [append_nil] at hpast
        subst hpast
        have hvalid' : ValidUserRange maxLineNumber (pastB ++ []) u := by
          rw [append_nil]
          exact hvalid
        obtain ⟨-, rfl⟩ := hkept [] u behind hrest.symm hvalid'
        refine hfits ⟨hvalid.lines, h.ahead hsafe [] c (behind ++ leftB) ?_ hvalid'⟩
        rw [← hrest]
        rfl
      | cons u' more =>
        obtain ⟨rfl, hrest⟩ := List.cons.inj hrest
        exact hmono _ (h.kept hsafe before _ more hpast hvalid)

theorem ValidUserRange.of_mem {before : List FoldRange} {b u : FoldRange}
    (h : ValidUserRange maxLineNumber before u) (hb : b ∈ before)
    (hle : b.startLineNumber ≤ u.startLineNumber) (hlines : HasValidLines maxLineNumber b) :
    b.startLineNumber < u.startLineNumber ∧ NestedIn b u := by
  obtain ⟨hne, hnested⟩ := h.before b hb hlines
  exact ⟨lt_of_le_of_ne hle hne, hnested⟩

theorem Merged.fromB {pastA leftA pastB leftB : List FoldRange} {b c : FoldRange} {m : Merging}
    {line : Int} {as : List FoldRange}
    (h : Merged rangesA rangesB maxLineNumber pastA (as ++ leftA) pastB ([b] ++ leftB) m line)
    (hB : SortedByStart (b :: leftB)) (has : ∀ a ∈ leftA, b.startLineNumber ≤ a.startLineNumber)
    (hpaired : ∀ start, (∃ a ∈ leftA, a.startLineNumber = start) →
      (∃ b ∈ leftB, b.startLineNumber = start) → startCount start as = startCount start [b])
    (hstart : c.startLineNumber = b.startLineNumber)
    (hend : c.endLineNumber = b.endLineNumber) (huser : b.source = .userDefined → c = b) :
    Merged rangesA rangesB maxLineNumber (pastA ++ as) leftA (pastB ++ [b]) leftB
      (keepRange maxLineNumber m c) c.startLineNumber := by
  have hle := head_start_le hB
  refine h.offer ?_ ?_ hpaired ?_ ?_
  · rw [hstart]
    exact h.line_le b (mem_append_right _ (mem_append_left _ (mem_singleton_self b)))
  · intro r hr
    rw [hstart]
    rcases mem_append.mp hr with hr | hr
    · exact has r hr
    · exact hle r hr
  · intro _ before u behind hsplit hvalid hlines
    have hu : u ∈ leftB := hsplit ▸ mem_append_right before mem_cons_self
    rw [HasValidLines, hstart, hend] at hlines
    rw [NestedIn, hstart, hend]
    exact hvalid.of_mem (mem_append_left _ (mem_append_right _ (mem_singleton_self b))) (hle u hu) hlines
  · intro before u behind hsplit hvalid
    cases before with
    | nil =>
      obtain ⟨rfl, -⟩ := List.cons.inj hsplit
      exact ⟨rfl, huser hvalid.source⟩
    | cons b' before => simp at hsplit

theorem merged_round {selection : SelectedLines}
    (hA : SortedByStart rangesA) (hB : SortedByStart rangesB)
    {pastA leftA pastB leftB leftA' leftB' : List FoldRange} {m : Merging} {line : Int}
    {useRange : Option FoldRange} (htaken : Taken selection leftA leftB useRange leftA' leftB')
    (h : Merged rangesA rangesB maxLineNumber pastA leftA pastB leftB m line) :
    ∃ pastA' pastB' line', Merged rangesA rangesB maxLineNumber pastA' leftA' pastB' leftB'
      (match useRange with
        | none => m
        | some useRange => keepRange maxLineNumber m useRange) line' := by
  have hsortedA : SortedByStart leftA := by
    have hall := hA
    rw [h.splitA, SortedByStart, pairwise_append] at hall
    exact hall.2.1
  have hsortedB : SortedByStart leftB := by
    have hall := hB
    rw [h.splitB, SortedByStart, pairwise_append] at hall
    exact hall.2.1
  cases htaken with
  | fromB b rangesA' rangesB' hlt =>
    obtain ⟨hstart, hend⟩ := asRecovered_lines b
    have hfrom : Merged rangesA rangesB maxLineNumber pastA ([] ++ leftA) pastB ([b] ++ leftB') m line := h
    refine ⟨_, _, _, hfrom.fromB hsortedB (fun a ha => (hlt a ha).le) ?_ hstart hend asRecovered_user⟩
    rintro start ⟨a, ha, rfl⟩ -
    have := hlt a ha
    rw [startCount_singleton, if_neg (by omega)]
    rfl
  | ofUser a b rangesA' rangesB' heq hsource =>
    have hfrom : Merged rangesA rangesB maxLineNumber pastA ([a] ++ leftA') pastB ([b] ++ leftB') m line := h
    refine ⟨_, _, _, hfrom.fromB hsortedB (fun a' ha' => ?_) ?_ rfl rfl fun _ => rfl⟩
    · rw [← heq]
      exact head_start_le hsortedA a' ha'
    · intro start _ _
      rw [startCount_singleton, startCount_singleton, heq]
  | inPlace a b rangesA' rangesB' heq hsource =>
    have hAle := head_start_le hsortedA
    have hBle := head_start_le hsortedB
    have hfrom : Merged rangesA rangesB maxLineNumber pastA ([a] ++ leftA') pastB ([b] ++ leftB') m line := h
    refine ⟨_, _, _, hfrom.offer ?_ ?_ ?_ ?_ ?_⟩
    · exact h.line_le a (mem_append_left _ mem_cons_self)
    · intro r hr
      show a.startLineNumber ≤ r.startLineNumber
      rcases mem_append.mp hr with hr | hr
      · exact hAle r hr
      · rw [heq]
        exact hBle r hr
    · intro start _ _
      rw [startCount_singleton, startCount_singleton, heq]
    · intro hsafe before u behind hsplit hvalid _
      have hu : u ∈ leftB' := hsplit ▸ mem_append_right before mem_cons_self
      have hcount := h.paired a.startLineNumber ⟨a, mem_cons_self, rfl⟩ ⟨b, mem_cons_self, heq.symm⟩
      have hreplaces : Replaces rangesA (pastB ++ [b] ++ before) a b :=
        ⟨hsource, heq, pastA, leftA', pastB, before, h.splitA,
          by rw [append_assoc]; rfl, hcount⟩
      obtain ⟨hne, hnested⟩ := hsafe (pastB ++ [b] ++ before) u behind
        (by rw [h.splitB, hsplit]; simp) hvalid a b hreplaces
      have hle := hBle u hu
      refine ⟨lt_of_le_of_ne ?_ hne, hnested⟩
      show a.startLineNumber ≤ u.startLineNumber
      omega
    · intro before u behind hsplit hvalid
      cases before with
      | nil =>
        obtain ⟨rfl, -⟩ := List.cons.inj hsplit
        exact absurd hvalid.source hsource
      | cons b' before => simp at hsplit
  | fromA a rangesA' rangesB' hlt hwins =>
    have hAle := head_start_le hsortedA
    have hfrom : Merged rangesA rangesB maxLineNumber pastA ([a] ++ leftA') pastB ([] ++ leftB) m line := h
    refine ⟨_, _, _, hfrom.offer ?_ ?_ ?_ ?_ ?_⟩
    · exact h.line_le a (mem_append_left _ mem_cons_self)
    · intro r hr
      rcases mem_append.mp hr with hr | hr
      · exact hAle r hr
      · exact (hlt r hr).le
    · rintro start - ⟨b, hb, rfl⟩
      have := hlt b hb
      rw [startCount_singleton, if_neg (by omega)]
      rfl
    · intro _ before u behind hsplit hvalid _
      have hu : u ∈ leftB := hsplit ▸ mem_append_right before mem_cons_self
      exact ⟨hlt u hu, nestedIn_of_userFoldWins hsortedB hwins u hu hvalid.source⟩
    · intro before u behind hsplit
      simp at hsplit
  | skippedA a rangesA' rangesB' hlt =>
    refine ⟨pastA ++ [a], pastB, line, ⟨?_, h.splitB, ?_, h.keeps, ?_, h.ahead, h.kept⟩⟩
    · rw [h.splitA, append_assoc]
      rfl
    · intro r hr
      refine h.line_le r ?_
      rcases mem_append.mp hr with hr | hr
      · exact mem_append_left _ (mem_cons_of_mem a hr)
      · exact mem_append_right _ hr
    · rintro start ⟨a', ha', hstart⟩ ⟨b, hb, rfl⟩
      have := hlt b hb
      rw [startCount_append, startCount_singleton, if_neg (by omega), Nat.add_zero]
      exact h.paired _ ⟨a', mem_cons_of_mem a ha', hstart⟩ ⟨b, hb, rfl⟩

theorem length_taken {selection : SelectedLines} {leftA leftB leftA' leftB' : List FoldRange}
    {useRange : Option FoldRange} (htaken : Taken selection leftA leftB useRange leftA' leftB') :
    leftA'.length + leftB'.length < leftA.length + leftB.length := by
  cases htaken <;> simp only [length_cons] <;> omega

theorem merged_mergeLoop {selection : SelectedLines}
    (hA : SortedByStart rangesA) (hB : SortedByStart rangesB) (rounds : Nat) :
    ∀ (pastA leftA pastB leftB : List FoldRange) (m : Merging) (line : Int),
      leftA.length + leftB.length ≤ rounds →
      Merged rangesA rangesB maxLineNumber pastA leftA pastB leftB m line →
      ∃ line', Merged rangesA rangesB maxLineNumber rangesA [] rangesB []
        (mergeLoop maxLineNumber selection rounds leftA leftB m) line' := by
  induction rounds with
  | zero =>
    intro pastA leftA pastB leftB m line hle h
    have hleftA : leftA = [] := length_eq_zero_iff.mp (by omega)
    have hleftB : leftB = [] := length_eq_zero_iff.mp (by omega)
    subst hleftA hleftB
    have hpastA := h.splitA
    have hpastB := h.splitB
    rw [append_nil] at hpastA hpastB
    subst hpastA hpastB
    exact ⟨line, h⟩
  | succ rounds ih =>
    intro pastA leftA pastB leftB m line hle h
    rw [mergeLoop]
    by_cases hdone : leftA = [] ∧ leftB = []
    · obtain ⟨rfl, rfl⟩ := hdone
      have hpastA := h.splitA
      have hpastB := h.splitB
      rw [append_nil] at hpastA hpastB
      subst hpastA hpastB
      exact ⟨line, h⟩
    · rw [if_neg hdone]
      have hsortedA : SortedByStart leftA := by
        have hall := hA
        rw [h.splitA, SortedByStart, pairwise_append] at hall
        exact hall.2.1
      have hsortedB : SortedByStart leftB := by
        have hall := hB
        rw [h.splitB, SortedByStart, pairwise_append] at hall
        exact hall.2.1
      have htaken := nextRange_taken selection hsortedA hsortedB hdone
      have hlength := length_taken htaken
      obtain ⟨pastA', pastB', line', hround⟩ := merged_round hA hB htaken h
      exact ih pastA' _ pastB' _ _ line' (Nat.lt_succ_iff.mp (hlength.trans_le hle)) hround

theorem merged_start : ∃ line, Merged rangesA rangesB maxLineNumber [] rangesA [] rangesB {} line := by
  obtain ⟨line, hline⟩ : ∃ line : Int, ∀ r ∈ rangesA ++ rangesB, line ≤ r.startLineNumber := by
    generalize rangesA ++ rangesB = ranges
    induction ranges with
    | nil => exact ⟨0, fun _ hr => (nomatch hr)⟩
    | cons r ranges ih =>
      obtain ⟨line, hline⟩ := ih
      refine ⟨min line r.startLineNumber, fun r' hr' => ?_⟩
      rcases mem_cons.mp hr' with rfl | hr'
      · exact min_le_right _ _
      · exact (min_le_left _ _).trans (hline r' hr')
  refine ⟨line, rfl, rfl, hline, keeps_start maxLineNumber line, fun _ _ _ => rfl,
    fun _ _ _ _ _ _ r hr => (nomatch hr), fun _ before u behind hsplit _ => ?_⟩
  simp at hsplit

/-- The result is well formed, and as long as no range of A that comes in the place of one of
B stands in their way, the valid user-defined ranges are in it. -/
theorem sanitizeAndMerge_keeps_user (selection : SelectedLines)
    (hA : SortedByStart rangesA) (hB : SortedByStart rangesB) :
    WellFormedRanges maxLineNumber (sanitizeAndMerge rangesA rangesB maxLineNumber selection) ∧
      (ReplacesSafely rangesA rangesB maxLineNumber →
        ∀ before u behind, rangesB = before ++ u :: behind →
          ValidUserRange maxLineNumber before u →
            u ∈ sanitizeAndMerge rangesA rangesB maxLineNumber selection) := by
  obtain ⟨line, hstart⟩ := @merged_start rangesA rangesB maxLineNumber
  obtain ⟨line', hend⟩ :=
    @merged_mergeLoop rangesA rangesB maxLineNumber selection hA hB _ [] rangesA [] rangesB {} line le_rfl hstart
  exact ⟨hend.keeps.wellFormed, hend.kept⟩

/-- A user-defined range wins over the provider's range that it crosses. -/
theorem sanitizeAndMerge_keeps_user_of_crossing :
    (⟨2, 8, none, false, .userDefined⟩ : FoldRange) ∈
      sanitizeAndMerge [⟨1, 5, none, false, .provider⟩, ⟨4, 6, none, false, .provider⟩]
        [⟨2, 8, none, false, .userDefined⟩] (some 20) none := by
  refine (sanitizeAndMerge_keeps_user none (by decide) (by decide)).2 ?_ [] _ []
    rfl ⟨rfl, by decide, fun _ hb => (nomatch hb)⟩
  rintro before u behind hsplit - a b ⟨-, -, -, -, bs, bs', -, hbefore, -⟩
  rw [hbefore] at hsplit
  have hlength := congrArg List.length hsplit
  simp only [length_append, length_cons, length_nil] at hlength
  omega

/-- A range of A that comes in the place of a recovered range of B is used without a look
ahead, and discards the user-defined range that it crosses. -/
theorem not_keeps_user_behind_replaced :
    ¬ ∀ (rangesA rangesB : List FoldRange) (maxLineNumber : Option Int) (selection : SelectedLines),
      SortedByStart rangesA → SortedByStart rangesB →
      WellFormedRanges maxLineNumber (sanitizeAndMerge rangesA rangesB maxLineNumber selection) ∧
        ∀ before u behind, rangesB = before ++ u :: behind →
          ValidUserRange maxLineNumber before u →
          (∀ b ∈ before ++ behind, b.source = .userDefined →
            NestedIn b u ∨ NestedIn u b) →
            u ∈ sanitizeAndMerge rangesA rangesB maxLineNumber selection := by
  intro h
  have hvalid : ValidUserRange none [⟨1, 3, none, true, .recovered⟩]
      ⟨5, 12, none, false, .userDefined⟩ := by
    refine ⟨rfl, by decide, fun b hb _ => ?_⟩
    obtain rfl := mem_singleton.mp hb
    exact ⟨by decide, Or.inr (by decide)⟩
  have hmem := (h [⟨1, 10, none, false, .provider⟩]
    [⟨1, 3, none, true, .recovered⟩, ⟨5, 12, none, false, .userDefined⟩] none none
    (by decide) (by decide)).2 _ _ [] rfl hvalid fun b hb huser => by
      obtain rfl := mem_singleton.mp hb
      exact nomatch huser
  revert hmem
  decide

end Gavea.Folding
