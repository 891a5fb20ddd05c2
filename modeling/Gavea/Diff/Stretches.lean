import Gavea.Diff.Words
import Mathlib.Data.List.Sort

namespace Gavea.Diff

open Gavea.Core (OffsetRange)

structure EqualGap (sequence1 sequence2 : Elements) (a b : OffsetPair) : Prop where
  le : a.offset1 ≤ b.offset1
  lengths : b.offset1 - a.offset1 = b.offset2 - a.offset2
  equal : ∀ i, a.offset1 ≤ i → i < b.offset1 → getElement sequence1 i = getElement sequence2 (i - a.offset1 + a.offset2)

def GapsFrom (sequence1 sequence2 : Elements) (a : OffsetPair) : List SequenceDiff → Prop
  | [] => EqualGap sequence1 sequence2 a ⟨sequence1.length, sequence2.length⟩
  | d :: rest => EqualGap sequence1 sequence2 a d.getStarts ∧ GapsFrom sequence1 sequence2 d.getEndExclusives rest

def Separated (d d' : SequenceDiff) : Prop :=
  d.seq1Range.endExclusive < d'.seq1Range.start ∧ d.seq2Range.endExclusive < d'.seq2Range.start

structure ValidDiffs (sequence1 sequence2 : Elements) (sequenceDiffs : List SequenceDiff) : Prop where
  separated : sequenceDiffs.Pairwise Separated
  gaps : GapsFrom sequence1 sequence2 OffsetPair.zero sequenceDiffs

def OffsetPair.Le (p q : OffsetPair) : Prop := p.offset1 ≤ q.offset1 ∧ p.offset2 ≤ q.offset2

def EqualPart (sequence1 sequence2 : Elements) (m : SequenceDiff) : Prop :=
  EqualGap sequence1 sequence2 m.getStarts m.getEndExclusives

structure Inside (m : SequenceDiff) (p : OffsetPair) : Prop where
  start_le : m.seq1Range.start ≤ p.offset1
  le_end : p.offset1 ≤ m.seq1Range.endExclusive
  maps : p.offset2 - m.seq2Range.start = p.offset1 - m.seq1Range.start

/-- The equal mappings behind one of them, each behind a diff; only the last one may be empty. -/
def Follows (sequence1 sequence2 : Elements) (sequenceDiffs : List SequenceDiff) :
    SequenceDiff → List SequenceDiff → Prop
  | m, [] => m.getEndExclusives = ⟨sequence1.length, sequence2.length⟩
  | m, m' :: rest =>
    (∃ d ∈ sequenceDiffs, d.getStarts = m.getEndExclusives ∧ d.getEndExclusives = m'.getStarts) ∧
      (m'.seq1Range.start = m'.seq1Range.endExclusive → rest = []) ∧
      EqualPart sequence1 sequence2 m' ∧ Follows sequence1 sequence2 sequenceDiffs m' rest

variable {sequence1 sequence2 : Elements} {sequenceDiffs rest : List SequenceDiff}
  {m m' d : SequenceDiff} {p q a : OffsetPair}

theorem EqualGap.le2 (h : EqualGap sequence1 sequence2 p q) : p.offset2 ≤ q.offset2 := by
  have hle := h.le
  have hlengths := h.lengths
  omega

theorem fromOffsetPairs_ok (h : p.Le q) :
    SequenceDiff.fromOffsetPairs p q = .ok ⟨⟨p.offset1, q.offset1, h.1⟩, ⟨p.offset2, q.offset2, h.2⟩⟩ := by
  rw [SequenceDiff.fromOffsetPairs, OffsetRange.new_ok h.1, OffsetRange.new_ok h.2]
  rfl

theorem Inside.le_starts (h : Inside m p) : m.getStarts.Le p := by
  have hstart := h.start_le
  have hmaps := h.maps
  exact ⟨hstart, by rw [SequenceDiff.getStarts]; dsimp only; omega⟩

theorem Inside.le_ends (h : Inside m p) (hm : EqualPart sequence1 sequence2 m) :
    p.Le m.getEndExclusives := by
  have hend := h.le_end
  have hmaps := h.maps
  have hlengths := hm.lengths
  rw [SequenceDiff.getStarts, SequenceDiff.getEndExclusives] at hlengths
  dsimp only at hlengths
  exact ⟨hend, by rw [SequenceDiff.getEndExclusives]; dsimp only; omega⟩

theorem inside_ends (hm : EqualPart sequence1 sequence2 m) : Inside m m.getEndExclusives := by
  have hlengths := hm.lengths
  exact ⟨m.seq1Range.le, le_refl _, by
    rw [SequenceDiff.getStarts, SequenceDiff.getEndExclusives] at hlengths
    exact hlengths.symm⟩

theorem inside_starts (m : SequenceDiff) : Inside m m.getStarts :=
  ⟨le_refl _, m.seq1Range.le, by rw [SequenceDiff.getStarts]; dsimp only; omega⟩

theorem equalGap_of_inside (hm : EqualPart sequence1 sequence2 m) (hp : Inside m p) (hq : Inside m q)
    (hle : p.offset1 ≤ q.offset1) : EqualGap sequence1 sequence2 p q := by
  have hpmaps := hp.maps
  have hqmaps := hq.maps
  refine ⟨hle, by omega, fun i h1 h2 => ?_⟩
  have hequal := hm.equal i (hp.start_le.trans h1) (h2.trans_le hq.le_end)
  rw [hequal]
  congr 1
  rw [SequenceDiff.getStarts]
  dsimp only
  omega

def Bordered (mappings : List SequenceDiff) (d : SequenceDiff) : Prop :=
  (∃ m ∈ mappings, m.getEndExclusives = d.getStarts) ∧ ∃ m ∈ mappings, m.getStarts = d.getEndExclusives

def InFront (m m' : SequenceDiff) : Prop := m.getEndExclusives.Le m'.getStarts

theorem invertFrom_spec (hgaps : GapsFrom sequence1 sequence2 a rest)
    (hseparated : rest.Pairwise Separated) (hsub : ∀ d ∈ rest, d ∈ sequenceDiffs) :
    ∃ m ms, SequenceDiff.invertFrom a sequence1.length rest = .ok (m :: ms) ∧ m.getStarts = a ∧
      EqualPart sequence1 sequence2 m ∧ Follows sequence1 sequence2 sequenceDiffs m ms ∧
      (∀ m' ∈ m :: ms, EqualPart sequence1 sequence2 m') ∧ (∀ d ∈ rest, Bordered (m :: ms) d) ∧
      (m :: ms).Pairwise InFront ∧
      (m.seq1Range.start = m.seq1Range.endExclusive →
        ∀ d ∈ rest.head?, d.seq1Range.start = a.offset1) ∧ (rest = [] → ms = []) := by
  induction rest generalizing a with
  | nil =>
    have hlengths := hgaps.lengths
    have hle2 := hgaps.le2
    dsimp only at hlengths hle2
    have hpair : (⟨sequence1.length, a.offset2 - a.offset1 + sequence1.length⟩ : OffsetPair) =
        ⟨sequence1.length, sequence2.length⟩ := by
      congr 1
      omega
    refine ⟨⟨⟨a.offset1, sequence1.length, hgaps.le⟩, ⟨a.offset2, sequence2.length, hle2⟩⟩, [], ?_, rfl,
      hgaps, rfl, ?_, by simp, List.pairwise_singleton _ _, by simp, fun _ => rfl⟩
    · rw [SequenceDiff.invertFrom, hpair, fromOffsetPairs_ok ⟨hgaps.le, hle2⟩]
      rfl
    · intro m' hm'
      obtain rfl := List.mem_singleton.mp hm'
      exact hgaps
  | cons d rest ih =>
    obtain ⟨hgap, hgaps⟩ := hgaps
    obtain ⟨hd, hseparated⟩ := List.pairwise_cons.mp hseparated
    obtain ⟨hd_mem, hsub⟩ := List.forall_mem_cons.mp hsub
    obtain ⟨m, ms, hinvert, hstarts, hpart, hfollows, hparts, hbordered, hfront, hempty, hnil⟩ :=
      ih hgaps hseparated hsub
    refine ⟨⟨⟨a.offset1, d.seq1Range.start, hgap.le⟩, ⟨a.offset2, d.seq2Range.start, hgap.le2⟩⟩,
      m :: ms, ?_, rfl, hgap, ⟨⟨d, hd_mem, rfl, hstarts.symm⟩, ?_, hpart, hfollows⟩,
      List.forall_mem_cons.mpr ⟨hgap, hparts⟩, ?_, List.pairwise_cons.mpr ⟨?_, hfront⟩, ?_, by simp⟩
    · rw [SequenceDiff.invertFrom, fromOffsetPairs_ok ⟨hgap.le, hgap.le2⟩, hinvert]
      rfl
    · intro heq
      refine hnil ?_
      cases rest with
      | nil => rfl
      | cons d' rest =>
        have hstart := hempty heq d' rfl
        have hlt := (hd d' List.mem_cons_self).1
        rw [SequenceDiff.getEndExclusives] at hstart
        dsimp only at hstart
        omega
    · intro d' hd'
      rcases List.mem_cons.mp hd' with rfl | htail
      · exact ⟨⟨_, List.mem_cons_self, rfl⟩, m, List.mem_cons_of_mem _ List.mem_cons_self, hstarts⟩
      · obtain ⟨⟨m₁, hm₁, h₁⟩, m₂, hm₂, h₂⟩ := hbordered d' htail
        exact ⟨⟨m₁, List.mem_cons_of_mem _ hm₁, h₁⟩, m₂, List.mem_cons_of_mem _ hm₂, h₂⟩
    · have hle : d.getStarts.Le m.getStarts := hstarts ▸ ⟨d.seq1Range.le, d.seq2Range.le⟩
      have hm_le : m.getStarts.Le m.getEndExclusives := ⟨m.seq1Range.le, m.seq2Range.le⟩
      intro m' hm'
      rcases List.mem_cons.mp hm' with rfl | htail
      · exact hle
      · have hm' := (List.pairwise_cons.mp hfront).1 m' htail
        exact ⟨hle.1.trans (hm_le.1.trans hm'.1), hle.2.trans (hm_le.2.trans hm'.2)⟩
    · intro heq d' hd'
      obtain rfl := Option.some.inj hd'
      exact heq.symm

end Gavea.Diff

namespace Gavea.Diff

variable {sequence1 sequence2 : Elements} {sequenceDiffs mappings rest : List SequenceDiff}
  {m : SequenceDiff} {p q r : OffsetPair}

theorem OffsetPair.Le.trans (h : p.Le q) (h' : q.Le r) : p.Le r := ⟨h.1.trans h'.1, h.2.trans h'.2⟩

theorem OffsetPair.Le.antisymm (h : p.Le q) (h' : q.Le p) : p = q := by
  obtain ⟨p1, p2⟩ := p
  obtain ⟨q1, q2⟩ := q
  exact congrArg₂ OffsetPair.mk (le_antisymm h.1 h'.1) (le_antisymm h.2 h'.2)

def Synced (mappings : List SequenceDiff) (p : OffsetPair) : Prop := ∃ m ∈ mappings, Inside m p

structure Aligned (sequence1 sequence2 : Elements) (mappings : List SequenceDiff) : Prop where
  parts : ∀ m ∈ mappings, EqualPart sequence1 sequence2 m
  inFront : mappings.Pairwise InFront

theorem Inside.le_of_inFront (hp : Inside m p) (hm : EqualPart sequence1 sequence2 m)
    {m' : SequenceDiff} (hfront : InFront m m') (hq : Inside m' q) : p.Le q :=
  (hp.le_ends hm).trans (hfront.trans hq.le_starts)

theorem Inside.le_total (hp : Inside m p) (hq : Inside m q) : p.Le q ∨ q.Le p := by
  have hpmaps := hp.maps
  have hqmaps := hq.maps
  rcases Int.le_total p.offset1 q.offset1 with hle | hle
  · exact Or.inl ⟨hle, by omega⟩
  · exact Or.inr ⟨hle, by omega⟩

theorem Aligned.le_total (h : Aligned sequence1 sequence2 mappings) (hp : Synced mappings p)
    (hq : Synced mappings q) : p.Le q ∨ q.Le p := by
  obtain ⟨hparts, hfront⟩ := h
  induction mappings with
  | nil =>
    obtain ⟨m, hm, -⟩ := hp
    exact absurd hm List.not_mem_nil
  | cons m rest ih =>
    obtain ⟨hm, hrest⟩ := List.forall_mem_cons.mp hparts
    obtain ⟨hm_front, hrest_front⟩ := List.pairwise_cons.mp hfront
    obtain ⟨mp, hmp, hp⟩ := hp
    obtain ⟨mq, hmq, hq⟩ := hq
    rcases List.mem_cons.mp hmp with rfl | hmp_rest
    · rcases List.mem_cons.mp hmq with rfl | hmq_rest
      · exact hp.le_total hq
      · exact Or.inl (hp.le_of_inFront hm (hm_front mq hmq_rest) hq)
    · rcases List.mem_cons.mp hmq with rfl | hmq_rest
      · exact Or.inr (hq.le_of_inFront hm (hm_front mp hmp_rest) hp)
      · exact ih ⟨mp, hmp_rest, hp⟩ ⟨mq, hmq_rest, hq⟩ hrest hrest_front

theorem Aligned.le_of_lt (h : Aligned sequence1 sequence2 mappings) (hp : Synced mappings p)
    (hq : Synced mappings q) (hlt : p.offset1 < q.offset1) : p.Le q := by
  refine (h.le_total hp hq).resolve_right fun hle => ?_
  have hle1 := hle.1
  omega

theorem equalGap_refl (p : OffsetPair) : EqualGap sequence1 sequence2 p p :=
  ⟨le_refl _, by omega, fun i h1 h2 => by omega⟩

theorem equalGap_of_follows (hm : EqualPart sequence1 sequence2 m)
    (hfollows : Follows sequence1 sequence2 sequenceDiffs m rest)
    (hfront : (m :: rest).Pairwise InFront) (hp : Inside m p) (hq : Synced (m :: rest) q)
    (hle : p.Le q)
    (hcovered : ∀ d ∈ sequenceDiffs, d.getEndExclusives.Le p ∨ q.Le d.getStarts) :
    EqualGap sequence1 sequence2 p q := by
  induction rest generalizing m with
  | nil =>
    obtain ⟨m', hm', hq⟩ := hq
    obtain rfl := List.mem_singleton.mp hm'
    exact equalGap_of_inside hm hp hq hle.1
  | cons m' rest ih =>
    obtain ⟨⟨d, hd, hd_start, hd_end⟩, -, hm', hfollows'⟩ := hfollows
    obtain ⟨hm_front, hfront'⟩ := List.pairwise_cons.mp hfront
    obtain ⟨mq, hmq, hq⟩ := hq
    rcases List.mem_cons.mp hmq with rfl | htail
    · exact equalGap_of_inside hm hp hq hle.1
    · rcases hcovered d hd with hend | hstart
      · -- the diff in between is empty, and the pair starts the next part
        have hp_eq : p = m'.getStarts := by
          refine ((hp.le_ends hm).trans ?_).antisymm (hd_end ▸ hend)
          rw [← hd_start, ← hd_end]
          exact ⟨d.seq1Range.le, d.seq2Range.le⟩
        exact ih hm' hfollows' hfront' (hp_eq ▸ inside_starts m') ⟨mq, htail, hq⟩
      · have hq_eq : q = m.getEndExclusives := by
          refine OffsetPair.Le.antisymm (hd_start ▸ hstart) ?_
          exact (hm_front mq htail).trans hq.le_starts
        exact equalGap_of_inside hm hp (hq_eq ▸ inside_ends hm) hle.1

theorem equalGap_of_synced (hparts : ∀ m' ∈ m :: rest, EqualPart sequence1 sequence2 m')
    (hfollows : Follows sequence1 sequence2 sequenceDiffs m rest)
    (hfront : (m :: rest).Pairwise InFront) (hp : Synced (m :: rest) p) (hq : Synced (m :: rest) q)
    (hle : p.Le q)
    (hcovered : ∀ d ∈ sequenceDiffs, d.getEndExclusives.Le p ∨ q.Le d.getStarts) :
    EqualGap sequence1 sequence2 p q := by
  induction rest generalizing m with
  | nil =>
    obtain ⟨m', hm', hp⟩ := hp
    obtain rfl := List.mem_singleton.mp hm'
    exact equalGap_of_follows (hparts _ hm') hfollows hfront hp hq hle hcovered
  | cons m' rest ih =>
    obtain ⟨hm, hparts'⟩ := List.forall_mem_cons.mp hparts
    obtain ⟨hm_front, hfront'⟩ := List.pairwise_cons.mp hfront
    obtain ⟨mp, hmp, hp⟩ := hp
    rcases List.mem_cons.mp hmp with rfl | htail
    · exact equalGap_of_follows hm hfollows hfront hp hq hle hcovered
    · obtain ⟨mq, hmq, hq⟩ := hq
      rcases List.mem_cons.mp hmq with rfl | hmq_rest
      · -- the second pair is in an earlier part, so the two are the same
        have heq := hle.antisymm (hq.le_of_inFront hm (hm_front mp htail) hp)
        exact heq ▸ equalGap_refl p
      · exact ih hparts' hfollows.2.2.2 hfront' ⟨mp, htail, hp⟩ ⟨mq, hmq_rest, hq⟩

end Gavea.Diff

namespace Gavea.Diff

open List

def Covers (r d : SequenceDiff) : Prop := r.getStarts.Le d.getStarts ∧ d.getEndExclusives.Le r.getEndExclusives

structure JoinedFrom (pushed : List SequenceDiff) (r : SequenceDiff) : Prop where
  start1 : ∃ d ∈ pushed, Covers r d ∧ d.seq1Range.start = r.seq1Range.start
  start2 : ∃ d ∈ pushed, Covers r d ∧ d.seq2Range.start = r.seq2Range.start
  end1 : ∃ d ∈ pushed, Covers r d ∧ d.seq1Range.endExclusive = r.seq1Range.endExclusive
  end2 : ∃ d ∈ pushed, Covers r d ∧ d.seq2Range.endExclusive = r.seq2Range.endExclusive

structure Merged (pushed result : List SequenceDiff) : Prop where
  apart : result.Pairwise fun r r' => r'.seq1Range.endExclusive < r.seq1Range.start
  covered : ∀ d ∈ pushed, ∃ r ∈ result, Covers r d
  joined : ∀ r ∈ result, JoinedFrom pushed r

variable {pushed pushed' result sequenceDiffs1 sequenceDiffs2 : List SequenceDiff}
  {r d next last : SequenceDiff}

theorem Covers.refl (d : SequenceDiff) : Covers d d := ⟨⟨le_refl _, le_refl _⟩, le_refl _, le_refl _⟩

theorem Covers.trans {r' : SequenceDiff} (h : Covers r' r) (h' : Covers r d) : Covers r' d :=
  ⟨h.1.trans h'.1, h'.2.trans h.2⟩

theorem covers_join_left (d other : SequenceDiff) : Covers (d.join other) d :=
  ⟨⟨min_le_left _ _, min_le_left _ _⟩, le_max_left _ _, le_max_left _ _⟩

theorem covers_join_right (d other : SequenceDiff) : Covers (d.join other) other :=
  ⟨⟨min_le_right _ _, min_le_right _ _⟩, le_max_right _ _, le_max_right _ _⟩

theorem JoinedFrom.mono (h : JoinedFrom pushed r) (hsub : pushed ⊆ pushed') : JoinedFrom pushed' r := by
  obtain ⟨⟨d1, hd1, h1⟩, ⟨d2, hd2, h2⟩, ⟨d3, hd3, h3⟩, ⟨d4, hd4, h4⟩⟩ := h
  exact ⟨⟨d1, hsub hd1, h1⟩, ⟨d2, hsub hd2, h2⟩, ⟨d3, hsub hd3, h3⟩, ⟨d4, hsub hd4, h4⟩⟩

theorem joinedFrom_self (hd : d ∈ pushed) : JoinedFrom pushed d :=
  ⟨⟨d, hd, Covers.refl d, rfl⟩, ⟨d, hd, Covers.refl d, rfl⟩, ⟨d, hd, Covers.refl d, rfl⟩, ⟨d, hd, Covers.refl d, rfl⟩⟩

theorem JoinedFrom.join (h : JoinedFrom pushed r) (hd : d ∈ pushed) : JoinedFrom pushed (r.join d) := by
  obtain ⟨⟨d1, hd1, hc1, h1⟩, ⟨d2, hd2, hc2, h2⟩, ⟨d3, hd3, hc3, h3⟩, ⟨d4, hd4, hc4, h4⟩⟩ := h
  have hleft := covers_join_left r d
  have hright := covers_join_right r d
  constructor
  · rcases min_choice r.seq1Range.start d.seq1Range.start with heq | heq
    · exact ⟨d1, hd1, hleft.trans hc1, h1.trans heq.symm⟩
    · exact ⟨d, hd, hright, heq.symm⟩
  · rcases min_choice r.seq2Range.start d.seq2Range.start with heq | heq
    · exact ⟨d2, hd2, hleft.trans hc2, h2.trans heq.symm⟩
    · exact ⟨d, hd, hright, heq.symm⟩
  · rcases max_choice r.seq1Range.endExclusive d.seq1Range.endExclusive with heq | heq
    · exact ⟨d3, hd3, hleft.trans hc3, h3.trans heq.symm⟩
    · exact ⟨d, hd, hright, heq.symm⟩
  · rcases max_choice r.seq2Range.endExclusive d.seq2Range.endExclusive with heq | heq
    · exact ⟨d4, hd4, hleft.trans hc4, h4.trans heq.symm⟩
    · exact ⟨d, hd, hright, heq.symm⟩

def mergeOrder (sequenceDiffs1 sequenceDiffs2 : List SequenceDiff) : List SequenceDiff :=
  sequenceDiffs2.merge sequenceDiffs1 fun sd2 sd1 => sd2.seq1Range.start ≤ sd1.seq1Range.start

theorem mergeLoop_eq_foldl (result sequenceDiffs1 sequenceDiffs2 : List SequenceDiff) :
    mergeLoop result sequenceDiffs1 sequenceDiffs2 =
      (mergeOrder sequenceDiffs1 sequenceDiffs2).foldl (fun result next => pushJoined next result)
        result := by
  induction result, sequenceDiffs1, sequenceDiffs2 using mergeLoop.induct with
  | case1 result => rw [mergeLoop, mergeOrder, nil_merge, foldl_nil]
  | case2 result sd1 rest1 ih => rw [mergeLoop, ih, mergeOrder, mergeOrder, nil_merge, nil_merge, foldl_cons]
  | case3 result sd2 rest2 ih => rw [mergeLoop, ih, mergeOrder, mergeOrder, merge_right, merge_right, foldl_cons]
  | case4 result sd1 rest1 sd2 rest2 hlt ih =>
    rw [mergeLoop, if_pos hlt, ih, mergeOrder, mergeOrder, cons_merge_cons,
      if_neg (by rw [decide_eq_true_eq]; omega), foldl_cons]
  | case5 result sd1 rest1 sd2 rest2 hlt ih =>
    rw [mergeLoop, if_neg hlt, ih, mergeOrder, mergeOrder, cons_merge_cons,
      if_pos (by rw [decide_eq_true_eq]; omega), foldl_cons]

theorem Merged.pushJoined (h : Merged pushed result)
    (hle : ∀ d ∈ pushed, d.seq1Range.start ≤ next.seq1Range.start) :
    Merged (pushed ++ [next]) (pushJoined next result) := by
  have hold : pushed ⊆ pushed ++ [next] := subset_append_left _ _
  have hnext : next ∈ pushed ++ [next] := mem_append_right _ mem_cons_self
  have hresult_le (r : SequenceDiff) (hr : r ∈ result) : r.seq1Range.start ≤ next.seq1Range.start := by
    obtain ⟨d, hd, -, heq⟩ := (h.joined r hr).start1
    exact heq ▸ hle d hd
  cases result with
  | nil =>
    refine ⟨pairwise_singleton _ _, fun d hd => ?_, fun r hr => ?_⟩
    · rcases mem_append.mp hd with hd | hd
      · obtain ⟨r, hr, -⟩ := h.covered d hd
        exact absurd hr not_mem_nil
      · exact ⟨next, mem_cons_self, mem_singleton.mp hd ▸ Covers.refl _⟩
    · obtain rfl := mem_singleton.mp hr
      exact joinedFrom_self hnext
  | cons last result =>
    obtain ⟨hlast, hapart⟩ := pairwise_cons.mp h.apart
    rw [Diff.pushJoined]
    split_ifs with htouch
    · refine ⟨pairwise_cons.mpr ⟨fun r hr => ?_, hapart⟩, fun d hd => ?_, fun r hr => ?_⟩
      · have hmin : (last.join next).seq1Range.start = last.seq1Range.start :=
          min_eq_left (hresult_le last mem_cons_self)
        exact hmin ▸ hlast r hr
      · rcases mem_append.mp hd with hd | hd
        · obtain ⟨r, hr, hcovers⟩ := h.covered d hd
          rcases mem_cons.mp hr with rfl | hr
          · exact ⟨_, mem_cons_self, (covers_join_left _ _).trans hcovers⟩
          · exact ⟨r, mem_cons_of_mem _ hr, hcovers⟩
        · exact ⟨_, mem_cons_self, mem_singleton.mp hd ▸ covers_join_right _ _⟩
      · rcases mem_cons.mp hr with rfl | hr
        · exact ((h.joined last mem_cons_self).mono hold).join hnext
        · exact (h.joined r (mem_cons_of_mem _ hr)).mono hold
    · refine ⟨pairwise_cons.mpr ⟨fun r hr => ?_, h.apart⟩, fun d hd => ?_, fun r hr => ?_⟩
      · rcases mem_cons.mp hr with rfl | hr
        · omega
        · have hlt := hlast r hr
          have hle_last := hresult_le last mem_cons_self
          omega
      · rcases mem_append.mp hd with hd | hd
        · obtain ⟨r, hr, hcovers⟩ := h.covered d hd
          exact ⟨r, mem_cons_of_mem _ hr, hcovers⟩
        · exact ⟨next, mem_cons_self, mem_singleton.mp hd ▸ Covers.refl _⟩
      · rcases mem_cons.mp hr with rfl | hr
        · exact joinedFrom_self hnext
        · exact (h.joined r hr).mono hold

theorem Merged.foldl (h : Merged pushed result) (order : List SequenceDiff)
    (hsorted : (pushed ++ order).Pairwise fun d d' => d.seq1Range.start ≤ d'.seq1Range.start) :
    Merged (pushed ++ order) (order.foldl (fun result next => Diff.pushJoined next result) result) := by
  induction order generalizing pushed result with
  | nil =>
    rw [append_nil]
    exact h
  | cons next order ih =>
    have hle (d : SequenceDiff) (hd : d ∈ pushed) : d.seq1Range.start ≤ next.seq1Range.start :=
      (pairwise_append.mp hsorted).2.2 d hd next mem_cons_self
    rw [foldl_cons, append_cons]
    exact ih (h.pushJoined hle) (append_cons pushed next order ▸ hsorted)

theorem mergeSequenceDiffs_spec
    (h1 : sequenceDiffs1.Pairwise fun d d' => d.seq1Range.start ≤ d'.seq1Range.start)
    (h2 : sequenceDiffs2.Pairwise fun d d' => d.seq1Range.start ≤ d'.seq1Range.start) :
    ∃ pushed, (∀ d, d ∈ pushed ↔ d ∈ sequenceDiffs1 ∨ d ∈ sequenceDiffs2) ∧
      Merged pushed (mergeSequenceDiffs sequenceDiffs1 sequenceDiffs2).reverse := by
  have hsorted : (mergeOrder sequenceDiffs1 sequenceDiffs2).Pairwise
      fun d d' => d.seq1Range.start ≤ d'.seq1Range.start := by
    have hmerge := @pairwise_merge _
      (fun d d' : SequenceDiff => decide (d.seq1Range.start ≤ d'.seq1Range.start))
      (fun a b c hab hbc => by rw [decide_eq_true_eq] at *; omega)
      (fun a b => by rw [Bool.or_eq_true, decide_eq_true_eq, decide_eq_true_eq]; omega)
      sequenceDiffs2 sequenceDiffs1 (h2.imp fun hle => decide_eq_true hle)
      (h1.imp fun hle => decide_eq_true hle)
    exact hmerge.imp fun hle => of_decide_eq_true hle
  refine ⟨mergeOrder sequenceDiffs1 sequenceDiffs2, fun d => ?_, ?_⟩
  · rw [mergeOrder, mem_merge]
    exact or_comm
  · rw [mergeSequenceDiffs, reverse_reverse, mergeLoop_eq_foldl]
    have hnil : Merged [] [] := ⟨.nil, by simp, by simp⟩
    exact hnil.foldl _ hsorted

end Gavea.Diff
