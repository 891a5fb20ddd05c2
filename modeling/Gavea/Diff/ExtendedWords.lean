import Gavea.Diff.Scanning

namespace Gavea.Diff

open List

/-- The diffs are sorted and do not overlap, they cover the given ones, and there is no difference
between them. -/
structure ExtendsDiffs (sequence1 sequence2 : Elements) (sequenceDiffs result : List SequenceDiff) :
    Prop where
  sorted : result.Pairwise InFront
  covers : ∀ d ∈ sequenceDiffs, ∃ r ∈ result, Covers r d
  gaps : GapsFrom sequence1 sequence2 OffsetPair.zero result

variable {sequence1 sequence2 : Elements} {sequenceDiffs mappings pushed result rest ms : List SequenceDiff}
  {m r d x : SequenceDiff} {a p q s : OffsetPair}

def Apart (r r' : SequenceDiff) : Prop :=
  r'.seq1Range.endExclusive < r.seq1Range.start ∨ r.seq1Range.endExclusive < r'.seq1Range.start

instance : Std.Symm Apart := ⟨fun _ _ => Or.symm⟩

theorem Merged.covers_of_meets (h : Merged pushed result) (hd : d ∈ pushed) (hr : r ∈ result) {c : Int}
    (hd1 : d.seq1Range.start ≤ c) (hd2 : c ≤ d.seq1Range.endExclusive) (hr1 : r.seq1Range.start ≤ c)
    (hr2 : c ≤ r.seq1Range.endExclusive) : Covers r d := by
  obtain ⟨r', hr', hcovers⟩ := h.covered d hd
  by_cases heq : r = r'
  · exact heq ▸ hcovers
  · have happart : result.Pairwise Apart := h.apart.imp Or.inl
    have hpair : Apart r r' := happart.forall hr hr' heq
    rw [Apart] at hpair
    have hstart : r'.seq1Range.start ≤ d.seq1Range.start := hcovers.1.1
    have hend : d.seq1Range.endExclusive ≤ r'.seq1Range.endExclusive := hcovers.2.1
    omega

theorem Merged.exists_start (h : Merged pushed result) (hsub : sequenceDiffs ⊆ pushed)
    (hsynced : ∀ d ∈ sequenceDiffs, Synced mappings d.getStarts) (hr : r ∈ result)
    (hcovers : Covers r x) (hplaced : Placed mappings sequenceDiffs x.getStarts) :
    ∃ q, Synced mappings q ∧ r.getStarts.Le q ∧ q.Le x.getStarts := by
  rcases hplaced with hx | ⟨d, hd, hle, hle'⟩
  · exact ⟨_, hx, hcovers.1, le_refl _, le_refl _⟩
  · have hend : x.seq1Range.start ≤ r.seq1Range.endExclusive := x.seq1Range.le.trans hcovers.2.1
    have hr_covers := h.covers_of_meets (hsub hd) hr hle.1 hle'.1 hcovers.1.1 hend
    exact ⟨_, hsynced d hd, hr_covers.1, hle⟩

theorem Merged.exists_end (h : Merged pushed result) (hsub : sequenceDiffs ⊆ pushed)
    (hsynced : ∀ d ∈ sequenceDiffs, Synced mappings d.getEndExclusives) (hr : r ∈ result)
    (hcovers : Covers r x) (hplaced : Placed mappings sequenceDiffs x.getEndExclusives) :
    ∃ q, Synced mappings q ∧ x.getEndExclusives.Le q ∧ q.Le r.getEndExclusives := by
  rcases hplaced with hx | ⟨d, hd, hle, hle'⟩
  · exact ⟨_, hx, ⟨le_refl _, le_refl _⟩, hcovers.2⟩
  · have hstart : r.seq1Range.start ≤ x.seq1Range.endExclusive := hcovers.1.1.trans x.seq1Range.le
    have hr_covers := h.covers_of_meets (hsub hd) hr hle.1 hle'.1 hstart hcovers.2.1
    exact ⟨_, hsynced d hd, hle', hr_covers.2⟩

theorem Aligned.synced_of_le (h : Aligned sequence1 sequence2 mappings) (hp : Synced mappings p)
    (hq : Synced mappings q) (hsp : s.Le p) (hsq : s.Le q) (hp1 : p.offset1 ≤ s.offset1)
    (hq2 : q.offset2 ≤ s.offset2) : Synced mappings s := by
  rcases h.le_total hp hq with hle | hle
  · exact hsp.antisymm ⟨hp1, hle.2.trans hq2⟩ ▸ hp
  · exact hsq.antisymm ⟨hle.1.trans hp1, hq2⟩ ▸ hq

theorem Aligned.synced_of_ge (h : Aligned sequence1 sequence2 mappings) (hp : Synced mappings p)
    (hq : Synced mappings q) (hps : p.Le s) (hqs : q.Le s) (hp1 : s.offset1 ≤ p.offset1)
    (hq2 : s.offset2 ≤ q.offset2) : Synced mappings s := by
  rcases h.le_total hp hq with hle | hle
  · exact hqs.antisymm ⟨hp1.trans hle.1, hq2⟩ ▸ hq
  · exact hps.antisymm ⟨hp1, hq2.trans hle.2⟩ ▸ hp

theorem Merged.synced (h : Merged pushed result) (haligned : Aligned sequence1 sequence2 mappings)
    (hsub : sequenceDiffs ⊆ pushed)
    (hsynced : ∀ d ∈ sequenceDiffs, Synced mappings d.getStarts ∧ Synced mappings d.getEndExclusives)
    (hplaced : ∀ x ∈ pushed, Placed mappings sequenceDiffs x.getStarts ∧
      Placed mappings sequenceDiffs x.getEndExclusives) (hr : r ∈ result) :
    Synced mappings r.getStarts ∧ Synced mappings r.getEndExclusives := by
  obtain ⟨⟨x1, hx1, hc1, h1⟩, ⟨x2, hx2, hc2, h2⟩, ⟨x3, hx3, hc3, h3⟩, ⟨x4, hx4, hc4, h4⟩⟩ := h.joined r hr
  obtain ⟨p1, hp1, hle1, hle1'⟩ := h.exists_start hsub (fun d hd => (hsynced d hd).1) hr hc1 (hplaced x1 hx1).1
  obtain ⟨p2, hp2, hle2, hle2'⟩ := h.exists_start hsub (fun d hd => (hsynced d hd).1) hr hc2 (hplaced x2 hx2).1
  obtain ⟨p3, hp3, hle3, hle3'⟩ := h.exists_end hsub (fun d hd => (hsynced d hd).2) hr hc3 (hplaced x3 hx3).2
  obtain ⟨p4, hp4, hle4, hle4'⟩ := h.exists_end hsub (fun d hd => (hsynced d hd).2) hr hc4 (hplaced x4 hx4).2
  exact ⟨haligned.synced_of_le hp1 hp2 hle1 hle2 (hle1'.1.trans h1.le) (hle2'.2.trans h2.le),
    haligned.synced_of_ge hp3 hp4 hle3' hle4' (h3.ge.trans hle3.1) (h4.ge.trans hle4.2)⟩

theorem Follows.synced_ends (h : Follows sequence1 sequence2 sequenceDiffs m rest)
    (hparts : ∀ m' ∈ m :: rest, EqualPart sequence1 sequence2 m') :
    Synced (m :: rest) ⟨sequence1.length, sequence2.length⟩ ∧
      ∀ m' ∈ m :: rest, m'.getEndExclusives.Le ⟨sequence1.length, sequence2.length⟩ := by
  induction rest generalizing m with
  | nil =>
    have hends : m.getEndExclusives = ⟨sequence1.length, sequence2.length⟩ := h
    refine ⟨⟨m, mem_cons_self, hends ▸ inside_ends (hparts m mem_cons_self)⟩, fun m' hm' => ?_⟩
    obtain rfl := mem_singleton.mp hm'
    exact hends ▸ ⟨le_refl _, le_refl _⟩
  | cons m' rest ih =>
    obtain ⟨⟨d, -, hstarts, hends⟩, -, -, hfollows⟩ := h
    obtain ⟨⟨m'', hm'', hinside⟩, hle⟩ := ih hfollows fun x hx => hparts x (mem_cons_of_mem _ hx)
    refine ⟨⟨m'', mem_cons_of_mem _ hm'', hinside⟩, forall_mem_cons.mpr ⟨?_, hle⟩⟩
    have hd_le : d.getStarts.Le d.getEndExclusives := ⟨d.seq1Range.le, d.seq2Range.le⟩
    have hm'_le : m'.getStarts.Le m'.getEndExclusives := ⟨m'.seq1Range.le, m'.seq2Range.le⟩
    exact hstarts ▸ hd_le.trans (hends ▸ hm'_le.trans (hle m' mem_cons_self))

theorem gapsFrom_of_covers (haligned : Aligned sequence1 sequence2 (m :: ms))
    (hfollows : Follows sequence1 sequence2 sequenceDiffs m ms)
    (hsynced : ∀ r ∈ rest, Synced (m :: ms) r.getStarts ∧ Synced (m :: ms) r.getEndExclusives)
    (hsorted : rest.Pairwise InFront) (ha : Synced (m :: ms) a) (ha_le : ∀ r ∈ rest, a.Le r.getStarts)
    (hcovered : ∀ d ∈ sequenceDiffs, d.getEndExclusives.Le a ∨ ∃ r ∈ rest, Covers r d) :
    GapsFrom sequence1 sequence2 a rest := by
  obtain ⟨hlast, hle_last⟩ := hfollows.synced_ends haligned.parts
  induction rest generalizing a with
  | nil =>
    obtain ⟨m', hm', hinside⟩ := ha
    refine equalGap_of_synced haligned.parts hfollows haligned.inFront ⟨m', hm', hinside⟩ hlast
      ((hinside.le_ends (haligned.parts m' hm')).trans (hle_last m' hm')) fun d hd => ?_
    rcases hcovered d hd with hle | ⟨r, hr, -⟩
    · exact Or.inl hle
    · exact absurd hr not_mem_nil
  | cons r rest ih =>
    obtain ⟨hr, hrest⟩ := forall_mem_cons.mp hsynced
    obtain ⟨hr_front, hrest_sorted⟩ := pairwise_cons.mp hsorted
    have hr_le : r.getStarts.Le r.getEndExclusives := ⟨r.seq1Range.le, r.seq2Range.le⟩
    have ha_r := ha_le r mem_cons_self
    refine ⟨equalGap_of_synced haligned.parts hfollows haligned.inFront ha hr.1 ha_r fun d hd => ?_,
      ih hrest hrest_sorted hr.2 hr_front fun d hd => ?_⟩
    · rcases hcovered d hd with hle | ⟨r', hr', hcovers⟩
      · exact Or.inl hle
      · rcases mem_cons.mp hr' with rfl | htail
        · exact Or.inr hcovers.1
        · exact Or.inr (hr_le.trans ((hr_front r' htail).trans hcovers.1))
    · rcases hcovered d hd with hle | ⟨r', hr', hcovers⟩
      · exact Or.inl (hle.trans (ha_r.trans hr_le))
      · rcases mem_cons.mp hr' with rfl | htail
        · exact Or.inl hcovers.2
        · exact Or.inr ⟨r', htail, hcovers⟩

theorem Merged.extendsDiffs (h : Merged pushed result.reverse)
    (haligned : Aligned sequence1 sequence2 (m :: ms)) (hzero : m.getStarts = OffsetPair.zero)
    (hfollows : Follows sequence1 sequence2 sequenceDiffs m ms) (hsub : sequenceDiffs ⊆ pushed)
    (hsynced : ∀ d ∈ sequenceDiffs, Synced (m :: ms) d.getStarts ∧ Synced (m :: ms) d.getEndExclusives)
    (hplaced : ∀ x ∈ pushed, Placed (m :: ms) sequenceDiffs x.getStarts ∧
      Placed (m :: ms) sequenceDiffs x.getEndExclusives) :
    ExtendsDiffs sequence1 sequence2 sequenceDiffs result := by
  have hcorners (r : SequenceDiff) (hr : r ∈ result) := h.synced haligned hsub hsynced hplaced (mem_reverse.mpr hr)
  have happart := pairwise_reverse.mp h.apart
  have hsorted : result.Pairwise InFront := by
    refine happart.imp_of_mem fun {r r'} hr hr' hlt => ?_
    exact haligned.le_of_lt (hcorners r hr).2 (hcorners r' hr').1 hlt
  have hcovers (d : SequenceDiff) (hd : d ∈ sequenceDiffs) : ∃ r ∈ result, Covers r d := by
    obtain ⟨r, hr, hcovers⟩ := h.covered d (hsub hd)
    exact ⟨r, mem_reverse.mp hr, hcovers⟩
  have hzero_synced : Synced (m :: ms) OffsetPair.zero := ⟨m, mem_cons_self, hzero ▸ inside_starts m⟩
  refine ⟨hsorted, hcovers, gapsFrom_of_covers haligned hfollows hcorners hsorted hzero_synced
    (fun r hr => ?_) fun d hd => Or.inr (hcovers d hd)⟩
  obtain ⟨m', hm', hinside⟩ := (hcorners r hr).1
  rcases mem_cons.mp hm' with rfl | htail
  · exact hzero ▸ hinside.le_starts
  · have hfront := (pairwise_cons.mp haligned.inFront).1 m' htail
    have hm_le : m.getStarts.Le m.getEndExclusives := ⟨m.seq1Range.le, m.seq2Range.le⟩
    exact hzero ▸ hm_le.trans (hfront.trans hinside.le_starts)

/-- The extension never throws and keeps the diffs valid, if words reach back in both sequences or in
none. -/
theorem extendDiffs_of_evenReach {within : Nat → Bool} (h : ValidDiffs sequence1 sequence2 sequenceDiffs)
    (heven : EvenReach within sequence1 sequence2 sequenceDiffs) (force : Bool) :
    ∃ result, extendDiffsToEntireWordIfAppropriate sequence1 sequence2 sequenceDiffs
        (findContaining within) force = some result ∧
      ExtendsDiffs sequence1 sequence2 sequenceDiffs result := by
  obtain ⟨m, ms, hinvert, hzero, -, hfollows, hparts, hbordered, hfront, -, -⟩ :=
    invertFrom_spec h.gaps h.separated fun d hd => hd
  have hchained : Chained sequence1 sequence2 sequenceDiffs (m :: ms) :=
    ⟨⟨hparts, hfront⟩, fun m' rest hsuffix => hfollows.of_suffix hsuffix⟩
  have hready : Ready within sequence1 (m :: ms) sequenceDiffs OffsetPair.zero (m :: ms) :=
    ⟨Or.inl hzero, Or.inl (hzero ▸ ⟨le_refl _, le_refl _⟩), fun _ => Or.inl hzero⟩
  have hinv : ScanInv within sequence1 sequence2 (m :: ms) sequenceDiffs ⟨m :: ms, [], OffsetPair.zero⟩ :=
    ⟨by simp, by simp, .nil, by simp, Or.inl rfl, Or.inl rfl⟩
  obtain ⟨s, hs, hinv'⟩ := @scanAll_spec _ _ _ force _ _ _ hchained heven _ (le_refl _) (suffix_refl _) hready hinv
  obtain ⟨pushed, hpushed, hmerged⟩ := @mergeSequenceDiffs_spec sequenceDiffs s.additional
    (h.separated.imp fun {d d'} hlt => d.seq1Range.le.trans hlt.1.le)
    (hinv'.inFront.imp fun {d d'} hle => d.seq1Range.le.trans hle.1)
  refine ⟨mergeSequenceDiffs sequenceDiffs s.additional, ?_, hmerged.extendsDiffs hchained.toAligned hzero
    hfollows (fun d hd => (hpushed d).mpr (Or.inl hd)) (fun d hd => ?_) fun x hx => ?_⟩
  · rw [extendDiffsToEntireWordIfAppropriate, SequenceDiff.invert, hinvert]
    dsimp only [Except.toOption, Option.bind_eq_bind, Option.bind_some]
    rw [hs]
    rfl
  · obtain ⟨⟨m1, hm1, h1⟩, m2, hm2, h2⟩ := hbordered d hd
    exact ⟨⟨m1, hm1, h1 ▸ inside_ends (hparts m1 hm1)⟩, m2, hm2, h2 ▸ inside_starts m2⟩
  · rcases (hpushed x).mp hx with hd | hw
    · exact ⟨Or.inr ⟨x, hd, ⟨le_refl _, le_refl _⟩, x.seq1Range.le, x.seq2Range.le⟩,
        Or.inr ⟨x, hd, ⟨x.seq1Range.le, x.seq2Range.le⟩, le_refl _, le_refl _⟩⟩
    · exact ⟨hinv'.starts x hw, hinv'.ends x hw⟩

end Gavea.Diff

namespace Gavea.Diff

open List

open Gavea.Core (OffsetRange)

def reachesBack (elements : Elements) (r : OffsetRange) : Bool :=
  (findSubWordContaining elements r.endExclusive).any fun w => w.start < r.start

def ReachEvenly (sequence1 sequence2 : Elements) (sequenceDiffs : List SequenceDiff) : Prop :=
  ∀ d ∈ sequenceDiffs, (getElement sequence1 (d.seq1Range.start - 1)).any isUpperCase = true →
    reachesBack sequence1 d.seq1Range = reachesBack sequence2 d.seq2Range

variable {sequence1 sequence2 elements : Elements} {sequenceDiffs : List SequenceDiff} {i : Int}
  {r w : OffsetRange}

theorem evenReach_word (sequence1 sequence2 : Elements) (sequenceDiffs : List SequenceDiff) :
    EvenReach (fun _ => true) sequence1 sequence2 sequenceDiffs := by
  intro d _ hword hnot
  refine absurd ?_ hnot
  rw [WordAt, Option.any_eq_true] at hword
  obtain ⟨c, hc, hword⟩ := hword
  rw [ContAt, Option.any_eq_true]
  exact ⟨c, hc, by rw [hword, Bool.and_self]⟩

theorem isUpperCase_of_not_contAt (hword : WordAt elements i)
    (hnot : ¬ContAt (fun c => !isUpperCase c) elements i) :
    (getElement elements i).any isUpperCase = true := by
  rw [WordAt, Option.any_eq_true] at hword
  obtain ⟨c, hc, hword⟩ := hword
  rw [ContAt, hc, Option.any_some, hword, Bool.true_and, Bool.not_eq_true, Bool.not_eq_false'] at hnot
  rw [hc]
  exact hnot

theorem reachesBack_iff (h : IsWord (fun c => !isUpperCase c) elements r.endExclusive w) :
    reachesBack elements r = true ↔ w.start < r.start := by
  obtain ⟨w', hw', hisWord⟩ := @exists_isWord (fun c => !isUpperCase c) _ _
    (h.word r.endExclusive h.start_le (le_refl _))
  rw [reachesBack, findSubWordContaining, hw', Option.any_some, decide_eq_true_eq,
    h.start_eq hisWord h.start_le (le_refl _)]

theorem evenReach_subWord (h : ReachEvenly sequence1 sequence2 sequenceDiffs) :
    EvenReach (fun c => !isUpperCase c) sequence1 sequence2 sequenceDiffs := by
  intro d hd hword hnot w1 w2 hw1 hw2
  have heq := h d hd (isUpperCase_of_not_contAt hword hnot)
  rw [← reachesBack_iff hw1, ← reachesBack_iff hw2, heq]

def insertedSpace : SequenceDiff := ⟨⟨1, 1, by decide⟩, ⟨1, 2, by decide⟩⟩

theorem insertedSpace_valid (c : Nat) :
    ValidDiffs [c, 111, 111] [c, 32, 111, 111] [insertedSpace] := by
  refine ⟨pairwise_singleton _ _, ⟨Int.zero_le_ofNat 1, rfl, fun i h1 h2 => ?_⟩, (by omega : (1 : Int) ≤ 3),
    rfl, fun i h1 h2 => ?_⟩
  · have h1 : 0 ≤ i := h1
    have h2 : i < 1 := h2
    obtain rfl : i = 0 := by omega
    rfl
  · have h1 : 1 ≤ i := h1
    have h2 : i < 3 := h2
    obtain rfl | rfl : i = 1 ∨ i = 2 := by omega
    · rfl
    · rfl

/-- Words keep the diffs valid, and sub-words do where they reach evenly. -/
theorem extendDiffsToEntireWord_valid (h : ValidDiffs sequence1 sequence2 sequenceDiffs) :
    (∃ result, extendDiffsToEntireWordIfAppropriate sequence1 sequence2 sequenceDiffs
        findWordContaining false = some result ∧
      ExtendsDiffs sequence1 sequence2 sequenceDiffs result) ∧
    (ReachEvenly sequence1 sequence2 sequenceDiffs →
      ∃ result, extendDiffsToEntireWordIfAppropriate sequence1 sequence2 sequenceDiffs
          findSubWordContaining true = some result ∧
        ExtendsDiffs sequence1 sequence2 sequenceDiffs result) :=
  ⟨extendDiffs_of_evenReach h (evenReach_word _ _ _) false,
    fun heven => extendDiffs_of_evenReach h (evenReach_subWord heven) true⟩

theorem extendDiffsToEntireWord_valid_space :
    (∃ result, extendDiffsToEntireWordIfAppropriate [102, 111, 111] [102, 32, 111, 111] [insertedSpace]
        findWordContaining false = some result ∧
      ExtendsDiffs [102, 111, 111] [102, 32, 111, 111] [insertedSpace] result) ∧
    ∃ result, extendDiffsToEntireWordIfAppropriate [102, 111, 111] [102, 32, 111, 111] [insertedSpace]
        findSubWordContaining true = some result ∧
      ExtendsDiffs [102, 111, 111] [102, 32, 111, 111] [insertedSpace] result :=
  have hvalid := extendDiffsToEntireWord_valid (insertedSpace_valid 102)
  ⟨hvalid.1, hvalid.2 fun d hd => mem_singleton.mp hd ▸ fun hupper => absurd hupper (by decide)⟩

theorem extend_insertedSpace : extendDiffsToEntireWordIfAppropriate [70, 111, 111] [70, 32, 111, 111]
    [insertedSpace] findSubWordContaining true = some [⟨⟨0, 3, by decide⟩, ⟨1, 4, by decide⟩⟩] := by
  have hscan : scanAll findSubWordContaining [70, 111, 111] [70, 32, 111, 111] true 2
      ⟨[⟨⟨0, 1, by decide⟩, ⟨0, 1, by decide⟩⟩, ⟨⟨1, 3, by decide⟩, ⟨2, 4, by decide⟩⟩], [], OffsetPair.zero⟩ =
      some ⟨[], [⟨⟨0, 3, by decide⟩, ⟨2, 4, by decide⟩⟩], ⟨3, 4⟩⟩ := by decide
  have hextend : extendDiffsToEntireWordIfAppropriate [70, 111, 111] [70, 32, 111, 111] [insertedSpace]
      findSubWordContaining true = some (mergeSequenceDiffs [insertedSpace]
        [⟨⟨0, 3, by decide⟩, ⟨2, 4, by decide⟩⟩]) := by
    rw [extendDiffsToEntireWordIfAppropriate]
    exact congrArg (fun scanned => scanned.bind fun s => some (mergeSequenceDiffs [insertedSpace] s.additional)) hscan
  rw [hextend, mergeSequenceDiffs, mergeLoop, if_neg (by decide), mergeLoop, mergeLoop]
  rfl

theorem extendDiffsToEntireSubWord_not_valid : ¬∀ sequence1 sequence2 sequenceDiffs,
    ValidDiffs sequence1 sequence2 sequenceDiffs →
      ∃ result, extendDiffsToEntireWordIfAppropriate sequence1 sequence2 sequenceDiffs
          findSubWordContaining true = some result ∧
        ExtendsDiffs sequence1 sequence2 sequenceDiffs result := by
  intro hall
  obtain ⟨result, hresult, hextends⟩ := hall _ _ _ (insertedSpace_valid 70)
  rw [extend_insertedSpace] at hresult
  obtain rfl := Option.some.inj hresult
  exact absurd hextends.gaps.1.lengths (by decide)

end Gavea.Diff
