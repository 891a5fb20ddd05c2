import Gavea.Diff.Stretches

namespace Gavea.Diff

open Gavea.Core (OffsetRange)

variable {within : Nat → Bool} {sequence1 sequence2 : Elements} {m : SequenceDiff} {p : OffsetPair}
  {w1 w2 : OffsetRange} {i k stop : Int}

theorem EqualGap.getElement_eq {a b : OffsetPair} (h : EqualGap sequence1 sequence2 a b) (hk : 0 ≤ k)
    (hlt : a.offset1 + k < b.offset1) :
    getElement sequence1 (a.offset1 + k) = getElement sequence2 (a.offset2 + k) := by
  rw [h.equal _ (by omega) hlt]
  congr 1
  omega

theorem wordAt_congr {elements1 elements2 : Elements} {i1 i2 : Int}
    (h : getElement elements1 i1 = getElement elements2 i2) :
    WordAt elements1 i1 ↔ WordAt elements2 i2 := by
  rw [WordAt, WordAt, h]

theorem contAt_congr {elements1 elements2 : Elements} {i1 i2 : Int}
    (h : getElement elements1 i1 = getElement elements2 i2) :
    ContAt within elements1 i1 ↔ ContAt within elements2 i2 := by
  rw [ContAt, ContAt, h]

theorem Inside.getElement_eq (hm : EqualPart sequence1 sequence2 m) (hp : Inside m p)
    (hlt : p.offset1 < m.seq1Range.endExclusive) :
    getElement sequence1 p.offset1 = getElement sequence2 p.offset2 := by
  have hstart := hp.start_le
  have hmaps := hp.maps
  have heq := @EqualGap.getElement_eq _ _ (p.offset1 - m.seq1Range.start) _ _ hm (by omega)
    (by rw [SequenceDiff.getStarts, SequenceDiff.getEndExclusives]; dsimp only; omega)
  rw [SequenceDiff.getStarts] at heq
  dsimp only at heq
  rw [show p.offset1 = m.seq1Range.start + (p.offset1 - m.seq1Range.start) by omega, heq]
  congr 1
  omega

section

variable {elements1 elements2 : Elements} {a1 a2 : Int}

theorem IsWord.start_in_step (h1 : IsWord within elements1 (a1 + k) w1)
    (h2 : IsWord within elements2 (a2 + k) w2)
    (heq : ∀ j, 0 ≤ j → j ≤ k → getElement elements1 (a1 + j) = getElement elements2 (a2 + j))
    (hlt : a1 < w1.start) : w2.start - a2 = w1.start - a1 := by
  have hle1 := h1.start_le
  have hle2 := h2.start_le
  refine le_antisymm ?_ ?_
  · by_contra hgt
    have hback := heq (w2.start - a2 - 1) (by omega) (by omega)
    have hhere := heq (w2.start - a2) (by omega) (by omega)
    rw [show a2 + (w2.start - a2 - 1) = w2.start - 1 by omega] at hback
    rw [show a2 + (w2.start - a2) = w2.start by omega] at hhere
    refine h2.start_stop ((wordAt_congr hback).mp ?_) ((contAt_congr hhere).mp ?_)
    · exact h1.word _ (by omega) (by omega)
    · exact h1.left _ (by omega) (by omega)
  · by_contra hgt
    have hback := heq (w1.start - a1 - 1) (by omega) (by omega)
    have hhere := heq (w1.start - a1) (by omega) (by omega)
    rw [show a1 + (w1.start - a1 - 1) = w1.start - 1 by omega] at hback
    rw [show a1 + (w1.start - a1) = w1.start by omega] at hhere
    refine h1.start_stop ((wordAt_congr hback).mpr ?_) ((contAt_congr hhere).mpr ?_)
    · exact h2.word _ (by omega) (by omega)
    · exact h2.left _ (by omega) (by omega)

end

theorem words_start (hm : EqualPart sequence1 sequence2 m) (hp : Inside m p)
    (hlt : p.offset1 < m.seq1Range.endExclusive) (h1 : IsWord within sequence1 p.offset1 w1)
    (h2 : IsWord within sequence2 p.offset2 w2) :
    Inside m ⟨w1.start, w2.start⟩ ∨ (w1.start ≤ m.seq1Range.start ∧ w2.start ≤ m.seq2Range.start) := by
  have hstart := hp.start_le
  have hmaps := hp.maps
  have hle1 := h1.start_le
  have heq (j : Int) (h0 : 0 ≤ j) (hj : j ≤ p.offset1 - m.seq1Range.start) :
      getElement sequence1 (m.seq1Range.start + j) = getElement sequence2 (m.seq2Range.start + j) :=
    EqualGap.getElement_eq hm h0 (by rw [SequenceDiff.getStarts, SequenceDiff.getEndExclusives]; dsimp only; omega)
  rw [show p.offset1 = m.seq1Range.start + (p.offset1 - m.seq1Range.start) by omega] at h1
  rw [show p.offset2 = m.seq2Range.start + (p.offset1 - m.seq1Range.start) by omega] at h2
  by_cases hgt1 : m.seq1Range.start < w1.start
  · have hstep := h1.start_in_step h2 heq hgt1
    exact Or.inl ⟨hgt1.le, by dsimp only; omega, hstep⟩
  · by_cases hgt2 : m.seq2Range.start < w2.start
    · have hstep := h2.start_in_step h1 (fun j h0 hj => (heq j h0 hj).symm) hgt2
      exact absurd hstep (by omega)
    · exact Or.inr ⟨by omega, by omega⟩

theorem Inside.shift (hp : Inside m p) (hle : p.offset1 ≤ i) (hi : i ≤ m.seq1Range.endExclusive) :
    Inside m ⟨i, i - p.offset1 + p.offset2⟩ := by
  have hstart := hp.start_le
  have hmaps := hp.maps
  exact ⟨hstart.trans hle, hi, by dsimp only; omega⟩

theorem Inside.contAt_iff (hm : EqualPart sequence1 sequence2 m) (hp : Inside m p)
    (hlt : p.offset1 < m.seq1Range.endExclusive) :
    ContAt within sequence1 p.offset1 ↔ ContAt within sequence2 p.offset2 :=
  contAt_congr (hp.getElement_eq hm hlt)

theorem Inside.wordAt_iff (hm : EqualPart sequence1 sequence2 m) (hp : Inside m p)
    (hlt : p.offset1 < m.seq1Range.endExclusive) :
    WordAt sequence1 p.offset1 ↔ WordAt sequence2 p.offset2 :=
  wordAt_congr (hp.getElement_eq hm hlt)

theorem Inside.contAt_upTo (hm : EqualPart sequence1 sequence2 m) (hp : Inside m p)
    (hstop : stop ≤ m.seq1Range.endExclusive)
    (hcont : ∀ i, p.offset1 ≤ i → i < stop → ContAt within sequence1 i) :
    ∀ i, p.offset2 ≤ i → i < stop - p.offset1 + p.offset2 → ContAt within sequence2 i := by
  intro i h1 h2
  have hi := hp.shift (i := i - p.offset2 + p.offset1) (by omega) (by omega)
  have hfirst := hcont (i - p.offset2 + p.offset1) (by omega) (by omega)
  have hsecond := (hi.contAt_iff hm (by dsimp only; omega)).mp hfirst
  dsimp only at hsecond
  rwa [show i - p.offset2 + p.offset1 - p.offset1 + p.offset2 = i by omega] at hsecond

theorem words_end (hm : EqualPart sequence1 sequence2 m) (hp : Inside m p)
    (h1 : IsWord within sequence1 p.offset1 w1) (h2 : IsWord within sequence2 p.offset2 w2) :
    (w1.endExclusive < m.seq1Range.endExclusive ∧ Inside m ⟨w1.endExclusive, w2.endExclusive⟩) ∨
      (m.seq1Range.endExclusive ≤ w1.endExclusive ∧ m.seq2Range.endExclusive ≤ w2.endExclusive) := by
  have hends := inside_ends hm
  have hp_maps := hp.maps
  have hends_maps := hends.maps
  rw [SequenceDiff.getEndExclusives] at hends_maps
  dsimp only at hends_maps
  by_cases hlt : w1.endExclusive < m.seq1Range.endExclusive
  · have hend := hp.shift h1.le_end hlt.le
    have hstop : ¬ContAt within sequence2 (w1.endExclusive - p.offset1 + p.offset2) :=
      fun hcont => h1.end_stop ((hend.contAt_iff hm hlt).mpr hcont)
    have hle := h2.end_le_of_not_contAt (by have := h1.le_end; omega) hstop
    have hge := h2.le_end_of_contAt (hp.contAt_upTo hm hlt.le h1.right)
    have heq : w2.endExclusive = w1.endExclusive - p.offset1 + p.offset2 := le_antisymm hle hge
    rw [heq]
    exact Or.inl ⟨hlt, hend⟩
  · refine Or.inr ⟨by omega, ?_⟩
    have hge := h2.le_end_of_contAt (hp.contAt_upTo hm (le_refl _) fun i hi hlt' => h1.right i hi (by omega))
    omega

end Gavea.Diff

namespace Gavea.Diff

open Gavea.Core (OffsetRange)

structure Chained (sequence1 sequence2 : Elements) (sequenceDiffs mappings : List SequenceDiff) : Prop
    extends Aligned sequence1 sequence2 mappings where
  follows : ∀ m rest, (m :: rest) <:+ mappings → Follows sequence1 sequence2 sequenceDiffs m rest

structure GoesOn (within : Nat → Bool) (elements : Elements) (stop e : Int) : Prop where
  le : stop ≤ e
  end_le : e ≤ elements.length
  cont : ∀ i, stop ≤ i → i < e → ContAt within elements i
  stops : ¬ContAt within elements e

def StartsWord (within : Nat → Bool) (elements : Elements) (s : Int) : Prop :=
  WordAt elements (s - 1) → ¬ContAt within elements s

/-- The end of words behind an equal part is in front of the next part or strictly in it. -/
def Rests (lastPoint : OffsetPair) (m : SequenceDiff) : List SequenceDiff → Prop
  | [] => lastPoint = m.getEndExclusives
  | next :: _ => lastPoint.Le next.getStarts ∨
      (Inside next lastPoint ∧ next.seq1Range.start < lastPoint.offset1 ∧
        lastPoint.offset1 < next.seq1Range.endExclusive)

structure Passed (within : Nat → Bool) (sequence1 sequence2 : Elements) (mappings : List SequenceDiff)
    (lastPoint : OffsetPair) (m : SequenceDiff) (rest : List SequenceDiff) : Prop where
  suffix : (m :: rest) <:+ mappings
  ends_le : m.getEndExclusives.Le lastPoint
  stops1 : ¬ContAt within sequence1 lastPoint.offset1
  stops2 : ¬ContAt within sequence2 lastPoint.offset2
  rests : Rests lastPoint m rest

variable {within : Nat → Bool} {sequence1 sequence2 elements : Elements}
  {sequenceDiffs mappings rest ms : List SequenceDiff} {m m' w next v : SequenceDiff} {p : OffsetPair}
  {r other : OffsetRange} {o s e stop : Int}

theorem Follows.of_suffix (h : Follows sequence1 sequence2 sequenceDiffs m' ms)
    (hsuffix : (m :: rest) <:+ (m' :: ms)) : Follows sequence1 sequence2 sequenceDiffs m rest := by
  induction ms generalizing m' with
  | nil =>
    rcases List.suffix_cons_iff.mp hsuffix with heq | htail
    · obtain ⟨rfl, rfl⟩ := List.cons.inj heq
      exact h
    · exact absurd (List.suffix_nil.mp htail) (List.cons_ne_nil _ _)
  | cons m'' ms ih =>
    rcases List.suffix_cons_iff.mp hsuffix with heq | htail
    · obtain ⟨rfl, rfl⟩ := List.cons.inj heq
      exact h
    · exact ih h.2.2.2 htail

theorem IsWord.le_start (h : IsWord within elements o r) (hs : StartsWord within elements s)
    (hle : s ≤ o) : s ≤ r.start := by
  by_contra hlt
  exact hs (h.word _ (by omega) (by omega)) (h.left s (by omega) hle)

theorem IsWord.goesOn (h : IsWord within elements o r) (hle : o ≤ stop) (hend : stop ≤ r.endExclusive) :
    GoesOn within elements stop r.endExclusive :=
  ⟨hend, h.end_le, fun i h1 h2 => h.right i (hle.trans h1) h2, h.end_stop⟩

theorem IsWord.end_ge (h : IsWord within elements o r) (hgo : GoesOn within elements stop e)
    (hle : stop ≤ o) : e ≤ r.endExclusive := by
  rcases Int.le_total e o with heo | hoe
  · exact heo.trans h.le_end
  · exact h.le_end_of_contAt fun i h1 h2 => hgo.cont i (hle.trans h1) h2

theorem intersect_ne_none (hw : w.getStarts.Le p) (hw' : p.Le w.getEndExclusives)
    (hm : m.getStarts.Le p) (hm' : p.Le m.getEndExclusives) : ∃ i, w.intersect m = some i := by
  obtain ⟨h1, h2⟩ := hw
  obtain ⟨h1', h2'⟩ := hw'
  obtain ⟨h3, h4⟩ := hm
  obtain ⟨h3', h4'⟩ := hm'
  rw [SequenceDiff.getStarts] at h1 h2 h3 h4
  rw [SequenceDiff.getEndExclusives] at h1' h2' h3' h4'
  dsimp only at h1 h2 h3 h4 h1' h2' h3' h4'
  rw [SequenceDiff.intersect, OffsetRange.intersect, OffsetRange.intersect, dif_pos (by omega), dif_pos (by omega)]
  exact ⟨_, rfl⟩

theorem end_le_of_not_intersects (hnot : ¬r.intersects other = true) (hle : other.start ≤ r.start)
    (hempty : r.start = r.endExclusive → other.endExclusive ≤ r.start) :
    other.endExclusive ≤ r.start := by
  rw [OffsetRange.intersects_iff] at hnot
  have hr := r.le
  omega

theorem rests_of_not_intersects (hchained : Chained sequence1 sequence2 sequenceDiffs mappings)
    (hsuffix : (m :: next :: rest) <:+ mappings) (hstart : w.getStarts.Le m.getEndExclusives)
    (hend1 : w.seq1Range.endExclusive ≤ sequence1.length)
    (hend2 : w.seq2Range.endExclusive ≤ sequence2.length)
    (hnot : ¬(next.seq1Range.intersects w.seq1Range || next.seq2Range.intersects w.seq2Range) = true) :
    w.getEndExclusives.Le next.getStarts := by
  rw [Bool.or_eq_true, not_or] at hnot
  have hfront : InFront m next :=
    (List.pairwise_cons.mp (hchained.inFront.sublist hsuffix.sublist)).1 next List.mem_cons_self
  have hfollows := hchained.follows m (next :: rest) hsuffix
  have hstart1 := hstart.1.trans hfront.1
  have hstart2 := hstart.2.trans hfront.2
  have hlast (h1 : next.seq1Range.start = next.seq1Range.endExclusive) :
      next.getEndExclusives = ⟨sequence1.length, sequence2.length⟩ := by
    have hnil := hfollows.2.1 h1
    subst hnil
    exact hfollows.2.2.2
  have hlengths := hfollows.2.2.1.lengths
  rw [SequenceDiff.getStarts, SequenceDiff.getEndExclusives] at hlengths
  dsimp only at hlengths
  refine ⟨end_le_of_not_intersects hnot.1 hstart1 fun hempty => ?_,
    end_le_of_not_intersects hnot.2 hstart2 fun hempty => ?_⟩
  · have hlen := congrArg OffsetPair.offset1 (hlast hempty)
    rw [SequenceDiff.getEndExclusives] at hlen
    dsimp only at hlen
    omega
  · have hlen := congrArg OffsetPair.offset2 (hlast (by omega))
    rw [SequenceDiff.getEndExclusives] at hlen
    dsimp only at hlen
    omega

theorem contAt_of_intersects (hpart : EqualPart sequence1 sequence2 next)
    (hfront : InFront m next)
    (hgo1 : GoesOn within sequence1 m.seq1Range.endExclusive w.seq1Range.endExclusive)
    (hgo2 : GoesOn within sequence2 m.seq2Range.endExclusive w.seq2Range.endExclusive)
    (hintersects : (next.seq1Range.intersects w.seq1Range || next.seq2Range.intersects w.seq2Range) = true) :
    next.seq1Range.start < next.seq1Range.endExclusive ∧
      ContAt within sequence1 next.seq1Range.start ∧ ContAt within sequence2 next.seq2Range.start := by
  have hlengths := hpart.lengths
  rw [SequenceDiff.getStarts, SequenceDiff.getEndExclusives] at hlengths
  dsimp only at hlengths
  rw [Bool.or_eq_true, OffsetRange.intersects_iff, OffsetRange.intersects_iff] at hintersects
  have hlt : next.seq1Range.start < next.seq1Range.endExclusive := by omega
  have hiff := @Inside.contAt_iff within _ _ _ _ hpart (inside_starts next) hlt
  rcases hintersects with h1 | h2
  · have hcont := hgo1.cont next.seq1Range.start hfront.1 (by omega)
    exact ⟨hlt, hcont, hiff.mp hcont⟩
  · have hcont := hgo2.cont next.seq2Range.start hfront.2 (by omega)
    exact ⟨hlt, hiff.mpr hcont, hcont⟩

/-- The inner loop never throws. It keeps the starts of the words, and the words end in front of the
first remaining part or strictly in it. -/
theorem joinNext_spec (hchained : Chained sequence1 sequence2 sequenceDiffs mappings)
    (hsuffix : (m :: rest) <:+ mappings) (hstarts : w.getStarts.Le m.getEndExclusives)
    (hstart1 : StartsWord within sequence1 w.seq1Range.start)
    (hstart2 : StartsWord within sequence2 w.seq2Range.start)
    (hgo1 : GoesOn within sequence1 m.seq1Range.endExclusive w.seq1Range.endExclusive)
    (hgo2 : GoesOn within sequence2 m.seq2Range.endExclusive w.seq2Range.endExclusive)
    (equalChars : Nat) :
    ∃ w' n m' rest', joinNext (findContaining within) sequence1 sequence2 w equalChars rest =
        some ⟨w', n, rest'⟩ ∧ w'.getStarts = w.getStarts ∧
      Passed within sequence1 sequence2 (m :: rest) w'.getEndExclusives m' rest' ∧
      (m' = m ∨ m'.seq1Range.start < m'.seq1Range.endExclusive) := by
  induction rest generalizing m w equalChars with
  | nil =>
    have hends : m.getEndExclusives = ⟨sequence1.length, sequence2.length⟩ := hchained.follows m [] hsuffix
    rw [SequenceDiff.getEndExclusives, OffsetPair.mk.injEq] at hends
    refine ⟨w, equalChars, m, [], rfl, rfl,
      ⟨List.suffix_refl _, ⟨hgo1.le, hgo2.le⟩, hgo1.stops, hgo2.stops, ?_⟩, Or.inl rfl⟩
    exact OffsetPair.Le.antisymm ⟨hgo1.end_le.trans hends.1.ge, hgo2.end_le.trans hends.2.ge⟩ ⟨hgo1.le, hgo2.le⟩
  | cons next rest ih =>
    have hfront : InFront m next :=
      (List.pairwise_cons.mp (hchained.inFront.sublist hsuffix.sublist)).1 next List.mem_cons_self
    have hpart : EqualPart sequence1 sequence2 next :=
      hchained.parts next (hsuffix.subset (List.mem_cons_of_mem _ List.mem_cons_self))
    rw [joinNext]
    by_cases hint : (next.seq1Range.intersects w.seq1Range ||
        next.seq2Range.intersects w.seq2Range) = true
    · rw [if_pos hint]
      obtain ⟨hlt, hcont1, hcont2⟩ := contAt_of_intersects hpart hfront hgo1 hgo2 hint
      obtain ⟨v1, hv1, hword1⟩ := @exists_isWord within _ _ hcont1.wordAt
      obtain ⟨v2, hv2, hword2⟩ := @exists_isWord within _ _ hcont2.wordAt
      have hw1 := hword1.le_start hstart1 (hstarts.1.trans hfront.1)
      have hw2 := hword2.le_start hstart2 (hstarts.2.trans hfront.2)
      have he1 := hword1.end_ge hgo1 hfront.1
      have he2 := hword2.end_ge hgo2 hfront.2
      obtain ⟨equalPart, hequalPart⟩ := intersect_ne_none (w := ⟨v1, v2⟩) (p := next.getStarts)
        ⟨hword1.start_le, hword2.start_le⟩ ⟨hword1.le_end, hword2.le_end⟩ ⟨le_refl _, le_refl _⟩
        ((inside_starts next).le_ends hpart)
      have hjoin_start1 : (w.join ⟨v1, v2⟩).seq1Range.start = w.seq1Range.start := min_eq_left hw1
      have hjoin_start2 : (w.join ⟨v1, v2⟩).seq2Range.start = w.seq2Range.start := min_eq_left hw2
      have hjoin_end1 : (w.join ⟨v1, v2⟩).seq1Range.endExclusive = v1.endExclusive := max_eq_right he1
      have hjoin_end2 : (w.join ⟨v1, v2⟩).seq2Range.endExclusive = v2.endExclusive := max_eq_right he2
      have hjoin_starts : (w.join ⟨v1, v2⟩).getStarts = w.getStarts := congrArg₂ OffsetPair.mk hjoin_start1 hjoin_start2
      have hjoin_ends : (w.join ⟨v1, v2⟩).getEndExclusives = ⟨v1.endExclusive, v2.endExclusive⟩ :=
        congrArg₂ OffsetPair.mk hjoin_end1 hjoin_end2
      rw [hv1, hv2]
      dsimp only [Option.bind_eq_bind, Option.bind_some]
      rw [hequalPart]
      dsimp only [Option.bind_some]
      by_cases hge : (w.join ⟨v1, v2⟩).seq1Range.endExclusive ≥ next.seq1Range.endExclusive
      · rw [if_pos hge]
        have hge1 : next.seq1Range.endExclusive ≤ v1.endExclusive := hjoin_end1 ▸ hge
        have hge2 : next.seq2Range.endExclusive ≤ v2.endExclusive :=
          ((words_end hpart (inside_starts next) hword1 hword2).resolve_left fun h => by
            have hlt1 := h.1
            omega).2
        obtain ⟨w', n, m', rest', heq, hw'_starts, hpassed, hm'⟩ := ih
          ((List.suffix_cons m (next :: rest)).trans hsuffix)
          (hjoin_starts ▸ hstarts.trans (hfront.trans ⟨next.seq1Range.le, next.seq2Range.le⟩))
          (hjoin_start1 ▸ hstart1) (hjoin_start2 ▸ hstart2)
          (hjoin_end1 ▸ hword1.goesOn next.seq1Range.le hge1)
          (hjoin_end2 ▸ hword2.goesOn next.seq2Range.le hge2) _
        refine ⟨w', n, m', rest', heq, hw'_starts.trans hjoin_starts, ?_, Or.inr ?_⟩
        · exact { hpassed with suffix := hpassed.suffix.trans (List.suffix_cons m (next :: rest)) }
        · rcases hm' with rfl | hm'
          · exact hlt
          · exact hm'
      · rw [if_neg hge]
        have hlt1 : v1.endExclusive < next.seq1Range.endExclusive := by
          rw [hjoin_end1] at hge
          omega
        have hinside : Inside next ⟨v1.endExclusive, v2.endExclusive⟩ :=
          ((words_end hpart (inside_starts next) hword1 hword2).resolve_right fun h => by
            have hge1 := h.1
            omega).2
        refine ⟨w.join ⟨v1, v2⟩, _, m, next :: rest, rfl, hjoin_starts,
          ⟨List.suffix_refl _, hjoin_ends ▸ ⟨hgo1.le.trans he1, hgo2.le.trans he2⟩, hjoin_ends ▸ hword1.end_stop,
            hjoin_ends ▸ hword2.end_stop, Or.inr (hjoin_ends ▸ ⟨hinside, ?_, hlt1⟩)⟩, Or.inl rfl⟩
        have hone : next.seq1Range.start + 1 ≤ v1.endExclusive := hword1.le_end_of_contAt fun i h1 h2 => by
          rwa [show i = next.seq1Range.start by omega]
        dsimp only
        omega
    · rw [if_neg hint]
      refine ⟨w, equalChars, m, next :: rest, rfl, rfl, ⟨List.suffix_refl _, ⟨hgo1.le, hgo2.le⟩,
        hgo1.stops, hgo2.stops, Or.inl ?_⟩, Or.inl rfl⟩
      exact rests_of_not_intersects hchained hsuffix hstarts hgo1.end_le hgo2.end_le hint

end Gavea.Diff
