import Gavea.Diff.Joining

namespace Gavea.Diff

open Gavea.Core (OffsetRange)

def Placed (mappings sequenceDiffs : List SequenceDiff) (p : OffsetPair) : Prop :=
  Synced mappings p ∨ ∃ d ∈ sequenceDiffs, d.getStarts.Le p ∧ p.Le d.getEndExclusives

def EvenReach (within : Nat → Bool) (sequence1 sequence2 : Elements)
    (sequenceDiffs : List SequenceDiff) : Prop :=
  ∀ d ∈ sequenceDiffs, WordAt sequence1 (d.seq1Range.start - 1) →
    ¬ContAt within sequence1 (d.seq1Range.start - 1) → ∀ w1 w2,
      IsWord within sequence1 d.seq1Range.endExclusive w1 →
      IsWord within sequence2 d.seq2Range.endExclusive w2 →
      (w1.start < d.seq1Range.start ↔ w2.start < d.seq2Range.start)

/-- The part is the first one, or behind a diff that has been passed if the last character in front
of the diff belongs to the one before it. -/
def Preceded (within : Nat → Bool) (sequence1 : Elements) (mappings sequenceDiffs : List SequenceDiff)
    (lastPoint : OffsetPair) (m : SequenceDiff) : Prop :=
  m.getStarts = OffsetPair.zero ∨
    ∃ m0 ∈ mappings, ∃ d ∈ sequenceDiffs, d.getStarts = m0.getEndExclusives ∧
      d.getEndExclusives = m.getStarts ∧
      (m0.seq1Range.start = m0.seq1Range.endExclusive → m0.getStarts = OffsetPair.zero) ∧
      (ContAt within sequence1 (m0.seq1Range.endExclusive - 1) → m0.getEndExclusives.Le lastPoint)

def Stops (within : Nat → Bool) (elements : Elements) (lastOffset : Int) : Prop :=
  lastOffset = 0 ∨ ¬ContAt within elements lastOffset

variable {within : Nat → Bool} {sequence1 sequence2 elements : Elements}
  {sequenceDiffs mappings : List SequenceDiff} {m : SequenceDiff} {p lastPoint : OffsetPair}
  {w w1 w2 : OffsetRange} {o lastOffset : Int}

theorem IsWord.start_nonneg (h : IsWord within elements o w) : 0 ≤ w.start :=
  (h.word w.start (le_refl _) h.start_le).bounds.1

theorem IsWord.le_start_of_stops (h : IsWord within elements o w)
    (hstops : Stops within elements lastOffset) (hle : lastOffset ≤ o) : lastOffset ≤ w.start := by
  rcases hstops with rfl | hnot
  · exact h.start_nonneg
  · exact h.le_start_of_not_contAt hle hnot

theorem words_start_behind {m0 d : SequenceDiff} (hm0 : EqualPart sequence1 sequence2 m0)
    (heven : EvenReach within sequence1 sequence2 sequenceDiffs) (hd : d ∈ sequenceDiffs)
    (hstarts : d.getStarts = m0.getEndExclusives) (hends : d.getEndExclusives = m.getStarts)
    (hempty : m0.seq1Range.start = m0.seq1Range.endExclusive → m0.getStarts = OffsetPair.zero)
    (hpassed : ContAt within sequence1 (m0.seq1Range.endExclusive - 1) → m0.getEndExclusives.Le lastPoint)
    (hstops1 : Stops within sequence1 lastPoint.offset1)
    (hstops2 : Stops within sequence2 lastPoint.offset2) (hp : Inside m p) (hle : lastPoint.Le p)
    (h1 : IsWord within sequence1 p.offset1 w1) (h2 : IsWord within sequence2 p.offset2 w2)
    (hw1 : w1.start ≤ m.seq1Range.start) (hw2 : w2.start ≤ m.seq2Range.start)
    (hreach : w1.start < d.seq1Range.start ∨ w2.start < d.seq2Range.start) :
    Inside m0 ⟨w1.start, w2.start⟩ := by
  obtain ⟨hstart1, hstart2⟩ := OffsetPair.mk.inj hstarts
  obtain ⟨hend1, hend2⟩ := OffsetPair.mk.inj hends
  have hlengths := hm0.lengths
  have hm0_le := m0.seq1Range.le
  have hd1 := d.seq1Range.le
  have hd2 := d.seq2Range.le
  have hnonneg1 := h1.start_nonneg
  have hnonneg2 := h2.start_nonneg
  have hp_le := hp.le_starts
  have hp1 : m.seq1Range.start ≤ p.offset1 := hp_le.1
  have hp2 : m.seq2Range.start ≤ p.offset2 := hp_le.2
  rw [SequenceDiff.getStarts, SequenceDiff.getEndExclusives] at hlengths
  dsimp only at hlengths
  have hnonempty : m0.seq1Range.start < m0.seq1Range.endExclusive := by
    by_contra hnot
    obtain ⟨hzero1, hzero2⟩ := OffsetPair.mk.inj (hempty (by omega))
    omega
  have hlast : Inside m0 ⟨m0.seq1Range.endExclusive - 1, m0.seq2Range.endExclusive - 1⟩ :=
    ⟨by dsimp only; omega, by dsimp only; omega, by dsimp only; omega⟩
  have hlast_word := hlast.wordAt_iff hm0 (by dsimp only; omega)
  have hlast_cont := @Inside.contAt_iff within _ _ _ _ hm0 hlast (by dsimp only; omega)
  dsimp only at hlast_word hlast_cont
  have hnot1 : ¬ContAt within sequence1 (m0.seq1Range.endExclusive - 1) := by
    intro hcont
    obtain ⟨hpassed1, hpassed2⟩ := hpassed hcont
    have hback1 := h1.le_start_of_stops hstops1 hle.1
    have hback2 := h2.le_start_of_stops hstops2 hle.2
    rw [SequenceDiff.getEndExclusives] at hpassed1 hpassed2
    dsimp only at hpassed1 hpassed2
    omega
  have hnot2 : ¬ContAt within sequence2 (m0.seq2Range.endExclusive - 1) := fun hcont => hnot1 (hlast_cont.mpr hcont)
  have hge1 := h1.le_start_of_not_contAt (by omega) hnot1
  have hge2 := h2.le_start_of_not_contAt (by omega) hnot2
  have hword1 : WordAt sequence1 (m0.seq1Range.endExclusive - 1) := by
    rcases hreach with hreach | hreach
    · exact h1.word _ (by omega) (by omega)
    · exact hlast_word.mpr (h2.word _ (by omega) (by omega))
  obtain ⟨v1, -, hv1⟩ := @exists_isWord within _ _ (h1.word m.seq1Range.start hw1 hp1)
  obtain ⟨v2, -, hv2⟩ := @exists_isWord within _ _ (h2.word m.seq2Range.start hw2 hp2)
  have hv1_start := h1.start_eq hv1 hw1 hp1
  have hv2_start := h2.start_eq hv2 hw2 hp2
  rw [← hend1] at hv1
  rw [← hend2] at hv2
  rw [← hstart1] at hword1 hnot1
  have hboth := heven d hd hword1 hnot1 v1 v2 hv1 hv2
  rw [hv1_start, hv2_start] at hboth
  have heq1 : w1.start = m0.seq1Range.endExclusive - 1 := by omega
  have heq2 : w2.start = m0.seq2Range.endExclusive - 1 := by omega
  rw [heq1, heq2]
  exact hlast

theorem words_start_placed (hchained : Chained sequence1 sequence2 sequenceDiffs mappings)
    (heven : EvenReach within sequence1 sequence2 sequenceDiffs) (hm : m ∈ mappings)
    (hpreceded : Preceded within sequence1 mappings sequenceDiffs lastPoint m)
    (hstops1 : Stops within sequence1 lastPoint.offset1)
    (hstops2 : Stops within sequence2 lastPoint.offset2) (hp : Inside m p)
    (hlt : p.offset1 < m.seq1Range.endExclusive) (hle : lastPoint.Le p)
    (h1 : IsWord within sequence1 p.offset1 w1) (h2 : IsWord within sequence2 p.offset2 w2) :
    Placed mappings sequenceDiffs ⟨w1.start, w2.start⟩ := by
  rcases words_start (hchained.parts m hm) hp hlt h1 h2 with hinside | ⟨hw1, hw2⟩
  · exact Or.inl ⟨m, hm, hinside⟩
  · rcases hpreceded with hzero | ⟨m0, hm0, d, hd, hstarts, hends, hempty, hpassed⟩
    · have hzero_eq : (⟨w1.start, w2.start⟩ : OffsetPair) = m.getStarts := by
        refine OffsetPair.Le.antisymm ⟨hw1, hw2⟩ ?_
        rw [hzero]
        exact ⟨h1.start_nonneg, h2.start_nonneg⟩
      rw [hzero_eq]
      exact Or.inl ⟨m, hm, inside_starts m⟩
    · by_cases hreach : w1.start < d.seq1Range.start ∨ w2.start < d.seq2Range.start
      · exact Or.inl ⟨m0, hm0, words_start_behind (hchained.parts m0 hm0) heven hd hstarts hends hempty
          hpassed hstops1 hstops2 hp hle h1 h2 hw1 hw2 hreach⟩
      · rw [not_or, not_lt, not_lt] at hreach
        exact Or.inr ⟨d, hd, hreach, hends ▸ ⟨hw1, hw2⟩⟩

end Gavea.Diff

namespace Gavea.Diff

open Gavea.Core (OffsetRange)

def AtPart (lastPoint : OffsetPair) (m : SequenceDiff) : Prop := lastPoint.Le m.getStarts ∨ Inside m lastPoint

structure ScanInv (within : Nat → Bool) (sequence1 sequence2 : Elements)
    (mappings sequenceDiffs : List SequenceDiff) (s : ScanState) : Prop where
  starts : ∀ w ∈ s.additional, Placed mappings sequenceDiffs w.getStarts
  ends : ∀ w ∈ s.additional, Placed mappings sequenceDiffs w.getEndExclusives
  inFront : s.additional.Pairwise InFront
  ends_le : ∀ w ∈ s.additional, w.getEndExclusives.Le s.lastPoint
  stops1 : Stops within sequence1 s.lastPoint.offset1
  stops2 : Stops within sequence2 s.lastPoint.offset2

/-- What one scan leaves: the last point is not behind the part, or the words have passed it. -/
inductive Scanned (within : Nat → Bool) (sequence1 sequence2 : Elements) (m : SequenceDiff)
    (rest : List SequenceDiff) (s : ScanState) : Prop
  | atPart (hrest : s.equalMappings = rest) (hat : AtPart s.lastPoint m)
  | passed (m' : SequenceDiff) (hm' : m'.seq1Range.start < m'.seq1Range.endExclusive)
      (hpassed : Passed within sequence1 sequence2 (m :: rest) s.lastPoint m' s.equalMappings)

variable {within : Nat → Bool} {sequence1 sequence2 : Elements} {force : Bool}
  {sequenceDiffs mappings rest : List SequenceDiff} {m w : SequenceDiff} {p lastPoint : OffsetPair}
  {s : ScanState}

theorem Passed.placed (hchained : Chained sequence1 sequence2 sequenceDiffs mappings)
    (h : Passed within sequence1 sequence2 mappings lastPoint m rest) :
    Placed mappings sequenceDiffs lastPoint := by
  have hm : m ∈ mappings := h.suffix.subset List.mem_cons_self
  have hrests := h.rests
  cases rest with
  | nil =>
    rw [Rests] at hrests
    rw [hrests]
    exact Or.inl ⟨m, hm, inside_ends (hchained.parts m hm)⟩
  | cons next rest =>
    obtain ⟨⟨d, hd, hstarts, hends⟩, -⟩ := hchained.follows m (next :: rest) h.suffix
    rcases hrests with hle | ⟨hinside, -⟩
    · exact Or.inr ⟨d, hd, hstarts ▸ h.ends_le, hends ▸ hle⟩
    · exact Or.inl ⟨next, h.suffix.subset (List.mem_cons_of_mem _ List.mem_cons_self), hinside⟩

theorem Passed.mono {mappings' : List SequenceDiff}
    (h : Passed within sequence1 sequence2 mappings' lastPoint m rest) (hsuffix : mappings' <:+ mappings) :
    Passed within sequence1 sequence2 mappings lastPoint m rest :=
  { h with suffix := h.suffix.trans hsuffix }

theorem Passed.le {m' : SequenceDiff} {rest' : List SequenceDiff}
    (h : Passed within sequence1 sequence2 (m :: rest) lastPoint m' rest')
    (hchained : Chained sequence1 sequence2 sequenceDiffs mappings) (hsuffix : (m :: rest) <:+ mappings) :
    m.getEndExclusives.Le lastPoint := by
  have hfront := List.pairwise_cons.mp (hchained.inFront.sublist hsuffix.sublist)
  rcases List.mem_cons.mp (h.suffix.subset List.mem_cons_self) with rfl | hm'
  · exact h.ends_le
  · have hm'_le : m'.getStarts.Le m'.getEndExclusives := ⟨m'.seq1Range.le, m'.seq2Range.le⟩
    exact (hfront.1 m' hm').trans (hm'_le.trans h.ends_le)

theorem ScanInv.scanned (h : ScanInv within sequence1 sequence2 mappings sequenceDiffs s)
    (hstarts : Placed mappings sequenceDiffs w.getStarts)
    (hends : Placed mappings sequenceDiffs w.getEndExclusives) (hle : s.lastPoint.Le w.getStarts)
    (hstops1 : ¬ContAt within sequence1 w.seq1Range.endExclusive)
    (hstops2 : ¬ContAt within sequence2 w.seq2Range.endExclusive) (isAdditional : Bool) :
    ScanInv within sequence1 sequence2 mappings sequenceDiffs
      ⟨rest, if isAdditional then s.additional ++ [w] else s.additional, w.getEndExclusives⟩ := by
  have hw : w.getStarts.Le w.getEndExclusives := ⟨w.seq1Range.le, w.seq2Range.le⟩
  cases isAdditional with
  | false =>
    exact ⟨h.starts, h.ends, h.inFront, fun w' hw' => (h.ends_le w' hw').trans (hle.trans hw),
      Or.inr hstops1, Or.inr hstops2⟩
  | true =>
    refine ⟨fun w' hw' => ?_, fun w' hw' => ?_, ?_, fun w' hw' => ?_, Or.inr hstops1, Or.inr hstops2⟩
    · rcases List.mem_append.mp hw' with hold | hnew
      · exact h.starts w' hold
      · exact List.mem_singleton.mp hnew ▸ hstarts
    · rcases List.mem_append.mp hw' with hold | hnew
      · exact h.ends w' hold
      · exact List.mem_singleton.mp hnew ▸ hends
    · refine List.pairwise_append.mpr ⟨h.inFront, List.pairwise_singleton _ _, fun w' hw' w'' hw'' => ?_⟩
      obtain rfl := List.mem_singleton.mp hw''
      exact (h.ends_le w' hw').trans hle
    · rcases List.mem_append.mp hw' with hold | hnew
      · exact (h.ends_le w' hold).trans (hle.trans hw)
      · exact List.mem_singleton.mp hnew ▸ ⟨le_refl _, le_refl _⟩

theorem joinNext_at (hchained : Chained sequence1 sequence2 sequenceDiffs mappings)
    (hsuffix : (m :: rest) <:+ mappings) (hends : w.getEndExclusives.Le m.getEndExclusives)
    (equalChars : Nat) (findParent : Elements → Int → Option OffsetRange) :
    joinNext findParent sequence1 sequence2 w equalChars rest = some ⟨w, equalChars, rest⟩ := by
  cases rest with
  | nil => rfl
  | cons next rest =>
    have hfront : InFront m next :=
      (List.pairwise_cons.mp (hchained.inFront.sublist hsuffix.sublist)).1 next List.mem_cons_self
    have hle := hends.trans hfront
    have hle1 : w.seq1Range.endExclusive ≤ next.seq1Range.start := hle.1
    have hle2 : w.seq2Range.endExclusive ≤ next.seq2Range.start := hle.2
    rw [joinNext]
    refine if_neg ?_
    rw [Bool.or_eq_true, OffsetRange.intersects_iff, OffsetRange.intersects_iff]
    omega

/-- A scan at a pair of an equal part never throws. -/
theorem scanWord_spec (hchained : Chained sequence1 sequence2 sequenceDiffs mappings)
    (heven : EvenReach within sequence1 sequence2 sequenceDiffs) (hsuffix : (m :: rest) <:+ mappings)
    (hpreceded : Preceded within sequence1 mappings sequenceDiffs s.lastPoint m)
    (hinv : ScanInv within sequence1 sequence2 mappings sequenceDiffs s)
    (hrest : s.equalMappings = rest) (hat : AtPart s.lastPoint m) (hp : Inside m p)
    (hlt : p.offset1 < m.seq1Range.endExclusive) :
    ∃ s', scanWord (findContaining within) sequence1 sequence2 force p m s = some s' ∧
      ScanInv within sequence1 sequence2 mappings sequenceDiffs s' ∧
      Scanned within sequence1 sequence2 m rest s' ∧ s.lastPoint.Le s'.lastPoint ∧
      (ContAt within sequence1 p.offset1 → p.offset1 < s'.lastPoint.offset1) := by
  have hm : m ∈ mappings := hsuffix.subset List.mem_cons_self
  have hpart := hchained.parts m hm
  rw [scanWord]
  by_cases hskip : p.offset1 < s.lastPoint.offset1 ∨ p.offset2 < s.lastPoint.offset2
  · rw [if_pos hskip]
    refine ⟨s, rfl, hinv, .atPart hrest hat, ⟨le_refl _, le_refl _⟩, fun _ => ?_⟩
    rcases hat with hle | hinside
    · have hle' := hle.trans hp.le_starts
      have h1 := hle'.1
      have h2 := hle'.2
      omega
    · have h1 := hp.maps
      have h2 := hinside.maps
      omega
  · rw [if_neg hskip]
    rw [not_or, not_lt, not_lt] at hskip
    by_cases hword : WordAt sequence1 p.offset1
    · obtain ⟨w1, hw1, hisWord1⟩ := @exists_isWord within _ _ hword
      obtain ⟨w2, hw2, hisWord2⟩ := @exists_isWord within _ _ ((hp.wordAt_iff hpart hlt).mp hword)
      have hstarts := words_start_placed hchained heven hm hpreceded hinv.stops1 hinv.stops2 hp hlt hskip
        hisWord1 hisWord2
      have hle : s.lastPoint.Le ⟨w1.start, w2.start⟩ :=
        ⟨hisWord1.le_start_of_stops hinv.stops1 hskip.1, hisWord2.le_start_of_stops hinv.stops2 hskip.2⟩
      have hpast (hcont : ContAt within sequence1 p.offset1) : p.offset1 < w1.endExclusive :=
        Int.lt_of_add_one_le <| hisWord1.le_end_of_contAt fun i h1 h2 => by
          rwa [show i = p.offset1 by omega]
      obtain ⟨equalPart, hequalPart⟩ := intersect_ne_none (w := ⟨w1, w2⟩) (p := p) (m := m)
        ⟨hisWord1.start_le, hisWord2.start_le⟩ ⟨hisWord1.le_end, hisWord2.le_end⟩ hp.le_starts
        (hp.le_ends hpart)
      rw [hw1, hw2]
      dsimp only
      rw [hequalPart, hrest]
      dsimp only [Option.bind_eq_bind, Option.bind_some]
      rcases words_end hpart hp hisWord1 hisWord2 with ⟨-, hinside⟩ | ⟨hge1, hge2⟩
      · rw [joinNext_at (w := ⟨w1, w2⟩) hchained hsuffix (hinside.le_ends hpart)]
        exact ⟨_, rfl, hinv.scanned (w := ⟨w1, w2⟩) hstarts (Or.inl ⟨m, hm, hinside⟩) hle
          hisWord1.end_stop hisWord2.end_stop _, .atPart rfl (Or.inr hinside),
          hle.trans ⟨OffsetRange.le w1, OffsetRange.le w2⟩, hpast⟩
      · have hends := hp.le_ends hpart
        obtain ⟨w', n, m', rest', hjoined, hw'_starts, hpassed, hm'⟩ := joinNext_spec
          (w := ⟨w1, w2⟩) hchained hsuffix
          ⟨hisWord1.start_le.trans hends.1, hisWord2.start_le.trans hends.2⟩ hisWord1.start_stop
          hisWord2.start_stop (hisWord1.goesOn hends.1 hge1) (hisWord2.goesOn hends.2 hge2)
          (equalPart.seq1Range.length + equalPart.seq2Range.length)
        rw [hjoined]
        have hnonempty : m'.seq1Range.start < m'.seq1Range.endExclusive := by
          rcases hm' with rfl | hm'
          · exact hp.start_le.trans_lt hlt
          · exact hm'
        have hw'_le : w'.getStarts.Le w'.getEndExclusives := ⟨w'.seq1Range.le, w'.seq2Range.le⟩
        have hle' : s.lastPoint.Le w'.getStarts := hw'_starts ▸ hle
        exact ⟨_, rfl, hinv.scanned (hw'_starts ▸ hstarts) (Passed.placed hchained (hpassed.mono hsuffix))
          hle' hpassed.stops1 hpassed.stops2 _, .passed m' hnonempty hpassed, hle'.trans hw'_le,
          fun _ => hlt.trans_le (hpassed.le hchained hsuffix).1⟩
    · rw [findContaining_eq_none hword]
      exact ⟨s, rfl, hinv, .atPart hrest hat, ⟨le_refl _, le_refl _⟩, fun hcont => absurd hcont.wordAt hword⟩

end Gavea.Diff

namespace Gavea.Diff

open List

def Ready (within : Nat → Bool) (sequence1 : Elements) (mappings sequenceDiffs : List SequenceDiff)
    (lastPoint : OffsetPair) : List SequenceDiff → Prop
  | [] => True
  | m :: rest => Preceded within sequence1 mappings sequenceDiffs lastPoint m ∧ AtPart lastPoint m ∧
      (m.seq1Range.start = m.seq1Range.endExclusive → m.getStarts = OffsetPair.zero ∨ rest = [])

variable {within : Nat → Bool} {sequence1 sequence2 : Elements} {force : Bool}
  {sequenceDiffs mappings rest : List SequenceDiff} {m : SequenceDiff} {lastPoint : OffsetPair}
  {s : ScanState}

theorem Preceded.mono {lastPoint' : OffsetPair}
    (h : Preceded within sequence1 mappings sequenceDiffs lastPoint m) (hle : lastPoint.Le lastPoint') :
    Preceded within sequence1 mappings sequenceDiffs lastPoint' m := by
  rcases h with hzero | ⟨m0, hm0, d, hd, hstarts, hends, hempty, hpassed⟩
  · exact Or.inl hzero
  · exact Or.inr ⟨m0, hm0, d, hd, hstarts, hends, hempty, fun hcont => (hpassed hcont).trans hle⟩

theorem ready_behind (hchained : Chained sequence1 sequence2 sequenceDiffs mappings)
    (hsuffix : (m :: rest) <:+ mappings)
    (hempty : m.seq1Range.start = m.seq1Range.endExclusive → m.getStarts = OffsetPair.zero ∨ rest = [])
    (hpassed : ContAt within sequence1 (m.seq1Range.endExclusive - 1) → m.getEndExclusives.Le lastPoint)
    (hat : ∀ next ∈ rest.head?, AtPart lastPoint next) :
    Ready within sequence1 mappings sequenceDiffs lastPoint rest := by
  cases rest with
  | nil => trivial
  | cons next rest =>
    obtain ⟨⟨d, hd, hstarts, hends⟩, hlast, -⟩ := hchained.follows m (next :: rest) hsuffix
    refine ⟨Or.inr ⟨m, hsuffix.subset mem_cons_self, d, hd, hstarts, hends, fun heq => ?_, hpassed⟩,
      hat next rfl, fun heq => Or.inr (hlast heq)⟩
    exact (hempty heq).resolve_right (cons_ne_nil _ _)

theorem AtPart.next (hchained : Chained sequence1 sequence2 sequenceDiffs mappings)
    (hsuffix : (m :: rest) <:+ mappings) (hat : AtPart lastPoint m) :
    ∀ next ∈ rest.head?, AtPart lastPoint next := by
  intro next hnext
  have hfront := (pairwise_cons.mp (hchained.inFront.sublist hsuffix.sublist)).1 next (mem_of_mem_head? hnext)
  have hm := hchained.parts m (hsuffix.subset mem_cons_self)
  rcases hat with hle | hinside
  · have hm_le : m.getStarts.Le m.getEndExclusives := ⟨m.seq1Range.le, m.seq2Range.le⟩
    exact Or.inl (hle.trans (hm_le.trans hfront))
  · exact Or.inl ((hinside.le_ends hm).trans hfront)

theorem Passed.ready (hchained : Chained sequence1 sequence2 sequenceDiffs mappings)
    (h : Passed within sequence1 sequence2 mappings lastPoint m rest)
    (hm : m.seq1Range.start < m.seq1Range.endExclusive) :
    Ready within sequence1 mappings sequenceDiffs lastPoint rest := by
  refine ready_behind hchained h.suffix (fun heq => absurd heq hm.ne) (fun _ => h.ends_le) ?_
  intro next hnext
  have hrests := h.rests
  cases rest with
  | nil => exact nomatch hnext
  | cons next' rest =>
    obtain rfl := Option.some.inj hnext
    rcases hrests with hle | ⟨hinside, -⟩
    · exact Or.inl hle
    · exact Or.inr hinside

theorem scanWord_passed (hchained : Chained sequence1 sequence2 sequenceDiffs mappings)
    {m' : SequenceDiff} {rest' : List SequenceDiff} (hsuffix : (m :: rest) <:+ mappings)
    (hpassed : Passed within sequence1 sequence2 (m :: rest) s.lastPoint m' rest') :
    scanWord (findContaining within) sequence1 sequence2 force (m.getEndExclusives.delta (-1)) m s =
      some s := by
  have hle : m.seq1Range.endExclusive ≤ s.lastPoint.offset1 := (hpassed.le hchained hsuffix).1
  rw [scanWord, if_pos (Or.inl ?_)]
  rw [OffsetPair.delta, SequenceDiff.getEndExclusives]
  dsimp only
  omega

/-- A round of the scan never throws. -/
theorem scanRound_spec (hchained : Chained sequence1 sequence2 sequenceDiffs mappings)
    (heven : EvenReach within sequence1 sequence2 sequenceDiffs) (hsuffix : (m :: rest) <:+ mappings)
    (hready : Ready within sequence1 mappings sequenceDiffs s.lastPoint (m :: rest))
    (hinv : ScanInv within sequence1 sequence2 mappings sequenceDiffs s)
    (hrest : s.equalMappings = rest) (hm : m.seq1Range.start < m.seq1Range.endExclusive) :
    ∃ s1 s2, scanWord (findContaining within) sequence1 sequence2 force m.getStarts m s = some s1 ∧
      scanWord (findContaining within) sequence1 sequence2 force (m.getEndExclusives.delta (-1)) m s1 = some s2 ∧
      ScanInv within sequence1 sequence2 mappings sequenceDiffs s2 ∧ s2.equalMappings <:+ rest ∧
      Ready within sequence1 mappings sequenceDiffs s2.lastPoint s2.equalMappings := by
  obtain ⟨hpreceded, hat, -⟩ := hready
  have hpart := hchained.parts m (hsuffix.subset mem_cons_self)
  have hrest_suffix (s' : ScanState) {m' : SequenceDiff}
      (h : Passed within sequence1 sequence2 (m :: rest) s'.lastPoint m' s'.equalMappings) :
      s'.equalMappings <:+ rest := by
    rcases suffix_cons_iff.mp h.suffix with heq | htail
    · exact (List.cons.inj heq).2 ▸ suffix_refl _
    · exact (suffix_cons m' s'.equalMappings).trans htail
  obtain ⟨s1, hs1, hinv1, hscanned1, hle1, -⟩ := @scanWord_spec _ _ _ force _ _ _ _ _ _ hchained heven hsuffix
    hpreceded hinv hrest hat (inside_starts m) hm
  cases hscanned1 with
  | passed m' hm' hpassed =>
    exact ⟨s1, s1, hs1, scanWord_passed hchained hsuffix hpassed, hinv1, hrest_suffix s1 hpassed,
      (hpassed.mono hsuffix).ready hchained hm'⟩
  | atPart hrest1 hat1 =>
    have hends := inside_ends hpart
    have hends_maps := hends.maps
    rw [SequenceDiff.getEndExclusives] at hends_maps
    dsimp only at hends_maps
    have hlast : Inside m (m.getEndExclusives.delta (-1)) :=
      ⟨by rw [OffsetPair.delta, SequenceDiff.getEndExclusives]; dsimp only; omega,
        by rw [OffsetPair.delta, SequenceDiff.getEndExclusives]; dsimp only; omega,
        by rw [OffsetPair.delta, SequenceDiff.getEndExclusives]; dsimp only; omega⟩
    obtain ⟨s2, hs2, hinv2, hscanned2, -, hpast⟩ := @scanWord_spec _ _ _ force _ _ _ _ _ _ hchained heven hsuffix
      (hpreceded.mono hle1) hinv1 hrest1 hat1 hlast
      (by rw [OffsetPair.delta, SequenceDiff.getEndExclusives]; dsimp only; omega)
    refine ⟨s1, s2, hs1, hs2, hinv2, ?_⟩
    cases hscanned2 with
    | passed m' hm' hpassed => exact ⟨hrest_suffix s2 hpassed, (hpassed.mono hsuffix).ready hchained hm'⟩
    | atPart hrest2 hat2 =>
      rw [hrest2]
      refine ⟨suffix_refl _, ready_behind hchained hsuffix (fun heq => absurd heq hm.ne)
        (fun hcont => ?_) (hat2.next hchained hsuffix)⟩
      have hpast1 := hpast hcont
      rw [OffsetPair.delta, SequenceDiff.getEndExclusives] at hpast1
      dsimp only at hpast1
      have hends_le : m.seq1Range.endExclusive ≤ s2.lastPoint.offset1 := by omega
      rcases hat2 with hle | hinside
      · have hle_start : s2.lastPoint.offset1 ≤ m.seq1Range.start := hle.1
        omega
      · have hmaps := hinside.maps
        exact ⟨hends_le, by rw [SequenceDiff.getEndExclusives]; dsimp only; omega⟩

section

variable {findParent : Elements → Int → Option Core.OffsetRange}

theorem scanAll_nil (rounds : Nat) (h : s.equalMappings = []) :
    scanAll findParent sequence1 sequence2 force rounds s = some s := by
  obtain ⟨equalMappings, additional, lastPoint⟩ := s
  obtain rfl : equalMappings = [] := h
  cases rounds <;> rfl

theorem scanAll_cons (rounds : Nat) (h : s.equalMappings = m :: rest) :
    scanAll findParent sequence1 sequence2 force (rounds + 1) s =
      if m.seq1Range.isEmpty then
        scanAll findParent sequence1 sequence2 force rounds { s with equalMappings := rest }
      else
        (scanWord findParent sequence1 sequence2 force m.getStarts m
          { s with equalMappings := rest }).bind fun s1 =>
            (scanWord findParent sequence1 sequence2 force (m.getEndExclusives.delta (-1)) m s1).bind
              (scanAll findParent sequence1 sequence2 force rounds) := by
  obtain ⟨equalMappings, additional, lastPoint⟩ := s
  obtain rfl : equalMappings = m :: rest := h
  rfl

end

/-- The scan never throws, and its words start and end at pairs of equal parts or in diffs. -/
theorem scanAll_spec (hchained : Chained sequence1 sequence2 sequenceDiffs mappings)
    (heven : EvenReach within sequence1 sequence2 sequenceDiffs) (rounds : Nat)
    (hrounds : s.equalMappings.length ≤ rounds) (hsuffix : s.equalMappings <:+ mappings)
    (hready : Ready within sequence1 mappings sequenceDiffs s.lastPoint s.equalMappings)
    (hinv : ScanInv within sequence1 sequence2 mappings sequenceDiffs s) :
    ∃ s', scanAll (findContaining within) sequence1 sequence2 force rounds s = some s' ∧
      ScanInv within sequence1 sequence2 mappings sequenceDiffs s' := by
  induction rounds generalizing s with
  | zero =>
    have hnil := length_eq_zero_iff.mp (Nat.le_zero.mp hrounds)
    exact ⟨s, scanAll_nil 0 hnil, hinv⟩
  | succ rounds ih =>
    cases hrest : s.equalMappings with
    | nil => exact ⟨s, scanAll_nil _ hrest, hinv⟩
    | cons m rest =>
      rw [hrest] at hrounds hsuffix hready
      have hrounds' : rest.length ≤ rounds := Nat.le_of_succ_le_succ hrounds
      have hsuffix' : rest <:+ mappings := (suffix_cons m rest).trans hsuffix
      have hinv' : ScanInv within sequence1 sequence2 mappings sequenceDiffs
          { s with equalMappings := rest } :=
        ⟨hinv.starts, hinv.ends, hinv.inFront, hinv.ends_le, hinv.stops1, hinv.stops2⟩
      rw [scanAll_cons rounds hrest]
      by_cases hempty : m.seq1Range.isEmpty = true
      · rw [if_pos hempty]
        have heq := beq_iff_eq.mp hempty
        refine ih hrounds' hsuffix' ?_ hinv'
        rcases hready.2.2 heq with hzero | rfl
        · refine ready_behind hchained hsuffix hready.2.2 (fun hcont => ?_) (hready.2.1.next hchained hsuffix)
          -- no character is in front of the sequences
          have hstart : m.seq1Range.start = 0 := congrArg OffsetPair.offset1 hzero
          have hnonneg := hcont.wordAt.bounds.1
          omega
        · trivial
      · rw [if_neg hempty]
        have hm : m.seq1Range.start < m.seq1Range.endExclusive :=
          lt_of_le_of_ne m.seq1Range.le fun heq => hempty (beq_iff_eq.mpr heq)
        obtain ⟨s1, s2, hs1, hs2, hinv2, hrest2, hready2⟩ := @scanRound_spec _ _ _ force _ _ _ _
          { s with equalMappings := rest } hchained heven hsuffix hready hinv' rfl hm
        rw [hs1, Option.bind_some, hs2, Option.bind_some]
        exact ih (hrest2.length_le.trans hrounds') (hrest2.trans hsuffix') hready2 hinv2

end Gavea.Diff
