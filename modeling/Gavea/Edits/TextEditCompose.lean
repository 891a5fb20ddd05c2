import Gavea.Edits.TextEdit

namespace Gavea.Edits.TextEdit

open Gavea.Core Lib.Js Lib.Splicing TextLength StringText List

theorem remainingLength_append (u v : JsString) :
    remainingLength (ofCodeUnits (u ++ v)) (ofCodeUnits u) = ofCodeUnits v := by
  rw [remainingLength, ofCodeUnits_append, add]
  by_cases h : (ofCodeUnits v).lineCount = 0
  · rw [if_pos h, if_pos rfl]
    simp [← h]
  · rw [if_neg h, if_neg (by simp only; omega)]
    simp

theorem exists_lineFeed {u : JsString} (h : 0 < (ofCodeUnits u).lineCount) :
    ∃ a b, u = a ++ lineFeed :: b ∧ lineFeed ∉ a ∧
      (ofCodeUnits u).lineCount = (ofCodeUnits b).lineCount + 1 ∧
      (ofCodeUnits u).columnCount = (ofCodeUnits b).columnCount := by
  induction u with
  | nil => simp [zero] at h
  | cons c u ih =>
    rw [ofCodeUnits_cons] at h ⊢
    by_cases hc : c = lineFeed
    · exact ⟨[], u, by rw [hc]; rfl, not_mem_nil, by rw [if_pos hc], by rw [if_pos hc]⟩
    · rw [if_neg hc] at h ⊢
      by_cases hz : (ofCodeUnits u).lineCount = 0
      · rw [if_pos hz] at h
        cases h
      · rw [if_neg hz] at h ⊢
        obtain ⟨a, b, rfl, ha, hline, hcolumn⟩ := ih h
        exact ⟨c :: a, b, rfl, by simp [Ne.symm hc, ha], hline, hcolumn⟩

theorem indexOfLineFeed_eq {w a v : JsString} (h : lineFeed ∉ a) :
    indexOfLineFeed (w ++ (a ++ lineFeed :: v)) w.length = some (w.length + a.length) := by
  have hfind : (a ++ lineFeed :: v).findIdx? (· = lineFeed) = some a.length := by
    induction a with
    | nil => simp [findIdx?_cons]
    | cons c a ih =>
      obtain ⟨hc, ha⟩ := not_or.mp (mt mem_cons.mpr h)
      rw [cons_append, findIdx?_cons, if_neg (by simpa using Ne.symm hc), ih ha]
      rfl
  rw [indexOfLineFeed, drop_left, hfind]
  rfl

theorem skipLines_eq (w u v : JsString) (n : Nat) (h : (ofCodeUnits u).lineCount = n) :
    skipLines (w ++ (u ++ v)) n w.length =
      .ok (w.length + (u.length - (ofCodeUnits u).columnCount)).toNat := by
  induction n generalizing w u with
  | zero =>
    rw [skipLines, columnCount_of_lineCount_eq_zero (by simpa using h)]
    simp
  | succ n ih =>
    obtain ⟨a, b, rfl, ha, hline, hcolumn⟩ := exists_lineFeed (u := u) (by omega)
    have hsplit : w ++ (a ++ lineFeed :: b ++ v) = w ++ (a ++ lineFeed :: (b ++ v)) := by simp
    have hsplit' : w ++ (a ++ lineFeed :: (b ++ v)) = (w ++ a ++ [lineFeed]) ++ (b ++ v) := by simp
    have hlen : (w ++ a ++ [lineFeed]).length = w.length + a.length + 1 := by
      simp [Nat.add_assoc]
    rw [skipLines, hsplit, indexOfLineFeed_eq ha]
    simp only
    rw [hsplit', ← hlen, ih _ b (by omega), hcolumn]
    congr 2
    simp
    ring

theorem splitText_append (u v : JsString) :
    splitText (u ++ v) (ofCodeUnits u) = .ok (u, v) := by
  have hnonneg := ofCodeUnits_nonneg u
  have hcolumn := columnCount_le_length u
  rw [splitText]
  split_ifs with hzero
  · have hlen := columnCount_of_lineCount_eq_zero (u := u) (by rw [hzero]; rfl)
    rw [hzero] at hlen
    rw [eq_nil_of_length_eq_zero (l := u) (by simpa [zero] using hlen.symm)]
    rfl
  · have hskip := skipLines_eq [] u v (ofCodeUnits u).lineCount.toNat (by omega)
    have hoffset : (((0 : Int) + (u.length - (ofCodeUnits u).columnCount)).toNat : Int) +
        (ofCodeUnits u).columnCount = u.length := by omega
    rw [nil_append, length_nil, Nat.cast_zero] at hskip
    rw [hskip]
    change Except.ok (substring (u ++ v) 0 _, substringFrom (u ++ v) _) = _
    rw [hoffset, substring_eq _ (Int.natCast_nonneg _), substringFrom_eq]
    simp

/-- What is left of the first edit: Q are the splices still to come behind offset p of
the source, the loaded head among them. -/
inductive HeadDenotes (s0 : JsString) :
    Option Head → List TextReplacement → Position → Int → List (Splice CodeUnit) → Prop
  | absent {queue : List TextReplacement} {p : Int} {Q : List (Splice CodeUnit)}
      (hp : ValidOffset s0 p) (hqueue : List.Forall₂ (Denotes s0) queue Q) :
      HeadDenotes s0 none queue (positionAt s0 p) p Q
  | gap {queue : List TextReplacement} {p : Int} {r : Splice CodeUnit} {Q : List (Splice CodeUnit)}
      (hp : ValidOffset s0 p) (hlt : p < r.start)
      (hqueue : List.Forall₂ (Denotes s0) queue (r :: Q)) :
      HeadDenotes s0 (some (.finite (positionAt s0 p) (positionAt s0 r.start) none
        (ofCodeUnits (textBetween s0 p r.start)))) queue (positionAt s0 r.start) p (r :: Q)
  | text {queue : List TextReplacement} {p e : Int} {u : JsString} {Q : List (Splice CodeUnit)}
      (hp : ValidOffset s0 p) (he : ValidOffset s0 e) (hle : p ≤ e)
      (hqueue : List.Forall₂ (Denotes s0) queue Q) :
      HeadDenotes s0 (some (.finite (positionAt s0 p) (positionAt s0 e) (some u) (ofCodeUnits u)))
        queue (positionAt s0 e) p (⟨p, e, u⟩ :: Q)
  | infinite {p : Int} {last : Position} (hp : ValidOffset s0 p) :
      HeadDenotes s0 (some (.infinite (positionAt s0 p))) [] last p []

structure Reached (s0 s1 : JsString) (st : ComposeState) (p q : Int) (Q : List (Splice CodeUnit)) :
    Prop where
  head : HeadDenotes s0 st.head st.edit1Queue st.lastEdit1EndS0 p Q
  current : st.currentPosInS1 = positionAt s1 q
  chain : ChainTo p Q s0.length
  rest : splice p Q (s0.drop p.toNat) = s1.drop q.toNat
  nonneg : 0 ≤ q
  le : q ≤ s1.length

variable {s0 s1 : JsString} {st st' : ComposeState} {p q : Int} {Q : List (Splice CodeUnit)}

theorem Reached.withResults (h : Reached s0 s1 st p q Q) (results : List TextReplacement) :
    Reached s0 s1 { st with resultReplacements := results } p q Q :=
  ⟨h.head, h.current, h.chain, h.rest, h.nonneg, h.le⟩

theorem HeadDenotes.srcRangeStart_eq {head : Head} {queue : List TextReplacement} {last : Position}
    (h : HeadDenotes s0 (some head) queue last p Q) : head.srcRangeStart = positionAt s0 p := by
  cases h <;> rfl

theorem HeadDenotes.validOffset {head : Option Head} {queue : List TextReplacement} {last : Position}
    (h : HeadDenotes s0 head queue last p Q) : ValidOffset s0 p := by
  cases h <;> assumption

theorem ensureHead_denotes {head : Head}
    (h : HeadDenotes s0 st.head st.edit1Queue st.lastEdit1EndS0 p Q) (hchain : Chain p Q)
    (heq : ensureHead st = (head, st')) :
    HeadDenotes s0 (some head) st'.edit1Queue st'.lastEdit1EndS0 p Q ∧ st'.head = some head ∧
      st'.resultReplacements = st.resultReplacements ∧
      st'.currentPosInS1 = st.currentPosInS1 := by
  obtain ⟨queue, last, oldHead, current, results⟩ := st
  simp only at h
  cases oldHead with
  | some oldHead =>
    obtain ⟨rfl, rfl⟩ := Prod.mk.inj heq
    exact ⟨h, rfl, rfl, rfl⟩
  | none =>
    obtain ⟨hp, hqueue⟩ := h
    cases hqueue with
    | nil =>
      obtain ⟨rfl, rfl⟩ := Prod.mk.inj heq
      exact ⟨.infinite hp, rfl, rfl, rfl⟩
    | @cons nextEdit r queue Q hr hqueue =>
      rw [ensureHead] at heq
      simp only [hr.startPosition, hr.endPosition, hr.text] at heq
      split_ifs at heq with hgap
      · obtain ⟨rfl, rfl⟩ := Prod.mk.inj heq
        have hlt : p < r.start := by
          refine lt_of_le_of_ne hchain.1 fun hpr => hgap ?_
          rw [hpr]
        rw [betweenPositions_positionAt hlt.le]
        exact ⟨.gap hp hlt (.cons hr hqueue), rfl, rfl, rfl⟩
      · obtain ⟨rfl, rfl⟩ := Prod.mk.inj heq
        rw [not_not] at hgap
        obtain rfl := positionAt_inj hp.1 hp.2.1 hr.start.1 hr.start.2.1 hgap
        exact ⟨.text hp hr.stop hr.le hqueue, rfl, rfl, rfl⟩

theorem ensureHead_spec {head : Head} (h : Reached s0 s1 st p q Q)
    (heq : ensureHead st = (head, st')) :
    Reached s0 s1 st' p q Q ∧ st'.head = some head ∧
      st'.resultReplacements = st.resultReplacements := by
  obtain ⟨hdenotes, hhead, hresults, hcurrent⟩ := ensureHead_denotes h.head h.chain.chain heq
  exact ⟨⟨hhead ▸ hdenotes, hcurrent.trans h.current, h.chain, h.rest, h.nonneg, h.le⟩, hhead, hresults⟩

theorem copied {k : Int} (hp : 0 ≤ p) (h0 : 0 ≤ q) (hle : q ≤ s1.length) (hk : 0 ≤ k)
    (hpk : p + k ≤ s0.length) (hQ : Chain (p + k) Q)
    (hrest : splice p Q (s0.drop p.toNat) = s1.drop q.toNat) :
    textBetween s1 q (q + k) = textBetween s0 p (p + k) ∧
      splice (p + k) Q (s0.drop (p + k).toNat) = s1.drop (q + k).toNat ∧ q + k ≤ s1.length := by
  have hlen := length_textBetween hp (by omega : p ≤ p + k) hpk
  have hsum : p.toNat + (p + k - p).toNat = (p + k).toNat := by omega
  rw [splice_take_drop _ (by omega : p ≤ p + k) hQ,
    ← textBetween_eq_take_drop hp (by omega : p ≤ p + k), drop_drop, hsum] at hrest
  have h := drop_append h0 hle hrest.symm
  rw [hlen, add_sub_cancel_left] at h
  exact ⟨h.1, h.2.1.symm, h.2.2⟩

theorem validOffset_of_copied {k : Int} (hp : 0 ≤ p) (h0 : 0 ≤ q) (hk : 0 < k)
    (hpk : p + k ≤ s0.length) (hQ : Chain (p + k + 1) Q)
    (htext : textBetween s1 q (q + k) = textBetween s0 p (p + k))
    (hrest : splice (p + k) Q (s0.drop (p + k).toNat) = s1.drop (q + k).toNat)
    (hvalid : ValidOffset s1 (q + k)) : ValidOffset s0 (p + k) := by
  refine ⟨by omega, hpk, fun hbetween => hvalid.2.2 ⟨?_, ?_⟩⟩
  · rw [getLast?_take h0 (by omega : q < q + k) hvalid.2.1, htext, ← getLast?_take hp (by omega : p < p + k) hpk]
    exact hbetween.1
  · obtain ⟨rest, hdrop⟩ := head?_eq_some_iff.mp hbetween.2
    have hone : (p + k + 1 - (p + k)).toNat = 1 := by omega
    rw [← hrest, splice_take_drop _ (by omega : p + k ≤ p + k + 1) hQ, hdrop, hone]
    rfl

theorem Reached.infinite_split {start : Position} {i : Int} (h : Reached s0 s1 st p q Q)
    (hhead : st.head = some (.infinite start)) (hqi : q < i) (hi : ValidOffset s1 i) :
    start = positionAt s0 p ∧
      (betweenPositions (positionAt s1 q) (positionAt s1 i)).addToPosition start = positionAt s0 (p + (i - q)) ∧
      textBetween s0 p (p + (i - q)) = textBetween s1 q i ∧
      Reached s0 s1 { st with
        currentPosInS1 := positionAt s1 i
        head := some (.infinite ((betweenPositions (positionAt s1 q) (positionAt s1 i)).addToPosition start)) }
        (p + (i - q)) i Q := by
  obtain ⟨hdenotes, hcurrent, hchain, hrest, h0, hle⟩ := h
  rw [hhead] at hdenotes
  obtain ⟨queue, last, head, current, results⟩ := st
  simp only at hdenotes hcurrent ⊢
  cases hdenotes with
  | infinite hp =>
    have hlen := congrArg List.length hrest
    rw [splice_nil, length_drop, length_drop] at hlen
    have hp0 := hp.1
    have hple := hp.2.1
    have hile := hi.2.1
    have hcopied := copied (k := i - q) (Q := []) hp0 h0 hle (by omega) (by omega) trivial hrest
    have hvalid : ValidOffset s0 (p + (i - q)) := by
      refine validOffset_of_copied (Q := []) hp0 h0 (by omega) (by omega) trivial hcopied.1 hcopied.2.1 ?_
      rwa [add_sub_cancel]
    rw [add_sub_cancel] at hcopied
    have hadd : (betweenPositions (positionAt s1 q) (positionAt s1 i)).addToPosition
        (positionAt s0 p) = positionAt s0 (p + (i - q)) := by
      rw [betweenPositions_positionAt hqi.le, hcopied.1, addToPosition_textBetween (by omega)]
    refine ⟨rfl, hadd, hcopied.1.symm, ?_, rfl, hvalid.2.1, hcopied.2.1, by omega, hile⟩
    rw [hadd]
    exact .infinite hvalid

theorem Reached.gap_end {start stop : Position} {len : TextLength}
    (h : Reached s0 s1 st p q Q) (hhead : st.head = some (.finite start stop none len)) :
    ∃ g, p < g ∧ start = positionAt s0 p ∧ stop = positionAt s0 g ∧
      len.addToPosition (positionAt s1 q) = positionAt s1 (q + (g - p)) ∧
      textBetween s0 p g = textBetween s1 q (q + (g - p)) ∧
      Reached s0 s1 { st with currentPosInS1 := positionAt s1 (q + (g - p)), head := none }
        g (q + (g - p)) Q := by
  obtain ⟨hdenotes, hcurrent, hchain, hrest, h0, hle⟩ := h
  rw [hhead] at hdenotes
  obtain ⟨queue, last, head, current, results⟩ := st
  simp only at hdenotes hcurrent ⊢
  cases hdenotes with
  | @gap _ _ r Q hp hlt hqueue =>
    have hr : ValidOffset s0 r.start := by
      cases hqueue with
      | cons hr _ => exact hr.start
    have hQ : ChainTo r.start (r :: Q) s0.length := ⟨le_rfl, hchain.2⟩
    have hp0 := hp.1
    have hrle := hr.2.1
    have hcopied := copied (k := r.start - p) hp0 h0 hle (by omega) (by omega)
      (by rw [add_sub_cancel]; exact hQ.chain) hrest
    rw [add_sub_cancel] at hcopied
    obtain ⟨htext, hrest', hle'⟩ := hcopied
    refine ⟨r.start, hlt, rfl, rfl, ?_, htext.symm, .absent hr hqueue, rfl, hQ, hrest', by omega, hle'⟩
    rw [← htext, addToPosition_textBetween (by omega)]

theorem Reached.gap_split {start stop : Position} {len : TextLength} {i : Int}
    (h : Reached s0 s1 st p q Q) (hhead : st.head = some (.finite start stop none len))
    (hqi : q < i) (hi : ValidOffset s1 i)
    (hbefore : (positionAt s1 i).isBefore (len.addToPosition (positionAt s1 q))) :
    start = positionAt s0 p ∧
      (betweenPositions (positionAt s1 q) (positionAt s1 i)).addToPosition start = positionAt s0 (p + (i - q)) ∧
      textBetween s0 p (p + (i - q)) = textBetween s1 q i ∧
      Reached s0 s1 { st with
        head := some (.finite
          ((betweenPositions (positionAt s1 q) (positionAt s1 i)).addToPosition start) stop none
          (remainingLength len (betweenPositions (positionAt s1 q) (positionAt s1 i))))
        currentPosInS1 := positionAt s1 i } (p + (i - q)) i Q := by
  obtain ⟨hdenotes, hcurrent, hchain, hrest, h0, hle⟩ := h
  rw [hhead] at hdenotes
  obtain ⟨queue, last, head, current, results⟩ := st
  simp only at hdenotes hcurrent hbefore ⊢
  cases hdenotes with
  | @gap _ _ r Q hp hlt hqueue =>
    have hr : ValidOffset s0 r.start := by
      cases hqueue with
      | cons hr _ => exact hr.start
    have hQ : ChainTo r.start (r :: Q) s0.length := ⟨le_rfl, hchain.2⟩
    have hp0 := hp.1
    have hrle := hr.2.1
    obtain ⟨htext, -, hend⟩ := copied (k := r.start - p) hp0 h0 hle (by omega) (by omega)
      (by rw [add_sub_cancel]; exact hQ.chain) hrest
    rw [add_sub_cancel] at htext
    rw [← htext, addToPosition_textBetween (by omega), isBefore_positionAt_iff hi.1 hi.2.1 (by omega) hend] at hbefore
    have hcopied := copied (k := i - q) hp0 h0 hle (by omega) (by omega) (hQ.chain.mono (by omega)) hrest
    have hvalid : ValidOffset s0 (p + (i - q)) := by
      refine validOffset_of_copied hp0 h0 (by omega) (by omega) (hQ.chain.mono (by omega)) hcopied.1 hcopied.2.1 ?_
      rwa [add_sub_cancel]
    rw [add_sub_cancel] at hcopied
    have hsplit := textBetween_append (s := s0) (by omega : p ≤ p + (i - q)) (by omega : p + (i - q) ≤ r.start)
    have hadd : (betweenPositions (positionAt s1 q) (positionAt s1 i)).addToPosition
        (positionAt s0 p) = positionAt s0 (p + (i - q)) := by
      rw [betweenPositions_positionAt hqi.le, hcopied.1, addToPosition_textBetween (by omega)]
    refine ⟨rfl, hadd, hcopied.1.symm, ?_, rfl, ?_, hcopied.2.1, by omega, hi.2.1⟩
    · rw [hadd, betweenPositions_positionAt hqi.le, hcopied.1, ← hsplit, remainingLength_append]
      exact .gap hvalid (by omega) hqueue
    · exact ⟨by omega, hchain.2⟩

theorem Reached.text_split {start stop : Position} {u : JsString} {len : TextLength} {i : Int}
    (h : Reached s0 s1 st p q Q) (hhead : st.head = some (.finite start stop (some u) len))
    (hqi : q < i) (hi : ValidOffset s1 i)
    (hbefore : (positionAt s1 i).isBefore (len.addToPosition (positionAt s1 q))) :
    ∃ e u1 u2 Q', p ≤ e ∧ ValidOffset s0 e ∧ start = positionAt s0 p ∧ stop = positionAt s0 e ∧
      splitText u (betweenPositions (positionAt s1 q) (positionAt s1 i)) = .ok (u1, u2) ∧
      u1 = textBetween s1 q i ∧
      Reached s0 s1 { st with
        head := some (.finite stop stop (some u2)
          (remainingLength len (betweenPositions (positionAt s1 q) (positionAt s1 i))))
        currentPosInS1 := positionAt s1 i } e i Q' := by
  obtain ⟨hdenotes, hcurrent, hchain, hrest, h0, hle⟩ := h
  rw [hhead] at hdenotes
  obtain ⟨queue, last, head, current, results⟩ := st
  simp only at hdenotes hcurrent hbefore ⊢
  cases hdenotes with
  | @text _ _ e _ Q hp he hpe hqueue =>
    have hcons : s1.drop q.toNat = u ++ splice e Q (s0.drop e.toNat) := by
      rw [← hrest, splice_cons_drop Q s0 hp.1 le_rfl hpe]
      simp
    obtain ⟨htext, -, hle'⟩ := drop_append h0 hle hcons
    have hi0 := hi.1
    have hile := hi.2.1
    rw [← htext, addToPosition_textBetween (by omega), isBefore_positionAt_iff hi0 hile (by omega) hle'] at hbefore
    have hu : u = textBetween s1 q i ++ textBetween s1 i (q + u.length) := by
      rw [textBetween_append hqi.le hbefore.le, htext]
    rw [hu, append_assoc] at hcons
    obtain ⟨-, hrest', -⟩ := drop_append h0 hle hcons
    rw [length_textBetween h0 hqi.le hile, add_sub_cancel] at hrest'
    have hlen : betweenPositions (positionAt s1 q) (positionAt s1 i) = ofCodeUnits (textBetween s1 q i) :=
      betweenPositions_positionAt hqi.le
    refine ⟨e, textBetween s1 q i, textBetween s1 i (q + u.length), ⟨e, e, textBetween s1 i (q + u.length)⟩ :: Q, hpe,
      he, rfl, rfl, ?_, rfl, ?_, rfl, ⟨le_rfl, le_rfl, hchain.2.2⟩, ?_, hi0, hile⟩
    · rw [hlen]
      conv_lhs => rw [hu]
      exact splitText_append ..
    · have hremaining := remainingLength_append (textBetween s1 q i) (textBetween s1 i (q + u.length))
      rw [← hu] at hremaining
      simp only
      rw [hlen, hremaining]
      exact .text he he le_rfl hqueue
    · rw [hrest', splice_cons_drop Q s0 he.1 le_rfl le_rfl]
      simp

theorem Reached.text_end {start stop : Position} {u : JsString} {len : TextLength}
    (h : Reached s0 s1 st p q Q) (hhead : st.head = some (.finite start stop (some u) len)) :
    ∃ e Q', p ≤ e ∧ ValidOffset s0 e ∧ start = positionAt s0 p ∧ stop = positionAt s0 e ∧
      len.addToPosition (positionAt s1 q) = positionAt s1 (q + u.length) ∧
      u = textBetween s1 q (q + u.length) ∧ Q = ⟨p, e, u⟩ :: Q' ∧
      Reached s0 s1 { st with currentPosInS1 := positionAt s1 (q + u.length), head := none }
        e (q + u.length) Q' := by
  obtain ⟨hdenotes, hcurrent, hchain, hrest, h0, hle⟩ := h
  rw [hhead] at hdenotes
  obtain ⟨queue, last, head, current, results⟩ := st
  simp only at hdenotes hcurrent ⊢
  cases hdenotes with
  | @text _ _ e _ Q hp he hpe hqueue =>
    have hcons : s1.drop q.toNat = u ++ splice e Q (s0.drop e.toNat) := by
      rw [← hrest, splice_cons_drop Q s0 hp.1 le_rfl hpe]
      simp
    obtain ⟨htext, hrest', hle'⟩ := drop_append h0 hle hcons
    refine ⟨e, Q, hpe, he, rfl, rfl, ?_, htext.symm, rfl, .absent he hqueue, rfl, hchain.2.2,
      hrest'.symm, by omega, hle'⟩
    conv_lhs => rw [← htext]
    rw [addToPosition_textBetween (by omega)]

def Writes (s0 : JsString) (rs : List TextReplacement) (p p' : Int) (w : JsString) : Prop :=
  ∃ out, List.Forall₂ (Denotes s0) rs out ∧ ChainTo p out p' ∧ splice p out (textBetween s0 p p') = w

theorem Writes.nil {p' : Int} (h : p ≤ p') : Writes s0 [] p p' (textBetween s0 p p') := ⟨[], .nil, h, rfl⟩

theorem Writes.single {r : TextReplacement} {e : Int} {u : JsString}
    (h : Denotes s0 r ⟨p, e, u⟩) : Writes s0 [r] p e u := by
  refine ⟨[⟨p, e, u⟩], .cons h .nil, ⟨le_rfl, h.le, le_rfl⟩, ?_⟩
  have hlen := length_textBetween h.start.1 h.le h.stop.2.1
  simp only at hlen
  rw [splice_cons, splice_nil, drop_of_length_le (by simp only; omega)]
  simp

theorem Writes.append {rs rs' : List TextReplacement} {p' p'' : Int} {w w' : JsString} (hp : 0 ≤ p)
    (hle : p'' ≤ s0.length) (h : Writes s0 rs p p' w) (h' : Writes s0 rs' p' p'' w') :
    Writes s0 (rs ++ rs') p p'' (w ++ w') := by
  obtain ⟨out, hout, hchain, rfl⟩ := h
  obtain ⟨out', hout', hchain', rfl⟩ := h'
  have hpp := hchain.le
  have hpp' := hchain'.le
  have hlen := length_textBetween hp hpp (hpp'.trans hle)
  refine ⟨out ++ out', rel_append hout hout', hchain.append hchain', ?_⟩
  rw [splice_append _ hchain hchain'.chain, ← textBetween_append hpp hpp', take_left' (by omega), drop_left' (by omega)]

theorem advanceTo_spec {i : Int} (h : Reached s0 s1 st p q Q) (hqi : q ≤ i) (hi : ValidOffset s1 i) :
    ∃ st' p' Q' rs, advanceTo (positionAt s1 i) st = .ok st' ∧ Reached s0 s1 st' p' i Q' ∧
      st'.resultReplacements = st.resultReplacements ++ rs ∧
      Writes s0 rs p p' (textBetween s1 q i) := by
  induction hn : headsLeft st.edit1Queue st.lastEdit1EndS0 st.head using Nat.strong_induction_on
    generalizing st p q Q with
  | _ n ih =>
    have hp := h.head.validOffset
    rw [advanceTo, h.current]
    rcases hqi.eq_or_lt with rfl | hlt
    · refine ⟨st, p, Q, [], if_pos rfl, h, by simp, ?_⟩
      rw [textBetween_self, ← textBetween_self (s := s0) (a := p)]
      exact .nil le_rfl
    have hne : positionAt s1 q ≠ positionAt s1 i := fun heq => hlt.ne (positionAt_inj h.nonneg h.le hi.1 hi.2.1 heq)
    rw [if_neg hne]
    split
    next start st1 heq =>
      obtain ⟨h1, hhead, hresults⟩ := ensureHead_spec h heq
      obtain ⟨rfl, hadd, htext, hreached⟩ := h1.infinite_split hhead hlt hi
      rw [h1.current]
      refine ⟨_, _, _, [], rfl, hreached, by simp [hresults], ?_⟩
      rw [← htext]
      exact .nil (by omega)
    next start stop text len st1 heq =>
      obtain ⟨h1, hhead, hresults⟩ := ensureHead_spec h heq
      have hdecrease := headsLeft_ensureHead heq
      rw [hn] at hdecrease
      have hpast {k : Int} (hk : q ≤ k) (hk' : k ≤ s1.length)
          (hbefore : ¬ (positionAt s1 i).isBefore (positionAt s1 k)) : k ≤ i := by
        rw [isBefore_positionAt_iff hi.1 hi.2.1 (h.nonneg.trans hk) hk'] at hbefore
        exact not_lt.mp hbefore
      rw [h1.current]
      simp only
      split
      next hbefore =>
        cases text with
        | none =>
          obtain ⟨rfl, hadd, htext, hreached⟩ := h1.gap_split hhead hlt hi hbefore
          simp only [advanceWithin, h1.current]
          refine ⟨_, _, _, [], rfl, hreached, by simp [hresults], ?_⟩
          rw [← htext]
          exact .nil (by omega)
        | some u =>
          obtain ⟨e, u1, u2, Q', hpe, he, rfl, rfl, hsplit, rfl, hreached⟩ := h1.text_split hhead hlt hi hbefore
          simp only [advanceWithin, h1.current, hsplit]
          refine ⟨_, _, _, _, rfl, hreached.withResults _, by rw [hresults], ?_⟩
          exact .single (.mk_range hp he hpe)
      next hbefore =>
        cases text with
        | none =>
          obtain ⟨g, hpg, rfl, rfl, hadd, htext, hreached⟩ := h1.gap_end hhead
          rw [hadd] at hbefore ⊢
          have hqi' := hpast (by omega) hreached.le hbefore
          obtain ⟨st', p', Q', rs, hrun, hreached', hresults', hwrites⟩ := ih _ hdecrease hreached hqi' rfl
          refine ⟨st', p', Q', rs, hrun, hreached', by rw [hresults', hresults], ?_⟩
          rw [← textBetween_append (by omega : q ≤ q + (g - p)) hqi', ← htext]
          exact (Writes.nil hpg.le).append hp.1 hreached'.head.validOffset.2.1 hwrites
        | some u =>
          obtain ⟨e, Q', hpe, he, rfl, rfl, hadd, htext, rfl, hreached⟩ := h1.text_end hhead
          rw [hadd] at hbefore ⊢
          have hqi' := hpast (by omega) hreached.le hbefore
          obtain ⟨st', p', Q', rs, hrun, hreached', hresults', hwrites⟩ :=
            ih _ hdecrease (hreached.withResults _) hqi' rfl
          refine ⟨st', p', Q', [⟨Range.fromPositions (positionAt s0 p) (positionAt s0 e), u⟩] ++ rs,
            hrun, hreached', by rw [hresults', ← append_assoc, ← hresults]; rfl, ?_⟩
          rw [← textBetween_append (by omega : q ≤ q + u.length) hqi', ← htext]
          exact (Writes.single (.mk_range hp he hpe)).append hp.1 hreached'.head.validOffset.2.1 hwrites

theorem consumeTo_spec {j : Int} (consumed : Option (Position × Position))
    (h : Reached s0 s1 st p q Q) (hqj : q ≤ j) (hj : ValidOffset s1 j) :
    ∃ st' p' Q' consumed', consumeTo (positionAt s1 j) st consumed = .ok (st', consumed') ∧
      Reached s0 s1 st' p' j Q' ∧ st'.resultReplacements = st.resultReplacements ∧ p ≤ p' ∧
      (p' = p ∧ consumed' = consumed ∨
        consumed' = consume consumed (positionAt s0 p) (positionAt s0 p')) := by
  induction hn : headsLeft st.edit1Queue st.lastEdit1EndS0 st.head using Nat.strong_induction_on
    generalizing st p q Q consumed with
  | _ n ih =>
    have hp := h.head.validOffset
    rw [consumeTo, h.current]
    rcases hqj.eq_or_lt with rfl | hlt
    · exact ⟨st, p, Q, consumed, if_pos rfl, h, rfl, le_rfl, .inl ⟨rfl, rfl⟩⟩
    have hne : positionAt s1 q ≠ positionAt s1 j := fun heq => hlt.ne (positionAt_inj h.nonneg h.le hj.1 hj.2.1 heq)
    rw [if_neg hne]
    split
    next start st1 heq =>
      obtain ⟨h1, hhead, hresults⟩ := ensureHead_spec h heq
      obtain ⟨rfl, hadd, htext, hreached⟩ := h1.infinite_split hhead hlt hj
      rw [h1.current]
      exact ⟨_, _, _, _, rfl, hreached, hresults, by omega, .inr (by rw [hadd])⟩
    next start stop text len st1 heq =>
      obtain ⟨h1, hhead, hresults⟩ := ensureHead_spec h heq
      have hdecrease := headsLeft_ensureHead heq
      rw [hn] at hdecrease
      have hpast {k : Int} (hk : q ≤ k) (hk' : k ≤ s1.length)
          (hbefore : ¬ (positionAt s1 j).isBefore (positionAt s1 k)) : k ≤ j := by
        rw [isBefore_positionAt_iff hj.1 hj.2.1 (h.nonneg.trans hk) hk'] at hbefore
        exact not_lt.mp hbefore
      -- what is consumed together with a whole head
      have hjoin {a b p' : Int} {c : Option (Position × Position)}
          (hc : p' = b ∧ c = consume consumed (positionAt s0 a) (positionAt s0 b) ∨
            c = consume (consume consumed (positionAt s0 a) (positionAt s0 b)) (positionAt s0 b) (positionAt s0 p')) :
          c = consume consumed (positionAt s0 a) (positionAt s0 p') := by
        rcases hc with ⟨rfl, rfl⟩ | rfl <;> rfl
      rw [h1.current]
      simp only
      split
      next hbefore =>
        cases text with
        | none =>
          obtain ⟨rfl, hadd, htext, hreached⟩ := h1.gap_split hhead hlt hj hbefore
          simp only [consumeWithin, h1.current]
          exact ⟨_, _, _, _, rfl, hreached, hresults, by omega, .inr (by rw [hadd])⟩
        | some u =>
          obtain ⟨e, u1, u2, Q', hpe, he, rfl, rfl, hsplit, rfl, hreached⟩ := h1.text_split hhead hlt hj hbefore
          simp only [consumeWithin, h1.current, hsplit]
          exact ⟨_, _, _, _, rfl, hreached, hresults, hpe, .inr rfl⟩
      next hbefore =>
        cases text with
        | none =>
          obtain ⟨g, hpg, rfl, rfl, hadd, htext, hreached⟩ := h1.gap_end hhead
          rw [hadd] at hbefore ⊢
          have hqj' := hpast (by omega) hreached.le hbefore
          obtain ⟨st', p', Q', c, hrun, hreached', hresults', hle, hc⟩ := ih _ hdecrease _ hreached hqj' rfl
          exact ⟨st', p', Q', c, hrun, hreached', hresults'.trans hresults, hpg.le.trans hle, .inr (hjoin hc)⟩
        | some u =>
          obtain ⟨e, Q', hpe, he, rfl, rfl, hadd, htext, rfl, hreached⟩ := h1.text_end hhead
          rw [hadd] at hbefore ⊢
          have hqj' := hpast (by omega) hreached.le hbefore
          obtain ⟨st', p', Q', c, hrun, hreached', hresults', hle, hc⟩ := ih _ hdecrease _ hreached hqj' rfl
          exact ⟨st', p', Q', c, hrun, hreached', hresults'.trans hresults, hpe.trans hle, .inr (hjoin hc)⟩

theorem composeStep_spec {r2 : TextReplacement} {b : Splice CodeUnit} (h : Reached s0 s1 st p q Q)
    (hr2 : Denotes s1 r2 b) (hq : q ≤ b.start) :
    ∃ st' p' Q' rs, composeStep st r2 = .ok st' ∧ Reached s0 s1 st' p' b.stop Q' ∧
      st'.resultReplacements = st.resultReplacements ++ rs ∧
      Writes s0 rs p p' (textBetween s1 q b.start ++ b.text) := by
  obtain ⟨st1, p1, Q1, rs1, hrun1, h1, hresults1, hwrites1⟩ := advanceTo_spec h hq hr2.start
  obtain ⟨st2, p2, Q2, consumed, hrun2, h2, hresults2, hle, hconsumed⟩ := consumeTo_spec none h1 hr2.le hr2.stop
  have hp1 := h1.head.validOffset
  have hp2 := h2.head.validOffset
  have hwrites : Writes s0 (rs1 ++ [⟨Range.fromPositions (positionAt s0 p1) (positionAt s0 p2), r2.text⟩])
      p p2 (textBetween s1 q b.start ++ b.text) := by
    rw [← hr2.text]
    exact hwrites1.append h.head.validOffset.1 hp2.2.1 (.single (.mk_range hp1 hp2 hle))
  have hresults : st2.resultReplacements = st.resultReplacements ++ rs1 := hresults2.trans hresults1
  simp only [composeStep, hr2.startPosition, hr2.endPosition, hrun1, hrun2, bind, Except.bind]
  rcases hconsumed with ⟨rfl, rfl⟩ | rfl
  · -- nothing is consumed
    cases hensure : ensureHead st2 with
    | mk head st3 =>
      obtain ⟨h3, hhead, hresults3⟩ := ensureHead_spec h2 hensure
      have hstart : head.srcRangeStart = positionAt s0 p2 := (hhead ▸ h3.head).srcRangeStart_eq
      simp only [hstart]
      refine ⟨_, _, _, _, rfl, h3.withResults _, ?_, hwrites⟩
      rw [hresults3, hresults, append_assoc]
  · simp only [consume, Option.map_none, Option.getD_none]
    refine ⟨_, _, _, _, rfl, h2.withResults _, ?_, hwrites⟩
    rw [hresults, append_assoc]

theorem foldlM_composeStep {rs2 : List TextReplacement} {B : List (Splice CodeUnit)}
    (hrs2 : List.Forall₂ (Denotes s1) rs2 B) (h : Reached s0 s1 st p q Q)
    (hchain : ChainTo q B s1.length) :
    ∃ st' p' q' Q' rs w, rs2.foldlM composeStep st = .ok st' ∧ Reached s0 s1 st' p' q' Q' ∧
      st'.resultReplacements = st.resultReplacements ++ rs ∧ Writes s0 rs p p' w ∧
      w ++ s1.drop q'.toNat = splice q B (s1.drop q.toNat) := by
  induction hrs2 generalizing st p q Q with
  | nil =>
    refine ⟨st, p, q, Q, [], [], rfl, h, by simp, ?_, rfl⟩
    rw [← textBetween_self (s := s0) (a := p)]
    exact .nil le_rfl
  | @cons r2 b rs2 B hr2 hrs2 ih =>
    obtain ⟨st1, p1, Q1, rs1, hrun1, h1, hresults1, hwrites1⟩ := composeStep_spec h hr2 hchain.1
    obtain ⟨st', p', q', Q', rs, w, hrun, h', hresults, hwrites, hw⟩ := ih h1 hchain.2.2
    refine ⟨st', p', q', Q', rs1 ++ rs, _, ?_, h', ?_,
      hwrites1.append h.head.validOffset.1 h'.head.validOffset.2.1 hwrites, ?_⟩
    · simp only [foldlM_cons, hrun1, bind, Except.bind]
      exact hrun
    · rw [hresults, hresults1, append_assoc]
    · rw [append_assoc, hw, splice_cons_drop B s1 h.nonneg hchain.1 hchain.2.1]
      simp [textBetween]

theorem flushHeads_spec (st : ComposeState) (h : HeadDenotes s0 st.head st.edit1Queue st.lastEdit1EndS0 p Q)
    (hchain : Chain p Q) :
    ∃ rs, flushHeads st = st.resultReplacements ++ rs ∧ List.Forall₂ (Denotes s0) rs Q := by
  induction hn : headsLeft st.edit1Queue st.lastEdit1EndS0 st.head using Nat.strong_induction_on
    generalizing st p Q with
  | _ n ih =>
    rw [flushHeads]
    cases heq : ensureHead st with
    | mk head st1 =>
      obtain ⟨hdenotes, hhead, hresults, -⟩ := ensureHead_denotes h hchain heq
      obtain ⟨queue, last, oldHead, current, results⟩ := st1
      simp only at hdenotes hhead hresults
      cases hdenotes with
      | infinite hp => exact ⟨[], by simp [hresults], .nil⟩
      | @gap _ _ r Q hp hlt hqueue =>
        have hdecrease := headsLeft_ensureHead heq
        have hr : ValidOffset s0 r.start := by
          cases hqueue with
          | cons hr _ => exact hr.start
        obtain ⟨rs, hrun, hrs⟩ := ih _ (hn ▸ hdecrease)
          ⟨queue, positionAt s0 r.start, none, current, results⟩ (.absent hr hqueue)
          ⟨le_rfl, hchain.2⟩ rfl
        exact ⟨rs, by rw [← hresults]; exact hrun, hrs⟩
      | @text _ _ e u Q hp he hle hqueue =>
        have hdecrease := headsLeft_ensureHead heq
        let r : TextReplacement := ⟨Range.fromPositions (positionAt s0 p) (positionAt s0 e), u⟩
        obtain ⟨rs, hrun, hrs⟩ := ih _ (hn ▸ hdecrease)
          ⟨queue, positionAt s0 e, none, current, results ++ [r]⟩ (.absent he hqueue)
          hchain.2.2 rfl
        refine ⟨r :: rs, ?_, .cons (.mk_range hp he hle) hrs⟩
        rw [← hresults, append_cons]
        exact hrun

theorem composeNormalized_spec {rs1 rs2 : List TextReplacement} {A B : List (Splice CodeUnit)}
    (hrs1 : List.Forall₂ (Denotes s0) rs1 A) (hA : ChainTo 0 A s0.length)
    (hs1 : splice 0 A s0 = s1) (hrs2 : List.Forall₂ (Denotes s1) rs2 B)
    (hB : ChainTo 0 B s1.length) :
    ∃ rs C, composeNormalized ⟨rs1⟩ ⟨rs2⟩ = .ok ⟨rs⟩ ∧ List.Forall₂ (Denotes s0) rs C ∧
      ChainTo 0 C s0.length ∧ splice 0 C s0 = splice 0 B s1 := by
  have hzero : ValidOffset s0 0 := ⟨le_rfl, Int.natCast_nonneg _, by simp⟩
  have hstart : Reached s0 s1 ⟨rs1, ⟨1, 1⟩, none, ⟨1, 1⟩, []⟩ 0 0 A :=
    ⟨.absent hzero hrs1, rfl, hA, hs1, le_rfl, Int.natCast_nonneg _⟩
  obtain ⟨st', p', q', Q', rs, w, hrun, hreached, hresults, ⟨out, hout, hchain, rfl⟩, hw⟩ :=
    foldlM_composeStep hrs2 hstart hB
  obtain ⟨rest, hflush, hrest⟩ := flushHeads_spec _ hreached.head hreached.chain.chain
  refine ⟨rs ++ rest, out ++ Q', ?_, rel_append hout hrest, hchain.append hreached.chain, ?_⟩
  · simp only [composeNormalized, hrun, bind, Except.bind, hflush, hresults, nil_append]
    rfl
  · rw [splice_append s0 hchain hreached.chain.chain, sub_zero, hreached.rest]
    exact hw

/-- Composing two edits and applying the result is applying them one after the other, and
neither throws; every edit built on the way is what the constructor asserts. -/
theorem compose_applyToString {s0 s1 : JsString} {a b : TextEdit}
    (hlen0 : s0.length < maxSafeInteger) (hlen1 : s1.length < maxSafeInteger) (ha : a.ValidOn s0)
    (hs1 : a.applyToString s0 = .ok s1) (hb : b.ValidOn s1) :
    ∃ c s2, a.compose b = .ok c ∧ b.applyToString s1 = .ok s2 ∧ c.applyToString s0 = .ok s2 ∧
      c.asserted ∧ a.normalize.asserted ∧ b.normalize.asserted ∧
      ∀ d, composeNormalized a.normalize b.normalize = .ok d → d.asserted := by
  obtain ⟨rs1⟩ := a
  obtain ⟨rs2⟩ := b
  obtain ⟨A, hA, hchainA⟩ := ha.exists_splices
  obtain ⟨B, hB, hchainB⟩ := hb.exists_splices
  rw [applyToString_eq hlen0 hA hchainA, Except.ok.injEq] at hs1
  obtain ⟨A', hA', hchainA', heqA⟩ := normalize_spec hA hchainA
  obtain ⟨B', hB', hchainB', heqB⟩ := normalize_spec hB hchainB
  obtain ⟨rs, C, hrun, hC, hchainC, heqC⟩ := composeNormalized_spec hA' hchainA' (heqA.trans hs1) hB' hchainB'
  have hrun' : composeNormalized (normalize ⟨rs1⟩) (normalize ⟨rs2⟩) = .ok ⟨rs⟩ := hrun
  have hbuilt : (normalize ⟨rs1⟩).asserted ∧ (normalize ⟨rs2⟩).asserted ∧
      ∀ d, composeNormalized (normalize ⟨rs1⟩) (normalize ⟨rs2⟩) = .ok d → d.asserted := by
    refine ⟨asserted_of_chain hA' hchainA'.chain, asserted_of_chain hB' hchainB'.chain, fun d hd => ?_⟩
    obtain rfl := Except.ok.inj (hrun'.symm.trans hd)
    exact asserted_of_chain hC hchainC.chain
  have hfinish {rs : List TextReplacement} {C : List (Splice CodeUnit)}
      (hC : List.Forall₂ (Denotes s0) rs C) (hchain : ChainTo 0 C s0.length)
      (heq : splice 0 C s0 = splice 0 B s1) :
      applyToString ⟨rs2⟩ s1 = .ok (splice 0 B s1) ∧
        applyToString ⟨rs⟩ s0 = .ok (splice 0 B s1) ∧ (⟨rs⟩ : TextEdit).asserted := by
    refine ⟨applyToString_eq hlen1 hB hchainB, ?_, asserted_of_chain hC hchain.chain⟩
    rw [applyToString_eq hlen0 hC hchain, heq]
  have hresult : ∃ c, compose ⟨rs1⟩ ⟨rs2⟩ = .ok c ∧
      applyToString ⟨rs2⟩ s1 = .ok (splice 0 B s1) ∧
        c.applyToString s0 = .ok (splice 0 B s1) ∧ c.asserted := by
    simp only [compose, bind, Except.bind, pure, Except.pure]
    split_ifs with hempty1 hempty2
    · rw [length_eq_zero_iff] at hempty1
      rw [hempty1] at hA'
      cases hA'
      obtain rfl : s0 = s1 := heqA.trans hs1
      exact ⟨_, rfl, hfinish hB' hchainB' heqB⟩
    · rw [length_eq_zero_iff] at hempty2
      rw [hempty2] at hB'
      cases hB'
      exact ⟨_, rfl, hfinish hA' hchainA' (by rw [heqA, hs1, ← heqB]; rfl)⟩
    · obtain ⟨D, hD, hchainD, heqD⟩ := normalize_spec hC hchainC
      refine ⟨normalize ⟨rs⟩, ?_, hfinish hD hchainD (by rw [heqD, heqC, heqB])⟩
      rw [hrun']
  obtain ⟨c, hc, hb', hc', hasserted⟩ := hresult
  exact ⟨c, _, hc, hb', hc', hasserted, hbuilt⟩

/-- "a\r\nb": a line break goes before the "b", then both breaks and the "b" are replaced. -/
theorem compose_applyToString_across_breaks :
    let a : TextEdit := ⟨[⟨Range.new 2 1 2 1, [120, 10]⟩]⟩
    let b : TextEdit := ⟨[⟨Range.new 1 2 3 1, [121]⟩]⟩
    ∃ c s2, a.compose b = .ok c ∧ b.applyToString [97, 13, 10, 120, 10, 98] = .ok s2 ∧
      c.applyToString [97, 13, 10, 98] = .ok s2 ∧ c.asserted ∧ a.normalize.asserted ∧
      b.normalize.asserted ∧
      ∀ d, composeNormalized a.normalize b.normalize = .ok d → d.asserted := by
  intro a b
  exact compose_applyToString (by decide) (by decide) ⟨by decide, by decide⟩ (by decide) ⟨by decide, by decide⟩

end Gavea.Edits.TextEdit
