import Gavea.MergeEditor.TextModelDiffs

namespace Gavea.MergeEditor

open Gavea.Core Lib.Js Lib.Hunks List

def hunksOf (diffs : List DetailedLineRangeMapping) : List Hunk := diffs.map fun d => d.toLineRangeMapping.hunk

@[simp] theorem hunksOf_append (diffs diffs' : List DetailedLineRangeMapping) :
    hunksOf (diffs ++ diffs') = hunksOf diffs ++ hunksOf diffs' := map_append

@[simp] theorem hunksOf_cons (d : DetailedLineRangeMapping) (diffs : List DetailedLineRangeMapping) :
    hunksOf (d :: diffs) = d.toLineRangeMapping.hunk :: hunksOf diffs := rfl

@[simp] theorem editsOf_append (diffs diffs' : List DetailedLineRangeMapping) (text : Lines) :
    editsOf (diffs ++ diffs') text = editsOf diffs text ++ editsOf diffs' text := map_append

@[simp] theorem length_editsOf (diffs : List DetailedLineRangeMapping) (text : Lines) :
    (editsOf diffs text).length = diffs.length := length_map _

structure Leads (base output : Lines) (diffs : List DetailedLineRangeMapping) : Prop where
  aligned : Aligned 1 1 (hunksOf diffs) base output
  apart : Apart (hunksOf diffs)

theorem leads_iff {base output : Lines} {diffs : List DetailedLineRangeMapping} :
    Leads base output diffs ↔
      CorrectDiffs base output (diffs.map DetailedLineRangeMapping.toLineRangeMapping) := by
  have hmap : (diffs.map DetailedLineRangeMapping.toLineRangeMapping).map LineRangeMapping.hunk =
      hunksOf diffs := map_map
  exact ⟨fun h => ⟨hmap ▸ h.aligned, hmap ▸ h.apart⟩, fun h => ⟨hmap ▸ h.aligned, hmap ▸ h.apart⟩⟩

def moved (delta : Int) (diffs : List DetailedLineRangeMapping) : List DetailedLineRangeMapping :=
  diffs.map fun d => d.addOutputLineDelta delta

theorem hunksOf_moved (delta : Int) (diffs : List DetailedLineRangeMapping) :
    hunksOf (moved delta diffs) = (hunksOf diffs).map (Hunk.shift delta) := by
  rw [hunksOf, moved, hunksOf, map_map, map_map]
  rfl

theorem addOutputLineDelta_zero (d : DetailedLineRangeMapping) : d.addOutputLineDelta 0 = d := by
  have hmapping : ∀ m : RangeMapping, m.addOutputLineDelta 0 = m := by
    intro m
    have hle := m.outputRange.le
    rw [RangeMapping.addOutputLineDelta, Range.new, dif_neg (by omega)]
    simp only [add_zero]
  rw [DetailedLineRangeMapping.addOutputLineDelta, LineRangeMapping.addOutputLineDelta]
  simp only [LineRange.delta, add_zero, hmapping, map_id']

theorem addOutputLineDelta_add (d : DetailedLineRangeMapping) (a b : Int) :
    (d.addOutputLineDelta a).addOutputLineDelta b = d.addOutputLineDelta (a + b) := by
  have hmapping : ∀ m : RangeMapping,
      (m.addOutputLineDelta a).addOutputLineDelta b = m.addOutputLineDelta (a + b) := by
    intro m
    have hle := m.outputRange.le
    rw [RangeMapping.addOutputLineDelta, RangeMapping.addOutputLineDelta, RangeMapping.addOutputLineDelta,
      Range.new, Range.new, Range.new, dif_neg (by omega), dif_neg (by simp only; omega), dif_neg (by omega)]
    simp only [add_assoc]
  rw [DetailedLineRangeMapping.addOutputLineDelta, DetailedLineRangeMapping.addOutputLineDelta,
    DetailedLineRangeMapping.addOutputLineDelta, LineRangeMapping.addOutputLineDelta,
    LineRangeMapping.addOutputLineDelta, LineRangeMapping.addOutputLineDelta]
  simp only [LineRange.delta, add_assoc, map_map]
  congr 1
  apply map_congr_left
  intro m _
  exact hmapping m

theorem moved_zero (diffs : List DetailedLineRangeMapping) : moved 0 diffs = diffs := by
  rw [moved]
  simp only [addOutputLineDelta_zero, map_id']

theorem moved_moved (a b : Int) (diffs : List DetailedLineRangeMapping) :
    moved b (moved a diffs) = moved (a + b) diffs := by
  rw [moved, moved, moved, map_map]
  exact map_congr_left fun d _ => addOutputLineDelta_add d a b

structure Placed (base text : Lines) (baseRange range : LineRange) : Prop where
  inBase : 1 ≤ baseRange.startLineNumber ∧ baseRange.endLineNumberExclusive ≤ base.length + 1
  inText : 1 ≤ range.startLineNumber ∧ range.endLineNumberExclusive ≤ text.length + 1
  before : baseRange.startLineNumber = 1 ∧ range.startLineNumber = 1 ∨
    1 < baseRange.startLineNumber ∧ 1 < range.startLineNumber ∧
      getLineContent text (range.startLineNumber - 1) = getLineContent base (baseRange.startLineNumber - 1)
  behind : baseRange.endLineNumberExclusive ≤ base.length → range.endLineNumberExclusive ≤ text.length

theorem Placed.applyEdits {base text : Lines} {baseRange : LineRange} {e : LineRangeEdit}
    (h : Placed base text baseRange e.range) (htext : IsText text)
    (hlines : ∀ line ∈ e.newLines, NoLineBreak line)
    (hsome : baseRange.startLineNumber = 1 → baseRange.endLineNumberExclusive = base.length + 1 → e.newLines ≠ [])
    (hclear : baseRange.IsClear base) :
    applyEdits text (e.toEdits text.length) = e.apply text ∧ IsText (e.apply text) := by
  obtain ⟨hbase1, hbase2⟩ := h.inBase
  obtain ⟨htext1, htext2⟩ := h.inText
  have hlast : e.range.endLineNumberExclusive = text.length + 1 →
      baseRange.endLineNumberExclusive = base.length + 1 := by
    intro h1
    by_contra hne
    have := h.behind (by omega)
    omega
  have hsome' : e.range.startLineNumber = 1 → e.range.endLineNumberExclusive = text.length + 1 →
      e.newLines ≠ [] := by
    intro h1 h2
    rcases h.before with ⟨hone, -⟩ | ⟨-, hgt, -⟩
    · exact hsome hone (hlast h2)
    · omega
  have hclear' : e.range.IsClear text := by
    rcases hclear with hc | hc | hc
    · exact .inl (h.behind hc)
    · rcases h.before with ⟨-, hone⟩ | ⟨hgt, -⟩
      · exact .inr (.inl hone)
      · omega
    · rcases h.before with ⟨-, hone⟩ | ⟨-, -, hsame⟩
      · exact .inr (.inl hone)
      · exact .inr (.inr (hsame ▸ hc))
  refine ⟨applyEdits_toEdits htext htext1 htext2 hlines hsome' hclear', fun hnil => ?_, ?_⟩
  · rw [LineRangeEdit.apply, append_eq_nil_iff, append_eq_nil_iff, take_eq_nil_iff, drop_eq_nil_iff] at hnil
    obtain ⟨hfront, hlines, hback⟩ := hnil
    have hpos := length_pos_of_ne_nil htext.ne_nil
    have hone : e.range.startLineNumber = 1 := by
      rcases hfront with h1 | h1
      · omega
      · exact absurd h1 htext.ne_nil
    exact hsome' hone (by omega) hlines
  · intro line hline
    rw [LineRangeEdit.apply, mem_append, mem_append] at hline
    rcases hline with hline | hline | hline
    · exact htext.noLineBreak line (mem_of_mem_take hline)
    · exact hlines line hline
    · exact htext.noLineBreak line (mem_of_mem_drop hline)

theorem placed_of_aligned {base text : Lines} {pre mid post : List Hunk} {baseRange range : LineRange}
    (h : Aligned 1 1 (pre ++ (mid ++ post)) base text)
    (hbase : 1 ≤ baseRange.startLineNumber ∧ baseRange.endLineNumberExclusive ≤ base.length + 1)
    (hpre : ∀ x ∈ pre, x.stop < baseRange.startLineNumber)
    (hmid : ∀ x ∈ mid, baseRange.startLineNumber ≤ x.start ∧ x.stop ≤ baseRange.endLineNumberExclusive)
    (hpost : ∀ x ∈ post, baseRange.endLineNumberExclusive < x.start)
    (hstart : range.startLineNumber = baseRange.startLineNumber + deltaAfter 0 pre)
    (hstop : range.endLineNumberExclusive = baseRange.endLineNumberExclusive + deltaAfter 0 (pre ++ mid)) :
    Placed base text baseRange range := by
  obtain ⟨hbase1, hbase2⟩ := hbase
  have hle := baseRange.le
  have hle' := range.le
  have hrest : ∀ x ∈ mid ++ post, baseRange.startLineNumber ≤ x.start := by
    intro x hx
    rcases mem_append.mp hx with hx | hx
    · exact (hmid x hx).1
    · exact hle.trans (hpost x hx).le
  have hfront : ∀ x ∈ pre ++ mid, x.stop ≤ baseRange.endLineNumberExclusive := by
    intro x hx
    rcases mem_append.mp hx with hx | hx
    · exact (hpre x hx).le.trans hle
    · exact (hmid x hx).2
  obtain ⟨hlo, -, -⟩ := h.reach hbase1 (by omega) (fun x hx => (hpre x hx).le) hrest
  have h' : Aligned 1 1 ((pre ++ mid) ++ post) base text := by rwa [append_assoc]
  obtain ⟨-, hhi, -⟩ := h'.reach (by omega) (by omega) hfront fun x hx => (hpost x hx).le
  rw [sub_self] at hlo hhi
  refine ⟨⟨hbase1, hbase2⟩, ⟨by omega, by omega⟩, ?_, fun hlt => ?_⟩
  · rcases eq_or_lt_of_le hbase1 with h1 | h1
    · refine .inl ⟨h1.symm, ?_⟩
      have hnil : pre = [] := by
        refine eq_nil_iff_forall_not_mem.mpr fun x hx => ?_
        have h2 := hpre x hx
        have h3 := (h.inside x (mem_append_left _ hx)).1
        omega
      rw [hstart, hnil, deltaAfter_nil]
      omega
    · obtain ⟨h2, h3, hsame⟩ := h.same_at (a := baseRange.startLineNumber - 1) (by omega) (by omega)
        (fun x hx => by have := hpre x hx; omega) (fun x hx => by have := hrest x hx; omega)
      rw [sub_self] at h2 h3 hsame
      refine .inr ⟨h1, by omega, ?_⟩
      rw [getLineContent, getLineContent, getD_eq_getElem?_getD, getD_eq_getElem?_getD,
        ← hsame, hstart,
        show baseRange.startLineNumber + deltaAfter 0 pre - 1 - 1 =
          baseRange.startLineNumber - 1 + deltaAfter 0 pre - 1 by omega]
  · obtain ⟨-, h2, -⟩ := h'.same_at (a := baseRange.endLineNumberExclusive) (by omega) (by omega) hfront hpost
    rw [sub_self] at h2
    omega

theorem editsOf_apply {pre post : List DetailedLineRangeMapping} {text : Lines} {e : LineRangeEdit}
    (h1 : 1 ≤ e.range.startLineNumber) (h2 : e.range.endLineNumberExclusive ≤ text.length + 1)
    (hpre : ∀ d ∈ pre, d.outputRange.endLineNumberExclusive ≤ e.range.startLineNumber)
    (hpost : ∀ d ∈ post, e.range.endLineNumberExclusive ≤ d.outputRange.startLineNumber) :
    editsOf (pre ++ moved (e.newLines.length - e.range.length) post) (e.apply text) =
      editsOf (pre ++ post) text := by
  have hle := e.range.le
  have hlength : e.range.length = e.range.endLineNumberExclusive - e.range.startLineNumber := rfl
  rw [editsOf, editsOf, map_append, map_append, moved, map_map]
  congr 1
  · apply map_congr_left
    intro d hd
    have hfront : d.hunk.newText 1 (e.apply text) = d.hunk.newText 1 text := Hunk.newText_front _ (hpre d hd) (by omega)
    rw [newText_hunk, newText_hunk] at hfront
    rw [hfront]
  · apply map_congr_left
    intro d hd
    have hback := @Hunk.newText_back _ d.hunk 1 e.range.endLineNumberExclusive
      (e.newLines.length - e.range.length) text
      (text.take (e.range.startLineNumber - 1).toNat ++ e.newLines) (by omega) (hpost d hd)
      d.outputRange.le (by rw [length_append, length_take]; omega)
    rw [append_assoc] at hback
    exact congrArg (LineRangeEdit.mk d.inputRange) hback

theorem textIn_apply {e : LineRangeEdit} {text : Lines} {r : LineRange}
    (h1 : 1 ≤ e.range.startLineNumber) (h2 : e.range.endLineNumberExclusive ≤ text.length + 1)
    (hstart : r.startLineNumber = e.range.startLineNumber)
    (hstop : r.endLineNumberExclusive = e.range.startLineNumber + e.newLines.length) :
    textIn (e.apply text) r = e.newLines := by
  have hle := e.range.le
  have hlength : (text.take (e.range.startLineNumber - 1).toNat).length =
      (e.range.startLineNumber - 1).toNat := by
    rw [length_take]
    omega
  rw [textIn, LineRangeEdit.apply, hstart, hstop,
    show (e.range.startLineNumber + e.newLines.length - 1).toNat =
      (text.take (e.range.startLineNumber - 1).toNat).length + e.newLines.length by omega,
    take_length_add_append, take_left, drop_left' hlength]

theorem revert_ok {base text : Lines} {pre post : List DetailedLineRangeMapping}
    {d : DetailedLineRangeMapping} (hbase : IsText base) (htext : IsText text)
    (h : Leads base text (pre ++ d :: post)) (hclear : d.inputRange.IsClear base) :
    ∃ text', TextModelDiffs.revert base text d = .ok text' ∧ IsText text' ∧
      Leads base text' (pre ++ moved (d.inputRange.length - d.outputRange.length) post) ∧
      editsOf (pre ++ moved (d.inputRange.length - d.outputRange.length) post) text' =
        editsOf (pre ++ post) text := by
  have haligned := h.aligned
  have hapart := h.apart
  rw [hunksOf_append, hunksOf_cons] at haligned hapart
  obtain ⟨⟨hin1, hin2, hin3⟩, hout1, hout2, hout3⟩ := haligned.inside d.hunk (mem_append_right _ mem_cons_self)
  simp only [LineRangeMapping.hunk] at hin1 hin2 hin3 hout1 hout2 hout3
  obtain ⟨-, hnumbered⟩ := Numbered.append.mp haligned.numbered
  obtain ⟨hapre, hapost, hacross⟩ := pairwise_append.mp hapart
  obtain ⟨-, hnpost, hncross⟩ := pairwise_append.mp haligned.pairwise_new
  have hplaced : Placed base text d.inputRange d.outputRange := by
    refine @placed_of_aligned base text (hunksOf pre) [d.hunk] (hunksOf post) _ _ haligned
      ⟨hin1, by omega⟩ (fun x hx => hacross x hx d.hunk mem_cons_self) (fun x hx => ?_)
      (pairwise_cons.mp hapost).1 ?_ ?_
    · rw [mem_singleton.mp hx]
      exact ⟨le_rfl, le_rfl⟩
    · have := hnumbered.1
      simpa [LineRangeMapping.hunk] using this
    · rw [deltaAfter_append, deltaAfter_cons, deltaAfter_nil]
      simp only [LineRangeMapping.hunk]
      omega
  have hpos := length_pos_of_ne_nil hbase.ne_nil
  have hlength : ((textIn base d.inputRange).length : Int) = d.inputRange.length := by
    rw [textIn, length_drop, length_take, LineRange.length]
    omega
  have hlines : ∀ line ∈ textIn base d.inputRange, NoLineBreak line := fun line hline =>
    hbase.noLineBreak line (mem_of_mem_take (mem_of_mem_drop hline))
  have hsome : d.inputRange.startLineNumber = 1 →
      d.inputRange.endLineNumberExclusive = base.length + 1 → textIn base d.inputRange ≠ [] := by
    intro h1 h2
    refine ne_nil_of_length_pos ?_
    rw [LineRange.length] at hlength
    omega
  obtain ⟨happly, htext'⟩ :=
    hplaced.applyEdits (e := ⟨d.outputRange, textIn base d.inputRange⟩) htext hlines hsome hclear
  have hedits := @editsOf_apply pre post text ⟨d.outputRange, textIn base d.inputRange⟩ hout1
    (show d.outputRange.endLineNumberExclusive ≤ (text.length : Int) + 1 by omega)
    (fun x hx => hncross x.hunk (mem_map_of_mem hx) d.hunk mem_cons_self)
    fun x hx => (pairwise_cons.mp hnpost).1 x.hunk (mem_map_of_mem hx)
  rw [hlength] at hedits
  refine ⟨_, ?_, htext', ⟨?_, ?_⟩, hedits⟩
  · rw [TextModelDiffs.revert, LineRangeMapping.getReverseLineEdit, getLines_ok hin1 (by omega)]
    exact congrArg Except.ok happly
  · rw [hunksOf_append, hunksOf_moved]
    exact haligned.remove
  · rw [hunksOf_append, hunksOf_moved]
    refine pairwise_append.mpr ⟨hapre, pairwise_map.mpr ?_, fun x hx y hy => ?_⟩
    · exact (pairwise_cons.mp hapost).2
    · obtain ⟨z, hz, rfl⟩ := mem_map.mp hy
      exact hacross x hx z (mem_cons_of_mem _ hz)

def revertedDelta (diffs : List DetailedLineRangeMapping) : Int :=
  (diffs.map fun d => d.inputRange.length - d.outputRange.length).sum

theorem foldlM_revert_ok {base : Lines} (hbase : IsText base)
    {pre : List DetailedLineRangeMapping} (bottomUp : List DetailedLineRangeMapping)
    {post : List DetailedLineRangeMapping} {text : Lines} (htext : IsText text)
    (h : Leads base text (pre ++ (bottomUp.reverse ++ post)))
    (hclear : ∀ d ∈ bottomUp, d.inputRange.IsClear base) :
    ∃ text', bottomUp.foldlM (TextModelDiffs.revert base) text = .ok text' ∧ IsText text' ∧
      Leads base text' (pre ++ moved (revertedDelta bottomUp) post) ∧
      editsOf (pre ++ moved (revertedDelta bottomUp) post) text' = editsOf (pre ++ post) text := by
  induction bottomUp generalizing post text with
  | nil =>
    have hzero : moved (revertedDelta []) post = post := moved_zero post
    rw [hzero]
    exact ⟨text, rfl, htext, h, rfl⟩
  | cons d ds ih =>
    rw [reverse_cons, append_assoc, singleton_append, ← append_assoc] at h
    obtain ⟨text1, hrevert, htext1, h1, hedits1⟩ := revert_ok hbase htext h (hclear d mem_cons_self)
    rw [append_assoc] at h1
    obtain ⟨text', hfold, htext', h', hedits'⟩ := ih htext1 h1 fun x hx => hclear x (mem_cons_of_mem d hx)
    rw [moved_moved, show d.inputRange.length - d.outputRange.length + revertedDelta ds =
      revertedDelta (d :: ds) from rfl] at h' hedits'
    refine ⟨text', ?_, htext', h', hedits'.trans ?_⟩
    · rw [foldlM_cons, hrevert]
      exact hfold
    · simp only [editsOf_append, append_assoc] at hedits1 ⊢
      obtain ⟨hpre, hrest⟩ := append_inj hedits1 (by rw [length_editsOf, length_editsOf])
      obtain ⟨-, hpost⟩ := append_inj hrest (by rw [length_editsOf, length_editsOf])
      rw [hpre, hpost]

/-- Diffs in front of a range of base, diffs that touch it, and diffs behind it. -/
structure Around (r : LineRange) (pre mid post : List DetailedLineRangeMapping) : Prop where
  before : ∀ d ∈ pre, d.inputRange.endLineNumberExclusive < r.startLineNumber
  touching : ∀ d ∈ mid, d.inputRange.intersectsOrTouches r = true
  behind : ∀ d ∈ post, r.endLineNumberExclusive < d.inputRange.startLineNumber

theorem exists_around {diffs : List DetailedLineRangeMapping} (h : Apart (hunksOf diffs))
    (r : LineRange) : ∃ pre mid post, diffs = pre ++ (mid ++ post) ∧ Around r pre mid post := by
  induction diffs with
  | nil => exact ⟨[], [], [], rfl, by constructor <;> exact fun d hd => absurd hd not_mem_nil⟩
  | cons d ds ih =>
    obtain ⟨hhead, htail⟩ := pairwise_cons.mp h
    have hlater : ∀ x ∈ ds, d.inputRange.endLineNumberExclusive < x.inputRange.startLineNumber :=
      fun x hx => hhead x.hunk (mem_map_of_mem hx)
    have hle := d.inputRange.le
    obtain ⟨pre, mid, post, rfl, hpre, hmid, hpost⟩ := ih htail
    by_cases hbefore : d.inputRange.endLineNumberExclusive < r.startLineNumber
    · exact ⟨d :: pre, mid, post, rfl, forall_mem_cons.mpr ⟨hbefore, hpre⟩, hmid, hpost⟩
    have hnil : pre = [] := by
      refine eq_nil_iff_forall_not_mem.mpr fun x hx => ?_
      have h1 := hpre x hx
      have h2 := hlater x (mem_append_left _ hx)
      have h3 := x.inputRange.le
      omega
    subst hnil
    by_cases hbehind : r.endLineNumberExclusive < d.inputRange.startLineNumber
    · refine ⟨[], [], d :: (mid ++ post), rfl, hpre, fun x hx => absurd hx not_mem_nil, ?_⟩
      refine forall_mem_cons.mpr ⟨hbehind, fun x hx => ?_⟩
      have := hlater x hx
      omega
    · refine ⟨[], d :: mid, post, rfl, hpre, forall_mem_cons.mpr ⟨?_, hmid⟩, hpost⟩
      rw [LineRange.intersectsOrTouches_iff]
      omega

theorem Around.not_touching {r : LineRange} {pre mid post : List DetailedLineRangeMapping}
    (h : Around r pre mid post) :
    ∀ d ∈ pre ++ post, d.inputRange.intersectsOrTouches r = false := by
  intro d hd
  rw [Bool.eq_false_iff]
  intro htouch
  rw [LineRange.intersectsOrTouches_iff] at htouch
  rcases mem_append.mp hd with hd | hd
  · have := h.before d hd
    omega
  · have := h.behind d hd
    omega

theorem Around.filter_touching {r : LineRange} {pre mid post : List DetailedLineRangeMapping}
    (h : Around r pre mid post) :
    ((pre ++ (mid ++ post)).filter fun d => d.inputRange.intersectsOrTouches r) = mid :=
  MappingAlignment.filter_middle (fun d hd => h.not_touching d (mem_append_left _ hd))
    h.touching fun d hd => h.not_touching d (mem_append_right _ hd)

theorem Around.of_containsRange {r r' : LineRange} {pre mid post : List DetailedLineRangeMapping}
    (h : Around r pre mid post) (hr : r.containsRange r' = true) : Around r' pre [] post := by
  rw [LineRange.containsRange_iff] at hr
  refine ⟨fun d hd => (h.before d hd).trans_le hr.1, fun d hd => absurd hd not_mem_nil,
    fun d hd => hr.2.trans_lt (h.behind d hd)⟩

theorem startsNoLater_of_apart {diffs : List DetailedLineRangeMapping}
    (h : Apart (hunksOf diffs)) :
    diffs.Pairwise fun a b => a.inputRange.startLineNumber < b.inputRange.startLineNumber := by
  refine (pairwise_map.mp h).imp fun {a b} hab => ?_
  exact a.inputRange.le.trans_lt hab

theorem remainingDiffs_keep {toRemove diffs rest : List DetailedLineRangeMapping} {delta : Int}
    (h : ∀ d ∈ diffs, d ∉ toRemove) :
    TextModelDiffs.remainingDiffs toRemove delta (diffs ++ rest) =
      moved delta diffs ++ TextModelDiffs.remainingDiffs toRemove delta rest := by
  induction diffs with
  | nil => rfl
  | cons d ds ih =>
    rw [cons_append, TextModelDiffs.remainingDiffs, if_neg (h d mem_cons_self),
      ih fun x hx => h x (mem_cons_of_mem d hx)]
    split
    · rfl
    · next hzero =>
        obtain rfl := not_ne_iff.mp hzero
        rw [moved_zero, moved_zero]
        rfl

theorem remainingDiffs_drop {toRemove diffs rest : List DetailedLineRangeMapping} {delta : Int}
    (h : ∀ d ∈ diffs, d ∈ toRemove) :
    TextModelDiffs.remainingDiffs toRemove delta (diffs ++ rest) =
      TextModelDiffs.remainingDiffs toRemove (delta + revertedDelta diffs) rest := by
  induction diffs generalizing delta with
  | nil => rw [revertedDelta, map_nil, sum_nil, add_zero, nil_append]
  | cons d ds ih =>
    rw [cons_append, TextModelDiffs.remainingDiffs, if_pos (h d mem_cons_self),
      ih fun x hx => h x (mem_cons_of_mem d hx)]
    rw [show delta + revertedDelta (d :: ds) =
      delta + (d.inputRange.length - d.outputRange.length) + revertedDelta ds by
        rw [revertedDelta, map_cons, sum_cons, ← revertedDelta, add_assoc]]

structure UpToDate (m : TextModelDiffs) : Prop where
  base : IsText m.baseTextModel
  text : IsText m.textModel
  leads : Leads m.baseTextModel m.textModel m.diffs

theorem removeDiffs_ok {m : TextModelDiffs} (h : UpToDate m) {r : LineRange}
    {pre mid post : List DetailedLineRangeMapping} (hdiffs : m.diffs = pre ++ (mid ++ post))
    (haround : Around r pre mid post) (hclear : ∀ d ∈ mid, d.inputRange.IsClear m.baseTextModel) :
    ∃ m' post', m.removeDiffs mid = .ok m' ∧ UpToDate m' ∧ m'.baseTextModel = m.baseTextModel ∧
      m'.diffs = pre ++ post' ∧ Around r pre [] post' ∧
      editsOf m'.diffs m'.textModel = editsOf (pre ++ post) m.textModel := by
  have hsorted := startsNoLater_of_apart h.leads.apart
  rw [hdiffs] at hsorted
  obtain ⟨-, hrest, hpre⟩ := pairwise_append.mp hsorted
  obtain ⟨hmid, -, hpost⟩ := pairwise_append.mp hrest
  have hbottom : (mid.insertionSort TextModelDiffs.StartsNoLater).reverse = mid.reverse := by
    have hle : mid.Pairwise TextModelDiffs.StartsNoLater := hmid.imp fun {a b} hab => hab.le
    rw [hle.insertionSort_eq]
  have hnodup : mid.reverse.Nodup :=
    nodup_reverse.mpr (hmid.imp fun {a b} hab heq => by rw [heq] at hab; exact lt_irrefl _ hab)
  have hnotin : ∀ d, (∀ x ∈ mid, x.inputRange.startLineNumber ≠ d.inputRange.startLineNumber) →
      d ∉ mid.reverse := fun d hd hmem => hd d (mem_reverse.mp hmem) rfl
  have hremaining : TextModelDiffs.remainingDiffs mid.reverse 0 m.diffs =
      pre ++ moved (revertedDelta mid) post := by
    rw [hdiffs, remainingDiffs_keep, moved_zero, remainingDiffs_drop, zero_add,
      ← append_nil post, remainingDiffs_keep, append_nil]
    · rw [TextModelDiffs.remainingDiffs, append_nil]
    · exact fun d hd => hnotin d fun x hx => (hpost x hx d hd).ne
    · exact fun d hd => mem_reverse.mpr hd
    · exact fun d hd => hnotin d fun x hx => (hpre d hd x (mem_append_left _ hx)).ne'
  have hleads := h.leads
  rw [hdiffs, ← reverse_reverse mid] at hleads
  obtain ⟨text', hfold, htext', hleads', hedits⟩ := foldlM_revert_ok h.base mid.reverse h.text hleads
    fun d hd => hclear d (mem_reverse.mp hd)
  have hdelta : revertedDelta mid.reverse = revertedDelta mid := by
    rw [revertedDelta, map_reverse, sum_reverse, revertedDelta]
  rw [hdelta] at hleads' hedits
  refine ⟨⟨m.baseTextModel, text', pre ++ moved (revertedDelta mid) post⟩,
    moved (revertedDelta mid) post, ?_, ⟨h.base, htext', hleads'⟩, rfl, rfl, ?_, hedits⟩
  · simp only [TextModelDiffs.removeDiffs, hbottom]
    rw [if_pos, hfold, hremaining]
    · rfl
    · refine ⟨hnodup, fun d hd => ?_⟩
      rw [hdiffs]
      exact mem_append_right _ (mem_append_left _ (mem_reverse.mp hd))
  · refine ⟨haround.before, fun d hd => absurd hd not_mem_nil, fun d hd => ?_⟩
    obtain ⟨x, hx, rfl⟩ := mem_map.mp hd
    exact haround.behind x hx

open TextModelDiffs in
theorem foldlM_before {edit : LineRangeEdit} (pre : List DetailedLineRangeMapping) (delta : Int)
    (newDiffs : List DetailedLineRangeMapping)
    (h : ∀ d ∈ pre, d.inputRange.endLineNumberExclusive < edit.range.startLineNumber) :
    pre.foldlM (Insertion.step edit) ⟨false, delta, newDiffs⟩ =
      .ok ⟨false, delta - revertedDelta pre, newDiffs ++ pre⟩ := by
  induction pre generalizing delta newDiffs with
  | nil =>
    rw [revertedDelta, map_nil, sum_nil, sub_zero, append_nil]
    rfl
  | cons d ds ih =>
    have hd := h d mem_cons_self
    have hle := edit.range.le
    have hle' := d.inputRange.le
    have htouch : d.inputRange.intersectsOrTouches edit.range = false := by
      rw [LineRange.intersectsOrTouches, Bool.and_eq_false_iff, decide_eq_false_iff_not, decide_eq_false_iff_not]
      omega
    have hafter : d.inputRange.isAfter edit.range = false := by
      rw [LineRange.isAfter, decide_eq_false_iff_not]
      omega
    rw [foldlM_cons, Insertion.step, htouch, hafter]
    simp only [Bool.false_eq_true, if_false]
    refine (ih _ _ fun x hx => h x (mem_cons_of_mem d hx)).trans ?_
    rw [append_assoc, singleton_append, revertedDelta, revertedDelta, map_cons, sum_cons]
    congr 2
    omega

open TextModelDiffs in
theorem foldlM_behind {edit : LineRangeEdit} (post : List DetailedLineRangeMapping) (delta : Int)
    (newDiffs : List DetailedLineRangeMapping)
    (h : ∀ d ∈ post, edit.range.endLineNumberExclusive < d.inputRange.startLineNumber) :
    post.foldlM (Insertion.step edit) ⟨true, delta, newDiffs⟩ =
      .ok ⟨true, delta, newDiffs ++ moved (edit.newLines.length - edit.range.length) post⟩ := by
  induction post generalizing newDiffs with
  | nil =>
    rw [moved, map_nil, append_nil]
    rfl
  | cons d ds ih =>
    have hd := h d mem_cons_self
    have htouch : d.inputRange.intersectsOrTouches edit.range = false := by
      rw [LineRange.intersectsOrTouches, Bool.and_eq_false_iff, decide_eq_false_iff_not, decide_eq_false_iff_not]
      omega
    have hafter : d.inputRange.isAfter edit.range = true := by
      rw [LineRange.isAfter, decide_eq_true_iff]
      omega
    rw [foldlM_cons, Insertion.step, htouch, hafter]
    simp only [Bool.false_eq_true, if_false, if_true, Insertion.pushEdit]
    refine (ih _ fun x hx => h x (mem_cons_of_mem d hx)).trans ?_
    rw [append_assoc, singleton_append]
    rfl

open TextModelDiffs in
theorem foldlM_step {edit : LineRangeEdit} {pre post : List DetailedLineRangeMapping}
    (h : Around edit.range pre [] post) :
    ∃ s, (pre ++ post).foldlM (Insertion.step edit) ⟨false, 0, []⟩ = .ok s ∧
      (s.pushEdit edit).delta = -revertedDelta pre ∧
      (s.pushEdit edit).newDiffs =
        pre ++ (Insertion.editMapping edit).addOutputLineDelta (-revertedDelta pre) ::
          moved (edit.newLines.length - edit.range.length) post := by
  rw [foldlM_append, foldlM_before pre 0 [] h.before, nil_append, zero_sub]
  cases post with
  | nil => exact ⟨_, rfl, rfl, rfl⟩
  | cons d ds =>
    obtain ⟨hd, hds⟩ := forall_mem_cons.mp h.behind
    have htouch : d.inputRange.intersectsOrTouches edit.range = false :=
      h.not_touching d (mem_append_right _ mem_cons_self)
    have hafter : d.inputRange.isAfter edit.range = true := by
      rw [LineRange.isAfter, decide_eq_true_iff]
      omega
    refine ⟨⟨true, -revertedDelta pre, pre ++
      (Insertion.editMapping edit).addOutputLineDelta (-revertedDelta pre) ::
        moved (edit.newLines.length - edit.range.length) (d :: ds)⟩, ?_, rfl, rfl⟩
    change (d :: ds).foldlM (Insertion.step edit) _ = _
    rw [foldlM_cons, Insertion.step, htouch, hafter]
    simp only [Bool.false_eq_true, if_false, if_true, Insertion.pushEdit]
    refine (foldlM_behind ds _ _ hds).trans ?_
    simp [moved]

theorem deltaAfter_eq {d : Int} {diffs : List DetailedLineRangeMapping}
    (h : Numbered d (hunksOf diffs)) : deltaAfter d (hunksOf diffs) = d - revertedDelta diffs := by
  induction diffs generalizing d with
  | nil => exact (sub_zero d).symm
  | cons x xs ih =>
    obtain ⟨hstart, -, -, hrest⟩ := h
    rw [hunksOf_cons, deltaAfter_cons, ih hrest, revertedDelta, revertedDelta, map_cons, sum_cons]
    simp only [LineRangeMapping.hunk, LineRange.length] at hstart ⊢
    omega

open TextModelDiffs in
theorem applyEdit_ok {m : TextModelDiffs} (h : UpToDate m) {edit : LineRangeEdit}
    {pre post : List DetailedLineRangeMapping} (hdiffs : m.diffs = pre ++ post)
    (haround : Around edit.range pre [] post)
    (hin : 1 ≤ edit.range.startLineNumber ∧ edit.range.endLineNumberExclusive ≤ m.baseTextModel.length + 1)
    (hlines : ∀ line ∈ edit.newLines, NoLineBreak line)
    (hsome : edit.range.startLineNumber = 1 →
      edit.range.endLineNumberExclusive = m.baseTextModel.length + 1 → edit.newLines ≠ [])
    (hclear : edit.range.IsClear m.baseTextModel) :
    ∃ m' d delta, m.applyEditRelativeToOriginal edit = .ok m' ∧ UpToDate m' ∧
      m'.baseTextModel = m.baseTextModel ∧ m'.diffs = pre ++ d :: moved delta post ∧
      d.inputRange = edit.range ∧
      editsOf m'.diffs m'.textModel =
        editsOf pre m.textModel ++ edit :: editsOf post m.textModel := by
  obtain ⟨s, hfold, hdelta, hnew⟩ := foldlM_step haround
  have haligned := h.leads.aligned
  have hapart := h.leads.apart
  rw [hdiffs, hunksOf_append] at haligned hapart
  obtain ⟨hnumbered, -⟩ := Numbered.append.mp haligned.numbered
  have hδ : deltaAfter 0 (hunksOf pre) = -revertedDelta pre := by
    rw [sub_self] at hnumbered
    rw [deltaAfter_eq hnumbered, zero_sub]
  have hle := edit.range.le
  have hbefore : ∀ x ∈ hunksOf pre, x.stop < edit.range.startLineNumber := by
    intro x hx
    obtain ⟨d, hd, rfl⟩ := mem_map.mp hx
    exact haround.before d hd
  have hbehind : ∀ x ∈ hunksOf post, edit.range.endLineNumberExclusive < x.start := by
    intro x hx
    obtain ⟨d, hd, rfl⟩ := mem_map.mp hx
    exact haround.behind d hd
  have hplaced : Placed m.baseTextModel m.textModel edit.range (edit.range.delta (-revertedDelta pre)) := by
    refine @placed_of_aligned _ _ (hunksOf pre) [] (hunksOf post) _ _ haligned hin hbefore
      (fun x hx => absurd hx not_mem_nil) hbehind ?_ ?_
    · rw [hδ, LineRange.startLineNumber_delta]
    · rw [append_nil, hδ, LineRange.endLineNumberExclusive_delta]
  obtain ⟨happly, htext'⟩ := hplaced.applyEdits
    (e := ⟨edit.range.delta (-revertedDelta pre), edit.newLines⟩) h.text hlines hsome hclear
  have hinsert := haligned.insert edit.newLines hin.1 hle (by omega) (fun x hx => (hbefore x hx).le)
    fun x hx => (hbehind x hx).le
  rw [sub_self, hδ] at hinsert
  have hfront := haligned.front hin.1 (by omega) (fun x hx => (hbefore x hx).le) fun x hx => hle.trans (hbehind x hx).le
  obtain ⟨-, -, hback⟩ := haligned.reach (b := edit.range.endLineNumberExclusive) (by omega)
    (by omega) (fun x hx => (hbefore x hx).le.trans hle) fun x hx => (hbehind x hx).le
  rw [sub_self, hδ] at hfront hback
  obtain ⟨hout1, hout2⟩ := hplaced.inText
  rw [LineRange.startLineNumber_delta] at hout1
  rw [LineRange.endLineNumberExclusive_delta] at hout2
  have hedits := @editsOf_apply pre post m.textModel ⟨edit.range.delta (-revertedDelta pre), edit.newLines⟩
    hout1 hout2
    (fun x hx => by
      have hx' := ((hfront.inside x.hunk (mem_map_of_mem hx)).2).2.2
      rw [length_take] at hx'
      simp only [LineRangeMapping.hunk, LineRange.startLineNumber_delta] at hx' ⊢
      omega)
    fun x hx => (hback.inside x.hunk (mem_map_of_mem hx)).2.1
  have hlength : (edit.range.delta (-revertedDelta pre)).length = edit.range.length := by
    simp only [LineRange.length, LineRange.startLineNumber_delta, LineRange.endLineNumberExclusive_delta]
    omega
  rw [hlength, editsOf_append, editsOf_append] at hedits
  obtain ⟨hedits1, hedits2⟩ := append_inj hedits (by rw [length_editsOf, length_editsOf])
  have hhunk : ((Insertion.editMapping edit).addOutputLineDelta
      (-revertedDelta pre)).toLineRangeMapping.hunk =
        ⟨edit.range.startLineNumber, edit.range.endLineNumberExclusive,
          edit.range.startLineNumber + -revertedDelta pre,
          edit.range.startLineNumber + -revertedDelta pre + edit.newLines.length⟩ :=
    congrArg (Hunk.mk _ _ _) (add_right_comm _ _ _)
  refine ⟨⟨m.baseTextModel, LineRangeEdit.apply ⟨edit.range.delta (-revertedDelta pre), edit.newLines⟩
      m.textModel, pre ++ (Insertion.editMapping edit).addOutputLineDelta (-revertedDelta pre) ::
        moved (edit.newLines.length - edit.range.length) post⟩, _, _, ?_,
    ⟨h.base, htext', ⟨?_, ?_⟩⟩, rfl, rfl, rfl, ?_⟩
  · rw [TextModelDiffs.applyEditRelativeToOriginal, hdiffs, hfold]
    simp only [bind, Except.bind]
    rw [hdelta, hnew, happly]
  · rw [hunksOf_append, hunksOf_cons, hunksOf_moved, hhunk]
    exact hinsert
  · obtain ⟨hapre, hapost, hacross⟩ := pairwise_append.mp hapart
    rw [hunksOf_append, hunksOf_cons, hunksOf_moved, hhunk]
    refine pairwise_append.mpr ⟨hapre, pairwise_cons.mpr ⟨fun y hy => ?_, ?_⟩,
      fun x hx => forall_mem_cons.mpr ⟨hbefore x hx, fun y hy => ?_⟩⟩
    · obtain ⟨z, hz, rfl⟩ := mem_map.mp hy
      exact hbehind z hz
    · exact pairwise_map.mpr hapost
    · obtain ⟨z, hz, rfl⟩ := mem_map.mp hy
      exact hacross x hx z hz
  · rw [editsOf_append, hedits1]
    refine congrArg (editsOf pre m.textModel ++ ·) (cons_eq_cons.mpr ⟨?_, hedits2⟩)
    refine congrArg (LineRangeEdit.mk edit.range) ?_
    exact textIn_apply hout1 (by rw [LineRange.endLineNumberExclusive_delta]; exact hout2)
      (congrArg Hunk.newStart hhunk) (congrArg Hunk.newStop hhunk)

end Gavea.MergeEditor
