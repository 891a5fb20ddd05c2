import Gavea.ViewLayout.DeletedRange

namespace Gavea.ViewLayout

open Gavea.Base LineHeightsManager List

variable {defaultLineHeight : ℚ} {lines : NaiveLines} {l : List CustomLine}
  {fromLineNumber toLineNumber : Int}

theorem startIndexOfInsertion_spec (h : SortedLines l) (n : Int) :
    (∀ e ∈ l.take (startIndexOfInsertion l n), e.lineNumber < n) ∧
      ∀ e ∈ l.drop (startIndexOfInsertion l n), n ≤ e.lineNumber := by
  unfold startIndexOfInsertion
  have hfound := binarySearch_found h n
  generalize binarySearchOverOrderedCustomLinesArray l n = r at hfound
  cases hfound with
  | here i hi hline =>
    obtain ⟨p, -, hp, hlow, hhigh⟩ := firstOnLine_spec h hi hline
    simp only [Int.natCast_nonneg, if_true, Int.toNat_natCast, hp]
    exact ⟨hlow, hhigh⟩
  | before p hp hlow hhigh =>
    simp only [show ¬ (0 : Int) ≤ -(p + 1) by omega, if_false, show (-(-((p : Int) + 1) + 1)).toNat = p by omega]
    exact ⟨hlow, fun e he => (hhigh e he).le⟩

theorem mem_decorationsOn {n : Int} {id : String} :
    id ∈ decorationsOn n l ↔ ∃ e ∈ l, e.lineNumber = n ∧ e.decorationId = id := by
  rw [decorationsOn, mem_reverse, mem_dedup, mem_reverse, mem_map]
  simp only [mem_filter, decide_eq_true_eq, and_assoc]

namespace NaiveLines

/-- Lines behind move down, and the new ones are not covered. -/
def spread (lines : NaiveLines) (fromLineNumber toLineNumber : Int) : NaiveLines := fun n =>
  if n < fromLineNumber then lines n
  else if n ≤ toLineNumber then ∅
  else lines (n - (toLineNumber - fromLineNumber + 1))

theorem spread_of_lt {n : Int} (h : n < fromLineNumber) :
    lines.spread fromLineNumber toLineNumber n = lines n := if_pos h

theorem spread_of_mem {n : Int} (h : fromLineNumber ≤ n) (h' : n ≤ toLineNumber) :
    lines.spread fromLineNumber toLineNumber n = ∅ := by
  rw [spread, if_neg (by omega), if_pos h']

theorem spread_of_gt {n : Int} (hle : fromLineNumber ≤ toLineNumber) (h : toLineNumber < n) :
    lines.spread fromLineNumber toLineNumber n =
      lines (n - (toLineNumber - fromLineNumber + 1)) := by
  rw [spread, if_neg (by omega), if_neg (by omega)]

theorem accumulated_spread_front {n : Int} (h : n < fromLineNumber) :
    (lines.spread fromLineNumber toLineNumber).accumulated defaultLineHeight n =
      lines.accumulated defaultLineHeight n :=
  accumulated_congr fun _ _ hk => height_congr (spread_of_lt (by omega))

theorem accumulated_spread_back (hfrom : 1 ≤ fromLineNumber) (hle : fromLineNumber ≤ toLineNumber)
    {n : Int} (h : fromLineNumber - 1 ≤ n) :
    (lines.spread fromLineNumber toLineNumber).accumulated defaultLineHeight
        (n + (toLineNumber - fromLineNumber + 1)) =
      lines.accumulated defaultLineHeight n +
        ((toLineNumber - fromLineNumber + 1 : Int) : ℚ) * defaultLineHeight := by
  have hnew := @accumulated_of_eq_empty defaultLineHeight (lines.spread fromLineNumber toLineNumber)
    (fromLineNumber - 1) (by omega) (toLineNumber - fromLineNumber + 1).toNat fun j _ =>
      spread_of_mem (by omega) (by omega)
  have hshift := @accumulated_shift defaultLineHeight lines
    (lines.spread fromLineNumber toLineNumber) toLineNumber (fromLineNumber - 1) (by omega)
    (by omega) (n - (fromLineNumber - 1)).toNat fun j _ => by
      refine height_congr ((spread_of_gt hle (by omega)).trans ?_)
      rw [show toLineNumber + j + 1 - (toLineNumber - fromLineNumber + 1) = fromLineNumber - 1 + j + 1 by omega]
  have hfront := @accumulated_spread_front defaultLineHeight lines fromLineNumber toLineNumber
    (fromLineNumber - 1) (by omega)
  rw [show fromLineNumber - 1 + ((toLineNumber - fromLineNumber + 1).toNat : Int) = toLineNumber by
    omega, cast_toNat (by omega), hfront] at hnew
  rw [show toLineNumber + ((n - (fromLineNumber - 1)).toNat : Int) =
      n + (toLineNumber - fromLineNumber + 1) by omega,
    show fromLineNumber - 1 + ((n - (fromLineNumber - 1)).toNat : Int) = n by omega, hnew] at hshift
  linarith

end NaiveLines

theorem tracks_shiftForward {before after : List CustomLine}
    (h : Tracks defaultLineHeight lines (before ++ after)) (hfrom : 1 ≤ fromLineNumber)
    (hle : fromLineNumber ≤ toLineNumber) (hlow : ∀ e ∈ before, e.lineNumber < fromLineNumber)
    (hhigh : ∀ e ∈ after, fromLineNumber ≤ e.lineNumber) :
    Tracks defaultLineHeight (lines.spread fromLineNumber toLineNumber)
      (before ++ after.map (shiftForward (toLineNumber - fromLineNumber + 1)
        (((toLineNumber - fromLineNumber + 1 : Int) : ℚ) * defaultLineHeight))) := by
  obtain ⟨hbefore, hafter, hbetween⟩ := pairwise_append.mp h.sorted
  have hmemAfter : ∀ {e}, e ∈ after → e ∈ before ++ after := fun he => mem_append_right _ he
  refine ⟨?_, fun i hi => ?_, ?_, fun n d => ?_, ?_, ?_⟩
  · refine pairwise_append.mpr ⟨hbefore, ?_, fun a ha r hr => ?_⟩
    · exact pairwise_map.mpr (hafter.imp fun {a b} hab => Int.add_le_add_right hab _)
    · obtain ⟨e, he, rfl⟩ := mem_map.mp hr
      have := hlow a ha
      have := hhigh e he
      show a.lineNumber ≤ e.lineNumber + (toLineNumber - fromLineNumber + 1)
      omega
  · have hindex := h.index i (by simpa using hi)
    rw [getElem_append] at hindex ⊢
    split at hindex
    · next hi' =>
        rw [dif_pos hi']
        exact hindex
    · next hi' =>
        rw [dif_neg hi', getElem_map]
        exact hindex
  · refine forall_mem_append.mpr ⟨fun e he => h.live e (mem_append_left _ he), ?_⟩
    intro r hr
    obtain ⟨e, he, rfl⟩ := mem_map.mp hr
    exact h.live e (hmemAfter he)
  · constructor
    · intro hd
      rcases lt_or_ge n fromLineNumber with hn | hn
      · rw [NaiveLines.spread_of_lt hn] at hd
        obtain ⟨e, he, hline, hd⟩ := (h.covered n d).mp hd
        rcases mem_append.mp he with he | he
        · exact ⟨e, mem_append_left _ he, hline, hd⟩
        · have := hhigh e he
          omega
      · rcases le_or_gt n toLineNumber with hn' | hn'
        · rw [NaiveLines.spread_of_mem hn hn'] at hd
          cases hd
        · rw [NaiveLines.spread_of_gt hle hn'] at hd
          obtain ⟨e, he, hline, hd⟩ := (h.covered _ d).mp hd
          rcases mem_append.mp he with he | he
          · have := hlow e he
            omega
          · refine ⟨_, mem_append_right _ (mem_map_of_mem he), ?_, hd⟩
            show e.lineNumber + (toLineNumber - fromLineNumber + 1) = n
            omega
    · rintro ⟨r, hr, rfl, rfl⟩
      rcases mem_append.mp hr with he | hr
      · rw [NaiveLines.spread_of_lt (hlow r he)]
        exact h.mem (mem_append_left _ he)
      · obtain ⟨e, he, rfl⟩ := mem_map.mp hr
        have := hhigh e he
        show _ ∈ lines.spread fromLineNumber toLineNumber (e.lineNumber + (toLineNumber - fromLineNumber + 1))
        rw [NaiveLines.spread_of_gt hle (by omega), Int.add_sub_cancel]
        exact h.mem (hmemAfter he)
  · refine forall_mem_append.mpr ⟨fun e he => ?_, fun r hr => ?_⟩
    · rw [NaiveLines.height_congr (NaiveLines.spread_of_lt (hlow e he))]
      exact h.maximum e (mem_append_left _ he)
    · obtain ⟨e, he, rfl⟩ := mem_map.mp hr
      have := hhigh e he
      have hgt : toLineNumber < e.lineNumber + (toLineNumber - fromLineNumber + 1) := by omega
      show e.maximumSpecialHeight = (lines.spread fromLineNumber toLineNumber).height
        defaultLineHeight (e.lineNumber + (toLineNumber - fromLineNumber + 1))
      rw [NaiveLines.height_congr (NaiveLines.spread_of_gt hle hgt), Int.add_sub_cancel]
      exact h.maximum e (hmemAfter he)
  · refine forall_mem_append.mpr ⟨fun e he => ?_, fun r hr => ?_⟩
    · have := hlow e he
      rw [NaiveLines.accumulated_spread_front (by omega)]
      exact h.sum e (mem_append_left _ he)
    · obtain ⟨e, he, rfl⟩ := mem_map.mp hr
      have := hhigh e he
      show e.prefixSum + _ = (lines.spread fromLineNumber toLineNumber).accumulated
        defaultLineHeight (e.lineNumber + (toLineNumber - fromLineNumber + 1) - 1)
      rw [show e.lineNumber + (toLineNumber - fromLineNumber + 1) - 1 =
        e.lineNumber - 1 + (toLineNumber - fromLineNumber + 1) by omega,
        NaiveLines.accumulated_spread_back hfrom hle (by omega), h.sum e (hmemAfter he)]

section Hull

theorem foldl_min_le_iff (decoration : List CustomLine) (n : Int) : ∀ start : Int,
    decoration.foldl (fun low e => min low e.lineNumber) start ≤ n ↔
      start ≤ n ∨ ∃ e ∈ decoration, e.lineNumber ≤ n := by
  induction decoration with
  | nil => simp
  | cons e decoration ih =>
    intro start
    rw [foldl_cons, ih, min_le_iff, exists_mem_cons_iff, or_assoc]

theorem le_foldl_max_iff (decoration : List CustomLine) (n : Int) : ∀ start : Int,
    n ≤ decoration.foldl (fun high e => max high e.lineNumber) start ↔
      n ≤ start ∨ ∃ e ∈ decoration, n ≤ e.lineNumber := by
  induction decoration with
  | nil => simp
  | cons e decoration ih =>
    intro start
    rw [foldl_cons, ih, le_max_iff, exists_mem_cons_iff, or_assoc]

theorem foldl_max_height {height : ℚ} (decoration : List CustomLine)
    (h : ∀ e ∈ decoration, e.specialHeight = height) : ∀ start : ℚ, start ≤ height →
      decoration ≠ [] →
      decoration.foldl (fun height e => max height e.specialHeight) start = height := by
  induction decoration with
  | nil => exact fun _ _ hne => absurd rfl hne
  | cons e decoration ih =>
    intro start hstart _
    rw [foldl_cons, h e mem_cons_self, max_eq_right hstart]
    cases decoration with
    | nil => rfl
    | cons e' decoration => exact ih (fun e he => h e (mem_cons_of_mem _ he)) height le_rfl (cons_ne_nil e' decoration)

theorem mem_foldl_insertOrChange (f : String → CustomLineHeightData)
    (hf : ∀ id, (f id).decorationId = id) (ids : List String) : ∀ (lines : NaiveLines) (n : Int)
    (d : String × ℚ), d ∈ ids.foldl (fun lines id => lines.insertOrChange (f id)) lines n ↔
      d.1 ∉ ids ∧ d ∈ lines n ∨
      d.1 ∈ ids ∧ ((f d.1).startLineNumber ≤ n ∧ n ≤ (f d.1).endLineNumber) ∧
        d.2 = (f d.1).lineHeight := by
  induction ids with
  | nil => simp
  | cons id ids ih =>
    intro lines n d
    obtain ⟨name, height⟩ := d
    rw [foldl_cons, ih, NaiveLines.mem_insertOrChange, hf]
    by_cases hname : name = id
    · subst hname
      by_cases hmem : name ∈ ids <;> simp [hmem]
    · by_cases hmem : name ∈ ids <;> simp [hmem, hname]

theorem foldl_doInsertOrChange (toReAdd : List CustomLineHeightData) :
    ∀ {lines : NaiveLines} {s : Staged}, Staging lines s → Indexed s.1.orderedCustomLines →
      Staging (toReAdd.foldl (fun lines data => lines.insertOrChange data) lines)
          (toReAdd.foldl (fun s data => doInsertOrChangeCustomLineHeight data s) s) ∧
        Indexed (toReAdd.foldl (fun s data => doInsertOrChangeCustomLineHeight data s) s).1.orderedCustomLines ∧
        (toReAdd.foldl (fun s data => doInsertOrChangeCustomLineHeight data s)
          s).1.defaultLineHeight = s.1.defaultLineHeight := by
  induction toReAdd with
  | nil => exact fun h hindex => ⟨h, hindex, rfl⟩
  | cons data toReAdd ih =>
    intro lines s h hindex
    obtain ⟨hstaging, hindex'⟩ := doInsertOrChange_staging h hindex data
    obtain ⟨h1, h2, h3⟩ := ih hstaging hindex'
    exact ⟨h1, h2, h3.trans rfl⟩

theorem hull_spec {m : LineHeightsManager}
    (h : Tracks m.defaultLineHeight (lines.spread fromLineNumber toLineNumber)
      m.orderedCustomLines) (hs : lines.Spread) (hfrom : 1 ≤ fromLineNumber)
    (hle : fromLineNumber ≤ toLineNumber) {id : String} {height : ℚ}
    (hbefore : (id, height) ∈ lines (fromLineNumber - 1))
    (hafter : (id, height) ∈ lines fromLineNumber) :
    (m.hull fromLineNumber id).lineHeight = height ∧
      ∀ n, (m.hull fromLineNumber id).startLineNumber ≤ n ∧
          n ≤ (m.hull fromLineNumber id).endLineNumber ↔
        (id, height) ∈ lines.linesInserted fromLineNumber toLineNumber n := by
  have hs' := hs.linesInserted hfrom hle
  have hsub : ∀ {n d}, d ∈ lines.spread fromLineNumber toLineNumber n →
      d ∈ lines.linesInserted fromLineNumber toLineNumber n := by
    intro n d hd
    rw [NaiveLines.mem_linesInserted hle]
    rcases lt_or_ge n fromLineNumber with hn | hn
    · rw [NaiveLines.spread_of_lt hn] at hd
      exact Or.inl ⟨hn, hd⟩
    · rcases le_or_gt n toLineNumber with hn' | hn'
      · rw [NaiveLines.spread_of_mem hn hn'] at hd
        cases hd
      · rw [NaiveLines.spread_of_gt hle hn'] at hd
        exact Or.inr (Or.inr ⟨hn', hd⟩)
  have hcustom : ∀ e ∈ m.customLinesOf id, e ∈ m.orderedCustomLines ∧ e.decoration = (id, height) := by
    intro e he
    obtain ⟨he, hid⟩ := mem_filter.mp he
    obtain ⟨hid, -⟩ := of_decide_eq_true hid
    refine ⟨he, Prod.ext hid ?_⟩
    have hmem := hsub (h.mem he)
    refine hs'.single e.lineNumber (fromLineNumber - 1) id e.specialHeight height (hid ▸ hmem) ?_
    exact (NaiveLines.mem_linesInserted hle).mpr (Or.inl ⟨by omega, hbefore⟩)
  have hexists : ∀ k, (id, height) ∈ lines.spread fromLineNumber toLineNumber k →
      ∃ e ∈ m.customLinesOf id, e.lineNumber = k := by
    intro k hk
    obtain ⟨e, he, hline, hd⟩ := (h.covered k _).mp hk
    refine ⟨e, mem_filter.mpr ⟨he, decide_eq_true ⟨congrArg Prod.fst hd, h.live e he⟩⟩, hline⟩
  obtain ⟨low, hlow, hlowLine⟩ := hexists (fromLineNumber - 1) (by
    rwa [NaiveLines.spread_of_lt (by omega)])
  obtain ⟨high, hhigh, hhighLine⟩ := hexists (toLineNumber + 1) (by
    rwa [NaiveLines.spread_of_gt hle (by omega),
      show toLineNumber + 1 - (toLineNumber - fromLineNumber + 1) = fromLineNumber by omega])
  refine ⟨?_, fun n => ?_⟩
  · exact foldl_max_height (m.customLinesOf id) (fun e he => congrArg Prod.snd (hcustom e he).2) 0
      (hs.positive _ _ hbefore).2 (ne_nil_of_mem hlow)
  · have hmem : ∀ e ∈ m.customLinesOf id,
        (id, height) ∈ lines.linesInserted fromLineNumber toLineNumber e.lineNumber := by
      intro e he
      obtain ⟨he, hd⟩ := hcustom e he
      exact hd ▸ hsub (h.mem he)
    unfold hull
    simp only
    rw [foldl_min_le_iff, le_foldl_max_iff]
    constructor
    · rintro ⟨hstart, hend⟩
      obtain ⟨a, ha, haLine⟩ : ∃ e ∈ m.customLinesOf id, e.lineNumber ≤ n := by
        rcases hstart with hstart | hstart
        · exact ⟨low, hlow, by omega⟩
        · exact hstart
      obtain ⟨b, hb, hbLine⟩ : ∃ e ∈ m.customLinesOf id, n ≤ e.lineNumber := by
        rcases hend with hend | hend
        · exact ⟨high, hhigh, by omega⟩
        · exact hend
      exact hs'.convex a.lineNumber n b.lineNumber _ haLine hbLine (hmem a ha) (hmem b hb)
    · intro hn
      rcases (NaiveLines.mem_linesInserted hle).mp hn with ⟨hlt, hd⟩ | ⟨hbetween, -⟩ | ⟨hgt, hd⟩
      · obtain ⟨e, he, hline⟩ := hexists n (by rwa [NaiveLines.spread_of_lt hlt])
        exact ⟨Or.inr ⟨e, he, hline.le⟩, Or.inr ⟨e, he, hline.ge⟩⟩
      · exact ⟨Or.inl hbetween.1, Or.inr ⟨high, hhigh, by omega⟩⟩
      · obtain ⟨e, he, hline⟩ := hexists n (by rwa [NaiveLines.spread_of_gt hle hgt])
        exact ⟨Or.inr ⟨e, he, hline.le⟩, Or.inr ⟨e, he, hline.ge⟩⟩

end Hull

theorem Tracks.staging {m : LineHeightsManager}
    (h : Tracks m.defaultLineHeight lines m.orderedCustomLines) (hinvalid : m.invalidIndex = none) :
    Staging lines (m, []) := by
  refine ⟨h.sorted, ⟨lines, ?_⟩, fun n d => ?_⟩
  · simp only [hinvalid]
    exact h
  · rw [h.covered, append_nil]
    exact exists_congr fun e => and_congr_right fun he => (and_iff_right (h.live e he)).symm

theorem doLinesInserted_staging {m : LineHeightsManager}
    (h : Tracks m.defaultLineHeight lines m.orderedCustomLines) (hinvalid : m.invalidIndex = none)
    (hs : lines.Spread) (hfrom : 1 ≤ fromLineNumber) (hle : fromLineNumber ≤ toLineNumber) :
    Staging (lines.linesInserted fromLineNumber toLineNumber)
        (doLinesInserted fromLineNumber toLineNumber (m, [])) ∧
      Indexed (doLinesInserted fromLineNumber toLineNumber (m, [])).1.orderedCustomLines ∧
      (doLinesInserted fromLineNumber toLineNumber (m, [])).1.defaultLineHeight =
        m.defaultLineHeight := by
  obtain ⟨hlow, hhigh⟩ := startIndexOfInsertion_spec h.sorted fromLineNumber
  unfold doLinesInserted
  simp only
  generalize startIndexOfInsertion m.orderedCustomLines fromLineNumber = start at *
  have hshifted := h
  rw [← take_append_drop start m.orderedCustomLines] at hshifted
  set shifted : LineHeightsManager := { m with
    orderedCustomLines := m.orderedCustomLines.take start ++
      (m.orderedCustomLines.drop start).map (shiftForward (toLineNumber - fromLineNumber + 1)
        (((toLineNumber - fromLineNumber + 1 : Int) : ℚ) * m.defaultLineHeight)) }
  have htracks : Tracks shifted.defaultLineHeight (lines.spread fromLineNumber toLineNumber)
      shifted.orderedCustomLines := tracks_shiftForward hshifted hfrom hle hlow hhigh
  have hgaps : ∀ id, id ∈ (decorationsOn fromLineNumber (m.orderedCustomLines.drop start)).filter
        (· ∈ decorationsOn (fromLineNumber - 1) (m.orderedCustomLines.take start)) ↔
      ∃ height, (id, height) ∈ lines (fromLineNumber - 1) ∧ (id, height) ∈ lines fromLineNumber := by
    intro id
    rw [mem_filter, decide_eq_true_eq, mem_decorationsOn, mem_decorationsOn]
    constructor
    · rintro ⟨⟨e, he, hline, rfl⟩, e', he', hline', hid⟩
      have hmem := h.mem (mem_of_mem_drop he)
      have hmem' := h.mem (mem_of_mem_take he')
      rw [hline] at hmem
      rw [hline', CustomLine.decoration, hid] at hmem'
      refine ⟨e.specialHeight, ?_, hmem⟩
      rwa [hs.single _ _ _ _ _ hmem hmem']
    · rintro ⟨height, hbefore, hafter⟩
      obtain ⟨e', he', hline', hd'⟩ := (hshifted.covered _ _).mp hbefore
      obtain ⟨e, he, hline, hd⟩ := (hshifted.covered _ _).mp hafter
      refine ⟨⟨e, ?_, hline, congrArg Prod.fst hd⟩, e', ?_, hline', congrArg Prod.fst hd'⟩
      · rcases mem_append.mp he with he | he
        · have := hlow e he
          omega
        · exact he
      · rcases mem_append.mp he' with he' | he'
        · exact he'
        · have := hhigh e' he'
          omega
  generalize (decorationsOn fromLineNumber (m.orderedCustomLines.drop start)).filter
    (· ∈ decorationsOn (fromLineNumber - 1) (m.orderedCustomLines.take start)) = gaps at hgaps ⊢
  have hstaging : Staging (lines.spread fromLineNumber toLineNumber) (shifted, []) := htracks.staging hinvalid
  have hlines : (gaps.map (shifted.hull fromLineNumber)).foldl
      (fun lines data => lines.insertOrChange data) (lines.spread fromLineNumber toLineNumber) =
        lines.linesInserted fromLineNumber toLineNumber := by
    rw [foldl_map]
    funext n
    ext ⟨id, height⟩
    rw [mem_foldl_insertOrChange (shifted.hull fromLineNumber) (fun _ => rfl)]
    simp only
    by_cases hid : id ∈ gaps
    · obtain ⟨height', hbefore, hafter⟩ := (hgaps id).mp hid
      obtain ⟨hheight, hrange⟩ := hull_spec htracks hs hfrom hle hbefore hafter
      simp only [hid, not_true_eq_false, false_and, true_and, false_or]
      rw [hrange, hheight]
      constructor
      · rintro ⟨hd, rfl⟩
        exact hd
      · intro hd
        obtain rfl : height = height' := (hs.linesInserted hfrom hle).single n (fromLineNumber - 1)
          id height height' hd ((NaiveLines.mem_linesInserted hle).mpr (Or.inl ⟨by omega, hbefore⟩))
        exact ⟨hd, rfl⟩
    · simp only [hid, not_false_eq_true, true_and, false_and, or_false]
      rw [NaiveLines.mem_linesInserted hle]
      rcases lt_or_ge n fromLineNumber with hn | hn
      · have hn' : ¬ fromLineNumber ≤ n ∧ ¬ toLineNumber < n := by omega
        rw [NaiveLines.spread_of_lt hn]
        simp [hn, hn'.1, hn'.2]
      · rcases le_or_gt n toLineNumber with hn' | hn'
        · rw [NaiveLines.spread_of_mem hn hn']
          have hnone : ¬ ((id, height) ∈ lines (fromLineNumber - 1) ∧
              (id, height) ∈ lines fromLineNumber) := fun hboth => hid ((hgaps id).mpr ⟨height, hboth⟩)
          have hn'' : ¬ n < fromLineNumber ∧ ¬ toLineNumber < n := by omega
          simp [hn''.1, hn''.2, hnone]
        · have hn'' : ¬ n < fromLineNumber ∧ ¬ n ≤ toLineNumber := by omega
          rw [NaiveLines.spread_of_gt hle hn']
          simp [hn', hn''.1, hn''.2]
  rw [← hlines]
  exact foldl_doInsertOrChange _ hstaging htracks.index

end Gavea.ViewLayout
