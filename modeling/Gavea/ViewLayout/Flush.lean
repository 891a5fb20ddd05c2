import Gavea.ViewLayout.CustomLines

namespace Gavea.ViewLayout

open Gavea.Base LineHeightsManager List

structure Kept (defaultLineHeight : ℚ) (base : NaiveLines) (l : List CustomLine) : Prop where
  sorted : SortedLines l
  index : ∀ i (h : i < l.length), l[i].index = i
  live : ∀ e ∈ l, e.deleted = false
  maximum : ∀ e ∈ l, e.maximumSpecialHeight = base.height defaultLineHeight e.lineNumber
  sum : ∀ e ∈ l, e.prefixSum = base.accumulated defaultLineHeight (e.lineNumber - 1)
  covered : ∀ e ∈ l, ∀ n < e.lineNumber, ∀ d, d ∈ base n ↔ ∃ e' ∈ l, e'.lineNumber = n ∧ e'.decoration = d

/-- In front of the invalid index nothing has changed since a line array was tracked. -/
def KeptLines (defaultLineHeight : ℚ) (base : NaiveLines) (l : List CustomLine) :
    Option Int → Prop
  | none => Tracks defaultLineHeight base l
  | some k => 0 ≤ k ∧ k ≤ l.length ∧ Kept defaultLineHeight base (l.take k.toNat)

structure Staging (lines : NaiveLines) (s : Staged) : Prop where
  sorted : SortedLines s.1.orderedCustomLines
  kept : ∃ base : NaiveLines, KeptLines s.1.defaultLineHeight base s.1.orderedCustomLines s.1.invalidIndex
  covered : ∀ n d, d ∈ lines n ↔
    ∃ e ∈ s.1.orderedCustomLines ++ s.2, e.deleted = false ∧ e.lineNumber = n ∧ e.decoration = d

def leftHeight (l : List CustomLine) (n : Int) : Option ℚ :=
  ((l.filter fun e => e.deleted = false ∧ e.lineNumber = n).map (·.specialHeight)).max?

def FlushKeepsHeight (s : Staged) : Prop :=
  let m := s.2.foldl insertStaged s.1
  ∀ k ∈ m.invalidIndex, ∀ e ∈ (m.orderedCustomLines.take k.toNat).getLast?,
    leftHeight m.orderedCustomLines e.lineNumber = some e.maximumSpecialHeight

variable {defaultLineHeight : ℚ} {base lines : NaiveLines} {l : List CustomLine}

theorem Tracks.kept (h : Tracks defaultLineHeight base l) : Kept defaultLineHeight base l :=
  ⟨h.sorted, h.index, h.live, h.maximum, h.sum, fun _ _ n _ d => h.covered n d⟩

theorem Kept.take (h : Kept defaultLineHeight base l) (k : Nat) :
    Kept defaultLineHeight base (l.take k) where
  sorted := h.sorted.sublist (take_sublist k l)
  index i hi := by
    rw [getElem_take]
    exact h.index i _
  live e he := h.live e (mem_of_mem_take he)
  maximum e he := h.maximum e (mem_of_mem_take he)
  sum e he := h.sum e (mem_of_mem_take he)
  covered e he n hn d := by
    rw [h.covered e (mem_of_mem_take he) n hn d]
    constructor
    · rintro ⟨e', he', hline, hd⟩
      refine ⟨e', ?_, hline, hd⟩
      obtain ⟨j, hj, rfl⟩ := mem_take_iff_getElem.mp he
      obtain ⟨i, hi, rfl⟩ := mem_iff_getElem.mp he'
      refine mem_take_iff_getElem.mpr ⟨i, ?_, rfl⟩
      by_contra hge
      have := h.sorted.lineNumber_le (show j ≤ i by omega) hi
      omega
    · rintro ⟨e', he', hline, hd⟩
      exact ⟨e', mem_of_mem_take he', hline, hd⟩

theorem KeptLines.take {k : Option Int} (h : KeptLines defaultLineHeight base l k) {i : Int}
    (hi : 0 ≤ i) {l' : List CustomLine} (hlen : i ≤ l'.length) (hl' : l'.take i.toNat = l.take i.toNat) :
    KeptLines defaultLineHeight base l' (minIndex k i) := by
  cases k with
  | none =>
    refine ⟨hi, hlen, ?_⟩
    rw [hl']
    exact (Tracks.kept h).take i.toNat
  | some k =>
    obtain ⟨hk, -, hkept⟩ := h
    refine ⟨by omega, by omega, ?_⟩
    have hmin : (min k i).toNat = min k.toNat i.toNat := by omega
    have htake : l'.take (min k i).toNat = (l.take k.toNat).take i.toNat := by
      rw [hmin, ← take_take, hl', take_take, take_take, Nat.min_comm]
    rw [htake]
    exact hkept.take i.toNat

theorem insertionIndex_spec (h : SortedLines l) (n : Int) :
    ∃ p : Nat, p ≤ l.length ∧
      (if 0 ≤ binarySearchOverOrderedCustomLinesArray l n
        then binarySearchOverOrderedCustomLinesArray l n
        else -(binarySearchOverOrderedCustomLinesArray l n + 1)).toNat = p ∧
      (∀ e ∈ l.take p, e.lineNumber ≤ n) ∧ ∀ e ∈ l.drop p, n ≤ e.lineNumber := by
  have hfound := binarySearch_found h n
  generalize binarySearchOverOrderedCustomLinesArray l n = r at hfound ⊢
  cases hfound with
  | here i hi heq =>
    refine ⟨i, hi.le, by omega, fun e he => ?_, fun e he => ?_⟩
    · obtain ⟨j, hj, rfl⟩ := mem_take_iff_getElem.mp he
      rw [← heq]
      exact h.lineNumber_le (by omega) hi
    · obtain ⟨j, hj, rfl⟩ := mem_drop_iff_getElem.mp he
      rw [← heq]
      exact h.lineNumber_le (Nat.le_add_right i j) (by omega)
  | before p hp hlt hgt => exact ⟨p, hp, by omega, fun e he => (hlt e he).le, fun e he => (hgt e he).le⟩

theorem insertStaged_defaultLineHeight (m : LineHeightsManager) (e : CustomLine) :
    (insertStaged m e).defaultLineHeight = m.defaultLineHeight := by
  unfold insertStaged
  split <;> rfl

theorem insertStaged_staging {m : LineHeightsManager} {e : CustomLine} {staged : List CustomLine}
    (h : Staging lines (m, e :: staged)) : Staging lines (insertStaged m e, staged) := by
  obtain ⟨hsorted, ⟨base, hkept⟩, hcovered⟩ := h
  simp only at hsorted hkept hcovered
  unfold insertStaged
  by_cases hdeleted : e.deleted = true
  · rw [if_pos hdeleted]
    refine ⟨hsorted, ⟨base, hkept⟩, fun n d => (hcovered n d).trans ?_⟩
    constructor
    · rintro ⟨e', he', hlive, hrest⟩
      refine ⟨e', ?_, hlive, hrest⟩
      rcases mem_append.mp he' with he' | he'
      · exact mem_append_left _ he'
      · rcases mem_cons.mp he' with rfl | he'
        · rw [hdeleted] at hlive
          cases hlive
        · exact mem_append_right _ he'
    · rintro ⟨e', he', hrest⟩
      refine ⟨e', ?_, hrest⟩
      rcases mem_append.mp he' with he' | he'
      · exact mem_append_left _ he'
      · exact mem_append_right _ (mem_cons_of_mem e he')
  · rw [if_neg hdeleted]
    obtain ⟨p, hp, hindex, hlow, hhigh⟩ := insertionIndex_spec hsorted e.lineNumber
    simp only [hindex]
    refine ⟨?_, ⟨base, ?_⟩, fun n d => (hcovered n d).trans ?_⟩
    · have happend := pairwise_append.mp ((take_append_drop p m.orderedCustomLines).symm ▸ hsorted)
      refine pairwise_append.mpr ⟨happend.1, pairwise_cons.mpr ⟨hhigh, happend.2.1⟩, ?_⟩
      intro a ha b hb
      rcases mem_cons.mp hb with rfl | hb
      · exact hlow a ha
      · exact happend.2.2 a ha b hb
    · refine hkept.take (Int.natCast_nonneg p) ?_ ?_
      · rw [length_append, length_take, length_cons]
        omega
      rw [Int.toNat_natCast, take_append_of_le_length (by rw [length_take]; omega), take_take, Nat.min_self]
    · have hmem : ∀ e', e' ∈ m.orderedCustomLines ++ e :: staged ↔
          e' ∈ (m.orderedCustomLines.take p ++ e :: m.orderedCustomLines.drop p) ++ staged := by
        intro e'
        conv_lhs => rw [← take_append_drop p m.orderedCustomLines]
        simp only [mem_append, mem_cons]
        tauto
      simp only [hmem]

theorem foldl_insertStaged_staging (staged : List CustomLine) : ∀ {m : LineHeightsManager},
    Staging lines (m, staged) → Staging lines (staged.foldl insertStaged m, []) ∧
      (staged.foldl insertStaged m).defaultLineHeight = m.defaultLineHeight := by
  induction staged with
  | nil => exact fun h => ⟨h, rfl⟩
  | cons e staged ih =>
    intro m h
    obtain ⟨hstaging, hdefault⟩ := ih (insertStaged_staging h)
    exact ⟨hstaging, hdefault.trans (insertStaged_defaultLineHeight m e)⟩

theorem maximumFrom_spec (n : Int) (l : List CustomLine) : ∀ (height : ℚ), SortedLines l →
    (∀ e ∈ l, n ≤ e.lineNumber) →
    height ≤ maximumFrom n height l ∧
      (∀ e ∈ l, e.deleted = false → e.lineNumber = n → e.specialHeight ≤ maximumFrom n height l) ∧
      (maximumFrom n height l = height ∨ ∃ e ∈ l, e.deleted = false ∧ e.lineNumber = n ∧
        maximumFrom n height l = e.specialHeight) := by
  induction l with
  | nil => exact fun height _ _ => ⟨le_rfl, fun e he => absurd he not_mem_nil, Or.inl rfl⟩
  | cons e l ih =>
    intro height hsorted hge
    obtain ⟨hhead, htail⟩ := pairwise_cons.mp hsorted
    have hge' : ∀ e' ∈ l, n ≤ e'.lineNumber := fun e' he' => hge e' (mem_cons_of_mem e he')
    rw [maximumFrom]
    cases hdeleted : e.deleted with
    | true =>
      rw [if_pos rfl]
      obtain ⟨h1, h2, h3⟩ := ih height htail hge'
      refine ⟨h1, fun e' he' hlive hline => ?_, h3.imp_right ?_⟩
      · rcases mem_cons.mp he' with rfl | he'
        · rw [hdeleted] at hlive
          cases hlive
        · exact h2 e' he' hlive hline
      · rintro ⟨e', he', hrest⟩
        exact ⟨e', mem_cons_of_mem e he', hrest⟩
    | false =>
      rw [if_neg Bool.false_ne_true]
      by_cases hline : e.lineNumber = n
      · rw [if_neg (not_not.mpr hline)]
        obtain ⟨h1, h2, h3⟩ := ih (max height e.specialHeight) htail hge'
        refine ⟨(le_max_left _ _).trans h1, fun e' he' hlive hline' => ?_, ?_⟩
        · rcases mem_cons.mp he' with rfl | he'
          · exact (le_max_right _ _).trans h1
          · exact h2 e' he' hlive hline'
        · rcases h3 with h3 | ⟨e', he', hrest⟩
          · rcases max_choice height e.specialHeight with hmax | hmax
            · exact Or.inl (h3.trans hmax)
            · exact Or.inr ⟨e, mem_cons_self, hdeleted, hline, h3.trans hmax⟩
          · exact Or.inr ⟨e', mem_cons_of_mem e he', hrest⟩
      · rw [if_pos hline]
        refine ⟨le_rfl, fun e' he' _ hline' => ?_, Or.inl rfl⟩
        -- the line of the first one is behind n, and so are the others
        have hlt : n < e.lineNumber := lt_of_le_of_ne (hge e mem_cons_self) (Ne.symm hline)
        rcases mem_cons.mp he' with rfl | he'
        · exact absurd hline' hline
        · have := hhead e' he'
          omega

structure Rebuilt (defaultLineHeight : ℚ) (lines : NaiveLines) (built rest : List CustomLine) :
    Prop where
  sorted : SortedLines (built ++ rest)
  index : ∀ i (h : i < built.length), built[i].index = i
  live : ∀ e ∈ built, e.deleted = false
  maximum : ∀ e ∈ built, e.maximumSpecialHeight = lines.height defaultLineHeight e.lineNumber
  sum : ∀ e ∈ built, e.prefixSum = lines.accumulated defaultLineHeight (e.lineNumber - 1)
  covered : ∀ n d, d ∈ lines n ↔ ∃ e ∈ built ++ rest, e.deleted = false ∧ e.lineNumber = n ∧ e.decoration = d

namespace Rebuilt

variable {built rest : List CustomLine} {e : CustomLine}

theorem skip (h : Rebuilt defaultLineHeight lines built (e :: rest)) (he : e.deleted = true) :
    Rebuilt defaultLineHeight lines built rest where
  sorted := h.sorted.sublist ((sublist_cons_self e rest).append_left built)
  index := h.index
  live := h.live
  maximum := h.maximum
  sum := h.sum
  covered n d := by
    rw [h.covered]
    constructor
    · rintro ⟨e', he', hlive, hrest⟩
      refine ⟨e', ?_, hlive, hrest⟩
      rcases mem_append.mp he' with he' | he'
      · exact mem_append_left _ he'
      · rcases mem_cons.mp he' with rfl | he'
        · rw [he] at hlive
          cases hlive
        · exact mem_append_right _ he'
    · rintro ⟨e', he', hrest⟩
      refine ⟨e', ?_, hrest⟩
      rcases mem_append.mp he' with he' | he'
      · exact mem_append_left _ he'
      · exact mem_append_right _ (mem_cons_of_mem e he')

theorem step (h : Rebuilt defaultLineHeight lines built (e :: rest)) {e' : CustomLine}
    (hline : e'.lineNumber = e.lineNumber) (hdecoration : e'.decoration = e.decoration)
    (hlive : e.deleted = false) (hlive' : e'.deleted = false) (hindex : e'.index = built.length)
    (hmax : e'.maximumSpecialHeight = lines.height defaultLineHeight e.lineNumber)
    (hsum : e'.prefixSum = lines.accumulated defaultLineHeight (e.lineNumber - 1)) :
    Rebuilt defaultLineHeight lines (built ++ [e']) rest where
  sorted := by
    rw [append_assoc, singleton_append]
    obtain ⟨hbuilt, hrest, hbetween⟩ := pairwise_append.mp h.sorted
    obtain ⟨hhead, htail⟩ := pairwise_cons.mp hrest
    refine pairwise_append.mpr ⟨hbuilt, pairwise_cons.mpr ⟨?_, htail⟩, ?_⟩
    · rw [hline]
      exact hhead
    · intro a ha b hb
      rcases mem_cons.mp hb with rfl | hb
      · rw [hline]
        exact hbetween a ha e mem_cons_self
      · exact hbetween a ha b (mem_cons_of_mem e hb)
  index i hi := by
    rw [getElem_append]
    split
    · exact h.index i _
    · rw [length_append, length_singleton] at hi
      simp only [getElem_singleton, hindex]
      omega
  live := forall_mem_append.mpr ⟨h.live, forall_mem_singleton.mpr hlive'⟩
  maximum := forall_mem_append.mpr ⟨h.maximum, forall_mem_singleton.mpr (by rw [hmax, hline])⟩
  sum := forall_mem_append.mpr ⟨h.sum, forall_mem_singleton.mpr (by rw [hsum, hline])⟩
  covered n d := by
    rw [h.covered, append_assoc, singleton_append]
    simp only [mem_append, mem_cons, or_and_right, exists_or, exists_eq_left, hlive, hlive', hline, hdecoration]

theorem line_le (h : Rebuilt defaultLineHeight lines built (e :: rest)) {n : Int}
    {d : String × ℚ} (hd : d ∈ lines n) (hn : n < e.lineNumber) :
    ∃ e' ∈ built, e'.lineNumber = n := by
  obtain ⟨e', he', -, hline, -⟩ := (h.covered n d).mp hd
  rcases mem_append.mp he' with he' | he'
  · exact ⟨e', he', hline⟩
  · obtain ⟨-, hrest, -⟩ := pairwise_append.mp h.sorted
    rcases mem_cons.mp he' with rfl | he'
    · omega
    · have := (pairwise_cons.mp hrest).1 e' he'
      omega

theorem height_eq (h : Rebuilt defaultLineHeight lines built (e :: rest)) (hlive : e.deleted = false)
    (hnew : ∀ e' ∈ built, e'.lineNumber ≠ e.lineNumber) :
    maximumFrom e.lineNumber e.specialHeight (e :: rest) =
      lines.height defaultLineHeight e.lineNumber := by
  obtain ⟨-, hrest, -⟩ := pairwise_append.mp h.sorted
  have hge : ∀ e' ∈ e :: rest, e.lineNumber ≤ e'.lineNumber := by
    intro e' he'
    rcases mem_cons.mp he' with rfl | he'
    · exact le_rfl
    · exact (pairwise_cons.mp hrest).1 e' he'
  obtain ⟨-, hle, heq⟩ := maximumFrom_spec e.lineNumber (e :: rest) e.specialHeight hrest hge
  obtain ⟨e', he', hlive', hline', hmax⟩ : ∃ e' ∈ e :: rest, e'.deleted = false ∧
      e'.lineNumber = e.lineNumber ∧
        maximumFrom e.lineNumber e.specialHeight (e :: rest) = e'.specialHeight := by
    rcases heq with heq | heq
    · exact ⟨e, mem_cons_self, hlive, rfl, heq⟩
    · exact heq
  have hmem : e'.decoration ∈ lines e.lineNumber :=
    (h.covered _ _).mpr ⟨e', mem_append_right _ he', hlive', hline', rfl⟩
  refine hmax.trans (NaiveLines.height_eq hmem fun d hd => ?_).symm
  obtain ⟨e'', he'', hlive'', hline'', rfl⟩ := (h.covered _ _).mp hd
  rcases mem_append.mp he'' with he'' | he''
  · exact absurd hline'' (hnew e'' he'')
  · exact (hle e'' he'' hlive'' hline'').trans hmax.le

theorem tracks (hs : lines.Spread) (rest : List CustomLine) : ∀ {built : List CustomLine},
    Rebuilt defaultLineHeight lines built rest →
    Tracks defaultLineHeight lines
      (built ++ rebuild defaultLineHeight built.getLast? built.length rest) := by
  induction rest with
  | nil =>
    intro built h
    rw [rebuild, append_nil]
    have hsorted := h.sorted
    rw [append_nil] at hsorted
    refine ⟨hsorted, h.index, h.live, fun n d => ?_, h.maximum, h.sum⟩
    rw [h.covered, append_nil]
    constructor
    · rintro ⟨e, he, -, hrest⟩
      exact ⟨e, he, hrest⟩
    · rintro ⟨e, he, hrest⟩
      exact ⟨e, he, h.live e he, hrest⟩
  | cons e rest ih =>
    intro built h
    rw [rebuild]
    cases hdeleted : e.deleted with
    | true =>
      rw [if_pos rfl]
      exact ih (h.skip hdeleted)
    | false =>
      rw [if_neg Bool.false_ne_true]
      have hpos : 1 ≤ e.lineNumber :=
        (hs.positive _ _ ((h.covered _ e.decoration).mpr ⟨e, mem_append_right _ mem_cons_self, hdeleted, rfl, rfl⟩)).1
      have hnext : ∀ e', Rebuilt defaultLineHeight lines (built ++ [e']) rest →
          Tracks defaultLineHeight lines (built ++ e' ::
            rebuild defaultLineHeight (some e') (built.length + 1) rest) := by
        intro e' h'
        have htracks := ih h'
        rw [getLast?_concat, length_append, length_singleton, append_assoc, singleton_append] at htracks
        exact htracks
      obtain ⟨-, -, hbetween⟩ := pairwise_append.mp h.sorted
      cases hlast : built.getLast? with
      | none =>
        obtain rfl := getLast?_eq_none_iff.mp hlast
        refine hnext _ (h.step rfl rfl hdeleted rfl rfl (h.height_eq hdeleted fun e' he' => absurd he' not_mem_nil) ?_)
        rw [NaiveLines.accumulated_front (by omega)]
        · push_cast
          rfl
        · intro k _ hk
          refine Finset.eq_empty_of_forall_notMem fun d hd => ?_
          obtain ⟨e', he', -⟩ := h.line_le hd (by omega)
          cases he'
      | some previous =>
        have hprevious : previous ∈ built := mem_of_getLast? hlast
        have hle := hbetween previous hprevious e mem_cons_self
        simp only
        by_cases hline : previous.lineNumber = e.lineNumber
        · rw [if_pos hline]
          refine hnext _ (h.step rfl rfl hdeleted rfl rfl ?_ ?_)
          · rw [← hline]
            exact h.maximum previous hprevious
          · rw [← hline]
            exact h.sum previous hprevious
        · rw [if_neg hline]
          have hbefore : ∀ e' ∈ built, e'.lineNumber ≤ previous.lineNumber := by
            intro e' he'
            obtain ⟨init, rfl⟩ := getLast?_eq_some_iff.mp hlast
            obtain ⟨hbuilt, -, -⟩ := pairwise_append.mp h.sorted
            rcases mem_append.mp he' with he' | he'
            · exact (pairwise_append.mp hbuilt).2.2 e' he' previous (mem_singleton_self previous)
            · rw [mem_singleton.mp he']
          refine hnext _ (h.step rfl rfl hdeleted rfl rfl
            (h.height_eq hdeleted fun e' he' => ?_) ?_)
          · have := hbefore e' he'
            omega
          · have hpos' : 1 ≤ previous.lineNumber :=
              (hs.positive _ _ ((h.covered _ previous.decoration).mpr
                ⟨previous, mem_append_left _ hprevious, h.live _ hprevious, rfl, rfl⟩)).1
            rw [NaiveLines.accumulated_after hpos' (h.sum _ hprevious) (h.maximum _ hprevious)
              (n := e.lineNumber - 1) (by omega)]
            · push_cast
              ring
            · intro k hk hk'
              refine Finset.eq_empty_of_forall_notMem fun d hd => ?_
              obtain ⟨e', he', hline'⟩ := h.line_le hd (by omega)
              have := hbefore e' he'
              omega

end Rebuilt

theorem leftHeight_eq {n : Int} {height : ℚ}
    (hcovered : ∀ d, d ∈ lines n ↔ ∃ e ∈ l, e.deleted = false ∧ e.lineNumber = n ∧ e.decoration = d)
    (h : leftHeight l n = some height) : lines.height defaultLineHeight n = height := by
  obtain ⟨hmem, hmax⟩ := max?_eq_some_iff.mp h
  obtain ⟨e, he, rfl⟩ := mem_map.mp hmem
  obtain ⟨he, hleft⟩ := mem_filter.mp he
  obtain ⟨hlive, hline⟩ := of_decide_eq_true hleft
  refine NaiveLines.height_eq ((hcovered e.decoration).mpr ⟨e, he, hlive, hline, rfl⟩) fun d hd => ?_
  obtain ⟨e', he', hlive', hline', rfl⟩ := (hcovered d).mp hd
  exact hmax _ (mem_map_of_mem (mem_filter.mpr ⟨he', decide_eq_true ⟨hlive', hline'⟩⟩))

theorem Kept.rebuilt {k : Nat} (h : Kept defaultLineHeight base (l.take k)) (hsorted : SortedLines l)
    (hcovered : ∀ n d, d ∈ lines n ↔ ∃ e ∈ l, e.deleted = false ∧ e.lineNumber = n ∧ e.decoration = d)
    (hkeeps : ∀ e ∈ (l.take k).getLast?, leftHeight l e.lineNumber = some e.maximumSpecialHeight) :
    Rebuilt defaultLineHeight lines (l.take k) (l.drop k) := by
  have hlines : ∀ last ∈ (l.take k).getLast?, ∀ n < last.lineNumber, lines n = base n := by
    intro last hlast n hn
    have hmem := mem_of_getLast? hlast
    ext d
    rw [hcovered, h.covered last hmem n hn]
    constructor
    · rintro ⟨e, he, -, hline, hd⟩
      refine ⟨e, ?_, hline, hd⟩
      rw [← take_append_drop k l] at he hsorted
      rcases mem_append.mp he with he | he
      · exact he
      · have := (pairwise_append.mp hsorted).2.2 last hmem e he
        omega
    · rintro ⟨e, he, hline, hd⟩
      exact ⟨e, mem_of_mem_take he, h.live e he, hline, hd⟩
  have hheight : ∀ last ∈ (l.take k).getLast?, ∀ n ≤ last.lineNumber,
      lines.height defaultLineHeight n = base.height defaultLineHeight n := by
    intro last hlast n hn
    rcases eq_or_lt_of_le hn with rfl | hn
    · rw [leftHeight_eq (hcovered _) (hkeeps last hlast), h.maximum last (mem_of_getLast? hlast)]
    · exact NaiveLines.height_congr (hlines last hlast n hn)
  have hlast : ∀ e ∈ l.take k, ∃ last ∈ (l.take k).getLast?, e.lineNumber ≤ last.lineNumber := by
    intro e he
    obtain ⟨init, last, hinit⟩ := (eq_nil_or_concat (l.take k)).resolve_left (ne_nil_of_mem he)
    rw [concat_eq_append] at hinit
    refine ⟨last, by rw [hinit]; exact getLast?_concat, ?_⟩
    have hkept := h.sorted
    rw [hinit] at he hkept
    rcases mem_append.mp he with he | he
    · exact (pairwise_append.mp hkept).2.2 e he last (mem_singleton_self last)
    · rw [mem_singleton.mp he]
  refine ⟨?_, h.index, h.live, fun e he => ?_, fun e he => ?_, fun n d => ?_⟩
  · rwa [take_append_drop]
  · obtain ⟨last, hlast, hle⟩ := hlast e he
    rw [hheight last hlast _ hle]
    exact h.maximum e he
  · obtain ⟨last, hlast, hle⟩ := hlast e he
    rw [NaiveLines.accumulated_congr fun n _ hn => hheight last hlast n (by omega)]
    exact h.sum e he
  · rw [hcovered, take_append_drop]

theorem Tracks.of_covered (h : Tracks defaultLineHeight base l)
    (hcovered : ∀ n d, d ∈ lines n ↔ ∃ e ∈ l, e.deleted = false ∧ e.lineNumber = n ∧ e.decoration = d) :
    Tracks defaultLineHeight lines l := by
  have hlines : lines = base := by
    funext n
    ext d
    rw [hcovered, h.covered]
    constructor
    · rintro ⟨e, he, -, hrest⟩
      exact ⟨e, he, hrest⟩
    · rintro ⟨e, he, hrest⟩
      exact ⟨e, he, h.live e he, hrest⟩
  rw [hlines]
  exact h

theorem flush_tracks (hs : lines.Spread) {s : Staged} (h : Staging lines s)
    (hkeeps : FlushKeepsHeight s) :
    Tracks s.1.defaultLineHeight lines (flushStagedDecorationChanges s).1.orderedCustomLines ∧
      (flushStagedDecorationChanges s).1.invalidIndex = none ∧
      (flushStagedDecorationChanges s).2 = [] ∧
      (flushStagedDecorationChanges s).1.defaultLineHeight = s.1.defaultLineHeight := by
  obtain ⟨m, staged⟩ := s
  unfold flushStagedDecorationChanges
  simp only
  by_cases hearly : staged = [] ∧ m.invalidIndex = none
  · rw [if_pos hearly]
    obtain ⟨rfl, hnone⟩ := hearly
    obtain ⟨base, hkept⟩ := h.kept
    simp only [hnone] at hkept
    refine ⟨hkept.of_covered fun n d => ?_, hnone, rfl, rfl⟩
    have hcovered := h.covered n d
    rwa [append_nil] at hcovered
  · rw [if_neg hearly]
    obtain ⟨hstaging, hdefault⟩ := foldl_insertStaged_staging staged h
    unfold FlushKeepsHeight at hkeeps
    simp only at hkeeps
    generalize staged.foldl insertStaged m = m' at hstaging hdefault hkeeps
    obtain ⟨base, hkept⟩ := hstaging.kept
    have hcovered := hstaging.covered
    simp only [append_nil] at hcovered hkept
    rw [hdefault] at hkept
    cases hinvalid : m'.invalidIndex with
    | none =>
      rw [hinvalid] at hkept
      exact ⟨hkept.of_covered hcovered, hinvalid, rfl, hdefault⟩
    | some k =>
      rw [hinvalid] at hkept hkeeps
      obtain ⟨hk, hlen, hkept⟩ := hkept
      simp only
      have hrebuilt := (hkept.rebuilt hstaging.sorted hcovered (hkeeps k rfl)).tracks hs
      rw [length_take, Nat.min_eq_left (by omega), Int.toNat_of_nonneg hk] at hrebuilt
      rw [hdefault]
      exact ⟨hrebuilt, trivial, trivial, rfl⟩

end Gavea.ViewLayout
