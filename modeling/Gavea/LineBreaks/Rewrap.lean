import Gavea.Lib.Fuel
import Gavea.LineBreaks.Searches

namespace Gavea.LineBreaks

open Gavea.Lib Gavea.Lib.Js Gavea.Lib.LineWrap Gavea.LineDecorations List

section Round

variable {settings : WrapSettings} {text ch : JsString} {width limit : ℚ} {last m q k : Nat}
  {breaks stops : List Nat} {st : RewrapState}

abbrev off (text : JsString) (k : Nat) : Nat := offsetAfter (characters text) k

abbrev col (settings : WrapSettings) (text : JsString) (k : Nat) : ℚ := columnAfter settings ((characters text).take k)

def RoomFits (settings : WrapSettings) (text : JsString) (width : ℚ) : Prop :=
  ∀ p q, p ≤ q → q < (characters text).length → (lineOf settings text false).canBreak p = true →
    (∀ j, p < j → j ≤ q → (lineOf settings text false).canBreak j = false) →
    (settings.tabSize : ℚ) < width - (col settings text q - col settings text p) →
    col settings text (q + 1) - col settings text q ≤ width - (col settings text q - col settings text p)

theorem charWidthAt_off (settings : WrapSettings) (hq : q < (characters text).length) :
    charWidthAt settings text[off text q]? (col settings text q) =
      col settings text (q + 1) - col settings text q := by
  have hget := getElem?_eq_getElem hq
  generalize (characters text)[q] = ch at hget
  obtain ⟨u, rest, rfl⟩ := exists_cons_of_ne_nil (ne_nil_of_mem_characters (mem_of_getElem? hget))
  rw [getElem?_offsetAfter hget, col, col, columnAfter_take_succ settings hget, add_sub_cancel_left]
  rfl

theorem dropNeedless_zero {found : FoundBreaks} (h : found.breakOffset = 0) :
    dropNeedless settings text width found = found := by
  rw [dropNeedless, if_neg (not_not.mpr h)]

theorem dropNeedless_spec (width : ℚ) (hq : q < (characters text).length) {found : FoundBreaks}
    (hforced : found.forcedBreakOffset = off text q)
    (hcolumn : found.forcedBreakOffsetVisibleColumn = col settings text q)
    (hroom : width < col settings text (q + 1) - found.breakOffsetVisibleColumn →
      width - (col settings text q - found.breakOffsetVisibleColumn) ≤ settings.tabSize) :
    dropNeedless settings text width found =
      if width < col settings text (q + 1) - found.breakOffsetVisibleColumn then
        { found with breakOffset := 0 } else found := by
  by_cases hzero : found.breakOffset = 0
  · rw [dropNeedless_zero hzero]
    split_ifs
    · rw [← hzero]
    · rfl
  · rw [dropNeedless, if_pos hzero, hforced, hcolumn, charWidthAt_off settings hq]
    have hiff : width - (col settings text q - found.breakOffsetVisibleColumn) -
        (col settings text (q + 1) - col settings text q) < 0 ↔
        width < col settings text (q + 1) - found.breakOffsetVisibleColumn := by
      constructor <;> intro h <;> linarith
    by_cases hwide : width < col settings text (q + 1) - found.breakOffsetVisibleColumn
    · simp only [if_pos (hroom hwide), if_pos (hiff.mpr hwide), if_pos hwide]
    · simp only [if_neg (mt hiff.mp hwide), if_neg hwide, ite_self]

theorem breakTaken_forced {found : FoundBreaks} (hzero : found.breakOffset = 0)
    (hlt : st.lastBreakingOffset < found.forcedBreakOffset) :
    breakTaken settings text st found =
      (found.forcedBreakOffset, found.forcedBreakOffsetVisibleColumn) := by
  rw [breakTaken, if_pos hzero]
  exact if_neg (not_le.mpr hlt)

theorem breakTaken_found {found : FoundBreaks} (hlt : st.lastBreakingOffset < found.breakOffset) :
    breakTaken settings text st found = (found.breakOffset, found.breakOffsetVisibleColumn) := by
  rw [breakTaken, if_neg (Nat.ne_zero_of_lt hlt)]
  exact if_neg (not_le.mpr hlt)

theorem breakTaken_left (htab : 1 ≤ settings.tabSize) (hroom : RoomFits settings text width)
    (hlast : st.lastBreakingOffset = off text last) (hq : last < q) (hqn : q < (characters text).length)
    (hover : limit < col settings text (q + 1)) (hfits : q < m → col settings text q ≤ limit)
    (hm : m ≤ q → col settings text m ≤ limit)
    (hwide : ∀ j, max last (m - 1) < j → j ≤ q → (lineOf settings text false).canBreak j = true →
      width < col settings text (q + 1) - col settings text j)
    {left : LeftState} {found : FoundBreaks}
    (hleft : LeftFound settings text width limit last m left found)
    (hforced : found.forcedBreakOffset = off text q)
    (hcolumn : found.forcedBreakOffsetVisibleColumn = col settings text q) {r : Nat}
    (hr : breakAt (lineOf settings text false) width last q = r) :
    breakTaken settings text st (dropNeedless settings text width found) =
      (off text r, col settings text r) := by
  have hmono {i j : Nat} (h : i ≤ j) : col settings text i ≤ col settings text j :=
    columnAfter_take_mono htab (characters text) h
  have hltq : st.lastBreakingOffset < off text q := hlast ▸ offsetAfter_lt hq hqn.le
  have hto (hzero : (dropNeedless settings text width found).breakOffset = 0)
      (heq : (dropNeedless settings text width found).forcedBreakOffset = off text q)
      (hcol : (dropNeedless settings text width found).forcedBreakOffsetVisibleColumn =
        col settings text q) : breakTaken settings text st (dropNeedless settings text width found) =
      (off text q, col settings text q) := by
    rw [breakTaken_forced hzero (heq ▸ hltq), heq, hcol]
  -- the place that the search to the left has found is behind no other one up to `q`
  have hbefore (p : Nat) (hpm : p ≤ m) (hcolp : col settings text p ≤ limit) : p ≤ q := by
    by_contra hgt
    exact absurd hover (not_lt.mpr ((hmono (not_le.mp hgt)).trans hcolp))
  rw [breakAt] at hr
  rcases hlatest : latest (lineOf settings text false).canBreak last q with - | p₀
  · rw [hlatest] at hr
    have hno := latest_none hlatest
    rcases hleft.chosen with ⟨hzero, -⟩ | ⟨p, hp, hpm, hcan, hcolp, -, -⟩
    · rw [dropNeedless_zero hzero, breakTaken_forced hzero (hforced ▸ hltq), hforced, hcolumn, ← hr]
    · rw [hno p hp (hbefore p hpm hcolp)] at hcan
      exact absurd hcan Bool.false_ne_true
  · rw [hlatest] at hr
    obtain ⟨hp₀, hle₀, hcan₀, hno⟩ := latest_spec hlatest
    by_cases hfit : col settings text (q + 1) - col settings text p₀ ≤ width
    · obtain rfl : p₀ = r := (if_pos hfit).symm.trans hr
      have hp₀m : p₀ ≤ m - 1 := by
        by_contra hgt
        exact absurd hfit (not_le.mpr (hwide p₀ (max_lt hp₀ (not_le.mp hgt)) hle₀ hcan₀))
      have hcolp₀ : col settings text p₀ ≤ limit := by
        rcases lt_or_ge q m with hqm | hqm
        · exact (hmono hle₀).trans (hfits hqm)
        · exact (hmono (by omega)).trans (hm hqm)
      rcases hleft.chosen with ⟨-, hfar⟩ | ⟨p, hp, hpm, hcan, hcolp, hbehind, hoffset, hvisible⟩
      · have := hfar p₀ hp₀ (by omega) hcolp₀ hcan₀
        linarith
      · obtain rfl : p = p₀ := by
          rcases lt_trichotomy p p₀ with hlt | heq | hlt
          · rw [hbehind p₀ hlt (by omega) hcolp₀] at hcan₀
            exact absurd hcan₀ Bool.false_ne_true
          · exact heq
          · rw [hno p hlt (hbefore p hpm hcolp)] at hcan
            exact absurd hcan Bool.false_ne_true
        have hnot : ¬width < col settings text (q + 1) - found.breakOffsetVisibleColumn := by
          rw [hvisible]
          exact not_lt.mpr hfit
        have hlt : st.lastBreakingOffset < found.breakOffset := by
          rw [hlast, hoffset]
          exact offsetAfter_lt hp (by omega)
        rw [dropNeedless_spec width hqn hforced hcolumn fun hw => absurd hw hnot, if_neg hnot,
          breakTaken_found hlt, hoffset, hvisible]
    · obtain rfl : q = r := (if_neg hfit).symm.trans hr
      rcases hleft.chosen with ⟨hzero, -⟩ | ⟨p, hp, hpm, hcan, hcolp, hbehind, hoffset, hvisible⟩
      · rw [dropNeedless_zero hzero, breakTaken_forced hzero (hforced ▸ hltq), hforced, hcolumn]
      · have hle : p ≤ p₀ := by
          by_contra hgt
          rw [hno p (not_le.mp hgt) (hbefore p hpm hcolp)] at hcan
          exact absurd hcan Bool.false_ne_true
        have hcolle := hmono hle
        have hwider : width < col settings text (q + 1) - found.breakOffsetVisibleColumn := by
          rw [hvisible]
          linarith
        have hdrop := dropNeedless_spec width hqn hforced hcolumn fun _ => by
          rw [hvisible]
          by_contra hroomy
          have := hroom p₀ q hle₀ hqn hcan₀ hno (by linarith)
          exact hfit (by linarith)
        rw [if_pos hwider] at hdrop
        exact hto (by rw [hdrop]) (by rw [hdrop]; exact hforced) (by rw [hdrop]; exact hcolumn)

end Round

section Loop

variable {settings : WrapSettings} {text ch : JsString} {width limit : ℚ} {last m q k : Nat}
  {breaks stops : List Nat} {st : RewrapState}

/-- What the loop relies on in front of a round, with the last break behind character `last`. -/
structure RewrapInv (settings : WrapSettings) (text : JsString) (stops : List Nat) (last : Nat)
    (limit : ℚ) (st : RewrapState) : Prop where
  prevIndex_ge : -1 ≤ st.prevIndex
  prevIndex_lt : st.prevIndex < stops.length
  lastOffset : st.lastBreakingOffset = off text last
  lastColumn : st.lastBreakingOffsetVisibleColumn = col settings text last
  breakingColumn : st.breakingColumn = limit
  last_lt : last < (characters text).length
  last_le : col settings text last ≤ limit
  rest_le : last + 1 = (characters text).length → col settings text (last + 1) ≤ limit

theorem off_lt_iff (hlast : last ≤ (characters text).length) (hk : k ≤ (characters text).length) :
    off text last < off text k ↔ last < k := by
  refine ⟨fun hlt => ?_, fun hlt => offsetAfter_lt hlt hk⟩
  by_contra hle
  rcases Nat.lt_or_eq_of_le (not_lt.mp hle) with hgt | rfl
  · exact absurd (offsetAfter_lt hgt hlast) (not_lt.mpr hlt.le)
  · exact lt_irrefl _ hlt

theorem startOfSearch_spec (hstops : ∀ s ∈ stops, s ≤ (characters text).length)
    (hinv : RewrapInv settings text stops last limit st) :
    ∃ m, startOfSearch (stops.map (off text)) (stops.map (col settings text)) st =
        (off text m, col settings text m) ∧
      last ≤ m ∧ m ≤ (characters text).length ∧ (last < m → 0 ≤ st.prevIndex) := by
  have hstart : ∃ s, (if st.prevIndex < 0 then 0 else (stops.map (off text)).getD
      st.prevIndex.toNat 0) =
      off text s ∧ (if st.prevIndex < 0 then 0 else
        (stops.map (col settings text)).getD st.prevIndex.toNat 0) = col settings text s ∧
      s ≤ (characters text).length ∧ (0 < s → 0 ≤ st.prevIndex) := by
    by_cases hneg : st.prevIndex < 0
    · refine ⟨0, ?_, ?_, Nat.zero_le _, fun hpos => absurd hpos (lt_irrefl _)⟩
      · rw [if_pos hneg]
        rfl
      · rw [if_pos hneg]
        rfl
    · have hlt : st.prevIndex.toNat < stops.length := by
        have := hinv.prevIndex_lt
        omega
      have hget := getElem?_eq_getElem hlt
      generalize stops[st.prevIndex.toNat] = s at hget
      refine ⟨s, ?_, ?_, hstops s (mem_of_getElem? hget), fun _ => not_lt.mp hneg⟩
      · rw [if_neg hneg, getD_eq_getElem?_getD, getElem?_map, hget]
        rfl
      · rw [if_neg hneg, getD_eq_getElem?_getD, getElem?_map, hget]
        rfl
  obtain ⟨s, hoffset, hcolumn, hs, hindex⟩ := hstart
  rw [startOfSearch]
  simp only [hoffset, hcolumn, hinv.lastOffset, hinv.lastColumn, gt_iff_lt, off_lt_iff hs hinv.last_lt.le]
  by_cases hlt : s < last
  · exact ⟨last, if_pos hlt, le_rfl, hinv.last_lt.le, fun h => absurd h (lt_irrefl _)⟩
  · exact ⟨s, if_neg hlt, not_lt.mp hlt, hs, fun h => hindex (Nat.zero_lt_of_lt h)⟩

structure Rewrappable (settings : WrapSettings) (text : JsString) : Prop where
  pairs : wellFormed text
  plainPairs : PlainPairs settings text
  plainControls : PlainControls settings text

theorem rightOf_spec (width : ℚ) (htext : Rewrappable settings text)
    (hinv : RewrapInv settings text stops last limit st) (hlast : last ≤ m)
    (hm : m ≤ (characters text).length) (hfit : col settings text m ≤ limit) :
    (rightOf settings text width st (off text m, col settings text m) = none ∧
      ∀ j, m ≤ j → j < (characters text).length → col settings text (j + 1) ≤ limit) ∨
    ∃ q found, rightOf settings text width st (off text m, col settings text m) = some found ∧
      m ≤ q ∧ q < (characters text).length ∧ RightFound settings text width last m q found ∧
      limit < col settings text (q + 1) ∧
      ∀ j, m ≤ j → j < q → col settings text (j + 1) ≤ limit := by
  have hstart : RightInv settings text last m m ⟨col settings text m, if off text m = 0 then .none
      else settings.classifier.get text[off text m - 1]?, 0, 0⟩ := by
    refine ⟨le_rfl, rfl, fun hlt => ?_, ?_⟩
    · obtain ⟨j, rfl⟩ : ∃ j, m = j + 1 := ⟨m - 1, by omega⟩
      have hget := getElem?_eq_getElem (show j < (characters text).length by omega)
      have hne : off text (j + 1) ≠ 0 := Nat.ne_zero_of_lt (offsetAfter_lt (Nat.lt_succ_self j) hm)
      rw [if_neg hne]
      exact get_last_unit htext.pairs htext.plainPairs hget
    · rw [latest_of_le (le_max_right last (m - 1))]
      rfl
  have hspec := rightLoop_spec width limit htext.pairs htext.plainPairs hlast rfl hstart
  rw [rightOf]
  simp only [hinv.breakingColumn, hinv.lastOffset, if_pos hfit, drop_offsetAfter,
    searchRight_eq _ _ (wellFormed_drop htext.pairs m), characters_flatten_drop]
  exact hspec

theorem leftOf_spec (width : ℚ) (htab : 1 ≤ settings.tabSize)
    (htext : Rewrappable settings text)
    (hinv : RewrapInv settings text stops last limit st) (hlast : last ≤ m)
    (hm : m ≤ (characters text).length)
    (hlt : col settings text m ≤ limit → m < (characters text).length) (found : FoundBreaks)
    {res : FoundBreaks × Bool}
    (hres : leftOf settings text width st (off text m, col settings text m) found = res) :
    res.2 = true ∧ last < m ∨ res.2 = false ∧ ∃ left : LeftState,
      left.forcedBreakOffset = found.forcedBreakOffset ∧
      left.forcedBreakOffsetVisibleColumn = found.forcedBreakOffsetVisibleColumn ∧
      LeftFound settings text width limit last m left res.1 := by
  rw [leftOf] at hres
  simp only [hinv.breakingColumn, hinv.lastOffset] at hres
  have hcode (hfit : col settings text m ≤ limit) :
      canBreak (classBehind settings (characters text) m) text[off text m]?
        (settings.classifier.get text[off text m]?) (settings.wordBreak = .keepAll) =
      (lineOf settings text false).canBreak m := by
    obtain ⟨ch, hget⟩ : ∃ ch, (characters text)[m]? = some ch := ⟨_, getElem?_eq_getElem (hlt hfit)⟩
    obtain ⟨u, rest, rfl⟩ := exists_cons_of_ne_nil (ne_nil_of_mem_characters (mem_of_getElem? hget))
    rw [canBreak_lineOf_false hget, get_first_unit htext.pairs htext.plainPairs hget,
      getElem?_offsetAfter hget, head?_cons]
  rcases searchLeft_spec htab htext.pairs htext.plainPairs htext.plainControls hlast hm rfl hcode
    hres with htrue | ⟨hfalse, hfound⟩
  · exact .inl htrue
  · exact .inr ⟨hfalse, _, rfl, rfl, hfound⟩

theorem overflows_first (width : ℚ) (htab : 1 ≤ settings.tabSize)
    (hinv : RewrapInv settings text stops last limit st) (hover : limit < col settings text (last + 1)) :
    Overflows (lineOf settings text false) last limit (last + 1) ∧
      breakAt (lineOf settings text false) width last (last + 1) = last + 1 := by
  have hlt : last + 1 < (characters text).length := by
    refine lt_of_le_of_ne hinv.last_lt fun heq => ?_
    exact absurd hover (not_lt.mpr (hinv.rest_le heq))
  refine ⟨⟨Nat.lt_succ_self last, hlt, .inl (hover.trans_le ?_), fun j hj hjq => by omega⟩, ?_⟩
  · exact columnAfter_take_mono htab (characters text) (Nat.le_succ _)
  · obtain ⟨hgt, hle⟩ := breakAt_bounds (lineOf settings text false) width (Nat.lt_succ_self last)
    exact le_antisymm hle hgt

theorem breakTaken_advance (htext : Rewrappable settings text)
    (hinv : RewrapInv settings text stops last limit st) {found : FoundBreaks}
    (hzero : found.breakOffset = 0) (hforced : found.forcedBreakOffset = 0) :
    breakTaken settings text st found = (off text (last + 1), col settings text (last + 1)) := by
  have hget := getElem?_eq_getElem hinv.last_lt
  have hmem := mem_of_getElem? hget
  have hwidth := charWidthAt_off settings hinv.last_lt
  obtain ⟨u, rest, hcons⟩ := exists_cons_of_ne_nil (ne_nil_of_mem_characters hmem)
  rw [hcons] at hget hmem
  have hunit : text[off text last]? = some u := getElem?_offsetAfter hget
  have hnext : off text (last + 1) = off text last + (u :: rest).length := offsetAfter_succ hget
  rw [breakTaken, if_pos hzero, hforced]
  simp only [Nat.zero_le, if_true, hinv.lastOffset, hinv.lastColumn, hwidth, add_sub_cancel]
  rw [hunit, Option.any_some, hnext, length_character htext.pairs hmem]

theorem breakAt_right {p : Nat}
    (hlatest : latest (lineOf settings text false).canBreak (max last (m - 1)) q = some p)
    (hfit : col settings text (q + 1) - col settings text p ≤ width) :
    last < q ∧ breakAt (lineOf settings text false) width last q = p := by
  obtain ⟨hgt, hle, hcan, hno⟩ := latest_spec hlatest
  have hlast : last < p := lt_of_le_of_lt (le_max_left _ _) hgt
  refine ⟨lt_of_lt_of_le hlast hle, ?_⟩
  rw [breakAt, latest_eq_some hlast hle hcan hno]
  exact if_pos hfit

theorem wide_of_right (htab : 1 ≤ settings.tabSize) (hqn : q < (characters text).length)
    {found : FoundBreaks} (hfound : RightFound settings text width last m q found)
    (hzero : found.breakOffset = 0) :
    ∀ j, max last (m - 1) < j → j ≤ q → (lineOf settings text false).canBreak j = true →
      width < col settings text (q + 1) - col settings text j := by
  intro j hj hjq hcan
  rcases hlatest : latest (lineOf settings text false).canBreak (max last (m - 1)) q with - | p
  · rw [latest_none hlatest j hj hjq] at hcan
    exact absurd hcan Bool.false_ne_true
  · obtain ⟨hp, hpq, -, hno⟩ := latest_spec hlatest
    rcases hfound.chosen with ⟨-, hwide⟩ | ⟨p', hlatest', hoffset, -, -⟩
    · have hle : j ≤ p := by
        by_contra hgt
        rw [hno j (not_le.mp hgt) hjq] at hcan
        exact absurd hcan Bool.false_ne_true
      have hcol : col settings text j ≤ col settings text p := columnAfter_take_mono htab (characters text) hle
      have := hwide p hlatest
      linarith
    · rw [hlatest] at hlatest'
      obtain rfl := Option.some.inj hlatest'
      have hpos : off text 0 < off text p := offsetAfter_lt (Nat.zero_lt_of_lt hp) (by omega)
      exact absurd (hzero.symm.trans hoffset).symm (Nat.ne_zero_of_lt hpos)

theorem rewrapRound_spec (htab : 1 ≤ settings.tabSize) (htext : Rewrappable settings text)
    (hroom : RoomFits settings text width) (hstops : ∀ s ∈ stops, s ≤ (characters text).length)
    (hinv : RewrapInv settings text stops last limit st) {res : RewrapState × Bool}
    (hres : rewrapRound settings text width (stops.map (off text)) (stops.map (col settings text))
        st =
      res) :
    (res = (pushRest (stops.map (off text)) (stops.map (col settings text)) st, false) ∧
      Fits (lineOf settings text false) last (characters text).length limit) ∨
    (res = ({ st with prevIndex := st.prevIndex - 1 }, true) ∧ 0 ≤ st.prevIndex) ∨
    ∃ q, Overflows (lineOf settings text false) last limit q ∧
      res = (pushBreak width (stops.map (col settings text)) st
        (off text (breakAt (lineOf settings text false) width last q),
          col settings text (breakAt (lineOf settings text false) width last q)), true) := by
  obtain ⟨m, hstart, hlast, hm, hindex⟩ := startOfSearch_spec hstops hinv
  rw [rewrapRound, hstart] at hres
  have hmono {i j : Nat} (h : i ≤ j) : col settings text i ≤ col settings text j :=
    columnAfter_take_mono htab (characters text) h
  have hmust (k : Nat) := mustBreak_false settings text k
  by_cases hfit : col settings text m ≤ limit
  · rcases rightOf_spec width htext hinv hlast hm hfit with
      ⟨hnone, hfits⟩ | ⟨q, found, hsome, hmq, hq, hfound, hover, hfits⟩
    · rw [hnone] at hres
      refine .inl ⟨hres.symm, fun k hk hkn => ⟨?_, hmust k⟩⟩
      rcases lt_or_ge k m with hlt | hge
      · exact (hmono hlt).trans hfit
      · exact hfits k hge hkn
    · rw [hsome] at hres
      have hoverflows (hlt : last < q) : Overflows (lineOf settings text false) last limit q := by
        refine ⟨hlt, hq, .inl hover, fun k hk hkq => ⟨?_, hmust k⟩⟩
        rcases lt_or_ge k m with hkm | hkm
        · exact (hmono hkm).trans hfit
        · exact hfits k hkm hkq
      by_cases hzero : found.breakOffset = 0
      · simp only [if_pos hzero] at hres
        rcases leftOf_spec width htab htext hinv hlast hm (fun _ => by omega) found rfl with
            ⟨htrue, hlt⟩ | ⟨hfalse, left, hleft, hleftColumn, hspec⟩
        · simp only [htrue, if_true] at hres
          exact .inr (.inl ⟨hres.symm, hindex hlt⟩)
        · simp only [hfalse, Bool.false_eq_true, if_false] at hres
          generalize (leftOf settings text width st (off text m, col settings text m) found).1 =
              result
            at hres hspec
          have hne (k : Nat) (hk : 0 < k) (hkn : k ≤ (characters text).length) : off text k ≠ 0 :=
            Nat.ne_zero_of_lt (offsetAfter_lt hk hkn)
          rcases Nat.lt_or_eq_of_le (hlast.trans hmq) with hlt | heq
          · obtain ⟨hforced, hcolumn⟩ := hfound.forced hlt
            have hleft' := hleft.trans hforced
            obtain ⟨hkept, hkeptColumn⟩ := hspec.kept (hleft' ▸ hne q (by omega) hq.le)
            rw [breakTaken_left htab hroom hinv.lastOffset hlt hq hover
              (fun hqm => absurd hmq (not_le.mpr hqm)) (fun _ => hfit)
              (wide_of_right htab hq hfound hzero) hspec (hkept.trans hleft')
              (hkeptColumn.trans (hleftColumn.trans hcolumn)) rfl] at hres
            exact .inr (.inr ⟨q, hoverflows hlt, hres.symm⟩)
          · subst heq
            obtain ⟨hforced, hcolumn⟩ := hfound.forcedFirst rfl
            obtain ⟨hfirst, hat⟩ := overflows_first width htab hinv hover
            have hleft' := hleft.trans hforced
            obtain ⟨hkept, hkeptColumn⟩ := hspec.kept (hleft' ▸ hne (last + 1) (by omega) hfirst.lt.le)
            have hnone : result.breakOffset = 0 := by
              rcases hspec.chosen with ⟨hnone, -⟩ | ⟨p, hp, hpm, -⟩
              · exact hnone
              · omega
            have hless : st.lastBreakingOffset < result.forcedBreakOffset := by
              rw [hinv.lastOffset, hkept, hleft']
              exact offsetAfter_lt (Nat.lt_succ_self last) hfirst.lt.le
            rw [dropNeedless_zero hnone, breakTaken_forced hnone hless, hkept, hkeptColumn, hleft',
              hleftColumn, hcolumn] at hres
            exact .inr (.inr ⟨last + 1, hfirst, by rw [hat]; exact hres.symm⟩)
      · simp only [if_neg hzero, Bool.false_eq_true, if_false] at hres
        rcases hfound.chosen with ⟨hno, -⟩ | ⟨p, hlatest, hoffset, hcolumn, hroomy⟩
        · exact absurd hno hzero
        · obtain ⟨hlt, hat⟩ := breakAt_right hlatest hroomy
          have hbounds := breakAt_bounds (lineOf settings text false) width hlt
          rw [hat] at hbounds
          have hless : st.lastBreakingOffset < found.breakOffset := by
            rw [hinv.lastOffset, hoffset]
            exact offsetAfter_lt hbounds.1 (by omega)
          rw [breakTaken_found hless, hoffset, hcolumn] at hres
          exact .inr (.inr ⟨q, hoverflows hlt, by rw [hat]; exact hres.symm⟩)
  · have hlt : last < m := by
      refine lt_of_le_of_ne hlast ?_
      rintro rfl
      exact hfit hinv.last_le
    have hright : rightOf settings text width st (off text m, col settings text m) =
        some ⟨0, 0, 0, 0⟩ := by
      rw [rightOf, hinv.breakingColumn]
      exact if_neg hfit
    simp only [hright, if_true] at hres
    rcases leftOf_spec width htab htext hinv hlast hm (fun hno => absurd hno hfit)
      ⟨0, 0, 0, 0⟩ rfl with ⟨htrue, -⟩ | ⟨hfalse, left, hleft, -, hspec⟩
    · simp only [htrue, if_true] at hres
      exact .inr (.inl ⟨hres.symm, hindex hlt⟩)
    · simp only [hfalse, Bool.false_eq_true, if_false] at hres
      generalize (leftOf settings text width st (off text m, col settings text m) ⟨0, 0, 0, 0⟩).1 =
          result
        at hres hspec
      rcases hspec.forced hleft with ⟨q, hq, hqm, hcolq, hgt, hforced, hcolumn⟩ | ⟨hforced, hgt⟩
      · have hqm : q < m := lt_of_le_of_ne hqm fun heq => hfit (heq ▸ hcolq)
        have hover : limit < col settings text (q + 1) := hgt (q + 1) (Nat.lt_succ_self q) hqm
        have hoverflows : Overflows (lineOf settings text false) last limit q :=
          ⟨hq, by show q < (characters text).length; omega, .inl hover,
            fun k hk hkq => ⟨(hmono hkq).trans hcolq, hmust k⟩⟩
        rw [breakTaken_left htab hroom hinv.lastOffset hq hoverflows.lt hover (fun _ => hcolq)
          (fun hno => absurd hqm (not_lt.mpr hno)) (fun j hj hjq => by omega) hspec hforced hcolumn
          rfl] at hres
        exact .inr (.inr ⟨q, hoverflows, hres.symm⟩)
      · obtain ⟨hfirst, hat⟩ := overflows_first width htab hinv (hgt (last + 1) (by omega) hlt)
        have hnone : result.breakOffset = 0 := by
          rcases hspec.chosen with ⟨hnone, -⟩ | ⟨p, hp, hpm, -, hcolp, -⟩
          · exact hnone
          · exact absurd (hgt p hp hpm) (not_lt.mpr hcolp)
        rw [dropNeedless_zero hnone, breakTaken_advance htext hinv hnone hforced] at hres
        exact .inr (.inr ⟨last + 1, hfirst, by rw [hat]; exact hres.symm⟩)

end Loop

section Whole

variable {settings : WrapSettings} {text : JsString} {width limit : ℚ} {last : Nat}
  {breaks stops : List Nat} {st : RewrapState}

theorem take_writeAt {α : Type*} {arr l : List α} {i : Nat} (h : arr.take i = l) (hi : i = l.length)
    (value : α) : (writeAt arr i value).take (i + 1) = l ++ [value] := by
  rw [writeAt, h, take_append, hi, Nat.add_sub_cancel_left, take_of_length_le (by omega)]
  rfl

structure Written (settings : WrapSettings) (text : JsString) (breaks : List Nat) (st : RewrapState) :
    Prop where
  count : st.breakingOffsetsCount = breaks.length
  offsets : st.breakingOffsets.take st.breakingOffsetsCount = breaks.map (off text)
  columns : st.breakingOffsetsVisibleColumn.take st.breakingOffsetsCount = breaks.map (col settings text)

theorem Written.pushBreak (h : Written settings text breaks st) (r : Nat) (columns : List ℚ) :
    Written settings text (breaks ++ [r])
      (pushBreak width columns st (off text r, col settings text r)) := by
  have hlength : st.breakingOffsetsCount = (breaks.map (off text)).length := by
    rw [length_map, h.count]
  have hlength' : st.breakingOffsetsCount = (breaks.map (col settings text)).length := by
    rw [length_map, h.count]
  refine ⟨?_, ?_, ?_⟩
  · rw [LineBreaks.pushBreak, h.count, length_append, length_singleton]
  · rw [LineBreaks.pushBreak, map_append, map_singleton]
    exact take_writeAt h.offsets hlength _
  · rw [LineBreaks.pushBreak, map_append, map_singleton]
    exact take_writeAt h.columns hlength' _

def Finished (settings : WrapSettings) (text : JsString) (breaks : List Nat) (st : RewrapState) :
    Prop :=
  if breaks = [] then st.breakingOffsetsCount = 0
  else Written settings text (breaks ++ [(characters text).length]) st

theorem getD_last {α : Type*} {f : Nat → α} {d : α} {n : Nat} (h : stops.getLast? = some n) :
    (stops.map f).getD (stops.length - 1) d = f n := by
  rw [getLast?_eq_getElem?] at h
  rw [getD_eq_getElem?_getD, getElem?_map, h]
  rfl

theorem Written.pushRest (h : Written settings text breaks st)
    (hend : stops.getLast? = some (characters text).length) :
    Finished settings text breaks
      (pushRest (stops.map (off text)) (stops.map (col settings text)) st) := by
  have hlength : st.breakingOffsetsCount = (breaks.map (off text)).length := by
    rw [length_map, h.count]
  have hlength' : st.breakingOffsetsCount = (breaks.map (col settings text)).length := by
    rw [length_map, h.count]
  rw [Finished, LineBreaks.pushRest]
  split_ifs with hnil hpos hpos
  · rw [h.count, hnil] at hpos
    exact absurd hpos (lt_irrefl 0)
  · rw [h.count, hnil]
    rfl
  · refine ⟨?_, ?_, ?_⟩
    · rw [h.count, length_append, length_singleton]
    · rw [map_append, map_singleton, length_map]
      simp only [getD_last hend]
      exact take_writeAt h.offsets hlength _
    · rw [map_append, map_singleton, length_map]
      simp only [getD_last hend]
      exact take_writeAt h.columns hlength' _
  · rw [h.count] at hpos
    exact absurd (length_pos_iff.mpr hnil) hpos

theorem skipLoop_lt {v x : ℚ} {rest : List ℚ} (h : rest.getLast? = some x) (hle : v ≤ x)
    (index : Nat) :
    skipLoop v index rest < index + rest.length := by
  induction rest generalizing index with
  | nil => exact absurd h nofun
  | cons y rest ih =>
    rw [skipLoop, length_cons]
    split_ifs with hlt
    · rcases rest with - | ⟨z, rest⟩
      · obtain rfl : y = x := Option.some.inj h
        exact absurd hlt (not_lt.mpr hle)
      · rw [getLast?_cons_cons] at h
        have := ih h (index + 1)
        omega
    · omega

theorem closestLoop_le (breakingColumn bestDistance : ℚ) (index : Nat) (rest : List ℚ) :
    closestLoop breakingColumn bestDistance index rest ≤ index + rest.length := by
  induction rest generalizing index bestDistance with
  | nil => exact le_rfl
  | cons y rest ih =>
    rw [closestLoop, length_cons]
    split_ifs
    · omega
    · have := ih |y - breakingColumn| (index + 1)
      omega

theorem closest_lt {columns : List ℚ} {index : Nat} (breakingColumn : ℚ)
    (h : index < columns.length) :
    closest columns breakingColumn index < columns.length := by
  rw [closest, drop_eq_getElem_cons h]
  have hle := closestLoop_le breakingColumn |columns[index] - breakingColumn| index (columns.drop (index + 1))
  rw [length_drop] at hle
  exact lt_of_le_of_lt hle (by omega)

theorem skip_lt {columns : List ℚ} {index : Nat} {v x : ℚ} (hlast : columns.getLast? = some x)
    (hle : v ≤ x) (h : index < columns.length) : skip columns v index < columns.length := by
  have hdrop : (columns.drop index).getLast? = some x := by
    rw [getLast?_drop, if_neg (not_le.mpr h), hlast]
  have hlt := skipLoop_lt hdrop hle index
  rw [length_drop] at hlt
  rw [skip]
  omega

theorem RewrapInv.pushBreak (htab : 1 ≤ settings.tabSize) (hwidth : 0 ≤ width)
    (hend : stops.getLast? = some (characters text).length)
    (hinv : RewrapInv settings text stops last limit st) {r : Nat} (hr : r < (characters text).length)
    (hrest : r + 1 = (characters text).length → col settings text (r + 1) ≤ col settings text r + width) :
    RewrapInv settings text stops r (col settings text r + width)
      (pushBreak width (stops.map (col settings text)) st (off text r, col settings text r)) := by
  have hindex : st.prevIndex.toNat < (stops.map (col settings text)).length := by
    have hlt := hinv.prevIndex_lt
    have hge := hinv.prevIndex_ge
    have hpos : 0 < stops.length := by
      rw [length_pos_iff]
      rintro rfl
      exact absurd hend nofun
    rw [length_map]
    omega
  have hlast : (stops.map (col settings text)).getLast? =
      some (col settings text (characters text).length) := by
    rw [getLast?_map, hend, Option.map_some]
  have hskip := skip_lt hlast (columnAfter_take_mono htab (characters text) hr.le) hindex
  have hclosest := closest_lt (col settings text r + width) hskip
  rw [length_map] at hclosest
  exact
    { prevIndex_ge := le_trans (by decide) (Int.natCast_nonneg _)
      prevIndex_lt := Int.ofNat_lt.mpr hclosest
      lastOffset := rfl
      lastColumn := rfl
      breakingColumn := rfl
      last_lt := hr
      last_le := le_add_of_nonneg_right hwidth
      rest_le := hrest }

theorem rewrapLoop_settles (htab : 1 ≤ settings.tabSize) (htext : Rewrappable settings text)
    (hroom : RoomFits settings text width) (hwidth : 0 ≤ width)
    (hstops : ∀ s ∈ stops, s ≤ (characters text).length)
    (hend : stops.getLast? = some (characters text).length)
    (hrest : Fits (lineOf settings text false) last (characters text).length limit ∨
      ∀ r, r + 1 = (characters text).length → col settings text (r + 1) ≤ col settings text r + width)
    (hinv : RewrapInv settings text stops last limit st) (hwritten : Written settings text breaks st) :
    Settles (fun fuel => rewrapLoop settings text width (stops.map (off text))
        (stops.map (col settings text)) fuel st)
      (fun st' => ∃ rest, Wraps (lineOf settings text false) width last limit rest ∧
        Finished settings text (breaks ++ rest) st') := by
  obtain ⟨measure, hmeasure⟩ : ∃ measure : Nat, ((characters text).length - last) *
      (stops.length + 2) +
      (st.prevIndex + 1).toNat = measure := ⟨_, rfl⟩
  induction measure using Nat.strong_induction_on generalizing last limit breaks st with
  | _ measure ih =>
    have hge := hinv.prevIndex_ge
    have hlt := hinv.prevIndex_lt
    have hguard : st.prevIndex < (stops.map (off text)).length := by
      rwa [length_map]
    refine .of_succ ?_
    simp only [rewrapLoop, if_pos hguard]
    rcases rewrapRound_spec htab htext hroom hstops hinv rfl with
      ⟨hround, hfits⟩ | ⟨hround, hpos⟩ | ⟨q, hover, hround⟩
    · simp only [hround]
      refine .some ⟨[], .rest hfits, ?_⟩
      rw [append_nil]
      exact hwritten.pushRest hend
    · simp only [hround]
      refine ih _ ?_ hrest ⟨?_, ?_, hinv.lastOffset, hinv.lastColumn, hinv.breakingColumn,
          hinv.last_lt,
        hinv.last_le, hinv.rest_le⟩ ⟨hwritten.count, hwritten.offsets, hwritten.columns⟩ rfl
      · rw [← hmeasure]
        show _ + (st.prevIndex - 1 + 1).toNat < _
        omega
      · show -1 ≤ st.prevIndex - 1
        omega
      · show st.prevIndex - 1 < _
        omega
    · simp only [hround]
      obtain ⟨hgt, hle⟩ := breakAt_bounds (lineOf settings text false) width hover.gt
      have hwide := hrest.resolve_left hover.not_fits
      generalize hr : breakAt (lineOf settings text false) width last q = r at hgt hle
      have hrn : r < (characters text).length := lt_of_le_of_lt hle hover.lt
      have hnext := hinv.pushBreak htab hwidth hend hrn (hwide r)
      refine (ih _ ?_ (.inr hwide) hnext (hwritten.pushBreak r _) rfl).mono ?_
      · rw [← hmeasure]
        have hindex := hnext.prevIndex_lt
        have hstep : ((characters text).length - r + 1) * (stops.length + 2) ≤
            ((characters text).length - last) * (stops.length + 2) :=
          Nat.mul_le_mul_right _ (by omega)
        rw [Nat.add_mul, Nat.one_mul] at hstep
        omega
      · rintro st' ⟨rest, hwraps, hfinished⟩
        refine ⟨r :: rest, ?_, ?_⟩
        · rw [← hr] at hwraps ⊢
          exact .next hover hwraps
        · rw [append_assoc, singleton_append] at hfinished
          exact hfinished

end Whole

section Agreement

variable {settings : WrapSettings} {text : JsString} {column : Int}

/-- The text and the column for which the previous breaks can be used: whole pairs without a class,
no wide control characters, a last character that fits on a line, and no break that leaves more than
a tab of room but not enough for the next character. -/
structure RewrapsAt (settings : WrapSettings) (text : JsString) (column : Int) : Prop where
  plain : Rewrappable settings text
  last : visibleColumnAt settings text text.length ≤ column ∨
    col settings text (characters text).length - col settings text ((characters text).length - 1) ≤
      column - computeWrappedTextIndentLength settings text column
  room : RoomFits settings text (column - computeWrappedTextIndentLength settings text column)

theorem applyInjectedText_nil (text : JsString) : applyInjectedText text [] = text := by
  rw [applyInjectedText, foldl_nil]
  exact substringFrom_eq text 0

theorem wrapped_nonneg (settings : WrapSettings) (text : JsString) (hcolumn : 1 ≤ column) :
    (0 : ℚ) ≤ column - computeWrappedTextIndentLength settings text column := by
  have hpos : (0 : ℚ) ≤ column := by exact_mod_cast zero_le_one.trans hcolumn
  have hwide : (0 : ℚ) ≤ settings.columnsForFullWidthChar := settings.columnsForFullWidthChar.2
  rw [computeWrappedTextIndentLength]
  split_ifs
  · rwa [sub_zero]
  · split
    · rwa [sub_zero]
    · dsimp only
      split_ifs with hfar
      · rwa [sub_zero]
      · linarith

theorem createLineBreaks_eq (text : JsString) (htab : 1 ≤ settings.tabSize) (hcolumn : 1 ≤ column)
    (hlength : 2 ≤ text.length) :
    ∃ breaks, Wraps (lineOf settings text false)
        (column - computeWrappedTextIndentLength settings text column) 0 column breaks ∧
      createLineBreaks settings text [] column false = if breaks = [] then none else
        some ⟨none, none, (breaks ++ [(characters text).length]).map (off text),
          (breaks ++ [(characters text).length]).map (col settings text),
          computeWrappedTextIndentLength settings text column⟩ := by
  have hnot : ¬(column = -1 ∨ text.length ≤ 1) := by omega
  obtain ⟨breaks, hwraps, hoffsets, hcolumns, hvisible⟩ := breakAll_spec htab
    (column - computeWrappedTextIndentLength settings text column) false column hlength rfl
  refine ⟨breaks, hwraps, ?_⟩
  have hend : off text (characters text).length = text.length := offsetAfter_length text
  have hcol : col settings text (characters text).length = columnAfter settings (characters text)
      := by
    rw [col, take_length]
  simp only [createLineBreaks, applyInjectedText_nil, if_neg hnot, hoffsets, hcolumns, hvisible, map_eq_nil_iff,
    and_true, ne_eq, not_true_eq_false, if_false, map_append, map_singleton, hend, hcol]

theorem columns_le (htab : 1 ≤ settings.tabSize)
    (h : visibleColumnAt settings text text.length ≤ column) :
    Fits (lineOf settings text false) 0 (characters text).length column := by
  rw [← offsetAfter_length, visibleColumnAt_offsetAfter] at h
  refine fun k _ hk => ⟨?_, mustBreak_false settings text k⟩
  exact (columnAfter_take_mono htab (characters text) hk).trans h

theorem rewrap_returns (htab : 1 ≤ settings.tabSize) {before : Int} (hbefore : 1 ≤ before)
    (hcolumn : 1 ≤ column) {prev : ModelLineProjectionData}
    (hprev : createLineBreaks settings text [] before false = some prev)
    (h : RewrapsAt settings text column) (pools : ArrPools) :
    Settles (fun fuel => createLineBreaksFromPreviousLineBreaks fuel settings pools prev text column)
      (fun res => res.1 = createLineBreaks settings text [] column false) := by
  have hlength : 2 ≤ text.length := by
    by_contra hshort
    have hle : before = -1 ∨ text.length ≤ 1 := by omega
    simp only [createLineBreaks, applyInjectedText_nil, if_pos hle] at hprev
    cases hprev
  obtain ⟨breaks₀, hwraps₀, heq₀⟩ := createLineBreaks_eq text htab hbefore hlength
  obtain ⟨breaks, hwraps, heq⟩ := createLineBreaks_eq text htab hcolumn hlength
  rw [heq₀] at hprev
  split_ifs at hprev with hne
  obtain rfl := Option.some.inj hprev
  have htwo : 2 ≤ (characters text).length := by
    cases hwraps₀ with
    | rest => exact absurd rfl hne
    | next hover => exact lt_of_le_of_lt hover.gt hover.lt
  obtain ⟨-, hbounds₀⟩ := hwraps₀.increasing (l := lineOf settings text false)
    (Nat.zero_lt_of_lt htwo : 0 < (characters text).length)
  generalize hstops : breaks₀ ++ [(characters text).length] = stops
  have hend : stops.getLast? = some (characters text).length := by
    rw [← hstops]
    exact getLast?_concat
  have hle (s : Nat) (hs : s ∈ stops) : s ≤ (characters text).length := by
    rw [← hstops] at hs
    rcases mem_append.mp hs with hs | hs
    · exact (hbounds₀ s hs).le
    · exact (mem_singleton.mp hs).le
  have hpos : 0 < (stops.map (col settings text)).length := by
    rw [length_map, ← hstops, length_append, length_singleton]
    exact Nat.succ_pos _
  have hclosest := closest_lt column hpos
  rw [length_map] at hclosest
  have hnonneg : (0 : ℚ) ≤ column := by exact_mod_cast zero_le_one.trans hcolumn
  have hinv : RewrapInv settings text stops 0 column
      ⟨(closest (stops.map (col settings text)) column 0 : Nat), pools.arrPool1, pools.arrPool2, 0,
          0, 0,
        column⟩ :=
    { prevIndex_ge := le_trans (by decide) (Int.natCast_nonneg _)
      prevIndex_lt := Int.ofNat_lt.mpr hclosest
      lastOffset := rfl
      lastColumn := rfl
      breakingColumn := rfl
      last_lt := Nat.zero_lt_of_lt htwo
      last_le := hnonneg
      rest_le := fun hone => by omega }
  have hrest := h.last.imp (columns_le htab) fun hwide r (hr : r + 1 = (characters text).length) => by
    rw [← hr, Nat.add_sub_cancel] at hwide
    exact sub_le_iff_le_add'.mp hwide
  obtain ⟨st', hreturns, rest, hwraps', hfinished⟩ := @rewrapLoop_settles settings text _ column 0
      [] stops _ htab h.plain h.room
    (wrapped_nonneg settings text hcolumn) hle hend hrest hinv ⟨rfl, rfl, rfl⟩
  obtain rfl := hwraps'.unique hwraps
  rw [nil_append, Finished] at hfinished
  have hnot : ¬(column = -1 ∨ text.length ≤ 1) := by omega
  by_cases hnil : rest = []
  · rw [if_pos hnil] at hfinished heq
    refine ⟨(none, ⟨st'.breakingOffsets, st'.breakingOffsetsVisibleColumn⟩), ?_, heq.symm⟩
    filter_upwards [hreturns] with fuel hfuel
    simp only [createLineBreaksFromPreviousLineBreaks, if_neg hnot, hfuel, hfinished, if_true]
  · rw [if_neg hnil] at hfinished heq
    have hcount : ¬st'.breakingOffsetsCount = 0 := by
      rw [hfinished.count, length_append, length_singleton]
      exact Nat.succ_ne_zero _
    refine ⟨(_, ⟨stops.map (off text), stops.map (col settings text)⟩), ?_, heq.symm⟩
    filter_upwards [hreturns] with fuel hfuel
    simp only [createLineBreaksFromPreviousLineBreaks, if_neg hnot, hfuel, if_neg hcount,
      hfinished.offsets, hfinished.columns]

def rewrap (fuel : Nat) (settings : WrapSettings) (pools : ArrPools)
    (previousBreakingData : Option ModelLineProjectionData) (lineText : JsString) (wrappingColumn : Int) :
    Option (Option ModelLineProjectionData) :=
  match previousBreakingData with
  | none => some (createLineBreaks settings lineText [] wrappingColumn false)
  | some data => (createLineBreaksFromPreviousLineBreaks fuel settings pools data lineText wrappingColumn).map (·.1)

/-- The results for a sequence of columns, each with what is left in the pooled arrays by then. -/
def rewrapRun (fuel : Nat) (settings : WrapSettings) (lineText : JsString) :
    Option ModelLineProjectionData → List (ArrPools × Int) → Option (List (Option ModelLineProjectionData))
  | _, [] => some []
  | previous, (pools, column) :: steps => do
      let data ← rewrap fuel settings pools previous lineText column
      let rest ← rewrapRun fuel settings lineText data steps
      some (data :: rest)

/-- The steps that find previous breaks can use them. -/
def MeetsAll (settings : WrapSettings) (text : JsString) :
    Option ModelLineProjectionData → List (ArrPools × Int) → Prop
  | _, [] => True
  | previous, (_, column) :: steps =>
    (previous ≠ none → RewrapsAt settings text column) ∧
      MeetsAll settings text (createLineBreaks settings text [] column false) steps

theorem rewrapRun_settles (htab : 1 ≤ settings.tabSize) {steps : List (ArrPools × Int)}
    (hcolumns : ∀ step ∈ steps, 1 ≤ step.2) {previous : Option ModelLineProjectionData}
    (hprevious : previous = none ∨ ∃ before, 1 ≤ before ∧ createLineBreaks settings text [] before false = previous)
    (hmeets : MeetsAll settings text previous steps) :
    Settles (fun fuel => rewrapRun fuel settings text previous steps) (fun results =>
      results = steps.map fun step => createLineBreaks settings text [] step.2 false) := by
  induction steps generalizing previous with
  | nil => exact .some rfl
  | cons step steps ih =>
    obtain ⟨pools, column⟩ := step
    obtain ⟨hcolumn, hcolumns⟩ := forall_mem_cons.mp hcolumns
    obtain ⟨hstep, hsteps⟩ := hmeets
    have hdata : Settles (fun fuel => rewrap fuel settings pools previous text column)
        (fun data => data = createLineBreaks settings text [] column false) := by
      cases previous with
      | none => exact .some rfl
      | some data =>
        obtain ⟨before, hbefore, hprev⟩ := hprevious.resolve_left nofun
        obtain ⟨res, hres, heq⟩ := rewrap_returns htab hbefore hcolumn hprev (hstep nofun) pools
        refine ⟨res.1, ?_, heq⟩
        filter_upwards [hres] with fuel hfuel
        rw [rewrap, hfuel, Option.map_some]
    refine hdata.bind fun data hdata => ?_
    subst hdata
    refine (ih hcolumns (.inr ⟨column, hcolumn, rfl⟩) hsteps).bind fun rest hrest => ?_
    rw [hrest]
    exact .some rfl

end Agreement

section Inputs

variable {settings : WrapSettings} {text : JsString}

theorem rewrapLoop_succ {width : ℚ} {offsets : List Nat} {columns : List ℚ} {fuel : Nat}
    {st st' : RewrapState} (h : rewrapLoop settings text width offsets columns fuel st = some st') :
    rewrapLoop settings text width offsets columns (fuel + 1) st = some st' := by
  induction fuel generalizing st with
  | zero => exact absurd h nofun
  | succ fuel ih =>
    rw [rewrapLoop] at h ⊢
    split_ifs at h ⊢ with hlt
    · generalize rewrapRound settings text width offsets columns st = round at h ⊢
      rcases round with ⟨st₁, _ | _⟩
      · exact h
      · exact ih h
    · exact h

theorem rewrap_succ {fuel : Nat} {pools : ArrPools} {previous data : Option ModelLineProjectionData}
    {column : Int} (h : rewrap fuel settings pools previous text column = some data) :
    rewrap (fuel + 1) settings pools previous text column = some data := by
  cases previous with
  | none => exact h
  | some prev =>
    simp only [rewrap, createLineBreaksFromPreviousLineBreaks] at h ⊢
    split_ifs at h ⊢ with hshort
    · exact h
    · split at h
      · exact absurd h nofun
      · rename_i st hst
        rw [rewrapLoop_succ hst]
        exact h

theorem rewrapRun_succ {fuel : Nat} {previous : Option ModelLineProjectionData}
    {steps : List (ArrPools × Int)} {results : List (Option ModelLineProjectionData)}
    (h : rewrapRun fuel settings text previous steps = some results) :
    rewrapRun (fuel + 1) settings text previous steps = some results := by
  induction steps generalizing previous results with
  | nil => exact h
  | cons step steps ih =>
    obtain ⟨data, hdata, h⟩ := Option.bind_eq_some_iff.mp h
    obtain ⟨rest, hrest, h⟩ := Option.bind_eq_some_iff.mp h
    exact Option.bind_eq_some_iff.mpr ⟨data, rewrap_succ hdata, Option.bind_eq_some_iff.mpr ⟨rest, ih hrest, h⟩⟩

theorem rewrapRun_returns {fuel : Nat} {previous : Option ModelLineProjectionData}
    {steps : List (ArrPools × Int)} {results : List (Option ModelLineProjectionData)}
    (h : rewrapRun fuel settings text previous steps = some results) :
    Returns (fun fuel => rewrapRun fuel settings text previous steps) results := by
  refine Filter.eventually_atTop.mpr ⟨fuel, fun m hm => ?_⟩
  induction m, hm using Nat.le_induction with
  | base => exact h
  | succ m _ ih => exact rewrapRun_succ ih

end Inputs

end Gavea.LineBreaks
