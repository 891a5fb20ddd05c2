import Gavea.LineBreaks.Within

namespace Gavea.LineBreaks

open Gavea.Lib Gavea.Lib.Js Gavea.Lib.LineWrap Gavea.LineDecorations

section Units

variable {settings : WrapSettings} {text ch : JsString} {k : Nat}

theorem character_cases (h : wellFormed text) (hch : ch ∈ characters text) :
    (∃ u, ch = [u] ∧ isHighSurrogate u = false ∧ isLowSurrogate u = false) ∨
      ∃ u v, ch = [u, v] ∧ isHighSurrogate u = true ∧ isLowSurrogate v = true := by
  induction text using characters.induct with
  | case1 => exact absurd hch List.not_mem_nil
  | case2 charCode =>
    rw [characters, List.mem_singleton] at hch
    rw [wellFormed, Bool.and_eq_true, Bool.not_eq_true', Bool.not_eq_true'] at h
    exact .inl ⟨charCode, hch, h⟩
  | case3 charCode next rest hhigh ih =>
    rw [wellFormed, if_pos hhigh, Bool.and_eq_true] at h
    rw [characters, if_pos hhigh, List.mem_cons] at hch
    rcases hch with rfl | hch
    · exact .inr ⟨charCode, next, rfl, hhigh, h.1⟩
    · exact ih h.2 hch
  | case4 charCode next rest hhigh ih =>
    rw [wellFormed, if_neg hhigh, Bool.and_eq_true, Bool.not_eq_true'] at h
    rw [characters, if_neg hhigh, List.mem_cons] at hch
    rcases hch with rfl | hch
    · exact .inl ⟨charCode, rfl, (Bool.not_eq_true _).mp hhigh, h.1⟩
    · exact ih h.2 hch

theorem drop_offsetAfter (text : JsString) (k : Nat) :
    text.drop (offsetAfter (characters text) k) = ((characters text).drop k).flatten := by
  have hsplit := congrArg List.flatten (List.take_append_drop k (characters text))
  rw [List.flatten_append, flatten_characters] at hsplit
  calc text.drop (offsetAfter (characters text) k)
      = (((characters text).take k).flatten ++ ((characters text).drop k).flatten).drop
          ((characters text).take k).flatten.length := by rw [hsplit, offsetAfter]
    _ = ((characters text).drop k).flatten := List.drop_left

theorem characters_flatten_drop (text : JsString) (k : Nat) :
    characters ((characters text).drop k).flatten = (characters text).drop k := by
  induction text using characters.induct generalizing k with
  | case1 => rw [characters, List.drop_nil]; rfl
  | case2 charCode =>
    cases k with
    | zero => rfl
    | succ k => rw [characters, List.drop_succ_cons, List.drop_nil]; rfl
  | case3 charCode next rest hhigh ih =>
    cases k with
    | zero => rw [List.drop_zero, flatten_characters]
    | succ k => rw [characters, if_pos hhigh, List.drop_succ_cons, ih]
  | case4 charCode next rest hhigh ih =>
    cases k with
    | zero => rw [List.drop_zero, flatten_characters]
    | succ k => rw [characters, if_neg hhigh, List.drop_succ_cons, ih]

theorem getElem?_offsetAfter (h : (characters text)[k]? = some ch) :
    text[offsetAfter (characters text) k]? = ch.head? := by
  have hne := ne_nil_of_mem_characters (List.mem_of_getElem? h)
  obtain ⟨hlt, hget⟩ := List.getElem?_eq_some_iff.mp h
  rw [← List.head?_drop, drop_offsetAfter, List.drop_eq_getElem_cons hlt, hget, List.flatten_cons,
    List.head?_append_of_ne_nil _ hne]

theorem offsetAfter_le (text : JsString) (k : Nat) :
    offsetAfter (characters text) k ≤ text.length := by
  rw [offsetAfter, ← take_offsetAfter, List.length_take]
  exact min_le_right _ _

theorem getElem?_offsetAfter_sub_one (h : (characters text)[k]? = some ch) :
    text[offsetAfter (characters text) (k + 1) - 1]? = ch.getLast? := by
  have hne := ne_nil_of_mem_characters (List.mem_of_getElem? h)
  have hlt : offsetAfter (characters text) k < offsetAfter (characters text) (k + 1) :=
    offsetAfter_lt (Nat.lt_succ_self k) (List.getElem?_eq_some_iff.mp h).1
  have hlast : (text.take (offsetAfter (characters text) (k + 1))).getLast? =
      text[offsetAfter (characters text) (k + 1) - 1]? := by
    rw [List.getLast?_eq_getElem?, List.length_take, min_eq_left (offsetAfter_le text _),
      List.getElem?_take_of_lt (by omega)]
  rw [← hlast, take_offsetAfter, List.take_add_one, h, Option.toList_some, List.flatten_append,
    List.flatten_singleton, List.getLast?_append_of_ne_nil _ hne]

def PlainPairs (settings : WrapSettings) (text : JsString) : Prop :=
  ∀ u ∈ text, isHighSurrogate u ∨ isLowSurrogate u → settings.classifier.get (some u) = .none

theorem mem_of_mem_characters {u : CodeUnit} (hch : ch ∈ characters text) (hu : u ∈ ch) : u ∈ text
    := by
  rw [← flatten_characters text]
  exact List.mem_flatten.mpr ⟨ch, hch, hu⟩

theorem classBehind_eq (hwell : wellFormed text) (hplain : PlainPairs settings text)
    (h : (characters text)[k]? = some ch) :
    classBehind settings (characters text) (k + 1) = classOf settings ch := by
  have hmem := List.mem_of_getElem? h
  rw [classBehind, Nat.add_sub_cancel, List.getD_eq_getElem?_getD, h, Option.getD_some]
  rcases character_cases hwell hmem with ⟨u, rfl, hhigh, -⟩ | ⟨u, v, rfl, hhigh, hlow⟩
  · simp only [hhigh, classOf, Bool.false_eq_true, if_false]
  · have hclass := hplain v (mem_of_mem_characters hmem (by simp)) (.inr hlow)
    simp only [hhigh, classOf, if_true, List.head?_cons, hclass, ite_self]

theorem get_last_unit (hwell : wellFormed text) (hplain : PlainPairs settings text)
    (h : (characters text)[k]? = some ch) :
    settings.classifier.get text[offsetAfter (characters text) (k + 1) - 1]? =
      classBehind settings (characters text) (k + 1) := by
  have hmem := List.mem_of_getElem? h
  rw [getElem?_offsetAfter_sub_one h, classBehind_eq hwell hplain h]
  rcases character_cases hwell hmem with ⟨u, rfl, hhigh, -⟩ | ⟨u, v, rfl, hhigh, hlow⟩
  · simp only [List.getLast?_singleton, classOf, hhigh, Bool.false_eq_true, if_false]
  · have hclass := hplain v (mem_of_mem_characters hmem (by simp)) (.inr hlow)
    simp only [List.getLast?_cons_cons, List.getLast?_singleton, classOf, hhigh, if_true, hclass]

theorem get_first_unit (hwell : wellFormed text) (hplain : PlainPairs settings text)
    (h : (characters text)[k]? = some ch) :
    settings.classifier.get text[offsetAfter (characters text) k]? = classOf settings ch := by
  have hmem := List.mem_of_getElem? h
  rw [getElem?_offsetAfter h]
  rcases character_cases hwell hmem with ⟨u, rfl, hhigh, -⟩ | ⟨u, v, rfl, hhigh, hlow⟩
  · simp only [List.head?_cons, classOf, hhigh, Bool.false_eq_true, if_false]
  · have hclass := hplain u (mem_of_mem_characters hmem (by simp)) (.inl hhigh)
    simp only [List.head?_cons, classOf, hhigh, if_true, hclass]

theorem length_character (hwell : wellFormed text) {u : CodeUnit} {rest : JsString}
    (hch : u :: rest ∈ characters text) :
    (u :: rest).length = if isHighSurrogate u then 2 else 1 := by
  rcases character_cases hwell hch with ⟨v, heq, hhigh, -⟩ | ⟨v, w, heq, hhigh, -⟩
  · obtain ⟨rfl, rfl⟩ := List.cons_eq_cons.mp heq
    simp only [hhigh, Bool.false_eq_true, if_false, List.length_singleton]
  · obtain ⟨rfl, rfl⟩ := List.cons_eq_cons.mp heq
    simp only [hhigh, if_true, List.length_cons, List.length_nil]

end Units

section Right

variable {settings : WrapSettings} {text : JsString} {width limit : ℚ} {last m k : Nat}

theorem wellFormed_drop (h : wellFormed text) (k : Nat) :
    wellFormed ((characters text).drop k).flatten := by
  induction text using characters.induct generalizing k with
  | case1 =>
    rw [characters, List.drop_nil]
    rfl
  | case2 charCode =>
    cases k with
    | zero => exact h
    | succ k =>
      rw [characters, List.drop_succ_cons, List.drop_nil]
      rfl
  | case3 charCode next rest hhigh ih =>
    cases k with
    | zero => rwa [List.drop_zero, flatten_characters]
    | succ k =>
      rw [wellFormed, if_pos hhigh, Bool.and_eq_true] at h
      rw [characters, if_pos hhigh, List.drop_succ_cons]
      exact ih h.2 k
  | case4 charCode next rest hhigh ih =>
    cases k with
    | zero => rwa [List.drop_zero, flatten_characters]
    | succ k =>
      rw [wellFormed, if_neg hhigh, Bool.and_eq_true] at h
      rw [characters, if_neg hhigh, List.drop_succ_cons]
      exact ih h.2 k

def rightLoop (settings : WrapSettings) (width limit : ℚ) (lastOffset : Nat) :
    Nat → List JsString → RightState → Option FoundBreaks
  | _, [], _ => none
  | i, [] :: cs, st => rightLoop settings width limit lastOffset i cs st
  | i, (u :: rest) :: cs, st =>
    match rightStep settings width limit lastOffset i (i + (u :: rest).length) u
        (classOf settings (u :: rest)) (characterWidth settings st.visibleColumn (u :: rest)) st with
    | .inl st => rightLoop settings width limit lastOffset (i + (u :: rest).length) cs st
    | .inr found => some found

theorem searchRight_eq (lastOffset i : Nat) {rest : List CodeUnit} (hwell : wellFormed rest)
    (st : RightState) : searchRight settings width limit lastOffset i rest st =
      rightLoop settings width limit lastOffset i (characters rest) st := by
  induction rest using characters.induct generalizing i st with
  | case1 => rfl
  | case2 charCode =>
    rw [wellFormed, Bool.and_eq_true, Bool.not_eq_true'] at hwell
    simp only [searchRight, characters, rightLoop, classOf, characterWidth, charWidthAt, hwell.1,
      Bool.false_eq_true, if_false, List.length_singleton]
    all_goals
      cases rightStep settings width limit lastOffset i (i + 1) charCode
        (settings.classifier.get (some charCode)) (computeCharWidth charCode st.visibleColumn
          settings.tabSize settings.columnsForFullWidthChar) st <;> rfl
  | case3 charCode next rest hhigh ih =>
    rw [wellFormed, if_pos hhigh, Bool.and_eq_true] at hwell
    simp only [searchRight, characters, if_pos hhigh, rightLoop, classOf, characterWidth,
      List.length_cons, List.length_nil, zero_add, Nat.reduceAdd]
    cases rightStep settings width limit lastOffset i (i + 2) charCode .none 2 st with
    | inl st => exact ih _ hwell.2 _
    | inr found => rfl
  | case4 charCode next rest hhigh ih =>
    rw [wellFormed, if_neg hhigh, Bool.and_eq_true] at hwell
    simp only [searchRight, characters, if_neg hhigh, rightLoop, classOf, characterWidth,
      charWidthAt, List.length_singleton]
    cases rightStep settings width limit lastOffset i (i + 1) charCode
        (settings.classifier.get (some charCode)) (computeCharWidth charCode st.visibleColumn
          settings.tabSize settings.columnsForFullWidthChar) st with
    | inl st => exact ih _ hwell.2 _
    | inr found => rfl

structure RightInv (settings : WrapSettings) (text : JsString) (last m k : Nat) (st : RightState) :
    Prop where
  le : m ≤ k
  visibleColumn : st.visibleColumn = columnAfter settings ((characters text).take k)
  prevClass : last < k → st.prevCharCodeClass = classBehind settings (characters text) k
  found : FoundAt settings (characters text) st.breakOffset st.breakOffsetVisibleColumn
    (latest (lineOf settings text false).canBreak (max last (m - 1)) (k - 1))

structure RightFound (settings : WrapSettings) (text : JsString) (width : ℚ) (last m q : Nat)
    (found : FoundBreaks) : Prop where
  forced : last < q → found.forcedBreakOffset = offsetAfter (characters text) q ∧
    found.forcedBreakOffsetVisibleColumn = columnAfter settings ((characters text).take q)
  forcedFirst : q = last → found.forcedBreakOffset = offsetAfter (characters text) (q + 1) ∧
    found.forcedBreakOffsetVisibleColumn = columnAfter settings ((characters text).take (q + 1))
  chosen : (found.breakOffset = 0 ∧
      ∀ p, latest (lineOf settings text false).canBreak (max last (m - 1)) q = some p →
        width < columnAfter settings ((characters text).take (q + 1)) -
          columnAfter settings ((characters text).take p)) ∨
    ∃ p, latest (lineOf settings text false).canBreak (max last (m - 1)) q = some p ∧
      found.breakOffset = offsetAfter (characters text) p ∧
      found.breakOffsetVisibleColumn = columnAfter settings ((characters text).take p) ∧
      columnAfter settings ((characters text).take (q + 1)) - columnAfter settings ((characters text).take p) ≤ width

theorem mustBreak_false (settings : WrapSettings) (text : JsString) (k : Nat) :
    (lineOf settings text false).mustBreak k = false := by
  simp only [lineOf, Bool.false_and]

theorem canBreak_lineOf_false {u : CodeUnit} {rest : JsString}
    (h : (characters text)[k]? = some (u :: rest)) :
    (lineOf settings text false).canBreak k = canBreak (classBehind settings (characters text) k)
        (some u)
      (classOf settings (u :: rest)) (settings.wordBreak = .keepAll) := by
  rw [canBreak_lineOf settings false h, mustBreak_false, Bool.false_or]

theorem latest_of_le {canBreak : Nat → Bool} (h : k ≤ last) : latest canBreak last k = none :=
  latest_eq_none fun _ hi hik => absurd hi (not_lt.mpr (hik.trans h))

theorem RightInv.next (hlast : last ≤ m) {st : RightState} (hinv : RightInv settings text last m k st)
    {here : Bool} (hhere : here = (decide (last < k) && (lineOf settings text false).canBreak k)) :
    FoundAt settings (characters text) (if here then offsetAfter (characters text) k else
        st.breakOffset)
      (if here then st.visibleColumn else st.breakOffsetVisibleColumn)
      (latest (lineOf settings text false).canBreak (max last (m - 1)) k) := by
  have hle := hinv.le
  by_cases hlt : last < k
  · rw [decide_eq_true hlt, Bool.true_and] at hhere
    rw [latest_here (max_lt hlt (by omega)), hhere]
    split_ifs
    · exact ⟨rfl, hinv.visibleColumn⟩
    · exact hinv.found
  · rw [decide_eq_false hlt, Bool.false_and] at hhere
    have hk : k ≤ max last (m - 1) := le_max_of_le_left (not_lt.mp hlt)
    have hfound := hinv.found
    rw [latest_of_le ((Nat.sub_le k 1).trans hk)] at hfound
    rw [latest_of_le hk, hhere]
    exact hfound

theorem FoundAt.fitting (width : ℚ) {breakOffset q : Nat} {breakOffsetVisibleColumn : ℚ}
    {found : Option Nat}
    (h : FoundAt settings (characters text) breakOffset breakOffsetVisibleColumn found) :
    ((if columnAfter settings ((characters text).take (q + 1)) - breakOffsetVisibleColumn > width
        then 0
        else breakOffset) = 0 ∧ ∀ p, found = some p →
          width < columnAfter settings ((characters text).take (q + 1)) -
            columnAfter settings ((characters text).take p)) ∨
    ∃ p, found = some p ∧
      (if columnAfter settings ((characters text).take (q + 1)) - breakOffsetVisibleColumn > width
          then 0
        else breakOffset) = offsetAfter (characters text) p ∧
      breakOffsetVisibleColumn = columnAfter settings ((characters text).take p) ∧
      columnAfter settings ((characters text).take (q + 1)) -
        columnAfter settings ((characters text).take p) ≤ width := by
  cases found with
  | none =>
    have hzero : breakOffset = 0 := h
    rw [hzero, ite_self]
    exact .inl ⟨rfl, fun p hp => absurd hp nofun⟩
  | some p =>
    obtain ⟨rfl, rfl⟩ := h
    by_cases hwide : columnAfter settings ((characters text).take (q + 1)) -
        columnAfter settings ((characters text).take p) > width
    · rw [if_pos hwide]
      refine .inl ⟨rfl, fun p' hp' => ?_⟩
      rw [← Option.some.inj hp']
      exact hwide
    · rw [if_neg hwide]
      exact .inr ⟨p, rfl, rfl, rfl, not_lt.mp hwide⟩

theorem rightStep_spec (width limit : ℚ) (hwell : wellFormed text)
    (hplain : PlainPairs settings text) (hlast : last ≤ m)
    {u : CodeUnit} {rest : JsString} (h : (characters text)[k]? = some (u :: rest)) {st : RightState}
    (hinv : RightInv settings text last m k st) {step : RightState ⊕ FoundBreaks}
    (hstep : rightStep settings width limit (offsetAfter (characters text) last)
      (offsetAfter (characters text) k) (offsetAfter (characters text) (k + 1)) u
      (classOf settings (u :: rest)) (characterWidth settings st.visibleColumn (u :: rest)) st = step) :
    (∃ st', step = .inl st' ∧ RightInv settings text last m (k + 1) st' ∧
      columnAfter settings ((characters text).take (k + 1)) ≤ limit) ∨
    ∃ found, step = .inr found ∧ RightFound settings text width last m k found ∧
      limit < columnAfter settings ((characters text).take (k + 1)) := by
  have hk : k < (characters text).length := (List.getElem?_eq_some_iff.mp h).1
  have hle := hinv.le
  have hoffset : offsetAfter (characters text) k > offsetAfter (characters text) last ↔ last < k := by
    refine ⟨fun hgt => ?_, fun hlt => offsetAfter_lt hlt hk.le⟩
    by_contra hno
    obtain rfl : last = k := by omega
    exact absurd hgt (lt_irrefl _)
  have hhere : (decide (offsetAfter (characters text) k > offsetAfter (characters text) last) &&
      canBreak st.prevCharCodeClass (some u) (classOf settings (u :: rest)) (settings.wordBreak = .keepAll)) =
      (decide (last < k) && (lineOf settings text false).canBreak k) := by
    rw [canBreak_lineOf_false h]
    by_cases hlt : last < k
    · rw [hinv.prevClass hlt, decide_eq_true hlt, decide_eq_true (hoffset.mpr hlt)]
    · rw [decide_eq_false hlt, decide_eq_false (mt hoffset.mp hlt), Bool.false_and, Bool.false_and]
  have hfound := hinv.next hlast hhere
  have hcolumn := columnAfter_take_succ settings h
  rw [← hinv.visibleColumn] at hcolumn
  rw [rightStep] at hstep
  simp only [hhere, ← hcolumn] at hstep hfound
  generalize (if (decide (last < k) && (lineOf settings text false).canBreak k) = true then
    offsetAfter (characters text) k else st.breakOffset) = breakOffset at hstep hfound
  generalize (if (decide (last < k) && (lineOf settings text false).canBreak k) = true then
    st.visibleColumn else st.breakOffsetVisibleColumn) = breakOffsetVisibleColumn at hstep hfound
  have hback : columnAfter settings ((characters text).take (k + 1)) -
      characterWidth settings st.visibleColumn (u :: rest) =
      columnAfter settings ((characters text).take k) := by
    rw [hcolumn, hinv.visibleColumn, add_sub_cancel_right]
  rw [hback] at hstep
  by_cases hover : columnAfter settings ((characters text).take (k + 1)) > limit
  · rw [if_pos hover] at hstep
    have hchosen := hfound.fitting width (q := k)
    refine .inr ?_
    by_cases hlt : last < k
    · rw [if_pos (hoffset.mpr hlt)] at hstep
      exact ⟨_, hstep.symm, ⟨fun _ => ⟨rfl, rfl⟩, fun heq => absurd heq hlt.ne', hchosen⟩, hover⟩
    · rw [if_neg (mt hoffset.mp hlt)] at hstep
      exact ⟨_, hstep.symm, ⟨fun hgt => absurd hgt hlt, fun _ => ⟨rfl, rfl⟩, hchosen⟩, hover⟩
  · rw [if_neg hover] at hstep
    refine .inl ⟨_, hstep.symm, ⟨by omega, rfl, fun _ => ?_, ?_⟩, not_lt.mp hover⟩
    · exact (classBehind_eq hwell hplain h).symm
    · rw [Nat.add_sub_cancel]
      exact hfound

theorem rightLoop_spec (width limit : ℚ) (hwell : wellFormed text)
    (hplain : PlainPairs settings text) (hlast : last ≤ m)
    {cs : List JsString} (hcs : (characters text).drop k = cs) {st : RightState}
    (hinv : RightInv settings text last m k st) :
    (rightLoop settings width limit (offsetAfter (characters text) last)
        (offsetAfter (characters text) k) cs st = none ∧
      ∀ j, k ≤ j → j < (characters text).length → columnAfter settings ((characters text).take (j + 1)) ≤ limit) ∨
    ∃ q found, rightLoop settings width limit (offsetAfter (characters text) last)
        (offsetAfter (characters text) k) cs st = some found ∧
      k ≤ q ∧ q < (characters text).length ∧ RightFound settings text width last m q found ∧
      limit < columnAfter settings ((characters text).take (q + 1)) ∧
      ∀ j, k ≤ j → j < q → columnAfter settings ((characters text).take (j + 1)) ≤ limit := by
  induction cs generalizing k st with
  | nil =>
    refine .inl ⟨rfl, fun j hj hlt => ?_⟩
    have hle := List.drop_eq_nil_iff.mp hcs
    omega
  | cons ch cs ih =>
    have hget : (characters text)[k]? = some ch := by
      rw [← List.head?_drop, hcs, List.head?_cons]
    have hnext : (characters text).drop (k + 1) = cs := by
      rw [← List.tail_drop, hcs, List.tail_cons]
    have hk : k < (characters text).length := (List.getElem?_eq_some_iff.mp hget).1
    obtain ⟨u, rest, rfl⟩ := List.exists_cons_of_ne_nil (ne_nil_of_mem_characters (List.mem_of_getElem? hget))
    rw [rightLoop, ← offsetAfter_succ hget]
    rcases rightStep_spec width limit hwell hplain hlast hget hinv rfl with
      ⟨st', hstep, hinv', hfit⟩ | ⟨found, hstep, hfound, hover⟩
    · rw [hstep]
      rcases ih hnext hinv' with ⟨hnone, hfits⟩ | ⟨q, found, hsome, hle, hq, hfound, hover, hfits⟩
      · refine .inl ⟨hnone, fun j hj hlt => ?_⟩
        rcases Nat.lt_or_eq_of_le hj with hlt' | rfl
        · exact hfits j hlt' hlt
        · exact hfit
      · refine .inr ⟨q, found, hsome, by omega, hq, hfound, hover, fun j hj hlt => ?_⟩
        rcases Nat.lt_or_eq_of_le hj with hlt' | rfl
        · exact hfits j hlt' hlt
        · exact hfit
    · rw [hstep]
      exact .inr ⟨k, found, rfl, le_rfl, hk, hfound, hover, fun j hj hlt => absurd hlt (not_lt.mpr hj)⟩

end Right

section Left

variable {settings : WrapSettings} {text ch : JsString} {width limit : ℚ} {last k : Nat}

def PlainControls (settings : WrapSettings) (text : JsString) : Prop :=
  ∀ u ∈ text, u < 32 → u ≠ tab → settings.columnsForFullWidthChar = 1

theorem computeCharWidth_backwards (hcontrols : PlainControls settings text) {u : CodeUnit}
    (hu : u ∈ text) (htab : u ≠ tab) (visibleColumn : ℚ) :
    computeCharWidth u visibleColumn settings.tabSize settings.columnsForFullWidthChar =
      if isFullWidthCharacter u then (settings.columnsForFullWidthChar : ℚ) else 1 := by
  rw [computeCharWidth, if_neg htab]
  split_ifs with hfull hcontrol
  · rfl
  · rw [hcontrols u hu hcontrol htab, NNRat.cast_one]
  · rfl

def LeftState.passed (settings : WrapSettings) (st : LeftState) (visibleColumn : ℚ) (ch : JsString) :
    LeftState :=
  { st with
    visibleColumn := visibleColumn
    charCode := ch.getLast?
    charCodeClass := classOf settings ch }

def LeftState.forced (st : LeftState) (offset : Nat) : LeftState :=
  if st.forcedBreakOffset = 0 then
    { st with forcedBreakOffset := offset, forcedBreakOffsetVisibleColumn := st.visibleColumn }
  else st

theorem searchLeft_step (hwell : wellFormed text) (hcontrols : PlainControls settings text)
    (hlast : last ≤ k) (h : (characters text)[k]? = some ch) {st : LeftState}
    (hvisible : st.visibleColumn = columnAfter settings ((characters text).take (k + 1))) :
    searchLeft settings text width limit (offsetAfter (characters text) last)
        (offsetAfter (characters text) (k + 1)) false st =
      if ch = [tab] then st.result 0 0 true
      else if st.visibleColumn ≤ limit then
        if st.visibleColumn ≤ limit - width then
          (st.forced (offsetAfter (characters text) (k + 1))).result 0 0 false
        else if canBreak (classOf settings ch) st.charCode st.charCodeClass
            (settings.wordBreak = .keepAll) then
          (st.forced (offsetAfter (characters text) (k + 1))).result
            (offsetAfter (characters text) (k + 1)) st.visibleColumn false
        else
          searchLeft settings text width limit (offsetAfter (characters text) last)
            (offsetAfter (characters text) k) false
            ((st.forced (offsetAfter (characters text) (k + 1))).passed settings
              (columnAfter settings ((characters text).take k)) ch)
      else
        searchLeft settings text width limit (offsetAfter (characters text) last)
          (offsetAfter (characters text) k) false
          (st.passed settings (columnAfter settings ((characters text).take k)) ch) := by
  have hmem := List.mem_of_getElem? h
  have hcolumn := columnAfter_take_succ settings h
  have hoffset := offsetAfter_succ h
  have hlastUnit := getElem?_offsetAfter_sub_one h
  have hle : ¬offsetAfter (characters text) k < offsetAfter (characters text) last := by
    rcases Nat.lt_or_eq_of_le hlast with hlt | rfl
    · exact not_lt.mpr (offsetAfter_lt hlt (List.getElem?_eq_some_iff.mp h).1.le).le
    · exact lt_irrefl _
  rcases character_cases hwell hmem with ⟨u, rfl, hhigh, hlow⟩ | ⟨u, v, rfl, hhigh, hlow⟩
  · rw [List.length_singleton] at hoffset
    rw [hoffset, Nat.add_sub_cancel, List.getLast?_singleton] at hlastUnit
    rw [hoffset, searchLeft, if_neg hle]
    simp only [hlastUnit, Option.some.injEq, List.cons.injEq, and_true, Option.any_some, hlow,
      Bool.false_eq_true, if_false, classOf, hhigh]
    by_cases htab : u = tab
    · rw [if_pos htab, if_pos htab]
    · have hback := computeCharWidth_backwards hcontrols (mem_of_mem_characters hmem (by simp)) htab
        (columnAfter settings ((characters text).take k))
      have hpassed : st.visibleColumn - (if isFullWidthCharacter u then
          (settings.columnsForFullWidthChar : ℚ) else 1) =
          columnAfter settings ((characters text).take k) := by
        rw [hvisible, hcolumn, characterWidth, hhigh, if_neg Bool.false_ne_true, hback, add_sub_cancel_right]
      rw [if_neg htab, if_neg htab]
      simp only [LeftState.passed, LeftState.forced, List.getLast?_singleton, classOf, hhigh]
      by_cases hforced : st.forcedBreakOffset = 0 <;>
        simp only [hforced, if_true, if_false, hpassed, Bool.false_eq_true]
  · have hlength : [u, v].length = 2 := rfl
    rw [hlength] at hoffset
    have htwo : offsetAfter (characters text) k + 2 - 1 = offsetAfter (characters text) k + 1 := rfl
    rw [hoffset, htwo, List.getLast?_cons_cons, List.getLast?_singleton] at hlastUnit
    have htab : v ≠ tab := by
      rintro rfl
      exact absurd hlow (by decide)
    have hpair : [u, v] ≠ [tab] := by simp
    have hle' : ¬offsetAfter (characters text) k + 1 < offsetAfter (characters text) last := by omega
    have hpassed : st.visibleColumn - 2 = columnAfter settings ((characters text).take k) := by
      rw [hvisible, hcolumn, characterWidth, if_pos hhigh, add_sub_cancel_right]
    rw [hoffset, searchLeft, if_neg hle', if_neg hpair]
    simp only [hlastUnit, Option.some.injEq, if_neg htab, Option.any_some, hlow, if_true, classOf,
        hhigh,
      LeftState.passed, LeftState.forced, List.getLast?_cons_cons, List.getLast?_singleton, searchLeft]
    by_cases hforced : st.forcedBreakOffset = 0 <;> simp only [hforced, if_true, if_false, hpassed]

theorem canBreak_last_unit (hwell : wellFormed text) (h : (characters text)[k]? = some ch) :
    canBreak (classBehind settings (characters text) k) ch.getLast? (classOf settings ch)
      (settings.wordBreak = .keepAll) = (lineOf settings text false).canBreak k := by
  rcases character_cases hwell (List.mem_of_getElem? h) with ⟨u, rfl, -, -⟩ | ⟨u, v, rfl, hhigh, hlow⟩
  · rw [canBreak_lineOf_false h, List.getLast?_singleton]
  · have hu : u ≠ space := by
      rintro rfl
      exact absurd hhigh (by decide)
    have hv : v ≠ space := by
      rintro rfl
      exact absurd hlow (by decide)
    rw [canBreak_lineOf_false h, List.getLast?_cons_cons, List.getLast?_singleton, canBreak, canBreak]
    simp only [ne_eq, Option.some.injEq, hu, hv]

structure LeftFound (settings : WrapSettings) (text : JsString) (width limit : ℚ) (last k : Nat)
    (st : LeftState) (found : FoundBreaks) : Prop where
  kept : st.forcedBreakOffset ≠ 0 → found.forcedBreakOffset = st.forcedBreakOffset ∧
    found.forcedBreakOffsetVisibleColumn = st.forcedBreakOffsetVisibleColumn
  forced : st.forcedBreakOffset = 0 →
    (∃ j, last < j ∧ j ≤ k ∧ columnAfter settings ((characters text).take j) ≤ limit ∧
      (∀ i, j < i → i ≤ k → limit < columnAfter settings ((characters text).take i)) ∧
      found.forcedBreakOffset = offsetAfter (characters text) j ∧
      found.forcedBreakOffsetVisibleColumn = columnAfter settings ((characters text).take j)) ∨
    found.forcedBreakOffset = 0 ∧ ∀ i, last < i → i ≤ k → limit < columnAfter settings ((characters text).take i)
  chosen : (found.breakOffset = 0 ∧ ∀ j, last < j → j ≤ k →
      columnAfter settings ((characters text).take j) ≤ limit →
      (lineOf settings text false).canBreak j = true →
      columnAfter settings ((characters text).take j) ≤ limit - width) ∨
    ∃ p, last < p ∧ p ≤ k ∧ (lineOf settings text false).canBreak p = true ∧
      columnAfter settings ((characters text).take p) ≤ limit ∧
      (∀ j, p < j → j ≤ k → columnAfter settings ((characters text).take j) ≤ limit →
        (lineOf settings text false).canBreak j = false) ∧
      found.breakOffset = offsetAfter (characters text) p ∧
      found.breakOffsetVisibleColumn = columnAfter settings ((characters text).take p)

theorem searchLeft_last (lastOffset : Nat) (st : LeftState) :
    searchLeft settings text width limit lastOffset lastOffset false st = st.result 0 0 false := by
  cases lastOffset with
  | zero => rfl
  | succ i => rw [searchLeft, if_pos (Nat.lt_succ_self i)]

theorem LeftFound.of_over {st : LeftState} {found : FoundBreaks} {ch : JsString}
    (hover : limit < columnAfter settings ((characters text).take (k + 1)))
    (h : LeftFound settings text width limit last k
      (st.passed settings (columnAfter settings ((characters text).take k)) ch) found) :
    LeftFound settings text width limit last (k + 1) st found := by
  refine ⟨h.kept, fun hzero => ?_, ?_⟩
  · rcases h.forced hzero with ⟨j, hj, hjk, hcol, hgt, hforced⟩ | ⟨hnone, hgt⟩
    · refine .inl ⟨j, hj, by omega, hcol, fun i hji hik => ?_, hforced⟩
      rcases Nat.le_succ_iff.mp hik with hik | rfl
      · exact hgt i hji hik
      · exact hover
    · refine .inr ⟨hnone, fun i hi hik => ?_⟩
      rcases Nat.le_succ_iff.mp hik with hik | rfl
      · exact hgt i hi hik
      · exact hover
  · rcases h.chosen with ⟨hnone, hno⟩ | ⟨p, hp, hpk, hcan, hcol, hno, hoffset⟩
    · refine .inl ⟨hnone, fun j hj hjk hcol hcan => ?_⟩
      rcases Nat.le_succ_iff.mp hjk with hjk | rfl
      · exact hno j hj hjk hcol hcan
      · exact absurd hover (not_lt.mpr hcol)
    · refine .inr ⟨p, hp, by omega, hcan, hcol, fun j hj hjk hcolj => ?_, hoffset⟩
      rcases Nat.le_succ_iff.mp hjk with hjk | rfl
      · exact hno j hj hjk hcolj
      · exact absurd hover (not_lt.mpr hcolj)

theorem forced_ne_zero (st : LeftState) {offset : Nat} (h : offset ≠ 0) :
    (st.forced offset).forcedBreakOffset ≠ 0 := by
  rw [LeftState.forced]
  split_ifs with hzero
  · exact h
  · exact hzero

theorem LeftFound.of_forced {st : LeftState} {found : FoundBreaks} (hlast : last ≤ k)
    (hvisible : st.visibleColumn = columnAfter settings ((characters text).take (k + 1)))
    (hcol : columnAfter settings ((characters text).take (k + 1)) ≤ limit)
    (hforced : found.forcedBreakOffset =
        (st.forced (offsetAfter (characters text) (k + 1))).forcedBreakOffset ∧
      found.forcedBreakOffsetVisibleColumn =
        (st.forced (offsetAfter (characters text) (k + 1))).forcedBreakOffsetVisibleColumn)
    (hchosen : (found.breakOffset = 0 ∧ ∀ j, last < j → j ≤ k + 1 →
        columnAfter settings ((characters text).take j) ≤ limit →
        (lineOf settings text false).canBreak j = true →
        columnAfter settings ((characters text).take j) ≤ limit - width) ∨
      ∃ p, last < p ∧ p ≤ k + 1 ∧ (lineOf settings text false).canBreak p = true ∧
        columnAfter settings ((characters text).take p) ≤ limit ∧
        (∀ j, p < j → j ≤ k + 1 → columnAfter settings ((characters text).take j) ≤ limit →
          (lineOf settings text false).canBreak j = false) ∧
        found.breakOffset = offsetAfter (characters text) p ∧
        found.breakOffsetVisibleColumn = columnAfter settings ((characters text).take p)) :
    LeftFound settings text width limit last (k + 1) st found := by
  refine ⟨fun hne => ?_, fun hzero => .inl
      ⟨k + 1, by omega, le_rfl, hcol, fun i hi hik => by omega, ?_⟩,
    hchosen⟩
  · rwa [LeftState.forced, if_neg hne] at hforced
  · rw [LeftState.forced, if_pos hzero, hvisible] at hforced
    exact hforced

theorem searchLeft_spec (htab : 1 ≤ settings.tabSize) (hwell : wellFormed text)
    (hplain : PlainPairs settings text) (hcontrols : PlainControls settings text) (hlast : last ≤ k)
    (hk : k ≤ (characters text).length) {st : LeftState}
    (hvisible : st.visibleColumn = columnAfter settings ((characters text).take k))
    (hcode : columnAfter settings ((characters text).take k) ≤ limit →
      canBreak (classBehind settings (characters text) k) st.charCode st.charCodeClass
        (settings.wordBreak = .keepAll) = (lineOf settings text false).canBreak k)
    {res : FoundBreaks × Bool} (hres : searchLeft settings text width limit
      (offsetAfter (characters text) last) (offsetAfter (characters text) k) false st = res) :
    res.2 = true ∧ last < k ∨
      res.2 = false ∧ LeftFound settings text width limit last k st res.1 := by
  induction k generalizing st with
  | zero =>
    obtain rfl : last = 0 := by omega
    rw [searchLeft_last] at hres
    subst hres
    refine .inr ⟨rfl, fun _ => ⟨rfl, rfl⟩, fun hzero => .inr ⟨hzero, fun i hi hik => by omega⟩,
      .inl ⟨rfl, fun j hj hjk => by omega⟩⟩
  | succ k ih =>
    rcases Nat.lt_or_eq_of_le hlast with hlt | rfl
    · have hget := List.getElem?_eq_getElem (show k < (characters text).length by omega)
      generalize (characters text)[k] = ch at hget
      have hle : last ≤ k := by omega
      have hclass := classBehind_eq hwell hplain hget
      rw [searchLeft_step hwell hcontrols hle hget hvisible, hvisible] at hres
      split_ifs at hres with hhit hcol hfar hcan
      · subst hres
        exact .inl ⟨rfl, hlt⟩
      · subst hres
        refine .inr ⟨rfl, .of_forced hle hvisible hcol ⟨rfl, rfl⟩ (.inl ⟨rfl, fun j hj hjk _ _ => ?_⟩)⟩
        exact (columnAfter_take_mono htab (characters text) hjk).trans hfar
      · subst hres
        refine .inr ⟨rfl, .of_forced hle hvisible hcol ⟨rfl, rfl⟩
          (.inr ⟨k + 1, hlt, le_rfl, ?_, hcol, fun j hj hjk => by omega, rfl, rfl⟩)⟩
        rw [← hcode hcol, hclass]
        exact hcan
      · have hno : (lineOf settings text false).canBreak (k + 1) = false := by
          rw [← hcode hcol, hclass]
          exact (Bool.not_eq_true _).mp hcan
        rcases ih hle (by omega) rfl (fun _ => canBreak_last_unit hwell hget) hres with
          ⟨htrue, hlt'⟩ | ⟨hfalse, hfound⟩
        · exact .inl ⟨htrue, hlt⟩
        · refine .inr ⟨hfalse, .of_forced hle hvisible hcol (hfound.kept ?_) ?_⟩
          · exact forced_ne_zero st (Nat.ne_zero_of_lt (offsetAfter_lt (Nat.lt_succ_self k) (by omega)))
          · rcases hfound.chosen with ⟨hnone, hleft⟩ | ⟨p, hp, hpk, hcanp, hcolp, hleft, hoffset⟩
            · refine .inl ⟨hnone, fun j hj hjk hcolj hcanj => ?_⟩
              rcases Nat.le_succ_iff.mp hjk with hjk | rfl
              · exact hleft j hj hjk hcolj hcanj
              · rw [hno] at hcanj
                exact absurd hcanj Bool.false_ne_true
            · refine .inr ⟨p, hp, by omega, hcanp, hcolp, fun j hj hjk hcolj => ?_, hoffset⟩
              rcases Nat.le_succ_iff.mp hjk with hjk | rfl
              · exact hleft j hj hjk hcolj
              · exact hno
      · rcases ih hle (by omega) rfl (fun _ => canBreak_last_unit hwell hget) hres with
          ⟨htrue, -⟩ | ⟨hfalse, hfound⟩
        · exact .inl ⟨htrue, hlt⟩
        · exact .inr ⟨hfalse, .of_over (not_le.mp hcol) hfound⟩
    · rw [searchLeft_last] at hres
      subst hres
      refine .inr ⟨rfl, fun _ => ⟨rfl, rfl⟩, fun hzero => .inr ⟨hzero, fun i hi hik => by omega⟩,
        .inl ⟨rfl, fun j hj hjk => by omega⟩⟩

end Left

end Gavea.LineBreaks
