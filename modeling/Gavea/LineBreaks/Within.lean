import Gavea.Lib.LineWrap
import Gavea.LineBreaks.MonospaceLineBreaks

namespace Gavea.LineBreaks

open Gavea.Lib.Js Gavea.Lib.LineWrap Gavea.LineDecorations

/-- A high surrogate and the unit behind it are one character. -/
def characters : JsString → List JsString
  | [] => []
  | [charCode] => [[charCode]]
  | charCode :: next :: rest =>
    if isHighSurrogate charCode then [charCode, next] :: characters rest
    else [charCode] :: characters (next :: rest)

def characterWidth (settings : WrapSettings) (visibleColumn : ℚ) : JsString → ℚ
  | [] => 0
  | charCode :: _ =>
    if isHighSurrogate charCode then 2
    else computeCharWidth charCode visibleColumn settings.tabSize settings.columnsForFullWidthChar

def columnAfter (settings : WrapSettings) (cs : List JsString) : ℚ :=
  cs.foldl (fun visibleColumn ch => visibleColumn + characterWidth settings visibleColumn ch) 0

def visibleColumnAt (settings : WrapSettings) (text : JsString) (offset : Nat) : ℚ :=
  columnAfter settings (characters (text.take offset))

def offsetAfter (cs : List JsString) (k : Nat) : Nat := (cs.take k).flatten.length

def classOf (settings : WrapSettings) : JsString → CharacterClass
  | [] => .none
  | charCode :: _ => if isHighSurrogate charCode then .none else settings.classifier.get charCode

def classBehind (settings : WrapSettings) (cs : List JsString) (k : Nat) : CharacterClass :=
  match cs.getD (k - 1) [] with
  | [] => .none
  | charCode :: rest =>
    if isHighSurrogate charCode then
      if k = 1 then settings.classifier.get rest.head? else .none
    else settings.classifier.get charCode

def lastUnitAt (cs : List JsString) (k : Nat) : Nat :=
  offsetAfter cs k + if (cs.getD k []).head?.any isHighSurrogate then 1 else 0

def lineOf (settings : WrapSettings) (text : JsString) (wrapOnEscapedLineFeeds : Bool) : Line ℚ where
  length := (characters text).length
  column k := columnAfter settings ((characters text).take k)
  mustBreak k := wrapOnEscapedLineFeeds && isEscapedLineBreakAtPosition text (lastUnitAt (characters text) k)
  canBreak k :=
    wrapOnEscapedLineFeeds && isEscapedLineBreakAtPosition text (lastUnitAt (characters text) k) ||
      canBreak (classBehind settings (characters text) k) ((characters text).getD k []).head?
        (classOf settings ((characters text).getD k [])) (settings.wordBreak = .keepAll)

section Characters

variable {text c : JsString} {cs : List JsString} {k : Nat}

theorem flatten_characters (text : JsString) : (characters text).flatten = text := by
  induction text using characters.induct with
  | case1 => rfl
  | case2 charCode => rfl
  | case3 charCode next rest hhigh ih =>
    rw [characters, if_pos hhigh, List.flatten_cons, ih]
    rfl
  | case4 charCode next rest hhigh ih =>
    rw [characters, if_neg hhigh, List.flatten_cons, ih]
    rfl

theorem characters_cons_of_not_high {charCode : CodeUnit} (h : ¬isHighSurrogate charCode)
    (rest : JsString) : characters (charCode :: rest) = [charCode] :: characters rest := by
  cases rest with
  | nil => rfl
  | cons next rest => rw [characters, if_neg h]

theorem ne_nil_of_mem_characters (h : c ∈ characters text) : c ≠ [] := by
  induction text using characters.induct with
  | case1 => exact absurd h List.not_mem_nil
  | case2 charCode =>
    rw [characters, List.mem_singleton] at h
    rw [h]
    exact List.cons_ne_nil _ _
  | case3 charCode next rest hhigh ih =>
    rw [characters, if_pos hhigh, List.mem_cons] at h
    rcases h with rfl | h
    · exact List.cons_ne_nil _ _
    · exact ih h
  | case4 charCode next rest hhigh ih =>
    rw [characters, if_neg hhigh, List.mem_cons] at h
    rcases h with rfl | h
    · exact List.cons_ne_nil _ _
    · exact ih h

theorem characters_flatten_take (text : JsString) (k : Nat) :
    characters ((characters text).take k).flatten = (characters text).take k := by
  induction text using characters.induct generalizing k with
  | case1 => rw [characters, List.take_nil]; rfl
  | case2 charCode =>
    cases k with
    | zero => rw [List.take_zero]; rfl
    | succ k => rw [characters, List.take_succ_cons, List.take_nil]; rfl
  | case3 charCode next rest hhigh ih =>
    cases k with
    | zero => rw [List.take_zero]; rfl
    | succ k =>
      rw [characters, if_pos hhigh, List.take_succ_cons, List.flatten_cons, List.cons_append,
        List.cons_append, List.nil_append, characters, if_pos hhigh, ih]
  | case4 charCode next rest hhigh ih =>
    cases k with
    | zero => rw [List.take_zero]; rfl
    | succ k =>
      rw [characters, if_neg hhigh, List.take_succ_cons, List.flatten_cons, List.cons_append,
        List.nil_append, characters_cons_of_not_high hhigh, ih]

theorem take_offsetAfter (text : JsString) (k : Nat) :
    text.take (offsetAfter (characters text) k) = ((characters text).take k).flatten := by
  have hsplit := congrArg List.flatten (List.take_append_drop k (characters text))
  rw [List.flatten_append, flatten_characters] at hsplit
  calc text.take (offsetAfter (characters text) k)
      = (((characters text).take k).flatten ++ ((characters text).drop k).flatten).take
          ((characters text).take k).flatten.length := by rw [hsplit, offsetAfter]
    _ = ((characters text).take k).flatten := List.take_left

theorem visibleColumnAt_offsetAfter (settings : WrapSettings) (text : JsString) (k : Nat) :
    visibleColumnAt settings text (offsetAfter (characters text) k) =
      columnAfter settings ((characters text).take k) := by
  rw [visibleColumnAt, take_offsetAfter, characters_flatten_take]

theorem columnAfter_take_succ (settings : WrapSettings) {ch : JsString} (h : cs[k]? = some ch) :
    columnAfter settings (cs.take (k + 1)) = columnAfter settings (cs.take k) +
      characterWidth settings (columnAfter settings (cs.take k)) ch := by
  rw [List.take_add_one, h, Option.toList_some, columnAfter, List.foldl_concat]
  rfl

theorem offsetAfter_succ {ch : JsString} (h : cs[k]? = some ch) :
    offsetAfter cs (k + 1) = offsetAfter cs k + ch.length := by
  rw [offsetAfter, List.take_add_one, h, Option.toList_some, List.flatten_append, List.length_append,
    List.flatten_singleton, offsetAfter]

theorem offsetAfter_lt {p : Nat} (hpk : p < k) (hk : k ≤ (characters text).length) :
    offsetAfter (characters text) p < offsetAfter (characters text) k := by
  induction k with
  | zero => exact absurd hpk (Nat.not_lt_zero p)
  | succ k ih =>
    have hget := List.getElem?_eq_getElem (show k < (characters text).length by omega)
    have hne := List.length_pos_iff.mpr (ne_nil_of_mem_characters (List.mem_of_getElem? hget))
    have hlast := offsetAfter_succ hget
    rcases Nat.lt_succ_iff_lt_or_eq.mp hpk with hlt | rfl
    · have := ih hlt (by omega)
      omega
    · omega

theorem offsetAfter_length (text : JsString) :
    offsetAfter (characters text) (characters text).length = text.length := by
  rw [offsetAfter, List.take_length, flatten_characters]

end Characters

section Loop

variable (settings : WrapSettings) (wrappedLineBreakColumn : ℚ) (lineText : JsString)
  (wrapOnEscapedLineFeeds : Bool)

def characterStep (i : Nat) (ch : JsString) (st : BreakState) : BreakState :=
  match ch with
  | [] => st
  | charCode :: _ =>
    breakStep settings wrappedLineBreakColumn i charCode (classOf settings ch)
      (characterWidth settings st.visibleColumn ch)
      (wrapOnEscapedLineFeeds &&
        isEscapedLineBreakAtPosition lineText (i + if isHighSurrogate charCode then 1 else 0)) st

def characterLoop : Nat → List JsString → BreakState → BreakState
  | _, [], st => st
  | i, ch :: cs, st =>
    characterLoop (i + ch.length) cs
      (characterStep settings wrappedLineBreakColumn lineText wrapOnEscapedLineFeeds i ch st)

variable {settings wrappedLineBreakColumn lineText wrapOnEscapedLineFeeds}

theorem breakLoop_eq (i : Nat) (rest : List CodeUnit) (st : BreakState) :
    breakLoop settings wrappedLineBreakColumn lineText wrapOnEscapedLineFeeds i rest st =
      characterLoop settings wrappedLineBreakColumn lineText wrapOnEscapedLineFeeds i
        (characters rest) st := by
  induction rest using characters.induct generalizing i st with
  | case1 => rfl
  | case2 charCode =>
    rw [characters, characterLoop, characterLoop, breakLoop, characterStep, classOf, characterWidth]
    split_ifs <;> rfl
  | case3 charCode next rest hhigh ih =>
    rw [characters, if_pos hhigh, breakLoop, if_pos hhigh, ih, characterLoop, characterStep,
        classOf,
      characterWidth]
    simp only [if_pos hhigh]
    rfl
  | case4 charCode next rest hhigh ih =>
    rw [characters, if_neg hhigh, breakLoop, if_neg hhigh, ih, characterLoop, characterStep,
        classOf,
      characterWidth]
    simp only [if_neg hhigh]
    rfl

theorem computeCharWidth_of_high {charCode : CodeUnit} (h : isHighSurrogate charCode)
    (visibleColumn : ℚ) (tabSize : Nat) (columns : ℚ) :
    computeCharWidth charCode visibleColumn tabSize columns = 1 := by
  simp only [isHighSurrogate, Bool.and_eq_true, decide_eq_true_eq, UInt16.le_iff_toNat_le] at h
  obtain ⟨hlow, hhigh⟩ := h
  have hlow : 0xD800 ≤ charCode.toNat := hlow
  have hhigh : charCode.toNat ≤ 0xDBFF := hhigh
  have hne : charCode ≠ tab := by
    rintro rfl
    exact absurd hlow (by decide)
  have hwidth : isFullWidthCharacter charCode = false := by
    simp only [isFullWidthCharacter, Bool.or_eq_false_iff, decide_eq_false_iff_not,
      UInt16.le_iff_toNat_le, not_and, not_le]
    have h1 : (0xD7AF : CodeUnit).toNat = 0xD7AF := rfl
    have h2 : (0xF900 : CodeUnit).toNat = 0xF900 := rfl
    have h3 : (0xFF01 : CodeUnit).toNat = 0xFF01 := rfl
    have h4 : (0xFFE0 : CodeUnit).toNat = 0xFFE0 := rfl
    omega
  have hctrl : ¬charCode < 32 := by
    rw [UInt16.lt_iff_toNat_lt, not_lt]
    exact le_trans (by decide) hlow
  rw [computeCharWidth, if_neg hne, hwidth, if_neg Bool.false_ne_true, if_neg hctrl]

theorem remainder_lt (x : ℚ) {n : Nat} (hn : 1 ≤ n) : remainder x n < n := by
  have hpos : (0 : ℚ) < n := by exact_mod_cast hn
  rw [remainder]
  split_ifs with hx
  · have hfloor := Int.lt_floor_add_one (x / n)
    rw [div_lt_iff₀ hpos] at hfloor
    linarith
  · have hceil := Int.le_ceil (x / n)
    rw [div_le_iff₀ hpos] at hceil
    linarith

theorem computeCharWidth_nonneg (htab : 1 ≤ settings.tabSize) (charCode : CodeUnit) (v : ℚ) :
    0 ≤ computeCharWidth charCode v settings.tabSize settings.columnsForFullWidthChar := by
  have hcolumns : (0 : ℚ) ≤ settings.columnsForFullWidthChar := settings.columnsForFullWidthChar.2
  rw [computeCharWidth]
  split_ifs
  · exact sub_nonneg.mpr (remainder_lt v htab).le
  · exact hcolumns
  · exact hcolumns
  · exact zero_le_one

theorem characterWidth_nonneg (htab : 1 ≤ settings.tabSize) (v : ℚ) (ch : JsString) :
    0 ≤ characterWidth settings v ch := by
  cases ch with
  | nil => exact le_rfl
  | cons charCode rest =>
    rw [characterWidth]
    split_ifs
    · exact zero_le_two
    · exact computeCharWidth_nonneg htab charCode v

theorem columnAfter_take_mono (htab : 1 ≤ settings.tabSize) (cs : List JsString) {j k : Nat}
    (h : j ≤ k) : columnAfter settings (cs.take j) ≤ columnAfter settings (cs.take k) := by
  induction k with
  | zero => rw [Nat.le_zero.mp h]
  | succ k ih =>
    rcases Nat.le_succ_iff.mp h with hle | rfl
    · refine (ih hle).trans ?_
      rcases hget : cs[k]? with - | ch
      · rw [List.take_add_one, hget, Option.toList_none, List.append_nil]
      · rw [columnAfter_take_succ settings hget]
        exact le_add_of_nonneg_right (characterWidth_nonneg htab _ _)
    · exact le_rfl

end Loop

section Wraps

variable {settings : WrapSettings} {width limit : ℚ} {text : JsString} {wrapFeeds : Bool}
  {last k : Nat} {st : BreakState} {ch : JsString}

def FoundAt (settings : WrapSettings) (cs : List JsString) (breakOffset : Nat)
    (breakOffsetVisibleColumn : ℚ) : Option Nat → Prop
  | none => breakOffset = 0
  | some p => breakOffset = offsetAfter cs p ∧ breakOffsetVisibleColumn = columnAfter settings (cs.take p)

structure BreakInv (settings : WrapSettings) (text : JsString) (wrapFeeds : Bool) (last k : Nat)
    (limit : ℚ) (st : BreakState) : Prop where
  lt : last < k
  visibleColumn : st.visibleColumn = columnAfter settings ((characters text).take k)
  prevClass : st.prevCharCodeClass = classBehind settings (characters text) k
  breakingColumn : st.breakingColumn = limit
  found : FoundAt settings (characters text) st.breakOffset st.breakOffsetVisibleColumn
    (latest (lineOf settings text wrapFeeds).canBreak last (k - 1))
  fits : Fits (lineOf settings text wrapFeeds) last k limit

theorem latest_here {canBreak : Nat → Bool} (h : last < k) : latest canBreak last k =
    if canBreak k then some k else latest canBreak last (k - 1) := by
  obtain ⟨j, rfl⟩ : ∃ j, k = j + 1 := ⟨k - 1, by omega⟩
  rw [latest, if_neg (not_le.mpr h), Nat.add_sub_cancel]

theorem classBehind_succ (settings : WrapSettings) (h : (characters text)[k]? = some ch)
    (hk : 0 < k) :
    classBehind settings (characters text) (k + 1) = classOf settings ch := by
  have hne : ch ≠ [] := ne_nil_of_mem_characters (List.mem_of_getElem? h)
  rw [classBehind, Nat.add_sub_cancel, List.getD_eq_getElem?_getD, h, Option.getD_some]
  cases ch with
  | nil => exact absurd rfl hne
  | cons charCode rest =>
    have hne1 : k + 1 ≠ 1 := by omega
    simp only [if_neg hne1, classOf]

theorem FoundAt.next (hinv : BreakInv settings text wrapFeeds last k limit st) :
    FoundAt settings (characters text)
      (if (lineOf settings text wrapFeeds).canBreak k then offsetAfter (characters text) k
        else st.breakOffset)
      (if (lineOf settings text wrapFeeds).canBreak k then st.visibleColumn
        else st.breakOffsetVisibleColumn)
      (latest (lineOf settings text wrapFeeds).canBreak last k) := by
  rw [latest_here hinv.lt]
  split_ifs
  · exact ⟨rfl, hinv.visibleColumn⟩
  · exact hinv.found

section Character

variable {charCode : CodeUnit} {rest : JsString}

theorem mustBreak_lineOf (settings : WrapSettings) (wrapFeeds : Bool)
    (h : (characters text)[k]? = some (charCode :: rest)) :
    (lineOf settings text wrapFeeds).mustBreak k = (wrapFeeds && isEscapedLineBreakAtPosition text
      (offsetAfter (characters text) k + if isHighSurrogate charCode then 1 else 0)) := by
  have hget : (characters text).getD k [] = charCode :: rest := by
    rw [List.getD_eq_getElem?_getD, h, Option.getD_some]
  simp only [lineOf, lastUnitAt, hget, List.head?_cons, Option.any_some]

theorem canBreak_lineOf (settings : WrapSettings) (wrapFeeds : Bool)
    (h : (characters text)[k]? = some (charCode :: rest)) :
    (lineOf settings text wrapFeeds).canBreak k = ((lineOf settings text wrapFeeds).mustBreak k ||
      canBreak (classBehind settings (characters text) k) (some charCode)
        (classOf settings (charCode :: rest)) (settings.wordBreak = .keepAll)) := by
  have hget : (characters text).getD k [] = charCode :: rest := by
    rw [List.getD_eq_getElem?_getD, h, Option.getD_some]
  simp only [lineOf, hget, List.head?_cons]

end Character

theorem canBreak_of_mustBreak (h : (lineOf settings text wrapFeeds).mustBreak k = true) :
    (lineOf settings text wrapFeeds).canBreak k = true := by
  simp only [lineOf] at h ⊢
  rw [h, Bool.true_or]

theorem FoundAt.chosen {breakOffset r : Nat} {breakOffsetVisibleColumn : ℚ}
    (hfound : FoundAt settings (characters text) breakOffset breakOffsetVisibleColumn
      (latest (lineOf settings text wrapFeeds).canBreak last k))
    (h : (characters text)[k]? = some ch)
    (hr : breakAt (lineOf settings text wrapFeeds) width last k = r) :
    (breakOffset = 0 ∨ columnAfter settings ((characters text).take (k + 1)) -
        breakOffsetVisibleColumn > width → r = k) ∧
      (¬(breakOffset = 0 ∨ columnAfter settings ((characters text).take (k + 1)) -
        breakOffsetVisibleColumn > width) → breakOffset = offsetAfter (characters text) r ∧
          breakOffsetVisibleColumn = columnAfter settings ((characters text).take r)) := by
  have hk : k < (characters text).length := (List.getElem?_eq_some_iff.mp h).1
  rw [breakAt] at hr
  rcases hlatest : latest (lineOf settings text wrapFeeds).canBreak last k with - | p
  · rw [hlatest] at hfound hr
    exact ⟨fun _ => hr.symm, fun hno => absurd (.inl hfound) hno⟩
  · rw [hlatest] at hfound hr
    obtain ⟨rfl, rfl⟩ := hfound
    obtain ⟨hlast, hle, -, -⟩ := latest_spec hlatest
    have hpos : 0 < offsetAfter (characters text) p :=
      (Nat.zero_le _).trans_lt (offsetAfter_lt (lt_of_le_of_lt (Nat.zero_le last) hlast) (by omega))
    refine ⟨fun hchar => ?_, fun hno => ?_⟩
    · have hwide := hchar.resolve_left hpos.ne'
      exact (hr.symm.trans (if_neg (not_le.mpr hwide)))
    · have hfit := not_lt.mp fun hwide => hno (.inr hwide)
      obtain rfl : p = r := (if_pos hfit).symm.trans hr
      exact ⟨rfl, rfl⟩

theorem characterStep_spec (width : ℚ) (htab : 1 ≤ settings.tabSize)
    (h : (characters text)[k]? = some ch)
    (hinv : BreakInv settings text wrapFeeds last k limit st) {r : Nat}
    (hr : breakAt (lineOf settings text wrapFeeds) width last k = r) {st' : BreakState}
    (hst : characterStep settings width text wrapFeeds (offsetAfter (characters text) k) ch st = st') :
    (BreakInv settings text wrapFeeds last (k + 1) limit st' ∧
      st'.breakingOffsets = st.breakingOffsets ∧
      st'.breakingOffsetsVisibleColumn = st.breakingOffsetsVisibleColumn) ∨
    (Overflows (lineOf settings text wrapFeeds) last limit k ∧
      BreakInv settings text wrapFeeds r (k + 1) (columnAfter settings ((characters text).take r) + width) st' ∧
      st'.breakingOffsets = st.breakingOffsets ++ [offsetAfter (characters text) r] ∧
      st'.breakingOffsetsVisibleColumn = st.breakingOffsetsVisibleColumn ++
        [columnAfter settings ((characters text).take r)]) := by
  have hfound := FoundAt.next hinv
  have hnextClass := classBehind_succ settings h (Nat.zero_lt_of_lt hinv.lt)
  have hcolumn := columnAfter_take_succ settings h
  obtain ⟨charCode, rest, rfl⟩ := List.exists_cons_of_ne_nil (ne_nil_of_mem_characters (List.mem_of_getElem? h))
  rw [characterStep, breakStep] at hst
  simp only [← mustBreak_lineOf settings wrapFeeds h, hinv.prevClass, ← canBreak_lineOf settings wrapFeeds h] at hst
  rw [← hinv.visibleColumn] at hcolumn
  simp only [← hcolumn, hinv.breakingColumn] at hst
  generalize (if (lineOf settings text wrapFeeds).canBreak k then offsetAfter (characters text) k
    else st.breakOffset) = breakOffset at hst hfound
  generalize (if (lineOf settings text wrapFeeds).canBreak k then st.visibleColumn
    else st.breakOffsetVisibleColumn) = breakOffsetVisibleColumn at hst hfound
  have hback : columnAfter settings ((characters text).take (k + 1)) -
      characterWidth settings st.visibleColumn (charCode :: rest) =
      columnAfter settings ((characters text).take k) := by
    rw [hcolumn, hinv.visibleColumn, add_sub_cancel_right]
  rw [hback] at hst
  obtain ⟨hatChar, hatFound⟩ := hfound.chosen h hr
  have hmono (j : Nat) (hj : j ≤ k) : (lineOf settings text wrapFeeds).column (j + 1) ≤
      (lineOf settings text wrapFeeds).column (k + 1) :=
    columnAfter_take_mono htab (characters text) (Nat.succ_le_succ hj)
  have hbreak : Overflows (lineOf settings text wrapFeeds) last limit k →
      st'.prevCharCodeClass = classOf settings (charCode :: rest) →
      st'.visibleColumn = columnAfter settings ((characters text).take (k + 1)) →
      st'.breakingColumn = columnAfter settings ((characters text).take r) + width →
      st'.breakOffset = 0 →
      BreakInv settings text wrapFeeds r (k + 1)
        (columnAfter settings ((characters text).take r) + width) st' := by
    intro hover hclass hvisible hbreaking hzero
    have hle : r ≤ k := hr ▸ (breakAt_bounds _ _ hinv.lt).2
    refine ⟨Nat.lt_succ_of_le hle, hvisible, hclass.trans hnextClass.symm, hbreaking, ?_, ?_⟩
    · rw [Nat.add_sub_cancel, ← hr, latest_breakAt]
      exact hzero
    · rw [← hr]
      exact fits_breakAt hmono fun _ => canBreak_of_mustBreak
  split_ifs at hst with hover hchar
  · subst hst
    obtain rfl := hatChar hchar
    have hoverflows : Overflows (lineOf settings text wrapFeeds) last limit r :=
      ⟨hinv.lt, (List.getElem?_eq_some_iff.mp h).1, hover, hinv.fits⟩
    exact .inr ⟨hoverflows, hbreak hoverflows rfl rfl rfl rfl, rfl, rfl⟩
  · subst hst
    obtain ⟨rfl, rfl⟩ := hatFound hchar
    have hoverflows : Overflows (lineOf settings text wrapFeeds) last limit k :=
      ⟨hinv.lt, (List.getElem?_eq_some_iff.mp h).1, hover, hinv.fits⟩
    exact .inr ⟨hoverflows, hbreak hoverflows rfl rfl rfl rfl, rfl, rfl⟩
  · subst hst
    obtain ⟨hcol, hno⟩ := not_or.mp hover
    refine .inl ⟨⟨hinv.lt.trans (Nat.lt_succ_self k), rfl, hnextClass.symm, rfl, ?_, ?_⟩, rfl, rfl⟩
    · rw [Nat.add_sub_cancel]
      exact hfound
    · intro j hj hjk
      rcases Nat.lt_succ_iff_lt_or_eq.mp hjk with hlt | rfl
      · exact hinv.fits j hj hlt
      · exact ⟨not_lt.mp hcol, (Bool.not_eq_true _).mp hno⟩

theorem characterLoop_spec (htab : 1 ≤ settings.tabSize) {cs : List JsString}
    (hcs : (characters text).drop k = cs) (hk : k ≤ (characters text).length)
    (hinv : BreakInv settings text wrapFeeds last k limit st) {st' : BreakState}
    (hst : characterLoop settings width text wrapFeeds (offsetAfter (characters text) k) cs st = st') :
    ∃ breaks, Wraps (lineOf settings text wrapFeeds) width last limit breaks ∧
      st'.breakingOffsets = st.breakingOffsets ++ breaks.map (offsetAfter (characters text)) ∧
      st'.breakingOffsetsVisibleColumn = st.breakingOffsetsVisibleColumn ++
        breaks.map (fun r => columnAfter settings ((characters text).take r)) ∧
      st'.visibleColumn = columnAfter settings (characters text) := by
  induction cs generalizing k last limit st with
  | nil =>
    have hlength : k = (characters text).length := le_antisymm hk (List.drop_eq_nil_iff.mp hcs)
    subst hst
    refine ⟨[], .rest ?_, ?_, ?_, ?_⟩
    · have hfits := hinv.fits
      rwa [hlength] at hfits
    · rw [List.map_nil, List.append_nil, characterLoop]
    · rw [List.map_nil, List.append_nil, characterLoop]
    · rw [characterLoop, hinv.visibleColumn, hlength, List.take_length]
  | cons ch cs ih =>
    have hget : (characters text)[k]? = some ch := by
      rw [← List.head?_drop, hcs, List.head?_cons]
    have hnext : (characters text).drop (k + 1) = cs := by
      rw [← List.tail_drop, hcs, List.tail_cons]
    have hlt : k < (characters text).length := (List.getElem?_eq_some_iff.mp hget).1
    rw [characterLoop, ← offsetAfter_succ hget] at hst
    rcases characterStep_spec width htab hget hinv rfl rfl with
      ⟨hinv', hoffsets, hcolumns⟩ | ⟨hover, hinv', hoffsets, hcolumns⟩
    · obtain ⟨breaks, hwraps, hoffsets', hcolumns', hvisible⟩ := ih hnext hlt hinv' hst
      rw [hoffsets] at hoffsets'
      rw [hcolumns] at hcolumns'
      exact ⟨breaks, hwraps, hoffsets', hcolumns', hvisible⟩
    · obtain ⟨breaks, hwraps, hoffsets', hcolumns', hvisible⟩ := ih hnext hlt hinv' hst
      rw [hoffsets, List.append_assoc] at hoffsets'
      rw [hcolumns, List.append_assoc] at hcolumns'
      exact ⟨_, .next hover hwraps, hoffsets', hcolumns', hvisible⟩

theorem breakInv_start (settings : WrapSettings) (text : JsString) (wrapFeeds : Bool) (limit : ℚ) :
    BreakInv settings text wrapFeeds 0 1 limit
      ⟨0, 0, limit, classBehind settings (characters text) 1,
        columnAfter settings ((characters text).take 1), [], []⟩ where
  lt := zero_lt_one
  visibleColumn := rfl
  prevClass := rfl
  breakingColumn := rfl
  found := rfl
  fits _ hk hk1 := absurd hk1 (not_lt.mpr hk)

theorem breakAll_eq (settings : WrapSettings) (text : JsString) (wrapFeeds : Bool) (first : Int)
    (hlength : 2 ≤ text.length) : breakAll settings width first wrapFeeds text =
      characterLoop settings width text wrapFeeds (offsetAfter (characters text) 1)
        ((characters text).drop 1) ⟨0, 0, first, classBehind settings (characters text) 1,
          columnAfter settings ((characters text).take 1), [], []⟩ := by
  obtain ⟨charCode, next, rest, rfl⟩ : ∃ charCode next rest, text = charCode :: next :: rest := by
    match text, hlength with
    | charCode :: next :: rest, _ => exact ⟨charCode, next, rest, rfl⟩
  rw [breakAll]
  by_cases hhigh : isHighSurrogate charCode
  · have hchars : characters (charCode :: next :: rest) = [charCode, next] :: characters rest := by
      rw [characters, if_pos hhigh]
    simp only [if_pos hhigh, hchars, breakLoop_eq, computeCharWidth_of_high hhigh]
    simp [offsetAfter, classBehind, columnAfter, characterWidth, hhigh]
    norm_num
  · have hchars : characters (charCode :: next :: rest) = [charCode] :: characters (next :: rest)
      := by
      rw [characters, if_neg hhigh]
    simp only [if_neg hhigh, hchars, breakLoop_eq]
    simp [offsetAfter, classBehind, columnAfter, characterWidth, hhigh]

end Wraps

open Gavea.Lib.Js Gavea.Lib.LineWrap Gavea.LineDecorations List

section Within

variable {settings : WrapSettings} {text : JsString} {width limit : ℚ} {wrapFeeds : Bool}
  {last k : Nat} {ch : JsString}

/-- Every surrogate is part of a pair. -/
def wellFormed : JsString → Bool
  | [] => true
  | [charCode] => !isHighSurrogate charCode && !isLowSurrogate charCode
  | charCode :: next :: rest =>
    if isHighSurrogate charCode then isLowSurrogate next && wellFormed rest
    else !isLowSurrogate charCode && wellFormed (next :: rest)

def InsidePair (text : JsString) (offset : Nat) : Prop :=
  (text.take offset).getLast?.any isHighSurrogate ∧ (text.drop offset).head?.any isLowSurrogate

def IsCharacter (text : JsString) : Prop := characters text = [text]

/-- Each view line takes at most the columns there are, or is a single character. -/
def LinesFit (settings : WrapSettings) (text : JsString) (width : ℚ) : Nat → ℚ → List Nat → Prop
  | _, _, [] => True
  | start, limit, stop :: rest =>
    (visibleColumnAt settings text stop - visibleColumnAt settings text start ≤ limit ∨
      IsCharacter ((text.take stop).drop start)) ∧ LinesFit settings text width stop width rest

structure WrapsWithin (settings : WrapSettings) (text : JsString) (wrappingColumn : Int)
    (data : ModelLineProjectionData) : Prop where
  increasing : data.breakOffsets.Pairwise (· < ·)
  complete : data.breakOffsets.getLast? = some text.length
  pairs : ∀ offset ∈ data.breakOffsets, ¬InsidePair text offset
  visibleColumns : data.breakOffsetsVisibleColumn = data.breakOffsets.map (visibleColumnAt settings text)
  fit : LinesFit settings text (wrappingColumn - data.wrappedTextIndentLength) 0 wrappingColumn data.breakOffsets

theorem isHighSurrogate_of_isLowSurrogate {charCode : CodeUnit} (h : isLowSurrogate charCode) :
    isHighSurrogate charCode = false := by
  simp only [isLowSurrogate, isHighSurrogate, Bool.and_eq_true, decide_eq_true_eq,
    UInt16.le_iff_toNat_le, Bool.and_eq_false_iff, decide_eq_false_iff_not, not_le] at h ⊢
  have h1 : (0xDBFF : CodeUnit).toNat = 0xDBFF := rfl
  have h2 : (0xDC00 : CodeUnit).toNat = 0xDC00 := rfl
  omega

theorem last_of_wellFormed (h : wellFormed text) (hch : ch ∈ characters text) :
    ch.getLast?.any isHighSurrogate = false := by
  induction text using characters.induct with
  | case1 => exact absurd hch not_mem_nil
  | case2 charCode =>
    rw [characters, mem_singleton] at hch
    rw [wellFormed, Bool.and_eq_true, Bool.not_eq_true'] at h
    rw [hch]
    exact h.1
  | case3 charCode next rest hhigh ih =>
    rw [wellFormed, if_pos hhigh, Bool.and_eq_true] at h
    rw [characters, if_pos hhigh, mem_cons] at hch
    rcases hch with rfl | hch
    · exact isHighSurrogate_of_isLowSurrogate h.1
    · exact ih h.2 hch
  | case4 charCode next rest hhigh ih =>
    rw [wellFormed, if_neg hhigh, Bool.and_eq_true] at h
    rw [characters, if_neg hhigh, mem_cons] at hch
    rcases hch with rfl | hch
    · exact (Bool.not_eq_true _).mp hhigh
    · exact ih h.2 hch

theorem characters_of_mem (hch : ch ∈ characters text) : IsCharacter ch := by
  induction text using characters.induct with
  | case1 => exact absurd hch not_mem_nil
  | case2 charCode =>
    rw [characters, mem_singleton] at hch
    rw [hch]
    rfl
  | case3 charCode next rest hhigh ih =>
    rw [characters, if_pos hhigh, mem_cons] at hch
    rcases hch with rfl | hch
    · rw [IsCharacter, characters, if_pos hhigh]
      rfl
    · exact ih hch
  | case4 charCode next rest hhigh ih =>
    rw [characters, if_neg hhigh, mem_cons] at hch
    rcases hch with rfl | hch
    · rfl
    · exact ih hch

theorem not_insidePair (h : wellFormed text) (k : Nat) :
    ¬InsidePair text (offsetAfter (characters text) k) := by
  intro ⟨hhigh, _⟩
  rw [take_offsetAfter] at hhigh
  rcases eq_nil_or_concat ((characters text).take k) with hnil | ⟨init, ch, heq⟩
  · rw [hnil] at hhigh
    exact absurd hhigh (by decide)
  · have htake : ch ∈ (characters text).take k := by
      rw [heq, concat_eq_append]
      exact mem_append_right _ (mem_singleton_self ch)
    have hmem := mem_of_mem_take htake
    rw [heq, concat_eq_append, flatten_append, flatten_singleton,
      getLast?_append_of_ne_nil _ (ne_nil_of_mem_characters hmem), last_of_wellFormed h hmem] at hhigh
    exact absurd hhigh (by decide)

theorem slice_character (h : (characters text)[k]? = some ch) :
    (text.take (offsetAfter (characters text) (k + 1))).drop (offsetAfter (characters text) k) = ch
        := by
  rw [take_offsetAfter, take_add_one, h, Option.toList_some, flatten_append, flatten_singleton, offsetAfter, drop_left]

theorem linesFit_of_eachFits {stops : List Nat} (hstops : ∀ r ∈ stops, r ≤ (characters text).length)
    (h : EachFits (lineOf settings text wrapFeeds) width last limit stops) :
    LinesFit settings text width (offsetAfter (characters text) last)
      (limit - columnAfter settings ((characters text).take last))
      (stops.map (offsetAfter (characters text))) := by
  induction stops generalizing last limit with
  | nil => trivial
  | cons r stops ih =>
    obtain ⟨hfit, hrest⟩ := h
    obtain ⟨hr, hstops⟩ := forall_mem_cons.mp hstops
    rw [map_cons, LinesFit, visibleColumnAt_offsetAfter, visibleColumnAt_offsetAfter]
    refine ⟨?_, ?_⟩
    · rcases hfit with hfit | rfl
      · exact .inl (sub_le_sub_right hfit _)
      · have hget := getElem?_eq_getElem (show last < (characters text).length by omega)
        rw [slice_character hget]
        exact .inr (characters_of_mem (mem_of_getElem? hget))
    · have hnext := ih hstops hrest
      rw [lineOf, add_sub_cancel_left] at hnext
      exact hnext

theorem characters_pos (hlength : 2 ≤ text.length) : 0 < (characters text).length := by
  rw [length_pos_iff]
  intro hnil
  have hflat := flatten_characters text
  rw [hnil] at hflat
  rw [← hflat] at hlength
  exact absurd hlength (by decide)

theorem breakAll_spec (htab : 1 ≤ settings.tabSize) (width : ℚ) (wrapFeeds : Bool) (first : Int)
    (hlength : 2 ≤ text.length) {st : BreakState} (hst : breakAll settings width first wrapFeeds text = st) :
    ∃ breaks, Wraps (lineOf settings text wrapFeeds) width 0 first breaks ∧
      st.breakingOffsets = breaks.map (offsetAfter (characters text)) ∧
      st.breakingOffsetsVisibleColumn = breaks.map (fun r => columnAfter settings ((characters text).take r)) ∧
      st.visibleColumn = columnAfter settings (characters text) := by
  rw [breakAll_eq settings text wrapFeeds first hlength] at hst
  exact characterLoop_spec htab rfl (characters_pos hlength) (breakInv_start settings text wrapFeeds first) hst

theorem increasing_offsets {breaks : List Nat}
    (h : (0 :: (breaks ++ [(characters text).length])).Pairwise (· < ·)) :
    ((breaks ++ [(characters text).length]).map (offsetAfter (characters text))).Pairwise (· < ·)
        := by
  have hbreaks := (pairwise_cons.mp h).2
  rw [pairwise_map]
  refine hbreaks.imp_of_mem fun {p r} _ hr hlt => offsetAfter_lt hlt ?_
  rcases mem_append.mp hr with hr | hr
  · exact ((pairwise_append.mp hbreaks).2.2 r hr _ (mem_singleton_self _)).le
  · exact (mem_singleton.mp hr).le

theorem within_of_short (settings : WrapSettings) {wrappingColumn : Int}
    (hcolumn : 1 ≤ wrappingColumn)
    (hlength : text.length ≤ 1)
    (width : ℚ) : ¬InsidePair text text.length ∧
      LinesFit settings text width 0 wrappingColumn [text.length] := by
  refine ⟨fun ⟨_, hlow⟩ => ?_, ?_, trivial⟩
  · rw [drop_length] at hlow
    exact absurd hlow (by decide)
  · rw [take_length, drop_zero]
    match text, hlength with
    | [], _ =>
      have hpos : (0 : ℚ) ≤ wrappingColumn := by exact_mod_cast zero_le_one.trans hcolumn
      exact .inl (by simpa only [length_nil, sub_self] using hpos)
    | [charCode], _ => exact .inr rfl

/-- The breaks increase and end with the text, and each view line fits or is a single character. No
break falls inside a pair where the text with the injected ones is well formed; the visible columns
are given where it has more than one unit. -/
theorem createLineBreaks_within {line : JsString} {injectedTexts : List LineInjectedText}
    {wrappingColumn : Int} {data : ModelLineProjectionData} (htab : 1 ≤ settings.tabSize)
    (hcolumn : 1 ≤ wrappingColumn)
    (h : createLineBreaks settings line injectedTexts wrappingColumn wrapFeeds = some data) :
    data.breakOffsets.Pairwise (· < ·) ∧
      data.breakOffsets.getLast? = some (applyInjectedText line injectedTexts).length ∧
      (wellFormed (applyInjectedText line injectedTexts) → ∀ offset ∈ data.breakOffsets,
        ¬InsidePair (applyInjectedText line injectedTexts) offset) ∧
      (2 ≤ (applyInjectedText line injectedTexts).length → data.breakOffsetsVisibleColumn =
        data.breakOffsets.map (visibleColumnAt settings (applyInjectedText line injectedTexts))) ∧
      LinesFit settings (applyInjectedText line injectedTexts)
        (wrappingColumn - data.wrappedTextIndentLength) 0 wrappingColumn data.breakOffsets := by
  simp only [createLineBreaks] at h
  generalize applyInjectedText line injectedTexts = text at h ⊢
  generalize (if injectedTexts ≠ [] then some (injectedTexts.map (·.content)) else none) = injectionOptions at h
  generalize (if injectedTexts ≠ [] then some (injectedTexts.map fun text => (text.column : Int) - 1)
    else none) = injectionOffsets at h
  by_cases hshort : wrappingColumn = -1 ∨ text.length ≤ 1
  · have hle : text.length ≤ 1 := hshort.resolve_left (by omega)
    rw [if_pos hshort] at h
    split at h
    · exact absurd h nofun
    · obtain rfl := Option.some.inj h
      obtain ⟨hpair, hfit⟩ := within_of_short settings hcolumn hle (wrappingColumn - 0)
      refine ⟨pairwise_singleton _ _, rfl, fun _ offset hoffset => ?_, fun hlong => ?_, hfit⟩
      · rw [mem_singleton.mp hoffset]
        exact hpair
      · omega
  · have hlength : 2 ≤ text.length := by
      have := (not_or.mp hshort).2
      omega
    rw [if_neg hshort] at h
    have hpos := characters_pos hlength
    generalize computeWrappedTextIndentLength settings text wrappingColumn = indent at h
    obtain ⟨breaks, hwraps, hoffsets, hcolumns, hvisible⟩ :=
      breakAll_spec htab (wrappingColumn - indent) wrapFeeds wrappingColumn hlength rfl
    split_ifs at h
    obtain rfl := Option.some.inj h
    obtain ⟨hincreasing, hbounds⟩ := hwraps.increasing hpos
    have hall : (breaks.map (offsetAfter (characters text))) ++ [text.length] =
        (breaks ++ [(characters text).length]).map (offsetAfter (characters text)) := by
      rw [map_append, map_singleton, offsetAfter_length]
    have hle (r : Nat) (hr : r ∈ breaks ++ [(characters text).length]) :
        r ≤ (characters text).length := by
      rcases mem_append.mp hr with hr | hr
      · exact (hbounds r hr).le
      · exact (mem_singleton.mp hr).le
    simp only [hoffsets, hcolumns, hvisible]
    refine ⟨?_, ?_, fun hwell offset hoffset => ?_, fun _ => ?_, ?_⟩
    · rw [hall]
      exact increasing_offsets hincreasing
    · exact getLast?_concat
    · rw [hall] at hoffset
      obtain ⟨r, -, rfl⟩ := mem_map.mp hoffset
      exact not_insidePair hwell r
    · rw [hall, map_map, map_append, map_singleton, Function.comp_apply, visibleColumnAt_offsetAfter, take_length]
      congr 1
      exact map_congr_left fun r _ => (visibleColumnAt_offsetAfter settings text r).symm
    · rw [hall]
      have hfit := linesFit_of_eachFits hle (hwraps.eachFits hpos)
      have hstart : columnAfter settings ((characters text).take 0) = 0 := rfl
      rw [hstart, sub_zero] at hfit
      exact hfit

end Within

section Inputs

/-- A full-width character takes two columns; a line is broken in front of an opening bracket and
behind a space or a period. -/
def sampleSettings : WrapSettings := ⟨.create [40, 91] [32, 46], 4, 2, .same, .normal⟩

/-- The line is `a. 😀😀 b`. -/
theorem createLineBreaks_within_pairs :
    let text : JsString := [97, 46, 32, 0xD83D, 0xDE00, 0xD83D, 0xDE00, 32, 98]
    [3, 7, 9].Pairwise (· < ·) ∧
      [3, 7, 9].getLast? = some (applyInjectedText text []).length ∧
      (wellFormed (applyInjectedText text []) → ∀ offset ∈ [3, 7, 9], ¬InsidePair (applyInjectedText text []) offset) ∧
      (2 ≤ (applyInjectedText text []).length →
        [3, 7, 9] = [3, 7, 9].map (visibleColumnAt sampleSettings (applyInjectedText text []))) ∧
      LinesFit sampleSettings (applyInjectedText text []) ((4 : Int) - (0 : ℚ)) 0 (4 : Int) [3, 7, 9] :=
  @createLineBreaks_within sampleSettings false _ _ 4 ⟨none, none, [3, 7, 9], [3, 7, 9], 0⟩
    (by decide) (by decide) (by decide +kernel)

/-- A single injected unit has no visible column, and an injected high surrogate in front of a pair
is taken together with the high surrogate of the pair. -/
theorem createLineBreaks_not_within :
    (wellFormed [] ∧ createLineBreaks sampleSettings [] [⟨1, [120]⟩] 10 false =
        some ⟨some [0], some [[120]], [1], [], 0⟩ ∧
      ¬WrapsWithin sampleSettings (applyInjectedText [] [⟨1, [120]⟩]) 10 ⟨some [0], some [[120]], [1], [], 0⟩) ∧
    wellFormed [0xD83D, 0xDE00] ∧
      createLineBreaks sampleSettings [0xD83D, 0xDE00] [⟨1, [0xD83D]⟩] 2 false =
        some ⟨some [0], some [[0xD83D]], [2, 3], [2, 3], 0⟩ ∧
      ¬WrapsWithin sampleSettings (applyInjectedText [0xD83D, 0xDE00] [⟨1, [0xD83D]⟩]) 2
        ⟨some [0], some [[0xD83D]], [2, 3], [2, 3], 0⟩ := by
  refine ⟨⟨rfl, by decide +kernel, fun h => ?_⟩, rfl, by decide +kernel, fun h => ?_⟩
  · exact absurd h.visibleColumns (by decide +kernel)
  · exact h.pairs 2 (by decide) ⟨rfl, rfl⟩

end Inputs

end Gavea.LineBreaks
