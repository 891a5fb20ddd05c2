import Gavea.Lib.Js
import Gavea.Lib.Splicing

namespace Gavea.Edits

open Lib.Js Lib.Splicing List

structure TextChange where
  oldPosition : Int
  oldText : JsString
  newPosition : Int
  newText : JsString

namespace TextChange

def oldLength (c : TextChange) : Nat := c.oldText.length

def oldEnd (c : TextChange) : Int := c.oldPosition + c.oldText.length

def newLength (c : TextChange) : Nat := c.newText.length

def newEnd (c : TextChange) : Int := c.newPosition + c.newText.length

end TextChange

def substr (str : JsString) (start length : Int) : JsString :=
  (str.drop (relativeIndex str.length start)).take length.toNat

def substrFrom (str : JsString) (start : Int) : JsString := str.drop (relativeIndex str.length start)

namespace TextChangeCompressor

def rebaseCurr (prevDeltaOffset : Int) (currEdit : TextChange) : TextChange :=
  ⟨currEdit.oldPosition - prevDeltaOffset, currEdit.oldText, currEdit.newPosition, currEdit.newText⟩

def rebasePrev (currDeltaOffset : Int) (prevEdit : TextChange) : TextChange :=
  ⟨prevEdit.oldPosition, prevEdit.oldText, prevEdit.newPosition + currDeltaOffset, prevEdit.newText⟩

def splitPrev (edit : TextChange) (offset : Int) : TextChange × TextChange :=
  (⟨edit.oldPosition, edit.oldText, edit.newPosition, substr edit.newText 0 offset⟩,
    ⟨edit.oldEnd, [], edit.newPosition + offset, substrFrom edit.newText offset⟩)

def splitCurr (edit : TextChange) (offset : Int) : TextChange × TextChange :=
  (⟨edit.oldPosition, substr edit.oldText 0 offset, edit.newPosition, edit.newText⟩,
    ⟨edit.oldPosition + offset, substrFrom edit.oldText offset, edit.newEnd, []⟩)

def growth (edit : TextChange) : Int := (edit.newLength : Int) - edit.oldLength

def combine (mergePrev mergeCurr : TextChange) : TextChange :=
  ⟨mergePrev.oldPosition, mergePrev.oldText, mergeCurr.newPosition, mergeCurr.newText⟩

theorem length_substrFrom_lt {str : JsString} {offset : Int} (h : 0 < offset) (hstr : str ≠ []) :
    (substrFrom str offset).length < str.length := by
  have hpos := length_pos_of_ne_nil hstr
  rw [substrFrom, relativeIndex, if_neg (by omega), length_drop]
  omega

theorem length_splitCurr_lt {edit : TextChange} {offset : Int} (h : 0 < offset)
    (hlt : edit.oldPosition + offset ≤ edit.oldEnd) :
    (splitCurr edit offset).2.oldText.length < edit.oldText.length := by
  refine length_substrFrom_lt h fun hnil => ?_
  rw [TextChange.oldEnd, hnil, length_nil] at hlt
  omega

theorem length_splitPrev_lt {edit : TextChange} {offset : Int} (h : 0 < offset)
    (hlt : edit.newPosition + offset ≤ edit.newEnd) :
    (splitPrev edit offset).2.newText.length < edit.newText.length := by
  refine length_substrFrom_lt h fun hnil => ?_
  rw [TextChange.newEnd, hnil, length_nil] at hlt
  omega

def weight (prev curr : List TextChange) : Nat :=
  (prev.map fun c => c.newText.length + 1).sum + (curr.map fun c => c.oldText.length + 1).sum

/-- The loop of `compress`. The heads of the lists are the current edits, which may be what a
split has left; the edits that a turn accepts come in front of those of the later ones. -/
def compressLoop : List TextChange → List TextChange → Int → Int → List TextChange
  | [], [], _, _ => []
  | [], currEdit :: curr, prevDeltaOffset, currDeltaOffset =>
    rebaseCurr prevDeltaOffset currEdit :: compressLoop [] curr prevDeltaOffset (currDeltaOffset + growth currEdit)
  | prevEdit :: prev, [], prevDeltaOffset, currDeltaOffset =>
    rebasePrev currDeltaOffset prevEdit :: compressLoop prev [] (prevDeltaOffset + growth prevEdit) currDeltaOffset
  | prevEdit :: prev, currEdit :: curr, prevDeltaOffset, currDeltaOffset =>
    if currEdit.oldEnd ≤ prevEdit.newPosition then
      rebaseCurr prevDeltaOffset currEdit ::
        compressLoop (prevEdit :: prev) curr prevDeltaOffset (currDeltaOffset + growth currEdit)
    else if prevEdit.newEnd ≤ currEdit.oldPosition then
      rebasePrev currDeltaOffset prevEdit ::
        compressLoop prev (currEdit :: curr) (prevDeltaOffset + growth prevEdit) currDeltaOffset
    else if currEdit.oldPosition < prevEdit.newPosition then
      let split := splitCurr currEdit (prevEdit.newPosition - currEdit.oldPosition)
      rebaseCurr prevDeltaOffset split.1 :: compressLoop (prevEdit :: prev) (split.2 :: curr)
        prevDeltaOffset (currDeltaOffset + growth split.1)
    else if prevEdit.newPosition < currEdit.oldPosition then
      let split := splitPrev prevEdit (currEdit.oldPosition - prevEdit.newPosition)
      rebasePrev currDeltaOffset split.1 :: compressLoop (split.2 :: prev) (currEdit :: curr)
        (prevDeltaOffset + growth split.1) currDeltaOffset
    else if currEdit.oldEnd = prevEdit.newEnd then
      combine prevEdit currEdit :: compressLoop prev curr (prevDeltaOffset + growth prevEdit)
        (currDeltaOffset + growth currEdit)
    else if currEdit.oldEnd < prevEdit.newEnd then
      let split := splitPrev prevEdit currEdit.oldLength
      combine split.1 currEdit :: compressLoop (split.2 :: prev) curr
        (prevDeltaOffset + growth split.1) (currDeltaOffset + growth currEdit)
    else
      let split := splitCurr currEdit prevEdit.newLength
      combine prevEdit split.1 :: compressLoop prev (split.2 :: curr)
        (prevDeltaOffset + growth prevEdit) (currDeltaOffset + growth split.1)
  termination_by prev curr => weight prev curr
  decreasing_by
    all_goals simp only [weight, map_cons, sum_cons]
    · omega
    · omega
    · omega
    · omega
    · have hlt := @length_splitCurr_lt currEdit (prevEdit.newPosition - currEdit.oldPosition) (by omega) (by omega)
      omega
    · have hlt := @length_splitPrev_lt prevEdit (currEdit.oldPosition - prevEdit.newPosition) (by omega) (by omega)
      omega
    · omega
    · simp only [splitPrev, substrFrom, length_drop]
      omega
    · simp only [splitCurr, substrFrom, length_drop]
      omega

def mergeLoop (prev : TextChange) : List TextChange → List TextChange
  | [] => [prev]
  | curr :: edits =>
    if prev.oldEnd = curr.oldPosition then
      mergeLoop ⟨prev.oldPosition, prev.oldText ++ curr.oldText, prev.newPosition, prev.newText ++ curr.newText⟩ edits
    else prev :: mergeLoop curr edits

def merge : List TextChange → List TextChange
  | [] => []
  | prev :: edits => mergeLoop prev edits

def removeNoOps (edits : List TextChange) : List TextChange := edits.filter fun edit => edit.oldText ≠ edit.newText

def compress (prevEdits currEdits : List TextChange) : List TextChange :=
  removeNoOps (merge (compressLoop prevEdits currEdits 0 0))

end TextChangeCompressor

def compressConsecutiveTextChanges (prevEdits : Option (List TextChange))
    (currEdits : List TextChange) : List TextChange :=
  match prevEdits with
  | none => currEdits
  | some [] => currEdits
  | some (prevEdit :: prev) => TextChangeCompressor.compress (prevEdit :: prev) currEdits

def Describes : Int → Int → JsString → JsString → List TextChange → Prop
  | _, _, t, u, [] => t = u
  | p, q, t, u, c :: cs => ∃ common t' u', t = common ++ (c.oldText ++ t') ∧
      u = common ++ (c.newText ++ u') ∧ c.oldPosition = p + common.length ∧
      c.newPosition = q + common.length ∧ Describes c.oldEnd c.newEnd t' u' cs

variable {p q p0 p1 p2 : Int} {t u t0 t1 t2 a : JsString} {c e : TextChange}
  {cs prev curr : List TextChange}

theorem exists_append_of_length_le {α : Type} {a t common rest : List α} (h : common ++ rest = a ++ t)
    (hle : a.length ≤ common.length) : ∃ x, common = a ++ x ∧ t = x ++ rest := by
  rcases append_eq_append_iff.mp h with ⟨y, ha, hrest⟩ | ⟨x, hcommon, ht⟩
  · have hlength := congrArg List.length ha
    rw [length_append] at hlength
    have hnil : y = [] := length_eq_zero_iff.mp (by omega)
    rw [hnil, append_nil] at ha
    rw [hnil, nil_append] at hrest
    exact ⟨[], by rw [ha, append_nil], by rw [hrest, nil_append]⟩
  · exact ⟨x, hcommon, ht⟩

theorem Describes.advance_old (h : Describes p q (a ++ t) u cs)
    (hle : ∀ c ∈ cs.head?, p + a.length ≤ c.oldPosition) :
    ∃ u', u = a ++ u' ∧ Describes (p + a.length) (q + a.length) t u' cs := by
  cases cs with
  | nil => exact ⟨t, h.symm, rfl⟩
  | cons c cs =>
    obtain ⟨common, t', u', ht, hu, hold, hnew, hrest⟩ := h
    have hstart := hle c rfl
    obtain ⟨x, hx, ht'⟩ := exists_append_of_length_le ht.symm (by omega)
    have hlength := congrArg List.length hx
    rw [length_append] at hlength
    exact ⟨x ++ (c.newText ++ u'), by rw [hu, hx, append_assoc], x, t', u', ht', rfl,
      by omega, by omega, hrest⟩

theorem Describes.advance_new (h : Describes p q t (a ++ u) cs)
    (hle : ∀ c ∈ cs.head?, q + a.length ≤ c.newPosition) :
    ∃ t', t = a ++ t' ∧ Describes (p + a.length) (q + a.length) t' u cs := by
  cases cs with
  | nil => exact ⟨u, h, rfl⟩
  | cons c cs =>
    obtain ⟨common, t', u', ht, hu, hold, hnew, hrest⟩ := h
    have hstart := hle c rfl
    obtain ⟨x, hx, hu'⟩ := exists_append_of_length_le hu.symm (by omega)
    have hlength := congrArg List.length hx
    rw [length_append] at hlength
    exact ⟨x ++ (c.oldText ++ t'), by rw [ht, hx, append_assoc], x, t', u', rfl, hu',
      by omega, by omega, hrest⟩

namespace TextChangeCompressor

theorem accept_curr (hprev : Describes p0 p1 t0 t1 prev) (hcurr : Describes p1 p2 t1 t2 (c :: curr))
    (hhead : ∀ e ∈ prev.head?, c.oldEnd ≤ e.newPosition) :
    ∃ q0 s0 s1 s2, p1 - p0 = c.oldEnd - q0 ∧ p2 - p1 + growth c = c.newEnd - c.oldEnd ∧
      Describes q0 c.oldEnd s0 s1 prev ∧ Describes c.oldEnd c.newEnd s1 s2 curr ∧
      ∀ out, Describes q0 c.newEnd s0 s2 out →
        Describes p0 p2 t0 t2 (rebaseCurr (p1 - p0) c :: out) := by
  obtain ⟨common, s1, s2, ht1, ht2, hold, hnew, hrest⟩ := hcurr
  have hend : c.oldEnd = p1 + (common ++ c.oldText).length := by
    rw [TextChange.oldEnd, length_append]
    omega
  have hnewEnd : c.newEnd = p2 + common.length + c.newText.length := by
    rw [TextChange.newEnd]
    omega
  rw [← append_assoc] at ht1
  rw [ht1] at hprev
  obtain ⟨s0, ht0, hprev⟩ := hprev.advance_new (by rw [← hend]; exact hhead)
  rw [← hend] at hprev
  rw [length_append] at hend
  refine ⟨p0 + (common ++ c.oldText).length, s0, s1, s2, ?_, ?_, hprev, hrest, fun out hout => ?_⟩
  · rw [length_append]
    omega
  · rw [growth, TextChange.newLength, TextChange.oldLength]
    omega
  · refine ⟨common, s0, s2, ?_, ht2, ?_, hnew, ?_⟩
    · rw [ht0, append_assoc]
      rfl
    · simp only [rebaseCurr]
      omega
    · have hold' : (rebaseCurr (p1 - p0) c).oldEnd = p0 + (common ++ c.oldText).length := by
        rw [length_append]
        simp only [rebaseCurr, TextChange.oldEnd]
        omega
      rw [hold']
      exact hout

theorem accept_prev (hprev : Describes p0 p1 t0 t1 (e :: prev)) (hcurr : Describes p1 p2 t1 t2 curr)
    (hhead : ∀ c ∈ curr.head?, e.newEnd ≤ c.oldPosition) :
    ∃ q2 s0 s1 s2, p1 - p0 + growth e = e.newEnd - e.oldEnd ∧ p2 - p1 = q2 - e.newEnd ∧
      Describes e.oldEnd e.newEnd s0 s1 prev ∧ Describes e.newEnd q2 s1 s2 curr ∧
      ∀ out, Describes e.oldEnd q2 s0 s2 out →
        Describes p0 p2 t0 t2 (rebasePrev (p2 - p1) e :: out) := by
  obtain ⟨common, s0, s1, ht0, ht1, hold, hnew, hrest⟩ := hprev
  have hend : e.newEnd = p1 + (common ++ e.newText).length := by
    rw [TextChange.newEnd, length_append]
    omega
  have holdEnd : e.oldEnd = p0 + common.length + e.oldText.length := by
    rw [TextChange.oldEnd]
    omega
  rw [← append_assoc] at ht1
  rw [ht1] at hcurr
  obtain ⟨s2, ht2, hcurr⟩ := hcurr.advance_old (by rw [← hend]; exact hhead)
  rw [← hend] at hcurr
  rw [length_append] at hend
  refine ⟨p2 + (common ++ e.newText).length, s0, s1, s2, ?_, ?_, hrest, hcurr, fun out hout => ?_⟩
  · rw [growth, TextChange.newLength, TextChange.oldLength]
    omega
  · rw [length_append]
    omega
  · refine ⟨common, s0, s2, ht0, ?_, hold, ?_, ?_⟩
    · rw [ht2, append_assoc]
      rfl
    · simp only [rebasePrev]
      omega
    · have hnew' : (rebasePrev (p2 - p1) e).newEnd = p2 + (common ++ e.newText).length := by
        rw [length_append]
        simp only [rebasePrev, TextChange.newEnd]
        omega
      rw [hnew']
      exact hout

theorem combine_both (hprev : Describes p0 p1 t0 t1 (e :: prev))
    (hcurr : Describes p1 p2 t1 t2 (c :: curr)) (hstart : e.newPosition = c.oldPosition)
    (hend : e.newEnd = c.oldEnd) :
    ∃ s0 s1 s2, p1 - p0 + growth e = c.oldEnd - e.oldEnd ∧
      p2 - p1 + growth c = c.newEnd - c.oldEnd ∧
      Describes e.oldEnd c.oldEnd s0 s1 prev ∧ Describes c.oldEnd c.newEnd s1 s2 curr ∧
      ∀ out, Describes e.oldEnd c.newEnd s0 s2 out → Describes p0 p2 t0 t2 (combine e c :: out) := by
  obtain ⟨common, s0, s1, ht0, ht1, hold, hnew, hrest⟩ := hprev
  obtain ⟨common', s1', s2, ht1', ht2, hold', hnew', hrest'⟩ := hcurr
  have hends := hend
  rw [TextChange.newEnd, TextChange.oldEnd] at hends
  obtain ⟨rfl, htexts⟩ := append_inj (ht1.symm.trans ht1') (by omega)
  obtain ⟨-, rfl⟩ := append_inj htexts (by omega)
  refine ⟨s0, s1, s2, ?_, ?_, hend ▸ hrest, hrest', fun out hout => ?_⟩
  · simp only [growth, TextChange.newLength, TextChange.oldLength, TextChange.oldEnd]
    omega
  · simp only [growth, TextChange.newLength, TextChange.oldLength, TextChange.oldEnd, TextChange.newEnd]
    omega
  · exact ⟨common, s0, s2, ht0, ht2, hold, hnew', hout⟩

theorem substr_append_substrFrom (str : JsString) {offset : Int} (h : 0 ≤ offset) :
    substr str 0 offset ++ substrFrom str offset = str ∧
      (offset ≤ str.length → ((substr str 0 offset).length : Int) = offset) := by
  rw [substr, substrFrom, relativeIndex, relativeIndex, if_neg (by omega), if_neg (by omega),
    Int.toNat_zero, Nat.zero_min, drop_zero]
  rcases le_total offset.toNat str.length with hle | hle
  · rw [min_eq_left hle]
    refine ⟨take_append_drop _ _, fun _ => ?_⟩
    rw [length_take]
    omega
  · rw [min_eq_right hle, drop_length, append_nil, take_of_length_le hle]
    exact ⟨rfl, fun _ => by omega⟩

theorem splitCurr_describes {offset : Int} (h : Describes p q t u (c :: cs)) (h0 : 0 ≤ offset)
    (hle : offset ≤ c.oldText.length) :
    Describes p q t u ((splitCurr c offset).1 :: (splitCurr c offset).2 :: cs) := by
  obtain ⟨common, t', u', ht, hu, hold, hnew, hrest⟩ := h
  obtain ⟨hsplit, hlength⟩ := substr_append_substrFrom c.oldText h0
  have hlength := hlength hle
  have htotal := congrArg List.length hsplit
  rw [length_append] at htotal
  refine ⟨common, substrFrom c.oldText offset ++ t', u', ?_, hu, hold, hnew,
    [], t', u', rfl, rfl, ?_, ?_, ?_⟩
  · rw [ht]
    conv_lhs => rw [← hsplit]
    rw [append_assoc]
    rfl
  · simp only [TextChangeCompressor.splitCurr, TextChange.oldEnd, length_nil]
    omega
  · simp only [TextChangeCompressor.splitCurr, TextChange.newEnd, length_nil]
    omega
  · have hend : (TextChangeCompressor.splitCurr c offset).2.oldEnd = c.oldEnd := by
      simp only [TextChangeCompressor.splitCurr, TextChange.oldEnd]
      omega
    have hend' : (TextChangeCompressor.splitCurr c offset).2.newEnd = c.newEnd := by
      simp only [TextChangeCompressor.splitCurr, TextChange.newEnd, length_nil]
      omega
    rw [hend, hend']
    exact hrest

theorem splitPrev_describes {offset : Int} (h : Describes p q t u (c :: cs)) (h0 : 0 ≤ offset)
    (hle : offset ≤ c.newText.length) :
    Describes p q t u ((splitPrev c offset).1 :: (splitPrev c offset).2 :: cs) := by
  obtain ⟨common, t', u', ht, hu, hold, hnew, hrest⟩ := h
  obtain ⟨hsplit, hlength⟩ := substr_append_substrFrom c.newText h0
  have hlength := hlength hle
  have htotal := congrArg List.length hsplit
  rw [length_append] at htotal
  refine ⟨common, t', substrFrom c.newText offset ++ u', ht, ?_, hold, hnew,
    [], t', u', rfl, rfl, ?_, ?_, ?_⟩
  · rw [hu]
    conv_lhs => rw [← hsplit]
    rw [append_assoc]
    rfl
  · simp only [TextChangeCompressor.splitPrev, TextChange.oldEnd, length_nil]
    omega
  · simp only [TextChangeCompressor.splitPrev, TextChange.newEnd, length_nil]
    omega
  · have hend : (TextChangeCompressor.splitPrev c offset).2.oldEnd = c.oldEnd := by
      simp only [TextChangeCompressor.splitPrev, TextChange.oldEnd, length_nil]
      omega
    have hend' : (TextChangeCompressor.splitPrev c offset).2.newEnd = c.newEnd := by
      simp only [TextChangeCompressor.splitPrev, TextChange.newEnd]
      omega
    rw [hend, hend']
    exact hrest

theorem compressLoop_describes (prev curr : List TextChange) (dp dc : Int)
    (hprev : Describes p0 p1 t0 t1 prev) (hcurr : Describes p1 p2 t1 t2 curr)
    (hdp : dp = p1 - p0) (hdc : dc = p2 - p1) :
    Describes p0 p2 t0 t2 (compressLoop prev curr dp dc) := by
  induction prev, curr, dp, dc using compressLoop.induct generalizing p0 p1 p2 t0 t1 t2 with
  | case1 dp dc =>
    rw [compressLoop]
    exact hprev.trans hcurr
  | case2 c curr dp dc ih =>
    subst hdp hdc
    obtain ⟨q0, s0, s1, s2, hp, hc, hprev, hcurr, hout⟩ := accept_curr hprev hcurr (fun e he => nomatch he)
    rw [compressLoop]
    exact hout _ (ih hprev hcurr hp hc)
  | case3 e prev dp dc ih =>
    subst hdp hdc
    obtain ⟨q2, s0, s1, s2, hp, hc, hprev, hcurr, hout⟩ := accept_prev hprev hcurr (fun c hc => nomatch hc)
    rw [compressLoop]
    exact hout _ (ih hprev hcurr hp hc)
  | case4 e prev c curr dp dc hbefore ih =>
    subst hdp hdc
    obtain ⟨q0, s0, s1, s2, hp, hc, hprev, hcurr, hout⟩ :=
      accept_curr hprev hcurr (fun e' he => Option.some.inj he ▸ hbefore)
    rw [compressLoop, if_pos hbefore]
    exact hout _ (ih hprev hcurr hp hc)
  | case5 e prev c curr dp dc h1 hbefore ih =>
    subst hdp hdc
    obtain ⟨q2, s0, s1, s2, hp, hc, hprev, hcurr, hout⟩ :=
      accept_prev hprev hcurr (fun c' hc => Option.some.inj hc ▸ hbefore)
    rw [compressLoop, if_neg h1, if_pos hbefore]
    exact hout _ (ih hprev hcurr hp hc)
  | case6 e prev c curr dp dc h1 h2 hlt split =>
    rename_i ih
    subst hdp hdc
    rw [TextChange.oldEnd] at h1
    have hle : e.newPosition - c.oldPosition ≤ c.oldText.length := by omega
    have hlength := (substr_append_substrFrom c.oldText (by omega : 0 ≤ e.newPosition - c.oldPosition)).2 hle
    obtain ⟨q0, s0, s1, s2, hp, hc, hprev, hcurr, hout⟩ :=
      accept_curr hprev (splitCurr_describes hcurr (by omega) hle) (fun e' he => by
        rw [← Option.some.inj he]
        simp only [splitCurr, TextChange.oldEnd]
        omega)
    rw [compressLoop, if_neg (by rwa [TextChange.oldEnd]), if_neg h2, if_pos hlt]
    exact hout _ (ih hprev hcurr hp hc)
  | case7 e prev c curr dp dc h1 h2 h3 hlt split =>
    rename_i ih
    subst hdp hdc
    rw [TextChange.newEnd] at h2
    have hle : c.oldPosition - e.newPosition ≤ e.newText.length := by omega
    have hlength := (substr_append_substrFrom e.newText (by omega : 0 ≤ c.oldPosition - e.newPosition)).2 hle
    obtain ⟨q2, s0, s1, s2, hp, hc, hprev, hcurr, hout⟩ :=
      accept_prev (splitPrev_describes hprev (by omega) hle) hcurr (fun c' hc => by
        rw [← Option.some.inj hc]
        simp only [splitPrev, TextChange.newEnd]
        omega)
    rw [compressLoop, if_neg h1, if_neg (by rwa [TextChange.newEnd]), if_neg h3, if_pos hlt]
    exact hout _ (ih hprev hcurr hp hc)
  | case8 e prev c curr dp dc h1 h2 h3 h4 heq ih =>
    subst hdp hdc
    obtain ⟨s0, s1, s2, hp, hc, hprev, hcurr, hout⟩ := combine_both hprev hcurr (by omega) heq.symm
    rw [compressLoop, if_neg h1, if_neg h2, if_neg h3, if_neg h4, if_pos heq]
    exact hout _ (ih hprev hcurr hp hc)
  | case9 e prev c curr dp dc h1 h2 h3 h4 h5 hlt split =>
    rename_i ih
    subst hdp hdc
    have hends := hlt
    rw [TextChange.oldEnd, TextChange.newEnd] at hends
    have hle : (c.oldLength : Int) ≤ e.newText.length := by
      rw [TextChange.oldLength]
      omega
    have hlength := (substr_append_substrFrom e.newText (Int.natCast_nonneg c.oldLength)).2 hle
    obtain ⟨s0, s1, s2, hp, hc, hprev, hcurr, hout⟩ :=
      combine_both (splitPrev_describes hprev (Int.natCast_nonneg _) hle) hcurr
        (by simp only [splitPrev]; omega) (by
        simp only [splitPrev, TextChange.newEnd, TextChange.oldEnd, TextChange.oldLength] at hlength ⊢
        omega)
    rw [compressLoop, if_neg h1, if_neg h2, if_neg h3, if_neg h4, if_neg h5, if_pos hlt]
    exact hout _ (ih hprev hcurr hp hc)
  | case10 e prev c curr dp dc h1 h2 h3 h4 h5 h6 split =>
    rename_i ih
    subst hdp hdc
    have hends := h6
    rw [TextChange.oldEnd, TextChange.newEnd] at hends
    have hle : (e.newLength : Int) ≤ c.oldText.length := by
      rw [TextChange.newLength]
      omega
    have hlength := (substr_append_substrFrom c.oldText (Int.natCast_nonneg e.newLength)).2 hle
    obtain ⟨s0, s1, s2, hp, hc, hprev, hcurr, hout⟩ :=
      combine_both hprev (splitCurr_describes hcurr (Int.natCast_nonneg _) hle)
        (by simp only [splitCurr]; omega) (by
        simp only [splitCurr, TextChange.newEnd, TextChange.oldEnd, TextChange.newLength] at hlength ⊢
        omega)
    rw [compressLoop, if_neg h1, if_neg h2, if_neg h3, if_neg h4, if_neg h5, if_neg h6]
    exact hout _ (ih hprev hcurr hp hc)

theorem mergeLoop_describes (h : Describes p q t u (c :: cs)) :
    Describes p q t u (mergeLoop c cs) := by
  induction cs generalizing p q t u c with
  | nil => exact h
  | cons c' cs ih =>
    rw [mergeLoop]
    obtain ⟨common, t', u', ht, hu, hold, hnew, common', t'', u'', ht', hu', hold', hnew', hrest⟩ := h
    split_ifs with htouch
    · have hnil : common' = [] := length_eq_zero_iff.mp (by omega)
      rw [hnil, nil_append] at ht' hu'
      rw [hnil, length_nil] at hnew'
      have hends := htouch
      rw [TextChange.oldEnd] at hends
      have hnewEnds : c.newPosition + c.newText.length = c'.newPosition := by
        rw [hnew', TextChange.newEnd]
        omega
      refine ih ⟨common, t'', u'', ?_, ?_, hold, hnew, ?_⟩
      · rw [ht, ht', append_assoc]
      · rw [hu, hu', append_assoc]
      · have hend : TextChange.oldEnd ⟨c.oldPosition, c.oldText ++ c'.oldText, c.newPosition,
            c.newText ++ c'.newText⟩ = c'.oldEnd := by
          simp only [TextChange.oldEnd, length_append]
          omega
        have hend' : TextChange.newEnd ⟨c.oldPosition, c.oldText ++ c'.oldText, c.newPosition,
            c.newText ++ c'.newText⟩ = c'.newEnd := by
          simp only [TextChange.newEnd, length_append]
          omega
        rw [hend, hend']
        exact hrest
    · exact ⟨common, t', u', ht, hu, hold, hnew, ih ⟨common', t'', u'', ht', hu', hold', hnew', hrest⟩⟩

theorem merge_describes (h : Describes p q t u cs) : Describes p q t u (merge cs) := by
  cases cs with
  | nil => exact h
  | cons c cs => exact mergeLoop_describes h

theorem Describes.prepend (a : JsString) (h : Describes (p + a.length) (q + a.length) t u cs) :
    Describes p q (a ++ t) (a ++ u) cs := by
  cases cs with
  | nil => exact congrArg _ h
  | cons c cs =>
    obtain ⟨common, t', u', ht, hu, hold, hnew, hrest⟩ := h
    refine ⟨a ++ common, t', u', ?_, ?_, ?_, ?_, hrest⟩
    · rw [ht, append_assoc]
    · rw [hu, append_assoc]
    · rw [length_append]
      omega
    · rw [length_append]
      omega

theorem removeNoOps_describes (h : Describes p q t u cs) : Describes p q t u (removeNoOps cs) := by
  induction cs generalizing p q t u with
  | nil => exact h
  | cons c cs ih =>
    obtain ⟨common, t', u', ht, hu, hold, hnew, hrest⟩ := h
    have hih := ih hrest
    by_cases heq : c.oldText = c.newText
    · rw [removeNoOps, filter_cons_of_neg (by simp [heq]), ← removeNoOps, ht, hu, heq, ← append_assoc, ← append_assoc]
      refine Describes.prepend _ ?_
      have hend : c.oldEnd = p + (common ++ c.newText).length := by
        rw [TextChange.oldEnd, heq, length_append]
        omega
      have hend' : c.newEnd = q + (common ++ c.newText).length := by
        rw [TextChange.newEnd, length_append]
        omega
      rwa [← hend, ← hend']
    · rw [removeNoOps, filter_cons_of_pos (by simpa using heq), ← removeNoOps]
      exact ⟨common, t', u', ht, hu, hold, hnew, hih⟩

theorem compress_describes (hprev : Describes 0 0 t0 t1 prev) (hcurr : Describes 0 0 t1 t2 curr) :
    Describes 0 0 t0 t2 (compress prev curr) :=
  removeNoOps_describes (merge_describes (compressLoop_describes prev curr 0 0 hprev hcurr rfl rfl))

end TextChangeCompressor

/-- The changes are sorted from the position on and disjoint; the new position of each is the old
one plus what the changes before it have added. -/
def WellFormedFrom : Int → Int → List TextChange → Prop
  | _, _, [] => True
  | position, deltaOffset, c :: cs => position ≤ c.oldPosition ∧
      c.newPosition = c.oldPosition + deltaOffset ∧
      WellFormedFrom c.oldEnd (deltaOffset + ((c.newLength : Int) - c.oldLength)) cs

def WellFormed (cs : List TextChange) : Prop := WellFormedFrom 0 0 cs

instance WellFormedFrom.decidable : (position deltaOffset : Int) → (cs : List TextChange) →
    Decidable (WellFormedFrom position deltaOffset cs)
  | _, _, [] => inferInstanceAs (Decidable True)
  | position, deltaOffset, c :: cs =>
    have := WellFormedFrom.decidable c.oldEnd (deltaOffset + ((c.newLength : Int) - c.oldLength)) cs
    inferInstanceAs (Decidable (position ≤ c.oldPosition ∧
      c.newPosition = c.oldPosition + deltaOffset ∧ WellFormedFrom c.oldEnd _ cs))

instance (cs : List TextChange) : Decidable (WellFormed cs) := WellFormedFrom.decidable 0 0 cs

def forward (c : TextChange) : Splice CodeUnit := ⟨c.oldPosition, c.oldEnd, c.newText⟩

def backward (c : TextChange) : Splice CodeUnit := ⟨c.newPosition, c.newEnd, c.oldText⟩

def applyForward (cs : List TextChange) (text : JsString) : JsString := splice 0 (cs.map forward) text

def applyBackward (cs : List TextChange) (text : JsString) : JsString := splice 0 (cs.map backward) text

def LeadsTo (text0 text1 : JsString) (cs : List TextChange) : Prop :=
  (∀ c ∈ cs, c.oldEnd ≤ text0.length ∧ substring text0 c.oldPosition c.oldEnd = c.oldText) ∧
    applyForward cs text0 = text1

instance (text0 text1 : JsString) (cs : List TextChange) : Decidable (LeadsTo text0 text1 cs) :=
  inferInstanceAs (Decidable (_ ∧ _))

theorem describes_of_wellFormed {text : JsString} (hwf : WellFormedFrom p (q - p) cs) (h0 : 0 ≤ p)
    (htexts : ∀ c ∈ cs, c.oldEnd ≤ text.length ∧ substring text c.oldPosition c.oldEnd = c.oldText) :
    Describes p q (text.drop p.toNat) (splice p (cs.map forward) (text.drop p.toNat)) cs := by
  induction cs generalizing p q with
  | nil => rfl
  | cons c cs ih =>
    obtain ⟨hle, hnew, hwf⟩ := hwf
    rw [forall_mem_cons] at htexts
    obtain ⟨⟨hend, htext⟩, htexts⟩ := htexts
    have holdEnd : c.oldPosition ≤ c.oldEnd := by
      rw [TextChange.oldEnd]
      omega
    have hsub : c.newEnd - c.oldEnd = q - p + ((c.newLength : Int) - c.oldLength) := by
      simp only [TextChange.newEnd, TextChange.oldEnd, TextChange.newLength, TextChange.oldLength]
      omega
    rw [← hsub] at hwf
    have hih := ih hwf (h0.trans (hle.trans holdEnd)) htexts
    rw [substring_eq _ holdEnd] at htext
    refine ⟨(text.take c.oldPosition.toNat).drop p.toNat, text.drop c.oldEnd.toNat, _, ?_, ?_, ?_, ?_,
      hih⟩
    · have hadd : c.oldPosition.toNat + (c.oldEnd.toNat - c.oldPosition.toNat) = c.oldEnd.toNat := by
        omega
      have hadd' : p.toNat + (c.oldPosition.toNat - p.toNat) = c.oldPosition.toNat := by omega
      rw [← htext, drop_take, drop_take]
      conv_lhs => rw [← take_append_drop (c.oldPosition.toNat - p.toNat) (text.drop p.toNat),
        drop_drop, hadd', ← take_append_drop (c.oldEnd.toNat - c.oldPosition.toNat)
          (text.drop c.oldPosition.toNat), drop_drop, hadd]
    · exact splice_cons_drop _ text h0 hle holdEnd
    · rw [length_drop, length_take]
      omega
    · rw [length_drop, length_take]
      omega

theorem Describes.wellFormed (h : Describes p q t u cs) : WellFormedFrom p (q - p) cs := by
  induction cs generalizing p q t u with
  | nil => trivial
  | cons c cs ih =>
    obtain ⟨common, t', u', -, -, hold, hnew, hrest⟩ := h
    have hsub : q - p + ((c.newLength : Int) - c.oldLength) = c.newEnd - c.oldEnd := by
      simp only [TextChange.newEnd, TextChange.oldEnd, TextChange.newLength, TextChange.oldLength]
      omega
    exact ⟨by omega, by omega, hsub ▸ ih hrest⟩

theorem Describes.splice_eq (h : Describes p q t u cs) :
    splice p (cs.map forward) t = u ∧ splice q (cs.map backward) u = t := by
  induction cs generalizing p q t u with
  | nil => exact ⟨h, h.symm⟩
  | cons c cs ih =>
    obtain ⟨common, t', u', rfl, rfl, hold, hnew, hrest⟩ := h
    obtain ⟨hforward, hbackward⟩ := ih hrest
    have hstart : (c.oldPosition - p).toNat = common.length := by omega
    have hend : (c.oldEnd - p).toNat = common.length + c.oldText.length := by
      rw [TextChange.oldEnd]
      omega
    have hstart' : (c.newPosition - q).toNat = common.length := by omega
    have hend' : (c.newEnd - q).toNat = common.length + c.newText.length := by
      rw [TextChange.newEnd]
      omega
    constructor
    · rw [map_cons, splice_cons]
      simp only [forward] at hforward ⊢
      rw [hstart, hend, take_left, drop_length_add_append, drop_left, hforward]
    · rw [map_cons, splice_cons]
      simp only [backward] at hbackward ⊢
      rw [hstart', hend', take_left, drop_length_add_append, drop_left, hbackward]

theorem describes_of_leadsTo {text0 text1 : JsString} (hwf : WellFormed cs)
    (h : LeadsTo text0 text1 cs) : Describes 0 0 text0 text1 cs := by
  have hdescribes := @describes_of_wellFormed 0 0 cs text0 hwf le_rfl h.1
  rw [Int.toNat_zero, drop_zero] at hdescribes
  exact h.2 ▸ hdescribes

/-- Compressing composes: the result leads from the first text to the third one, and back. -/
theorem compressConsecutiveTextChanges_composes (prevEdits : Option (List TextChange))
    (currEdits : List TextChange) (text0 text1 text2 : JsString)
    (hprev : WellFormed (prevEdits.getD [])) (hprevTexts : LeadsTo text0 text1 (prevEdits.getD []))
    (hcurr : WellFormed currEdits) (hcurrTexts : LeadsTo text1 text2 currEdits) :
    WellFormed (compressConsecutiveTextChanges prevEdits currEdits) ∧
      applyForward (compressConsecutiveTextChanges prevEdits currEdits) text0 = text2 ∧
      applyBackward (compressConsecutiveTextChanges prevEdits currEdits) text2 = text0 := by
  have h01 := describes_of_leadsTo hprev hprevTexts
  have h12 := describes_of_leadsTo hcurr hcurrTexts
  have h02 : Describes 0 0 text0 text2 (compressConsecutiveTextChanges prevEdits currEdits) := by
    rcases prevEdits with - | (- | ⟨prevEdit, prev⟩)
    · exact (h01 : text0 = text1) ▸ h12
    · exact (h01 : text0 = text1) ▸ h12
    · exact TextChangeCompressor.compress_describes h01 h12
  exact ⟨h02.wellFormed, h02.splice_eq⟩

/-- "abcd" becomes "axyzd"; then the "x" and the "z" are replaced by "12" and the "y" stays. -/
theorem compressConsecutiveTextChanges_composes_inside :
    WellFormed (compressConsecutiveTextChanges (some [⟨1, [98, 99], 1, [120, 121, 122]⟩])
        [⟨0, [97, 120], 0, [49]⟩, ⟨3, [122], 2, [50, 50]⟩]) ∧
      applyForward (compressConsecutiveTextChanges (some [⟨1, [98, 99], 1, [120, 121, 122]⟩])
        [⟨0, [97, 120], 0, [49]⟩, ⟨3, [122], 2, [50, 50]⟩]) [97, 98, 99, 100] = [49, 121, 50, 50, 100] ∧
      applyBackward (compressConsecutiveTextChanges (some [⟨1, [98, 99], 1, [120, 121, 122]⟩])
        [⟨0, [97, 120], 0, [49]⟩, ⟨3, [122], 2, [50, 50]⟩]) [49, 121, 50, 50, 100] = [97, 98, 99, 100] :=
  compressConsecutiveTextChanges_composes _ _ _ [97, 120, 121, 122, 100] _ (by decide) (by decide)
    (by decide) (by decide)

end Gavea.Edits
