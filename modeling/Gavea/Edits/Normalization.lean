import Gavea.Edits.Rebase

namespace Gavea.Edits

open Gavea.Core Lib.Js Lib.Splicing List

def commonPrefixLength : JsString → JsString → Nat
  | x :: a, y :: b => if x ≠ y then 0 else commonPrefixLength a b + 1
  | _, _ => 0

/-- The loop counts from the ends of both strings. -/
def commonSuffixLength (a b : JsString) : Nat := commonPrefixLength a.reverse b.reverse

namespace StringReplacement

def isEmpty (r : StringReplacement) : Bool := r.newText.length == 0 && r.replaceRange.length == 0

def removeCommonSuffixPrefix (r : StringReplacement) (originalText : JsString) :
    Except BugIndicatingError StringReplacement :=
  let oldText := Lib.Js.substring originalText r.replaceRange.start r.replaceRange.endExclusive
  let prefixLen := commonPrefixLength oldText r.newText
  let suffixLen := min (oldText.length - prefixLen) (min (r.newText.length - prefixLen)
    (commonSuffixLength oldText r.newText))
  (OffsetRange.new (r.replaceRange.start + prefixLen) (r.replaceRange.endExclusive - suffixLen)).map
    fun replaceRange => ⟨replaceRange, Lib.Js.substring r.newText prefixLen (r.newText.length - suffixLen)⟩

def removeCommonPrefix (r : StringReplacement) (source : JsString) :
    Except BugIndicatingError StringReplacement := do
  let oldText := r.replaceRange.substring source
  let prefixLen := commonPrefixLength oldText r.newText
  if prefixLen = 0 then return r
  let range ← r.replaceRange.deltaStart prefixLen
  return r.slice range (some (← OffsetRange.new prefixLen r.newText.length))

def removeCommonSuffix (r : StringReplacement) (source : JsString) :
    Except BugIndicatingError StringReplacement := do
  let oldText := r.replaceRange.substring source
  let suffixLen := commonSuffixLength oldText r.newText
  if suffixLen = 0 then return r
  let range ← r.replaceRange.deltaEnd (-suffixLen)
  return r.slice range (some (← OffsetRange.new 0 (r.newText.length - suffixLen)))

def removeCommonSuffixAndPrefix (r : StringReplacement) (source : JsString) :
    Except BugIndicatingError StringReplacement := do
  (← r.removeCommonSuffix source).removeCommonPrefix source

def equals (r other : StringReplacement) : Bool :=
  (r.replaceRange.start == other.replaceRange.start &&
    r.replaceRange.endExclusive == other.replaceRange.endExclusive) && r.newText == other.newText

end StringReplacement

namespace StringEdit

def equals (e other : StringEdit) : Bool :=
  if e.replacements.length ≠ other.replacements.length then false
  else (e.replacements.zip other.replacements).all fun (r, r') => r.equals r'

def removeCommonLoop (originalText : JsString) :
    List StringReplacement → Except BugIndicatingError (List StringReplacement)
  | [] => .ok []
  | e :: rest => do
      let edit ← e.removeCommonSuffixPrefix originalText
      let edits ← removeCommonLoop originalText rest
      return if edit.isEmpty then edits else edit :: edits

def removeCommonSuffixPrefix (e : StringEdit) (originalText : JsString) :
    Except BugIndicatingError StringEdit := do
  BaseEdit.new (← removeCommonLoop originalText e.replacements)

def removeCommonSuffixAndPrefix (e : StringEdit) (source : JsString) :
    Except BugIndicatingError StringEdit := do
  (← BaseEdit.new (← e.replacements.mapM (·.removeCommonSuffixAndPrefix source))).normalize

def normalizeOnSource (e : StringEdit) (source : JsString) :
    Except BugIndicatingError StringEdit := do
  let result := e.apply source
  let edit : StringReplacement := ⟨.ofLength source.length, result⟩
  let r ← edit.removeCommonSuffixAndPrefix source
  if r.isEmpty then return BaseEdit.empty
  BaseEdit.new [r]

end StringEdit

theorem commonPrefixLength_le (a b : JsString) :
    commonPrefixLength a b ≤ a.length ∧ commonPrefixLength a b ≤ b.length := by
  induction a, b using commonPrefixLength.induct with
  | case1 x a y b hne =>
    rw [commonPrefixLength, if_pos hne]
    exact ⟨Nat.zero_le _, Nat.zero_le _⟩
  | case2 x a y b heq ih =>
    rw [commonPrefixLength, if_neg heq]
    exact ⟨Nat.succ_le_succ ih.1, Nat.succ_le_succ ih.2⟩
  | case3 a b h =>
    rw [commonPrefixLength]
    · exact ⟨Nat.zero_le _, Nat.zero_le _⟩
    · exact h

theorem take_commonPrefixLength (a b : JsString) :
    a.take (commonPrefixLength a b) = b.take (commonPrefixLength a b) := by
  induction a, b using commonPrefixLength.induct with
  | case1 x a y b hne => rw [commonPrefixLength, if_pos hne, take_zero, take_zero]
  | case2 x a y b heq ih => rw [commonPrefixLength, if_neg heq, take_succ_cons, take_succ_cons, ih, not_not.mp heq]
  | case3 a b h =>
    rw [commonPrefixLength]
    · rw [take_zero, take_zero]
    · exact h

theorem commonSuffixLength_le (a b : JsString) :
    commonSuffixLength a b ≤ a.length ∧ commonSuffixLength a b ≤ b.length := by
  have hle := commonPrefixLength_le a.reverse b.reverse
  rwa [length_reverse, length_reverse] at hle

theorem drop_commonSuffixLength {a b : JsString} {l : Nat} (hl : l ≤ commonSuffixLength a b) :
    a.drop (a.length - l) = b.drop (b.length - l) := by
  have htake := congrArg (List.take l) (take_commonPrefixLength a.reverse b.reverse)
  rw [take_take, take_take, ← commonSuffixLength, min_eq_left hl, take_reverse, take_reverse, reverse_inj] at htake
  exact htake

namespace StringReplacement

@[simp] theorem splice_meaning_id (r : StringReplacement) : (meaning id).splice r =
    ⟨r.replaceRange.start, r.replaceRange.endExclusive, r.newText⟩ := by
  simp only [Meaning.splice, meaning, map_id]
  rfl

variable {data : JsString} {r : StringReplacement}

theorem trims_of_common {start stop : Int} {text : JsString} {k l : Nat} (h0 : 0 ≤ start)
    (hle : start + k ≤ stop - l) (hlen : k + l ≤ text.length)
    (hfront : ((data.take stop.toNat).drop start.toNat).take k = text.take k)
    (hend : ((data.take stop.toNat).drop start.toNat).drop (stop.toNat - start.toNat - l) =
      text.drop (text.length - l)) :
    Trims data ⟨start + k, stop - l, (text.take (text.length - l)).drop k⟩ ⟨start, stop, text⟩ where
  start_le := by dsimp only; omega
  le := hle
  stop_le := by dsimp only; omega
  text_eq := by
    have hk : (start + k).toNat = start.toNat + k := by omega
    have hl : start.toNat + (stop.toNat - start.toNat - l) = (stop - l).toNat := by omega
    have hmin : min (start.toNat + k) stop.toNat = start.toNat + k := by omega
    rw [drop_drop, hl] at hend
    rw [take_drop, take_take, hmin] at hfront
    dsimp only
    rw [hk, hfront, hend]
    conv_lhs => rw [← take_append_drop (text.length - l) text, ← take_append_drop k (text.take (text.length - l)),
      take_take, min_eq_left (by omega : k ≤ text.length - l)]
    rw [append_assoc]

theorem length_oldText {start stop : Int} (hstop : stop ≤ data.length) :
    ((data.take stop.toNat).drop start.toNat).length = stop.toNat - start.toNat := by
  rw [length_drop, length_take]
  omega

theorem removeCommonSuffixPrefix_trims (h0 : 0 ≤ r.replaceRange.start)
    (hstop : r.replaceRange.endExclusive ≤ data.length) :
    ∃ r', r.removeCommonSuffixPrefix data = .ok r' ∧
      Trims data ((meaning id).splice r') ((meaning id).splice r) := by
  have hle := r.replaceRange.le
  have hlength := @length_oldText data r.replaceRange.start _ hstop
  rw [removeCommonSuffixPrefix, substring_eq _ hle]
  generalize hold : (data.take r.replaceRange.endExclusive.toNat).drop r.replaceRange.start.toNat = oldText at hlength ⊢
  obtain ⟨hk1, hk2⟩ := commonPrefixLength_le oldText r.newText
  have hfront := take_commonPrefixLength oldText r.newText
  generalize commonPrefixLength oldText r.newText = k at hk1 hk2 hfront ⊢
  generalize hl : min (oldText.length - k) (min (r.newText.length - k) (commonSuffixLength oldText r.newText)) = l
  have hend := @drop_commonSuffixLength oldText r.newText l (by omega)
  have hnew : r.replaceRange.start + k ≤ r.replaceRange.endExclusive - l := by omega
  rw [OffsetRange.new_ok hnew, substring_eq _ (by omega)]
  refine ⟨_, rfl, ?_⟩
  rw [splice_meaning_id, splice_meaning_id]
  have hto : ((r.newText.length : Int) - l).toNat = r.newText.length - l := by omega
  rw [Int.toNat_natCast, hto]
  exact trims_of_common h0 hnew (by omega) (by rw [hold]; exact hfront) (by rw [hold, ← hlength]; exact hend)

theorem trims_refl : Trims data ((meaning id).splice r) ((meaning id).splice r) where
  start_le := le_rfl
  le := r.replaceRange.le
  stop_le := le_rfl
  text_eq := by
    rw [drop_eq_nil_of_le (by rw [length_take]; omega),
      drop_eq_nil_of_le (by rw [length_take]; omega), nil_append, append_nil]

theorem removeCommonPrefix_trims (h0 : 0 ≤ r.replaceRange.start)
    (hstop : r.replaceRange.endExclusive ≤ data.length) :
    ∃ r', r.removeCommonPrefix data = .ok r' ∧
      Trims data ((meaning id).splice r') ((meaning id).splice r) := by
  have hle := r.replaceRange.le
  have hlength := @length_oldText data r.replaceRange.start _ hstop
  rw [removeCommonPrefix, OffsetRange.substring, substring_eq _ hle]
  generalize hold : (data.take r.replaceRange.endExclusive.toNat).drop r.replaceRange.start.toNat = oldText at hlength ⊢
  obtain ⟨hk1, hk2⟩ := commonPrefixLength_le oldText r.newText
  have hfront := take_commonPrefixLength oldText r.newText
  generalize commonPrefixLength oldText r.newText = k at hk1 hk2 hfront ⊢
  by_cases hk : k = 0
  · rw [if_pos hk]
    exact ⟨r, rfl, trims_refl⟩
  · have hnew : r.replaceRange.start + k ≤ r.replaceRange.endExclusive := by omega
    have hlen : (k : Int) ≤ r.newText.length := by omega
    rw [if_neg hk, OffsetRange.deltaStart, OffsetRange.new_ok hnew, OffsetRange.new_ok hlen]
    refine ⟨_, rfl, ?_⟩
    have htrims := @trims_of_common data r.replaceRange.start r.replaceRange.endExclusive r.newText k 0 h0 (by omega) (by omega)
      (by rw [hold]; exact hfront)
      (by rw [hold, Nat.sub_zero, Nat.sub_zero, ← hlength, drop_length, drop_length])
    rw [splice_meaning_id, splice_meaning_id]
    simp only [slice, OffsetRange.substring, substring_eq _ hlen, Int.toNat_natCast]
    simpa only [Nat.cast_zero, sub_zero, Nat.sub_zero] using htrims

theorem removeCommonSuffix_trims (h0 : 0 ≤ r.replaceRange.start)
    (hstop : r.replaceRange.endExclusive ≤ data.length) :
    ∃ r', r.removeCommonSuffix data = .ok r' ∧
      Trims data ((meaning id).splice r') ((meaning id).splice r) := by
  have hle := r.replaceRange.le
  have hlength := @length_oldText data r.replaceRange.start _ hstop
  rw [removeCommonSuffix, OffsetRange.substring, substring_eq _ hle]
  generalize hold : (data.take r.replaceRange.endExclusive.toNat).drop r.replaceRange.start.toNat = oldText at hlength ⊢
  obtain ⟨hl1, hl2⟩ := commonSuffixLength_le oldText r.newText
  have hend := @drop_commonSuffixLength oldText r.newText _ le_rfl
  generalize commonSuffixLength oldText r.newText = l at hl1 hl2 hend ⊢
  by_cases hl : l = 0
  · rw [if_pos hl]
    exact ⟨r, rfl, trims_refl⟩
  · have hnew : r.replaceRange.start ≤ r.replaceRange.endExclusive + -(l : Int) := by omega
    have hlen : (0 : Int) ≤ (r.newText.length : Int) - l := by omega
    have hto : ((r.newText.length : Int) - l).toNat = r.newText.length - l := by omega
    rw [if_neg hl, OffsetRange.deltaEnd, OffsetRange.new_ok hnew, OffsetRange.new_ok hlen]
    refine ⟨_, rfl, ?_⟩
    have htrims := @trims_of_common data r.replaceRange.start r.replaceRange.endExclusive r.newText 0 l h0 (by omega) (by omega)
      (by rw [take_zero, take_zero]) (by rw [hold, ← hlength]; exact hend)
    rw [splice_meaning_id, splice_meaning_id]
    simp only [slice, OffsetRange.substring, substring_eq _ hlen, hto, Int.toNat_zero, ← sub_eq_add_neg]
    simpa only [Nat.cast_zero, add_zero] using htrims

theorem removeCommonSuffixAndPrefix_trims (h0 : 0 ≤ r.replaceRange.start)
    (hstop : r.replaceRange.endExclusive ≤ data.length) :
    ∃ r', r.removeCommonSuffixAndPrefix data = .ok r' ∧
      Trims data ((meaning id).splice r') ((meaning id).splice r) := by
  obtain ⟨r1, hr1, htrims1⟩ := removeCommonSuffix_trims h0 hstop
  have hstart := htrims1.start_le
  have hstop1 := htrims1.stop_le
  rw [splice_meaning_id, splice_meaning_id] at hstart hstop1
  obtain ⟨r2, hr2, htrims2⟩ := @removeCommonPrefix_trims data r1 (h0.trans hstart) (hstop1.trans hstop)
  exact ⟨r2, by rw [removeCommonSuffixAndPrefix, hr1]; exact hr2, htrims1.trans htrims2⟩

theorem equals_iff {r other : StringReplacement} : r.equals other = true ↔ r = other := by
  obtain ⟨⟨a, b, hab⟩, text⟩ := r
  obtain ⟨⟨a', b', hab'⟩, text'⟩ := other
  simp only [equals, Bool.and_eq_true, beq_iff_eq, StringReplacement.mk.injEq, OffsetRange.mk.injEq]

end StringReplacement

theorem BaseEdit.validOn_of_chainTo {T : Type} [BaseReplacement T] {α : Type*} (d : Meaning T α)
    {rs : List T} {lo hi : Int} (h : ChainTo lo (d.splices rs) hi) :
    ∀ r ∈ rs, lo ≤ (BaseReplacement.replaceRange r).start ∧
      (BaseReplacement.replaceRange r).endExclusive ≤ hi := by
  induction rs generalizing lo with
  | nil => exact fun r hr => absurd hr not_mem_nil
  | cons q rs ih =>
    intro r hr
    rcases mem_cons.mp hr with rfl | hr
    · exact ⟨h.1, h.2.2.le⟩
    · have hq := ih h.2.2 r hr
      exact ⟨h.1.trans (h.2.1.trans hq.1), hq.2⟩

namespace StringEdit

open BaseEdit StringReplacement

variable {data : JsString} {rs : List StringReplacement} {p : Int}

theorem exists_new (h : ChainTo 0 ((meaning id).splices rs) data.length) :
    ∃ n : StringEdit, BaseEdit.new rs = .ok n ∧ n.replacements = rs ∧ n.ValidOn data.length ∧
      n.apply data = splice 0 ((meaning id).splices rs) data := by
  have hsorted := ((meaning id).chain_iff (-1) rs).mp (h.chain.mono (by omega))
  exact ⟨⟨rs, hsorted⟩, new_ok hsorted, rfl, validOn_of_chainTo _ h, apply_eq ⟨rs, hsorted⟩ data h.chain⟩

theorem apply_eq_of_validOn {e : StringEdit} (h : e.ValidOn data.length) :
    e.apply data = splice 0 ((meaning id).splices e.replacements) data :=
  apply_eq e data (chainTo_of_validOn (meaning id) h).chain

theorem trimmed_cons {r r' : StringReplacement} {out : List StringReplacement} (h0 : 0 ≤ p)
    (h : ChainTo p ((meaning id).splices (r :: rs)) data.length)
    (htrims : Trims data ((meaning id).splice r') ((meaning id).splice r))
    (hout : ChainTo r.replaceRange.endExclusive ((meaning id).splices out) data.length)
    (heq : splice r.replaceRange.endExclusive ((meaning id).splices out)
        (data.drop r.replaceRange.endExclusive.toNat) =
      splice r.replaceRange.endExclusive ((meaning id).splices rs) (data.drop r.replaceRange.endExclusive.toNat)) :
    ChainTo p ((meaning id).splices (r' :: out)) data.length ∧
      splice p ((meaning id).splices (r' :: out)) (data.drop p.toNat) =
        splice p ((meaning id).splices (r :: rs)) (data.drop p.toNat) := by
  refine ⟨⟨h.1.trans htrims.start_le, htrims.le, hout.mono_left htrims.stop_le⟩, ?_⟩
  rw [Meaning.splices_cons, htrims.splice_cons_drop h0 h.1 hout.chain, Meaning.splices_cons,
    Lib.Splicing.splice_cons_drop _ data h0 h.1 h.2.1, Lib.Splicing.splice_cons_drop _ data h0 h.1 h.2.1]
  exact congrArg _ (congrArg _ heq)

theorem mapM_removeCommon (h0 : 0 ≤ p) (h : ChainTo p ((meaning id).splices rs) data.length) :
    ∃ out, rs.mapM (·.removeCommonSuffixAndPrefix data) = .ok out ∧
      ChainTo p ((meaning id).splices out) data.length ∧
      splice p ((meaning id).splices out) (data.drop p.toNat) =
        splice p ((meaning id).splices rs) (data.drop p.toNat) := by
  induction rs generalizing p with
  | nil => exact ⟨[], rfl, h, rfl⟩
  | cons r rs ih =>
    have hstart : 0 ≤ r.replaceRange.start := h0.trans h.1
    obtain ⟨r', hr', htrims⟩ := removeCommonSuffixAndPrefix_trims hstart h.2.2.le
    obtain ⟨out, hout, hfit, heq⟩ := ih (hstart.trans r.replaceRange.le) h.2.2
    refine ⟨r' :: out, ?_, trimmed_cons h0 h htrims hfit heq⟩
    rw [mapM_cons, hr', hout]
    rfl

theorem splice_isEmpty {r : StringReplacement} {out : List StringReplacement}
    (hempty : r.isEmpty = true) (hp : p ≤ r.replaceRange.start)
    (hout : Chain r.replaceRange.endExclusive ((meaning id).splices out)) (t : JsString) :
    splice p ((meaning id).splices (r :: out)) t = splice p ((meaning id).splices out) t := by
  rw [StringReplacement.isEmpty, Bool.and_eq_true, beq_iff_eq, beq_iff_eq, length_eq_zero_iff] at hempty
  have hlength := r.replaceRange.length_cast
  have hstop : r.replaceRange.endExclusive = r.replaceRange.start := by omega
  rw [Meaning.splices_cons, splice_meaning_id, hstop, hempty.1]
  exact splice_cons_empty _ hp (hout.mono r.replaceRange.le)

theorem removeCommonLoop_spec (h0 : 0 ≤ p) (h : ChainTo p ((meaning id).splices rs) data.length) :
    ∃ out, removeCommonLoop data rs = .ok out ∧
      ChainTo p ((meaning id).splices out) data.length ∧
      splice p ((meaning id).splices out) (data.drop p.toNat) =
        splice p ((meaning id).splices rs) (data.drop p.toNat) := by
  induction rs generalizing p with
  | nil => exact ⟨[], rfl, h, rfl⟩
  | cons r rs ih =>
    have hstart : 0 ≤ r.replaceRange.start := h0.trans h.1
    obtain ⟨r', hr', htrims⟩ := removeCommonSuffixPrefix_trims hstart h.2.2.le
    obtain ⟨out, hout, hfit, heq⟩ := ih (hstart.trans r.replaceRange.le) h.2.2
    obtain ⟨hfit', heq'⟩ := trimmed_cons h0 h htrims hfit heq
    rw [removeCommonLoop, hr', hout]
    cases hempty : r'.isEmpty with
    | false => exact ⟨r' :: out, by simp only [bind, Except.bind, hempty]; rfl, hfit', heq'⟩
    | true =>
      refine ⟨out, by simp only [bind, Except.bind, hempty]; rfl, hfit.mono_left (h.1.trans h.2.1), ?_⟩
      rw [← heq', splice_isEmpty hempty hfit'.1 hfit'.2.2.chain]

theorem equals_iff {e other : StringEdit} : e.equals other = true ↔ e = other := by
  have hall (rs rs' : List StringReplacement) (hlength : rs.length = rs'.length) :
      ((rs.zip rs').all fun (r, r') => r.equals r') = true ↔ rs = rs' := by
    induction rs generalizing rs' with
    | nil => cases rs' with
      | nil => simp
      | cons r' rs' => simp at hlength
    | cons r rs ih => cases rs' with
      | nil => simp at hlength
      | cons r' rs' =>
        rw [zip_cons_cons, all_cons, Bool.and_eq_true, ih rs' (by simpa using hlength), List.cons.injEq]
        exact and_congr_left' StringReplacement.equals_iff
  rw [BaseEdit.ext_iff, equals]
  by_cases hlength : e.replacements.length = other.replacements.length
  · rw [if_neg (not_not.mpr hlength)]
    exact hall _ _ hlength
  · rw [if_pos hlength]
    refine ⟨fun h => absurd h Bool.false_ne_true, fun h => absurd (congrArg List.length h) hlength⟩

theorem eq_of_elim {x y : CodeUnit ⊕ Nat} (h : ∀ f : Nat → CodeUnit, Sum.elim id f x = Sum.elim id f y) :
    x = y := by
  have hzero := h fun _ => 0
  have hone := h fun _ => 1
  cases x with
  | inl a =>
    cases y with
    | inl b => exact congrArg Sum.inl hzero
    | inr k => exact absurd (show (0 : CodeUnit) = 1 from hzero.symm.trans hone) (by decide)
  | inr j =>
    cases y with
    | inl b => exact absurd (show (0 : CodeUnit) = 1 from hzero.trans hone.symm) (by decide)
    | inr k =>
      by_contra hne
      have hjk : k ≠ j := fun heq => hne (congrArg Sum.inr heq.symm)
      have hsep := h fun i => if i = j then 0 else 1
      simp only [Sum.elim_inr, if_pos, if_neg hjk] at hsep
      exact absurd hsep (by decide)

theorem eq_of_map_elim {l l' : List (CodeUnit ⊕ Nat)}
    (h : ∀ f : Nat → CodeUnit, l.map (Sum.elim id f) = l'.map (Sum.elim id f)) : l = l' := by
  induction l generalizing l' with
  | nil => exact (map_eq_nil_iff.mp (h fun _ => 0).symm).symm
  | cons x l ih =>
    cases l' with
    | nil => exact absurd (h fun _ => 0) (cons_ne_nil _ _)
    | cons y l' =>
      have hcons (f : Nat → CodeUnit) := List.cons.inj (h f)
      rw [eq_of_elim fun f => (hcons f).1, ih fun f => (hcons f).2]

theorem splices_mapText (f : Nat → CodeUnit) (rs : List StringReplacement) :
    (meaning id).splices rs = (markedMeaning.splices rs).map (Splice.mapText (Sum.elim id f)) := by
  simp only [Meaning.splices, map_map]
  refine map_congr_left fun r _ => ?_
  simp only [markedMeaning, Meaning.splice, meaning, Splice.mapText, Function.comp_apply,
    map_map, Splice.mk.injEq, true_and]
  rfl

theorem ValidOn.mono {e : StringEdit} {m n : Nat} (h : e.ValidOn m) (hle : m ≤ n) : e.ValidOn n :=
  fun r hr => ⟨(h r hr).1, (h r hr).2.trans (by exact_mod_cast hle)⟩

theorem map_splice_marked {e : StringEdit} (f : Nat → CodeUnit) (t : List (CodeUnit ⊕ Nat))
    (h : e.ValidOn t.length) :
    (splice 0 (markedMeaning.splices e.replacements) t).map (Sum.elim id f) =
      e.apply (t.map (Sum.elim id f)) := by
  rw [map_splice, ← splices_mapText, apply_eq_of_validOn (by rwa [length_map])]

theorem splice_marked_eq {e1 e2 : StringEdit} {m n : Nat} (h1 : e1.ValidOn m) (h2 : e2.ValidOn m)
    (hn : m + 1 ≤ n) (h : ∀ base : JsString, e1.ValidOn base.length → e2.ValidOn base.length →
      e1.apply base = e2.apply base) :
    splice (-1) (markedMeaning.splices e1.replacements) (marked n) =
      splice (-1) (markedMeaning.splices e2.replacements) (marked n) := by
  have hchain {e : StringEdit} (he : e.ValidOn m) : Chain 0 (markedMeaning.splices e.replacements) :=
    (chainTo_of_validOn markedMeaning he).chain
  have hlength : m ≤ ((marked n).drop 1).length := by
    rw [length_drop, length_marked]
    omega
  rw [splice_take_drop _ (by omega) (hchain h1), splice_take_drop _ (by omega) (hchain h2)]
  refine congrArg _ (eq_of_map_elim fun f => ?_)
  have hv1 := ValidOn.mono h1 hlength
  have hv2 := ValidOn.mono h2 hlength
  exact (map_splice_marked f _ hv1).trans ((h _ (by rwa [length_map])
    (by rwa [length_map])).trans (map_splice_marked f _ hv2).symm)

theorem normalize_canonical {e1 e2 n1 n2 : StringEdit} (hn1 : e1.normalize = .ok n1)
    (hn2 : e2.normalize = .ok n2) (n₀ : Nat)
    (h : ∀ n, n₀ ≤ n → splice (-1) (markedMeaning.splices e1.replacements) (marked n) =
      splice (-1) (markedMeaning.splices e2.replacements) (marked n)) : n1 = n2 := by
  obtain ⟨n1', hn1', href1⟩ := normalize_refines markedMeaning e1
  obtain ⟨n2', hn2', href2⟩ := normalize_refines markedMeaning e2
  obtain rfl := Except.ok.inj (hn1.symm.trans hn1')
  obtain rfl := Except.ok.inj (hn2.symm.trans hn2')
  have heq1 := (href1 (-1) ((markedMeaning.chain_iff _ _).mpr e1.sorted)).splice_eq
  have heq2 := (href2 (-1) ((markedMeaning.chain_iff _ _).mpr e2.sorted)).splice_eq
  exact eq_of_splice_marked (normalize_normal markedMeaning tryJoinTouching_ne_none hn1)
    (normalize_normal markedMeaning tryJoinTouching_ne_none hn2) n₀
    fun n hn => by rw [heq1, heq2, h n hn]

def KeepsResult (s : JsString) (e n : StringEdit) : Prop := n.ValidOn s.length ∧ n.apply s = e.apply s

variable {s : JsString} {e : StringEdit}

theorem normalize_keepsResult (h : e.ValidOn s.length) :
    ∃ n : StringEdit, e.normalize = .ok n ∧ KeepsResult s e n := by
  obtain ⟨n, hn, href⟩ := normalize_refines (meaning id) e
  have hfit := chainTo_of_validOn (meaning id) h
  have hrefines := href 0 hfit.chain
  have hvalid : n.ValidOn s.length := validOn_of_chainTo _ (hrefines.chainTo _ hfit)
  exact ⟨n, hn, hvalid, by
    rw [apply_eq_of_validOn hvalid, hrefines.splice_eq, apply_eq_of_validOn h]⟩

theorem normalize_normalize {n : StringEdit} (h : e.normalize = .ok n) : n.normalize = .ok n := by
  obtain ⟨n', hn', -⟩ := normalize_refines markedMeaning n
  obtain ⟨n'', hn'', href⟩ := normalize_refines markedMeaning e
  obtain rfl := Except.ok.inj (h.symm.trans hn'')
  have heq := (href (-1) ((markedMeaning.chain_iff _ _).mpr e.sorted)).splice_eq
  rw [hn', normalize_canonical hn' h 0 fun m _ => heq _]

theorem removeCommonSuffixPrefix_keepsResult (h : e.ValidOn s.length) :
    ∃ n : StringEdit, e.removeCommonSuffixPrefix s = .ok n ∧ KeepsResult s e n := by
  obtain ⟨out, hout, hfit, heq⟩ := removeCommonLoop_spec le_rfl (chainTo_of_validOn (meaning id) h)
  obtain ⟨n, hn, -, hvalid, happly⟩ := exists_new hfit
  exact ⟨n, by rw [removeCommonSuffixPrefix, hout]; exact hn, hvalid,
    happly.trans (heq.trans (apply_eq_of_validOn h).symm)⟩

theorem removeCommonSuffixAndPrefix_keepsResult (h : e.ValidOn s.length) :
    ∃ n : StringEdit, e.removeCommonSuffixAndPrefix s = .ok n ∧ KeepsResult s e n := by
  obtain ⟨out, hout, hfit, heq⟩ := mapM_removeCommon le_rfl (chainTo_of_validOn (meaning id) h)
  obtain ⟨m, hm, -, hvalid, happly⟩ := exists_new hfit
  obtain ⟨n, hn, hkeeps⟩ := normalize_keepsResult hvalid
  exact ⟨n, by rw [removeCommonSuffixAndPrefix, hout]; simp only [bind, Except.bind, hm]; exact hn,
    hkeeps.1, hkeeps.2.trans (happly.trans (heq.trans (apply_eq_of_validOn h).symm))⟩

theorem splice_whole (s result : JsString) :
    splice 0 ((meaning id).splices [⟨.ofLength s.length, result⟩]) s = result := by
  rw [Meaning.splices_cons, splice_meaning_id, splice_cons]
  simp [OffsetRange.ofLength]

theorem normalizeOnSource_keepsResult (e : StringEdit) (s : JsString) :
    ∃ n : StringEdit, e.normalizeOnSource s = .ok n ∧ KeepsResult s e n := by
  obtain ⟨r, hr, htrims⟩ := @removeCommonSuffixAndPrefix_trims s ⟨.ofLength s.length, e.apply s⟩ le_rfl le_rfl
  have hfit : ChainTo 0 ((meaning id).splices [r]) s.length := ⟨htrims.start_le, htrims.le, htrims.stop_le⟩
  have heq : splice 0 ((meaning id).splices [r]) s = e.apply s := by
    rw [← splice_whole s (e.apply s)]
    exact htrims.splice_cons_drop le_rfl le_rfl trivial
  obtain ⟨n, hn, -, hvalid, happly⟩ := exists_new hfit
  simp only [normalizeOnSource, hr, bind, Except.bind]
  cases hempty : r.isEmpty with
  | false => exact ⟨n, by rw [if_neg Bool.false_ne_true]; exact hn, hvalid, happly.trans heq⟩
  | true =>
    have hnil : (BaseEdit.empty : StringEdit).ValidOn s.length := fun r hr => absurd hr not_mem_nil
    refine ⟨BaseEdit.empty, by rw [if_pos rfl]; rfl, hnil, ?_⟩
    have hskip : splice 0 ((meaning id).splices [r]) s = splice 0 ((meaning id).splices []) s :=
      splice_isEmpty hempty hfit.1 (show Chain _ ((meaning id).splices []) from trivial) s
    rw [apply_eq_of_validOn hnil, ← heq, hskip]
    rfl

/-- Normalisation keeps what an edit does to a string; the two normal forms are reached in one
step, and edits have the same one exactly if they do the same to the string, or to all strings. -/
theorem normalization_sound_canonical (s : JsString) (e e1 e2 : StringEdit)
    (h : e.ValidOn s.length) (h1 : e1.ValidOn s.length) (h2 : e2.ValidOn s.length) :
    (∃ n : StringEdit, e.normalize = .ok n ∧ KeepsResult s e n ∧ n.normalize = .ok n) ∧
    (∃ n, e.removeCommonSuffixPrefix s = .ok n ∧ KeepsResult s e n) ∧
    (∃ n, e.removeCommonSuffixAndPrefix s = .ok n ∧ KeepsResult s e n) ∧
    (∃ n, e.normalizeOnSource s = .ok n ∧ KeepsResult s e n ∧ n.normalizeOnSource s = .ok n) ∧
    (∃ n1 n2, e1.normalizeOnSource s = .ok n1 ∧ e2.normalizeOnSource s = .ok n2 ∧
      (n1.equals n2 = true ↔ e1.apply s = e2.apply s)) ∧
    (∃ n1 n2 : StringEdit, e1.normalize = .ok n1 ∧ e2.normalize = .ok n2 ∧
      (n1.equals n2 = true ↔ ∀ base : JsString, e1.ValidOn base.length → e2.ValidOn base.length →
        e1.apply base = e2.apply base)) := by
  refine ⟨?_, removeCommonSuffixPrefix_keepsResult h, removeCommonSuffixAndPrefix_keepsResult h,
    ?_, ?_, ?_⟩
  · obtain ⟨n, hn, hkeeps⟩ := normalize_keepsResult h
    exact ⟨n, hn, hkeeps, normalize_normalize hn⟩
  · obtain ⟨n, hn, hkeeps⟩ := normalizeOnSource_keepsResult e s
    refine ⟨n, hn, hkeeps, ?_⟩
    rw [← hn, normalizeOnSource, normalizeOnSource, hkeeps.2]
  · obtain ⟨n1, hn1, hkeeps1⟩ := normalizeOnSource_keepsResult e1 s
    obtain ⟨n2, hn2, hkeeps2⟩ := normalizeOnSource_keepsResult e2 s
    refine ⟨n1, n2, hn1, hn2, ?_⟩
    rw [equals_iff]
    refine ⟨fun heq => ?_, fun heq => ?_⟩
    · rw [← hkeeps1.2, ← hkeeps2.2, heq]
    · rw [normalizeOnSource, heq, ← normalizeOnSource] at hn1
      exact Except.ok.inj (hn1.symm.trans hn2)
  · obtain ⟨n1, hn1, -⟩ := normalize_keepsResult h1
    obtain ⟨n2, hn2, -⟩ := normalize_keepsResult h2
    refine ⟨n1, n2, hn1, hn2, ?_⟩
    rw [equals_iff]
    refine ⟨fun heq base hv1 hv2 => ?_, fun hall => ?_⟩
    · obtain ⟨m1, hm1, hkeeps1⟩ := normalize_keepsResult hv1
      obtain ⟨m2, hm2, hkeeps2⟩ := normalize_keepsResult hv2
      obtain rfl := Except.ok.inj (hn1.symm.trans hm1)
      obtain rfl := Except.ok.inj (hn2.symm.trans hm2)
      rw [← hkeeps1.2, ← hkeeps2.2, heq]
    · exact normalize_canonical hn1 hn2 (s.length + 1) fun n hn => splice_marked_eq h1 h2 hn hall

/-- "aab" with its first "a" repeated: as an insertion, in two parts and around an "a" that stays. -/
theorem normalization_sound_canonical_repeated :
    let e : StringEdit := ⟨[⟨⟨0, 1, by decide⟩, [97, 97]⟩], by decide⟩
    let e1 : StringEdit := ⟨[⟨⟨0, 0, le_rfl⟩, [97]⟩, ⟨⟨0, 0, le_rfl⟩, []⟩], by decide⟩
    let e2 : StringEdit := ⟨[⟨⟨1, 2, by decide⟩, [97]⟩, ⟨⟨2, 2, le_rfl⟩, [97]⟩], by decide⟩
    (∃ n1 n2, e1.normalizeOnSource [97, 97, 98] = .ok n1 ∧ e2.normalizeOnSource [97, 97, 98] = .ok n2 ∧
      (n1.equals n2 = true ↔ e1.apply [97, 97, 98] = e2.apply [97, 97, 98])) ∧
    ∃ n, e.removeCommonSuffixAndPrefix [97, 97, 98] = .ok n ∧ KeepsResult [97, 97, 98] e n := by
  intro e e1 e2
  have h := normalization_sound_canonical [97, 97, 98] e e1 e2 (by decide) (by decide) (by decide)
  exact ⟨h.2.2.2.2.1, h.2.2.1⟩

end StringEdit

end Gavea.Edits

namespace Gavea.Edits

open Gavea.Core Lib.Js Lib.Splicing

def StringReplacement.replace (r : StringReplacement) (str : JsString) : JsString :=
  Lib.Js.substring str 0 r.replaceRange.start ++ r.newText ++ substringFrom str r.replaceRange.endExclusive

namespace StringEdit

def composeSequentialLoop : List StringReplacement → StringEdit → List StringReplacement →
    Except BugIndicatingError (StringEdit × List StringReplacement)
  | [], edit, curEditReplacements => .ok (edit, curEditReplacements)
  | r :: rest, edit, curEditReplacements =>
    match curEditReplacements.getLast? with
    | none => composeSequentialLoop rest edit (curEditReplacements ++ [r])
    | some last =>
      if r.replaceRange.isBefore last.replaceRange then
        composeSequentialLoop rest edit (curEditReplacements ++ [r])
      else do
        let edit ← edit.compose (← BaseEdit.new curEditReplacements.reverse)
        composeSequentialLoop rest edit [r]

def composeSequentialReplacements (replacements : List StringReplacement) :
    Except BugIndicatingError StringEdit := do
  let (edit, curEditReplacements) ← composeSequentialLoop replacements BaseEdit.empty []
  edit.compose (← BaseEdit.new curEditReplacements.reverse)

def ValidInSequence : List StringReplacement → JsString → Prop
  | [], _ => True
  | r :: rest, s => 0 ≤ r.replaceRange.start ∧ r.replaceRange.endExclusive ≤ s.length ∧
      ValidInSequence rest (r.replace s)

instance ValidInSequence.decidable : (rs : List StringReplacement) → (s : JsString) →
    Decidable (ValidInSequence rs s)
  | [], _ => inferInstanceAs (Decidable True)
  | r :: rest, s =>
    have := ValidInSequence.decidable rest (r.replace s)
    inferInstanceAs (Decidable (_ ∧ _ ∧ ValidInSequence rest (r.replace s)))

def applySequentially (rs : List StringReplacement) (s : JsString) : JsString := rs.foldl (fun s r => r.replace s) s

open BaseEdit StringReplacement

variable {s x y : JsString} {cur : List StringReplacement} {edit : StringEdit}

structure Group (x y : JsString) (cur : List StringReplacement) : Prop where
  fits : ChainTo 0 ((meaning id).splices cur.reverse) x.length
  eq : splice 0 ((meaning id).splices cur.reverse) x = y

theorem Group.nil (x : JsString) : Group x x [] where
  fits := Int.natCast_nonneg _
  eq := rfl

theorem Group.push {r : StringReplacement} (h : Group x y cur) (h0 : 0 ≤ r.replaceRange.start)
    (hstop : r.replaceRange.endExclusive ≤ y.length)
    (hlast : ∀ last ∈ cur.getLast?, r.replaceRange.endExclusive ≤ last.replaceRange.start) :
    Group x (r.replace y) (cur ++ [r]) := by
  have hle := r.replaceRange.le
  have hfits : ChainTo r.replaceRange.endExclusive ((meaning id).splices cur.reverse) x.length := by
    rw [← List.head?_reverse] at hlast
    have heq := h.eq
    have hcur := h.fits
    generalize cur.reverse = rs at hlast heq hcur ⊢
    cases rs with
    | nil =>
      change x = y at heq
      rw [heq]
      exact hstop
    | cons last rs => exact ⟨hlast last rfl, hcur.2⟩
  have hx : ChainTo 0 ((meaning id).splices cur.reverse) (0 + x.length) := by
    rw [zero_add]
    exact h.fits
  have htake := take_splice h0 (hfits.chain.mono hle) hx
  have hdrop := drop_splice (h0.trans hle) hfits.chain hx
  rw [h.eq] at htake hdrop
  constructor
  · rw [List.reverse_append, List.reverse_singleton, List.singleton_append]
    exact ⟨h0, hle, hfits⟩
  · rw [List.reverse_append, List.reverse_singleton, List.singleton_append, Meaning.splices_cons,
      splice_meaning_id, splice_cons, replace, substring_eq _ h0, substringFrom_eq, List.append_assoc]
    simp only [sub_zero] at htake hdrop ⊢
    rw [htake, hdrop, Int.toNat_zero, List.drop_zero]

theorem splices_mapText_inl (rs : List StringReplacement) :
    ((meaning id).splices rs).map (Splice.mapText Sum.inl) = markedMeaning.splices rs := by
  simp only [Meaning.splices, List.map_map]
  refine List.map_congr_left fun r _ => ?_
  simp only [markedMeaning, Meaning.splice, meaning, Splice.mapText, Function.comp_apply, List.map_id]

structure Composed (s x : JsString) (edit : StringEdit) : Prop where
  chain : Chain 0 (markedMeaning.splices edit.replacements)
  normal : Normal (markedMeaning.splices edit.replacements)
  padded : ∃ n₀, ∀ n, n₀ ≤ n → splice 0 (markedMeaning.splices edit.replacements)
    (s.map Sum.inl ++ marked n) = x.map Sum.inl ++ marked n

theorem Composed.empty (s : JsString) : Composed s s BaseEdit.empty where
  chain := trivial
  normal := trivial
  padded := ⟨0, fun _ _ => rfl⟩

theorem Composed.compose (h : Composed s x edit) (hgroup : Group x y cur) :
    ∃ c : StringEdit, (do edit.compose (← BaseEdit.new cur.reverse)) = Except.ok c ∧
      Composed s y c := by
  obtain ⟨e, he, hrs, hvalid, -⟩ := exists_new hgroup.fits
  have hfit := chainTo_of_validOn markedMeaning hvalid
  rw [hrs] at hfit
  obtain ⟨c, hc, -, hspec⟩ := compose_spec markedMeaning edit e
  obtain ⟨hchain, heq⟩ := hspec 0 h.chain (by rw [hrs]; exact hfit.chain)
  obtain ⟨n₁, hfits⟩ := exists_fits 0 _ h.chain
  obtain ⟨n₂, hpadded⟩ := h.padded
  refine ⟨c, by simp only [he, bind, Except.bind]; exact hc, hchain,
    compose_normal markedMeaning tryJoinTouching_ne_none hc, max n₁ n₂, fun n hn => ?_⟩
  have hlength : n₁ ≤ (s.map Sum.inl ++ marked n).length := by
    rw [List.length_append, length_marked]
    omega
  rw [heq _ (hfits _ hlength), hpadded n (by omega), hrs, splice_append_right _ _
    (by rw [zero_add, List.length_map]; exact hfit), ← splices_mapText_inl, ← map_splice, hgroup.eq]

theorem Composed.apply (h : Composed s x edit) : edit.ValidOn s.length ∧ edit.apply s = x := by
  obtain ⟨n₁, hfits⟩ := exists_fits 0 _ h.chain
  obtain ⟨n₂, hpadded⟩ := h.padded
  have heq := hpadded (max n₁ n₂) (le_max_right _ _)
  have hunmarked (u : JsString) :
      ∀ a ∈ (u.map Sum.inl : List (CodeUnit ⊕ Nat)), ¬a.isRight = true := by
    intro a ha
    obtain ⟨c, -, rfl⟩ := List.mem_map.mp ha
    exact Bool.false_ne_true
  have htext : ∀ q ∈ markedMeaning.splices edit.replacements, ∀ a ∈ q.text, ¬a.isRight = true := by
    intro q hq
    obtain ⟨r, -, rfl⟩ := List.mem_map.mp hq
    exact hunmarked r.newText
  have hmark : ∀ a ∈ marked (max n₁ n₂), a.isRight = true := by
    intro a ha
    obtain ⟨k, -, rfl⟩ := List.mem_map.mp ha
    rfl
  have hfit := chainTo_of_keeps_pad (hfits _ (by rw [List.length_append, length_marked]; omega))
    h.normal htext (hunmarked s) (hunmarked x) hmark (List.nodup_range.map Sum.inr_injective) heq
  rw [splice_append_right _ _ hfit] at heq
  have hx := congrArg (List.map (Sum.elim id fun _ => 0)) (List.append_cancel_right heq)
  have hid (u : JsString) :
      (u.map Sum.inl).map (Sum.elim id fun _ : Nat => (0 : CodeUnit)) = u := by
    rw [List.map_map]
    exact List.map_id u
  rw [map_splice, ← splices_mapText, hid, hid] at hx
  rw [zero_add, List.length_map] at hfit
  have hvalid : edit.ValidOn s.length := validOn_of_chainTo _ hfit
  exact ⟨hvalid, (apply_eq_of_validOn hvalid).trans hx⟩

theorem composeSequentialLoop_spec (rs : List StringReplacement) (h : Composed s x edit)
    (hgroup : Group x y cur) (hvalid : ValidInSequence rs y) :
    ∃ x' edit' cur', composeSequentialLoop rs edit cur = .ok (edit', cur') ∧
      Composed s x' edit' ∧ Group x' (applySequentially rs y) cur' := by
  induction rs generalizing x y edit cur with
  | nil => exact ⟨x, edit, cur, rfl, h, hgroup⟩
  | cons r rest ih =>
    obtain ⟨h0, hstop, hrest⟩ := hvalid
    rw [composeSequentialLoop]
    cases hlast : cur.getLast? with
    | none => exact ih h (hgroup.push h0 hstop (by rw [hlast]; exact fun _ hq => nomatch hq)) hrest
    | some last =>
      by_cases hbefore : r.replaceRange.isBefore last.replaceRange = true
      · simp only [hbefore, if_true]
        refine ih h (hgroup.push h0 hstop ?_) hrest
        rw [hlast]
        exact fun q hq => Option.some.inj hq ▸ of_decide_eq_true hbefore
      · obtain ⟨c, hc, hcomposed⟩ := h.compose hgroup
        have hsingle := (Group.nil y).push h0 hstop (fun _ hq => nomatch hq)
        obtain ⟨x', edit', cur', hloop, hrest'⟩ := ih hcomposed hsingle hrest
        refine ⟨x', edit', cur', ?_, hrest'⟩
        simp only [hbefore, Bool.false_eq_true, if_false]
        cases hnew : BaseEdit.new cur.reverse with
        | error e =>
          rw [hnew] at hc
          exact nomatch hc
        | ok e =>
          rw [hnew] at hc
          simp only [bind, Except.bind] at hc ⊢
          rw [hc]
          exact hloop

/-- The composition of the batches does what the replacements do one after the other. -/
theorem composeSequentialReplacements_apply (rs : List StringReplacement) (s : JsString)
    (h : ValidInSequence rs s) : ∃ e : StringEdit, composeSequentialReplacements rs = .ok e ∧
      e.ValidOn s.length ∧ e.apply s = applySequentially rs s := by
  obtain ⟨x, edit, cur, hloop, hcomposed, hgroup⟩ := composeSequentialLoop_spec rs (.empty s) (.nil s) h
  obtain ⟨c, hc, hfinal⟩ := hcomposed.compose hgroup
  exact ⟨c, by rw [composeSequentialReplacements, hloop]; exact hc, hfinal.apply⟩

/-- Two insertions from the right to the left, then a deletion across both. -/
theorem composeSequentialReplacements_apply_three :
    let rs : List StringReplacement := [⟨⟨2, 2, by decide⟩, [120]⟩, ⟨⟨0, 1, by decide⟩, [121, 122]⟩,
      ⟨⟨1, 4, by decide⟩, []⟩]
    ∃ e : StringEdit, composeSequentialReplacements rs = .ok e ∧ e.ValidOn 2 ∧
      e.apply [97, 98] = applySequentially rs [97, 98] := by
  intro rs
  exact composeSequentialReplacements_apply rs [97, 98] (by decide)

end StringEdit

end Gavea.Edits
