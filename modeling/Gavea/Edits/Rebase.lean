import Gavea.Edits.Compose

namespace Gavea.Edits

open Gavea.Core Lib.Js Lib.Splicing List

theorem isConflicting_comm (r1 r2 : OffsetRange) : isConflicting r1 r2 = isConflicting r2 r1 := by
  simp only [isConflicting, OffsetRange.intersects, areConcurrentInserts, max_comm r1.start, min_comm r1.endExclusive,
    Bool.or_right_comm _ (isInsertStrictlyInsideRange r1 r2), Bool.and_comm r1.isEmpty, Bool.beq_comm (a := r1.start)]

def comesFirst (r1 r2 : OffsetRange) : Prop := r1.start < r2.start ∨ r1.isEmpty ∧ r1.start = r2.start

instance (r1 r2 : OffsetRange) : Decidable (comesFirst r1 r2) := inferInstanceAs (Decidable (_ ∨ _))

theorem isConflicting_eq_false_iff (r1 r2 : OffsetRange) :
    isConflicting r1 r2 = false ↔
      (r1.endExclusive ≤ r2.start ∨ r2.endExclusive ≤ r1.start) ∧
        ¬ (r1.start = r1.endExclusive ∧ r2.start = r2.endExclusive ∧ r1.start = r2.start) := by
  have h1 := r1.le
  have h2 := r2.le
  simp only [isConflicting, OffsetRange.intersects, areConcurrentInserts, isInsertStrictlyInsideRange,
    OffsetRange.isEmpty, Bool.or_eq_false_iff, Bool.and_eq_false_iff, decide_eq_false_iff_not, beq_eq_false_iff_ne]
  omega

theorem comesFirst_le {r1 r2 : OffsetRange} (hc : isConflicting r1 r2 = false)
    (h : comesFirst r1 r2) : r1.endExclusive ≤ r2.start := by
  rw [isConflicting_eq_false_iff] at hc
  simp only [comesFirst, OffsetRange.isEmpty, beq_iff_eq] at h
  have h1 := r1.le
  have h2 := r2.le
  omega

theorem le_of_not_comesFirst {r1 r2 : OffsetRange} (hc : isConflicting r1 r2 = false)
    (h : ¬ comesFirst r1 r2) : r2.endExclusive ≤ r1.start := by
  rw [isConflicting_eq_false_iff] at hc
  simp only [comesFirst, OffsetRange.isEmpty, beq_iff_eq] at h
  have h1 := r1.le
  have h2 := r2.le
  omega

theorem comesFirst_iff_not {r1 r2 : OffsetRange} (hc : isConflicting r1 r2 = false) :
    comesFirst r1 r2 ↔ ¬ comesFirst r2 r1 := by
  rw [isConflicting_eq_false_iff] at hc
  simp only [comesFirst, OffsetRange.isEmpty, beq_iff_eq]
  have h1 := r1.le
  have h2 := r2.le
  omega

theorem not_isConflicting_of_comesFirst {r1 r2 r : OffsetRange} (hc : isConflicting r1 r2 = false)
    (h : comesFirst r1 r2) (hr : r2.endExclusive ≤ r.start) : isConflicting r1 r = false := by
  have hle := comesFirst_le hc h
  rw [isConflicting_eq_false_iff] at hc ⊢
  have h1 := r1.le
  have h2 := r2.le
  have h3 := r.le
  omega

def Compatible (ours bases : List StringReplacement) : Prop :=
  ∀ o ∈ ours, ∀ b ∈ bases, isConflicting o.replaceRange b.replaceRange = false

theorem compatible_comm {ours bases : List StringReplacement} :
    Compatible ours bases ↔ Compatible bases ours := by
  have hswap (ours bases : List StringReplacement) (h : Compatible ours bases) :
      Compatible bases ours := fun b hb o ho => by
    rw [isConflicting_comm]
    exact h o ho b hb
  exact ⟨hswap ours bases, hswap bases ours⟩

theorem compatible_cons_iff {o b : StringReplacement} {ours bases : List StringReplacement}
    (hc : isConflicting o.replaceRange b.replaceRange = false)
    (h : comesFirst o.replaceRange b.replaceRange)
    (hb : DisjointAndSorted b.replaceRange.endExclusive bases) :
    Compatible (o :: ours) (b :: bases) ↔ Compatible ours (b :: bases) := by
  refine ⟨fun hall o' ho' => hall o' (mem_cons_of_mem o ho'), fun hall => ?_⟩
  refine forall_mem_cons.mpr ⟨forall_mem_cons.mpr ⟨hc, fun b' hb' => ?_⟩, hall⟩
  exact not_isConflicting_of_comesFirst hc h (hb.le_start b' hb')

def merge : List StringReplacement → List StringReplacement → List StringReplacement
  | [], bases => bases
  | ours, [] => ours
  | o :: ours, b :: bases =>
    if comesFirst o.replaceRange b.replaceRange then o :: merge ours (b :: bases)
    else b :: merge (o :: ours) bases
  termination_by ours bases => ours.length + bases.length

theorem merge_nil (ours : List StringReplacement) : merge ours [] = ours := by
  cases ours <;> simp [merge]

theorem merge_comm {ours bases : List StringReplacement} (h : Compatible ours bases) :
    merge ours bases = merge bases ours := by
  induction ours, bases using merge.induct with
  | case1 bases => rw [merge_nil, merge]
  | case2 ours => rw [merge_nil, merge]
  | case3 o ours b bases hfirst ih =>
    have hc := h o mem_cons_self b mem_cons_self
    have hc' : isConflicting b.replaceRange o.replaceRange = false := by
      rw [isConflicting_comm]; exact hc
    rw [merge, if_pos hfirst, merge, if_neg ((comesFirst_iff_not hc).mp hfirst),
      ih fun o' ho' => h o' (mem_cons_of_mem o ho')]
  | case4 o ours b bases hfirst ih =>
    have hc' : isConflicting b.replaceRange o.replaceRange = false := by
      rw [isConflicting_comm]
      exact h o mem_cons_self b mem_cons_self
    have hfirst' : comesFirst b.replaceRange o.replaceRange := by
      rw [comesFirst_iff_not hc']; exact hfirst
    rw [merge, if_neg hfirst, merge, if_pos hfirst', ih fun o' ho' b' hb' => h o' ho' b' (mem_cons_of_mem b hb')]

namespace StringEdit

def moved (offset : Int) (o : StringReplacement) : StringReplacement := ⟨o.replaceRange.delta offset, o.newText⟩

theorem tryRebaseLoop_append (noOverlap : Bool) (ours bases newEdits : List StringReplacement)
    (offset : Int) : tryRebaseLoop noOverlap ours bases newEdits offset =
      (tryRebaseLoop noOverlap ours bases [] offset).map (newEdits ++ ·) := by
  induction ours generalizing bases newEdits offset with
  | nil => simp [tryRebaseLoop]
  | cons o ours ihO =>
    have hpush (bases : List StringReplacement) :
        tryRebaseLoop noOverlap ours bases (newEdits ++ [moved offset o]) offset =
          (tryRebaseLoop noOverlap ours bases ([] ++ [moved offset o]) offset).map
            (newEdits ++ ·) := by
      rw [ihO, ihO bases ([] ++ [moved offset o]), Option.map_map]
      congr 1
      funext out
      simp
    induction bases generalizing newEdits offset with
    | nil =>
      rw [tryRebaseLoop, tryRebaseLoop]
      exact hpush []
    | cons b bases ihB =>
      rw [tryRebaseLoop, tryRebaseLoop]
      split_ifs
      · rfl
      · exact ihO ..
      · exact hpush (b :: bases)
      · refine ihB newEdits _ fun bs => ?_
        rw [ihO, ihO bs ([] ++ _), Option.map_map]
        congr 1
        funext out
        simp

def rebased (noOverlap : Bool) (ours bases : List StringReplacement) (offset : Int) :
    Option (List StringReplacement) :=
  tryRebaseLoop noOverlap ours bases [] offset

variable {noOverlap : Bool} {o b : StringReplacement} {ours bases : List StringReplacement}
  {offset : Int}

theorem rebased_nil : rebased noOverlap [] bases offset = some [] := by
  rw [rebased, tryRebaseLoop]

theorem rebased_exhausted : rebased noOverlap (o :: ours) [] offset =
    (rebased noOverlap ours [] offset).map (moved offset o :: ·) := by
  rw [rebased, tryRebaseLoop, tryRebaseLoop_append]
  rfl

theorem rebased_conflict (hc : isConflicting o.replaceRange b.replaceRange = true) :
    rebased noOverlap (o :: ours) (b :: bases) offset =
      if noOverlap then none else rebased noOverlap ours (b :: bases) offset := by
  rw [rebased, tryRebaseLoop, if_pos hc]
  rfl

theorem rebased_first (hc : isConflicting o.replaceRange b.replaceRange = false)
    (h : comesFirst o.replaceRange b.replaceRange) :
    rebased noOverlap (o :: ours) (b :: bases) offset =
      (rebased noOverlap ours (b :: bases) offset).map (moved offset o :: ·) := by
  rw [rebased, tryRebaseLoop, if_neg (by simp [hc]), if_pos (show _ ∨ _ from h), tryRebaseLoop_append]
  rfl

theorem rebased_base (hc : isConflicting o.replaceRange b.replaceRange = false)
    (h : ¬ comesFirst o.replaceRange b.replaceRange) :
    rebased noOverlap (o :: ours) (b :: bases) offset =
      rebased noOverlap (o :: ours) bases
        (offset + ((b.newText.length : Int) - b.replaceRange.length)) := by
  rw [rebased, tryRebaseLoop, if_neg (by simp [hc]), if_neg (show ¬ (_ ∨ _) from h)]
  rfl

theorem rebased_sorted {p : Int} {out : List StringReplacement} (ho : DisjointAndSorted p ours)
    (hb : DisjointAndSorted p bases) (h : rebased noOverlap ours bases offset = some out) :
    DisjointAndSorted (p + offset) out := by
  induction ours generalizing bases p offset out with
  | nil =>
    rw [rebased_nil] at h
    cases h
    trivial
  | cons o ours ihO =>
    induction bases generalizing p offset out with
    | nil =>
      rw [rebased_exhausted] at h
      obtain ⟨out, hout, rfl⟩ := Option.map_eq_some_iff.mp h
      exact ⟨Int.add_le_add_right ho.1 offset, ihO ho.2 (show DisjointAndSorted _ [] from trivial) hout⟩
    | cons b bases ihB =>
      have hble := b.replaceRange.length_cast
      cases hc : isConflicting o.replaceRange b.replaceRange with
      | true =>
        rw [rebased_conflict hc] at h
        cases noOverlap with
        | true => cases h
        | false => exact ihO (ho.2.mono (ho.1.trans o.replaceRange.le)) hb h
      | false =>
        by_cases hfirst : comesFirst o.replaceRange b.replaceRange
        · rw [rebased_first hc hfirst] at h
          obtain ⟨out, hout, rfl⟩ := Option.map_eq_some_iff.mp h
          exact ⟨Int.add_le_add_right ho.1 offset,
            ihO ho.2 (show DisjointAndSorted _ (_ :: _) from ⟨comesFirst_le hc hfirst, hb.2⟩) hout⟩
        · rw [rebased_base hc hfirst] at h
          refine (ihB ⟨le_of_not_comesFirst hc hfirst, ho.2⟩ hb.2 h).mono ?_
          have hle := hb.1
          change p ≤ b.replaceRange.start at hle
          omega

theorem rebased_skip_ne_none : rebased false ours bases offset ≠ none := by
  induction ours generalizing bases offset with
  | nil => simp [rebased_nil]
  | cons o ours ihO =>
    induction bases generalizing offset with
    | nil => simpa [rebased_exhausted] using ihO
    | cons b bases ihB =>
      cases hc : isConflicting o.replaceRange b.replaceRange with
      | true => simpa [rebased_conflict hc] using ihO
      | false =>
        by_cases hfirst : comesFirst o.replaceRange b.replaceRange
        · simpa [rebased_first hc hfirst] using ihO
        · simpa [rebased_base hc hfirst] using ihB

theorem rebased_isSome_iff (offset : Int) {p : Int} (ho : DisjointAndSorted p ours)
    (hb : DisjointAndSorted p bases) :
    (rebased true ours bases offset).isSome ↔ Compatible ours bases := by
  induction ours generalizing bases p offset with
  | nil => simp [rebased_nil, Compatible]
  | cons o ours ihO =>
    induction bases generalizing p offset with
    | nil =>
      have hih := ihO offset ho.2 (show DisjointAndSorted _ [] from trivial)
      simpa [rebased_exhausted, Compatible] using hih
    | cons b bases ihB =>
      cases hc : isConflicting o.replaceRange b.replaceRange with
      | true => 
        simp only [rebased_conflict hc, if_pos, Option.isSome_none, Bool.false_eq_true, false_iff]
        intro hall
        have hno := hall o mem_cons_self b mem_cons_self
        rw [hc] at hno
        cases hno
      | false =>
        by_cases hfirst : comesFirst o.replaceRange b.replaceRange
        · have hb' : DisjointAndSorted o.replaceRange.endExclusive (b :: bases) := ⟨comesFirst_le hc hfirst, hb.2⟩
          rw [rebased_first hc hfirst, Option.isSome_map, ihO offset ho.2 hb', compatible_cons_iff hc hfirst hb.2]
        · have ho' : DisjointAndSorted b.replaceRange.endExclusive (o :: ours) := ⟨le_of_not_comesFirst hc hfirst, ho.2⟩
          have hc' : isConflicting b.replaceRange o.replaceRange = false := by
            rw [isConflicting_comm]; exact hc
          have hfirst' : comesFirst b.replaceRange o.replaceRange := by
            rw [comesFirst_iff_not hc']; exact hfirst
          rw [rebased_base hc hfirst, ihB _ ho' hb.2, compatible_comm,
            ← compatible_cons_iff hc' hfirst' ho.2, compatible_comm]

variable {β : Type*} (f : CodeUnit → β)

theorem rebased_exhausted_eq :
    rebased noOverlap ours [] offset = some (ours.map (moved offset)) := by
  induction ours with
  | nil => exact rebased_nil
  | cons o ours ih => rw [rebased_exhausted, ih]; rfl

theorem splices_map_moved (offset : Int) (rs : List StringReplacement) :
    (StringReplacement.meaning f).splices (rs.map (moved offset)) =
      ((StringReplacement.meaning f).splices rs).map (Splice.move offset) := by
  simp only [Meaning.splices, map_map]
  rfl

theorem splice_moved (offset : Int) (o : StringReplacement) :
    (StringReplacement.meaning f).splice (moved offset o) = ((StringReplacement.meaning f).splice o).move offset := rfl

theorem splice_rebased {p : Int} {out : List StringReplacement} {t : List β}
    (hcomp : Compatible ours bases)
    (ho : ChainTo p ((StringReplacement.meaning f).splices ours) (p + t.length))
    (hb : ChainTo p ((StringReplacement.meaning f).splices bases) (p + t.length))
    (h : rebased noOverlap ours bases offset = some out) :
    splice (p + offset) ((StringReplacement.meaning f).splices out)
        (splice p ((StringReplacement.meaning f).splices bases) t) =
      splice p ((StringReplacement.meaning f).splices (merge ours bases)) t := by
  induction ours generalizing bases p offset out t with
  | nil =>
    rw [rebased_nil] at h
    cases h
    rw [merge]
    rfl
  | cons o ours ihO =>
    induction bases generalizing p offset out t with
    | nil =>
      rw [rebased_exhausted_eq] at h
      cases h
      rw [splices_map_moved, splice_move, merge_nil]
      rfl
    | cons b bases ihB =>
      have hc := hcomp o mem_cons_self b mem_cons_self
      by_cases hfirst : comesFirst o.replaceRange b.replaceRange
      · rw [rebased_first hc hfirst] at h
        obtain ⟨out, hout, rfl⟩ := Option.map_eq_some_iff.mp h
        have hstop : Chain o.replaceRange.endExclusive
            ((StringReplacement.meaning f).splices (b :: bases)) :=
          ⟨comesFirst_le hc hfirst, hb.2.1, hb.2.2.chain⟩
        have hp : p ≤ o.replaceRange.endExclusive := ho.1.trans ho.2.1
        have hih := ihO (t := t.drop (o.replaceRange.endExclusive - p).toNat)
          (fun o' ho' => hcomp o' (mem_cons_of_mem o ho'))
          (ChainTo.drop hp ho.2.2.chain (ho.2.2.mono_left hp)) (ChainTo.drop hp hstop hb) hout
        rw [merge, if_pos hfirst, Meaning.splices_cons, splice_moved, splice_cons_move offset _ ho.1 ho.2.1 hstop hb]
        exact congrArg (fun rest => _ ++ (o.newText.map f ++ rest)) hih
      · rw [rebased_base hc hfirst] at h
        have hstop : Chain b.replaceRange.endExclusive
            ((StringReplacement.meaning f).splices (o :: ours)) :=
          ⟨le_of_not_comesFirst hc hfirst, ho.2.1, ho.2.2.chain⟩
        have hp : p ≤ b.replaceRange.endExclusive := hb.1.trans hb.2.1
        have hih := ihB (t := t.drop (b.replaceRange.endExclusive - p).toNat)
          (fun o' ho' b' hb' => hcomp o' ho' b' (mem_cons_of_mem b hb'))
          (ChainTo.drop hp hstop ho) (ChainTo.drop hp hb.2.2.chain (hb.2.2.mono_left hp)) h
        have hsorted := rebased_sorted (((StringReplacement.meaning f).chain_iff _ _).mp hstop)
          (((StringReplacement.meaning f).chain_iff _ _).mp hb.2.2.chain) h
        have hlen := b.replaceRange.length_cast
        have htext := (StringReplacement.meaning f).length_newValue_cast b
        rw [merge, if_neg hfirst]
        refine (splice_splice_cons offset ?_
          (((StringReplacement.meaning f).chain_iff _ _).mpr hsorted) hb).trans ?_
        · rw [Meaning.splice_text, htext, hlen]
          rfl
        · exact congrArg (fun rest => _ ++ (b.newText.map f ++ rest)) hih

theorem tryRebaseWith_eq (e base : StringEdit) (noOverlap : Bool) :
    ∃ r, tryRebaseWith e base noOverlap = .ok r ∧
      r.map BaseEdit.replacements = rebased noOverlap e.replacements base.replacements 0 := by
  rw [tryRebaseWith, ← rebased]
  cases h : rebased noOverlap e.replacements base.replacements 0 with
  | none => exact ⟨none, rfl, rfl⟩
  | some out =>
    have hsorted : DisjointAndSorted (-1) out := rebased_sorted e.sorted base.sorted h
    exact ⟨some ⟨out, hsorted⟩, by simp only [BaseEdit.new_ok hsorted]; rfl, rfl⟩

theorem tryRebaseWith_some {e base r : StringEdit} {noOverlap : Bool}
    (h : tryRebaseWith e base noOverlap = .ok (some r)) :
    rebased noOverlap e.replacements base.replacements 0 = some r.replacements := by
  obtain ⟨r', hr', heq⟩ := tryRebaseWith_eq e base noOverlap
  rw [h] at hr'
  cases hr'
  exact heq.symm

theorem tryRebase_defined_iff (e base : StringEdit) :
    (∃ r, e.tryRebase base = .ok (some r)) ↔ Compatible e.replacements base.replacements := by
  rw [← rebased_isSome_iff 0 e.sorted base.sorted]
  obtain ⟨r, hr, heq⟩ := tryRebaseWith_eq e base true
  rw [← heq, Option.isSome_map, tryRebase, hr]
  cases r <;> simp

theorem splice_diamond {a b a' b' : StringEdit} {p : Int} {t : List β}
    (hb : b.tryRebase a = .ok (some b')) (ha : a.tryRebase b = .ok (some a'))
    (hfita : ChainTo p ((StringReplacement.meaning f).splices a.replacements) (p + t.length))
    (hfitb : ChainTo p ((StringReplacement.meaning f).splices b.replacements) (p + t.length)) :
    splice p ((StringReplacement.meaning f).splices b'.replacements)
        (splice p ((StringReplacement.meaning f).splices a.replacements) t) =
      splice p ((StringReplacement.meaning f).splices a'.replacements)
        (splice p ((StringReplacement.meaning f).splices b.replacements) t) := by
  have hcomp := (tryRebase_defined_iff a b).mp ⟨a', ha⟩
  have hfirst := splice_rebased f (compatible_comm.mp hcomp) hfitb hfita (tryRebaseWith_some hb)
  have hsecond := splice_rebased f hcomp hfita hfitb (tryRebaseWith_some ha)
  rw [add_zero] at hfirst hsecond
  rw [hfirst, hsecond, merge_comm hcomp]

theorem chain_tryRebase {e base r : StringEdit} (h : e.tryRebase base = .ok (some r)) {p : Int}
    (he : Chain p ((StringReplacement.meaning f).splices e.replacements))
    (hb : Chain p ((StringReplacement.meaning f).splices base.replacements)) :
    Chain p ((StringReplacement.meaning f).splices r.replacements) := by
  have hsorted := rebased_sorted (((StringReplacement.meaning f).chain_iff _ _).mp he)
    (((StringReplacement.meaning f).chain_iff _ _).mp hb) (tryRebaseWith_some h)
  rw [add_zero] at hsorted
  exact ((StringReplacement.meaning f).chain_iff _ _).mpr hsorted

theorem splices_injective (hf : Function.Injective f) :
    Function.Injective (StringReplacement.meaning f).splices := by
  refine map_injective_iff.mpr fun r q h => ?_
  obtain ⟨⟨_, _, _⟩, _⟩ := r
  obtain ⟨⟨_, _, _⟩, _⟩ := q
  simp only [Meaning.splice, StringReplacement.meaning, Splice.mk.injEq, BaseReplacement.replaceRange] at h
  obtain ⟨rfl, rfl, h⟩ := h
  rw [map_injective_iff.mpr hf h]

theorem tryJoinTouching_ne_none (q r : StringReplacement)
    (h : (BaseReplacement.replaceRange q).endExclusive = (BaseReplacement.replaceRange r).start) :
    BaseReplacement.tryJoinTouching q r ≠ .ok none := by
  change q.replaceRange.endExclusive = r.replaceRange.start at h
  change StringReplacement.tryJoinTouching q r ≠ .ok none
  rw [StringReplacement.tryJoinTouching, OffsetRange.joinRightTouching_ok h]
  simp [Except.map]

def markedMeaning : Meaning StringReplacement (CodeUnit ⊕ Nat) := StringReplacement.meaning Sum.inl

def marked (n : Nat) : List (CodeUnit ⊕ Nat) := (List.range n).map Sum.inr

theorem length_marked (n : Nat) : (marked n).length = n := by
  rw [marked, length_map, length_range]

theorem eq_of_splice_marked {c₁ c₂ : StringEdit}
    (h₁ : Normal (markedMeaning.splices c₁.replacements))
    (h₂ : Normal (markedMeaning.splices c₂.replacements)) (n₀ : Nat)
    (h : ∀ n, n₀ ≤ n → splice (-1) (markedMeaning.splices c₁.replacements) (marked n) =
      splice (-1) (markedMeaning.splices c₂.replacements) (marked n)) : c₁ = c₂ := by
  obtain ⟨n₁, hn₁⟩ := exists_fits _ _ ((markedMeaning.chain_iff _ _).mpr c₁.sorted)
  obtain ⟨n₂, hn₂⟩ := exists_fits _ _ ((markedMeaning.chain_iff _ _).mpr c₂.sorted)
  let n := max n₀ (max n₁ n₂)
  have hfit₁ := hn₁ n ((le_max_left _ _).trans (le_max_right _ _))
  have hfit₂ := hn₂ n ((le_max_right _ _).trans (le_max_right _ _))
  rw [← length_marked n] at hfit₁ hfit₂
  have htext (rs : List StringReplacement) :
      ∀ r ∈ markedMeaning.splices rs, ∀ x ∈ r.text, ¬ x.isRight = true := by
    intro r hr x hx
    obtain ⟨q, _, rfl⟩ := mem_map.mp hr
    obtain ⟨u, _, rfl⟩ := mem_map.mp hx
    simp
  have hmark : ∀ x ∈ marked n, x.isRight = true := by
    intro x hx
    obtain ⟨k, _, rfl⟩ := mem_map.mp hx
    rfl
  have hnodup : (marked n).Nodup := nodup_range.map Sum.inr_injective
  refine BaseEdit.ext (splices_injective (Sum.inl : CodeUnit → CodeUnit ⊕ Nat) Sum.inl_injective ?_)
  exact eq_of_splice_eq hfit₁ hfit₂ h₁ h₂ (htext _) (htext _) hmark hnodup (h n (le_max_left _ _))

theorem compose_diamond {a b a' b' : StringEdit} (hb : b.tryRebase a = .ok (some b'))
    (ha : a.tryRebase b = .ok (some a')) :
    ∃ c, a.compose b' = .ok c ∧ b.compose a' = .ok c := by
  have hca : Chain (-1) (markedMeaning.splices a.replacements) := (markedMeaning.chain_iff _ _).mpr a.sorted
  have hcb : Chain (-1) (markedMeaning.splices b.replacements) := (markedMeaning.chain_iff _ _).mpr b.sorted
  obtain ⟨c₁, hc₁, -, hspec₁⟩ := BaseEdit.compose_spec markedMeaning a b'
  obtain ⟨c₂, hc₂, -, hspec₂⟩ := BaseEdit.compose_spec markedMeaning b a'
  obtain ⟨hchain₁, heq₁⟩ := hspec₁ (-1) hca (chain_tryRebase Sum.inl hb hcb hca)
  obtain ⟨hchain₂, heq₂⟩ := hspec₂ (-1) hcb (chain_tryRebase Sum.inl ha hca hcb)
  obtain ⟨na, hna⟩ := exists_fits _ _ hca
  obtain ⟨nb, hnb⟩ := exists_fits _ _ hcb
  have heq : c₁ = c₂ := by
    refine eq_of_splice_marked
      (BaseEdit.compose_normal markedMeaning tryJoinTouching_ne_none hc₁)
      (BaseEdit.compose_normal markedMeaning tryJoinTouching_ne_none hc₂)
      (max na nb) fun n hn => ?_
    have hfita := hna n ((le_max_left _ _).trans hn)
    have hfitb := hnb n ((le_max_right _ _).trans hn)
    rw [← length_marked n] at hfita hfitb
    rw [heq₁ _ hfita, heq₂ _ hfitb]
    exact splice_diamond Sum.inl hb ha hfita hfitb
  exact ⟨c₁, hc₁, heq ▸ hc₂⟩

/-- The laws of operational transformation: whether two edits can be rebased does
not depend on the side, both ways round the diamond have the same effect and compose
to edits that a third one is rebased over alike, and skipping what is in conflict
always leads to an edit. -/
theorem rebase_laws :
    (∀ a b : StringEdit, (∃ r, a.tryRebase b = .ok (some r)) ↔ ∃ r, b.tryRebase a = .ok (some r)) ∧
    (∀ (a b a' b' : StringEdit) (s : JsString), b.tryRebase a = .ok (some b') →
      a.tryRebase b = .ok (some a') → a.ValidOn s.length → b.ValidOn s.length →
      b'.apply (a.apply s) = a'.apply (b.apply s)) ∧
    (∀ a b c a' b' : StringEdit, b.tryRebase a = .ok (some b') → a.tryRebase b = .ok (some a') →
      ∃ ab ba, a.compose b' = .ok ab ∧ b.compose a' = .ok ba ∧
        c.tryRebase ab = c.tryRebase ba ∧
        c.rebaseSkipConflicting ab = c.rebaseSkipConflicting ba) ∧
    (∀ a b : StringEdit, ∃ r, a.rebaseSkipConflicting b = .ok (some r)) := by
  refine ⟨fun a b => ?_, fun a b a' b' s hb ha hva hvb => ?_, fun a b c a' b' hb ha => ?_,
    fun a b => ?_⟩
  · rw [tryRebase_defined_iff, tryRebase_defined_iff, compatible_comm]
  · have hfita := BaseEdit.chainTo_of_validOn (StringReplacement.meaning id) hva
    have hfitb := BaseEdit.chainTo_of_validOn (StringReplacement.meaning id) hvb
    rw [apply_eq a s hfita.chain, apply_eq b s hfitb.chain,
      apply_eq b' _ (chain_tryRebase id hb hfitb.chain hfita.chain),
      apply_eq a' _ (chain_tryRebase id ha hfita.chain hfitb.chain)]
    exact splice_diamond id hb ha (by rwa [zero_add]) (by rwa [zero_add])
  · obtain ⟨d, hab, hba⟩ := compose_diamond hb ha
    exact ⟨d, d, hab, hba, rfl, rfl⟩
  · obtain ⟨r, hr, heq⟩ := tryRebaseWith_eq a b false
    cases r with
    | none => exact absurd heq.symm rebased_skip_ne_none
    | some r => exact ⟨r, hr⟩

/-- "ab" with an insertion at its front against a replacement of its "a". -/
theorem rebase_laws_insert_before :
    let a : StringEdit := ⟨[⟨⟨0, 0, le_rfl⟩, [120]⟩], by decide⟩
    let b : StringEdit := ⟨[⟨⟨0, 1, by decide⟩, [121, 122]⟩], by decide⟩
    let a' : StringEdit := ⟨[⟨⟨0, 0, le_rfl⟩, [120]⟩], by decide⟩
    let b' : StringEdit := ⟨[⟨⟨1, 2, by decide⟩, [121, 122]⟩], by decide⟩
    b.tryRebase a = .ok (some b') ∧ a.tryRebase b = .ok (some a') ∧
      b'.apply (a.apply [97, 98]) = a'.apply (b.apply [97, 98]) := by
  intro a b a' b'
  have hb : b.tryRebase a = .ok (some b') := by
    simp [a, b, b', tryRebase, tryRebaseWith, tryRebaseLoop]
    decide
  have ha : a.tryRebase b = .ok (some a') := by
    simp [a, b, a', tryRebase, tryRebaseWith, tryRebaseLoop]
    decide
  exact ⟨hb, ha, rebase_laws.2.1 a b a' b' [97, 98] hb ha (by decide) (by decide)⟩

end StringEdit

end Gavea.Edits
