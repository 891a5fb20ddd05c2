import Gavea.Edits.StringEdit

namespace Gavea.Edits

open Gavea.Core BaseReplacement Lib.Splicing

variable {T : Type} [BaseReplacement T] {α : Type*}

/-- What the replacements of an edit stand for: a list put in place of a range.
The laws are those that the algorithms on edits rely on. -/
structure Meaning (T : Type) [BaseReplacement T] (α : Type*) where
  newValue : T → List α
  length_newValue : ∀ r, (newValue r).length = getNewLength r
  replaceRange_slice : ∀ (r : T) (range rangeInReplacement : OffsetRange),
    replaceRange (slice r range rangeInReplacement) = range
  newValue_slice : ∀ (r : T) (range rangeInReplacement : OffsetRange),
    0 ≤ rangeInReplacement.start → rangeInReplacement.endExclusive ≤ getNewLength r →
      newValue (slice r range rangeInReplacement) =
        ((newValue r).take rangeInReplacement.endExclusive.toNat).drop rangeInReplacement.start.toNat
  tryJoinTouching_ok : ∀ a b : T, (replaceRange a).endExclusive = (replaceRange b).start →
    tryJoinTouching a b = .ok none ∨ ∃ j, tryJoinTouching a b = .ok (some j) ∧
      (replaceRange j).start = (replaceRange a).start ∧
      (replaceRange j).endExclusive = (replaceRange b).endExclusive ∧
      newValue j = newValue a ++ newValue b

namespace Meaning

variable (d : Meaning T α)

def splice (r : T) : Splice α := ⟨(replaceRange r).start, (replaceRange r).endExclusive, d.newValue r⟩

def splices (rs : List T) : List (Splice α) := rs.map d.splice

@[simp] theorem splice_start (r : T) : (d.splice r).start = (replaceRange r).start := rfl

@[simp] theorem splice_stop (r : T) : (d.splice r).stop = (replaceRange r).endExclusive := rfl

@[simp] theorem splice_text (r : T) : (d.splice r).text = d.newValue r := rfl

@[simp] theorem splices_nil : d.splices [] = [] := rfl

@[simp] theorem splices_cons (r : T) (rs : List T) : d.splices (r :: rs) = d.splice r :: d.splices rs := rfl

@[simp] theorem splices_append (rs qs : List T) : d.splices (rs ++ qs) = d.splices rs ++ d.splices qs := List.map_append

theorem chain_iff (lo : Int) (rs : List T) : Chain lo (d.splices rs) ↔ DisjointAndSorted lo rs := by
  induction rs generalizing lo with
  | nil => exact Iff.rfl
  | cons r rs ih =>
    simp only [splices_cons, Chain, DisjointAndSorted, splice_start, splice_stop, ih]
    have := (replaceRange r).le
    tauto

theorem length_newValue_cast (r : T) : ((d.newValue r).length : Int) = getNewLength r := by
  rw [d.length_newValue]

theorem newValue_slice_all (r : T) (range : OffsetRange) :
    d.newValue (slice r range (.ofLength (getNewLength r))) = d.newValue r := by
  rw [d.newValue_slice _ _ _ le_rfl le_rfl]
  simp [OffsetRange.ofLength, ← d.length_newValue r]

theorem splice_delta (r : T) (k : Int) : d.splice (BaseEdit.delta r k) =
    ⟨(replaceRange r).start + k, (replaceRange r).endExclusive + k, d.newValue r⟩ := by
  simp only [splice, BaseEdit.delta, d.replaceRange_slice, d.newValue_slice_all,
    OffsetRange.delta_start, OffsetRange.delta_endExclusive]

end Meaning

namespace BaseEdit

variable (d : Meaning T α)

theorem normalizeLoop_append (rs acc : List T) (last : Option T) :
    normalizeLoop rs acc last = (normalizeLoop rs [] last).map (acc ++ ·) := by
  induction rs generalizing acc last with
  | nil => simp [normalizeLoop, Except.map]
  | cons r rs ih =>
    have hpush (l : T) : normalizeLoop rs (acc ++ [l]) (some r) =
        (normalizeLoop rs [l] (some r)).map (acc ++ ·) := by
      rw [ih, ih [l]]
      cases normalizeLoop rs [] (some r) <;> simp [Except.map]
    simp only [normalizeLoop, List.nil_append]
    split
    · exact ih acc last
    · cases last with
      | none => exact ih acc (some r)
      | some l =>
        simp only
        split
        · split
          · rfl
          · exact ih acc _
          · exact hpush l
        · exact hpush l

/-- One list of replacements may stand for another from position p on: it is as
well sorted, reaches no further and replaces the same in every source. -/
structure Refines (p : Int) (out rs : List T) : Prop where
  chain : Chain p (d.splices out)
  chainTo : ∀ hi, ChainTo p (d.splices rs) hi → ChainTo p (d.splices out) hi
  splice_eq : ∀ t : List α, splice p (d.splices out) t = splice p (d.splices rs) t
  shift_eq : shift (d.splices out) = shift (d.splices rs)

theorem Refines.cons {p : Int} {out rs : List T} {r : T} (hp : p ≤ (replaceRange r).start)
    (h : Refines d (replaceRange r).endExclusive out rs) : Refines d p (r :: out) (r :: rs) where
  chain := ⟨hp, (replaceRange r).le, h.chain⟩
  chainTo hi hrs := ⟨hrs.1, hrs.2.1, h.chainTo hi hrs.2.2⟩
  splice_eq t := by simp only [Meaning.splices_cons, splice, Meaning.splice_stop, h.splice_eq]
  shift_eq := by simp only [Meaning.splices_cons, shift, h.shift_eq]

theorem splice_of_empty {r : T} (h : getNewLength r = 0 ∧ (replaceRange r).length = 0) :
    d.splice r = ⟨(replaceRange r).start, (replaceRange r).start, []⟩ := by
  have hstop : (replaceRange r).endExclusive = (replaceRange r).start := by
    have := (replaceRange r).length_cast; omega
  have hnil : d.newValue r = [] := by
    rw [← List.length_eq_zero_iff, d.length_newValue, h.1]
  simp only [Meaning.splice, hstop, hnil]

theorem chain_skip {p : Int} {rs : List T} {r : T} {last : Option T}
    (h : Chain p (d.splices (last.toList ++ r :: rs))) : Chain p (d.splices (last.toList ++ rs)) := by
  cases last with
  | none => exact h.2.2.mono (h.1.trans h.2.1)
  | some l => exact ⟨h.1, h.2.1, h.2.2.2.2.mono (h.2.2.1.trans h.2.2.2.1)⟩

theorem Refines.skip {p : Int} {out rs : List T} {r : T} {last : Option T}
    (hr : getNewLength r = 0 ∧ (replaceRange r).length = 0)
    (h : Chain p (d.splices (last.toList ++ r :: rs)))
    (href : Refines d p out (last.toList ++ rs)) : Refines d p out (last.toList ++ r :: rs) := by
  have hsplice := splice_of_empty d hr
  cases last with
  | none =>
    refine ⟨href.chain, fun hi hto => href.chainTo hi (hto.2.2.mono_left (hto.1.trans hto.2.1)),
      fun t => (href.splice_eq t).trans ?_, href.shift_eq.trans ?_⟩
    · simp only [Option.toList_none, List.nil_append, Meaning.splices_cons, Chain, hsplice] at h ⊢
      exact (splice_cons_empty t h.1 h.2.2).symm
    · simp [shift, hsplice]
  | some l =>
    refine ⟨href.chain, fun hi hto => href.chainTo hi ⟨hto.1, hto.2.1, hto.2.2.2.2.mono_left
      (hto.2.2.1.trans hto.2.2.2.1)⟩, fun t => (href.splice_eq t).trans ?_,
      href.shift_eq.trans ?_⟩
    · simp only [Option.toList_some, List.singleton_append, Meaning.splices_cons, Chain, hsplice] at h ⊢
      rw [splice_cons p (d.splice l), splice_cons p (d.splice l), splice_cons_empty _ h.2.2.1 h.2.2.2.2]
    · simp [shift, hsplice]

theorem normalizeLoop_refines {rs : List T} (last : Option T) {p : Int}
    (h : Chain p (d.splices (last.toList ++ rs))) :
    ∃ out, normalizeLoop rs [] last = .ok out ∧ Refines d p out (last.toList ++ rs) := by
  induction rs generalizing last p with
  | nil => exact ⟨last.toList, by simp [normalizeLoop], by simpa using h, fun hi => by simp, fun t => by simp, by simp⟩
  | cons r rs ih =>
    by_cases hempty : getNewLength r = 0 ∧ (replaceRange r).length = 0
    · obtain ⟨out, hout, href⟩ := ih _ (chain_skip d h)
      exact ⟨out, by simpa only [normalizeLoop, if_pos hempty] using hout, href.skip d hempty h⟩
    · cases last with
      | none =>
        obtain ⟨out, hout, href⟩ := ih (some r) h
        exact ⟨out, by simpa only [normalizeLoop, if_neg hempty] using hout, href⟩
      | some l =>
        simp only [Option.toList_some, List.singleton_append] at h ⊢
        obtain ⟨h1, h2, h3⟩ := h
        have hkeep : ∃ out, normalizeLoop rs ([] ++ [l]) (some r) = .ok out ∧
            Refines d p out (l :: r :: rs) := by
          obtain ⟨out, hout, href⟩ := ih (some r) h3
          refine ⟨l :: out, ?_, href.cons d h1⟩
          rw [normalizeLoop_append, hout]
          rfl
        by_cases htouch : (replaceRange l).endExclusive = (replaceRange r).start
        · simp only [normalizeLoop, if_neg hempty, if_pos htouch]
          obtain hj | ⟨j, hj, hs, he, hv⟩ := d.tryJoinTouching_ok l r htouch
          · simpa only [hj] using hkeep
          · have hsplice : d.splice j = ⟨(d.splice l).start, (d.splice r).stop,
                (d.splice l).text ++ (d.splice r).text⟩ := by
              simp only [Meaning.splice, hs, he, hv]
            have hcj : Chain p (d.splices ((some j).toList ++ rs)) := by
              simp only [Option.toList_some, List.singleton_append, Meaning.splices_cons, hsplice]
              exact ⟨h1, h2.trans (h3.1.trans h3.2.1), h3.2.2⟩
            obtain ⟨out, hout, href⟩ := ih _ hcj
            simp only [Option.toList_some, List.singleton_append] at href
            refine ⟨out, by simpa only [hj] using hout, href.chain, fun hi hto => href.chainTo hi ?_,
              fun t => (href.splice_eq t).trans ?_, href.shift_eq.trans ?_⟩
            · rw [Meaning.splices_cons, hsplice]
              exact ⟨hto.1, h2.trans (h3.1.trans h3.2.1), hto.2.2.2.2⟩
            · simp only [Meaning.splices_cons]
              rw [hsplice, splice_cons_join t h1 h2 h3.2.1 htouch]
            · simp only [Meaning.splices_cons, shift, hsplice, List.length_append,
                Meaning.splice_start, Meaning.splice_stop]
              omega
        · simpa only [normalizeLoop, if_neg hempty, if_neg htouch] using hkeep

/-- `normalize` never throws and keeps the effect of the edit. -/
theorem normalize_refines (e : BaseEdit T) :
    ∃ n, e.normalize = .ok n ∧ ∀ p, Chain p (d.splices e.replacements) →
      Refines d p n.replacements e.replacements := by
  obtain ⟨out, hout, href⟩ := normalizeLoop_refines d none ((d.chain_iff _ _).mpr e.sorted)
  have hsorted := (d.chain_iff _ _).mp href.chain
  refine ⟨⟨out, hsorted⟩, ?_, fun p hp => ?_⟩
  · simp only [normalize, hout, bind, Except.bind, new_ok hsorted]
  · obtain ⟨out', hout', href⟩ := normalizeLoop_refines d none hp
    rw [hout] at hout'
    cases hout'
    exact href

/-- A moment of the composition: everything before position p of the source is
done, queue and rest are what is left of the two edits, and the rest addresses the
intermediate text at source position plus offset. -/
structure Moment (T : Type) where
  pos : Int
  offset : Int
  queue : List T
  rest : List T

namespace Moment

def WF (m : Moment T) : Prop := Chain m.pos (d.splices m.queue) ∧ Chain (m.pos + m.offset) (d.splices m.rest)

def Fits (m : Moment T) (t : List α) : Prop := ChainTo m.pos (d.splices m.queue) (m.pos + t.length)

def value (m : Moment T) (t : List α) : List α :=
  splice (m.pos + m.offset) (d.splices m.rest) (splice m.pos (d.splices m.queue) t)

structure Progress (m : Moment T) (out : List T) (m' : Moment T) : Prop where
  emitted : ChainTo m.pos (d.splices out) m'.pos
  wf : m'.WF d
  fits : ∀ t : List α, m.Fits d t → m'.Fits d (t.drop (m'.pos - m.pos).toNat)
  value_eq : ∀ t : List α, m.Fits d t → m.value d t =
    splice m.pos (d.splices out) (t.take (m'.pos - m.pos).toNat) ++ m'.value d (t.drop (m'.pos - m.pos).toNat)
  queue_shift : m.offset + shift (d.splices m.queue) = m'.offset + shift (d.splices m'.queue)
  out_shift : m.offset + shift (d.splices out) + shift (d.splices m'.rest) = m'.offset + shift (d.splices m.rest)

theorem Progress.refl {m : Moment T} (h : m.WF d) : Progress d m [] m where
  emitted := le_rfl
  wf := h
  fits t ht := by simpa using ht
  value_eq t ht := by simp
  queue_shift := rfl
  out_shift := by simp [shift]

theorem Progress.trans {m m' m'' : Moment T} {out out' : List T} (h : Progress d m out m')
    (h' : Progress d m' out' m'') : Progress d m (out ++ out') m'' := by
  have hle := h.emitted.le
  have hle' := h'.emitted.le
  have hpos : (m'.pos - m.pos).toNat + (m''.pos - m'.pos).toNat = (m''.pos - m.pos).toNat := by omega
  have hmin : (m'.pos - m.pos).toNat ≤ (m''.pos - m.pos).toNat := by omega
  have hsub : (m''.pos - m.pos).toNat - (m'.pos - m.pos).toNat = (m''.pos - m'.pos).toNat := by omega
  refine ⟨?_, h'.wf, fun t ht => ?_, fun t ht => ?_, h.queue_shift.trans h'.queue_shift, ?_⟩
  · rw [Meaning.splices_append]
    exact h.emitted.append h'.emitted
  · have := h'.fits _ (h.fits t ht)
    rwa [List.drop_drop, hpos] at this
  · rw [h.value_eq t ht, h'.value_eq _ (h.fits t ht), List.drop_drop, hpos,
      Meaning.splices_append, splice_append _ h.emitted h'.emitted.chain, List.take_take,
      min_eq_left hmin, List.drop_take, hsub, List.append_assoc]
  · have h1 := h.out_shift
    have h2 := h'.out_shift
    rw [Meaning.splices_append, shift_append]
    omega

theorem Progress.copy {p δ : Int} {r1 : T} {queue : List T} (rest : List T)
    (hq : Chain p (d.splices (r1 :: queue)))
    (hrest : Chain ((replaceRange r1).start + δ + getNewLength r1) (d.splices rest)) :
    Progress d ⟨p, δ, r1 :: queue, rest⟩ [r1]
      ⟨(replaceRange r1).endExclusive,
        δ + ((getNewLength r1 : Int) - (replaceRange r1).length), queue, rest⟩ := by
  obtain ⟨h1, h2, h3⟩ := hq
  have hlen := (replaceRange r1).length_cast
  have hnew := d.length_newValue_cast r1
  have hpos : (replaceRange r1).endExclusive +
      (δ + ((getNewLength r1 : Int) - (replaceRange r1).length)) =
      (replaceRange r1).start + δ + getNewLength r1 := by omega
  simp only [Meaning.splice_start, Meaning.splice_stop] at h1 h2 h3
  refine ⟨⟨h1, h2, le_rfl⟩, ⟨h3, by simpa only [hpos] using hrest⟩, fun t ht => ?_, fun t ht => ?_,
    ?_, ?_⟩
  · have hle := ht.2.2.le
    refine ht.2.2.mono ?_
    simp only [List.length_drop, Meaning.splice_stop] at hle ⊢
    omega
  · have hle := ht.2.2.le
    simp only [Meaning.splice_stop] at hle
    have hmin : (replaceRange r1).start - p ≤ (replaceRange r1).endExclusive - p := by omega
    have htake : ((t.take ((replaceRange r1).start - p).toNat).length : Int) =
        (replaceRange r1).start - p := by rw [List.length_take]; omega
    simp only [value, Meaning.splices_cons, splice_cons, Meaning.splices_nil, splice_nil, Meaning.splice_start,
      Meaning.splice_stop, Meaning.splice_text, hpos, ← List.append_assoc]
    rw [splice_append_left _ _ _ hrest]
    · simp only [List.take_take, List.drop_take, List.append_assoc,
        min_eq_left (Int.toNat_le_toNat hmin), Nat.sub_self, List.take_zero, List.nil_append]
    · rw [List.length_append, Nat.cast_add, htake, hnew]
      omega
  · simp only [Meaning.splices_cons, shift, Meaning.splice_start, Meaning.splice_stop, Meaning.splice_text, hnew, hlen]
    omega
  · simp only [Meaning.splices_cons, Meaning.splices_nil, shift,
      Meaning.splice_start, Meaning.splice_stop, Meaning.splice_text, hnew, hlen]
    omega

theorem Progress.replace {p δ s p' δ' : Int} {r2 middle : T} {queue queue' rest pre : List T}
    (hrest : Chain (p + δ) (d.splices (r2 :: rest))) (hpre : ChainTo p (d.splices pre) s)
    (hs : (replaceRange middle).start = s) (he : (replaceRange middle).endExclusive = p')
    (hv : d.newValue middle = d.newValue r2) (hp' : p' + δ' = (replaceRange r2).endExclusive)
    (hq' : Chain p' (d.splices queue'))
    (hshift : δ + shift (d.splices queue) = δ' + shift (d.splices queue'))
    (hpreshift : δ + s + shift (d.splices pre) = (replaceRange r2).start)
    (htake : ∀ t : List α, ChainTo p (d.splices queue) (p + t.length) →
      (splice p (d.splices queue) t).take ((replaceRange r2).start - (p + δ)).toNat =
        splice p (d.splices pre) (t.take (s - p).toNat))
    (hdrop : ∀ t : List α, ChainTo p (d.splices queue) (p + t.length) →
      ChainTo p' (d.splices queue') (p' + (t.drop (p' - p).toNat).length) ∧
      (splice p (d.splices queue) t).drop ((replaceRange r2).endExclusive - (p + δ)).toNat =
        splice p' (d.splices queue') (t.drop (p' - p).toNat)) :
    Progress d ⟨p, δ, queue, r2 :: rest⟩ (pre ++ [middle]) ⟨p', δ', queue', rest⟩ := by
  have hle : s ≤ p' := by rw [← hs, ← he]; exact (replaceRange middle).le
  have hmiddle : ChainTo s (d.splices [middle]) p' := ⟨hs.ge, (replaceRange middle).le, he.le⟩
  refine ⟨?_, ⟨hq', ?_⟩, fun t ht => (hdrop t ht).1, fun t ht => ?_, hshift, ?_⟩
  · rw [Meaning.splices_append]
    exact hpre.append hmiddle
  · rw [hp']
    exact hrest.2.2
  · have hps := hpre.le
    have hmin : (s - p).toNat ≤ (p' - p).toNat := by omega
    have hnil : ((t.take (p' - p).toNat).drop (s - p).toNat).drop (p' - s).toNat = [] := by
      rw [List.drop_drop, List.drop_eq_nil_iff, List.length_take]
      omega
    rw [Meaning.splices_append, splice_append _ hpre hmiddle.chain, List.take_take, min_eq_left hmin,
      ← htake t ht, value, value, Meaning.splices_cons, splice_cons, Meaning.splice_stop, (hdrop t ht).2, hp']
    simp only [Meaning.splices_cons, Meaning.splices_nil, splice_cons, splice_nil, Meaning.splice_start,
      Meaning.splice_stop, Meaning.splice_text, hs, he, hv, hnil, sub_self, Int.toNat_zero, List.take_zero,
      List.nil_append, List.append_nil, List.append_assoc]
  · simp only [Meaning.splices_append, shift_append, Meaning.splices_cons, Meaning.splices_nil, shift,
      Meaning.splice_start, Meaning.splice_stop, Meaning.splice_text, hs, he, hv]
    omega

end Moment

theorem copyUntilTouching_progress {r2 : T} {queue rest : List T} {p δ : Int} (result : List T)
    (h : Moment.WF d ⟨p, δ, queue, r2 :: rest⟩) :
    ∃ out p' queue' δ', copyUntilTouching r2 queue result δ = ⟨queue', result ++ out, δ'⟩ ∧
      Moment.Progress d ⟨p, δ, queue, r2 :: rest⟩ out ⟨p', δ', queue', r2 :: rest⟩ ∧
      ∀ f ∈ queue'.head?, (replaceRange r2).start ≤ (replaceRange f).start + δ' + getNewLength f := by
  induction queue generalizing p δ result with
  | nil => exact ⟨[], p, [], δ, by simp [copyUntilTouching], .refl d h, by simp⟩
  | cons r1 queue ih =>
    by_cases htouch : (replaceRange r1).start + δ + getNewLength r1 ≥ (replaceRange r2).start
    · exact ⟨[], p, r1 :: queue, δ, by simp [copyUntilTouching, htouch], .refl d h,
        by simpa using htouch⟩
    · have hcopy := Moment.Progress.copy d (r2 :: rest) h.1 ⟨(not_le.mp htouch).le, (replaceRange r2).le, h.2.2.2⟩
      obtain ⟨out, p', queue', δ', heq, hprog, hhead⟩ := ih (result ++ [r1]) hcopy.wf
      refine ⟨r1 :: out, p', queue', δ', ?_, hcopy.trans d hprog, hhead⟩
      rw [copyUntilTouching, if_neg htouch, heq, List.append_assoc, List.singleton_append]

/-- Position, in the intermediate text, where the replacement l of the first edit
starts, when the shift behind it is δ. -/
def startIn1 (l : T) (δ : Int) : Int := (replaceRange l).endExclusive + δ - getNewLength l

def textFrom (l : T) (queue : List T) (t : List α) : List α :=
  d.newValue l ++ splice (replaceRange l).endExclusive (d.splices queue) t

theorem takeIntersecting_spec {l : T} {queue : List T} {δ : Int} (r2 first : T)
    (hq : Chain (replaceRange l).endExclusive (d.splices queue))
    (hl : startIn1 l δ ≤ (replaceRange r2).endExclusive) :
    ∃ last queue' δ', takeIntersecting r2 queue (some first) (some l) δ =
        ⟨queue', some first, some last, δ'⟩ ∧
      (replaceRange l).endExclusive ≤ (replaceRange last).endExclusive ∧
      Chain (replaceRange last).endExclusive (d.splices queue') ∧
      Chain ((replaceRange r2).endExclusive - δ') (d.splices queue') ∧
      startIn1 last δ' ≤ (replaceRange r2).endExclusive ∧
      δ + shift (d.splices queue) = δ' + shift (d.splices queue') ∧
      ∀ t : List α, ChainTo (replaceRange l).endExclusive (d.splices queue)
          ((replaceRange l).endExclusive + t.length) →
        ∃ t', t' = t.drop ((replaceRange last).endExclusive - (replaceRange l).endExclusive).toNat ∧
          ChainTo (replaceRange last).endExclusive (d.splices queue') ((replaceRange last).endExclusive + t'.length) ∧
          (textFrom d l queue t).drop ((replaceRange r2).endExclusive - startIn1 l δ).toNat =
            (textFrom d last queue' t').drop
              ((replaceRange r2).endExclusive - startIn1 last δ').toNat := by
  induction queue generalizing l δ with
  | nil => exact ⟨l, [], δ, rfl, le_rfl, trivial, trivial, hl, rfl, fun t ht => ⟨t, by simp, ht, rfl⟩⟩
  | cons r1 queue ih =>
    obtain ⟨h1, h2, h3⟩ := hq
    simp only [Meaning.splice_start, Meaning.splice_stop] at h1 h2 h3
    by_cases hstop : (replaceRange r1).start + δ > (replaceRange r2).endExclusive
    · refine ⟨l, r1 :: queue, δ, by simp [takeIntersecting, hstop], le_rfl, ⟨h1, h2, h3⟩,
        ⟨?_, h2, h3⟩, hl, rfl, fun t ht => ⟨t, by simp, ht, rfl⟩⟩
      simp only [Meaning.splice_start]
      omega
    · have hlen := (replaceRange r1).length_cast
      have hnew := d.length_newValue_cast l
      have hstart : startIn1 r1 (δ + ((getNewLength r1 : Int) - (replaceRange r1).length)) =
          (replaceRange r1).start + δ := by rw [startIn1]; omega
      obtain ⟨last, queue', δ', heq, hle, hc, hc', hlast, hshift, hsem⟩ :=
        @ih r1 (δ + ((getNewLength r1 : Int) - (replaceRange r1).length)) h3 (by rw [hstart]; omega)
      refine ⟨last, queue', δ', by simpa [takeIntersecting, hstop] using heq, by omega, hc, hc', hlast,
        ?_, fun t ht => ?_⟩
      · have hnew1 := d.length_newValue_cast r1
        simp only [Meaning.splices_cons, shift, Meaning.splice_start, Meaning.splice_stop, Meaning.splice_text]
        omega
      have hfit := ht.2.2.le
      simp only [Meaning.splice_stop] at hfit
      have hpos : ((replaceRange r1).endExclusive - (replaceRange l).endExclusive).toNat +
          ((replaceRange last).endExclusive - (replaceRange r1).endExclusive).toNat =
          ((replaceRange last).endExclusive - (replaceRange l).endExclusive).toNat := by omega
      obtain ⟨t', ht', hfit', hr1⟩ := hsem
        (t.drop ((replaceRange r1).endExclusive - (replaceRange l).endExclusive).toNat)
        (ht.2.2.mono (by rw [List.length_drop]; omega))
      refine ⟨t', by rw [ht', List.drop_drop, hpos], hfit', ?_⟩
      rw [← hr1, hstart]
      have hskip : ((replaceRange r2).endExclusive - startIn1 l δ).toNat =
          (d.newValue l ++ t.take ((replaceRange r1).start - (replaceRange l).endExclusive).toNat).length +
            ((replaceRange r2).endExclusive - ((replaceRange r1).start + δ)).toNat := by
        rw [List.length_append, List.length_take, d.length_newValue]
        simp only [startIn1]
        omega
      simp only [textFrom, Meaning.splices_cons, splice_cons, Meaning.splice_start,
        Meaning.splice_stop, Meaning.splice_text]
      rw [← List.append_assoc, hskip, List.drop_length_add_append]

theorem requeueSuffix_spec {r2 last : T} {queue : List T} {δ : Int}
    (hc : Chain (replaceRange last).endExclusive (d.splices queue))
    (hc' : Chain ((replaceRange r2).endExclusive - δ) (d.splices queue))
    (hlast : startIn1 last δ ≤ (replaceRange r2).endExclusive) :
    ∃ queue' δ', requeueSuffix last
        ((replaceRange last).endExclusive + δ - (replaceRange r2).endExclusive) queue δ = .ok (queue', δ') ∧
      (replaceRange last).endExclusive ≤ (replaceRange r2).endExclusive - δ' ∧
      Chain ((replaceRange r2).endExclusive - δ') (d.splices queue') ∧
      δ + shift (d.splices queue) = δ' + shift (d.splices queue') ∧
      ∀ t : List α, ChainTo (replaceRange last).endExclusive (d.splices queue)
          ((replaceRange last).endExclusive + t.length) →
        ∃ t', t' = t.drop
            ((replaceRange r2).endExclusive - δ' - (replaceRange last).endExclusive).toNat ∧
          ChainTo ((replaceRange r2).endExclusive - δ') (d.splices queue')
            ((replaceRange r2).endExclusive - δ' + t'.length) ∧
          (textFrom d last queue t).drop ((replaceRange r2).endExclusive - startIn1 last δ).toNat =
            splice ((replaceRange r2).endExclusive - δ') (d.splices queue') t' := by
  have hnew := d.length_newValue_cast last
  rw [startIn1] at hlast
  by_cases hsuffix : (replaceRange last).endExclusive + δ - (replaceRange r2).endExclusive > 0
  · -- r2 ends inside the text of the last one: its tail is inserted behind it
    have hle : (getNewLength last : Int) -
        ((replaceRange last).endExclusive + δ - (replaceRange r2).endExclusive) ≤
        getNewLength last := by omega
    let e := slice last (.ofStartAndLength (replaceRange last).endExclusive 0) ⟨_, _, hle⟩
    have hrange : replaceRange e = .ofStartAndLength (replaceRange last).endExclusive 0 := d.replaceRange_slice _ _ _
    have hvalue : d.newValue e = (d.newValue last).drop
        ((replaceRange r2).endExclusive - startIn1 last δ).toNat := by
      have := d.newValue_slice last (.ofStartAndLength (replaceRange last).endExclusive 0)
        ⟨_, _, hle⟩ (by simp only; omega) le_rfl
      have hall : (d.newValue last).take (getNewLength last) = d.newValue last := by
        rw [← d.length_newValue, List.take_length]
      rw [this, Int.toNat_natCast, hall]
      congr 1
      simp only [startIn1]
      omega
    have hlen : (getNewLength e : Int) - (replaceRange e).length =
        (replaceRange last).endExclusive + δ - (replaceRange r2).endExclusive := by
      rw [← d.length_newValue_cast e, hvalue, List.length_drop, hrange, OffsetRange.length_cast]
      simp only [OffsetRange.ofStartAndLength, startIn1]
      omega
    have hstart : (replaceRange e).start = (replaceRange last).endExclusive := by rw [hrange]; rfl
    have hstop : (replaceRange e).endExclusive = (replaceRange last).endExclusive := by
      rw [hrange]; simp [OffsetRange.ofStartAndLength]
    refine ⟨e :: queue, δ - ((getNewLength e : Int) - (replaceRange e).length), ?_, ?_, ?_, ?_, ?_⟩
    · rw [requeueSuffix, if_pos hsuffix, OffsetRange.new_ok hle]
      rfl
    · omega
    · rw [hlen]
      exact ⟨by rw [Meaning.splice_start]; omega, (replaceRange e).le,
        by rw [Meaning.splice_stop, hstop]; exact hc⟩
    · have hnewe := d.length_newValue_cast e
      have hlene := (replaceRange e).length_cast
      simp only [Meaning.splices_cons, shift, Meaning.splice_start, Meaning.splice_stop, Meaning.splice_text]
      omega
    · intro t ht
      have hpos : (replaceRange r2).endExclusive -
          (δ - ((getNewLength e : Int) - (replaceRange e).length)) =
          (replaceRange last).endExclusive := by omega
      rw [hpos]
      refine ⟨t, by simp, ⟨hstart.ge, (replaceRange e).le, ?_⟩, ?_⟩
      · rw [Meaning.splice_stop, hstop]
        exact ht
      · have hle' : ((replaceRange r2).endExclusive - startIn1 last δ).toNat ≤
            (d.newValue last).length := by simp only [startIn1]; omega
        simp only [textFrom, Meaning.splices_cons, splice_cons, Meaning.splice_start,
          Meaning.splice_stop, Meaning.splice_text, hstart, hstop, sub_self, Int.toNat_zero,
          List.take_zero, List.drop_zero, List.nil_append, hvalue]
        rw [List.drop_append_of_le_length hle']
  · -- r2 reaches at least to the end of the last one
    have hle : (replaceRange last).endExclusive ≤ (replaceRange r2).endExclusive - δ := by omega
    refine ⟨queue, δ, by rw [requeueSuffix, if_neg hsuffix], hle, hc', rfl, fun t ht => ?_⟩
    refine ⟨_, rfl, ht.drop hle hc', ?_⟩
    have hskip : ((replaceRange r2).endExclusive - startIn1 last δ).toNat =
        (d.newValue last).length +
          ((replaceRange r2).endExclusive - δ - (replaceRange last).endExclusive).toNat := by
      simp only [startIn1]
      omega
    rw [textFrom, hskip, List.drop_length_add_append, drop_splice hle hc' ht]

theorem pushPrefix_spec {r2 first : T} {queue rest : List T} {p δ : Int}
    (h : Moment.WF d ⟨p, δ, first :: queue, r2 :: rest⟩)
    (hfirst : (replaceRange r2).start ≤ (replaceRange first).start + δ + getNewLength first)
    (result : List T) :
    ∃ pre : List T,
      pushPrefix r2 result δ first (min (replaceRange first).start ((replaceRange r2).start - δ)) =
        .ok (result ++ pre) ∧
      ChainTo p (d.splices pre) (min (replaceRange first).start ((replaceRange r2).start - δ)) ∧
      δ + min (replaceRange first).start ((replaceRange r2).start - δ) +
        shift (d.splices pre) = (replaceRange r2).start ∧
      ∀ t : List α, ChainTo p (d.splices (first :: queue)) (p + t.length) →
        (splice p (d.splices (first :: queue)) t).take ((replaceRange r2).start - (p + δ)).toNat =
          splice p (d.splices pre) (t.take
            (min (replaceRange first).start ((replaceRange r2).start - δ) - p).toNat) := by
  have h1 := h.1.1
  have h2 := h.2.1
  simp only [Meaning.splice_start] at h1 h2
  have hnew := d.length_newValue_cast first
  by_cases hprefix : (replaceRange r2).start - ((replaceRange first).start + δ) > 0
  · have hmin : min (replaceRange first).start ((replaceRange r2).start - δ) =
        (replaceRange first).start := min_eq_left (by omega)
    let e := slice first (.emptyAt (replaceRange first).start)
      ⟨0, (replaceRange r2).start - ((replaceRange first).start + δ), hprefix.le⟩
    have hrange : replaceRange e = .emptyAt (replaceRange first).start := d.replaceRange_slice _ _ _
    have hvalue : d.newValue e = (d.newValue first).take
        ((replaceRange r2).start - ((replaceRange first).start + δ)).toNat := by
      have := d.newValue_slice first (.emptyAt (replaceRange first).start)
        ⟨0, (replaceRange r2).start - ((replaceRange first).start + δ), hprefix.le⟩ le_rfl
        (by simp only; omega)
      rw [this, Int.toNat_zero, List.drop_zero]
    have hstart : (replaceRange e).start = (replaceRange first).start := by rw [hrange]; rfl
    have hstop : (replaceRange e).endExclusive = (replaceRange first).start := by rw [hrange]; rfl
    refine ⟨[e], ?_, ?_, ?_, fun t ht => ?_⟩
    · simp only [pushPrefix, if_pos hprefix, hmin, OffsetRange.new_ok hprefix.le]
      rfl
    · rw [hmin]
      exact ⟨by rw [Meaning.splice_start, hstart]; exact h1, (replaceRange e).le, hstop.le⟩
    · simp only [Meaning.splices_cons, Meaning.splices_nil, shift, Meaning.splice_start, Meaning.splice_stop,
        Meaning.splice_text, hvalue, List.length_take, hstart, hstop, hmin]
      omega
    · have hfit := ht.2.2.le
      have hle := (replaceRange first).le
      simp only [Meaning.splice_stop] at hfit
      have htake : ((replaceRange r2).start - (p + δ)).toNat =
          (t.take ((replaceRange first).start - p).toNat).length +
            ((replaceRange r2).start - ((replaceRange first).start + δ)).toNat := by
        rw [List.length_take]
        omega
      have hle' : ((replaceRange r2).start - ((replaceRange first).start + δ)).toNat ≤
          (d.newValue first).length := by omega
      simp only [Meaning.splices_cons, Meaning.splices_nil, splice_cons, splice_nil, Meaning.splice_start,
        Meaning.splice_stop, Meaning.splice_text, hstart, hstop, hmin, hvalue, List.take_take, min_self]
      rw [htake, List.take_length_add_append, List.take_append_of_le_length hle',
        List.drop_eq_nil_of_le (by rw [List.length_take]; omega), List.append_nil]
  · have hmin : min (replaceRange first).start ((replaceRange r2).start - δ) =
        (replaceRange r2).start - δ := min_eq_right (by omega)
    refine ⟨[], by simp only [pushPrefix, if_neg hprefix, List.append_nil], ?_, ?_, fun t ht => ?_⟩
    · change p ≤ min (replaceRange first).start ((replaceRange r2).start - δ)
      omega
    · rw [hmin, Meaning.splices_nil, shift]
      omega
    · have hpos : (replaceRange r2).start - (p + δ) = (replaceRange r2).start - δ - p := by omega
      rw [hmin, hpos, take_splice (by omega) _ ht]
      · rfl
      · exact ⟨by simp only [Meaning.splice_start]; omega, h.1.2⟩

theorem composeStep_progress {r2 : T} {queue rest : List T} {p δ : Int} (result : List T)
    (h : Moment.WF d ⟨p, δ, queue, r2 :: rest⟩) :
    ∃ out p' queue' δ', composeStep ⟨queue, result, δ⟩ r2 = .ok ⟨queue', result ++ out, δ'⟩ ∧
      Moment.Progress d ⟨p, δ, queue, r2 :: rest⟩ out ⟨p', δ', queue', rest⟩ := by
  obtain ⟨out, p1, queue1, δ1, hcopy, hprog, hhead⟩ := copyUntilTouching_progress d result h
  have hwf := hprog.wf
  have hr2 := hwf.2.1
  simp only [Meaning.splice_start] at hr2
  simp only [composeStep, hcopy]
  have hemit (hsep : Chain ((replaceRange r2).endExclusive - δ1) (d.splices queue1)) :
      Moment.Progress d ⟨p1, δ1, queue1, r2 :: rest⟩ ([] ++ [delta r2 (-δ1)])
        ⟨(replaceRange r2).endExclusive - δ1, δ1, queue1, rest⟩ := by
    have hle := (replaceRange r2).le
    have hsplice := d.splice_delta r2 (-δ1)
    refine Moment.Progress.replace d hwf.2 (s := (replaceRange r2).start - δ1) ?_
      (congrArg Splice.start hsplice) (congrArg Splice.stop hsplice)
      (congrArg Splice.text hsplice) (by omega) hsep rfl
      (by rw [Meaning.splices_nil, shift]; omega) (fun t ht => ?_) (fun t ht => ?_)
    · change p1 ≤ (replaceRange r2).start - δ1
      omega
    · rw [show (replaceRange r2).start - (p1 + δ1) = (replaceRange r2).start - δ1 - p1 by omega,
        take_splice (by omega) (hsep.mono (by omega)) ht]
      rfl
    · rw [show (replaceRange r2).endExclusive - (p1 + δ1) = (replaceRange r2).endExclusive - δ1 - p1 by omega]
      exact ⟨ht.drop (by omega) hsep, drop_splice (by omega) hsep ht⟩
  cases queue1 with
  | nil =>
    refine ⟨out ++ ([] ++ [delta r2 (-δ1)]), _, [], δ1, ?_, hprog.trans d (hemit trivial)⟩
    simp [takeIntersecting]
  | cons first queue1 =>
    by_cases hmeet : (replaceRange first).start + δ1 > (replaceRange r2).endExclusive
    · refine ⟨out ++ ([] ++ [delta r2 (-δ1)]), _, first :: queue1, δ1, ?_,
        hprog.trans d (hemit ⟨?_, hwf.1.2⟩)⟩
      · simp [takeIntersecting, hmeet]
      · simp only [Meaning.splice_start]
        omega
    · -- from the first intersecting replacement on
      have hfirst := hhead first rfl
      obtain ⟨pre, hpre, hprechain, hpreshift, hpretake⟩ := pushPrefix_spec d hwf hfirst (result ++ out)
      have hlen := (replaceRange first).length_cast
      have hle := (replaceRange first).le
      have hnew := d.length_newValue_cast first
      have hstart1 : startIn1 first
          (δ1 + ((getNewLength first : Int) - (replaceRange first).length)) =
          (replaceRange first).start + δ1 := by rw [startIn1]; omega
      obtain ⟨last, queue2, δ2, htake, hlastle, hc, hc', hlast, hshift2, hsem⟩ :=
        takeIntersecting_spec d
          (δ := δ1 + ((getNewLength first : Int) - (replaceRange first).length)) r2 first hwf.1.2.2
          (by rw [hstart1]; omega)
      obtain ⟨queue3, δ3, hrequeue, hlastle', hc3, hshift3, hsem3⟩ := requeueSuffix_spec d hc hc' hlast
      have hshift1 : shift (d.splices (first :: queue1)) =
          (getNewLength first : Int) - (replaceRange first).length + shift (d.splices queue1) := by
        simp only [Meaning.splices_cons, shift, Meaning.splice_start,
          Meaning.splice_stop, Meaning.splice_text, hnew, hlen]
      have hmin := min_le_left (replaceRange first).start ((replaceRange r2).start - δ1)
      have hrange : min (replaceRange first).start ((replaceRange r2).start - δ1) ≤
          (replaceRange r2).endExclusive - δ3 := by omega
      let middle := slice r2 ⟨_, _, hrange⟩ (.ofLength (getNewLength r2))
      refine ⟨out ++ (pre ++ [middle]), _, queue3, δ3, ?_, hprog.trans d
        (Moment.Progress.replace d hwf.2 hprechain ?_ ?_ (d.newValue_slice_all _ _)
          (sub_add_cancel _ _) hc3 (by omega) hpreshift hpretake fun t ht => ?_)⟩
      · simp only [takeIntersecting, if_neg hmeet, Option.getD_none, htake, replaceIntersecting, hpre, hrequeue,
          OffsetRange.new_ok hrange, bind, Except.bind, pure, Except.pure, List.append_assoc]
        rfl
      · rw [d.replaceRange_slice]
      · rw [d.replaceRange_slice]
      · have hfit := ht.2.2.le
        have hp1 := ht.1
        simp only [Meaning.splice_start, Meaning.splice_stop] at hfit hp1
        obtain ⟨t2, rfl, hfit2, heq2⟩ := hsem
          (t.drop ((replaceRange first).endExclusive - p1).toNat)
          (ht.2.2.mono (by rw [List.length_drop]; omega))
        obtain ⟨t3, rfl, hfit3, heq3⟩ := hsem3 _ hfit2
        have hdrop : ((t.drop ((replaceRange first).endExclusive - p1).toNat).drop
            ((replaceRange last).endExclusive - (replaceRange first).endExclusive).toNat).drop
            ((replaceRange r2).endExclusive - δ3 - (replaceRange last).endExclusive).toNat =
            t.drop ((replaceRange r2).endExclusive - δ3 - p1).toNat := by
          rw [List.drop_drop, List.drop_drop]
          congr 1
          omega
        rw [hdrop] at hfit3 heq3
        refine ⟨hfit3, ?_⟩
        rw [← heq3, ← heq2, hstart1]
        have hskip : ((replaceRange r2).endExclusive - (p1 + δ1)).toNat =
            (t.take ((replaceRange first).start - p1).toNat).length +
              ((replaceRange r2).endExclusive - ((replaceRange first).start + δ1)).toNat := by
          rw [List.length_take]
          omega
        simp only [textFrom, Meaning.splices_cons, splice_cons, Meaning.splice_start,
          Meaning.splice_stop, Meaning.splice_text]
        rw [hskip, List.drop_length_add_append]

theorem foldlM_composeStep {rest queue : List T} {p δ : Int} (result : List T)
    (h : Moment.WF d ⟨p, δ, queue, rest⟩) :
    ∃ out p' queue' δ', rest.foldlM composeStep ⟨queue, result, δ⟩ = .ok ⟨queue', result ++ out, δ'⟩ ∧
      Moment.Progress d ⟨p, δ, queue, rest⟩ out ⟨p', δ', queue', []⟩ := by
  induction rest generalizing p δ queue result with
  | nil => exact ⟨[], p, queue, δ, by rw [List.append_nil]; rfl, .refl d h⟩
  | cons r2 rest ih =>
    obtain ⟨out, p1, queue1, δ1, hstep, hprog⟩ := composeStep_progress d result h
    obtain ⟨out', p2, queue2, δ2, hrun, hprog'⟩ := ih (result ++ out) hprog.wf
    refine ⟨out ++ out', p2, queue2, δ2, ?_, hprog.trans d hprog'⟩
    rw [List.foldlM_cons, hstep, ← List.append_assoc]
    exact hrun

theorem loop_refines {edits1 edits2 : List T} {p : Int} (h1 : Chain p (d.splices edits1))
    (h2 : Chain p (d.splices edits2)) :
    ∃ st, edits2.foldlM composeStep ⟨edits1, [], 0⟩ = .ok st ∧
      Chain p (d.splices (st.result ++ st.edit1Queue)) ∧
      shift (d.splices (st.result ++ st.edit1Queue)) = shift (d.splices edits1) + shift (d.splices edits2) ∧
      ∀ t : List α, ChainTo p (d.splices edits1) (p + t.length) →
        splice p (d.splices (st.result ++ st.edit1Queue)) t =
          splice p (d.splices edits2) (splice p (d.splices edits1) t) := by
  obtain ⟨out, p', queue, δ, hrun, hprog⟩ := foldlM_composeStep d (δ := 0) [] ⟨h1, by rwa [add_zero]⟩
  have hqueue : Chain p' (d.splices queue) := hprog.wf.1
  refine ⟨_, hrun, ?_, ?_, fun t ht => ?_⟩
  · rw [List.nil_append, Meaning.splices_append]
    exact hprog.emitted.append_chain hqueue
  · have h1 := hprog.queue_shift
    have h2 := hprog.out_shift
    simp only [Meaning.splices_nil, shift, List.nil_append, Meaning.splices_append, shift_append] at h1 h2 ⊢
    omega
  · have hvalue := hprog.value_eq t ht
    simp only [Moment.value, add_zero, Meaning.splices_nil, splice_nil] at hvalue
    rw [List.nil_append, Meaning.splices_append, splice_append t hprog.emitted hqueue, hvalue]

/-- `compose` never throws, and its result replaces in one go what the two edits
replace one after the other. -/
theorem compose_spec (a b : BaseEdit T) :
    ∃ c, a.compose b = .ok c ∧
      shift (d.splices c.replacements) = shift (d.splices a.replacements) + shift (d.splices b.replacements) ∧
      ∀ p, Chain p (d.splices a.replacements) →
      Chain p (d.splices b.replacements) → Chain p (d.splices c.replacements) ∧
      ∀ t : List α, ChainTo p (d.splices a.replacements) (p + t.length) →
        splice p (d.splices c.replacements) t =
          splice p (d.splices b.replacements) (splice p (d.splices a.replacements) t) := by
  obtain ⟨edits1, hn1, href1⟩ := normalize_refines d a
  obtain ⟨edits2, hn2, href2⟩ := normalize_refines d b
  have hshift1 := (href1 (-1) ((d.chain_iff _ _).mpr a.sorted)).shift_eq
  have hshift2 := (href2 (-1) ((d.chain_iff _ _).mpr b.sorted)).shift_eq
  simp only [compose, hn1, hn2, bind, Except.bind, pure, Except.pure]
  by_cases hempty1 : edits1.isEmpty
  · -- the first edit does nothing
    have hnil : edits1.replacements = [] := by simpa [isEmpty] using hempty1
    refine ⟨edits2, by rw [if_pos hempty1], ?_,
      fun p ha hb => ⟨(href2 p hb).chain, fun t ht => ?_⟩⟩
    · rw [← hshift1, ← hshift2, hnil, Meaning.splices_nil, shift, zero_add]
    rw [(href2 p hb).splice_eq, ← (href1 p ha).splice_eq, hnil, Meaning.splices_nil, splice_nil]
  rw [if_neg hempty1]
  by_cases hempty2 : edits2.isEmpty
  · have hnil : edits2.replacements = [] := by simpa [isEmpty] using hempty2
    refine ⟨edits1, by rw [if_pos hempty2], ?_,
      fun p ha hb => ⟨(href1 p ha).chain, fun t ht => ?_⟩⟩
    · rw [← hshift1, ← hshift2, hnil, Meaning.splices_nil, shift, add_zero]
    rw [(href1 p ha).splice_eq, ← (href2 p hb).splice_eq, hnil, Meaning.splices_nil, splice_nil]
  rw [if_neg hempty2]
  obtain ⟨st, hrun, hchain, hshift, _⟩ :=
    loop_refines d ((d.chain_iff _ _).mpr edits1.sorted) ((d.chain_iff _ _).mpr edits2.sorted)
  have hsorted := (d.chain_iff _ _).mp hchain
  obtain ⟨c, hc, hrefc⟩ := normalize_refines d ⟨_, hsorted⟩
  refine ⟨c, by simp only [hrun, new_ok hsorted, hc], ?_, fun p ha hb => ?_⟩
  · rw [(hrefc (-1) hchain).shift_eq, hshift, hshift1, hshift2]
  obtain ⟨st', hrun', hchain', _, heq⟩ := loop_refines d (href1 p ha).chain (href2 p hb).chain
  obtain rfl : st = st' := Except.ok.inj (hrun.symm.trans hrun')
  refine ⟨(hrefc p hchain').chain, fun t ht => ?_⟩
  rw [(hrefc p hchain').splice_eq, heq t ((href1 p ha).chainTo _ ht), (href2 p hb).splice_eq, (href1 p ha).splice_eq]

theorem normalizeLoop_normal
    (hjoin : ∀ a b : T, (replaceRange a).endExclusive = (replaceRange b).start → tryJoinTouching a b ≠ .ok none)
    {rs out : List T} (last : Option T) {p : Int} (h : Chain p (d.splices (last.toList ++ rs)))
    (hlast : ∀ l ∈ last, (d.splice l).start < (d.splice l).stop ∨ (d.splice l).text ≠ [])
    (hout : normalizeLoop rs [] last = .ok out) :
    Normal (d.splices out) ∧ ∀ l ∈ last, ∀ q ∈ (d.splices out).head?, q.start = (d.splice l).start := by
  induction rs generalizing last p out with
  | nil =>
    cases last with
    | none => cases hout; exact ⟨trivial, by simp⟩
    | some l =>
      cases hout
      exact ⟨⟨hlast l rfl, by simp, trivial⟩, by simp⟩
  | cons r rs ih =>
    by_cases hempty : getNewLength r = 0 ∧ (replaceRange r).length = 0
    · rw [normalizeLoop.eq_def] at hout
      simp only [if_pos hempty] at hout
      exact ih _ (chain_skip d h) hlast hout
    · have hr : (d.splice r).start < (d.splice r).stop ∨ (d.splice r).text ≠ [] := by
        have hle := (replaceRange r).length_cast
        have hnew := d.length_newValue r
        simp only [Meaning.splice_start, Meaning.splice_stop, Meaning.splice_text, ne_eq, ← List.length_eq_zero_iff]
        omega
      rw [normalizeLoop.eq_def] at hout
      simp only [if_neg hempty] at hout
      cases last with
      | none => exact ⟨(ih (some r) h (by simpa using hr) hout).1, by simp⟩
      | some l =>
        obtain ⟨h1, h2, h3⟩ := h
        by_cases htouch : (replaceRange l).endExclusive = (replaceRange r).start
        · simp only [if_pos htouch] at hout
          obtain hj | ⟨j, hj, hs, he, hv⟩ := d.tryJoinTouching_ok l r htouch
          · exact absurd hj (hjoin l r htouch)
          · simp only [hj] at hout
            have hl := hlast l rfl
            have hstop := h3.2.1
            simp only [Meaning.splice_start, Meaning.splice_stop] at hstop
            obtain ⟨hn, hhead⟩ := @ih out (some j) p ⟨by simpa [hs] using h1,
              (replaceRange j).le, by simpa [Meaning.splice_stop, he] using h3.2.2⟩ (by
                simp only [Meaning.splice_start, Meaning.splice_stop,
                  Meaning.splice_text, Option.mem_some_iff, forall_eq', hs, he, hv] at hl ⊢
                rcases hl with hl | hl
                · exact .inl (by omega)
                · exact .inr (by simp [hl])) hout
            refine ⟨hn, ?_⟩
            simpa only [Option.mem_some_iff, forall_eq', Meaning.splice_start, hs] using hhead
        · simp only [if_neg htouch] at hout
          rw [List.nil_append, normalizeLoop_append] at hout
          cases hrest : normalizeLoop rs [] (some r) with
          | error e => rw [hrest] at hout; cases hout
          | ok rest =>
            rw [hrest] at hout
            cases hout
            obtain ⟨hn, hhead⟩ := ih (some r) h3 (by simpa using hr) hrest
            refine ⟨⟨hlast l rfl, fun q hq => ?_, hn⟩, by simp⟩
            rw [hhead r rfl q hq]
            exact lt_of_le_of_ne h3.1 htouch

theorem normalize_normal
    (hjoin : ∀ a b : T, (replaceRange a).endExclusive = (replaceRange b).start → tryJoinTouching a b ≠ .ok none)
    {e n : BaseEdit T} (h : e.normalize = .ok n) : Normal (d.splices n.replacements) := by
  have hchain := (d.chain_iff (-1) e.replacements).mpr e.sorted
  obtain ⟨out, hout, href⟩ := normalizeLoop_refines d none hchain
  have hsorted := (d.chain_iff _ _).mp href.chain
  simp only [normalize, hout, bind, Except.bind, new_ok hsorted, Except.ok.injEq] at h
  subst h
  exact (normalizeLoop_normal d hjoin none hchain (by simp) hout).1

theorem compose_normal
    (hjoin : ∀ a b : T, (replaceRange a).endExclusive = (replaceRange b).start → tryJoinTouching a b ≠ .ok none)
    {a b c : BaseEdit T} (h : a.compose b = .ok c) : Normal (d.splices c.replacements) := by
  obtain ⟨edits1, hn1, _⟩ := normalize_refines d a
  obtain ⟨edits2, hn2, _⟩ := normalize_refines d b
  obtain ⟨st, hrun, hchain, _⟩ :=
    loop_refines d ((d.chain_iff _ _).mpr edits1.sorted) ((d.chain_iff _ _).mpr edits2.sorted)
  have hsorted := (d.chain_iff _ _).mp hchain
  simp only [compose, hn1, hn2, bind, Except.bind, pure, Except.pure, hrun, new_ok hsorted] at h
  split at h
  · cases h
    exact normalize_normal d hjoin hn2
  · split at h
    · cases h
      exact normalize_normal d hjoin hn1
    · exact normalize_normal d hjoin h

theorem chainTo_of_validOn {e : BaseEdit T} {n : Nat} (h : e.ValidOn n) :
    ChainTo 0 (d.splices e.replacements) n := by
  have hchain (lo : Int) (rs : List T) (hs : DisjointAndSorted lo rs) (h0 : 0 ≤ n)
      (hv : ∀ r ∈ rs, 0 ≤ (replaceRange r).start ∧ (replaceRange r).endExclusive ≤ n)
      (hlo : lo ≤ n) : ChainTo lo (d.splices rs) n := by
    induction rs generalizing lo with
    | nil => exact hlo
    | cons r rs ih =>
      exact ⟨hs.1, (replaceRange r).le, ih _ hs.2
        (fun q hq => hv q (List.mem_cons_of_mem r hq)) (hv r List.mem_cons_self).2⟩
  cases hrs : e.replacements with
  | nil => exact Int.natCast_nonneg n
  | cons r rs =>
    have hs := e.sorted
    have hv := h
    rw [ValidOn, hrs] at hv
    rw [hrs] at hs
    have hr := hv r List.mem_cons_self
    exact ⟨hr.1, (replaceRange r).le, hchain _ rs hs.2 (Nat.zero_le n)
      (fun q hq => hv q (List.mem_cons_of_mem r hq)) hr.2⟩

theorem getLengthDelta_eq (e : BaseEdit T) : e.getLengthDelta = shift (d.splices e.replacements) := by
  have hsum (rs : List T) :
      (rs.map (fun r => (getNewLength r : Int) - (replaceRange r).length)).sum =
        shift (d.splices rs) := by
    induction rs with
    | nil => rfl
    | cons r rs ih =>
      rw [List.map_cons, List.sum_cons, ih, Meaning.splices_cons, shift, Meaning.splice_text,
        d.length_newValue_cast, Meaning.splice_stop, Meaning.splice_start, (replaceRange r).length_cast]
  exact hsum e.replacements

end BaseEdit

open Lib.Js

def StringReplacement.meaning {β : Type*} (f : CodeUnit → β) :
    Meaning StringReplacement β where
  newValue r := r.newText.map f
  length_newValue r := List.length_map f
  replaceRange_slice r range rip := rfl
  newValue_slice r range rip h0 hle := by
    change ((Lib.Js.substring r.newText rip.start rip.endExclusive).map f) = _
    rw [substring_eq _ rip.le, List.map_drop, List.map_take]
  tryJoinTouching_ok a b h := by
    refine .inr ⟨⟨⟨a.replaceRange.start, b.replaceRange.endExclusive,
      a.replaceRange.le.trans (h.le.trans b.replaceRange.le)⟩, a.newText ++ b.newText⟩, ?_⟩
    refine ⟨?_, rfl, rfl, List.map_append⟩
    change a.replaceRange.endExclusive = b.replaceRange.start at h
    change StringReplacement.tryJoinTouching a b = _
    rw [StringReplacement.tryJoinTouching, OffsetRange.joinRightTouching_ok h]
    rfl

def ArrayReplacement.meaning (α : Type) : Meaning (ArrayReplacement α) α where
  newValue r := r.newValue
  length_newValue r := rfl
  replaceRange_slice r range rip := rfl
  newValue_slice r range rip h0 hle := Lib.Js.slice_eq r.newValue h0 rip.le
  tryJoinTouching_ok a b h := by
    refine .inr ⟨⟨⟨a.replaceRange.start, b.replaceRange.endExclusive,
      a.replaceRange.le.trans (h.le.trans b.replaceRange.le)⟩, a.newValue ++ b.newValue⟩, ?_⟩
    refine ⟨?_, rfl, rfl, rfl⟩
    change a.replaceRange.endExclusive = b.replaceRange.start at h
    change ArrayReplacement.tryJoinTouching a b = _
    rw [ArrayReplacement.tryJoinTouching, OffsetRange.joinRightTouching_ok h]
    rfl

def LengthReplacement.meaning : Meaning LengthReplacement Unit where
  newValue r := List.replicate r.newLength ()
  length_newValue r := List.length_replicate
  replaceRange_slice r range rip := rfl
  newValue_slice r range rip h0 hle := by
    change List.replicate rip.length () = _
    have hlen := rip.length_cast
    change rip.endExclusive ≤ r.newLength at hle
    rw [List.take_replicate, List.drop_replicate]
    congr 1
    omega
  tryJoinTouching_ok a b h := by
    refine .inr ⟨⟨⟨a.replaceRange.start, b.replaceRange.endExclusive,
      a.replaceRange.le.trans (h.le.trans b.replaceRange.le)⟩, a.newLength + b.newLength⟩, ?_⟩
    refine ⟨?_, rfl, rfl, List.replicate_add ..⟩
    change a.replaceRange.endExclusive = b.replaceRange.start at h
    change LengthReplacement.tryJoinTouching a b = _
    rw [LengthReplacement.tryJoinTouching, OffsetRange.joinRightTouching_ok h]
    rfl

theorem StringEdit.applyLoop_eq (base : JsString) {rs : List StringReplacement} {pos : Int}
    (h0 : 0 ≤ pos) (h : Chain pos ((StringReplacement.meaning id).splices rs)) :
    StringEdit.applyLoop base rs pos =
      splice pos ((StringReplacement.meaning id).splices rs) (base.drop pos.toNat) := by
  induction rs generalizing pos with
  | nil => exact substringFrom_eq base pos
  | cons edit rest ih =>
    obtain ⟨h1, h2, h3⟩ := h
    have hrest := ih (h0.trans (h1.trans h2)) h3
    change pos ≤ edit.replaceRange.start at h1
    rw [StringEdit.applyLoop, substring_eq _ h1, Meaning.splices_cons, splice_cons_drop _ _ h0 h1 h2, ← hrest]
    simp only [Meaning.splice, StringReplacement.meaning, List.map_id, BaseReplacement.replaceRange]

theorem StringEdit.apply_eq (e : StringEdit) (base : JsString)
    (h : Chain 0 ((StringReplacement.meaning id).splices e.replacements)) :
    StringEdit.apply e base = splice 0 ((StringReplacement.meaning id).splices e.replacements) base :=
  StringEdit.applyLoop_eq base le_rfl h

theorem ArrayEdit.applyLoop_eq {α : Type} (data : List α) {rs : List (ArrayReplacement α)}
    {pos : Int} (h0 : 0 ≤ pos) (h : Chain pos ((ArrayReplacement.meaning α).splices rs)) :
    ArrayEdit.applyLoop data rs pos =
      splice pos ((ArrayReplacement.meaning α).splices rs) (data.drop pos.toNat) := by
  induction rs generalizing pos with
  | nil => exact sliceFrom_eq data h0
  | cons edit rest ih =>
    obtain ⟨h1, h2, h3⟩ := h
    have hrest := ih (h0.trans (h1.trans h2)) h3
    change pos ≤ edit.replaceRange.start at h1
    rw [ArrayEdit.applyLoop, Lib.Js.slice_eq _ h0 h1, Meaning.splices_cons, splice_cons_drop _ _ h0 h1 h2, ← hrest]
    rfl

theorem ArrayEdit.apply_eq {α : Type} (e : ArrayEdit α) (data : List α)
    (h : Chain 0 ((ArrayReplacement.meaning α).splices e.replacements)) :
    ArrayEdit.apply e data = splice 0 ((ArrayReplacement.meaning α).splices e.replacements) data :=
  ArrayEdit.applyLoop_eq data le_rfl h

/-- Composing is applying one after the other, for strings, for arrays and, on
lengths, for edits that only know lengths; `compose` throws for none of them. -/
theorem compose_apply :
    (∀ (s : JsString) (a b : StringEdit), a.ValidOn s.length →
      b.ValidOn (StringEdit.apply a s).length →
      ∃ c, a.compose b = .ok c ∧ StringEdit.apply c s = StringEdit.apply b (StringEdit.apply a s)) ∧
    (∀ (α : Type) (s : List α) (a b : ArrayEdit α), a.ValidOn s.length →
      b.ValidOn (ArrayEdit.apply a s).length →
      ∃ c, a.compose b = .ok c ∧ ArrayEdit.apply c s = ArrayEdit.apply b (ArrayEdit.apply a s)) ∧
    (∀ (n : Nat) (a b : LengthEdit), a.ValidOn n → b.ValidOn (a.getNewDataLength n).toNat →
      ∃ c, a.compose b = .ok c ∧
        c.getNewDataLength n = b.getNewDataLength (a.getNewDataLength n)) := by
  refine ⟨fun s a b ha hb => ?_, fun α s a b ha hb => ?_, fun n a b _ _ => ?_⟩
  · have hca := BaseEdit.chainTo_of_validOn (StringReplacement.meaning id) ha
    have hcb := (BaseEdit.chainTo_of_validOn (StringReplacement.meaning id) hb).chain
    obtain ⟨c, hc, _, hspec⟩ := BaseEdit.compose_spec (StringReplacement.meaning id) a b
    obtain ⟨hchain, heq⟩ := hspec 0 hca.chain hcb
    refine ⟨c, hc, ?_⟩
    rw [StringEdit.apply_eq c s hchain, StringEdit.apply_eq b _ hcb, StringEdit.apply_eq a s hca.chain]
    exact heq s (by rwa [zero_add])
  · have hca := BaseEdit.chainTo_of_validOn (ArrayReplacement.meaning α) ha
    have hcb := (BaseEdit.chainTo_of_validOn (ArrayReplacement.meaning α) hb).chain
    obtain ⟨c, hc, _, hspec⟩ := BaseEdit.compose_spec (ArrayReplacement.meaning α) a b
    obtain ⟨hchain, heq⟩ := hspec 0 hca.chain hcb
    refine ⟨c, hc, ?_⟩
    rw [ArrayEdit.apply_eq c s hchain, ArrayEdit.apply_eq b _ hcb, ArrayEdit.apply_eq a s hca.chain]
    exact heq s (by rwa [zero_add])
  · obtain ⟨c, hc, hshift, _⟩ := BaseEdit.compose_spec LengthReplacement.meaning a b
    refine ⟨c, hc, ?_⟩
    simp only [BaseEdit.getNewDataLength, BaseEdit.getLengthDelta_eq LengthReplacement.meaning, hshift]
    ring

/-- In "abcd" "b" becomes "xyz"; then "az" is dropped around the middle of it. -/
theorem compose_apply_inside_insertion :
    let a : StringEdit := ⟨[⟨⟨1, 2, by decide⟩, [120, 121, 122]⟩], by decide⟩
    let b : StringEdit := ⟨[⟨⟨0, 1, by decide⟩, []⟩, ⟨⟨3, 4, by decide⟩, []⟩], by decide⟩
    ∃ c, a.compose b = .ok c ∧ StringEdit.apply c [97, 98, 99, 100] =
      StringEdit.apply b (StringEdit.apply a [97, 98, 99, 100]) := by
  intro a b
  exact compose_apply.1 [97, 98, 99, 100] a b (by decide) (by decide)

end Gavea.Edits
