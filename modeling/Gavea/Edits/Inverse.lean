import Gavea.Edits.Rebase

namespace Gavea.Edits

open Gavea.Core Lib.Js Lib.Splicing List

namespace StringEdit

def inverseLoop (getOriginalSlice : Int → Int → JsString) :
    List StringReplacement → Int → List StringReplacement
  | [], _ => []
  | e :: rest, offset =>
    ⟨OffsetRange.ofStartAndLength (e.replaceRange.start + offset) e.newText.length,
        getOriginalSlice e.replaceRange.start e.replaceRange.endExclusive⟩ ::
      inverseLoop getOriginalSlice rest (offset + ((e.newText.length : Int) - e.replaceRange.length))

def inverseOnSlice (e : StringEdit) (getOriginalSlice : Int → Int → JsString) :
    Except BugIndicatingError StringEdit :=
  BaseEdit.new (inverseLoop getOriginalSlice e.replacements 0)

def inverse (e : StringEdit) (original : JsString) : Except BugIndicatingError StringEdit :=
  e.inverseOnSlice fun start endEx => substring original start endEx

def spaces (start endEx : Int) : JsString := List.replicate (endEx - start).toNat 32

def trySwap (e1 e2 : StringEdit) :
    Except BugIndicatingError (Option (StringEdit × StringEdit)) := do
  let e1Inv ← e1.inverseOnSlice spaces
  match ← e2.tryRebase e1Inv with
  | none => return none
  | some e1_ =>
    match ← e1.tryRebase e1_ with
    | none => return none
    | some e2_ => return some (e1_, e2_)

theorem splices_inverseLoop (slice : Int → Int → JsString) (rs : List StringReplacement)
    (offset : Int) : (StringReplacement.meaning id).splices (inverseLoop slice rs offset) =
      inverted slice offset ((StringReplacement.meaning id).splices rs) := by
  induction rs generalizing offset with
  | nil => rfl
  | cons e rest ih =>
    rw [inverseLoop, Meaning.splices_cons, Meaning.splices_cons, inverted, ih, e.replaceRange.length_cast]
    simp [Meaning.splice, StringReplacement.meaning, OffsetRange.ofStartAndLength, BaseReplacement.replaceRange]

theorem inverseLoop_sorted (slice : Int → Int → JsString) {rs : List StringReplacement} {p : Int}
    (offset : Int) (h : DisjointAndSorted p rs) :
    DisjointAndSorted (p + offset) (inverseLoop slice rs offset) := by
  rw [← (StringReplacement.meaning id).chain_iff] at h ⊢
  rw [splices_inverseLoop]
  exact chain_inverted h

theorem inverseOnSlice_ok (e : StringEdit) (slice : Int → Int → JsString) :
    ∃ inv, e.inverseOnSlice slice = .ok inv ∧ inv.replacements = inverseLoop slice e.replacements 0 :=
  ⟨_, BaseEdit.new_ok (inverseLoop_sorted slice 0 e.sorted), rfl⟩

theorem inverse_apply {e : StringEdit} {s : JsString} (h : e.ValidOn s.length) :
    ∃ inv, e.inverse s = .ok inv ∧ inv.apply (e.apply s) = s := by
  obtain ⟨inv, hinv, hreplacements⟩ := e.inverseOnSlice_ok fun start endEx => substring s start endEx
  have hfit := BaseEdit.chainTo_of_validOn (StringReplacement.meaning id) h
  refine ⟨inv, hinv, ?_⟩
  have hchain := @chain_inverted _ (fun start endEx => substring s start endEx) 0 0 _ hfit.chain
  rw [zero_add, ← splices_inverseLoop, ← hreplacements] at hchain
  rw [apply_eq e s hfit.chain, apply_eq inv _ hchain, hreplacements, splices_inverseLoop]
  have hback := @splice_inverted _ (fun start endEx => substring s start endEx) 0 0 _ s
    (by rwa [zero_add]) fun a b ha hab => by
      have hb : b.toNat - a.toNat = (b - a).toNat := by omega
      rw [substring_eq s hab, sub_zero, drop_take, hb]
  rwa [zero_add] at hback

theorem moved_moved (o : StringReplacement) (offset : Int) : moved offset (moved (-offset) o) = o := by
  obtain ⟨⟨start, endExclusive, hle⟩, newText⟩ := o
  simp [moved, OffsetRange.delta]

theorem comesFirst_delta {r1 r2 r : OffsetRange} {offset : Int} (hr : r.start = r2.start + offset)
    (h : comesFirst r1 r) : comesFirst (r1.delta (-offset)) r2 := by
  simp only [comesFirst, OffsetRange.isEmpty, OffsetRange.delta, beq_iff_eq] at h ⊢
  omega

variable {slice : Int → Int → JsString} {o b : StringReplacement}
  {ours bases out : List StringReplacement} {offset p : Int}

theorem not_comesFirst_of_le {r1 r2 : OffsetRange} (hc : isConflicting r1 r2 = false)
    (h : r2.endExclusive ≤ r1.start) : ¬comesFirst r1 r2 := by
  intro hfirst
  have hle := comesFirst_le hc hfirst
  rw [isConflicting_eq_false_iff] at hc
  have h1 := r1.le
  have h2 := r2.le
  omega

theorem rebased_back (hslice : ∀ r : OffsetRange, (slice r.start r.endExclusive).length = r.length)
    (ho : DisjointAndSorted (p + offset) ours) (hb : DisjointAndSorted p bases)
    (h : rebased true ours (inverseLoop slice bases offset) (-offset) = some out)
    (hcomp : Compatible out bases) : rebased true out bases offset = some ours := by
  induction ours generalizing bases out p offset with
  | nil =>
    rw [rebased_nil] at h
    cases h
    exact rebased_nil
  | cons o ours ihO =>
    induction bases generalizing p offset with
    | nil =>
      rw [inverseLoop, rebased_exhausted_eq] at h
      cases h
      rw [rebased_exhausted_eq, map_map]
      refine congrArg some ?_
      have hid : moved offset ∘ moved (-offset) = id := funext fun o => moved_moved o offset
      rw [hid, map_id]
    | cons b bases ihB =>
      rw [inverseLoop] at h
      obtain ⟨back, hback⟩ : ∃ back : StringReplacement, back =
        ⟨OffsetRange.ofStartAndLength (b.replaceRange.start + offset) b.newText.length,
          slice b.replaceRange.start b.replaceRange.endExclusive⟩ := ⟨_, rfl⟩
      have hstart : back.replaceRange.start = b.replaceRange.start + offset := by rw [hback]; rfl
      have hstop : back.replaceRange.endExclusive =
          b.replaceRange.start + offset + b.newText.length := by rw [hback]; rfl
      have htext : back.newText.length = b.replaceRange.length := by rw [hback]; exact hslice _
      rw [← hback] at h
      cases hc : isConflicting o.replaceRange back.replaceRange with
      | true =>
        rw [rebased_conflict hc] at h
        cases h
      | false =>
        by_cases hfirst : comesFirst o.replaceRange back.replaceRange
        · rw [rebased_first hc hfirst, hback, ← inverseLoop] at h
          obtain ⟨out, hout, rfl⟩ := Option.map_eq_some_iff.mp h
          have hle := comesFirst_le hc hfirst
          rw [hstart] at hle
          have hnext := hcomp (moved (-offset) o) mem_cons_self b mem_cons_self
          have ho' : DisjointAndSorted (o.replaceRange.endExclusive - offset + offset) ours := by
            rw [sub_add_cancel]
            exact ho.2
          have hb' : DisjointAndSorted (o.replaceRange.endExclusive - offset) (b :: bases) :=
            ⟨sub_le_iff_le_add.mpr hle, hb.2⟩
          have hih := ihO ho' hb' hout fun q hq => hcomp q (mem_cons_of_mem _ hq)
          rw [rebased_first hnext (comesFirst_delta hstart hfirst), hih, Option.map_some, moved_moved]
        · have hlen := b.replaceRange.length_cast
          have hle := le_of_not_comesFirst hc hfirst
          have hoffset : -offset + ((back.newText.length : Int) - back.replaceRange.length) =
              -(offset + ((b.newText.length : Int) - b.replaceRange.length)) := by
            rw [OffsetRange.length_cast, htext, hstart, hstop]
            ring
          rw [rebased_base hc hfirst, hoffset] at h
          have ho' : DisjointAndSorted (b.replaceRange.endExclusive +
              (offset + ((b.newText.length : Int) - b.replaceRange.length))) (o :: ours) :=
            ⟨show _ ≤ o.replaceRange.start by omega, ho.2⟩
          have hih := ihB ho' hb.2 h fun q hq r hr => hcomp q hq r (mem_cons_of_mem b hr)
          have hsorted := rebased_sorted ho' (inverseLoop_sorted slice _ hb.2) h
          cases out with
          | nil =>
            rw [rebased_nil] at hih
            cases hih
          | cons q out =>
            have hq := hcomp q mem_cons_self b mem_cons_self
            have hge : b.replaceRange.endExclusive ≤ q.replaceRange.start := by
              have := hsorted.1
              rwa [add_neg_cancel_right] at this
            rw [rebased_base hq (not_comesFirst_of_le hq hge)]
            exact hih

theorem rebased_inverse_le {hi : Int}
    (hslice : ∀ r : OffsetRange, (slice r.start r.endExclusive).length = r.length)
    (ho : ∀ o ∈ ours, o.replaceRange.endExclusive ≤
      hi + (offset + shift ((StringReplacement.meaning id).splices bases)))
    (hb : ∀ b ∈ bases, b.replaceRange.endExclusive ≤ hi)
    (h : rebased true ours (inverseLoop slice bases offset) (-offset) = some out) :
    ∀ q ∈ out, q.replaceRange.endExclusive ≤ hi := by
  induction ours generalizing bases out offset with
  | nil =>
    rw [rebased_nil] at h
    cases h
    simp
  | cons o ours ihO =>
    induction bases generalizing offset with
    | nil =>
      rw [inverseLoop, rebased_exhausted_eq] at h
      cases h
      intro q hq
      obtain ⟨r, hr, rfl⟩ := mem_map.mp hq
      have hle := ho r hr
      simp only [Meaning.splices_nil, shift, moved, OffsetRange.delta_endExclusive] at hle ⊢
      omega
    | cons b bases ihB =>
      rw [inverseLoop] at h
      obtain ⟨back, hback⟩ : ∃ back : StringReplacement, back =
        ⟨OffsetRange.ofStartAndLength (b.replaceRange.start + offset) b.newText.length,
          slice b.replaceRange.start b.replaceRange.endExclusive⟩ := ⟨_, rfl⟩
      have hstart : back.replaceRange.start = b.replaceRange.start + offset := by rw [hback]; rfl
      have hstop : back.replaceRange.endExclusive =
          b.replaceRange.start + offset + b.newText.length := by rw [hback]; rfl
      have htext : back.newText.length = b.replaceRange.length := by rw [hback]; exact hslice _
      have hlen := b.replaceRange.length_cast
      rw [← hback] at h
      cases hc : isConflicting o.replaceRange back.replaceRange with
      | true =>
        rw [rebased_conflict hc] at h
        cases h
      | false =>
        by_cases hfirst : comesFirst o.replaceRange back.replaceRange
        · rw [rebased_first hc hfirst, hback, ← inverseLoop] at h
          obtain ⟨out, hout, rfl⟩ := Option.map_eq_some_iff.mp h
          have hle := comesFirst_le hc hfirst
          have hbhi := hb b mem_cons_self
          have hble := b.replaceRange.le
          refine forall_mem_cons.mpr ⟨?_, ihO (fun o' ho' => ho o' (mem_cons_of_mem o ho')) hb hout⟩
          simp only [moved, OffsetRange.delta_endExclusive]
          omega
        · have hoffset : -offset + ((back.newText.length : Int) - back.replaceRange.length) =
              -(offset + ((b.newText.length : Int) - b.replaceRange.length)) := by
            rw [OffsetRange.length_cast, htext, hstart, hstop]
            ring
          rw [rebased_base hc hfirst, hoffset] at h
          refine ihB (fun o' ho' => ?_) (fun b' hb' => hb b' (mem_cons_of_mem b hb')) h
          have hle := ho o' ho'
          rw [Meaning.splices_cons, shift, Meaning.splice_text, Meaning.length_newValue_cast,
            Meaning.splice_stop, Meaning.splice_start] at hle
          change _ ≤ hi + (offset + (((b.newText.length : Int) -
            (b.replaceRange.endExclusive - b.replaceRange.start)) + _)) at hle
          omega

theorem length_spaces (r : OffsetRange) : (spaces r.start r.endExclusive).length = r.length := by
  rw [spaces, length_replicate, OffsetRange.length]

theorem length_apply {e : StringEdit} {s : JsString} (h : e.ValidOn s.length) :
    ((e.apply s).length : Int) =
      s.length + shift ((StringReplacement.meaning id).splices e.replacements) := by
  have hfit := BaseEdit.chainTo_of_validOn (StringReplacement.meaning id) h
  rw [apply_eq e s hfit.chain, length_splice (by rwa [zero_add])]

theorem trySwap_cases {e1 e2 e1' e2' : StringEdit} (h : trySwap e1 e2 = .ok (some (e1', e2'))) :
    rebased true e2.replacements (inverseLoop spaces e1.replacements 0) 0 = some e1'.replacements ∧
      e1.tryRebase e1' = .ok (some e2') := by
  obtain ⟨inv, hinv, hreplacements⟩ := e1.inverseOnSlice_ok spaces
  obtain ⟨r1, hr1, heq1⟩ := tryRebaseWith_eq e2 inv true
  rw [← tryRebase] at hr1
  rw [trySwap, hinv] at h
  simp only [bind, Except.bind, hr1] at h
  cases r1 with
  | none => cases h
  | some r1 =>
    obtain ⟨r2, hr2, -⟩ := tryRebaseWith_eq e1 r1 true
    rw [← tryRebase] at hr2
    simp only [hr2] at h
    cases r2 with
    | none => cases h
    | some r2 =>
      cases h
      rw [← hreplacements]
      exact ⟨heq1.symm, hr2⟩

/-- The swapped edits, in the order in which they are returned, do what the given ones do. -/
theorem trySwap_apply {e1 e2 e1' e2' : StringEdit} {s : JsString}
    (h : trySwap e1 e2 = .ok (some (e1', e2'))) (h1 : e1.ValidOn s.length)
    (h2 : e2.ValidOn (e1.apply s).length) : e2'.apply (e1'.apply s) = e2.apply (e1.apply s) := by
  obtain ⟨hout, hsecond⟩ := trySwap_cases h
  have hfit1 := BaseEdit.chainTo_of_validOn (StringReplacement.meaning id) h1
  have hfit2 := BaseEdit.chainTo_of_validOn (StringReplacement.meaning id) h2
  have hsorted1 := ((StringReplacement.meaning id).chain_iff _ _).mp hfit1.chain
  have hsorted2 := ((StringReplacement.meaning id).chain_iff _ _).mp hfit2.chain
  -- rebased over the first edit, what is returned first is the second edit again
  have hback : e1'.tryRebase e1 = .ok (some e2) := by
    have hcomp := (tryRebase_defined_iff e1 e1').mp ⟨e2', hsecond⟩
    have hrebased := @rebased_back spaces _ _ _ 0 0 length_spaces (by rwa [add_zero]) hsorted1
      (by rwa [neg_zero]) (compatible_comm.mp hcomp)
    obtain ⟨r, hr, heq⟩ := tryRebaseWith_eq e1' e1 true
    rw [hrebased] at heq
    obtain ⟨r, rfl, hreplacements⟩ := Option.map_eq_some_iff.mp heq
    rw [tryRebase, hr, BaseEdit.ext hreplacements]
  have hsorted := rebased_sorted hsorted2 (inverseLoop_sorted spaces 0 hsorted1) hout
  have hvalid : e1'.ValidOn s.length := by
    intro q hq
    refine ⟨hsorted.le_start q hq, ?_⟩
    refine @rebased_inverse_le spaces _ _ _ 0 _ length_spaces (fun o ho => ?_)
      (fun b hb => (h1 b hb).2) (by rwa [neg_zero]) q hq
    rw [zero_add, ← length_apply h1]
    exact (h2 o ho).2
  have hfit := BaseEdit.chainTo_of_validOn (StringReplacement.meaning id) hvalid
  rw [apply_eq e1 s hfit1.chain, apply_eq e1' s hfit.chain, apply_eq e2 _ hfit2.chain,
    apply_eq e2' _ (chain_tryRebase id hsecond hfit1.chain hfit.chain)]
  exact (splice_diamond id hback hsecond (by rwa [zero_add]) (by rwa [zero_add])).symm

theorem trySwap_insertions :
    let e1 : StringEdit := ⟨[⟨⟨0, 0, le_rfl⟩, [120]⟩], by decide⟩
    let e2 : StringEdit := ⟨[⟨⟨3, 3, le_rfl⟩, [121]⟩], by decide⟩
    let e1' : StringEdit := ⟨[⟨⟨2, 2, le_rfl⟩, [121]⟩], by decide⟩
    trySwap e1 e2 = .ok (some (e1', e1)) := by
  intro e1 e2 e1'
  have hinv : e1.inverseOnSlice spaces = .ok ⟨[⟨⟨0, 1, by decide⟩, []⟩], by decide⟩ := rfl
  have hfirst : e2.tryRebase ⟨[⟨⟨0, 1, by decide⟩, []⟩], by decide⟩ = .ok (some e1') := by
    simp [e2, e1', tryRebase, tryRebaseWith, tryRebaseLoop]
    decide
  have hsecond : e1.tryRebase e1' = .ok (some e1) := by
    simp [e1, e1', tryRebase, tryRebaseWith, tryRebaseLoop]
    decide
  rw [trySwap, hinv]
  simp only [bind, Except.bind, hfirst, hsecond]
  rfl

theorem trySwap_apply_front :
    let e1 : StringEdit := ⟨[⟨⟨0, 0, le_rfl⟩, [120]⟩], by decide⟩
    let e2 : StringEdit := ⟨[⟨⟨3, 3, le_rfl⟩, [121]⟩], by decide⟩
    let e1' : StringEdit := ⟨[⟨⟨2, 2, le_rfl⟩, [121]⟩], by decide⟩
    e1.apply (e1'.apply [97, 98]) = e2.apply (e1.apply [97, 98]) :=
  trySwap_apply trySwap_insertions (by decide) (by decide)

/-- In the other order they do not: at the front of "ab" the "x" comes to lie in front of
the place that is meant for the "y". -/
theorem not_trySwap_apply_reversed : ¬∀ (e1 e2 e1' e2' : StringEdit) (s : JsString),
    trySwap e1 e2 = .ok (some (e1', e2')) → e1.ValidOn s.length →
      e2.ValidOn (e1.apply s).length → e1'.apply (e2'.apply s) = e2.apply (e1.apply s) := by
  intro hall
  have h := hall _ _ _ _ [97, 98] trySwap_insertions (by decide) (by decide)
  exact absurd h (by decide)

end StringEdit

end Gavea.Edits
