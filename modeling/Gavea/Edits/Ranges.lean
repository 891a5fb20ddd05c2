import Gavea.Edits.Normalization

namespace Gavea.Edits

open Gavea.Core Lib.Js Lib.Splicing

/-- What `applyEditsToRanges` could throw: what a range's constructor throws, or that a range
does not meet the replaced one, whose intersection the code asserts with `!`. -/
inductive RangesError
  | bug (error : BugIndicatingError)
  | undefinedIntersection
  deriving DecidableEq

def takeBefore (e : StringReplacement) (offset : Int) :
    List OffsetRange → List OffsetRange → List OffsetRange × List OffsetRange
  | [], result => ([], result)
  | r :: sortedRanges, result =>
    if r.endExclusive ≥ e.replaceRange.start then (r :: sortedRanges, result)
    else takeBefore e offset sortedRanges (result ++ [r.delta offset])

def takeMeeting (e : StringReplacement) :
    List OffsetRange → List OffsetRange → List OffsetRange × List OffsetRange
  | [], intersecting => ([], intersecting)
  | r :: sortedRanges, intersecting =>
    if r.intersectsOrTouches e.replaceRange then
      takeMeeting e sortedRanges (intersecting ++ [r])
    else (r :: sortedRanges, intersecting)

def withoutReplaced (e : StringReplacement) (i : Nat) (r : OffsetRange) :
    Except RangesError OffsetRange :=
  match r.intersect e.replaceRange with
  | none => .error .undefinedIntersection
  | some overlap =>
    match r.deltaEnd (-(overlap.length : Int) + if i = 0 then (e.newText.length : Int) else 0) with
    | .error error => .error (.bug error)
    | .ok r =>
      let rangeAheadOfReplaceRange := r.start - e.replaceRange.start
      let r := if rangeAheadOfReplaceRange > 0 then r.delta (-rangeAheadOfReplaceRange) else r
      let r := if i ≠ 0 then r.delta e.newText.length else r
      .ok (r.delta (-((e.newText.length : Int) - e.replaceRange.length)))

def putBack (e : StringReplacement) : Nat → List OffsetRange → List OffsetRange →
    Except RangesError (List OffsetRange)
  | _, [], sortedRanges => .ok sortedRanges
  | i, r :: intersecting, sortedRanges => do
      let sortedRanges ← putBack e (i + 1) intersecting sortedRanges
      return (← withoutReplaced e i r) :: sortedRanges

def applyEditsLoop : List StringReplacement → List OffsetRange → List OffsetRange → Int →
    Except RangesError (List OffsetRange)
  | [], sortedRanges, result, offset => .ok (result ++ sortedRanges.map (·.delta offset))
  | e :: rest, sortedRanges, result, offset => do
      let (sortedRanges, result) := takeBefore e offset sortedRanges result
      let (sortedRanges, intersecting) := takeMeeting e sortedRanges []
      let sortedRanges ← putBack e 0 intersecting sortedRanges
      applyEditsLoop rest sortedRanges result (offset + ((e.newText.length : Int) - e.replaceRange.length))

def applyEditsToRanges (sortedRanges : List OffsetRange) (edit : StringEdit) :
    Except RangesError (List OffsetRange) :=
  applyEditsLoop edit.replacements sortedRanges [] 0

abbrev SortedRanges (ranges : List OffsetRange) : Prop := ranges.Pairwise fun r r' => r.endExclusive ≤ r'.start

variable {e : StringReplacement} {offset : Int}

theorem takeBefore_spec (queue result : List OffsetRange) : ∃ done queue',
    queue = done ++ queue' ∧
    takeBefore e offset queue result = (queue', result ++ done.map (·.delta offset)) ∧
    (∀ r ∈ done, r.endExclusive < e.replaceRange.start) ∧
    ∀ r ∈ queue'.head?, e.replaceRange.start ≤ r.endExclusive := by
  induction queue generalizing result with
  | nil => exact ⟨[], [], rfl, by rw [takeBefore, List.map_nil, List.append_nil], by simp, by simp⟩
  | cons r queue ih =>
    rw [takeBefore]
    by_cases hend : r.endExclusive ≥ e.replaceRange.start
    · rw [if_pos hend]
      exact ⟨[], r :: queue, rfl, by rw [List.map_nil, List.append_nil], by simp, fun q hq => Option.some.inj hq ▸ hend⟩
    · obtain ⟨done, queue', hqueue, htake, hdone, hhead⟩ := ih (result ++ [r.delta offset])
      rw [if_neg hend]
      refine ⟨r :: done, queue', by rw [hqueue]; rfl, ?_, ?_, hhead⟩
      · rw [htake, List.map_cons, List.append_assoc, List.singleton_append]
      · exact List.forall_mem_cons.mpr ⟨not_le.mp hend, hdone⟩

theorem takeMeeting_spec (queue acc : List OffsetRange) : ∃ meeting queue',
    queue = meeting ++ queue' ∧ takeMeeting e queue acc = (queue', acc ++ meeting) ∧
    (∀ r ∈ meeting, r.intersectsOrTouches e.replaceRange = true) ∧
    ∀ r ∈ queue'.head?, ¬r.intersectsOrTouches e.replaceRange = true := by
  induction queue generalizing acc with
  | nil => exact ⟨[], [], rfl, by rw [takeMeeting, List.append_nil], by simp, by simp⟩
  | cons r queue ih =>
    rw [takeMeeting]
    by_cases hmeets : r.intersectsOrTouches e.replaceRange = true
    · obtain ⟨meeting, queue', hqueue, htake, hmeeting, hhead⟩ := ih (acc ++ [r])
      rw [if_pos hmeets]
      refine ⟨r :: meeting, queue', by rw [hqueue]; rfl, ?_, ?_, hhead⟩
      · rw [htake, List.append_assoc, List.singleton_append]
      · exact List.forall_mem_cons.mpr ⟨hmeets, hmeeting⟩
    · rw [if_neg hmeets]
      exact ⟨[], r :: queue, rfl, by rw [List.append_nil], by simp, fun q hq => Option.some.inj hq ▸ hmeets⟩

def growth (e : StringReplacement) : Int := (e.newText.length : Int) - e.replaceRange.length

theorem growth_eq (e : StringReplacement) : growth e =
    e.newText.length - (e.replaceRange.endExclusive - e.replaceRange.start) := by
  rw [growth, e.replaceRange.length_cast]

def firstRange (e : StringReplacement) (r : OffsetRange) : OffsetRange :=
  ⟨min r.start e.replaceRange.start - growth e, max r.endExclusive e.replaceRange.endExclusive, by
    have hgrowth := growth_eq e
    omega⟩

def laterRange (e : StringReplacement) (r : OffsetRange) : OffsetRange :=
  ⟨max r.start e.replaceRange.endExclusive, max r.endExclusive e.replaceRange.endExclusive, by
    have hle := r.le
    omega⟩

theorem withoutReplaced_spec {r : OffsetRange} (h : r.intersectsOrTouches e.replaceRange = true)
    (i : Nat) (hi : i ≠ 0 → e.replaceRange.start ≤ r.start) :
    withoutReplaced e i r = .ok (if i = 0 then firstRange e r else laterRange e r) := by
  rw [OffsetRange.intersectsOrTouches_iff] at h
  have hle := r.le
  have hle' := e.replaceRange.le
  have hgrowth := growth_eq e
  have hmeets : max r.start e.replaceRange.start ≤ min r.endExclusive e.replaceRange.endExclusive := by
    omega
  rw [withoutReplaced, OffsetRange.intersect, dif_pos hmeets]
  dsimp only
  have hlength := (OffsetRange.mk _ _ hmeets).length_cast
  dsimp only at hlength
  generalize (OffsetRange.mk _ _ hmeets).length = overlap at hlength ⊢
  have hnew : r.start ≤ r.endExclusive +
      (-(overlap : Int) + if i = 0 then (e.newText.length : Int) else 0) := by
    split_ifs <;> omega
  rw [OffsetRange.deltaEnd, OffsetRange.new_ok hnew]
  dsimp only
  rw [← growth]
  by_cases hzero : i = 0
  · simp only [hzero, if_true, ne_eq, not_true_eq_false, if_false, firstRange, Except.ok.injEq]
    split_ifs <;> simp only [OffsetRange.delta, OffsetRange.mk.injEq] <;> omega
  · have hstart := hi hzero
    simp only [hzero, if_false, ne_eq, not_false_eq_true, if_true, laterRange, Except.ok.injEq]
    split_ifs <;> simp only [OffsetRange.delta, OffsetRange.mk.injEq] <;> omega

def stepRanges (e : StringReplacement) : List OffsetRange → List OffsetRange
  | [] => []
  | r :: queue =>
    (if r.start ≤ e.replaceRange.endExclusive then firstRange e r else laterRange e r) :: queue.map (laterRange e)

theorem laterRange_of_lt {r : OffsetRange} (h : e.replaceRange.endExclusive < r.start) :
    laterRange e r = r := by
  have hle := r.le
  obtain ⟨start, endExclusive, hr⟩ := r
  simp only [laterRange, OffsetRange.mk.injEq] at h hle ⊢
  omega

theorem putBack_later {meeting queue : List OffsetRange} (i : Nat)
    (hmeeting : ∀ r ∈ meeting, r.intersectsOrTouches e.replaceRange = true)
    (hstart : ∀ r ∈ meeting, e.replaceRange.start ≤ r.start) :
    putBack e (i + 1) meeting queue = .ok (meeting.map (laterRange e) ++ queue) := by
  induction meeting generalizing i with
  | nil => rfl
  | cons r meeting ih =>
    rw [List.forall_mem_cons] at hmeeting hstart
    rw [putBack, ih (i + 1) hmeeting.2 hstart.2, withoutReplaced_spec hmeeting.1 (i + 1) fun _ => hstart.1]
    rfl

theorem putBack_eq {meeting queue : List OffsetRange} (hsorted : SortedRanges (meeting ++ queue))
    (hmeeting : ∀ r ∈ meeting, r.intersectsOrTouches e.replaceRange = true)
    (hhead : ∀ r ∈ queue.head?, ¬r.intersectsOrTouches e.replaceRange = true)
    (hend : ∀ r ∈ (meeting ++ queue).head?, e.replaceRange.start ≤ r.endExclusive) :
    putBack e 0 meeting queue = .ok (stepRanges e (meeting ++ queue)) := by
  -- the ranges that are left lie behind the replacement
  have hbehind (hfront : ∀ r ∈ queue.head?, e.replaceRange.start ≤ r.endExclusive) :
      ∀ r ∈ queue, e.replaceRange.endExclusive < r.start := by
    have hqueue := (List.pairwise_append.mp hsorted).2.1
    cases queue with
    | nil => exact fun r hr => absurd hr List.not_mem_nil
    | cons q queue =>
      have hno := hhead q rfl
      have hq := hfront q rfl
      rw [OffsetRange.intersectsOrTouches_iff] at hno
      have hlt : e.replaceRange.endExclusive < q.start := by omega
      refine List.forall_mem_cons.mpr ⟨hlt, fun r hr => ?_⟩
      exact hlt.trans_le (q.le.trans ((List.pairwise_cons.mp hqueue).1 r hr))
  have hsame (queue : List OffsetRange) (h : ∀ r ∈ queue, e.replaceRange.endExclusive < r.start) :
      queue.map (laterRange e) = queue := by
    conv_rhs => rw [← List.map_id queue]
    exact List.map_congr_left fun r hr => laterRange_of_lt (h r hr)
  cases meeting with
  | nil =>
    have hqueue := hbehind hend
    rw [putBack, List.nil_append]
    cases queue with
    | nil => rfl
    | cons q queue =>
      rw [List.forall_mem_cons] at hqueue
      rw [stepRanges, if_neg (not_le.mpr hqueue.1), laterRange_of_lt hqueue.1, hsame queue hqueue.2]
  | cons r meeting =>
    rw [List.forall_mem_cons] at hmeeting
    have hr := hend r rfl
    have hlater := (List.pairwise_cons.mp hsorted).1
    have hqueue := hbehind fun q hq => hr.trans ((hlater q
      (List.mem_append_right _ (List.mem_of_mem_head? hq))).trans q.le)
    have hstart : ∀ q ∈ meeting, e.replaceRange.start ≤ q.start := fun q hq =>
      hr.trans (hlater q (List.mem_append_left _ hq))
    rw [putBack, putBack_later 0 hmeeting.2 hstart, withoutReplaced_spec hmeeting.1 0 (absurd rfl),
      List.cons_append, stepRanges, if_pos ((OffsetRange.intersectsOrTouches_iff _ _).mp hmeeting.1).1,
      List.map_append, hsame queue hqueue]
    rfl

/-- A letter of the edited string is one of the string or one of a replacement's new text. -/
inductive Origin
  | kept (offset : Nat)
  | inserted (index : Nat)

namespace StringEdit

def originSplices : Nat → List StringReplacement → List (Splice (CodeUnit × Origin))
  | _, [] => []
  | j, e :: rest => ⟨e.replaceRange.start, e.replaceRange.endExclusive,
      e.newText.map fun c => (c, .inserted j)⟩ :: originSplices (j + 1) rest

def lettersOf (s : JsString) : List (CodeUnit × Origin) := s.zipIdx.map fun (c, offset) => (c, .kept offset)

def applyWithOrigins (edit : StringEdit) (s : JsString) : List (CodeUnit × Origin) :=
  splice 0 (originSplices 0 edit.replacements) (lettersOf s)

theorem originSplices_mapText (j : Nat) (rs : List StringReplacement) :
    (originSplices j rs).map (Splice.mapText Prod.fst) = (StringReplacement.meaning id).splices rs := by
  induction rs generalizing j with
  | nil => rfl
  | cons e rest ih =>
    rw [originSplices, List.map_cons, ih, Meaning.splices_cons, StringReplacement.splice_meaning_id,
      Splice.mapText, List.map_map]
    congr 2
    exact List.map_id e.newText

theorem lettersOf_fst (s : JsString) : (lettersOf s).map Prod.fst = s := by
  rw [lettersOf, List.map_map]
  exact List.zipIdx_map_fst 0 s

theorem applyWithOrigins_fst {edit : StringEdit} {s : JsString} (h : edit.ValidOn s.length) :
    (edit.applyWithOrigins s).map Prod.fst = edit.apply s := by
  rw [applyWithOrigins, map_splice, originSplices_mapText, lettersOf_fst, apply_eq_of_validOn h]

structure Follows (meets : Nat → OffsetRange → Prop) (edit : StringEdit) (s : JsString)
    (ranges result : List OffsetRange) : Prop where
  length_eq : result.length = ranges.length
  sorted : result.Pairwise fun r r' => r.endExclusive ≤ r'.start
  contents : ∀ (i : Nat) (r r' : OffsetRange), ranges[i]? = some r → result[i]? = some r' →
    ∀ (k : Nat) (c : CodeUnit) (origin : Origin), (edit.applyWithOrigins s)[k]? = some (c, origin) →
      (r'.contains k = true ↔ match origin with
        | .kept offset => r.contains offset = true
        | .inserted j => meets j r ∧ ∀ (i' : Nat) (r'' : OffsetRange), i' < i → ranges[i']? = some r'' → ¬meets j r'')

def MeetsReplaced (edit : StringEdit) (j : Nat) (r : OffsetRange) : Prop :=
  ∃ e, edit.replacements[j]? = some e ∧ r.intersectsOrTouches e.replaceRange = true

def stretchStart (replacements : List StringReplacement) : Nat → Option Int
  | 0 => replacements[0]?.map (·.replaceRange.start)
  | j + 1 =>
    if replacements[j]?.map (·.replaceRange.endExclusive) =
        replacements[j + 1]?.map (·.replaceRange.start) then stretchStart replacements j
    else replacements[j + 1]?.map (·.replaceRange.start)

def MeetsStretch (edit : StringEdit) (j : Nat) (r : OffsetRange) : Prop :=
  ∃ e start, edit.replacements[j]? = some e ∧ stretchStart edit.replacements j = some start ∧
    start ≤ r.endExclusive ∧ r.start ≤ e.replaceRange.endExclusive

structure Tail (p : Int) (r q : OffsetRange) : Prop where
  start_iff : ∀ x, p ≤ x → (q.start ≤ x ↔ r.start ≤ x)
  end_iff : ∀ x, p < x → (x ≤ q.endExclusive ↔ x ≤ r.endExclusive)
  le : p ≤ q.endExclusive

theorem Tail.contains_iff {p x : Int} {r q : OffsetRange} (h : Tail p r q) (hx : p ≤ x) :
    (q.start ≤ x ∧ x < q.endExclusive) ↔ (r.start ≤ x ∧ x < r.endExclusive) := by
  have hstart := h.start_iff x hx
  have hend := h.end_iff (x + 1) (by omega)
  omega

variable {edit : StringEdit} {ranges : List OffsetRange} {s : JsString}

def Belongs (edit : StringEdit) (ranges : List OffsetRange) (x : OffsetRange × Nat) : Origin → Prop
  | .kept offset => x.1.start ≤ offset ∧ (offset : Int) < x.1.endExclusive
  | .inserted j => MeetsStretch edit j x.1 ∧ ∀ y ∈ ranges.zipIdx, y.2 < x.2 → ¬MeetsStretch edit j y.1

/-- The replacements up to position p are done, edited is what they make of the string up to
there. The stretch of replaced ranges that ends at p starts at stretch. -/
structure Moment where
  done : List StringReplacement
  p : Int
  stretch : Int
  offset : Int
  edited : List (CodeUnit × Origin)

def Holds (edit : StringEdit) (ranges : List OffsetRange) (edited : List (CodeUnit × Origin))
    (x : OffsetRange × Nat) (r : OffsetRange) : Prop :=
  ∀ (k : Nat) (c : CodeUnit) (origin : Origin), edited[k]? = some (c, origin) →
    ((r.start ≤ k ∧ (k : Int) < r.endExclusive) ↔ Belongs edit ranges x origin)

structure Done (edit : StringEdit) (ranges : List OffsetRange) (m : Moment)
    (x : OffsetRange × Nat) (r : OffsetRange) : Prop where
  lt_stretch : x.1.endExclusive < m.stretch
  lt : r.endExclusive < m.p + m.offset
  holds : Holds edit ranges m.edited x r

structure Open (edit : StringEdit) (ranges : List OffsetRange) (m : Moment)
    (x : OffsetRange × Nat) (q : OffsetRange) : Prop where
  tail : Tail m.p x.1 q
  stretch_le : m.stretch ≤ x.1.endExclusive
  holds : Holds edit ranges m.edited x (q.delta m.offset)

structure Moment.Valid (edit : StringEdit) (m : Moment) : Prop where
  stretch_le : m.stretch ≤ m.p
  length_eq : (m.edited.length : Int) = max m.p 0 + m.offset
  last : m.done = [] ∧ m.p < 0 ∨ ∃ front last, m.done = front ++ [last] ∧
    last.replaceRange.endExclusive = m.p ∧
    stretchStart edit.replacements front.length = some m.stretch

def Moment.next (m : Moment) (s : JsString) (e : StringReplacement) : Moment where
  done := m.done ++ [e]
  p := e.replaceRange.endExclusive
  stretch := if m.p = e.replaceRange.start then m.stretch else e.replaceRange.start
  offset := m.offset + growth e
  edited := m.edited ++ (((lettersOf s).take e.replaceRange.start.toNat).drop m.p.toNat ++
    e.newText.map fun c => (c, .inserted m.done.length))

variable {m : Moment} {rest : List StringReplacement} {x : OffsetRange × Nat} {q : OffsetRange}

structure IsNext (edit : StringEdit) (m : Moment) (s : JsString) (e : StringReplacement)
    (rest : List StringReplacement) : Prop where
  valid : m.Valid edit
  replacements_eq : edit.replacements = m.done ++ e :: rest
  le_start : m.p ≤ e.replaceRange.start
  start_nonneg : 0 ≤ e.replaceRange.start
  end_le : e.replaceRange.endExclusive ≤ s.length

theorem IsNext.stretchStart_eq (h : IsNext edit m s e rest) :
    stretchStart edit.replacements m.done.length = some (m.next s e).stretch := by
  have hnext : edit.replacements[m.done.length]? = some e := by
    rw [h.replacements_eq, List.getElem?_append_right le_rfl, Nat.sub_self]
    rfl
  rcases h.valid.last with ⟨hnil, hneg⟩ | ⟨front, last, hdone, hp, hstretch⟩
  · have hne : m.p ≠ e.replaceRange.start := by
      have hstart := h.start_nonneg
      omega
    rw [hnil, List.length_nil] at hnext ⊢
    simp only [stretchStart, hnext, Option.map_some, Moment.next, if_neg hne]
  · have hlast : edit.replacements[front.length]? = some last := by
      rw [h.replacements_eq, hdone, List.append_assoc, List.getElem?_append_right le_rfl, Nat.sub_self]
      rfl
    have hlength : m.done.length = front.length + 1 := by
      rw [hdone, List.length_append, List.length_singleton]
    rw [hlength] at hnext ⊢
    simp only [stretchStart, hnext, hlast, Option.map_some, Option.some.injEq, hp, Moment.next]
    by_cases htouch : m.p = e.replaceRange.start
    · rw [if_pos htouch, if_pos htouch, hstretch]
    · rw [if_neg htouch, if_neg htouch]

theorem IsNext.meetsStretch_iff (h : IsNext edit m s e rest) (r : OffsetRange) :
    MeetsStretch edit m.done.length r ↔ (m.next s e).stretch ≤ r.endExclusive ∧
      r.start ≤ e.replaceRange.endExclusive := by
  have hnext : edit.replacements[m.done.length]? = some e := by
    rw [h.replacements_eq, List.getElem?_append_right le_rfl, Nat.sub_self]
    rfl
  rw [MeetsStretch, hnext, h.stretchStart_eq]
  constructor
  · rintro ⟨e', start, he, hs, hmeets⟩
    obtain rfl := Option.some.inj he
    obtain rfl := Option.some.inj hs
    exact hmeets
  · exact fun hmeets => ⟨e, _, rfl, rfl, hmeets⟩

theorem getElem?_lettersOf {k : Nat} {c : CodeUnit} {origin : Origin}
    (h : (lettersOf s)[k]? = some (c, origin)) : origin = .kept k := by
  rw [lettersOf, List.getElem?_map, List.getElem?_zipIdx] at h
  cases hk : s[k]? with
  | none => rw [hk] at h; exact nomatch h
  | some c' =>
    rw [hk] at h
    simp only [Option.map_some, Option.some.injEq, Prod.mk.injEq, zero_add] at h
    exact h.2.symm

theorem length_lettersOf (s : JsString) : (lettersOf s).length = s.length := by
  rw [lettersOf, List.length_map, List.length_zipIdx]

theorem IsNext.edited_cases (h : IsNext edit m s e rest) {k : Nat} {c : CodeUnit} {origin : Origin}
    (hk : (m.next s e).edited[k]? = some (c, origin)) :
    m.edited[k]? = some (c, origin) ∧ (k : Int) < max m.p 0 + m.offset ∨
    (∃ y : Nat, origin = .kept y ∧ (y : Int) = k - m.offset ∧ m.p ≤ y ∧ y < e.replaceRange.start) ∨
    origin = .inserted m.done.length ∧ e.replaceRange.start + m.offset ≤ k ∧
      (k : Int) < e.replaceRange.endExclusive + (m.offset + growth e) := by
  have hlength := h.valid.length_eq
  have hle := h.le_start
  have hnonneg := h.start_nonneg
  have hend := h.end_le
  have hrange := e.replaceRange.le
  have hgrowth := growth_eq e
  have hmid : ((((lettersOf s).take e.replaceRange.start.toNat).drop m.p.toNat).length : Int) =
      e.replaceRange.start - max m.p 0 := by
    rw [List.length_drop, List.length_take, length_lettersOf]
    omega
  rw [Moment.next, List.getElem?_append] at hk
  split_ifs at hk with hfront
  · exact .inl ⟨hk, by omega⟩
  rw [List.getElem?_append] at hk
  split_ifs at hk with hmiddle
  · rw [List.getElem?_drop, List.getElem?_take] at hk
    split_ifs at hk with htake
    refine .inr (.inl ⟨_, getElem?_lettersOf hk, ?_, ?_, ?_⟩) <;> omega
  · obtain ⟨hlt, -⟩ := List.getElem?_eq_some_iff.mp hk
    rw [List.getElem?_map] at hk
    rw [List.length_map] at hlt
    obtain ⟨c', -, hc⟩ := Option.map_eq_some_iff.mp hk
    refine .inr (.inr ⟨(Prod.mk.inj hc).2.symm, ?_, ?_⟩) <;> omega

theorem IsNext.valid_next (h : IsNext edit m s e rest) : (m.next s e).Valid edit := by
  have hlength := h.valid.length_eq
  have hle := h.le_start
  have hnonneg := h.start_nonneg
  have hend := h.end_le
  have hrange := e.replaceRange.le
  have hgrowth := growth_eq e
  refine ⟨?_, ?_, .inr ⟨m.done, e, rfl, rfl, h.stretchStart_eq⟩⟩
  · have hstretch := h.valid.stretch_le
    simp only [Moment.next]
    split_ifs <;> omega
  · simp only [Moment.next, List.length_append, List.length_drop, List.length_take, length_lettersOf, List.length_map]
    omega

theorem IsNext.stretch_le (h : IsNext edit m s e rest) : m.stretch ≤ (m.next s e).stretch := by
  have hstretch := h.valid.stretch_le
  have hle := h.le_start
  simp only [Moment.next]
  split_ifs <;> omega

theorem IsNext.not_belongs_of_lt (h : IsNext edit m s e rest)
    (hlt : x.1.endExclusive < (m.next s e).stretch) :
    ¬Belongs edit ranges x (.inserted m.done.length) := by
  intro howns
  have hmeets := (h.meetsStretch_iff x.1).mp howns.1
  omega

theorem Done.next (hd : Done edit ranges m x q) (h : IsNext edit m s e rest) :
    Done edit ranges (m.next s e) x q := by
  have hlt := hd.lt
  have hle := h.le_start
  have hrange := e.replaceRange.le
  have hgrowth := growth_eq e
  have hstretch := hd.lt_stretch
  have hp := h.valid.stretch_le
  refine ⟨hstretch.trans_le h.stretch_le, ?_, fun k c origin hk => ?_⟩
  · simp only [Moment.next]
    omega
  · rcases h.edited_cases hk with ⟨hk, -⟩ | ⟨y, rfl, hy, hpy, hye⟩ | ⟨rfl, hk, -⟩
    · exact hd.holds k c origin hk
    · simp only [Belongs]
      omega
    · have hno : ¬Belongs edit ranges x (.inserted m.done.length) :=
        h.not_belongs_of_lt (hstretch.trans_le h.stretch_le)
      exact iff_of_false (by omega) hno

theorem Open.done (ho : Open edit ranges m x q) (h : IsNext edit m s e rest)
    (hlt : q.endExclusive < e.replaceRange.start) :
    Done edit ranges (m.next s e) x (q.delta m.offset) := by
  have hle := h.le_start
  have hrange := e.replaceRange.le
  have hgrowth := growth_eq e
  have hreach := ho.tail.le
  have hne : m.p ≠ e.replaceRange.start := by omega
  have hend := ho.tail.end_iff e.replaceRange.start (by omega)
  have hstretch : x.1.endExclusive < (m.next s e).stretch := by
    simp only [Moment.next, if_neg hne]
    omega
  refine ⟨hstretch, ?_, fun k c origin hk => ?_⟩
  · simp only [Moment.next, OffsetRange.delta_endExclusive]
    omega
  · rcases h.edited_cases hk with ⟨hk, -⟩ | ⟨y, rfl, hy, hpy, hye⟩ | ⟨rfl, hk, -⟩
    · exact ho.holds k c origin hk
    · have htail := ho.tail.contains_iff hpy
      simp only [Belongs, OffsetRange.delta_start, OffsetRange.delta_endExclusive]
      omega
    · have hno : ¬Belongs edit ranges x (.inserted m.done.length) := h.not_belongs_of_lt hstretch
      refine iff_of_false ?_ hno
      simp only [OffsetRange.delta_endExclusive]
      omega

theorem Open.stretch_le_next (ho : Open edit ranges m x q) (h : IsNext edit m s e rest)
    (hreach : e.replaceRange.start ≤ q.endExclusive) : (m.next s e).stretch ≤ x.1.endExclusive := by
  have hle := h.le_start
  simp only [Moment.next]
  split_ifs with htouch
  · exact ho.stretch_le
  · exact (ho.tail.end_iff _ (by omega)).mp hreach

theorem Open.first (ho : Open edit ranges m x q) (h : IsNext edit m s e rest)
    (hreach : e.replaceRange.start ≤ q.endExclusive)
    (hmeets : q.start ≤ e.replaceRange.endExclusive)
    (howns : Belongs edit ranges x (.inserted m.done.length)) :
    Open edit ranges (m.next s e) x (firstRange e q) := by
  have hle := h.le_start
  have hnonneg := h.start_nonneg
  have hrange := e.replaceRange.le
  have hgrowth := growth_eq e
  have hstart := ho.tail.start_iff e.replaceRange.endExclusive (by omega)
  refine ⟨⟨fun y hy => ?_, fun y hy => ?_, ?_⟩, ho.stretch_le_next h hreach,
    fun k c origin hk => ?_⟩
  · simp only [Moment.next] at hy
    simp only [firstRange]
    omega
  · simp only [Moment.next] at hy
    have hend := ho.tail.end_iff y (by omega)
    simp only [firstRange]
    omega
  · simp only [Moment.next, firstRange]
    omega
  · simp only [Moment.next, firstRange, OffsetRange.delta_start, OffsetRange.delta_endExclusive]
    rcases h.edited_cases hk with ⟨hk, hlt⟩ | ⟨y, rfl, hy, hpy, hye⟩ | ⟨rfl, hk, hlt⟩
    · have holds := ho.holds k c origin hk
      simp only [OffsetRange.delta_start, OffsetRange.delta_endExclusive] at holds
      rw [← holds]
      omega
    · have htail := ho.tail.contains_iff hpy
      simp only [Belongs]
      omega
    · exact iff_of_true (by omega) howns

theorem Open.later (ho : Open edit ranges m x q) (h : IsNext edit m s e rest)
    (hreach : e.replaceRange.start ≤ q.start)
    (hno : ¬Belongs edit ranges x (.inserted m.done.length)) :
    Open edit ranges (m.next s e) x (laterRange e q) := by
  have hle := h.le_start
  have hnonneg := h.start_nonneg
  have hrange := e.replaceRange.le
  have hgrowth := growth_eq e
  have hq := q.le
  refine ⟨⟨fun y hy => ?_, fun y hy => ?_, ?_⟩, ho.stretch_le_next h (hreach.trans hq),
    fun k c origin hk => ?_⟩
  · simp only [Moment.next] at hy
    have hstart := ho.tail.start_iff y (by omega)
    simp only [laterRange]
    omega
  · simp only [Moment.next] at hy
    have hend := ho.tail.end_iff y (by omega)
    simp only [laterRange]
    omega
  · simp only [Moment.next, laterRange]
    omega
  · simp only [Moment.next, laterRange, OffsetRange.delta_start, OffsetRange.delta_endExclusive]
    rcases h.edited_cases hk with ⟨hk, hlt⟩ | ⟨y, rfl, hy, hpy, hye⟩ | ⟨rfl, hk, hlt⟩
    · have holds := ho.holds k c origin hk
      simp only [OffsetRange.delta_start, OffsetRange.delta_endExclusive] at holds
      rw [← holds]
      omega
    · have htail := ho.tail.contains_iff hpy
      simp only [Belongs]
      omega
    · exact iff_of_false (by omega) hno

structure Invariant (edit : StringEdit) (ranges : List OffsetRange) (m : Moment)
    (before after : List (OffsetRange × Nat)) (result queue : List OffsetRange) : Prop where
  zipIdx_eq : ranges.zipIdx = before ++ after
  done : List.Forall₂ (Done edit ranges m) before result
  opened : List.Forall₂ (Open edit ranges m) after queue
  sorted : SortedRanges (result ++ queue.map (·.delta m.offset))

variable {before after : List (OffsetRange × Nat)} {result queue : List OffsetRange}

theorem sorted_of_map_delta {k : Int} (h : SortedRanges (queue.map (·.delta k))) :
    SortedRanges queue := by
  refine (List.pairwise_map.mp h).imp fun hle => ?_
  rw [OffsetRange.delta_endExclusive, OffsetRange.delta_start] at hle
  omega

theorem sorted_stepRanges (h : SortedRanges queue) : SortedRanges (stepRanges e queue) := by
  cases queue with
  | nil => exact List.Pairwise.nil
  | cons r queue =>
    obtain ⟨hr, hqueue⟩ := List.pairwise_cons.mp h
    refine List.pairwise_cons.mpr ⟨fun r' hr' => ?_, List.pairwise_map.mpr (hqueue.imp fun hle => ?_)⟩
    · obtain ⟨q, hq, rfl⟩ := List.mem_map.mp hr'
      have hle := hr q hq
      split_ifs
      · simp only [firstRange, laterRange]
        omega
      · simp only [laterRange]
        omega
    · simp only [laterRange]
      omega

theorem forall₂_later {ys : List (OffsetRange × Nat)} {qs : List OffsetRange}
    (h : IsNext edit m s e rest) (hopen : List.Forall₂ (Open edit ranges m) ys qs)
    (hreach : ∀ q ∈ qs, e.replaceRange.start ≤ q.start)
    (hno : ∀ y ∈ ys, ¬Belongs edit ranges y (.inserted m.done.length)) :
    List.Forall₂ (Open edit ranges (m.next s e)) ys (qs.map (laterRange e)) := by
  induction hopen with
  | nil => exact .nil
  | cons hxq _ ih =>
    rw [List.forall_mem_cons] at hreach hno
    exact .cons (hxq.later h hreach.1 hno.1) (ih hreach.2 hno.2)

theorem exists_of_forall₂ {α β : Type} {R : α → β → Prop} {ys : List α} {qs : List β}
    (h : List.Forall₂ R ys qs) : ∀ y ∈ ys, ∃ q ∈ qs, R y q := by
  induction h with
  | nil => exact fun y hy => absurd hy List.not_mem_nil
  | cons hxq _ ih =>
    refine List.forall_mem_cons.mpr ⟨⟨_, List.mem_cons_self, hxq⟩, fun y hy => ?_⟩
    obtain ⟨q, hq, hyq⟩ := ih y hy
    exact ⟨q, List.mem_cons_of_mem _ hq, hyq⟩

theorem index_lt_of_mem {front back : List (OffsetRange × Nat)}
    (h : ranges.zipIdx = front ++ x :: back) : ∀ y ∈ back, x.2 < y.2 := by
  have hsorted : (ranges.zipIdx.map Prod.snd).Pairwise (· < ·) := by
    rw [List.zipIdx_map_snd]
    exact List.pairwise_lt_range'
  rw [h, List.pairwise_map] at hsorted
  exact (List.pairwise_cons.mp (List.pairwise_append.mp hsorted).2.1).1

theorem mem_of_index_lt {front back : List (OffsetRange × Nat)}
    (h : ranges.zipIdx = front ++ x :: back) : ∀ y ∈ ranges.zipIdx, y.2 < x.2 → y ∈ front := by
  intro y hy hlt
  rw [h, List.mem_append, List.mem_cons] at hy
  rcases hy with hy | rfl | hy
  · exact hy
  · omega
  · have hgt := index_lt_of_mem h y hy
    omega

theorem forall₂_step (h : IsNext edit m s e rest) (hzip : ranges.zipIdx = before ++ after)
    (hbefore : ∀ y ∈ before, y.1.endExclusive < (m.next s e).stretch)
    (hopen : List.Forall₂ (Open edit ranges m) after queue) (hsorted : SortedRanges queue)
    (hreach : ∀ q ∈ queue.head?, e.replaceRange.start ≤ q.endExclusive) :
    List.Forall₂ (Open edit ranges (m.next s e)) after (stepRanges e queue) := by
  cases hopen with
  | nil => exact .nil
  | cons hxq htail =>
    rename_i x q xs qs
    have hq := hreach q rfl
    have hlater := (List.pairwise_cons.mp hsorted).1
    have hqs : ∀ q' ∈ qs, e.replaceRange.start ≤ q'.start := fun q' hq' => hq.trans (hlater q' hq')
    have hle := h.le_start
    have hrange := e.replaceRange.le
    have hstart := hxq.tail.start_iff e.replaceRange.endExclusive (by omega)
    rw [stepRanges]
    by_cases hmeets : q.start ≤ e.replaceRange.endExclusive
    · have hx : MeetsStretch edit m.done.length x.1 :=
        (h.meetsStretch_iff x.1).mpr ⟨hxq.stretch_le_next h hq, hstart.mp hmeets⟩
      have howns : Belongs edit ranges x (.inserted m.done.length) := by
        refine ⟨hx, fun y hy hlt hy' => ?_⟩
        have hy := hbefore y (mem_of_index_lt hzip y hy hlt)
        have hreaches := (h.meetsStretch_iff y.1).mp hy'
        omega
      rw [if_pos hmeets]
      refine .cons (hxq.first h hq hmeets howns) (forall₂_later h htail hqs fun y hy hy' => ?_)
      exact hy'.2 x (by rw [hzip]; exact List.mem_append_right _ List.mem_cons_self) (index_lt_of_mem hzip y hy) hx
    · have hno {y : OffsetRange × Nat} (hy : e.replaceRange.endExclusive < y.1.start) :
          ¬Belongs edit ranges y (.inserted m.done.length) := fun hy' => by
        have hreaches := (h.meetsStretch_iff y.1).mp hy'.1
        omega
      rw [if_neg hmeets]
      refine .cons (hxq.later h (by omega) (hno (by omega))) (forall₂_later h htail hqs fun y hy => hno ?_)
      obtain ⟨q', hq', hyq⟩ := exists_of_forall₂ htail y hy
      have hstart' := hyq.tail.start_iff e.replaceRange.endExclusive (by omega)
      have hle' := hlater q' hq'
      have hqle := q.le
      omega

theorem sorted_step {front back : List OffsetRange} {k : Int}
    (hsorted : SortedRanges (front ++ back.map (·.delta k)))
    (hfront : ∀ r ∈ front, r.endExclusive < e.replaceRange.start + k) :
    SortedRanges (front ++ (stepRanges e back).map (·.delta (k + growth e))) := by
  obtain ⟨hdone, hback, hcross⟩ := List.pairwise_append.mp hsorted
  have hrange := e.replaceRange.le
  have hgrowth := growth_eq e
  refine List.pairwise_append.mpr ⟨hdone, ?_, fun r hr r' hr' => ?_⟩
  · refine List.pairwise_map.mpr ((sorted_stepRanges (sorted_of_map_delta hback)).imp fun hle => ?_)
    rw [OffsetRange.delta_endExclusive, OffsetRange.delta_start]
    omega
  · obtain ⟨q', hq', rfl⟩ := List.mem_map.mp hr'
    have hlt := hfront r hr
    rw [OffsetRange.delta_start]
    cases back with
    | nil => exact absurd hq' List.not_mem_nil
    | cons q back =>
      have hle := hcross r hr _ (List.mem_map_of_mem List.mem_cons_self)
      rw [OffsetRange.delta_start] at hle
      rcases List.mem_cons.mp hq' with rfl | hq'
      · split_ifs
        · simp only [firstRange]
          omega
        · simp only [laterRange]
          omega
      · obtain ⟨q'', -, rfl⟩ := List.mem_map.mp hq'
        simp only [laterRange]
        omega

theorem Invariant.step (hi : Invariant edit ranges m before after result queue)
    (h : IsNext edit m s e rest) :
    ∃ (done queue' : List OffsetRange) (before' after' : List (OffsetRange × Nat)),
      applyEditsLoop (e :: rest) queue result m.offset =
        applyEditsLoop rest (stepRanges e queue') (result ++ done.map (·.delta m.offset)) (m.next s e).offset ∧
      Invariant edit ranges (m.next s e) before' after' (result ++ done.map (·.delta m.offset))
        (stepRanges e queue') := by
  obtain ⟨done, queue', hqueue, htake, hdone, hreach⟩ := @takeBefore_spec e m.offset queue result
  obtain ⟨meeting, left, hqueue', hmeet, hmeeting, hleft⟩ := @takeMeeting_spec e queue' []
  have hopened := hi.opened
  have hsorted := hi.sorted
  rw [hqueue] at hopened
  rw [hqueue, List.map_append, ← List.append_assoc] at hsorted
  have hleft_sorted := sorted_of_map_delta (List.pairwise_append.mp hsorted).2.1
  have hback := putBack_eq (hqueue' ▸ hleft_sorted) hmeeting hleft (hqueue' ▸ hreach)
  have hfirst := List.forall₂_take_append _ _ _ hopened
  have hlast := List.forall₂_drop_append _ _ _ hopened
  generalize hbefore' : after.take done.length = first at hfirst
  generalize hafter' : after.drop done.length = last at hlast
  have hzip : ranges.zipIdx = (before ++ first) ++ last := by
    rw [hi.zipIdx_eq, List.append_assoc, ← hbefore', ← hafter', List.take_append_drop]
  have hfirst' : List.Forall₂ (Done edit ranges (m.next s e)) first
      (done.map (·.delta m.offset)) := by
    rw [List.forall₂_map_right_iff]
    clear hbefore' hzip hqueue htake hopened hsorted hafter'
    induction hfirst with
    | nil => exact .nil
    | cons hxq _ ih =>
      rw [List.forall_mem_cons] at hdone
      exact .cons (hxq.done h hdone.1) (ih hdone.2)
  have hbefore := List.rel_append (hi.done.imp fun _ _ hd => hd.next h) hfirst'
  have hle := h.le_start
  refine ⟨done, queue', before ++ first, last, ?_, hzip, hbefore, ?_, ?_⟩
  · rw [applyEditsLoop, htake]
    simp only [hmeet, List.nil_append, hback]
    rw [← hqueue']
    rfl
  · refine forall₂_step h hzip (fun y hy => ?_) hlast hleft_sorted hreach
    obtain ⟨r, -, hyr⟩ := exists_of_forall₂ hbefore y hy
    exact hyr.lt_stretch
  · refine sorted_step hsorted fun r hr => ?_
    rcases List.mem_append.mp hr with hr | hr
    · obtain ⟨y, -, hyr⟩ := exists_of_forall₂ hi.done.flip r hr
      have hlt := hyr.lt
      omega
    · obtain ⟨q, hq, rfl⟩ := List.mem_map.mp hr
      have hlt := hdone q hq
      rw [OffsetRange.delta_endExclusive]
      omega

theorem rest_cases (hm : m.Valid edit) {k : Nat} {c : CodeUnit} {origin : Origin}
    (hk : (m.edited ++ (lettersOf s).drop m.p.toNat)[k]? = some (c, origin)) :
    m.edited[k]? = some (c, origin) ∨
      ∃ y : Nat, origin = .kept y ∧ (y : Int) = k - m.offset ∧ m.p ≤ y := by
  have hlength := hm.length_eq
  rw [List.getElem?_append] at hk
  split_ifs at hk with hfront
  · exact .inl hk
  · rw [List.getElem?_drop] at hk
    refine .inr ⟨_, getElem?_lettersOf hk, ?_, ?_⟩ <;> omega

theorem Done.holds_rest (hd : Done edit ranges m x q) (hm : m.Valid edit) :
    Holds edit ranges (m.edited ++ (lettersOf s).drop m.p.toNat) x q := by
  intro k c origin hk
  rcases rest_cases hm hk with hk | ⟨y, rfl, hy, hpy⟩
  · exact hd.holds k c origin hk
  · have hlt := hd.lt
    have hstretch := hd.lt_stretch
    have hp := hm.stretch_le
    simp only [Belongs]
    omega

theorem Open.holds_rest (ho : Open edit ranges m x q) (hm : m.Valid edit) :
    Holds edit ranges (m.edited ++ (lettersOf s).drop m.p.toNat) x (q.delta m.offset) := by
  intro k c origin hk
  rcases rest_cases hm hk with hk | ⟨y, rfl, hy, hpy⟩
  · exact ho.holds k c origin hk
  · have htail := ho.tail.contains_iff hpy
    simp only [Belongs, OffsetRange.delta_start, OffsetRange.delta_endExclusive]
    omega

theorem Invariant.run (hi : Invariant edit ranges m before after result queue) (hm : m.Valid edit)
    (hrest : edit.replacements = m.done ++ rest)
    (hfit : ChainTo (max m.p 0) ((StringReplacement.meaning id).splices rest) s.length) :
    ∃ result', applyEditsLoop rest queue result m.offset = .ok result' ∧ SortedRanges result' ∧
      List.Forall₂ (Holds edit ranges (m.edited ++ splice (max m.p 0)
        (originSplices m.done.length rest) ((lettersOf s).drop (max m.p 0).toNat)))
        ranges.zipIdx result' := by
  have hmax : (max m.p 0).toNat = m.p.toNat := by omega
  induction rest generalizing m before after result queue with
  | nil =>
    refine ⟨_, rfl, hi.sorted, ?_⟩
    rw [hi.zipIdx_eq, originSplices, splice_nil, hmax]
    refine List.rel_append (hi.done.imp fun _ _ hd => hd.holds_rest hm) ?_
    rw [List.forall₂_map_right_iff]
    exact hi.opened.imp fun _ _ ho => ho.holds_rest hm
  | cons e rest ih =>
    obtain ⟨hstart, hrange, hfit⟩ := hfit
    rw [StringReplacement.splice_meaning_id] at hstart hrange hfit
    dsimp only at hstart hrange hfit
    have hnext : IsNext edit m s e rest := ⟨hm, hrest, by omega, by omega, hfit.le⟩
    obtain ⟨done, queue', before', after', hloop, hi'⟩ := hi.step hnext
    have hp : max (m.next s e).p 0 = e.replaceRange.endExclusive := by
      simp only [Moment.next]
      omega
    obtain ⟨result', hresult, hsorted, hholds⟩ := ih hi' hnext.valid_next
      (by rw [hrest, Moment.next, List.append_assoc, List.singleton_append]) (by rwa [hp])
      (by rw [hp]; simp only [Moment.next])
    refine ⟨result', hloop.trans hresult, hsorted, ?_⟩
    rw [hp] at hholds
    rw [originSplices, Lib.Splicing.splice_cons_drop _ _ (by omega) hstart hrange, hmax]
    simp only [Moment.next, List.length_append, List.length_singleton, List.append_assoc] at hholds ⊢
    exact hholds

theorem exists_lower (ranges : List OffsetRange) :
    ∃ p : Int, p < 0 ∧ ∀ r ∈ ranges, p ≤ r.endExclusive := by
  induction ranges with
  | nil => exact ⟨-1, by omega, fun r hr => absurd hr List.not_mem_nil⟩
  | cons r ranges ih =>
    obtain ⟨p, hp, hall⟩ := ih
    refine ⟨min p r.endExclusive, by omega, List.forall_mem_cons.mpr ⟨min_le_right _ _, ?_⟩⟩
    exact fun q hq => (min_le_left _ _).trans (hall q hq)

theorem Invariant.initial {p : Int} (hsorted : SortedRanges ranges)
    (hp : ∀ r ∈ ranges, p ≤ r.endExclusive) :
    Invariant edit ranges ⟨[], p, p, 0, []⟩ [] ranges.zipIdx [] ranges where
  zipIdx_eq := rfl
  done := .nil
  opened := by
    conv => arg 3; rw [← List.zipIdx_map_fst 0 ranges]
    rw [List.forall₂_map_right_iff, List.forall₂_same]
    intro x hx
    have hmem : x.1 ∈ ranges := List.fst_mem_of_mem_zipIdx hx
    exact ⟨⟨fun _ _ => Iff.rfl, fun _ _ => Iff.rfl, hp _ hmem⟩, hp _ hmem, fun _ _ _ hk => nomatch hk⟩
  sorted := by
    refine List.pairwise_map.mpr (hsorted.imp fun hle => ?_)
    rw [OffsetRange.delta_endExclusive, OffsetRange.delta_start]
    omega

theorem get_of_forall₂ {α β : Type} {R : α → β → Prop} {l : List α} {l' : List β}
    (h : List.Forall₂ R l l') : ∀ {i : Nat} {x : α} {y : β}, l[i]? = some x → l'[i]? = some y → R x y := by
  induction h with
  | nil => exact fun hx => nomatch hx
  | cons hxy _ ih =>
    intro i x y hx hy
    cases i with
    | zero =>
      obtain rfl := Option.some.inj hx
      obtain rfl := Option.some.inj hy
      exact hxy
    | succ i => exact ih hx hy

/-- Sorted ranges follow a valid edit; where replaced ranges touch each other, the new text of one
goes to the first range that meets the stretch of them up to it. -/
theorem applyEditsToRanges_follows (ranges : List OffsetRange) (edit : StringEdit) (s : JsString)
    (hsorted : SortedRanges ranges) (hvalid : edit.ValidOn s.length) :
    (edit.applyWithOrigins s).map Prod.fst = edit.apply s ∧
      ∃ result, applyEditsToRanges ranges edit = .ok result ∧
        Follows (MeetsStretch edit) edit s ranges result := by
  refine ⟨applyWithOrigins_fst hvalid, ?_⟩
  obtain ⟨p, hneg, hp⟩ := exists_lower ranges
  have hmax : max p 0 = 0 := by omega
  obtain ⟨result, hresult, hsorted', hholds⟩ := (Invariant.initial hsorted hp).run
    ⟨le_rfl, by simp only [List.length_nil]; omega, .inl ⟨rfl, hneg⟩⟩ rfl
    (by simp only [hmax]; exact BaseEdit.chainTo_of_validOn (StringReplacement.meaning id) hvalid)
  simp only [hmax, List.length_nil, Int.toNat_zero, List.drop_zero, List.nil_append] at hholds
  refine ⟨result, hresult, ?_, hsorted', fun i r r' hr hr' k c origin hk => ?_⟩
  · rw [← hholds.length_eq, List.length_zipIdx]
  · have hzip : ranges.zipIdx[i]? = some (r, i) := by
      rw [List.getElem?_zipIdx, hr, zero_add]
      rfl
    rw [OffsetRange.contains_iff, get_of_forall₂ hholds hzip hr' k c origin hk]
    cases origin with
    | kept offset => exact (OffsetRange.contains_iff r offset).symm
    | inserted j =>
      refine and_congr_right fun _ => ⟨fun hno i' r'' hlt hr'' => ?_, fun hno y hy hlt => ?_⟩
      · exact hno (r'', i') (List.mem_zipIdx_iff_getElem?.mpr hr'') hlt
      · exact hno y.2 y.1 hlt (List.mem_zipIdx_iff_getElem?.mp hy)

/-- Two ranges around a replacement inside the first one and an insertion between them. -/
theorem applyEditsToRanges_follows_two :
    let edit : StringEdit := ⟨[⟨⟨1, 2, by decide⟩, [120, 121]⟩, ⟨⟨3, 3, le_rfl⟩, [122]⟩], by decide⟩
    (edit.applyWithOrigins [97, 98, 99, 100]).map Prod.fst = edit.apply [97, 98, 99, 100] ∧
      ∃ result, applyEditsToRanges [⟨0, 3, by decide⟩, ⟨3, 4, by decide⟩] edit = .ok result ∧
        Follows (MeetsStretch edit) edit [97, 98, 99, 100]
          [⟨0, 3, by decide⟩, ⟨3, 4, by decide⟩] result := by
  intro edit
  exact applyEditsToRanges_follows _ edit _ (by simp [SortedRanges]) (by decide)

/-- The range of the "a" in "ab" is left empty by the deletion of both letters; it then gets the
text that is inserted behind the "b". -/
theorem applyEditsToRanges_not_meetsReplaced :
    ¬∀ (ranges : List OffsetRange) (edit : StringEdit) (s : JsString), SortedRanges ranges →
      edit.ValidOn s.length → ∃ result, applyEditsToRanges ranges edit = .ok result ∧
        Follows (MeetsReplaced edit) edit s ranges result := by
  intro hall
  obtain ⟨result, hresult, hfollows⟩ := hall [⟨0, 1, by decide⟩]
    ⟨[⟨⟨0, 2, by decide⟩, []⟩, ⟨⟨2, 2, le_rfl⟩, [121]⟩], by decide⟩ [97, 98]
    (List.pairwise_singleton _ _) (by decide)
  have hrun : applyEditsToRanges [⟨0, 1, by decide⟩]
      ⟨[⟨⟨0, 2, by decide⟩, []⟩, ⟨⟨2, 2, le_rfl⟩, [121]⟩], by decide⟩ =
      .ok [⟨0, 1, by decide⟩] := by decide
  obtain rfl := Except.ok.inj (hrun.symm.trans hresult)
  have hcontents := hfollows.contents 0 _ _ rfl rfl 0 121 (.inserted 1) rfl
  obtain ⟨⟨e, he, hmeets⟩, -⟩ := hcontents.mp (by decide)
  obtain rfl := Option.some.inj he
  exact absurd hmeets (by decide)

end StringEdit

end Gavea.Edits
