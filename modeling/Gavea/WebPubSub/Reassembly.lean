import Gavea.WebPubSub.Chunking

namespace Gavea.WebPubSub

open Gavea.Lib Gavea.Lib.Js Gavea.Base List

namespace ChunkEnvelope

def groupId? : ChunkEnvelope → Option JsString
  | .message _ => none
  | .chunk groupId _ _ _ => some groupId

def total : ChunkEnvelope → Nat
  | .message _ => 0
  | .chunk _ _ total _ => total

/-- The number of a segment with its bytes. -/
def content : ChunkEnvelope → Int × List UInt8
  | .message _ => (0, [])
  | .chunk _ seq _ bytes => (seq, (decodeBase64 bytes).toOption.getD [])

end ChunkEnvelope

def arrived (groupId : JsString) (seen : List ChunkEnvelope) : List ChunkEnvelope :=
  seen.filter fun e => e.groupId? == some groupId

def isOpen (seen : List ChunkEnvelope) (groupId : JsString) : Bool :=
  (arrived groupId seen).any fun e => decide ((arrived groupId seen).length < e.total)

def openGroups (seen : List ChunkEnvelope) : List JsString :=
  ((seen.filterMap ChunkEnvelope.groupId?).dedup).filter (isOpen seen)

def heldOf (seen : List ChunkEnvelope) (groupId : JsString) : Nat :=
  ((arrived groupId seen).map fun e => e.content.2.length).sum

/-- The decoded bytes of the segments that wait for others. -/
def heldBytes (seen : List ChunkEnvelope) : Nat := ((openGroups seen).map (heldOf seen)).sum

theorem arrived_append (groupId : JsString) (s t : List ChunkEnvelope) :
    arrived groupId (s ++ t) = arrived groupId s ++ arrived groupId t :=
  filter_append s t

theorem arrived_concat_of_eq {groupId : JsString} {e : ChunkEnvelope}
    (h : e.groupId? = some groupId) (seen : List ChunkEnvelope) :
    arrived groupId (seen ++ [e]) = arrived groupId seen ++ [e] := by
  simp [arrived, h]

theorem arrived_concat_of_ne {groupId : JsString} {e : ChunkEnvelope}
    (h : e.groupId? ≠ some groupId) (seen : List ChunkEnvelope) :
    arrived groupId (seen ++ [e]) = arrived groupId seen := by
  simp [arrived, h]

theorem heldOf_concat_of_ne {groupId : JsString} {e : ChunkEnvelope}
    (h : e.groupId? ≠ some groupId) (seen : List ChunkEnvelope) :
    heldOf (seen ++ [e]) groupId = heldOf seen groupId := by
  rw [heldOf, arrived_concat_of_ne h, heldOf]

theorem isOpen_concat_of_ne {groupId : JsString} {e : ChunkEnvelope}
    (h : e.groupId? ≠ some groupId) (seen : List ChunkEnvelope) :
    isOpen (seen ++ [e]) groupId = isOpen seen groupId := by
  rw [isOpen, arrived_concat_of_ne h, isOpen]

theorem mem_openGroups {seen : List ChunkEnvelope} {groupId : JsString} :
    groupId ∈ openGroups seen ↔ isOpen seen groupId = true := by
  rw [openGroups, mem_filter, mem_dedup, and_iff_right_iff_imp]
  intro h
  obtain ⟨e, he, -⟩ := any_eq_true.mp h
  obtain ⟨hmem, hgroup⟩ := mem_filter.mp he
  exact mem_filterMap.mpr ⟨e, hmem, eq_of_beq hgroup⟩

theorem isOpen_iff {seen : List ChunkEnvelope} {groupId : JsString} {total : Nat}
    (h : ∀ e ∈ arrived groupId seen, e.total = total) :
    isOpen seen groupId = true ↔
      arrived groupId seen ≠ [] ∧ (arrived groupId seen).length < total := by
  rw [isOpen, any_eq_true]
  constructor
  · rintro ⟨e, he, hlt⟩
    rw [decide_eq_true_eq, h e he] at hlt
    exact ⟨ne_nil_of_mem he, hlt⟩
  · rintro ⟨hne, hlt⟩
    obtain ⟨e, he⟩ := exists_mem_of_ne_nil _ hne
    exact ⟨e, he, by rw [decide_eq_true_eq, h e he]; exact hlt⟩

theorem nodup_openGroups (seen : List ChunkEnvelope) : (openGroups seen).Nodup := (nodup_dedup _).filter _

structure Collects (seen : List ChunkEnvelope) (groupId : JsString) (buffer : ReassemblyBuffer) :
    Prop where
  received : buffer.received = (arrived groupId seen).length
  segments : buffer.segments = (arrived groupId seen).map ChunkEnvelope.content
  bytes : buffer.accumulatedBytes = heldOf seen groupId
  total : ∀ e ∈ arrived groupId seen, (e.total : Int) = buffer.total

/-- The buffers of a reassembler are those of the given groups and hold what arrived of them. -/
structure Tracks (seen : List ChunkEnvelope) (inFlight : JsString → Prop) (r : Reassembler) :
    Prop where
  nodup : (r.buffers.map Prod.fst).Nodup
  keys : ∀ groupId, groupId ∈ r.buffers.map Prod.fst ↔ inFlight groupId
  collects : ∀ entry ∈ r.buffers, Collects seen entry.1 entry.2
  bytes : r.accumulatedBytes = ((r.buffers.map fun entry => entry.2.accumulatedBytes).sum : ℕ)

theorem Tracks.congr {seen : List ChunkEnvelope} {inFlight inFlight' : JsString → Prop}
    {r : Reassembler} (h : Tracks seen inFlight r) (heq : ∀ g, inFlight g ↔ inFlight' g) :
    Tracks seen inFlight' r :=
  ⟨h.nodup, fun g => (h.keys g).trans (heq g), h.collects, h.bytes⟩

theorem Tracks.perm_openGroups {seen : List ChunkEnvelope} {r : Reassembler}
    (h : Tracks seen (fun g => isOpen seen g = true) r) :
    List.Perm (r.buffers.map Prod.fst) (openGroups seen) := by
  rw [perm_ext_iff_of_nodup h.nodup (nodup_openGroups seen)]
  intro g
  rw [h.keys, mem_openGroups]

theorem Tracks.length_buffers {seen : List ChunkEnvelope} {r : Reassembler}
    (h : Tracks seen (fun g => isOpen seen g = true) r) :
    r.buffers.length = (openGroups seen).length := by
  have hlen := h.perm_openGroups.length_eq
  rwa [length_map] at hlen

theorem Tracks.accumulatedBytes_eq {seen : List ChunkEnvelope} {r : Reassembler}
    (h : Tracks seen (fun g => isOpen seen g = true) r) :
    r.accumulatedBytes = (heldBytes seen : ℕ) := by
  have hmap : (r.buffers.map fun entry => entry.2.accumulatedBytes) =
      (r.buffers.map Prod.fst).map (heldOf seen) := by
    rw [map_map]
    exact map_congr_left fun entry hentry => (h.collects entry hentry).bytes
  rw [h.bytes, hmap, heldBytes, (h.perm_openGroups.map (heldOf seen)).sum_eq]

theorem tracks_empty : Tracks [] (fun g => isOpen [] g = true) Reassembler.empty where
  nodup := nodup_nil
  keys g := by simp [Reassembler.empty, isOpen, arrived]
  collects entry hentry := absurd hentry not_mem_nil
  bytes := rfl

theorem Tracks.concat_message {seen : List ChunkEnvelope} {r : Reassembler}
    (h : Tracks seen (fun g => isOpen seen g = true) r) (data : Json) :
    Tracks (seen ++ [.message data]) (fun g => isOpen (seen ++ [.message data]) g = true) r := by
  have hother : ∀ g, (ChunkEnvelope.message data).groupId? ≠ some g := fun g hg => by cases hg
  refine ⟨h.nodup, fun g => ?_, fun entry hentry => ?_, h.bytes⟩
  · rw [isOpen_concat_of_ne (hother g), h.keys]
  · have hold := h.collects entry hentry
    constructor
    · rw [arrived_concat_of_ne (hother _)]
      exact hold.received
    · rw [arrived_concat_of_ne (hother _)]
      exact hold.segments
    · rw [heldOf_concat_of_ne (hother _)]
      exact hold.bytes
    · rw [arrived_concat_of_ne (hother _)]
      exact hold.total

namespace Reassembler

theorem get_eq_none_iff {r : Reassembler} {groupId : JsString} :
    r.get groupId = none ↔ groupId ∉ r.buffers.map Prod.fst := by
  rw [get, Option.map_eq_none_iff, find?_eq_none, mem_map]
  constructor
  · rintro h ⟨entry, hentry, rfl⟩
    exact h entry hentry (beq_self_eq_true _)
  · intro h entry hentry heq
    exact h ⟨entry, hentry, eq_of_beq heq⟩

theorem get_eq_some_iff {r : Reassembler} (h : (r.buffers.map Prod.fst).Nodup)
    {groupId : JsString} {buffer : ReassemblyBuffer} :
    r.get groupId = some buffer ↔ (groupId, buffer) ∈ r.buffers :=
  find?_key_eq_some_iff h

theorem ingest_chunk (o : ReassemblerOptions) (now : Int) (r : Reassembler) {groupId : JsString}
    {seq total : Nat} (bytes : JsString) (hgroup : groupId ≠ []) (hpos : 1 ≤ total)
    (hmax : total ≤ o.maxSegmentsPerGroup) :
    r.ingest o now (ChunkEnvelope.chunk groupId seq total bytes).toJson =
      match r.openBuffer o now groupId total with
      | (.error e, r) => (.error e, r)
      | (.ok buffer, r) =>
        r.acceptSegment o groupId buffer total (some (.number (Number.ofNat seq))) bytes := by
  have hlen : groupId.length ≠ 0 := fun hzero => hgroup (length_eq_zero_iff.mp hzero)
  have hkind : (ChunkEnvelope.chunk groupId seq total bytes).toJson.get? (ofText "kind") =
      some (.string (ofText "chunk")) := rfl
  have htotal : (ChunkEnvelope.chunk groupId seq total bytes).toJson.get? (ofText "total") =
      some (.number (Number.ofNat total)) := rfl
  have hid : (ChunkEnvelope.chunk groupId seq total bytes).toJson.get? (ofText "group_id") =
      some (.string groupId) := rfl
  have hbytes : (ChunkEnvelope.chunk groupId seq total bytes).toJson.get? (ofText "bytes") = some (.string bytes) := rfl
  have hseq : (ChunkEnvelope.chunk groupId seq total bytes).toJson.get? (ofText "seq") =
      some (.number (Number.ofNat seq)) := rfl
  have hchunk : r.ingest o now (ChunkEnvelope.chunk groupId seq total bytes).toJson =
      r.ingestChunk o now (ChunkEnvelope.chunk groupId seq total bytes).toJson := by
    have hmessage : ofText "chunk" ≠ ofText "message" := by decide
    unfold ingest
    rw [hkind]
    simp only [hmessage, if_false, if_true, ChunkEnvelope.toJson]
  rw [hchunk]
  unfold ingestChunk
  rw [htotal, hid, hbytes, hseq]
  have hge : ¬ (total : Int) < 1 := by omega
  have hle : ¬ (total : Int) > o.maxSegmentsPerGroup := by omega
  rcases hopen : r.openBuffer o now groupId total with ⟨e | buffer, r'⟩ <;>
    simp only [integer?, Number.toInt?_ofNat, hlen, hge, hle, if_false, hopen]

theorem acceptSegment_segment (o : ReassemblerOptions) (r : Reassembler) (groupId : JsString)
    (buffer : ReassemblyBuffer) {seq total : Nat} (decoded : List UInt8) (hseq : seq < total)
    (hnew : ∀ s ∈ buffer.segments, s.1 ≠ seq) :
    r.acceptSegment o groupId buffer total (some (.number (Number.ofNat seq)))
        (encodeBase64 decoded true false) =
      r.addSegment o groupId buffer seq decoded := by
  have hany : (buffer.segments.any fun s => s.1 == (seq : Int)) = false := by
    rw [any_eq_false]
    intro s hs heq
    exact hnew s hs (eq_of_beq heq)
  unfold acceptSegment
  simp only [integer?, Number.toInt?_ofNat, hany, canonicalBase64_encodeBase64,
    decodeBase64_encodeBase64, Bool.false_eq_true, if_false,
    show ¬ ((seq : Int) < 0 ∨ (seq : Int) ≥ total) by omega, reduceCtorEq]

theorem dropBuffer_eq {r : Reassembler} (h : (r.buffers.map Prod.fst).Nodup) {groupId : JsString}
    {buffer : ReassemblyBuffer} (hmem : (groupId, buffer) ∈ r.buffers) :
    r.dropBuffer groupId = ⟨r.buffers.filter fun entry => entry.1 != groupId,
      r.accumulatedBytes - buffer.accumulatedBytes⟩ := by
  rw [dropBuffer, (get_eq_some_iff h).mpr hmem]

end Reassembler

section Steps

variable {seen : List ChunkEnvelope} {inFlight : JsString → Prop} {r : Reassembler}
  {groupId : JsString} {buffer : ReassemblyBuffer}

theorem Tracks.rest (h : Tracks seen inFlight r) (hmem : (groupId, buffer) ∈ r.buffers) :
    (∀ g, g ∈ (r.buffers.filter fun entry => entry.1 != groupId).map Prod.fst ↔ inFlight g ∧ g ≠ groupId) ∧
    ((r.buffers.map fun entry => entry.2.accumulatedBytes).sum : ℕ) =
      buffer.accumulatedBytes + ((r.buffers.filter fun entry => entry.1 != groupId).map
        fun entry => entry.2.accumulatedBytes).sum := by
  refine ⟨fun g => ?_, ?_⟩
  · rw [← h.keys, mem_map, mem_map]
    constructor
    · rintro ⟨entry, hentry, rfl⟩
      obtain ⟨hin, hne⟩ := mem_filter.mp hentry
      exact ⟨⟨entry, hin, rfl⟩, bne_iff_ne.mp hne⟩
    · rintro ⟨⟨entry, hentry, rfl⟩, hne⟩
      exact ⟨entry, mem_filter.mpr ⟨hentry, bne_iff_ne.mpr hne⟩, rfl⟩
  · have hperm := perm_cons_filter_key h.nodup hmem
    rw [(hperm.map fun entry => entry.2.accumulatedBytes).sum_eq, map_cons, sum_cons]

theorem Tracks.drop (h : Tracks seen inFlight r) (hmem : (groupId, buffer) ∈ r.buffers) :
    Tracks seen (fun g => inFlight g ∧ g ≠ groupId) (r.dropBuffer groupId) := by
  obtain ⟨hkeys, hsum⟩ := h.rest hmem
  rw [Reassembler.dropBuffer_eq h.nodup hmem]
  refine ⟨?_, hkeys, fun entry hentry => h.collects entry (mem_filter.mp hentry).1, ?_⟩
  · exact h.nodup.sublist (List.Sublist.map _ filter_sublist)
  · rw [h.bytes, hsum]
    push_cast
    ring

theorem Tracks.replace (h : Tracks seen inFlight r) (hmem : (groupId, buffer) ∈ r.buffers)
    {e : ChunkEnvelope} (he : e.groupId? = some groupId) {buffer' : ReassemblyBuffer} {n : Nat}
    (hbuffer : Collects (seen ++ [e]) groupId buffer')
    (hbytes : buffer'.accumulatedBytes = buffer.accumulatedBytes + n) :
    Tracks (seen ++ [e]) inFlight
      ⟨modifyFirst (fun entry => entry.1 == groupId) (fun _ => (groupId, buffer')) r.buffers,
        r.accumulatedBytes + n⟩ := by
  obtain ⟨hkeys, hsum⟩ := h.rest hmem
  have hperm := modifyFirst_key_perm h.nodup hmem buffer'
  have hin : inFlight groupId := (h.keys groupId).mp (mem_map_of_mem (f := Prod.fst) hmem)
  refine ⟨?_, fun g => ?_, fun entry hentry => ?_, ?_⟩
  · rw [(hperm.map Prod.fst).nodup_iff, map_cons, nodup_cons]
    refine ⟨fun hg => ((hkeys groupId).mp hg).2 rfl, ?_⟩
    exact h.nodup.sublist (List.Sublist.map _ filter_sublist)
  · rw [(hperm.map Prod.fst).mem_iff, map_cons, mem_cons, hkeys]
    constructor
    · rintro (rfl | ⟨hg, -⟩)
      · exact hin
      · exact hg
    · intro hg
      by_cases hne : g = groupId
      · exact Or.inl hne
      · exact Or.inr ⟨hg, hne⟩
  · rcases mem_cons.mp (hperm.mem_iff.mp hentry) with rfl | hrest
    · exact hbuffer
    · obtain ⟨hentry', hne⟩ := mem_filter.mp hrest
      have hother : e.groupId? ≠ some entry.1 := by
        rw [he]
        exact fun heq => (bne_iff_ne.mp hne) (Option.some.inj heq).symm
      have hold := h.collects entry hentry'
      constructor
      · rw [arrived_concat_of_ne hother]
        exact hold.received
      · rw [arrived_concat_of_ne hother]
        exact hold.segments
      · rw [heldOf_concat_of_ne hother]
        exact hold.bytes
      · rw [arrived_concat_of_ne hother]
        exact hold.total
  · rw [(hperm.map fun entry => entry.2.accumulatedBytes).sum_eq, map_cons, sum_cons, hbytes, h.bytes, hsum]
    push_cast
    ring

theorem Tracks.openBuffer (h : Tracks seen inFlight r) (o : ReassemblerOptions) (now : Int)
    {total : Nat} (hroom : inFlight groupId ∨ r.buffers.length < o.maxConcurrentGroups)
    (hnew : ¬ inFlight groupId → arrived groupId seen = [])
    (hold : inFlight groupId → arrived groupId seen ≠ [])
    (htotal : ∀ e ∈ arrived groupId seen, e.total = total) :
    ∃ buffer r', r.openBuffer o now groupId total = (.ok buffer, r') ∧
      Tracks seen (fun g => inFlight g ∨ g = groupId) r' ∧ (groupId, buffer) ∈ r'.buffers ∧
      buffer.total = total ∧ r'.accumulatedBytes = r.accumulatedBytes := by
  unfold Reassembler.openBuffer
  cases hget : r.get groupId with
  | none =>
    have hnot : groupId ∉ r.buffers.map Prod.fst := Reassembler.get_eq_none_iff.mp hget
    rw [h.keys] at hnot
    have hlen : ¬ r.buffers.length ≥ o.maxConcurrentGroups := by
      rcases hroom with hin | hlt
      · exact absurd hin hnot
      · omega
    have harrived := hnew hnot
    refine ⟨_, _, if_neg hlen, ⟨?_, fun g => ?_, fun entry hentry => ?_, ?_⟩, ?_, rfl, rfl⟩
    · rw [map_append, nodup_append_comm]
      simpa using ⟨fun b hb => hnot ((h.keys groupId).mp (mem_map.mpr ⟨_, hb, rfl⟩)), h.nodup⟩
    · rw [map_append, mem_append, h.keys]
      simp
    · rcases mem_append.mp hentry with hentry | hentry
      · exact h.collects entry hentry
      · rw [mem_singleton.mp hentry]
        constructor <;> simp [harrived, heldOf]
    · rw [h.bytes, map_append, sum_append]
      simp
    · simp
  | some buffer =>
    have hmem := (Reassembler.get_eq_some_iff h.nodup).mp hget
    have hin : inFlight groupId := (h.keys groupId).mp (mem_map_of_mem (f := Prod.fst) hmem)
    obtain ⟨e, hrest⟩ := exists_mem_of_ne_nil _ (hold hin)
    have hbuffer : buffer.total = total := by
      have hcollects := (h.collects _ hmem).total e hrest
      rw [← hcollects, htotal e hrest]
    have hkeys : ∀ g, inFlight g ∨ g = groupId ↔ inFlight g := by
      intro g
      constructor
      · rintro (hg | rfl)
        · exact hg
        · exact hin
      · exact Or.inl
    refine ⟨buffer, r, ?_, ⟨h.nodup, fun g => ?_, h.collects, h.bytes⟩, hmem, hbuffer, rfl⟩
    · simp only [hbuffer, ne_eq, not_true_eq_false, if_false]
    · rw [hkeys, h.keys]

theorem Collects.concat (h : Collects seen groupId buffer) {e : ChunkEnvelope}
    (he : e.groupId? = some groupId) (htotal : (e.total : Int) = buffer.total) :
    Collects (seen ++ [e]) groupId { buffer with
      segments := buffer.segments ++ [e.content]
      received := buffer.received + 1
      accumulatedBytes := buffer.accumulatedBytes + e.content.2.length } := by
  constructor
  · rw [arrived_concat_of_eq he, length_append, ← h.received]
    rfl
  · rw [arrived_concat_of_eq he, map_append, ← h.segments]
    rfl
  · rw [heldOf, arrived_concat_of_eq he, map_append, sum_append, ← heldOf, ← h.bytes]
    simp
  · rw [arrived_concat_of_eq he]
    intro e' he'
    rcases mem_append.mp he' with he' | he'
    · exact h.total e' he'
    · rw [mem_singleton.mp he']
      exact htotal

theorem Tracks.addSegment (h : Tracks seen inFlight r) (hmem : (groupId, buffer) ∈ r.buffers)
    (o : ReassemblerOptions) {e : ChunkEnvelope} (he : e.groupId? = some groupId)
    (htotal : (e.total : Int) = buffer.total)
    (hgroup : buffer.accumulatedBytes + e.content.2.length ≤ o.maxBufferBytes)
    (hall : r.accumulatedBytes + e.content.2.length ≤ o.maxTotalBufferBytes) :
    (∃ r', (arrived groupId (seen ++ [e])).length < e.total ∧
      r.addSegment o groupId buffer e.content.1 e.content.2 = (.ok .null, r') ∧ Tracks (seen ++ [e]) inFlight r') ∨
    ∃ buffer' r', ¬ (arrived groupId (seen ++ [e])).length < e.total ∧
      r.addSegment o groupId buffer e.content.1 e.content.2 =
          (Reassembler.complete groupId buffer', r') ∧
        Collects (seen ++ [e]) groupId buffer' ∧ buffer'.total = buffer.total ∧
        Tracks (seen ++ [e]) (fun g => inFlight g ∧ g ≠ groupId) r' := by
  have hcollects := (h.collects _ hmem).concat he htotal
  have htracks := h.replace hmem he hcollects rfl
  have hreceived := hcollects.received
  have hiff : ((buffer.received + 1 : ℕ) : Int) < buffer.total ↔
      (arrived groupId (seen ++ [e])).length < e.total := by
    rw [← htotal, ← hreceived]
    exact Nat.cast_lt
  unfold Reassembler.addSegment
  rw [if_neg (by omega), if_neg (by omega)]
  by_cases hlt : (arrived groupId (seen ++ [e])).length < e.total
  · exact Or.inl ⟨_, hlt, if_pos (hiff.mpr hlt), htracks⟩
  · have hperm := modifyFirst_key_perm h.nodup hmem
      { buffer with
        segments := buffer.segments ++ [e.content]
        received := buffer.received + 1
        accumulatedBytes := buffer.accumulatedBytes + e.content.2.length }
    exact Or.inr ⟨_, _, hlt, if_neg fun h => hlt (hiff.mp h), hcollects, rfl,
      htracks.drop (hperm.mem_iff.mpr mem_cons_self)⟩

end Steps

def slice (rawBytes : List UInt8) (rawBudget i : Nat) : List UInt8 := (rawBytes.drop (i * rawBudget)).take rawBudget

theorem content_segment (rawBytes : List UInt8) (rawBudget total : Nat) (groupId : JsString)
    (i : Nat) :
    (segment rawBytes rawBudget total groupId i).content = ((i : Int), slice rawBytes rawBudget i) := by
  have hslice : (rawBytes.take (min (i * rawBudget + rawBudget) rawBytes.length)).drop
      (i * rawBudget) = slice rawBytes rawBudget i := by
    rw [slice, drop_take, take_eq_take_iff, length_drop]
    omega
  rw [segment, ChunkEnvelope.content, decodeBase64_encodeBase64, hslice]
  rfl

theorem mergeFrom_slices (rawBytes : List UInt8) (rawBudget : Nat)
    (segments : List (Int × List UInt8)) (i n : Nat)
    (h : ∀ j, i ≤ j → j < i + n →
      (segments.find? fun s => s.1 == (j : Int)).map Prod.snd = some (slice rawBytes rawBudget j)) :
    Reassembler.mergeFrom segments i n =
      .ok ((rawBytes.drop (i * rawBudget)).take (n * rawBudget)) := by
  induction n generalizing i with
  | zero => simp [Reassembler.mergeFrom]
  | succ n ih =>
    obtain ⟨s, hs, hslice⟩ := Option.map_eq_some_iff.mp (h i le_rfl (by omega))
    rw [Reassembler.mergeFrom, hs]
    simp only
    rw [ih (i + 1) fun j hj hlt => h j (by omega) (by omega), Except.map, hslice, slice,
      show (n + 1) * rawBudget = rawBudget + n * rawBudget by ring, take_add, drop_drop,
      show (i + 1) * rawBudget = i * rawBudget + rawBudget by ring]

theorem complete_segments {payload : Json} (hpayload : payload.WellFormed) {rawBudget total : Nat}
    {groupId : JsString} (hcover : (utf8Bytes payload.text).length ≤ total * rawBudget)
    {seen : List ChunkEnvelope} {buffer : ReassemblyBuffer}
    (hbuffer : Collects seen groupId buffer) (htotal : buffer.total = total)
    (hperm : List.Perm (arrived groupId seen)
      ((List.range total).map (segment (utf8Bytes payload.text) rawBudget total groupId))) :
    Reassembler.complete groupId buffer = .ok payload := by
  have hsegments : List.Perm buffer.segments ((List.range total).map fun (i : Nat) =>
      ((i : Int), slice (utf8Bytes payload.text) rawBudget i)) := by
    rw [hbuffer.segments]
    refine (hperm.map ChunkEnvelope.content).trans (List.Perm.of_eq ?_)
    rw [map_map]
    exact map_congr_left fun i _ => content_segment _ _ _ _ i
  have hnodup : (buffer.segments.map Prod.fst).Nodup := by
    rw [(hsegments.map Prod.fst).nodup_iff, map_map]
    exact nodup_range.map fun i j hij => Int.ofNat.inj hij
  have hfind : ∀ j, 0 ≤ j → j < 0 + total →
      (buffer.segments.find? fun s => s.1 == (j : Int)).map Prod.snd =
        some (slice (utf8Bytes payload.text) rawBudget j) := by
    intro j _ hj
    rw [find?_key_eq_some_iff hnodup, hsegments.mem_iff]
    exact mem_map.mpr ⟨j, mem_range.mpr (by omega), rfl⟩
  have hmerge := mergeFrom_slices (utf8Bytes payload.text) rawBudget buffer.segments 0 total hfind
  rw [Nat.zero_mul, drop_zero, take_of_length_le hcover] at hmerge
  unfold Reassembler.complete
  rw [htotal, Int.toNat_natCast, hmerge]
  simp only [utf8Text_utf8Bytes payload.head?_text_ne_byteOrderMark, Json.parse_text payload hpayload]

/-- An envelope that arrives, or the sweep of expired groups, at a time of the clock. -/
inductive ReassemblerInput
  | ingest (now : Int) (envelope : Json)
  | sweepExpired (now : Int)

def ReassemblyBuffer.heldBytes (buffer : ReassemblyBuffer) : Nat := (buffer.segments.map fun s => s.2.length).sum

namespace Reassembler

def step (o : ReassemblerOptions) (r : Reassembler) : ReassemblerInput → Reassembler
  | .ingest now envelope => (r.ingest o now envelope).2
  | .sweepExpired now => (r.sweepExpired o now).2

def heldBytes (r : Reassembler) : Nat := (r.buffers.map fun entry => entry.2.heldBytes).sum

structure Accounts (o : ReassemblerOptions) (r : Reassembler) : Prop where
  nodup : (r.buffers.map Prod.fst).Nodup
  buffer : ∀ entry ∈ r.buffers, entry.2.accumulatedBytes = entry.2.heldBytes
  total : r.accumulatedBytes = r.heldBytes
  bytes : r.accumulatedBytes ≤ o.maxTotalBufferBytes
  groups : r.buffers.length ≤ o.maxConcurrentGroups

variable {o : ReassemblerOptions} {r : Reassembler} {groupId : JsString} {buffer : ReassemblyBuffer}

theorem accounts_empty (o : ReassemblerOptions) : Accounts o empty :=
  ⟨nodup_nil, fun _ h => absurd h not_mem_nil, rfl, Int.natCast_nonneg _, Nat.zero_le _⟩

theorem dropBuffer_of_notMem (h : groupId ∉ r.buffers.map Prod.fst) : r.dropBuffer groupId = r := by
  rw [dropBuffer, get_eq_none_iff.mpr h]

namespace Accounts

theorem heldBytes_eq (h : Accounts o r) (hmem : (groupId, buffer) ∈ r.buffers) :
    r.heldBytes = buffer.heldBytes +
      ((r.buffers.filter fun entry => entry.1 != groupId).map
        fun entry => entry.2.heldBytes).sum := by
  have hperm := perm_cons_filter_key h.nodup hmem
  rw [heldBytes, (hperm.map fun entry => entry.2.heldBytes).sum_eq, map_cons, sum_cons]

theorem dropBuffer (h : Accounts o r) (groupId : JsString) :
    Accounts o (r.dropBuffer groupId) := by
  by_cases hmem : groupId ∈ r.buffers.map Prod.fst
  · obtain ⟨⟨key, buffer⟩, hentry, rfl⟩ := mem_map.mp hmem
    replace hmem : (key, buffer) ∈ r.buffers := hentry
    have hheld := h.heldBytes_eq hmem
    have hbuffer := h.buffer _ hmem
    have htotal := h.total
    have hbytes := h.bytes
    simp only at hbuffer ⊢
    rw [dropBuffer_eq h.nodup hmem]
    refine ⟨h.nodup.sublist (List.Sublist.map _ filter_sublist),
      fun entry hentry => h.buffer entry (mem_filter.mp hentry).1, ?_, ?_, (filter_sublist.length_le).trans h.groups⟩
    · rw [Reassembler.heldBytes]
      simp only
      omega
    · simp only
      omega
  · rw [dropBuffer_of_notMem hmem]
    exact h

theorem foldl_dropBuffer (h : Accounts o r) (groups : List JsString) :
    Accounts o (groups.foldl Reassembler.dropBuffer r) := by
  induction groups generalizing r with
  | nil => exact h
  | cons g groups ih => exact ih (h.dropBuffer g)

end Accounts

structure Opens (o : ReassemblerOptions) (r : Reassembler) (groupId : JsString)
    (buffer : ReassemblyBuffer) (r' : Reassembler) : Prop where
  accounts : Accounts o r'
  mem : (groupId, buffer) ∈ r'.buffers
  drop : r'.dropBuffer groupId = r.dropBuffer groupId

theorem openBuffer_cases (h : Accounts o r) (now : Int) (groupId : JsString) (total : Int) :
    (∃ e, r.openBuffer o now groupId total = (.error e, r)) ∨
    (∃ e, r.openBuffer o now groupId total = (.error e, r.dropBuffer groupId)) ∨
    ∃ buffer r', r.openBuffer o now groupId total = (.ok buffer, r') ∧
      Opens o r groupId buffer r' := by
  unfold openBuffer
  cases hget : r.get groupId with
  | none =>
    have hnot := get_eq_none_iff.mp hget
    by_cases hmany : r.buffers.length ≥ o.maxConcurrentGroups
    · exact Or.inl ⟨_, if_pos hmany⟩
    · right
      right
      have hnodup : ((r.buffers ++ [(groupId, (⟨total, 0, [], 0, now⟩ : ReassemblyBuffer))]).map
          Prod.fst).Nodup := by
        rw [map_append, nodup_append_comm]
        exact nodup_cons.mpr ⟨hnot, h.nodup⟩
      have hmem : (groupId, (⟨total, 0, [], 0, now⟩ : ReassemblyBuffer)) ∈
          r.buffers ++ [(groupId, ⟨total, 0, [], 0, now⟩)] :=
        mem_append_right _ (mem_singleton_self _)
      refine ⟨_, _, if_neg hmany, ⟨hnodup, fun entry hentry => ?_, ?_, h.bytes, ?_⟩, hmem, ?_⟩
      · rcases mem_append.mp hentry with hentry | hentry
        · exact h.buffer entry hentry
        · rw [mem_singleton.mp hentry]
          rfl
      · rw [h.total, heldBytes, heldBytes, map_append, sum_append]
        rfl
      · rw [length_append, length_singleton]
        omega
      · rw [dropBuffer_eq hnodup hmem, dropBuffer_of_notMem hnot, filter_append, filter_key_of_not_mem hnot]
        simp
  | some buffer =>
    have hmem := (get_eq_some_iff h.nodup).mp hget
    by_cases htotal : buffer.total ≠ total
    · exact Or.inr (Or.inl ⟨_, if_pos htotal⟩)
    · exact Or.inr (Or.inr ⟨buffer, r, if_neg htotal, h, hmem, rfl⟩)

def addTo (buffer : ReassemblyBuffer) (seq : Int) (decoded : List UInt8) : ReassemblyBuffer :=
  { buffer with
    segments := buffer.segments ++ [(seq, decoded)]
    received := buffer.received + 1
    accumulatedBytes := buffer.accumulatedBytes + decoded.length }

def putBuffer (r : Reassembler) (groupId : JsString) (buffer : ReassemblyBuffer) (bytes : Nat) :
    Reassembler :=
  ⟨modifyFirst (fun entry => entry.1 == groupId) (fun _ => (groupId, buffer)) r.buffers, r.accumulatedBytes + bytes⟩

theorem addSegment_eq (o : ReassemblerOptions) (r : Reassembler) (groupId : JsString)
    (buffer : ReassemblyBuffer) (seq : Int) (decoded : List UInt8) :
    r.addSegment o groupId buffer seq decoded =
      if buffer.accumulatedBytes + decoded.length > o.maxBufferBytes then
        (.error (.groupTooLarge groupId o.maxBufferBytes), r.dropBuffer groupId)
      else if r.accumulatedBytes + decoded.length > o.maxTotalBufferBytes then
        (.error (.totalBytesTooLarge o.maxTotalBufferBytes), r.dropBuffer groupId)
      else if ((addTo buffer seq decoded).received : Int) < (addTo buffer seq decoded).total then
        (.ok .null, r.putBuffer groupId (addTo buffer seq decoded) decoded.length)
      else (complete groupId (addTo buffer seq decoded),
        (r.putBuffer groupId (addTo buffer seq decoded) decoded.length).dropBuffer groupId) := rfl

theorem heldBytes_addTo (buffer : ReassemblyBuffer) (seq : Int) (decoded : List UInt8) :
    (addTo buffer seq decoded).heldBytes = buffer.heldBytes + decoded.length := by
  rw [ReassemblyBuffer.heldBytes, addTo]
  simp [ReassemblyBuffer.heldBytes]

theorem filter_modifyFirst_key {l : List (JsString × ReassemblyBuffer)}
    (buffer : ReassemblyBuffer) :
    (modifyFirst (fun entry => entry.1 == groupId) (fun _ => (groupId, buffer)) l).filter
      (fun entry => entry.1 != groupId) = l.filter fun entry => entry.1 != groupId := by
  induction l with
  | nil => rfl
  | cons entry l ih =>
    rw [modifyFirst]
    by_cases hkey : entry.1 = groupId
    · rw [if_pos (beq_iff_eq.mpr hkey), filter_cons_of_neg (by simp), filter_cons_of_neg (by simpa using hkey)]
    · rw [if_neg (by simpa using hkey), filter_cons_of_pos (by simpa using hkey), ih,
        filter_cons_of_pos (by simpa using hkey)]

theorem putBuffer_perm (h : Accounts o r) (hmem : (groupId, buffer) ∈ r.buffers)
    (buffer' : ReassemblyBuffer) (bytes : Nat) :
    List.Perm (r.putBuffer groupId buffer' bytes).buffers
      ((groupId, buffer') :: r.buffers.filter fun entry => entry.1 != groupId) ∧
    ((r.putBuffer groupId buffer' bytes).buffers.map Prod.fst).Nodup := by
  have hperm := modifyFirst_key_perm h.nodup hmem buffer'
  have hkeys := (hperm.map Prod.fst).trans ((perm_cons_filter_key h.nodup hmem).map Prod.fst).symm
  exact ⟨hperm, hkeys.nodup_iff.mpr h.nodup⟩

theorem addSegment_cases (h : Accounts o r) (hmem : (groupId, buffer) ∈ r.buffers) (seq : Int)
    (decoded : List UInt8) :
    (r.addSegment o groupId buffer seq decoded).2 = r.dropBuffer groupId ∨
    ∃ r', r.addSegment o groupId buffer seq decoded = (.ok .null, r') ∧ Accounts o r' := by
  obtain ⟨hperm, hnodup⟩ := putBuffer_perm h hmem (addTo buffer seq decoded) decoded.length
  have hbuffer : buffer.accumulatedBytes = buffer.heldBytes := h.buffer _ hmem
  have hheld := h.heldBytes_eq hmem
  have htotal := h.total
  rw [addSegment_eq]
  split_ifs with hgroup hlimit hmissing
  · exact Or.inl rfl
  · exact Or.inl rfl
  · refine Or.inr ⟨_, rfl, hnodup, fun entry hentry => ?_, ?_, not_lt.mp hlimit, ?_⟩
    · rcases mem_cons.mp (hperm.mem_iff.mp hentry) with rfl | hentry
      · rw [heldBytes_addTo, addTo, hbuffer]
      · exact h.buffer entry (mem_filter.mp hentry).1
    · rw [heldBytes, (hperm.map fun entry => entry.2.heldBytes).sum_eq, map_cons, sum_cons, heldBytes_addTo, putBuffer]
      simp only
      omega
    · have hlength := (perm_cons_filter_key h.nodup hmem).length_eq
      have hgroups := h.groups
      rw [hperm.length_eq, length_cons]
      rw [length_cons] at hlength
      omega
  · left
    have hput := hperm.mem_iff.mpr mem_cons_self
    rw [dropBuffer_eq hnodup hput, dropBuffer_eq h.nodup hmem, putBuffer, addTo, filter_modifyFirst_key]
    simp only [Reassembler.mk.injEq, true_and]
    omega

theorem acceptSegment_cases (h : Accounts o r) (hmem : (groupId, buffer) ∈ r.buffers) (total : Int)
    (seqField : Option Json) (bytes : JsString) :
    (r.acceptSegment o groupId buffer total seqField bytes).2 = r.dropBuffer groupId ∨
    ∃ r', r.acceptSegment o groupId buffer total seqField bytes = (.ok .null, r') ∧
      Accounts o r' := by
  unfold acceptSegment
  split
  · exact Or.inl rfl
  · split_ifs
    · exact Or.inl rfl
    · exact Or.inl rfl
    · exact Or.inl rfl
    · split
      · exact Or.inl rfl
      · exact addSegment_cases h hmem _ _

theorem ingest_cases (h : Accounts o r) (now : Int) (envelope : Json) :
    (r.ingest o now envelope).2 = r ∨
    (∃ groupId, envelope.get? (ofText "group_id") = some (.string groupId) ∧
      (r.ingest o now envelope).2 = r.dropBuffer groupId) ∨
    ∃ r', r.ingest o now envelope = (.ok .null, r') ∧ Accounts o r' := by
  have hchunk : (r.ingestChunk o now envelope).2 = r ∨
      (∃ groupId, envelope.get? (ofText "group_id") = some (.string groupId) ∧
        (r.ingestChunk o now envelope).2 = r.dropBuffer groupId) ∨
      ∃ r', r.ingestChunk o now envelope = (.ok .null, r') ∧ Accounts o r' := by
    unfold ingestChunk
    cases integer? (envelope.get? (ofText "total")) with
    | none => exact Or.inl rfl
    | some total =>
      simp only
      split_ifs
      · exact Or.inl rfl
      · exact Or.inl rfl
      · split
        next groupId hgroup =>
            split_ifs
            · exact Or.inl rfl
            · split
              next bytes _ =>
                  rcases openBuffer_cases h now groupId total with ⟨e, hopen⟩ | ⟨e, hopen⟩ |
                    ⟨buffer, r', hopen, haccounts, hmem, hdrop⟩
                  · rw [hopen]
                    exact Or.inl rfl
                  · rw [hopen]
                    exact Or.inr (Or.inl ⟨groupId, hgroup, rfl⟩)
                  · rw [hopen]
                    simp only
                    rcases acceptSegment_cases haccounts hmem total (envelope.get? (ofText "seq"))
                      bytes with hdropped | htaken
                    · exact Or.inr (Or.inl ⟨groupId, hgroup, hdropped.trans hdrop⟩)
                    · exact Or.inr (Or.inr htaken)
              · exact Or.inl rfl
        · exact Or.inl rfl
  unfold ingest
  split
  · split
    · split_ifs
      · split
        · exact Or.inl rfl
        · exact Or.inl rfl
      · exact hchunk
      · exact Or.inl rfl
    · exact Or.inl rfl
  · split
    · split_ifs
      · split
        · exact Or.inl rfl
        · exact Or.inl rfl
      · exact hchunk
      · exact Or.inl rfl
    · exact Or.inl rfl
  · exact Or.inl rfl

theorem Accounts.step (h : Accounts o r) (input : ReassemblerInput) :
    Accounts o (r.step o input) := by
  cases input with
  | ingest now envelope =>
    rw [Reassembler.step]
    rcases ingest_cases h now envelope with hsame | ⟨groupId, -, hdrop⟩ | ⟨r', hkept, hr'⟩
    · rw [hsame]
      exact h
    · rw [hdrop]
      exact h.dropBuffer groupId
    · rw [hkept]
      exact hr'
  | sweepExpired now => exact h.foldl_dropBuffer _

theorem accounts_run (inputs : List ReassemblerInput) (h : Accounts o r) :
    Accounts o (inputs.foldl (Reassembler.step o) r) := by
  induction inputs generalizing r with
  | nil => exact h
  | cons input inputs ih => exact ih (h.step input)

/-- After every run the bytes are those that the buffers hold, within the limits, and an envelope
that is rejected changes nothing or drops its own group. -/
theorem accounting_survives (o : ReassemblerOptions) (inputs : List ReassemblerInput) :
    (inputs.foldl (step o) empty).accumulatedBytes = (inputs.foldl (step o) empty).heldBytes ∧
    (inputs.foldl (step o) empty).accumulatedBytes ≤ o.maxTotalBufferBytes ∧
    (inputs.foldl (step o) empty).buffers.length ≤ o.maxConcurrentGroups ∧
    ∀ now envelope e, ((inputs.foldl (step o) empty).ingest o now envelope).1 = .error e →
      ((inputs.foldl (step o) empty).ingest o now envelope).2 = inputs.foldl (step o) empty ∨
      ∃ groupId, envelope.get? (ofText "group_id") = some (.string groupId) ∧
        ((inputs.foldl (step o) empty).ingest o now envelope).2 =
          (inputs.foldl (step o) empty).dropBuffer groupId := by
  have h := accounts_run inputs (accounts_empty o)
  refine ⟨h.total, h.bytes, h.groups, fun now envelope e he => ?_⟩
  rcases ingest_cases h now envelope with hsame | hdrop | ⟨r', hkept, -⟩
  · exact Or.inl hsame
  · exact Or.inr hdrop
  · rw [hkept] at he
    cases he

/-- A segment with a number that is too large drops the group that it opened. -/
theorem accounting_survives_outOfRange :
    (([.sweepExpired 0] : List ReassemblerInput).foldl (step {}) empty).accumulatedBytes =
      (([.sweepExpired 0] : List ReassemblerInput).foldl (step {}) empty).heldBytes ∧
    ((empty.ingest {} 1 (ChunkEnvelope.chunk (ofText "g") 5 2 []).toJson).2 = empty ∨
      ∃ groupId, (ChunkEnvelope.chunk (ofText "g") 5 2 []).toJson.get? (ofText "group_id") =
          some (.string groupId) ∧
        (empty.ingest {} 1 (ChunkEnvelope.chunk (ofText "g") 5 2 []).toJson).2 =
          empty.dropBuffer groupId) := by
  have hrejected : (empty.ingest {} 1 (ChunkEnvelope.chunk (ofText "g") 5 2 []).toJson).1 =
      .error (.seqOutOfRange (some (.number (Number.ofNat 5))) 2) := by
    rw [ingest_chunk {} 1 empty [] (by decide) (by decide) (by decide)]
    simp [openBuffer, Reassembler.get, empty, acceptSegment, integer?, Number.toInt?_ofNat, defaultMaxConcurrentGroups]
  exact ⟨(accounting_survives {} [.sweepExpired 0]).1, (accounting_survives {} []).2.2.2 1 _ _ hrejected⟩

end Reassembler

end Gavea.WebPubSub
