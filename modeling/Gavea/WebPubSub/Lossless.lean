import Gavea.WebPubSub.Reassembly

namespace Gavea.WebPubSub

open Gavea.Lib Gavea.Lib.Js Gavea.Base List

structure Publish (groupValidation : ParseGroupNameOptions) where
  payload : Json
  wellFormed : payload.WellFormed
  maxChunkBytes : Option ℚ
  groupId : JsString
  envelopes : List ChunkEnvelope
  chunked : chunk (some payload) maxChunkBytes groupId = .ok envelopes
  group : JsString
  parsed : ParsedGroup
  valid : parseGroupName group groupValidation = .ok parsed

def WithinCeilings (o : ReassemblerOptions) (seen : List ChunkEnvelope) :
    List ChunkEnvelope → Prop
  | [] => True
  | e :: rest =>
    (∀ g ∈ e.groupId?, e.total ≤ o.maxSegmentsPerGroup ∧
      heldOf seen g + e.content.2.length ≤ o.maxBufferBytes ∧
      heldBytes seen + e.content.2.length ≤ o.maxTotalBufferBytes ∧
      (isOpen seen g = true ∨ (openGroups seen).length < o.maxConcurrentGroups)) ∧
    WithinCeilings o (seen ++ [e]) rest

/-- The frames one after the other, each with the reading of the clock at its arrival. -/
def receiveAll (o : ReassemblerOptions) (groupValidation : ParseGroupNameOptions) :
    Reassembler → List (Int × GroupMessage) → List (Except InboundError InboundResult)
  | _, [] => []
  | r, (now, m) :: rest =>
    match parseInbound o groupValidation now r m.toJson with
    | (result, r) => result :: receiveAll o groupValidation r rest

def payload? : Except InboundError InboundResult → Option (ParsedGroup × Json)
  | .ok (.payload group payload) => some (group, payload)
  | _ => none

/-- No frame is refused, every payload comes out once, and every envelope fits its limit. -/
structure Lossless (o : ReassemblerOptions) {groupValidation : ParseGroupNameOptions}
    (publishes : List (Publish groupValidation)) (arrivals : List (Int × GroupMessage)) : Prop where
  accepted : ∀ result ∈ receiveAll o groupValidation Reassembler.empty arrivals, result.isOk = true
  delivered : List.Perm ((receiveAll o groupValidation Reassembler.empty arrivals).filterMap
    payload?) (publishes.map fun p => (p.parsed, p.payload))
  bounded : ∀ p ∈ publishes, ∀ e ∈ p.envelopes, (byteLength e.toJson : ℚ) ≤ p.maxChunkBytes.getD defaultMaxChunkBytes

namespace Reassembler

theorem ingest_message (o : ReassemblerOptions) (now : Int) (r : Reassembler) (data : Json) :
    r.ingest o now (ChunkEnvelope.message data).toJson = (.ok data, r) := by
  have hkind : (ChunkEnvelope.message data).toJson.get? (ofText "kind") = some (.string (ofText "message")) := rfl
  have hdata : (ChunkEnvelope.message data).toJson.get? (ofText "data") = some data := rfl
  unfold ingest
  rw [hkind, hdata]
  simp only [ChunkEnvelope.toJson, if_true]

end Reassembler

theorem parseInbound_groupMessage (o : ReassemblerOptions) {v : ParseGroupNameOptions} (now : Int)
    (r : Reassembler) {m : GroupMessage} {parsed : ParsedGroup}
    (h : parseGroupName m.group v = .ok parsed) {result : Json} {r' : Reassembler}
    (hr : r.ingest o now m.data.toJson = (.ok result, r')) :
    parseInbound o v now r m.toJson = (.ok (inboundResult parsed result), r') := by
  have htype : m.toJson.get? (ofText "type") = some (.string (ofText "message")) := rfl
  have hfrom : m.toJson.get? (ofText "from") = some (.string (ofText "group")) := rfl
  have hgroup : m.toJson.get? (ofText "group") = some (.string m.group) := rfl
  have hdataType : m.toJson.get? (ofText "dataType") = some (.string (ofText "json")) := rfl
  have hdata : m.toJson.get? (ofText "data") = some m.data.toJson := rfl
  have hframe : isObject m.toJson = true := rfl
  have henvelope : isObject m.data.toJson = true := by cases m.data <;> rfl
  unfold parseInbound
  rw [htype, hfrom, hgroup, hdataType, hdata]
  simp only [isText, beq_self_eq_true, hframe, henvelope, h, hr, Bool.true_eq_false, or_self, if_false]

section Collection

variable {v : ParseGroupNameOptions} {publishes : List (Publish v)}

def frames (publishes : List (Publish v)) : List (JsString × ChunkEnvelope) :=
  publishes.flatMap fun p => p.envelopes.map fun e => (p.group, e)

theorem groupId?_of_mem {p : Publish v} {e : ChunkEnvelope} (h : e ∈ p.envelopes) {g : JsString}
    (hg : e.groupId? = some g) : g = p.groupId := by
  have hchunked := chunked_of_chunk p.chunked
  generalize hes : p.envelopes = es at h hchunked
  cases hchunked with
  | message _ =>
    rw [mem_singleton.mp h] at hg
    cases hg
  | chunks quanta total =>
    obtain ⟨i, -, rfl⟩ := mem_map.mp h
    exact (Option.some.inj hg).symm

theorem flatMap_eq_of_nodup {α κ β : Type} {l : List α} {key : α → κ} {f : α → List β} {a : α}
    (hnodup : (l.map key).Nodup) (ha : a ∈ l) (h : ∀ b ∈ l, key b ≠ key a → f b = []) :
    l.flatMap f = f a := by
  induction l with
  | nil => exact absurd ha not_mem_nil
  | cons b l ih =>
    obtain ⟨hnot, hl⟩ := nodup_cons.mp hnodup
    rw [flatMap_cons]
    rcases mem_cons.mp ha with rfl | hrest
    · have hnil : l.flatMap f = [] := by
        refine flatMap_eq_nil_iff.mpr fun b hb => h b (mem_cons_of_mem _ hb) ?_
        intro heq
        exact hnot (heq ▸ mem_map_of_mem hb)
      rw [hnil, append_nil]
    · have hne : key b ≠ key a := fun heq => hnot (heq ▸ mem_map_of_mem hrest)
      rw [h b mem_cons_self hne, nil_append, ih hl hrest fun b' hb' => h b' (mem_cons_of_mem _ hb')]

theorem arrived_frames (hnodup : (publishes.map Publish.groupId).Nodup) {q : Publish v}
    (hq : q ∈ publishes) (hchunks : ∀ e ∈ q.envelopes, e.groupId? = some q.groupId) :
    arrived q.groupId ((frames publishes).map Prod.snd) = q.envelopes := by
  have hframes : (frames publishes).map Prod.snd = publishes.flatMap Publish.envelopes := by
    simp [frames, map_flatMap]
  rw [hframes, arrived, filter_flatMap,
    flatMap_eq_of_nodup (f := fun p : Publish v => p.envelopes.filter
      fun e => e.groupId? == some q.groupId) hnodup hq ?_]
  · exact filter_eq_self.mpr fun e he => beq_iff_eq.mpr (hchunks e he)
  · intro p _ hne
    refine filter_eq_nil_iff.mpr fun e he heq => ?_
    exact hne (groupId?_of_mem he (eq_of_beq heq)).symm

def Publish.isSplit (p : Publish v) : Bool :=
  match p.envelopes with
  | .chunk .. :: _ => true
  | _ => false

def Publish.isComplete (seen : List ChunkEnvelope) (p : Publish v) : Bool :=
  decide (p.envelopes.length ≤ (arrived p.groupId seen).length)

structure Publish.Split (p : Publish v) (quanta total : Nat) : Prop where
  envelopes : p.envelopes = (List.range total).map (segment (utf8Bytes p.payload.text) (3 * quanta) total p.groupId)
  pos : 1 ≤ total
  groupId : p.groupId ≠ []
  cover : (utf8Bytes p.payload.text).length ≤ total * (3 * quanta)

theorem Publish.cases (p : Publish v) :
    (p.envelopes = [.message p.payload] ∧ p.isSplit = false) ∨
      ∃ quanta total, p.Split quanta total ∧ p.isSplit = true := by
  have hchunked := chunked_of_chunk p.chunked
  generalize hes : p.envelopes = es at hchunked
  cases hchunked with
  | message _ => exact Or.inl ⟨rfl, by rw [Publish.isSplit, hes]⟩
  | chunks quanta total hgroup hmax hcover hsize =>
    have hpos : 1 ≤ total := by
      by_contra hzero
      obtain rfl : total = 0 := by omega
      rw [Nat.zero_mul, Nat.le_zero, length_eq_zero_iff] at hcover
      obtain ⟨c, t, ht, -⟩ := p.payload.text_cons
      exact utf8Bytes_ne_nil (by rw [ht]; exact cons_ne_nil c t) hcover
    refine Or.inr ⟨quanta, total, ⟨hes, hpos, hgroup, hcover⟩, ?_⟩
    obtain ⟨n, rfl⟩ := Nat.exists_eq_add_of_le' hpos
    rw [Publish.isSplit, hes, range_succ_eq_map]
    rfl

theorem Publish.Split.mem {p : Publish v} {quanta total : Nat} (h : p.Split quanta total)
    {e : ChunkEnvelope} (he : e ∈ p.envelopes) :
    ∃ i decoded, i < total ∧ e = .chunk p.groupId i total (encodeBase64 decoded true false) := by
  rw [h.envelopes] at he
  obtain ⟨i, hi, rfl⟩ := mem_map.mp he
  exact ⟨i, _, mem_range.mp hi, rfl⟩

theorem Publish.Split.nodup {p : Publish v} {quanta total : Nat} (h : p.Split quanta total) :
    (p.envelopes.map fun e => e.content.1).Nodup := by
  have hmap : (p.envelopes.map fun e => e.content.1) =
      (List.range total).map fun (i : Nat) => (i : Int) := by
    rw [h.envelopes, map_map]
    exact map_congr_left fun i _ => congrArg Prod.fst (content_segment _ _ _ _ i)
  rw [hmap]
  exact nodup_range.map fun i j hij => Int.ofNat.inj hij

structure Arrival (seen : List ChunkEnvelope) (q : Publish v) (e : ChunkEnvelope) (total : Nat) :
    Prop where
  totals : ∀ e' ∈ arrived q.groupId (seen ++ [e]), e'.total = total
  lt : (arrived q.groupId seen).length < total
  fresh : ∀ e' ∈ arrived q.groupId seen, e'.content.1 ≠ e.content.1
  perm : total ≤ (arrived q.groupId (seen ++ [e])).length → List.Perm (arrived q.groupId (seen ++ [e])) q.envelopes

theorem arrival (hnodup : (publishes.map Publish.groupId).Nodup) {q : Publish v}
    (hq : q ∈ publishes) {quanta total : Nat} (hsplit : q.Split quanta total)
    {seen rest : List ChunkEnvelope} {e : ChunkEnvelope} (he : e ∈ q.envelopes)
    (hperm : List.Perm (seen ++ e :: rest) ((frames publishes).map Prod.snd)) :
    Arrival seen q e total := by
  have hgroup : ∀ e' ∈ q.envelopes, e'.groupId? = some q.groupId ∧ e'.total = total := by
    intro e' he'
    obtain ⟨i, decoded, -, rfl⟩ := hsplit.mem he'
    exact ⟨rfl, rfl⟩
  have hlen : q.envelopes.length = total := by
    rw [hsplit.envelopes, length_map, length_range]
  have hall : List.Perm (arrived q.groupId (seen ++ [e]) ++ arrived q.groupId rest)
      q.envelopes := by
    rw [← arrived_append, append_assoc, singleton_append, ← arrived_frames hnodup hq fun e' he' => (hgroup e' he').1]
    exact hperm.filter _
  have hconcat := arrived_concat_of_eq (hgroup e he).1 seen
  have hlength := hall.length_eq
  rw [length_append, hlen] at hlength
  refine ⟨fun e' he' => ?_, ?_, fun e' he' heq => ?_, fun hge => ?_⟩
  · exact (hgroup e' (hall.mem_iff.mp (mem_append_left _ he'))).2
  · rw [hconcat, length_append, length_singleton] at hlength
    omega
  · have hnodup' := ((hall.map fun e => e.content.1).nodup_iff).mpr hsplit.nodup
    rw [hconcat, append_assoc, map_append, nodup_append] at hnodup'
    refine hnodup'.2.2 _ (mem_map_of_mem (f := fun e => e.content.1) he') _ ?_ heq
    simp
  · have hnil : arrived q.groupId rest = [] := length_eq_zero_iff.mp (by omega)
    rwa [hnil, append_nil] at hall

theorem ingest_segment {o : ReassemblerOptions} (now : Int) {r : Reassembler}
    {seen : List ChunkEnvelope} {q : Publish v} {quanta total : Nat}
    (hsplit : q.Split quanta total) {e : ChunkEnvelope} (he : e ∈ q.envelopes)
    (harrival : Arrival seen q e total)
    (htracks : Tracks seen (fun g => isOpen seen g = true) r)
    (hceiling : ∀ g ∈ e.groupId?, e.total ≤ o.maxSegmentsPerGroup ∧
      heldOf seen g + e.content.2.length ≤ o.maxBufferBytes ∧
      heldBytes seen + e.content.2.length ≤ o.maxTotalBufferBytes ∧
      (isOpen seen g = true ∨ (openGroups seen).length < o.maxConcurrentGroups)) :
    ∃ r', r.ingest o now e.toJson =
        (.ok (if q.isComplete (seen ++ [e]) then q.payload else .null), r') ∧
      Tracks (seen ++ [e]) (fun g => isOpen (seen ++ [e]) g = true) r' := by
  obtain ⟨i, decoded, hi, rfl⟩ := hsplit.mem he
  generalize hedef : ChunkEnvelope.chunk q.groupId i total (encodeBase64 decoded true false) = e at he harrival hceiling
  have hgroup : e.groupId? = some q.groupId := by rw [← hedef]; rfl
  have htotal : e.total = total := by rw [← hedef]; rfl
  have hcontent : e.content = ((i : Int), decoded) := by
    rw [← hedef, ChunkEnvelope.content, decodeBase64_encodeBase64]
    rfl
  obtain ⟨hmax, hheld, hall, hroom⟩ := hceiling q.groupId hgroup
  rw [htotal] at hmax
  have hconcat := arrived_concat_of_eq hgroup seen
  have htotals : ∀ e' ∈ arrived q.groupId seen, e'.total = total := by
    intro e' he'
    refine harrival.totals e' ?_
    rw [hconcat]
    exact mem_append_left _ he'
  have hopen := isOpen_iff htotals
  rw [← htracks.length_buffers] at hroom
  obtain ⟨buffer, r₁, hr₁, htracks₁, hmem, hbuffer, hbytes⟩ :=
    htracks.openBuffer o now hroom
      (fun hnot => by
        by_contra hne
        exact hnot (hopen.mpr ⟨hne, harrival.lt⟩))
      (fun hin => (hopen.mp hin).1) htotals
  have hcollects := htracks₁.collects _ hmem
  have hnew : ∀ s ∈ buffer.segments, s.1 ≠ (i : Int) := by
    rw [hcollects.segments]
    intro s hs
    obtain ⟨e', he', rfl⟩ := mem_map.mp hs
    have hfresh := harrival.fresh e' he'
    rwa [hcontent] at hfresh
  have hstep : r.ingest o now e.toJson =
      r₁.addSegment o q.groupId buffer e.content.1 e.content.2 := by
    rw [hcontent, ← hedef, Reassembler.ingest_chunk o now r _ hsplit.groupId hsplit.pos hmax, hr₁]
    exact Reassembler.acceptSegment_segment o r₁ q.groupId buffer decoded hi hnew
  rw [hstep]
  have hheld' : buffer.accumulatedBytes + e.content.2.length ≤ o.maxBufferBytes := by
    rw [hcollects.bytes]
    exact hheld
  have hall' : r₁.accumulatedBytes + e.content.2.length ≤ o.maxTotalBufferBytes := by
    rw [hbytes, htracks.accumulatedBytes_eq]
    exact_mod_cast hall
  have hlength : q.envelopes.length = total := by
    rw [hsplit.envelopes, length_map, length_range]
  have hopen' := isOpen_iff harrival.totals
  have hne : arrived q.groupId (seen ++ [e]) ≠ [] := by
    rw [hconcat]
    exact append_ne_nil_of_right_ne_nil _ (cons_ne_nil _ _)
  rcases htracks₁.addSegment hmem o hgroup (by rw [htotal, hbuffer]) hheld' hall' with
    ⟨r', hlt, hadd, htracks'⟩ | ⟨buffer', r', hge, hadd, hcollects', hbuffer', htracks'⟩
  · rw [htotal] at hlt
    have hincomplete : q.isComplete (seen ++ [e]) = false := by
      rw [Publish.isComplete, decide_eq_false_iff_not]
      omega
    refine ⟨r', by rw [hadd, hincomplete]; rfl, htracks'.congr fun g => ?_⟩
    by_cases hg : g = q.groupId
    · subst hg
      simp [hopen'.mpr ⟨hne, hlt⟩]
    · rw [isOpen_concat_of_ne fun heq => hg (Option.some.inj (hgroup.symm.trans heq)).symm]
      simp [hg]
  · rw [htotal] at hge
    have hcomplete : q.isComplete (seen ++ [e]) = true := by
      rw [Publish.isComplete, decide_eq_true_eq]
      omega
    have hpayload := complete_segments q.wellFormed hsplit.cover hcollects'
      (hbuffer'.trans hbuffer) (hsplit.envelopes ▸ harrival.perm (by omega))
    refine ⟨r', by rw [hadd, hcomplete, hpayload]; rfl, htracks'.congr fun g => ?_⟩
    by_cases hg : g = q.groupId
    · subst hg
      have hclosed : ¬ isOpen (seen ++ [e]) q.groupId = true := fun h => hge (hopen'.mp h).2
      simp [hclosed]
    · rw [isOpen_concat_of_ne fun heq => hg (Option.some.inj (hgroup.symm.trans heq)).symm]
      simp [hg]

def Publish.delivery (p : Publish v) : Option (ParsedGroup × Json) := payload? (.ok (inboundResult p.parsed p.payload))

def wholeDelivery (v : ParseGroupNameOptions) (frame : JsString × ChunkEnvelope) :
    Option (ParsedGroup × Json) :=
  match frame.2, parseGroupName frame.1 v with
  | .message data, .ok parsed => payload? (.ok (inboundResult parsed data))
  | _, _ => none

theorem mem_frames {frame : JsString × ChunkEnvelope} (h : frame ∈ frames publishes) :
    ∃ q ∈ publishes, frame.1 = q.group ∧ frame.2 ∈ q.envelopes := by
  obtain ⟨q, hq, hframe⟩ := mem_flatMap.mp h
  obtain ⟨e, he, rfl⟩ := mem_map.mp hframe
  exact ⟨q, hq, rfl, he⟩

theorem isComplete_concat_of_ne {e : ChunkEnvelope} {p : Publish v}
    (h : e.groupId? ≠ some p.groupId) (seen : List ChunkEnvelope) :
    p.isComplete (seen ++ [e]) = p.isComplete seen := by
  rw [Publish.isComplete, arrived_concat_of_ne h, Publish.isComplete]

theorem filter_perm_of_unique {α : Type} {l : List α} (hnodup : l.Nodup) {a : α} (ha : a ∈ l)
    {f g : α → Bool} (hf : f a = true) (hg : g a = false) (h : ∀ b ∈ l, b ≠ a → g b = f b) :
    List.Perm (l.filter f) (a :: l.filter g) := by
  induction l with
  | nil => exact absurd ha not_mem_nil
  | cons b l ih =>
    obtain ⟨hnot, hl⟩ := nodup_cons.mp hnodup
    rcases mem_cons.mp ha with rfl | hrest
    · have hsame : l.filter g = l.filter f :=
        filter_congr fun b hb => h b (mem_cons_of_mem _ hb) fun heq => hnot (heq ▸ hb)
      rw [filter_cons_of_pos hf, filter_cons_of_neg (by rw [hg]; decide), hsame]
    · have hne : b ≠ a := fun heq => hnot (heq ▸ hrest)
      have hih := ih hl hrest fun b' hb' => h b' (mem_cons_of_mem _ hb')
      have hb := h b mem_cons_self hne
      cases hfb : f b with
      | true =>
        rw [filter_cons_of_pos hfb, filter_cons_of_pos (hb.trans hfb)]
        exact (hih.cons b).trans (List.Perm.swap _ _ _)
      | false =>
        rw [filter_cons_of_neg (by rw [hfb]; decide), filter_cons_of_neg (by rw [hb, hfb]; decide)]
        exact hih

def awaited (publishes : List (Publish v)) (seen : List ChunkEnvelope) : List (Publish v) :=
  (publishes.filter Publish.isSplit).filter fun p => !p.isComplete seen

theorem isComplete_of_all (hnodup : (publishes.map Publish.groupId).Nodup) {p : Publish v}
    (hp : p ∈ publishes) (hsplit : p.isSplit = true) {seen : List ChunkEnvelope}
    (hperm : List.Perm seen ((frames publishes).map Prod.snd)) : p.isComplete seen = true := by
  rcases p.cases with ⟨-, hnot⟩ | ⟨quanta, total, hs, -⟩
  · rw [hsplit] at hnot
    cases hnot
  · have hgroup : ∀ e ∈ p.envelopes, e.groupId? = some p.groupId := by
      intro e he
      obtain ⟨i, decoded, -, rfl⟩ := hs.mem he
      rfl
    have hall := hperm.filter fun e => e.groupId? == some p.groupId
    rw [← arrived, ← arrived, arrived_frames hnodup hp hgroup] at hall
    rw [Publish.isComplete, decide_eq_true_eq, hall.length_eq]

theorem receiveAll_delivers (o : ReassemblerOptions)
    (hnodup : (publishes.map Publish.groupId).Nodup) (arrivals : List (Int × GroupMessage))
    (seen : List (JsString × ChunkEnvelope)) (r : Reassembler)
    (htracks : Tracks (seen.map Prod.snd) (fun g => isOpen (seen.map Prod.snd) g = true) r)
    (hperm : List.Perm (seen ++ arrivals.map fun m => (m.2.group, m.2.data)) (frames publishes))
    (hceilings : WithinCeilings o (seen.map Prod.snd) (arrivals.map fun m => m.2.data)) :
    (∀ result ∈ receiveAll o v r arrivals, result.isOk = true) ∧
      List.Perm ((receiveAll o v r arrivals).filterMap payload?)
        ((arrivals.map fun m => (m.2.group, m.2.data)).filterMap (wholeDelivery v) ++
          (awaited publishes (seen.map Prod.snd)).filterMap Publish.delivery) := by
  induction arrivals generalizing seen r with
  | nil =>
    rw [map_nil, append_nil] at hperm
    have hnone : awaited publishes (seen.map Prod.snd) = [] := by
      refine filter_eq_nil_iff.mpr fun p hp => ?_
      obtain ⟨hp, hsplit⟩ := mem_filter.mp hp
      simp [isComplete_of_all hnodup hp hsplit (hperm.map Prod.snd)]
    rw [hnone]
    exact ⟨fun result hresult => absurd hresult not_mem_nil, List.Perm.refl _⟩
  | cons arrival arrivals ih =>
    obtain ⟨now, m⟩ := arrival
    obtain ⟨q, hq, hgroup, he⟩ := mem_frames (hperm.mem_iff.mp (mem_append_right seen mem_cons_self))
    obtain ⟨hceiling, hrest⟩ := hceilings
    have hvalid : parseGroupName m.group v = .ok q.parsed := by
      rw [show m.group = q.group from hgroup]
      exact q.valid
    have hseen : seen.map Prod.snd ++ [m.data] = (seen ++ [(m.group, m.data)]).map Prod.snd := by simp
    have hperm' : List.Perm (seen ++ [(m.group, m.data)] ++
        arrivals.map fun m => (m.2.group, m.2.data)) (frames publishes) := by
      rwa [append_assoc]
    rw [hseen] at hrest
    rw [receiveAll]
    rcases q.cases with ⟨hwhole, hsplit⟩ | ⟨quanta, total, hsplit, hissplit⟩
    · rw [hwhole, mem_singleton] at he
      have hdata : m.data = .message q.payload := he
      have hparse := parseInbound_groupMessage o now r hvalid (hdata ▸ Reassembler.ingest_message o now r q.payload)
      have hdelivery : wholeDelivery v (m.group, m.data) = q.delivery := by
        simp only [wholeDelivery, hdata, hvalid, Publish.delivery]
      have hawaited : awaited publishes ((seen ++ [(m.group, m.data)]).map Prod.snd) =
          awaited publishes (seen.map Prod.snd) := by
        refine filter_congr fun p _ => ?_
        rw [← hseen, isComplete_concat_of_ne (by rw [hdata]; exact fun h => by cases h)]
      have htracks' := htracks.concat_message q.payload
      rw [← hdata, hseen] at htracks'
      obtain ⟨hok, hrec⟩ := ih (seen ++ [(m.group, m.data)]) r htracks' hperm' hrest
      rw [hawaited] at hrec
      rw [hparse]
      refine ⟨forall_mem_cons.mpr ⟨rfl, hok⟩, ?_⟩
      rw [map_cons, filterMap_cons, filterMap_cons, hdelivery, ← Publish.delivery]
      cases q.delivery with
      | none => exact hrec
      | some delivered => exact hrec.cons delivered
    · have hmap : List.Perm (seen.map Prod.snd ++ m.data :: arrivals.map fun m => m.2.data)
          ((frames publishes).map Prod.snd) := by
        have hmap := hperm.map Prod.snd
        rwa [map_append, map_map] at hmap
      have harrival := arrival hnodup hq hsplit he hmap
      obtain ⟨r', hr', htracks'⟩ := ingest_segment now hsplit he harrival htracks hceiling
      have hparse := parseInbound_groupMessage o now r hvalid hr'
      rw [hseen] at htracks' hparse
      obtain ⟨hok, hrec⟩ := ih (seen ++ [(m.group, m.data)]) r' htracks' hperm' hrest
      have hnone : wholeDelivery v (m.group, m.data) = none := by
        obtain ⟨i, decoded, -, hdata⟩ := hsplit.mem he
        simp only [wholeDelivery, show m.data = _ from hdata]
      rw [hparse]
      refine ⟨forall_mem_cons.mpr ⟨rfl, hok⟩, ?_⟩
      rw [map_cons, filterMap_cons, filterMap_cons, hnone]
      have hid : m.data.groupId? = some q.groupId := by
        obtain ⟨i, decoded, -, hdata⟩ := hsplit.mem he
        rw [show m.data = _ from hdata]
        rfl
      have hbefore : q.isComplete (seen.map Prod.snd) = false := by
        rw [Publish.isComplete, hsplit.envelopes, length_map, length_range, decide_eq_false_iff_not]
        have hlt := harrival.lt
        exact fun hle => absurd hle (by omega)
      have hothers : ∀ p ∈ publishes, p ≠ q →
          p.isComplete ((seen ++ [(m.group, m.data)]).map Prod.snd) =
            p.isComplete (seen.map Prod.snd) := by
        intro p hp hne
        rw [← hseen]
        refine isComplete_concat_of_ne (fun heq => hne ?_) _
        exact inj_on_of_nodup_map hnodup hp hq (Option.some.inj (heq.symm.trans hid))
      cases hafter : q.isComplete ((seen ++ [(m.group, m.data)]).map Prod.snd) with
      | true =>
        have hawaited : List.Perm (awaited publishes (seen.map Prod.snd))
            (q :: awaited publishes ((seen ++ [(m.group, m.data)]).map Prod.snd)) := by
          refine filter_perm_of_unique (hnodup.of_map.filter _)
            (mem_filter.mpr ⟨hq, hissplit⟩) ?_ ?_ fun p hp hne => ?_
          · rw [hbefore]
            rfl
          · rw [hafter]
            rfl
          · rw [hothers p (mem_filter.mp hp).1 hne]
        refine List.Perm.trans ?_ ((hawaited.filterMap Publish.delivery).append_left _).symm
        rw [filterMap_cons, if_pos rfl, ← Publish.delivery]
        cases q.delivery with
        | none => exact hrec
        | some delivered => exact (hrec.cons delivered).trans perm_middle.symm
      | false =>
        have hawaited : awaited publishes (seen.map Prod.snd) =
            awaited publishes ((seen ++ [(m.group, m.data)]).map Prod.snd) := by
          refine filter_congr fun p hp => ?_
          by_cases hne : p = q
          · rw [hne, hbefore, hafter]
          · rw [hothers p (mem_filter.mp hp).1 hne]
        rw [hawaited]
        exact hrec

theorem frames_delivery (publishes : List (Publish v)) :
    List.Perm ((frames publishes).filterMap (wholeDelivery v) ++
      (publishes.filter Publish.isSplit).filterMap Publish.delivery)
        (publishes.filterMap Publish.delivery) := by
  induction publishes with
  | nil => exact List.Perm.refl _
  | cons p publishes ih =>
    have hframes : frames (p :: publishes) = p.envelopes.map (fun e => (p.group, e)) ++ frames publishes := rfl
    rw [hframes, filterMap_append, filterMap_cons]
    rcases p.cases with ⟨hwhole, hsplit⟩ | ⟨quanta, total, hs, hsplit⟩
    · have hdelivery : wholeDelivery v (p.group, .message p.payload) = p.delivery := by
        simp only [wholeDelivery, p.valid, Publish.delivery]
      rw [hwhole, filter_cons_of_neg (by rw [hsplit]; decide), map_singleton, filterMap_cons, hdelivery]
      cases p.delivery with
      | none => exact ih
      | some delivered => exact ih.cons delivered
    · have hnone : (p.envelopes.map fun e => (p.group, e)).filterMap (wholeDelivery v) = [] := by
        refine filterMap_eq_nil_iff.mpr fun frame hframe => ?_
        obtain ⟨e, he, rfl⟩ := mem_map.mp hframe
        obtain ⟨i, decoded, -, rfl⟩ := hs.mem he
        simp only [wholeDelivery]
      rw [hnone, nil_append, filter_cons_of_pos hsplit, filterMap_cons]
      cases p.delivery with
      | none => exact ih
      | some delivered => exact perm_middle.trans (ih.cons delivered)

theorem delivery_eq {p : Publish v} (h : p.payload ≠ .null) :
    p.delivery = some (p.parsed, p.payload) := by
  rw [Publish.delivery]
  cases hp : p.payload with
  | null => exact absurd hp h
  | bool | number | string | array | object => rfl

theorem delivery_null {p : Publish v} (h : p.payload = .null) : p.delivery = none := by
  rw [Publish.delivery, h]
  rfl

theorem delivery_perm_iff (publishes : List (Publish v)) :
    List.Perm (publishes.filterMap Publish.delivery)
      (publishes.map fun p => (p.parsed, p.payload)) ↔ ∀ p ∈ publishes, p.payload ≠ .null := by
  constructor
  · intro hperm p hp hnull
    have hlen := hperm.length_eq
    rw [length_map, length_filterMap_eq_countP, countP_eq_length] at hlen
    have hsome := hlen p hp
    rw [delivery_null hnull] at hsome
    cases hsome
  · intro h
    refine List.Perm.of_eq ?_
    rw [← filterMap_eq_map]
    exact filterMap_congr fun p hp => delivery_eq (h p hp)

end Collection

/-- Chunking loses nothing, in whatever order the envelopes of a collection of payloads arrive,
exactly when none of the payloads is null. -/
theorem lossless_iff (o : ReassemblerOptions) {v : ParseGroupNameOptions}
    (publishes : List (Publish v)) (arrivals : List (Int × GroupMessage))
    (hids : (publishes.map Publish.groupId).Nodup)
    (harrivals : List.Perm (arrivals.map fun m => (m.2.group, m.2.data)) (frames publishes))
    (hceilings : WithinCeilings o [] (arrivals.map fun m => m.2.data)) :
    Lossless o publishes arrivals ↔ ∀ p ∈ publishes, p.payload ≠ .null := by
  obtain ⟨hok, hperm⟩ := receiveAll_delivers o hids arrivals [] Reassembler.empty tracks_empty harrivals hceilings
  have hawaited : awaited publishes ([] : List ChunkEnvelope) =
      publishes.filter Publish.isSplit := by
    refine filter_eq_self.mpr fun p hp => ?_
    have hsplit := (mem_filter.mp hp).2
    have hne : p.envelopes.length ≠ 0 := by
      intro hzero
      rw [Publish.isSplit, length_eq_zero_iff.mp hzero] at hsplit
      cases hsplit
    rw [Publish.isComplete, Bool.not_eq_true', decide_eq_false_iff_not]
    exact fun hle => hne (Nat.le_zero.mp hle)
  rw [map_nil, hawaited] at hperm
  have hdelivered := (hperm.trans ((harrivals.filterMap _).append_right _)).trans (frames_delivery publishes)
  rw [← delivery_perm_iff]
  constructor
  · intro h
    exact hdelivered.symm.trans h.delivered
  · intro h
    refine ⟨hok, hdelivered.trans h, fun p _ => ?_⟩
    exact (chunked_of_chunk p.chunked).byteLength_le

def anyGroup : ParseGroupNameOptions := ⟨none, none, none⟩

def rootLane : JsString := ofText "user.u.env.e.root"

theorem parseGroupName_rootLane :
    parseGroupName rootLane anyGroup = .ok ⟨.env .root, ofText "u", ofText "e"⟩ := by
  decide +kernel

def nullPublish : Publish anyGroup where
  payload := .null
  wellFormed := trivial
  maxChunkBytes := none
  groupId := ofText "g"
  envelopes := [.message .null]
  chunked := by
    have hlen : (utf8Bytes Json.null.text).length = 4 := by decide +kernel
    have hbytes : byteLength (ChunkEnvelope.message .null).toJson = 30 := by decide +kernel
    simp only [chunk, hlen, hbytes, Option.getD_none, defaultMaxChunkBytes, defaultMaxReassemblyBytes]
    norm_num
  group := rootLane
  parsed := _
  valid := parseGroupName_rootLane

/-- The null payload is taken for a segment that waits for others. -/
theorem not_lossless_of_null :
    ¬ ∀ (o : ReassemblerOptions) (v : ParseGroupNameOptions) (publishes : List (Publish v))
      (arrivals : List (Int × GroupMessage)), (publishes.map Publish.groupId).Nodup →
      List.Perm (arrivals.map fun m => (m.2.group, m.2.data)) (frames publishes) →
      WithinCeilings o [] (arrivals.map fun m => m.2.data) → Lossless o publishes arrivals := by
  intro h
  have hceilings : WithinCeilings {} [] [.message .null] := ⟨fun g hg => (by cases hg), trivial⟩
  have hlossless := h {} anyGroup [nullPublish] [(0, ⟨rootLane, .message .null, none, none⟩)]
    (nodup_singleton _) (List.Perm.refl _) hceilings
  have hlen := hlossless.delivered.length_eq
  have hnone : (receiveAll {} anyGroup Reassembler.empty
      [(0, ⟨rootLane, .message .null, none, none⟩)]).filterMap payload? = [] := by
    rw [receiveAll, parseInbound_groupMessage {} 0 _ parseGroupName_rootLane (Reassembler.ingest_message {} 0 _ .null)]
    rfl
  rw [hnone] at hlen
  cases hlen

def splitPublish : Publish anyGroup where
  payload := .string (List.replicate 148 97)
  wellFormed := trivial
  maxChunkBytes := some 166
  groupId := ofText "g"
  envelopes := (List.range 2).map (segment (utf8Bytes (Json.string (List.replicate 148 97)).text) 75 2 (ofText "g"))
  chunked := by
    have hlen : (utf8Bytes (Json.string (List.replicate 148 97)).text).length = 150 := by
      decide +kernel
    have hbytes : byteLength (ChunkEnvelope.message (.string (List.replicate 148 97))).toJson = 176 := by decide +kernel
    have hempty : byteLength (emptyEnvelope (ofText "g")).toJson = 66 := by decide +kernel
    have hid : (ofText "g").length = 1 := by decide
    simp only [chunk, chunkSegments, hlen, hbytes, hempty, hid, Option.getD_some,
      defaultMaxReassemblyBytes, defaultMaxSegmentsPerGroup]
    have hbudget : (⌊((166 : ℚ) - (66 : ℕ)) / 4⌋ * 4 / 4 * 3).toNat = 75 := by
      norm_num
      rfl
    have hceil : ⌈((150 : ℕ) : ℚ) / ((75 : ℕ) : ℚ)⌉₊ = 2 := by norm_num
    rw [hbudget, hceil]
    norm_num
  group := rootLane
  parsed := _
  valid := parseGroupName_rootLane

theorem lossless_iff_split :
    Lossless {} [splitPublish] ((frames [splitPublish]).reverse.map fun frame =>
      (0, ⟨frame.1, frame.2, none, none⟩)) := by
  refine (lossless_iff {} [splitPublish] _ (nodup_singleton _) ?_ ?_).mpr ?_
  · rw [map_map]
    exact (List.Perm.of_eq (map_id _)).trans (reverse_perm _)
  · refine ⟨fun g hg => ?_, fun g hg => ?_, trivial⟩
    all_goals
      obtain rfl := Option.some.inj hg
      decide +kernel
  · intro p hp
    rw [mem_singleton.mp hp]
    exact fun h => by cases h

end Gavea.WebPubSub
