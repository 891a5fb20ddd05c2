import Gavea.Ipc.PersistentProtocol
import Gavea.Lib.Runs

namespace Gavea.Ipc

open Gavea.Lib Gavea.Lib.Runs

variable {p : PersistentProtocol} {out inc : AckedStream VSBuffer} {now : Int} {hasHighLoad : Bool}

structure Sound (out inc : AckedStream VSBuffer) (msg : ProtocolMessage) : Prop where
  ack : msg.ack ≤ inc.delivered
  entry : msg.type = .regular → (msg.data, msg.id) ∈ AckedStream.entries out.sent

structure Serves (p : PersistentProtocol) (out inc : AckedStream VSBuffer) : Prop where
  sent : p.sent = out.sent
  outgoing : p.outgoingMsgId = out.sent.length
  small : out.sent.length < 2 ^ 32
  acked : p.outgoingAckId = out.acked
  queue : p.outgoingUnackMsg.elements.map (fun msg => (msg.data, msg.id)) = out.unacked
  regular : ∀ msg ∈ p.outgoingUnackMsg.elements, msg.type = .regular ∧ msg.ack ≤ inc.delivered
  incoming : p.incomingMsgId = inc.delivered
  output : p.onMessage = inc.output
  ackId : p.incomingAckId ≤ inc.delivered
  writer : ∀ msg ∈ p.socketWriter.data, Sound out inc msg

structure Progress (out inc out' inc' : AckedStream VSBuffer) : Prop where
  sent : out.sent <+: out'.sent
  delivered : out'.delivered = out.delivered
  peerSent : inc'.sent = inc.sent
  peerAcked : inc'.acked = inc.acked
  peerDelivered : inc.delivered ≤ inc'.delivered

theorem Progress.refl : Progress out inc out inc := ⟨List.prefix_rfl, rfl, rfl, rfl, le_rfl⟩

theorem Progress.trans {out' inc' out'' inc'' : AckedStream VSBuffer}
    (h : Progress out inc out' inc') (h' : Progress out' inc' out'' inc'') :
    Progress out inc out'' inc'' :=
  ⟨h.sent.trans h'.sent, h'.delivered.trans h.delivered, h'.peerSent.trans h.peerSent,
    h'.peerAcked.trans h.peerAcked, h.peerDelivered.trans h'.peerDelivered⟩

theorem progress_send (buffer : VSBuffer) : Progress out inc (out.send buffer) inc :=
  ⟨List.prefix_append _ _, rfl, rfl, rfl, le_rfl⟩

theorem progress_acknowledge {ack : Nat} (hack : ack ≤ out.delivered) :
    Progress out inc (out.acknowledge ack hack) inc :=
  ⟨List.prefix_rfl, rfl, rfl, rfl, le_rfl⟩

theorem progress_deliver (h : inc.delivered < inc.sent.length) :
    Progress out inc out (inc.deliver h) :=
  ⟨List.prefix_rfl, rfl, rfl, rfl, Nat.le_succ _⟩

theorem Progress.mono {out' inc' : AckedStream VSBuffer} (h : Progress out inc out' inc')
    {msg : ProtocolMessage} (hmsg : Sound out inc msg) : Sound out' inc' msg where
  ack := hmsg.ack.trans h.peerDelivered
  entry htype := AckedStream.mem_entries_of_prefix h.sent (hmsg.entry htype)

theorem Progress.mono_peer {out' inc' : AckedStream VSBuffer} (h : Progress out inc out' inc')
    {msg : ProtocolMessage} (hmsg : Sound inc out msg) : Sound inc' out' msg where
  ack := hmsg.ack.trans h.delivered.ge
  entry htype := h.peerSent ▸ hmsg.entry htype

theorem Sound.header {msg : ProtocolMessage} (h : Sound out inc msg)
    (hsmall : out.sent.length < 2 ^ 32) : Sound out inc (ProtocolWriter.header msg) where
  ack := (Nat.mod_le _ _).trans h.ack
  entry htype := by
    have hmem := h.entry htype
    have hlt := (AckedStream.le_of_mem_entries hmem).trans_lt hsmall
    simpa only [ProtocolWriter.header, Nat.mod_eq_of_lt hlt] using hmem

theorem sound_plain {type : ProtocolMessageType} {ack : Nat} {data : VSBuffer}
    (htype : type ≠ .regular) (hack : ack ≤ inc.delivered) :
    Sound out inc (.new type 0 ack data) :=
  ⟨hack, fun h => absurd h htype⟩

theorem Serves.sound_queued (h : Serves p out inc) {msg : ProtocolMessage}
    (hmem : msg ∈ p.outgoingUnackMsg.elements) : Sound out inc msg := by
  refine ⟨(h.regular msg hmem).2, fun _ => List.mem_of_mem_drop (i := out.acked) ?_⟩
  change _ ∈ out.unacked
  rw [← h.queue]
  exact List.mem_map_of_mem (f := fun msg => (msg.data, msg.id)) hmem

theorem ProtocolWriter.mem_write {w : ProtocolWriter} {msg m : ProtocolMessage}
    (hm : m ∈ (w.write msg now).data) :
    m ∈ w.data ∨ m = header { msg with writtenTime := now } := by
  rw [write] at hm
  split_ifs at hm
  · exact .inl hm
  · simpa using hm

theorem Serves.write (h : Serves p out inc) {msg : ProtocolMessage} (hmsg : Sound out inc msg)
    (now : Int) : Serves (p.write msg now) out inc :=
  { h with
    writer := fun m hm => by
      rcases ProtocolWriter.mem_write hm with hm | rfl
      · exact h.writer m hm
      · exact Sound.header ⟨hmsg.ack, hmsg.entry⟩ h.small }

theorem Serves.writeQueued (h : Serves p out inc) (now : Int) :
    Serves (p.writeQueued now) out inc := by
  have hwriter : ∀ m ∈ (p.writeQueued now).socketWriter.data, Sound out inc m := by
    have hfold : ∀ (msgs : List ProtocolMessage) (w : ProtocolWriter),
        (∀ msg ∈ msgs, Sound out inc msg) → (∀ m ∈ w.data, Sound out inc m) →
          ∀ m ∈ (msgs.foldl (fun w msg => w.write msg now) w).data, Sound out inc m := by
      intro msgs
      induction msgs with
      | nil => exact fun w _ hw => hw
      | cons msg rest ih =>
        intro w hmsgs hw
        refine ih _ (fun m hm => hmsgs m (List.mem_cons_of_mem msg hm)) fun m hm => ?_
        rcases ProtocolWriter.mem_write hm with hm | rfl
        · exact hw m hm
        · have hmsg := hmsgs msg List.mem_cons_self
          exact Sound.header ⟨hmsg.ack, hmsg.entry⟩ h.small
    exact hfold _ _ (fun msg hmsg => h.sound_queued hmsg) h.writer
  refine { h with writer := hwriter, queue := ?_, regular := ?_ }
  · rw [PersistentProtocol.writeQueued, ← h.queue]
    split_ifs
    · rfl
    · rw [List.map_map]
      rfl
  · intro msg hmsg
    rw [PersistentProtocol.writeQueued] at hmsg
    split_ifs at hmsg
    · exact h.regular msg hmsg
    · obtain ⟨queued, hqueued, rfl⟩ := List.mem_map.mp hmsg
      exact h.regular queued hqueued

theorem Serves.recvAckCheck (h : Serves p out inc) (now : Int) (hasHighLoad : Bool) :
    Serves (p.recvAckCheck now hasHighLoad) out inc := by
  rw [PersistentProtocol.recvAckCheck]
  split_ifs
  · exact h
  · exact h
  · exact h
  · split
    · exact h
    · split_ifs <;> exact { h with }

theorem Serves.keepAliveTimeoutCheck (h : Serves p out inc) (now : Int) (hasHighLoad : Bool) :
    Serves (p.keepAliveTimeoutCheck now hasHighLoad) out inc := by
  rw [PersistentProtocol.keepAliveTimeoutCheck]
  split_ifs <;> exact { h with }

theorem Serves.ackCurrent (h : Serves p out inc) :
    Serves { p with incomingAckId := p.incomingMsgId } out inc :=
  { h with ackId := h.incoming.le }

theorem Serves.sendAck (h : Serves p out inc) (now : Int) : Serves (p.sendAck now) out inc := by
  rw [PersistentProtocol.sendAck]
  split_ifs
  · exact h
  · exact h.ackCurrent.write (sound_plain (by decide) h.incoming.le) now

theorem Serves.sendAckCheck (h : Serves p out inc) (now : Int) :
    Serves (p.sendAckCheck now) out inc := by
  rw [PersistentProtocol.sendAckCheck]
  split_ifs
  · exact h
  · exact h
  · exact h.sendAck now
  · exact { h with }

theorem Serves.sendKeepAlive (h : Serves p out inc) (now : Int) (hasHighLoad : Bool) :
    Serves (p.sendKeepAlive now hasHighLoad) out inc :=
  (h.ackCurrent.write (sound_plain (by decide) h.incoming.le) now).keepAliveTimeoutCheck now hasHighLoad

theorem Serves.send (h : Serves p out inc) (buffer : VSBuffer) (now : Int) (hasHighLoad : Bool)
    (hsmall : p.outgoingMsgId + 1 < 2 ^ 32) :
    Serves (p.send buffer now hasHighLoad) (out.send buffer) inc := by
  have hlen : (out.send buffer).sent.length = p.outgoingMsgId + 1 := by
    rw [h.outgoing]
    exact List.length_append
  have hmsg : Sound (out.send buffer) inc
      (.new .regular (p.outgoingMsgId + 1) p.incomingMsgId buffer) := by
    refine ⟨h.incoming.le, fun _ => List.mem_of_mem_drop (i := out.acked) ?_⟩
    change _ ∈ (out.send buffer).unacked
    rw [AckedStream.unacked_send, h.outgoing]
    exact List.mem_append_right _ (List.mem_singleton_self _)
  rw [PersistentProtocol.send]
  set queued : PersistentProtocol := { p with
    outgoingMsgId := p.outgoingMsgId + 1
    incomingAckId := p.incomingMsgId
    outgoingUnackMsg := _
    sent := p.sent ++ [buffer] } with hqueued
  have hserves : Serves queued (out.send buffer) inc := by
    refine ⟨?_, hlen.symm, hlen ▸ hsmall, h.acked, ?_, ?_, h.incoming, h.output, h.incoming.le,
      fun m hm => (progress_send buffer).mono (h.writer m hm)⟩
    · exact congrArg (· ++ [buffer]) h.sent
    · rw [AckedStream.unacked_send, ← h.queue, ← h.outgoing]
      exact List.map_append
    · intro msg hmem
      rcases List.mem_append.mp hmem with hmem | hmem
      · exact h.regular msg hmem
      · obtain rfl := List.mem_singleton.mp hmem
        exact ⟨rfl, h.incoming.le⟩
  split_ifs
  · exact hserves
  · exact (hserves.write hmsg now).recvAckCheck now hasHighLoad

theorem popAcked_eq (ack : Nat) (msgs : List ProtocolMessage) :
    PersistentProtocol.popAcked ack msgs = msgs.dropWhile (·.id ≤ ack) := by
  induction msgs with
  | nil => rfl
  | cons first rest ih =>
    rw [PersistentProtocol.popAcked, List.dropWhile_cons, ih]
    by_cases hle : first.id ≤ ack <;> simp [hle]

theorem Serves.receiveAck (h : Serves p out inc) {ack : Nat} (hack : ack ≤ out.delivered) :
    Serves (p.receiveAck ack) (out.acknowledge ack hack) inc := by
  have hwriter : ∀ m ∈ p.socketWriter.data, Sound (out.acknowledge ack hack) inc m :=
    fun m hm => (progress_acknowledge hack).mono (h.writer m hm)
  rw [PersistentProtocol.receiveAck]
  split_ifs with hnew
  · have hmax : max out.acked ack = ack := max_eq_right (h.acked ▸ hnew.le)
    refine { h with acked := hmax.symm, queue := ?_, regular := fun msg hmsg => ?_,
                    writer := hwriter }
    · rw [popAcked_eq, AckedStream.unacked_acknowledge, ← h.queue, List.dropWhile_map]
      rfl
    · rw [popAcked_eq] at hmsg
      exact h.regular msg ((List.dropWhile_sublist _).subset hmsg)
  · have hmax : max out.acked ack = out.acked := max_eq_left (h.acked ▸ not_lt.mp hnew)
    refine { h with acked := ?_, queue := ?_, writer := hwriter }
    · rw [h.acked]
      exact hmax.symm
    · rw [h.queue, AckedStream.unacked, AckedStream.unacked]
      exact congrArg (List.drop · _) hmax.symm

theorem sendAckCheck_onMessage (data : VSBuffer) (now : Int) :
    { p.sendAckCheck now with onMessage := (p.sendAckCheck now).onMessage ++ [data] } =
      PersistentProtocol.sendAckCheck { p with onMessage := p.onMessage ++ [data] } now := by
  rw [PersistentProtocol.sendAckCheck, PersistentProtocol.sendAckCheck]
  split_ifs
  · rfl
  · rfl
  · rw [PersistentProtocol.sendAck, PersistentProtocol.sendAck]
    split_ifs
    rfl
  · rfl

theorem Serves.receiveRegular (h : Serves p out inc) {msg : ProtocolMessage}
    (hmsg : (msg.data, msg.id) ∈ AckedStream.entries inc.sent) (now : Int) :
    ∃ inc', Progress out inc out inc' ∧ Serves (p.receiveRegular msg now) out inc' := by
  rw [PersistentProtocol.receiveRegular]
  split_ifs with hnew hgap htime
  · have hserves : Serves { p with lastReplayRequestTime := now } out inc := { h with }
    exact ⟨inc, .refl, hserves.write (sound_plain (by decide) (Nat.zero_le _)) now⟩
  · exact ⟨inc, .refl, h⟩
  · have hid : msg.id = inc.delivered + 1 := by
      rw [← h.incoming]
      exact not_not.mp hgap
    obtain ⟨-, hitem⟩ := AckedStream.mem_entries.mp hmsg
    rw [hid, Nat.add_sub_cancel] at hitem
    obtain ⟨hlt, hdata⟩ := List.getElem?_eq_some_iff.mp hitem
    have hprogress : Progress out inc out (inc.deliver hlt) := progress_deliver hlt
    have hserves : Serves { p with
        incomingMsgId := msg.id
        incomingMsgLastTime := now
        onMessage := p.onMessage ++ [msg.data] } out (inc.deliver hlt) :=
      { h with
        regular := fun m hm => ⟨(h.regular m hm).1, (h.regular m hm).2.trans (Nat.le_succ _)⟩
        incoming := hid
        output := by rw [h.output, AckedStream.output_deliver, hdata]
        ackId := h.ackId.trans (Nat.le_succ _)
        writer := fun m hm => hprogress.mono (h.writer m hm) }
    exact ⟨_, hprogress, (sendAckCheck_onMessage (p := { p with
      incomingMsgId := msg.id
      incomingMsgLastTime := now }) msg.data now) ▸ hserves.sendAckCheck now⟩
  · exact ⟨inc, .refl, h⟩

theorem Serves.receiveMessage (h : Serves p out inc) {msg : ProtocolMessage}
    (hmsg : Sound inc out msg) (now : Int) (hasHighLoad : Bool) :
    ∃ out' inc', Progress out inc out' inc' ∧
      Serves (p.receiveMessage msg now hasHighLoad) out' inc' := by
  have hacked := h.receiveAck hmsg.ack
  have hprogress : Progress out inc (out.acknowledge msg.ack hmsg.ack) inc := progress_acknowledge hmsg.ack
  rw [PersistentProtocol.receiveMessage]
  cases htype : msg.type with
  | none => exact ⟨_, _, hprogress, hacked⟩
  | ack => exact ⟨_, _, hprogress, hacked⟩
  | keepAlive => exact ⟨_, _, hprogress, hacked⟩
  | regular =>
    obtain ⟨inc', hinc, h'⟩ := hacked.receiveRegular (hmsg.entry htype) now
    exact ⟨_, inc', hprogress.trans hinc, h'⟩
  | control => exact ⟨_, _, hprogress, { hacked with }⟩
  | disconnect => exact ⟨_, _, hprogress, { hacked with }⟩
  | replayRequest => exact ⟨_, _, hprogress, (hacked.writeQueued now).recvAckCheck now hasHighLoad⟩
  | pause => exact ⟨_, _, hprogress, { hacked with }⟩
  | resume => exact ⟨_, _, hprogress, { hacked with }⟩

theorem Serves.acceptChunk (h : Serves p out inc) {msgs : List ProtocolMessage}
    (hmsgs : ∀ msg ∈ msgs, Sound inc out msg) (now : Int) (hasHighLoad : Bool) :
    ∃ out' inc', Progress out inc out' inc' ∧
      Serves (p.acceptChunk msgs now hasHighLoad) out' inc' := by
  have hfold : ∀ (msgs : List ProtocolMessage) (p : PersistentProtocol)
      (out inc : AckedStream VSBuffer), Serves p out inc → (∀ msg ∈ msgs, Sound inc out msg) →
        ∃ out' inc', Progress out inc out' inc' ∧
          Serves (msgs.foldl (fun p msg => p.receiveMessage msg now hasHighLoad) p) out' inc' := by
    intro msgs
    induction msgs with
    | nil => exact fun p out inc h _ => ⟨out, inc, .refl, h⟩
    | cons msg rest ih =>
      intro p out inc h hmsgs
      obtain ⟨out1, inc1, hp1, h1⟩ := h.receiveMessage (hmsgs msg List.mem_cons_self) now hasHighLoad
      obtain ⟨out2, inc2, hp2, h2⟩ := ih _ out1 inc1 h1 fun m hm =>
        hp1.mono_peer (hmsgs m (List.mem_cons_of_mem msg hm))
      exact ⟨out2, inc2, hp1.trans hp2, h2⟩
  exact hfold msgs _ out inc { h with } hmsgs

theorem Serves.peer {q : PersistentProtocol} {out' inc' : AckedStream VSBuffer}
    (h : Serves q inc out) (hp : Progress out inc out' inc') : Serves q inc' out' where
  sent := h.sent.trans hp.peerSent.symm
  outgoing := by
    rw [hp.peerSent]
    exact h.outgoing
  small := by
    rw [hp.peerSent]
    exact h.small
  acked := h.acked.trans hp.peerAcked.symm
  queue := by
    rw [h.queue, AckedStream.unacked, AckedStream.unacked, hp.peerSent, hp.peerAcked]
  regular msg hmsg := ⟨(h.regular msg hmsg).1, (h.regular msg hmsg).2.trans hp.delivered.ge⟩
  incoming := h.incoming.trans hp.delivered.symm
  output := by
    obtain ⟨l, hl⟩ := hp.sent
    rw [h.output, AckedStream.output, AckedStream.output, hp.delivered, ← hl,
      List.take_append_of_le_length out.delivered_le]
  ackId := h.ackId.trans hp.delivered.ge
  writer m hm := hp.mono_peer (h.writer m hm)

theorem Serves.writeNow (h : Serves p out inc) :
    Serves { p with socketWriter := p.socketWriter.writeNow.1 } out inc ∧
      ∀ msg ∈ p.socketWriter.writeNow.2, Sound out inc msg := by
  rw [ProtocolWriter.writeNow]
  split_ifs
  · exact ⟨{ h with }, by simp⟩
  · exact ⟨{ h with writer := by simp }, h.writer⟩

theorem Serves.sendDisconnect (h : Serves p out inc) (now : Int) :
    Serves (p.sendDisconnect now).1 out inc ∧
      ∀ msg ∈ (p.sendDisconnect now).2, Sound out inc msg := by
  unfold PersistentProtocol.sendDisconnect
  split_ifs
  · exact ⟨h, by simp⟩
  · have hmarked : Serves { p with didSendDisconnect := true } out inc := { h with }
    have hmsg : Sound out inc (.new .disconnect 0 0 []) := sound_plain (by decide) (Nat.zero_le _)
    exact (hmarked.write hmsg now).writeNow

theorem Serves.dispose (h : Serves p out inc) :
    Serves p.dispose.1 out inc ∧ ∀ msg ∈ p.dispose.2, Sound out inc msg :=
  ⟨{ h.writeNow.1 with }, h.writeNow.2⟩

theorem Serves.beginAcceptReconnection (h : Serves p out inc) (socket : Nat)
    {initialData : List ProtocolMessage} (hdata : ∀ msg ∈ initialData, Sound inc out msg)
    (now : Int) (hasHighLoad : Bool) :
    ∃ out' inc', Progress out inc out' inc' ∧
      Serves (p.beginAcceptReconnection socket initialData now hasHighLoad).1 out' inc' ∧
        ∀ msg ∈ (p.beginAcceptReconnection socket initialData now hasHighLoad).2,
          Sound out' inc' msg := by
  have hnew : Serves { p with
      isReconnecting := true
      lastReplayRequestTime := 0
      lastSocketTimeoutTime := now
      socket
      socketWriter := .new
      readerDisposed := false
      lastReadTime := now } out inc := { h with writer := by simp [ProtocolWriter.new] }
  obtain ⟨out', inc', hp, hs⟩ := hnew.acceptChunk hdata now hasHighLoad
  exact ⟨out', inc', hp, hs, fun msg hmsg => hp.mono (h.writeNow.2 msg hmsg)⟩

theorem Serves.endAcceptReconnection (h : Serves p out inc) (now : Int) (hasHighLoad : Bool) :
    Serves (p.endAcceptReconnection now hasHighLoad) out inc := by
  have hended : Serves { p with isReconnecting := false } out inc := { h with }
  have hmsg : Sound out inc (.new .ack 0 p.incomingMsgId []) := sound_plain (by decide) h.incoming.le
  exact ((hended.ackCurrent.write hmsg now).writeQueued now).recvAckCheck now hasHighLoad

namespace Connection

variable {c c' : Connection} {streams : Side → AckedStream VSBuffer} {side : Side}

@[simp] theorem other_ne (side : Side) : side.other ≠ side := by cases side <;> decide

@[simp] theorem other_other (side : Side) : side.other.other = side := by cases side <;> rfl

theorem eq_or_eq_other (side side' : Side) : side' = side ∨ side' = side.other := by
  cases side <;> cases side' <;> decide

structure Consistent (c : Connection) (streams : Side → AckedStream VSBuffer) : Prop where
  serves : ∀ side, Serves (c.ends side) (streams side) (streams side.other)
  wire : ∀ socket side, ∀ msg ∈ c.wire socket side, Sound (streams side) (streams side.other) msg

def seenFrom (side : Side) (out inc : AckedStream VSBuffer) : Side → AckedStream VSBuffer :=
  fun side' => if side' = side then out else inc

@[simp] theorem seenFrom_self : seenFrom side out inc side = out := if_pos rfl

@[simp] theorem seenFrom_other : seenFrom side out inc side.other = inc := if_neg (other_ne side)

theorem Consistent.setEnd (h : Consistent c streams)
    (hp : Progress (streams side) (streams side.other) out inc) (hs : Serves p out inc) :
    Consistent (c.setEnd side p) (seenFrom side out inc) where
  serves side' := by
    rcases eq_or_eq_other side side' with rfl | rfl
    · simpa [Connection.setEnd] using hs
    · have hother := h.serves side.other
      rw [other_other] at hother
      simpa [Connection.setEnd] using hother.peer hp
  wire socket side' msg hmsg := by
    have hold := h.wire socket side' msg hmsg
    rcases eq_or_eq_other side side' with rfl | rfl
    · simpa using hp.mono hold
    · rw [other_other] at hold
      simpa using hp.mono_peer hold

theorem Consistent.setEnd_same (h : Consistent c streams)
    (hs : Serves p (streams side) (streams side.other)) :
    Consistent (c.setEnd side p) streams := by
  have hsame : seenFrom side (streams side) (streams side.other) = streams := by
    funext side'
    rcases eq_or_eq_other side side' with rfl | rfl <;> simp
  exact hsame ▸ h.setEnd .refl hs

theorem Consistent.setWire (h : Consistent c streams) (socket : Nat) {msgs : List ProtocolMessage}
    (hmsgs : ∀ msg ∈ msgs, Sound (streams side) (streams side.other) msg) :
    Consistent (c.setWire socket side msgs) streams where
  serves := h.serves
  wire socket' side' msg hmsg := by
    by_cases hs : socket' = socket
    · subst hs
      by_cases hd : side' = side
      · subst hd
        exact hmsgs msg (by simpa [Connection.setWire] using hmsg)
      · exact h.wire socket' side' msg (by simpa [Connection.setWire, hd] using hmsg)
    · exact h.wire socket' side' msg (by simpa [Connection.setWire, hs] using hmsg)

theorem Consistent.put (h : Consistent c streams) (socket : Nat) {msgs : List ProtocolMessage}
    (hmsgs : ∀ msg ∈ msgs, Sound (streams side) (streams side.other) msg) :
    Consistent (c.put socket side msgs) streams :=
  h.setWire socket fun msg hmsg => (List.mem_append.mp hmsg).elim (h.wire socket side msg) (hmsgs msg)

theorem Consistent.take (h : Consistent c streams) (side : Side) (socket count : Nat) :
    Consistent (c.take socket side count).2 streams ∧
      ∀ msg ∈ (c.take socket side count).1, Sound (streams side) (streams side.other) msg :=
  ⟨h.setWire socket fun msg hmsg => h.wire socket side msg (List.mem_of_mem_drop hmsg),
    fun msg hmsg => h.wire socket side msg (List.mem_of_mem_take hmsg)⟩

def IdsFit (c : Connection) : Event → Prop
  | .send side _ _ _ => (c.ends side).outgoingMsgId + 1 < 2 ^ 32
  | _ => True

instance IdsFit.decidable (c : Connection) : (e : Event) → Decidable (IdsFit c e)
  | .send side _ _ _ => inferInstanceAs (Decidable ((c.ends side).outgoingMsgId + 1 < 2 ^ 32))
  | .sendControl _ _ _ | .sendPause _ _ | .sendResume _ _ | .pauseSocketWriting _
  | .sendDisconnect _ _ | .flush _ | .receive _ _ _ _ | .lose _ _ _
  | .beginAcceptReconnection _ _ _ _ _ | .endAcceptReconnection _ _ _ | .keepAlive _ _ _
  | .incomingAckTimer _ _ | .outgoingAckTimer _ _ _ | .dispose _ => inferInstanceAs (Decidable True)

theorem consistent_step (h : ∃ streams, Consistent c streams) {e : Event} (hids : IdsFit c e)
    (hstep : c.step e = some c') : ∃ streams, Consistent c' streams := by
  obtain ⟨streams, h⟩ := h
  cases e with
  | send side buffer now hasHighLoad =>
    obtain rfl := Option.some.inj hstep
    exact ⟨_, h.setEnd (progress_send buffer) ((h.serves side).send buffer now hasHighLoad hids)⟩
  | sendControl side buffer now =>
    obtain rfl := Option.some.inj hstep
    exact ⟨_, h.setEnd_same ((h.serves side).write (sound_plain (by decide) (Nat.zero_le _)) now)⟩
  | sendPause side now =>
    obtain rfl := Option.some.inj hstep
    exact ⟨_, h.setEnd_same ((h.serves side).write (sound_plain (by decide) (Nat.zero_le _)) now)⟩
  | sendResume side now =>
    obtain rfl := Option.some.inj hstep
    exact ⟨_, h.setEnd_same ((h.serves side).write (sound_plain (by decide) (Nat.zero_le _)) now)⟩
  | pauseSocketWriting side =>
    obtain rfl := Option.some.inj hstep
    exact ⟨_, h.setEnd_same { h.serves side with }⟩
  | sendDisconnect side now =>
    obtain rfl := Option.some.inj hstep
    obtain ⟨hs, hdata⟩ := (h.serves side).sendDisconnect now
    exact ⟨_, (h.setEnd_same hs).put _ hdata⟩
  | flush side =>
    obtain rfl := Option.some.inj hstep
    obtain ⟨hs, hdata⟩ := (h.serves side).writeNow
    exact ⟨_, (h.setEnd_same hs).put _ hdata⟩
  | receive side count now hasHighLoad =>
    simp only [step] at hstep
    split_ifs at hstep
    obtain rfl := Option.some.inj hstep
    obtain ⟨htake, hmsgs⟩ := h.take side.other (c.ends side).socket count
    rw [other_other] at hmsgs
    obtain ⟨out', inc', hp, hs⟩ := (h.serves side).acceptChunk hmsgs now hasHighLoad
    exact ⟨_, htake.setEnd hp hs⟩
  | lose socket side kept =>
    obtain rfl := Option.some.inj hstep
    exact ⟨_, h.setWire socket fun msg hmsg => h.wire socket side msg (List.mem_of_mem_take hmsg)⟩
  | beginAcceptReconnection side socket count now hasHighLoad =>
    obtain rfl := Option.some.inj hstep
    obtain ⟨htake, hmsgs⟩ := h.take side.other socket count
    rw [other_other] at hmsgs
    obtain ⟨out', inc', hp, hs, hdata⟩ := (h.serves side).beginAcceptReconnection socket hmsgs now hasHighLoad
    refine ⟨_, (htake.setEnd hp hs).put _ fun msg hmsg => ?_⟩
    rw [seenFrom_self, seenFrom_other]
    exact hdata msg hmsg
  | endAcceptReconnection side now hasHighLoad =>
    obtain rfl := Option.some.inj hstep
    exact ⟨_, h.setEnd_same ((h.serves side).endAcceptReconnection now hasHighLoad)⟩
  | keepAlive side now hasHighLoad =>
    simp only [step] at hstep
    split_ifs at hstep
    obtain rfl := Option.some.inj hstep
    exact ⟨_, h.setEnd_same ((h.serves side).sendKeepAlive now hasHighLoad)⟩
  | incomingAckTimer side now =>
    simp only [step] at hstep
    split_ifs at hstep
    obtain rfl := Option.some.inj hstep
    have hfired : Serves { c.ends side with incomingAckTimeout := false } (streams side)
        (streams side.other) := { h.serves side with }
    exact ⟨_, h.setEnd_same (hfired.sendAckCheck now)⟩
  | outgoingAckTimer side now hasHighLoad =>
    simp only [step] at hstep
    split_ifs at hstep
    obtain rfl := Option.some.inj hstep
    have hfired : Serves { c.ends side with outgoingAckTimeout := false } (streams side)
        (streams side.other) := { h.serves side with }
    exact ⟨_, h.setEnd_same (hfired.recvAckCheck now hasHighLoad)⟩
  | dispose side =>
    obtain rfl := Option.some.inj hstep
    obtain ⟨hs, hdata⟩ := (h.serves side).dispose
    exact ⟨_, (h.setEnd_same hs).put _ hdata⟩

theorem consistent_new (sendKeepAlive : Side → Bool) (now : Int) :
    Consistent (new sendKeepAlive now) fun _ => .empty := by
  refine ⟨fun side => ?_, fun socket side msg hmsg => by cases hmsg⟩
  refine ⟨rfl, rfl, by decide, rfl, rfl, ?_, rfl, rfl, le_rfl, ?_⟩ <;>
    simp [new, PersistentProtocol.new, ProtocolWriter.new]

/-- Exactly once and in order: what an end hands to `onMessage` is a prefix of what its peer
was given to send, and the peer still has the rest in its queue. -/
structure Delivers (sender receiver : PersistentProtocol) : Prop where
  inOrder : receiver.onMessage <+: sender.sent
  unacknowledged : ∀ (k : Nat) (hk : k < sender.sent.length), receiver.onMessage.length ≤ k →
    ∃ msg ∈ sender.outgoingUnackMsg.toArray, msg.type = .regular ∧ msg.id = k + 1 ∧ msg.data = sender.sent[k]

theorem Consistent.delivers (h : Consistent c streams) (side : Side) :
    Delivers (c.ends side) (c.ends side.other) := by
  have hs := h.serves side
  have hr := h.serves side.other
  rw [other_other] at hr
  have hout : (c.ends side.other).onMessage = (streams side).output := hr.output
  refine ⟨?_, fun k hk hlen => ?_⟩
  · rw [hout, hs.sent]
    exact (streams side).prefix_output
  · rw [hout, AckedStream.length_output] at hlen
    have hk' : k < (streams side).sent.length := hs.sent ▸ hk
    have hmem := (streams side).mem_unacked hlen hk'
    rw [← hs.queue] at hmem
    obtain ⟨msg, hmsg, heq⟩ := List.mem_map.mp hmem
    obtain ⟨hdata, hid⟩ := Prod.mk.inj heq
    refine ⟨msg, hmsg, (hs.regular msg hmsg).1, hid, hdata.trans ?_⟩
    exact List.getElem_of_eq hs.sent.symm hk'

/-- Whatever is sent, lost, replayed and reconnected, each end delivers what the other
sends exactly once and in order, and nothing undelivered leaves the queue. -/
theorem delivers_of_run (sendKeepAlive : Side → Bool) (now : Int) (es : List Event)
    (c : Connection) (hids : Guarded step IdsFit (new sendKeepAlive now) es)
    (hrun : run step (new sendKeepAlive now) es = some c) (side : Side) :
    Delivers (c.ends side) (c.ends side.other) := by
  obtain ⟨streams, h⟩ := run_invariant (fun c => ∃ streams, Consistent c streams)
    (fun _ _ _ h hids hstep => consistent_step h hids hstep)
    ⟨_, consistent_new sendKeepAlive now⟩ hids hrun
  exact h.delivers side

/-- A socket that loses a message, and messages sent before, between and after the two ends
reconnect. -/
def lossyReconnection : List Event :=
  [.send .client [1] 0 false, .flush .client, .receive .server 1 1 false, .send .client [2] 2 false, .flush .client,
    .lose 0 .client 0, .beginAcceptReconnection .server 1 0 3 false, .beginAcceptReconnection .client 1 0 4 false,
    .send .client [3] 5 false, .endAcceptReconnection .client 6 false, .send .server [7] 6 false,
    .endAcceptReconnection .server 7 false, .flush .server, .flush .client, .receive .server 3 8 false,
    .receive .client 2 9 false, .send .client [4] 9 false]

theorem delivers_of_run_lossyReconnection :
    Delivers (((run step (new (fun _ => true) 0) lossyReconnection).getD (new (fun _ => true) 0)).ends
        .client)
      (((run step (new (fun _ => true) 0) lossyReconnection).getD (new (fun _ => true) 0)).ends .server) :=
  delivers_of_run (fun _ => true) 0 lossyReconnection _ (by decide) rfl .client

example : ((run step (new (fun _ => true) 0) lossyReconnection).map fun c =>
    ((c.ends .server).onMessage, (c.ends .client).outgoingUnackMsg.toArray.map (·.data))) =
      some ([[1], [2]], [[2], [3], [4]]) := by decide

end Connection

end Gavea.Ipc
