import Gavea.Lib.Utf8

namespace Gavea.Sse

open Gavea.Lib.Js

structure ISSEEvent where
  type : JsString
  data : JsString
  id : Option JsString
  /-- The number that `parseInt` is given, before it is rounded to a double. -/
  retry : Option Nat

namespace Chr

def CR : UInt8 := 13
def LF : UInt8 := 10
def COLON : CodeUnit := 58
def SPACE : CodeUnit := 32

end Chr

/-- What the parser keeps between two lines, with the events its handler has been called with. -/
structure FieldBuffers where
  dataBuffer : JsString := []
  eventTypeBuffer : JsString := []
  currentEventId : Option JsString := none
  lastEventIdBuffer : Option JsString := none
  reconnectionTime : Option Nat := none
  dispatched : List ISSEEvent := []

namespace FieldBuffers

def reset (p : FieldBuffers) : FieldBuffers :=
  { p with dataBuffer := [], eventTypeBuffer := [], currentEventId := none }

def dispatchEvent (p : FieldBuffers) : FieldBuffers :=
  if p.dataBuffer = [] then { p with dataBuffer := [], eventTypeBuffer := [] }
  else
    let dataBuffer :=
      if p.dataBuffer.getLast? = some lineFeed then
        substring p.dataBuffer 0 (p.dataBuffer.length - 1)
      else p.dataBuffer
    let event : ISSEEvent :=
      { type := if p.eventTypeBuffer = [] then ofText "message" else p.eventTypeBuffer
        data := dataBuffer
        id := p.currentEventId
        retry := p.reconnectionTime }
    reset { p with dataBuffer := dataBuffer, dispatched := p.dispatched ++ [event] }

def isDigits (value : JsString) : Bool := value ≠ [] && value.all fun u => 48 ≤ u && u ≤ 57

def parseInt (value : JsString) : Nat := value.foldl (fun n u => n * 10 + (u.toNat - 48)) 0

def processField (p : FieldBuffers) (field value : JsString) : FieldBuffers :=
  if field = ofText "event" then { p with eventTypeBuffer := value }
  else if field = ofText "data" then { p with dataBuffer := p.dataBuffer ++ value ++ [lineFeed] }
  else if field = ofText "id" then
    if 0 ∉ value then { p with currentEventId := some value, lastEventIdBuffer := some value }
    else { p with currentEventId := none }
  else if field = ofText "retry" then
    if isDigits value then { p with reconnectionTime := some (parseInt value) } else p
  else p

def processLine (p : FieldBuffers) (line : JsString) : FieldBuffers :=
  if line.length = 0 then p.dispatchEvent
  else if line.head? = some Chr.COLON then p
  else
    match line.findIdx? (· = Chr.COLON) with
    | none => p.processField line []
    | some colonIndex =>
      let field := substring line 0 colonIndex
      let value := substringFrom line (colonIndex + 1)
      p.processField field (if value.head? = some Chr.SPACE then substringFrom value 1 else value)

end FieldBuffers

structure SSEParser extends FieldBuffers where
  buffer : List (List UInt8) := []
  endedOnCR : Bool := false
  decoder : TextDecoder := {}

def indexOf (chunk : List UInt8) (byte : UInt8) (offset : Nat) : Option Nat :=
  ((chunk.drop offset).findIdx? (· = byte)).map (offset + ·)

def lineEndFrom (chunk : List UInt8) (offset : Nat) : Option Nat :=
  match indexOf chunk Chr.CR offset, indexOf chunk Chr.LF offset with
  | none, indexLF => indexLF
  | some indexCR, none => some indexCR
  | some indexCR, some indexLF => some (min indexCR indexLF)

theorem findIdx?_or {α : Type*} (p q : α → Bool) (l : List α) :
    l.findIdx? (fun a => p a || q a) =
      match l.findIdx? p, l.findIdx? q with
      | none, j => j
      | some i, none => some i
      | some i, some j => some (min i j) := by
  induction l with
  | nil => rfl
  | cons a l ih =>
    simp only [List.findIdx?_cons, ih]
    cases p a <;> cases q a <;> cases l.findIdx? p <;> cases l.findIdx? q <;> simp

theorem lineEndFrom_eq (chunk : List UInt8) (offset : Nat) :
    lineEndFrom chunk offset =
      ((chunk.drop offset).findIdx? fun b => b = Chr.CR ∨ b = Chr.LF).map (offset + ·) := by
  have hor := findIdx?_or (fun b => decide (b = Chr.CR)) (fun b => decide (b = Chr.LF)) (chunk.drop offset)
  simp only [← Bool.decide_or] at hor
  rw [hor, lineEndFrom, indexOf, indexOf]
  cases (chunk.drop offset).findIdx? fun b => decide (b = Chr.CR) <;>
    cases (chunk.drop offset).findIdx? fun b => decide (b = Chr.LF) <;> simp

namespace SSEParser

def new : SSEParser := {}

def getLastEventId (p : SSEParser) : Option JsString := p.lastEventIdBuffer

def getReconnectionTime (p : SSEParser) : Option Nat := p.reconnectionTime

/-- The buffered parts of a line are decoded with `stream` set. -/
def decodeBuffer (decoder : TextDecoder) : List (List UInt8) → TextDecoder × JsString
  | [] => (decoder, [])
  | buf :: bufs =>
    let decoded := decoder.decode buf true
    let rest := decodeBuffer decoded.1 bufs
    (rest.1, decoded.2 ++ rest.2)

def decodeLine (p : SSEParser) (last : List UInt8) : TextDecoder × JsString :=
  let streamed := decodeBuffer p.decoder p.buffer
  let decoded := streamed.1.decode last false
  (decoded.1, streamed.2 ++ decoded.2)

def takeLine (p : SSEParser) (chunk : List UInt8) (offset index : Nat) : SSEParser :=
  let decoded := p.decodeLine ((chunk.take index).drop offset)
  { toFieldBuffers := p.processLine decoded.2
    buffer := []
    endedOnCR := p.endedOnCR
    decoder := decoded.1 }

def afterLineEnd (chunk : List UInt8) (index : Nat) : Nat :=
  index + if chunk[index]? = some Chr.CR ∧ chunk[index + 1]? = some Chr.LF then 2 else 1

def feedLoop (p : SSEParser) (chunk : List UInt8) (offset : Nat) : SSEParser × Nat :=
  if _h : offset < chunk.length then
    match _hindex : lineEndFrom chunk offset with
    | none => (p, offset)
    | some index => (p.takeLine chunk offset index).feedLoop chunk (afterLineEnd chunk index)
  else (p, offset)
termination_by chunk.length - offset
decreasing_by
  rw [lineEndFrom_eq, Option.map_eq_some_iff] at _hindex
  obtain ⟨i, -, rfl⟩ := _hindex
  rw [afterLineEnd]
  split <;> omega

def feed (p : SSEParser) (chunk : List UInt8) : SSEParser :=
  if chunk.length = 0 then p
  else
    let offset := if p.endedOnCR ∧ chunk[0]? = some Chr.LF then 1 else 0
    let (p, offset) := feedLoop { p with endedOnCR := false } chunk offset
    if offset < chunk.length then { p with buffer := p.buffer ++ [chunk.drop offset] }
    else { p with endedOnCR := chunk[chunk.length - 1]? = some Chr.CR }

end SSEParser

open Gavea.Lib.Js List

/-- A stream read byte by byte: the bytes of the line that has not ended, and whether
the last byte was a carriage return. -/
structure Reading where
  fields : FieldBuffers := {}
  pending : List UInt8 := []
  afterCR : Bool := false

namespace Reading

def next (r : Reading) (b : UInt8) : Reading :=
  if b = Chr.LF ∧ r.afterCR then { r with afterCR := false }
  else if b = Chr.CR ∨ b = Chr.LF then
    { fields := r.fields.processLine (TextDecoder.text r.pending)
      pending := []
      afterCR := b = Chr.CR }
  else { r with pending := r.pending ++ [b], afterCR := false }

def read (r : Reading) (bytes : List UInt8) : Reading := bytes.foldl next r

theorem read_append (r : Reading) (as bs : List UInt8) :
    r.read (as ++ bs) = (r.read as).read bs :=
  foldl_append

theorem read_cons (r : Reading) (b : UInt8) (bs : List UInt8) :
    r.read (b :: bs) = (r.next b).read bs :=
  rfl

def Plain (bytes : List UInt8) : Prop := ∀ b ∈ bytes, ¬ (b = Chr.CR ∨ b = Chr.LF)

theorem read_plain (r : Reading) {bytes : List UInt8} (h : Plain bytes) (hne : bytes ≠ []) :
    r.read bytes = { r with pending := r.pending ++ bytes, afterCR := false } := by
  induction bytes generalizing r with
  | nil => exact absurd rfl hne
  | cons b bs ih =>
    have hb := h b mem_cons_self
    have hnext : r.next b = { r with pending := r.pending ++ [b], afterCR := false } := by
      rw [next, if_neg fun hlf => hb (Or.inr hlf.1), if_neg hb]
    rw [read_cons, hnext]
    rcases eq_nil_or_concat bs with rfl | ⟨_, _, hbs⟩
    · rfl
    · rw [ih _ (fun b' hb' => h b' (mem_cons_of_mem b hb')) (by simp [hbs])]
      simp only [append_assoc, cons_append, nil_append]

theorem pending_read_plain (r : Reading) {bytes : List UInt8} (h : Plain bytes) :
    (r.read bytes).pending = r.pending ++ bytes ∧ (r.read bytes).fields = r.fields := by
  by_cases hne : bytes = []
  · subst hne
    exact ⟨(append_nil _).symm, rfl⟩
  · rw [read_plain r h hne]
    exact ⟨rfl, rfl⟩

theorem next_lineEnd {r : Reading} {e : UInt8} (he : e = Chr.CR ∨ e = Chr.LF)
    (h : r.afterCR = true → e ≠ Chr.LF) :
    r.next e =
      { fields := r.fields.processLine (TextDecoder.text r.pending)
        pending := []
        afterCR := e = Chr.CR } := by
  rw [next, if_neg fun hlf => h hlf.2 hlf.1, if_pos he]

end Reading

namespace SSEParser

theorem decode_buffer (decoder : TextDecoder) (buffer : List (List UInt8)) (last : List UInt8) :
    decoder.decode (buffer.flatten ++ last) false =
      (((decodeBuffer decoder buffer).1.decode last false).1,
        (decodeBuffer decoder buffer).2 ++ ((decodeBuffer decoder buffer).1.decode last false).2) := by
  induction buffer generalizing decoder with
  | nil => rfl
  | cons buf bufs ih =>
    rw [flatten_cons, append_assoc, TextDecoder.decode_append, ih]
    simp only [decodeBuffer, append_assoc]

theorem decodeLine_text (p : SSEParser) (last : List UInt8) (h : p.decoder.doNotFlush = false) :
    (p.decodeLine last).2 = TextDecoder.text (p.buffer.flatten ++ last) ∧
      (p.decodeLine last).1.doNotFlush = false := by
  have hdecode := decode_buffer p.decoder p.buffer last
  have htext := TextDecoder.decode_of_flushed h (p.buffer.flatten ++ last)
  have hflag := TextDecoder.doNotFlush_decode p.decoder (p.buffer.flatten ++ last) false
  rw [hdecode] at htext hflag
  exact ⟨htext, hflag⟩

/-- Between two chunks the parser stands where the byte-wise reading does. -/
structure Follows (p : SSEParser) (r : Reading) : Prop where
  fields : p.toFieldBuffers = r.fields
  pending : p.buffer.flatten = r.pending
  afterCR : p.endedOnCR = r.afterCR
  empty : r.afterCR = true → r.pending = []
  flushed : p.decoder.doNotFlush = false

/-- The same inside a chunk, where the loop looks behind a carriage return itself. -/
structure Within (p : SSEParser) (r : Reading) (chunk : List UInt8) (offset : Nat) : Prop where
  fields : p.toFieldBuffers = r.fields
  pending : p.buffer.flatten = r.pending
  flushed : p.decoder.doNotFlush = false
  cleared : p.endedOnCR = false
  le_length : offset ≤ chunk.length
  not_half : r.afterCR = true → chunk[offset]? ≠ some Chr.LF
  empty : r.afterCR = true → r.pending = []
  at_end : offset = chunk.length → r.afterCR = decide (chunk[chunk.length - 1]? = some Chr.CR)

theorem split_of_lineEndFrom {chunk : List UInt8} {offset index : Nat}
    (h : lineEndFrom chunk offset = some index) :
    ∃ line e more, chunk.drop offset = line ++ e :: more ∧ Reading.Plain line ∧
      (e = Chr.CR ∨ e = Chr.LF) ∧ index = offset + line.length := by
  rw [lineEndFrom_eq, Option.map_eq_some_iff] at h
  obtain ⟨i, hi, rfl⟩ := h
  rw [findIdx?_eq_some_iff_getElem] at hi
  obtain ⟨hlt, hend, hbefore⟩ := hi
  refine ⟨(chunk.drop offset).take i, (chunk.drop offset)[i], (chunk.drop offset).drop (i + 1),
    ?_, ?_, of_decide_eq_true hend, ?_⟩
  · rw [← drop_eq_getElem_cons hlt, take_append_drop]
  · intro b hb
    obtain ⟨j, hj, rfl⟩ := mem_iff_getElem.mp hb
    rw [length_take] at hj
    rw [getElem_take]
    simpa using hbefore j (by omega)
  · rw [length_take, min_eq_left (by omega)]

theorem plain_of_lineEndFrom {chunk : List UInt8} {offset : Nat}
    (h : lineEndFrom chunk offset = none) : Reading.Plain (chunk.drop offset) := by
  rw [lineEndFrom_eq, Option.map_eq_none_iff, findIdx?_eq_none_iff] at h
  intro b hb
  simpa using h b hb

theorem within_takeLine {p : SSEParser} {r : Reading} {chunk : List UInt8} {offset index : Nat}
    (h : Within p r chunk offset) (hindex : lineEndFrom chunk offset = some index) :
    ∃ r', r.read (chunk.drop offset) = r'.read (chunk.drop (afterLineEnd chunk index)) ∧
      Within (p.takeLine chunk offset index) r' chunk (afterLineEnd chunk index) := by
  obtain ⟨line, e, more, hdrop, hplain, he, rfl⟩ := split_of_lineEndFrom hindex
  have hlength : chunk.length = offset + (line.length + (more.length + 1)) := by
    have hlen := congrArg List.length hdrop
    simp only [length_drop, length_append, length_cons] at hlen
    omega
  have hline : (chunk.take (offset + line.length)).drop offset = line := by
    rw [drop_take, hdrop, Nat.add_sub_cancel_left, take_left]
  have hat (i : Nat) : chunk[offset + line.length + i]? = (e :: more)[i]? := by
    rw [Nat.add_assoc, ← getElem?_drop, hdrop, getElem?_append_right (by omega), Nat.add_sub_cancel_left]
  have hafter (i : Nat) : chunk.drop (offset + line.length + 1 + i) = more.drop i := by
    rw [show offset + line.length + 1 + i = offset + (line.length + (1 + i)) by omega,
      ← drop_drop, hdrop, ← drop_drop, drop_left, Nat.add_comm 1 i]
    rfl
  obtain ⟨hpending, hfields⟩ := Reading.pending_read_plain r hplain
  have hhalf : (r.read line).afterCR = true → e ≠ Chr.LF := by
    intro hcr heq
    by_cases hnil : line = []
    · subst hnil
      have hfirst := hat 0
      simp only [length_nil, Nat.add_zero, getElem?_cons_zero] at hfirst
      exact h.not_half hcr (heq ▸ hfirst)
    · rw [Reading.read_plain r hplain hnil] at hcr
      exact Bool.noConfusion hcr
  have hnext := Reading.next_lineEnd he hhalf
  obtain ⟨htext, hflushed⟩ := decodeLine_text p line h.flushed
  rw [h.pending, ← hpending] at htext
  have hread : r.read (chunk.drop offset) = ((r.read line).next e).read more := by
    rw [hdrop, Reading.read_append, Reading.read_cons]
  have hparser : (p.takeLine chunk offset (offset + line.length)).toFieldBuffers =
      (r.read line).fields.processLine (TextDecoder.text (r.read line).pending) := by
    simp only [takeLine, hline, htext, h.fields, hfields]
  have hdecoder : (p.takeLine chunk offset (offset + line.length)).decoder.doNotFlush = false := by
    simp only [takeLine, hline, hflushed]
  have h0 := hat 0
  have h1 := hat 1
  simp only [Nat.add_zero, getElem?_cons_zero, getElem?_cons_succ] at h0 h1
  rw [afterLineEnd, h0, h1]
  split
  · next hcrlf =>
      obtain ⟨hcr, hlf⟩ := hcrlf
      obtain rfl := Option.some.inj hcr
      obtain ⟨more, rfl⟩ : ∃ more', more = Chr.LF :: more' := by
        cases more with
        | nil => exact absurd hlf (by simp)
        | cons b more' => exact ⟨more', by simpa using hlf⟩
      refine ⟨{ (r.read line).next Chr.CR with afterCR := false }, ?_, ?_⟩
      · rw [hread, Reading.read_cons, show offset + line.length + 2 = offset + line.length + 1 + 1
          from rfl, hafter, hnext]
        rfl
      · constructor
        case fields => rw [hparser, hnext]
        case pending => rw [hnext]; rfl
        case flushed => exact hdecoder
        case cleared => exact h.cleared
        case le_length => rw [length_cons] at hlength; omega
        case not_half => intro hcr; exact Bool.noConfusion hcr
        case empty => intro hcr; exact Bool.noConfusion hcr
        case at_end =>
          intro hend
          rw [← hend, show offset + line.length + 2 - 1 = offset + line.length + 1 by omega, h1]
          rfl
  · next hcrlf =>
      refine ⟨(r.read line).next e, ?_, ?_⟩
      · rw [hread, show offset + line.length + 1 = offset + line.length + 1 + 0 from rfl, hafter]
        rfl
      · constructor
        case fields => rw [hparser, hnext]
        case pending => rw [hnext]; rfl
        case flushed => exact hdecoder
        case cleared => exact h.cleared
        case le_length => omega
        case not_half =>
          intro hcr hlf
          rw [hnext] at hcr
          exact hcrlf ⟨congrArg some (of_decide_eq_true hcr), h1 ▸ hlf⟩
        case empty => intro _; rw [hnext]
        case at_end =>
          intro hend
          rw [← hend, Nat.add_sub_cancel, h0, hnext]
          simp

theorem feedLoop_of_line {p : SSEParser} {chunk : List UInt8} {offset index : Nat}
    (hlt : offset < chunk.length) (hindex : lineEndFrom chunk offset = some index) :
    p.feedLoop chunk offset =
      (p.takeLine chunk offset index).feedLoop chunk (afterLineEnd chunk index) := by
  rw [feedLoop, dif_pos hlt]
  split
  · next h => exact nomatch hindex.symm.trans h
  · next h => rw [Option.some.inj (hindex.symm.trans h)]

theorem feedLoop_of_plain {p : SSEParser} {chunk : List UInt8} {offset : Nat}
    (hindex : lineEndFrom chunk offset = none) : p.feedLoop chunk offset = (p, offset) := by
  rw [feedLoop]
  split
  · split
    · rfl
    · next h => exact nomatch hindex.symm.trans h
  · rfl

theorem lt_afterLineEnd {chunk : List UInt8} {offset index : Nat}
    (hindex : lineEndFrom chunk offset = some index) : offset < afterLineEnd chunk index := by
  obtain ⟨line, e, more, -, -, -, rfl⟩ := split_of_lineEndFrom hindex
  rw [afterLineEnd]
  split <;> omega

theorem feedLoop_spec (chunk : List UInt8) (k : Nat) :
    ∀ (p : SSEParser) (r : Reading) (offset : Nat), chunk.length - offset ≤ k →
      Within p r chunk offset →
      ∃ r', r.read (chunk.drop offset) = r'.read (chunk.drop (p.feedLoop chunk offset).2) ∧
        Within (p.feedLoop chunk offset).1 r' chunk (p.feedLoop chunk offset).2 ∧
        Reading.Plain (chunk.drop (p.feedLoop chunk offset).2) := by
  induction k with
  | zero =>
    intro p r offset hk h
    have hend : p.feedLoop chunk offset = (p, offset) := by
      rw [feedLoop, dif_neg (by omega)]
    refine ⟨r, by rw [hend], by rw [hend]; exact h, ?_⟩
    rw [hend, drop_eq_nil_of_le (by omega)]
    exact fun b hb => (nomatch hb)
  | succ k ih =>
    intro p r offset hk h
    rcases hindex : lineEndFrom chunk offset with _ | index
    · rw [feedLoop_of_plain hindex]
      exact ⟨r, rfl, h, plain_of_lineEndFrom hindex⟩
    · by_cases hlt : offset < chunk.length
      · obtain ⟨r', hread, hwithin⟩ := within_takeLine h hindex
        have hgrow := lt_afterLineEnd hindex
        obtain ⟨r'', hrest, hlast⟩ := ih _ r' _ (by omega) hwithin
        rw [feedLoop_of_line hlt hindex]
        exact ⟨r'', hread.trans hrest, hlast⟩
      · obtain ⟨line, e, more, hdrop, -⟩ := split_of_lineEndFrom hindex
        rw [drop_eq_nil_of_le (by omega)] at hdrop
        exact absurd hdrop.symm (by simp)

theorem within_start {p : SSEParser} {r : Reading} {b : UInt8} {bs : List UInt8}
    (h : Follows p r) (hhalf : ¬ (p.endedOnCR = true ∧ (b :: bs)[0]? = some Chr.LF)) :
    Within { p with endedOnCR := false } r (b :: bs) 0 where
  fields := h.fields
  pending := h.pending
  flushed := h.flushed
  cleared := rfl
  le_length := Nat.zero_le _
  not_half hcr hlf := hhalf ⟨h.afterCR.trans hcr, hlf⟩
  empty := h.empty
  at_end hend := nomatch hend

theorem within_half {p : SSEParser} {r : Reading} {bs : List UInt8} (h : Follows p r)
    (hcr : p.endedOnCR = true) :
    r.next Chr.LF = { r with afterCR := false } ∧
      Within { p with endedOnCR := false } { r with afterCR := false } (Chr.LF :: bs) 1 := by
  have hr : r.afterCR = true := h.afterCR.symm.trans hcr
  refine ⟨by rw [Reading.next, if_pos ⟨rfl, hr⟩], ?_⟩
  constructor
  case fields => exact h.fields
  case pending => exact h.pending
  case flushed => exact h.flushed
  case cleared => rfl
  case le_length => simp
  case not_half => intro hf; exact Bool.noConfusion hf
  case empty => intro hf; exact Bool.noConfusion hf
  case at_end =>
    intro hend
    have hbs : bs = [] := by
      rw [length_cons] at hend
      exact length_eq_zero_iff.mp (by omega)
    subst hbs
    rfl

theorem follows_of_within {p : SSEParser} {r : Reading} {chunk : List UInt8} {offset : Nat}
    (h : Within p r chunk offset) (hplain : Reading.Plain (chunk.drop offset)) :
    Follows
      (if offset < chunk.length then { p with buffer := p.buffer ++ [chunk.drop offset] }
      else { p with endedOnCR := chunk[chunk.length - 1]? = some Chr.CR })
      (r.read (chunk.drop offset)) := by
  split
  · next hlt =>
      have hne : chunk.drop offset ≠ [] := by
        intro hnil
        have := drop_eq_nil_iff.mp hnil
        omega
      rw [Reading.read_plain r hplain hne]
      constructor
      case fields => exact h.fields
      case pending =>
        rw [flatten_append, h.pending]
        simp
      case afterCR => exact h.cleared
      case empty => intro hcr; exact Bool.noConfusion hcr
      case flushed => exact h.flushed
  · next hge =>
      have hend : offset = chunk.length := le_antisymm h.le_length (by omega)
      rw [drop_eq_nil_of_le (by omega)]
      constructor
      case fields => exact h.fields
      case pending => exact h.pending
      case afterCR => exact (h.at_end hend).symm
      case empty => exact h.empty
      case flushed => exact h.flushed

theorem feed_follows {p : SSEParser} {r : Reading} (h : Follows p r) (chunk : List UInt8) :
    Follows (p.feed chunk) (r.read chunk) := by
  cases chunk with
  | nil => exact h
  | cons b bs =>
    rw [feed, if_neg (by simp)]
    by_cases hhalf : p.endedOnCR = true ∧ (b :: bs)[0]? = some Chr.LF
    · have hb : b = Chr.LF := by simpa using hhalf.2
      subst hb
      obtain ⟨hnext, hwithin⟩ := @within_half p r bs h hhalf.1
      obtain ⟨r', hread, hlast, hplain⟩ := feedLoop_spec (Chr.LF :: bs) _ _ _ 1 le_rfl hwithin
      have hfollows := follows_of_within hlast hplain
      rw [← hread] at hfollows
      rw [Reading.read_cons, hnext]
      simp only [if_pos hhalf]
      exact hfollows
    · obtain ⟨r', hread, hlast, hplain⟩ := feedLoop_spec (b :: bs) _ _ _ 0 le_rfl (within_start h hhalf)
      have hfollows := follows_of_within hlast hplain
      rw [← hread] at hfollows
      simp only [if_neg hhalf]
      exact hfollows

theorem feed_chunks_follows {p : SSEParser} {r : Reading} (h : Follows p r)
    (chunks : List (List UInt8)) : Follows (chunks.foldl feed p) (r.read chunks.flatten) := by
  induction chunks generalizing p r with
  | nil => exact h
  | cons chunk chunks ih =>
    rw [flatten_cons, Reading.read_append]
    exact ih (feed_follows h chunk)

theorem follows_new : Follows .new {} where
  fields := rfl
  pending := rfl
  afterCR := rfl
  empty _ := rfl
  flushed := rfl

structure SameOutcome (p q : SSEParser) : Prop where
  events : p.dispatched = q.dispatched
  lastEventId : p.getLastEventId = q.getLastEventId
  reconnectionTime : p.getReconnectionTime = q.getReconnectionTime

/-- Feeding the chunks of a stream dispatches what feeding the stream at once does. -/
theorem feed_chunks (chunks : List (List UInt8)) :
    SameOutcome (chunks.foldl SSEParser.feed .new) (SSEParser.feed .new chunks.flatten) := by
  have hchunked := (feed_chunks_follows follows_new chunks).fields
  have hwhole := (feed_follows follows_new chunks.flatten).fields
  have hfields := hchunked.trans hwhole.symm
  exact ⟨congrArg FieldBuffers.dispatched hfields, congrArg FieldBuffers.lastEventIdBuffer hfields,
    congrArg FieldBuffers.reconnectionTime hfields⟩

end SSEParser
end Gavea.Sse
