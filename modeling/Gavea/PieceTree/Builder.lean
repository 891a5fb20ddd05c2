import Gavea.Lib.Js

namespace Gavea.PieceTree

open Lib.Js

def lineStartsFrom (i : Nat) : JsString → List Nat
  | [] => []
  | c :: rest =>
    if c = carriageReturn then
      match rest with
      | [] => [i + 1]
      | d :: rest' =>
        if d = lineFeed then (i + 2) :: lineStartsFrom (i + 2) rest'
        else (i + 1) :: lineStartsFrom (i + 1) (d :: rest')
    else if c = lineFeed then (i + 1) :: lineStartsFrom (i + 1) rest
    else lineStartsFrom (i + 1) rest

def createLineStartsFast (str : JsString) : List Nat := 0 :: lineStartsFrom 0 str

structure LineStarts where
  lineStarts : List Nat
  cr : Nat
  lf : Nat
  crlf : Nat
  isBasicASCII : Bool

def tab : CodeUnit := 9

def LineStarts.scan (r : LineStarts) (i : Nat) : JsString → LineStarts
  | [] => r
  | c :: rest =>
    if c = carriageReturn then
      match rest with
      | [] => { r with cr := r.cr + 1, lineStarts := r.lineStarts ++ [i + 1] }
      | d :: rest' =>
        if d = lineFeed then
          scan { r with crlf := r.crlf + 1, lineStarts := r.lineStarts ++ [i + 2] } (i + 2) rest'
        else
          scan { r with cr := r.cr + 1, lineStarts := r.lineStarts ++ [i + 1] } (i + 1) (d :: rest')
    else if c = lineFeed then
      scan { r with lf := r.lf + 1, lineStarts := r.lineStarts ++ [i + 1] } (i + 1) rest
    else
      scan { r with isBasicASCII := r.isBasicASCII && (c == tab || (32 ≤ c && c ≤ 126)) } (i + 1) rest

def createLineStarts (str : JsString) : LineStarts :=
  LineStarts.scan { lineStarts := [0], cr := 0, lf := 0, crlf := 0, isBasicASCII := true } 0 str

/-- How often `\r` stands right in front of `\n`. -/
def crlfPairs : JsString → Nat
  | [] => 0
  | c :: s => (if c = carriageReturn ∧ s.head? = some lineFeed then 1 else 0) + crlfPairs s

/-- The numbers of `\r`, `\n` and `\r\n` in a text; a `\r\n` is neither a `\r` nor a `\n`. -/
structure CountsEol (s : JsString) (cr lf crlf : Nat) : Prop where
  pairs : crlf = crlfPairs s
  returns : cr + crlf = s.count carriageReturn
  feeds : lf + crlf = s.count lineFeed

theorem carriageReturn_ne_lineFeed : carriageReturn ≠ lineFeed := by decide

theorem crlfPairs_cons (c : CodeUnit) (s : JsString) : crlfPairs (c :: s) =
    (if c = carriageReturn ∧ s.head? = some lineFeed then 1 else 0) + crlfPairs s := rfl

theorem crlfPairs_append (u v : JsString) : crlfPairs (u ++ v) = crlfPairs u + crlfPairs v +
    if u.getLast? = some carriageReturn ∧ v.head? = some lineFeed then 1 else 0 := by
  induction u with
  | nil => simp [crlfPairs]
  | cons c u ih =>
    cases u with
    | nil => simp [crlfPairs, Nat.add_comm]
    | cons d u =>
      rw [List.cons_append, crlfPairs_cons, ih, crlfPairs_cons c (d :: u)]
      by_cases hc : c = carriageReturn <;> by_cases hd : d = lineFeed <;> simp [hc, hd, Nat.add_assoc]

theorem CountsEol.append {u v : JsString} {cr lf crlf cr' lf' crlf' : Nat}
    (hu : CountsEol u cr lf crlf) (hv : CountsEol v cr' lf' crlf')
    (h : ¬(u.getLast? = some carriageReturn ∧ v.head? = some lineFeed)) :
    CountsEol (u ++ v) (cr + cr') (lf + lf') (crlf + crlf') where
  pairs := by rw [crlfPairs_append, if_neg h, ← hu.pairs, ← hv.pairs, Nat.add_zero]
  returns := by
    rw [List.count_append, ← hu.returns, ← hv.returns]
    omega
  feeds := by
    rw [List.count_append, ← hu.feeds, ← hv.feeds]
    omega

theorem CountsEol.unique {s : JsString} {cr lf crlf cr' lf' crlf' : Nat}
    (h : CountsEol s cr lf crlf) (h' : CountsEol s cr' lf' crlf') :
    cr = cr' ∧ lf = lf' ∧ crlf = crlf' := by
  have h1 := h.pairs.trans h'.pairs.symm
  have h2 := h.returns.trans h'.returns.symm
  have h3 := h.feeds.trans h'.feeds.symm
  omega

theorem countsEol_nil : CountsEol [] 0 0 0 := ⟨rfl, rfl, rfl⟩

theorem countsEol_carriageReturn : CountsEol [carriageReturn] 1 0 0 := by
  constructor <;> decide

theorem countsEol_lineFeed : CountsEol [lineFeed] 0 1 0 := by
  constructor <;> decide

theorem countsEol_crlf : CountsEol [carriageReturn, lineFeed] 0 0 1 := by
  constructor <;> decide

theorem countsEol_of_ne {c : CodeUnit} (hcr : c ≠ carriageReturn) (hlf : c ≠ lineFeed) :
    CountsEol [c] 0 0 0 where
  pairs := by simp [crlfPairs, hcr]
  returns := by simp [hcr]
  feeds := by simp [hlf]

structure Scanned (r r' : LineStarts) (i : Nat) (s : JsString) : Prop where
  counts : ∃ cr lf crlf, CountsEol s cr lf crlf ∧ r'.cr = r.cr + cr ∧ r'.lf = r.lf + lf ∧ r'.crlf = r.crlf + crlf
  lineStarts : r'.lineStarts = r.lineStarts ++ lineStartsFrom i s

theorem LineStarts.scan_spec (r : LineStarts) (i : Nat) (s : JsString) :
    Scanned r (r.scan i s) i s := by
  fun_induction LineStarts.scan r i s with
  | case1 r i => exact ⟨⟨0, 0, 0, countsEol_nil, rfl, rfl, rfl⟩, by simp [lineStartsFrom]⟩
  | case2 r i => exact ⟨⟨1, 0, 0, countsEol_carriageReturn, rfl, rfl, rfl⟩, by simp [lineStartsFrom]⟩
  | case3 r i rest ih =>
    obtain ⟨⟨cr, lf, crlf, hcounts, hcr, hlf, hcrlf⟩, hstarts⟩ := ih
    have hnot : ¬([carriageReturn, lineFeed].getLast? = some carriageReturn ∧
        rest.head? = some lineFeed) := fun h => absurd h.1 (by decide)
    refine ⟨⟨0 + cr, 0 + lf, 1 + crlf, countsEol_crlf.append hcounts hnot, ?_, ?_, ?_⟩, ?_⟩
    · rw [hcr, Nat.zero_add]
    · rw [hlf, Nat.zero_add]
    · rw [hcrlf, Nat.add_assoc]
    · rw [hstarts]
      simp [lineStartsFrom]
  | case4 r i d rest hd ih =>
    obtain ⟨⟨cr, lf, crlf, hcounts, hcr, hlf, hcrlf⟩, hstarts⟩ := ih
    have hnot : ¬([carriageReturn].getLast? = some carriageReturn ∧
        (d :: rest).head? = some lineFeed) := fun h => hd (Option.some.inj h.2)
    refine ⟨⟨1 + cr, 0 + lf, 0 + crlf, countsEol_carriageReturn.append hcounts hnot, ?_, ?_, ?_⟩,
      ?_⟩
    · rw [hcr, Nat.add_assoc]
    · rw [hlf, Nat.zero_add]
    · rw [hcrlf, Nat.zero_add]
    · rw [hstarts, lineStartsFrom.eq_def i (carriageReturn :: d :: rest)]
      simp [hd]
  | case5 r i rest hne ih =>
    obtain ⟨⟨cr, lf, crlf, hcounts, hcr, hlf, hcrlf⟩, hstarts⟩ := ih
    have hnot : ¬([lineFeed].getLast? = some carriageReturn ∧ rest.head? = some lineFeed) :=
      fun h => absurd h.1 (by decide)
    refine ⟨⟨0 + cr, 1 + lf, 0 + crlf, countsEol_lineFeed.append hcounts hnot, ?_, ?_, ?_⟩, ?_⟩
    · rw [hcr, Nat.zero_add]
    · rw [hlf, Nat.add_assoc]
    · rw [hcrlf, Nat.zero_add]
    · rw [hstarts, lineStartsFrom.eq_def i (lineFeed :: rest)]
      simp [carriageReturn_ne_lineFeed.symm]
  | case6 r i c rest hcr' hlf' ih =>
    obtain ⟨⟨cr, lf, crlf, hcounts, hcr, hlf, hcrlf⟩, hstarts⟩ := ih
    have hnot : ¬([c].getLast? = some carriageReturn ∧ rest.head? = some lineFeed) :=
      fun h => hcr' (Option.some.inj h.1)
    refine ⟨⟨0 + cr, 0 + lf, 0 + crlf, (countsEol_of_ne hcr' hlf').append hcounts hnot, ?_, ?_,
      ?_⟩, ?_⟩
    · rw [hcr, Nat.zero_add]
    · rw [hlf, Nat.zero_add]
    · rw [hcrlf, Nat.zero_add]
    · rw [hstarts, lineStartsFrom.eq_def i (c :: rest)]
      simp [hcr', hlf']

theorem createLineStarts_counts (str : JsString) : CountsEol str (createLineStarts str).cr
    (createLineStarts str).lf (createLineStarts str).crlf := by
  obtain ⟨⟨cr, lf, crlf, hcounts, hcr, hlf, hcrlf⟩, -⟩ := LineStarts.scan_spec
    { lineStarts := [0], cr := 0, lf := 0, crlf := 0, isBasicASCII := true } 0 str
  unfold createLineStarts
  rw [hcr, hlf, hcrlf]
  simpa using hcounts

theorem createLineStarts_lineStarts (str : JsString) :
    (createLineStarts str).lineStarts = createLineStartsFast str :=
  (LineStarts.scan_spec _ 0 str).lineStarts

structure StringBuffer where
  buffer : JsString
  lineStarts : List Nat

structure BufferCursor where
  line : Nat
  column : Nat

structure Piece where
  bufferIndex : Nat
  start : BufferCursor
  stop : BufferCursor
  lineFeedCnt : Nat
  length : Nat

structure Pieces where
  buffers : List StringBuffer
  pieces : List Piece

namespace Pieces

variable (t : Pieces)

def offsetInBuffer (bufferIndex : Nat) (cursor : BufferCursor) : Int :=
  match t.buffers[bufferIndex]? with
  | some b => b.lineStarts.getD cursor.line 0 + cursor.column
  | none => 0

def getPieceContent (piece : Piece) : JsString :=
  match t.buffers[piece.bufferIndex]? with
  | some b => substring b.buffer (t.offsetInBuffer piece.bufferIndex piece.start)
      (t.offsetInBuffer piece.bufferIndex piece.stop)
  | none => []

def getLinesRawContent : JsString := (t.pieces.map t.getPieceContent).flatten

def pieceOfBuffer (bufferIndex : Nat) (chunk : StringBuffer) : Piece where
  bufferIndex := bufferIndex
  start := { line := 0, column := 0 }
  stop :=
    { line := chunk.lineStarts.length - 1
      column := chunk.buffer.length - chunk.lineStarts.getD (chunk.lineStarts.length - 1) 0 }
  lineFeedCnt := chunk.lineStarts.length - 1
  length := chunk.buffer.length

def createFrom (i : Nat) : List StringBuffer → Pieces → Pieces
  | [], t => t
  | chunk :: chunks, t =>
    if chunk.buffer.length > 0 then
      createFrom (i + 1) chunks { buffers := t.buffers ++ [chunk], pieces := t.pieces ++ [pieceOfBuffer (i + 1) chunk] }
    else createFrom (i + 1) chunks t

def create (chunks : List StringBuffer) : Pieces :=
  createFrom 0 chunks { buffers := [{ buffer := [], lineStarts := [0] }], pieces := [] }

end Pieces

inductive DefaultEndOfLine
  | LF
  | CRLF

structure PieceTreeTextBuffer where
  pieceTree : Pieces
  BOM : JsString
  eol : JsString
  mightContainNonBasicASCII : Bool

structure PieceTreeTextBufferFactory where
  chunks : List StringBuffer
  bom : JsString
  cr : Nat
  lf : Nat
  crlf : Nat
  isBasicASCII : Bool
  normalizeEOL : Bool

def replaceEol (eol : JsString) : JsString → JsString
  | [] => []
  | c :: rest =>
    if c = carriageReturn then
      match rest with
      | [] => eol
      | d :: rest' => if d = lineFeed then eol ++ replaceEol eol rest' else eol ++ replaceEol eol (d :: rest')
    else if c = lineFeed then eol ++ replaceEol eol rest
    else c :: replaceEol eol rest

namespace PieceTreeTextBufferFactory

variable (f : PieceTreeTextBufferFactory)

def getEOL (defaultEOL : DefaultEndOfLine) : JsString :=
  let totalEOLCount := f.cr + f.lf + f.crlf
  let totalCRCount := f.cr + f.crlf
  if totalEOLCount = 0 then
    match defaultEOL with
    | .LF => [lineFeed]
    | .CRLF => [carriageReturn, lineFeed]
  else if 2 * totalCRCount > totalEOLCount then [carriageReturn, lineFeed]
  else [lineFeed]

def create (defaultEOL : DefaultEndOfLine) : PieceTreeTextBuffer :=
  let eol := f.getEOL defaultEOL
  let chunks :=
    if f.normalizeEOL ∧ ((eol = [carriageReturn, lineFeed] ∧ (f.cr > 0 ∨ f.lf > 0)) ∨
        (eol = [lineFeed] ∧ (f.cr > 0 ∨ f.crlf > 0))) then
      f.chunks.map fun chunk =>
        let str := replaceEol eol chunk.buffer
        { buffer := str, lineStarts := createLineStartsFast str }
    else f.chunks
  { pieceTree := Pieces.create chunks
    BOM := f.bom
    eol
    mightContainNonBasicASCII := !f.isBasicASCII }

end PieceTreeTextBufferFactory

structure PieceTreeTextBufferBuilder where
  chunks : List StringBuffer := []
  BOM : JsString := []
  hasPreviousChar : Bool := false
  previousChar : CodeUnit := 0
  cr : Nat := 0
  lf : Nat := 0
  crlf : Nat := 0
  isBasicASCII : Bool := true

def UTF8_BOM : CodeUnit := 0xFEFF

def startsWithUTF8BOM (str : JsString) : Prop := str.head? = some UTF8_BOM

instance (str : JsString) : Decidable (startsWithUTF8BOM str) := inferInstanceAs (Decidable (str.head? = some UTF8_BOM))

/-- A `\r` or a high surrogate at the end of a chunk is kept back for the next one. -/
def isKeptBack (c : CodeUnit) : Prop := c = carriageReturn ∨ (0xD800 ≤ c ∧ c ≤ 0xDBFF)

instance (c : CodeUnit) : Decidable (isKeptBack c) := by
  unfold isKeptBack
  infer_instance

namespace PieceTreeTextBufferBuilder

variable (b : PieceTreeTextBufferBuilder)

def acceptChunk2 (chunk : JsString) : PieceTreeTextBufferBuilder :=
  let lineStarts := createLineStarts chunk
  { b with
    chunks := b.chunks ++ [{ buffer := chunk, lineStarts := lineStarts.lineStarts }]
    cr := b.cr + lineStarts.cr
    lf := b.lf + lineStarts.lf
    crlf := b.crlf + lineStarts.crlf
    isBasicASCII := b.isBasicASCII && lineStarts.isBasicASCII }

def acceptChunk1 (chunk : JsString) (allowEmptyStrings : Bool) : PieceTreeTextBufferBuilder :=
  if !allowEmptyStrings && chunk.length = 0 then b
  else if b.hasPreviousChar then b.acceptChunk2 (b.previousChar :: chunk)
  else b.acceptChunk2 chunk

def acceptRest (chunk : JsString) : PieceTreeTextBufferBuilder :=
  match chunk.getLast? with
  | some lastChar =>
    if isKeptBack lastChar then
      { b.acceptChunk1 chunk.dropLast false with
        hasPreviousChar := true
        previousChar := lastChar }
    else
      { b.acceptChunk1 chunk false with
        hasPreviousChar := false
        previousChar := lastChar }
  -- the code unit at -1 is NaN, which nothing reads again
  | none => { b.acceptChunk1 chunk false with hasPreviousChar := false }

def acceptChunk (chunk : JsString) : PieceTreeTextBufferBuilder :=
  if chunk.length = 0 then b
  else if b.chunks.length = 0 ∧ startsWithUTF8BOM chunk then
    { b with BOM := [UTF8_BOM] }.acceptRest chunk.tail
  else b.acceptRest chunk

/-- The part of _finish behind the test for a builder without chunks. -/
def appendPreviousChar : PieceTreeTextBufferBuilder :=
  if b.hasPreviousChar then
    match b.chunks.getLast? with
    | some lastChunk =>
      let buffer := lastChunk.buffer ++ [b.previousChar]
      { b with
        hasPreviousChar := false
        chunks := b.chunks.dropLast ++ [{ buffer, lineStarts := createLineStartsFast buffer }]
        cr := if b.previousChar = carriageReturn then b.cr + 1 else b.cr }
    | none => b
  else b

def finishChunks : PieceTreeTextBufferBuilder :=
  if b.chunks.length = 0 then (b.acceptChunk1 [] true).appendPreviousChar
  else b.appendPreviousChar

def finish (normalizeEOL : Bool) : PieceTreeTextBufferFactory :=
  let b := b.finishChunks
  { chunks := b.chunks
    bom := b.BOM
    cr := b.cr
    lf := b.lf
    crlf := b.crlf
    isBasicASCII := b.isBasicASCII
    normalizeEOL }

def acceptChunks (chunks : List JsString) : PieceTreeTextBufferBuilder := chunks.foldl acceptChunk b

end PieceTreeTextBufferBuilder

open Lib.Js List

section Create

theorem le_of_mem_lineStartsFrom (i : Nat) (s : JsString) :
    ∀ n ∈ lineStartsFrom i s, n ≤ i + s.length := by
  fun_induction lineStartsFrom i s with
  | case1 i => simp
  | case2 i => simp
  | case3 i rest ih =>
    intro n hn
    rcases mem_cons.mp hn with rfl | hn
    · simp
    · have := ih n hn
      simp only [length_cons]
      omega
  | case4 i d rest hd ih =>
    intro n hn
    rcases mem_cons.mp hn with rfl | hn
    · simp
    · have := ih n hn
      simp only [length_cons] at this ⊢
      omega
  | case5 i rest hne ih =>
    intro n hn
    rcases mem_cons.mp hn with rfl | hn
    · simp
    · have := ih n hn
      simp only [length_cons]
      omega
  | case6 i c rest hcr hlf ih =>
    intro n hn
    have := ih n hn
    simp only [length_cons]
    omega

def StringBuffer.Started (b : StringBuffer) : Prop := b.lineStarts = createLineStartsFast b.buffer

namespace Pieces

theorem createFrom_eq (chunks : List StringBuffer) (h : ∀ c ∈ chunks, c.buffer ≠ []) (i : Nat)
    (t : Pieces) : createFrom i chunks t =
      { buffers := t.buffers ++ chunks
        pieces := t.pieces ++ (chunks.zipIdx (i + 1)).map fun c => pieceOfBuffer c.2 c.1 } := by
  induction chunks generalizing i t with
  | nil => simp [createFrom]
  | cons chunk chunks ih =>
    have hchunk : chunk.buffer.length > 0 := length_pos_iff.mpr (h chunk mem_cons_self)
    rw [createFrom, if_pos hchunk, ih fun c hc => h c (mem_cons_of_mem chunk hc)]
    simp

theorem getPieceContent_pieceOfBuffer {t : Pieces} {i : Nat} {c : StringBuffer}
    (h : t.buffers[i]? = some c) (hc : c.Started) :
    t.getPieceContent (pieceOfBuffer i c) = c.buffer := by
  have hlast : c.lineStarts.getD (c.lineStarts.length - 1) 0 ≤ c.buffer.length := by
    have hlen : c.lineStarts.length - 1 < c.lineStarts.length := by
      rw [hc, createLineStartsFast, length_cons]
      omega
    have hmem := getElem_mem hlen
    rw [getD_eq_getElem?_getD, getElem?_eq_getElem hlen, Option.getD_some]
    generalize c.lineStarts[c.lineStarts.length - 1] = n at hmem ⊢
    rw [hc, createLineStartsFast] at hmem
    rcases mem_cons.mp hmem with rfl | hmem
    · exact Nat.zero_le _
    · have := le_of_mem_lineStartsFrom 0 c.buffer n hmem
      omega
  have hfirst : c.lineStarts.getD 0 0 = 0 := by
    rw [hc]
    rfl
  simp only [getPieceContent, offsetInBuffer, pieceOfBuffer, h, hfirst]
  rw [substring_eq _ (by omega), take_of_length_le (by omega)]
  simp

theorem getLinesRawContent_create {chunks : List StringBuffer} (hne : ∀ c ∈ chunks, c.buffer ≠ [])
    (hstarted : ∀ c ∈ chunks, c.Started) :
    (create chunks).getLinesRawContent = (chunks.map (·.buffer)).flatten := by
  rw [create, createFrom_eq chunks hne]
  unfold getLinesRawContent
  refine congrArg List.flatten ?_
  simp only [nil_append, map_map]
  refine ext_getElem (by simp) fun i h1 h2 => ?_
  have hi : i < chunks.length := by simpa using h2
  rw [getElem_map, getElem_map, getElem_zipIdx]
  refine getPieceContent_pieceOfBuffer ?_ (hstarted _ (getElem_mem hi))
  rw [Nat.add_comm (0 + 1) i, getElem?_append_right (by simp)]
  simp [hi]

theorem getLinesRawContent_create_empty (lineStarts : List Nat) :
    (create [{ buffer := [], lineStarts }]).getLinesRawContent = [] := rfl

end Pieces

end Create

namespace PieceTreeTextBufferBuilder

variable (b : PieceTreeTextBufferBuilder)

def out : JsString := (b.chunks.map (·.buffer)).flatten

def held : Option CodeUnit := if b.hasPreviousChar then some b.previousChar else none

structure Inv : Prop where
  ne_nil : ∀ c ∈ b.chunks, c.buffer ≠ []
  started : ∀ c ∈ b.chunks, c.Started
  counts : CountsEol b.out b.cr b.lf b.crlf
  held : ∀ x, b.held = some x → isKeptBack x
  last : b.held = none → ∀ x, b.out.getLast? = some x → ¬isKeptBack x
  bom : b.BOM = [] ∨ b.BOM = [UTF8_BOM]

theorem isKeptBack_carriageReturn : isKeptBack carriageReturn := Or.inl rfl

theorem ne_of_isKeptBack {x : CodeUnit} (h : isKeptBack x) : x ≠ lineFeed ∧ x ≠ UTF8_BOM := by
  constructor <;> rintro rfl <;> revert h <;> decide

variable {b}

theorem Inv.empty : Inv {} where
  ne_nil := by simp
  started := by simp
  counts := countsEol_nil
  held := by simp [PieceTreeTextBufferBuilder.held]
  last := by simp [out]
  bom := Or.inl rfl

theorem Inv.out_eq_nil (h : b.Inv) : b.out = [] ↔ b.chunks.length = 0 := by
  unfold out
  rw [length_eq_zero_iff, flatten_eq_nil_iff]
  constructor
  · intro hall
    refine eq_nil_iff_forall_not_mem.mpr fun c hc => h.ne_nil c hc ?_
    exact hall _ (mem_map_of_mem hc)
  · rintro hnil
    simp [hnil]

theorem Inv.not_torn (h : b.Inv) (chunk : JsString) :
    ¬(b.out.getLast? = some carriageReturn ∧
      (b.held.toList ++ chunk).head? = some lineFeed) := by
  rintro ⟨hlast, hhead⟩
  cases hheld : b.held with
  | none => exact h.last hheld _ hlast isKeptBack_carriageReturn
  | some x =>
    rw [hheld] at hhead
    exact (ne_of_isKeptBack (h.held x hheld)).1 (Option.some.inj hhead)

theorem acceptChunk2_out (chunk : JsString) : (b.acceptChunk2 chunk).out = b.out ++ chunk := by
  simp [acceptChunk2, out]

theorem acceptChunk1_of_ne {chunk : JsString} (hne : chunk ≠ [] ) (allow : Bool) :
    b.acceptChunk1 chunk allow = b.acceptChunk2 (b.held.toList ++ chunk) := by
  have hlength : chunk.length ≠ 0 := by simpa using hne
  unfold acceptChunk1 PieceTreeTextBufferBuilder.held
  rw [if_neg (by simp [hlength])]
  split <;> rfl

theorem Inv.acceptChunk2 (h : b.Inv) {chunk : JsString} (hne : b.held.toList ++ chunk ≠ [])
    {hasPrevious : Bool} {previous : CodeUnit} (hheld : hasPrevious = true → isKeptBack previous)
    (hlast : hasPrevious = false → ∀ x, chunk.getLast? = some x → ¬isKeptBack x)
    (hchunk : chunk ≠ []) :
    Inv { b.acceptChunk2 (b.held.toList ++ chunk) with
      hasPreviousChar := hasPrevious, previousChar := previous } where
  ne_nil := by
    intro c hc
    rcases mem_append.mp hc with hc | hc
    · exact h.ne_nil c hc
    · rw [mem_singleton.mp hc]
      exact hne
  started := by
    intro c hc
    rcases mem_append.mp hc with hc | hc
    · exact h.started c hc
    · rw [mem_singleton.mp hc]
      exact createLineStarts_lineStarts _
  counts := by
    have hout := @acceptChunk2_out b (b.held.toList ++ chunk)
    unfold out at hout ⊢
    rw [hout]
    exact h.counts.append (createLineStarts_counts _) (h.not_torn chunk)
  held := by
    intro x hx
    change (if hasPrevious then some previous else none) = some x at hx
    split at hx
    next hprevious => exact Option.some.inj hx ▸ hheld hprevious
    next => exact absurd hx (by simp)
  last := by
    intro hnone x hx
    change (if hasPrevious then some previous else none) = none at hnone
    have hfalse : hasPrevious = false := by
      cases hasPrevious with
      | true => simp at hnone
      | false => rfl
    refine hlast hfalse x ?_
    have hout := @acceptChunk2_out b (b.held.toList ++ chunk)
    unfold out at hout hx
    rw [hout, ← append_assoc, getLast?_append_of_ne_nil _ hchunk] at hx
    exact hx
  bom := h.bom

def isSingleKeptBack (chunk : JsString) : Prop := ∃ x, isKeptBack x ∧ chunk = [x]

def delivered (b : PieceTreeTextBufferBuilder) : JsString := b.out ++ b.held.toList

theorem acceptRest_nil : b.acceptRest [] = { b with hasPreviousChar := false } := rfl

theorem acceptRest_single {x : CodeUnit} (hx : isKeptBack x) :
    b.acceptRest [x] = { b with hasPreviousChar := true, previousChar := x } := by
  simp [acceptRest, hx, acceptChunk1]

theorem Inv.acceptRest (h : b.Inv) {chunk : JsString} (hne : chunk ≠ [])
    (hsingle : ¬isSingleKeptBack chunk) :
    (b.acceptRest chunk).Inv ∧ (b.acceptRest chunk).BOM = b.BOM ∧
      (b.acceptRest chunk).out ≠ [] ∧ (b.acceptRest chunk).delivered = b.delivered ++ chunk := by
  obtain ⟨body, x, rfl⟩ : ∃ body x, chunk = body ++ [x] :=
    ⟨chunk.dropLast, chunk.getLast hne, (dropLast_append_getLast hne).symm⟩
  unfold PieceTreeTextBufferBuilder.acceptRest
  rw [getLast?_concat]
  by_cases hx : isKeptBack x
  · have hbody : body ≠ [] := by
      rintro rfl
      exact hsingle ⟨x, hx, rfl⟩
    have hpush : b.held.toList ++ body ≠ [] := by simp [hbody]
    simp only [if_pos hx, dropLast_concat]
    rw [acceptChunk1_of_ne hbody]
    refine ⟨h.acceptChunk2 hpush (fun _ => hx) (fun hfalse => by simp at hfalse) hbody, rfl, ?_, ?_⟩
    · change (b.acceptChunk2 _).out ≠ []
      rw [acceptChunk2_out]
      simp [hbody]
    · change (b.acceptChunk2 _).out ++ [x] = _
      rw [acceptChunk2_out]
      simp [delivered]
  · have hpush : b.held.toList ++ (body ++ [x]) ≠ [] := by simp
    simp only [if_neg hx]
    rw [acceptChunk1_of_ne hne]
    refine ⟨h.acceptChunk2 hpush (fun htrue => by simp at htrue) (fun _ y hy => ?_) hne, rfl, ?_, ?_⟩
    · rw [getLast?_concat] at hy
      exact Option.some.inj hy ▸ hx
    · change (b.acceptChunk2 _).out ≠ []
      rw [acceptChunk2_out]
      simp
    · change (b.acceptChunk2 _).out ++ [] = _
      rw [acceptChunk2_out]
      simp [delivered]

theorem Inv.acceptRest_any (h : b.Inv) (chunk : JsString) (hnil : chunk = [] → b.out = []) :
    (b.acceptRest chunk).Inv ∧ (b.acceptRest chunk).BOM = b.BOM ∧
      (b.acceptRest chunk).delivered.length ≤ b.delivered.length + chunk.length := by
  by_cases hsingle : isSingleKeptBack chunk
  · obtain ⟨x, hx, rfl⟩ := hsingle
    rw [acceptRest_single hx]
    refine ⟨⟨h.ne_nil, h.started, h.counts, ?_, ?_, h.bom⟩, rfl, ?_⟩
    · rintro y hy
      obtain rfl : x = y := Option.some.inj hy
      exact hx
    · intro hnone
      exact absurd hnone (by simp [PieceTreeTextBufferBuilder.held])
    · simp [delivered, PieceTreeTextBufferBuilder.held, out]
  · by_cases hchunk : chunk = []
    · subst hchunk
      rw [acceptRest_nil]
      refine ⟨⟨h.ne_nil, h.started, h.counts, ?_, ?_, h.bom⟩, rfl, ?_⟩
      · intro y hy
        exact absurd hy (by simp [PieceTreeTextBufferBuilder.held])
      · intro _ y hy
        have hout : b.out = [] := hnil rfl
        change b.out.getLast? = some y at hy
        rw [hout] at hy
        simp at hy
      · simp [delivered, PieceTreeTextBufferBuilder.held, out]
    · obtain ⟨hinv, hbom, -, hdelivered⟩ := h.acceptRest hchunk hsingle
      refine ⟨hinv, hbom, ?_⟩
      rw [hdelivered, length_append]

section Finish

def finalText (b : PieceTreeTextBufferBuilder) : JsString :=
  if b.out = [] then b.held.toList ++ b.held.toList else b.delivered

theorem appendPreviousChar_of_held {x : CodeUnit} (hx : b.held = some x)
    {front : List StringBuffer} {last : StringBuffer} (hchunks : b.chunks = front ++ [last]) :
    b.appendPreviousChar = { b with
      hasPreviousChar := false
      chunks := front ++ [{ buffer := last.buffer ++ [x], lineStarts := createLineStartsFast (last.buffer ++ [x]) }]
      cr := if x = carriageReturn then b.cr + 1 else b.cr } := by
  have hprevious : b.hasPreviousChar = true ∧ b.previousChar = x := by
    unfold PieceTreeTextBufferBuilder.held at hx
    split at hx
    next hprevious => exact ⟨hprevious, Option.some.inj hx⟩
    next => exact absurd hx (by simp)
  obtain ⟨hprevious, rfl⟩ := hprevious
  simp [appendPreviousChar, hprevious, hchunks]

theorem appendPreviousChar_of_none (hx : b.held = none) : b.appendPreviousChar = b := by
  unfold PieceTreeTextBufferBuilder.held at hx
  unfold appendPreviousChar
  split at hx
  · exact absurd hx (by simp)
  next hprevious => rw [if_neg hprevious]

structure Finished (b f : PieceTreeTextBufferBuilder) (text : JsString) : Prop where
  content : (Pieces.create f.chunks).getLinesRawContent = text
  counts : CountsEol text f.cr f.lf f.crlf
  bom : f.BOM = b.BOM

theorem countsEol_append_keptBack {u : JsString} {cr lf crlf : Nat} (h : CountsEol u cr lf crlf)
    {x : CodeUnit} (hx : isKeptBack x) :
    CountsEol (u ++ [x]) (if x = carriageReturn then cr + 1 else cr) lf crlf := by
  have hnot : ¬(u.getLast? = some carriageReturn ∧ [x].head? = some lineFeed) :=
    fun h => (ne_of_isKeptBack hx).1 (Option.some.inj h.2)
  split
  next heq => exact h.append (heq ▸ countsEol_carriageReturn) (heq ▸ hnot)
  next hne => simpa using h.append (countsEol_of_ne hne (ne_of_isKeptBack hx).1) hnot

theorem Inv.appendPreviousChar (h : b.Inv) (hne : b.out ≠ []) :
    Finished b b.appendPreviousChar b.delivered := by
  cases hheld : b.held with
  | none =>
    rw [appendPreviousChar_of_none hheld]
    refine ⟨?_, ?_, rfl⟩
    · rw [Pieces.getLinesRawContent_create h.ne_nil h.started, delivered, hheld]
      simp [out]
    · rw [delivered, hheld]
      simpa using h.counts
  | some x =>
    have hchunks : b.chunks ≠ [] := fun hnil => hne (h.out_eq_nil.mpr (by rw [hnil]; rfl))
    obtain ⟨front, last, hfront⟩ : ∃ front last, b.chunks = front ++ [last] :=
      ⟨b.chunks.dropLast, b.chunks.getLast hchunks, (dropLast_append_getLast hchunks).symm⟩
    rw [appendPreviousChar_of_held hheld hfront]
    refine ⟨?_, ?_, rfl⟩
    · rw [Pieces.getLinesRawContent_create, delivered, hheld, out, hfront]
      · simp
      · intro c hc
        rcases mem_append.mp hc with hc | hc
        · exact h.ne_nil c (hfront ▸ mem_append_left _ hc)
        · rw [mem_singleton.mp hc]
          simp
      · intro c hc
        rcases mem_append.mp hc with hc | hc
        · exact h.started c (hfront ▸ mem_append_left _ hc)
        · rw [mem_singleton.mp hc]
          rfl
    · rw [delivered, hheld]
      exact countsEol_append_keptBack h.counts (h.held x hheld)

theorem Inv.finishChunks (h : b.Inv) : Finished b b.finishChunks b.finalText := by
  unfold PieceTreeTextBufferBuilder.finishChunks finalText
  by_cases hout : b.out = []
  · rw [if_pos (h.out_eq_nil.mp hout), if_pos hout]
    have hchunks : b.chunks = [] := length_eq_zero_iff.mp (h.out_eq_nil.mp hout)
    have hcounts := hout ▸ h.counts
    cases hheld : b.held with
    | none =>
      have haccept : b.acceptChunk1 [] true = b.acceptChunk2 [] := by
        unfold PieceTreeTextBufferBuilder.held at hheld
        split at hheld
        · exact absurd hheld (by simp)
        next hprevious => simp [acceptChunk1, hprevious]
      have hheld' : (b.acceptChunk2 []).held = none := hheld
      rw [haccept, appendPreviousChar_of_none hheld']
      refine ⟨?_, ?_, rfl⟩
      · simp only [PieceTreeTextBufferBuilder.acceptChunk2, hchunks]
        exact Pieces.getLinesRawContent_create_empty _
      · exact hcounts
    | some x =>
      have haccept : b.acceptChunk1 [] true = b.acceptChunk2 [x] := by
        unfold PieceTreeTextBufferBuilder.held at hheld
        split at hheld
        next hprevious =>
          obtain rfl := Option.some.inj hheld
          simp [acceptChunk1, hprevious]
        · exact absurd hheld (by simp)
      have hheld' : (b.acceptChunk2 [x]).held = some x := hheld
      have hchunks' : (b.acceptChunk2 [x]).chunks =
          [] ++ [{ buffer := [x], lineStarts := (createLineStarts [x]).lineStarts }] := by
        simp [PieceTreeTextBufferBuilder.acceptChunk2, hchunks]
      rw [haccept, appendPreviousChar_of_held hheld' hchunks']
      refine ⟨?_, ?_, rfl⟩
      · rw [Pieces.getLinesRawContent_create]
        · simp
        · simp
        · intro c hc
          rw [mem_singleton.mp hc]
          rfl
      · refine countsEol_append_keptBack ?_ (h.held x hheld)
        exact hcounts.append (createLineStarts_counts [x]) (by simp)
  · rw [if_neg (fun hlength => hout (h.out_eq_nil.mpr hlength)), if_neg hout]
    exact h.appendPreviousChar hout

end Finish

end PieceTreeTextBufferBuilder

end Gavea.PieceTree
