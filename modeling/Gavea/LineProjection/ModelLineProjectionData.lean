import Mathlib.Tactic

namespace Gavea.LineProjection

inductive PositionAffinity
  | left
  | right
  | none
  | leftOfInjectedText
  | rightOfInjectedText
deriving DecidableEq

inductive InjectedTextCursorStops
  | both
  | right
  | left
  | none
deriving DecidableEq

structure InjectedTextOptions where
  /-- `content.length` -/
  length : Nat
  cursorStops : Option InjectedTextCursorStops

structure Injection where
  offset : Nat
  options : InjectedTextOptions

abbrev Injection.length (t : Injection) : Nat := t.options.length

structure ModelLineProjectionData where
  injections : Option (List Injection)
  breakOffsets : List Nat
  wrappedTextIndentLength : Nat

structure OutputPosition where
  outputLineIndex : Nat
  outputOffset : Nat

def hasRightCursorStop (cursorStop : Option InjectedTextCursorStops) : Bool :=
  match cursorStop with
  | none => true
  | some stop => stop = .right || stop = .both

def hasLeftCursorStop (cursorStop : Option InjectedTextCursorStops) : Bool :=
  match cursorStop with
  | none => true
  | some stop => stop = .left || stop = .both

abbrev Injection.right (t : Injection) : Bool := hasRightCursorStop t.options.cursorStops

abbrev Injection.left (t : Injection) : Bool := hasLeftCursorStop t.options.cursorStops

def inputOffsetLoop : List Injection → Nat → Nat
  | [], offsetInInput => offsetInInput
  | t :: rest, offsetInInput =>
    if offsetInInput > t.offset then
      if offsetInInput < t.offset + t.length then inputOffsetLoop rest t.offset
      else inputOffsetLoop rest (offsetInInput - t.length)
    else offsetInInput

def injectLoop (inputOffset : Nat) (affinity : PositionAffinity) : List Injection → Nat → Nat
  | [], result => result
  | t :: rest, result =>
    if inputOffset < t.offset then result
    else if affinity ≠ .right ∧ inputOffset = t.offset then result
    else injectLoop inputOffset affinity rest (result + t.length)

structure InjectedTextAtOffset where
  injectedTextIndex : Nat
  offsetInInputWithInjections : Nat
  length : Nat

def injectedTextLoop (offset : Nat) :
    List Injection → (index totalInjectedTextLengthBefore : Nat) → Option InjectedTextAtOffset
  | [], _, _ => none
  | t :: rest, index, total =>
    if t.offset + total > offset then none
    else if offset ≤ t.offset + total + t.length then some ⟨index, t.offset + total, t.length⟩
    else injectedTextLoop offset rest (index + 1) (total + t.length)

def getInjectedTextAtOffset (ts : List Injection) (offset : Nat) : Option InjectedTextAtOffset :=
  injectedTextLoop offset ts 0 0

/-- The texts in front of an index that have no cursor stop are passed. -/
def stopLoop (ts : List Injection) (offset : Nat) : Nat → Nat → Nat
  | 0, result => result
  | index + 1, result =>
    match ts[index]? with
    | none => result
    | some t =>
      if t.offset = offset then
        if t.right then result
        else if t.left then result - t.length
        else stopLoop ts offset index (result - t.length)
      else result

/-- The texts behind an index that touch it are passed. -/
def rightLoop (offset : Nat) : List Injection → Nat → Nat
  | [], result => result
  | t :: rest, result => if t.offset = offset then rightLoop t.offset rest (result + t.length) else result

/-- The texts in front of an index that touch it are passed. -/
def leftLoop (ts : List Injection) : Nat → Nat → Nat → Nat
  | 0, _, result => result
  | index + 1, offset, result =>
    match ts[index]? with
    | none => result
    | some t => if t.offset = offset then leftLoop ts index t.offset (result - t.length) else result

def normalizeOffsetInInputWithInjectionsAroundInjections (ts : List Injection) (offset : Nat)
    (affinity : PositionAffinity) : Nat :=
  match getInjectedTextAtOffset ts offset with
  | none => offset
  | some injectedText =>
    let start := injectedText.offsetInInputWithInjections
    match ts[injectedText.injectedTextIndex]? with
    | none => offset
    | some t =>
      match affinity with
      | .none =>
        if offset = start + injectedText.length ∧ t.right then start + injectedText.length
        else if t.left then start
        else stopLoop ts t.offset injectedText.injectedTextIndex start
      | .right | .rightOfInjectedText =>
        rightLoop t.offset (ts.drop (injectedText.injectedTextIndex + 1)) (start + injectedText.length)
      | .left | .leftOfInjectedText => leftLoop ts injectedText.injectedTextIndex t.offset start

namespace ModelLineProjectionData

variable (d : ModelLineProjectionData)

def startOffset (outputLineIndex : Nat) : Nat :=
  if outputLineIndex > 0 then d.breakOffsets.getD (outputLineIndex - 1) 0 else 0

def getOutputLineCount : Nat := d.breakOffsets.length

def getMinOutputOffset (outputLineIndex : Nat) : Nat := if outputLineIndex > 0 then d.wrappedTextIndentLength else 0

def getLineLength (outputLineIndex : Nat) : Nat :=
  let lineLength := d.breakOffsets.getD outputLineIndex 0 - d.startOffset outputLineIndex
  if outputLineIndex > 0 then lineLength + d.wrappedTextIndentLength else lineLength

def getMaxOutputOffset (outputLineIndex : Nat) : Nat := d.getLineLength outputLineIndex

def outputPositionToOffsetInInputWithInjections (p : OutputPosition) : Nat :=
  let outputOffset :=
    if p.outputLineIndex > 0 then p.outputOffset - d.wrappedTextIndentLength else p.outputOffset
  d.startOffset p.outputLineIndex + outputOffset

def searchLoop (offset : Nat) (affinity : PositionAffinity) (low : Nat) (high : Int) (mid midStart : Nat) :
    Nat × Nat :=
  if low ≤ high then
    let mid := low + ((high - low) / 2).toNat
    let midStop := d.breakOffsets.getD mid 0
    let midStart := d.startOffset mid
    if affinity = .left then
      if offset ≤ midStart then searchLoop offset affinity low (mid - 1) mid midStart
      else if offset > midStop then searchLoop offset affinity (mid + 1) high mid midStart
      else (mid, midStart)
    else
      if offset < midStart then searchLoop offset affinity low (mid - 1) mid midStart
      else if offset ≥ midStop then searchLoop offset affinity (mid + 1) high mid midStart
      else (mid, midStart)
  else (mid, midStart)
termination_by (high + 1 - low).toNat

def offsetInInputWithInjectionsToOutputPosition (offset : Nat) (affinity : PositionAffinity) :
    OutputPosition :=
  let (mid, midStart) := d.searchLoop offset affinity 0 (d.breakOffsets.length - 1) 0 0
  let outputOffset := offset - midStart
  ⟨mid, if mid > 0 then outputOffset + d.wrappedTextIndentLength else outputOffset⟩

def translateToInputOffset (p : OutputPosition) : Nat :=
  let outputOffset :=
    if p.outputLineIndex > 0 then p.outputOffset - d.wrappedTextIndentLength else p.outputOffset
  let offsetInInputWithInjection :=
    if p.outputLineIndex = 0 then outputOffset
    else d.breakOffsets.getD (p.outputLineIndex - 1) 0 + outputOffset
  match d.injections with
  | none => offsetInInputWithInjection
  | some ts => inputOffsetLoop ts offsetInInputWithInjection

def translateToOutputPosition (inputOffset : Nat) (affinity : PositionAffinity) : OutputPosition :=
  let inputOffsetInInputWithInjection :=
    match d.injections with
    | none => inputOffset
    | some ts => injectLoop inputOffset affinity ts inputOffset
  d.offsetInInputWithInjectionsToOutputPosition inputOffsetInInputWithInjection affinity

def normalizeAtBreak (p : OutputPosition) (affinity : PositionAffinity) : OutputPosition :=
  match affinity with
  | .left =>
    if p.outputLineIndex > 0 ∧ p.outputOffset = d.getMinOutputOffset p.outputLineIndex then
      ⟨p.outputLineIndex - 1, d.getMaxOutputOffset (p.outputLineIndex - 1)⟩
    else p
  | .right =>
    if p.outputLineIndex < d.getOutputLineCount - 1 ∧
        p.outputOffset = d.getMaxOutputOffset p.outputLineIndex then
      ⟨p.outputLineIndex + 1, d.getMinOutputOffset (p.outputLineIndex + 1)⟩
    else p
  | _ => p

def normalizeOutputPosition (p : OutputPosition) (affinity : PositionAffinity) : OutputPosition :=
  match d.injections with
  | none => d.normalizeAtBreak p affinity
  | some ts =>
    let offset := d.outputPositionToOffsetInInputWithInjections p
    let normalized := normalizeOffsetInInputWithInjectionsAroundInjections ts offset affinity
    if normalized ≠ offset then d.offsetInInputWithInjectionsToOutputPosition normalized affinity
    else d.normalizeAtBreak p affinity

end ModelLineProjectionData

open List

def totalLength (ts : List Injection) : Nat := (ts.map Injection.length).sum

@[simp] theorem totalLength_nil : totalLength [] = 0 := rfl

@[simp] theorem totalLength_cons (t : Injection) (ts : List Injection) :
    totalLength (t :: ts) = t.length + totalLength ts := rfl

@[simp] theorem totalLength_append (ts ts' : List Injection) :
    totalLength (ts ++ ts') = totalLength ts + totalLength ts' := by
  rw [totalLength, map_append, sum_append]
  rfl

@[simp] theorem totalLength_reverse (ts : List Injection) :
    totalLength ts.reverse = totalLength ts := by
  rw [totalLength, map_reverse, sum_reverse]
  rfl

def Sorted (ts : List Injection) : Prop := ts.Pairwise fun s t => s.offset ≤ t.offset

variable {ts far g beyond rest : List Injection} {o : Nat}

theorem inputOffsetLoop_of_le (h : ∀ t ∈ ts, o ≤ t.offset) : inputOffsetLoop ts o = o := by
  cases ts with
  | nil => rfl
  | cons t ts =>
    have ht := h t mem_cons_self
    rw [inputOffsetLoop, if_neg (by omega)]

theorem inputOffsetLoop_append (hsorted : Sorted (far ++ rest)) (h : ∀ t ∈ far, t.offset ≤ o) :
    inputOffsetLoop (far ++ rest) (o + totalLength far) = inputOffsetLoop rest o := by
  induction far with
  | nil => rfl
  | cons t far ih =>
    have ht := h t mem_cons_self
    rw [cons_append, Sorted, pairwise_cons] at hsorted
    have hstep := ih hsorted.2 fun s hs => h s (mem_cons_of_mem t hs)
    rw [cons_append, inputOffsetLoop, totalLength_cons]
    split_ifs with hin hwithin
    · omega
    · rw [← hstep]
      congr 1
      omega
    · have hbehind : ∀ s ∈ rest, o ≤ s.offset := fun s hs => by
        have hle := hsorted.1 s (mem_append_right far hs)
        omega
      rw [inputOffsetLoop_of_le hbehind]
      omega

theorem inputOffsetLoop_group (hg : ∀ t ∈ g, t.offset = o) (hbeyond : ∀ t ∈ beyond, o ≤ t.offset)
    {y : Nat} (hy : y ≤ totalLength g) : inputOffsetLoop (g ++ beyond) (o + y) = o := by
  induction g generalizing y with
  | nil =>
    obtain rfl : y = 0 := Nat.le_zero.mp hy
    exact inputOffsetLoop_of_le hbeyond
  | cons t g ih =>
    have ht := hg t mem_cons_self
    have hg' : ∀ s ∈ g, s.offset = o := fun s hs => hg s (mem_cons_of_mem t hs)
    rw [totalLength_cons] at hy
    rw [cons_append, inputOffsetLoop, ht]
    split_ifs with hin hwithin
    · refine inputOffsetLoop_of_le fun s hs => ?_
      rcases mem_append.mp hs with hs | hs
      · exact (hg' s hs).ge
      · exact hbeyond s hs
    · rw [Nat.add_sub_assoc (by omega)]
      exact ih hg' (by omega)
    · omega

theorem injectLoop_spec (hsorted : Sorted ts) (o : Nat) (affinity : PositionAffinity)
    (result : Nat) :
    ∃ taken rest, ts = taken ++ rest ∧ (∀ t ∈ taken, t.offset ≤ o) ∧ (∀ t ∈ rest, o ≤ t.offset) ∧
      injectLoop o affinity ts result = result + totalLength taken := by
  induction ts generalizing result with
  | nil => exact ⟨[], [], rfl, by simp, by simp, rfl⟩
  | cons t ts ih =>
    rw [Sorted, pairwise_cons] at hsorted
    have hbehind (ht : o ≤ t.offset) : ∀ s ∈ t :: ts, o ≤ s.offset := by
      intro s hs
      rcases mem_cons.mp hs with rfl | hs
      · exact ht
      · exact ht.trans (hsorted.1 s hs)
    rw [injectLoop]
    split_ifs with hlt hat
    · exact ⟨[], t :: ts, rfl, by simp, hbehind hlt.le, rfl⟩
    · exact ⟨[], t :: ts, rfl, by simp, hbehind hat.2.le, rfl⟩
    · obtain ⟨taken, rest, rfl, htaken, hrest, heq⟩ := ih hsorted.2 (result + t.length)
      refine ⟨t :: taken, rest, rfl, ?_, hrest, ?_⟩
      · intro s hs
        rcases mem_cons.mp hs with rfl | hs
        · omega
        · exact htaken s hs
      · rw [heq, totalLength_cons]
        omega

theorem inputOffsetLoop_injectLoop (hsorted : Sorted ts) (o : Nat) (affinity : PositionAffinity) :
    inputOffsetLoop ts (injectLoop o affinity ts o) = o := by
  obtain ⟨taken, rest, rfl, htaken, hrest, heq⟩ := injectLoop_spec hsorted o affinity o
  rw [heq, inputOffsetLoop_append hsorted htaken, inputOffsetLoop_of_le hrest]

theorem injectLoop_le (hsorted : Sorted ts) (o : Nat) (affinity : PositionAffinity) :
    injectLoop o affinity ts o ≤ o + totalLength ts := by
  obtain ⟨taken, rest, rfl, -, -, heq⟩ := injectLoop_spec hsorted o affinity o
  rw [heq, totalLength_append]
  omega

theorem le_injectLoop (o : Nat) (affinity : PositionAffinity) (result : Nat) :
    result ≤ injectLoop o affinity ts result := by
  induction ts generalizing result with
  | nil => exact le_refl _
  | cons t ts ih =>
    rw [injectLoop]
    split_ifs
    · exact le_refl _
    · exact le_refl _
    · exact (Nat.le_add_right _ _).trans (ih _)

theorem injectLoop_mono {o' : Nat} (h : o ≤ o') (affinity : PositionAffinity) {result result' : Nat}
    (hresult : result ≤ result') :
    injectLoop o affinity ts result ≤ injectLoop o' affinity ts result' := by
  induction ts generalizing result result' with
  | nil => exact hresult
  | cons t ts ih =>
    have hself := @le_injectLoop (t :: ts) o' affinity result'
    have hlonger := ih (Nat.add_le_add_right hresult t.length)
    rw [injectLoop]
    split_ifs with hlt hat
    · exact hresult.trans hself
    · exact hresult.trans hself
    · rw [injectLoop, if_neg (by omega), if_neg fun hat' => ?_]
      · exact hlonger
      · exact hat ⟨hat'.1, by omega⟩

end Gavea.LineProjection
