import Mathlib.Data.List.GetD
import Mathlib.Tactic

namespace Gavea.Folding

/-- An element of a `Uint32Array`. -/
abbrev Word := BitVec 32

def MAX_FOLDING_REGIONS : Nat := 0xFFFF

def MAX_LINE_NUMBER : Word := 0xFFFFFF

def MASK_INDENT : Word := 0xFF000000

inductive FoldingError
  | invalidIndexesSize
  | lineNumberMustNotExceed (max : Nat)

/-- The lines of the regions, with the links to their parents in the high bytes. -/
structure FoldingRegions where
  startIndexes : List Word
  endIndexes : List Word
  parentsComputed : Bool

namespace FoldingRegions

def new (startIndexes endIndexes : List Word) : Except FoldingError FoldingRegions :=
  if startIndexes.length ≠ endIndexes.length ∨ startIndexes.length > MAX_FOLDING_REGIONS then
    .error .invalidIndexesSize
  else .ok ⟨startIndexes, endIndexes, false⟩

def length (r : FoldingRegions) : Nat := r.startIndexes.length

def getStartLineNumber (r : FoldingRegions) (index : Nat) : Nat :=
  (r.startIndexes.getD index 0 &&& MAX_LINE_NUMBER).toNat

def getEndLineNumber (r : FoldingRegions) (index : Nat) : Nat := (r.endIndexes.getD index 0 &&& MAX_LINE_NUMBER).toNat

def isInside (r : FoldingRegions) (index startLineNumber endLineNumber : Nat) : Bool :=
  r.getStartLineNumber index ≤ startLineNumber && r.getEndLineNumber index ≥ endLineNumber

def popOutside (r : FoldingRegions) (startLineNumber endLineNumber : Nat) : List Nat → List Nat
  | [] => []
  | index :: parentIndexes =>
    if r.isInside index startLineNumber endLineNumber then index :: parentIndexes
    else r.popOutside startLineNumber endLineNumber parentIndexes

def parentWord : List Nat → Word
  | [] => -1
  | index :: _ => BitVec.ofNat 32 index

def linkParent (r : FoldingRegions) (parentIndexes : List Nat) (i : Nat) :
    Except FoldingError (FoldingRegions × List Nat) :=
  let startLineNumber := r.startIndexes.getD i 0
  let endLineNumber := r.endIndexes.getD i 0
  if startLineNumber > MAX_LINE_NUMBER ∨ endLineNumber > MAX_LINE_NUMBER then
    .error (.lineNumberMustNotExceed MAX_LINE_NUMBER.toNat)
  else
    let parentIndexes := r.popOutside startLineNumber.toNat endLineNumber.toNat parentIndexes
    let parentIndex := parentWord parentIndexes
    .ok ({ r with
            startIndexes := r.startIndexes.set i (startLineNumber + ((parentIndex &&& 0xFF) <<< 24))
            endIndexes := r.endIndexes.set i (endLineNumber + ((parentIndex &&& 0xFF00) <<< 16)) },
          i :: parentIndexes)

def linkParents : Nat → Nat → FoldingRegions → List Nat → Except FoldingError FoldingRegions
  | 0, _, r, _ => .ok r
  | left + 1, i, r, parentIndexes => do
      let (r, parentIndexes) ← r.linkParent parentIndexes i
      linkParents left (i + 1) r parentIndexes

def ensureParentIndices (r : FoldingRegions) : Except FoldingError FoldingRegions :=
  if r.parentsComputed then .ok r
  else linkParents r.startIndexes.length 0 { r with parentsComputed := true } []

def unpackParent (r : FoldingRegions) (index : Nat) : Int :=
  let parent := ((r.startIndexes.getD index 0 &&& MASK_INDENT) >>> 24).toNat +
    ((r.endIndexes.getD index 0 &&& MASK_INDENT) >>> 16).toNat
  if parent = MAX_FOLDING_REGIONS then -1 else parent

def getParentIndex (r : FoldingRegions) (index : Nat) :
    Except FoldingError (FoldingRegions × Int) := do
  let r ← r.ensureParentIndices
  return (r, r.unpackParent index)

def contains (r : FoldingRegions) (index : Nat) (line : Int) : Bool :=
  r.getStartLineNumber index ≤ line && r.getEndLineNumber index ≥ line

def findIndexLoop (r : FoldingRegions) (line : Int) (low high : Nat) : Nat :=
  if low < high then
    let mid := (low + high) / 2
    if line < r.getStartLineNumber mid then r.findIndexLoop line low mid
    else r.findIndexLoop line (mid + 1) high
  else low
termination_by high - low

def findIndex (r : FoldingRegions) (line : Int) : Int :=
  let high := r.startIndexes.length
  if high = 0 then -1 else (r.findIndexLoop line 0 high : Int) - 1

def climb : Nat → FoldingRegions → Int → Int → Except FoldingError (Option (FoldingRegions × Int))
  | 0, _, _, _ => .ok none
  | fuel + 1, r, line, index => do
      if index = -1 then return some (r, -1)
      else if r.contains index.toNat line then return some (r, index)
      else
        let (r, index) ← r.getParentIndex index.toNat
        climb fuel r line index

def findRange (r : FoldingRegions) (line : Int) :
    Except FoldingError (Option (FoldingRegions × Int)) := do
  let index := r.findIndex line
  if index ≥ 0 then
    if r.getEndLineNumber index.toNat ≥ line then return some (r, index)
    else
      let (r, index) ← r.getParentIndex index.toNat
      climb (r.startIndexes.length + 1) r line index
  else return some (r, -1)

end FoldingRegions

open List

theorem parent_low_bits (p : Word) : (p &&& 0xFF) <<< 24 = p <<< 24 := by
  ext i hi
  interval_cases i <;> simp

theorem parent_high_bits (p : Word) : (p &&& 0xFF00) <<< 16 = (p >>> 8) <<< 24 := by
  ext i hi
  interval_cases i <;> simp

theorem mask_start (w : Word) : (w &&& MASK_INDENT) >>> 24 = w >>> 24 := by
  ext i hi
  interval_cases i <;> simp [MASK_INDENT]

theorem mask_end (w : Word) : (w &&& MASK_INDENT) >>> 16 = (w >>> 24) <<< 8 := by
  ext i hi
  interval_cases i <;> simp [MASK_INDENT]

theorem mask_line (w : Word) : (w &&& MAX_LINE_NUMBER).toNat = w.toNat % 2 ^ 24 := by
  rw [BitVec.toNat_and]
  exact Nat.and_two_pow_sub_one_eq_mod _ 24

theorem toNat_pack (line byte : Word) (h : line.toNat < 2 ^ 24) :
    (line + byte <<< 24).toNat = line.toNat + byte.toNat % 256 * 2 ^ 24 := by
  have hbyte := byte.isLt
  rw [BitVec.toNat_add, BitVec.toNat_shiftLeft, Nat.shiftLeft_eq]
  omega

theorem line_pack (line byte : Word) (h : line.toNat < 2 ^ 24) :
    ((line + byte <<< 24) &&& MAX_LINE_NUMBER).toNat = line.toNat := by
  rw [mask_line, toNat_pack line byte h]
  omega

theorem byte_pack (line byte : Word) (h : line.toNat < 2 ^ 24) :
    ((line + byte <<< 24) >>> 24).toNat = byte.toNat % 256 := by
  rw [BitVec.toNat_ushiftRight, toNat_pack line byte h, Nat.shiftRight_eq_div_pow]
  omega

theorem unpack_pack (first last parent : Word) (hfirst : first.toNat < 2 ^ 24)
    (hlast : last.toNat < 2 ^ 24) :
    (((first + (parent &&& 0xFF) <<< 24) &&& MASK_INDENT) >>> 24).toNat +
        (((last + (parent &&& 0xFF00) <<< 16) &&& MASK_INDENT) >>> 16).toNat =
      parent.toNat % 65536 := by
  have hparent := parent.isLt
  rw [parent_low_bits, parent_high_bits, mask_start, mask_end, byte_pack first parent hfirst, BitVec.toNat_shiftLeft,
    byte_pack last _ hlast, BitVec.toNat_ushiftRight, Nat.shiftRight_eq_div_pow, Nat.shiftLeft_eq]
  omega

structure ILineRange where
  startLineNumber : Nat
  endLineNumber : Nat

namespace ILineRange

def Encloses (a b : ILineRange) : Prop := a.startLineNumber ≤ b.startLineNumber ∧ b.endLineNumber ≤ a.endLineNumber

instance (a b : ILineRange) : Decidable (a.Encloses b) := inferInstanceAs (Decidable (_ ∧ _))

theorem Encloses.trans {a b c : ILineRange} (h : a.Encloses b) (h' : b.Encloses c) :
    a.Encloses c :=
  ⟨h.1.trans h'.1, h'.2.trans h.2⟩

def Contains (a : ILineRange) (line : Int) : Prop := a.startLineNumber ≤ line ∧ line ≤ a.endLineNumber

def Nests (a b : ILineRange) : Prop :=
  a.startLineNumber ≤ b.startLineNumber ∧ (a.Encloses b ∨ a.endLineNumber < b.startLineNumber)

instance (a b : ILineRange) : Decidable (a.Nests b) := inferInstanceAs (Decidable (_ ∧ _))

end ILineRange

structure Foldable (ranges : List ILineRange) : Prop where
  length : ranges.length ≤ MAX_FOLDING_REGIONS
  lines : ∀ a ∈ ranges, a.startLineNumber ≤ a.endLineNumber ∧ a.endLineNumber ≤ MAX_LINE_NUMBER.toNat
  nested : ranges.Pairwise ILineRange.Nests

def rangeAt (ranges : List ILineRange) (i : Nat) : ILineRange := ranges.getD i ⟨0, 0⟩

variable {ranges : List ILineRange}

theorem rangeAt_mem {i : Nat} (h : i < ranges.length) : rangeAt ranges i ∈ ranges := by
  rw [rangeAt, getD_eq_getElem _ _ h]
  exact getElem_mem h

theorem Foldable.nests (h : Foldable ranges) {i j : Nat} (hij : i < j) (hj : j < ranges.length) :
    (rangeAt ranges i).Nests (rangeAt ranges j) := by
  rw [rangeAt, rangeAt, getD_eq_getElem _ _ (hij.trans hj), getD_eq_getElem _ _ hj]
  exact pairwise_iff_getElem.mp h.nested i j _ hj hij

theorem Foldable.start_le (h : Foldable ranges) {i j : Nat} (hij : i ≤ j)
    (hj : j < ranges.length) :
    (rangeAt ranges i).startLineNumber ≤ (rangeAt ranges j).startLineNumber := by
  rcases hij.eq_or_lt with rfl | hlt
  · exact le_rfl
  · exact (h.nests hlt hj).1

def IsParent (ranges : List ILineRange) (i : Nat) (parent : Int) : Prop :=
  (parent = -1 ∧ ∀ j < i, ¬ (rangeAt ranges j).Encloses (rangeAt ranges i)) ∨
    ∃ p : Nat, parent = p ∧ p < i ∧ (rangeAt ranges p).Encloses (rangeAt ranges i) ∧
      ∀ j < i, (rangeAt ranges j).Encloses (rangeAt ranges i) → j ≤ p ∧ (rangeAt ranges j).Encloses (rangeAt ranges p)

/-- The open regions in front of the region `i`: the others enclose nothing from there on. -/
structure Open (ranges : List ILineRange) (i : Nat) (stack : List Nat) : Prop where
  before : ∀ j ∈ stack, j < i
  chain : stack.Pairwise fun a b => b < a ∧ (rangeAt ranges b).Encloses (rangeAt ranges a)
  closed : ∀ j < i, j ∉ stack → ∀ k, i ≤ k → k < ranges.length → ¬ (rangeAt ranges j).Encloses (rangeAt ranges k)

theorem open_nil : Open ranges 0 [] where
  before _ hj := nomatch hj
  chain := List.Pairwise.nil
  closed j hj := absurd hj (Nat.not_lt_zero j)

structure HasLines (r : FoldingRegions) (ranges : List ILineRange) : Prop where
  starts_length : r.startIndexes.length = ranges.length
  ends_length : r.endIndexes.length = ranges.length
  start : ∀ i < ranges.length, r.getStartLineNumber i = (rangeAt ranges i).startLineNumber
  stop : ∀ i < ranges.length, r.getEndLineNumber i = (rangeAt ranges i).endLineNumber

def Unlinked (r : FoldingRegions) (ranges : List ILineRange) (i : Nat) : Prop :=
  r.startIndexes.getD i 0 = BitVec.ofNat 32 (rangeAt ranges i).startLineNumber ∧
    r.endIndexes.getD i 0 = BitVec.ofNat 32 (rangeAt ranges i).endLineNumber

theorem popOutside_spec {r : FoldingRegions} (hlines : HasLines r ranges) {i : Nat} :
    ∀ stack : List Nat, (∀ j ∈ stack, j < ranges.length) →
      (stack.Pairwise fun a b => b < a ∧ (rangeAt ranges b).Encloses (rangeAt ranges a)) →
      ∃ popped, stack = popped ++ r.popOutside (rangeAt ranges i).startLineNumber
          (rangeAt ranges i).endLineNumber stack ∧
        (∀ j ∈ popped, ¬ (rangeAt ranges j).Encloses (rangeAt ranges i)) ∧
        ∀ j ∈ r.popOutside (rangeAt ranges i).startLineNumber (rangeAt ranges i).endLineNumber
          stack, (rangeAt ranges j).Encloses (rangeAt ranges i) := by
  intro stack
  induction stack with
  | nil => intro _ _; exact ⟨[], rfl, fun _ hj => (nomatch hj), fun _ hj => (nomatch hj)⟩
  | cons a stack ih =>
    intro hlt hchain
    obtain ⟨habove, hrest⟩ := pairwise_cons.mp hchain
    have hinside : r.isInside a (rangeAt ranges i).startLineNumber
        (rangeAt ranges i).endLineNumber = true ↔
          (rangeAt ranges a).Encloses (rangeAt ranges i) := by
      have ha := hlt a mem_cons_self
      rw [FoldingRegions.isInside, hlines.start a ha, hlines.stop a ha, Bool.and_eq_true,
        decide_eq_true_eq, decide_eq_true_eq]
      rfl
    rw [FoldingRegions.popOutside]
    by_cases hin : (rangeAt ranges a).Encloses (rangeAt ranges i)
    · rw [if_pos (hinside.mpr hin)]
      refine ⟨[], rfl, fun _ hj => (nomatch hj), fun j hj => ?_⟩
      rcases mem_cons.mp hj with rfl | hj
      · exact hin
      · exact (habove j hj).2.trans hin
    · rw [if_neg fun h => hin (hinside.mp h)]
      obtain ⟨popped, hsplit, hpopped, hstay⟩ := ih (fun j hj => hlt j (mem_cons_of_mem a hj)) hrest
      refine ⟨a :: popped, congrArg (a :: ·) hsplit, fun j hj => ?_, hstay⟩
      rcases mem_cons.mp hj with rfl | hj
      · exact hin
      · exact hpopped j hj

def topIndex : List Nat → Int
  | [] => -1
  | p :: _ => p

theorem Open.next (h : Foldable ranges) {i : Nat} {stack popped rest : List Nat}
    (hopen : Open ranges i stack) (hi : i < ranges.length) (hsplit : stack = popped ++ rest)
    (hpopped : ∀ j ∈ popped, ¬ (rangeAt ranges j).Encloses (rangeAt ranges i))
    (hrest : ∀ j ∈ rest, (rangeAt ranges j).Encloses (rangeAt ranges i)) :
    Open ranges (i + 1) (i :: rest) ∧
      IsParent ranges i (topIndex rest) := by
  have hmem : ∀ j < i, (rangeAt ranges j).Encloses (rangeAt ranges i) → j ∈ rest := by
    intro j hj hencloses
    by_contra hnot
    by_cases hstack : j ∈ stack
    · rw [hsplit, mem_append] at hstack
      exact hpopped j (hstack.resolve_right hnot) hencloses
    · exact hopen.closed j hj hstack i le_rfl hi hencloses
  have hchain : rest.Pairwise fun a b =>
      b < a ∧ (rangeAt ranges b).Encloses (rangeAt ranges a) := by
    have hall := hopen.chain
    rw [hsplit, pairwise_append] at hall
    exact hall.2.1
  have hbefore : ∀ j ∈ rest, j < i := fun j hj => hopen.before j (hsplit ▸ mem_append_right popped hj)
  refine ⟨⟨?_, ?_, ?_⟩, ?_⟩
  · intro j hj
    rcases mem_cons.mp hj with rfl | hj
    · omega
    · have := hbefore j hj
      omega
  · exact pairwise_cons.mpr ⟨fun j hj => ⟨hbefore j hj, hrest j hj⟩, hchain⟩
  · intro j hj hnot k hk hlt hencloses
    rw [mem_cons, not_or] at hnot
    have hji : j < i := by omega
    have hnot' : ¬ (rangeAt ranges j).Encloses (rangeAt ranges i) := fun henc => hnot.2 (hmem j hji henc)
    have hapart := (h.nests hji hi).2.resolve_left hnot'
    have hstart := h.start_le (show i ≤ k by omega) hlt
    have hvalid := (h.lines _ (rangeAt_mem hlt)).1
    have := hencloses.2
    omega
  · cases rest with
    | nil => exact Or.inl ⟨rfl, fun j hj henc => nomatch hmem j hj henc⟩
    | cons p rest =>
      refine Or.inr ⟨p, rfl, hbefore p mem_cons_self, hrest p mem_cons_self, fun j hj henc => ?_⟩
      rcases mem_cons.mp (hmem j hj henc) with rfl | hj'
      · exact ⟨le_rfl, le_rfl, le_rfl⟩
      · obtain ⟨hlt, hencloses⟩ := rel_of_pairwise_cons hchain hj'
        exact ⟨hlt.le, hencloses⟩

end Gavea.Folding

namespace Gavea.Folding

open List

variable {ranges : List ILineRange}

def Linked (r : FoldingRegions) (ranges : List ILineRange) (i : Nat) : Prop := IsParent ranges i (r.unpackParent i)

theorem Foldable.toNat_lines (h : Foldable ranges) {i : Nat} (hi : i < ranges.length) :
    (BitVec.ofNat 32 (rangeAt ranges i).startLineNumber).toNat =
        (rangeAt ranges i).startLineNumber ∧
      (BitVec.ofNat 32 (rangeAt ranges i).endLineNumber).toNat = (rangeAt ranges i).endLineNumber ∧
      (rangeAt ranges i).startLineNumber < 2 ^ 24 ∧ (rangeAt ranges i).endLineNumber < 2 ^ 24 := by
  obtain ⟨hle, hmax⟩ := h.lines _ (rangeAt_mem hi)
  rw [show MAX_LINE_NUMBER.toNat = 2 ^ 24 - 1 from rfl] at hmax
  rw [BitVec.toNat_ofNat, BitVec.toNat_ofNat, Nat.mod_eq_of_lt (by omega), Nat.mod_eq_of_lt (by omega)]
  omega

theorem parentWord_mod {n : Nat} (h : n ≤ MAX_FOLDING_REGIONS) {stack : List Nat}
    (hlt : ∀ j ∈ stack, j < n) :
    (if (FoldingRegions.parentWord stack).toNat % 65536 = MAX_FOLDING_REGIONS then (-1 : Int)
      else ((FoldingRegions.parentWord stack).toNat % 65536 : Nat)) = topIndex stack := by
  cases stack with
  | nil => rfl
  | cons p stack =>
    have hp := hlt p mem_cons_self
    rw [show MAX_FOLDING_REGIONS = 65535 from rfl] at h ⊢
    have hword : (FoldingRegions.parentWord (p :: stack)).toNat = p := by
      rw [FoldingRegions.parentWord, BitVec.toNat_ofNat, Nat.mod_eq_of_lt (by omega)]
    rw [hword, Nat.mod_eq_of_lt (by omega), if_neg (by omega), topIndex]

structure LinkedBefore (r : FoldingRegions) (ranges : List ILineRange) (i : Nat)
    (stack : List Nat) : Prop where
  computed : r.parentsComputed = true
  lines : HasLines r ranges
  linked : ∀ k < i, Linked r ranges k
  unlinked : ∀ k, i ≤ k → k < ranges.length → Unlinked r ranges k
  stack : Open ranges i stack

theorem linkParent_spec (h : Foldable ranges) {r : FoldingRegions} {i : Nat} {stack : List Nat}
    (hbefore : LinkedBefore r ranges i stack) (hi : i < ranges.length) :
    ∃ r' stack', r.linkParent stack i = .ok (r', stack') ∧
      LinkedBefore r' ranges (i + 1) stack' := by
  obtain ⟨hstart, hstop⟩ := hbefore.unlinked i le_rfl hi
  obtain ⟨hfirst, hlast, hfirst', hlast'⟩ := h.toNat_lines hi
  have hlt : ∀ j ∈ stack, j < ranges.length := fun j hj => (hbefore.stack.before j hj).trans hi
  obtain ⟨popped, hsplit, hpopped, hrest⟩ := popOutside_spec hbefore.lines (i := i) stack hlt hbefore.stack.chain
  generalize hstay : r.popOutside (rangeAt ranges i).startLineNumber
    (rangeAt ranges i).endLineNumber stack = rest at hsplit hrest
  obtain ⟨hopen, hparent⟩ := hbefore.stack.next h hi hsplit hpopped hrest
  have hstarts : i < r.startIndexes.length := by rw [hbefore.lines.starts_length]; exact hi
  have hends : i < r.endIndexes.length := by rw [hbefore.lines.ends_length]; exact hi
  have hmod := parentWord_mod h.length fun j hj => hlt j (hsplit ▸ mem_append_right popped hj)
  refine ⟨{ r with
      startIndexes := r.startIndexes.set i (BitVec.ofNat 32 (rangeAt ranges i).startLineNumber +
        ((FoldingRegions.parentWord rest &&& 0xFF) <<< 24))
      endIndexes := r.endIndexes.set i (BitVec.ofNat 32 (rangeAt ranges i).endLineNumber +
        ((FoldingRegions.parentWord rest &&& 0xFF00) <<< 16)) }, i :: rest, ?_, ?_⟩
  · rw [FoldingRegions.linkParent, hstart, hstop, if_neg ?_, hfirst, hlast, hstay]
    rw [not_or, gt_iff_lt, gt_iff_lt, BitVec.lt_def, BitVec.lt_def, hfirst, hlast,
      show MAX_LINE_NUMBER.toNat = 2 ^ 24 - 1 from rfl]
    omega
  · have hself : (r.startIndexes.set i (BitVec.ofNat 32 (rangeAt ranges i).startLineNumber +
        ((FoldingRegions.parentWord rest &&& 0xFF) <<< 24))).getD i 0 =
          BitVec.ofNat 32 (rangeAt ranges i).startLineNumber +
            ((FoldingRegions.parentWord rest &&& 0xFF) <<< 24) := by
      rw [getD_eq_getElem _ _ (by rw [length_set]; exact hstarts), getElem_set_self]
    have hself' : (r.endIndexes.set i (BitVec.ofNat 32 (rangeAt ranges i).endLineNumber +
        ((FoldingRegions.parentWord rest &&& 0xFF00) <<< 16))).getD i 0 =
          BitVec.ofNat 32 (rangeAt ranges i).endLineNumber +
            ((FoldingRegions.parentWord rest &&& 0xFF00) <<< 16) := by
      rw [getD_eq_getElem _ _ (by rw [length_set]; exact hends), getElem_set_self]
    have hother (l : List Word) (w : Word) {k : Nat} (hk : k ≠ i) :
        (l.set i w).getD k 0 = l.getD k 0 := by
      rw [getD_eq_getElem?_getD, getElem?_set_ne (Ne.symm hk), ← getD_eq_getElem?_getD]
    constructor
    case computed => exact hbefore.computed
    case lines =>
      constructor
      case starts_length => rw [length_set]; exact hbefore.lines.starts_length
      case ends_length => rw [length_set]; exact hbefore.lines.ends_length
      case start =>
        intro k hk
        rw [FoldingRegions.getStartLineNumber]
        by_cases hki : k = i
        · subst hki
          rw [hself, parent_low_bits, line_pack _ _ (by omega), hfirst]
        · rw [hother _ _ hki]
          exact hbefore.lines.start k hk
      case stop =>
        intro k hk
        rw [FoldingRegions.getEndLineNumber]
        by_cases hki : k = i
        · subst hki
          rw [hself', parent_high_bits, line_pack _ _ (by omega), hlast]
        · rw [hother _ _ hki]
          exact hbefore.lines.stop k hk
    case linked =>
      intro k hk
      rw [Linked, FoldingRegions.unpackParent]
      by_cases hki : k = i
      · subst hki
        dsimp only
        rw [hself, hself', unpack_pack _ _ _ (by omega) (by omega), hmod]
        exact hparent
      · dsimp only
        rw [hother _ _ hki, hother _ _ hki]
        exact hbefore.linked k (by omega)
    case unlinked =>
      intro k hk hlt'
      rw [Unlinked]
      dsimp only
      rw [hother _ _ (by omega), hother _ _ (by omega)]
      exact hbefore.unlinked k (by omega) hlt'
    case stack => exact hopen

theorem linkParents_spec (h : Foldable ranges) (left : Nat) :
    ∀ (i : Nat) (r : FoldingRegions) (stack : List Nat), i + left = ranges.length →
      LinkedBefore r ranges i stack →
      ∃ r', FoldingRegions.linkParents left i r stack = .ok r' ∧ r'.parentsComputed = true ∧
        HasLines r' ranges ∧ ∀ k < ranges.length, Linked r' ranges k := by
  induction left with
  | zero =>
    intro i r stack hsum hbefore
    exact ⟨r, rfl, hbefore.computed, hbefore.lines, fun k hk => hbefore.linked k (by omega)⟩
  | succ left ih =>
    intro i r stack hsum hbefore
    obtain ⟨r', stack', hlink, hbefore'⟩ := linkParent_spec h hbefore (by omega)
    obtain ⟨r'', hlinks, hfinal⟩ := ih (i + 1) r' stack' (by omega) hbefore'
    refine ⟨r'', ?_, hfinal⟩
    rw [FoldingRegions.linkParents, hlink]
    exact hlinks

structure Represents (r : FoldingRegions) (ranges : List ILineRange) : Prop where
  lines : HasLines r ranges
  unlinked : r.parentsComputed = false → ∀ k < ranges.length, Unlinked r ranges k
  linked : r.parentsComputed = true → ∀ k < ranges.length, Linked r ranges k

theorem ensureParentIndices_spec (h : Foldable ranges) {r : FoldingRegions}
    (hr : Represents r ranges) :
    ∃ r', r.ensureParentIndices = .ok r' ∧ Represents r' ranges ∧
      ∀ k < ranges.length, Linked r' ranges k := by
  rw [FoldingRegions.ensureParentIndices]
  cases hcomputed : r.parentsComputed with
  | true => exact ⟨r, rfl, hr, hr.linked hcomputed⟩
  | false =>
    have hbefore : LinkedBefore { r with parentsComputed := true } ranges 0 [] :=
      ⟨rfl, ⟨hr.lines.1, hr.lines.2, hr.lines.3, hr.lines.4⟩, fun k hk => absurd hk (Nat.not_lt_zero k),
        fun k _ hk => hr.unlinked hcomputed k hk, open_nil⟩
    obtain ⟨r', hlink, hdone, hlines, hlinked⟩ := linkParents_spec h ranges.length 0 _ [] (Nat.zero_add _) hbefore
    refine ⟨r', ?_, ⟨hlines, fun hnot => ?_, fun _ => hlinked⟩, hlinked⟩
    · rw [if_neg Bool.false_ne_true, hr.lines.starts_length]
      exact hlink
    · rw [hdone] at hnot
      exact Bool.noConfusion hnot

theorem getParentIndex_spec (h : Foldable ranges) {r : FoldingRegions} (hr : Represents r ranges)
    {i : Nat} (hi : i < ranges.length) :
    ∃ r' parent, r.getParentIndex i = .ok (r', parent) ∧ Represents r' ranges ∧
      IsParent ranges i parent := by
  obtain ⟨r', hensure, hr', hlinked⟩ := ensureParentIndices_spec h hr
  refine ⟨r', r'.unpackParent i, ?_, hr', hlinked i hi⟩
  rw [FoldingRegions.getParentIndex, hensure]
  rfl

end Gavea.Folding

namespace Gavea.Folding

open List

variable {ranges : List ILineRange}

def IsInnermost (ranges : List ILineRange) (line : Int) (index : Int) : Prop :=
  (index = -1 ∧ ∀ j < ranges.length, ¬ (rangeAt ranges j).Contains line) ∨
    ∃ i : Nat, index = i ∧ i < ranges.length ∧ (rangeAt ranges i).Contains line ∧
      ∀ j < ranges.length, (rangeAt ranges j).Contains line → j ≤ i ∧ (rangeAt ranges j).Encloses (rangeAt ranges i)

theorem findIndexLoop_spec (h : Foldable ranges) {r : FoldingRegions} (hr : HasLines r ranges)
    (line : Int) (k : Nat) :
    ∀ low high : Nat, high - low ≤ k → low ≤ high → high ≤ ranges.length →
      (∀ j < low, ((rangeAt ranges j).startLineNumber : Int) ≤ line) →
      (∀ j, high ≤ j → j < ranges.length → line < (rangeAt ranges j).startLineNumber) →
      r.findIndexLoop line low high ≤ ranges.length ∧
        (∀ j < r.findIndexLoop line low high, ((rangeAt ranges j).startLineNumber : Int) ≤ line) ∧
        ∀ j, r.findIndexLoop line low high ≤ j → j < ranges.length →
          line < (rangeAt ranges j).startLineNumber := by
  induction k with
  | zero =>
    intro low high hk hle hhigh hbefore hbehind
    obtain rfl : low = high := by omega
    rw [FoldingRegions.findIndexLoop, if_neg (lt_irrefl low)]
    exact ⟨hhigh, hbefore, hbehind⟩
  | succ k ih =>
    intro low high hk hle hhigh hbefore hbehind
    rw [FoldingRegions.findIndexLoop]
    by_cases hlt : low < high
    · have hmid : (low + high) / 2 < ranges.length := by omega
      simp only [if_pos hlt, hr.start _ hmid]
      by_cases hline : line < (rangeAt ranges ((low + high) / 2)).startLineNumber
      · rw [if_pos hline]
        refine ih low _ (by omega) (by omega) hmid.le hbefore fun j hj hj' => ?_
        have hstart := h.start_le hj hj'
        omega
      · rw [if_neg hline]
        refine ih _ high (by omega) (by omega) hhigh (fun j hj => ?_) hbehind
        have hstart := h.start_le (show j ≤ (low + high) / 2 by omega) hmid
        omega
    · rw [if_neg hlt]
      obtain rfl : low = high := by omega
      exact ⟨hhigh, hbefore, hbehind⟩

def Encompassed (ranges : List ILineRange) (line index : Int) : Prop :=
  (index = -1 ∧ ∀ j < ranges.length, ¬ (rangeAt ranges j).Contains line) ∨
    ∃ i : Nat, index = i ∧ i < ranges.length ∧
      ∀ j < ranges.length, (rangeAt ranges j).Contains line → j ≤ i ∧ (rangeAt ranges j).Encloses (rangeAt ranges i)

theorem contains_iff {r : FoldingRegions} (hr : HasLines r ranges) {i : Nat}
    (hi : i < ranges.length) (line : Int) :
    r.contains i line = true ↔ (rangeAt ranges i).Contains line := by
  rw [FoldingRegions.contains, hr.start i hi, hr.stop i hi, Bool.and_eq_true, decide_eq_true_eq, decide_eq_true_eq]
  rfl

theorem encompassed_parent {i : Nat} {line parent : Int}
    (hall : ∀ j < ranges.length, (rangeAt ranges j).Contains line →
      j ≤ i ∧ (rangeAt ranges j).Encloses (rangeAt ranges i))
    (hi : i < ranges.length) (hnot : ¬ (rangeAt ranges i).Contains line)
    (hparent : IsParent ranges i parent) :
    Encompassed ranges line parent ∧ parent < i := by
  have hbefore : ∀ j < ranges.length, (rangeAt ranges j).Contains line →
      j < i ∧ (rangeAt ranges j).Encloses (rangeAt ranges i) := by
    intro j hj hcontains
    obtain ⟨hle, hencloses⟩ := hall j hj hcontains
    refine ⟨lt_of_le_of_ne hle fun heq => hnot (heq ▸ hcontains), hencloses⟩
  rcases hparent with ⟨rfl, hnone⟩ | ⟨p, rfl, hp, -, hmost⟩
  · refine ⟨Or.inl ⟨rfl, fun j hj hcontains => ?_⟩, by omega⟩
    obtain ⟨hlt, hencloses⟩ := hbefore j hj hcontains
    exact hnone j hlt hencloses
  · refine ⟨Or.inr ⟨p, rfl, hp.trans hi, fun j hj hcontains => ?_⟩, by omega⟩
    obtain ⟨hlt, hencloses⟩ := hbefore j hj hcontains
    exact hmost j hlt hencloses

theorem climb_spec (h : Foldable ranges) (line : Int) (fuel : Nat) :
    ∀ (r : FoldingRegions) (index : Int), Represents r ranges → index + 1 < fuel →
      Encompassed ranges line index →
      ∃ r' found, FoldingRegions.climb fuel r line index = .ok (some (r', found)) ∧
        Represents r' ranges ∧ IsInnermost ranges line found := by
  induction fuel with
  | zero =>
    intro r index _ hfuel hindex
    rcases hindex with ⟨rfl, -⟩ | ⟨i, rfl, -⟩ <;> omega
  | succ fuel ih =>
    intro r index hr hfuel hindex
    rw [FoldingRegions.climb]
    rcases hindex with ⟨rfl, hnone⟩ | ⟨i, rfl, hi, hall⟩
    · rw [if_pos rfl]
      exact ⟨r, -1, rfl, hr, Or.inl ⟨rfl, hnone⟩⟩
    · rw [if_neg (by omega), Int.toNat_natCast]
      by_cases hcontains : (rangeAt ranges i).Contains line
      · rw [if_pos ((contains_iff hr.lines hi line).mpr hcontains)]
        exact ⟨r, i, rfl, hr, Or.inr ⟨i, rfl, hi, hcontains, hall⟩⟩
      · rw [if_neg fun hc => hcontains ((contains_iff hr.lines hi line).mp hc)]
        obtain ⟨r', parent, hget, hr', hparent⟩ := getParentIndex_spec h hr hi
        obtain ⟨hencompassed, hlt⟩ := encompassed_parent hall hi hcontains hparent
        obtain ⟨r'', found, hclimb, hfinal⟩ := ih r' parent hr' (by omega) hencompassed
        refine ⟨r'', found, ?_, hfinal⟩
        rw [hget]
        exact hclimb

theorem findRange_spec (h : Foldable ranges) {r : FoldingRegions} (hr : Represents r ranges)
    (line : Int) :
    ∃ r' index, r.findRange line = .ok (some (r', index)) ∧ Represents r' ranges ∧
      IsInnermost ranges line index := by
  have hlength : r.startIndexes.length = ranges.length := hr.lines.starts_length
  obtain ⟨hle, hbefore, hbehind⟩ := findIndexLoop_spec h hr.lines line _ 0 ranges.length le_rfl
    (Nat.zero_le _) le_rfl (fun j hj => absurd hj (Nat.not_lt_zero j))
    (fun j hj hj' => absurd hj' (not_lt.mpr hj))
  generalize hlow : r.findIndexLoop line 0 ranges.length = low at hle hbefore hbehind
  have hfind : r.findIndex line = (low : Int) - 1 := by
    rw [FoldingRegions.findIndex, hlength]
    split
    · omega
    · rw [hlow]
  have hstarted : ∀ j < ranges.length, (rangeAt ranges j).Contains line → j < low := by
    intro j hj hcontains
    by_contra hnot
    have := hbehind j (not_lt.mp hnot) hj
    have := hcontains.1
    omega
  rw [FoldingRegions.findRange, hfind]
  by_cases hzero : low = 0
  · refine ⟨r, -1, ?_, hr, Or.inl ⟨rfl, fun j hj hcontains => ?_⟩⟩
    · rw [if_neg (by omega)]
      rfl
    · have := hstarted j hj hcontains
      omega
  · obtain ⟨i, rfl⟩ : ∃ i, low = i + 1 := ⟨low - 1, by omega⟩
    have hi : i < ranges.length := by omega
    have hall : ∀ j < ranges.length, (rangeAt ranges j).Contains line →
        j ≤ i ∧ (rangeAt ranges j).Encloses (rangeAt ranges i) := by
      intro j hj hcontains
      have hji : j ≤ i := Nat.lt_succ_iff.mp (hstarted j hj hcontains)
      refine ⟨hji, ?_⟩
      rcases hji.eq_or_lt with rfl | hlt
      · exact ⟨le_rfl, le_rfl⟩
      · refine (h.nests hlt hi).2.resolve_right fun hapart => ?_
        have hstart := hbefore i (Nat.lt_succ_self i)
        have := hcontains.2
        omega
    have hstart := hbefore i (Nat.lt_succ_self i)
    rw [show ((i + 1 : Nat) : Int) - 1 = i by omega]
    rw [if_pos (by omega), Int.toNat_natCast, hr.lines.stop i hi]
    by_cases hend : line ≤ (rangeAt ranges i).endLineNumber
    · rw [if_pos hend]
      exact ⟨r, i, rfl, hr, Or.inr ⟨i, rfl, hi, ⟨hstart, hend⟩, hall⟩⟩
    · rw [if_neg hend]
      obtain ⟨r', parent, hget, hr', hparent⟩ := getParentIndex_spec h hr hi
      obtain ⟨hencompassed, hlt⟩ := encompassed_parent hall hi (fun hc => hend hc.2) hparent
      have hfuel : parent + 1 < ((r'.startIndexes.length + 1 : Nat) : Int) := by
        rw [hr'.lines.starts_length]
        omega
      obtain ⟨r'', found, hclimb, hfinal⟩ := climb_spec h line _ r' parent hr' hfuel hencompassed
      refine ⟨r'', found, ?_, hfinal⟩
      rw [hget]
      exact hclimb

inductive Query
  | parentIndex (index : Nat)
  | range (line : Int)

def ask (r : FoldingRegions) : Query → Except FoldingError FoldingRegions
  | .parentIndex index => do return (← r.getParentIndex index).1
  | .range line => do
      match ← r.findRange line with
      | some (r, _) => return r
      | none => return r

def askAll (r : FoldingRegions) (queries : List Query) : Except FoldingError FoldingRegions := queries.foldlM ask r

structure Answers (r : FoldingRegions) (ranges : List ILineRange) : Prop where
  length : r.length = ranges.length
  start : ∀ i < ranges.length, r.getStartLineNumber i = (rangeAt ranges i).startLineNumber
  stop : ∀ i < ranges.length, r.getEndLineNumber i = (rangeAt ranges i).endLineNumber
  parent : ∀ i < ranges.length, ∃ r' parent, r.getParentIndex i = .ok (r', parent) ∧ IsParent ranges i parent
  range : ∀ line : Int, ∃ r' index, r.findRange line = .ok (some (r', index)) ∧ IsInnermost ranges line index

theorem answers_of_represents (h : Foldable ranges) {r : FoldingRegions}
    (hr : Represents r ranges) : Answers r ranges where
  length := hr.lines.starts_length
  start := hr.lines.start
  stop := hr.lines.stop
  parent i hi := by
    obtain ⟨r', parent, hget, -, hparent⟩ := getParentIndex_spec h hr hi
    exact ⟨r', parent, hget, hparent⟩
  range line := by
    obtain ⟨r', index, hfind, -, hindex⟩ := findRange_spec h hr line
    exact ⟨r', index, hfind, hindex⟩

def Query.Known (ranges : List ILineRange) : Query → Prop
  | .parentIndex index => index < ranges.length
  | .range _ => True

theorem represents_ask (h : Foldable ranges) {r : FoldingRegions} (hr : Represents r ranges)
    {q : Query} (hq : q.Known ranges) : ∃ r', ask r q = .ok r' ∧ Represents r' ranges := by
  cases q with
  | parentIndex index =>
    obtain ⟨r', parent, hget, hr', -⟩ := getParentIndex_spec h hr hq
    refine ⟨r', ?_, hr'⟩
    rw [ask, hget]
    rfl
  | range line =>
    obtain ⟨r', index, hfind, hr', -⟩ := findRange_spec h hr line
    refine ⟨r', ?_, hr'⟩
    rw [ask, hfind]
    rfl

theorem represents_askAll (h : Foldable ranges) {queries : List Query}
    (hqueries : ∀ q ∈ queries, q.Known ranges) :
    ∀ {r : FoldingRegions}, Represents r ranges →
      ∃ r', askAll r queries = .ok r' ∧ Represents r' ranges := by
  induction queries with
  | nil => intro r hr; exact ⟨r, rfl, hr⟩
  | cons q queries ih =>
    intro r hr
    obtain ⟨r', hask, hr'⟩ := represents_ask h hr (hqueries q mem_cons_self)
    obtain ⟨r'', hall, hr''⟩ := ih (fun q' hq' => hqueries q' (mem_cons_of_mem q hq')) hr'
    refine ⟨r'', ?_, hr''⟩
    rw [askAll, foldlM_cons, hask]
    exact hall

def startWords (ranges : List ILineRange) : List Word := ranges.map fun a => BitVec.ofNat 32 a.startLineNumber

def endWords (ranges : List ILineRange) : List Word := ranges.map fun a => BitVec.ofNat 32 a.endLineNumber

theorem represents_new (h : Foldable ranges) :
    ∃ r, FoldingRegions.new (startWords ranges) (endWords ranges) = .ok r ∧
      Represents r ranges := by
  have hunlinked : ∀ k < ranges.length,
      Unlinked ⟨startWords ranges, endWords ranges, false⟩ ranges k := by
    intro k hk
    rw [Unlinked, startWords, endWords, rangeAt, getD_eq_getElem _ _ hk,
      getD_eq_getElem _ _ (by rw [length_map]; exact hk), getD_eq_getElem _ _ (by rw [length_map]; exact hk),
      getElem_map, getElem_map]
    exact ⟨rfl, rfl⟩
  refine ⟨⟨startWords ranges, endWords ranges, false⟩, ?_, ⟨?_, ?_, ?_, ?_⟩,
    fun _ => hunlinked, fun hnot => Bool.noConfusion hnot⟩
  · rw [FoldingRegions.new, if_neg]
    rw [startWords, endWords, length_map, length_map, not_or]
    exact ⟨fun hne => hne rfl, not_lt.mpr h.length⟩
  · exact length_map _
  · exact length_map _
  · intro i hi
    obtain ⟨hfirst, -, hlt, -⟩ := h.toNat_lines hi
    rw [FoldingRegions.getStartLineNumber, (hunlinked i hi).1, mask_line, hfirst, Nat.mod_eq_of_lt hlt]
  · intro i hi
    obtain ⟨-, hlast, -, hlt⟩ := h.toNat_lines hi
    rw [FoldingRegions.getEndLineNumber, (hunlinked i hi).2, mask_line, hlast, Nat.mod_eq_of_lt hlt]

/-- Regions of nested ranges, the outer one first where two start on one line, have exact
parents and find the innermost range of every line, in whatever order they are asked. -/
theorem answers_askAll (h : Foldable ranges) {queries : List Query}
    (hqueries : ∀ q ∈ queries, q.Known ranges) :
    ∃ r r', FoldingRegions.new (startWords ranges) (endWords ranges) = .ok r ∧
      askAll r queries = .ok r' ∧ Answers r' ranges := by
  obtain ⟨r, hnew, hr⟩ := represents_new h
  obtain ⟨r', hask, hr'⟩ := represents_askAll h hqueries hr
  exact ⟨r, r', hnew, hask, answers_of_represents h hr'⟩

theorem answers_askAll_of_ranges :
    ∃ r r', FoldingRegions.new (startWords [⟨1, 10⟩, ⟨1, 5⟩, ⟨2, 3⟩, ⟨7, 9⟩])
          (endWords [⟨1, 10⟩, ⟨1, 5⟩, ⟨2, 3⟩, ⟨7, 9⟩]) = .ok r ∧
        askAll r [.range 4, .parentIndex 3] = .ok r' ∧
        Answers r' [⟨1, 10⟩, ⟨1, 5⟩, ⟨2, 3⟩, ⟨7, 9⟩] := by
  have hfoldable : Foldable [⟨1, 10⟩, ⟨1, 5⟩, ⟨2, 3⟩, ⟨7, 9⟩] := ⟨by decide, by decide, by decide⟩
  refine answers_askAll hfoldable fun q hq => ?_
  rcases mem_cons.mp hq with rfl | hq
  · trivial
  · obtain rfl := mem_singleton.mp hq
    exact show 3 < 4 by decide

/-- Where the inner one of two ranges that start on one line comes first, the outer one
hides it from the ranges that follow. -/
theorem not_answers_of_inner_first :
    ¬ ∀ ranges : List ILineRange, ranges.length ≤ MAX_FOLDING_REGIONS →
      (∀ a ∈ ranges, a.startLineNumber ≤ a.endLineNumber ∧ a.endLineNumber ≤ MAX_LINE_NUMBER.toNat) →
      (ranges.Pairwise fun a b => a.startLineNumber ≤ b.startLineNumber ∧
        (a.Encloses b ∨ b.Encloses a ∨ a.endLineNumber < b.startLineNumber)) →
      ∃ r, FoldingRegions.new (startWords ranges) (endWords ranges) = .ok r ∧
        Answers r ranges := by
  intro h
  obtain ⟨r, hnew, hanswers⟩ := h [⟨1, 3⟩, ⟨1, 5⟩, ⟨2, 3⟩] (by decide) (by decide) (by decide)
  obtain rfl : (⟨[1, 1, 2], [3, 5, 3], false⟩ : FoldingRegions) = r := Except.ok.inj hnew
  obtain ⟨r', parent, hget, hparent⟩ := hanswers.parent 2 (by decide)
  have hone : parent = 1 := by
    have hpair := Except.ok.inj hget
    exact (congrArg Prod.snd hpair).symm
  rw [hone] at hparent
  rcases hparent with ⟨hneg, -⟩ | ⟨p, hp, -, -, hmost⟩
  · exact absurd hneg (by decide)
  · obtain rfl : p = 1 := by omega
    exact absurd (hmost 0 (by decide) (by decide)).2 (by decide)

end Gavea.Folding
