import Gavea.LineProjection.Stops

namespace Gavea.LineProjection

open List

def Before (affinity : PositionAffinity) (b offset : Nat) : Prop := if affinity = .left then b < offset else b ≤ offset

instance (affinity : PositionAffinity) (b offset : Nat) : Decidable (Before affinity b offset) :=
  inferInstanceAs (Decidable (if affinity = .left then b < offset else b ≤ offset))

theorem Before.le {affinity : PositionAffinity} {b offset : Nat} (h : Before affinity b offset) :
    b ≤ offset := by
  rw [Before] at h
  split_ifs at h <;> omega

theorem le_of_not_before {affinity : PositionAffinity} {b offset : Nat}
    (h : ¬Before affinity b offset) : offset ≤ b := by
  rw [Before] at h
  split_ifs at h <;> omega

theorem Before.mono {affinity : PositionAffinity} {b b' offset offset' : Nat}
    (h : Before affinity b offset) (hb : b' ≤ b) (ho : offset ≤ offset') :
    Before affinity b' offset' := by
  rw [Before] at h ⊢
  split_ifs at h ⊢ <;> omega

namespace ModelLineProjectionData

variable {d : ModelLineProjectionData} {x : Nat} {affinity : PositionAffinity}

abbrev stopOffset (d : ModelLineProjectionData) (line : Nat) : Nat := d.breakOffsets.getD line 0

theorem startOffset_succ (d : ModelLineProjectionData) (line : Nat) :
    d.startOffset (line + 1) = d.stopOffset line := by
  rw [startOffset, if_pos (Nat.succ_pos line), Nat.add_sub_cancel]

theorem stopOffset_lt (h : d.breakOffsets.Pairwise (· < ·)) {i j : Nat} (hij : i < j)
    (hj : j < d.breakOffsets.length) : d.stopOffset i < d.stopOffset j := by
  rw [stopOffset, stopOffset, getD_eq_getElem?_getD, getD_eq_getElem?_getD,
    getElem?_eq_getElem (hij.trans hj), getElem?_eq_getElem hj]
  exact pairwise_iff_getElem.mp h i j (hij.trans hj) hj hij

theorem startOffset_le_stopOffset (h : d.breakOffsets.Pairwise (· < ·)) {line : Nat}
    (hline : line < d.breakOffsets.length) : d.startOffset line ≤ d.stopOffset line := by
  cases line with
  | zero => exact Nat.zero_le _
  | succ line =>
    rw [startOffset_succ]
    exact (stopOffset_lt h (Nat.lt_succ_self line) hline).le

structure OnLine (d : ModelLineProjectionData) (x : Nat) (affinity : PositionAffinity)
    (line : Nat) : Prop where
  lt : line < d.breakOffsets.length
  start : line = 0 ∨ Before affinity (d.startOffset line) x
  stop : line + 1 = d.breakOffsets.length ∨ ¬Before affinity (d.stopOffset line) x

theorem searchLoop_of_gt {low mid midStart : Nat} {high : Int} (h : ¬(low : Int) ≤ high) :
    d.searchLoop x affinity low high mid midStart = (mid, midStart) := by
  rw [searchLoop, if_neg h]

theorem searchLoop_of_le {low mid midStart : Nat} {high : Int} (h : (low : Int) ≤ high) {probe : Nat}
    (hprobe : probe = low + ((high - low) / 2).toNat) :
    d.searchLoop x affinity low high mid midStart =
      if ¬Before affinity (d.startOffset probe) x then
        d.searchLoop x affinity low (probe - 1) probe (d.startOffset probe)
      else if Before affinity (d.stopOffset probe) x then
        d.searchLoop x affinity (probe + 1) high probe (d.startOffset probe)
      else (probe, d.startOffset probe) := by
  subst hprobe
  rw [searchLoop, if_pos h]
  by_cases hleft : affinity = .left
  · simp only [hleft, if_true, Before, not_lt, gt_iff_lt]
  · simp only [hleft, if_false, Before, not_le, ge_iff_le]

theorem searchLoop_spec (hsorted : d.breakOffsets.Pairwise (· < ·)) (k : Nat) :
    ∀ (low : Nat) (high : Int) (mid midStart : Nat), (high + 1 - low).toNat ≤ k →
      (low : Int) ≤ high → high < d.breakOffsets.length →
      (low = 0 ∨ Before affinity (d.startOffset low) x) →
      (high + 1 = d.breakOffsets.length ∨ ¬Before affinity (d.stopOffset high.toNat) x) →
      ∃ line, d.searchLoop x affinity low high mid midStart = (line, d.startOffset line) ∧
        OnLine d x affinity line := by
  induction k with
  | zero =>
    intro low high mid midStart hk hle
    omega
  | succ k ih =>
    intro low high mid midStart hk hle hhigh hlow hstop
    obtain ⟨probe, hprobe⟩ : ∃ probe, probe = low + ((high - low) / 2).toNat := ⟨_, rfl⟩
    have hlt : probe < d.breakOffsets.length := by omega
    rw [searchLoop_of_le hle hprobe]
    by_cases hstart : Before affinity (d.startOffset probe) x
    · rw [if_neg (not_not_intro hstart)]
      by_cases hbehind : Before affinity (d.stopOffset probe) x
      · rw [if_pos hbehind]
        by_cases hmore : ((probe + 1 : Nat) : Int) ≤ high
        · refine ih (probe + 1) high probe _ (by omega) hmore hhigh (Or.inr ?_) hstop
          rwa [startOffset_succ]
        · rw [searchLoop_of_gt hmore]
          have hlast : high.toNat = probe := by omega
          rw [hlast] at hstop
          refine ⟨probe, rfl, hlt, Or.inr hstart, Or.inl ?_⟩
          rcases hstop with hend | hnot
          · omega
          · exact absurd hbehind hnot
      · rw [if_neg hbehind]
        exact ⟨probe, rfl, hlt, Or.inr hstart, Or.inr hbehind⟩
    · rw [if_pos hstart]
      have hstopped : ¬Before affinity (d.stopOffset probe) x := fun hbefore =>
        hstart (hbefore.mono (startOffset_le_stopOffset hsorted hlt) (le_refl x))
      by_cases hmore : (low : Int) ≤ (probe : Int) - 1
      · refine ih low (probe - 1) probe _ (by omega) hmore (by omega) hlow (Or.inr ?_)
        obtain ⟨before, rfl⟩ : ∃ before, probe = before + 1 := ⟨probe - 1, by omega⟩
        rw [startOffset_succ] at hstart
        rwa [show (((before + 1 : Nat) : Int) - 1).toNat = before by omega]
      · rw [searchLoop_of_gt hmore]
        obtain rfl : probe = low := by omega
        exact ⟨probe, rfl, hlt, hlow, Or.inr hstopped⟩

theorem search_spec (hsorted : d.breakOffsets.Pairwise (· < ·)) (hne : d.breakOffsets ≠ [])
    (x : Nat) (affinity : PositionAffinity) :
    ∃ line, OnLine d x affinity line ∧
      d.offsetInInputWithInjectionsToOutputPosition x affinity =
        ⟨line, x - d.startOffset line + d.getMinOutputOffset line⟩ := by
  have hpos := length_pos_of_ne_nil hne
  obtain ⟨line, hsearch, hon⟩ := @searchLoop_spec d x affinity hsorted _ 0
    (d.breakOffsets.length - 1) 0 0 (le_refl _) (by omega) (by omega) (Or.inl rfl) (Or.inl (by omega))
  refine ⟨line, hon, ?_⟩
  rw [offsetInInputWithInjectionsToOutputPosition, hsearch, getMinOutputOffset]
  dsimp only
  split_ifs <;> rfl

theorem OnLine.start_le {line : Nat} (h : OnLine d x affinity line) : d.startOffset line ≤ x := by
  rcases h.start with rfl | hbefore
  · exact Nat.zero_le x
  · exact hbefore.le

theorem OnLine.mono (hsorted : d.breakOffsets.Pairwise (· < ·)) {x' line line' : Nat}
    (h : OnLine d x affinity line) (h' : OnLine d x' affinity line') (hx : x ≤ x') :
    line ≤ line' := by
  by_contra hlt
  have hstart : Before affinity (d.startOffset line) x := by
    rcases h.start with rfl | hbefore
    · omega
    · exact hbefore
  have hlines := h.lt
  have hstop : ¬Before affinity (d.stopOffset line') x' := h'.stop.resolve_left (by omega)
  refine hstop (hstart.mono ?_ hx)
  obtain ⟨before, rfl⟩ : ∃ before, line = before + 1 := ⟨line - 1, by omega⟩
  rw [startOffset_succ]
  rcases Nat.lt_or_ge line' before with hless | hge
  · exact (stopOffset_lt hsorted hless (by omega)).le
  · rw [show line' = before by omega]

theorem offset_of_position (hsorted : d.breakOffsets.Pairwise (· < ·)) (hne : d.breakOffsets ≠ [])
    (x : Nat) (affinity : PositionAffinity) :
    d.outputPositionToOffsetInInputWithInjections
      (d.offsetInInputWithInjectionsToOutputPosition x affinity) = x := by
  obtain ⟨line, hon, heq⟩ := search_spec hsorted hne x affinity
  have hle := hon.start_le
  rw [heq, outputPositionToOffsetInInputWithInjections, getMinOutputOffset]
  dsimp only
  split_ifs <;> omega

def Valid (d : ModelLineProjectionData) (p : OutputPosition) : Prop :=
  p.outputLineIndex < d.getOutputLineCount ∧ d.getMinOutputOffset p.outputLineIndex ≤ p.outputOffset ∧
    p.outputOffset ≤ d.getMaxOutputOffset p.outputLineIndex

theorem getMaxOutputOffset_eq (d : ModelLineProjectionData) (line : Nat) :
    d.getMaxOutputOffset line = d.stopOffset line - d.startOffset line + d.getMinOutputOffset line := by
  rw [getMaxOutputOffset, getLineLength, getMinOutputOffset]
  split_ifs <;> rfl

theorem valid_position (hsorted : d.breakOffsets.Pairwise (· < ·))
    (hlast : x ≤ d.stopOffset (d.breakOffsets.length - 1)) (hne : d.breakOffsets ≠ [])
    (affinity : PositionAffinity) :
    d.Valid (d.offsetInInputWithInjectionsToOutputPosition x affinity) := by
  obtain ⟨line, hon, heq⟩ := search_spec hsorted hne x affinity
  rw [heq]
  refine ⟨hon.lt, Nat.le_add_left _ _, ?_⟩
  rw [getMaxOutputOffset_eq]
  refine Nat.add_le_add_right (Nat.sub_le_sub_right ?_ _) _
  rcases hon.stop with hend | hnot
  · rwa [show line = d.breakOffsets.length - 1 by omega]
  · exact le_of_not_before hnot

def Le (p q : OutputPosition) : Prop :=
  p.outputLineIndex < q.outputLineIndex ∨ p.outputLineIndex = q.outputLineIndex ∧ p.outputOffset ≤ q.outputOffset

theorem position_mono (hsorted : d.breakOffsets.Pairwise (· < ·)) (hne : d.breakOffsets ≠ [])
    {x' : Nat} (h : x ≤ x') (affinity : PositionAffinity) :
    Le (d.offsetInInputWithInjectionsToOutputPosition x affinity)
      (d.offsetInInputWithInjectionsToOutputPosition x' affinity) := by
  obtain ⟨line, hon, heq⟩ := search_spec hsorted hne x affinity
  obtain ⟨line', hon', heq'⟩ := search_spec hsorted hne x' affinity
  rw [heq, heq']
  rcases Nat.lt_or_eq_of_le (hon.mono hsorted hon' h) with hlt | rfl
  · exact Or.inl hlt
  · exact Or.inr ⟨rfl, Nat.add_le_add_right (Nat.sub_le_sub_right h _) _⟩

end ModelLineProjectionData

variable {ts far g beyond near after : List Injection} {o x y : Nat} {t : Injection}
  {affinity : PositionAffinity}

abbrev normalized (affinity : PositionAffinity) (ts : List Injection) (x : Nat) : Nat :=
  normalizeOffsetInInputWithInjectionsAroundInjections ts x affinity

theorem landing_le (affinity : PositionAffinity) (htouches : Touches near.reverse t y) :
    landing affinity near.reverse t after y ≤ totalLength (near ++ t :: after) := by
  have hpassed := passed_le near.reverse
  obtain ⟨hstart, hstop, -⟩ := htouches
  rw [totalLength_reverse] at *
  rw [totalLength_append, totalLength_cons]
  cases affinity <;> rw [landing]
  case none => split_ifs <;> (try rw [totalLength_reverse]) <;> omega
  case right => rw [totalLength_reverse]; omega
  case rightOfInjectedText => rw [totalLength_reverse]; omega
  case left => exact Nat.zero_le _
  case leftOfInjectedText => exact Nat.zero_le _

theorem inputOffset_of_group (hsorted : Sorted ts) (h : Grouped ts far g beyond o)
    (hy : y ≤ totalLength g) : inputOffsetLoop ts (o + totalLength far + y) = o := by
  have hsplit := h.split
  subst hsplit
  have hcross : o + totalLength far + y = (o + y) + totalLength far := by omega
  rw [hcross, inputOffsetLoop_append hsorted fun s hs => (h.far s hs).le.trans (Nat.le_add_right o y)]
  exact inputOffsetLoop_group h.group (fun s hs => (h.beyond s hs).le) hy

theorem inputOffset_normalized (hsorted : Sorted ts) (affinity : PositionAffinity) (x : Nat) :
    inputOffsetLoop ts (normalized affinity ts x) = inputOffsetLoop ts x := by
  cases hfound : getInjectedTextAtOffset ts x with
  | none => rw [normalized, normalize_of_not_found hfound]
  | some found =>
    obtain ⟨far, near, t, after, beyond, y, hgrouped, rfl, htouches⟩ := touches_of_found hsorted hfound
    have hy : y ≤ totalLength (near ++ t :: after) := by
      have hstop := htouches.stop
      rw [totalLength_reverse] at hstop
      rw [totalLength_append, totalLength_cons]
      omega
    rw [normalized, normalize_eq hgrouped htouches,
      inputOffset_of_group hsorted hgrouped (landing_le affinity htouches), inputOffset_of_group hsorted hgrouped hy]

theorem HidesStop.of_group (h : Grouped ts far g beyond o) (hhides : HidesStop g) : HidesStop ts := by
  obtain ⟨pre, j, zs, u, post, rfl, hrest⟩ := hhides
  exact ⟨far ++ pre, j, zs, u, post ++ beyond, by rw [h.split]; simp, hrest⟩

theorem normalized_normalized (hsorted : Sorted ts) (hnone : affinity ≠ .none) (x : Nat) :
    normalized affinity ts (normalized affinity ts x) = normalized affinity ts x := by
  cases hfound : getInjectedTextAtOffset ts x with
  | none => rw [normalized, normalized, normalize_of_not_found hfound, normalize_of_not_found hfound]
  | some found =>
    obtain ⟨far, near, t, after, beyond, y, hgrouped, rfl, htouches⟩ := touches_of_found hsorted hfound
    have hends : landing affinity near.reverse t after y = totalLength (near ++ t :: after) ∧
        (affinity = .right ∨ affinity = .rightOfInjectedText) ∨
        landing affinity near.reverse t after y = 0 ∧
          (affinity = .left ∨ affinity = .leftOfInjectedText) := by
      cases affinity with
      | none => exact absurd rfl hnone
      | right | rightOfInjectedText =>
        left
        rw [landing, totalLength_reverse, totalLength_append, totalLength_cons, Nat.add_assoc]
        simp
      | left | leftOfInjectedText => exact Or.inr ⟨rfl, by simp⟩
    obtain ⟨near', t', after', hg, htouches'⟩ :=
      exists_touches (by simp : near ++ t :: after ≠ []) (landing_le affinity htouches)
    rw [normalized, normalized, normalize_eq hgrouped htouches, normalize_eq (hg ▸ hgrouped) htouches']
    congr 1
    rcases hends with ⟨heq, rfl | rfl⟩ | ⟨heq, rfl | rfl⟩
    · rw [heq, landing, totalLength_reverse, hg, totalLength_append, totalLength_cons, Nat.add_assoc]
    · rw [heq, landing, totalLength_reverse, hg, totalLength_append, totalLength_cons, Nat.add_assoc]
    · rw [heq, landing]
    · rw [heq, landing]

theorem normalized_none_normalized (hsorted : Sorted ts) (hhides : ¬HidesStop ts) (x : Nat) :
    normalized .none ts (normalized .none ts x) = normalized .none ts x := by
  cases hfound : getInjectedTextAtOffset ts x with
  | none => rw [normalized, normalized, normalize_of_not_found hfound, normalize_of_not_found hfound]
  | some found =>
    obtain ⟨far, near, t, after, beyond, y, hgrouped, rfl, htouches⟩ := touches_of_found hsorted hfound
    obtain ⟨near', t', after', hg, htouches', hstays⟩ :=
      stable_landing rfl hgrouped.group (fun h => hhides (h.of_group hgrouped)) htouches
    rw [normalized, normalized, normalize_eq hgrouped htouches, normalize_eq (hg ▸ hgrouped) htouches', hstays]

theorem exists_normalized_ne (hsorted : Sorted ts) (hhides : HidesStop ts) {n : Nat}
    (hinside : ∀ t ∈ ts, t.offset ≤ n) :
    ∃ x ≤ n + totalLength ts,
      normalized .none ts (normalized .none ts x) ≠ normalized .none ts x := by
  obtain ⟨pre, j, zs, u, post, rfl, hsame, hj, hright, hzs, hu, hopen, hstop⟩ := hhides
  have hmid : ∀ s ∈ j :: zs ++ [u], s.offset = j.offset := by
    obtain ⟨-, hrest, -⟩ := pairwise_append.mp hsorted
    obtain ⟨hfirst, hrest⟩ := pairwise_cons.mp hrest
    obtain ⟨-, -, hacross⟩ := pairwise_append.mp hrest
    intro s hs
    simp only [cons_append, mem_cons, mem_append, not_mem_nil, or_false] at hs
    rcases hs with rfl | hs | rfl
    · rfl
    · exact le_antisymm (hsame ▸ hacross s hs u mem_cons_self) (hfirst s (mem_append_left _ hs))
    · exact hsame.symm
  have hsplit : pre ++ j :: (zs ++ u :: post) = pre ++ ((j :: zs ++ [u]) ++ post) := by simp
  rw [hsplit] at hsorted hinside ⊢
  obtain ⟨far, near, after, beyond, rfl, rfl, hgrouped⟩ := exists_group hsorted hmid (by simp)
  obtain ⟨near', t, after', y, hg, htouches, near'', t', after'', hg', htouches', hmoves⟩ :=
    @unstable_landing (near ++ (j :: zs ++ [u] ++ after)) zs near after u j (by simp) hj hright hzs hu hopen hstop
  refine ⟨j.offset + totalLength far + y, ?_, ?_⟩
  · have hoffset := hinside j (by simp)
    have hy := htouches.stop
    have hlength := congrArg totalLength hg
    rw [totalLength_reverse] at hy
    simp only [totalLength_append, totalLength_cons, totalLength_nil] at hlength ⊢
    omega
  · rw [normalized, normalized, normalize_eq (hg ▸ hgrouped) htouches, normalize_eq (hg' ▸ hgrouped) htouches']
    intro heq
    exact hmoves (Nat.add_left_cancel heq)

end Gavea.LineProjection

namespace Gavea.LineProjection
namespace ModelLineProjectionData

def texts (d : ModelLineProjectionData) : List Injection := d.injections.getD []

structure WellFormed (d : ModelLineProjectionData) (lineLength : Nat) : Prop where
  sorted : Sorted d.texts
  inside : ∀ t ∈ d.texts, t.offset ≤ lineLength
  increasing : d.breakOffsets.Pairwise (· < ·)
  last : d.breakOffsets.getLast? = some (lineLength + totalLength d.texts)

variable {d : ModelLineProjectionData} {lineLength x : Nat} {affinity : PositionAffinity}
  {p : OutputPosition}

theorem WellFormed.nonempty (h : d.WellFormed lineLength) : d.breakOffsets ≠ [] := by
  intro hnil
  have hlast := h.last
  rw [hnil] at hlast
  exact nomatch hlast

theorem WellFormed.stop_last (h : d.WellFormed lineLength) :
    d.stopOffset (d.breakOffsets.length - 1) = lineLength + totalLength d.texts := by
  have hlast := h.last
  rw [List.getLast?_eq_getElem?] at hlast
  rw [stopOffset, List.getD_eq_getElem?_getD, hlast]
  rfl

theorem translateToInputOffset_eq (d : ModelLineProjectionData) (p : OutputPosition) :
    d.translateToInputOffset p =
      inputOffsetLoop d.texts (d.outputPositionToOffsetInInputWithInjections p) := by
  have hoffset : (if p.outputLineIndex = 0 then
        if p.outputLineIndex > 0 then p.outputOffset - d.wrappedTextIndentLength else p.outputOffset
      else d.breakOffsets.getD (p.outputLineIndex - 1) 0 +
        if p.outputLineIndex > 0 then p.outputOffset - d.wrappedTextIndentLength else p.outputOffset) =
      d.outputPositionToOffsetInInputWithInjections p := by
    rw [outputPositionToOffsetInInputWithInjections, startOffset]
    split_ifs <;> omega
  rw [translateToInputOffset, texts]
  rw [hoffset]
  cases d.injections <;> rfl

theorem translateToOutputPosition_eq (d : ModelLineProjectionData) (o : Nat)
    (affinity : PositionAffinity) :
    d.translateToOutputPosition o affinity =
      d.offsetInInputWithInjectionsToOutputPosition (injectLoop o affinity d.texts o) affinity := by
  rw [translateToOutputPosition, texts]
  cases d.injections <;> rfl

theorem translateToInputOffset_translateToOutputPosition (h : d.WellFormed lineLength) (o : Nat)
    (affinity : PositionAffinity) :
    d.translateToInputOffset (d.translateToOutputPosition o affinity) = o := by
  rw [translateToInputOffset_eq, translateToOutputPosition_eq,
    offset_of_position h.increasing h.nonempty, inputOffsetLoop_injectLoop h.sorted]

theorem normalizeOutputPosition_eq (d : ModelLineProjectionData) (p : OutputPosition)
    (affinity : PositionAffinity) :
    d.normalizeOutputPosition p affinity =
      if normalized affinity d.texts (d.outputPositionToOffsetInInputWithInjections p) ≠
          d.outputPositionToOffsetInInputWithInjections p then
        d.offsetInInputWithInjectionsToOutputPosition
          (normalized affinity d.texts (d.outputPositionToOffsetInInputWithInjections p)) affinity
      else d.normalizeAtBreak p affinity := by
  rw [normalizeOutputPosition, texts]
  cases d.injections with
  | none => exact (if_neg (not_not_intro rfl)).symm
  | some ts => rfl

theorem offset_normalizeAtBreak (h : d.WellFormed lineLength)
    (hp : p.outputLineIndex < d.getOutputLineCount) (affinity : PositionAffinity) :
    d.outputPositionToOffsetInInputWithInjections (d.normalizeAtBreak p affinity) =
      d.outputPositionToOffsetInInputWithInjections p := by
  obtain ⟨line, offset⟩ := p
  have hstart (line : Nat) (hline : line < d.breakOffsets.length) := startOffset_le_stopOffset h.increasing hline
  rw [getOutputLineCount] at hp
  dsimp only at hp
  cases affinity with
  | left =>
    rw [normalizeAtBreak]
    dsimp only
    split_ifs with hat
    · obtain ⟨before, rfl⟩ : ∃ before, line = before + 1 := ⟨line - 1, by omega⟩
      have hle := hstart before (by omega)
      have hmin := hat.2
      rw [outputPositionToOffsetInInputWithInjections, outputPositionToOffsetInInputWithInjections, startOffset_succ]
      dsimp only
      rw [getMinOutputOffset] at hmin
      rw [Nat.add_sub_cancel, getMaxOutputOffset_eq, getMinOutputOffset]
      split_ifs at hmin ⊢ <;> omega
    · rfl
  | right =>
    rw [normalizeAtBreak]
    dsimp only
    split_ifs with hat
    · have hle := hstart line hp
      have hmax := hat.2
      rw [outputPositionToOffsetInInputWithInjections, outputPositionToOffsetInInputWithInjections, startOffset_succ]
      dsimp only
      rw [getMaxOutputOffset_eq, getMinOutputOffset] at hmax
      rw [getMinOutputOffset]
      split_ifs at hmax ⊢ <;> omega
    · rfl
  | none | leftOfInjectedText | rightOfInjectedText => rfl

theorem normalizeAtBreak_normalizeAtBreak (h : d.WellFormed lineLength)
    (hp : p.outputLineIndex < d.getOutputLineCount) (affinity : PositionAffinity) :
    d.normalizeAtBreak (d.normalizeAtBreak p affinity) affinity = d.normalizeAtBreak p affinity := by
  obtain ⟨line, offset⟩ := p
  rw [getOutputLineCount] at hp
  dsimp only at hp
  cases affinity with
  | left =>
    rw [normalizeAtBreak, normalizeAtBreak]
    dsimp only
    by_cases hat : line > 0 ∧ offset = d.getMinOutputOffset line
    · rw [if_pos hat]
      dsimp only
      refine if_neg fun hagain => ?_
      obtain ⟨before, hbefore⟩ : ∃ before, line - 1 = before + 1 := ⟨line - 2, by omega⟩
      have hlt := stopOffset_lt h.increasing (Nat.lt_add_one before) (by omega)
      have hsame := hagain.2
      rw [getMaxOutputOffset_eq, hbefore, startOffset_succ] at hsame
      omega
    · rw [if_neg hat]
      exact if_neg hat
  | right =>
    rw [normalizeAtBreak, normalizeAtBreak]
    dsimp only
    by_cases hat : line < d.getOutputLineCount - 1 ∧ offset = d.getMaxOutputOffset line
    · rw [if_pos hat]
      dsimp only
      refine if_neg fun hagain => ?_
      have hline := hagain.1
      rw [getOutputLineCount] at hline
      have hlt := stopOffset_lt h.increasing (Nat.lt_add_one line) (by omega)
      have hsame := hagain.2
      rw [getMaxOutputOffset_eq, startOffset_succ] at hsame
      omega
    · rw [if_neg hat]
      exact if_neg hat
  | none | leftOfInjectedText | rightOfInjectedText => rfl

theorem normalizeAtBreak_position (h : d.WellFormed lineLength) (x : Nat)
    (affinity : PositionAffinity) :
    d.normalizeAtBreak (d.offsetInInputWithInjectionsToOutputPosition x affinity) affinity =
      d.offsetInInputWithInjectionsToOutputPosition x affinity := by
  obtain ⟨line, hon, heq⟩ := search_spec h.increasing h.nonempty x affinity
  rw [heq]
  cases affinity with
  | left =>
    rw [normalizeAtBreak]
    refine if_neg fun hat => ?_
    have hbefore := hon.start.resolve_left hat.1.ne'
    rw [Before, if_pos rfl] at hbefore
    have hsame := hat.2
    dsimp only at hsame
    omega
  | right =>
    rw [normalizeAtBreak]
    refine if_neg fun hat => ?_
    have hline := hat.1
    have hsame := hat.2
    have hle := startOffset_le_stopOffset h.increasing hon.lt
    have hstart := hon.start_le
    rw [getOutputLineCount] at hline
    dsimp only at hline hsame
    have hstop := hon.stop.resolve_left (by omega)
    rw [Before, if_neg (by simp)] at hstop
    rw [getMaxOutputOffset_eq] at hsame
    omega
  | none | leftOfInjectedText | rightOfInjectedText => rfl

theorem offset_normalizeOutputPosition (h : d.WellFormed lineLength)
    (hp : p.outputLineIndex < d.getOutputLineCount) (affinity : PositionAffinity) :
    d.outputPositionToOffsetInInputWithInjections (d.normalizeOutputPosition p affinity) =
      normalized affinity d.texts (d.outputPositionToOffsetInInputWithInjections p) := by
  rw [normalizeOutputPosition_eq]
  split_ifs with hmoves
  · exact offset_of_position h.increasing h.nonempty _ affinity
  · rw [offset_normalizeAtBreak h hp]
    exact (not_not.mp hmoves).symm

theorem translateToInputOffset_normalizeOutputPosition (h : d.WellFormed lineLength)
    (hp : p.outputLineIndex < d.getOutputLineCount) (affinity : PositionAffinity) :
    d.translateToInputOffset (d.normalizeOutputPosition p affinity) = d.translateToInputOffset p := by
  rw [translateToInputOffset_eq, translateToInputOffset_eq, offset_normalizeOutputPosition h hp,
    inputOffset_normalized h.sorted]

theorem normalize_twice_iff (h : d.WellFormed lineLength)
    (hp : p.outputLineIndex < d.getOutputLineCount) (affinity : PositionAffinity) :
    d.normalizeOutputPosition (d.normalizeOutputPosition p affinity) affinity =
        d.normalizeOutputPosition p affinity ↔
      normalized affinity d.texts
          (normalized affinity d.texts (d.outputPositionToOffsetInInputWithInjections p)) =
        normalized affinity d.texts (d.outputPositionToOffsetInInputWithInjections p) := by
  have hoffset := offset_normalizeOutputPosition h hp affinity
  constructor
  · intro heq
    by_contra hmoves
    have hagain := congrArg d.outputPositionToOffsetInInputWithInjections heq
    rw [normalizeOutputPosition_eq d (d.normalizeOutputPosition p affinity), hoffset, if_pos hmoves,
      offset_of_position h.increasing h.nonempty] at hagain
    exact hmoves hagain
  · intro hstays
    rw [normalizeOutputPosition_eq d (d.normalizeOutputPosition p affinity), hoffset, if_neg (not_not_intro hstays)]
    rw [normalizeOutputPosition_eq]
    split_ifs with hmoves
    · exact normalizeAtBreak_position h _ affinity
    · exact normalizeAtBreak_normalizeAtBreak h hp affinity

/-- What the translations of a line promise, up to the idempotence. -/
structure Projects (d : ModelLineProjectionData) (lineLength : Nat) : Prop where
  roundTrip : ∀ o ≤ lineLength, ∀ affinity, d.translateToInputOffset (d.translateToOutputPosition o affinity) = o
  monotone : ∀ o o', o ≤ o' → ∀ affinity,
    Le (d.translateToOutputPosition o affinity) (d.translateToOutputPosition o' affinity)
  valid : ∀ o ≤ lineLength, ∀ affinity, d.Valid (d.translateToOutputPosition o affinity)
  sameOffset : ∀ p : OutputPosition, p.outputLineIndex < d.getOutputLineCount → ∀ affinity,
    d.translateToInputOffset (d.normalizeOutputPosition p affinity) = d.translateToInputOffset p

def IdempotentFor (d : ModelLineProjectionData) (affinity : PositionAffinity) : Prop :=
  ∀ p : OutputPosition, p.outputLineIndex < d.getOutputLineCount →
    d.normalizeOutputPosition (d.normalizeOutputPosition p affinity) affinity = d.normalizeOutputPosition p affinity

theorem WellFormed.projects (h : d.WellFormed lineLength) : d.Projects lineLength where
  roundTrip o _ affinity := translateToInputOffset_translateToOutputPosition h o affinity
  monotone o o' ho affinity := by
    rw [translateToOutputPosition_eq, translateToOutputPosition_eq]
    exact position_mono h.increasing h.nonempty (injectLoop_mono ho affinity ho) affinity
  valid o ho affinity := by
    rw [translateToOutputPosition_eq]
    refine valid_position h.increasing ?_ h.nonempty affinity
    have hle := injectLoop_le h.sorted o affinity
    rw [h.stop_last]
    omega
  sameOffset _ hp affinity := translateToInputOffset_normalizeOutputPosition h hp affinity

theorem idempotentFor_none_iff (h : d.WellFormed lineLength) :
    d.IdempotentFor .none ↔ ¬HidesStop d.texts := by
  constructor
  · intro hidempotent hhides
    obtain ⟨x, hx, hmoves⟩ := exists_normalized_ne h.sorted hhides h.inside
    have hvalid := valid_position h.increasing (h.stop_last ▸ hx) h.nonempty .none
    have hsame := (normalize_twice_iff h hvalid.1 .none).mp (hidempotent _ hvalid.1)
    rw [offset_of_position h.increasing h.nonempty] at hsame
    exact hmoves hsame
  · intro hhides p hp
    exact (normalize_twice_iff h hp .none).mpr (normalized_none_normalized h.sorted hhides _)

/-- The projection keeps offsets, and the normalization is idempotent except for hidden stops. -/
theorem projects_and_idempotent (d : ModelLineProjectionData) (lineLength : Nat)
    (h : d.WellFormed lineLength) :
    d.Projects lineLength ∧
      ((∀ affinity, d.IdempotentFor affinity) ↔ ¬HidesStop d.texts) ∧
      ∀ affinity, affinity ≠ .none → d.IdempotentFor affinity := by
  have hothers : ∀ affinity, affinity ≠ .none → d.IdempotentFor affinity := fun affinity hnone p hp =>
    (normalize_twice_iff h hp affinity).mpr (normalized_normalized h.sorted hnone _)
  refine ⟨h.projects, ⟨fun hall => (idempotentFor_none_iff h).mp (hall .none), ?_⟩, hothers⟩
  intro hhides affinity
  by_cases hnone : affinity = .none
  · rw [hnone]
    exact (idempotentFor_none_iff h).mpr hhides
  · exact hothers affinity hnone

def twoTexts (stops : Option InjectedTextCursorStops) : ModelLineProjectionData :=
  ⟨some [⟨1, ⟨1, stops⟩⟩, ⟨1, ⟨2, none⟩⟩], [3, 4], 2⟩

theorem twoTexts_wellFormed (stops : Option InjectedTextCursorStops) :
    (twoTexts stops).WellFormed 1 where
  sorted := by simp [Sorted, texts, twoTexts]
  inside := by simp [texts, twoTexts]
  increasing := by simp [twoTexts]
  last := rfl

theorem twoTexts_projects_and_idempotent :
    (twoTexts none).Projects 1 ∧
      ((∀ affinity, (twoTexts none).IdempotentFor affinity) ↔ ¬HidesStop (twoTexts none).texts) ∧
      ∀ affinity, affinity ≠ .none → (twoTexts none).IdempotentFor affinity :=
  projects_and_idempotent (twoTexts none) 1 (twoTexts_wellFormed none)

/-- The second of two texts at one offset has a left stop, and the first has no right one. -/
theorem not_idempotent_of_left_only :
    (twoTexts (some .left)).WellFormed 1 ∧
      ¬∀ affinity, (twoTexts (some .left)).IdempotentFor affinity := by
  refine ⟨twoTexts_wellFormed _, fun hall => ?_⟩
  refine (idempotentFor_none_iff (twoTexts_wellFormed (some .left))).mp (hall .none) ?_
  exact ⟨[], ⟨1, ⟨1, some .left⟩⟩, [], ⟨1, ⟨2, none⟩⟩, [], rfl, rfl, by decide, rfl, by simp,
    by decide, Or.inl (le_refl 2), Or.inl rfl⟩

end ModelLineProjectionData
end Gavea.LineProjection
