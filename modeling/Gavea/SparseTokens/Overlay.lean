import Gavea.SparseTokens.SparseMultilineTokens

namespace Gavea.SparseTokens

open ContiguousTokens

def metadataAt (tokens : List Token) (offset : Nat) : Option UInt32 :=
  (tokens.find? (offset < ·.endOffset)).map Token.metadata

def overlay (bTokens : List SparseToken) (offset : Nat) (metadata : UInt32) : UInt32 :=
  match bTokens.find? fun b => b.startCharacter ≤ offset ∧ offset < b.endCharacter with
  | some b => mergeMetadata b.metadata metadata
  | none => metadata

variable {a : List Token} {f : Nat → UInt32 → UInt32} {pos : Nat} {s : MergeState}

theorem metadataAt_append_left {ts ts' : List Token} {offset : Nat}
    (h : ∀ t ∈ ts, t.endOffset ≤ offset) : metadataAt (ts ++ ts') offset = metadataAt ts' offset := by
  have hnone : ts.find? (offset < ·.endOffset) = none := by
    rw [List.find?_eq_none]
    intro t ht
    rw [decide_eq_true_eq]
    exact not_lt.mpr (h t ht)
  rw [metadataAt, List.find?_append, hnone]
  rfl

theorem metadataAt_append_of_isSome {ts ts' : List Token} {offset : Nat} {m : UInt32}
    (h : metadataAt ts offset = some m) : metadataAt (ts ++ ts') offset = some m := by
  obtain ⟨t, hfind, rfl⟩ := Option.map_eq_some_iff.mp h
  rw [metadataAt, List.find?_append, hfind]
  rfl

theorem metadataAt_cons {t : Token} {ts : List Token} {offset : Nat} (h : offset < t.endOffset) :
    metadataAt (t :: ts) offset = some t.metadata := by
  rw [metadataAt, List.find?_cons_of_pos (by rwa [decide_eq_true_eq])]
  rfl

theorem mem_le_endOf {bound : Int} {ts : List Token} (h : Increasing bound ts) :
    ∀ t ∈ ts, bound < t.endOffset ∧ (t.endOffset : Int) ≤ endOf bound ts := by
  induction ts generalizing bound with
  | nil => exact fun t ht => absurd ht List.not_mem_nil
  | cons t' ts ih =>
    intro t ht
    rcases List.mem_cons.mp ht with rfl | htail
    · exact ⟨h.1, h.2.le_endOf⟩
    · obtain ⟨hlt, hle⟩ := ih h.2 t htail
      exact ⟨h.1.trans hlt, hle⟩

structure Merged (a : List Token) (f : Nat → UInt32 → UInt32) (pos : Nat) (s : MergeState) : Prop where
  lastEndOffset : s.lastEndOffset = pos
  increasing : Increasing 0 s.result
  last : endOf 0 s.result = pos
  before : ∀ t ∈ a.take s.aIndex, t.endOffset ≤ pos
  behind : ∀ t ∈ a.drop s.aIndex, pos ≤ t.endOffset
  pointwise : ∀ offset < pos, ∃ m, metadataAt a offset = some m ∧ metadataAt s.result offset = some (f offset m)

theorem merged_start (a : List Token) (f : Nat → UInt32 → UInt32) : Merged a f 0 ⟨0, 0, []⟩ where
  lastEndOffset := rfl
  increasing := trivial
  last := rfl
  before := fun _ ht => absurd ht List.not_mem_nil
  behind := fun _ _ => Nat.zero_le _
  pointwise := fun offset h => absurd h (Nat.not_lt_zero offset)

theorem Merged.emitToken (h : Merged a f pos s) (ha : Increasing (-1) a) {t : Token}
    (ht : a[s.aIndex]? = some t) {endOffset : Nat} (hpos : pos ≤ endOffset)
    (hle : endOffset ≤ t.endOffset) {metadata : UInt32}
    (hf : ∀ offset, pos ≤ offset → offset < endOffset → f offset t.metadata = metadata) :
    Merged a f endOffset (s.emitToken endOffset metadata) := by
  have hlt : s.aIndex < a.length := (List.getElem?_eq_some_iff.mp ht).1
  have hdrop : a.drop s.aIndex = t :: a.drop (s.aIndex + 1) := by
    rw [List.drop_eq_getElem_cons hlt, (List.getElem?_eq_some_iff.mp ht).2]
  have hbehind : ∀ u ∈ a.drop s.aIndex, endOffset ≤ u.endOffset := by
    have hincreasing : Increasing (endOf (-1) (a.take s.aIndex)) (a.drop s.aIndex) := by
      rw [← List.take_append_drop s.aIndex a] at ha
      exact (increasing_append.mp ha).2
    intro u hu
    rw [hdrop] at hincreasing hu
    rcases List.mem_cons.mp hu with rfl | htail
    · exact hle
    · have hmem := (mem_le_endOf hincreasing.2 u htail).1
      omega
  rw [MergeState.emitToken, h.lastEndOffset]
  rcases hpos.lt_or_eq with hpos | rfl
  · rw [if_neg (not_le.mpr hpos)]
    refine ⟨rfl, ?_, ?_, fun u hu => (h.before u hu).trans hpos.le, hbehind, ?_⟩
    · refine increasing_append.mpr ⟨h.increasing, ?_, trivial⟩
      rw [h.last]
      exact_mod_cast hpos
    · rw [endOf_append]
      rfl
    · intro offset hoffset
      dsimp only
      by_cases hold : offset < pos
      · obtain ⟨m, hm, hresult⟩ := h.pointwise offset hold
        exact ⟨m, hm, metadataAt_append_of_isSome hresult⟩
      · refine ⟨t.metadata, ?_, ?_⟩
        · rw [← List.take_append_drop s.aIndex a, metadataAt_append_left fun u hu =>
            (h.before u hu).trans (not_lt.mp hold), hdrop, metadataAt_cons (by omega)]
        · rw [metadataAt_append_left, metadataAt_cons hoffset, hf offset (not_lt.mp hold) hoffset]
          intro u hu
          have hend := (mem_le_endOf h.increasing u hu).2
          rw [h.last] at hend
          omega
  · rw [if_pos (le_refl _)]
    exact ⟨h.lastEndOffset, h.increasing, h.last, h.before, hbehind, h.pointwise⟩

theorem emitToken_aIndex (endOffset : Nat) (metadata : UInt32) :
    (s.emitToken endOffset metadata).aIndex = s.aIndex := by
  rw [MergeState.emitToken]
  split_ifs <;> rfl

theorem Merged.advance (h : Merged a f pos s) {t : Token} (ht : a[s.aIndex]? = some t)
    (hend : t.endOffset = pos) : Merged a f pos { s with aIndex := s.aIndex + 1 } := by
  have hlt : s.aIndex < a.length := (List.getElem?_eq_some_iff.mp ht).1
  refine ⟨h.lastEndOffset, h.increasing, h.last, fun u hu => ?_, fun u hu => ?_, h.pointwise⟩
  · rw [List.take_succ_eq_append_getElem hlt, (List.getElem?_eq_some_iff.mp ht).2] at hu
    rcases List.mem_append.mp hu with hbefore | hnew
    · exact h.before u hbefore
    · rw [List.mem_singleton.mp hnew, hend]
  · refine h.behind u ?_
    rw [List.drop_eq_getElem_cons hlt]
    exact List.mem_cons_of_mem _ hu

theorem Merged.pushWhile (ha : Increasing (-1) a) {cond : Nat → Bool} {metadata : UInt32 → UInt32}
    {target : Nat} (hcond : ∀ t ∈ a, cond t.endOffset = true → t.endOffset ≤ target) :
    ∀ (rest : List Token) (pos : Nat) (s : MergeState), Merged a f pos s → a.drop s.aIndex = rest →
      pos ≤ target →
      (∀ offset, pos ≤ offset → offset < target → ∀ m, f offset m = metadata m) →
      ∃ pos', Merged a f pos' (pushWhile cond metadata rest s) ∧ pos ≤ pos' ∧ pos' ≤ target ∧
        ∀ t, a[(SparseTokens.pushWhile cond metadata rest s).aIndex]? = some t →
          cond t.endOffset = false := by
  intro rest
  induction rest with
  | nil =>
    intro pos s h hrest hpos _
    refine ⟨pos, h, le_refl _, hpos, fun t ht => ?_⟩
    rw [SparseTokens.pushWhile, List.getElem?_eq_none (List.drop_eq_nil_iff.mp hrest)] at ht
    exact nomatch ht
  | cons t rest ih =>
    intro pos s h hrest hpos hf
    have ht : a[s.aIndex]? = some t := by
      rw [← List.head?_drop, hrest]
      rfl
    rw [SparseTokens.pushWhile]
    split_ifs with hstep
    · have hle := hcond t (List.mem_of_getElem? ht) hstep
      have hge : pos ≤ t.endOffset := h.behind t (hrest ▸ List.mem_cons_self)
      have hemitted := h.emitToken ha ht hge (le_refl _) fun offset h1 h2 => hf offset h1 (by omega) t.metadata
      have hindex := emitToken_aIndex (s := s) t.endOffset (metadata t.metadata)
      rw [← hindex] at ht
      have hadvanced := hemitted.advance ht rfl
      obtain ⟨pos', hmerged, hge', hle', hstop⟩ := ih t.endOffset _ hadvanced
        (by
          dsimp only
          rw [hindex, ← List.drop_drop, hrest]
          rfl) hle
        fun offset h1 h2 => hf offset (by omega) h2
      exact ⟨pos', hmerged, by omega, hle', hstop⟩
    · refine ⟨pos, h, le_refl _, hpos, fun u hu => ?_⟩
      rw [ht] at hu
      obtain rfl := Option.some.inj hu
      exact Bool.eq_false_of_not_eq_true hstep

theorem Merged.at_end (h : Merged a f pos s) {L : Nat} (ha : Covers a L) (hpos : pos ≤ L)
    (hend : a[s.aIndex]? = none) : pos = L := by
  have htake := List.take_of_length_le (List.getElem?_eq_none_iff.mp hend)
  obtain ⟨init, t, rfl⟩ := List.eq_nil_or_concat a |>.resolve_left ha.ne_nil
  have hlast := ha.last
  rw [List.concat_eq_append, endOf_append] at hlast
  have hmem : t ∈ (init.concat t).take s.aIndex := by
    rw [htake, List.concat_eq_append]
    exact List.mem_concat_self
  have hbefore := h.before t hmem
  have hlast' : (t.endOffset : Int) = L := hlast
  omega

theorem Merged.getStartOffset_le {aTokens : LineTokens} (h : Merged aTokens.tokens f pos s)
    (hlt : s.aIndex ≤ aTokens.tokens.length) : aTokens.getStartOffset s.aIndex ≤ pos := by
  rw [LineTokens.getStartOffset]
  split_ifs with hindex
  · have hprev : s.aIndex - 1 < aTokens.tokens.length := by omega
    rw [endOffsetAt, List.getElem?_eq_getElem hprev]
    refine h.before _ (List.mem_take_iff_getElem.mpr ⟨s.aIndex - 1, by omega, rfl⟩)
  · exact Nat.zero_le _

theorem Merged.pushIntersecting {aTokens : LineTokens} (h : Merged aTokens.tokens f pos s)
    (ha : Covers aTokens.tokens aTokens.textLength) {bStartCharacter : Nat}
    (hpos : pos ≤ bStartCharacter) (hle : bStartCharacter ≤ aTokens.textLength)
    (hnext : ∀ t, aTokens.tokens[s.aIndex]? = some t → bStartCharacter ≤ t.endOffset)
    (hf : ∀ offset, pos ≤ offset → offset < bStartCharacter → ∀ m, f offset m = m) :
    Merged aTokens.tokens f bStartCharacter (pushIntersecting aTokens bStartCharacter s) := by
  rw [SparseTokens.pushIntersecting]
  cases ht : aTokens.tokens[s.aIndex]? with
  | none =>
    have hend := h.at_end ha (hpos.trans hle) ht
    obtain rfl : pos = bStartCharacter := by omega
    exact h
  | some t =>
    dsimp only
    split_ifs with hstart
    · exact h.emitToken ha.increasing ht hpos (hnext t ht) fun offset h1 h2 => hf offset h1 h2 t.metadata
    · have hlt := (List.getElem?_eq_some_iff.mp ht).1
      have hstart' := h.getStartOffset_le hlt.le
      obtain rfl : pos = bStartCharacter := by omega
      exact h

theorem Merged.pushSparse {aTokens : LineTokens} (h : Merged aTokens.tokens f pos s)
    (ha : Covers aTokens.tokens aTokens.textLength) {bEndCharacter : Nat} (hpos : pos ≤ bEndCharacter)
    (hle : bEndCharacter ≤ aTokens.textLength) {bMetadata : UInt32}
    (hnext : ∀ t, aTokens.tokens[s.aIndex]? = some t → bEndCharacter ≤ t.endOffset)
    (hf : ∀ offset, pos ≤ offset → offset < bEndCharacter → ∀ m, f offset m = mergeMetadata bMetadata m) :
    Merged aTokens.tokens f bEndCharacter (pushSparse aTokens bEndCharacter bMetadata s) := by
  rw [SparseTokens.pushSparse]
  cases ht : aTokens.tokens[s.aIndex]? with
  | none =>
    have hend := h.at_end ha (hpos.trans hle) ht
    obtain rfl : pos = bEndCharacter := by omega
    dsimp only
    rw [MergeState.emitToken, if_pos h.lastEndOffset.ge]
    exact h
  | some t =>
    have hemitted := h.emitToken ha.increasing ht hpos (hnext t ht) fun offset h1 h2 => hf offset h1 h2 t.metadata
    dsimp only
    split_ifs with heq
    · refine hemitted.advance ?_ heq
      rwa [emitToken_aIndex]
    · exact hemitted

theorem Merged.mergeToken {aTokens : LineTokens} (h : Merged aTokens.tokens f pos s)
    (ha : Covers aTokens.tokens aTokens.textLength) {b : SparseToken}
    (hb : b.startCharacter ≤ b.endCharacter) (hpos : pos ≤ min b.startCharacter aTokens.textLength)
    (houtside : ∀ offset, pos ≤ offset → offset < min b.startCharacter aTokens.textLength → ∀ m, f offset m = m)
    (hinside : ∀ offset, min b.startCharacter aTokens.textLength ≤ offset →
      offset < min b.endCharacter aTokens.textLength → ∀ m, f offset m = mergeMetadata b.metadata m) :
    Merged aTokens.tokens f (min b.endCharacter aTokens.textLength) (mergeToken aTokens s b) := by
  have hbounds : min b.startCharacter aTokens.textLength ≤ min b.endCharacter aTokens.textLength :=
    min_le_min_right _ hb
  have hlength : min b.endCharacter aTokens.textLength ≤ aTokens.textLength := min_le_right _ _
  rw [SparseTokens.mergeToken]
  generalize min b.startCharacter aTokens.textLength = bStartCharacter at *
  generalize min b.endCharacter aTokens.textLength = bEndCharacter at *
  obtain ⟨pos₁, hmerged₁, hge₁, hle₁, hstop₁⟩ :=
    @Merged.pushWhile aTokens.tokens f ha.increasing (· ≤ bStartCharacter) id bStartCharacter
      (fun t _ hle => of_decide_eq_true hle) _ pos s h rfl hpos houtside
  have hmerged₂ := hmerged₁.pushIntersecting ha hle₁ (by omega)
    (fun t ht => (not_le.mp (of_decide_eq_false (hstop₁ t ht))).le)
    (fun offset h1 h2 => houtside offset (by omega) h2)
  obtain ⟨pos₃, hmerged₃, hge₃, hle₃, hstop₃⟩ :=
    @Merged.pushWhile aTokens.tokens f ha.increasing (· < bEndCharacter) (mergeMetadata b.metadata)
      bEndCharacter (fun t _ hlt => (of_decide_eq_true hlt).le) _ bStartCharacter _ hmerged₂ rfl
      hbounds hinside
  exact hmerged₃.pushSparse ha hle₃ hlength
    (fun t ht => not_lt.mp (of_decide_eq_false (hstop₃ t ht)))
    (fun offset h1 h2 => hinside offset (by omega) h2)

def SortedDisjoint (bTokens : List SparseToken) : Prop :=
  bTokens.Pairwise (fun b b' => b.endCharacter ≤ b'.startCharacter) ∧ ∀ b ∈ bTokens, b.startCharacter ≤ b.endCharacter

instance (bTokens : List SparseToken) : Decidable (SortedDisjoint bTokens) := inferInstanceAs (Decidable (_ ∧ _))

theorem overlay_outside {done rest : List SparseToken} {offset : Nat}
    (hdone : ∀ b ∈ done, b.endCharacter ≤ offset) (hrest : ∀ b ∈ rest, offset < b.startCharacter)
    (metadata : UInt32) : overlay (done ++ rest) offset metadata = metadata := by
  rw [overlay, List.find?_eq_none.mpr]
  intro b hb
  rw [decide_eq_true_eq]
  rcases List.mem_append.mp hb with hmem | hmem
  · have hend := hdone b hmem
    omega
  · have hstart := hrest b hmem
    omega

theorem overlay_inside {done rest : List SparseToken} {b : SparseToken} {offset : Nat}
    (hdone : ∀ b ∈ done, b.endCharacter ≤ offset) (hstart : b.startCharacter ≤ offset)
    (hend : offset < b.endCharacter) (metadata : UInt32) :
    overlay (done ++ b :: rest) offset metadata = mergeMetadata b.metadata metadata := by
  have hnone : done.find? (fun b => b.startCharacter ≤ offset ∧ offset < b.endCharacter) = none := by
    rw [List.find?_eq_none]
    intro b' hb'
    have hend' := hdone b' hb'
    rw [decide_eq_true_eq]
    omega
  rw [overlay, List.find?_append, hnone, Option.none_or,
    List.find?_cons_of_pos (by rw [decide_eq_true_eq]; exact ⟨hstart, hend⟩)]

theorem merged_foldl {aTokens : LineTokens} (ha : Covers aTokens.tokens aTokens.textLength) :
    ∀ (rest done : List SparseToken) (pos : Nat) (s : MergeState),
      Merged aTokens.tokens (overlay (done ++ rest)) pos s → SortedDisjoint (done ++ rest) →
      (∀ b ∈ done, min b.endCharacter aTokens.textLength ≤ pos) →
      (∀ b ∈ rest, pos ≤ min b.startCharacter aTokens.textLength) → pos ≤ aTokens.textLength →
      ∃ pos', Merged aTokens.tokens (overlay (done ++ rest)) pos'
          (rest.foldl (mergeToken aTokens) s) ∧ pos' ≤ aTokens.textLength ∧
        ∀ b ∈ done ++ rest, min b.endCharacter aTokens.textLength ≤ pos' := by
  intro rest
  induction rest with
  | nil =>
    intro done pos s h _ hdone _ hpos
    refine ⟨pos, h, hpos, ?_⟩
    rwa [List.append_nil]
  | cons b rest ih =>
    intro done pos s h hsorted hdone hrest hpos
    have hpairwise := List.pairwise_append.mp hsorted.1
    have hb := hsorted.2 b (List.mem_append_right _ List.mem_cons_self)
    have hbehind := (List.pairwise_cons.mp hpairwise.2.1).1
    have hbefore (offset : Nat) (hoffset : pos ≤ offset) (hlt : offset < aTokens.textLength) :
        ∀ b' ∈ done, b'.endCharacter ≤ offset := by
      intro b' hb'
      have hend := hdone b' hb'
      omega
    have hmerged := h.mergeToken ha hb (hrest b List.mem_cons_self)
      (fun offset h1 h2 m => overlay_outside (hbefore offset h1 (by omega)) (fun b' hb' => by
        rcases List.mem_cons.mp hb' with rfl | htail
        · omega
        · have hstart := hbehind b' htail
          omega) m)
      (fun offset h1 h2 m => by
        have hpos' := hrest b List.mem_cons_self
        exact overlay_inside (hbefore offset (by omega) (by omega)) (by omega) (by omega) m)
    rw [List.foldl_cons]
    rw [List.append_cons] at hsorted hmerged ⊢
    refine ih (done ++ [b]) _ _ hmerged hsorted (fun b' hb' => ?_) (fun b' hb' => ?_)
      (min_le_right _ _)
    · rcases List.mem_append.mp hb' with hold | hnew
      · have hend := hpairwise.2.2 b' hold b List.mem_cons_self
        omega
      · rw [List.mem_singleton.mp hnew]
    · have hstart := hbehind b' hb'
      omega

theorem mergeTokens_spec {aTokens : LineTokens} (ha : Covers aTokens.tokens aTokens.textLength)
    {bTokens : List SparseToken} (hb : SortedDisjoint bTokens) (hpos : 0 < aTokens.textLength) :
    Covers (mergeTokens aTokens bTokens).tokens aTokens.textLength ∧
      ∀ offset < aTokens.textLength, ∃ m, metadataAt aTokens.tokens offset = some m ∧
        metadataAt (mergeTokens aTokens bTokens).tokens offset = some (overlay bTokens offset m) := by
  obtain ⟨pos, hmerged, hle, hends⟩ := merged_foldl ha bTokens [] 0 ⟨0, 0, []⟩ (merged_start _ _) hb
    (fun b hb => absurd hb List.not_mem_nil) (fun b _ => Nat.zero_le _) (Nat.zero_le _)
  rw [List.nil_append] at hmerged hends
  have hinside (t : Token) (ht : t ∈ aTokens.tokens) : t.endOffset ≤ aTokens.textLength := by
    have hmem := (mem_le_endOf ha.increasing t ht).2
    rw [ha.last] at hmem
    exact_mod_cast hmem
  obtain ⟨pos', hmerged', -, hle', hstop⟩ :=
    @Merged.pushWhile aTokens.tokens (overlay bTokens) ha.increasing (fun _ => true) id
      aTokens.textLength (fun t ht _ => hinside t ht) _ pos _ hmerged rfl hle (fun offset h1 h2 m => by
        have hdone (b : SparseToken) (hb : b ∈ bTokens) : b.endCharacter ≤ offset := by
          have hend := hends b hb
          omega
        have houtside := @overlay_outside bTokens [] offset hdone (fun b hb => absurd hb List.not_mem_nil) m
        rwa [List.append_nil] at houtside)
  have hnone : aTokens.tokens[(pushWhile (fun _ => true) id (aTokens.tokens.drop
      (bTokens.foldl (mergeToken aTokens) ⟨0, 0, []⟩).aIndex)
      (bTokens.foldl (mergeToken aTokens) ⟨0, 0, []⟩)).aIndex]? = none := by
    rw [Option.eq_none_iff_forall_ne_some]
    intro t ht
    exact Bool.noConfusion (hstop t ht)
  obtain rfl := hmerged'.at_end ha hle' hnone
  refine ⟨⟨hmerged'.increasing.mono (by decide), ?_⟩, hmerged'.pointwise⟩
  rw [← hmerged'.last]
  refine endOf_of_ne_nil (fun hnil => ?_) _ _
  have hlast := hmerged'.last
  rw [show (pushWhile (fun _ => true) id (aTokens.tokens.drop
    (bTokens.foldl (mergeToken aTokens) ⟨0, 0, []⟩).aIndex)
    (bTokens.foldl (mergeToken aTokens) ⟨0, 0, []⟩)).result = [] from hnil, endOf_nil] at hlast
  omega

variable {pieces : List SparseMultilineTokens} {lineNumber : Int}

end Gavea.SparseTokens
