import Gavea.LineProjection.ModelLineProjectionData

namespace Gavea.LineProjection

open List

/-- The texts at one offset, between those at smaller and those at larger offsets. -/
structure Grouped (ts far g beyond : List Injection) (o : Nat) : Prop where
  split : ts = far ++ (g ++ beyond)
  far : ∀ s ∈ far, s.offset < o
  group : ∀ s ∈ g, s.offset = o
  beyond : ∀ s ∈ beyond, o < s.offset

/-- The first text of a group that a place touches, behind the others in reverse order. -/
structure Touches (ws : List Injection) (t : Injection) (y : Nat) : Prop where
  start : totalLength ws ≤ y
  stop : y ≤ totalLength ws + t.length
  first : ws = [] ∨ totalLength ws < y

/-- Where the texts without cursor stops lead to. -/
def passed : List Injection → Nat
  | [] => 0
  | s :: ws =>
    if s.right then s.length + totalLength ws
    else if s.left then totalLength ws
    else passed ws

def landing (affinity : PositionAffinity) (ws : List Injection) (t : Injection)
    (after : List Injection) (y : Nat) : Nat :=
  match affinity with
  | .none =>
    if y = totalLength ws + t.length ∧ t.right then y
    else if t.left then totalLength ws
    else passed ws
  | .right | .rightOfInjectedText => totalLength ws + t.length + totalLength after
  | .left | .leftOfInjectedText => 0

theorem passed_le (ws : List Injection) : passed ws ≤ totalLength ws := by
  induction ws with
  | nil => exact le_refl _
  | cons s ws ih =>
    rw [passed, totalLength_cons]
    split_ifs <;> omega

variable {ts far g beyond near after ws rest : List Injection} {o x y : Nat} {t : Injection}

theorem exists_far (h : Sorted ts) (hle : ∀ s ∈ ts, s.offset ≤ o) :
    ∃ far near, ts = far ++ near ∧ (∀ s ∈ far, s.offset < o) ∧ ∀ s ∈ near, s.offset = o := by
  induction ts with
  | nil => exact ⟨[], [], rfl, by simp, by simp⟩
  | cons s ts ih =>
    rw [Sorted, pairwise_cons] at h
    rcases Nat.lt_or_eq_of_le (hle s mem_cons_self) with hlt | heq
    · obtain ⟨far, near, rfl, hfar, hnear⟩ := ih h.2 fun s' hs' => hle s' (mem_cons_of_mem s hs')
      exact ⟨s :: far, near, rfl, forall_mem_cons.mpr ⟨hlt, hfar⟩, hnear⟩
    · refine ⟨[], s :: ts, rfl, by simp, forall_mem_cons.mpr ⟨heq, fun s' hs' => ?_⟩⟩
      exact le_antisymm (hle s' (mem_cons_of_mem s hs')) (heq ▸ h.1 s' hs')

theorem exists_beyond (h : Sorted ts) (hle : ∀ s ∈ ts, o ≤ s.offset) :
    ∃ near beyond, ts = near ++ beyond ∧ (∀ s ∈ near, s.offset = o) ∧ ∀ s ∈ beyond, o < s.offset := by
  induction ts with
  | nil => exact ⟨[], [], rfl, by simp, by simp⟩
  | cons s ts ih =>
    rw [Sorted, pairwise_cons] at h
    rcases Nat.lt_or_eq_of_le (hle s mem_cons_self) with hlt | heq
    · refine ⟨[], s :: ts, rfl, by simp, forall_mem_cons.mpr ⟨hlt, fun s' hs' => ?_⟩⟩
      exact Nat.lt_of_lt_of_le hlt (h.1 s' hs')
    · obtain ⟨near, beyond, rfl, hnear, hbeyond⟩ := ih h.2 fun s' hs' => hle s' (mem_cons_of_mem s hs')
      exact ⟨s :: near, beyond, rfl, forall_mem_cons.mpr ⟨heq.symm, hnear⟩, hbeyond⟩

theorem exists_group {pre post mid : List Injection} (h : Sorted (pre ++ (mid ++ post)))
    (hmid : ∀ s ∈ mid, s.offset = o) (hne : mid ≠ []) :
    ∃ far near after beyond, pre = far ++ near ∧ post = after ++ beyond ∧
      Grouped (pre ++ (mid ++ post)) far (near ++ (mid ++ after)) beyond o := by
  obtain ⟨m, hm⟩ := exists_mem_of_ne_nil mid hne
  obtain ⟨hpre, hrest, hacross⟩ := pairwise_append.mp h
  obtain ⟨-, hpost, hacross'⟩ := pairwise_append.mp hrest
  obtain ⟨far, near, rfl, hfar, hnear⟩ := exists_far hpre fun s hs =>
    (hacross s hs m (mem_append_left _ hm)).trans (hmid m hm).le
  obtain ⟨after, beyond, rfl, hafter, hbeyond⟩ := exists_beyond hpost fun s hs =>
    (hmid m hm).ge.trans (hacross' m hm s hs)
  refine ⟨far, near, after, beyond, rfl, rfl, by simp, hfar, fun s hs => ?_, hbeyond⟩
  simp only [mem_append] at hs
  rcases hs with hs | hs | hs
  · exact hnear s hs
  · exact hmid s hs
  · exact hafter s hs

theorem injectedTextLoop_append {pre post : List Injection} {index total : Nat}
    (hpre : ∀ s ∈ pre, s.offset + total + totalLength pre < x)
    (hstart : t.offset + (total + totalLength pre) ≤ x)
    (hstop : x ≤ t.offset + (total + totalLength pre) + t.length) :
    injectedTextLoop x (pre ++ t :: post) index total =
      some ⟨index + pre.length, t.offset + (total + totalLength pre), t.length⟩ := by
  induction pre generalizing index total with
  | nil =>
    rw [totalLength_nil, Nat.add_zero] at hstart hstop
    rw [nil_append, injectedTextLoop, if_neg (by omega), if_pos hstop]
    rfl
  | cons s pre ih =>
    have hs := hpre s mem_cons_self
    rw [totalLength_cons] at hpre hstart hstop hs
    rw [cons_append, injectedTextLoop, if_neg (by omega), if_neg (by omega),
      ih (fun s' hs' => ?_) (by omega) (by omega), totalLength_cons, length_cons]
    · congr 2 <;> omega
    · have hs'' := hpre s' (mem_cons_of_mem s hs')
      omega

theorem injectedTextLoop_eq_some {index total : Nat} {found : InjectedTextAtOffset}
    (hsorted : Sorted ts) (h : injectedTextLoop x ts index total = some found) :
    ∃ pre t post, ts = pre ++ t :: post ∧ t.offset + (total + totalLength pre) ≤ x ∧
      x ≤ t.offset + (total + totalLength pre) + t.length ∧
      ∀ s ∈ pre, s.offset + total + totalLength pre < x := by
  induction ts generalizing index total with
  | nil => exact nomatch h
  | cons t ts ih =>
    rw [Sorted, pairwise_cons] at hsorted
    rw [injectedTextLoop] at h
    split_ifs at h with hlater hwithin
    · exact ⟨[], t, ts, rfl, by rw [totalLength_nil]; omega, by rw [totalLength_nil]; omega, by simp⟩
    · obtain ⟨pre, t', post, rfl, hstart, hstop, hpre⟩ := ih hsorted.2 h
      refine ⟨t :: pre, t', post, rfl, by rw [totalLength_cons]; omega,
        by rw [totalLength_cons]; omega, ?_⟩
      have hrest : ∀ s ∈ pre, s.offset + total + totalLength (t :: pre) < x := by
        intro s hs
        have hlt := hpre s hs
        rw [totalLength_cons]
        omega
      refine forall_mem_cons.mpr ⟨?_, hrest⟩
      cases pre with
      | nil =>
        rw [totalLength_cons, totalLength_nil]
        omega
      | cons s pre =>
        have hs := hrest s mem_cons_self
        have hts := hsorted.1 s (by simp)
        omega

theorem touches_of_found (hsorted : Sorted ts) {found : InjectedTextAtOffset}
    (h : getInjectedTextAtOffset ts x = some found) :
    ∃ far near t after beyond y, Grouped ts far (near ++ t :: after) beyond t.offset ∧
      x = t.offset + totalLength far + y ∧ Touches near.reverse t y := by
  obtain ⟨pre, t, post, rfl, hstart, hstop, hpre⟩ := injectedTextLoop_eq_some hsorted h
  obtain ⟨far, near, after, beyond, rfl, rfl, hgrouped⟩ :=
    @exists_group t.offset pre post [t] hsorted (by simp) (by simp)
  rw [totalLength_append] at hstart hstop hpre
  refine ⟨far, near, t, after, beyond, x - (t.offset + totalLength far), hgrouped, by omega, ?_⟩
  constructor
  case start =>
    rw [totalLength_reverse]
    omega
  case stop =>
    rw [totalLength_reverse]
    omega
  case first =>
    rw [reverse_eq_nil_iff, totalLength_reverse]
    cases near with
    | nil => exact Or.inl rfl
    | cons s near =>
      have hs := hpre s (by simp)
      have hoffset := hgrouped.group s (by simp)
      right
      omega

theorem found_of_touches (h : Grouped ts far (near ++ t :: after) beyond o)
    (htouches : Touches near.reverse t y) :
    getInjectedTextAtOffset ts (o + totalLength far + y) =
      some ⟨far.length + near.length, o + totalLength far + totalLength near, t.length⟩ ∧
      ts[far.length + near.length]? = some t := by
  have ht : t.offset = o := h.group t (by simp)
  obtain ⟨hstart, hstop, hfirst⟩ := htouches
  rw [totalLength_reverse] at hstart hstop
  rw [reverse_eq_nil_iff, totalLength_reverse] at hfirst
  have hts : ts = (far ++ near) ++ t :: (after ++ beyond) := by
    rw [h.split]
    simp
  constructor
  · have hloop := @injectedTextLoop_append (o + totalLength far + y) t (far ++ near) (after ++ beyond)
      0 0 ?_ (by rw [totalLength_append]; omega) (by rw [totalLength_append]; omega)
    · rw [hts, getInjectedTextAtOffset, hloop, totalLength_append, length_append, ht]
      congr 2 <;> omega
    · intro s hs
      rw [totalLength_append]
      rcases mem_append.mp hs with hs | hs
      · have hlt := h.far s hs
        omega
      · have heq := h.group s (mem_append_left _ hs)
        have hlt := hfirst.resolve_left (ne_nil_of_mem hs)
        omega
  · rw [hts, ← length_append, getElem?_append_right (le_refl _), Nat.sub_self]
    rfl

theorem get_far_last (h : Grouped ts far g beyond o) {index : Nat} (hindex : index + 1 = far.length) :
    ∃ s, ts[index]? = some s ∧ s.offset ≠ o := by
  have hlt : index < far.length := by omega
  refine ⟨far[index], ?_, (h.far _ (getElem_mem hlt)).ne⟩
  rw [h.split, getElem?_append_left hlt, getElem?_eq_getElem hlt]

theorem get_near (h : Grouped ts far g beyond o) {s : Injection}
    (hg : g = (s :: ws).reverse ++ rest) : ts[far.length + ws.length]? = some s := by
  rw [h.split, hg, getElem?_append_right (Nat.le_add_right _ _), Nat.add_sub_cancel_left, append_assoc,
    reverse_cons, append_assoc, getElem?_append_right (by rw [length_reverse]), length_reverse, Nat.sub_self]
  rfl

theorem stopLoop_eq (h : Grouped ts far g beyond o) (base : Nat) (hg : g = ws.reverse ++ rest) :
    stopLoop ts o (far.length + ws.length) (base + totalLength ws) = base + passed ws := by
  induction ws generalizing rest with
  | nil =>
    rw [length_nil, Nat.add_zero]
    cases hfar : far.length with
    | zero => rfl
    | succ index =>
      obtain ⟨s, hget, hs⟩ := get_far_last h hfar.symm
      rw [stopLoop, hget]
      exact if_neg hs
  | cons s ws ih =>
    have hs : s.offset = o := h.group s (by rw [hg]; simp)
    rw [length_cons, ← Nat.add_assoc, stopLoop, get_near h hg, passed, totalLength_cons]
    dsimp only
    rw [if_pos hs]
    have hback : base + (s.length + totalLength ws) - s.length = base + totalLength ws := by omega
    rw [hback]
    split_ifs
    · rfl
    · rfl
    · exact @ih ([s] ++ rest) (by rw [hg]; simp)

theorem leftLoop_eq (h : Grouped ts far g beyond o) (base : Nat) (hg : g = ws.reverse ++ rest) :
    leftLoop ts (far.length + ws.length) o (base + totalLength ws) = base := by
  induction ws generalizing rest with
  | nil =>
    rw [length_nil, Nat.add_zero]
    cases hfar : far.length with
    | zero => rfl
    | succ index =>
      obtain ⟨s, hget, hs⟩ := get_far_last h hfar.symm
      rw [leftLoop, hget]
      exact if_neg hs
  | cons s ws ih =>
    have hs : s.offset = o := h.group s (by rw [hg]; simp)
    rw [length_cons, ← Nat.add_assoc, leftLoop, get_near h hg, totalLength_cons]
    dsimp only
    rw [if_pos hs, hs, show base + (s.length + totalLength ws) - s.length = base + totalLength ws by
      omega]
    exact @ih ([s] ++ rest) (by rw [hg]; simp)

theorem rightLoop_eq (hafter : ∀ s ∈ after, s.offset = o) (hbeyond : ∀ s ∈ beyond, o < s.offset)
    (result : Nat) : rightLoop o (after ++ beyond) result = result + totalLength after := by
  induction after generalizing result with
  | nil =>
    cases beyond with
    | nil => rfl
    | cons s beyond => exact if_neg (hbeyond s mem_cons_self).ne'
  | cons s after ih =>
    have hs := hafter s mem_cons_self
    rw [cons_append, rightLoop, if_pos hs, hs, ih fun s' hs' => hafter s' (mem_cons_of_mem s hs')]
    rw [totalLength_cons]
    omega

theorem normalize_eq (h : Grouped ts far (near ++ t :: after) beyond o)
    (htouches : Touches near.reverse t y) (affinity : PositionAffinity) :
    normalizeOffsetInInputWithInjectionsAroundInjections ts (o + totalLength far + y) affinity =
      o + totalLength far + landing affinity near.reverse t after y := by
  obtain ⟨hfound, hget⟩ := found_of_touches h htouches
  have ht : t.offset = o := h.group t (by simp)
  have hg : near ++ t :: after = near.reverse.reverse ++ t :: after := by rw [reverse_reverse]
  have hdrop : ts.drop (far.length + near.length + 1) = after ++ beyond := by
    have hts : ts = (far ++ near ++ [t]) ++ (after ++ beyond) := by
      rw [h.split]
      simp
    rw [hts, drop_left']
    rw [length_append, length_append, length_singleton]
  have hright (result : Nat) := @rightLoop_eq beyond after o (fun s hs => h.group s (by simp [hs])) h.beyond result
  have hleft := leftLoop_eq h (o + totalLength far) hg
  have hstop := stopLoop_eq h (o + totalLength far) hg
  rw [length_reverse, totalLength_reverse] at hleft hstop
  rw [normalizeOffsetInInputWithInjectionsAroundInjections, hfound]
  dsimp only
  rw [hget]
  dsimp only
  rw [ht, hdrop]
  cases affinity with
  | none =>
    rw [landing, totalLength_reverse]
    dsimp only
    rw [hstop]
    have hsame : o + totalLength far + y = o + totalLength far + totalLength near + t.length ↔
        y = totalLength near + t.length := by omega
    simp only [hsame]
    split_ifs <;> omega
  | right | rightOfInjectedText =>
    rw [landing, totalLength_reverse]
    dsimp only
    rw [hright]
    omega
  | left | leftOfInjectedText =>
    dsimp only
    rw [hleft]
    rfl

theorem normalize_of_not_found (h : getInjectedTextAtOffset ts x = none)
    (affinity : PositionAffinity) :
    normalizeOffsetInInputWithInjectionsAroundInjections ts x affinity = x := by
  rw [normalizeOffsetInInputWithInjectionsAroundInjections, h]

end Gavea.LineProjection

namespace Gavea.LineProjection

open List

def HidesStop (ts : List Injection) : Prop :=
  ∃ pre j zs u post, ts = pre ++ j :: (zs ++ u :: post) ∧ j.offset = u.offset ∧
    0 < j.length ∧ j.right = false ∧ (∀ z ∈ zs, z.length = 0) ∧
    0 < u.length ∧ (2 ≤ u.length ∨ u.right = false) ∧
    (u.left = true ∨ ∃ z ∈ zs, z.left = true ∨ z.right = true)

def StableAt (g : List Injection) (y : Nat) : Prop :=
  ∃ near t after, g = near ++ t :: after ∧ Touches near.reverse t y ∧ landing .none near.reverse t after y = y

variable {g near after ws zs rest A B : List Injection} {o y : Nat} {t u j : Injection}

theorem exists_touches_from (hne : g ≠ []) (hstart : totalLength ws ≤ y)
    (hstop : y ≤ totalLength ws + totalLength g) (hfirst : ws = [] ∨ totalLength ws < y) :
    ∃ near t after, g = near ++ t :: after ∧ Touches (near.reverse ++ ws) t y := by
  induction g generalizing ws with
  | nil => exact absurd rfl hne
  | cons t g ih =>
    rw [totalLength_cons] at hstop
    by_cases hwithin : y ≤ totalLength ws + t.length
    · exact ⟨[], t, g, rfl, hstart, hwithin, hfirst⟩
    · have hmore : g ≠ [] := by
        rintro rfl
        rw [totalLength_nil] at hstop
        omega
      obtain ⟨near, t', after, rfl, htouches⟩ := @ih (t :: ws) hmore
        (by rw [totalLength_cons]; omega) (by rw [totalLength_cons]; omega)
        (Or.inr (by rw [totalLength_cons]; omega))
      refine ⟨t :: near, t', after, rfl, ?_⟩
      rwa [reverse_cons, append_assoc]

theorem exists_touches (hne : g ≠ []) (hy : y ≤ totalLength g) :
    ∃ near t after, g = near ++ t :: after ∧ Touches near.reverse t y := by
  obtain ⟨near, t, after, hg, htouches⟩ := @exists_touches_from g [] y hne (Nat.zero_le _)
    (by rw [totalLength_nil]; omega) (Or.inl rfl)
  rw [append_nil] at htouches
  exact ⟨near, t, after, hg, htouches⟩

theorem totalLength_zeros (h : ∀ z ∈ zs, z.length = 0) : totalLength zs = 0 := by
  induction zs with
  | nil => rfl
  | cons z zs ih => rw [totalLength_cons, h z mem_cons_self, ih fun z' hz' => h z' (mem_cons_of_mem z hz')]

theorem exists_nearest (ws : List Injection) :
    (∀ z ∈ ws, z.length = 0) ∨
      ∃ zs j ws', ws = zs ++ j :: ws' ∧ (∀ z ∈ zs, z.length = 0) ∧ 0 < j.length := by
  induction ws with
  | nil => exact Or.inl (by simp)
  | cons s ws ih =>
    rcases Nat.eq_zero_or_pos s.length with hzero | hpos
    · rcases ih with hall | ⟨zs, j, ws', rfl, hzs, hj⟩
      · exact Or.inl (forall_mem_cons.mpr ⟨hzero, hall⟩)
      · exact Or.inr ⟨s :: zs, j, ws', rfl, forall_mem_cons.mpr ⟨hzero, hzs⟩, hj⟩
    · exact Or.inr ⟨[], s, ws, rfl, by simp, hpos⟩

theorem stable_of_nearest (hg : g = ws.reverse ++ rest) (hne : g ≠ [])
    (hright : ∀ zs j ws', ws = zs ++ j :: ws' → (∀ z ∈ zs, z.length = 0) → 0 < j.length →
      j.right = true) : StableAt g (totalLength ws) := by
  rcases exists_nearest ws with hzero | ⟨zs, j, ws', rfl, hzs, hj⟩
  · rw [totalLength_zeros hzero]
    obtain ⟨t, after, rfl⟩ := exists_cons_of_ne_nil hne
    refine ⟨[], t, after, rfl, ⟨le_refl _, Nat.zero_le _, Or.inl rfl⟩, ?_⟩
    rw [landing]
    split_ifs <;> rfl
  · have hlength : totalLength (zs ++ j :: ws') = totalLength ws' + j.length := by
      rw [totalLength_append, totalLength_zeros hzs, totalLength_cons]
      omega
    refine ⟨ws'.reverse, j, zs.reverse ++ rest, by rw [hg]; simp, ?_, ?_⟩
    · rw [reverse_reverse, hlength]
      exact ⟨Nat.le_add_right _ _, le_refl _, Or.inr (by omega)⟩
    · rw [reverse_reverse, landing]
      exact if_pos ⟨hlength, hright zs j ws' rfl hzs hj⟩

theorem stable_of_stop (hg : g = ws.reverse ++ (zs ++ u :: rest)) (hgroup : ∀ s ∈ g, s.offset = o)
    (hhidden : ¬HidesStop g) (hzs : ∀ z ∈ zs, z.length = 0) (hu : 0 < u.length)
    (hopen : 2 ≤ u.length ∨ u.right = false)
    (hstop : u.left = true ∨ ∃ z ∈ zs, z.left = true ∨ z.right = true) :
    StableAt g (totalLength ws) := by
  refine stable_of_nearest hg (by rw [hg]; simp) fun zs' j ws' hws hzs' hj => ?_
  by_contra hright
  refine hhidden ⟨ws'.reverse, j, zs'.reverse ++ zs, u, rest, by rw [hg, hws]; simp, ?_, hj,
    Bool.eq_false_iff.mpr hright, fun z hz => ?_, hu, hopen, ?_⟩
  · rw [hgroup j (by rw [hg, hws]; simp), hgroup u (by rw [hg]; simp)]
  · rcases mem_append.mp hz with hz | hz
    · exact hzs' z (mem_reverse.mp hz)
    · exact hzs z hz
  · rcases hstop with hleft | ⟨z, hz, hstop⟩
    · exact Or.inl hleft
    · exact Or.inr ⟨z, mem_append_right _ hz, hstop⟩

theorem stable_passed (hg : g = ws.reverse ++ (zs ++ u :: rest)) (hgroup : ∀ s ∈ g, s.offset = o)
    (hhidden : ¬HidesStop g) (hzs : ∀ z ∈ zs, z.length = 0) (hu : 0 < u.length)
    (hopen : 2 ≤ u.length ∨ u.right = false) : StableAt g (passed ws) := by
  induction ws generalizing zs u rest with
  | nil => exact @stable_of_nearest g [] _ hg (by rw [hg]; simp) fun zs j ws' h => by simp at h
  | cons s ws ih =>
    have hg' : g = ws.reverse ++ ((s :: zs) ++ u :: rest) := by rw [hg]; simp
    rw [passed]
    rcases Nat.eq_zero_or_pos s.length with hzero | hpos
    · have hzs' : ∀ z ∈ s :: zs, z.length = 0 := forall_mem_cons.mpr ⟨hzero, hzs⟩
      split_ifs with hright hleft
      · rw [hzero, Nat.zero_add]
        exact stable_of_stop hg' hgroup hhidden hzs' hu hopen (Or.inr ⟨s, mem_cons_self, Or.inr hright⟩)
      · exact stable_of_stop hg' hgroup hhidden hzs' hu hopen (Or.inr ⟨s, mem_cons_self, Or.inl hleft⟩)
      · exact ih hg' hzs' hu hopen
    · have hg'' : g = ws.reverse ++ ([] ++ s :: (zs ++ u :: rest)) := by rw [hg]; simp
      split_ifs with hright hleft
      · rw [← totalLength_cons]
        refine stable_of_nearest hg (by rw [hg]; simp) fun zs' j ws' hws hzs' _ => ?_
        cases zs' with
        | nil =>
          obtain ⟨rfl, -⟩ := List.cons.inj hws
          exact hright
        | cons z zs' =>
          obtain ⟨rfl, -⟩ := List.cons.inj hws
          exact absurd (hzs' s mem_cons_self) hpos.ne'
      · exact stable_of_stop hg'' hgroup hhidden (by simp) hpos (Or.inr (Bool.eq_false_iff.mpr hright)) (Or.inl hleft)
      · exact ih hg'' (by simp) hpos (Or.inr (Bool.eq_false_iff.mpr hright))

theorem stable_landing (hg : g = near ++ t :: after) (hgroup : ∀ s ∈ g, s.offset = o)
    (hhidden : ¬HidesStop g) (htouches : Touches near.reverse t y) :
    StableAt g (landing .none near.reverse t after y) := by
  by_cases hsame : landing .none near.reverse t after y = y
  · rw [hsame]
    exact ⟨near, t, after, hg, htouches, hsame⟩
  · obtain ⟨hstart, hstop, hfirst⟩ := htouches
    have hg' : g = near.reverse.reverse ++ ([] ++ t :: after) := by rw [hg]; simp
    rw [landing] at hsame ⊢
    split_ifs at hsame ⊢ with hkept hleft
    · exact absurd rfl hsame
    · refine stable_of_stop hg' hgroup hhidden (by simp) (by omega) ?_ (Or.inl hleft)
      by_contra hclosed
      push Not at hclosed
      exact hkept ⟨by omega, Bool.eq_true_of_not_eq_false hclosed.2⟩
    · rcases Nat.lt_or_ge (totalLength near.reverse) y with hlt | hge
      · refine stable_passed hg' hgroup hhidden (by simp) (by omega) ?_
        by_contra hclosed
        push Not at hclosed
        exact hkept ⟨by omega, Bool.eq_true_of_not_eq_false hclosed.2⟩
      · rw [hfirst.resolve_right (by omega)] at hsame hstart hge
        rw [totalLength_nil] at hstart hge
        exact absurd (Nat.le_zero.mp hge).symm hsame

theorem passed_zeros (hzs : ∀ z ∈ zs, z.length = 0) (hstop : ∃ z ∈ zs, z.left = true ∨ z.right = true) :
    passed (zs ++ ws) = totalLength ws := by
  induction zs with
  | nil =>
    obtain ⟨z, hz, -⟩ := hstop
    exact nomatch hz
  | cons z zs ih =>
    obtain ⟨hzero, hzs⟩ := forall_mem_cons.mp hzs
    have hrest : totalLength (zs ++ ws) = totalLength ws := by
      rw [totalLength_append, totalLength_zeros hzs, Nat.zero_add]
    rw [cons_append, passed]
    split_ifs with hright hleft
    · rw [hzero, Nat.zero_add, hrest]
    · exact hrest
    · refine ih hzs ?_
      obtain ⟨z', hz', hstop⟩ := hstop
      rcases mem_cons.mp hz' with rfl | hz'
      · rcases hstop with h | h
        · exact absurd h hleft
        · exact absurd h hright
      · exact ⟨z', hz', hstop⟩

theorem unstable_landing (hg : g = A ++ j :: (zs ++ u :: B)) (hj : 0 < j.length)
    (hright : j.right = false) (hzs : ∀ z ∈ zs, z.length = 0) (hu : 0 < u.length)
    (hopen : 2 ≤ u.length ∨ u.right = false)
    (hstop : u.left = true ∨ ∃ z ∈ zs, z.left = true ∨ z.right = true) :
    ∃ near t after y, g = near ++ t :: after ∧ Touches near.reverse t y ∧
      ∃ near' t' after', g = near' ++ t' :: after' ∧
        Touches near'.reverse t' (landing .none near.reverse t after y) ∧
        landing .none near'.reverse t' after' (landing .none near.reverse t after y) ≠
          landing .none near.reverse t after y := by
  have hwidth : totalLength (A ++ j :: zs).reverse = totalLength A + j.length := by
    rw [totalLength_reverse, totalLength_append, totalLength_cons, totalLength_zeros hzs, Nat.add_zero]
  obtain ⟨k, hk, hkle, hkept⟩ : ∃ k, 0 < k ∧ k ≤ u.length ∧ ¬(k = u.length ∧ u.right = true) := by
    rcases hopen with hlong | hopen
    · exact ⟨1, Nat.one_pos, by omega, fun h => by omega⟩
    · exact ⟨u.length, hu, le_refl _, fun h => by rw [hopen] at h; exact nomatch h.2⟩
  have hlanding : landing .none (A ++ j :: zs).reverse u B (totalLength A + j.length + k) =
      totalLength A + j.length := by
    rw [landing, hwidth]
    rw [if_neg fun h => hkept ⟨by omega, h.2⟩]
    split_ifs with hleft
    · rfl
    · have hreverse : (A ++ j :: zs).reverse = zs.reverse ++ j :: A.reverse := by simp
      rw [hreverse, passed_zeros (fun z hz => hzs z (mem_reverse.mp hz)) ?_, totalLength_cons,
        totalLength_reverse, Nat.add_comm]
      obtain ⟨z, hz, hz'⟩ := hstop.resolve_left hleft
      exact ⟨z, mem_reverse.mpr hz, hz'⟩
  refine ⟨A ++ j :: zs, u, B, totalLength A + j.length + k, by rw [hg]; simp, ?_, A, j, zs ++ u :: B,
    hg, ?_, ?_⟩
  · constructor
    case start => omega
    case stop => omega
    case first => exact Or.inr (by omega)
  · rw [hlanding]
    constructor
    case start => rw [totalLength_reverse]; omega
    case stop => rw [totalLength_reverse]
    case first => exact Or.inr (by rw [totalLength_reverse]; omega)
  · rw [hlanding]
    have hpassed := passed_le A.reverse
    rw [totalLength_reverse] at hpassed
    rw [landing, totalLength_reverse]
    rw [if_neg fun h => by rw [hright] at h; exact nomatch h.2]
    split_ifs <;> omega

end Gavea.LineProjection
