import Gavea.EditorGroup.EditorGroupModel

namespace Gavea.EditorGroup

open Lib.Js Lib.FrontPart List

theorem insertAt_erase_idxOf {α : Type*} [DecidableEq α] {l : List α} {c : α} (hc : c ∈ l) :
    insertAt (l.erase c) (l.idxOf c) c = l := by
  induction l with
  | nil => cases hc
  | cons x l ih =>
    by_cases hx : x = c
    · subst hx
      simp [insertAt]
    · have hmem : c ∈ l := (mem_cons.mp hc).resolve_left fun h => hx h.symm
      rw [erase_cons_tail (by simpa using hx), idxOf_cons_ne l hx]
      exact congrArg (x :: ·) (ih hmem)

namespace EditorGroupModel

variable {E : Type} [DecidableEq E] {g : EditorGroupModel E} {c : E}

omit [DecidableEq E] in
theorem KeepsSticky.refl (target : Option E) (g : EditorGroupModel E) : KeepsSticky target g g := fun _ _ _ _ => Iff.rfl

omit [DecidableEq E] in
theorem KeepsSticky.trans {target : Option E} {g₁ g₂ g₃ : EditorGroupModel E}
    (h₁ : KeepsSticky target g₁ g₂) (h₂ : KeepsSticky target g₂ g₃)
    (hopen : ∀ e ∈ g₁.editors, e ∈ g₃.editors → e ∈ g₂.editors) : KeepsSticky target g₁ g₃ := by
  intro e he he' hne
  have hmid := hopen e he he'
  exact (h₂ e hmid he' hne).trans (h₁ e he hmid hne)

omit [DecidableEq E] in
theorem KeepsSticky.of_none {g g' : EditorGroupModel E} (h : KeepsSticky none g g')
    (target : Option E) : KeepsSticky target g g' :=
  fun e he he' _ => h e he he' (by simp)

omit [DecidableEq E] in
theorem KeepsSticky.of_eq {g g' : EditorGroupModel E} (target : Option E)
    (heditors : g'.editors = g.editors) (hsticky : g'.sticky = g.sticky) :
    KeepsSticky target g g' := by
  intro e _ _ _
  rw [stickyEditors, stickyEditors, stickyCount, stickyCount, heditors, hsticky]

structure Moved (c : E) (t : Nat) (g g' : EditorGroupModel E) : Prop where
  inside : t < g.editors.length
  editors : g'.editors = insertAt (g.editors.erase c) t c
  mru : g'.mru = g.mru
  selection : g'.selection = g.selection
  preview : g'.preview = g.preview
  transient : g'.transient = g.transient
  sticky : g'.sticky =
    if c ∈ g.stickyEditors ∧ g.stickyCount ≤ t then g.sticky - 1
    else if c ∉ g.stickyEditors ∧ t < g.stickyCount then g.sticky + 1
    else g.sticky

theorem moveEditor_moved (h : g.Ordered) (hc : c ∈ g.editors) (toIndex : Int) :
    ∃ t : Nat, Moved c t g (g.moveEditor c toIndex) ∧
      (0 ≤ toIndex → toIndex < g.editors.length → (t : Int) = toIndex) := by
  have hlt := idxOf_lt_length_of_mem hc
  have hcount := h.stickyCount_eq
  obtain ⟨t, ht, hclamp, hexact⟩ : ∃ t : Nat, t < g.editors.length ∧
      (if toIndex ≥ g.editors.length then (g.editors.length : Int) - 1
        else if toIndex < 0 then 0 else toIndex) = t ∧
      (0 ≤ toIndex → toIndex < g.editors.length → (t : Int) = toIndex) := by
    split
    · exact ⟨g.editors.length - 1, by omega, by omega, by omega⟩
    · split
      · exact ⟨0, by omega, rfl, by omega⟩
      · exact ⟨toIndex.toNat, by omega, by omega, by omega⟩
  refine ⟨t, ?_, hexact⟩
  simp only [moveEditor, hclamp, indexOf_of_mem hc, arraySplice_erase hc]
  have hfront : c ∈ g.stickyEditors ↔ g.editors.idxOf c < g.stickyCount := by
    rw [stickyEditors, mem_take_iff_idxOf_lt hc]
  split
  · next hsame =>
      have hidx : t = g.editors.idxOf c := by omega
      refine ⟨ht, ?_, rfl, rfl, rfl, rfl, ?_⟩
      · rw [hidx, insertAt_erase_idxOf hc]
      · rw [if_neg (by rw [hfront]; omega), if_neg (by rw [hfront]; omega)]
  · next hsame =>
      refine ⟨ht, ?_, rfl, rfl, rfl, rfl, ?_⟩
      · rw [arraySplice_insert, relativeIndex_of_nonneg (by omega), Int.toNat_natCast, min_eq_left]
        rw [length_erase_of_mem hc]
        omega
      · have hiff := h.isSticky_idxOf hc
        have h₁ : (g.isSticky (g.editors.idxOf c) && decide ((t : Int) > g.sticky)) = true ↔
            c ∈ g.stickyEditors ∧ g.stickyCount ≤ t := by
          rw [Bool.and_eq_true, hiff, decide_eq_true_iff]
          exact and_congr_right fun _ => by omega
        have h₂ : (!g.isSticky (g.editors.idxOf c) && decide ((t : Int) ≤ g.sticky)) = true ↔
            c ∉ g.stickyEditors ∧ t < g.stickyCount := by
          rw [Bool.and_eq_true, Bool.not_eq_true', ← Bool.not_eq_true, hiff, decide_eq_true_iff]
          exact and_congr_right fun _ => by omega
        simp only [h₁, h₂]

namespace Moved

variable {g' : EditorGroupModel E} {t : Nat} (hm : Moved c t g g')
include hm

theorem perm (hc : c ∈ g.editors) : g'.editors.Perm g.editors := by
  rw [hm.editors]
  exact (insertAt_perm _ _ _).trans (perm_cons_erase hc).symm

theorem stickyEditors (h : g.Ordered) (hc : c ∈ g.editors) :
    g'.stickyEditors =
      if g'.stickyCount ≤ t then g.stickyEditors.erase c
      else insertAt (g.stickyEditors.erase c) t c := by
  have hcount := h.stickyCount_eq
  have hle := h.stickyCount_le
  have hin := hm.inside
  have hlen := length_erase_of_mem hc
  have hsticky := hm.sticky
  have hcount' : g'.stickyCount = (g'.sticky + 1).toNat := rfl
  by_cases hfront : c ∈ g.stickyEditors
  · have herase := take_erase_of_mem hfront hle
    have hpos : 0 < g.stickyCount := (length_pos_of_mem hfront).trans_le (length_take_le _ _)
    rw [EditorGroupModel.stickyEditors, hm.editors]
    by_cases hbehind : g.stickyCount ≤ t
    · rw [if_pos ⟨hfront, hbehind⟩] at hsticky
      have hk : g'.stickyCount = g.stickyCount - 1 := by omega
      rw [hk, if_pos (by omega), take_insertAt_of_ge c (by omega) (by omega), herase]
      rfl
    · rw [if_neg (fun hn => hbehind hn.2), if_neg (fun hn => hn.1 hfront)] at hsticky
      have hk : g'.stickyCount = g.stickyCount - 1 + 1 := by omega
      rw [hk, if_neg (by omega), take_insertAt_of_le c (by omega) (by omega), herase]
      rfl
  · have herase := take_erase_of_notMem hfront hle
    rw [if_neg (fun hn => hfront hn.1)] at hsticky
    have hlt : g.stickyCount < g.editors.length := by
      by_contra hge
      refine hfront ?_
      rw [EditorGroupModel.stickyEditors, take_of_length_le (by omega)]
      exact hc
    rw [EditorGroupModel.stickyEditors, hm.editors, erase_of_not_mem hfront]
    by_cases hbehind : t < g.stickyCount
    · rw [if_pos ⟨hfront, hbehind⟩] at hsticky
      have hk : g'.stickyCount = g.stickyCount + 1 := by omega
      rw [hk, if_neg (by omega), take_insertAt_of_le c (by omega) (by omega), herase]
      rfl
    · rw [if_neg (fun hn => hbehind hn.2)] at hsticky
      have hk : g'.stickyCount = g.stickyCount := by omega
      rw [hk, if_pos (by omega), take_insertAt_of_ge c (by omega) (by omega), herase]
      rfl

theorem keepsSticky (h : g.Ordered) (hc : c ∈ g.editors) : KeepsSticky (some c) g g' := by
  intro e _ _ hne
  have hec : e ≠ c := fun heq => hne (congrArg some heq.symm)
  rw [hm.stickyEditors h hc]
  split
  · exact mem_erase_of_ne hec
  · rw [mem_insertAt, mem_erase_of_ne hec, or_iff_right hec]

theorem ordered (h : g.Ordered) (hc : c ∈ g.editors) : g'.Ordered := by
  have hperm := hm.perm hc
  refine ⟨⟨hperm.nodup_iff.mpr h.nodup, ?_⟩, ?_, ?_, ?_⟩
  · rw [hm.mru]
    exact h.mru.trans hperm.symm
  · rw [hm.preview]
    exact fun e he => hperm.mem_iff.mpr (h.preview e he)
  · rw [hm.transient]
    exact fun e he => hperm.mem_iff.mpr (h.transient e he)
  · have hcount := h.stickyCount_eq
    have hbounds := h.sticky
    have hin := hm.inside
    have hpos : c ∈ g.stickyEditors → 0 < g.stickyCount := fun hfront =>
      (length_pos_of_mem hfront).trans_le (length_take_le _ _)
    rw [hperm.length_eq, hm.sticky]
    split
    · next hs =>
        have := hpos hs.1
        omega
    · split
      · next hs =>
          refine ⟨by omega, lt_of_not_ge fun hge => hs.1 ?_⟩
          rw [EditorGroupModel.stickyEditors, take_of_length_le (by omega)]
          exact hc
      · exact hbounds

theorem active (h : g.Active) (hc : c ∈ g.editors) : g'.Active := by
  refine ⟨?_, fun e he => ?_⟩
  · rw [hm.mru, activeEditor, hm.selection]
    exact h.front
  · rw [hm.selection] at he
    exact (hm.perm hc).mem_iff.mpr (h.selection e he)

end Moved

end EditorGroupModel

open List

open Lib.Js Lib.FrontPart

namespace EditorGroupModel

variable {E : Type} [DecidableEq E] {g g' : EditorGroupModel E} {c : E}

structure Marked (g g' : EditorGroupModel E) : Prop where
  editors : g'.editors = g.editors
  mru : g'.mru = g.mru
  selection : g'.selection = g.selection
  sticky : g'.sticky = g.sticky

namespace Marked

omit [DecidableEq E]

theorem refl (g : EditorGroupModel E) : Marked g g := ⟨rfl, rfl, rfl, rfl⟩

theorem trans {g₁ g₂ g₃ : EditorGroupModel E} (h₁ : Marked g₁ g₂) (h₂ : Marked g₂ g₃) :
    Marked g₁ g₃ :=
  ⟨h₂.editors.trans h₁.editors, h₂.mru.trans h₁.mru, h₂.selection.trans h₁.selection, h₂.sticky.trans h₁.sticky⟩

variable (hm : Marked g g')
include hm

theorem arranged (h : g.Arranged) : g'.Arranged := by
  refine ⟨?_, ?_⟩
  · rw [hm.editors]
    exact h.nodup
  · rw [hm.editors, hm.mru]
    exact h.mru

theorem ordered (h : g.Ordered) (hpreview : ∀ e ∈ g'.preview, e ∈ g.editors)
    (htransient : ∀ e ∈ g'.transient, e ∈ g.editors) : g'.Ordered := by
  refine ⟨hm.arranged h.toArranged, ?_, ?_, ?_⟩
  · rwa [hm.editors]
  · rwa [hm.editors]
  · rw [hm.editors, hm.sticky]
    exact h.sticky

theorem active (h : g.Active) : g'.Active := by
  refine ⟨?_, ?_⟩
  · rw [hm.mru, activeEditor, hm.selection]
    exact h.front
  · rw [hm.editors, hm.selection]
    exact h.selection

theorem keepsSticky (target : Option E) : KeepsSticky target g g' := KeepsSticky.of_eq target hm.editors hm.sticky

end Marked

theorem doSetTransient_marked (c : E) (transient : Bool) :
    Marked g (g.doSetTransient c transient) := by
  rw [doSetTransient]
  split
  · split <;> exact ⟨rfl, rfl, rfl, rfl⟩
  · exact ⟨rfl, rfl, rfl, rfl⟩

theorem preview_doSetTransient (c : E) (transient : Bool) :
    (g.doSetTransient c transient).preview = g.preview := by
  rw [doSetTransient]
  split
  · split <;> rfl
  · rfl

theorem mem_transient_doSetTransient {e : E} {transient : Bool}
    (he : e ∈ (g.doSetTransient c transient).transient) : e ∈ g.transient ∨ e = c := by
  rw [doSetTransient] at he
  split at he
  · split at he
    · exact Or.inl he
    · exact (mem_append.mp he).imp_right mem_singleton.mp
  · exact Or.inl (mem_filter.mp he).1

theorem Ordered.doSetTransient (h : g.Ordered) (hc : c ∈ g.editors) (transient : Bool) :
    (g.doSetTransient c transient).Ordered := by
  refine (doSetTransient_marked c transient).ordered h ?_ fun e he => ?_
  · rw [preview_doSetTransient]
    exact h.preview
  · rcases mem_transient_doSetTransient he with he | rfl
    · exact h.transient e he
    · exact hc

theorem setTransient_marked (c : E) (transient : Bool) : Marked g (g.setTransient c transient) := by
  rw [setTransient]
  split
  · exact Marked.refl g
  · split
    · exact doSetTransient_marked c transient
    · exact Marked.refl g

theorem Ordered.setTransient (h : g.Ordered) (c : E) (transient : Bool) :
    (g.setTransient c transient).Ordered := by
  rw [EditorGroupModel.setTransient]
  split
  · exact h
  · split
    · next hc => exact h.doSetTransient hc transient
    · exact h

theorem doPin_marked (c : E) : Marked g (g.doPin c) := by
  simp only [doPin]
  split
  · exact Marked.refl g
  · exact (setTransient_marked c false).trans ⟨rfl, rfl, rfl, rfl⟩

theorem Ordered.doPin (h : g.Ordered) (c : E) : (g.doPin c).Ordered := by
  simp only [EditorGroupModel.doPin]
  split
  · exact h
  · refine Marked.ordered (g := g.setTransient c false) ⟨rfl, rfl, rfl, rfl⟩ (h.setTransient c false)
      (fun e he => nomatch he) ?_
    exact (h.setTransient c false).transient

theorem pin_marked (c : E) : Marked g (g.pin c) := by
  rw [pin]
  split
  · exact doPin_marked c
  · exact Marked.refl g

theorem Ordered.pin (h : g.Ordered) (c : E) : (g.pin c).Ordered := by
  rw [EditorGroupModel.pin]
  split
  · exact h.doPin c
  · exact h

theorem unpin_cases (h : g.Ordered) (c : E) :
    g.unpin c = g ∨ ∃ p : EditorGroupModel E, Marked g p ∧ p.Ordered ∧
      (g.unpin c = p ∨ ∃ old, g.unpin c = p.doCloseEditor old true) := by
  rw [unpin]
  split
  · next hc =>
      split
      · refine Or.inr ⟨{ g with preview := some c }, ⟨rfl, rfl, rfl, rfl⟩, ?_, ?_⟩
        · refine Marked.ordered (g := g) ⟨rfl, rfl, rfl, rfl⟩ h (fun e he => ?_) h.transient
          obtain rfl := Option.some.inj he
          exact hc
        · simp only
          split
          · next old _ => exact Or.inr ⟨old, rfl⟩
          · exact Or.inl rfl
      · exact Or.inl rfl
  · exact Or.inl rfl

theorem doStick_spec (h : g.Ordered) (hc : c ∈ g.editors) :
    (g.doStick c (g.editors.idxOf c)).Ordered ∧
      (g.Active → (g.doStick c (g.editors.idxOf c)).Active) ∧
      KeepsSticky (some c) g (g.doStick c (g.editors.idxOf c)) := by
  rw [doStick]
  split
  · exact ⟨h, id, KeepsSticky.refl _ g⟩
  · next hsticky =>
      rw [h.isSticky_idxOf hc] at hsticky
      have hmark := pin_marked (g := g) c
      have hpin := h.pin c
      have hc' : c ∈ (g.pin c).editors := hmark.editors ▸ hc
      have hcount := hpin.stickyCount_eq
      have hle := hpin.stickyCount_le
      have hsticky' : c ∉ (g.pin c).stickyEditors := by
        rw [stickyEditors, stickyCount, hmark.editors, hmark.sticky]
        exact hsticky
      have hlt : (g.pin c).stickyCount < (g.pin c).editors.length := by
        by_contra hge
        refine hsticky' ?_
        rw [stickyEditors, take_of_length_le (by omega)]
        exact hc'
      obtain ⟨t, hm, ht⟩ := moveEditor_moved hpin hc' ((g.pin c).sticky + 1)
      have ht := ht (by omega) (by omega)
      have hord := hm.ordered hpin hc'
      have hmsticky := hm.sticky
      rw [if_neg (fun hn => hsticky' hn.1), if_neg (by omega)] at hmsticky
      simp only
      generalize hmoved : (g.pin c).moveEditor c ((g.pin c).sticky + 1) = m at hm hord hmsticky ⊢
      have hlen : m.editors.length = (g.pin c).editors.length := (hm.perm hc').length_eq
      refine ⟨⟨⟨hord.nodup, hord.mru⟩, hord.preview, hord.transient, ?_, ?_⟩, fun ha => ?_, ?_⟩
      · show -1 ≤ m.sticky + 1
        omega
      · show m.sticky + 1 < m.editors.length
        omega
      · have hactive := hm.active (hmark.active ha) hc'
        exact ⟨hactive.front, hactive.selection⟩
      · intro e _ _ hne
        have hec : e ≠ c := fun heq => hne (congrArg some heq.symm)
        have hk : stickyCount { m with sticky := m.sticky + 1 } = (g.pin c).stickyCount + 1 := by
          simp only [stickyCount]
          omega
        have htn : t = (g.pin c).stickyCount := by omega
        rw [stickyEditors, hk, hm.editors, take_insertAt_of_le c (by omega)
          (by rw [length_erase_of_mem hc']; omega), mem_insertAt, or_iff_right hec,
          take_erase_of_notMem hsticky' hle, stickyEditors, stickyCount, stickyCount,
          hmark.editors, hmark.sticky]

theorem doUnstick_spec (h : g.Ordered) (hc : c ∈ g.editors) :
    (g.doUnstick c (g.editors.idxOf c)).Ordered ∧
      (g.Active → (g.doUnstick c (g.editors.idxOf c)).Active) ∧
      KeepsSticky (some c) g (g.doUnstick c (g.editors.idxOf c)) := by
  rw [doUnstick]
  split
  · next hsticky =>
      rw [h.isSticky_idxOf hc] at hsticky
      have hcount := h.stickyCount_eq
      have hle := h.stickyCount_le
      have hpos : 0 < g.stickyCount := (length_pos_of_mem hsticky).trans_le (length_take_le _ _)
      obtain ⟨t, hm, ht⟩ := moveEditor_moved h hc g.sticky
      have ht := ht (by omega) (by omega)
      have hord := hm.ordered h hc
      have hmsticky := hm.sticky
      rw [if_neg (by omega), if_neg (fun hn => hn.1 hsticky)] at hmsticky
      simp only
      generalize hmoved : g.moveEditor c g.sticky = m at hm hord hmsticky ⊢
      have hlen : m.editors.length = g.editors.length := (hm.perm hc).length_eq
      refine ⟨⟨⟨hord.nodup, hord.mru⟩, hord.preview, hord.transient, ?_, ?_⟩, fun ha => ?_, ?_⟩
      · show -1 ≤ m.sticky - 1
        omega
      · show m.sticky - 1 < m.editors.length
        omega
      · have hactive := hm.active ha hc
        exact ⟨hactive.front, hactive.selection⟩
      · intro e _ _ hne
        have hec : e ≠ c := fun heq => hne (congrArg some heq.symm)
        have hk : stickyCount { m with sticky := m.sticky - 1 } = g.stickyCount - 1 := by
          simp only [stickyCount]
          omega
        rw [stickyEditors, hk, hm.editors, take_insertAt_of_ge c (by omega)
          (by rw [length_erase_of_mem hc]; omega), take_erase_of_mem hsticky hle,
          mem_erase_of_ne hec, stickyEditors]
  · exact ⟨h, id, KeepsSticky.refl _ g⟩

end EditorGroupModel

namespace EditorGroupModel

variable {E : Type} [DecidableEq E] {g g' : EditorGroupModel E} {c : E}

structure Inserted (c : E) (t : Nat) (g g' : EditorGroupModel E) : Prop where
  fresh : c ∉ g.editors
  inside : t ≤ g.editors.length
  editors : g'.editors = insertAt g.editors t c
  mru : g'.mru.Perm (c :: g.mru)
  front : g.mru ≠ [] → g'.mru.head? = g.mru.head?
  selection : g'.selection = g.selection
  preview : ∀ e ∈ g'.preview, e = c ∨ e ∈ g.preview
  transient : ∀ e ∈ g'.transient, e = c ∨ e ∈ g.transient

namespace Inserted

variable {t : Nat} (hi : Inserted c t g g')
include hi

omit [DecidableEq E]

theorem mem_editors {e : E} : e ∈ g'.editors ↔ e = c ∨ e ∈ g.editors := by
  rw [hi.editors, mem_insertAt]

theorem ordered (h : g.Ordered) (hsticky : -1 ≤ g'.sticky ∧ g'.sticky ≤ g.editors.length) :
    g'.Ordered := by
  have hperm : g'.editors.Perm (c :: g.editors) := hi.editors ▸ insertAt_perm _ _ _
  refine ⟨⟨?_, ?_⟩, fun e he => ?_, fun e he => ?_, ?_⟩
  · exact hperm.nodup_iff.mpr (nodup_cons.mpr ⟨hi.fresh, h.nodup⟩)
  · exact hi.mru.trans ((h.mru.cons c).trans hperm.symm)
  · exact hi.mem_editors.mpr ((hi.preview e he).imp_right (h.preview e))
  · exact hi.mem_editors.mpr ((hi.transient e he).imp_right (h.transient e))
  · rw [hperm.length_eq, length_cons]
    omega

theorem keepsSticky (h : g.Ordered)
    (hplace : g'.sticky = g.sticky + 1 ∧ t ≤ g.stickyCount ∨
      g'.sticky = g.sticky ∧ g.stickyCount ≤ t) : KeepsSticky (some c) g g' := by
  intro e he _ _
  have hec : e ≠ c := fun heq => hi.fresh (heq ▸ he)
  have hcount := h.stickyCount_eq
  have hk : g'.stickyCount = (g'.sticky + 1).toNat := rfl
  rw [stickyEditors, hi.editors, stickyEditors]
  rcases hplace with ⟨hsticky, hle⟩ | ⟨hsticky, hle⟩
  · have hk : g'.stickyCount = g.stickyCount + 1 := by omega
    rw [hk, take_insertAt_of_le c hle h.stickyCount_le, mem_insertAt, or_iff_right hec]
  · have hk : g'.stickyCount = g.stickyCount := by omega
    rw [hk, take_insertAt_of_ge c hle hi.inside]

theorem active (h : g.Active) (hmru : g.mru ≠ []) : g'.Active := by
  refine ⟨?_, ?_⟩
  · rw [hi.front hmru, activeEditor, hi.selection]
    exact h.front
  · rw [hi.selection]
    exact fun e he => hi.mem_editors.mpr (Or.inr (h.selection e he))

end Inserted

omit [DecidableEq E] in
theorem spliceIn_inserted (hc : c ∉ g.editors) (index : Int) :
    Inserted c (relativeIndex g.editors.length index) g (g.spliceIn index c) := by
  refine ⟨hc, relativeIndex_le _ _, ?_, ?_, fun hne => ?_, rfl, fun _ he => Or.inr he,
    fun _ he => Or.inr he⟩
  · rfl
  · rw [spliceIn]
    simp only
    split
    · next hnil =>
        rw [eq_nil_of_length_eq_zero hnil]
        exact List.Perm.refl _
    · exact insertAt_perm _ _ _
  · rw [spliceIn]
    simp only
    rw [if_neg (fun hnil => hne (eq_nil_of_length_eq_zero hnil)), arraySplice_insert]
    cases hmru : g.mru with
    | nil => exact absurd hmru hne
    | cons x l =>
      rw [relativeIndex_of_nonneg (by omega), length_cons]
      rfl

def HasActive (g : EditorGroupModel E) : Prop := g.editors ≠ [] → ∃ a ∈ g.editors, g.activeEditor = some a

omit [DecidableEq E] in
theorem afterSticky_spec (h : g.Ordered) {makeSticky : Bool} {t : Int} (ht : 0 ≤ t)
    (htn : t ≤ g.editors.length) :
    (0 ≤ g.afterSticky makeSticky t ∧ g.afterSticky makeSticky t ≤ g.editors.length) ∧
      (makeSticky = false → g.stickyCount ≤ g.afterSticky makeSticky t) := by
  have hcount := h.stickyCount_eq
  have hle := h.stickyCount_le
  rw [afterSticky]
  split
  · exact ⟨⟨by omega, by omega⟩, fun _ => by omega⟩
  · next hn =>
      refine ⟨⟨ht, htn⟩, fun hfalse => ?_⟩
      rw [hfalse, Bool.not_false, Bool.true_and, h.isSticky_iff ht] at hn
      omega

theorem targetIndex_spec (h : g.Ordered) (hactive : g.HasActive) {options : EditorOpenOptions E}
    (hindex : ∀ i ∈ options.index, 0 ≤ i ∧ i ≤ g.editors.length) :
    (0 ≤ g.targetIndex options ∧ g.targetIndex options ≤ g.editors.length) ∧
      (g.makeSticky options = false → g.stickyCount ≤ g.targetIndex options) := by
  have hle := h.stickyCount_le
  have hpos : -1 ≤ indexOf g.activeEditor g.editors ∧
      indexOf g.activeEditor g.editors < g.editors.length ∧
      (g.editors ≠ [] → 0 ≤ indexOf g.activeEditor g.editors) := by
    by_cases hnil : g.editors = []
    · refine ⟨?_, ?_, fun hn => absurd hnil hn⟩ <;>
      · unfold indexOf
        split <;> simp [hnil]
    · obtain ⟨a, ha, hactive⟩ := hactive hnil
      have := idxOf_lt_length_of_mem ha
      rw [hactive, indexOf_of_mem ha]
      omega
  rw [targetIndex]
  split
  · next i hi =>
      refine ⟨hindex i hi, fun hfalse => ?_⟩
      rw [makeSticky, hi, Bool.or_eq_false_iff] at hfalse
      have hn : ¬g.isSticky i = true := by simpa using hfalse.2
      rw [h.isSticky_iff (hindex i hi).1] at hn
      omega
  · split
    · exact afterSticky_spec h (by omega) (by omega)
    · exact ⟨⟨by omega, by omega⟩, fun _ => by omega⟩
    · refine afterSticky_spec h ?_ ?_
      · split
        · omega
        · next hn =>
            rw [not_or] at hn
            exact hpos.2.2 fun hnil => hn.2 (by rw [hnil]; rfl)
      · split <;> omega
    · exact afterSticky_spec h (by omega) (by omega)

def insertSticky (g : EditorGroupModel E) (options : EditorOpenOptions E) : Int :=
  if g.makeSticky options then g.sticky + 1 else g.sticky

def insertIndex (g : EditorGroupModel E) (options : EditorOpenOptions E) : Int :=
  if g.makeSticky options && !isSticky { g with sticky := g.insertSticky options } (g.targetIndex options) then
    g.insertSticky options
  else g.targetIndex options

def replaceIndex (g : EditorGroupModel E) (options : EditorOpenOptions E) (preview : E) : Int :=
  if g.insertIndex options > g.editors.idxOf preview then g.insertIndex options - 1
  else g.insertIndex options

theorem doSetSelection_of_stickiness (active : Option E) (index : Option Int) (inactive : List E)
    (sticky : Int) (transient : List E) :
    doSetSelection { g with sticky := sticky, transient := transient } active index inactive =
      { g.doSetSelection active index inactive with sticky := sticky, transient := transient } := by
  have hactive : activeEditor { g with sticky := sticky, transient := transient } = g.activeEditor := rfl
  simp only [doSetSelection, hactive]
  split
  · split_ifs <;> rfl
  · rfl

theorem deselectClosed_of_stickiness (c : E) (index : Int) (openNext : Bool) (sticky : Int)
    (transient : List E) :
    deselectClosed { g with sticky := sticky, transient := transient } c index openNext =
      { g.deselectClosed c index openNext with sticky := sticky, transient := transient } := by
  have hactive : activeEditor { g with sticky := sticky, transient := transient } = g.activeEditor := rfl
  have hnew : newActiveAfterClose { g with sticky := sticky, transient := transient } index =
      g.newActiveAfterClose index := rfl
  simp only [deselectClosed, hactive, hnew, doSetSelection_of_stickiness]
  split_ifs <;> rfl

theorem doSetTransient_eq (htransient : g'.transient = g.transient) (c : E) (transient : Bool) :
    g'.doSetTransient c transient = { g' with transient := (g.doSetTransient c transient).transient } := by
  simp only [doSetTransient, htransient]
  split_ifs
  · rw [← htransient]
  · rfl
  · rfl

theorem insertEditor_eq (c : E) (options : EditorOpenOptions E) :
    ∃ transient : List E, (∀ e ∈ transient, e = c ∨ e ∈ g.transient) ∧
      g.insertEditor c options =
        if makePinned options then
          spliceIn { g with sticky := g.insertSticky options, transient := transient } (g.insertIndex options) c
        else
          { (match g.preview with
            | none =>
              spliceIn { g with sticky := g.insertSticky options, transient := transient } (g.insertIndex options) c
            | some p =>
              replaceEditor { g with sticky := g.insertSticky options, transient := transient }
                p c (if g.insertIndex options > indexOf (some p) g.editors then
                  g.insertIndex options - 1 else g.insertIndex options)
                !g.makeActive options) with preview := some c } := by
  refine ⟨if options.transient then (g.doSetTransient c true).transient else g.transient,
    fun e he => ?_, ?_⟩
  · split at he
    · exact (mem_transient_doSetTransient he).symm
    · exact Or.inr he
  · have hsticky : (if g.makeSticky options then { g with sticky := g.sticky + 1 } else g) =
        { g with sticky := g.insertSticky options } := by
      rw [insertSticky]
      split <;> rfl
    have htransient : ∀ g' : EditorGroupModel E, g'.transient = g.transient →
        (if options.transient then g'.doSetTransient c true else g') =
          { g' with transient :=
            if options.transient then (g.doSetTransient c true).transient else g.transient } := by
      intro g' hg'
      split
      · exact doSetTransient_eq hg' c true
      · rw [← hg']
    simp only [insertEditor, hsticky]
    by_cases hpinned : makePinned options
    · simp only [hpinned, Bool.true_or, if_true]
      rw [htransient]
      · rfl
      · rfl
    · rw [Bool.not_eq_true] at hpinned
      simp only [hpinned, Bool.false_or, Bool.false_eq_true, if_false]
      cases hp : g.preview with
      | none =>
        simp only [Option.isSome_none, Bool.not_false, if_true]
        rw [htransient]
        · simp only [replacePreview, spliceIn]
          rfl
        · rfl
      | some p =>
        simp only [Option.isSome_some, Bool.not_true, Bool.false_eq_true, if_false]
        rw [htransient]
        · simp only [replacePreview]
          rfl
        · rfl

theorem insertEditor_inserted (hc : c ∉ g.editors) {options : EditorOpenOptions E}
    (hkept : makePinned options = true ∨ g.preview = none) :
    Inserted c (relativeIndex g.editors.length (g.insertIndex options)) g (g.insertEditor c options) ∧
      (g.insertEditor c options).sticky = g.insertSticky options := by
  obtain ⟨transient, htransient, heq⟩ := g.insertEditor_eq c options
  have hi := spliceIn_inserted
    (g := { g with sticky := g.insertSticky options, transient := transient }) hc
    (g.insertIndex options)
  rw [heq]
  split
  · exact ⟨⟨hc, hi.inside, hi.editors, hi.mru, hi.front, rfl, fun e he => Or.inr he, htransient⟩, rfl⟩
  · next hpinned =>
      rw [hkept.resolve_left hpinned]
      refine ⟨⟨hc, hi.inside, hi.editors, hi.mru, hi.front, rfl, fun e he => ?_, htransient⟩, rfl⟩
      exact Or.inl (Option.some.inj he).symm

theorem insertEditor_replaced (h : g.Ordered) (hc : c ∉ g.editors) {options : EditorOpenOptions E}
    {p : E} (hpinned : makePinned options = false) (hp : g.preview = some p) :
    Inserted c (relativeIndex (g.editors.length - 1) (g.replaceIndex options p))
        (g.doCloseEditor p !g.makeActive options) (g.insertEditor c options) ∧
      (g.insertEditor c options).sticky =
        if isSticky { g with sticky := g.insertSticky options } (g.editors.idxOf p) then
          g.insertSticky options - 1
        else g.insertSticky options := by
  obtain ⟨transient, htransient, heq⟩ := g.insertEditor_eq c options
  have hopen := h.preview p hp
  obtain ⟨heditors, hmru, hselection, hpreview, htrans, hsticky⟩ :=
    doCloseEditor_fields h.toArranged hopen !g.makeActive options
  let g₁ : EditorGroupModel E := { g with sticky := g.insertSticky options, transient := transient }
  obtain ⟨heditors₁, hmru₁, hselection₁, hpreview₁, htrans₁, hsticky₁⟩ :=
    doCloseEditor_fields (g := g₁) ⟨h.nodup, h.mru⟩ hopen !g.makeActive options
  have hdeselect : g₁.deselectClosed p (g₁.editors.idxOf p) (!g.makeActive options) = _ :=
    deselectClosed_of_stickiness p _ _ _ _
  rw [hdeselect] at hmru₁ hselection₁
  have hfresh : c ∉ (g₁.doCloseEditor p !g.makeActive options).editors := by
    rw [heditors₁]
    exact fun hmem => hc (mem_of_mem_erase hmem)
  have hi := spliceIn_inserted hfresh (g.replaceIndex options p)
  have hmru' := hmru₁.trans hmru.symm
  have hselection' := hselection₁.trans hselection.symm
  have heditors' := heditors₁.trans heditors.symm
  have hlen := length_erase_of_mem hopen
  have hresult : g.insertEditor c options =
      { (g₁.doCloseEditor p !g.makeActive options).spliceIn (g.replaceIndex options p) c with
        preview := some c } := by
    have hindex : g.replaceIndex options p =
        if g.insertIndex options > indexOf (some p) g.editors then g.insertIndex options - 1
        else g.insertIndex options := by
      rw [indexOf_of_mem hopen]
      rfl
    rw [heq, if_neg (by simp [hpinned]), hindex]
    split
    · next hnone => cases hp.symm.trans hnone
    · next q hq =>
        obtain rfl := Option.some.inj (hp.symm.trans hq)
        rfl
  rw [hresult]
  refine ⟨⟨heditors' ▸ hfresh, ?_, ?_, ?_, ?_, ?_, fun e he => ?_, fun e he => ?_⟩, hsticky₁⟩
  · rw [heditors, hlen]
    exact relativeIndex_le _ _
  · refine hi.editors.trans ?_
    rw [heditors₁, heditors, hlen]
  · exact hmru' ▸ hi.mru
  · exact hmru' ▸ hi.front
  · exact hi.selection.trans hselection'
  · exact Or.inl (Option.some.inj he).symm
  · rcases hi.transient e he with rfl | he
    · exact Or.inl rfl
    · rw [htrans₁] at he
      obtain ⟨he, hne⟩ := mem_filter.mp he
      refine (htransient e he).imp_right fun he => ?_
      rw [htrans]
      exact mem_filter.mpr ⟨he, hne⟩

end EditorGroupModel

end Gavea.EditorGroup
