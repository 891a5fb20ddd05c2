import Gavea.EditorGroup.Opening
import Gavea.Lib.Runs

namespace Gavea.EditorGroup

open Lib.Js Lib.FrontPart Lib.Runs List

namespace EditorGroupModel

variable {E : Type} [DecidableEq E] {g : EditorGroupModel E} {c : E} {options : EditorOpenOptions E}

omit [DecidableEq E] in
theorem isSticky_natCast {i : Nat} : g.isSticky i = true ↔ (i : Int) ≤ g.sticky := by
  rw [isSticky]
  split
  · simp only [Bool.false_eq_true, false_iff]
    omega
  · rw [if_neg (by omega), decide_eq_true_iff]

omit [DecidableEq E] in
theorem insertSticky_cases (g : EditorGroupModel E) (options : EditorOpenOptions E) :
    g.makeSticky options = true ∧ g.insertSticky options = g.sticky + 1 ∨
      g.makeSticky options = false ∧ g.insertSticky options = g.sticky := by
  rw [insertSticky]
  cases g.makeSticky options
  · exact Or.inr ⟨rfl, rfl⟩
  · exact Or.inl ⟨rfl, rfl⟩

theorem Ordered.insertEditor (h : g.Ordered) (hc : c ∉ g.editors) (options : EditorOpenOptions E) :
    (g.insertEditor c options).Ordered := by
  have hbounds := h.sticky
  have hcases := g.insertSticky_cases options
  by_cases hkept : makePinned options = true ∨ g.preview = none
  · obtain ⟨hi, hsticky⟩ := insertEditor_inserted hc hkept
    refine hi.ordered h ?_
    rw [hsticky]
    rcases hcases with ⟨-, hs⟩ | ⟨-, hs⟩ <;> omega
  · obtain ⟨hpinned, hpreview⟩ := not_or.mp hkept
    obtain ⟨p, hp⟩ := Option.ne_none_iff_exists'.mp hpreview
    obtain ⟨hi, hsticky⟩ := insertEditor_replaced h hc (Bool.not_eq_true _ ▸ hpinned) hp
    refine hi.ordered (h.doCloseEditor p _) ?_
    have hidx := idxOf_lt_length_of_mem (h.preview p hp)
    rw [(doCloseEditor_fields h.toArranged (h.preview p hp) _).1, length_erase_of_mem (h.preview p hp), hsticky]
    split
    · next hs =>
        rw [isSticky_natCast] at hs
        dsimp only at hs
        rcases hcases with ⟨-, hs'⟩ | ⟨-, hs'⟩ <;> omega
    · next hs =>
        rw [isSticky_natCast] at hs
        dsimp only at hs
        rcases hcases with ⟨-, hs'⟩ | ⟨-, hs'⟩ <;> omega

def ClosesBehindSticky (g : EditorGroupModel E) (options : EditorOpenOptions E) : Prop :=
  g.makeSticky options = true ∧ makePinned options = false ∧ ∃ p ∈ g.preview, (g.editors.idxOf p : Int) = g.sticky + 1

def SelectsClosed (g : EditorGroupModel E) (c : E) (options : EditorOpenOptions E) : Prop :=
  (g.activeEditor = none ∨ makePinned options = false ∧ g.preview = g.activeEditor) ∧
    ∃ e ∈ options.inactiveSelection, e ≠ c ∧ (e ∉ g.editors ∨ makePinned options = false ∧ g.preview = some e)

theorem insertIndex_spec (h : g.Ordered) (hactive : g.HasActive)
    (hindex : ∀ i ∈ options.index, 0 ≤ i ∧ i ≤ g.editors.length) :
    (0 ≤ g.insertIndex options ∧ g.insertIndex options ≤ g.editors.length) ∧
      (g.makeSticky options = true → g.insertIndex options ≤ g.stickyCount) ∧
      (g.makeSticky options = false → g.stickyCount ≤ g.insertIndex options) := by
  obtain ⟨hbounds, hbehind⟩ := targetIndex_spec h hactive hindex
  have hcount := h.stickyCount_eq
  have hle := h.stickyCount_le
  obtain ⟨n, hn⟩ : ∃ n : Nat, g.targetIndex options = n := ⟨(g.targetIndex options).toNat, by omega⟩
  rw [insertIndex]
  rcases g.insertSticky_cases options with ⟨hm, hs⟩ | ⟨hm, hs⟩
  · rw [hm, hs, Bool.true_and, hn]
    split
    · exact ⟨⟨by omega, by omega⟩, fun _ => by omega, Bool.noConfusion⟩
    · next hin =>
        rw [Bool.not_eq_true', Bool.not_eq_false, isSticky_natCast] at hin
        dsimp only at hin
        exact ⟨⟨by omega, by omega⟩, fun _ => by omega, Bool.noConfusion⟩
  · rw [hm, Bool.false_and, if_neg Bool.false_ne_true]
    exact ⟨hbounds, Bool.noConfusion, fun _ => hbehind hm⟩

omit [DecidableEq E] in
theorem relativeIndex_of_between {n : Nat} {i : Int} (h0 : 0 ≤ i) (hn : i ≤ n) :
    (relativeIndex n i : Int) = i := by
  rw [relativeIndex_of_nonneg h0]
  omega

theorem keepsSticky_insertEditor (h : g.Ordered) (hactive : g.HasActive) (hc : c ∉ g.editors)
    (hindex : ∀ i ∈ options.index, 0 ≤ i ∧ i ≤ g.editors.length)
    (hsafe : ¬g.ClosesBehindSticky options) : KeepsSticky (some c) g (g.insertEditor c options) := by
  obtain ⟨hbounds, hfront, hbehind⟩ := insertIndex_spec h hactive hindex
  have hcount := h.stickyCount_eq
  have hle := h.stickyCount_le
  by_cases hkept : makePinned options = true ∨ g.preview = none
  · obtain ⟨hi, hsticky⟩ := insertEditor_inserted hc hkept
    have ht := relativeIndex_of_between hbounds.1 hbounds.2
    refine hi.keepsSticky h ?_
    rcases g.insertSticky_cases options with ⟨hm, hs⟩ | ⟨hm, hs⟩
    · have := hfront hm
      exact Or.inl ⟨hsticky.trans hs, by omega⟩
    · have := hbehind hm
      exact Or.inr ⟨hsticky.trans hs, by omega⟩
  · obtain ⟨hpinned, hpreview⟩ := not_or.mp hkept
    rw [Bool.not_eq_true] at hpinned
    obtain ⟨p, hp⟩ := Option.ne_none_iff_exists'.mp hpreview
    have hopen := h.preview p hp
    obtain ⟨hi, hsticky⟩ := insertEditor_replaced h hc hpinned hp
    have hmid := h.doCloseEditor p !g.makeActive options
    obtain ⟨heditors, -, -, -, -, hmsticky⟩ := doCloseEditor_fields h.toArranged hopen !g.makeActive options
    have hmcount := hmid.stickyCount_eq
    have hidx := idxOf_lt_length_of_mem hopen
    simp only [isSticky_natCast] at hsticky hmsticky
    have hplace : 0 ≤ g.replaceIndex options p ∧
        g.replaceIndex options p ≤ (g.editors.length - 1 : Nat) := by
      rw [replaceIndex]
      split <;> omega
    have ht := relativeIndex_of_between hplace.1 hplace.2
    have hreplace : g.replaceIndex options p =
        if g.insertIndex options > g.editors.idxOf p then g.insertIndex options - 1
        else g.insertIndex options := rfl
    refine ((keepsSticky_doCloseEditor h p _).of_none _).trans (hi.keepsSticky hmid ?_) ?_
    · rcases g.insertSticky_cases options with ⟨hm, hs⟩ | ⟨hm, hs⟩
      · have hle := hfront hm
        have hne : (g.editors.idxOf p : Int) ≠ g.sticky + 1 := fun heq => hsafe ⟨hm, hpinned, p, hp, heq⟩
        rw [hs] at hsticky
        left
        split_ifs at hsticky hmsticky hreplace <;> omega
      · have hge := hbehind hm
        rw [hs] at hsticky
        right
        split_ifs at hsticky hmsticky hreplace <;> omega
    · intro e he he'
      exact (hi.mem_editors.mp he').resolve_left fun heq => hc (heq ▸ he)

theorem active_insertEditor (h : g.Ordered) (ha : g.Active) (hactive : g.HasActive)
    (hc : c ∉ g.editors) (hsafe : ¬g.SelectsClosed c options) :
    ((g.insertEditor c options).setSelection
      (if g.makeActive options then some c else (g.insertEditor c options).activeEditor)
      options.inactiveSelection).Active := by
  by_cases hset : g.activeEditor = none ∨ makePinned options = false ∧ g.preview = g.activeEditor
  · have hopen : ∀ e ∈ options.inactiveSelection, e ≠ c →
        e ∈ g.editors ∧ ¬(makePinned options = false ∧ g.preview = some e) := by
      intro e he hne
      have := not_and.mp hsafe hset
      push Not at this
      exact ⟨(this e he hne).1, fun hp => (this e he hne).2 hp.1 hp.2⟩
    have hmake : g.makeActive options = true := by
      rw [makeActive]
      rcases hset with hnone | ⟨hpinned, hpreview⟩
      · simp [hnone]
      · simp [hpinned, hpreview]
    have hnew : ∀ a, g.activeEditor = some a → a ≠ c := by
      intro a hactive heq
      exact hc (heq ▸ ha.selection a (mem_of_mem_head? hactive))
    rw [hmake, if_pos rfl]
    by_cases hkept : makePinned options = true ∨ g.preview = none
    · obtain ⟨hi, -⟩ := insertEditor_inserted hc hkept
      refine Active.setSelection_of_mem (hi.mem_editors.mpr (Or.inl rfl)) (fun e he => ?_) ?_
      · by_cases hne : e = c
        · exact hi.mem_editors.mpr (Or.inl hne)
        · exact hi.mem_editors.mpr (Or.inr (hopen e he hne).1)
      · rw [activeEditor, hi.selection]
        exact fun heq => hnew c heq rfl
    · obtain ⟨hpinned, hpreview⟩ := not_or.mp hkept
      rw [Bool.not_eq_true] at hpinned
      obtain ⟨p, hp⟩ := Option.ne_none_iff_exists'.mp hpreview
      have hmem := h.preview p hp
      have hpactive : g.activeEditor = some p := by
        rcases hset with hnone | ⟨-, hsame⟩
        · obtain ⟨a, -, hsome⟩ := hactive (ne_nil_of_mem hmem)
          cases hnone.symm.trans hsome
        · exact hsame.symm.trans hp
      obtain ⟨hi, -⟩ := insertEditor_replaced h hc hpinned hp
      obtain ⟨heditors, -, hselection, -⟩ := doCloseEditor_fields h.toArranged hmem !g.makeActive options
      refine Active.setSelection_of_mem (hi.mem_editors.mpr (Or.inl rfl)) (fun e he => ?_) ?_
      · by_cases hne : e = c
        · exact hi.mem_editors.mpr (Or.inl hne)
        · refine hi.mem_editors.mpr (Or.inr ?_)
          rw [heditors]
          refine (mem_erase_of_ne fun heq => ?_).mpr (hopen e he hne).1
          exact (hopen e he hne).2 ⟨hpinned, heq ▸ hp⟩
      · -- the selection is left alone, for the active editor is not to be followed by another
        have hsame : g.deselectClosed p (g.editors.idxOf p) (!g.makeActive options) = g := by
          simp only [deselectClosed, hmake, hpactive, Bool.not_true, Bool.false_and,
            Bool.false_eq_true, if_false, ne_eq, not_true_eq_false]
        rw [activeEditor, hi.selection, hselection, hsame]
        exact fun heq => hnew c heq rfl
  · obtain ⟨hsome, hnotPreview⟩ := not_or.mp hset
    obtain ⟨a, hactive⟩ := Option.ne_none_iff_exists'.mp hsome
    have hmem := ha.selection a (mem_of_mem_head? hactive)
    refine Active.setSelection ?_ _ _
    by_cases hkept : makePinned options = true ∨ g.preview = none
    · obtain ⟨hi, -⟩ := insertEditor_inserted hc hkept
      exact hi.active ha (ne_nil_of_mem (h.mru.mem_iff.mpr hmem))
    · obtain ⟨hpinned, hpreview⟩ := not_or.mp hkept
      rw [Bool.not_eq_true] at hpinned
      obtain ⟨p, hp⟩ := Option.ne_none_iff_exists'.mp hpreview
      have hne : g.activeEditor ≠ some p := fun heq => hnotPreview ⟨hpinned, hp.trans heq.symm⟩
      obtain ⟨hi, -⟩ := insertEditor_replaced h hc hpinned hp
      have hmid := doCloseEditor_arranged h.toArranged (h.preview p hp) !g.makeActive options
      refine hi.active (ha.doCloseEditor h.toArranged (Or.inr hne)) ?_
      have hstays : a ∈ (g.doCloseEditor p !g.makeActive options).editors := by
        rw [(doCloseEditor_fields h.toArranged (h.preview p hp) _).1]
        exact (mem_erase_of_ne fun heq : a = p => hne (heq ▸ hactive)).mpr hmem
      exact ne_nil_of_mem (hmid.mru.mem_iff.mpr hstays)

theorem Ordered.setSelection (h : g.Ordered) (active : Option E) (inactive : List E) :
    (g.setSelection active inactive).Ordered := by
  obtain ⟨heditors, hpreview, htransient, hsticky⟩ := g.setSelection_frame active inactive
  refine ⟨⟨?_, ?_⟩, ?_, ?_, ?_⟩
  · rw [heditors]
    exact h.nodup
  · rw [heditors]
    exact (perm_mru_setSelection active inactive h.mru).trans h.mru
  · rw [heditors, hpreview]
    exact h.preview
  · rw [heditors, htransient]
    exact h.transient
  · rw [heditors, hsticky]
    exact h.sticky

theorem keepsSticky_setSelection (target active : Option E) (inactive : List E) :
    KeepsSticky target g (g.setSelection active inactive) := by
  obtain ⟨heditors, -, -, hsticky⟩ := g.setSelection_frame active inactive
  exact KeepsSticky.of_eq target heditors hsticky

theorem openExisting_spec (h : g.Ordered) (hc : c ∈ g.editors) (options : EditorOpenOptions E) :
    (g.openExisting c options).Ordered ∧ (g.Active → (g.openExisting c options).Active) ∧
      KeepsSticky (some c) g (g.openExisting c options) := by
  have h₁ := h.doSetTransient hc (options.transient && g.isTransient c)
  have hm₁ := doSetTransient_marked (g := g) c (options.transient && g.isTransient c)
  simp only [openExisting]
  generalize g.doSetTransient c (options.transient && g.isTransient c) = g₁ at h₁ hm₁ ⊢
  have h₂ : (if makePinned options then g₁.doPin c else g₁).Ordered := by
    split
    · exact h₁.doPin c
    · exact h₁
  have hm₂ : Marked g (if makePinned options then g₁.doPin c else g₁) := by
    split
    · exact hm₁.trans (doPin_marked c)
    · exact hm₁
  generalize (if makePinned options then g₁.doPin c else g₁) = g₂ at h₂ hm₂ ⊢
  have h₃ := h₂.setSelection (if g.makeActive options then some c else g₂.activeEditor) options.inactiveSelection
  have ha₃ : g.Active → (g₂.setSelection (if g.makeActive options then some c else g₂.activeEditor)
      options.inactiveSelection).Active := fun ha => (hm₂.active ha).setSelection _ _
  have hk₃ : KeepsSticky (some c) g (g₂.setSelection
      (if g.makeActive options then some c else g₂.activeEditor) options.inactiveSelection) :=
    (hm₂.keepsSticky _).trans (keepsSticky_setSelection _ _ _) fun e he _ => hm₂.editors ▸ he
  have he₃ : (g₂.setSelection (if g.makeActive options then some c else g₂.activeEditor)
      options.inactiveSelection).editors = g.editors :=
    (g₂.setSelection_frame _ _).1.trans hm₂.editors
  generalize (g₂.setSelection (if g.makeActive options then some c else g₂.activeEditor)
    options.inactiveSelection) = g₃ at h₃ ha₃ hk₃ he₃ ⊢
  have hc₃ : c ∈ g₃.editors := he₃ ▸ hc
  have hlast : ∀ g₄ : EditorGroupModel E, g₄.Ordered → (g.Active → g₄.Active) →
      KeepsSticky (some c) g g₄ → (∀ e, e ∈ g₄.editors ↔ e ∈ g.editors) →
      ∀ g₅, g₅ = (if g.makeSticky options then g₄.doStick c (indexOf (some c) g₄.editors) else g₄) →
        g₅.Ordered ∧ (g.Active → g₅.Active) ∧ KeepsSticky (some c) g g₅ := by
    rintro g₄ h₄ ha₄ hk₄ hmem g₅ rfl
    split
    · have hc₄ := (hmem c).mpr hc
      rw [indexOf_of_mem hc₄]
      obtain ⟨h₅, ha₅, hk₅⟩ := doStick_spec h₄ hc₄
      exact ⟨h₅, fun ha => ha₅ (ha₄ ha), hk₄.trans hk₅ fun e he _ => (hmem e).mpr he⟩
    · exact ⟨h₄, ha₄, hk₄⟩
  cases options.index with
  | none => exact hlast g₃ h₃ ha₃ hk₃ (fun e => by rw [he₃]) _ rfl
  | some i =>
    obtain ⟨t, hm, -⟩ := moveEditor_moved h₃ hc₃ i
    refine hlast (g₃.moveEditor c i) (hm.ordered h₃ hc₃) (fun ha => hm.active (ha₃ ha) hc₃)
      (hk₃.trans (hm.keepsSticky h₃ hc₃) fun e he _ => he₃ ▸ he) (fun e => ?_) _ rfl
    rw [(hm.perm hc₃).mem_iff, he₃]

theorem mem_of_findEditor {kinds : EditorKinds E} {support : Option SideBySideEditor} {e : E}
    {i : Int} (h : g.findEditor kinds c support = some (e, i)) : e ∈ g.editors := by
  rw [findEditor] at h
  split at h
  · next hc =>
      obtain ⟨rfl, -⟩ := Prod.mk.inj (Option.some.inj h)
      exact hc
  · split at h
    · next editor hfind =>
        obtain ⟨rfl, -⟩ := Prod.mk.inj (Option.some.inj h)
        exact mem_reverse.mp (mem_of_find?_eq_some hfind)
    · cases h

theorem notMem_of_findEditor {kinds : EditorKinds E} {support : Option SideBySideEditor}
    (h : g.findEditor kinds c support = none) : c ∉ g.editors := by
  intro hc
  rw [findEditor, if_pos hc] at h
  cases h

end EditorGroupModel

inductive Operation (E : Type)
  | openEditor (candidate : E) (options : EditorOpenOptions E)
  | closeEditor (candidate : E)
  | moveEditor (candidate : E) (toIndex : Int)
  | setActive (candidate : Option E)
  | setSelection (active : Option E) (inactive : List E)
  | pin (candidate : E)
  | unpin (candidate : E)
  | stick (candidate : E)
  | unstick (candidate : E)
  | setTransient (candidate : E) (transient : Bool)
  | configure (editorOpenPositioning : Option EditorOpenPositioning) (focusRecentEditorAfterClose : Bool)

namespace EditorGroupModel

variable {E : Type} [DecidableEq E]

def apply (kinds : EditorKinds E) (g : EditorGroupModel E) : Operation E → EditorGroupModel E
  | .openEditor candidate options => g.openEditor kinds candidate options
  | .closeEditor candidate => g.closeEditor candidate
  | .moveEditor candidate toIndex => g.moveEditor candidate toIndex
  | .setActive candidate => g.setActive candidate
  | .setSelection active inactive => g.setSelection active inactive
  | .pin candidate => g.pin candidate
  | .unpin candidate => g.unpin candidate
  | .stick candidate => g.stick candidate
  | .unstick candidate => g.unstick candidate
  | .setTransient candidate transient => g.setTransient candidate transient
  | .configure positioning focusRecent =>
    { g with editorOpenPositioning := positioning, focusRecentEditorAfterClose := focusRecent }

def target (kinds : EditorKinds E) (g : EditorGroupModel E) : Operation E → Option E
  | .openEditor candidate options =>
    ((g.findEditor kinds candidate options.supportSideBySide).map Prod.fst).or (some candidate)
  | .moveEditor candidate _ => some candidate
  | .stick candidate => some candidate
  | .unstick candidate => some candidate
  | _ => none

def step (kinds : EditorKinds E) (g : EditorGroupModel E) (op : Operation E) :
    Option (EditorGroupModel E) := some (g.apply kinds op)

def Within (g : EditorGroupModel E) : Operation E → Prop
  | .openEditor _ options => ∀ i ∈ options.index, 0 ≤ i ∧ i ≤ g.editors.length
  | _ => True

def Safe (kinds : EditorKinds E) (g : EditorGroupModel E) : Operation E → Prop
  | .openEditor candidate options =>
    g.findEditor kinds candidate options.supportSideBySide = none →
      ¬g.ClosesBehindSticky options ∧ ¬g.SelectsClosed candidate options
  | _ => True

structure Consistent (g : EditorGroupModel E) : Prop extends Ordered g, Active g where
  exists_active : g.editors ≠ [] → ∃ e ∈ g.editors, g.activeEditor = some e

omit [DecidableEq E] in
theorem Consistent.of_active {g : EditorGroupModel E} (h : g.Ordered) (ha : g.Active) :
    g.Consistent := by
  refine ⟨h, ha, fun hne => ?_⟩
  obtain ⟨a, hfront⟩ : ∃ a, g.mru.head? = some a := by
    rw [← Option.isSome_iff_exists, isSome_head?]
    exact fun hnil => hne (List.Perm.eq_nil (hnil ▸ h.mru).symm)
  exact ⟨a, h.mru.mem_iff.mp (mem_of_mem_head? hfront), ha.front.symm.trans hfront⟩

theorem apply_spec (kinds : EditorKinds E) {g : EditorGroupModel E} (h : g.Ordered)
    (op : Operation E)
    (hop : ∀ c options, op = .openEditor c options → g.findEditor kinds c options.supportSideBySide ≠ none) :
    (g.apply kinds op).Ordered ∧ (g.Active → (g.apply kinds op).Active) ∧
      KeepsSticky (g.target kinds op) g (g.apply kinds op) := by
  have hsame : ∀ target : Option E, g.Ordered ∧ (g.Active → g.Active) ∧ KeepsSticky target g g :=
    fun target => ⟨h, id, KeepsSticky.refl target g⟩
  have hmarked : ∀ {g' : EditorGroupModel E} (target : Option E), Marked g g' → g'.Ordered →
      g'.Ordered ∧ (g.Active → g'.Active) ∧ KeepsSticky target g g' :=
    fun target hm h' => ⟨h', hm.active, hm.keepsSticky target⟩
  cases op with
  | openEditor c options =>
    obtain ⟨⟨e, i⟩, hfind⟩ := Option.ne_none_iff_exists'.mp (hop c options rfl)
    simp only [apply, openEditor, target, hfind]
    exact openExisting_spec h (mem_of_findEditor hfind) options
  | closeEditor c =>
    exact ⟨h.doCloseEditor c true, fun ha => ha.doCloseEditor h.toArranged (Or.inl rfl),
      keepsSticky_doCloseEditor h c true⟩
  | moveEditor c toIndex =>
    by_cases hc : c ∈ g.editors
    · obtain ⟨t, hm, -⟩ := moveEditor_moved h hc toIndex
      exact ⟨hm.ordered h hc, fun ha => hm.active ha hc, hm.keepsSticky h hc⟩
    · have hnot : g.moveEditor c toIndex = g := by
        simp only [moveEditor, indexOf, if_neg hc]
        rw [if_pos (Or.inl (by omega))]
      simp only [apply, hnot]
      exact hsame _
  | setActive candidate =>
    cases candidate with
    | none => exact hsame none
    | some c =>
      simp only [apply, setActive]
      split
      · next hc =>
          have heq : g.doSetSelection (some c) (some (g.editors.idxOf c)) [] =
              g.setSelection (some c) [] := by
            simp only [EditorGroupModel.setSelection, if_pos hc, inactiveSelected]
          rw [heq]
          exact ⟨h.setSelection _ _, fun ha => ha.setSelection _ _, keepsSticky_setSelection _ _ _⟩
      · exact hsame _
  | setSelection active inactive =>
    exact ⟨h.setSelection _ _, fun ha => ha.setSelection _ _, keepsSticky_setSelection _ _ _⟩
  | pin c => exact hmarked none (pin_marked c) (h.pin c)
  | unpin c =>
    rcases unpin_cases h c with heq | ⟨p, hm, hp, heq | ⟨old, heq⟩⟩
    · simp only [apply, heq]
      exact hsame _
    · simp only [apply, heq]
      exact hmarked none hm hp
    · simp only [apply, heq]
      refine ⟨hp.doCloseEditor old true, fun ha => (hm.active ha).doCloseEditor hp.toArranged (Or.inl rfl), ?_⟩
      exact (hm.keepsSticky none).trans (keepsSticky_doCloseEditor hp old true) fun e he _ => hm.editors ▸ he
  | stick c =>
    simp only [apply, stick]
    split
    · next hc => exact doStick_spec h hc
    · exact hsame _
  | unstick c =>
    simp only [apply, unstick]
    split
    · next hc => exact doUnstick_spec h hc
    · exact hsame _
  | setTransient c transient => exact hmarked none (setTransient_marked c transient) (h.setTransient c transient)
  | configure positioning focusRecent =>
    exact hmarked none ⟨rfl, rfl, rfl, rfl⟩ (Marked.ordered (g := g) ⟨rfl, rfl, rfl, rfl⟩ h h.preview h.transient)

theorem openEditor_new {kinds : EditorKinds E} {g : EditorGroupModel E} {c : E}
    {options : EditorOpenOptions E}
    (hfind : g.findEditor kinds c options.supportSideBySide = none) :
    g.openEditor kinds c options = (g.insertEditor c options).setSelection
      (if g.makeActive options then some c else (g.insertEditor c options).activeEditor)
      options.inactiveSelection := by
  rw [openEditor, hfind]

theorem Ordered.apply (kinds : EditorKinds E) {g : EditorGroupModel E} (h : g.Ordered)
    (op : Operation E) : (g.apply kinds op).Ordered := by
  by_cases hop : ∀ c options, op = .openEditor c options →
      g.findEditor kinds c options.supportSideBySide ≠ none
  · exact (apply_spec kinds h op hop).1
  · push Not at hop
    obtain ⟨c, options, rfl, hfind⟩ := hop
    simp only [EditorGroupModel.apply, openEditor_new hfind]
    exact (h.insertEditor (notMem_of_findEditor hfind) options).setSelection _ _

theorem setSelection_of_closed {g : EditorGroupModel E} {active e : E} {inactive : List E}
    (he : e ∈ inactive) (hclosed : e ∉ g.editors) : g.setSelection (some active) inactive = g := by
  have hnone : g.inactiveSelected active inactive = none := by
    induction inactive with
    | nil => cases he
    | cons x inactive ih =>
      rw [inactiveSelected]
      split
      · next hx =>
          have hmem := (mem_cons.mp he).resolve_left fun heq => hclosed (heq ▸ hx)
          rw [ih hmem, Option.map_none]
      · rfl
  simp only [EditorGroupModel.setSelection, hnone, ite_self]

theorem mem_insertEditor {g : EditorGroupModel E} (h : g.Ordered) {c : E} (hc : c ∉ g.editors)
    {options : EditorOpenOptions E} {e : E} (he : e ∈ (g.insertEditor c options).editors) :
    e = c ∨ e ∈ g.editors ∧ ¬(makePinned options = false ∧ g.preview = some e) := by
  by_cases hkept : makePinned options = true ∨ g.preview = none
  · refine ((insertEditor_inserted hc hkept).1.mem_editors.mp he).imp_right fun hmem => ⟨hmem, ?_⟩
    rintro ⟨hpinned, hp⟩
    rcases hkept with hkept | hkept
    · exact absurd (hkept.symm.trans hpinned) (by decide)
    · exact nomatch hkept.symm.trans hp
  · obtain ⟨hpinned, hpreview⟩ := not_or.mp hkept
    rw [Bool.not_eq_true] at hpinned
    obtain ⟨p, hp⟩ := Option.ne_none_iff_exists'.mp hpreview
    refine ((insertEditor_replaced h hc hpinned hp).1.mem_editors.mp he).imp_right fun hmem => ?_
    rw [(doCloseEditor_fields h.toArranged (h.preview p hp) _).1] at hmem
    refine ⟨mem_of_mem_erase hmem, fun hsame => ?_⟩
    obtain rfl := Option.some.inj (hp.symm.trans hsame.2)
    exact h.nodup.not_mem_erase hmem

theorem not_consistent_of_selectsClosed {g : EditorGroupModel E} (h : g.Consistent) {c : E}
    (hc : c ∉ g.editors) {options : EditorOpenOptions E} (hselects : g.SelectsClosed c options) :
    ¬((g.insertEditor c options).setSelection
      (if g.makeActive options then some c else (g.insertEditor c options).activeEditor)
      options.inactiveSelection).Consistent := by
  obtain ⟨hset, e, he, hne, hclosed⟩ := hselects
  have hgone : e ∉ (g.insertEditor c options).editors := by
    intro hmem
    obtain ⟨hopen, hstays⟩ := (mem_insertEditor h.toOrdered hc hmem).resolve_left hne
    exact hclosed.elim (fun hn => hn hopen) hstays
  have hmake : g.makeActive options = true := by
    rw [makeActive]
    rcases hset with hnone | ⟨hpinned, hpreview⟩
    · simp [hnone]
    · simp [hpinned, hpreview]
  rw [hmake, if_pos rfl, setSelection_of_closed he hgone]
  intro hnew
  by_cases hkept : makePinned options = true ∨ g.preview = none
  · obtain ⟨hi, -⟩ := insertEditor_inserted hc hkept
    have hnone : g.activeEditor = none := by
      rcases hset with hnone | ⟨hpinned, hpreview⟩
      · exact hnone
      · rw [← hpreview]
        exact hkept.resolve_left (by simp [hpinned])
    obtain ⟨a, -, ha⟩ := hnew.exists_active (ne_nil_of_mem (hi.mem_editors.mpr (Or.inl rfl)))
    rw [activeEditor, hi.selection] at ha
    cases hnone.symm.trans ha
  · obtain ⟨hpinned, hpreview⟩ := not_or.mp hkept
    rw [Bool.not_eq_true] at hpinned
    obtain ⟨p, hp⟩ := Option.ne_none_iff_exists'.mp hpreview
    have hmem := h.preview p hp
    have hpactive : g.activeEditor = some p := by
      rcases hset with hnone | ⟨-, hsame⟩
      · obtain ⟨a, -, hsome⟩ := h.exists_active (ne_nil_of_mem hmem)
        cases hnone.symm.trans hsome
      · exact hsame.symm.trans hp
    obtain ⟨hi, -⟩ := insertEditor_replaced h.toOrdered hc hpinned hp
    obtain ⟨heditors, -, hselection, -⟩ := doCloseEditor_fields h.toArranged hmem !g.makeActive options
    have hsame : g.deselectClosed p (g.editors.idxOf p) (!g.makeActive options) = g := by
      simp only [deselectClosed, hmake, hpactive, Bool.not_true, Bool.false_and,
        Bool.false_eq_true, if_false, ne_eq, not_true_eq_false]
    have hselected : p ∈ (g.insertEditor c options).selection := by
      rw [hi.selection, hselection, hsame]
      exact mem_of_mem_head? hpactive
    rcases mem_insertEditor h.toOrdered hc (hnew.selection p hselected) with rfl | ⟨-, hstays⟩
    · exact hc hmem
    · exact hstays ⟨hpinned, hp⟩

theorem not_keepsSticky_of_closesBehindSticky {g : EditorGroupModel E} (h : g.Ordered) {c : E}
    (hc : c ∉ g.editors) {options : EditorOpenOptions E} (hcloses : g.ClosesBehindSticky options) :
    ¬KeepsSticky (some c) g (g.insertEditor c options) := by
  obtain ⟨hm, hpinned, p, hp, hidx⟩ := hcloses
  have hopen := h.preview p hp
  obtain ⟨hi, hsticky⟩ := insertEditor_replaced h hc hpinned hp
  obtain ⟨heditors, -⟩ := doCloseEditor_fields h.toArranged hopen !g.makeActive options
  have hcount := h.stickyCount_eq
  have hle := h.stickyCount_le
  have hlt := idxOf_lt_length_of_mem hopen
  obtain ⟨i, hindex, hisSticky⟩ : ∃ i, options.index = some i ∧ g.isSticky i = true := by
    rw [makePinned, Bool.or_eq_false_iff] at hpinned
    rw [makeSticky, hpinned.2, Bool.false_or] at hm
    exact (Option.any_eq_true _ _).mp hm
  have hibounds : 0 ≤ i ∧ i ≤ g.sticky := by
    rw [isSticky] at hisSticky
    split at hisSticky
    · cases hisSticky
    · split at hisSticky
      · cases hisSticky
      · exact ⟨by omega, of_decide_eq_true hisSticky⟩
  have htarget : g.targetIndex options = i := by
    rw [targetIndex]
    simp only [hindex]
  obtain ⟨n, rfl⟩ : ∃ n : Nat, i = n := ⟨i.toNat, by omega⟩
  have hsucc : g.insertSticky options = g.sticky + 1 := by rw [insertSticky, if_pos hm]
  have hinsert : g.insertIndex options = n := by
    rw [insertIndex, htarget, if_neg]
    rw [Bool.and_eq_true, Bool.not_eq_true', not_and, Bool.not_eq_false, isSticky_natCast]
    intro _
    dsimp only
    omega
  have hplace : relativeIndex (g.editors.length - 1) (g.replaceIndex options p) = n := by
    rw [replaceIndex, hinsert, if_neg (by omega), relativeIndex_of_nonneg (by omega)]
    omega
  rw [hplace] at hi
  have hk : (g.insertEditor c options).stickyCount = g.stickyCount - 1 + 1 := by
    rw [if_pos (by rw [isSticky_natCast]; dsimp only; omega), hsucc] at hsticky
    rw [stickyCount, hsticky]
    omega
  have hnot : p ∉ g.stickyEditors := by
    rw [stickyEditors, mem_take_iff_idxOf_lt hopen]
    omega
  have hfront : (g.editors.erase p).take (g.stickyCount - 1) = g.editors.take (g.stickyCount - 1) := by
    have htake := congrArg (List.take (g.stickyCount - 1)) (take_erase_of_notMem hnot hle)
    rwa [take_take, take_take, min_eq_left (by omega)] at htake
  have hsticky' : (g.insertEditor c options).stickyEditors =
      insertAt (g.editors.take (g.stickyCount - 1)) n c := by
    rw [stickyEditors, hk, hi.editors, heditors, take_insertAt_of_le c (by omega), hfront]
    rw [length_erase_of_mem hopen]
    omega
  -- the last sticky editor is the one that stops being sticky
  have hlast : g.stickyCount - 1 < g.editors.length := by omega
  have hrank := h.nodup.idxOf_getElem (g.stickyCount - 1) hlast
  intro hkeeps
  have hmem : g.editors[g.stickyCount - 1] ∈ g.editors := getElem_mem hlast
  have hne : g.editors[g.stickyCount - 1] ≠ c := fun heq => hc (heq ▸ hmem)
  have hstays : g.editors[g.stickyCount - 1] ∈ (g.insertEditor c options).editors := by
    rw [hi.mem_editors, heditors]
    refine Or.inr ((mem_erase_of_ne fun heq => ?_).mpr hmem)
    rw [heq] at hrank
    omega
  have hiff := hkeeps _ hmem hstays fun heq => hne (Option.some.inj heq).symm
  rw [hsticky', mem_insertAt, or_iff_right hne, mem_take_iff_idxOf_lt hmem, stickyEditors,
    mem_take_iff_idxOf_lt hmem, hrank] at hiff
  omega

theorem apply_consistent (kinds : EditorKinds E) {g : EditorGroupModel E} (h : g.Consistent)
    {op : Operation E} (hwithin : g.Within op) (hsafe : g.Safe kinds op) :
    (g.apply kinds op).Consistent ∧ KeepsSticky (g.target kinds op) g (g.apply kinds op) := by
  by_cases hop : ∀ c options, op = .openEditor c options →
      g.findEditor kinds c options.supportSideBySide ≠ none
  · obtain ⟨hordered, hactive, hkeeps⟩ := apply_spec kinds h.toOrdered op hop
    exact ⟨Consistent.of_active hordered (hactive h.toActive), hkeeps⟩
  · push Not at hop
    obtain ⟨c, options, rfl, hfind⟩ := hop
    have hc := notMem_of_findEditor hfind
    obtain ⟨hboundary, hselects⟩ := hsafe hfind
    simp only [EditorGroupModel.apply, target, openEditor_new hfind, hfind]
    refine ⟨Consistent.of_active ((h.insertEditor hc options).setSelection _ _)
      (active_insertEditor h.toOrdered h.toActive h.exists_active hc hselects), ?_⟩
    refine (keepsSticky_insertEditor h.toOrdered h.exists_active hc hwithin hboundary).trans
      (keepsSticky_setSelection _ _ _) fun e _ he => ?_
    rwa [← (setSelection_frame _ _).1]

theorem apply_consistent_iff (kinds : EditorKinds E) {g : EditorGroupModel E} (h : g.Consistent)
    {op : Operation E} (hwithin : g.Within op) :
    ((g.apply kinds op).Consistent ∧ KeepsSticky (g.target kinds op) g (g.apply kinds op)) ↔
      g.Safe kinds op := by
  refine ⟨fun hgood => ?_, apply_consistent kinds h hwithin⟩
  cases op with
  | openEditor c options =>
    intro hfind
    have hc := notMem_of_findEditor hfind
    simp only [EditorGroupModel.apply, target, openEditor_new hfind, hfind] at hgood
    refine ⟨fun hcloses => not_keepsSticky_of_closesBehindSticky h.toOrdered hc hcloses ?_,
      fun hselects => not_consistent_of_selectsClosed h hc hselects hgood.1⟩
    refine hgood.2.trans (KeepsSticky.of_eq _ ?_ ?_) fun e _ he => ?_
    · exact (setSelection_frame _ _).1.symm
    · exact (setSelection_frame _ _).2.2.2.symm
    · rwa [(setSelection_frame _ _).1]
  | _ => trivial

omit [DecidableEq E] in
theorem new_consistent (positioning : Option EditorOpenPositioning) (focusRecent : Bool) :
    (new (E := E) positioning focusRecent).Consistent :=
  Consistent.of_active
    ⟨⟨nodup_nil, List.Perm.refl _⟩, fun _ he => (nomatch he),
      fun _ he => absurd he not_mem_nil, ⟨by simp [new], by simp [new]⟩⟩
    ⟨rfl, fun _ he => absurd he not_mem_nil⟩

/-- After every run of safe operations the orders and flags fit together, and the next operation
keeps that, and every other editor sticky or not sticky, exactly if it is safe too. -/
theorem consistent_run (kinds : EditorKinds E) (positioning : Option EditorOpenPositioning)
    (focusRecent : Bool) {ops : List (Operation E)} {g : EditorGroupModel E}
    (hok : Guarded (step kinds) (fun g op => g.Within op ∧ g.Safe kinds op) (new positioning focusRecent) ops)
    (hrun : run (step kinds) (new positioning focusRecent) ops = some g) :
    g.Consistent ∧ ∀ op, g.Within op →
      ((g.apply kinds op).Consistent ∧ KeepsSticky (g.target kinds op) g (g.apply kinds op) ↔
        g.Safe kinds op) := by
  have hg : g.Consistent := by
    refine run_invariant Consistent (fun g op g' h hop hstep => ?_) (new_consistent positioning focusRecent) hok hrun
    obtain rfl := Option.some.inj hstep
    exact (apply_consistent kinds h hop.1 hop.2).1
  exact ⟨hg, fun op hwithin => apply_consistent_iff kinds hg hwithin⟩

/-- A sticky editor is opened, and a preview editor after it. -/
theorem consistent_run_of_preview :
    (⟨[1, 2], [2, 1], [2], some 2, 0, [], none, true⟩ : EditorGroupModel Nat).Consistent := by
  let kinds : EditorKinds Nat := ⟨fun _ => false, fun _ _ _ => false⟩
  let pinned : EditorOpenOptions Nat := ⟨true, true, false, true, [], none, none⟩
  let unpinned : EditorOpenOptions Nat := ⟨false, false, false, true, [], none, none⟩
  have hsafe : ∀ g : EditorGroupModel Nat, g.Safe kinds (.openEditor 1 pinned) := by
    refine fun g _ => ⟨fun hcloses => ?_, fun hselects => ?_⟩
    · exact absurd hcloses.2.1 (by decide)
    · obtain ⟨e, he, -⟩ := hselects.2
      exact absurd he not_mem_nil
  have hsafe' : ∀ g : EditorGroupModel Nat, g.Safe kinds (.openEditor 2 unpinned) := by
    refine fun g _ => ⟨fun hcloses => ?_, fun hselects => ?_⟩
    · exact Bool.false_ne_true hcloses.1
    · obtain ⟨e, he, -⟩ := hselects.2
      exact absurd he not_mem_nil
  exact (@consistent_run Nat _ kinds none true [.openEditor 1 pinned, .openEditor 2 unpinned] _
    ⟨⟨fun _ hi => (nomatch hi), hsafe _⟩, fun _ _ =>
      ⟨⟨fun _ hi => (nomatch hi), hsafe' _⟩, fun _ _ => trivial⟩⟩ (by decide)).1

/-- A sticky editor with the preview editor behind it stops being sticky when an editor that is
not pinned is opened in front of it. -/
theorem not_consistent_run_behind_sticky :
    ¬∀ (kinds : EditorKinds Nat) (positioning : Option EditorOpenPositioning) (focusRecent : Bool)
        (ops : List (Operation Nat)) (g : EditorGroupModel Nat),
      Guarded (step kinds) Within (new positioning focusRecent) ops →
      run (step kinds) (new positioning focusRecent) ops = some g →
      g.Consistent ∧ ∀ op, g.Within op → KeepsSticky (g.target kinds op) g (g.apply kinds op) := by
  intro h
  let kinds : EditorKinds Nat := ⟨fun _ => false, fun _ _ _ => false⟩
  let pinned : EditorOpenOptions Nat := ⟨true, true, false, true, [], none, none⟩
  let unpinned : EditorOpenOptions Nat := ⟨false, false, false, true, [], none, none⟩
  let first : EditorOpenOptions Nat := ⟨false, false, false, true, [], some 0, none⟩
  have hrun : run (step kinds) (new none true) [.openEditor 1 pinned, .openEditor 2 unpinned] =
      some ⟨[1, 2], [2, 1], [2], some 2, 0, [], none, true⟩ := by decide
  have hwithin : Guarded (step kinds) Within (new none true)
      [.openEditor 1 pinned, .openEditor 2 unpinned] :=
    ⟨fun _ hi => (nomatch hi), fun _ _ => ⟨fun _ hi => (nomatch hi), fun _ _ => trivial⟩⟩
  have hindex : Within (⟨[1, 2], [2, 1], [2], some 2, 0, [], none, true⟩ : EditorGroupModel Nat)
      (.openEditor 4 first) := by
    intro i hi
    obtain rfl := Option.some.inj hi
    decide
  have hkeeps := (h kinds none true _ _ hwithin hrun).2 (.openEditor 4 first) hindex
  exact absurd (hkeeps 1 (by decide) (by decide) (by decide)) (by decide)

end EditorGroupModel

end Gavea.EditorGroup
