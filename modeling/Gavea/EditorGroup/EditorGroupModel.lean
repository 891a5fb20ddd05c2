import Gavea.Lib.Js
import Gavea.Lib.Collections

namespace Gavea.EditorGroup

open Lib.Js

def arraySplice {α : Type*} (arr : List α) (start : Int) (deleteCount : Nat) (items : List α) : List α :=
  let i := relativeIndex arr.length start
  arr.take i ++ (items ++ arr.drop (i + deleteCount))

def itemAt {α : Type*} (arr : List α) (index : Int) : Option α := if index < 0 then none else arr[index.toNat]?

inductive EditorOpenPositioning
  | left
  | right
  | first
  | last
  deriving DecidableEq

inductive SideBySideEditor
  | any
  | both

structure EditorKinds (E : Type) where
  isSideBySide : E → Bool
  sidesMatch : SideBySideEditor → E → E → Bool

structure EditorOpenOptions (E : Type) where
  pinned : Bool
  sticky : Bool
  transient : Bool
  active : Bool
  inactiveSelection : List E
  index : Option Int
  supportSideBySide : Option SideBySideEditor

structure EditorGroupModel (E : Type) where
  editors : List E
  mru : List E
  selection : List E
  preview : Option E
  sticky : Int
  transient : List E
  editorOpenPositioning : Option EditorOpenPositioning
  focusRecentEditorAfterClose : Bool
  deriving DecidableEq

namespace EditorGroupModel

variable {E : Type} [DecidableEq E]

def new (editorOpenPositioning : Option EditorOpenPositioning) (focusRecentEditorAfterClose : Bool) :
    EditorGroupModel E :=
  ⟨[], [], [], none, -1, [], editorOpenPositioning, focusRecentEditorAfterClose⟩

section

variable (g : EditorGroupModel E)

def activeEditor : Option E := g.selection.head?

def isSticky (index : Int) : Bool :=
  if g.sticky < 0 then false
  else if index < 0 then false
  else index ≤ g.sticky

def indexOf (candidate : Option E) (editors : List E) : Int :=
  match candidate with
  | none => -1
  | some candidate => if candidate ∈ editors then editors.idxOf candidate else -1

def matchesSides (kinds : EditorKinds E) (support : Option SideBySideEditor) (editor candidate : E) :
    Bool :=
  match support with
  | none => false
  | some side => kinds.isSideBySide editor && !kinds.isSideBySide candidate && kinds.sidesMatch side editor candidate

def findEditor (kinds : EditorKinds E) (candidate : E) (support : Option SideBySideEditor) :
    Option (E × Int) :=
  if candidate ∈ g.editors then some (candidate, g.editors.idxOf candidate)
  else
    match g.editors.reverse.find? fun editor => matchesSides kinds support editor candidate with
    | some editor => some (editor, g.editors.idxOf editor)
    | none => none

def isPinned (editor : E) : Bool := g.preview ≠ some editor

def doSetSelection (activeSelectedEditor : Option E) (activeSelectedEditorIndex : Option Int)
    (inactiveSelectedEditors : List E) : EditorGroupModel E :=
  let selected : EditorGroupModel E :=
    { g with selection := (activeSelectedEditor.map fun e => e :: inactiveSelectedEditors).getD [] }
  match activeSelectedEditor, activeSelectedEditorIndex with
  | some editor, some _ =>
    if g.activeEditor ≠ some editor then
      { selected with mru := editor :: arraySplice g.mru (indexOf (some editor) g.mru) 1 [] }
    else selected
  | _, _ => selected

def inactiveSelected (activeSelectedEditor : E) : List E → Option (List E)
  | [] => some []
  | candidate :: candidates =>
    if candidate ∈ g.editors then
      (inactiveSelected activeSelectedEditor candidates).map fun rest =>
        if candidate = activeSelectedEditor then rest
        else candidate :: rest.filter (· ≠ candidate)
    else none

def setSelection (activeSelectedEditorCandidate : Option E) (inactiveSelectedEditorCandidates : List E) :
    EditorGroupModel E :=
  match activeSelectedEditorCandidate with
  | none => g
  | some candidate =>
    if candidate ∈ g.editors then
      match g.inactiveSelected candidate inactiveSelectedEditorCandidates with
      | some inactive => g.doSetSelection (some candidate) (some (g.editors.idxOf candidate)) inactive
      | none => g
    else g

def spliceOut (index : Int) : EditorGroupModel E :=
  let editorToDeleteOrReplace := itemAt g.editors index
  { g with
    sticky := if g.isSticky index then g.sticky - 1 else g.sticky
    editors := arraySplice g.editors index 1 []
    mru := arraySplice g.mru (indexOf editorToDeleteOrReplace g.mru) 1 [] }

def spliceIn (index : Int) (editor : E) : EditorGroupModel E :=
  { g with
    editors := arraySplice g.editors index 0 [editor]
    mru := if g.mru.length = 0 then g.mru ++ [editor] else arraySplice g.mru 1 0 [editor] }

def doSetTransient (editor : E) (transient : Bool) : EditorGroupModel E :=
  if transient then
    if editor ∈ g.transient then g else { g with transient := g.transient ++ [editor] }
  else { g with transient := g.transient.filter (· ≠ editor) }

def setTransient (candidate : E) (transient : Bool) : EditorGroupModel E :=
  if !transient && g.transient.isEmpty then g
  else if candidate ∈ g.editors then g.doSetTransient candidate transient
  else g

def isTransient (editor : E) : Bool := editor ∈ g.editors && editor ∈ g.transient

def newActiveAfterClose (index : Int) : Option E :=
  if g.focusRecentEditorAfterClose then itemAt g.mru 1
  else if index = g.editors.length - 1 then itemAt g.editors (index - 1)
  else itemAt g.editors (index + 1)

def deselectClosed (editor : E) (index : Int) (openNext : Bool) : EditorGroupModel E :=
  if openNext && g.activeEditor = some editor then
    if g.mru.length > 1 then
      let newActive := g.newActiveAfterClose index
      let newInactiveSelectedEditors :=
        g.selection.filter fun selected => selected ≠ editor && newActive ≠ some selected
      g.doSetSelection newActive (some (indexOf newActive g.editors)) newInactiveSelectedEditors
    else g.doSetSelection none none []
  else if g.activeEditor ≠ some editor then
    if editor ∈ g.selection then
      let newInactiveSelectedEditors :=
        g.selection.filter fun selected => selected ≠ editor && g.activeEditor ≠ some selected
      g.doSetSelection g.activeEditor (some (indexOf g.activeEditor g.editors)) newInactiveSelectedEditors
    else g
  else g

def doCloseEditor (candidate : E) (openNext : Bool) : EditorGroupModel E :=
  if candidate ∈ g.editors then
    let index : Int := g.editors.idxOf candidate
    let g := g.deselectClosed candidate index openNext
    let g := { g with
      preview := if g.preview = some candidate then none else g.preview
      transient := g.transient.filter (· ≠ candidate) }
    g.spliceOut index
  else g

def closeEditor (candidate : E) : EditorGroupModel E := g.doCloseEditor candidate true

def replaceEditor (toReplace replaceWith : E) (replaceIndex : Int) (openNext : Bool) :
    EditorGroupModel E :=
  (g.doCloseEditor toReplace openNext).spliceIn replaceIndex replaceWith

def moveEditor (candidate : E) (toIndex : Int) : EditorGroupModel E :=
  let toIndex : Int :=
    if toIndex ≥ g.editors.length then g.editors.length - 1
    else if toIndex < 0 then 0
    else toIndex
  let index := indexOf (some candidate) g.editors
  if index < 0 ∨ toIndex = index then g
  else
    { g with
      sticky :=
        if g.isSticky index && toIndex > g.sticky then g.sticky - 1
        else if !g.isSticky index && toIndex ≤ g.sticky then g.sticky + 1
        else g.sticky
      editors := arraySplice (arraySplice g.editors index 1 []) toIndex 0 [candidate] }

def setActive (candidate : Option E) : EditorGroupModel E :=
  match candidate with
  | none => g
  | some candidate =>
    if candidate ∈ g.editors then
      g.doSetSelection (some candidate) (some (g.editors.idxOf candidate)) []
    else g

def doPin (editor : E) : EditorGroupModel E :=
  if g.isPinned editor then g else { g.setTransient editor false with preview := none }

def pin (candidate : E) : EditorGroupModel E := if candidate ∈ g.editors then g.doPin candidate else g

def unpin (candidate : E) : EditorGroupModel E :=
  if candidate ∈ g.editors then
    if g.isPinned candidate then
      let oldPreview := g.preview
      let g := { g with preview := some candidate }
      match oldPreview with
      | some oldPreview => g.closeEditor oldPreview
      | none => g
    else g
  else g

def doStick (editor : E) (editorIndex : Int) : EditorGroupModel E :=
  if g.isSticky editorIndex then g
  else
    let g := g.pin editor
    let g := g.moveEditor editor (g.sticky + 1)
    { g with sticky := g.sticky + 1 }

def stick (candidate : E) : EditorGroupModel E :=
  if candidate ∈ g.editors then g.doStick candidate (g.editors.idxOf candidate) else g

def doUnstick (editor : E) (editorIndex : Int) : EditorGroupModel E :=
  if g.isSticky editorIndex then
    let g := g.moveEditor editor g.sticky
    { g with sticky := g.sticky - 1 }
  else g

def unstick (candidate : E) : EditorGroupModel E :=
  if candidate ∈ g.editors then g.doUnstick candidate (g.editors.idxOf candidate) else g

def makeSticky (options : EditorOpenOptions E) : Bool := options.sticky || options.index.any g.isSticky

def makePinned (options : EditorOpenOptions E) : Bool := options.pinned || options.sticky

def makeActive (options : EditorOpenOptions E) : Bool :=
  options.active || g.activeEditor.isNone || (!makePinned options && g.preview = g.activeEditor)

def afterSticky (makeSticky : Bool) (targetIndex : Int) : Int :=
  if !makeSticky && g.isSticky targetIndex then g.sticky + 1 else targetIndex

def targetIndex (options : EditorOpenOptions E) : Int :=
  let makeSticky := g.makeSticky options
  let indexOfActive := indexOf g.activeEditor g.editors
  match options.index with
  | some index => index
  | none =>
    match g.editorOpenPositioning with
    | some .first => g.afterSticky makeSticky 0
    | some .last => g.editors.length
    | some .left => g.afterSticky makeSticky (if indexOfActive = 0 ∨ g.editors.length = 0 then 0 else indexOfActive)
    | _ => g.afterSticky makeSticky (indexOfActive + 1)

def replacePreview (newEditor : E) (targetIndex : Int) (makeActive : Bool) : EditorGroupModel E :=
  match g.preview with
  | some preview =>
    let indexOfPreview := indexOf (some preview) g.editors
    let targetIndex := if targetIndex > indexOfPreview then targetIndex - 1 else targetIndex
    g.replaceEditor preview newEditor targetIndex !makeActive
  | none => g

def insertEditor (newEditor : E) (options : EditorOpenOptions E) : EditorGroupModel E :=
  let makeSticky := g.makeSticky options
  let makeActive := g.makeActive options
  let targetIndex := g.targetIndex options
  let g := if makeSticky then { g with sticky := g.sticky + 1 } else g
  let targetIndex := if makeSticky && !g.isSticky targetIndex then g.sticky else targetIndex
  let hadPreview := g.preview.isSome
  let g := if makePinned options || !hadPreview then g.spliceIn targetIndex newEditor else g
  let g := if options.transient then g.doSetTransient newEditor true else g
  if makePinned options then g
  else { g.replacePreview newEditor targetIndex makeActive with preview := some newEditor }

def openExisting (editor : E) (options : EditorOpenOptions E) : EditorGroupModel E :=
  let makeSticky := g.makeSticky options
  let makeActive := g.makeActive options
  let g := g.doSetTransient editor (options.transient && g.isTransient editor)
  let g := if makePinned options then g.doPin editor else g
  let g := g.setSelection (if makeActive then some editor else g.activeEditor)
    options.inactiveSelection
  let g := match options.index with
    | some index => g.moveEditor editor index
    | none => g
  if makeSticky then g.doStick editor (indexOf (some editor) g.editors) else g

def openEditor (kinds : EditorKinds E) (candidate : E) (options : EditorOpenOptions E) :
    EditorGroupModel E :=
  match g.findEditor kinds candidate options.supportSideBySide with
  | none =>
    let makeActive := g.makeActive options
    let g := g.insertEditor candidate options
    g.setSelection (if makeActive then some candidate else g.activeEditor) options.inactiveSelection
  | some (existingEditor, _) => g.openExisting existingEditor options

end

end EditorGroupModel

open Lib.Js Lib.FrontPart List

theorem relativeIndex_le (n : Nat) (i : Int) : relativeIndex n i ≤ n := by
  rw [relativeIndex]
  split <;> omega

theorem relativeIndex_of_nonneg {n : Nat} {i : Int} (h : 0 ≤ i) : relativeIndex n i = min i.toNat n := if_neg (by omega)

theorem arraySplice_insert {α : Type*} (l : List α) (i : Int) (x : α) :
    arraySplice l i 0 [x] = insertAt l (relativeIndex l.length i) x := rfl

section

variable {E : Type} [DecidableEq E]

theorem arraySplice_erase {l : List E} {e : E} (h : e ∈ l) :
    arraySplice l (l.idxOf e) 1 [] = l.erase e := by
  have hlt := idxOf_lt_length_of_mem h
  rw [arraySplice, relativeIndex_of_nonneg (by omega), Int.toNat_natCast, min_eq_left hlt.le,
    nil_append, ← eraseIdx_eq_take_drop_succ, eraseIdx_idxOf_eq_erase]

theorem indexOf_of_mem {l : List E} {e : E} (h : e ∈ l) : EditorGroupModel.indexOf (some e) l = l.idxOf e := if_pos h

end

namespace EditorGroupModel

variable {E : Type} [DecidableEq E]

structure Arranged (g : EditorGroupModel E) : Prop where
  nodup : g.editors.Nodup
  mru : g.mru.Perm g.editors

structure Ordered (g : EditorGroupModel E) : Prop extends Arranged g where
  preview : ∀ e ∈ g.preview, e ∈ g.editors
  transient : ∀ e ∈ g.transient, e ∈ g.editors
  sticky : -1 ≤ g.sticky ∧ g.sticky < g.editors.length

def stickyCount (g : EditorGroupModel E) : Nat := (g.sticky + 1).toNat

def stickyEditors (g : EditorGroupModel E) : List E := g.editors.take g.stickyCount

def KeepsSticky (target : Option E) (g g' : EditorGroupModel E) : Prop :=
  ∀ e ∈ g.editors, e ∈ g'.editors → target ≠ some e → (e ∈ g'.stickyEditors ↔ e ∈ g.stickyEditors)

namespace Ordered

variable {g : EditorGroupModel E} (h : g.Ordered)
include h

omit [DecidableEq E] in
theorem stickyCount_eq : (g.stickyCount : Int) = g.sticky + 1 := by
  have := h.sticky
  rw [stickyCount]
  omega

omit [DecidableEq E] in
theorem stickyCount_le : g.stickyCount ≤ g.editors.length := by
  have := h.sticky
  rw [stickyCount]
  omega

omit [DecidableEq E] in
theorem isSticky_iff {index : Int} (hindex : 0 ≤ index) :
    g.isSticky index = true ↔ index < g.stickyCount := by
  have := h.stickyCount_eq
  rw [isSticky]
  split
  · simp only [Bool.false_eq_true, false_iff]
    omega
  · rw [if_neg (by omega), decide_eq_true_iff]
    omega

theorem isSticky_idxOf {e : E} (he : e ∈ g.editors) :
    g.isSticky (g.editors.idxOf e) = true ↔ e ∈ g.stickyEditors := by
  rw [h.isSticky_iff (by omega), stickyEditors, mem_take_iff_idxOf_lt he]
  omega

end Ordered

section

variable (g : EditorGroupModel E) (active : Option E) (index : Option Int) (inactive : List E)

theorem doSetSelection_frame :
    (g.doSetSelection active index inactive).editors = g.editors ∧
      (g.doSetSelection active index inactive).preview = g.preview ∧
      (g.doSetSelection active index inactive).transient = g.transient ∧
      (g.doSetSelection active index inactive).sticky = g.sticky := by
  simp only [doSetSelection]
  split
  · split <;> exact ⟨rfl, rfl, rfl, rfl⟩
  · exact ⟨rfl, rfl, rfl, rfl⟩

theorem selection_doSetSelection :
    (g.doSetSelection active index inactive).selection =
      (active.map fun e => e :: inactive).getD [] := by
  simp only [doSetSelection]
  split
  · split <;> rfl
  · rfl

theorem perm_mru_doSetSelection (h : ∀ e ∈ active, e ∈ g.mru) :
    (g.doSetSelection active index inactive).mru.Perm g.mru := by
  simp only [doSetSelection]
  split
  · next e i =>
      split
      · rw [indexOf_of_mem (h e rfl), arraySplice_erase (h e rfl)]
        exact (perm_cons_erase (h e rfl)).symm
      · exact List.Perm.refl _
  · exact List.Perm.refl _

theorem head_mru_doSetSelection {e : E} {i : Int} (hhead : g.mru.head? = g.activeEditor) :
    (g.doSetSelection (some e) (some i) inactive).mru.head? = some e := by
  simp only [doSetSelection]
  split
  · rfl
  · next hsame => exact hhead.trans (not_ne_iff.mp hsame)

end

section

variable {g : EditorGroupModel E}

theorem inactiveSelected_subset {active : E} {candidates inactive : List E}
    (h : g.inactiveSelected active candidates = some inactive) : ∀ e ∈ inactive, e ∈ g.editors := by
  induction candidates generalizing inactive with
  | nil =>
    obtain rfl := Option.some.inj h
    exact fun e he => absurd he not_mem_nil
  | cons c cs ih =>
    rw [inactiveSelected] at h
    split at h
    · next hc =>
        obtain ⟨rest, hrest, rfl⟩ := Option.map_eq_some_iff.mp h
        intro e he
        split at he
        · exact ih hrest e he
        · rcases mem_cons.mp he with rfl | he
          · exact hc
          · exact ih hrest e (mem_filter.mp he).1
    · cases h

theorem inactiveSelected_isSome (active : E) {candidates : List E}
    (h : ∀ e ∈ candidates, e ∈ g.editors) : (g.inactiveSelected active candidates).isSome := by
  induction candidates with
  | nil => rfl
  | cons c cs ih =>
    rw [inactiveSelected, if_pos (h c mem_cons_self), Option.isSome_map]
    exact ih fun e he => h e (mem_cons_of_mem c he)

structure Active (g : EditorGroupModel E) : Prop where
  front : g.mru.head? = g.activeEditor
  selection : ∀ e ∈ g.selection, e ∈ g.editors

theorem Active.doSetSelection {e : E} {i : Int} {inactive : List E}
    (hfront : g.mru.head? = g.activeEditor) (he : e ∈ g.editors)
    (hinactive : ∀ x ∈ inactive, x ∈ g.editors) :
    (g.doSetSelection (some e) (some i) inactive).Active := by
  have hselection := g.selection_doSetSelection (some e) (some i) inactive
  refine ⟨?_, ?_⟩
  · rw [g.head_mru_doSetSelection inactive hfront, activeEditor, hselection]
    rfl
  · rw [hselection, (g.doSetSelection_frame _ _ _).1]
    exact forall_mem_cons.mpr ⟨he, hinactive⟩

theorem setSelection_frame (active : Option E) (inactive : List E) :
    (g.setSelection active inactive).editors = g.editors ∧
      (g.setSelection active inactive).preview = g.preview ∧
      (g.setSelection active inactive).transient = g.transient ∧
      (g.setSelection active inactive).sticky = g.sticky := by
  simp only [setSelection]
  split
  · exact ⟨rfl, rfl, rfl, rfl⟩
  · split
    · split
      · exact g.doSetSelection_frame _ _ _
      · exact ⟨rfl, rfl, rfl, rfl⟩
    · exact ⟨rfl, rfl, rfl, rfl⟩

theorem perm_mru_setSelection (active : Option E) (inactive : List E)
    (h : g.mru.Perm g.editors) : (g.setSelection active inactive).mru.Perm g.mru := by
  simp only [setSelection]
  split
  · exact List.Perm.refl _
  · next e =>
      split
      · next he =>
          split
          · refine g.perm_mru_doSetSelection _ _ _ fun x hx => ?_
            obtain rfl := Option.some.inj hx
            exact h.mem_iff.mpr he
          · exact List.Perm.refl _
      · exact List.Perm.refl _

theorem Active.setSelection (h : g.Active) (active : Option E) (inactive : List E) :
    (g.setSelection active inactive).Active := by
  simp only [EditorGroupModel.setSelection]
  split
  · exact h
  · split
    · next e he =>
        split
        · next rest hrest => exact Active.doSetSelection h.front he (inactiveSelected_subset hrest)
        · exact h
    · exact h

theorem Active.setSelection_of_mem {e : E} {inactive : List E} (he : e ∈ g.editors)
    (hinactive : ∀ x ∈ inactive, x ∈ g.editors)
    (hfront : g.activeEditor ≠ some e) : (g.setSelection (some e) inactive).Active := by
  obtain ⟨rest, hrest⟩ := Option.isSome_iff_exists.mp (inactiveSelected_isSome e hinactive)
  simp only [EditorGroupModel.setSelection]
  rw [if_pos he, hrest]
  have hselection := g.selection_doSetSelection (some e) (some (g.editors.idxOf e)) rest
  refine ⟨?_, ?_⟩
  · rw [activeEditor, hselection]
    simp only [EditorGroupModel.doSetSelection]
    rw [if_pos hfront]
    rfl
  · rw [hselection, (g.doSetSelection_frame _ _ _).1]
    exact forall_mem_cons.mpr ⟨he, inactiveSelected_subset hrest⟩

end

end EditorGroupModel

theorem itemAt_natCast {α : Type*} (l : List α) (i : Nat) : itemAt l i = l[i]? := by
  rw [itemAt, if_neg (by omega), Int.toNat_natCast]

namespace EditorGroupModel

variable {E : Type} [DecidableEq E] {g : EditorGroupModel E} {c : E}

theorem itemAt_idxOf (hc : c ∈ g.editors) : itemAt g.editors (g.editors.idxOf c : Nat) = some c := by
  rw [itemAt_natCast, getElem?_eq_getElem (idxOf_lt_length_of_mem hc), getElem_idxOf]

theorem mru_doSetSelection_active (index : Option Int) (inactive : List E) :
    (g.doSetSelection g.activeEditor index inactive).mru = g.mru := by
  simp only [doSetSelection]
  split
  · next hactive => rw [if_neg (not_not.mpr hactive)]
  · rfl

theorem newActiveAfterClose_spec (h : g.Arranged) (hc : c ∈ g.editors) (hlen : 1 < g.mru.length) :
    ∃ e ∈ g.mru, g.newActiveAfterClose (g.editors.idxOf c) = some e ∧
      (g.mru.head? = some c → e ≠ c) := by
  have hidx := idxOf_lt_length_of_mem hc
  have hlength := h.mru.length_eq
  have hother : ∀ (i : Nat) (hi : i < g.editors.length), i ≠ g.editors.idxOf c →
      ∃ e ∈ g.mru, g.editors[i]? = some e ∧ (g.mru.head? = some c → e ≠ c) := by
    intro i hi hne
    refine ⟨g.editors[i], h.mru.mem_iff.mpr (getElem_mem hi), getElem?_eq_getElem hi, fun _ hec => hne ?_⟩
    rw [← hec, h.nodup.idxOf_getElem]
  rw [newActiveAfterClose]
  split
  · refine ⟨g.mru[1], getElem_mem hlen, ?_, fun hhead hec => ?_⟩
    · exact (itemAt_natCast g.mru 1).trans (getElem?_eq_getElem hlen)
    · rw [head?_eq_getElem?, getElem?_eq_getElem (by omega), ← hec] at hhead
      have := (h.mru.nodup_iff.mpr h.nodup).getElem_inj_iff.mp (Option.some.inj hhead)
      omega
  · split
    · next hlast =>
        obtain ⟨e, he, hget, hne⟩ := hother (g.editors.idxOf c - 1) (by omega) (by omega)
        refine ⟨e, he, ?_, hne⟩
        rw [← hget, ← itemAt_natCast]
        congr 1
        omega
    · next hlast =>
        obtain ⟨e, he, hget, hne⟩ := hother (g.editors.idxOf c + 1) (by omega) (by omega)
        refine ⟨e, he, ?_, hne⟩
        rw [← hget, ← itemAt_natCast]
        congr 1

theorem deselectClosed_frame (c : E) (index : Int) (openNext : Bool) :
    (g.deselectClosed c index openNext).editors = g.editors ∧
      (g.deselectClosed c index openNext).preview = g.preview ∧
      (g.deselectClosed c index openNext).transient = g.transient ∧
      (g.deselectClosed c index openNext).sticky = g.sticky := by
  simp only [deselectClosed]
  split
  · split <;> exact doSetSelection_frame _ _ _ _
  · split
    · split
      · exact doSetSelection_frame _ _ _ _
      · exact ⟨rfl, rfl, rfl, rfl⟩
    · exact ⟨rfl, rfl, rfl, rfl⟩

theorem perm_mru_deselectClosed (h : g.Arranged) (hc : c ∈ g.editors) (openNext : Bool) :
    (g.deselectClosed c (g.editors.idxOf c) openNext).mru.Perm g.mru := by
  simp only [deselectClosed]
  split
  · split
    · next hlen =>
        obtain ⟨e, he, hnew, -⟩ := newActiveAfterClose_spec h hc hlen
        refine perm_mru_doSetSelection _ _ _ _ fun x hx => ?_
        rw [hnew] at hx
        obtain rfl := Option.some.inj hx
        exact he
    · exact perm_mru_doSetSelection _ _ _ _ fun x hx => nomatch hx
  · split
    · split
      · rw [mru_doSetSelection_active]
      · exact List.Perm.refl _
    · exact List.Perm.refl _

theorem doCloseEditor_fields (h : g.Arranged) (hc : c ∈ g.editors) (openNext : Bool) :
    (g.doCloseEditor c openNext).editors = g.editors.erase c ∧
      (g.doCloseEditor c openNext).mru = (g.deselectClosed c (g.editors.idxOf c) openNext).mru.erase c ∧
      (g.doCloseEditor c openNext).selection = (g.deselectClosed c (g.editors.idxOf c) openNext).selection ∧
      (g.doCloseEditor c openNext).preview = (if g.preview = some c then none else g.preview) ∧
      (g.doCloseEditor c openNext).transient = g.transient.filter (· ≠ c) ∧
      (g.doCloseEditor c openNext).sticky =
        (if g.isSticky (g.editors.idxOf c) then g.sticky - 1 else g.sticky) := by
  obtain ⟨heditors, hpreview, htransient, hsticky⟩ := g.deselectClosed_frame c (g.editors.idxOf c) openNext
  have hmem : c ∈ (g.deselectClosed c (g.editors.idxOf c) openNext).mru := by
    rw [(perm_mru_deselectClosed h hc openNext).mem_iff, h.mru.mem_iff]
    exact hc
  simp only [doCloseEditor, if_pos hc, spliceOut, heditors, hpreview, htransient, hsticky,
    isSticky, itemAt_idxOf hc, indexOf_of_mem hmem, arraySplice_erase hmem, arraySplice_erase hc]
  exact ⟨trivial, trivial, trivial, trivial, trivial, rfl⟩

theorem doCloseEditor_arranged (h : g.Arranged) (hc : c ∈ g.editors) (openNext : Bool) :
    (g.doCloseEditor c openNext).Arranged := by
  obtain ⟨heditors, hmru, -⟩ := doCloseEditor_fields h hc openNext
  refine ⟨?_, ?_⟩
  · rw [heditors]
    exact h.nodup.erase c
  · rw [heditors, hmru]
    exact ((perm_mru_deselectClosed h hc openNext).trans h.mru).erase c

theorem stickyEditors_doCloseEditor (h : g.Ordered) (hc : c ∈ g.editors) (openNext : Bool) :
    (g.doCloseEditor c openNext).stickyEditors = g.stickyEditors.erase c := by
  obtain ⟨heditors, -, -, -, -, hsticky⟩ := doCloseEditor_fields h.toArranged hc openNext
  have hcount := h.stickyCount_eq
  have hle := h.stickyCount_le
  rw [stickyEditors, heditors, stickyCount, hsticky]
  split
  · next hs =>
      rw [h.isSticky_idxOf hc] at hs
      rw [stickyEditors, ← take_erase_of_mem hs hle]
      congr 1
      omega
  · next hs =>
      rw [h.isSticky_idxOf hc] at hs
      rw [erase_of_not_mem hs, stickyEditors, ← take_erase_of_notMem hs hle]
      rfl

theorem Ordered.doCloseEditor (h : g.Ordered) (c : E) (openNext : Bool) :
    (g.doCloseEditor c openNext).Ordered := by
  by_cases hc : c ∈ g.editors
  · obtain ⟨heditors, -, -, hpreview, htransient, hsticky⟩ := doCloseEditor_fields h.toArranged hc openNext
    refine ⟨doCloseEditor_arranged h.toArranged hc openNext, ?_, ?_, ?_⟩
    · intro e he
      rw [hpreview] at he
      split at he
      · cases he
      · next hne =>
          rw [heditors]
          exact (mem_erase_of_ne fun heq => hne (by rw [← heq]; exact he)).mpr (h.preview e he)
    · intro e he
      rw [htransient, mem_filter, decide_eq_true_iff] at he
      rw [heditors]
      exact (mem_erase_of_ne he.2).mpr (h.transient e he.1)
    · have hcount := h.stickyCount_eq
      have hbounds := h.sticky
      have hlt := idxOf_lt_length_of_mem hc
      rw [heditors, hsticky, length_erase_of_mem hc]
      split
      · next hs =>
          rw [h.isSticky_iff (by omega)] at hs
          omega
      · next hs =>
          rw [h.isSticky_iff (by omega)] at hs
          omega
  · rw [EditorGroupModel.doCloseEditor, if_neg hc]
    exact h

theorem keepsSticky_doCloseEditor (h : g.Ordered) (c : E) (openNext : Bool) :
    KeepsSticky none g (g.doCloseEditor c openNext) := by
  intro e _ hmem _
  by_cases hc : c ∈ g.editors
  · rw [stickyEditors_doCloseEditor h hc]
    rw [(doCloseEditor_fields h.toArranged hc openNext).1] at hmem
    refine mem_erase_of_ne fun heq => ?_
    rw [heq] at hmem
    exact h.nodup.not_mem_erase hmem
  · rw [doCloseEditor, if_neg hc]

omit [DecidableEq E] in
theorem head?_erase_of_ne [BEq E] [LawfulBEq E] {l : List E} {a c : E} (h : l.head? = some a)
    (hne : a ≠ c) : (l.erase c).head? = some a := by
  cases l with
  | nil => cases h
  | cons x l =>
    obtain rfl := Option.some.inj h
    rw [erase_cons_tail (by simpa using hne)]
    rfl

theorem deselectClosed_active (harranged : g.Arranged) (h : g.Active) (hc : c ∈ g.editors)
    {openNext : Bool} (hopen : openNext = true ∨ g.activeEditor ≠ some c) :
    ((g.deselectClosed c (g.editors.idxOf c) openNext).mru.erase c).head? =
        (g.deselectClosed c (g.editors.idxOf c) openNext).activeEditor ∧
      ∀ e ∈ (g.deselectClosed c (g.editors.idxOf c) openNext).selection, e ∈ g.editors ∧ e ≠ c := by
  simp only [deselectClosed]
  split
  · next hclosed =>
      obtain ⟨-, hactive⟩ := (Bool.and_eq_true _ _).mp hclosed
      have hhead : g.mru.head? = some c := h.front.trans (of_decide_eq_true hactive)
      split
      · next hlen =>
          obtain ⟨n, hn, hnew, hne⟩ := newActiveAfterClose_spec harranged hc hlen
          rw [hnew]
          refine ⟨?_, ?_⟩
          · rw [head?_erase_of_ne (head_mru_doSetSelection g _ h.front) (hne hhead), activeEditor,
              selection_doSetSelection]
            rfl
          · rw [selection_doSetSelection]
            refine forall_mem_cons.mpr ⟨⟨harranged.mru.mem_iff.mp hn, hne hhead⟩, fun e he => ?_⟩
            obtain ⟨he, hkept⟩ := mem_filter.mp he
            exact ⟨h.selection e he, of_decide_eq_true ((Bool.and_eq_true _ _).mp hkept).1⟩
      · next hlen =>
          obtain ⟨rest, hmru⟩ := head?_eq_some_iff.mp hhead
          have hrest : rest = [] := by
            rw [hmru, length_cons] at hlen
            exact eq_nil_of_length_eq_zero (by omega)
          refine ⟨?_, ?_⟩
          · rw [activeEditor, selection_doSetSelection]
            simp only [doSetSelection, hmru, hrest, erase_cons_head]
            rfl
          · rw [selection_doSetSelection]
            exact fun e he => absurd he not_mem_nil
  · next hclosed =>
      have hactive : g.activeEditor ≠ some c := by
        rcases hopen with hopen | hopen
        · intro heq
          exact hclosed ((Bool.and_eq_true _ _).mpr ⟨hopen, decide_eq_true heq⟩)
        · exact hopen
      rw [if_pos hactive]
      split
      · next hselected =>
          obtain ⟨a, ha⟩ : ∃ a, g.activeEditor = some a := by
            rw [activeEditor, ← Option.isSome_iff_exists, isSome_head?]
            exact ne_nil_of_mem hselected
          have hne : a ≠ c := fun heq => hactive (heq ▸ ha)
          refine ⟨?_, ?_⟩
          · rw [mru_doSetSelection_active, head?_erase_of_ne (h.front.trans ha) hne, activeEditor,
              selection_doSetSelection, ha]
            rfl
          · rw [selection_doSetSelection, ha]
            refine forall_mem_cons.mpr ⟨⟨h.selection a (mem_of_mem_head? ha), hne⟩, fun e he => ?_⟩
            obtain ⟨he, hkept⟩ := mem_filter.mp he
            exact ⟨h.selection e he, of_decide_eq_true ((Bool.and_eq_true _ _).mp hkept).1⟩
      · next hselected =>
          refine ⟨?_, fun e he => ⟨h.selection e he, fun heq => hselected (heq ▸ he)⟩⟩
          cases ha : g.activeEditor with
          | none =>
            have hnil := head?_eq_none_iff.mp (h.front.trans ha)
            rw [hnil]
            rfl
          | some a => exact head?_erase_of_ne (h.front.trans ha) fun heq => hactive (heq ▸ ha)

theorem Active.doCloseEditor (harranged : g.Arranged) (h : g.Active) {openNext : Bool}
    (hopen : openNext = true ∨ g.activeEditor ≠ some c) :
    (g.doCloseEditor c openNext).Active := by
  by_cases hc : c ∈ g.editors
  · obtain ⟨heditors, hmru, hselection, -⟩ := doCloseEditor_fields harranged hc openNext
    obtain ⟨hfront, hopened⟩ := deselectClosed_active harranged h hc hopen
    refine ⟨?_, ?_⟩
    · rw [hmru, hfront, activeEditor, activeEditor, hselection]
    · rw [heditors, hselection]
      exact fun e he => (mem_erase_of_ne (hopened e he).2).mpr (hopened e he).1
  · rw [EditorGroupModel.doCloseEditor, if_neg hc]
    exact h

end EditorGroupModel

end Gavea.EditorGroup
