import Gavea.EditorGroup.Consistency

namespace Gavea.EditorGroup

structure EditorSerializers (E V : Type) where
  serialize : E → Option V
  deserialize : V → Option E

structure SerializedEditorGroup (V : Type) where
  editors : List V
  mru : List Int
  preview : Option Int
  sticky : Option Int

def coalesce {α : Type*} (array : List (Option α)) : List α := array.filterMap id

namespace EditorGroupModel

variable {E V : Type} [DecidableEq E]

structure Serializing (E V : Type) where
  serializableEditors : List E
  serializedEditors : List V
  serializablePreviewIndex : Option Int
  serializableSticky : Int

def serializeEditor (s : EditorSerializers E V) (g : EditorGroupModel E) (i : Nat) (editor : E)
    (acc : Serializing E V) : Serializing E V :=
  match s.serialize editor with
  | some value =>
    { acc with
      serializedEditors := acc.serializedEditors ++ [value]
      serializableEditors := acc.serializableEditors ++ [editor]
      serializablePreviewIndex :=
        if g.preview = some editor then some acc.serializableEditors.length
        else acc.serializablePreviewIndex }
  | none => if g.isSticky i then { acc with serializableSticky := acc.serializableSticky - 1 } else acc

def serializeEditors (s : EditorSerializers E V) (g : EditorGroupModel E) :
    Nat → List E → Serializing E V → Serializing E V
  | _, [], acc => acc
  | i, editor :: editors, acc => serializeEditors s g (i + 1) editors (serializeEditor s g i editor acc)

def serialize (s : EditorSerializers E V) (g : EditorGroupModel E) : SerializedEditorGroup V :=
  let data := serializeEditors s g 0 g.editors ⟨[], [], none, g.sticky⟩
  let serializableMru :=
    (g.mru.map fun editor => indexOf (some editor) data.serializableEditors).filter (0 ≤ ·)
  { editors := data.serializedEditors
    mru := serializableMru
    preview := data.serializablePreviewIndex
    sticky := if data.serializableSticky ≥ 0 then some data.serializableSticky else none }

def deserializeEditors (s : EditorSerializers E V) :
    Nat → List V → Option Int → List (Option E) × Option Int
  | _, [], sticky => ([], sticky)
  | index, value :: values, sticky =>
    let editor := s.deserialize value
    let sticky := sticky.map fun sticky =>
      if editor.isNone && (index : Int) ≤ sticky then sticky - 1 else sticky
    let rest := deserializeEditors s (index + 1) values sticky
    (editor :: rest.1, rest.2)

def deserialize (s : EditorSerializers E V) (positioning : Option EditorOpenPositioning)
    (focusRecent : Bool) (data : SerializedEditorGroup V) : EditorGroupModel E :=
  let deserialized := deserializeEditors s 0 data.editors data.sticky
  let editors := coalesce deserialized.1
  let mru := coalesce (data.mru.map fun i => itemAt editors i)
  { new positioning focusRecent with
    editors := editors
    mru := mru
    selection := match mru with
      | first :: _ => [first]
      | [] => []
    preview := data.preview.bind fun preview => itemAt editors preview
    sticky := deserialized.2.getD (new (E := E) positioning focusRecent).sticky }

end EditorGroupModel

open Lib.Runs

section

variable {α : Type*} [DecidableEq α] {l : List α} {q : α → Bool} {x : α}

theorem idxOf_filter (hx : x ∈ l) (hq : q x = true) :
    (l.filter q).idxOf x = (l.take (l.idxOf x)).countP q := by
  induction l with
  | nil => cases hx
  | cons y l ih =>
    by_cases hyx : y = x
    · subst hyx
      rw [List.filter_cons_of_pos hq, List.idxOf_cons_self, List.idxOf_cons_self]
      rfl
    · have hmem : x ∈ l := (List.mem_cons.mp hx).resolve_left fun h => hyx h.symm
      rw [List.idxOf_cons_ne l hyx, List.take_succ_cons, List.countP_cons]
      by_cases hqy : q y = true
      · rw [List.filter_cons_of_pos hqy, List.idxOf_cons_ne _ hyx, ih hmem, if_pos hqy]
      · rw [List.filter_cons_of_neg hqy, ih hmem, if_neg hqy, Nat.add_zero]

omit [DecidableEq α] in
theorem take_filter (l : List α) (q : α → Bool) (k : Nat) :
    (l.filter q).take ((l.take k).countP q) = (l.take k).filter q := by
  have hsplit : l.filter q = (l.take k).filter q ++ (l.drop k).filter q := by
    rw [← List.filter_append, List.take_append_drop]
  rw [hsplit, List.countP_eq_length_filter, List.take_left']
  rfl

def atRank (l l' : List α) (x : α) : Option α := if x ∈ l then l'[l.idxOf x]? else none

theorem atRank_eq_some {l' : List α} {x' : α} (hl : l.Nodup) :
    atRank l l' x = some x' ↔ (x, x') ∈ l.zip l' := by
  rw [atRank]
  constructor
  · intro h
    split at h
    · next hx =>
        refine List.mem_of_getElem? (i := l.idxOf x) (List.getElem?_zip_eq_some.mpr ⟨?_, h⟩)
        rw [List.getElem?_eq_getElem (List.idxOf_lt_length_of_mem hx), List.getElem_idxOf]
    · cases h
  · intro h
    obtain ⟨i, hi⟩ := List.mem_iff_getElem?.mp h
    obtain ⟨hx, hx'⟩ : l[i]? = some x ∧ l'[i]? = some x' := List.getElem?_zip_eq_some.mp hi
    obtain ⟨hlt, hget⟩ := List.getElem?_eq_some_iff.mp hx
    rw [if_pos (List.mem_of_getElem? hx), ← hget, hl.idxOf_getElem, hx']

end

def stickyAfter : Nat → List Bool → Int → Int
  | _, [], sticky => sticky
  | index, fails :: rest, sticky =>
    stickyAfter (index + 1) rest (if fails && (index : Int) ≤ sticky then sticky - 1 else sticky)

theorem stickyAfter_of_lt {sticky : Int} {index : Nat} (fails : List Bool) (h : sticky < index) :
    stickyAfter index fails sticky = sticky := by
  induction fails generalizing index with
  | nil => rfl
  | cons b fails ih =>
    rw [stickyAfter, if_neg (by simp; omega)]
    exact ih (by omega)

theorem stickyAfter_eq {sticky t : Int} {index : Nat} {fails : List Bool} (hle : sticky ≤ t)
    (h : ∀ j : Nat, fails[j]? = some true → (index + j : Int) ≤ t →
      (index + j : Int) + (fails.take j).countP id ≤ sticky) :
    stickyAfter index fails sticky = sticky - (fails.take (t + 1 - index).toNat).countP id := by
  induction fails generalizing index sticky with
  | nil => simp [stickyAfter]
  | cons b fails ih =>
    by_cases hindex : (index : Int) ≤ t
    · have hsucc : (t + 1 - index).toNat = (t + 1 - (index + 1 : Nat)).toNat + 1 := by omega
      rw [stickyAfter, hsucc, List.take_succ_cons, List.countP_cons]
      cases b with
      | false =>
        rw [if_neg (by simp), if_neg (by simp), Nat.add_zero]
        refine ih hle fun j hj hjt => ?_
        have := h (j + 1) hj (by omega)
        rw [List.take_succ_cons, List.countP_cons, if_neg (by simp)] at this
        omega
      | true =>
        have h0 := h 0 rfl (by omega)
        rw [List.take_zero, List.countP_nil] at h0
        rw [if_pos (by simp; omega), if_pos (by simp), ih (by omega)]
        · omega
        · intro j hj hjt
          have := h (j + 1) hj (by omega)
          rw [List.take_succ_cons, List.countP_cons, if_pos (by simp)] at this
          omega
    · rw [stickyAfter_of_lt _ (by omega), show (t + 1 - (index : Int)).toNat = 0 by omega,
        List.take_zero, List.countP_nil]
      omega

theorem lt_stickyAfter {sticky t : Int} {index j : Nat} {fails : List Bool} (hle : sticky ≤ t)
    (hj : fails[j]? = some true) (hjt : (index + j : Int) ≤ t)
    (hmiss : sticky < (index + j : Int) + (fails.take j).countP id) :
    sticky - (fails.take (t + 1 - index).toNat).countP id < stickyAfter index fails sticky := by
  induction fails generalizing index sticky j with
  | nil => cases hj
  | cons b fails ih =>
    have hsucc : (t + 1 - index).toNat = (t + 1 - (index + 1 : Nat)).toNat + 1 := by omega
    by_cases hindex : (index : Int) ≤ sticky
    · obtain ⟨j, rfl⟩ : ∃ k, j = k + 1 := by
        refine ⟨j - 1, ?_⟩
        by_contra hj0
        rw [show j = 0 by omega, List.take_zero, List.countP_nil] at hmiss
        omega
      rw [List.take_succ_cons, List.countP_cons] at hmiss
      rw [stickyAfter, hsucc, List.take_succ_cons, List.countP_cons]
      cases b with
      | false =>
        rw [if_neg (by simp)] at hmiss
        rw [if_neg (by simp), if_neg (by simp)]
        have := @ih sticky (index + 1) j hle hj (by omega) (by omega)
        omega
      | true =>
        rw [if_pos (by simp)] at hmiss
        rw [if_pos (by simp), if_pos (by simp; omega)]
        have := @ih (sticky - 1) (index + 1) j (by omega) hj (by omega) (by omega)
        omega
    · rw [stickyAfter_of_lt _ (by omega)]
      have hpos : 0 < ((b :: fails).take (t + 1 - index).toNat).countP id := by
        rw [List.countP_pos_iff]
        refine ⟨true, List.mem_of_getElem? (i := j) ?_, rfl⟩
        rw [List.getElem?_take_of_lt (by omega), hj]
      omega

namespace EditorGroupModel

variable {E V : Type} [DecidableEq E] (s : EditorSerializers E V) (g : EditorGroupModel E)

def Survives (e : E) : Bool := ((s.serialize e).bind s.deserialize).isSome

def serializable : List E := g.editors.filter fun e => (s.serialize e).isSome

def survivors : List E := g.editors.filter (Survives s)

structure Restored (g' : EditorGroupModel E) : Prop where
  editors : g'.editors = g.survivors s
  mru : g'.mru = g.mru.filter (Survives s)
  active : g'.activeEditor = (g.mru.filter (Survives s)).head?
  preview : g'.preview = g.preview.filter (Survives s)
  sticky : ∀ e ∈ g.survivors s, (g'.isSticky (g'.editors.idxOf e) = true ↔ g.isSticky (g.editors.idxOf e) = true)

def failuresBefore (e : E) : Nat := ((g.serializable s).take ((g.serializable s).idxOf e)).countP fun x => !Survives s x

def serializedSticky : Nat := (g.stickyEditors.filter fun x => (s.serialize x).isSome).length

/-- The editors that fail shift neither the order of use nor the preview editor, and the sticky ones
fail in time, unless all that is left is sticky. -/
structure RestartSafe : Prop where
  mru : ∀ a a' b b', (a, a') ∈ (g.serializable s).zip (g.survivors s) →
    (b, b') ∈ (g.serializable s).zip (g.survivors s) →
    g.mru.idxOf a < g.mru.idxOf b → g.mru.idxOf a' < g.mru.idxOf b'
  preview : ∀ p ∈ g.preview, p ∈ g.serializable s →
    if Survives s p then g.failuresBefore s p = 0
    else (g.survivors s).length ≤ (g.serializable s).idxOf p
  sticky : (∀ e ∈ g.survivors s, e ∈ g.stickyEditors) ∨
    ∀ e ∈ g.serializable s, Survives s e = false → e ∈ g.stickyEditors →
      (g.serializable s).idxOf e + g.failuresBefore s e < g.serializedSticky s

variable {s g}

omit [DecidableEq E] in
theorem serialize_of_survives {e : E} (h : Survives s e = true) : (s.serialize e).isSome = true := by
  rw [Survives] at h
  obtain ⟨e', he'⟩ := Option.isSome_iff_exists.mp h
  obtain ⟨v, hv, -⟩ := Option.bind_eq_some_iff.mp he'
  rw [hv]
  rfl

omit [DecidableEq E] in
theorem filter_serializable :
    (g.serializable s).filter (Survives s) = g.survivors s := by
  rw [serializable, survivors, List.filter_filter]
  refine List.filter_congr fun e _ => ?_
  cases h : Survives s e with
  | false => rfl
  | true => rw [serialize_of_survives h, Bool.true_and]

theorem serializeEditors_spec (h : g.Ordered) {editors : List E} (hnodup : editors.Nodup) (i : Nat)
    (acc : Serializing E V) :
    (serializeEditors s g i editors acc).serializableEditors =
        acc.serializableEditors ++ editors.filter (fun e => (s.serialize e).isSome) ∧
      (serializeEditors s g i editors acc).serializedEditors = acc.serializedEditors ++ editors.filterMap s.serialize ∧
      (serializeEditors s g i editors acc).serializablePreviewIndex =
        (match g.preview with
          | some p =>
            if p ∈ editors.filter (fun e => (s.serialize e).isSome) then
              some (acc.serializableEditors.length + (editors.filter fun e => (s.serialize e).isSome).idxOf p : Int)
            else acc.serializablePreviewIndex
          | none => acc.serializablePreviewIndex) ∧
      (serializeEditors s g i editors acc).serializableSticky =
        acc.serializableSticky -
          (editors.take (g.stickyCount - i)).countP fun e => !(s.serialize e).isSome := by
  induction editors generalizing i acc with
  | nil =>
    refine ⟨by simp [serializeEditors], by simp [serializeEditors], ?_, by simp [serializeEditors]⟩
    rw [serializeEditors]
    split <;> simp
  | cons e editors ih =>
    obtain ⟨hnot, hnodup⟩ := List.nodup_cons.mp hnodup
    obtain ⟨heditors, hvalues, hpreview, hsticky⟩ := ih hnodup (i + 1) (serializeEditor s g i e acc)
    have htake : (e :: editors).take (g.stickyCount - i) =
        if i < g.stickyCount then e :: editors.take (g.stickyCount - (i + 1)) else [] := by
      split
      · rw [show g.stickyCount - i = g.stickyCount - (i + 1) + 1 by omega, List.take_succ_cons]
      · rw [show g.stickyCount - i = 0 by omega, List.take_zero]
    rw [serializeEditors, heditors, hvalues, hpreview, hsticky, serializeEditor, htake]
    cases hv : s.serialize e with
    | none =>
      rw [List.filter_cons_of_neg (by simp [hv]), List.filterMap_cons_none hv]
      have hs : g.isSticky i = true ↔ i < g.stickyCount := (h.isSticky_iff (by omega)).trans (by omega)
      simp only [hs]
      by_cases hi : i < g.stickyCount
      · simp only [if_pos hi]
        rw [List.countP_cons_of_pos (by simp [hv])]
        exact ⟨trivial, trivial, trivial, by omega⟩
      · simp only [if_neg hi]
        rw [show g.stickyCount - (i + 1) = 0 by omega]
        exact ⟨trivial, trivial, trivial, rfl⟩
    | some v =>
      rw [List.filter_cons_of_pos (by simp [hv]), List.filterMap_cons_some hv]
      refine ⟨by simp, by simp, ?_, ?_⟩
      · cases hp : g.preview with
        | none => simp
        | some p =>
          simp only [List.length_append, List.length_cons, List.length_nil]
          by_cases hpe : p = e
          · subst hpe
            have hnot' : p ∉ editors.filter fun e => (s.serialize e).isSome :=
              fun hmem => hnot (List.mem_filter.mp hmem).1
            rw [if_neg hnot', if_pos rfl, if_pos List.mem_cons_self, List.idxOf_cons_self]
            simp
          · have hiff : p ∈ e :: editors.filter (fun e => (s.serialize e).isSome) ↔
                p ∈ editors.filter fun e => (s.serialize e).isSome :=
              List.mem_cons.trans (or_iff_right hpe)
            rw [List.idxOf_cons_ne _ fun heq => hpe heq.symm, if_neg fun heq => hpe (Option.some.inj heq)]
            simp only [hiff]
            split
            · congr 1
              omega
            · rfl
      · by_cases hi : i < g.stickyCount
        · rw [if_pos hi, List.countP_cons_of_neg (by simp [hv])]
        · rw [if_neg hi, show g.stickyCount - (i + 1) = 0 by omega]
          simp

omit [DecidableEq E] in
theorem deserializeEditors_spec (values : List V) (index : Nat) (sticky : Option Int) :
    (deserializeEditors s index values sticky).1 = values.map s.deserialize ∧
      (deserializeEditors s index values sticky).2 =
        sticky.map (stickyAfter index (values.map fun v => (s.deserialize v).isNone)) := by
  induction values generalizing index sticky with
  | nil => exact ⟨rfl, by cases sticky <;> rfl⟩
  | cons v values ih =>
    obtain ⟨h₁, h₂⟩ := ih (index + 1)
      (sticky.map fun sticky => if (s.deserialize v).isNone && (index : Int) ≤ sticky then sticky - 1 else sticky)
    simp only [deserializeEditors, h₁, h₂]
    exact ⟨rfl, by cases sticky <;> rfl⟩

omit [DecidableEq E] in
theorem coalesce_map {α β : Type*} (f : α → Option β) (l : List α) :
    coalesce (l.map f) = l.filterMap f := by
  rw [coalesce, List.filterMap_map]
  rfl

def RoundTrips (s : EditorSerializers E V) : Prop :=
  ∀ e v e', s.serialize e = some v → s.deserialize v = some e' → e' = e

omit [DecidableEq E] in
theorem filterMap_deserialize (hround : RoundTrips s) (l : List E) :
    (l.filterMap s.serialize).filterMap s.deserialize = l.filter (Survives s) := by
  rw [List.filterMap_filterMap]
  induction l with
  | nil => rfl
  | cons e l ih =>
    cases hv : (s.serialize e).bind s.deserialize with
    | none =>
      rw [List.filterMap_cons, hv, List.filter_cons_of_neg (by simp [Survives, hv])]
      exact ih
    | some e' =>
      obtain ⟨v, hv', he'⟩ := Option.bind_eq_some_iff.mp hv
      rw [List.filterMap_cons, hv, List.filter_cons_of_pos (by simp [Survives, hv]), hround e v e' hv' he', ← ih]

omit [DecidableEq E] in
theorem map_isNone_deserialize (l : List E) :
    ((l.filterMap s.serialize).map fun v => (s.deserialize v).isNone) =
      (l.filter fun e => (s.serialize e).isSome).map fun e => !Survives s e := by
  induction l with
  | nil => rfl
  | cons e l ih =>
    cases hv : s.serialize e with
    | none => rw [List.filterMap_cons_none hv, ih, List.filter_cons_of_neg (by simp [hv])]
    | some v =>
      rw [List.filterMap_cons_some hv, List.filter_cons_of_pos (by simp [hv]), List.map_cons, ih,
        List.map_cons, Survives, hv]
      simp

theorem filterMap_indexOf (l l' m : List E) :
    coalesce (((m.map fun e => indexOf (some e) l).filter (0 ≤ ·)).map fun i => itemAt l' i) =
      m.filterMap (atRank l l') := by
  rw [coalesce_map]
  induction m with
  | nil => rfl
  | cons e m ih =>
    rw [List.map_cons]
    by_cases he : e ∈ l
    · rw [indexOf_of_mem he, List.filter_cons_of_pos (by simp), List.filterMap_cons,
        List.filterMap_cons, ih, itemAt_natCast, atRank, if_pos he]
    · have hnone : atRank l l' e = none := if_neg he
      have hindex : indexOf (some e) l = -1 := if_neg he
      rw [hindex, List.filter_cons_of_neg (by simp), ih, List.filterMap_cons_none hnone]

theorem serialize_eq (h : g.Ordered) :
    g.serialize s =
      { editors := g.editors.filterMap s.serialize
        mru := (g.mru.map fun e => indexOf (some e) (g.serializable s)).filter (0 ≤ ·)
        preview := g.preview.bind fun p =>
          if p ∈ g.serializable s then some ((g.serializable s).idxOf p : Int) else none
        sticky :=
          if (g.serializedSticky s : Int) - 1 ≥ 0 then some ((g.serializedSticky s : Int) - 1)
          else none } := by
  obtain ⟨heditors, hvalues, hpreview, hsticky⟩ := serializeEditors_spec (s := s) h h.nodup 0 ⟨[], [], none, g.sticky⟩
  have hcount : (serializeEditors s g 0 g.editors ⟨[], [], none, g.sticky⟩).serializableSticky =
      (g.serializedSticky s : Int) - 1 := by
    have hlen := List.length_eq_countP_add_countP (fun e => (s.serialize e).isSome) (l := g.stickyEditors)
    have hfront : g.stickyEditors.length = g.stickyCount := by
      rw [stickyEditors, List.length_take, min_eq_left h.stickyCount_le]
    have hnot : (g.stickyEditors.countP fun e => decide ¬(s.serialize e).isSome = true) =
        (g.editors.take (g.stickyCount - 0)).countP fun e => !(s.serialize e).isSome := by
      rw [Nat.sub_zero, stickyEditors]
      congr 1
      funext e
      cases (s.serialize e).isSome <;> rfl
    rw [serializedSticky, ← List.countP_eq_length_filter, hsticky, ← hnot]
    have := h.stickyCount_eq
    simp only
    omega
  simp only [serialize, hcount, heditors, hvalues, hpreview, List.nil_append, List.length_nil]
  refine congrArg (fun p => SerializedEditorGroup.mk _ _ p _) ?_
  cases g.preview with
  | none => rfl
  | some p =>
    rw [serializable, Option.bind_some]
    simp only [Nat.cast_zero, zero_add]

theorem deserializeGroup_serialize (h : g.Ordered) (hround : RoundTrips s)
    (positioning : Option EditorOpenPositioning) (focusRecent : Bool) :
    (deserialize s positioning focusRecent (g.serialize s)).editors = g.survivors s ∧
      (deserialize s positioning focusRecent (g.serialize s)).mru =
        g.mru.filterMap (atRank (g.serializable s) (g.survivors s)) ∧
      (deserialize s positioning focusRecent (g.serialize s)).activeEditor =
        (deserialize s positioning focusRecent (g.serialize s)).mru.head? ∧
      (deserialize s positioning focusRecent (g.serialize s)).preview =
        g.preview.bind (atRank (g.serializable s) (g.survivors s)) ∧
      (deserialize s positioning focusRecent (g.serialize s)).sticky =
        stickyAfter 0 ((g.serializable s).map fun e => !Survives s e)
          ((g.serializedSticky s : Int) - 1) := by
  have heditors : (deserialize s positioning focusRecent (g.serialize s)).editors =
      g.survivors s := by
    simp only [deserialize, serialize_eq h, (deserializeEditors_spec _ _ _).1, coalesce_map]
    exact filterMap_deserialize hround g.editors
  refine ⟨heditors, ?_, ?_, ?_, ?_⟩
  · rw [← filterMap_indexOf, ← heditors]
    simp only [deserialize, serialize_eq h]
  · simp only [deserialize, activeEditor]
    split
    · next hmru =>
        rw [hmru]
        rfl
    · next hmru => rw [hmru]
  · rw [← heditors]
    simp only [deserialize, serialize_eq h]
    cases g.preview with
    | none => rfl
    | some p =>
      rw [Option.bind_some, Option.bind_some, atRank]
      split
      · rw [Option.bind_some, itemAt_natCast]
      · rfl
  · simp only [deserialize, serialize_eq h, (deserializeEditors_spec _ _ _).2, map_isNone_deserialize]
    rw [serializable]
    split
    · rfl
    · next hneg =>
        rw [stickyAfter_of_lt _ (by omega)]
        simp only [Option.map_none, Option.getD_none, new]
        omega

omit [DecidableEq E] in
theorem nodup_serializable (h : g.Ordered) : (g.serializable s).Nodup := h.nodup.filter _

omit [DecidableEq E] in
theorem nodup_survivors (h : g.Ordered) : (g.survivors s).Nodup := h.nodup.filter _

omit [DecidableEq E] in
theorem length_survivors_le : (g.survivors s).length ≤ (g.serializable s).length := by
  rw [← filter_serializable]
  exact List.length_filter_le _ _

omit [DecidableEq E] in
theorem mem_zip_of_mem_survivors {e : E} (he : e ∈ g.survivors s) :
    ∃ a, (a, e) ∈ (g.serializable s).zip (g.survivors s) := by
  obtain ⟨i, hi, rfl⟩ := List.mem_iff_getElem.mp he
  have hle := length_survivors_le (s := s) (g := g)
  refine ⟨(g.serializable s)[i], List.mem_of_getElem? (i := i) ?_⟩
  exact List.getElem?_zip_eq_some.mpr ⟨List.getElem?_eq_getElem (by omega), List.getElem?_eq_getElem hi⟩

theorem perm_restoredMru (h : g.Ordered) :
    (g.mru.filterMap (atRank (g.serializable s) (g.survivors s))).Perm
      (g.mru.filter (Survives s)) := by
  have hnodup := h.mru.nodup_iff.mpr h.nodup
  have hL := nodup_serializable (s := s) h
  have hS := nodup_survivors (s := s) h
  refine (List.perm_ext_iff_of_nodup (List.Nodup.filterMap ?_ hnodup) (hnodup.filter _)).mpr ?_
  · intro a b e ha hb
    rw [Option.mem_def, atRank_eq_some hL] at ha hb
    obtain ⟨i, hi⟩ := List.mem_iff_getElem?.mp ha
    obtain ⟨j, hj⟩ := List.mem_iff_getElem?.mp hb
    obtain ⟨hai, hei⟩ : (g.serializable s)[i]? = some a ∧ (g.survivors s)[i]? = some e :=
      List.getElem?_zip_eq_some.mp hi
    obtain ⟨hbj, hej⟩ : (g.serializable s)[j]? = some b ∧ (g.survivors s)[j]? = some e :=
      List.getElem?_zip_eq_some.mp hj
    have hij := (List.getElem?_inj (List.getElem?_eq_some_iff.mp hei).1 hS).mp (hei.trans hej.symm)
    rw [hij] at hai
    exact Option.some.inj (hai.symm.trans hbj)
  · intro e
    rw [List.mem_filterMap, List.mem_filter, h.mru.mem_iff]
    constructor
    · rintro ⟨a, -, ha⟩
      rw [atRank_eq_some hL] at ha
      exact List.mem_filter.mp (List.of_mem_zip ha).2
    · intro he
      obtain ⟨a, ha⟩ := mem_zip_of_mem_survivors (s := s) (g := g) (List.mem_filter.mpr he)
      refine ⟨a, ?_, (atRank_eq_some hL).mpr ha⟩
      rw [h.mru.mem_iff]
      exact (List.mem_filter.mp (List.of_mem_zip ha).1).1

theorem pairwise_idxOf {l : List E} (h : l.Nodup) :
    l.Pairwise fun a b => l.idxOf a < l.idxOf b := by
  rw [List.pairwise_iff_getElem]
  intro i j hi hj hij
  rwa [h.idxOf_getElem, h.idxOf_getElem]

theorem restoredMru_eq_iff (h : g.Ordered) :
    g.mru.filterMap (atRank (g.serializable s) (g.survivors s)) = g.mru.filter (Survives s) ↔
      ∀ a a' b b', (a, a') ∈ (g.serializable s).zip (g.survivors s) →
        (b, b') ∈ (g.serializable s).zip (g.survivors s) →
        g.mru.idxOf a < g.mru.idxOf b → g.mru.idxOf a' < g.mru.idxOf b' := by
  have hnodup := h.mru.nodup_iff.mpr h.nodup
  have hL := nodup_serializable (s := s) h
  have hsorted := pairwise_idxOf hnodup
  constructor
  · intro heq a a' b b' ha hb hab
    have hp : (g.mru.filterMap (atRank (g.serializable s) (g.survivors s))).Pairwise
        fun a b => g.mru.idxOf a < g.mru.idxOf b := heq ▸ hsorted.filter _
    rw [List.pairwise_filterMap, List.pairwise_iff_getElem] at hp
    have hmem : ∀ x x', (x, x') ∈ (g.serializable s).zip (g.survivors s) → x ∈ g.mru :=
      fun x x' hx => h.mru.mem_iff.mpr (List.mem_filter.mp (List.of_mem_zip hx).1).1
    have hat := hp _ _ (List.idxOf_lt_length_of_mem (hmem a a' ha)) (List.idxOf_lt_length_of_mem (hmem b b' hb)) hab
    rw [List.getElem_idxOf, List.getElem_idxOf] at hat
    exact hat a' ((atRank_eq_some hL).mpr ha) b' ((atRank_eq_some hL).mpr hb)
  · intro hcond
    refine List.Perm.eq_of_pairwise (fun a b _ _ hab hba => absurd hab (lt_asymm hba)) ?_
      (hsorted.filter _) (perm_restoredMru h)
    rw [List.pairwise_filterMap]
    refine hsorted.imp fun {a b} hab a' ha' b' hb' => ?_
    exact hcond a a' b b' ((atRank_eq_some hL).mp ha') ((atRank_eq_some hL).mp hb') hab

theorem idxOf_survivors {e : E} (he : e ∈ g.survivors s) :
    (g.survivors s).idxOf e + g.failuresBefore s e = (g.serializable s).idxOf e := by
  rw [← filter_serializable] at he ⊢
  obtain ⟨hmem, hq⟩ := List.mem_filter.mp he
  have hlen := List.length_eq_countP_add_countP (Survives s) (l := (g.serializable s).take ((g.serializable s).idxOf e))
  have hnot : (((g.serializable s).take ((g.serializable s).idxOf e)).countP
      fun x => decide ¬Survives s x = true) = g.failuresBefore s e := by
    rw [failuresBefore]
    congr 1
    funext x
    cases Survives s x <;> rfl
  rw [idxOf_filter hmem hq]
  rw [List.length_take, min_eq_left (List.idxOf_le_length), hnot] at hlen
  omega

theorem restoredPreview_eq_iff (h : g.Ordered) :
    g.preview.bind (atRank (g.serializable s) (g.survivors s)) = g.preview.filter (Survives s) ↔
      ∀ p ∈ g.preview, p ∈ g.serializable s →
        if Survives s p then g.failuresBefore s p = 0
        else (g.survivors s).length ≤ (g.serializable s).idxOf p := by
  cases hp : g.preview with
  | none => simp
  | some p =>
    have hopen := h.preview p hp
    simp only [Option.bind_some, Option.mem_def, Option.some.injEq, forall_eq']
    by_cases hmem : p ∈ g.serializable s
    · rw [atRank, if_pos hmem]
      simp only [hmem, true_implies]
      cases hs : Survives s p with
      | true =>
        have hsurv : p ∈ g.survivors s := List.mem_filter.mpr ⟨hopen, hs⟩
        have hidx := idxOf_survivors hsurv
        have hlt := List.idxOf_lt_length_of_mem hsurv
        rw [Option.filter_some_pos hs, if_pos rfl]
        constructor
        · intro hget
          obtain ⟨hlt', hget'⟩ := List.getElem?_eq_some_iff.mp hget
          have := (nodup_survivors h).idxOf_getElem _ hlt'
          rw [hget'] at this
          omega
        · intro hzero
          rw [show (g.serializable s).idxOf p = (g.survivors s).idxOf p by omega,
            List.getElem?_eq_getElem hlt, List.getElem_idxOf]
      | false => rw [Option.filter_some_neg (by simp [hs]), if_neg Bool.false_ne_true, List.getElem?_eq_none_iff]
    · have hs : Survives s p = false := by
        by_contra hs
        rw [Bool.not_eq_false] at hs
        exact hmem (List.mem_filter.mpr ⟨hopen, serialize_of_survives hs⟩)
      rw [atRank, if_neg hmem, Option.filter_some_neg (by simp [hs])]
      simp only [hmem, false_implies]

theorem idxOf_survivors_lt_iff {e : E} (he : e ∈ g.survivors s) :
    (g.survivors s).idxOf e < g.stickyEditors.countP (Survives s) ↔ e ∈ g.stickyEditors := by
  rw [← List.mem_take_iff_idxOf_lt he, survivors, stickyEditors, take_filter, List.mem_filter]
  exact and_iff_left (List.mem_filter.mp he).2

theorem idxOf_serializable_lt_iff {e : E} (he : e ∈ g.serializable s) :
    (g.serializable s).idxOf e < g.serializedSticky s ↔ e ∈ g.stickyEditors := by
  rw [serializedSticky, ← List.countP_eq_length_filter, ← List.mem_take_iff_idxOf_lt he,
    serializable, stickyEditors, take_filter, List.mem_filter]
  exact and_iff_left (List.mem_filter.mp he).2

omit [DecidableEq E] in
theorem countP_take_fails (s : EditorSerializers E V) (l : List E) (k : Nat) :
    ((l.map fun e => !Survives s e).take k).countP id = (l.take k).countP fun e => !Survives s e := by
  rw [← List.map_take, List.countP_map]
  rfl

omit [DecidableEq E] in
theorem countP_sticky (s : EditorSerializers E V) (g : EditorGroupModel E) :
    (((g.serializable s).take (g.serializedSticky s)).countP fun e => !Survives s e) +
      g.stickyEditors.countP (Survives s) = g.serializedSticky s := by
  have hfront : (g.serializable s).take (g.serializedSticky s) =
      g.stickyEditors.filter fun x => (s.serialize x).isSome := by
    rw [serializedSticky, ← List.countP_eq_length_filter, serializable, stickyEditors, take_filter]
  have hsurvive : g.stickyEditors.countP (Survives s) =
      (g.stickyEditors.filter fun x => (s.serialize x).isSome).countP (Survives s) := by
    rw [List.countP_filter]
    refine List.countP_congr fun e _ => ?_
    rw [Bool.and_eq_true]
    exact ⟨fun hs => ⟨hs, serialize_of_survives hs⟩, And.left⟩
  have hlen := List.length_eq_countP_add_countP (Survives s)
    (l := g.stickyEditors.filter fun x => (s.serialize x).isSome)
  have hnot : ((g.stickyEditors.filter fun x => (s.serialize x).isSome).countP
      fun x => decide ¬Survives s x = true) =
      (g.stickyEditors.filter fun x => (s.serialize x).isSome).countP fun e => !Survives s e := by
    congr 1
    funext x
    cases Survives s x <;> rfl
  rw [hfront, hsurvive]
  rw [hnot] at hlen
  have : (g.stickyEditors.filter fun x => (s.serialize x).isSome).length = g.serializedSticky s := rfl
  omega

theorem restoredSticky_eq (h : g.Ordered) (hcounted : ∀ e ∈ g.serializable s, Survives s e = false →
      e ∈ g.stickyEditors →
      (g.serializable s).idxOf e + g.failuresBefore s e < g.serializedSticky s) :
    stickyAfter 0 ((g.serializable s).map fun e => !Survives s e) ((g.serializedSticky s : Int) - 1) =
      (g.stickyEditors.countP (Survives s) : Int) - 1 := by
  have hcount := countP_sticky s g
  rw [stickyAfter_eq (t := (g.serializedSticky s : Int) - 1) le_rfl, countP_take_fails,
    show ((g.serializedSticky s : Int) - 1 + 1 - (0 : Nat)).toNat = g.serializedSticky s by omega]
  · omega
  · intro j hj hjt
    rw [List.getElem?_map, Option.map_eq_some_iff] at hj
    obtain ⟨e, he, hfails⟩ := hj
    obtain ⟨hlt, hget⟩ := List.getElem?_eq_some_iff.mp he
    have hmem := List.mem_of_getElem? he
    have hidx : (g.serializable s).idxOf e = j := by
      rw [← hget]
      exact (nodup_serializable h).idxOf_getElem _ hlt
    have hsticky := (idxOf_serializable_lt_iff hmem).mp (by omega)
    have hlt := hcounted e hmem (by simpa using hfails) hsticky
    rw [failuresBefore, hidx] at hlt
    rw [countP_take_fails]
    omega

theorem lt_restoredSticky (hmissed : ∃ e ∈ g.serializable s, Survives s e = false ∧
      e ∈ g.stickyEditors ∧
      g.serializedSticky s ≤ (g.serializable s).idxOf e + g.failuresBefore s e) :
    (g.stickyEditors.countP (Survives s) : Int) - 1 <
      stickyAfter 0 ((g.serializable s).map fun e => !Survives s e)
        ((g.serializedSticky s : Int) - 1) := by
  obtain ⟨e, hmem, hfails, hsticky, hge⟩ := hmissed
  have hcount := countP_sticky s g
  have hlt := (idxOf_serializable_lt_iff hmem).mpr hsticky
  have hidx := List.idxOf_lt_length_of_mem hmem
  have hmiss := @lt_stickyAfter ((g.serializedSticky s : Int) - 1) ((g.serializedSticky s : Int) - 1) 0
    ((g.serializable s).idxOf e) ((g.serializable s).map fun e => !Survives s e) le_rfl ?_ ?_ ?_
  · rw [countP_take_fails,
      show ((g.serializedSticky s : Int) - 1 + 1 - (0 : Nat)).toNat = g.serializedSticky s by omega]
      at hmiss
    omega
  · rw [List.getElem?_map, List.getElem?_eq_getElem hidx, List.getElem_idxOf, Option.map_some, hfails]
    rfl
  · omega
  · rw [countP_take_fails]
    rw [failuresBefore] at hge
    omega

theorem restored_iff (h : g.Ordered) (hround : RoundTrips s)
    (positioning : Option EditorOpenPositioning) (focusRecent : Bool) :
    g.Restored s (deserialize s positioning focusRecent (g.serialize s)) ↔ g.RestartSafe s := by
  obtain ⟨heditors, hmru, hactive, hpreview, hsticky⟩ := deserializeGroup_serialize h hround positioning focusRecent
  generalize deserialize s positioning focusRecent (g.serialize s) = g' at heditors hmru hactive hpreview hsticky
  have hstickyIff : (∀ e ∈ g.survivors s,
      (g'.isSticky (g'.editors.idxOf e) = true ↔ g.isSticky (g.editors.idxOf e) = true)) ↔
      ((∀ e ∈ g.survivors s, e ∈ g.stickyEditors) ∨
        ∀ e ∈ g.serializable s, Survives s e = false → e ∈ g.stickyEditors →
          (g.serializable s).idxOf e + g.failuresBefore s e < g.serializedSticky s) := by
    have hiff : ∀ e ∈ g.survivors s,
        ((g'.isSticky (g'.editors.idxOf e) = true ↔ g.isSticky (g.editors.idxOf e) = true) ↔
          (((g.survivors s).idxOf e : Int) ≤ g'.sticky ↔ e ∈ g.stickyEditors)) := by
      intro e he
      rw [isSticky_natCast, h.isSticky_idxOf (List.mem_filter.mp he).1, heditors]
    constructor
    · intro hall
      by_contra hnot
      obtain ⟨⟨e, he, hplain⟩, hmissed⟩ :
          (∃ e ∈ g.survivors s, e ∉ g.stickyEditors) ∧
            ∃ e ∈ g.serializable s, Survives s e = false ∧ e ∈ g.stickyEditors ∧
              g.serializedSticky s ≤ (g.serializable s).idxOf e + g.failuresBefore s e := by
        push Not at hnot
        exact hnot
      have hlt := lt_restoredSticky hmissed
      rw [← hsticky] at hlt
      -- the first survivor that was not sticky is sticky now
      have hidx := List.idxOf_lt_length_of_mem he
      have hge := not_lt.mp fun hn => hplain ((idxOf_survivors_lt_iff he).mp hn)
      have hfirst : (g.survivors s)[g.stickyEditors.countP (Survives s)] ∈ g.survivors s := List.getElem_mem (by omega)
      have hrank := (nodup_survivors (s := s) h).idxOf_getElem _
        (show g.stickyEditors.countP (Survives s) < (g.survivors s).length by omega)
      have := ((hiff _ hfirst).mp (hall _ hfirst)).mp (by omega)
      rw [← idxOf_survivors_lt_iff hfirst, hrank] at this
      omega
    · rintro (hall | hcounted) e he
      · rw [hiff e he]
        refine iff_of_true ?_ (hall e he)
        have hlt := (idxOf_survivors_lt_iff he).mpr (hall e he)
        by_cases hmissed : ∃ e ∈ g.serializable s, Survives s e = false ∧ e ∈ g.stickyEditors ∧
            g.serializedSticky s ≤ (g.serializable s).idxOf e + g.failuresBefore s e
        · have := lt_restoredSticky hmissed
          omega
        · push Not at hmissed
          have := restoredSticky_eq h hmissed
          omega
      · rw [hiff e he, ← idxOf_survivors_lt_iff he, hsticky, restoredSticky_eq h hcounted]
        omega
  constructor
  · intro hr
    exact ⟨(restoredMru_eq_iff h).mp (hmru ▸ hr.mru), (restoredPreview_eq_iff h).mp (hpreview ▸ hr.preview),
      hstickyIff.mp hr.sticky⟩
  · intro hsafe
    have hmru' := hmru.trans ((restoredMru_eq_iff h).mpr hsafe.mru)
    exact ⟨heditors, hmru', hactive.trans (congrArg List.head? hmru'),
      hpreview.trans ((restoredPreview_eq_iff h).mpr hsafe.preview), hstickyIff.mpr hsafe.sticky⟩

theorem ordered_run (kinds : EditorKinds E) {g g' : EditorGroupModel E} (h : g.Ordered)
    {ops : List (Operation E)} (hrun : run (step kinds) g ops = some g') : g'.Ordered := by
  refine @run_invariant _ _ (step kinds) (fun _ _ => True) Ordered (fun g op g' h _ hstep => ?_) _ _ _ h
    (Guarded.of_forall fun _ _ _ => trivial) hrun
  obtain rfl := Option.some.inj hstep
  exact h.apply kinds op

/-- A group that was reached survives a restart exactly if the failures leave its ranks alone. -/
theorem restart_iff (kinds : EditorKinds E) {positioning : Option EditorOpenPositioning}
    {focusRecent : Bool} {ops : List (Operation E)} {g : EditorGroupModel E}
    (hrun : run (step kinds) (new positioning focusRecent) ops = some g)
    {s : EditorSerializers E V} (hround : RoundTrips s)
    (positioning' : Option EditorOpenPositioning) (focusRecent' : Bool) :
    g.Restored s (deserialize s positioning' focusRecent' (g.serialize s)) ↔ g.RestartSafe s :=
  restored_iff (ordered_run kinds (new_consistent positioning focusRecent).toOrdered hrun) hround
    positioning' focusRecent'

/-- Two editors, of which the first is not deserialized. -/
theorem restart_iff_of_failure :
    (⟨[1, 2], [2, 1], [2], none, -1, [], none, true⟩ : EditorGroupModel Nat).Restored
        (⟨some, fun v => if v = 1 then none else some v⟩ : EditorSerializers Nat Nat)
        ⟨[2], [2], [2], none, -1, [], none, true⟩ ↔
      (⟨[1, 2], [2, 1], [2], none, -1, [], none, true⟩ : EditorGroupModel Nat).RestartSafe
        (⟨some, fun v => if v = 1 then none else some v⟩ : EditorSerializers Nat Nat) := by
  let options : EditorOpenOptions Nat := ⟨true, false, false, true, [], none, none⟩
  refine @restart_iff Nat Nat _ ⟨fun _ => false, fun _ _ _ => false⟩ none true
    [.openEditor 1 options, .openEditor 2 options] _ (by decide) _ (fun e v e' hv he' => ?_) none true
  obtain rfl := Option.some.inj hv
  dsimp only at he'
  split at he'
  · cases he'
  · exact (Option.some.inj he').symm

/-- The first of three editors is not deserialized: then another one than before is active. -/
theorem not_restart_behind_failure :
    ¬∀ (kinds : EditorKinds Nat) (positioning : Option EditorOpenPositioning) (focusRecent : Bool)
        (ops : List (Operation Nat)) (g : EditorGroupModel Nat) (s : EditorSerializers Nat Nat),
      run (step kinds) (new positioning focusRecent) ops = some g → RoundTrips s →
      g.Restored s (deserialize s positioning focusRecent (g.serialize s)) := by
  intro h
  let options : EditorOpenOptions Nat := ⟨true, false, false, true, [], none, none⟩
  let s : EditorSerializers Nat Nat := ⟨some, fun v => if v = 1 then none else some v⟩
  have hrestored := h ⟨fun _ => false, fun _ _ _ => false⟩ none true
    [.openEditor 1 options, .openEditor 2 options, .openEditor 3 options, .setActive (some 2)]
    ⟨[1, 2, 3], [2, 3, 1], [2], none, -1, [], none, true⟩ s (by decide) fun e v e' hv he' => by
      obtain rfl := Option.some.inj hv
      dsimp only [s] at he'
      split at he'
      · cases he'
      · exact (Option.some.inj he').symm
  exact absurd hrestored.active (by decide)

end EditorGroupModel

end Gavea.EditorGroup
