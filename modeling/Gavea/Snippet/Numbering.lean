import Gavea.Snippet.SnippetParser

namespace Gavea.Snippet

open Gavea.Lib.Js List

variable {R : Type}

mutual

def Marker.markers : Marker R → List (Marker R)
  | .leaf id parent kind => [.leaf id parent kind]
  | .inner id parent kind children => .inner id parent kind children :: markersOf children

def markersOf : List (Marker R) → List (Marker R)
  | [] => []
  | child :: children => child.markers ++ markersOf children

end

theorem Marker.markers_eq (m : Marker R) : m.markers = m :: markersOf m.children := by
  cases m with
  | leaf id parent kind => rfl
  | inner id parent kind children => rfl

theorem markersOf_append (l l' : List (Marker R)) :
    markersOf (l ++ l') = markersOf l ++ markersOf l' := by
  induction l with
  | nil => rfl
  | cons m l ih => rw [cons_append, markersOf, markersOf, ih, append_assoc]

theorem markersOf_singleton (m : Marker R) : markersOf [m] = m.markers := by
  rw [markersOf, markersOf, append_nil]

def visit {S : Type} (visitor : S → Marker R → S × Bool) : List (Marker R) → S → S
  | [], state => state
  | m :: ms, state => if (visitor state m).2 then visit visitor ms (visitor state m).1 else (visitor state m).1

theorem walk_eq {S : Type} (visitor : S → Marker R → S × Bool) (stack : List (Marker R)) (s : S) :
    walk visitor stack s = visit visitor (markersOf stack) s := by
  induction hn : countAll stack using Nat.strong_induction_on generalizing stack s with
  | h n ih =>
    cases stack with
    | nil => rw [walk, markersOf, visit]
    | cons m stack =>
      have hlt : countAll (m.children ++ stack) < n := by
        rw [← hn, countAll_append, countAll, m.count_eq]
        exact Nat.add_lt_add_right (Nat.lt_succ_self _) _
      rw [walk, markersOf, m.markers_eq, cons_append, visit, ← markersOf_append]
      obtain ⟨s', recurse⟩ := visitor s m
      simp only
      split_ifs
      · exact ih _ hlt _ _ rfl
      · rfl

theorem visit_eq_foldl {S : Type} {visitor : S → Marker R → S × Bool}
    (h : ∀ s m, (visitor s m).2 = true) (ms : List (Marker R)) (s : S) :
    visit visitor ms s = ms.foldl (fun s m => (visitor s m).1) s := by
  induction ms generalizing s with
  | nil => rfl
  | cons m ms ih => rw [visit, if_pos (h s m), ih, foldl_cons]

theorem toStrings_append (l l' : List (Marker R)) :
    toStrings (l ++ l') = toStrings l ++ toStrings l' := by
  induction l with
  | nil => rfl
  | cons m l ih => rw [cons_append, toStrings, toStrings, ih, append_assoc]

theorem LeafKind.length_toString (kind : LeafKind) : kind.toString.length = kind.len := by
  cases kind with
  | Text value => rfl
  | Choice options => rfl

mutual

theorem Marker.length_toString (m : Marker R) :
    m.toString.length = (m.markers.map Marker.len).sum := by
  cases m with
  | leaf id parent kind =>
    rw [Marker.toString, kind.length_toString, Marker.markers, map_singleton, sum_singleton, Marker.len]
  | inner id parent kind children =>
    rw [Marker.toString, Marker.markers, map_cons, sum_cons, Marker.len, Nat.zero_add]
    exact length_toStrings children

theorem length_toStrings (ms : List (Marker R)) :
    (toStrings ms).length = ((markersOf ms).map Marker.len).sum := by
  cases ms with
  | nil => rfl
  | cons m ms =>
    rw [toStrings, markersOf, length_append, map_append, sum_append, m.length_toString, length_toStrings ms]

end

mutual

theorem Marker.exists_split {m p : Marker R} (h : p ∈ m.markers) : ∃ pre post before after,
    m.markers = pre ++ p :: post ∧ m.toString = before ++ p.toString ++ after ∧
      before.length = (pre.map Marker.len).sum := by
  cases m with
  | leaf id parent kind =>
    rw [Marker.markers, mem_singleton] at h
    subst h
    exact ⟨[], [], [], [], rfl, by simp, rfl⟩
  | inner id parent kind children =>
    rw [Marker.markers, mem_cons] at h
    rcases h with rfl | h
    · exact ⟨[], markersOf children, [], [], rfl, by simp, rfl⟩
    · obtain ⟨pre, post, before, after, hms, htext, hlen⟩ := exists_split_markersOf h
      refine ⟨.inner id parent kind children :: pre, post, before, after, ?_, htext, ?_⟩
      · rw [Marker.markers, hms, cons_append]
      · rw [hlen, map_cons, sum_cons, Marker.len, Nat.zero_add]

theorem exists_split_markersOf {ms : List (Marker R)} {p : Marker R} (h : p ∈ markersOf ms) :
    ∃ pre post before after, markersOf ms = pre ++ p :: post ∧
      toStrings ms = before ++ p.toString ++ after ∧
      before.length = (pre.map Marker.len).sum := by
  cases ms with
  | nil => cases h
  | cons m ms =>
    rw [markersOf, mem_append] at h
    rcases h with h | h
    · obtain ⟨pre, post, before, after, hms, htext, hlen⟩ := Marker.exists_split h
      refine ⟨pre, post ++ markersOf ms, before, after ++ toStrings ms, ?_, ?_, hlen⟩
      · rw [markersOf, hms, append_assoc, cons_append]
      · rw [toStrings, htext, append_assoc]
    · obtain ⟨pre, post, before, after, hms, htext, hlen⟩ := exists_split_markersOf h
      refine ⟨m.markers ++ pre, post, m.toString ++ before, after, ?_, ?_, ?_⟩
      · rw [markersOf, hms, append_assoc]
      · rw [toStrings, htext, ← append_assoc, ← append_assoc]
      · rw [length_append, map_append, sum_append, hlen, m.length_toString]

end

def ids (ms : List (Marker R)) : List Nat := (markersOf ms).map Marker.id

theorem ids_append (l l' : List (Marker R)) : ids (l ++ l') = ids l ++ ids l' := by
  rw [ids, markersOf_append, map_append]
  rfl

theorem ids_cons (m : Marker R) (ms : List (Marker R)) :
    ids (m :: ms) = m.id :: (ids m.children ++ ids ms) := by
  rw [ids, markersOf, m.markers_eq, cons_append, map_cons, map_append]
  rfl

structure Numbered (start stop : Nat) (ms : List (Marker R)) : Prop where
  le : start ≤ stop
  nodup : (ids ms).Nodup
  bounds : ∀ i ∈ ids ms, start ≤ i ∧ i < stop

variable {a b c : Nat} {l l' : List (Marker R)}

namespace Numbered

theorem nil (h : a ≤ b) : Numbered a b ([] : List (Marker R)) := ⟨h, nodup_nil, fun _ hi => absurd hi not_mem_nil⟩

theorem append (h : Numbered a b l) (h' : Numbered b c l') : Numbered a c (l ++ l') := by
  refine ⟨h.le.trans h'.le, ?_, fun i hi => ?_⟩
  · rw [ids_append]
    refine h.nodup.append h'.nodup fun i hi hi' => ?_
    have hlt := (h.bounds i hi).2
    have hle := (h'.bounds i hi').1
    omega
  · rw [ids_append, mem_append] at hi
    rcases hi with hi | hi
    · have hb := h.bounds i hi
      exact ⟨hb.1, hb.2.trans_le h'.le⟩
    · have hb := h'.bounds i hi
      exact ⟨h.le.trans hb.1, hb.2⟩

theorem of_subperm (h : Numbered a b l) (hsub : List.Subperm (ids l') (ids l)) :
    Numbered a b l' := by
  obtain ⟨l₀, hperm, hsublist⟩ := hsub
  exact ⟨h.le, hperm.nodup_iff.mp (h.nodup.sublist hsublist),
    fun i hi => h.bounds i (hsublist.subset (hperm.mem_iff.mpr hi))⟩

theorem of_sublist (h : Numbered a b l) (hsub : List.Sublist (ids l') (ids l)) :
    Numbered a b l' := h.of_subperm hsub.subperm

theorem leaf (n : Nat) (parent : Option Nat) (kind : LeafKind) :
    Numbered n (n + 1) [(.leaf n parent kind : Marker R)] := by
  refine ⟨n.le_succ, nodup_singleton n, fun i hi => ?_⟩
  rw [mem_singleton.mp hi]
  exact ⟨le_rfl, n.lt_succ_self⟩

theorem inner {n : Nat} (parent : Option Nat) (kind : InnerKind R) {children : List (Marker R)}
    (h : Numbered (n + 1) b children) : Numbered n b [.inner n parent kind children] := by
  have hids : ids [.inner n parent kind children] = n :: ids children := by
    rw [ids_cons]
    simp [Marker.id, Marker.children, ids, markersOf]
  have hle := h.le
  refine ⟨by omega, ?_, fun i hi => ?_⟩
  · rw [hids, nodup_cons]
    refine ⟨fun hn => ?_, h.nodup⟩
    have hb := (h.bounds n hn).1
    omega
  · rw [hids, mem_cons] at hi
    rcases hi with rfl | hi
    · exact ⟨le_rfl, by omega⟩
    · have hb := h.bounds i hi
      exact ⟨by omega, hb.2⟩

end Numbered

theorem ids_setParent (parent : Nat) (m : Marker R) : ids [m.setParent parent] = ids [m] := by
  cases m with
  | leaf id p kind => rfl
  | inner id p kind children => rfl

theorem ids_appendChild (id : Nat) (children : List (Marker R)) (child : Marker R) :
    List.Sublist (ids (appendChild id children child)) (ids children ++ ids [child]) := by
  unfold appendChild
  split
  next last parent before id' parent' value hlast =>
      obtain ⟨init, rfl⟩ := getLast?_eq_some_iff.mp hlast
      have hids : ids (init ++ [.leaf last parent (.Text (before ++ value))]) =
          ids (init ++ [(.leaf last parent (.Text before) : Marker R)]) := by
        rw [ids_append, ids_append]
        rfl
      rw [dropLast_concat, hids]
      exact sublist_append_left _ _
  next => rw [ids_append, ids_setParent]

theorem ids_foldl_appendChild (id : Nat) (ms children : List (Marker R)) :
    List.Sublist (ids (ms.foldl (appendChild id) children)) (ids children ++ ids ms) := by
  induction ms generalizing children with
  | nil =>
    rw [foldl_nil]
    exact sublist_append_left _ _
  | cons m ms ih =>
    rw [foldl_cons, ← singleton_append, ids_append, ← append_assoc]
    exact (ih _).trans ((ids_appendChild id children m).append_right _)

theorem Numbered.appendAll (h : Numbered a b l) (h' : Numbered b c l') (id : Nat) :
    Numbered a c (l'.foldl (appendChild id) l) := by
  refine (h.append h').of_sublist ?_
  rw [ids_append]
  exact ids_foldl_appendChild id l' l

theorem Numbered.appendChild {child : Marker R} (h : Numbered a b l) (h' : Numbered b c [child])
    (id : Nat) : Numbered a c (appendChild id l child) := h.appendAll h' id

mutual

theorem Marker.ids_fixParent (parent : Nat) (m : Marker R) :
    ids [m.fixParent parent] = ids [m] := by
  cases m with
  | leaf id p kind => rfl
  | inner id p kind children =>
    rw [ids_cons, ids_cons, Marker.fixParent]
    simp only [Marker.id, Marker.children]
    rw [ids_fixParents id children]

theorem ids_fixParents (parent : Nat) (ms : List (Marker R)) :
    ids (fixParents parent ms) = ids ms := by
  cases ms with
  | nil => rfl
  | cons m ms =>
    rw [fixParents, ← singleton_append, ids_append, m.ids_fixParent,
      ids_fixParents parent ms, ← ids_append, singleton_append]

end

theorem ids_spliceChild (child : Nat) (others children : List (Marker R)) :
    List.Subperm (ids (spliceChild child others children)) (ids children ++ ids others) := by
  rw [spliceChild]
  generalize (children.findIdx? fun c => c.id == child).getD (children.length - 1) = k
  have hperm : List.Perm (ids (children.take k ++ others ++ children.drop (k + 1)))
      (ids (children.take k) ++ ids (children.drop (k + 1)) ++ ids others) := by
    rw [ids_append, ids_append, append_assoc, append_assoc]
    exact List.Perm.append_left _ perm_append_comm
  have hsub : List.Sublist (ids (children.take k) ++ ids (children.drop (k + 1)))
      (ids children) := by
    conv_rhs => rw [← take_append_drop k children, ids_append]
    refine List.Sublist.append_left ?_ _
    rw [← tail_drop]
    cases children.drop k with
    | nil => exact List.Sublist.refl _
    | cons m ms =>
      rw [tail_cons, ← singleton_append, ids_append]
      exact sublist_append_right _ _
  exact hperm.subperm.trans (hsub.append_right _).subperm

theorem Numbered.spliceChild (h : Numbered a b l) (h' : Numbered b c l') (child : Nat) :
    Numbered a c (spliceChild child l' l) := by
  refine (h.append h').of_subperm ?_
  rw [ids_append]
  exact ids_spliceChild child l' l

mutual

theorem Marker.replace_of_notMem {parent child : Nat} {others : List (Marker R)} {m : Marker R}
    (h : parent ∉ ids [m]) : m.replace parent child others = m := by
  cases m with
  | leaf id p kind => rfl
  | inner id p kind children =>
    rw [ids_cons, mem_cons, mem_append] at h
    simp only [not_or] at h
    obtain ⟨hne, hchildren, -⟩ := h
    have hbelow : replaceBelow parent child others children = children := replaceBelow_of_notMem hchildren
    rw [Marker.replace, if_neg (fun heq => hne heq.symm), hbelow]

theorem replaceBelow_of_notMem {parent child : Nat} {others ms : List (Marker R)}
    (h : parent ∉ ids ms) : replaceBelow parent child others ms = ms := by
  cases ms with
  | nil => rfl
  | cons m ms =>
    rw [← singleton_append, ids_append, mem_append, not_or] at h
    rw [replaceBelow, Marker.replace_of_notMem h.1, replaceBelow_of_notMem h.2]

end

mutual

theorem Marker.ids_replace {parent child : Nat} {others : List (Marker R)} {m : Marker R}
    (h : (ids [m]).Nodup) :
    List.Subperm (ids [m.replace parent child others]) (ids [m] ++ ids others) := by
  cases m with
  | leaf id p kind => exact (sublist_append_left _ _).subperm
  | inner id p kind children =>
    have hids (cs : List (Marker R)) : ids [.inner id p kind cs] = id :: ids cs := by
      rw [ids_cons]
      simp [Marker.id, Marker.children, ids, markersOf]
    rw [hids, nodup_cons] at h
    rw [Marker.replace, hids, hids, cons_append]
    refine (subperm_cons id).mpr ?_
    split_ifs with heq
    · have hsub := ids_spliceChild child (fixParents parent others) children
      rwa [ids_fixParents] at hsub
    · exact ids_replaceBelow h.2

theorem ids_replaceBelow {parent child : Nat} {others ms : List (Marker R)} (h : (ids ms).Nodup) :
    List.Subperm (ids (replaceBelow parent child others ms)) (ids ms ++ ids others) := by
  cases ms with
  | nil => exact nil_subperm
  | cons m ms =>
    rw [← singleton_append, ids_append, nodup_append] at h
    obtain ⟨hm, hms, hdisjoint⟩ := h
    rw [replaceBelow, ← singleton_append, ids_append, ← @singleton_append _ m, ids_append]
    by_cases hmem : parent ∈ ids [m]
    · have hnot : parent ∉ ids ms := fun hin => hdisjoint parent hmem parent hin rfl
      rw [replaceBelow_of_notMem hnot]
      have hperm : List.Perm (ids [m] ++ ids others ++ ids ms)
          (ids [m] ++ ids ms ++ ids others) := by
        rw [append_assoc, append_assoc]
        exact List.Perm.append_left _ perm_append_comm
      exact ((subperm_append_right _).mpr (Marker.ids_replace hm)).trans hperm.subperm
    · rw [Marker.replace_of_notMem hmem, append_assoc]
      exact (subperm_append_left _).mpr (ids_replaceBelow hms)

end

theorem Numbered.replaceBelow (h : Numbered a b l) (h' : Numbered b c l') (parent child : Nat) :
    Numbered a c (replaceBelow parent child l' l) := by
  refine (h.append h').of_subperm ?_
  rw [ids_append]
  exact ids_replaceBelow h.nodup

namespace SnippetParser

variable {ts ts' : List Token} {n n' : Nat} {ms : List (Marker R)}

theorem parseEscaped_numbered (h : parseEscaped ts n = some (ms, ts', n')) : Numbered n n' ms := by
  rw [parseEscaped] at h
  split at h
  · cases h
  · obtain ⟨rfl, -, rfl⟩ := h
    exact Numbered.leaf _ _ _

theorem parseTabstopOrVariableName_numbered
    (h : parseTabstopOrVariableName ts n = some (ms, ts', n')) : Numbered n n' ms := by
  simp only [parseTabstopOrVariableName, Option.bind_eq_bind, Option.bind_eq_some_iff,
    Option.pure_def, Option.some.injEq, Prod.mk.injEq] at h
  obtain ⟨-, -, -, -, rfl, -, rfl⟩ := h
  exact Numbered.inner _ _ (Numbered.nil le_rfl)

theorem parseAnything_numbered (h : parseAnything ts n = some (ms, ts', n')) :
    Numbered n n' ms := by
  cases ts with
  | nil => cases h
  | cons token ts =>
    obtain ⟨rfl, -, rfl⟩ := h
    exact Numbered.leaf _ _ _

variable {regExp : RegExpClass R}
  {loop : Nat → List Token → Nat → List (Marker R) × List Token × Nat × Bool}

def NumberedLoop (loop : Nat → List Token → Nat → List (Marker R) × List Token × Nat × Bool) :
    Prop := ∀ id ts n, Numbered n (loop id ts n).2.2.1 (loop id ts n).1

theorem afterColon_numbered {start : JsString} {kind : InnerKind R} (hloop : NumberedLoop loop)
    (h : afterColon loop start kind ts n = some (ms, ts', n')) : Numbered n n' ms := by
  have hl := hloop n ts (n + 1)
  rw [afterColon] at h
  split at h
  next children ts₁ next hl' =>
      obtain ⟨rfl, -, rfl⟩ := h
      rw [hl'] at hl
      exact Numbered.inner _ _ hl
  next children ts₁ next hl' =>
      obtain ⟨rfl, -, rfl⟩ := h
      rw [hl'] at hl
      have hboth := hl.append (Numbered.leaf next none (.Text ([0x24, 0x7B] ++ start ++ [0x3A])))
      have hle : n ≤ n + 1 := n.le_succ
      have hperm : List.Perm (ids (children ++ [.leaf next none (.Text ([0x24, 0x7B] ++ start ++
          [0x3A]))])) (ids (.leaf next none (.Text ([0x24, 0x7B] ++ start ++ [0x3A])) ::
            children)) := by
        rw [← singleton_append, ids_append, ids_append]
        exact perm_append_comm
      have hnumbered := hboth.of_subperm hperm.symm.subperm
      exact ⟨hle.trans hnumbered.le, hnumbered.nodup, fun i hi =>
        ⟨hle.trans (hnumbered.bounds i hi).1, (hnumbered.bounds i hi).2⟩⟩

theorem parseComplexPlaceholder_numbered (hloop : NumberedLoop loop)
    (h : parseComplexPlaceholder regExp loop ts n = some (ms, ts', n')) : Numbered n n' ms := by
  simp only [parseComplexPlaceholder, Option.bind_eq_bind, Option.bind_eq_some_iff, Option.pure_def] at h
  obtain ⟨-, -, -, -, ⟨digits, ts₁⟩, -, h⟩ := h
  split at h
  · exact afterColon_numbered hloop h
  · split at h
    · simp only [Option.bind_eq_some_iff, Option.some.injEq, Prod.mk.injEq] at h
      obtain ⟨⟨options, ts₂⟩, -, rfl, -, rfl⟩ := h
      exact Numbered.inner _ _ (Numbered.leaf _ _ _)
    · split at h
      · simp only [Option.bind_eq_some_iff, Option.some.injEq, Prod.mk.injEq] at h
        obtain ⟨-, -, rfl, -, rfl⟩ := h
        exact Numbered.inner _ _ (Numbered.nil le_rfl)
      · simp only [Option.bind_eq_some_iff, Option.some.injEq, Prod.mk.injEq] at h
        obtain ⟨-, -, rfl, -, rfl⟩ := h
        exact Numbered.inner _ _ (Numbered.nil le_rfl)

theorem parseComplexVariable_numbered (hloop : NumberedLoop loop)
    (h : parseComplexVariable regExp loop ts n = some (ms, ts', n')) : Numbered n n' ms := by
  simp only [parseComplexVariable, Option.bind_eq_bind, Option.bind_eq_some_iff, Option.pure_def] at h
  obtain ⟨-, -, -, -, ⟨name, ts₁⟩, -, h⟩ := h
  split at h
  · exact afterColon_numbered hloop h
  · split at h
    · simp only [Option.bind_eq_some_iff, Option.some.injEq, Prod.mk.injEq] at h
      obtain ⟨-, -, rfl, -, rfl⟩ := h
      exact Numbered.inner _ _ (Numbered.nil le_rfl)
    · simp only [Option.bind_eq_some_iff, Option.some.injEq, Prod.mk.injEq] at h
      obtain ⟨-, -, rfl, -, rfl⟩ := h
      exact Numbered.inner _ _ (Numbered.nil le_rfl)

theorem numbered_of_fuel (fuel : Nat) :
    (∀ ts n ms ts' n', parseMarker regExp fuel ts n = some (ms, ts', n') → Numbered n n' ms) ∧
    ∀ id ts children m n, Numbered m n children →
      Numbered m (parseDefault regExp fuel id ts children n).2.2.1
        (parseDefault regExp fuel id ts children n).1 := by
  induction fuel with
  | zero =>
    refine ⟨fun ts n ms ts' n' h => ?_, fun id ts children m n h => ?_⟩
    · rw [parseMarker] at h
      cases h
    · rw [parseDefault]
      exact h
  | succ fuel ih =>
    obtain ⟨ihMarker, ihDefault⟩ := ih
    have hloop : NumberedLoop fun id ts => parseDefault regExp fuel id ts [] :=
      fun id ts n => ihDefault id ts [] n n (Numbered.nil le_rfl)
    refine ⟨fun ts n ms ts' n' h => ?_, fun id ts children m n h => ?_⟩
    · simp only [parseMarker, Option.orElse_eq_orElse, Option.orElse_eq_or, Option.or_eq_some_iff] at h
      rcases h with h | ⟨-, h | ⟨-, h | ⟨-, h | ⟨-, h⟩⟩⟩⟩
      · exact parseEscaped_numbered h
      · exact parseTabstopOrVariableName_numbered h
      · exact parseComplexPlaceholder_numbered hloop h
      · exact parseComplexVariable_numbered hloop h
      · exact parseAnything_numbered h
    · rw [parseDefault]
      split
      · exact h
      · split
        next appended ts₁ n₁ hparse =>
            exact ihDefault id ts₁ _ m n₁ (h.appendAll (ihMarker _ _ _ _ _ hparse) id)
        · exact h

theorem parseLoop_numbered (fuel : Nat) (ts : List Token) {snippet : TextmateSnippet R}
    (h : Numbered 1 snippet.nextId snippet.children) :
    Numbered 1 (parseLoop regExp fuel ts snippet).nextId
      (parseLoop regExp fuel ts snippet).children := by
  induction fuel generalizing ts snippet with
  | zero =>
    rw [parseLoop]
    exact h
  | succ fuel ih =>
    rw [parseLoop]
    split
    next appended ts₁ n hparse =>
        exact ih _ (h.appendAll ((numbered_of_fuel _).1 _ _ _ _ _ hparse) 0)
    · exact h

mutual

theorem clone_numbered {m m' : Marker R} {n n' : Nat} (h : m.clone regExp n = some (m', n')) :
    Numbered n n' [m'] := by
  cases m with
  | leaf id parent kind =>
    obtain ⟨rfl, rfl⟩ := h
    exact Numbered.leaf _ _ _
  | inner id parent kind children =>
    simp only [Marker.clone, Option.bind_eq_bind, Option.bind_eq_some_iff, Option.pure_def,
      Option.some.injEq, Prod.mk.injEq] at h
    obtain ⟨kind', -, ⟨children', next⟩, hall, rfl, rfl⟩ := h
    exact Numbered.inner _ _ (cloneAll_numbered hall)

theorem cloneAll_numbered {ms l' : List (Marker R)} {n n' : Nat}
    (h : cloneAll regExp ms n = some (l', n')) :
    Numbered n n' l' := by
  cases ms with
  | nil =>
    obtain ⟨rfl, rfl⟩ := h
    exact Numbered.nil le_rfl
  | cons m ms =>
    simp only [cloneAll, Option.bind_eq_bind, Option.bind_eq_some_iff, Option.pure_def,
      Option.some.injEq, Prod.mk.injEq] at h
    obtain ⟨⟨m', k⟩, hm, ⟨ms', k'⟩, hms, rfl, rfl⟩ := h
    exact (clone_numbered hm).append (cloneAll_numbered hms)

end

theorem foldlM_invariant {S A : Type} {f : S → A → Option S} {P : S → Prop}
    (hstep : ∀ s a s', P s → f s a = some s' → P s') (l : List A) {s s' : S} (hs : P s)
    (h : l.foldlM f s = some s') : P s' := by
  induction l generalizing s with
  | nil =>
    rw [foldlM_nil, Option.pure_def, Option.some.injEq] at h
    exact h ▸ hs
  | cons a l ih =>
    rw [foldlM_cons, Option.bind_eq_bind, Option.bind_eq_some_iff] at h
    obtain ⟨s₁, hf, hrest⟩ := h
    exact ih (hstep s a s₁ hs hf) hrest

variable {defaults : DefaultValues R}

def NumberedFill (fill : List Number → Number → Option (Transform R) → Nat →
    Option (Option (Marker R) × Nat)) : Prop :=
  ∀ stack index transform n clone n', fill stack index transform n = some (clone, n') → Numbered n n' clone.toList

theorem adoptClone_numbered {stack : List Number} {fill : List Number → Number →
      Option (Transform R) → Nat → Option (Option (Marker R) × Nat)} (hfill : NumberedFill fill)
    {id start next next' : Nat} {children children' : List (Marker R)} {child : Marker R}
    (hs : Numbered start next children)
    (h : adoptClone regExp defaults stack fill id (children, next) child =
      some (children', next')) : Numbered start next' children' := by
  simp only [adoptClone, Option.bind_eq_bind, Option.bind_eq_some_iff, Option.pure_def] at h
  obtain ⟨⟨newChild, next₁⟩, hclone, h⟩ := h
  have hadopted := hs.appendChild (clone_numbered hclone) id
  rcases newChild with ⟨childId, parent, kind⟩ | ⟨childId, parent, ⟨index, transform⟩ | kind, cs⟩
  · obtain ⟨rfl, rfl⟩ := h
    exact hadopted
  · simp only at h
    split_ifs at h
    · simp only [Option.bind_eq_some_iff] at h
      obtain ⟨⟨clone, next₂⟩, hfilled, h⟩ := h
      have hclone' := hfill _ _ _ _ _ _ hfilled
      cases clone with
      | none =>
        obtain ⟨rfl, rfl⟩ := h
        have hall := hadopted.append hclone'
        rwa [Option.toList_none, append_nil] at hall
      | some clone =>
        obtain ⟨rfl, rfl⟩ := h
        have hfixed : Numbered next₁ next₂ (fixParents id [clone]) :=
          hclone'.of_sublist (by rw [ids_fixParents]; exact List.Sublist.refl _)
        exact hadopted.spliceChild hfixed childId
    · obtain ⟨rfl, rfl⟩ := h
      exact hadopted
  · obtain ⟨rfl, rfl⟩ := h
    exact hadopted

theorem fillInClone_numbered (fuel : Nat) :
    NumberedFill (fillInClone regExp defaults fuel) := by
  induction fuel with
  | zero =>
    intro stack index transform n clone n' h
    obtain ⟨rfl, rfl⟩ := h
    exact Numbered.nil le_rfl
  | succ fuel ih =>
    intro stack index transform n clone n' h
    rw [fillInClone] at h
    cases hvalues : defaults.get index with
    | none =>
      rw [hvalues] at h
      obtain ⟨rfl, rfl⟩ := h
      exact Numbered.nil le_rfl
    | some values =>
      rw [hvalues] at h
      simp only [Option.bind_eq_bind, Option.bind_eq_some_iff, Option.pure_def, Option.some.injEq, Prod.mk.injEq] at h
      obtain ⟨⟨children, next⟩, hfold, rfl, rfl⟩ := h
      refine Numbered.inner _ _ (foldlM_invariant (P := fun s : List (Marker R) × Nat =>
        Numbered (n + 1) s.2 s.1) ?_ _ (Numbered.nil le_rfl) hfold)
      exact fun s child s' hs hstep => adoptClone_numbered ih hs hstep

theorem fillIn_numbered {snippet snippet' : TextmateSnippet R} {defaults' : DefaultValues R}
    {placeholder : Marker R} (hs : Numbered 1 snippet.nextId snippet.children)
    (h : fillIn regExp snippet defaults placeholder = some (snippet', defaults')) :
    Numbered 1 snippet'.nextId snippet'.children := by
  rcases placeholder with ⟨id, parent, kind⟩ |
    ⟨id, _ | parent, ⟨index, transform⟩ | ⟨name, transform⟩, cs⟩
  · cases h
  · cases h
  · cases h
  · simp only [fillIn, Option.bind_eq_bind, Option.bind_eq_some_iff, Option.pure_def] at h
    obtain ⟨⟨clone, next⟩, hfill, h⟩ := h
    have hclone := fillInClone_numbered _ _ _ _ _ _ _ hfill
    cases clone with
    | none =>
      obtain ⟨rfl, -⟩ := h
      have hall := hs.append hclone
      rwa [Option.toList_none, append_nil] at hall
    | some clone =>
      obtain ⟨rfl, -⟩ := h
      have hfixed : Numbered snippet.nextId next (fixParents 0 [clone]) :=
        hclone.of_sublist (by rw [ids_fixParents]; exact List.Sublist.refl _)
      simp only
      split_ifs
      · exact hs.spliceChild hfixed id
      · exact hs.replaceBelow hclone parent id
  · cases h

theorem parseFragment_numbered {value : JsString} {snippet snippet' : TextmateSnippet R}
    (hs : Numbered 1 snippet.nextId snippet.children)
    (h : parseFragment regExp value snippet = some snippet') :
    Numbered 1 snippet'.nextId snippet'.children := by
  simp only [parseFragment, Option.bind_eq_bind, Option.bind_eq_some_iff, Option.pure_def, Option.some.injEq] at h
  obtain ⟨⟨filled, defaults⟩, hfold, rfl⟩ := h
  exact foldlM_invariant (P := fun s : TextmateSnippet R × DefaultValues R =>
    Numbered 1 s.1.nextId s.1.children)
    (fun s placeholder s' hs hstep => fillIn_numbered hs hstep) _ (parseLoop_numbered _ _ hs) hfold

theorem ensureFinalTabstop_numbered {snippet : TextmateSnippet R} (enforce insert : Bool)
    (hs : Numbered 1 snippet.nextId snippet.children) :
    Numbered 1 (ensureFinalTabstop snippet enforce insert).nextId
      (ensureFinalTabstop snippet enforce insert).children := by
  rw [ensureFinalTabstop]
  split_ifs
  · exact hs.appendChild (Numbered.inner _ _ (Numbered.nil le_rfl)) 0
  · exact hs
  · exact hs

theorem parse_numbered {value : JsString} {insert enforce : Bool} {snippet : TextmateSnippet R}
    (h : parse regExp value insert enforce = some snippet) :
    Numbered 1 snippet.nextId snippet.children := by
  simp only [parse, Option.bind_eq_bind, Option.bind_eq_some_iff, Option.pure_def, Option.some.injEq] at h
  obtain ⟨parsed, hparse, rfl⟩ := h
  exact ensureFinalTabstop_numbered enforce insert (parseFragment_numbered (Numbered.nil le_rfl) hparse)

end SnippetParser

namespace TextmateSnippet

variable {snippet : TextmateSnippet R} {p : Marker R}

def markers (snippet : TextmateSnippet R) : List (Marker R) := markersOf snippet.children

theorem mem_visit {visitor : List (Marker R) → Marker R → List (Marker R) × Bool}
    (hvisitor : ∀ all m, p ∈ (visitor all m).1 → p ∈ all ∨ p = m) {ms all : List (Marker R)}
    (h : p ∈ visit visitor ms all) : p ∈ all ∨ p ∈ ms := by
  induction ms generalizing all with
  | nil => exact Or.inl h
  | cons m ms ih =>
    rw [visit] at h
    rw [mem_cons, ← or_assoc]
    split at h
    · exact (ih h).imp_left (hvisitor all m)
    · exact Or.inl (hvisitor all m h)

theorem mem_of_mem_placeholders (h : p ∈ snippet.placeholders) : p ∈ snippet.markers := by
  rw [placeholders, walk_eq] at h
  refine (mem_visit (fun all m hm => ?_) h).resolve_left not_mem_nil
  rcases m with _ | ⟨_, _, _ | _, _⟩
  · exact Or.inl hm
  · exact (mem_append.mp hm).imp_right mem_singleton.mp
  · exact Or.inl hm

theorem visit_offset (pre post : List (Marker R)) (hp : ∀ m ∈ pre, m.id ≠ p.id) (pos : Nat) :
    visit (fun (pos, found) candidate =>
      if candidate.id = p.id then ((pos, true), false)
      else ((pos + candidate.len, found), true)) (pre ++ p :: post) (pos, false) =
      (pos + (pre.map Marker.len).sum, true) := by
  induction pre generalizing pos with
  | nil => simp [visit]
  | cons m pre ih =>
    rw [cons_append, visit]
    simp only [if_neg (hp m mem_cons_self), if_true]
    rw [ih (fun m' hm' => hp m' (mem_cons_of_mem m hm')), map_cons, sum_cons, Nat.add_assoc]

theorem fullLen_eq (p : Marker R) : fullLen p = p.toString.length := by
  rw [fullLen, walk_eq, visit_eq_foldl (fun _ _ => rfl), markersOf_singleton, p.length_toString,
    sum_eq_foldl, foldl_map]

theorem substring_offset (h : (ids snippet.children).Nodup) (hp : p ∈ snippet.markers) :
    substring snippet.toString (snippet.offset p) (snippet.offset p + fullLen p) = p.toString := by
  obtain ⟨pre, post, before, after, hms, htext, hlen⟩ := exists_split_markersOf hp
  have hpre : ∀ m ∈ pre, m.id ≠ p.id := by
    rw [ids, hms, map_append, nodup_append] at h
    exact fun m hm => h.2.2 m.id (mem_map_of_mem hm) p.id mem_cons_self
  have hoffset : snippet.offset p = before.length := by
    rw [offset, walk_eq, hms, visit_offset pre post hpre, Nat.zero_add, hlen]
    rfl
  rw [hoffset, fullLen_eq, toString, htext, substring_eq _ (by omega)]
  have hstart : ((before.length : Int)).toNat = before.length := Int.toNat_natCast _
  have hstop : ((before.length : Int) + p.toString.length).toNat =
      (before ++ p.toString).length := by
    rw [length_append]
    omega
  rw [hstart, hstop, take_left', drop_left']
  · rfl
  · rfl

end TextmateSnippet

end Gavea.Snippet
