import Gavea.ViewLayout.LinesLayout

namespace Gavea.ViewLayout

namespace LinesLayout

section InsertionIndex

variable {arr : List EditorWhitespace} {afterLineNumber ordinal : Int} {w x : EditorWhitespace}

theorem goesBehind_iff : goesBehind afterLineNumber ordinal x = true ↔
    x.afterLineNumber < afterLineNumber ∨
      x.afterLineNumber = afterLineNumber ∧ x.ordinal ≤ ordinal := by
  unfold goesBehind
  split_ifs with h
  · simp only [Bool.not_eq_true', decide_eq_false_iff_not]
    omega
  · simp only [Bool.not_eq_true', decide_eq_false_iff_not]
    omega

theorem insertionLoop_spec {low high : Nat} (hle : low ≤ high) (hhigh : high ≤ arr.length)
    (hfront : ∀ x ∈ (arr.take low).getLast?, goesBehind afterLineNumber ordinal x = true)
    (hback : ∀ x ∈ (arr.drop high).head?, goesBehind afterLineNumber ordinal x = false) :
    insertionLoop arr afterLineNumber ordinal low high ≤ arr.length ∧
    (∀ x ∈ (arr.take (insertionLoop arr afterLineNumber ordinal low high)).getLast?,
      goesBehind afterLineNumber ordinal x = true) ∧
    ∀ x ∈ (arr.drop (insertionLoop arr afterLineNumber ordinal low high)).head?,
      goesBehind afterLineNumber ordinal x = false := by
  induction low, high using insertionLoop.induct arr afterLineNumber ordinal with
  | case1 low high hlt mid hany ih =>
    rw [insertionLoop, if_pos hlt, if_pos hany]
    have hmid : mid < arr.length := by omega
    refine ih (by omega) hhigh (fun x hx => ?_) hback
    rw [List.take_add_one, List.getElem?_eq_getElem hmid, Option.toList_some,
      List.getLast?_concat, Option.mem_some_iff] at hx
    rwa [← hx, ← Option.any_some (p := goesBehind afterLineNumber ordinal), ← List.getElem?_eq_getElem hmid]
  | case2 low high hlt mid hany ih =>
    rw [insertionLoop, if_pos hlt, if_neg hany]
    have hmid : mid < arr.length := by omega
    refine ih (by omega) (by omega) hfront fun x hx => ?_
    rw [List.head?_drop, List.getElem?_eq_getElem hmid, Option.mem_some_iff] at hx
    rw [List.getElem?_eq_getElem hmid, hx, Option.any_some] at hany
    exact Bool.eq_false_of_not_eq_true hany
  | case3 low high hge =>
    rw [insertionLoop, if_neg hge]
    obtain rfl : low = high := by omega
    exact ⟨hhigh, hfront, hback⟩

theorem findInsertionIndex_spec (arr : List EditorWhitespace) (afterLineNumber ordinal : Int) :
    findInsertionIndex arr afterLineNumber ordinal ≤ arr.length ∧
    (∀ x ∈ (arr.take (findInsertionIndex arr afterLineNumber ordinal)).getLast?,
      goesBehind afterLineNumber ordinal x = true) ∧
    ∀ x ∈ (arr.drop (findInsertionIndex arr afterLineNumber ordinal)).head?,
      goesBehind afterLineNumber ordinal x = false := by
  refine insertionLoop_spec (Nat.zero_le _) le_rfl (fun x hx => ?_) fun x hx => ?_
  · rw [List.take_zero] at hx
    exact absurd hx (Option.not_mem_none x)
  · rw [List.drop_length] at hx
    exact absurd hx (Option.not_mem_none x)

end InsertionIndex

section Splice

variable {α : Type*} {r : α → α → Prop} {l : List α} {a : α} {k : Nat}

theorem pairwise_splice (hr : ∀ {a b c}, r a b → r b c → r a c) (h : l.Pairwise r)
    (hfront : ∀ x ∈ (l.take k).getLast?, r x a) (hback : ∀ x ∈ (l.drop k).head?, r a x) :
    (l.take k ++ a :: l.drop k).Pairwise r := by
  rw [← List.take_append_drop k l, List.pairwise_append] at h
  obtain ⟨hf, hb, hacross⟩ := h
  have hfront' : ∀ x ∈ l.take k, r x a := by
    intro x hx
    obtain ⟨init, last, heq⟩ := List.eq_nil_or_concat (l.take k) |>.resolve_left (List.ne_nil_of_mem hx)
    rw [List.concat_eq_append] at heq
    rw [heq, List.getLast?_concat] at hfront
    rw [heq] at hx hf
    rcases List.mem_append.mp hx with hx | hx
    · exact hr ((List.pairwise_append.mp hf).2.2 x hx last List.mem_cons_self) (hfront last rfl)
    · rw [List.mem_singleton.mp hx]
      exact hfront last rfl
  have hback' : ∀ x ∈ l.drop k, r a x := by
    intro x hx
    cases hdrop : l.drop k with
    | nil => rw [hdrop] at hx; exact absurd hx List.not_mem_nil
    | cons y rest =>
      rw [hdrop] at hx hback hb
      rcases List.mem_cons.mp hx with rfl | hx
      · exact hback x rfl
      · exact hr (hback y rfl) ((List.pairwise_cons.mp hb).1 x hx)
  refine List.pairwise_append.mpr ⟨hf, List.pairwise_cons.mpr ⟨hback', hb⟩, fun x hx y hy => ?_⟩
  rcases List.mem_cons.mp hy with rfl | hy
  · exact hfront' x hx
  · exact hacross x hx y hy

theorem splice_perm (l : List α) (a : α) (k : Nat) : (l.take k ++ a :: l.drop k).Perm (a :: l) := by
  refine List.perm_middle.trans (List.Perm.cons a ?_)
  rw [List.take_append_drop]

end Splice

section Stamps

abbrev Entry := EditorWhitespace × Nat

def Precedes (e e' : Entry) : Prop :=
  e.1.afterLineNumber < e'.1.afterLineNumber ∨ e.1.afterLineNumber = e'.1.afterLineNumber ∧
    (e.1.ordinal < e'.1.ordinal ∨ e.1.ordinal = e'.1.ordinal ∧ e.2 < e'.2)

theorem Precedes.trans {a b c : Entry} (h : Precedes a b) (h' : Precedes b c) : Precedes a c := by
  unfold Precedes at *
  omega

theorem Precedes.asymm {a b : Entry} (h : Precedes a b) (h' : Precedes b a) : False := by
  unfold Precedes at *
  omega

def insertEntry (l : List Entry) (e : Entry) : List Entry :=
  let index := findInsertionIndex (l.map Prod.fst) e.1.afterLineNumber e.1.ordinal
  l.take index ++ e :: l.drop index

def moved (time : Nat) (change : IPendingChange) (e : Entry) : Entry :=
  if e.1.id = change.id then
    ({ e.1 with
        afterLineNumber := change.newAfterLineNumber
        height := change.newHeight },
      if e.1.afterLineNumber ≠ change.newAfterLineNumber then time else e.2)
  else e

def changeEntry (time : Nat) (change : IPendingChange) (l : List Entry) : List Entry :=
  match findWhitespaceIndex (l.map Prod.fst) change.id with
  | none => l
  | some index =>
    match l[index]? with
    | none => l
    | some e =>
      if e.1.afterLineNumber ≠ change.newAfterLineNumber then
        insertEntry (l.eraseIdx index) (moved time change e)
      else l.set index (moved time change e)

def moveAll : Nat → List IPendingChange → Entry → Entry
  | _, [], e => e
  | time, change :: changes, e => moveAll (time + 1) changes (moved time change e)

variable {l : List Entry} {e : Entry} {time : Nat} {change : IPendingChange} {s : LinesLayout}

theorem insertEntry_perm (l : List Entry) (e : Entry) : (insertEntry l e).Perm (e :: l) := splice_perm l e _

theorem insertEntry_pairwise (h : l.Pairwise Precedes) (htime : ∀ x ∈ l, x.2 < e.2) :
    (insertEntry l e).Pairwise Precedes := by
  obtain ⟨-, hfront, hback⟩ := findInsertionIndex_spec (l.map Prod.fst) e.1.afterLineNumber e.1.ordinal
  rw [← List.map_take, List.getLast?_map] at hfront
  rw [← List.map_drop, List.head?_map] at hback
  refine pairwise_splice Precedes.trans h (fun x hx => ?_) fun x hx => ?_
  · have hkey := goesBehind_iff.mp (hfront x.1 (Option.mem_map_of_mem Prod.fst hx))
    have hlt := htime x (List.mem_of_mem_take (List.mem_of_getLast? hx))
    unfold Precedes
    omega
  · have hkey := hback x.1 (Option.mem_map_of_mem Prod.fst hx)
    rw [← Bool.not_eq_true, goesBehind_iff] at hkey
    unfold Precedes
    omega

theorem map_fst_insertEntry (h : s.arr = l.map Prod.fst) :
    (insertEntry l e).map Prod.fst = (s.insertWhitespace e.1).arr := by
  simp only [insertEntry, insertWhitespace, h, List.map_append, List.map_cons, List.map_take, List.map_drop]

theorem moved_id (time : Nat) (change : IPendingChange) (e : Entry) :
    (moved time change e).1.id = e.1.id := by
  unfold moved
  split <;> rfl

theorem moved_of_ne (h : e.1.id ≠ change.id) : moved time change e = e := if_neg h

theorem map_fst_changeEntry (h : s.arr = l.map Prod.fst) :
    (changeEntry time change l).map Prod.fst = (s.changeOneWhitespace change).arr := by
  unfold changeEntry changeOneWhitespace
  rw [h]
  cases hindex : findWhitespaceIndex (l.map Prod.fst) change.id with
  | none => exact h.symm
  | some index =>
    simp only [List.getElem?_map]
    cases he : l[index]? with
    | none => exact h.symm
    | some e =>
      obtain ⟨hlt, hid, -⟩ := List.findIdx?_eq_some_iff_getElem.mp hindex
      obtain ⟨hlt', rfl⟩ := List.getElem?_eq_some_iff.mp he
      rw [List.getElem_map] at hid
      have heid : l[index].1.id = change.id := of_decide_eq_true hid
      simp only [Option.map_some]
      have hheight : (s.changeHeight index l[index].1 change.newHeight).arr =
          (l.map Prod.fst).set index { l[index].1 with height := change.newHeight } := by
        unfold changeHeight
        split_ifs with hne
        · rw [h]
        · rw [h]
          have hsame : { l[index].1 with height := change.newHeight } = l[index].1 := by
            rw [← not_ne_iff.mp hne]
          rw [hsame, ← List.map_set, List.set_getElem_self]
      split_ifs with hne
      · have hfirst : (moved time change l[index]).1 =
            { l[index].1 with
              height := change.newHeight
              afterLineNumber := change.newAfterLineNumber } := by
          rw [moved, if_pos heid]
        rw [← hfirst]
        refine map_fst_insertEntry ?_
        rw [removeWhitespace, hheight, List.eraseIdx_set_eq, List.eraseIdx_map]
      · rw [hheight, List.map_set, moved, if_pos heid]
        simp only [not_ne_iff.mp hne]

abbrev ids (l : List Entry) : List String := l.map fun e => e.1.id

theorem exists_split {α : Type*} {l : List α} {p : α → Bool} {k : Nat}
    (h : l.findIdx? p = some k) :
    ∃ front a back, l = front ++ a :: back ∧ front.length = k ∧ p a = true := by
  obtain ⟨hlt, hp, -⟩ := List.findIdx?_eq_some_iff_getElem.mp h
  refine ⟨l.take k, l[k], l.drop (k + 1), ?_, List.length_take_of_le hlt.le, hp⟩
  rw [List.getElem_cons_drop, List.take_append_drop]

theorem ne_of_nodup {α β : Type*} {f : α → β} {front back : List α} {a : α}
    (h : ((front ++ a :: back).map f).Nodup) : ∀ x ∈ front ++ back, f x ≠ f a := by
  intro x hx heq
  rw [List.map_append, List.map_cons, List.nodup_middle, List.nodup_cons, ← List.map_append] at h
  exact h.1 (List.mem_map.mpr ⟨x, hx, heq⟩)

theorem changeEntry_spec (hids : (ids l).Nodup) (h : l.Pairwise Precedes)
    (htime : ∀ e ∈ l, e.2 < time) :
    (changeEntry time change l).Perm (l.map (moved time change)) ∧
      (changeEntry time change l).Pairwise Precedes := by
  unfold changeEntry findWhitespaceIndex
  rw [List.findIdx?_map]
  cases hindex : l.findIdx? ((fun w => decide (w.id = change.id)) ∘ Prod.fst) with
  | none =>
    have hnone := List.findIdx?_eq_none_iff.mp hindex
    have hmap : l.map (moved time change) = l := by
      refine (List.map_congr_left fun e he => ?_).trans (List.map_id l)
      exact moved_of_ne (of_decide_eq_false (hnone e he))
    rw [hmap]
    exact ⟨List.Perm.refl _, h⟩
  | some index =>
    obtain ⟨front, e, back, rfl, rfl, hid⟩ := exists_split hindex
    have heid : e.1.id = change.id := of_decide_eq_true hid
    have hsame : ∀ x ∈ front ++ back, moved time change x = x := fun x hx => moved_of_ne (heid ▸ ne_of_nodup hids x hx)
    have hmap : (front ++ e :: back).map (moved time change) =
        front ++ moved time change e :: back := by
      rw [List.map_append, List.map_cons]
      refine congrArg₂ _ ?_ (congrArg₂ _ rfl ?_)
      · refine (List.map_congr_left fun x hx => ?_).trans (List.map_id _)
        exact hsame x (List.mem_append_left _ hx)
      · refine (List.map_congr_left fun x hx => ?_).trans (List.map_id _)
        exact hsame x (List.mem_append_right _ hx)
    rw [hmap]
    simp only [List.getElem?_append_right (Nat.le_refl _), Nat.sub_self, List.getElem?_cons_zero]
    split_ifs with hafter
    · have herase : (front ++ e :: back).eraseIdx front.length = front ++ back := by
        rw [List.eraseIdx_append_of_length_le (Nat.le_refl _), Nat.sub_self, List.eraseIdx_cons_zero]
      have hstamp : (moved time change e).2 = time := by
        rw [moved, if_pos heid]
        exact if_pos hafter
      rw [herase]
      refine ⟨(insertEntry_perm _ _).trans List.perm_middle.symm, insertEntry_pairwise ?_ ?_⟩
      · exact h.sublist ((List.sublist_cons_self _ _).append_left _)
      · intro x hx
        rw [hstamp]
        refine htime x (((List.sublist_cons_self _ _).append_left _).mem hx)
    · have hset : (front ++ e :: back).set front.length (moved time change e) =
          front ++ moved time change e :: back := by
        rw [List.set_append_right _ _ (Nat.le_refl _), Nat.sub_self, List.set_cons_zero]
      have hkey : (moved time change e).1.afterLineNumber = e.1.afterLineNumber ∧
          (moved time change e).1.ordinal = e.1.ordinal ∧ (moved time change e).2 = e.2 := by
        rw [moved, if_pos heid]
        exact ⟨(not_ne_iff.mp hafter).symm, rfl, if_neg hafter⟩
      rw [hset]
      rw [List.pairwise_append, List.pairwise_cons] at h ⊢
      obtain ⟨hfront, ⟨hback, hrest⟩, hacross⟩ := h
      refine ⟨List.Perm.refl _, hfront, ⟨fun x hx => ?_, hrest⟩, fun x hx y hy => ?_⟩
      · have hx' := hback x hx
        unfold Precedes at hx' ⊢
        rwa [hkey.1, hkey.2.1, hkey.2.2]
      · rcases List.mem_cons.mp hy with rfl | hy
        · have hx' := hacross x hx e List.mem_cons_self
          unfold Precedes at hx' ⊢
          rwa [hkey.1, hkey.2.1, hkey.2.2]
        · exact hacross x hx y (List.mem_cons_of_mem _ hy)

theorem moved_time (e : Entry) :
    (moved time change e).2 = e.2 ∨ (moved time change e).2 = time := by
  unfold moved
  split_ifs
  · exact Or.inr rfl
  · exact Or.inl rfl
  · exact Or.inl rfl

theorem ids_map_moved : ids (l.map (moved time change)) = ids l := by
  rw [ids, List.map_map]
  exact List.map_congr_left fun e _ => moved_id time change e

def changeEntries : Nat → List IPendingChange → List Entry → List Entry
  | _, [], l => l
  | time, change :: changes, l => changeEntries (time + 1) changes (changeEntry time change l)

theorem changeEntries_spec (changes : List IPendingChange) (hids : (ids l).Nodup)
    (h : l.Pairwise Precedes) (htime : ∀ e ∈ l, e.2 < time) (hs : s.arr = l.map Prod.fst) :
    (changeEntries time changes l).Perm (l.map (moveAll time changes)) ∧
      (changeEntries time changes l).Pairwise Precedes ∧
      (changes.foldl changeOneWhitespace s).arr = (changeEntries time changes l).map Prod.fst := by
  induction changes generalizing l time s with
  | nil => exact ⟨by rw [changeEntries]; exact (List.map_id l).symm ▸ List.Perm.refl _, h, hs⟩
  | cons change changes ih =>
    obtain ⟨hperm, hsorted⟩ := @changeEntry_spec _ time change hids h htime
    have hids' : (ids (changeEntry time change l)).Nodup := by
      refine (hperm.map _).nodup_iff.mpr ?_
      rw [← ids_map_moved] at hids
      exact hids
    have htime' : ∀ e ∈ changeEntry time change l, e.2 < time + 1 := by
      intro e he
      obtain ⟨x, hx, rfl⟩ := List.mem_map.mp (hperm.mem_iff.mp he)
      have := htime x hx
      rcases @moved_time time change x with h' | h' <;> omega
    obtain ⟨hperm', hsorted', harr⟩ := ih hids' hsorted htime' (map_fst_changeEntry hs).symm
    refine ⟨hperm'.trans ?_, hsorted', harr⟩
    have hmap := hperm.map (moveAll (time + 1) changes)
    rw [List.map_map] at hmap
    exact hmap

theorem insertEntries_spec (inserts : List EditorWhitespace) (h : l.Pairwise Precedes)
    (htime : ∀ e ∈ l, e.2 < time) (hs : s.arr = l.map Prod.fst) :
    ∃ l' : List Entry, l'.Perm (l ++ inserts.zipIdx time) ∧ l'.Pairwise Precedes ∧
      (inserts.foldl insertWhitespace s).arr = l'.map Prod.fst := by
  induction inserts generalizing l time s with
  | nil => exact ⟨l, by rw [List.zipIdx_nil, List.append_nil], h, hs⟩
  | cons w inserts ih =>
    have hperm := insertEntry_perm l (w, time)
    have htime' : ∀ e ∈ insertEntry l (w, time), e.2 < time + 1 := by
      intro e he
      rcases List.mem_cons.mp (hperm.mem_iff.mp he) with rfl | he
      · exact Nat.lt_succ_self _
      · exact Nat.lt_succ_of_lt (htime e he)
    obtain ⟨l', hperm', hsorted, harr⟩ :=
      ih (insertEntry_pairwise h htime) htime' (map_fst_insertEntry (e := (w, time)) hs).symm
    refine ⟨l', hperm'.trans ?_, hsorted, harr⟩
    rw [List.zipIdx_cons]
    exact (hperm.append_right _).trans List.perm_middle.symm

theorem removeOneWhitespace_arr {id : String} (hids : (s.arr.map (·.id)).Nodup) :
    (s.removeOneWhitespace id).arr = s.arr.filter fun w => w.id ≠ id := by
  unfold removeOneWhitespace findWhitespaceIndex
  cases hindex : s.arr.findIdx? fun w => decide (w.id = id) with
  | none =>
    refine (List.filter_eq_self.mpr fun w hw => ?_).symm
    have hne := of_decide_eq_false (List.findIdx?_eq_none_iff.mp hindex w hw)
    exact decide_eq_true hne
  | some index =>
    obtain ⟨front, w, back, heq, rfl, hid⟩ := exists_split hindex
    have heid : w.id = id := of_decide_eq_true hid
    rw [heq] at hids
    have hne := ne_of_nodup hids
    change s.arr.eraseIdx front.length = _
    rw [heq, List.eraseIdx_append_of_length_le (Nat.le_refl _), Nat.sub_self, List.eraseIdx_cons_zero,
      List.filter_append, List.filter_cons_of_neg (by simp [heid]), ← List.filter_append]
    exact (List.filter_eq_self.mpr fun x hx => decide_eq_true (heid ▸ hne x hx)).symm

theorem removes_arr (removes : List String) (hids : (s.arr.map (·.id)).Nodup) :
    (removes.foldl removeOneWhitespace s).arr = s.arr.filter fun w => w.id ∉ removes := by
  induction removes generalizing s with
  | nil => exact (List.filter_eq_self.mpr fun w _ => decide_eq_true List.not_mem_nil).symm
  | cons id removes ih =>
    have harr := @removeOneWhitespace_arr s id hids
    rw [List.foldl_cons, ih, harr, List.filter_filter]
    · refine List.filter_congr fun w _ => ?_
      simp only [List.mem_cons, not_or, ne_eq, Bool.decide_and, Bool.and_comm]
    · rw [harr]
      exact hids.sublist (List.filter_sublist.map _)

theorem moveAll_concat (changes : List IPendingChange) (time : Nat) (e : Entry) :
    moveAll time (changes ++ [change]) e =
      moved (time + changes.length) change (moveAll time changes e) := by
  induction changes generalizing time e with
  | nil => rfl
  | cons c changes ih =>
    rw [List.cons_append, moveAll, ih, moveAll, List.length_cons, Nat.add_right_comm, Nat.add_assoc]

theorem fst_moveAll (changes : List IPendingChange) (time : Nat) (e : Entry) :
    (moveAll time changes e).1 = applyChange changes e.1 := by
  induction changes using List.reverseRecOn with
  | nil => rfl
  | append_singleton changes change ih =>
    have hid : (moveAll time changes e).1.id = e.1.id := by
      rw [ih, applyChange]
      split <;> rfl
    have hlast : toChange (changes ++ [change]) e.1.id =
        if change.id = e.1.id then some change else toChange changes e.1.id := by
      rw [toChange, List.reverse_concat, List.find?_cons]
      by_cases h : change.id = e.1.id
      · rw [decide_eq_true h, if_pos h]
      · rw [decide_eq_false h, if_neg h, toChange]
    rw [moveAll_concat, moved, hid, applyChange, hlast]
    by_cases h : change.id = e.1.id
    · rw [if_pos h.symm, if_pos h, ih, applyChange]
      cases toChange changes e.1.id <;> rfl
    · rw [if_neg (Ne.symm h), if_neg h, ih, applyChange]

/-- What stays of the array and of the inserts, in this order, with the times of its last moves. -/
def remaining (s : LinesLayout) (pending : PendingChanges) : List Entry :=
  ((s.arr ++ pending.inserts).zipIdx.filter fun e => e.1.id ∉ pending.removes).map
    (moveAll (s.arr.length + pending.inserts.length) pending.changes)

/-- Of two whitespaces that end after the same line with the same ordinal, the one that is in
front in the array, followed by the inserts, is not the one that is moved last. -/
def Untangled (s : LinesLayout) (pending : PendingChanges) : Prop :=
  (s.remaining pending).Pairwise fun e e' =>
    e.1.afterLineNumber = e'.1.afterLineNumber → e.1.ordinal = e'.1.ordinal → e.2 < e'.2

instance (s : LinesLayout) (pending : PendingChanges) : Decidable (s.Untangled pending) :=
  inferInstanceAs (Decidable (List.Pairwise _ _))

/-- Sorted by line and ordinal. -/
abbrev Ordered (arr : List EditorWhitespace) : Prop := arr.Pairwise StartsNoLater

variable {pending : PendingChanges} {arr : List EditorWhitespace}

theorem zipIdx_pairwise (h : Ordered arr) (i : Nat) : (arr.zipIdx i).Pairwise Precedes := by
  induction arr generalizing i with
  | nil => exact List.Pairwise.nil
  | cons w arr ih =>
    obtain ⟨hw, hrest⟩ := List.pairwise_cons.mp h
    rw [List.zipIdx_cons]
    refine List.pairwise_cons.mpr ⟨fun e he => ?_, ih hrest (i + 1)⟩
    have hkey := hw e.1 (List.fst_mem_of_mem_zipIdx he)
    have hlt := List.le_snd_of_mem_zipIdx he
    simp only [StartsNoLater] at hkey
    simp only [Precedes]
    omega

theorem ids_zipIdx (arr : List EditorWhitespace) (i : Nat) :
    ids (arr.zipIdx i) = arr.map (·.id) := by
  have hmap : ids (arr.zipIdx i) = ((arr.zipIdx i).map Prod.fst).map (·.id) := by
    rw [List.map_map]
    rfl
  rw [hmap, List.zipIdx_map_fst]

theorem commitSingly_spec (h : Ordered s.arr)
    (hids : ((s.arr ++ pending.inserts).map (·.id)).Nodup) :
    ∃ l : List Entry, l.Perm (s.remaining pending) ∧ l.Pairwise Precedes ∧
      (s.commitSingly pending).arr = l.map Prod.fst := by
  obtain ⟨l, hperm, hsorted, harr⟩ := @insertEntries_spec s.arr.zipIdx s.arr.length s
    pending.inserts (zipIdx_pairwise h 0) (fun e he => by simpa using List.snd_lt_of_mem_zipIdx he)
    (List.zipIdx_map_fst 0 s.arr).symm
  have hall : l.Perm (s.arr ++ pending.inserts).zipIdx := by
    rw [List.zipIdx_append, Nat.zero_add]
    exact hperm
  have hlids : (ids l).Nodup := by
    refine (hall.map _).nodup_iff.mpr ?_
    rw [← ids_zipIdx _ 0] at hids
    exact hids
  obtain ⟨hperm', hsorted', harr'⟩ := @changeEntries_spec l
    (s.arr.length + pending.inserts.length) _ pending.changes hlids hsorted (fun e he => by
      have hlt := List.snd_lt_of_mem_zipIdx (hall.mem_iff.mp he)
      rw [List.length_append] at hlt
      omega) harr
  have hids' : ((pending.changes.foldl changeOneWhitespace
      (pending.inserts.foldl insertWhitespace s)).arr.map (·.id)).Nodup := by
    rw [harr', List.map_map]
    refine (hperm'.map _).nodup_iff.mpr ?_
    rw [List.map_map]
    have hsame : ((fun w : EditorWhitespace => w.id) ∘ Prod.fst) ∘
        moveAll (s.arr.length + pending.inserts.length) pending.changes = fun e => e.1.id := by
      funext e
      rw [Function.comp_apply, Function.comp_apply, fst_moveAll, applyChange]
      split <;> rfl
    rw [hsame]
    exact hlids
  refine ⟨(changeEntries (s.arr.length + pending.inserts.length) pending.changes l).filter
    fun e => e.1.id ∉ pending.removes, ?_, hsorted'.sublist List.filter_sublist, ?_⟩
  · refine (hperm'.filter _).trans ?_
    rw [List.filter_map, remaining]
    refine List.Perm.map _ ?_
    have hsame : (fun e : Entry => decide (e.1.id ∉ pending.removes)) ∘
        moveAll (s.arr.length + pending.inserts.length) pending.changes =
        fun e => decide (e.1.id ∉ pending.removes) := by
      funext e
      rw [Function.comp_apply, fst_moveAll, applyChange]
      split <;> rfl
    rw [hsame]
    exact hall.filter _
  · rw [commitSingly, removes_arr _ hids', harr', List.filter_map]
    rfl

theorem commitRebuilding_arr : (s.commitRebuilding pending).arr =
    ((s.remaining pending).map Prod.fst).insertionSort StartsNoLater := by
  have hmap : (s.remaining pending).map Prod.fst =
      applyRemoveAndChange pending (s.arr ++ pending.inserts) := by
    rw [remaining, List.map_map, applyRemoveAndChange]
    have hfst : Prod.fst ∘ moveAll (s.arr.length + pending.inserts.length) pending.changes =
        applyChange pending.changes ∘ Prod.fst := by
      funext e
      exact fst_moveAll _ _ e
    have hfilter : (s.arr ++ pending.inserts).zipIdx.filter (fun e => e.1.id ∉ pending.removes) =
        (s.arr ++ pending.inserts).zipIdx.filter ((fun w => decide (w.id ∉ pending.removes)) ∘ Prod.fst) := rfl
    rw [hfst, ← List.map_map, hfilter, ← List.filter_map, List.zipIdx_map_fst]
  rw [hmap, commitRebuilding, applyRemoveAndChange, applyRemoveAndChange, applyRemoveAndChange,
    List.filter_append, List.map_append]

instance : Std.Total StartsNoLater := ⟨fun a b => by unfold StartsNoLater; omega⟩

instance : IsTrans EditorWhitespace StartsNoLater := ⟨fun a b c h h' => by unfold StartsNoLater at *; omega⟩

/-- The order by line and ordinal of whitespaces with their times. -/
def KeyLe (e e' : Entry) : Prop := StartsNoLater e.1 e'.1

instance : DecidableRel KeyLe := fun _ _ => inferInstanceAs (Decidable (StartsNoLater _ _))

theorem orderedInsert_pairwise {a : Entry} (h : l.Pairwise Precedes)
    (ha : ∀ x ∈ l, a.1.afterLineNumber = x.1.afterLineNumber → a.1.ordinal = x.1.ordinal →
      a.2 < x.2) : (l.orderedInsert KeyLe a).Pairwise Precedes := by
  induction l with
  | nil => exact List.pairwise_singleton _ _
  | cons b l ih =>
    obtain ⟨hb, hrest⟩ := List.pairwise_cons.mp h
    obtain ⟨hab, harest⟩ := List.forall_mem_cons.mp ha
    rw [List.orderedInsert_cons]
    split_ifs with hkey
    · have hprec : Precedes a b := by
        unfold KeyLe StartsNoLater at hkey
        unfold Precedes
        omega
      refine List.pairwise_cons.mpr ⟨fun x hx => ?_, h⟩
      rcases List.mem_cons.mp hx with rfl | hx
      · exact hprec
      · exact hprec.trans (hb x hx)
    · have hprec : Precedes b a := by
        unfold KeyLe StartsNoLater at hkey
        unfold Precedes
        omega
      refine List.pairwise_cons.mpr ⟨fun x hx => ?_, ih hrest harest⟩
      rcases (List.mem_orderedInsert _).mp hx with rfl | hx
      · exact hprec
      · exact hb x hx

theorem insertionSort_pairwise
    (h : l.Pairwise fun e e' => e.1.afterLineNumber = e'.1.afterLineNumber → e.1.ordinal = e'.1.ordinal → e.2 < e'.2) :
    (l.insertionSort KeyLe).Pairwise Precedes := by
  induction l with
  | nil => exact List.Pairwise.nil
  | cons a l ih =>
    obtain ⟨ha, hrest⟩ := List.pairwise_cons.mp h
    rw [List.insertionSort_cons]
    exact orderedInsert_pairwise (ih hrest) fun x hx => ha x ((List.mem_insertionSort _).mp hx)

theorem nodup_ids_remaining (hids : ((s.arr ++ pending.inserts).map (·.id)).Nodup) :
    (ids (s.remaining pending)).Nodup := by
  rw [← ids_zipIdx _ 0] at hids
  have hsame : (fun e : Entry => e.1.id) ∘
      moveAll (s.arr.length + pending.inserts.length) pending.changes = fun e => e.1.id := by
    funext e
    rw [Function.comp_apply, fst_moveAll, applyChange]
    split <;> rfl
  rw [ids, remaining, List.map_map, hsame]
  exact hids.sublist (List.filter_sublist.map _)

theorem commitSingly_eq_iff (h : Ordered s.arr)
    (hids : ((s.arr ++ pending.inserts).map (·.id)).Nodup) :
    (s.commitSingly pending).arr = (s.commitRebuilding pending).arr ↔ s.Untangled pending := by
  obtain ⟨l, hperm, hsorted, harr⟩ := commitSingly_spec h hids
  have hmap : ((s.remaining pending).map Prod.fst).insertionSort StartsNoLater =
      ((s.remaining pending).insertionSort KeyLe).map Prod.fst :=
    (List.map_insertionSort KeyLe StartsNoLater Prod.fst _ fun _ _ _ _ => Iff.rfl).symm
  rw [harr, commitRebuilding_arr, hmap]
  constructor
  · intro heq
    refine List.pairwise_iff_forall_sublist.mpr fun {e e'} hsub hline hordinal => ?_
    have hsub' : [e, e'].Sublist ((s.remaining pending).insertionSort KeyLe) :=
      List.pair_sublist_insertionSort (Or.inr ⟨hline, hordinal.le⟩) hsub
    have hsub'' := hsub'.map Prod.fst
    rw [← heq, List.sublist_map_iff] at hsub''
    obtain ⟨l', hl', hfst⟩ := hsub''
    have hnodup := nodup_ids_remaining hids
    have hinj : ∀ x ∈ l', ∀ y ∈ [e, e'], x.1 = y.1 → x = y := by
      intro x hx y hy hxy
      exact List.inj_on_of_nodup_map hnodup (hperm.mem_iff.mp (hl'.mem hx)) (hsub.mem hy)
        (congrArg EditorWhitespace.id hxy)
    have heql : l' = [e, e'] := by
      have hlength : l'.length = 2 := by simpa using (congrArg List.length hfst).symm
      obtain ⟨x, y, rfl⟩ := List.length_eq_two.mp hlength
      obtain ⟨hx, hy⟩ : e.1 = x.1 ∧ e'.1 = y.1 := by simpa using hfst
      rw [hinj x (by simp) e (by simp) hx.symm, hinj y (by simp) e' (by simp) hy.symm]
    rw [heql] at hl'
    have hprec := List.pairwise_iff_forall_sublist.mp hsorted hl'
    unfold Precedes at hprec
    omega
  · intro huntangled
    have hsort := insertionSort_pairwise huntangled
    refine congrArg _ (List.Perm.eq_of_pairwise (fun a b _ _ hab hba => (hab.asymm hba).elim)
      hsorted hsort (hperm.trans (List.perm_insertionSort _ _).symm))

end Stamps

end LinesLayout

end Gavea.ViewLayout
