import Mathlib.Data.List.AList

namespace Gavea.Lib

open List

section Loops

variable {κ σ τ : Type*} [DecidableEq κ]

theorem view_foldl (view : κ → σ → τ) (body : σ → κ → σ) (effect : κ → τ → τ)
    (hsame : ∀ s key, view key (body s key) = effect key (view key s))
    (hframe : ∀ s key other, other ≠ key → view other (body s key) = view other s)
    {keys : List κ} (hkeys : keys.Nodup) (s : σ) (key : κ) :
    view key (keys.foldl body s) = if key ∈ keys then effect key (view key s) else view key s := by
  induction keys generalizing s with
  | nil => rw [foldl_nil, if_neg not_mem_nil]
  | cons k keys ih =>
    obtain ⟨hk, hkeys⟩ := nodup_cons.mp hkeys
    rw [foldl_cons, ih hkeys]
    by_cases heq : key = k
    · subst heq
      rw [if_neg hk, if_pos mem_cons_self, hsame]
    · simp only [mem_cons, heq, false_or, hframe s k key heq]

end Loops

abbrev Dictionary (β : Type) := AList fun _ : String => β

namespace Dictionary

variable {β : Type}

/-- Sets a property; nothing is written where the value is undefined. -/
def assign (d : Dictionary β) (key : String) (value : Option β) : Dictionary β :=
  match value with
  | some v => d.insert key v
  | none => d

def assignAll (d changes : Dictionary β) : Dictionary β :=
  changes.keys.foldl (fun acc key => acc.assign key (changes.lookup key)) d

def deleteAll (d : Dictionary β) (keys : List String) : Dictionary β := keys.foldl (fun acc key => acc.erase key) d

theorem lookup_assign (d : Dictionary β) (key other : String) (value : Option β) :
    (d.assign key value).lookup other =
      if other = key then value.or (d.lookup key) else d.lookup other := by
  by_cases h : other = key
  · subst h
    cases value with
    | none => simp [assign]
    | some v => simp [assign]
  · cases value with
    | none => simp [assign, h]
    | some v => simp [assign, h, AList.lookup_insert_ne h]

theorem lookup_erase_eq (d : Dictionary β) (key other : String) :
    AList.lookup other (d.erase key) = if other = key then none else d.lookup other := by
  by_cases h : other = key
  · subst h
    rw [if_pos rfl, AList.lookup_erase]
  · rw [if_neg h, AList.lookup_erase_ne h]

theorem mem_keys_iff (d : Dictionary β) (key : String) :
    key ∈ d.keys ↔ (d.lookup key).isSome := by
  rw [AList.lookup_isSome, AList.mem_keys]

theorem lookup_assignAll (d changes : Dictionary β) (key : String) :
    (d.assignAll changes).lookup key = (changes.lookup key).or (d.lookup key) := by
  have h := view_foldl (fun key (acc : Dictionary β) => acc.lookup key)
    (fun acc key => acc.assign key (changes.lookup key))
    (fun key value => (changes.lookup key).or value)
    (fun s key => by simp [lookup_assign])
    (fun s key other hne => by simp [lookup_assign, hne]) changes.keys_nodup d key
  rw [assignAll, h]
  simp only [mem_keys_iff]
  cases changes.lookup key <;> simp

theorem lookup_deleteAll (d : Dictionary β) (keys : List String) (key : String) :
    (d.deleteAll keys).lookup key = if key ∈ keys then none else d.lookup key := by
  unfold deleteAll
  induction keys generalizing d with
  | nil => simp
  | cons k keys ih =>
    rw [foldl_cons, ih, lookup_erase_eq]
    by_cases hk : key = k <;> by_cases hmem : key ∈ keys <;> simp [hk, hmem]

end Dictionary

end Gavea.Lib

namespace Gavea.UserDataSync

open List

open Gavea.Lib

variable {β : Type} [DecidableEq β]

/-- The keys in which a dictionary differs from an older one. -/
structure Comparison where
  added : List String
  removed : List String
  updated : List String

def compareDictionaries (older newer : Dictionary β) : Comparison :=
  let fromKeys := older.keys
  let toKeys := newer.keys
  let added := toKeys.filter fun key => key ∉ fromKeys
  let removed := fromKeys.filter fun key => key ∉ toKeys
  let updated := fromKeys.filter fun key =>
    key ∉ removed ∧ older.lookup key ≠ newer.lookup key
  { added, removed, updated }

namespace Comparison

def isEmpty (c : Comparison) : Prop := c.added = [] ∧ c.removed = [] ∧ c.updated = []

instance (c : Comparison) : Decidable c.isEmpty := by
  unfold isEmpty
  infer_instance

end Comparison

section Compare

variable (older newer : Dictionary β) (key : String)

theorem mem_added_iff : key ∈ (compareDictionaries older newer).added ↔
    older.lookup key = none ∧ (newer.lookup key).isSome := by
  simp [compareDictionaries, Dictionary.mem_keys_iff, and_comm]

theorem mem_removed_iff : key ∈ (compareDictionaries older newer).removed ↔
    (older.lookup key).isSome ∧ newer.lookup key = none := by
  simp [compareDictionaries, Dictionary.mem_keys_iff]

theorem mem_updated_iff : key ∈ (compareDictionaries older newer).updated ↔
    (older.lookup key).isSome ∧ (newer.lookup key).isSome ∧ older.lookup key ≠ newer.lookup key := by
  simp only [compareDictionaries, mem_filter, decide_eq_true_eq, Dictionary.mem_keys_iff,
    not_and, Option.isSome_iff_ne_none, ne_eq]
  tauto

theorem nodup_added : (compareDictionaries older newer).added.Nodup := newer.keys_nodup.filter _

theorem nodup_removed : (compareDictionaries older newer).removed.Nodup := older.keys_nodup.filter _

theorem nodup_updated : (compareDictionaries older newer).updated.Nodup := older.keys_nodup.filter _

theorem lookup_eq_of_isEmpty (h : (compareDictionaries older newer).isEmpty) :
    older.lookup key = newer.lookup key := by
  obtain ⟨hadded, hremoved, hupdated⟩ := h
  have ha := (mem_added_iff older newer key).not.mp (hadded ▸ not_mem_nil)
  have hr := (mem_removed_iff older newer key).not.mp (hremoved ▸ not_mem_nil)
  have hu := (mem_updated_iff older newer key).not.mp (hupdated ▸ not_mem_nil)
  cases h1 : older.lookup key <;> cases h2 : newer.lookup key <;> simp_all

end Compare

structure FollowsChange (base l r outcome : Option β) : Prop where
  onlyLocal : l ≠ base → r = base → outcome = l
  onlyRemote : r ≠ base → l = base → outcome = r

/-- Both sides end with the value that a three-way merge has to end with. -/
structure Converges (base l r l' r' : Option β) : Prop where
  same : l' = r'
  followsChange : FollowsChange base l r l'

omit [DecidableEq β] in
theorem converges_iff {base l r l' r' : Option β} : Converges base l r l' r' ↔
    l' = r' ∧ (l ≠ base → r = base → l' = l) ∧ (r ≠ base → l = base → l' = r) :=
  ⟨fun h => ⟨h.same, h.followsChange.onlyLocal, h.followsChange.onlyRemote⟩, fun h => ⟨h.1, h.2.1, h.2.2⟩⟩

end Gavea.UserDataSync

namespace Gavea.UserDataSync.SnippetsMerge

open Gavea.Lib

structure Changes where
  added : Dictionary String
  updated : Dictionary String
  removed : List String

structure IMergeResult where
  localChanges : Changes
  remoteChanges : Changes
  conflicts : List String

def Changes.none : Changes := { added := ∅, updated := ∅, removed := [] }

def Changes.apply (changes : Changes) (d : Dictionary String) : Dictionary String :=
  ((d.deleteAll changes.removed).assignAll changes.added).assignAll changes.updated

def orEmpty (d : Option (Dictionary String)) : Dictionary String := d.getD ∅

def compare (older newer : Option (Dictionary String)) : Comparison :=
  compareDictionaries (orEmpty older) (orEmpty newer)

structure Collected where
  localAdded : Dictionary String := ∅
  localUpdated : Dictionary String := ∅
  localRemoved : List String := []
  remoteAdded : Dictionary String := ∅
  remoteUpdated : Dictionary String := ∅
  remoteRemoved : List String := []
  conflicts : List String := []

section Loops

variable (localSnippets remote : Dictionary String) (localToRemote baseToLocal baseToRemote : Comparison)

def removedInLocal (s : Collected) (key : String) : Collected :=
  if key ∈ baseToRemote.updated then
    { s with localAdded := s.localAdded.assign key (remote.lookup key) }
  else
    { s with remoteRemoved := s.remoteRemoved.insert key }

def removedInRemote (s : Collected) (key : String) : Collected :=
  if key ∈ s.conflicts then s
  else if key ∈ baseToLocal.updated then
    { s with conflicts := s.conflicts.insert key }
  else
    { s with localRemoved := s.localRemoved.insert key }

def settle (changedToo : List String) (write : Collected → String → Collected) (s : Collected)
    (key : String) : Collected :=
  if key ∈ s.conflicts then s
  else if key ∈ changedToo then
    if key ∈ localToRemote.updated then { s with conflicts := s.conflicts.insert key } else s
  else write s key

def updatedInLocal : Collected → String → Collected :=
  settle localToRemote baseToRemote.updated fun s key =>
    { s with remoteUpdated := s.remoteUpdated.assign key (localSnippets.lookup key) }

def updatedInRemote : Collected → String → Collected :=
  settle localToRemote baseToLocal.updated fun s key =>
    if (localSnippets.lookup key).isSome then
      { s with localUpdated := s.localUpdated.assign key (remote.lookup key) }
    else s

def addedInLocal : Collected → String → Collected :=
  settle localToRemote baseToRemote.added fun s key =>
    { s with remoteAdded := s.remoteAdded.assign key (localSnippets.lookup key) }

def addedInRemote : Collected → String → Collected :=
  settle localToRemote baseToLocal.added fun s key =>
    { s with localAdded := s.localAdded.assign key (remote.lookup key) }

def collect : Collected :=
  let s := baseToLocal.removed.foldl (removedInLocal remote baseToRemote) {}
  let s := baseToRemote.removed.foldl (removedInRemote baseToLocal) s
  let s := baseToLocal.updated.foldl (updatedInLocal localSnippets localToRemote baseToRemote) s
  let s := baseToRemote.updated.foldl
    (updatedInRemote localSnippets remote localToRemote baseToLocal) s
  let s := baseToLocal.added.foldl (addedInLocal localSnippets localToRemote baseToRemote) s
  baseToRemote.added.foldl (addedInRemote remote localToRemote baseToLocal) s

end Loops

def merge (localSnippets : Dictionary String) (remote base : Option (Dictionary String)) :
    IMergeResult :=
  match remote with
  | none =>
    { localChanges := .none
      remoteChanges := { added := localSnippets, updated := ∅, removed := [] }
      conflicts := [] }
  | some remote =>
    let localToRemote := compare (some localSnippets) (some remote)
    if localToRemote.isEmpty then
      { localChanges := .none, remoteChanges := .none, conflicts := [] }
    else
      let baseToLocal := compare base (some localSnippets)
      let baseToRemote := compare base (some remote)
      let s := collect localSnippets remote localToRemote baseToLocal baseToRemote
      { localChanges :=
          { added := s.localAdded, updated := s.localUpdated, removed := s.localRemoved }
        remoteChanges := { added := s.remoteAdded, updated := s.remoteUpdated, removed := s.remoteRemoved }
        conflicts := s.conflicts }

theorem Changes.lookup_apply (changes : Changes) (d : Dictionary String) (key : String) :
    (changes.apply d).lookup key = (changes.updated.lookup key).or ((changes.added.lookup key).or
      (if key ∈ changes.removed then Option.none else d.lookup key)) := by
  simp only [Changes.apply, Dictionary.lookup_assignAll, Dictionary.lookup_deleteAll]

structure Slot where
  localAdded : Option String := .none
  localUpdated : Option String := .none
  localRemoved : Bool := false
  remoteAdded : Option String := .none
  remoteUpdated : Option String := .none
  remoteRemoved : Bool := false
  conflict : Bool := false

def Collected.slot (key : String) (s : Collected) : Slot where
  localAdded := s.localAdded.lookup key
  localUpdated := s.localUpdated.lookup key
  localRemoved := decide (key ∈ s.localRemoved)
  remoteAdded := s.remoteAdded.lookup key
  remoteUpdated := s.remoteUpdated.lookup key
  remoteRemoved := decide (key ∈ s.remoteRemoved)
  conflict := decide (key ∈ s.conflicts)

structure Touches (body : Collected → String → Collected) (effect : String → Slot → Slot) :
    Prop where
  same : ∀ s key, (body s key).slot key = effect key (s.slot key)
  frame : ∀ s key other, other ≠ key → (body s key).slot other = s.slot other

variable {body : Collected → String → Collected} {effect : String → Slot → Slot}

theorem Touches.foldl (h : Touches body effect) {keys : List String} (hkeys : keys.Nodup)
    (s : Collected) (key : String) : (keys.foldl body s).slot key =
      if key ∈ keys then effect key (s.slot key) else s.slot key :=
  view_foldl Collected.slot body effect h.same h.frame hkeys s key

section Effects

variable (localSnippets remote : Dictionary String)
  (localToRemote baseToLocal baseToRemote : Comparison)

def Slot.removedInLocal (key : String) (s : Slot) : Slot :=
  if key ∈ baseToRemote.updated then { s with localAdded := (remote.lookup key).or s.localAdded }
  else { s with remoteRemoved := true }

def Slot.removedInRemote (key : String) (s : Slot) : Slot :=
  if s.conflict then s
  else if key ∈ baseToLocal.updated then { s with conflict := true }
  else { s with localRemoved := true }

def Slot.settle (changedToo : List String) (write : String → Slot → Slot) (key : String)
    (s : Slot) : Slot :=
  if s.conflict then s
  else if key ∈ changedToo then
    if key ∈ localToRemote.updated then { s with conflict := true } else s
  else write key s

theorem touches_removedInLocal :
    Touches (removedInLocal remote baseToRemote) (Slot.removedInLocal remote baseToRemote) where
  same s key := by
    unfold SnippetsMerge.removedInLocal Slot.removedInLocal
    split <;> simp [Collected.slot, Dictionary.lookup_assign]
  frame s key other h := by
    unfold SnippetsMerge.removedInLocal
    split <;> simp [Collected.slot, Dictionary.lookup_assign, h]

theorem touches_removedInRemote :
    Touches (removedInRemote baseToLocal) (Slot.removedInRemote baseToLocal) where
  same s key := by
    unfold SnippetsMerge.removedInRemote Slot.removedInRemote
    by_cases hconflict : key ∈ s.conflicts
    · simp [Collected.slot, hconflict]
    · by_cases hupdated : key ∈ baseToLocal.updated <;> simp [Collected.slot, hconflict, hupdated]
  frame s key other h := by
    unfold SnippetsMerge.removedInRemote
    by_cases hconflict : key ∈ s.conflicts
    · simp [hconflict]
    · by_cases hupdated : key ∈ baseToLocal.updated <;> simp [Collected.slot, hconflict, hupdated, h]

theorem Touches.settle (changedToo : List String) (h : Touches body effect) :
    Touches (SnippetsMerge.settle localToRemote changedToo body) (Slot.settle localToRemote changedToo effect) where
  same s key := by
    unfold SnippetsMerge.settle Slot.settle
    by_cases hconflict : key ∈ s.conflicts
    · simp [Collected.slot, hconflict]
    · by_cases htoo : key ∈ changedToo
      · by_cases hdiffer : key ∈ localToRemote.updated <;> simp [Collected.slot, hconflict, htoo, hdiffer]
      · rw [if_neg hconflict, if_neg htoo, if_neg (by simpa [Collected.slot] using hconflict), if_neg htoo, h.same]
  frame s key other hne := by
    unfold SnippetsMerge.settle
    by_cases hconflict : key ∈ s.conflicts
    · simp [hconflict]
    · by_cases htoo : key ∈ changedToo
      · by_cases hdiffer : key ∈ localToRemote.updated <;> simp [Collected.slot, hconflict, htoo, hdiffer, hne]
      · rw [if_neg hconflict, if_neg htoo, h.frame s key other hne]

theorem touches_updatedInLocal :
    Touches (updatedInLocal localSnippets localToRemote baseToRemote)
      (Slot.settle localToRemote baseToRemote.updated fun key s =>
        { s with remoteUpdated := (localSnippets.lookup key).or s.remoteUpdated }) := by
  refine Touches.settle _ _ ⟨fun s key => ?_, fun s key other h => ?_⟩
  · simp [Collected.slot, Dictionary.lookup_assign]
  · simp [Collected.slot, Dictionary.lookup_assign, h]

theorem touches_updatedInRemote :
    Touches (updatedInRemote localSnippets remote localToRemote baseToLocal)
      (Slot.settle localToRemote baseToLocal.updated fun key s =>
        if (localSnippets.lookup key).isSome then
          { s with localUpdated := (remote.lookup key).or s.localUpdated }
        else s) := by
  refine Touches.settle _ _ ⟨fun s key => ?_, fun s key other h => ?_⟩
  · split <;> simp [Collected.slot, Dictionary.lookup_assign]
  · split <;> simp [Collected.slot, Dictionary.lookup_assign, h]

theorem touches_addedInLocal :
    Touches (addedInLocal localSnippets localToRemote baseToRemote)
      (Slot.settle localToRemote baseToRemote.added fun key s =>
        { s with remoteAdded := (localSnippets.lookup key).or s.remoteAdded }) := by
  refine Touches.settle _ _ ⟨fun s key => ?_, fun s key other h => ?_⟩
  · simp [Collected.slot, Dictionary.lookup_assign]
  · simp [Collected.slot, Dictionary.lookup_assign, h]

theorem touches_addedInRemote :
    Touches (addedInRemote remote localToRemote baseToLocal)
      (Slot.settle localToRemote baseToLocal.added fun key s =>
        { s with localAdded := (remote.lookup key).or s.localAdded }) := by
  refine Touches.settle _ _ ⟨fun s key => ?_, fun s key other h => ?_⟩
  · simp [Collected.slot, Dictionary.lookup_assign]
  · simp [Collected.slot, Dictionary.lookup_assign, h]

end Effects

def Slot.ofValues (base l r : Option String) : Slot :=
  match base, l, r with
  | some _, .none, .none => { localRemoved := true, remoteRemoved := true }
  | some b, .none, some r => if b ≠ r then { localAdded := r } else { remoteRemoved := true }
  | some b, some l, .none => if b ≠ l then { conflict := true } else { localRemoved := true }
  | some b, some l, some r =>
    if l = r then {}
    else if b = r then { remoteUpdated := l }
    else if b = l then { localUpdated := r }
    else { conflict := true }
  | .none, some l, some r => if l = r then {} else { conflict := true }
  | .none, some l, .none => { remoteAdded := l }
  | .none, .none, some r => { localAdded := r }
  | .none, .none, .none => {}

theorem Slot.ofValues_settles (base l r : Option String) :
    let slot := Slot.ofValues base l r
    let l' := slot.localUpdated.or (slot.localAdded.or (if slot.localRemoved then .none else l))
    let r' := slot.remoteUpdated.or (slot.remoteAdded.or (if slot.remoteRemoved then .none else r))
    if slot.conflict then l' = l ∧ r' = r else Converges base l r l' r' := by
  cases base with
  | none =>
    rcases l with _ | l <;> rcases r with _ | r <;> simp only [Slot.ofValues]
    · simp [converges_iff]
    · simp [converges_iff]
    · simp [converges_iff]
    · by_cases hlr : l = r <;> simp [converges_iff, hlr]
  | some b =>
    rcases l with _ | l <;> rcases r with _ | r <;> simp only [Slot.ofValues]
    · simp [converges_iff]
    · rcases eq_or_ne b r with rfl | hbr
      · simp [converges_iff]
      · simp [converges_iff, hbr, hbr.symm]
    · rcases eq_or_ne b l with rfl | hbl
      · simp [converges_iff]
      · simp [hbl]
    · by_cases hlr : l = r <;> by_cases hbr : b = r <;> by_cases hbl : b = l <;> simp_all [converges_iff]

theorem slot_collect (localSnippets remote base : Dictionary String) (key : String) :
    (collect localSnippets remote (compareDictionaries localSnippets remote)
      (compareDictionaries base localSnippets) (compareDictionaries base remote)).slot key =
      Slot.ofValues (base.lookup key) (localSnippets.lookup key) (remote.lookup key) := by
  have hstart : Collected.slot key {} = {} := by simp [Collected.slot]
  unfold collect
  set toLocal := compareDictionaries base localSnippets with htoLocal
  set toRemote := compareDictionaries base remote with htoRemote
  set differ := compareDictionaries localSnippets remote with hdiffer
  have h1 := (touches_removedInLocal remote toRemote).foldl (nodup_removed base localSnippets) {} key
  set s1 := toLocal.removed.foldl (removedInLocal remote toRemote) {}
  have h2 := (touches_removedInRemote toLocal).foldl (nodup_removed base remote) s1 key
  set s2 := toRemote.removed.foldl (removedInRemote toLocal) s1
  have h3 := (touches_updatedInLocal localSnippets differ toRemote).foldl (nodup_updated base localSnippets) s2 key
  set s3 := toLocal.updated.foldl (updatedInLocal localSnippets differ toRemote) s2
  have h4 := (touches_updatedInRemote localSnippets remote differ toLocal).foldl (nodup_updated base remote) s3 key
  set s4 := toRemote.updated.foldl (updatedInRemote localSnippets remote differ toLocal) s3
  have h5 := (touches_addedInLocal localSnippets differ toRemote).foldl (nodup_added base localSnippets) s4 key
  set s5 := toLocal.added.foldl (addedInLocal localSnippets differ toRemote) s4
  have h6 := (touches_addedInRemote remote differ toLocal).foldl (nodup_added base remote) s5 key
  rw [h6]
  rw [hstart] at h1
  simp only [htoLocal, htoRemote, hdiffer, mem_added_iff, mem_removed_iff, mem_updated_iff,
    Slot.removedInLocal, Slot.removedInRemote, Slot.settle] at h1 h2 h3 h4 h5 ⊢
  clear h6
  cases hb : base.lookup key <;> cases hl : localSnippets.lookup key <;>
    cases hr : remote.lookup key <;>
    simp only [hb, hl, hr, Option.isSome, reduceCtorEq, ne_eq, not_true, not_false_iff, and_true,
      true_and, and_false, Bool.false_eq_true, if_true, if_false] at h1 h2 h3 h4 h5 ⊢
  case none.none.none => simp [h1, h2, h3, h4, h5, Slot.ofValues]
  case none.none.some r => simp [h1, h2, h3, h4, h5, Slot.ofValues]
  case none.some.none l => simp [h1, h2, h3, h4, h5, Slot.ofValues]
  case none.some.some l r => by_cases hlr : l = r <;> simp [h1, h2, h3, h4, h5, Slot.ofValues, hlr]
  case some.none.none b => simp [h1, h2, h3, h4, h5, Slot.ofValues]
  case some.none.some b r => by_cases hbr : b = r <;> simp [h1, h2, h3, h4, h5, Slot.ofValues, hbr]
  case some.some.none b l => by_cases hbl : b = l <;> simp [h1, h2, h3, h4, h5, Slot.ofValues, hbl]
  case some.some.some b l r =>
      by_cases hlr : l = r <;> by_cases hbr : b = r <;> by_cases hbl : b = l <;> simp_all [Slot.ofValues]

theorem lookup_apply_of_slot {s : Collected} {key : String} {slot : Slot}
    (h : s.slot key = slot) (d : Dictionary String) :
    ((⟨s.localAdded, s.localUpdated, s.localRemoved⟩ : Changes).apply d).lookup key =
      slot.localUpdated.or (slot.localAdded.or (if slot.localRemoved then Option.none else d.lookup key)) ∧
    ((⟨s.remoteAdded, s.remoteUpdated, s.remoteRemoved⟩ : Changes).apply d).lookup key =
      slot.remoteUpdated.or (slot.remoteAdded.or
        (if slot.remoteRemoved then Option.none else d.lookup key)) := by
  subst h
  simp [Changes.lookup_apply, Collected.slot]

theorem apply_none (d : Dictionary String) (key : String) :
    (Changes.none.apply d).lookup key = d.lookup key := by
  simp [Changes.none, Changes.lookup_apply]

theorem merge_settles (localSnippets remote : Dictionary String)
    (base : Option (Dictionary String)) (key : String) :
    let result := merge localSnippets (some remote) base
    let l' := (result.localChanges.apply localSnippets).lookup key
    let r' := (result.remoteChanges.apply remote).lookup key
    if key ∈ result.conflicts then l' = localSnippets.lookup key ∧ r' = remote.lookup key
    else Converges ((orEmpty base).lookup key) (localSnippets.lookup key) (remote.lookup key)
      l' r' := by
  intro result l' r'
  by_cases hempty : (compare (some localSnippets) (some remote)).isEmpty
  · have hresult : result = { localChanges := .none, remoteChanges := .none, conflicts := [] } := by
      simp only [result, merge, if_pos hempty]
    have heq := lookup_eq_of_isEmpty localSnippets remote key hempty
    have hl : l' = localSnippets.lookup key := by
      simp only [l', hresult, apply_none]
    have hr : r' = remote.lookup key := by
      simp only [r', hresult, apply_none]
    rw [hresult, if_neg List.not_mem_nil, hl, hr, heq]
    exact ⟨rfl, ⟨fun _ _ => rfl, fun _ _ => rfl⟩⟩
  · have hslot := slot_collect localSnippets remote (orEmpty base) key
    set s := collect localSnippets remote (compareDictionaries localSnippets remote)
      (compareDictionaries (orEmpty base) localSnippets)
      (compareDictionaries (orEmpty base) remote) with hs
    have hresult : result =
        { localChanges := ⟨s.localAdded, s.localUpdated, s.localRemoved⟩
          remoteChanges := ⟨s.remoteAdded, s.remoteUpdated, s.remoteRemoved⟩
          conflicts := s.conflicts } := by
      simp only [result, merge, if_neg hempty, hs]
      rfl
    have hl := (lookup_apply_of_slot hslot localSnippets).1
    have hr := (lookup_apply_of_slot hslot remote).2
    have hconflict : key ∈ result.conflicts ↔ (s.slot key).conflict = true := by
      simp [hresult, Collected.slot]
    simp only [l', r', hconflict, hslot]
    rw [hresult]
    simp only [hl, hr]
    exact Slot.ofValues_settles _ _ _

end Gavea.UserDataSync.SnippetsMerge
