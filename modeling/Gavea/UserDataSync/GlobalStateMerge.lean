import Gavea.UserDataSync.SnippetsMerge

namespace Gavea.UserDataSync.GlobalStateMerge

open Gavea.Lib

structure IStorageValue where
  version : Int
  value : String
  scope : Option Int
deriving DecidableEq

structure LocalChanges where
  added : Dictionary IStorageValue
  removed : List String
  updated : Dictionary IStorageValue

structure RemoteChanges where
  added : List String
  removed : List String
  updated : List String
  all : Option (Dictionary IStorageValue)

structure IMergeResult where
  localChanges : LocalChanges
  remoteChanges : RemoteChanges

structure StorageKeys where
  machine : List String
  unregistered : List String

def SYNC_SERVICE_URL_TYPE : String := "sync.store.url.type"

def LocalChanges.apply (changes : LocalChanges) (d : Dictionary IStorageValue) :
    Dictionary IStorageValue :=
  ((d.assignAll changes.added).assignAll changes.updated).deleteAll changes.removed

def RemoteChanges.apply (changes : RemoteChanges) (d : Dictionary IStorageValue) :
    Dictionary IStorageValue := changes.all.getD d

def compareToBase (base : Option (Dictionary IStorageValue)) (storage : Dictionary IStorageValue) :
    Comparison :=
  match base with
  | some base => compareDictionaries base storage
  | none => { added := storage.keys, removed := [], updated := [] }

section Loops

variable (localStorage remoteStorage : Dictionary IStorageValue) (isFirstTimeSync : Bool)
  (storageKeys : StorageKeys) (baseToLocal baseToRemote : Comparison)

def addedInLocal (remote : Dictionary IStorageValue) (key : String) : Dictionary IStorageValue :=
  if key ≠ SYNC_SERVICE_URL_TYPE ∧ isFirstTimeSync ∧ key ∈ baseToRemote.added then remote
  else remote.assign key (localStorage.lookup key)

def updatedInLocal (remote : Dictionary IStorageValue) (key : String) :
    Dictionary IStorageValue := remote.assign key (localStorage.lookup key)

def removedInLocal (remote : Dictionary IStorageValue) (key : String) : Dictionary IStorageValue :=
  if key ∈ storageKeys.unregistered then remote else remote.erase key

def sameValue (key : String) : Prop :=
  (localStorage.lookup key).isSome ∧ (localStorage.lookup key).map (·.value) = (remoteStorage.lookup key).map (·.value)

instance (key : String) : Decidable (sameValue localStorage remoteStorage key) := by
  unfold sameValue
  infer_instance

def addedInRemote (s : LocalChanges) (key : String) : LocalChanges :=
  if key ∈ storageKeys.machine then s
  else if ¬isFirstTimeSync ∧ key ∈ baseToLocal.added then s
  else if sameValue localStorage remoteStorage key then s
  else if key = SYNC_SERVICE_URL_TYPE ∧ isFirstTimeSync ∧ key ∈ baseToLocal.added then s
  else if (localStorage.lookup key).isSome then
    { s with updated := s.updated.assign key (remoteStorage.lookup key) }
  else
    { s with added := s.added.assign key (remoteStorage.lookup key) }

def updatedInRemote (s : LocalChanges) (key : String) : LocalChanges :=
  if key ∈ storageKeys.machine then s
  else if key ∈ baseToLocal.updated ∨ key ∈ baseToLocal.removed then s
  else if sameValue localStorage remoteStorage key then s
  else { s with updated := s.updated.assign key (remoteStorage.lookup key) }

def removedInRemote (s : LocalChanges) (key : String) : LocalChanges :=
  if key ∈ storageKeys.machine then s
  else if key ∈ baseToLocal.updated ∨ key ∈ baseToLocal.removed then s
  else { s with removed := s.removed ++ [key] }

def mergeRemote : Dictionary IStorageValue :=
  let remote := baseToLocal.added.foldl (addedInLocal localStorage isFirstTimeSync baseToRemote)
    remoteStorage
  let remote := baseToLocal.updated.foldl (updatedInLocal localStorage) remote
  baseToLocal.removed.foldl (removedInLocal storageKeys) remote

def mergeLocal : LocalChanges :=
  let s := baseToRemote.added.foldl
    (addedInRemote localStorage remoteStorage isFirstTimeSync storageKeys baseToLocal)
    { added := ∅, removed := [], updated := ∅ }
  let s := baseToRemote.updated.foldl
    (updatedInRemote localStorage remoteStorage storageKeys baseToLocal) s
  baseToRemote.removed.foldl (removedInRemote storageKeys baseToLocal) s

end Loops

def merge (localStorage : Dictionary IStorageValue)
    (remoteStorage baseStorage : Option (Dictionary IStorageValue)) (storageKeys : StorageKeys) :
    IMergeResult :=
  match remoteStorage with
  | none =>
    { localChanges := { added := ∅, removed := [], updated := ∅ }
      remoteChanges :=
        { added := localStorage.keys, removed := [], updated := []
          all := if localStorage.keys.length > 0 then some localStorage else none } }
  | some remoteStorage =>
    let localToRemote := compareDictionaries localStorage remoteStorage
    if localToRemote.isEmpty then
      { localChanges := { added := ∅, removed := [], updated := ∅ }
        remoteChanges := { added := [], removed := [], updated := [], all := none } }
    else
      let baseToRemote := compareToBase baseStorage remoteStorage
      let baseToLocal := compareToBase baseStorage localStorage
      let isFirstTimeSync := baseStorage.isNone
      let remote := mergeRemote localStorage remoteStorage isFirstTimeSync storageKeys baseToLocal
        baseToRemote
      let result := compareDictionaries remoteStorage remote
      { localChanges := mergeLocal localStorage remoteStorage isFirstTimeSync storageKeys
          baseToLocal baseToRemote
        remoteChanges :=
          { added := result.added, removed := result.removed, updated := result.updated
            all := if result.isEmpty then none else some remote } }

section Comparisons

variable (base : Option (Dictionary IStorageValue)) (storage : Dictionary IStorageValue)
  (key : String)

def baseValue (base : Option (Dictionary IStorageValue)) (key : String) : Option IStorageValue :=
  base.bind (AList.lookup key)

theorem mem_compareToBase_added : key ∈ (compareToBase base storage).added ↔
    baseValue base key = none ∧ (storage.lookup key).isSome := by
  cases base with
  | none => simp [compareToBase, baseValue, Dictionary.mem_keys_iff]
  | some base => exact mem_added_iff base storage key

theorem mem_compareToBase_removed : key ∈ (compareToBase base storage).removed ↔
    (baseValue base key).isSome ∧ storage.lookup key = none := by
  cases base with
  | none => simp [compareToBase, baseValue]
  | some base => exact mem_removed_iff base storage key

theorem mem_compareToBase_updated : key ∈ (compareToBase base storage).updated ↔
    (baseValue base key).isSome ∧ (storage.lookup key).isSome ∧
      baseValue base key ≠ storage.lookup key := by
  cases base with
  | none => simp [compareToBase, baseValue]
  | some base => exact mem_updated_iff base storage key

theorem nodup_compareToBase : (compareToBase base storage).added.Nodup ∧
    (compareToBase base storage).removed.Nodup ∧ (compareToBase base storage).updated.Nodup := by
  cases base with
  | none => exact ⟨storage.keys_nodup, List.nodup_nil, List.nodup_nil⟩
  | some base => exact ⟨nodup_added base storage, nodup_removed base storage, nodup_updated base storage⟩

end Comparisons

section Remote

variable (localStorage remoteStorage : Dictionary IStorageValue)
  (base : Option (Dictionary IStorageValue)) (storageKeys : StorageKeys) (key : String)

/-- What the remote storage holds for a registered key after the merge. -/
def remoteOutcome (isServiceType isFirstTimeSync : Bool) (base l r : Option IStorageValue) :
    Option IStorageValue :=
  match base, l, r with
  | none, some l, some r => if !isServiceType && isFirstTimeSync then some r else some l
  | none, l, r => l.or r
  | some _, none, _ => none
  | some b, some l, r => if b = l then r else some l

theorem lookup_mergeRemote (hregistered : key ∉ storageKeys.unregistered) :
    (mergeRemote localStorage remoteStorage base.isNone storageKeys
      (compareToBase base localStorage) (compareToBase base remoteStorage)).lookup key =
      remoteOutcome (key = SYNC_SERVICE_URL_TYPE) base.isNone (baseValue base key)
        (localStorage.lookup key) (remoteStorage.lookup key) := by
  unfold mergeRemote
  set toLocal := compareToBase base localStorage
  set toRemote := compareToBase base remoteStorage with htoRemote
  obtain ⟨hadded, hremoved, hupdated⟩ := nodup_compareToBase base localStorage
  have h1 := view_foldl (fun key (remote : Dictionary IStorageValue) => remote.lookup key)
    (addedInLocal localStorage base.isNone toRemote)
    (fun key v => if key ≠ SYNC_SERVICE_URL_TYPE ∧ base.isNone ∧ key ∈ toRemote.added then v
      else (localStorage.lookup key).or v)
    (fun s key => by unfold addedInLocal; split <;> simp [Dictionary.lookup_assign])
    (fun s key other hne => by
      unfold addedInLocal; split <;> simp [Dictionary.lookup_assign, hne]) hadded remoteStorage key
  set s1 := toLocal.added.foldl (addedInLocal localStorage base.isNone toRemote) remoteStorage
  have h2 := view_foldl (fun key (remote : Dictionary IStorageValue) => remote.lookup key)
    (updatedInLocal localStorage) (fun key v => (localStorage.lookup key).or v)
    (fun s key => by simp [updatedInLocal, Dictionary.lookup_assign])
    (fun s key other hne => by simp [updatedInLocal, Dictionary.lookup_assign, hne]) hupdated s1 key
  set s2 := toLocal.updated.foldl (updatedInLocal localStorage) s1
  have h3 := view_foldl (fun key (remote : Dictionary IStorageValue) => remote.lookup key)
    (removedInLocal storageKeys)
    (fun key v => if key ∈ storageKeys.unregistered then v else none)
    (fun s key => by unfold removedInLocal; split <;> simp)
    (fun s key other hne => by
      unfold removedInLocal; split <;> simp [hne]) hremoved s2 key
  rw [h3, if_neg hregistered]
  clear h3
  simp only [htoRemote, mem_compareToBase_added, mem_compareToBase_removed, mem_compareToBase_updated] at h1 h2 ⊢
  rw [h2, h1]
  clear h1 h2
  cases hb : baseValue base key <;> cases hl : localStorage.lookup key <;>
    cases hr : remoteStorage.lookup key
  all_goals simp [remoteOutcome]

end Remote

section Local

variable (localStorage remoteStorage : Dictionary IStorageValue)
  (base : Option (Dictionary IStorageValue)) (storageKeys : StorageKeys) (key : String)

structure Slot where
  added : Option IStorageValue := none
  updated : Option IStorageValue := none
  removed : Bool := false

def LocalChanges.slot (key : String) (s : LocalChanges) : Slot where
  added := s.added.lookup key
  updated := s.updated.lookup key
  removed := decide (key ∈ s.removed)

def Slot.outcome (s : Slot) (l : Option IStorageValue) : Option IStorageValue :=
  if s.removed then none else s.updated.or (s.added.or l)

theorem LocalChanges.lookup_apply (changes : LocalChanges) (d : Dictionary IStorageValue) :
    (changes.apply d).lookup key = (changes.slot key).outcome (d.lookup key) := by
  simp [LocalChanges.apply, LocalChanges.slot, Slot.outcome, Dictionary.lookup_assignAll, Dictionary.lookup_deleteAll]

/-- What the local storage holds for a key that is not machine scoped after the merge. -/
def localOutcome (isServiceType isFirstTimeSync : Bool) (base l r : Option IStorageValue) :
    Option IStorageValue :=
  match base, l, r with
  | none, some l, some r => if isFirstTimeSync ∧ l.value ≠ r.value ∧ !isServiceType then some r else some l
  | none, l, r => l.or r
  | some _, none, _ => none
  | some b, some l, none => if b = l then none else some l
  | some b, some l, some r => if b = l ∧ l.value ≠ r.value then some r else some l

variable (isFirstTimeSync : Bool) (baseToLocal : Comparison) {keys : List String}

theorem slot_foldl_addedInRemote (hkeys : keys.Nodup) (s : LocalChanges) :
    (keys.foldl (addedInRemote localStorage remoteStorage isFirstTimeSync storageKeys baseToLocal)
      s).slot key =
      if key ∈ keys then
        if key ∈ storageKeys.machine then s.slot key
        else if ¬isFirstTimeSync ∧ key ∈ baseToLocal.added then s.slot key
        else if sameValue localStorage remoteStorage key then s.slot key
        else if key = SYNC_SERVICE_URL_TYPE ∧ isFirstTimeSync ∧ key ∈ baseToLocal.added then
          s.slot key
        else if (localStorage.lookup key).isSome then
          { s.slot key with updated := (remoteStorage.lookup key).or (s.slot key).updated }
        else { s.slot key with added := (remoteStorage.lookup key).or (s.slot key).added }
      else s.slot key := by
  refine view_foldl LocalChanges.slot _ (fun key s =>
    if key ∈ storageKeys.machine then s
    else if ¬isFirstTimeSync ∧ key ∈ baseToLocal.added then s
    else if sameValue localStorage remoteStorage key then s
    else if key = SYNC_SERVICE_URL_TYPE ∧ isFirstTimeSync ∧ key ∈ baseToLocal.added then s
    else if (localStorage.lookup key).isSome then
      { s with updated := (remoteStorage.lookup key).or s.updated }
    else { s with added := (remoteStorage.lookup key).or s.added })
    (fun s key => ?_) (fun s key other hne => ?_) hkeys s key
  · unfold addedInRemote
    repeat' split
    all_goals simp [LocalChanges.slot, Dictionary.lookup_assign]
  · unfold addedInRemote
    repeat' split
    all_goals simp [LocalChanges.slot, Dictionary.lookup_assign, hne]

theorem slot_foldl_updatedInRemote (hkeys : keys.Nodup) (s : LocalChanges) :
    (keys.foldl (updatedInRemote localStorage remoteStorage storageKeys baseToLocal) s).slot key =
      if key ∈ keys then
        if key ∈ storageKeys.machine then s.slot key
        else if key ∈ baseToLocal.updated ∨ key ∈ baseToLocal.removed then s.slot key
        else if sameValue localStorage remoteStorage key then s.slot key
        else { s.slot key with updated := (remoteStorage.lookup key).or (s.slot key).updated }
      else s.slot key := by
  refine view_foldl LocalChanges.slot _ (fun key s =>
    if key ∈ storageKeys.machine then s
    else if key ∈ baseToLocal.updated ∨ key ∈ baseToLocal.removed then s
    else if sameValue localStorage remoteStorage key then s
    else { s with updated := (remoteStorage.lookup key).or s.updated })
    (fun s key => ?_) (fun s key other hne => ?_) hkeys s key
  · unfold updatedInRemote
    repeat' split
    all_goals simp [LocalChanges.slot, Dictionary.lookup_assign]
  · unfold updatedInRemote
    repeat' split
    all_goals simp [LocalChanges.slot, Dictionary.lookup_assign, hne]

theorem slot_foldl_removedInRemote (hkeys : keys.Nodup) (s : LocalChanges) :
    (keys.foldl (removedInRemote storageKeys baseToLocal) s).slot key =
      if key ∈ keys then
        if key ∈ storageKeys.machine then s.slot key
        else if key ∈ baseToLocal.updated ∨ key ∈ baseToLocal.removed then s.slot key
        else { s.slot key with removed := true }
      else s.slot key := by
  refine view_foldl LocalChanges.slot _ (fun key s =>
    if key ∈ storageKeys.machine then s
    else if key ∈ baseToLocal.updated ∨ key ∈ baseToLocal.removed then s
    else { s with removed := true })
    (fun s key => ?_) (fun s key other hne => ?_) hkeys s key
  · unfold removedInRemote
    repeat' split
    all_goals simp [LocalChanges.slot]
  · unfold removedInRemote
    repeat' split
    all_goals simp [LocalChanges.slot, hne]

theorem outcome_mergeLocal (hmachine : key ∉ storageKeys.machine) :
    ((mergeLocal localStorage remoteStorage base.isNone storageKeys
      (compareToBase base localStorage) (compareToBase base remoteStorage)).slot key).outcome
        (localStorage.lookup key) =
      localOutcome (key = SYNC_SERVICE_URL_TYPE) base.isNone (baseValue base key)
        (localStorage.lookup key) (remoteStorage.lookup key) := by
  obtain ⟨hadded, hremoved, hupdated⟩ := nodup_compareToBase base remoteStorage
  have hstart : LocalChanges.slot key { added := ∅, removed := [], updated := ∅ } = {} := by
    simp [LocalChanges.slot]
  unfold mergeLocal
  rw [slot_foldl_removedInRemote storageKeys key _ hremoved]
  have h1 := slot_foldl_addedInRemote localStorage remoteStorage storageKeys key base.isNone
    (compareToBase base localStorage) hadded { added := ∅, removed := [], updated := ∅ }
  set s1 := (compareToBase base remoteStorage).added.foldl _ _
  have h2 := slot_foldl_updatedInRemote localStorage remoteStorage storageKeys key
    (compareToBase base localStorage) hupdated s1
  set s2 := (compareToBase base remoteStorage).updated.foldl _ _
  rw [hstart] at h1
  simp only [if_neg hmachine, mem_compareToBase_added, mem_compareToBase_removed,
    mem_compareToBase_updated, sameValue] at h1 h2 ⊢
  cases hb : baseValue base key <;> cases hl : localStorage.lookup key <;>
    cases hr : remoteStorage.lookup key <;>
    simp only [hb, hl, hr, Option.isSome, reduceCtorEq, ne_eq, not_true, not_false_iff, and_true,
      true_and, and_false, Bool.false_eq_true, if_true, if_false] at h1 h2 ⊢
  case none.none.none => simp [localOutcome, Slot.outcome, h1, h2]
  case none.none.some r => simp [localOutcome, Slot.outcome, h1, h2]
  case none.some.none l => simp [localOutcome, Slot.outcome, h1, h2]
  case none.some.some l r =>
      by_cases hfirst : base.isNone <;> by_cases hvalue : l.value = r.value <;>
        by_cases hkey : key = SYNC_SERVICE_URL_TYPE <;>
        simp_all [localOutcome, Slot.outcome]
  case some.none.none b => simp [localOutcome, Slot.outcome, h1, h2]
  case some.none.some b r => simp [localOutcome, Slot.outcome, h1, h2]
  case some.some.none b l =>
      by_cases hbl : b = l <;> simp [localOutcome, Slot.outcome, h1, h2, hbl]
  case some.some.some b l r =>
      by_cases hbl : b = l <;> by_cases hbr : b = r <;> by_cases hvalue : l.value = r.value <;>
        simp_all [localOutcome, Slot.outcome]

end Local

def valueOf (entry : Option IStorageValue) : Option String := entry.map (·.value)

/-- Both sides end with the same value string, that of the side that changed; entries that
already agreed on it may keep their versions and scopes. -/
structure SettlesValue (base l r l' r' : Option IStorageValue) : Prop where
  sameValue : valueOf l' = valueOf r'
  sameEntry : valueOf l ≠ valueOf r → l' = r'
  onlyLocal : l ≠ base → r = base → l' = l ∧ r' = l
  onlyRemote : r ≠ base → l = base → valueOf l' = valueOf r ∧ r' = r

theorem outcome_settles (isServiceType isFirstTimeSync : Bool) (base l r : Option IStorageValue) :
    SettlesValue base l r (localOutcome isServiceType isFirstTimeSync base l r)
      (remoteOutcome isServiceType isFirstTimeSync base l r) := by
  cases base with
  | none =>
    rcases l with _ | l <;> rcases r with _ | r <;> constructor <;> simp [localOutcome, remoteOutcome]
    case some.some.sameValue =>
        by_cases hvalue : l.value = r.value <;> cases isServiceType <;> cases isFirstTimeSync <;> simp [valueOf, hvalue]
    case some.some.sameEntry =>
        intro hvalue
        have hvalue : l.value ≠ r.value := by simpa [valueOf] using hvalue
        cases isServiceType <;> cases isFirstTimeSync <;> simp [hvalue]
  | some b =>
    rcases l with _ | l <;> rcases r with _ | r <;> constructor <;> simp [localOutcome, remoteOutcome]
    case some.none.onlyRemote =>
        rintro rfl
        simp
    all_goals
      rcases eq_or_ne b l with rfl | hbl
      · by_cases hvalue : b.value = r.value <;> simp_all [valueOf]
      · simp_all [eq_comm]

theorem lookup_remoteApply (remoteStorage remote : Dictionary IStorageValue) (key : String)
    (changes : RemoteChanges)
    (h : changes.all = if (compareDictionaries remoteStorage remote).isEmpty then none else some remote) :
    (changes.apply remoteStorage).lookup key = remote.lookup key := by
  unfold RemoteChanges.apply
  rw [h]
  split
  next hempty => exact lookup_eq_of_isEmpty remoteStorage remote key hempty
  next => rfl

theorem merge_settles (localStorage remoteStorage : Dictionary IStorageValue)
    (baseStorage : Option (Dictionary IStorageValue)) (storageKeys : StorageKeys) (key : String)
    (hmachine : key ∉ storageKeys.machine) (hregistered : key ∉ storageKeys.unregistered) :
    let result := merge localStorage (some remoteStorage) baseStorage storageKeys
    SettlesValue (baseValue baseStorage key) (localStorage.lookup key) (remoteStorage.lookup key)
      ((result.localChanges.apply localStorage).lookup key)
      ((result.remoteChanges.apply remoteStorage).lookup key) := by
  intro result
  by_cases hempty : (compareDictionaries localStorage remoteStorage).isEmpty
  · have hresult : result =
        { localChanges := { added := ∅, removed := [], updated := ∅ }
          remoteChanges := { added := [], removed := [], updated := [], all := none } } := by
      simp only [result, merge, if_pos hempty]
    have hl : (result.localChanges.apply localStorage).lookup key = localStorage.lookup key := by
      rw [LocalChanges.lookup_apply, hresult]
      simp [LocalChanges.slot, Slot.outcome]
    have hr : (result.remoteChanges.apply remoteStorage).lookup key = remoteStorage.lookup key := by
      rw [hresult]
      rfl
    rw [hl, hr, lookup_eq_of_isEmpty localStorage remoteStorage key hempty]
    exact ⟨rfl, fun _ => rfl, fun _ _ => ⟨rfl, rfl⟩, fun _ _ => ⟨rfl, rfl⟩⟩
  · have hlocal : result.localChanges = mergeLocal localStorage remoteStorage baseStorage.isNone
        storageKeys (compareToBase baseStorage localStorage)
        (compareToBase baseStorage remoteStorage) := by
      simp only [result, merge, if_neg hempty]
    have hall : result.remoteChanges.all = if (compareDictionaries remoteStorage
        (mergeRemote localStorage remoteStorage baseStorage.isNone storageKeys
          (compareToBase baseStorage localStorage)
          (compareToBase baseStorage remoteStorage))).isEmpty then none
        else some (mergeRemote localStorage remoteStorage baseStorage.isNone storageKeys
          (compareToBase baseStorage localStorage) (compareToBase baseStorage remoteStorage)) := by
      simp only [result, merge, if_neg hempty]
    rw [LocalChanges.lookup_apply, hlocal, outcome_mergeLocal _ _ _ _ _ hmachine,
      lookup_remoteApply _ _ _ _ hall, lookup_mergeRemote _ _ _ _ _ hregistered]
    exact outcome_settles _ _ _ _ _

end Gavea.UserDataSync.GlobalStateMerge
