import Gavea.Lib.Collections
import Gavea.UserDataSync.GlobalStateMerge

namespace Gavea.UserDataSync.ProfilesMerge

open Gavea.Lib List

structure UseDefaultProfileFlags where
  settings : Option Bool := none
  keybindings : Option Bool := none
  snippets : Option Bool := none
  prompts : Option Bool := none
  tasks : Option Bool := none
  extensions : Option Bool := none
  globalState : Option Bool := none
  mcp : Option Bool := none
  languageModels : Option Bool := none
deriving DecidableEq

structure IUserDataProfileInfo where
  id : String
  name : String
  icon : Option String := none
  useDefaultFlags : Option UseDefaultProfileFlags := none
deriving DecidableEq

structure ISyncUserDataProfile extends IUserDataProfileInfo where
  collection : String

abbrev IUserDataProfile := IUserDataProfileInfo

structure LocalChanges where
  added : List ISyncUserDataProfile := []
  removed : List IUserDataProfile := []
  updated : List ISyncUserDataProfile := []

structure RemoteChanges where
  added : List IUserDataProfile := []
  removed : List ISyncUserDataProfile := []
  updated : List IUserDataProfile := []

structure IMergeResult where
  localChanges : LocalChanges
  remoteChanges : Option RemoteChanges

section ById

variable {P Q : Type} (idOf : P → String)

def byId (profiles : List P) (id : String) : Option P := profiles.find? fun p => idOf p == id

abbrev DistinctIds (profiles : List P) : Prop := (profiles.map idOf).Nodup

end ById

abbrev info (profile : ISyncUserDataProfile) : IUserDataProfileInfo := profile.toIUserDataProfileInfo

def compare (older : Option (List IUserDataProfileInfo)) (newer : List IUserDataProfileInfo)
    (ignoredProfiles : List String) : Comparison :=
  let older := (older.getD []).filter fun p => p.id ∉ ignoredProfiles
  let newer := newer.filter fun p => p.id ∉ ignoredProfiles
  let fromKeys := older.map (·.id)
  let toKeys := newer.map (·.id)
  let added := toKeys.filter fun key => key ∉ fromKeys
  let removed := fromKeys.filter fun key => key ∉ toKeys
  let updated := (older.filter fun p => p.id ∉ removed ∧
    ((byId (·.id) newer p.id).all fun toProfile => toProfile.name ≠ p.name ∨
      toProfile.icon ≠ p.icon ∨ toProfile.useDefaultFlags ≠ p.useDefaultFlags)).map (·.id)
  { added, removed, updated }

section Loops

variable (localProfiles : List IUserDataProfile) (remote : List ISyncUserDataProfile)
  (localToRemote baseToLocal baseToRemote : Comparison)

def findLocal (id : String) : Option IUserDataProfile := byId (·.id) localProfiles id

def findRemote (id : String) : Option ISyncUserDataProfile := byId (·.id) remote id

def removedRemotely (s : LocalChanges) (id : String) : LocalChanges :=
  { s with removed := s.removed ++ (findLocal localProfiles id).toList }

def addedRemotely (s : LocalChanges) (id : String) : LocalChanges :=
  if id ∈ baseToLocal.added then
    if id ∈ localToRemote.updated then
      { s with updated := s.updated ++ (findRemote remote id).toList }
    else s
  else
    { s with added := s.added ++ (findRemote remote id).toList }

def updatedRemotely (s : LocalChanges) (id : String) : LocalChanges :=
  { s with updated := s.updated ++ (findRemote remote id).toList }

def addedLocally (s : RemoteChanges) (id : String) : RemoteChanges :=
  if id ∉ baseToRemote.added then
    { s with added := s.added ++ (findLocal localProfiles id).toList }
  else s

def updatedLocally (s : RemoteChanges) (id : String) : RemoteChanges :=
  if id ∈ baseToRemote.removed then s
  else if id ∉ baseToRemote.updated then
    { s with updated := s.updated ++ (findLocal localProfiles id).toList }
  else s

def removedLocally (s : RemoteChanges) (id : String) : RemoteChanges :=
  { s with removed := s.removed ++ (findRemote remote id).toList }

def localResult : LocalChanges :=
  let s := baseToRemote.removed.foldl (removedRemotely localProfiles) {}
  let s := baseToRemote.added.foldl (addedRemotely remote localToRemote baseToLocal) s
  baseToRemote.updated.foldl (updatedRemotely remote) s

def remoteResult : RemoteChanges :=
  let s := baseToLocal.added.foldl (addedLocally localProfiles baseToRemote) {}
  let s := baseToLocal.updated.foldl (updatedLocally localProfiles baseToRemote) s
  baseToLocal.removed.foldl (removedLocally remote) s

end Loops

def RemoteChanges.orNull (s : RemoteChanges) : Option RemoteChanges :=
  if s.added.length = 0 ∧ s.removed.length = 0 ∧ s.updated.length = 0 then none else some s

def merge (localProfiles : List IUserDataProfile) (remote lastSync : Option (List ISyncUserDataProfile))
    (ignored : List String) : IMergeResult :=
  match remote with
  | none =>
    let added := localProfiles.filter fun p => p.id ∉ ignored
    { localChanges := {}, remoteChanges := if added.length > 0 then some { added } else none }
  | some remote =>
    let localToRemote := compare (some localProfiles) (remote.map info) ignored
    if localToRemote.isEmpty then
      { localChanges := {}, remoteChanges := none }
    else
      let baseToLocal := compare (lastSync.map (·.map info)) localProfiles ignored
      let baseToRemote := compare (lastSync.map (·.map info)) (remote.map info) ignored
      { localChanges := localResult localProfiles remote localToRemote baseToLocal baseToRemote
        remoteChanges := (remoteResult localProfiles remote baseToLocal baseToRemote).orNull }

section Apply

variable {P : Type}

def updateById (idOf : P → String) (id : String) (change : P → P) (profiles : List P) : List P :=
  modifyFirst (fun p => idOf p == id) change profiles

def LocalChanges.apply (changes : LocalChanges) (profiles : List IUserDataProfile) :
    List IUserDataProfile :=
  let profiles := profiles.filter fun p => p.id ∉ changes.removed.map (·.id)
  let profiles := profiles ++ changes.added.map info
  changes.updated.foldl (fun ps p => updateById (·.id) p.id (fun _ => info p) ps) profiles

def RemoteChanges.apply (createCollection : IUserDataProfile → String) (changes : RemoteChanges)
    (profiles : List ISyncUserDataProfile) : List ISyncUserDataProfile :=
  let profiles := profiles ++
    changes.added.map fun p => { p with collection := createCollection p }
  let profiles := changes.removed.foldl (fun ps p => ps.eraseP fun q => p.id == q.id) profiles
  changes.updated.foldl
    (fun ps p => updateById (·.id) p.id (fun q => { p with collection := q.collection }) ps) profiles

end Apply

section ByIdLemmas

variable {P Q : Type} {idOf : P → String} {profiles : List P} {id : String}

theorem id_of_byId {p : P} (h : byId idOf profiles id = some p) : idOf p = id := by
  simpa using find?_some h

theorem byId_isSome : (byId idOf profiles id).isSome ↔ id ∈ profiles.map idOf := by
  simp [byId, find?_isSome]

theorem byId_eq_none : byId idOf profiles id = none ↔ id ∉ profiles.map idOf := by
  rw [← byId_isSome, Option.not_isSome_iff_eq_none]

theorem byId_map {idOf : Q → String} (f : P → Q) :
    byId idOf (profiles.map f) id = (byId (fun p => idOf (f p)) profiles id).map f := by
  simp [byId, find?_map]

theorem byId_of_mem (hdistinct : DistinctIds idOf profiles) {p : P} (hp : p ∈ profiles) :
    byId idOf profiles (idOf p) = some p := by
  cases hfind : byId idOf profiles (idOf p) with
  | none => exact absurd (mem_map_of_mem hp) (byId_eq_none.mp hfind)
  | some q =>
    have hq := mem_of_find?_eq_some hfind
    rw [inj_on_of_nodup_map hdistinct hq hp (id_of_byId hfind)]

theorem byId_filter (q : String → Prop) [DecidablePred q] :
    byId idOf (profiles.filter fun p => q (idOf p)) id =
      if q id then byId idOf profiles id else none := by
  rw [byId, find?_filter]
  split
  next hq =>
      refine congrArg (fun f => profiles.find? f) (funext fun p => ?_)
      by_cases hp : idOf p = id <;> simp [hp, hq]
  next hq =>
      refine find?_eq_none.mpr fun p _ => ?_
      simp only [decide_eq_true_eq, beq_iff_eq, not_and]
      rintro hp rfl
      exact hq hp

end ByIdLemmas

section Compare

variable (older : Option (List IUserDataProfileInfo)) (newer : List IUserDataProfileInfo)
  (ignored : List String) (id : String)

def oldProfile (older : Option (List IUserDataProfileInfo)) (id : String) :
    Option IUserDataProfileInfo := byId (·.id) (older.getD []) id

theorem mem_compare_added : id ∈ (compare older newer ignored).added ↔
    id ∉ ignored ∧ oldProfile older id = none ∧ (byId (·.id) newer id).isSome := by
  simp only [compare, mem_filter, decide_eq_true_eq, ← byId_isSome,
    byId_filter (fun id => id ∉ ignored), oldProfile]
  by_cases hignored : id ∈ ignored <;> simp [hignored, and_comm]

theorem mem_compare_removed : id ∈ (compare older newer ignored).removed ↔
    id ∉ ignored ∧ (oldProfile older id).isSome ∧ byId (·.id) newer id = none := by
  simp only [compare, mem_filter, decide_eq_true_eq, ← byId_isSome,
    byId_filter (fun id => id ∉ ignored), oldProfile]
  by_cases hignored : id ∈ ignored <;> simp [hignored]

theorem mem_compare_updated (hdistinct : DistinctIds (·.id) (older.getD [])) :
    id ∈ (compare older newer ignored).updated ↔
    id ∉ ignored ∧ (oldProfile older id).isSome ∧ (byId (·.id) newer id).isSome ∧
      oldProfile older id ≠ byId (·.id) newer id := by
  have hfind : ∀ p ∈ older.getD [], oldProfile older p.id = some p := fun p hp =>
    byId_of_mem hdistinct hp
  have hmem : id ∈ (compare older newer ignored).updated ↔ ∃ p ∈ older.getD [], p.id = id ∧
      id ∉ ignored ∧ id ∉ (compare older newer ignored).removed ∧
      (byId (·.id) newer id).all fun toProfile => toProfile.name ≠ p.name ∨
        toProfile.icon ≠ p.icon ∨ toProfile.useDefaultFlags ≠ p.useDefaultFlags := by
    have hnewer := fun p : IUserDataProfileInfo => @byId_filter _ (·.id) newer p.id (fun id => id ∉ ignored) _
    simp only [compare, mem_map, mem_filter, decide_eq_true_eq, hnewer]
    constructor
    · rintro ⟨p, ⟨⟨hp, hignored⟩, hremoved, hall⟩, rfl⟩
      rw [if_pos hignored] at hall
      exact ⟨p, hp, rfl, hignored, hremoved, hall⟩
    · rintro ⟨p, hp, rfl, hignored, hremoved, hall⟩
      refine ⟨p, ⟨⟨hp, hignored⟩, hremoved, ?_⟩, rfl⟩
      rwa [if_pos hignored]
  rw [hmem, mem_compare_removed]
  constructor
  · rintro ⟨p, hp, rfl, hignored, hremoved, hall⟩
    rw [hfind p hp] at hremoved ⊢
    cases hnew : byId (·.id) newer p.id with
    | none => exact absurd ⟨hignored, rfl, hnew⟩ hremoved
    | some q =>
      refine ⟨hignored, rfl, rfl, fun heq => ?_⟩
      obtain rfl := Option.some.inj heq
      simp [hnew] at hall
  · rintro ⟨hignored, hold, hnew, hne⟩
    obtain ⟨p, hp⟩ := Option.isSome_iff_exists.mp hold
    obtain ⟨q, hq⟩ := Option.isSome_iff_exists.mp hnew
    refine ⟨p, mem_of_find?_eq_some hp, id_of_byId hp, hignored, ?_, ?_⟩
    · rw [hq]
      simp
    · rw [hp, hq] at hne
      have hid : q.id = p.id := (id_of_byId hq).trans (id_of_byId hp).symm
      simp only [hq, Option.all_some, decide_eq_true_eq]
      by_contra hsame
      push Not at hsame
      obtain ⟨hname, hicon, hflags⟩ := hsame
      refine hne (congrArg some ?_)
      cases p
      cases q
      simp_all

variable {older newer}

theorem nodup_compare (holder : DistinctIds (·.id) (older.getD []))
    (hnewer : DistinctIds (·.id) newer) :
    (compare older newer ignored).added.Nodup ∧ (compare older newer ignored).removed.Nodup ∧
      (compare older newer ignored).updated.Nodup := by
  refine ⟨List.Nodup.filter _ ?_, List.Nodup.filter _ ?_, ?_⟩
  · exact hnewer.sublist (filter_sublist.map _)
  · exact holder.sublist (filter_sublist.map _)
  · exact holder.sublist ((filter_sublist.trans filter_sublist).map _)

theorem byId_eq_of_isEmpty (hdistinct : DistinctIds (·.id) (older.getD []))
    (h : (compare older newer ignored).isEmpty) (hignored : id ∉ ignored) :
    oldProfile older id = byId (·.id) newer id := by
  obtain ⟨hadded, hremoved, hupdated⟩ := h
  have ha := (mem_compare_added older newer ignored id).not.mp (hadded ▸ not_mem_nil)
  have hr := (mem_compare_removed older newer ignored id).not.mp (hremoved ▸ not_mem_nil)
  have hu := (mem_compare_updated older newer ignored id hdistinct).not.mp (hupdated ▸ not_mem_nil)
  cases h1 : oldProfile older id <;> cases h2 : byId (·.id) newer id <;> simp_all

end Compare

structure Slot where
  added : List IUserDataProfileInfo := []
  removed : List IUserDataProfileInfo := []
  updated : List IUserDataProfileInfo := []

def infosOf {P : Type} (toInfo : P → IUserDataProfileInfo) (profiles : List P) (id : String) :
    List IUserDataProfileInfo := (profiles.map toInfo).filter fun p => p.id == id

def LocalChanges.slot (id : String) (s : LocalChanges) : Slot where
  added := infosOf info s.added id
  removed := infosOf (fun p => p) s.removed id
  updated := infosOf info s.updated id

def RemoteChanges.slot (id : String) (s : RemoteChanges) : Slot where
  added := infosOf (fun p => p) s.added id
  removed := infosOf info s.removed id
  updated := infosOf (fun p => p) s.updated id

section Push

variable {P : Type} {toInfo : P → IUserDataProfileInfo} {profiles found : List P}
  {id other : String}

theorem infosOf_append : infosOf toInfo (profiles ++ found) id =
    infosOf toInfo profiles id ++ infosOf toInfo found id := by
  simp [infosOf]

theorem infosOf_byId : infosOf toInfo (byId (fun p => (toInfo p).id) profiles id).toList id =
    ((byId (fun p => (toInfo p).id) profiles id).map toInfo).toList := by
  cases h : byId (fun p => (toInfo p).id) profiles id with
  | none => rfl
  | some p => simp [infosOf, id_of_byId h]

theorem infosOf_byId_ne (h : other ≠ id) :
    infosOf toInfo (byId (fun p => (toInfo p).id) profiles id).toList other = [] := by
  cases hp : byId (fun p => (toInfo p).id) profiles id with
  | none => rfl
  | some p => simp [infosOf, id_of_byId hp, h.symm]

end Push

section Slots

variable (localProfiles : List IUserDataProfile) (remote : List ISyncUserDataProfile)
  (localToRemote baseToLocal baseToRemote : Comparison) (id : String) {keys : List String}

def localInfo : Option IUserDataProfileInfo := findLocal localProfiles id

def remoteInfo : Option IUserDataProfileInfo := (findRemote remote id).map info

theorem infosOf_findLocal : infosOf (fun p => p) (findLocal localProfiles id).toList id =
    (localInfo localProfiles id).toList := by
  have h := @infosOf_byId _ (fun p => p) localProfiles id
  rwa [Option.map_id'] at h

theorem infosOf_findRemote : infosOf info (findRemote remote id).toList id =
    (remoteInfo remote id).toList := @infosOf_byId _ info remote id

theorem infosOf_findLocal_ne {other : String} (h : other ≠ id) :
    infosOf (fun p => p) (findLocal localProfiles id).toList other = [] :=
  @infosOf_byId_ne _ (fun p => p) localProfiles id other h

theorem infosOf_findRemote_ne {other : String} (h : other ≠ id) :
    infosOf info (findRemote remote id).toList other = [] :=
  @infosOf_byId_ne _ info remote id other h

theorem slot_foldl_removedRemotely (hkeys : keys.Nodup) (s : LocalChanges) :
    (keys.foldl (removedRemotely localProfiles) s).slot id = if id ∈ keys then
      { s.slot id with removed := (s.slot id).removed ++ (localInfo localProfiles id).toList }
    else s.slot id := by
  refine view_foldl LocalChanges.slot _ (fun id s =>
    { s with removed := s.removed ++ (localInfo localProfiles id).toList })
    (fun s id => ?_) (fun s id other hne => ?_) hkeys s id
  · simp [removedRemotely, LocalChanges.slot, infosOf_append, infosOf_findLocal]
  · simp [removedRemotely, LocalChanges.slot, infosOf_append, infosOf_findLocal_ne _ _ hne]

theorem slot_foldl_addedRemotely (hkeys : keys.Nodup) (s : LocalChanges) :
    (keys.foldl (addedRemotely remote localToRemote baseToLocal) s).slot id = if id ∈ keys then
      if id ∈ baseToLocal.added then
        if id ∈ localToRemote.updated then
          { s.slot id with updated := (s.slot id).updated ++ (remoteInfo remote id).toList }
        else s.slot id
      else { s.slot id with added := (s.slot id).added ++ (remoteInfo remote id).toList }
    else s.slot id := by
  refine view_foldl LocalChanges.slot _ (fun id s =>
    if id ∈ baseToLocal.added then
      if id ∈ localToRemote.updated then
        { s with updated := s.updated ++ (remoteInfo remote id).toList }
      else s
    else { s with added := s.added ++ (remoteInfo remote id).toList })
    (fun s id => ?_) (fun s id other hne => ?_) hkeys s id
  · unfold addedRemotely
    repeat' split
    all_goals simp [LocalChanges.slot, infosOf_append, infosOf_findRemote]
  · unfold addedRemotely
    repeat' split
    all_goals simp [LocalChanges.slot, infosOf_append, infosOf_findRemote_ne _ _ hne]

theorem slot_foldl_updatedRemotely (hkeys : keys.Nodup) (s : LocalChanges) :
    (keys.foldl (updatedRemotely remote) s).slot id = if id ∈ keys then
      { s.slot id with updated := (s.slot id).updated ++ (remoteInfo remote id).toList }
    else s.slot id := by
  refine view_foldl LocalChanges.slot _ (fun id s =>
    { s with updated := s.updated ++ (remoteInfo remote id).toList })
    (fun s id => ?_) (fun s id other hne => ?_) hkeys s id
  · simp [updatedRemotely, LocalChanges.slot, infosOf_append, infosOf_findRemote]
  · simp [updatedRemotely, LocalChanges.slot, infosOf_append, infosOf_findRemote_ne _ _ hne]

theorem slot_foldl_addedLocally (hkeys : keys.Nodup) (s : RemoteChanges) :
    (keys.foldl (addedLocally localProfiles baseToRemote) s).slot id = if id ∈ keys then
      if id ∉ baseToRemote.added then
        { s.slot id with added := (s.slot id).added ++ (localInfo localProfiles id).toList }
      else s.slot id
    else s.slot id := by
  refine view_foldl RemoteChanges.slot _ (fun id s =>
    if id ∉ baseToRemote.added then
      { s with added := s.added ++ (localInfo localProfiles id).toList }
    else s)
    (fun s id => ?_) (fun s id other hne => ?_) hkeys s id
  · unfold addedLocally
    split <;> simp [RemoteChanges.slot, infosOf_append, infosOf_findLocal]
  · unfold addedLocally
    split <;> simp [RemoteChanges.slot, infosOf_append, infosOf_findLocal_ne _ _ hne]

theorem slot_foldl_updatedLocally (hkeys : keys.Nodup) (s : RemoteChanges) :
    (keys.foldl (updatedLocally localProfiles baseToRemote) s).slot id = if id ∈ keys then
      if id ∈ baseToRemote.removed then s.slot id
      else if id ∉ baseToRemote.updated then
        { s.slot id with updated := (s.slot id).updated ++ (localInfo localProfiles id).toList }
      else s.slot id
    else s.slot id := by
  refine view_foldl RemoteChanges.slot _ (fun id s =>
    if id ∈ baseToRemote.removed then s
    else if id ∉ baseToRemote.updated then
      { s with updated := s.updated ++ (localInfo localProfiles id).toList }
    else s)
    (fun s id => ?_) (fun s id other hne => ?_) hkeys s id
  · unfold updatedLocally
    repeat' split
    all_goals simp [RemoteChanges.slot, infosOf_append, infosOf_findLocal]
  · unfold updatedLocally
    repeat' split
    all_goals simp [RemoteChanges.slot, infosOf_append, infosOf_findLocal_ne _ _ hne]

theorem slot_foldl_removedLocally (hkeys : keys.Nodup) (s : RemoteChanges) :
    (keys.foldl (removedLocally remote) s).slot id = if id ∈ keys then
      { s.slot id with removed := (s.slot id).removed ++ (remoteInfo remote id).toList }
    else s.slot id := by
  refine view_foldl RemoteChanges.slot _ (fun id s =>
    { s with removed := s.removed ++ (remoteInfo remote id).toList })
    (fun s id => ?_) (fun s id other hne => ?_) hkeys s id
  · simp [removedLocally, RemoteChanges.slot, infosOf_append, infosOf_findRemote]
  · simp [removedLocally, RemoteChanges.slot, infosOf_append, infosOf_findRemote_ne _ _ hne]

def localSlot (base l r : Option IUserDataProfileInfo) : Slot :=
  match base, l, r with
  | none, none, some r => { added := [r] }
  | none, some l, some r => if l = r then {} else { updated := [r] }
  | some _, some l, none => { removed := [l] }
  | some b, _, some r => if b = r then {} else { updated := [r] }
  | _, _, none => {}

def remoteSlot (base l r : Option IUserDataProfileInfo) : Slot :=
  match base, l, r with
  | none, some l, none => { added := [l] }
  | some _, none, some r => { removed := [r] }
  | some b, some l, some r => if b ≠ l ∧ b = r then { updated := [l] } else {}
  | _, _, _ => {}

variable {localProfiles remote} {lastSync : Option (List ISyncUserDataProfile)}
  {ignored : List String} {id}

theorem byId_infos : byId (·.id) (remote.map info) id = remoteInfo remote id :=
  byId_map info

abbrev toLocal (lastSync : Option (List ISyncUserDataProfile)) (localProfiles : List IUserDataProfile)
    (ignored : List String) : Comparison := compare (lastSync.map (·.map info)) localProfiles ignored

abbrev toRemote (lastSync : Option (List ISyncUserDataProfile)) (remote : List ISyncUserDataProfile)
    (ignored : List String) : Comparison :=
  compare (lastSync.map (·.map info)) (remote.map info) ignored

abbrev difference (localProfiles : List IUserDataProfile) (remote : List ISyncUserDataProfile)
    (ignored : List String) : Comparison := compare (some localProfiles) (remote.map info) ignored

structure Distinct (localProfiles : List IUserDataProfile) (remote : List ISyncUserDataProfile)
    (lastSync : Option (List ISyncUserDataProfile)) : Prop where
  ofLocal : DistinctIds (·.id) localProfiles
  ofRemote : DistinctIds (·.id) (remote.map info)
  ofLastSync : DistinctIds (·.id) ((lastSync.map (·.map info)).getD [])

theorem slot_localResult (hdistinct : Distinct localProfiles remote lastSync)
    (hignored : id ∉ ignored) :
    (localResult localProfiles remote (difference localProfiles remote ignored)
      (toLocal lastSync localProfiles ignored) (toRemote lastSync remote ignored)).slot id =
      localSlot (oldProfile (lastSync.map (·.map info)) id) (localInfo localProfiles id)
        (remoteInfo remote id) := by
  obtain ⟨hadded, hremoved, hupdated⟩ := nodup_compare ignored hdistinct.ofLastSync hdistinct.ofRemote
  have hstart : LocalChanges.slot id {} = {} := rfl
  unfold localResult
  rw [slot_foldl_updatedRemotely remote id hupdated, slot_foldl_addedRemotely remote _ _ id hadded,
    slot_foldl_removedRemotely localProfiles id hremoved, hstart]
  have hlocal : oldProfile (some localProfiles) id = localInfo localProfiles id := rfl
  have hfound : byId (·.id) localProfiles id = localInfo localProfiles id := rfl
  simp only [mem_compare_added, mem_compare_removed, mem_compare_updated _ _ _ _ hdistinct.ofLastSync,
    mem_compare_updated (some localProfiles) _ _ _ hdistinct.ofLocal, byId_infos, hlocal, hfound, hignored,
    not_false_iff, true_and]
  generalize oldProfile (lastSync.map (·.map info)) id = b
  generalize localInfo localProfiles id = l
  generalize remoteInfo remote id = r
  rcases b with _ | b <;> rcases l with _ | l <;> rcases r with _ | r
  case none.some.some => by_cases hlr : l = r <;> simp [localSlot, hlr]
  case some.none.some => by_cases hbr : b = r <;> simp [localSlot, hbr]
  case some.some.some => by_cases hbr : b = r <;> simp [localSlot, hbr]
  all_goals simp [localSlot]

theorem slot_remoteResult (hdistinct : Distinct localProfiles remote lastSync)
    (hignored : id ∉ ignored) :
    (remoteResult localProfiles remote (toLocal lastSync localProfiles ignored)
      (toRemote lastSync remote ignored)).slot id =
      remoteSlot (oldProfile (lastSync.map (·.map info)) id) (localInfo localProfiles id)
        (remoteInfo remote id) := by
  obtain ⟨hadded, hremoved, hupdated⟩ := nodup_compare ignored hdistinct.ofLastSync hdistinct.ofLocal
  have hstart : RemoteChanges.slot id {} = {} := rfl
  unfold remoteResult
  rw [slot_foldl_removedLocally remote id hremoved, slot_foldl_updatedLocally localProfiles _ id hupdated,
    slot_foldl_addedLocally localProfiles _ id hadded, hstart]
  have hfound : byId (·.id) localProfiles id = localInfo localProfiles id := rfl
  simp only [mem_compare_added, mem_compare_removed, mem_compare_updated _ _ _ _ hdistinct.ofLastSync,
    byId_infos, hfound, hignored, not_false_iff, true_and]
  generalize oldProfile (lastSync.map (·.map info)) id = b
  generalize localInfo localProfiles id = l
  generalize remoteInfo remote id = r
  rcases b with _ | b <;> rcases l with _ | l <;> rcases r with _ | r
  case some.some.some =>
      by_cases hbr : b = r <;> by_cases hbl : b = l <;> simp [remoteSlot, hbr, hbl]
  case some.some.none => by_cases hbl : b = l <;> simp [remoteSlot, hbl]
  all_goals simp [remoteSlot]

end Slots

section ApplyLemmas

variable {P : Type} {toInfo : P → IUserDataProfileInfo} {profiles : List P} {id other : String}

theorem infosOf_cons (p : P) : infosOf toInfo (p :: profiles) id =
    if (toInfo p).id = id then toInfo p :: infosOf toInfo profiles id
    else infosOf toInfo profiles id := by
  by_cases h : (toInfo p).id = id <;> simp [infosOf, h]

theorem head?_infosOf : (infosOf toInfo profiles id).head? =
    (byId (fun p => (toInfo p).id) profiles id).map toInfo := by
  simp [infosOf, byId, head?_filter, find?_map]

theorem infosOf_of_distinct (h : DistinctIds (fun p => (toInfo p).id) profiles) :
    infosOf toInfo profiles id = ((byId (fun p => (toInfo p).id) profiles id).map toInfo).toList := by
  induction profiles with
  | nil => rfl
  | cons p profiles ih =>
    obtain ⟨hp, h⟩ := nodup_cons.mp h
    rw [infosOf_cons, ih h]
    by_cases hid : (toInfo p).id = id
    · have hnone : byId (fun p => (toInfo p).id) profiles id = none :=
        byId_eq_none.mpr (hid ▸ hp)
      rw [if_pos hid, hnone]
      simp [byId, hid]
    · simp [byId, hid]

theorem infosOf_eraseP : infosOf toInfo (profiles.eraseP fun p => other == (toInfo p).id) id =
    if id = other then (infosOf toInfo profiles id).tail else infosOf toInfo profiles id := by
  induction profiles with
  | nil => simp [infosOf]
  | cons p profiles ih =>
    by_cases hp : other = (toInfo p).id
    · rw [eraseP_cons_of_pos (by simpa using hp), infosOf_cons]
      by_cases hid : id = other
      · simp [hid, hp]
      · simp [hid, ← hp, Ne.symm hid]
    · rw [eraseP_cons_of_neg (by simpa using hp), infosOf_cons, infosOf_cons, ih]
      by_cases hid : id = other
      · simp [hid, Ne.symm hp]
      · simp [hid]

theorem infosOf_foldl_eraseP {U : Type} (updateInfo : U → IUserDataProfileInfo) (removed : List U) :
    infosOf toInfo (removed.foldl
      (fun ps u => ps.eraseP fun p => (updateInfo u).id == (toInfo p).id) profiles) id =
      (infosOf toInfo profiles id).drop (infosOf updateInfo removed id).length := by
  induction removed generalizing profiles with
  | nil => simp [infosOf]
  | cons u removed ih =>
    rw [foldl_cons, ih, infosOf_eraseP, infosOf_cons]
    by_cases hu : (updateInfo u).id = id
    · simp [hu, drop_tail]
    · simp [hu, Ne.symm hu]

theorem infosOf_updateById {change : P → P} {update : IUserDataProfileInfo}
    (hchange : ∀ p, toInfo (change p) = update) :
    infosOf toInfo (updateById (fun p => (toInfo p).id) update.id change profiles) id =
      if id = update.id then (infosOf toInfo profiles id).modifyHead fun _ => update
      else infosOf toInfo profiles id := by
  induction profiles with
  | nil => simp [updateById, modifyFirst, infosOf]
  | cons p profiles ih =>
    unfold updateById at ih ⊢
    rw [modifyFirst]
    by_cases hp : (toInfo p).id = update.id
    · rw [if_pos (by simpa using hp), infosOf_cons, infosOf_cons, hchange]
      by_cases hid : id = update.id
      · simp [hid, hp]
      · simp [hid, hp, Ne.symm hid]
    · rw [if_neg (by simpa using hp), infosOf_cons, infosOf_cons, ih]
      by_cases hid : id = update.id
      · simp [hid, hp]
      · simp [hid]

theorem infosOf_foldl_updateById {U : Type} (updateInfo : U → IUserDataProfileInfo)
    (change : U → P → P) (hchange : ∀ u p, toInfo (change u p) = updateInfo u) (updates : List U) :
    infosOf toInfo (updates.foldl
      (fun ps u => updateById (fun p => (toInfo p).id) (updateInfo u).id (change u) ps) profiles) id =
      (infosOf updateInfo updates id).foldl (fun l u => l.modifyHead fun _ => u)
        (infosOf toInfo profiles id) := by
  induction updates generalizing profiles with
  | nil => rfl
  | cons u updates ih =>
    rw [foldl_cons, ih, infosOf_updateById (hchange u), infosOf_cons]
    by_cases hu : (updateInfo u).id = id
    · simp [hu]
    · simp [hu, Ne.symm hu]

/-- What local changes make of the profiles with their id. -/
def Slot.applyLocal (s : Slot) (l : List IUserDataProfileInfo) : List IUserDataProfileInfo :=
  s.updated.foldl (fun l u => l.modifyHead fun _ => u) ((if s.removed = [] then l else []) ++ s.added)

def Slot.applyRemote (s : Slot) (r : List IUserDataProfileInfo) : List IUserDataProfileInfo :=
  s.updated.foldl (fun l u => l.modifyHead fun _ => u) ((r ++ s.added).drop s.removed.length)

theorem LocalChanges.infosOf_apply (changes : LocalChanges) (profiles : List IUserDataProfile) :
    infosOf (fun p => p) (changes.apply profiles) id =
      (changes.slot id).applyLocal (infosOf (fun p => p) profiles id) := by
  unfold LocalChanges.apply Slot.applyLocal LocalChanges.slot
  have hupdated := @infosOf_foldl_updateById _ (fun p => p)
    (profiles.filter (fun p => p.id ∉ changes.removed.map (·.id)) ++ changes.added.map info) id
    ISyncUserDataProfile info (fun u _ => info u) (fun _ _ => rfl) changes.updated
  have hadded : infosOf (fun p => p) (changes.added.map info) id = infosOf info changes.added id := by
    simp only [infosOf, map_map]
    rfl
  have hremoved : infosOf (fun p => p)
      (profiles.filter fun p => p.id ∉ changes.removed.map (·.id)) id =
      if infosOf (fun p => p) changes.removed id = [] then infosOf (fun p => p) profiles id
      else [] := by
    have hempty : infosOf (fun p => p) changes.removed id = [] ↔
        id ∉ changes.removed.map (·.id) := by
      simp only [infosOf, map_id', filter_eq_nil_iff, beq_iff_eq, mem_map, not_exists, not_and]
    simp only [hempty]
    simp only [infosOf, map_id', filter_filter]
    split
    next hnot =>
        refine filter_congr fun p _ => ?_
        by_cases hp : p.id = id
        · simpa [hp] using hnot
        · simp [hp]
    next hmem =>
        refine filter_eq_nil_iff.mpr fun p _ => ?_
        simp only [Bool.and_eq_true, beq_iff_eq, decide_eq_true_eq, not_and, not_not]
        rintro rfl
        exact not_not.mp hmem
  rw [hupdated, infosOf_append, hadded, hremoved]

theorem RemoteChanges.infosOf_apply (createCollection : IUserDataProfile → String)
    (changes : RemoteChanges) (profiles : List ISyncUserDataProfile) :
    infosOf info (changes.apply createCollection profiles) id =
      (changes.slot id).applyRemote (infosOf info profiles id) := by
  unfold RemoteChanges.apply Slot.applyRemote RemoteChanges.slot
  have hupdated := fun ps => @infosOf_foldl_updateById _ info ps id IUserDataProfile (fun p => p)
    (fun p q => { p with collection := q.collection }) (fun _ _ => rfl) changes.updated
  have hremoved := fun ps => @infosOf_foldl_eraseP _ info ps id _ info changes.removed
  have hadded : infosOf info
      (changes.added.map fun p => { p with collection := createCollection p }) id =
      infosOf (fun p => p) changes.added id := by
    simp only [infosOf, map_map]
    rfl
  rw [hupdated, hremoved, infosOf_append, hadded]

theorem localInfo_apply {localProfiles : List IUserDataProfile} (changes : LocalChanges)
    (h : DistinctIds (·.id) localProfiles) : localInfo (changes.apply localProfiles) id =
      ((changes.slot id).applyLocal (localInfo localProfiles id).toList).head? := by
  have hdistinct := @infosOf_of_distinct _ (fun p => p) localProfiles id h
  rw [Option.map_id'] at hdistinct
  have happly := @head?_infosOf _ (fun p => p) (changes.apply localProfiles) id
  rw [Option.map_id', changes.infosOf_apply, hdistinct] at happly
  exact happly.symm

theorem remoteInfo_apply {remote : List ISyncUserDataProfile}
    (createCollection : IUserDataProfile → String) (changes : RemoteChanges)
    (h : DistinctIds (·.id) (remote.map info)) :
    remoteInfo (changes.apply createCollection remote) id =
      ((changes.slot id).applyRemote (remoteInfo remote id).toList).head? := by
  have hids : DistinctIds (fun p => (info p).id) remote := by
    rwa [DistinctIds, map_map] at h
  have hdistinct := @infosOf_of_distinct _ info remote id hids
  have happly := @head?_infosOf _ info (changes.apply createCollection remote) id
  rw [changes.infosOf_apply, hdistinct] at happly
  exact happly.symm

end ApplyLemmas

def applyRemote (createCollection : IUserDataProfile → String) (changes : Option RemoteChanges)
    (profiles : List ISyncUserDataProfile) : List ISyncUserDataProfile :=
  match changes with
  | some changes => changes.apply createCollection profiles
  | none => profiles

theorem applyRemote_orNull (createCollection : IUserDataProfile → String) (changes : RemoteChanges)
    (profiles : List ISyncUserDataProfile) :
    applyRemote createCollection changes.orNull profiles =
      changes.apply createCollection profiles := by
  unfold RemoteChanges.orNull
  split
  next h =>
      simp only [length_eq_zero_iff] at h
      simp [applyRemote, RemoteChanges.apply, h.1, h.2.1, h.2.2]
  next => rfl

theorem slots_converge (base l r : Option IUserDataProfileInfo) :
    Converges base l r ((localSlot base l r).applyLocal l.toList).head?
      ((remoteSlot base l r).applyRemote r.toList).head? := by
  rcases base with _ | b <;> rcases l with _ | l <;> rcases r with _ | r
  case none.some.some =>
      by_cases hlr : l = r <;> simp [converges_iff, localSlot, remoteSlot, Slot.applyLocal, Slot.applyRemote, hlr]
  case some.none.some =>
      rcases eq_or_ne b r with rfl | hbr
      · simp [converges_iff, localSlot, remoteSlot, Slot.applyLocal, Slot.applyRemote]
      · simp [converges_iff, localSlot, remoteSlot, Slot.applyLocal, Slot.applyRemote, hbr, hbr.symm]
  case some.some.some =>
      rcases eq_or_ne b r with rfl | hbr <;> rcases eq_or_ne b l with rfl | hbl <;>
        simp_all [converges_iff, localSlot, remoteSlot, Slot.applyLocal, Slot.applyRemote]
      exact fun _ h => hbr h.symm
  all_goals simp [converges_iff, localSlot, remoteSlot, Slot.applyLocal, Slot.applyRemote]

theorem merge_settles {localProfiles : List IUserDataProfile} {remote : List ISyncUserDataProfile}
    {lastSync : Option (List ISyncUserDataProfile)} (h : Distinct localProfiles remote lastSync)
    (createCollection : IUserDataProfile → String) (ignored : List String) {id : String}
    (hignored : id ∉ ignored) :
    let result := merge localProfiles (some remote) lastSync ignored
    Converges (oldProfile (lastSync.map (·.map info)) id) (localInfo localProfiles id)
      (remoteInfo remote id) (localInfo (result.localChanges.apply localProfiles) id)
      (remoteInfo (applyRemote createCollection result.remoteChanges remote) id) := by
  intro result
  by_cases hempty : (difference localProfiles remote ignored).isEmpty
  · have hresult : result = { localChanges := {}, remoteChanges := none } := by
      simp only [result, merge, if_pos hempty]
    have hsame : localInfo localProfiles id = remoteInfo remote id :=
      (@byId_eq_of_isEmpty (some localProfiles) _ ignored id h.ofLocal hempty hignored).trans byId_infos
    have hlocal : localInfo (result.localChanges.apply localProfiles) id =
        localInfo localProfiles id := by
      simp [hresult, LocalChanges.apply]
    have hremote : applyRemote createCollection result.remoteChanges remote = remote := by
      rw [hresult]
      rfl
    rw [hlocal, hremote, hsame]
    exact ⟨rfl, ⟨fun _ _ => rfl, fun _ _ => rfl⟩⟩
  · have hlocal : result.localChanges = localResult localProfiles remote
        (difference localProfiles remote ignored) (toLocal lastSync localProfiles ignored)
        (toRemote lastSync remote ignored) := by
      simp only [result, merge, if_neg hempty]
    have hremote : result.remoteChanges = (remoteResult localProfiles remote
        (toLocal lastSync localProfiles ignored) (toRemote lastSync remote ignored)).orNull := by
      simp only [result, merge, if_neg hempty]
    rw [hlocal, hremote, applyRemote_orNull, localInfo_apply _ h.ofLocal,
      remoteInfo_apply _ _ h.ofRemote, slot_localResult h hignored, slot_remoteResult h hignored]
    exact slots_converge _ _ _

end Gavea.UserDataSync.ProfilesMerge

namespace Gavea.UserDataSync

open List

open Gavea.Lib

end Gavea.UserDataSync
