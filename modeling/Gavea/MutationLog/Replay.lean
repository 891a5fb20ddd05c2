import Gavea.MutationLog.ObjectMutationLog

namespace Gavea.MutationLog

open Gavea.Lib Gavea.Lib.Js List

def Entry.normal : Entry → Entry
  | .initial v => .initial v.normal
  | .set k v => .set k v.normal
  | .push k v i => .push k (v.map fun items => items.map fun item => item.orNull.normal) i
  | .delete k => .delete k

def Entry.WellFormed : Entry → Prop
  | .initial v | .set _ v => v.WellFormed
  | .push _ v _ => ∀ items ∈ v, Value.ItemsWellFormed items
  | .delete _ => True

theorem member_memberToJson_self (key : String) (json : Option Json)
    {rest : List (JsString × Json)}
    (h : Value.member (Value.ofMembers rest) (ofText key) = .undefined) :
    Value.member (Value.ofMembers (memberToJson key json ++ rest)) (ofText key) =
      (json.map Value.ofJson).getD .undefined := by
  cases json with
  | none => exact h
  | some json => exact Value.member_cons_self _ _ _

theorem member_memberToJson_of_ne {key : String} {key' : JsString} (h : ofText key ≠ key')
    (json : Option Json) (rest : List (JsString × Json)) :
    Value.member (Value.ofMembers (memberToJson key json ++ rest)) key' =
      Value.member (Value.ofMembers rest) key' := by
  cases json with
  | none => rfl
  | some json => exact Value.member_cons_of_ne h _ _

theorem member_memberToJson (key : String) (json : Option Json) :
    Value.member (Value.ofMembers (memberToJson key json)) (ofText key) =
      (json.map Value.ofJson).getD .undefined := by
  have h := @member_memberToJson_self key json [] rfl
  rwa [append_nil] at h

theorem keyOfValue_keyToJson (k : Key) : keyOfValue (Value.ofJson (keyToJson k)) = .ok k := by
  cases k with
  | prop name => rfl
  | index i => simp only [keyToJson, Value.ofJson, keyOfValue, Number.toInt?_ofNat]

theorem pathOfValue_pathToJson (path : ObjectPath) :
    pathOfValue (Value.ofJson (pathToJson path)) = .ok path := by
  have hmap : (Value.ofItems (path.map keyToJson)).mapM keyOfValue = .ok path := by
    induction path with
    | nil => rfl
    | cons k path ih =>
      rw [map_cons, Value.ofItems, mapM_cons, keyOfValue_keyToJson, ih]
      rfl
  exact hmap

theorem ofItems_normal (items : List Value) :
    Value.ofItems (Value.itemsToJson items) = items.map fun item => item.orNull.normal := by
  rw [Value.ofItems_itemsToJson]
  exact map_congr_left fun item _ => (Value.normal_orNull item).symm

theorem ofValue_initial (v : Value) :
    Entry.ofValue (Value.ofJson (Entry.initial v).toJson) = .ok (.initial v.normal) := by
  have hkind : property (Value.ofJson (Entry.initial v).toJson) (ofText "kind") = .ok (.number (Number.ofNat 0)) := rfl
  have hv : optionalProperty (Value.ofJson (Entry.initial v).toJson) (ofText "v") = v.normal :=
    (Value.member_cons_of_ne (by decide) _ _).trans (member_memberToJson "v" v.toJson)
  rw [Entry.ofValue, hkind]
  simp only [bind, Except.bind, Number.toInt?_ofNat, hv, Nat.cast_zero]
  rfl

theorem ofValue_set (k : ObjectPath) (v : Value) :
    Entry.ofValue (Value.ofJson (Entry.set k v).toJson) = .ok (.set k v.normal) := by
  have hkind : property (Value.ofJson (Entry.set k v).toJson) (ofText "kind") = .ok (.number (Number.ofNat 1)) := rfl
  have hk : optionalProperty (Value.ofJson (Entry.set k v).toJson) (ofText "k") = Value.ofJson (pathToJson k) := rfl
  have hv : optionalProperty (Value.ofJson (Entry.set k v).toJson) (ofText "v") = v.normal :=
    ((Value.member_cons_of_ne (by decide) _ _).trans
      (Value.member_cons_of_ne (by decide) _ _)).trans (member_memberToJson "v" v.toJson)
  rw [Entry.ofValue, hkind]
  simp only [bind, Except.bind, Number.toInt?_ofNat, hk, hv, pathOfValue_pathToJson, Nat.cast_one]
  rfl

theorem ofValue_push (k : ObjectPath) (v : Option (List Value)) (i : Option Nat) :
    Entry.ofValue (Value.ofJson (Entry.push k v i).toJson) = .ok (Entry.push k v i).normal := by
  have hkind : property (Value.ofJson (Entry.push k v i).toJson) (ofText "kind") = .ok (.number (Number.ofNat 2)) := rfl
  have hk : optionalProperty (Value.ofJson (Entry.push k v i).toJson) (ofText "k") = Value.ofJson (pathToJson k) := rfl
  have hfield : ∀ key : JsString, ofText "kind" ≠ key → ofText "k" ≠ key →
      optionalProperty (Value.ofJson (Entry.push k v i).toJson) key =
        Value.member (Value.ofMembers
          (memberToJson "v" (v.map fun items => .array (Value.itemsToJson items)) ++
            memberToJson "i" (i.map fun i => .number (Number.ofNat i)))) key := fun key h1 h2 =>
    (Value.member_cons_of_ne h1 _ _).trans (Value.member_cons_of_ne h2 _ _)
  have hempty := @member_memberToJson_of_ne "i" (ofText "v") (by decide) (i.map fun i => .number (Number.ofNat i)) []
  rw [append_nil] at hempty
  have hv := (hfield (ofText "v") (by decide) (by decide)).trans (member_memberToJson_self "v" _ hempty)
  have hi := ((hfield (ofText "i") (by decide) (by decide)).trans
    (member_memberToJson_of_ne (by decide) _ _)).trans (member_memberToJson "i" _)
  have hitems : itemsOfValue (((v.map fun items => Json.array (Value.itemsToJson items)).map
      Value.ofJson).getD .undefined) =
        .ok (v.map fun items => items.map fun item => item.orNull.normal) := by
    cases v with
    | none => rfl
    | some items => exact congrArg (fun items => Except.ok (some items)) (ofItems_normal items)
  have hnat : naturalOfValue (((i.map fun i => Json.number (Number.ofNat i)).map
      Value.ofJson).getD .undefined) = .ok i := by
    cases i with
    | none => rfl
    | some i => simp only [Option.map_some, Option.getD_some, Value.ofJson, naturalOfValue, Number.toInt?_ofNat]
  rw [Entry.ofValue, hkind]
  simp only [bind, Except.bind, Number.toInt?_ofNat, hk, hv, hi, pathOfValue_pathToJson, hitems, hnat]
  rfl

theorem ofValue_delete (k : ObjectPath) :
    Entry.ofValue (Value.ofJson (Entry.delete k).toJson) = .ok (.delete k) := by
  have hkind : property (Value.ofJson (Entry.delete k).toJson) (ofText "kind") = .ok (.number (Number.ofNat 3)) := rfl
  have hk : optionalProperty (Value.ofJson (Entry.delete k).toJson) (ofText "k") = Value.ofJson (pathToJson k) := rfl
  rw [Entry.ofValue, hkind]
  simp only [bind, Except.bind, Number.toInt?_ofNat, hk, pathOfValue_pathToJson]
  rfl

theorem ofValue_toJson (e : Entry) : Entry.ofValue (Value.ofJson e.toJson) = .ok e.normal := by
  cases e with
  | initial v => exact ofValue_initial v
  | set k v => exact ofValue_set k v
  | push k v i => exact ofValue_push k v i
  | delete k => exact ofValue_delete k

theorem itemsWellFormed_map_keyToJson (path : ObjectPath) :
    Json.ItemsWellFormed (path.map keyToJson) := by
  induction path with
  | nil => exact trivial
  | cons k path ih =>
    refine ⟨?_, ih⟩
    cases k <;> exact trivial

theorem membersWellFormed_append {a b : List (JsString × Json)} (ha : Json.MembersWellFormed a)
    (hb : Json.MembersWellFormed b) : Json.MembersWellFormed (a ++ b) := by
  induction a with
  | nil => exact hb
  | cons m a ih => exact ⟨ha.1, ih ha.2⟩

theorem membersWellFormed_memberToJson (key : String) {json : Option Json}
    (h : ∀ j ∈ json, j.WellFormed) : Json.MembersWellFormed (memberToJson key json) := by
  cases json with
  | none => exact trivial
  | some j => exact ⟨h j rfl, trivial⟩

theorem keys_memberToJson (key : String) (json : Option Json) :
    ((memberToJson key json).map Prod.fst).Sublist [ofText key] := by
  cases json with
  | none => exact nil_sublist _
  | some j => exact List.Sublist.refl _

theorem wellFormed_entry {e : Entry} (h : e.WellFormed) : e.toJson.WellFormed := by
  cases e with
  | initial v =>
    refine ⟨?_, trivial, membersWellFormed_memberToJson "v" (Value.wellFormed_toJson v h)⟩
    refine List.Nodup.sublist ((keys_memberToJson "v" v.toJson).cons_cons (ofText "kind")) ?_
    decide
  | set k v =>
    refine ⟨?_, trivial, itemsWellFormed_map_keyToJson k,
      membersWellFormed_memberToJson "v" (Value.wellFormed_toJson v h)⟩
    refine List.Nodup.sublist (((keys_memberToJson "v" v.toJson).cons_cons (ofText "k")).cons_cons (ofText "kind")) ?_
    decide
  | push k v i =>
    refine ⟨?_, trivial, itemsWellFormed_map_keyToJson k, membersWellFormed_append
      (membersWellFormed_memberToJson "v" fun j hj => ?_)
      (membersWellFormed_memberToJson "i" fun j hj => ?_)⟩
    · rw [map_cons, map_cons, map_append]
      refine List.Nodup.sublist ((((keys_memberToJson "v" _).append
        (keys_memberToJson "i" _)).cons_cons (ofText "k")).cons_cons (ofText "kind")) ?_
      decide
    · obtain ⟨items, hitems, rfl⟩ := Option.mem_map.mp hj
      exact Value.wellFormed_itemsToJson items (h items hitems)
    · obtain ⟨i, -, rfl⟩ := Option.mem_map.mp hj
      exact trivial
  | delete k =>
    refine ⟨?_, trivial, itemsWellFormed_map_keyToJson k, trivial⟩
    show [ofText "kind", ofText "k"].Nodup
    decide

def Fits (maxStringLength : Nat) (e : Entry) : Prop := textLength e.toJson.text ≤ maxStringLength

def lineBytes (e : Entry) : List UInt8 := utf8Bytes (e.toJson.text ++ ['\n'])

def applyAll (state : Value) : List Entry → Except LogError Value
  | [] => return state
  | e :: es => do
      let state ← applyEntry state e
      applyAll state es

theorem applyAll_append (state : Value) (es es' : List Entry) :
    applyAll state (es ++ es') = (applyAll state es).bind fun state => applyAll state es' := by
  induction es generalizing state with
  | nil => rfl
  | cons e es ih =>
    rw [cons_append, applyAll, applyAll]
    cases applyEntry state e with
    | error err => rfl
    | ok state => exact ih state

namespace Log

theorem line_of_fits {maxStringLength : Nat} {e : Entry} (h : Fits maxStringLength e) :
    line maxStringLength e = .ok (lineBytes e) := by
  unfold Fits at h
  rw [line, stringifyEntryWithFallback, stringify, if_pos h]
  rfl

theorem lines_of_fits {maxStringLength : Nat} {es : List Entry}
    (h : ∀ e ∈ es, Fits maxStringLength e) :
    lines maxStringLength es = .ok (es.flatMap lineBytes) := by
  induction es with
  | nil => rfl
  | cons e es ih =>
    rw [lines, line_of_fits (h e mem_cons_self), ih fun e' he' => h e' (mem_cons_of_mem e he')]
    rfl

theorem readLines_line {e : Entry} (h : e.WellFormed) (state : Value) (n : Nat)
    (rest : List UInt8) :
    readLines state n ((lineBytes e ++ rest).splitOn lineFeedByte) =
      (applyEntry state e.normal).bind fun state =>
        readLines state (n + 1) (rest.splitOn lineFeedByte) := by
  have hsplit : (lineBytes e ++ rest).splitOn lineFeedByte =
      utf8Bytes e.toJson.text :: rest.splitOn lineFeedByte := by
    rw [lineBytes, utf8Bytes_append, append_assoc]
    exact splitOn_append_cons_self_of_not_mem (lineFeed_not_mem_utf8Bytes (Json.newline_not_mem_text _)) _
  obtain ⟨c, t, ht, -⟩ := e.toJson.text_cons
  have hne : utf8Bytes e.toJson.text ≠ [] := utf8Bytes_ne_nil (by rw [ht]; exact cons_ne_nil c t)
  have hparse : (utf8Text (utf8Bytes e.toJson.text)).bind Json.parse = some e.toJson := by
    rw [utf8Text_utf8Bytes e.toJson.head?_text_ne_byteOrderMark, Option.bind_some,
      Json.parse_text _ (wellFormed_entry h)]
  rw [hsplit]
  obtain ⟨b, bytes, hbytes⟩ := exists_cons_of_ne_nil hne
  rw [hbytes] at hparse ⊢
  rw [readLines]
  · simp only [hparse, ofValue_toJson, bind, Except.bind]
  · exact cons_ne_nil b bytes

theorem readLines_lines {es : List Entry} (h : ∀ e ∈ es, e.WellFormed) (state : Value) (n : Nat) :
    readLines state n ((es.flatMap lineBytes).splitOn lineFeedByte) =
      (applyAll state (es.map Entry.normal)).map fun state => (state, n + es.length) := by
  induction es generalizing state n with
  | nil => rfl
  | cons e es ih =>
    rw [flatMap_cons, readLines_line (h e mem_cons_self), map_cons, applyAll]
    cases applyEntry state e.normal with
    | error err => rfl
    | ok state =>
      simp only [Except.bind, bind]
      rw [ih fun e' he' => h e' (mem_cons_of_mem e he'), length_cons,
        show n + 1 + es.length = n + (es.length + 1) by omega]

theorem read_lines {es : List Entry} (h : ∀ e ∈ es, e.WellFormed) (hne : es ≠ []) {state : Value}
    (hstate : applyAll .undefined (es.map Entry.normal) = .ok state) :
    read (es.flatMap lineBytes) = .ok (state, ⟨state, es.length, none⟩) := by
  have hlen : es.length ≠ 0 := fun hzero => hne (length_eq_zero_iff.mp hzero)
  rw [read, readLines_lines h, hstate]
  simp only [Except.map, bind, Except.bind, Nat.zero_add, hlen, if_false]
  rfl

end Log

open Gavea.Lib Gavea.Lib.Js

/-- Outside of a path two values look alike. -/
def Frame (path : ObjectPath) (v w : Value) : Prop := ∀ r, ¬ path <+: r → w.view r = v.view r

def Shows (v : Value) (path : ObjectPath) (w : Value) : Prop := ∀ q, v.view (path ++ q) = w.view q

theorem Frame.refl (path : ObjectPath) (v : Value) : Frame path v v := fun _ _ => rfl

theorem Frame.trans {path : ObjectPath} {u v w : Value} (h : Frame path u v) (h' : Frame path v w) :
    Frame path u w := fun r hr => (h' r hr).trans (h r hr)

theorem Frame.of_prefix {p p' : ObjectPath} {v w : Value} (h : Frame p' v w) (hp : p <+: p') :
    Frame p v w := fun r hr => h r fun hr' => hr (hp.trans hr')

def IsContainer (v : Value) : Prop := v.shape = .object ∨ ∃ n, v.shape = .array n

theorem setFirst_member (name : JsString) (value : Value) (members : List (JsString × Value))
    (key : JsString) :
    Value.member (setFirst (fun m => m.1 == name) (name, value) members) key =
      if key = name then value else Value.member members key := by
  induction members with
  | nil =>
    rw [setFirst]
    by_cases hkey : key = name
    · rw [hkey, Value.member_cons_self, if_pos rfl]
    · rw [Value.member_cons_of_ne (Ne.symm hkey), if_neg hkey]
  | cons m members ih =>
    obtain ⟨name', value'⟩ := m
    rw [setFirst]
    by_cases hname : name' = name
    · subst hname
      rw [if_pos (beq_self_eq_true _)]
      by_cases hkey : key = name'
      · rw [hkey, Value.member_cons_self, if_pos rfl]
      · rw [Value.member_cons_of_ne (Ne.symm hkey), if_neg hkey, Value.member_cons_of_ne (Ne.symm hkey)]
    · rw [if_neg (by simpa using hname)]
      by_cases hkey : key = name'
      · subst hkey
        rw [Value.member_cons_self, if_neg hname, Value.member_cons_self]
      · rw [Value.member_cons_of_ne (Ne.symm hkey), ih, Value.member_cons_of_ne (Ne.symm hkey)]

theorem not_isContainer_undefined : ¬ IsContainer .undefined := by
  rintro (h | ⟨n, h⟩) <;> cases h

theorem not_isContainer_null : ¬ IsContainer .null := by
  rintro (h | ⟨n, h⟩) <;> cases h

theorem isContainer_orNull {v : Value} (h : IsContainer v.orNull) : v.orNull = v := by
  cases v with
  | undefined => exact absurd h not_isContainer_null
  | null | bool | number | string | array | object => rfl

theorem isContainer_child {v : Value} {k : Key} (h : IsContainer (v.child k)) :
    (∃ members name, v = .object members ∧ k = .prop name) ∨
      ∃ items i item, v = .array items ∧ k = .index i ∧ items[i]? = some item ∧
        item.orNull = item := by
  cases v with
  | undefined | null | bool | number | string => exact absurd h not_isContainer_undefined
  | object members =>
    cases k with
    | prop name => exact Or.inl ⟨members, name, rfl, rfl⟩
    | index i => exact absurd h not_isContainer_undefined
  | array items =>
    cases k with
    | prop name => exact absurd h not_isContainer_undefined
    | index i =>
      have hchild : (Value.array items).child (.index i) = (items[i]?.map Value.orNull).getD .undefined := rfl
      rw [hchild] at h
      cases hitem : items[i]? with
      | none =>
        rw [hitem] at h
        exact absurd h not_isContainer_undefined
      | some item =>
        rw [hitem] at h
        exact Or.inr ⟨items, i, item, rfl, rfl, hitem, isContainer_orNull h⟩

theorem getKey_of_isContainer {v : Value} {k : Key} (h : IsContainer (v.child k)) :
    getKey v k = .ok (v.child k) := by
  rcases isContainer_child h with ⟨members, name, rfl, rfl⟩ | ⟨items, i, item, rfl, rfl, hi, hitem⟩
  · rfl
  · show Except.ok (items[i]?.getD .undefined) = Except.ok ((items[i]?.map Value.orNull).getD .undefined)
    rw [hi, Option.map_some, hitem]

theorem child_setFirst (name : JsString) (part : Value) (members : List (JsString × Value)) :
    (Value.object (setFirst (fun m => m.1 == name) (name, part) members)).child (.prop name) = part ∧
      ∀ k', k' ≠ .prop name →
        (Value.object (setFirst (fun m => m.1 == name) (name, part) members)).child k' =
          (Value.object members).child k' := by
  refine ⟨(setFirst_member name part members name).trans (if_pos rfl), fun k' hk' => ?_⟩
  cases k' with
  | index i => rfl
  | prop name' =>
    refine (setFirst_member name part members name').trans (if_neg ?_)
    rintro rfl
    exact hk' rfl

theorem setKey_of_isContainer {v : Value} {k : Key} (h : IsContainer (v.child k)) {part : Value}
    (hpart : IsContainer part) :
    ∃ w, setKey v k part = .ok w ∧ w.child k = part ∧ (∀ k', k' ≠ k → w.child k' = v.child k') ∧
      w.shape = v.shape := by
  rcases isContainer_child h with ⟨members, name, rfl, rfl⟩ | ⟨items, i, item, rfl, rfl, hi, -⟩
  · obtain ⟨hself, hothers⟩ := child_setFirst name part members
    exact ⟨_, rfl, hself, hothers, rfl⟩
  · have hlt : i < items.length := (List.getElem?_eq_some_iff.mp hi).1
    have hself : part.orNull = part := by
      cases part with
      | undefined => exact absurd hpart not_isContainer_undefined
      | null | bool | number | string | array | object => rfl
    refine ⟨.array (items.set i part), if_pos hlt, ?_, fun k' hk' => ?_, ?_⟩
    · show (((items.set i part)[i]?).map Value.orNull).getD .undefined = part
      rw [List.getElem?_set_self hlt, Option.map_some, hself]
      rfl
    · cases k' with
      | prop name => rfl
      | index j =>
        have hne : i ≠ j := by
          rintro rfl
          exact hk' rfl
        show (((items.set i part)[j]?).map Value.orNull).getD .undefined =
          ((items[j]?).map Value.orNull).getD .undefined
        rw [List.getElem?_set_ne hne]
    · show Shape.array (items.set i part).length = Shape.array items.length
      rw [List.length_set]

theorem isContainer_of_shape_eq {v w : Value} (h : w.shape = v.shape) (hv : IsContainer v) :
    IsContainer w := by
  unfold IsContainer
  rw [h]
  exact hv

theorem isContainer_of_part {v : Value} (path : ObjectPath) (h : IsContainer (v.part path)) :
    IsContainer v := by
  induction path generalizing v with
  | nil => exact h
  | cons k path ih =>
    rcases isContainer_child (ih h) with ⟨members, name, rfl, rfl⟩ | ⟨items, i, item, rfl, -⟩
    · exact Or.inl rfl
    · exact Or.inr ⟨_, rfl⟩

theorem modifyAt_spec {f : Value → Except LogError Value} {part : Value} (path : ObjectPath)
    (v : Value) (h : IsContainer (v.part path)) (hf : f (v.part path) = .ok part)
    (hpart : IsContainer part) :
    ∃ w, modifyAt v path f = .ok w ∧ w.part path = part ∧ IsContainer w ∧ Frame path v w := by
  induction path generalizing v with
  | nil => exact ⟨part, hf, rfl, hpart, fun r hr => absurd (List.nil_prefix) hr⟩
  | cons k path ih =>
    obtain ⟨c, hc, hcpart, hccontainer, hcframe⟩ := ih (v.child k) h hf
    have hchild := isContainer_of_part path h
    obtain ⟨w, hw, hself, hothers, hshape⟩ := setKey_of_isContainer hchild hccontainer
    refine ⟨w, ?_, ?_, isContainer_of_shape_eq hshape (isContainer_of_part (k :: path) h), ?_⟩
    · rw [modifyAt, getKey_of_isContainer hchild]
      simp only [bind, Except.bind, hc, hw]
    · rw [Value.part_cons, hself, hcpart]
    · intro r hr
      cases r with
      | nil => exact hshape
      | cons k' r =>
        by_cases hk : k' = k
        · subst hk
          have hr' : ¬ path <+: r := fun hp => hr (List.cons_prefix_cons.mpr ⟨rfl, hp⟩)
          rw [Value.view, Value.view, Value.part_cons, Value.part_cons, hself]
          exact hcframe r hr'
        · rw [Value.view, Value.view, Value.part_cons, Value.part_cons, hothers k' hk]

theorem modifyProp_spec (name : JsString) (part : Value) {f : Value → Except LogError Value}
    {state : Value} {path : ObjectPath} {members : List (JsString × Value)}
    (hobject : state.part path = .object members)
    (hf : f (.object members) = .ok (.object (setFirst (fun m => m.1 == name) (name, part) members))) :
    ∃ w, modifyAt state path f = .ok w ∧ Shows w (path ++ [.prop name]) part ∧
      Frame (path ++ [.prop name]) state w := by
  have hcontainer : IsContainer (state.part path) := by
    rw [hobject]
    exact Or.inl rfl
  obtain ⟨w, hw, hpart, -, hframe⟩ := modifyAt_spec path state hcontainer (hobject ▸ hf) (Or.inl rfl)
  obtain ⟨hself, hothers⟩ := child_setFirst name part members
  refine ⟨w, hw, fun q => ?_, fun r hr => ?_⟩
  · rw [List.append_assoc, Value.view_append, hpart, List.singleton_append, Value.view,
      Value.part_cons, hself, Value.view]
  · by_cases hp : path <+: r
    · obtain ⟨r, rfl⟩ := hp
      rw [Value.view_append, Value.view_append, hpart, hobject]
      cases r with
      | nil => rfl
      | cons k r =>
        have hk : k ≠ .prop name := by
          rintro rfl
          refine hr ⟨r, ?_⟩
          rw [List.append_assoc, List.singleton_append]
        rw [Value.view, Value.view, Value.part_cons, Value.part_cons, hothers k hk]
    · exact hframe r hp

theorem exists_members_of_shape {v : Value} (h : v.shape = .object) :
    ∃ members, v = .object members := by
  cases v with
  | object members => exact ⟨members, rfl⟩
  | undefined | null | bool | number | string | array => cases h

theorem exists_items_of_shape {v : Value} {n : Nat} (h : v.shape = .array n) :
    ∃ items, v = .array items := by
  cases v with
  | array items => exact ⟨items, rfl⟩
  | undefined | null | bool | number | string | object => cases h

theorem applySet_spec {state : Value} {path : ObjectPath} (name : JsString) (v : Value)
    (hobject : (state.part path).shape = .object) :
    ∃ w, applySet state (path ++ [.prop name]) v = .ok w ∧ Shows w (path ++ [.prop name]) v ∧
      Frame (path ++ [.prop name]) state w := by
  obtain ⟨members, hmembers⟩ := exists_members_of_shape hobject
  rw [applySet, List.getLast?_concat, List.dropLast_concat]
  exact modifyProp_spec name v hmembers rfl

theorem applyPush_spec {state : Value} {path : ObjectPath} {name : JsString} {items : List Value}
    (hobject : (state.part path).shape = .object)
    (hitems : Shows state (path ++ [.prop name]) (.array items)) (values : Option (List Value))
    (startIndex : Option Nat) :
    ∃ w items', applyPush state (path ++ [.prop name]) values startIndex = .ok w ∧
      List.Forall₂ (fun x y => Value.Same x.orNull y.orNull) items' items ∧
      Shows w (path ++ [.prop name]) (.array (setLength items' startIndex ++ values.getD [])) ∧
      Frame (path ++ [.prop name]) state w := by
  obtain ⟨members, hmembers⟩ := exists_members_of_shape hobject
  have hsame : Value.Same (Value.member members name) (.array items) := by
    funext q
    have hq := hitems q
    rw [List.append_assoc, Value.view_append, hmembers] at hq
    exact hq
  obtain ⟨items', hitems'⟩ := exists_items_of_shape hsame.shape
  rw [hitems', Value.same_array] at hsame
  rw [applyPush, List.getLast?_concat, List.dropLast_concat]
  exact (modifyProp_spec name (.array (setLength items' startIndex ++ values.getD [])) hmembers
    (by simp only [getKey, hitems', bind, Except.bind, pure, Except.pure, setKey, Option.getD_some])).elim
      fun w h => ⟨w, items', h.1, hsame, h.2⟩

end Gavea.MutationLog
