import Gavea.Lib.Json

namespace Gavea.Lib.Js

open List

inductive Value
  | undefined
  | null
  | bool (value : Bool)
  | number (value : Number)
  | string (value : JsString)
  | array (items : List Value)
  | object (members : List (JsString × Value))

/-- A step from a value to one of its parts. -/
inductive Key
  | prop (name : JsString)
  | index (i : Nat)
  deriving DecidableEq

/-- What can be seen of a value without looking at its parts. -/
inductive Shape
  | undefined
  | null
  | bool (value : Bool)
  | number (value : Number)
  | string (value : JsString)
  | array (length : Nat)
  | object
  deriving DecidableEq

namespace Value

def shape : Value → Shape
  | .undefined => .undefined
  | .null => .null
  | .bool b => .bool b
  | .number n => .number n
  | .string s => .string s
  | .array items => .array items.length
  | .object _ => .object

def isNullish : Value → Bool
  | .undefined | .null => true
  | _ => false

/-- Whether a condition takes the value for true. -/
def isTruthy : Value → Bool
  | .undefined | .null => false
  | .bool b => b
  | .number n => n.value != 0
  | .string s => !s.isEmpty
  | .array _ | .object _ => true

def member (members : List (JsString × Value)) (key : JsString) : Value :=
  ((members.find? fun m => m.1 == key).map Prod.snd).getD .undefined

def orNull : Value → Value
  | .undefined => .null
  | v => v

def child : Value → Key → Value
  | .object members, .prop name => member members name
  | .array items, .index i => (items[i]?.map orNull).getD .undefined
  | _, _ => .undefined

def part (v : Value) (path : List Key) : Value := path.foldl child v

def view (v : Value) (path : List Key) : Shape := (v.part path).shape

/-- Two values that are one up to JSON's treatment of undefined. -/
def Same (v w : Value) : Prop := v.view = w.view

@[simp] theorem part_nil (v : Value) : v.part [] = v := rfl

@[simp] theorem part_cons (v : Value) (k : Key) (path : List Key) : v.part (k :: path) = (v.child k).part path := rfl

theorem part_append (v : Value) (p q : List Key) : v.part (p ++ q) = (v.part p).part q := foldl_append

theorem view_append (v : Value) (p q : List Key) : v.view (p ++ q) = (v.part p).view q := by
  rw [view, part_append, view]

mutual

def toJson : Value → Option Json
  | .undefined => none
  | .null => some .null
  | .bool b => some (.bool b)
  | .number n => some (.number n)
  | .string s => some (.string s)
  | .array items => some (.array (itemsToJson items))
  | .object members => some (.object (membersToJson members))

def itemsToJson : List Value → List Json
  | [] => []
  | item :: items => (item.toJson.getD .null) :: itemsToJson items

def membersToJson : List (JsString × Value) → List (JsString × Json)
  | [] => []
  | (key, value) :: members =>
    match value.toJson with
    | none => membersToJson members
    | some json => (key, json) :: membersToJson members

end

mutual

def ofJson : Json → Value
  | .null => .null
  | .bool b => .bool b
  | .number n => .number n
  | .string s => .string s
  | .array items => .array (ofItems items)
  | .object members => .object (ofMembers members)

def ofItems : List Json → List Value
  | [] => []
  | item :: items => ofJson item :: ofItems items

def ofMembers : List (JsString × Json) → List (JsString × Value)
  | [] => []
  | (key, value) :: members => (key, ofJson value) :: ofMembers members

end

mutual

def WellFormed : Value → Prop
  | .array items => ItemsWellFormed items
  | .object members => (members.map Prod.fst).Nodup ∧ MembersWellFormed members
  | _ => True

def ItemsWellFormed : List Value → Prop
  | [] => True
  | item :: items => item.WellFormed ∧ ItemsWellFormed items

def MembersWellFormed : List (JsString × Value) → Prop
  | [] => True
  | (_, value) :: members => value.WellFormed ∧ MembersWellFormed members

end

def normal (v : Value) : Value := (v.toJson.map ofJson).getD .undefined

theorem ofItems_itemsToJson (items : List Value) :
    ofItems (itemsToJson items) = items.map fun v => ofJson (v.toJson.getD .null) := by
  induction items with
  | nil => rfl
  | cons item items ih => rw [itemsToJson, ofItems, ih, map_cons]

theorem orNull_ofJson (j : Json) : (ofJson j).orNull = ofJson j := by
  cases j <;> rfl

theorem normal_orNull (v : Value) : v.orNull.normal = ofJson (v.toJson.getD .null) := by
  cases v <;> rfl

theorem member_cons_self (key : JsString) (value : Value) (members : List (JsString × Value)) :
    member ((key, value) :: members) key = value := by
  simp [member]

theorem member_cons_of_ne {key key' : JsString} (h : key' ≠ key) (value : Value)
    (members : List (JsString × Value)) :
    member ((key', value) :: members) key = member members key := by
  simp [member, h]

theorem member_of_not_mem {key : JsString} {members : List (JsString × Value)}
    (h : key ∉ members.map Prod.fst) : member members key = .undefined := by
  have hnone : members.find? (fun m => m.1 == key) = none := by
    refine find?_eq_none.mpr fun m hm heq => h ?_
    exact mem_map.mpr ⟨m, hm, eq_of_beq heq⟩
  rw [member, hnone]
  rfl

theorem keys_ofMembers (members : List (JsString × Json)) :
    (ofMembers members).map Prod.fst = members.map Prod.fst := by
  induction members with
  | nil => rfl
  | cons m members ih => rw [ofMembers, map_cons, map_cons, ih]

theorem keys_membersToJson (members : List (JsString × Value)) :
    ((membersToJson members).map Prod.fst).Sublist (members.map Prod.fst) := by
  induction members with
  | nil => exact List.Sublist.refl _
  | cons m members ih =>
    rw [membersToJson]
    cases m.2.toJson with
    | none => exact ih.cons _
    | some json => exact ih.cons_cons _

theorem member_normal {members : List (JsString × Value)} (h : (members.map Prod.fst).Nodup)
    (key : JsString) :
    member (ofMembers (membersToJson members)) key = (member members key).normal := by
  induction members with
  | nil => rfl
  | cons m members ih =>
    obtain ⟨key', value⟩ := m
    obtain ⟨hnot, hmembers⟩ := nodup_cons.mp h
    rw [membersToJson]
    by_cases hkey : key' = key
    · subst hkey
      rw [member_cons_self]
      cases hvalue : value.toJson with
      | none =>
        have hnot' : key' ∉ (ofMembers (membersToJson members)).map Prod.fst := by
          rw [keys_ofMembers]
          exact fun hmem => hnot ((keys_membersToJson members).subset hmem)
        simp only
        rw [member_of_not_mem hnot', normal, hvalue]
        rfl
      | some json =>
        simp only
        rw [ofMembers, member_cons_self, normal, hvalue]
        rfl
    · rw [member_cons_of_ne hkey]
      cases value.toJson with
      | none => exact ih hmembers
      | some json =>
        simp only
        rw [ofMembers, member_cons_of_ne hkey]
        exact ih hmembers

theorem shape_normal (v : Value) : v.normal.shape = v.shape := by
  cases v with
  | array items =>
    show Shape.array (ofItems (itemsToJson items)).length = Shape.array items.length
    rw [ofItems_itemsToJson, length_map]
  | undefined | null | bool | number | string | object => rfl

theorem child_normal {v : Value} (h : v.WellFormed) (k : Key) :
    v.normal.child k = (v.child k).normal := by
  cases v with
  | undefined | null | bool | number | string => rfl
  | array items =>
    cases k with
    | prop name => rfl
    | index i =>
      show ((ofItems (itemsToJson items))[i]?.map orNull).getD .undefined =
        ((items[i]?.map orNull).getD .undefined).normal
      rw [ofItems_itemsToJson, getElem?_map]
      cases items[i]? with
      | none => rfl
      | some item =>
        rw [Option.map_some, Option.map_some, Option.getD_some, Option.map_some,
          Option.getD_some, orNull_ofJson, normal_orNull]
  | object members =>
    cases k with
    | prop name => exact member_normal h.1 name
    | index i => rfl

theorem wellFormed_of_mem_items {items : List Value} (h : ItemsWellFormed items) {v : Value}
    (hv : v ∈ items) : v.WellFormed := by
  induction items with
  | nil => exact absurd hv not_mem_nil
  | cons item items ih =>
    rcases mem_cons.mp hv with rfl | hrest
    · exact h.1
    · exact ih h.2 hrest

theorem wellFormed_member {members : List (JsString × Value)} (h : MembersWellFormed members)
    (key : JsString) : (member members key).WellFormed := by
  induction members with
  | nil => exact trivial
  | cons m members ih =>
    obtain ⟨key', value⟩ := m
    by_cases hkey : key' = key
    · rw [hkey, member_cons_self]
      exact h.1
    · rw [member_cons_of_ne hkey]
      exact ih h.2

theorem wellFormed_child {v : Value} (h : v.WellFormed) (k : Key) : (v.child k).WellFormed := by
  cases v with
  | undefined | null | bool | number | string => exact trivial
  | array items =>
    cases k with
    | prop name => exact trivial
    | index i =>
      show ((items[i]?.map orNull).getD .undefined).WellFormed
      cases hi : items[i]? with
      | none => exact trivial
      | some item =>
        have hitem := wellFormed_of_mem_items h (mem_of_getElem? hi)
        rw [Option.map_some, Option.getD_some]
        cases item with
        | undefined => exact trivial
        | null | bool | number | string | array | object => exact hitem
  | object members =>
    cases k with
    | prop name => exact wellFormed_member h.2 name
    | index i => exact trivial

theorem same_normal {v : Value} (h : v.WellFormed) : Same v.normal v := by
  funext path
  induction path generalizing v with
  | nil => exact shape_normal v
  | cons k path ih =>
    have hchild := ih (wellFormed_child h k)
    rw [view, part_cons, child_normal h, ← view, hchild]
    rfl

theorem Same.refl (v : Value) : Same v v := rfl

theorem Same.symm {v w : Value} (h : Same v w) : Same w v := Eq.symm h

theorem Same.trans {u v w : Value} (h : Same u v) (h' : Same v w) : Same u w := Eq.trans h h'

theorem Same.shape {v w : Value} (h : Same v w) : v.shape = w.shape := congrFun h []

theorem Same.child {v w : Value} (h : Same v w) (k : Key) : Same (v.child k) (w.child k) :=
  funext fun path => congrFun h (k :: path)

theorem same_iff {v w : Value} :
    Same v w ↔ v.shape = w.shape ∧ ∀ k, Same (v.child k) (w.child k) := by
  refine ⟨fun h => ⟨h.shape, h.child⟩, fun ⟨hshape, hchild⟩ => funext fun path => ?_⟩
  cases path with
  | nil => exact hshape
  | cons k path => exact congrFun (hchild k) path

theorem Same.orNull {v w : Value} (h : Same v w) : Same v.orNull w.orNull := by
  have hshape := h.shape
  cases v with
  | undefined =>
    cases w with
    | undefined => exact Same.refl _
    | null | bool | number | string | array | object => cases hshape
  | null | bool | number | string | array | object =>
    cases w with
    | undefined => cases hshape
    | null | bool | number | string | array | object => exact h

theorem same_array {xs ys : List Value} :
    Same (.array xs) (.array ys) ↔ List.Forall₂ (fun x y => Same x.orNull y.orNull) xs ys := by
  rw [same_iff, forall₂_iff_get]
  constructor
  · rintro ⟨hshape, hchild⟩
    refine ⟨Shape.array.inj hshape, fun i hx hy => ?_⟩
    have hi := hchild (.index i)
    simpa [Value.child, getElem?_eq_getElem hx, getElem?_eq_getElem hy] using hi
  · rintro ⟨hlen, hitems⟩
    refine ⟨congrArg Shape.array hlen, fun k => ?_⟩
    cases k with
    | prop name => exact Same.refl _
    | index i =>
      rcases lt_or_ge i xs.length with hx | hx
      · have hi := hitems i hx (hlen ▸ hx)
        simpa [Value.child, getElem?_eq_getElem hx, getElem?_eq_getElem (hlen ▸ hx : i < ys.length)] using hi
      · have hy : ys.length ≤ i := hlen ▸ hx
        simp [Value.child, getElem?_eq_none hx, getElem?_eq_none hy, Same]

mutual

theorem wellFormed_toJson : (v : Value) → v.WellFormed → ∀ j ∈ v.toJson, j.WellFormed
  | .undefined, _, _, hj => by cases hj
  | .null, _, _, hj => by
      obtain rfl := Option.some.inj hj
      exact trivial
  | .bool _, _, _, hj => by
      obtain rfl := Option.some.inj hj
      exact trivial
  | .number _, _, _, hj => by
      obtain rfl := Option.some.inj hj
      exact trivial
  | .string _, _, _, hj => by
      obtain rfl := Option.some.inj hj
      exact trivial
  | .array items, h, _, hj => by
      obtain rfl := Option.some.inj hj
      exact wellFormed_itemsToJson items h
  | .object members, h, _, hj => by
      obtain rfl := Option.some.inj hj
      exact ⟨h.1.sublist (keys_membersToJson members), wellFormed_membersToJson members h.2⟩

theorem wellFormed_itemsToJson : (items : List Value) → ItemsWellFormed items →
    Json.ItemsWellFormed (itemsToJson items)
  | [], _ => trivial
  | item :: items, h => by
      refine ⟨?_, wellFormed_itemsToJson items h.2⟩
      have hitem := wellFormed_toJson item h.1
      cases hj : item.toJson with
      | none => exact trivial
      | some j => exact hitem j hj

theorem wellFormed_membersToJson : (members : List (JsString × Value)) →
    MembersWellFormed members → Json.MembersWellFormed (membersToJson members)
  | [], _ => trivial
  | (_, value) :: members, h => by
      have hvalue := wellFormed_toJson value h.1
      rw [membersToJson]
      cases hj : value.toJson with
      | none => exact wellFormed_membersToJson members h.2
      | some j => exact ⟨hvalue j hj, wellFormed_membersToJson members h.2⟩

end

end Value

end Gavea.Lib.Js
