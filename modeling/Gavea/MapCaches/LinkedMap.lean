import Mathlib.Algebra.Order.Floor.Ring
import Mathlib.Data.Rat.Floor
import Mathlib.Logic.Function.Basic
import Gavea.Lib.Collections

namespace Gavea.MapCaches

abbrev Ref := Nat

structure Item (K V : Type*) where
  key : K
  value : V
  next : Option Ref
  previous : Option Ref

inductive MapError
  | invalidList
  /-- A property of an undefined item is assigned. -/
  | typeError

inductive Touch
  | none
  | asOld
  | asNew
deriving DecidableEq

structure LinkedMap (K V : Type*) where
  items : Ref → Option (Item K V)
  fresh : Ref
  map : K → Option Ref
  head : Option Ref
  tail : Option Ref
  size : Int

variable {K V : Type*} [DecidableEq K]

def LinkedMap.new : LinkedMap K V := ⟨fun _ => none, 0, fun _ => none, none, none, 0⟩

namespace LinkedMap

def modify (m : LinkedMap K V) (r : Ref) (f : Item K V → Item K V) : LinkedMap K V :=
  { m with items := Function.update m.items r ((m.items r).map f) }

def setNext (m : LinkedMap K V) (r : Ref) (next : Option Ref) : LinkedMap K V :=
  m.modify r fun item => { item with next := next }

def setPrevious (m : LinkedMap K V) (r : Ref) (previous : Option Ref) : LinkedMap K V :=
  m.modify r fun item => { item with previous := previous }

def setValue (m : LinkedMap K V) (r : Ref) (value : V) : LinkedMap K V :=
  m.modify r fun item => { item with value := value }

def nextOf (m : LinkedMap K V) (r : Ref) : Option Ref := (m.items r).bind Item.next

def previousOf (m : LinkedMap K V) (r : Ref) : Option Ref := (m.items r).bind Item.previous

def keyOf (m : LinkedMap K V) (r : Ref) : Option K := (m.items r).map Item.key

def valueOf (m : LinkedMap K V) (r : Ref) : Option V := (m.items r).map Item.value

def deleteKeyOf (m : LinkedMap K V) (r : Ref) : LinkedMap K V :=
  match m.keyOf r with
  | none => m
  | some key => { m with map := Function.update m.map key none }

def clear (m : LinkedMap K V) : LinkedMap K V := { m with map := fun _ => none, head := none, tail := none, size := 0 }

def has (m : LinkedMap K V) (key : K) : Bool := (m.map key).isSome

def addItemFirst (m : LinkedMap K V) (item : Ref) : Except MapError (LinkedMap K V) :=
  match m.head, m.tail with
  | none, none => .ok { m with tail := some item, head := some item }
  | none, some _ => .error .invalidList
  | some head, _ => .ok { (m.setNext item (some head)).setPrevious head (some item) with head := some item }

def addItemLast (m : LinkedMap K V) (item : Ref) : Except MapError (LinkedMap K V) :=
  match m.head, m.tail with
  | none, none => .ok { m with head := some item, tail := some item }
  | some _, none => .error .invalidList
  | _, some tail => .ok { (m.setPrevious item (some tail)).setNext tail (some item) with tail := some item }

def removeItem (m : LinkedMap K V) (item : Ref) : Except MapError (LinkedMap K V) := do
  let m ←
    if m.head = some item ∧ m.tail = some item then
      pure { m with head := none, tail := none }
    else if m.head = some item then
      match m.nextOf item with
      | none => throw .invalidList
      | some next => pure { m.setPrevious next none with head := some next }
    else if m.tail = some item then
      match m.previousOf item with
      | none => throw .invalidList
      | some previous => pure { m.setNext previous none with tail := some previous }
    else
      match m.nextOf item, m.previousOf item with
      | some next, some previous => pure ((m.setPrevious next (some previous)).setNext previous (some next))
      | _, _ => throw .invalidList
  return (m.setNext item none).setPrevious item none

def touchAsOld (m : LinkedMap K V) (item head : Ref) : Except MapError (LinkedMap K V) := do
  if m.head = some item then return m
  else
    let next := m.nextOf item
    let previous := m.previousOf item
    let m ←
      if m.tail = some item then
        match previous with
        | none => throw .typeError
        | some previous => pure { m.setNext previous none with tail := some previous }
      else
        match next, previous with
        | some next, some previous => pure ((m.setPrevious next (some previous)).setNext previous (some next))
        | _, _ => throw .typeError
    return { ((m.setPrevious item none).setNext item (some head)).setPrevious head (some item) with
      head := some item }

def touchAsNew (m : LinkedMap K V) (item tail : Ref) : Except MapError (LinkedMap K V) := do
  if m.tail = some item then return m
  else
    let next := m.nextOf item
    let previous := m.previousOf item
    let m ←
      if m.head = some item then
        match next with
        | none => throw .typeError
        | some next => pure { m.setPrevious next none with head := some next }
      else
        match next, previous with
        | some next, some previous => pure ((m.setPrevious next (some previous)).setNext previous (some next))
        | _, _ => throw .typeError
    return { ((m.setNext item none).setPrevious item (some tail)).setNext tail (some item) with
      tail := some item }

def touch (m : LinkedMap K V) (item : Ref) (touch : Touch) : Except MapError (LinkedMap K V) :=
  match m.head, m.tail with
  | some head, some tail =>
    match touch with
    | .none => .ok m
    | .asOld => m.touchAsOld item head
    | .asNew => m.touchAsNew item tail
  | _, _ => .error .invalidList

def get (m : LinkedMap K V) (key : K) (touch : Touch) :
    Except MapError (LinkedMap K V × Option V) := do
  match m.map key with
  | none => return (m, none)
  | some item =>
    let m ← if touch ≠ .none then m.touch item touch else pure m
    return (m, m.valueOf item)

def set (m : LinkedMap K V) (key : K) (value : V) (touch : Touch) :
    Except MapError (LinkedMap K V) := do
  match m.map key with
  | some item =>
    let m := m.setValue item value
    if touch ≠ .none then m.touch item touch else return m
  | none =>
    let item := m.fresh
    let m := { m with
      items := Function.update m.items item (some ⟨key, value, none, none⟩)
      fresh := m.fresh + 1 }
    let m ← match touch with
      | .none => m.addItemLast item
      | .asOld => m.addItemFirst item
      | .asNew => m.addItemLast item
    return { m with map := Function.update m.map key (some item), size := m.size + 1 }

def remove (m : LinkedMap K V) (key : K) : Except MapError (LinkedMap K V × Option V) := do
  match m.map key with
  | none => return (m, none)
  | some item =>
    let m ← LinkedMap.removeItem { m with map := Function.update m.map key none } item
    return ({ m with size := m.size - 1 }, m.valueOf item)

def shift (m : LinkedMap K V) : Except MapError (LinkedMap K V × Option V) := do
  match m.head, m.tail with
  | none, none => return (m, none)
  | some item, some _ =>
    let m ← (m.deleteKeyOf item).removeItem item
    return ({ m with size := m.size - 1 }, m.valueOf item)
  | _, _ => throw .invalidList

def trimLoop (along : LinkedMap K V → Ref → Option Ref) :
    Nat → LinkedMap K V → Option Ref → Int → LinkedMap K V × Option Ref × Int
  | left + 1, m, some current, currentSize =>
    trimLoop along left (m.deleteKeyOf current) (along m current) (currentSize - 1)
  | _, m, current, currentSize => (m, current, currentSize)

def trimOld (m : LinkedMap K V) (newSize : Int) : LinkedMap K V :=
  if newSize ≥ m.size then m
  else if newSize = 0 then m.clear
  else
    let (m, current, currentSize) := trimLoop nextOf (m.size - newSize).toNat m m.head m.size
    let m := { m with head := current, size := currentSize }
    match current with
    | none => m
    | some current => m.setPrevious current none

def trimNew (m : LinkedMap K V) (newSize : Int) : LinkedMap K V :=
  if newSize ≥ m.size then m
  else if newSize = 0 then m.clear
  else
    let (m, current, currentSize) := trimLoop previousOf (m.size - newSize).toNat m m.tail m.size
    let m := { m with tail := current, size := currentSize }
    match current with
    | none => m
    | some current => m.setNext current none

end LinkedMap
end Gavea.MapCaches

namespace Gavea.MapCaches

open Lib.DoublyLinked List

variable {K V : Type*}

namespace LinkedMap

def Alive (m : LinkedMap K V) (r : Ref) : Prop := (m.items r).isSome = true

section

variable (m : LinkedMap K V) (r : Ref) (x : Option Ref) (v : V)

theorem items_modify_ne (f : Item K V → Item K V) {s : Ref} (h : s ≠ r) :
    (m.modify r f).items s = m.items s :=
  Function.update_of_ne h _ _

theorem items_modify_self (f : Item K V → Item K V) :
    (m.modify r f).items r = (m.items r).map f :=
  Function.update_self r _ _

theorem alive_modify (f : Item K V → Item K V) (s : Ref) : (m.modify r f).Alive s ↔ m.Alive s := by
  by_cases h : s = r
  · subst h
    rw [Alive, items_modify_self, Option.isSome_map]
    rfl
  · rw [Alive, items_modify_ne m r f h]
    rfl

@[simp] theorem alive_setNext (s : Ref) : (m.setNext r x).Alive s ↔ m.Alive s := alive_modify m r _ s

@[simp] theorem alive_setPrevious (s : Ref) : (m.setPrevious r x).Alive s ↔ m.Alive s := alive_modify m r _ s

theorem nextOf_setNext_self (h : m.Alive r) : (m.setNext r x).nextOf r = x := by
  obtain ⟨item, hitem⟩ := Option.isSome_iff_exists.mp h
  rw [nextOf, setNext, items_modify_self, hitem]
  rfl

theorem nextOf_setNext_ne {s : Ref} (h : s ≠ r) : (m.setNext r x).nextOf s = m.nextOf s := by
  rw [nextOf, setNext, items_modify_ne m r _ h, nextOf]

theorem previousOf_setPrevious_self (h : m.Alive r) : (m.setPrevious r x).previousOf r = x := by
  obtain ⟨item, hitem⟩ := Option.isSome_iff_exists.mp h
  rw [previousOf, setPrevious, items_modify_self, hitem]
  rfl

theorem previousOf_setPrevious_ne {s : Ref} (h : s ≠ r) :
    (m.setPrevious r x).previousOf s = m.previousOf s := by
  rw [previousOf, setPrevious, items_modify_ne m r _ h, previousOf]

theorem bind_modify {α : Type*} (f : Item K V → Item K V) (g : Item K V → Option α)
    (hg : ∀ item, g (f item) = g item) (s : Ref) :
    ((m.modify r f).items s).bind g = (m.items s).bind g := by
  by_cases h : s = r
  · subst h
    rw [items_modify_self]
    cases m.items s with
    | none => rfl
    | some item => exact hg item
  · rw [items_modify_ne m r f h]

@[simp] theorem previousOf_setNext (s : Ref) : (m.setNext r x).previousOf s = m.previousOf s :=
  bind_modify m r (fun item => { item with next := x }) Item.previous (fun _ => rfl) s

@[simp] theorem nextOf_setPrevious (s : Ref) : (m.setPrevious r x).nextOf s = m.nextOf s :=
  bind_modify m r (fun item => { item with previous := x }) Item.next (fun _ => rfl) s

theorem map_modify {α : Type*} (f : Item K V → Item K V) (g : Item K V → α)
    (hg : ∀ item, g (f item) = g item) (s : Ref) :
    ((m.modify r f).items s).map g = (m.items s).map g := by
  rw [Option.map_eq_bind, Option.map_eq_bind]
  exact bind_modify m r f (some ∘ g) (fun item => congrArg some (hg item)) s

end

structure Relinked (m m' : LinkedMap K V) : Prop where
  keyOf : ∀ s, m'.keyOf s = m.keyOf s
  valueOf : ∀ s, m'.valueOf s = m.valueOf s
  alive : ∀ s, m'.Alive s ↔ m.Alive s
  map : m'.map = m.map
  size : m'.size = m.size
  fresh : m'.fresh = m.fresh

theorem Relinked.refl (m : LinkedMap K V) : Relinked m m :=
  ⟨fun _ => rfl, fun _ => rfl, fun _ => Iff.rfl, rfl, rfl, rfl⟩

theorem Relinked.trans {m m' m'' : LinkedMap K V} (h : Relinked m m') (h' : Relinked m' m'') :
    Relinked m m'' where
  keyOf s := (h'.keyOf s).trans (h.keyOf s)
  valueOf s := (h'.valueOf s).trans (h.valueOf s)
  alive s := (h'.alive s).trans (h.alive s)
  map := h'.map.trans h.map
  size := h'.size.trans h.size
  fresh := h'.fresh.trans h.fresh

theorem relinked_modify (m : LinkedMap K V) (r : Ref) (f : Item K V → Item K V)
    (hkey : ∀ item, (f item).key = item.key) (hvalue : ∀ item, (f item).value = item.value) :
    Relinked m (m.modify r f) where
  keyOf := map_modify m r f Item.key hkey
  valueOf := map_modify m r f Item.value hvalue
  alive := alive_modify m r f
  map := rfl
  size := rfl
  fresh := rfl

theorem relinked_setNext (m : LinkedMap K V) (r : Ref) (x : Option Ref) :
    Relinked m (m.setNext r x) :=
  relinked_modify m r _ (fun _ => rfl) fun _ => rfl

theorem relinked_setPrevious (m : LinkedMap K V) (r : Ref) (x : Option Ref) :
    Relinked m (m.setPrevious r x) :=
  relinked_modify m r _ (fun _ => rfl) fun _ => rfl

theorem Relinked.ends {m m' : LinkedMap K V} (h : Relinked m m') (head tail : Option Ref) :
    Relinked m { m' with head := head, tail := tail } :=
  ⟨h.keyOf, h.valueOf, h.alive, h.map, h.size, h.fresh⟩

structure Listed (m : LinkedMap K V) (chain : List Ref) : Prop where
  links : Segment m.nextOf m.previousOf none chain none
  head : m.head = chain.head?
  tail : m.tail = chain.getLast?
  nodup : chain.Nodup
  alive : ∀ r ∈ chain, m.Alive r

theorem Listed.nextOf_eq {m : LinkedMap K V} {front back : List Ref} {r : Ref}
    (h : Listed m (front ++ r :: back)) :
    m.nextOf r = back.head? ∧ m.previousOf r = front.getLast? := by
  have hlinks := h.links
  rw [segment_append] at hlinks
  obtain ⟨-, hp, hn, -⟩ := hlinks
  rw [Option.or_none] at hp hn
  exact ⟨hn, hp⟩

theorem Listed.snoc {m m' : LinkedMap K V} {chain : List Ref} {r t : Ref} (h : Listed m chain)
    (ht : chain.getLast? = some t) (hr : r ∉ chain) (hn : m'.nextOf r = none)
    (hp : m'.previousOf r = some t) (htn : m'.nextOf t = some r)
    (hnext : ∀ s ∈ chain, s ≠ t → m'.nextOf s = m.nextOf s)
    (hprevious : ∀ s ∈ chain, m'.previousOf s = m.previousOf s)
    (hhead : m'.head = m.head) (htail : m'.tail = some r)
    (halive : ∀ s ∈ chain ++ [r], m'.Alive s) : Listed m' (chain ++ [r]) := by
  obtain ⟨l, rfl⟩ := getLast?_eq_some_iff.mp ht
  have htl : t ∉ l := fun hmem => (nodup_append.mp h.nodup).2.2 t hmem t (mem_singleton_self t) rfl
  constructor
  case links =>
    rw [segment_append, segment_singleton]
    refine ⟨?_, ?_, hn⟩
    · exact h.links.relink_last htn (fun s hs => hnext s (mem_append_left _ hs) fun heq => htl (heq ▸ hs)) hprevious
    · rw [getLast?_concat]
      exact hp
  case head =>
    rw [hhead, h.head]
    cases l <;> rfl
  case tail => rw [htail, getLast?_concat]
  case nodup => exact nodup_append.mpr ⟨h.nodup, nodup_singleton r, fun s hs s' hs' heq =>
      hr (mem_singleton.mp hs' ▸ heq ▸ hs)⟩
  case alive => exact halive

theorem Listed.cons {m m' : LinkedMap K V} {chain : List Ref} {r t : Ref} (h : Listed m chain)
    (ht : chain.head? = some t) (hr : r ∉ chain) (hp : m'.previousOf r = none)
    (hn : m'.nextOf r = some t) (htp : m'.previousOf t = some r)
    (hprevious : ∀ s ∈ chain, s ≠ t → m'.previousOf s = m.previousOf s)
    (hnext : ∀ s ∈ chain, m'.nextOf s = m.nextOf s)
    (htail : m'.tail = m.tail) (hhead : m'.head = some r)
    (halive : ∀ s ∈ r :: chain, m'.Alive s) : Listed m' (r :: chain) := by
  obtain ⟨l, rfl⟩ : ∃ l, chain = t :: l := by
    cases chain with
    | nil => exact nomatch ht
    | cons s l => exact ⟨l, by rw [Option.some.inj ht]⟩
  have htl := (nodup_cons.mp h.nodup).1
  constructor
  case links =>
    refine ⟨hp, hn, ?_⟩
    exact h.links.relink_first htp hnext fun s hs => hprevious s (mem_cons_of_mem t hs) fun heq => htl (heq ▸ hs)
  case head => rw [hhead, head?_cons]
  case tail => rw [htail, h.tail, getLast?_cons_cons]
  case nodup => exact nodup_cons.mpr ⟨hr, h.nodup⟩
  case alive => exact halive

theorem Listed.unlink {m m' : LinkedMap K V} {front back : List Ref} {r : Ref}
    (h : Listed m (front ++ r :: back))
    (hfirst : ∀ p, front.getLast? = some p → m'.nextOf p = back.head?)
    (hsecond : ∀ n, back.head? = some n → m'.previousOf n = front.getLast?)
    (hnext : ∀ s ∈ front ++ back, front.getLast? ≠ some s → m'.nextOf s = m.nextOf s)
    (hprevious : ∀ s ∈ front ++ back, back.head? ≠ some s → m'.previousOf s = m.previousOf s)
    (hhead : m'.head = (front ++ back).head?) (htail : m'.tail = (front ++ back).getLast?)
    (halive : ∀ s ∈ front ++ back, m'.Alive s) : Listed m' (front ++ back) := by
  have hnodup : (front ++ back).Nodup := by
    refine h.nodup.sublist ?_
    exact List.Sublist.append_left (sublist_cons_self r back) front
  have hapart := (nodup_append.mp hnodup).2.2
  have hlinks := h.links
  rw [segment_append] at hlinks
  obtain ⟨hbefore, -, -, hbehind⟩ := hlinks
  constructor
  case links =>
    rw [segment_append, Option.or_none, Option.or_none]
    constructor
    · rcases eq_nil_or_concat front with rfl | ⟨l, p, rfl⟩
      · trivial
      · rw [concat_eq_append] at *
        have hpl : p ∉ l := fun hmem => (nodup_append.mp (nodup_append.mp hnodup).1).2.2
          p hmem p (mem_singleton_self p) rfl
        refine hbefore.relink_last (hfirst p getLast?_concat) (fun s hs => ?_) fun s hs => ?_
        · refine hnext s (mem_append_left _ (mem_append_left _ hs)) fun heq => hpl ?_
          rw [getLast?_concat] at heq
          rw [Option.some.inj heq]
          exact hs
        · refine hprevious s (mem_append_left _ hs) fun heq => ?_
          exact hapart s hs s (mem_of_mem_head? heq) rfl
    · cases back with
      | nil => trivial
      | cons n l =>
        have hnl : n ∉ l := (nodup_cons.mp (nodup_append.mp hnodup).2.1).1
        refine hbehind.relink_first (hsecond n rfl) (fun s hs => ?_) fun s hs => ?_
        · refine hnext s (mem_append_right _ hs) fun heq => ?_
          exact hapart s (mem_of_getLast? heq) s hs rfl
        · refine hprevious s (mem_append_right _ (mem_cons_of_mem n hs)) fun heq => hnl ?_
          rw [Option.some.inj heq]
          exact hs
  case head => exact hhead
  case tail => exact htail
  case nodup => exact hnodup
  case alive => exact halive

theorem Listed.outside {m m' : LinkedMap K V} {chain : List Ref} (h : Listed m chain)
    (hnext : ∀ s ∈ chain, m'.nextOf s = m.nextOf s)
    (hprevious : ∀ s ∈ chain, m'.previousOf s = m.previousOf s) (hhead : m'.head = m.head)
    (htail : m'.tail = m.tail) (halive : ∀ s ∈ chain, m'.Alive s) : Listed m' chain where
  links := h.links.congr hnext hprevious
  head := hhead.trans h.head
  tail := htail.trans h.tail
  nodup := h.nodup
  alive := halive

end LinkedMap
end Gavea.MapCaches
