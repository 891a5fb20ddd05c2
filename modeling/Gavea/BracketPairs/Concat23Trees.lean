import Gavea.BracketPairs.Length
import Mathlib.Data.List.SplitBy

namespace Gavea.BracketPairs

open List

structure SmallImmutableSet where
  items : BitVec 32
  additionalItems : List (BitVec 32)

namespace SmallImmutableSet

def has (s : SmallImmutableSet) (key : Nat) : Bool :=
  let idx := key >>> 5
  if idx = 0 then s.items &&& (1#32 <<< key) != 0#32
  else s.additionalItems.getD (idx - 1) 0 &&& (1#32 <<< (key % 32)) != 0#32

def merge (s other : SmallImmutableSet) : SmallImmutableSet where
  items := s.items ||| other.items
  additionalItems :=
    (range (max s.additionalItems.length other.additionalItems.length)).map fun i =>
      s.additionalItems.getD i 0 ||| other.additionalItems.getD i 0

theorem or_and_bne_zero (a b m : BitVec 32) :
    ((a ||| b) &&& m != 0#32) = (a &&& m != 0#32 || b &&& m != 0#32) := by
  rw [Bool.eq_iff_iff, Bool.or_eq_true, bne_iff_ne, bne_iff_ne, bne_iff_ne,
    BitVec.and_or_distrib_right, Ne, BitVec.or_eq_zero_iff, not_and_or]

theorem getD_merge (s other : SmallImmutableSet) (i : Nat) :
    (s.merge other).additionalItems.getD i 0 =
      s.additionalItems.getD i 0 ||| other.additionalItems.getD i 0 := by
  simp only [merge, getD_eq_getElem?_getD, getElem?_map]
  by_cases hi : i < max s.additionalItems.length other.additionalItems.length
  · rw [getElem?_range hi]
    rfl
  · rw [getElem?_eq_none (by rw [length_range]; omega), getElem?_eq_none (l := s.additionalItems) (by omega),
      getElem?_eq_none (l := other.additionalItems) (by omega)]
    rfl

@[simp] theorem has_merge (s other : SmallImmutableSet) (key : Nat) :
    (s.merge other).has key = (s.has key || other.has key) := by
  dsimp only [has]
  split_ifs
  · exact or_and_bne_zero ..
  · rw [getD_merge, or_and_bne_zero]

end SmallImmutableSet

structure ListData where
  immutable : Bool
  length : Nat
  listHeight : Nat
  missingOpeningBracketIds : SmallImmutableSet

def ListData.toMutable (data : ListData) : ListData := { data with immutable := false }

/-- The nodes of a (2,3) tree: `leaf` is any node that is no list, `two` and `three` are lists
without and with a third item. -/
inductive AstNode (α : Type) where
  | leaf (node : α) (length : Nat) (missingOpeningBracketIds : SmallImmutableSet)
  | two (data : ListData) (item1 item2 : AstNode α)
  | three (data : ListData) (item1 item2 item3 : AstNode α)

namespace AstNode

variable {α : Type}

def length : AstNode α → Nat
  | leaf _ length _ => length
  | two data .. | three data .. => data.length

def listHeight : AstNode α → Nat
  | leaf .. => 0
  | two data .. | three data .. => data.listHeight

def missingOpeningBracketIds : AstNode α → SmallImmutableSet
  | leaf _ _ missing => missing
  | two data .. | three data .. => data.missingOpeningBracketIds

def create23 (item1 item2 : AstNode α) (item3 : Option (AstNode α)) (immutable : Bool) :
    Except String (AstNode α) := do
  if item1.listHeight ≠ item2.listHeight then
    throw "Invalid list heights"
  let length := lengthAdd item1.length item2.length
  let missing := item1.missingOpeningBracketIds.merge item2.missingOpeningBracketIds
  match item3 with
  | none => return two ⟨immutable, length, item1.listHeight + 1, missing⟩ item1 item2
  | some item3 =>
      if item1.listHeight ≠ item3.listHeight then
        throw "Invalid list heights"
      return three ⟨immutable, lengthAdd length item3.length, item1.listHeight + 1,
        missing.merge item3.missingOpeningBracketIds⟩ item1 item2 item3

def throwIfImmutable (data : ListData) : Except String Unit :=
  if data.immutable then throw "this instance is immutable" else return ()

def handleChildrenChanged : AstNode α → Except String (AstNode α)
  | two data a b => do
      throwIfImmutable data
      return two { data with
        length := lengthAdd a.length b.length
        missingOpeningBracketIds := a.missingOpeningBracketIds.merge b.missingOpeningBracketIds } a b
  | three data a b c => do
      throwIfImmutable data
      return three { data with
        length := lengthAdd (lengthAdd a.length b.length) c.length
        missingOpeningBracketIds := (a.missingOpeningBracketIds.merge
          b.missingOpeningBracketIds).merge c.missingOpeningBracketIds } a b c
  | leaf .. => throw "unexpected"

/-- The end at which a list grows: `append` and its helpers are about the back, `prepend` and its
helpers about the front. -/
inductive Side
  | front
  | back

def Side.join {β : Type} : Side → List β → List β → List β
  | front, own, new => new ++ own
  | back, own, new => own ++ new

/-- `prependChildOfSameHeight` and `appendChildOfSameHeight`. -/
def addChildOfSameHeight (side : Side) (list node : AstNode α) : Except String (AstNode α) :=
  match list, side with
  | two data a b, .front => do
      throwIfImmutable data
      handleChildrenChanged (three data node a b)
  | two data a b, .back => do
      throwIfImmutable data
      handleChildrenChanged (three data a b node)
  | _, .front => throw "Cannot prepend to a full (2,3) tree node"
  | _, .back => throw "Cannot append to a full (2,3) tree node"

/-- `unprependChild` and `unappendChild`. -/
def removeChild (side : Side) : AstNode α → Except String (AstNode α × AstNode α)
  | three data a b c => do
      throwIfImmutable data
      match side with
      | .front => return (← handleChildrenChanged (two data b c), a)
      | .back => return (← handleChildrenChanged (two data a b), c)
  | _ => throw "Cannot remove from a non-full (2,3) tree node"

def childrenLength : AstNode α → Nat
  | leaf .. => 0
  | two .. => 2
  | three .. => 3

/-- A round of the way up. -/
def up (side : Side) (parent : AstNode α) :
    Option (AstNode α) → Except String (AstNode α × Option (AstNode α))
  | none => do return (← parent.handleChildrenChanged, none)
  | some node => do
      if parent.childrenLength ≥ 3 then
        let (parent, child) ← parent.removeChild side
        match side with
        | .front => return (parent, some (← create23 node child none false))
        | .back => return (parent, some (← create23 child node none false))
      else
        return (← parent.addChildOfSameHeight side node, none)

/-- The way down and up the outermost children; every list on it is made mutable first. -/
def add (side : Side) (nodeToAppend : AstNode α) :
    AstNode α → Except String (AstNode α × Option (AstNode α))
  | leaf node length missing =>
      if nodeToAppend.listHeight = 0 then return (leaf node length missing, some nodeToAppend)
      else throw "unexpected"
  | two data a b => do
      let data := ListData.toMutable data
      if nodeToAppend.listHeight = data.listHeight then
        return (two data a b, some nodeToAppend)
      throwIfImmutable data
      match side with
      | .front =>
          let (a, nodeOfCorrectHeight) ← add side nodeToAppend a
          up side (two data a b) nodeOfCorrectHeight
      | .back =>
          let (b, nodeOfCorrectHeight) ← add side nodeToAppend b
          up side (two data a b) nodeOfCorrectHeight
  | three data a b c => do
      let data := ListData.toMutable data
      if nodeToAppend.listHeight = data.listHeight then
        return (three data a b c, some nodeToAppend)
      throwIfImmutable data
      match side with
      | .front =>
          let (a, nodeOfCorrectHeight) ← add side nodeToAppend a
          up side (three data a b c) nodeOfCorrectHeight
      | .back =>
          let (c, nodeOfCorrectHeight) ← add side nodeToAppend c
          up side (three data a b c) nodeOfCorrectHeight

def append (list nodeToAppend : AstNode α) : Except String (AstNode α) := do
  let (list, nodeToAppendOfCorrectHeight) ← add .back nodeToAppend list
  match nodeToAppendOfCorrectHeight with
  | some node => create23 list node none false
  | none => return list

def prepend (list nodeToAppend : AstNode α) : Except String (AstNode α) := do
  let (list, nodeToPrependOfCorrectHeight) ← add .front nodeToAppend list
  match nodeToPrependOfCorrectHeight with
  | some node => create23 node list none false
  | none => return list

def concat (node1 node2 : AstNode α) : Except String (AstNode α) :=
  if node1.listHeight = node2.listHeight then create23 node1 node2 none false
  else if node1.listHeight > node2.listHeight then append node1 node2
  else prepend node2 node1

def heightDiff (node1 node2 : AstNode α) : Nat := ((node1.listHeight : Int) - node2.listHeight).natAbs

/-- One round of the loop below: parents of two nodes each, the last one of three if need be. -/
def createParents (immutable : Bool) : List (AstNode α) → Except String (List (AstNode α))
  | [a, b, c] => do return [← create23 a b (some c) immutable]
  | a :: b :: items => do
      let parent ← create23 a b none immutable
      return parent :: (← createParents immutable items)
  | _ => return []

def sameHeightLoop (immutable : Bool) (length : Nat) (items : List (AstNode α)) :
    Except String (AstNode α) :=
  if length > 3 then do
    let parents ← createParents immutable items
    sameHeightLoop immutable (length >>> 1) parents
  else
    match items with
    | [a, b] => create23 a b none immutable
    | [a, b, c] => create23 a b (some c) immutable
    | _ => throw "unexpected"
termination_by length

def concat23TreesOfSameHeight (items : List (AstNode α)) (createImmutableLists : Bool) :
    Except String (Option (AstNode α)) :=
  match items with
  | [] => return none
  | [item] => return some item
  | items@(_ :: _ :: _) => do return some (← sameHeightLoop createImmutableLists items.length items)

def readNode (run : List (AstNode α)) : Except String (Option (AstNode α)) := concat23TreesOfSameHeight run false

def concatLoop (first second : AstNode α) : List (List (AstNode α)) → Except String (AstNode α)
  | [] => concat first second
  | run :: runs => do
      match ← readNode run with
      | none => concat first second
      | some item =>
          if heightDiff first second ≤ heightDiff second item then
            concatLoop (← concat first second) item runs
          else
            concatLoop first (← concat second item) runs

/-- The items are read in runs of the same height. -/
def concat23Trees (items : List (AstNode α)) : Except String (Option (AstNode α)) :=
  match items with
  | [] => return none
  | [item] => return some item
  | items@(_ :: _ :: _) => do
      match items.splitBy fun a b => a.listHeight == b.listHeight with
      | [] => return none
      | [run] => readNode run
      | run :: run' :: runs =>
          match ← readNode run, ← readNode run' with
          | some first, some second => return some (← concatLoop first second runs)
          | first, _ => return first

/-- A (2,3) tree of the given height, every list of which caches what its children add up to. -/
inductive Valid : Nat → AstNode α → Prop
  | leaf (node : α) (length : Nat) (missing : SmallImmutableSet) : Valid 0 (leaf node length missing)
  | two {n : Nat} {data : ListData} {a b : AstNode α} (ha : Valid n a) (hb : Valid n b)
      (hheight : data.listHeight = n + 1) (hlength : data.length = lengthAdd a.length b.length)
      (hmissing : data.missingOpeningBracketIds =
        a.missingOpeningBracketIds.merge b.missingOpeningBracketIds) : Valid (n + 1) (two data a b)
  | three {n : Nat} {data : ListData} {a b c : AstNode α} (ha : Valid n a) (hb : Valid n b)
      (hc : Valid n c) (hheight : data.listHeight = n + 1)
      (hlength : data.length = lengthAdd (lengthAdd a.length b.length) c.length)
      (hmissing : data.missingOpeningBracketIds =
        (a.missingOpeningBracketIds.merge b.missingOpeningBracketIds).merge
          c.missingOpeningBracketIds) : Valid (n + 1) (three data a b c)

def leaves : AstNode α → List (AstNode α)
  | leaf node length missing => [leaf node length missing]
  | two _ a b => a.leaves ++ b.leaves
  | three _ a b c => a.leaves ++ b.leaves ++ c.leaves

/-- The immutable lists of a tree, each with all that is below it. -/
def immutables : AstNode α → List (AstNode α)
  | leaf .. => []
  | two data a b => (if data.immutable then [two data a b] else []) ++ a.immutables ++ b.immutables
  | three data a b c => (if data.immutable then [three data a b c] else []) ++
      a.immutables ++ b.immutables ++ c.immutables

structure Regroups (items items' : List (AstNode α)) : Prop where
  leaves : items'.flatMap leaves = items.flatMap leaves
  immutables : ∀ x ∈ items'.flatMap immutables, x ∈ items.flatMap immutables

namespace Regroups

variable {items items' items'' : List (AstNode α)}

theorem refl (items : List (AstNode α)) : Regroups items items := ⟨rfl, fun _ h => h⟩

theorem trans (h : Regroups items items') (h' : Regroups items' items'') :
    Regroups items items'' :=
  ⟨h'.leaves.trans h.leaves, fun x hx => h.immutables x (h'.immutables x hx)⟩

theorem append {front front' : List (AstNode α)} (hfront : Regroups front front')
    (h : Regroups items items') : Regroups (front ++ items) (front' ++ items') := by
  constructor
  · rw [flatMap_append, flatMap_append, hfront.leaves, h.leaves]
  · intro x hx
    rw [flatMap_append, mem_append] at hx ⊢
    exact hx.imp (hfront.immutables x) (h.immutables x)

theorem cons (item : AstNode α) (h : Regroups items items') :
    Regroups (item :: items) (item :: items') := append (refl [item]) h

theorem children_two (data : ListData) (a b : AstNode α) : Regroups [two data a b] [a, b] := by
  constructor
  · simp [AstNode.leaves]
  · intro x hx
    simp only [flatMap_cons, flatMap_nil, append_nil, AstNode.immutables, append_assoc] at hx ⊢
    exact mem_append_right _ hx

theorem children_three (data : ListData) (a b c : AstNode α) :
    Regroups [three data a b c] [a, b, c] := by
  constructor
  · simp [AstNode.leaves]
  · intro x hx
    simp only [flatMap_cons, flatMap_nil, append_nil, AstNode.immutables, append_assoc] at hx ⊢
    exact mem_append_right _ hx

theorem mutable_two {data : ListData} (h : data.immutable = false) (a b : AstNode α) :
    Regroups [a, b] [two data a b] := by
  constructor <;> simp [AstNode.leaves, AstNode.immutables, h]

theorem mutable_three {data : ListData} (h : data.immutable = false) (a b c : AstNode α) :
    Regroups [a, b, c] [three data a b c] := by
  constructor <;> simp [AstNode.leaves, AstNode.immutables, h]

end Regroups

/-- The nodes are (2,3) trees of the height and regroup the given ones. -/
structure Builds (n : Nat) (items nodes : List (AstNode α)) : Prop where
  valid : ∀ node ∈ nodes, Valid n node
  regroups : Regroups items nodes

variable {n k : Nat} {data : ListData} {node a b c : AstNode α} {items : List (AstNode α)}

theorem Valid.listHeight (h : Valid n node) : node.listHeight = n := by
  cases h with
  | leaf => rfl
  | two _ _ hheight => exact hheight
  | three _ _ _ hheight => exact hheight

theorem Builds.singleton (h : Valid n node) (hregroups : Regroups items [node]) :
    Builds n items [node] := by
  refine ⟨fun x hx => ?_, hregroups⟩
  rw [mem_singleton.mp hx]
  exact h

theorem Builds.root (h : Builds n items [node]) : Valid n node := h.valid node (mem_singleton_self node)

theorem Builds.of_regroups {items' nodes : List (AstNode α)} (h : Builds n items' nodes)
    (hregroups : Regroups items items') : Builds n items nodes := ⟨h.valid, hregroups.trans h.regroups⟩

theorem create23_two (ha : Valid n a) (hb : Valid n b) :
    ∃ node, create23 a b none false = .ok node ∧ Builds (n + 1) [a, b] [node] := by
  have hnode : create23 a b none false = .ok (two ⟨false, lengthAdd a.length b.length,
      a.listHeight + 1, a.missingOpeningBracketIds.merge b.missingOpeningBracketIds⟩ a b) := by
    rw [create23, if_neg (by rw [ha.listHeight, hb.listHeight]; exact fun h => h rfl)]
    rfl
  exact ⟨_, hnode, .singleton (.two ha hb (by rw [ha.listHeight]) rfl rfl) (.mutable_two rfl a b)⟩

theorem create23_three (ha : Valid n a) (hb : Valid n b) (hc : Valid n c) :
    ∃ node, create23 a b (some c) false = .ok node ∧ Builds (n + 1) [a, b, c] [node] := by
  have hnode : create23 a b (some c) false = .ok (three ⟨false,
      lengthAdd (lengthAdd a.length b.length) c.length, a.listHeight + 1,
      (a.missingOpeningBracketIds.merge b.missingOpeningBracketIds).merge
        c.missingOpeningBracketIds⟩ a b c) := by
    rw [create23, if_neg (by rw [ha.listHeight, hb.listHeight]; exact fun h => h rfl)]
    simp only
    rw [if_neg (by rw [ha.listHeight, hc.listHeight]; exact fun h => h rfl)]
    rfl
  exact ⟨_, hnode, .singleton (.three ha hb hc (by rw [ha.listHeight]) rfl rfl) (.mutable_three rfl a b c)⟩

theorem throwIfImmutable_eq (h : data.immutable = false) : throwIfImmutable data = .ok () := by
  rw [throwIfImmutable, h]
  rfl

theorem handleChildrenChanged_two (hmutable : data.immutable = false)
    (hheight : data.listHeight = n + 1) (ha : Valid n a) (hb : Valid n b) :
    ∃ node, handleChildrenChanged (two data a b) = .ok node ∧ Builds (n + 1) [a, b] [node] := by
  have hnode : handleChildrenChanged (two data a b) = .ok (two { data with
      length := lengthAdd a.length b.length
      missingOpeningBracketIds :=
        a.missingOpeningBracketIds.merge b.missingOpeningBracketIds } a b) := by
    rw [handleChildrenChanged, throwIfImmutable_eq hmutable]
    rfl
  refine ⟨_, hnode, .singleton (.two ha hb hheight rfl rfl) (.mutable_two ?_ a b)⟩
  exact hmutable

theorem handleChildrenChanged_three (hmutable : data.immutable = false)
    (hheight : data.listHeight = n + 1) (ha : Valid n a) (hb : Valid n b) (hc : Valid n c) :
    ∃ node, handleChildrenChanged (three data a b c) = .ok node ∧
      Builds (n + 1) [a, b, c] [node] := by
  have hnode : handleChildrenChanged (three data a b c) = .ok (three { data with
      length := lengthAdd (lengthAdd a.length b.length) c.length
      missingOpeningBracketIds :=
        (a.missingOpeningBracketIds.merge b.missingOpeningBracketIds).merge
          c.missingOpeningBracketIds } a b c) := by
    rw [handleChildrenChanged, throwIfImmutable_eq hmutable]
    rfl
  refine ⟨_, hnode, .singleton (.three ha hb hc hheight rfl rfl) (.mutable_three ?_ a b c)⟩
  exact hmutable

theorem Builds.split {first second : List (AstNode α)} {node node' : AstNode α}
    (h : Builds n first [node]) (h' : Builds n second [node']) :
    Builds n (first ++ second) [node, node'] := by
  refine ⟨fun x hx => ?_, h.regroups.append h'.regroups⟩
  rcases mem_cons.mp hx with rfl | hx
  · exact h.root
  · exact h'.valid x hx

section Up

variable (hmutable : data.immutable = false) (hheight : data.listHeight = n + 1)
  (ha : Valid n a) (hb : Valid n b)
include hmutable hheight ha hb

theorem up_two (side : Side) (rest : Option (AstNode α)) (hrest : ∀ node ∈ rest, Valid n node) :
    ∃ r, up side (two data a b) rest = .ok r ∧
      Builds (n + 1) (side.join [a, b] rest.toList) (side.join [r.1] r.2.toList) := by
  cases rest with
  | none =>
    obtain ⟨parent, hparent, hbuilds⟩ := handleChildrenChanged_two hmutable hheight ha hb
    exact ⟨(parent, none), by rw [up, hparent]; rfl, by cases side <;> exact hbuilds⟩
  | some node =>
    have hnode := hrest node rfl
    cases side with
    | front =>
      obtain ⟨parent, hparent, hbuilds⟩ := handleChildrenChanged_three hmutable hheight hnode ha hb
      refine ⟨(parent, none), ?_, hbuilds⟩
      rw [up, if_neg (by simp [childrenLength]), addChildOfSameHeight, throwIfImmutable_eq hmutable]
      simp only [bind, Except.bind, pure, Except.pure, hparent]
    | back =>
      obtain ⟨parent, hparent, hbuilds⟩ := handleChildrenChanged_three hmutable hheight ha hb hnode
      refine ⟨(parent, none), ?_, hbuilds⟩
      rw [up, if_neg (by simp [childrenLength]), addChildOfSameHeight, throwIfImmutable_eq hmutable]
      simp only [bind, Except.bind, pure, Except.pure, hparent]

theorem up_three (hc : Valid n c) (side : Side) (rest : Option (AstNode α))
    (hrest : ∀ node ∈ rest, Valid n node) :
    ∃ r, up side (three data a b c) rest = .ok r ∧
      Builds (n + 1) (side.join [a, b, c] rest.toList) (side.join [r.1] r.2.toList) := by
  cases rest with
  | none =>
    obtain ⟨parent, hparent, hbuilds⟩ := handleChildrenChanged_three hmutable hheight ha hb hc
    exact ⟨(parent, none), by rw [up, hparent]; rfl, by cases side <;> exact hbuilds⟩
  | some node =>
    have hnode := hrest node rfl
    cases side with
    | front =>
      obtain ⟨parent, hparent, hbuilds⟩ := handleChildrenChanged_two hmutable hheight hb hc
      obtain ⟨split, hsplit, hbuilds'⟩ := create23_two hnode ha
      refine ⟨(parent, some split), ?_, hbuilds'.split hbuilds⟩
      rw [up, if_pos (by simp [childrenLength]), removeChild, throwIfImmutable_eq hmutable]
      simp only [bind, Except.bind, pure, Except.pure, hparent, hsplit]
    | back =>
      obtain ⟨parent, hparent, hbuilds⟩ := handleChildrenChanged_two hmutable hheight ha hb
      obtain ⟨split, hsplit, hbuilds'⟩ := create23_two hc hnode
      refine ⟨(parent, some split), ?_, hbuilds.split hbuilds'⟩
      rw [up, if_pos (by simp [childrenLength]), removeChild, throwIfImmutable_eq hmutable]
      simp only [bind, Except.bind, pure, Except.pure, hparent, hsplit]

end Up

theorem toMutable_two (h : Valid n (AstNode.two data a b)) :
    Builds n [AstNode.two data a b] [AstNode.two data.toMutable a b] := by
  cases h with
  | two ha hb hheight hlength hmissing =>
    exact .singleton (.two ha hb hheight hlength hmissing)
      ((Regroups.children_two data a b).trans (Regroups.mutable_two rfl a b))

theorem toMutable_three (h : Valid n (AstNode.three data a b c)) :
    Builds n [AstNode.three data a b c] [AstNode.three data.toMutable a b c] := by
  cases h with
  | three ha hb hc hheight hlength hmissing =>
    exact .singleton (.three ha hb hc hheight hlength hmissing)
      ((Regroups.children_three data a b c).trans (Regroups.mutable_three rfl a b c))

@[simp] theorem listHeight_toMutable (data : ListData) : data.toMutable.listHeight = data.listHeight := rfl

variable {cur : AstNode α}

theorem Builds.join (side : Side) (h : Builds n [a] [b]) (hnode : Valid n node) :
    Builds n (side.join [a] [node]) (side.join [b] [node]) := by
  have hnode : Builds n [node] [node] := .singleton hnode (.refl _)
  cases side with
  | front => exact hnode.split h
  | back => exact h.split hnode

theorem add_builds (side : Side) (hnode : Valid k node) (hcur : Valid n cur) (hle : k ≤ n) :
    ∃ r, add side node cur = .ok r ∧
      Builds n (side.join [cur] [node]) (side.join [r.1] r.2.toList) := by
  induction hcur with
  | leaf a length missing =>
    obtain rfl : k = 0 := by omega
    refine ⟨(AstNode.leaf a length missing, some node), ?_, .join side
      (.singleton (.leaf a length missing) (.refl _)) hnode⟩
    rw [add, if_pos hnode.listHeight]
    rfl
  | @two n data a b ha hb hheight hlength hmissing iha ihb =>
    have hmutable : data.toMutable.immutable = false := rfl
    have hchildren := Regroups.children_two data a b
    by_cases hk : k = n + 1
    -- A node one level lower is a sibling of the children; a lower one goes into the outer child.
    · subst hk
      refine ⟨(AstNode.two data.toMutable a b, some node), ?_, .join side
        (toMutable_two (.two ha hb hheight hlength hmissing)) hnode⟩
      unfold add
      dsimp only
      rw [if_pos (by rw [hnode.listHeight, listHeight_toMutable, hheight])]
      rfl
    · have hhigh : ¬node.listHeight = data.toMutable.listHeight := by
        rwa [hnode.listHeight, listHeight_toMutable, hheight]
      cases side with
      | front =>
        obtain ⟨⟨a', rest⟩, ha', hbuilds⟩ := iha (by omega)
        obtain ⟨r, hr, hup⟩ := up_two hmutable hheight
          (hbuilds.valid a' (mem_append_right _ mem_cons_self)) hb .front rest
          fun o ho => hbuilds.valid o (mem_append_left _ (Option.mem_toList.mpr ho))
        have hrest := hbuilds.regroups.append (.refl [b])
        simp only [Side.join, append_assoc] at hrest
        refine ⟨r, ?_, hup.valid, (hchildren.cons node).trans (hrest.trans hup.regroups)⟩
        unfold add
        dsimp only
        rw [if_neg hhigh, throwIfImmutable_eq hmutable, ha']
        exact hr
      | back =>
        obtain ⟨⟨b', rest⟩, hb', hbuilds⟩ := ihb (by omega)
        obtain ⟨r, hr, hup⟩ := up_two hmutable hheight ha (hbuilds.valid b' mem_cons_self) .back rest
          fun o ho => hbuilds.valid o (mem_cons_of_mem _ (Option.mem_toList.mpr ho))
        refine ⟨r, ?_, hup.valid,
          (hchildren.append (.refl [node])).trans ((hbuilds.regroups.cons a).trans hup.regroups)⟩
        unfold add
        dsimp only
        rw [if_neg hhigh, throwIfImmutable_eq hmutable, hb']
        exact hr
  | @three n data a b c ha hb hc hheight hlength hmissing iha ihb ihc =>
    have hmutable : data.toMutable.immutable = false := rfl
    have hchildren := Regroups.children_three data a b c
    by_cases hk : k = n + 1
    · subst hk
      refine ⟨(AstNode.three data.toMutable a b c, some node), ?_, .join side
        (toMutable_three (.three ha hb hc hheight hlength hmissing)) hnode⟩
      unfold add
      dsimp only
      rw [if_pos (by rw [hnode.listHeight, listHeight_toMutable, hheight])]
      rfl
    · have hhigh : ¬node.listHeight = data.toMutable.listHeight := by
        rwa [hnode.listHeight, listHeight_toMutable, hheight]
      cases side with
      | front =>
        obtain ⟨⟨a', rest⟩, ha', hbuilds⟩ := iha (by omega)
        obtain ⟨r, hr, hup⟩ := up_three hmutable hheight
          (hbuilds.valid a' (mem_append_right _ mem_cons_self)) hb hc .front rest
          fun o ho => hbuilds.valid o (mem_append_left _ (Option.mem_toList.mpr ho))
        have hrest := hbuilds.regroups.append (.refl [b, c])
        simp only [Side.join, append_assoc] at hrest
        refine ⟨r, ?_, hup.valid, (hchildren.cons node).trans (hrest.trans hup.regroups)⟩
        unfold add
        dsimp only
        rw [if_neg hhigh, throwIfImmutable_eq hmutable, ha']
        exact hr
      | back =>
        obtain ⟨⟨c', rest⟩, hc', hbuilds⟩ := ihc (by omega)
        obtain ⟨r, hr, hup⟩ := up_three hmutable hheight ha hb (hbuilds.valid c' mem_cons_self) .back
          rest fun o ho => hbuilds.valid o (mem_cons_of_mem _ (Option.mem_toList.mpr ho))
        refine ⟨r, ?_, hup.valid, (hchildren.append (.refl [node])).trans
          (((hbuilds.regroups.cons b).cons a).trans hup.regroups)⟩
        unfold add
        dsimp only
        rw [if_neg hhigh, throwIfImmutable_eq hmutable, hc']
        exact hr

theorem append_builds (hnode : Valid k node) (hcur : Valid n cur) (hle : k ≤ n) :
    ∃ m r, append cur node = .ok r ∧ Builds m [cur, node] [r] := by
  obtain ⟨⟨list, rest⟩, hlist, hbuilds⟩ := add_builds .back hnode hcur hle
  cases rest with
  | none => exact ⟨n, list, by rw [append, hlist]; rfl, hbuilds⟩
  | some last =>
    obtain ⟨r, hr, hroot⟩ := create23_two (hbuilds.valid list mem_cons_self)
      (hbuilds.valid last (mem_cons_of_mem _ (mem_singleton_self last)))
    exact ⟨n + 1, r, by rw [append, hlist]; exact hr, hroot.of_regroups hbuilds.regroups⟩

theorem prepend_builds (hnode : Valid k node) (hcur : Valid n cur) (hle : k ≤ n) :
    ∃ m r, prepend cur node = .ok r ∧ Builds m [node, cur] [r] := by
  obtain ⟨⟨list, rest⟩, hlist, hbuilds⟩ := add_builds .front hnode hcur hle
  cases rest with
  | none => exact ⟨n, list, by rw [prepend, hlist]; rfl, hbuilds⟩
  | some first =>
    obtain ⟨r, hr, hroot⟩ := create23_two (hbuilds.valid first mem_cons_self)
      (hbuilds.valid list (mem_cons_of_mem _ (mem_singleton_self list)))
    exact ⟨n + 1, r, by rw [prepend, hlist]; exact hr, hroot.of_regroups hbuilds.regroups⟩

theorem concat_builds (ha : Valid n a) (hb : Valid k b) :
    ∃ m r, concat a b = .ok r ∧ Builds m [a, b] [r] := by
  unfold concat
  rw [ha.listHeight, hb.listHeight]
  split_ifs with heq hlt
  · subst heq
    exact ⟨n + 1, create23_two ha hb⟩
  · exact append_builds hb ha (Nat.le_of_lt hlt)
  · exact prepend_builds ha hb (Nat.le_of_not_lt hlt)

theorem createParents_builds (items : List (AstNode α)) (h : ∀ item ∈ items, Valid n item)
    (hlength : items.length ≠ 1) :
    ∃ parents, createParents false items = .ok parents ∧
      parents.length = items.length / 2 ∧ Builds (n + 1) items parents := by
  induction items using createParents.induct with
  | case1 a b c =>
    obtain ⟨parent, hparent, hbuilds⟩ := create23_three (h a mem_cons_self) (h b (by simp)) (h c (by simp))
    exact ⟨[parent], by rw [createParents, hparent]; rfl, by simp, hbuilds⟩
  | case2 a b items hthree ih =>
    obtain ⟨parent, hparent, hbuilds⟩ := create23_two (h a mem_cons_self) (h b (by simp))
    obtain ⟨parents, hparents, hcount, hrest⟩ := ih
      (fun item hitem => h item (mem_cons_of_mem _ (mem_cons_of_mem _ hitem)))
      (fun hone => by
        obtain ⟨c, rfl⟩ := length_eq_one_iff.mp hone
        exact hthree c rfl)
    refine ⟨parent :: parents, ?_, ?_, fun x hx => ?_, hbuilds.regroups.append hrest.regroups⟩
    · rw [createParents, hparent]
      · simp only [bind, Except.bind, pure, Except.pure, hparents]
      · exact hthree
    · rw [length_cons, length_cons, length_cons, hcount]
      omega
    · rcases mem_cons.mp hx with rfl | hx
      · exact hbuilds.root
      · exact hrest.valid x hx
  | case3 items hthree htwo =>
    match items, htwo with
    | [], _ => exact ⟨[], rfl, by simp, by simp, .refl _⟩
    | [_], _ => exact absurd rfl hlength
    | a :: b :: items, htwo => exact absurd rfl (htwo a b items)

theorem sameHeightLoop_builds (length : Nat) (items : List (AstNode α))
    (h : ∀ item ∈ items, Valid n item) (hlength : items.length = length) (htwo : 2 ≤ length) :
    ∃ m r, sameHeightLoop false length items = .ok r ∧ Builds m items [r] := by
  induction length using Nat.strong_induction_on generalizing n items with
  | h length ih =>
    unfold sameHeightLoop
    split_ifs with hmore
    · obtain ⟨parents, hparents, hcount, hbuilds⟩ := createParents_builds items h (by omega)
      have hhalf : length >>> 1 = length / 2 := Nat.shiftRight_eq_div_pow length 1
      obtain ⟨m, r, hr, hroot⟩ := ih (length >>> 1) (by omega) parents hbuilds.valid
        (by rw [hcount, hlength, hhalf]) (by omega)
      exact ⟨m, r, by rw [hparents]; exact hr, hroot.of_regroups hbuilds.regroups⟩
    · match items, h with
      | [a, b], h => exact ⟨n + 1, create23_two (h a mem_cons_self) (h b (by simp))⟩
      | [a, b, c], h => exact ⟨n + 1, create23_three (h a mem_cons_self) (h b (by simp)) (h c (by simp))⟩
      | [], _ | [_], _ | _ :: _ :: _ :: _ :: _, _ => simp at hlength; omega

theorem readNode_builds (run : List (AstNode α)) (hrun : run ≠ [])
    (h : ∀ item ∈ run, Valid n item) :
    ∃ m r, readNode run = .ok (some r) ∧ Builds m run [r] := by
  match run, hrun, h with
  | [item], _, h => exact ⟨n, item, rfl, .singleton (h item mem_cons_self) (.refl _)⟩
  | a :: b :: items, _, h =>
    obtain ⟨m, r, hr, hbuilds⟩ := sameHeightLoop_builds _ (a :: b :: items) h rfl (by simp)
    exact ⟨m, r, by rw [readNode, concat23TreesOfSameHeight, hr]; rfl, hbuilds⟩

theorem concatLoop_builds (runs : List (List (AstNode α))) {first second : AstNode α}
    (hfirst : Valid n first) (hsecond : Valid k second)
    (hruns : ∀ run ∈ runs, run ≠ [] ∧ ∃ m, ∀ item ∈ run, Valid m item) :
    ∃ m r, concatLoop first second runs = .ok r ∧
      Builds m (first :: second :: runs.flatten) [r] := by
  induction runs generalizing n k first second with
  | nil => exact concat_builds hfirst hsecond
  | cons run runs ih =>
    obtain ⟨hrun, m, hvalid⟩ := hruns run mem_cons_self
    obtain ⟨m', item, hitem, hread⟩ := readNode_builds run hrun hvalid
    have hitemValid := hread.root
    have hrest := fun run h => hruns run (mem_cons_of_mem _ h)
    have hregroups : Regroups (first :: second :: (run :: runs).flatten)
        ([first, second, item] ++ runs.flatten) := by
      rw [flatten_cons]
      exact ((hread.regroups.append (.refl _)).cons second).cons first
    rw [concatLoop, hitem]
    simp only [bind, Except.bind]
    split_ifs with hdiff
    · obtain ⟨l, r, hr, hconcat⟩ := concat_builds hfirst hsecond
      obtain ⟨l', r', hr', hloop⟩ := ih hconcat.root hitemValid hrest
      exact ⟨l', r', by rw [hr]; exact hr', hloop.of_regroups
        (hregroups.trans ((hconcat.regroups.append (.refl [item])).append (.refl _)))⟩
    · obtain ⟨l, r, hr, hconcat⟩ := concat_builds hsecond hitemValid
      obtain ⟨l', r', hr', hloop⟩ := ih hfirst hconcat.root hrest
      exact ⟨l', r', by rw [hr]; exact hr', hloop.of_regroups
        (hregroups.trans ((hconcat.regroups.cons first).append (.refl _)))⟩

theorem concat23Trees_builds (items : List (AstNode α)) (hne : items ≠ [])
    (h : ∀ item ∈ items, ∃ n, Valid n item) :
    ∃ m r, concat23Trees items = .ok (some r) ∧ Builds m items [r] := by
  have hrun (run : List (AstNode α))
      (hmem : run ∈ items.splitBy fun a b => a.listHeight == b.listHeight) :
      run ≠ [] ∧ ∃ n, ∀ item ∈ run, Valid n item := by
    have hsub : ∀ item ∈ run, item ∈ items := fun item hitem => by
      rw [← flatten_splitBy (fun a b : AstNode α => a.listHeight == b.listHeight) items]
      exact mem_flatten.mpr ⟨run, hmem, hitem⟩
    have hchain := isChain_of_mem_splitBy hmem
    match run, hmem with
    | [], hmem => exact absurd hmem (nil_notMem_splitBy _ _)
    | first :: run, _ =>
      obtain ⟨n, hfirst⟩ := h first (hsub first mem_cons_self)
      have hpairwise := isChain_iff_pairwise.mp <| hchain.imp
        (S := fun a b : AstNode α => a.listHeight = b.listHeight) fun _ _ hab => beq_iff_eq.mp hab
      refine ⟨cons_ne_nil _ _, n, fun item hitem => ?_⟩
      rcases mem_cons.mp hitem with rfl | hitem'
      · exact hfirst
      · obtain ⟨k, hk⟩ := h item (hsub item hitem)
        have hheight := rel_of_pairwise_cons hpairwise hitem'
        rw [hfirst.listHeight, hk.listHeight] at hheight
        rw [hheight]
        exact hk
  match items, hne, h with
  | [item], _, h =>
    obtain ⟨n, hn⟩ := h item mem_cons_self
    exact ⟨n, item, rfl, .singleton hn (.refl _)⟩
  | a :: b :: items, _, h =>
    have hflatten := flatten_splitBy (fun a b : AstNode α => a.listHeight == b.listHeight) (a :: b :: items)
    rw [concat23Trees]
    generalize (a :: b :: items).splitBy _ = runs at hrun hflatten
    match runs, hrun, hflatten with
    | [run], hrun, hflatten =>
      obtain ⟨hne, n, hvalid⟩ := hrun run mem_cons_self
      rw [← hflatten, flatten_singleton]
      exact readNode_builds run hne hvalid
    | run :: run' :: runs, hrun, hflatten =>
      obtain ⟨hne, n, hvalid⟩ := hrun run mem_cons_self
      obtain ⟨hne', n', hvalid'⟩ := hrun run' (mem_cons_of_mem _ mem_cons_self)
      obtain ⟨m, first, hfirst, hread⟩ := readNode_builds run hne hvalid
      obtain ⟨m', second, hsecond, hread'⟩ := readNode_builds run' hne' hvalid'
      obtain ⟨l, r, hr, hloop⟩ := concatLoop_builds runs
        hread.root
        hread'.root
        fun run h => hrun run (mem_cons_of_mem _ (mem_cons_of_mem _ h))
      refine ⟨l, r, ?_, hloop.of_regroups ?_⟩
      · simp only [hfirst, hsecond, hr, bind, Except.bind, pure, Except.pure]
      · rw [← hflatten, flatten_cons, flatten_cons]
        exact hread.regroups.append (hread'.regroups.append (.refl _))

theorem Valid.has_missing (h : Valid n node) (key : Nat) :
    node.missingOpeningBracketIds.has key =
      node.leaves.any fun leaf => leaf.missingOpeningBracketIds.has key := by
  induction h with
  | leaf => simp [leaves]
  | @two _ data a b _ _ _ _ hmissing iha ihb =>
    rw [leaves, any_append, ← iha, ← ihb, ← SmallImmutableSet.has_merge, ← hmissing]
    rfl
  | @three _ data a b c _ _ _ _ _ hmissing iha ihb ihc =>
    rw [leaves, any_append, any_append, ← iha, ← ihb, ← ihc, ← SmallImmutableSet.has_merge,
      ← SmallImmutableSet.has_merge, ← hmissing]
    rfl

section Lengths

variable {text : AstNode α → Text}

theorem Valid.length_eq (h : Valid n node)
    (htext : ∀ leaf ∈ node.leaves, leaf.length = lengthOf (text leaf))
    (hfits : Fits (node.leaves.flatMap text)) :
    node.length = lengthOf (node.leaves.flatMap text) := by
  induction h with
  | leaf =>
    rw [leaves, flatMap_singleton]
    exact htext _ mem_cons_self
  | @two _ data a b _ _ _ hlength _ iha ihb =>
    rw [leaves, flatMap_append] at hfits ⊢
    have ha := iha (fun leaf h => htext leaf (mem_append_left _ h)) hfits.left
    have hb := ihb (fun leaf h => htext leaf (mem_append_right _ h)) hfits.right
    rw [lengthOf_append hfits, ← ha, ← hb, ← hlength]
    rfl
  | @three _ data a b c _ _ _ _ hlength _ iha ihb ihc =>
    rw [leaves, flatMap_append, flatMap_append] at hfits ⊢
    have ha := iha (fun leaf h => htext leaf (mem_append_left _ (mem_append_left _ h))) hfits.left.left
    have hb := ihb (fun leaf h => htext leaf (mem_append_left _ (mem_append_right _ h))) hfits.left.right
    have hc := ihc (fun leaf h => htext leaf (mem_append_right _ h)) hfits.right
    rw [lengthOf_append hfits, lengthOf_append hfits.left, ← ha, ← hb, ← hc, ← hlength]
    rfl

theorem sumLengths_eq (items : List (AstNode α)) (h : ∀ item ∈ items, ∃ n, Valid n item)
    (htext : ∀ leaf ∈ items.flatMap leaves, leaf.length = lengthOf (text leaf))
    (hfits : Fits ((items.flatMap leaves).flatMap text)) :
    sumLengths items length = lengthOf ((items.flatMap leaves).flatMap text) := by
  induction items using List.reverseRecOn with
  | nil => exact lengthOf_nil.symm
  | append_singleton items item ih =>
    simp only [flatMap_append, flatMap_cons, flatMap_nil, append_nil] at htext hfits ⊢
    obtain ⟨n, hn⟩ := h item (mem_append_right _ (mem_singleton_self item))
    rw [lengthOf_append hfits, ← ih (fun item h' => h item (mem_append_left _ h'))
      (fun leaf h => htext leaf (mem_append_left _ h)) hfits.left,
      ← hn.length_eq (fun leaf h => htext leaf (mem_append_right _ h)) hfits.right,
      sumLengths, foldl_append]
    rfl

end Lengths

/-- The node is the concatenation of the items. Its length is the sum of theirs unless a sum of
lines or columns overflows. -/
structure Concatenates (items : List (AstNode α)) (node : AstNode α) : Prop where
  valid : ∃ n, Valid n node
  leaves : node.leaves = items.flatMap leaves
  length : ∀ text : AstNode α → Text,
    (∀ leaf ∈ items.flatMap AstNode.leaves, leaf.length = lengthOf (text leaf)) →
    Fits ((items.flatMap AstNode.leaves).flatMap text) → node.length = sumLengths items length
  missing : ∀ key, node.missingOpeningBracketIds.has key = items.any fun item => item.missingOpeningBracketIds.has key
  immutables : ∀ list ∈ node.immutables, ∃ item ∈ items, list ∈ item.immutables

/-- The concatenation returns, so it writes to no immutable list: every write checks for that. -/
theorem concat23Trees_concatenates (items : List (AstNode α)) (hne : items ≠ [])
    (h : ∀ item ∈ items, ∃ n, Valid n item) :
    ∃ node, concat23Trees items = .ok (some node) ∧ Concatenates items node := by
  obtain ⟨n, node, hnode, hbuilds⟩ := concat23Trees_builds items hne h
  have hvalid := hbuilds.root
  have hleaves : node.leaves = items.flatMap leaves := by
    rw [← hbuilds.regroups.leaves, flatMap_singleton]
  refine ⟨node, hnode, ⟨n, hvalid⟩, hleaves, fun text htext hfits => ?_, fun key => ?_,
    fun list hlist => ?_⟩
  · rw [sumLengths_eq items h htext hfits, ← hleaves]
    rw [← hleaves] at htext hfits
    exact hvalid.length_eq htext hfits
  · rw [hvalid.has_missing, hleaves, any_flatMap, Bool.eq_iff_iff, any_eq_true, any_eq_true]
    refine exists_congr fun item => and_congr_right fun hitem => ?_
    obtain ⟨k, hk⟩ := h item hitem
    rw [hk.has_missing]
  · have hmem := hbuilds.regroups.immutables list (by rw [flatMap_singleton]; exact hlist)
    exact mem_flatMap.mp hmem

def fullAndText : List (AstNode Nat) :=
  [three ⟨true, 6, 1, ⟨0, []⟩⟩ (leaf 0 1 ⟨0, []⟩) (leaf 1 2 ⟨0, []⟩) (leaf 2 3 ⟨0, []⟩), leaf 3 4 ⟨0, []⟩]

theorem concat23Trees_concatenates_fullAndText :
    ∃ node, concat23Trees fullAndText = .ok (some node) ∧ Concatenates fullAndText node :=
  concat23Trees_concatenates fullAndText (cons_ne_nil _ _) fun item hitem => by
    rcases mem_cons.mp hitem with rfl | hitem
    · exact ⟨1, .three (.leaf ..) (.leaf ..) (.leaf ..) rfl rfl rfl⟩
    · obtain rfl := mem_singleton.mp hitem
      exact ⟨0, .leaf ..⟩

/-- Four texts, the second and the third of which are too long for one line together. -/
def overlong : List (AstNode Unit) := [1, 1, factor - 1, 1].map fun length => leaf () length ⟨0, []⟩

theorem overlong_parents (left right : AstNode Unit)
    (h : createParents false overlong = .ok [left, right]) :
    concat23Trees overlong = (create23 left right none false).map some := by
  have hloop : sameHeightLoop false 4 overlong = create23 left right none false := by
    unfold sameHeightLoop
    rw [if_pos (by decide), h]
    simp only [bind, Except.bind]
    unfold sameHeightLoop
    rw [if_neg (by decide)]
  have hrun : concat23Trees overlong = (do return some (← sameHeightLoop false 4 overlong)) := rfl
  rw [hrun, hloop]
  rfl

theorem not_concat23Trees_length : ¬ ∀ items : List (AstNode Unit), items ≠ [] →
    (∀ item ∈ items, ∃ n, Valid n item) →
    ∃ node, concat23Trees items = .ok (some node) ∧ node.length = sumLengths items length := by
  intro h
  obtain ⟨node, hnode, hlength⟩ := h overlong (by simp [overlong]) (by
    intro item hitem
    obtain ⟨length, _, rfl⟩ := mem_map.mp hitem
    exact ⟨0, .leaf ..⟩)
  rw [overlong_parents _ _ rfl] at hnode
  obtain rfl := Option.some.inj (Except.ok.inj hnode)
  exact absurd hlength (by decide)

end AstNode

end Gavea.BracketPairs
