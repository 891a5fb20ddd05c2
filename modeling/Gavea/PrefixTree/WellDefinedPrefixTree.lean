import Gavea.Lib.Collections

namespace Gavea.PrefixTree

open Gavea.Lib

variable {V : Type}

inductive Node (V : Type)
  | mk (value : Option V) (children : List (String × Node V))

namespace Node

def value : Node V → Option V
  | ⟨value, _⟩ => value

def children : Node V → List (String × Node V)
  | ⟨_, children⟩ => children

def new : Node V := ⟨none, []⟩

def setValue (node : Node V) (value : Option V) : Node V := ⟨value, node.children⟩

def child (node : Node V) (part : String) : Option (Node V) :=
  (node.children.find? fun entry => entry.1 == part).map Prod.snd

def setChild (node : Node V) (part : String) (child : Node V) : Node V :=
  ⟨node.value, setFirst (fun entry => entry.1 == part) (part, child) node.children⟩

def deleteChild (node : Node V) (part : String) : Node V :=
  ⟨node.value, node.children.filter fun entry => entry.1 != part⟩

def putChild (node : Node V) (part : String) : Option (Node V) → Node V
  | some child => node.setChild part child
  | none => node.deleteChild part

def isBare (node : Node V) : Bool := node.children.isEmpty && node.value.isNone

def nodeAt (node : Node V) : List String → Option (Node V)
  | [] => some node
  | segment :: key => (node.child segment).bind fun next => nodeAt next key

def count : Node V → Nat
  | ⟨_, children⟩ => (children.attach.map fun entry => count entry.1.2).sum + 1
  decreasing_by
    have hlt := List.sizeOf_lt_of_mem entry.2
    have hpair : sizeOf entry.1 = 1 + sizeOf entry.1.1 + sizeOf entry.1.2 := rfl
    simp only [mk.sizeOf_spec]
    omega

theorem count_eq (node : Node V) :
    node.count = (node.children.map fun entry => entry.2.count).sum + 1 := by
  obtain ⟨value, children⟩ := node
  rw [count, List.attach_map_val (f := fun entry : String × Node V => entry.2.count)]
  rfl

end Node

def bfsLoop : List (Node V) → List (Node V)
  | [] => []
  | node :: stack => node :: bfsLoop ((node.children.map Prod.snd).reverse ++ stack)
  termination_by stack => (stack.map Node.count).sum
  decreasing_by
    rw [List.map_append, List.map_reverse, List.sum_append, List.sum_reverse, List.map_cons,
      List.sum_cons, node.count_eq, List.map_map]
    exact Nat.add_lt_add_right (Nat.lt_succ_self _) _

def bfsIterate (root : Node V) : List (Node V) := bfsLoop [root]

def opNodeLoop (fn : Option V → Option V) (onDescend : Nat → Option V → Option V) :
    (key : List String) → (depth : Nat) → Node V → Node V × Int
  | [], _, node =>
    let sizeBefore : Int := if node.value.isNone then 0 else 1
    let node := node.setValue (fn node.value)
    let sizeAfter : Int := if node.value.isNone then 0 else 1
    (node, sizeAfter - sizeBefore)
  | part :: key, depth, node =>
    let next := (node.child part).getD Node.new
    let next := next.setValue (onDescend depth next.value)
    let (next, sizeDelta) := opNodeLoop fn onDescend key (depth + 1) next
    (node.setChild part next, sizeDelta)

def deleteLoop : (key : List String) → Node V → Option (V × Node V)
  | [], node => node.value.map fun value => (value, node.setValue none)
  | part :: key, node => do
      let next ← node.child part
      let (value, next) ← deleteLoop key next
      return (value, if next.isBare then node.deleteChild part else node.setChild part next)

def deleteSubtreeLoop : (key : List String) → Node V → Option (Node V × Option (Node V))
  | [], node => some (node, none)
  | part :: key, node => do
      let next ← node.child part
      let (subtree, rest) ← deleteSubtreeLoop key next
      let node := node.putChild part rest
      return (subtree, if node.isBare then none else some node)

structure WellDefinedPrefixTree (V : Type) where
  root : Node V
  size : Int

namespace WellDefinedPrefixTree

def new : WellDefinedPrefixTree V := ⟨Node.new, 0⟩

def opNode (t : WellDefinedPrefixTree V) (key : List String) (fn : Option V → Option V)
    (onDescend : Nat → Option V → Option V) : WellDefinedPrefixTree V :=
  let (root, sizeDelta) := opNodeLoop fn onDescend key 0 t.root
  ⟨root, t.size + sizeDelta⟩

def insert (t : WellDefinedPrefixTree V) (key : List String) (value : V) :
    WellDefinedPrefixTree V :=
  t.opNode key (fun _ => some value) fun _ value => value

def mutate (t : WellDefinedPrefixTree V) (key : List String) (mutate : Option V → V) :
    WellDefinedPrefixTree V :=
  t.opNode key (fun value => some (mutate value)) fun _ value => value

def mutatePath (t : WellDefinedPrefixTree V) (key : List String)
    (mutate : Nat → Option V → Option V) : WellDefinedPrefixTree V :=
  t.opNode key id mutate

def delete (t : WellDefinedPrefixTree V) (key : List String) :
    Option V × WellDefinedPrefixTree V :=
  match deleteLoop key t.root with
  | some (value, root) => (some value, ⟨root, t.size - 1⟩)
  | none => (none, t)

def deleteRecursive (t : WellDefinedPrefixTree V) (key : List String) (nextCalls : Nat) :
    List V × WellDefinedPrefixTree V :=
  if nextCalls = 0 then ([], t)
  else
    match deleteSubtreeLoop key t.root with
    | none => ([], t)
    | some (subtree, rest) =>
      let values := (bfsIterate subtree).filterMap Node.value
      let yielded := values.take nextCalls
      let root :=
        if key = [] then if values.length < nextCalls then Node.new else t.root
        else rest.getD Node.new
      (yielded, ⟨root, t.size - yielded.length⟩)

def find (t : WellDefinedPrefixTree V) (key : List String) : Option V := (t.root.nodeAt key).bind Node.value

def hasKeyOrParentLoop : (key : List String) → Node V → Bool
  | [], _ => false
  | segment :: key, node =>
    match node.child segment with
    | none => false
    | some next => if next.value.isSome then true else hasKeyOrParentLoop key next

def hasKeyOrParent (t : WellDefinedPrefixTree V) (key : List String) : Bool := hasKeyOrParentLoop key t.root

def hasKeyOrChildren (t : WellDefinedPrefixTree V) (key : List String) : Bool := (t.root.nodeAt key).isSome

def hasKey (t : WellDefinedPrefixTree V) (key : List String) : Bool :=
  (t.root.nodeAt key).any fun node => node.value.isSome

def values (t : WellDefinedPrefixTree V) : List V := (bfsIterate t.root).filterMap Node.value

end WellDefinedPrefixTree

end Gavea.PrefixTree
