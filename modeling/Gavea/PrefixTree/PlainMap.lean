import Gavea.PrefixTree.WellDefinedPrefixTree

namespace Gavea.PrefixTree

open Gavea.Lib

variable {V : Type}

namespace Node

variable {node c : Node V} {part : String} {key p : List String}

theorem ind {motive : Node V → Prop}
    (h : ∀ node, (∀ entry ∈ node.children, motive entry.2) → motive node) (node : Node V) :
    motive node := by
  induction hn : node.count using Nat.strong_induction_on generalizing node with
  | _ n ih =>
    refine h node fun entry hentry => ih entry.2.count ?_ entry.2 rfl
    have hle := List.single_le_sum (l := node.children.map fun entry => entry.2.count)
      (fun _ _ => Nat.zero_le _) _ (List.mem_map_of_mem hentry)
    rw [← hn, node.count_eq]
    exact Nat.lt_succ_of_le hle

@[simp] theorem value_setValue (node : Node V) (v : Option V) : (node.setValue v).value = v := rfl

@[simp] theorem children_setValue (node : Node V) (v : Option V) : (node.setValue v).children = node.children := rfl

@[simp] theorem child_setValue (node : Node V) (v : Option V) (part : String) :
    (node.setValue v).child part = node.child part := rfl

@[simp] theorem value_setChild (node : Node V) (part : String) (c : Node V) :
    (node.setChild part c).value = node.value := rfl

@[simp] theorem value_deleteChild (node : Node V) (part : String) : (node.deleteChild part).value = node.value := rfl

theorem find?_setFirst (x : String × Node V) (l : List (String × Node V)) (other : String) :
    (setFirst (fun entry => entry.1 == x.1) x l).find? (fun entry => entry.1 == other) =
      if other = x.1 then some x else l.find? fun entry => entry.1 == other := by
  induction l with
  | nil =>
    by_cases h : other = x.1
    · simp [setFirst, h]
    · simp [setFirst, h, Ne.symm h]
  | cons y l ih =>
    rw [setFirst]
    by_cases hy : y.1 = x.1
    · rw [if_pos (beq_iff_eq.mpr hy)]
      by_cases h : other = x.1
      · simp [h]
      · rw [if_neg h, List.find?_cons_of_neg (by simpa using Ne.symm h),
          List.find?_cons_of_neg (by rw [hy]; simpa using Ne.symm h)]
    · rw [if_neg (by simpa using hy)]
      by_cases hother : y.1 = other
      · have hne : other ≠ x.1 := fun heq => hy (hother.trans heq)
        rw [if_neg hne, List.find?_cons_of_pos (by simpa using hother), List.find?_cons_of_pos (by simpa using hother)]
      · rw [List.find?_cons_of_neg (by simpa using hother), List.find?_cons_of_neg (by simpa using hother), ih]

@[simp] theorem child_setChild (node : Node V) (part : String) (c : Node V) (other : String) :
    (node.setChild part c).child other = if other = part then some c else node.child other := by
  rw [child, setChild, children, find?_setFirst (part, c)]
  split_ifs <;> rfl

@[simp] theorem child_deleteChild (node : Node V) (part other : String) :
    (node.deleteChild part).child other = if other = part then none else node.child other := by
  rw [child, deleteChild, children, child, List.find?_filter]
  split_ifs with h
  · rw [List.find?_eq_none.mpr]
    · rfl
    · intro entry _
      simp only [h, bne_iff_ne, beq_iff_eq, decide_eq_true_eq]
      exact fun heq => heq.1 heq.2
  · congr 2
    funext entry
    rw [Bool.eq_iff_iff]
    simp only [decide_eq_true_eq, bne_iff_ne, beq_iff_eq]
    exact ⟨fun heq => heq.2, fun heq => ⟨fun hpart => h (heq ▸ hpart), heq⟩⟩

def valueAt (node : Node V) (key : List String) : Option V := (node.nodeAt key).bind value

theorem valueAt_nil (node : Node V) : node.valueAt [] = node.value := rfl

theorem valueAt_cons (node : Node V) (part : String) (key : List String) :
    node.valueAt (part :: key) = (node.child part).bind fun c => c.valueAt key := by
  rw [valueAt, nodeAt, Option.bind_assoc]
  rfl

theorem valueAt_new (key : List String) : (new : Node V).valueAt key = none := by
  cases key <;> rfl

theorem valueAt_of_isBare (h : node.isBare) (key : List String) : node.valueAt key = none := by
  obtain ⟨v, cs⟩ := node
  simp only [isBare, children, value, Bool.and_eq_true, List.isEmpty_iff, Option.isNone_iff_eq_none] at h
  obtain ⟨rfl, rfl⟩ := h
  exact valueAt_new key

def WellFormed (node : Node V) : Prop :=
  ∀ key n, node.nodeAt key = some n → (n.children.map Prod.fst).Nodup ∧
    ∀ part c, n.child part = some c → c.isBare = false

theorem wellFormed_iff : node.WellFormed ↔ (node.children.map Prod.fst).Nodup ∧
    ∀ part c, node.child part = some c → c.isBare = false ∧ c.WellFormed := by
  constructor
  · intro h
    obtain ⟨hnodup, hbare⟩ := h [] node rfl
    refine ⟨hnodup, fun part c hc => ⟨hbare part c hc, fun key n hn => h (part :: key) n ?_⟩⟩
    rw [nodeAt, hc]
    exact hn
  · rintro ⟨hnodup, hchildren⟩ key n hn
    cases key with
    | nil =>
      obtain rfl := Option.some.inj hn
      exact ⟨hnodup, fun part c hc => (hchildren part c hc).1⟩
    | cons part key =>
      rw [nodeAt, Option.bind_eq_some_iff] at hn
      obtain ⟨c, hc, hn⟩ := hn
      exact (hchildren part c hc).2 key n hn

theorem child_eq_some_iff (h : node.WellFormed) :
    node.child part = some c ↔ (part, c) ∈ node.children :=
  find?_key_eq_some_iff (wellFormed_iff.mp h).1

theorem wellFormed_new : (new : Node V).WellFormed := wellFormed_iff.mpr ⟨List.nodup_nil, fun _ _ h => (nomatch h)⟩

theorem WellFormed.setValue (h : node.WellFormed) (v : Option V) :
    (node.setValue v).WellFormed := by
  rw [wellFormed_iff] at h ⊢
  exact h

theorem keys_setFirst (part : String) (c : Node V) (l : List (String × Node V)) :
    (setFirst (fun entry => entry.1 == part) (part, c) l).map Prod.fst =
      if part ∈ l.map Prod.fst then l.map Prod.fst else l.map Prod.fst ++ [part] := by
  induction l with
  | nil => simp [setFirst]
  | cons y l ih =>
    rw [setFirst]
    by_cases hy : y.1 = part
    · simp [hy]
    · rw [if_neg (by simpa using hy), List.map_cons, ih, List.map_cons]
      by_cases hmem : part ∈ l.map Prod.fst
      · rw [if_pos hmem, if_pos (List.mem_cons_of_mem _ hmem)]
      · have hnot : part ∉ y.1 :: l.map Prod.fst := by
          rw [List.mem_cons, not_or]
          exact ⟨fun heq => hy heq.symm, hmem⟩
        rw [if_neg hmem, if_neg hnot]
        rfl

theorem WellFormed.setChild (h : node.WellFormed) (hc : c.WellFormed) (hbare : c.isBare = false)
    (part : String) : (node.setChild part c).WellFormed := by
  rw [wellFormed_iff] at h ⊢
  refine ⟨?_, fun other next hnext => ?_⟩
  · rw [Node.setChild, children, keys_setFirst]
    split_ifs with hmem
    · exact h.1
    · rw [List.nodup_append]
      refine ⟨h.1, List.nodup_singleton _, fun x hx y hy => ?_⟩
      rw [List.mem_singleton] at hy
      rintro rfl
      exact hmem (hy ▸ hx)
  · rw [child_setChild] at hnext
    split_ifs at hnext with heq
    · obtain rfl := Option.some.inj hnext
      exact ⟨hbare, hc⟩
    · exact h.2 other next hnext

theorem WellFormed.deleteChild (h : node.WellFormed) (part : String) :
    (node.deleteChild part).WellFormed := by
  rw [wellFormed_iff] at h ⊢
  refine ⟨?_, fun other next hnext => ?_⟩
  · have hsub : ((node.children.filter fun entry => entry.1 != part).map Prod.fst).Sublist
        (node.children.map Prod.fst) := (List.filter_sublist).map _
    exact hsub.nodup h.1
  · rw [child_deleteChild] at hnext
    split_ifs at hnext
    exact h.2 other next hnext

theorem WellFormed.child (h : node.WellFormed) (hc : node.child part = some c) :
    c.isBare = false ∧ c.WellFormed :=
  (wellFormed_iff.mp h).2 part c hc

theorem WellFormed.nodeAt (h : node.WellFormed) {n : Node V} (hn : node.nodeAt key = some n) :
    n.WellFormed ∧ (key ≠ [] → n.isBare = false) := by
  induction key generalizing node with
  | nil =>
    obtain rfl := Option.some.inj hn
    exact ⟨h, fun hne => absurd rfl hne⟩
  | cons part key ih =>
    rw [Node.nodeAt, Option.bind_eq_some_iff] at hn
    obtain ⟨c, hc, hn⟩ := hn
    obtain ⟨hbare, hwf⟩ := h.child hc
    refine ⟨(ih hwf hn).1, fun _ => ?_⟩
    cases key with
    | nil =>
      obtain rfl := Option.some.inj hn
      exact hbare
    | cons => exact (ih hwf hn).2 (List.cons_ne_nil _ _)

def entries : Node V → List (List String × V)
  | ⟨value, children⟩ => value.toList.map (fun v => ([], v)) ++
      children.attach.flatMap fun entry => (entries entry.1.2).map fun stored => (entry.1.1 :: stored.1, stored.2)
  decreasing_by
    have hlt := List.sizeOf_lt_of_mem entry.2
    have hpair : sizeOf entry.1 = 1 + sizeOf entry.1.1 + sizeOf entry.1.2 := rfl
    simp only [mk.sizeOf_spec]
    omega

theorem entries_eq (node : Node V) : node.entries = node.value.toList.map (fun v => ([], v)) ++
    node.children.flatMap fun entry =>
      entry.2.entries.map fun stored => (entry.1 :: stored.1, stored.2) := by
  obtain ⟨value, children⟩ := node
  rw [entries, Node.children, Node.value]
  conv_rhs => rw [← List.attach_map_subtype_val children, List.flatMap_map]

theorem mem_entries (h : node.WellFormed) {v : V} :
    (p, v) ∈ node.entries ↔ node.valueAt p = some v := by
  induction p generalizing node with
  | nil =>
    rw [entries_eq, valueAt_nil, List.mem_append]
    constructor
    · rintro (hmem | hmem)
      · obtain ⟨w, hw, heq⟩ := List.mem_map.mp hmem
        obtain rfl := (Prod.mk.inj heq).2
        exact Option.mem_toList.mp hw
      · obtain ⟨entry, -, hmem⟩ := List.mem_flatMap.mp hmem
        obtain ⟨stored, -, heq⟩ := List.mem_map.mp hmem
        cases (Prod.mk.inj heq).1
    · intro hv
      exact .inl (List.mem_map.mpr ⟨v, Option.mem_toList.mpr hv, rfl⟩)
  | cons part p ih =>
    rw [entries_eq, valueAt_cons, Option.bind_eq_some_iff, List.mem_append]
    constructor
    · rintro (hmem | hmem)
      · obtain ⟨w, -, heq⟩ := List.mem_map.mp hmem
        cases (Prod.mk.inj heq).1
      · obtain ⟨⟨key, c⟩, hc, hmem⟩ := List.mem_flatMap.mp hmem
        obtain ⟨⟨q, w⟩, hstored, heq⟩ := List.mem_map.mp hmem
        obtain ⟨hpath, rfl⟩ := Prod.mk.inj heq
        obtain ⟨rfl, rfl⟩ := List.cons.inj hpath
        have hchild := (child_eq_some_iff h).mpr hc
        exact ⟨c, hchild, (ih (h.child hchild).2).mp hstored⟩
    · rintro ⟨c, hc, hv⟩
      exact .inr (List.mem_flatMap.mpr ⟨(part, c), (child_eq_some_iff h).mp hc,
        List.mem_map.mpr ⟨(p, v), (ih (h.child hc).2).mpr hv, rfl⟩⟩)

theorem nodup_entries (h : node.WellFormed) : (node.entries.map Prod.fst).Nodup := by
  induction node using ind with
  | h node ih =>
    have hkeys := (wellFormed_iff.mp h).1
    rw [entries_eq, List.map_append, List.map_flatMap, List.nodup_append]
    refine ⟨?_, ?_, ?_⟩
    · cases node.value <;> simp
    · rw [List.nodup_flatMap]
      refine ⟨fun entry hentry => ?_, ?_⟩
      · have hchild : node.child entry.1 = some entry.2 := (child_eq_some_iff h).mpr hentry
        have hnodup := ih entry hentry (h.child hchild).2
        rw [List.map_map]
        have hcomp :
            (Prod.fst ∘ fun stored : List String × V => (entry.1 :: stored.1, stored.2)) =
            (entry.1 :: ·) ∘ Prod.fst := rfl
        rw [hcomp, ← List.map_map]
        exact hnodup.map (List.cons_injective)
      · refine (List.pairwise_map.mp hkeys).imp fun {a b} hne => ?_
        rw [Function.onFun, List.disjoint_left]
        intro q ha hb
        simp only [List.mem_map] at ha hb
        obtain ⟨_, ⟨x, -, rfl⟩, rfl⟩ := ha
        obtain ⟨_, ⟨y, -, rfl⟩, heq⟩ := hb
        exact hne (List.cons.inj heq).1.symm
    · intro a ha b hb
      simp only [List.mem_map, List.mem_flatMap] at ha hb
      obtain ⟨_, ⟨v, -, rfl⟩, rfl⟩ := ha
      obtain ⟨entry, -, _, ⟨x, -, rfl⟩, rfl⟩ := hb
      exact List.cons_ne_nil _ _ ∘ Eq.symm

theorem exists_valueAt (h : node.WellFormed) (hbare : node.isBare = false) :
    ∃ p, (node.valueAt p).isSome := by
  induction node using ind with
  | h node ih =>
    cases hv : node.value with
    | some v => exact ⟨[], by rw [valueAt_nil, hv]; rfl⟩
    | none =>
      obtain ⟨entry, hentry⟩ : ∃ entry, entry ∈ node.children := by
        rw [isBare, hv, Option.isNone_none, Bool.and_true] at hbare
        exact List.exists_mem_of_ne_nil _ (by simpa using hbare)
      have hchild : node.child entry.1 = some entry.2 := (child_eq_some_iff h).mpr hentry
      obtain ⟨hbare', hwf⟩ := h.child hchild
      obtain ⟨p, hp⟩ := ih entry hentry hwf hbare'
      refine ⟨entry.1 :: p, ?_⟩
      rw [valueAt_cons, hchild]
      exact hp

theorem nodeAt_append (node : Node V) (key p : List String) :
    node.nodeAt (key ++ p) = (node.nodeAt key).bind fun n => n.nodeAt p := by
  induction key generalizing node with
  | nil => rfl
  | cons part key ih =>
    rw [List.cons_append, nodeAt, nodeAt, Option.bind_assoc]
    simp only [ih]

def countValue (v : Option V) : Int := if v.isNone then 0 else 1

theorem length_entries (node : Node V) : (node.entries.length : Int) =
    countValue node.value +
      (node.children.map fun entry => (entry.2.entries.length : Int)).sum := by
  rw [entries_eq, List.length_append, List.length_map, List.length_flatMap]
  simp only [List.length_map]
  push_cast
  rw [List.map_map]
  cases node.value <;> rfl

theorem length_entries_new : ((new : Node V).entries.length : Int) = 0 := by
  rw [length_entries]
  rfl

theorem length_entries_of_isBare (h : node.isBare) : (node.entries.length : Int) = 0 := by
  obtain ⟨v, cs⟩ := node
  simp only [isBare, children, value, Bool.and_eq_true, List.isEmpty_iff, Option.isNone_iff_eq_none] at h
  obtain ⟨rfl, rfl⟩ := h
  exact length_entries_new

theorem length_entries_setValue (node : Node V) (v : Option V) :
    ((node.setValue v).entries.length : Int) =
      node.entries.length - countValue node.value + countValue v := by
  rw [length_entries, length_entries node, value_setValue, children_setValue]
  ring

def childLength (c : Option (Node V)) : Int := c.elim 0 fun c => c.entries.length

theorem length_entries_setChild (node : Node V) (part : String) (c : Node V) :
    ((node.setChild part c).entries.length : Int) =
      node.entries.length - childLength (node.child part) + c.entries.length := by
  have hsum (l : List (String × Node V)) : ((setFirst (fun entry => entry.1 == part) (part, c)
      l).map fun entry => (entry.2.entries.length : Int)).sum =
      (l.map fun entry => (entry.2.entries.length : Int)).sum -
        childLength ((l.find? fun entry => entry.1 == part).map Prod.snd) + c.entries.length := by
    induction l with
    | nil => simp [setFirst, childLength]
    | cons y l ih =>
      rw [setFirst]
      by_cases hy : y.1 = part
      · rw [if_pos (beq_iff_eq.mpr hy), List.find?_cons_of_pos (by simpa using hy)]
        simp [childLength]
        ring
      · rw [if_neg (by simpa using hy), List.find?_cons_of_neg (by simpa using hy), List.map_cons,
          List.sum_cons, List.map_cons, List.sum_cons, ih]
        ring
  rw [length_entries, length_entries node, value_setChild, setChild, children, hsum]
  rw [Node.child]
  ring

theorem length_entries_deleteChild (h : node.WellFormed) (hc : node.child part = some c) :
    ((node.deleteChild part).entries.length : Int) =
      node.entries.length - c.entries.length := by
  have hperm := perm_cons_filter_key (wellFormed_iff.mp h).1 ((child_eq_some_iff h).mp hc)
  have hsum := (hperm.map fun entry => (entry.2.entries.length : Int)).sum_eq
  rw [List.map_cons, List.sum_cons] at hsum
  rw [length_entries, length_entries node, value_deleteChild, hsum, deleteChild, children]
  ring

end Node

section Operations

open Node

variable {node : Node V} {key p : List String} {fn : Option V → Option V}
  {onDescend : Nat → Option V → Option V}

theorem opNodeLoop_nil (depth : Nat) (node : Node V) : opNodeLoop fn onDescend [] depth node =
    (node.setValue (fn node.value), countValue (fn node.value) - countValue node.value) := rfl

theorem valueAt_opNodeLoop (key : List String) (depth : Nat) (node : Node V) (p : List String) :
    (opNodeLoop fn onDescend key depth node).1.valueAt p =
      (if p = key then fn else id) (if p ≠ [] ∧ p <+: key then
        onDescend (depth + p.length - 1) (node.valueAt p) else node.valueAt p) := by
  induction key generalizing depth node p with
  | nil =>
    rw [opNodeLoop]
    cases p with
    | nil => simp [valueAt_nil]
    | cons part p => simp [valueAt_cons]
  | cons part key ih =>
    rw [opNodeLoop]
    cases p with
    | nil => simp [valueAt_nil]
    | cons other p =>
      simp only
      rw [valueAt_cons, child_setChild]
      by_cases hother : other = part
      · have hnext : (((node.child part).getD Node.new).setValue
            (onDescend depth ((node.child part).getD Node.new).value)).valueAt p =
            if p = [] then onDescend depth (node.valueAt [part]) else
              node.valueAt (part :: p) := by
          cases p with
          | nil =>
            rw [valueAt_nil, value_setValue, valueAt_cons, if_pos rfl]
            cases node.child part <;> rfl
          | cons q p =>
            rw [valueAt_cons, child_setValue, if_neg (List.cons_ne_nil q p), valueAt_cons]
            cases node.child part with
            | none => rfl
            | some c => exact (valueAt_cons c q p).symm
        rw [if_pos hother, Option.bind_some, ih, hnext, hother]
        have hdepth : depth + 1 + p.length - 1 = depth + (part :: p).length - 1 := by
          rw [List.length_cons]
          omega
        rw [hdepth]
        cases p with
        | nil => simp
        | cons q p => simp [List.cons_prefix_cons]
      · have hne : ¬other :: p = part :: key := fun heq => hother (List.cons.inj heq).1
        have hnot : ¬(other :: p ≠ [] ∧ other :: p <+: part :: key) := fun h => hother (List.cons_prefix_cons.mp h.2).1
        rw [if_neg hother, if_neg hne, if_neg hnot, ← valueAt_cons]
        rfl

/-- By how much the number of values changes on the way to a key when a callback sets them. -/
def pathDelta (onDescend : Nat → Option V → Option V) : (key : List String) → (depth : Nat) →
    Node V → Int
  | [], _, _ => 0
  | part :: key, depth, node =>
    let next := (node.child part).getD Node.new
    countValue (onDescend depth next.value) - countValue next.value + pathDelta onDescend key (depth + 1) next

theorem pathDelta_setValue (key : List String) (depth : Nat) (node : Node V) (v : Option V) :
    pathDelta onDescend key depth (node.setValue v) = pathDelta onDescend key depth node := by
  cases key <;> rfl

theorem pathDelta_id (key : List String) (depth : Nat) (node : Node V) :
    pathDelta (fun _ value => value) key depth node = 0 := by
  induction key generalizing depth node with
  | nil => rfl
  | cons part key ih => rw [pathDelta, ih, sub_self, add_zero]

theorem length_opNodeLoop (key : List String) (depth : Nat) (node : Node V) :
    ((opNodeLoop fn onDescend key depth node).1.entries.length : Int) = node.entries.length +
      (opNodeLoop fn onDescend key depth node).2 + pathDelta onDescend key depth node := by
  induction key generalizing depth node with
  | nil =>
    rw [opNodeLoop_nil, pathDelta, length_entries_setValue]
    ring
  | cons part key ih =>
    rw [opNodeLoop, pathDelta]
    simp only
    rw [length_entries_setChild, ih, length_entries_setValue, pathDelta_setValue]
    have hold : (((node.child part).getD Node.new).entries.length : Int) =
        childLength (node.child part) := by
      cases node.child part with
      | none => exact length_entries_new
      | some c => rfl
    rw [hold]
    ring

def endHolds (fn : Option V → Option V) (onDescend : Nat → Option V → Option V) :
    (key : List String) → (depth : Nat) → Node V → Bool
  | [], _, node => !(node.setValue (fn node.value)).isBare
  | part :: key, depth, node =>
    let next := (node.child part).getD Node.new
    endHolds fn onDescend key (depth + 1) (next.setValue (onDescend depth next.value))

theorem isBare_setChild (node : Node V) (part : String) (c : Node V) :
    (node.setChild part c).isBare = false := by
  have hne : setFirst (fun entry => entry.1 == part) (part, c) node.children ≠ [] := by
    cases node.children with
    | nil => exact List.cons_ne_nil _ _
    | cons y l =>
      rw [setFirst]
      split_ifs <;> exact List.cons_ne_nil _ _
  rw [isBare, setChild, children, List.isEmpty_eq_false_iff.mpr hne, Bool.false_and]

theorem wellFormed_opNodeLoop (key : List String) (depth : Nat) {node : Node V}
    (h : node.WellFormed) (hend : endHolds fn onDescend key depth node) :
    (opNodeLoop fn onDescend key depth node).1.WellFormed ∧
      (opNodeLoop fn onDescend key depth node).1.isBare = false := by
  induction key generalizing depth node with
  | nil =>
    rw [opNodeLoop]
    exact ⟨h.setValue _, by simpa [endHolds] using hend⟩
  | cons part key ih =>
    rw [opNodeLoop]
    have hnext : ((node.child part).getD Node.new).WellFormed := by
      cases hc : node.child part with
      | none => exact wellFormed_new
      | some c => exact (h.child hc).2
    obtain ⟨hwf, hbare⟩ := ih (depth + 1) (hnext.setValue _) hend
    exact ⟨h.setChild hwf hbare part, isBare_setChild _ _ _⟩

theorem endHolds_of_some (hsome : ∀ v, (fn v).isSome) (key : List String) (depth : Nat)
    (node : Node V) : endHolds fn onDescend key depth node := by
  induction key generalizing depth node with
  | nil =>
    rw [endHolds, isBare, value_setValue, ← Option.not_isSome, hsome]
    simp
  | cons part key ih => exact ih _ _

theorem deleteLoop_spec (key : List String) {node : Node V} (h : node.WellFormed) :
    (node.valueAt key = none → deleteLoop key node = none) ∧
    ∀ v, node.valueAt key = some v → ∃ node', deleteLoop key node = some (v, node') ∧
      node'.WellFormed ∧ (node'.entries.length : Int) = node.entries.length - 1 ∧
      ∀ p, node'.valueAt p = if p = key then none else node.valueAt p := by
  induction key generalizing node with
  | nil =>
    refine ⟨fun hnone => ?_,
      fun v hv => ⟨node.setValue none, ?_, h.setValue none, ?_, fun p => ?_⟩⟩
    · rw [valueAt_nil] at hnone
      rw [deleteLoop, hnone]
      rfl
    · rw [valueAt_nil] at hv
      rw [deleteLoop, hv]
      rfl
    · rw [valueAt_nil] at hv
      rw [length_entries_setValue, hv]
      simp [countValue]
    · cases p with
      | nil => rfl
      | cons part p => rw [valueAt_cons, valueAt_cons, if_neg (List.cons_ne_nil part p)]; rfl
  | cons part key ih =>
    rw [valueAt_cons]
    cases hc : node.child part with
    | none =>
      refine ⟨fun _ => ?_, fun v hv => absurd hv (by simp)⟩
      rw [deleteLoop, hc]
      rfl
    | some c =>
      obtain ⟨hnone, hsome⟩ := ih (h.child hc).2
      refine ⟨fun hv => ?_, fun v hv => ?_⟩
      · rw [deleteLoop, hc, Option.bind_eq_bind, Option.bind_some, hnone hv]
        rfl
      · obtain ⟨c', hdelete, hwf, hlength, hvalue⟩ := hsome v hv
        rw [deleteLoop, hc, Option.bind_eq_bind, Option.bind_some, hdelete]
        simp only [Option.bind_eq_bind, Option.bind_some, Option.pure_def]
        cases hbare : c'.isBare with
        | true =>
          refine ⟨_, rfl, h.deleteChild part, ?_, fun p => ?_⟩
          · have hzero := length_entries_of_isBare hbare
            rw [if_pos rfl, length_entries_deleteChild h hc]
            omega
          · rw [if_pos rfl]
            cases p with
            | nil => rfl
            | cons other p =>
              rw [valueAt_cons, child_deleteChild, valueAt_cons]
              by_cases hother : other = part
              · have hp := hvalue p
                rw [valueAt_of_isBare hbare] at hp
                rw [if_pos hother, hother, hc]
                simpa using hp
              · have hne : ¬other :: p = part :: key := fun heq => hother (List.cons.inj heq).1
                rw [if_neg hother, if_neg hne]
        | false =>
          refine ⟨_, rfl, h.setChild hwf hbare part, ?_, fun p => ?_⟩
          · rw [if_neg (by simp), length_entries_setChild, hc, childLength]
            simp only [Option.elim_some]
            omega
          · rw [if_neg (by simp)]
            cases p with
            | nil => rfl
            | cons other p =>
              rw [valueAt_cons, child_setChild, valueAt_cons]
              by_cases hother : other = part
              · rw [if_pos hother, hother, hc, Option.bind_some, Option.bind_some, hvalue]
                simp
              · have hne : ¬other :: p = part :: key := fun heq => hother (List.cons.inj heq).1
                rw [if_neg hother, if_neg hne]

theorem deleteSubtreeLoop_spec (key : List String) {node : Node V} (h : node.WellFormed) :
    (node.nodeAt key = none → deleteSubtreeLoop key node = none) ∧
    ∀ subtree, node.nodeAt key = some subtree → ∃ rest, deleteSubtreeLoop key node =
        some (subtree, rest) ∧ (∀ n, rest = some n → n.isBare = false) ∧
      (rest.getD Node.new).WellFormed ∧ ((rest.getD Node.new).entries.length : Int) =
        node.entries.length - subtree.entries.length ∧
      ∀ p, (rest.getD Node.new).valueAt p = if key <+: p then none else node.valueAt p := by
  induction key generalizing node with
  | nil =>
    refine ⟨fun hnone => (nomatch hnone),
      fun subtree hsubtree => ⟨none, ?_, ?_, wellFormed_new, ?_, ?_⟩⟩
    · rw [Node.nodeAt, Option.some.injEq] at hsubtree
      rw [deleteSubtreeLoop, hsubtree]
    · exact fun n hn => (nomatch hn)
    · rw [Node.nodeAt, Option.some.injEq] at hsubtree
      rw [Option.getD_none, length_entries_new, hsubtree, sub_self]
    · intro p
      rw [Option.getD_none, valueAt_new, if_pos (List.nil_prefix)]
  | cons part key ih =>
    rw [Node.nodeAt]
    cases hc : node.child part with
    | none =>
      refine ⟨fun _ => ?_, fun subtree hsubtree => (nomatch hsubtree)⟩
      rw [deleteSubtreeLoop, hc]
      rfl
    | some c =>
      obtain ⟨hnone, hsome⟩ := ih (h.child hc).2
      refine ⟨fun hv => ?_, fun subtree hsubtree => ?_⟩
      · rw [deleteSubtreeLoop, hc, Option.bind_eq_bind, Option.bind_some, hnone hv]
        rfl
      · obtain ⟨rest, hdelete, hbare, hwf, hlength, hvalue⟩ := hsome subtree hsubtree
        rw [deleteSubtreeLoop, hc, Option.bind_eq_bind, Option.bind_some, hdelete]
        simp only [Option.bind_eq_bind, Option.bind_some, Option.pure_def]
        -- the node without the subtree
        obtain ⟨node', hnode', hwf', hlength', hvalue'⟩ : ∃ node',
            node' = node.putChild part rest ∧ node'.WellFormed ∧
            (node'.entries.length : Int) = node.entries.length - subtree.entries.length ∧
            ∀ p, node'.valueAt p = if part :: key <+: p then none else node.valueAt p := by
          refine ⟨_, rfl, ?_⟩
          cases rest with
          | none =>
            simp only [Option.getD_none, valueAt_new, length_entries_new] at hlength hvalue
            rw [putChild]
            refine ⟨h.deleteChild part, ?_, fun p => ?_⟩
            · rw [length_entries_deleteChild h hc]
              omega
            · cases p with
              | nil => rfl
              | cons other p =>
                rw [valueAt_cons, child_deleteChild, valueAt_cons]
                by_cases hother : other = part
                · have hp := hvalue p
                  rw [if_pos hother, hother, hc]
                  simpa [List.cons_prefix_cons] using hp
                · have hnot : ¬part :: key <+: other :: p := fun hprefix =>
                    hother (List.cons_prefix_cons.mp hprefix).1.symm
                  rw [if_neg hother, if_neg hnot]
          | some next =>
            simp only [Option.getD_some] at hlength hvalue hwf
            rw [putChild]
            refine ⟨h.setChild hwf (hbare next rfl) part, ?_, fun p => ?_⟩
            · rw [length_entries_setChild, hc, childLength]
              simp only [Option.elim_some]
              omega
            · cases p with
              | nil => rfl
              | cons other p =>
                rw [valueAt_cons, child_setChild, valueAt_cons]
                by_cases hother : other = part
                · rw [if_pos hother, hother, hc, Option.bind_some, Option.bind_some, hvalue]
                  simp [List.cons_prefix_cons]
                · have hnot : ¬part :: key <+: other :: p := fun hprefix =>
                    hother (List.cons_prefix_cons.mp hprefix).1.symm
                  rw [if_neg hother, if_neg hnot]
        rw [← hnode']
        cases hempty : node'.isBare with
        | true =>
          refine ⟨none, rfl, fun n hn => (nomatch hn), wellFormed_new, ?_, fun p => ?_⟩
          · have hzero := length_entries_of_isBare hempty
            rw [Option.getD_none, length_entries_new]
            omega
          · rw [Option.getD_none, valueAt_new, ← hvalue', valueAt_of_isBare hempty]
        | false =>
          refine ⟨some node', rfl, fun n hn => ?_, hwf', hlength', hvalue'⟩
          rw [← Option.some.inj hn]
          exact hempty

theorem bfsLoop_perm (stack : List (Node V)) : List.Perm ((bfsLoop stack).filterMap Node.value)
    (stack.flatMap fun node => node.entries.map Prod.snd) := by
  induction stack using bfsLoop.induct with
  | case1 => rw [bfsLoop]; exact List.Perm.nil
  | case2 node stack ih =>
    have hvalues : node.entries.map Prod.snd = node.value.toList ++
        (node.children.map Prod.snd).flatMap fun c => c.entries.map Prod.snd := by
      rw [entries_eq, List.map_append, List.map_map, List.map_flatMap, List.flatMap_map]
      have hsnd (entry : String × Node V) : (entry.2.entries.map fun stored =>
          (entry.1 :: stored.1, stored.2)).map Prod.snd = entry.2.entries.map Prod.snd := by
        rw [List.map_map]
        rfl
      simp only [hsnd]
      cases node.value <;> rfl
    have hhead : (node :: bfsLoop ((node.children.map Prod.snd).reverse ++ stack)).filterMap
        Node.value = node.value.toList ++
          (bfsLoop ((node.children.map Prod.snd).reverse ++ stack)).filterMap Node.value := by
      rw [List.filterMap_cons]
      cases node.value <;> rfl
    rw [bfsLoop, hhead, List.flatMap_cons, hvalues, List.append_assoc]
    refine List.Perm.append_left _ (ih.trans ?_)
    rw [List.flatMap_append]
    exact List.Perm.append_right _ ((List.reverse_perm _).flatMap_right _)

theorem values_perm (node : Node V) :
    List.Perm ((bfsIterate node).filterMap Node.value) (node.entries.map Prod.snd) := by
  have h := bfsLoop_perm [node]
  rwa [List.flatMap_singleton] at h

theorem hasKeyOrParentLoop_iff (key : List String) (node : Node V) :
    WellDefinedPrefixTree.hasKeyOrParentLoop key node ↔
      ∃ p, p ≠ [] ∧ p <+: key ∧ (node.valueAt p).isSome := by
  induction key generalizing node with
  | nil =>
    rw [WellDefinedPrefixTree.hasKeyOrParentLoop]
    refine iff_of_false (by simp) ?_
    rintro ⟨p, hne, hprefix, -⟩
    exact hne (List.prefix_nil.mp hprefix)
  | cons part key ih =>
    rw [WellDefinedPrefixTree.hasKeyOrParentLoop]
    cases hc : node.child part with
    | none =>
      refine iff_of_false (by simp) ?_
      rintro ⟨p, hne, hprefix, hp⟩
      obtain ⟨other, p, rfl⟩ := List.exists_cons_of_ne_nil hne
      rw [valueAt_cons, (List.cons_prefix_cons.mp hprefix).1, hc] at hp
      cases hp
    | some next =>
      simp only
      by_cases hv : next.value.isSome
      · rw [if_pos hv]
        refine iff_of_true rfl ⟨[part], by simp, by simp [List.cons_prefix_cons], ?_⟩
        rw [valueAt_cons, hc]
        exact hv
      · rw [if_neg hv, ih]
        constructor
        · rintro ⟨p, hne, hprefix, hp⟩
          refine ⟨part :: p, List.cons_ne_nil _ _, List.cons_prefix_cons.mpr ⟨rfl, hprefix⟩, ?_⟩
          rw [valueAt_cons, hc]
          exact hp
        · rintro ⟨p, hne, hprefix, hp⟩
          obtain ⟨other, p, rfl⟩ := List.exists_cons_of_ne_nil hne
          obtain ⟨rfl, hrest⟩ := List.cons_prefix_cons.mp hprefix
          rw [valueAt_cons, hc] at hp
          cases p with
          | nil => exact absurd hp hv
          | cons q p => exact ⟨q :: p, List.cons_ne_nil _ _, hrest, hp⟩

end Operations

inductive Call (V : Type)
  | insert (key : List String) (value : V)
  | mutate (key : List String) (mutate : Option V → V)
  | mutatePath (key : List String) (mutate : Nat → Option V → Option V)
  | delete (key : List String)
  | deleteRecursive (key : List String) (nextCalls : Nat)

/-- The key is not empty, and the result of `deleteRecursive` is iterated at least once. -/
def Call.Allowed : Call V → Prop
  | .insert key _ | .mutate key _ | .mutatePath key _ | .delete key => key ≠ []
  | .deleteRecursive key nextCalls => key ≠ [] ∧ nextCalls ≠ 0

abbrev PlainMap (V : Type) := List String → Option V

namespace PlainMap

def perform (m : PlainMap V) : Call V → PlainMap V
  | .insert key value => fun p => if p = key then some value else m p
  | .mutate key mutate => fun p => if p = key then some (mutate (m p)) else m p
  | .mutatePath key mutate => fun p => if p ≠ [] ∧ p <+: key then mutate (p.length - 1) (m p) else m p
  | .delete key => fun p => if p = key then none else m p
  | .deleteRecursive key _ => fun p => if key <+: p then none else m p

end PlainMap

namespace WellDefinedPrefixTree

def perform (t : WellDefinedPrefixTree V) : Call V → WellDefinedPrefixTree V
  | .insert key value => t.insert key value
  | .mutate key mutate => t.mutate key mutate
  | .mutatePath key mutate => t.mutatePath key mutate
  | .delete key => (t.delete key).2
  | .deleteRecursive key nextCalls => (t.deleteRecursive key nextCalls).2

/-- When the size and the leaves come out right: callbacks on a path set as many values as they
clear and leave no leaf without a value, and the result of `deleteRecursive` is iterated over all
the values that are stored there. -/
def Fits (t : WellDefinedPrefixTree V) : Call V → Prop
  | .insert .. | .mutate .. | .delete _ => True
  | .mutatePath key mutate => pathDelta mutate key 0 t.root = 0 ∧ endHolds id mutate key 0 t.root = true
  | .deleteRecursive key nextCalls => ∀ subtree ∈ t.root.nodeAt key,
      ((bfsIterate subtree).filterMap Node.value).length ≤ nextCalls

def RunFits : WellDefinedPrefixTree V → List (Call V) → Prop
  | _, [] => True
  | t, call :: calls => t.Fits call ∧ RunFits (t.perform call) calls

structure Stores (t : WellDefinedPrefixTree V) (m : PlainMap V) : Prop where
  wellFormed : t.root.WellFormed
  valueAt : ∀ key, t.root.valueAt key = m key
  size : t.size = t.root.entries.length

variable {t : WellDefinedPrefixTree V} {m : PlainMap V}

theorem stores_new : Stores (new : WellDefinedPrefixTree V) fun _ => none :=
  ⟨Node.wellFormed_new, Node.valueAt_new, Node.length_entries_new.symm⟩

theorem Stores.opNode (h : Stores t m) (key : List String) {fn : Option V → Option V}
    {onDescend : Nat → Option V → Option V} (hdelta : pathDelta onDescend key 0 t.root = 0)
    (hend : endHolds fn onDescend key 0 t.root) : Stores (t.opNode key fn onDescend) fun p =>
      (if p = key then fn else id) (if p ≠ [] ∧ p <+: key then onDescend (p.length - 1) (m p)
        else m p) := by
  refine ⟨(wellFormed_opNodeLoop key 0 h.wellFormed hend).1, fun p => ?_, ?_⟩
  · have hvalue := @valueAt_opNodeLoop V fn onDescend key 0 t.root p
    rw [h.valueAt, Nat.zero_add] at hvalue
    exact hvalue
  · have hlength := @length_opNodeLoop V fn onDescend key 0 t.root
    rw [hdelta, add_zero, ← h.size] at hlength
    exact hlength.symm

theorem Stores.perform (h : Stores t m) {call : Call V} (hallowed : call.Allowed)
    (hfits : t.Fits call) : Stores (t.perform call) (m.perform call) := by
  cases call with
  | insert key value =>
    have hend : endHolds (fun _ => some value) (fun _ v => v) key 0 t.root :=
      endHolds_of_some (fun _ => rfl) key 0 t.root
    have hop := h.opNode key (pathDelta_id key 0 t.root) hend
    refine ⟨hop.wellFormed, fun p => (hop.valueAt p).trans ?_, hop.size⟩
    simp only [PlainMap.perform, ite_self]
    split_ifs <;> rfl
  | mutate key mutate =>
    have hend : endHolds (fun value => some (mutate value)) (fun _ v => v) key 0 t.root :=
      endHolds_of_some (fun _ => rfl) key 0 t.root
    have hop := h.opNode key (pathDelta_id key 0 t.root) hend
    refine ⟨hop.wellFormed, fun p => (hop.valueAt p).trans ?_, hop.size⟩
    simp only [PlainMap.perform, ite_self]
    split_ifs <;> rfl
  | mutatePath key mutate =>
    have hop := h.opNode key hfits.1 hfits.2
    refine ⟨hop.wellFormed, fun p => (hop.valueAt p).trans ?_, hop.size⟩
    simp only [PlainMap.perform, ite_self, id_eq]
  | delete key =>
    obtain ⟨hnone, hsome⟩ := deleteLoop_spec key h.wellFormed
    cases hv : t.root.valueAt key with
    | none =>
      have hperform : t.perform (.delete key) = t := by
        rw [WellDefinedPrefixTree.perform, delete, hnone hv]
      rw [hperform]
      refine ⟨h.wellFormed, fun p => (h.valueAt p).trans ?_, h.size⟩
      simp only [PlainMap.perform]
      split_ifs with heq
      · rw [heq, ← h.valueAt, hv]
      · rfl
    | some v =>
      obtain ⟨root, hdelete, hwf, hlength, hvalue⟩ := hsome v hv
      have hperform : t.perform (.delete key) = ⟨root, t.size - 1⟩ := by
        rw [WellDefinedPrefixTree.perform, delete, hdelete]
      rw [hperform]
      refine ⟨hwf, fun p => (hvalue p).trans ?_, ?_⟩
      · rw [h.valueAt]
        rfl
      · simp only
        rw [hlength, h.size]
  | deleteRecursive key nextCalls =>
    obtain ⟨hkey, hnext⟩ := hallowed
    obtain ⟨hnone, hsome⟩ := deleteSubtreeLoop_spec key h.wellFormed
    cases hn : t.root.nodeAt key with
    | none =>
      have hperform : t.perform (.deleteRecursive key nextCalls) = t := by
        rw [WellDefinedPrefixTree.perform, deleteRecursive, if_neg hnext, hnone hn]
      rw [hperform]
      refine ⟨h.wellFormed, fun p => (h.valueAt p).trans ?_, h.size⟩
      simp only [PlainMap.perform]
      split_ifs with hprefix
      · obtain ⟨q, rfl⟩ := hprefix
        rw [← h.valueAt, Node.valueAt, Node.nodeAt_append, hn]
        rfl
      · rfl
    | some subtree =>
      obtain ⟨rest, hdelete, -, hwf, hlength, hvalue⟩ := hsome subtree hn
      have hall := hfits subtree hn
      have hperm := (values_perm subtree).length_eq
      rw [List.length_map] at hperm
      have hperform : t.perform (.deleteRecursive key nextCalls) =
          ⟨rest.getD Node.new, t.size - subtree.entries.length⟩ := by
        rw [WellDefinedPrefixTree.perform, deleteRecursive, if_neg hnext, hdelete]
        simp only [if_neg hkey]
        rw [List.take_of_length_le hall, hperm]
      rw [hperform]
      refine ⟨hwf, fun p => (hvalue p).trans ?_, ?_⟩
      · rw [h.valueAt]
        rfl
      · simp only
        rw [hlength, h.size]

theorem stores_run (calls : List (Call V)) (h : Stores t m)
    (hallowed : ∀ call ∈ calls, call.Allowed) (hfits : t.RunFits calls) :
    Stores (calls.foldl WellDefinedPrefixTree.perform t) (calls.foldl PlainMap.perform m) := by
  induction calls generalizing t m with
  | nil => exact h
  | cons call calls ih =>
    exact ih (h.perform (hallowed call List.mem_cons_self) hfits.1)
      (fun c hc => hallowed c (List.mem_cons_of_mem call hc)) hfits.2

structure AnswersLike (t : WellDefinedPrefixTree V) (m : PlainMap V) : Prop where
  find : ∀ key, key ≠ [] → t.find key = m key
  hasKey : ∀ key, key ≠ [] → (t.hasKey key ↔ (m key).isSome)
  hasKeyOrParent : ∀ key, key ≠ [] → (t.hasKeyOrParent key ↔ ∃ p, p ≠ [] ∧ p <+: key ∧ (m p).isSome)
  hasKeyOrChildren : ∀ key, key ≠ [] → (t.hasKeyOrChildren key ↔ ∃ p, key <+: p ∧ (m p).isSome)
  entries : ∃ entries : List (List String × V), (∀ p v, (p, v) ∈ entries ↔ m p = some v) ∧
    (entries.map Prod.fst).Nodup ∧ List.Perm t.values (entries.map Prod.snd) ∧
    t.size = entries.length
  leaves : ∀ key n, key ≠ [] → t.root.nodeAt key = some n → n.children = [] → n.value.isSome

theorem Stores.answersLike (h : Stores t m) : AnswersLike t m := by
  refine ⟨fun key _ => h.valueAt key, fun key _ => ?_, fun key _ => ?_, fun key hkey => ?_, ⟨t.root.entries,
    fun p v => ?_, Node.nodup_entries h.wellFormed, values_perm t.root, h.size⟩, fun key n hkey hn hleaf => ?_⟩
  · rw [← h.valueAt, hasKey, Node.valueAt]
    cases t.root.nodeAt key <;> rfl
  · simp only [← h.valueAt]
    exact hasKeyOrParentLoop_iff key t.root
  · simp only [← h.valueAt]
    rw [hasKeyOrChildren]
    constructor
    · intro hsome
      obtain ⟨n, hn⟩ := Option.isSome_iff_exists.mp hsome
      obtain ⟨hwf, hbare⟩ := h.wellFormed.nodeAt hn
      obtain ⟨q, hq⟩ := Node.exists_valueAt hwf (hbare hkey)
      refine ⟨key ++ q, List.prefix_append key q, ?_⟩
      rw [Node.valueAt, Node.nodeAt_append, hn]
      exact hq
    · rintro ⟨p, ⟨q, rfl⟩, hp⟩
      rw [Node.valueAt, Node.nodeAt_append] at hp
      cases hn : t.root.nodeAt key with
      | none =>
        rw [hn] at hp
        cases hp
      | some n => rfl
  · rw [Node.mem_entries h.wellFormed, h.valueAt]
  · have hbare := (h.wellFormed.nodeAt hn).2 hkey
    rw [Node.isBare, hleaf, List.isEmpty_nil, Bool.true_and] at hbare
    simpa using hbare

/-- In every run whose calls all fit the tree is a map from keys to values. -/
theorem run_answersLike (calls : List (Call V)) (hallowed : ∀ call ∈ calls, call.Allowed)
    (hfits : (new : WellDefinedPrefixTree V).RunFits calls) :
    AnswersLike (calls.foldl WellDefinedPrefixTree.perform new) (calls.foldl PlainMap.perform fun _ => none) :=
  (stores_run calls stores_new hallowed hfits).answersLike

/-- Values are changed on a path, and a subtree of one value is deleted. -/
theorem run_answersLike_replaced : AnswersLike
    ([.insert ["a"] 1, .insert ["a", "b"] 2, .mutate ["a"] fun value => value.getD 0 + 1,
      .mutatePath ["a", "b"] fun _ value => value.map fun v => v + 1, .delete ["c"],
      .deleteRecursive ["a", "b"] 1].foldl WellDefinedPrefixTree.perform (new : WellDefinedPrefixTree Nat))
    ([.insert ["a"] 1, .insert ["a", "b"] 2, .mutate ["a"] fun value => value.getD 0 + 1,
      .mutatePath ["a", "b"] fun _ value => value.map fun v => v + 1, .delete ["c"],
      .deleteRecursive ["a", "b"] 1].foldl PlainMap.perform fun _ => none) := by
  refine run_answersLike _ ?_ ?_
  · simp [Call.Allowed]
  · simp only [RunFits, Fits]
    refine ⟨trivial, trivial, trivial, ⟨by decide, by decide⟩, trivial, fun subtree hsubtree => ?_, trivial⟩
    have heq : subtree = ⟨some 3, []⟩ := (Option.some.inj hsubtree).symm
    rw [heq, bfsIterate, bfsLoop, Node.children, List.map_nil, List.reverse_nil, List.nil_append, bfsLoop]
    exact le_rfl

/-- A callback sets the value of a new node: the entry is there and the size is none. -/
theorem not_run_answersLike : ¬∀ calls : List (Call Nat), (∀ call ∈ calls, call.Allowed) →
    AnswersLike (calls.foldl WellDefinedPrefixTree.perform new)
      (calls.foldl PlainMap.perform fun _ => none) := by
  intro h
  obtain ⟨-, -, -, -, ⟨entries, hmem, -, -, hsize⟩, -⟩ :=
    h [.mutatePath ["a"] fun _ _ => some 1] (by simp [Call.Allowed])
  have hentry : (["a"], 1) ∈ entries := (hmem ["a"] 1).mpr (by decide)
  have hnil : entries = [] := List.length_eq_zero_iff.mp (Int.natCast_eq_zero.mp hsize.symm)
  rw [hnil] at hentry
  cases hentry

end WellDefinedPrefixTree

end Gavea.PrefixTree
