import Gavea.MapCaches.Operations
import Gavea.Lib.Runs

namespace Gavea.MapCaches.LinkedMap

open Lib.DoublyLinked List

variable {K V : Type*} [DecidableEq K] {m : LinkedMap K V} {es : List (K × V)}
  {chain front back : List Ref}

def deleteKeys (m : LinkedMap K V) (l : List Ref) : LinkedMap K V := l.foldl deleteKeyOf m

theorem deleteKeyOf_eq (m : LinkedMap K V) (r : Ref) :
    ∃ map, m.deleteKeyOf r = { m with map := map } := by
  rw [deleteKeyOf]
  cases m.keyOf r with
  | none => exact ⟨m.map, rfl⟩
  | some k => exact ⟨_, rfl⟩

theorem deleteKeys_eq (m : LinkedMap K V) (l : List Ref) :
    ∃ map, m.deleteKeys l = { m with map := map } := by
  induction l generalizing m with
  | nil => exact ⟨m.map, rfl⟩
  | cons r l ih =>
    obtain ⟨map, hmap⟩ := deleteKeyOf_eq m r
    obtain ⟨map', hmap'⟩ := ih (m.deleteKeyOf r)
    refine ⟨map', ?_⟩
    rw [deleteKeys, foldl_cons, ← deleteKeys, hmap', hmap]

theorem map_deleteKeyOf (m : LinkedMap K V) (r : Ref) (k : K) (s : Ref) :
    (m.deleteKeyOf r).map k = some s ↔ m.map k = some s ∧ m.keyOf r ≠ some k := by
  rw [deleteKeyOf]
  cases hr : m.keyOf r with
  | none => simp
  | some k' =>
    dsimp only
    by_cases hkk : k = k'
    · subst hkk
      simp
    · rw [Function.update_of_ne hkk]
      simp [Ne.symm hkk]

theorem map_deleteKeys (m : LinkedMap K V) (l : List Ref) (k : K) (s : Ref) :
    (m.deleteKeys l).map k = some s ↔ m.map k = some s ∧ ∀ r ∈ l, m.keyOf r ≠ some k := by
  induction l generalizing m with
  | nil => simp [deleteKeys]
  | cons r l ih =>
    have hkeys : (m.deleteKeyOf r).keyOf = m.keyOf := by
      obtain ⟨map, hmap⟩ := deleteKeyOf_eq m r
      rw [hmap]
      rfl
    rw [deleteKeys, foldl_cons, ← deleteKeys, ih, map_deleteKeyOf, hkeys, forall_mem_cons, and_assoc]

theorem trimLoop_spec {along : LinkedMap K V → Ref → Option Ref}
    (halong : ∀ m r, along (deleteKeyOf m r) = along m) {start : Option Ref} {l : List Ref}
    (h : Walk (along m) start l) (n : Nat) (currentSize : Int) :
    trimLoop along n m start currentSize =
      (m.deleteKeys (l.take n), (l.drop n).head?, currentSize - (l.take n).length) := by
  induction n generalizing m start l currentSize with
  | zero =>
    have hstart : start = l.head? := by
      cases l with
      | nil => exact h
      | cons r l => exact h.1
    rw [trimLoop, hstart, take_zero, drop_zero, length_nil, Nat.cast_zero, sub_zero]
    · rfl
    · intros
      omega
  | succ n ih =>
    cases l with
    | nil =>
      rw [show start = none from h, trimLoop]
      · simp [deleteKeys]
      · intros
        simp_all
    | cons r l =>
      obtain ⟨rfl, hrest⟩ := h
      rw [← halong m r] at hrest
      rw [trimLoop, ← halong m r, ih hrest, take_succ_cons, drop_succ_cons, deleteKeys,
        deleteKeys, foldl_cons, length_cons]
      congr 2
      push_cast
      ring

theorem nextOf_deleteKeyOf (m : LinkedMap K V) (r : Ref) : nextOf (m.deleteKeyOf r) = m.nextOf := by
  obtain ⟨map, hmap⟩ := deleteKeyOf_eq m r
  rw [hmap]
  rfl

theorem previousOf_deleteKeyOf (m : LinkedMap K V) (r : Ref) :
    previousOf (m.deleteKeyOf r) = m.previousOf := by
  obtain ⟨map, hmap⟩ := deleteKeyOf_eq m r
  rw [hmap]
  rfl

theorem Chained.cutOff {m' : LinkedMap K V} {lost kept : List Ref} (h : Chained m chain)
    (hperm : chain.Perm (lost ++ kept)) (hlisted : Listed m' kept)
    (hrel : Relinked { m with map := (m.deleteKeys lost).map, size := kept.length } m') :
    Chained m' kept := by
  refine h.cut hlisted hperm hrel.keyOf hrel.size hrel.fresh fun k r => ?_
  have hmap : m'.map = (m.deleteKeys lost).map := hrel.map
  rw [hmap, map_deleteKeys]

theorem trimOld_spec_of_cut {b : Ref} (h : Chained m (front ++ b :: back)) (hfront : front ≠ []) :
    Holds (m.trimOld (b :: back).length) (m.entries (b :: back)) := by
  have hsize := h.size
  have hpos := length_pos_of_ne_nil hfront
  rw [length_append] at hsize
  have hcount : (m.size - ((b :: back).length : Nat)).toNat = front.length := by omega
  have hwalk : Walk (nextOf m) m.head (front ++ b :: back) := by
    rw [h.listed.head]
    exact h.listed.links.walk_next
  obtain ⟨map, hmap⟩ := deleteKeys_eq m front
  have heq : m.trimOld (b :: back).length =
      LinkedMap.setPrevious { m with map := map, head := some b, size := (b :: back).length } b none := by
    have hrest : m.size - (front.length : Int) = ((b :: back).length : Nat) := by omega
    rw [trimOld, if_neg (by omega), if_neg (by simp; omega),
      trimLoop_spec nextOf_deleteKeyOf hwalk, hcount, take_left, drop_left, hmap, hrest]
    rfl
  have hrel : Relinked { m with map := map, size := (b :: back).length }
      (m.trimOld (b :: back).length) := by
    rw [heq]
    exact ((Relinked.refl _).ends (some b) m.tail).trans (relinked_setPrevious _ b none)
  refine ⟨b :: back, h.cutOff (List.Perm.refl _) ?_ ?_, hrel.entries_eq _⟩
  · have hlinks := h.listed.links
    rw [segment_append] at hlinks
    have hb : m.Alive b := h.listed.alive b (by simp)
    have hnodup := (nodup_append.mp h.listed.nodup).2.1
    rw [heq]
    constructor
    case links =>
      refine hlinks.2.relink_first ?_ (fun s _ => ?_) fun s hs => ?_
      · exact previousOf_setPrevious_self _ b none hb
      · exact nextOf_setPrevious _ b none s
      · refine previousOf_setPrevious_ne _ b none fun hsame => ?_
        exact (nodup_cons.mp hnodup).1 (hsame ▸ hs)
    case head => rfl
    case tail =>
      refine h.listed.tail.trans ?_
      rw [getLast?_append_of_ne_nil _ (cons_ne_nil b back)]
    case nodup => exact hnodup
    case alive =>
      intro s hs
      exact (alive_setPrevious _ b none s).mpr (h.listed.alive s (mem_append_right _ hs))
  · rw [hmap]
    exact hrel

theorem trimNew_spec_of_cut {t : Ref} (h : Chained m (front ++ [t] ++ back)) (hback : back ≠ []) :
    Holds (m.trimNew (front ++ [t]).length) (m.entries (front ++ [t])) := by
  have hsize := h.size
  have hpos := length_pos_of_ne_nil hback
  rw [length_append] at hsize
  have hkept : (front ++ [t]).length ≠ 0 := by simp
  have hcount : (m.size - ((front ++ [t]).length : Nat)).toNat = back.reverse.length := by
    rw [length_reverse]
    omega
  have hwalk : Walk (previousOf m) m.tail (back.reverse ++ (front ++ [t]).reverse) := by
    rw [h.listed.tail, ← reverse_append]
    exact h.listed.links.walk_previous
  obtain ⟨map, hmap⟩ := deleteKeys_eq m back.reverse
  have heq : m.trimNew (front ++ [t]).length =
      LinkedMap.setNext { m with map := map, tail := some t, size := (front ++ [t]).length } t none := by
    have hrest : m.size - (back.reverse.length : Int) = ((front ++ [t]).length : Nat) := by
      rw [length_reverse]
      omega
    rw [trimNew, if_neg (by omega), if_neg (by omega), trimLoop_spec previousOf_deleteKeyOf hwalk, hcount,
      take_left, drop_left, hmap, hrest, reverse_append, reverse_singleton]
    rfl
  have hrel : Relinked { m with map := map, size := (front ++ [t]).length }
      (m.trimNew (front ++ [t]).length) := by
    rw [heq]
    exact ((Relinked.refl _).ends m.head (some t)).trans (relinked_setNext _ t none)
  have hperm : (front ++ [t] ++ back).Perm (back.reverse ++ (front ++ [t])) :=
    perm_append_comm.trans (List.Perm.append_right _ (reverse_perm back).symm)
  refine ⟨front ++ [t], h.cutOff hperm ?_ ?_, hrel.entries_eq _⟩
  · have hlinks := h.listed.links
    rw [segment_append] at hlinks
    have ht : m.Alive t := h.listed.alive t (by simp)
    have hnodup := (nodup_append.mp h.listed.nodup).1
    rw [heq]
    constructor
    case links =>
      refine hlinks.1.relink_last ?_ (fun s hs => ?_) fun s _ => ?_
      · exact nextOf_setNext_self _ t none ht
      · refine nextOf_setNext_ne _ t none fun hsame => ?_
        exact (nodup_append.mp hnodup).2.2 s hs t (mem_singleton_self t) hsame
      · exact previousOf_setNext _ t none s
    case head =>
      refine h.listed.head.trans ?_
      rw [head?_append_of_ne_nil _ (by simp)]
    case tail => exact getLast?_concat.symm
    case nodup => exact hnodup
    case alive =>
      intro s hs
      exact (alive_setNext _ t none s).mpr (h.listed.alive s (mem_append_left _ hs))
  · rw [hmap]
    exact hrel

omit [DecidableEq K] in
theorem Chained.entries_split (h : Chained m chain) (n : Nat) :
    m.entries (chain.take n) = (m.entries chain).take n ∧
      m.entries (chain.drop n) = (m.entries chain).drop n := by
  have htaken : (m.entries (chain.take n)).length = (chain.take n).length :=
    length_entries_of_alive fun r hr => h.listed.alive r (mem_of_mem_take hr)
  have hall : m.entries chain = m.entries (chain.take n) ++ m.entries (chain.drop n) := by
    rw [← entries_append, take_append_drop]
  have hlength := h.length_entries
  rw [length_take] at htaken
  rcases Nat.le_total n chain.length with hn | hn
  · rw [Nat.min_eq_left hn] at htaken
    rw [hall, take_left' htaken, drop_left' htaken]
    exact ⟨rfl, rfl⟩
  · rw [take_of_length_le hn, drop_of_length_le hn, take_of_length_le (by omega), drop_of_length_le (by omega)]
    exact ⟨rfl, rfl⟩

theorem trimOld_spec (h : Holds m es) {newSize : Int} (hnew : 0 ≤ newSize) :
    Holds (m.trimOld newSize) (es.drop (es.length - newSize.toNat)) := by
  have hsize := h.size
  by_cases hge : newSize ≥ m.size
  · rw [trimOld, if_pos hge, show es.length - newSize.toNat = 0 by omega]
    exact h
  · by_cases hzero : newSize = 0
    · rw [trimOld, if_neg hge, if_pos hzero, hzero, Int.toNat_zero, Nat.sub_zero, drop_length]
      exact holds_clear
    · obtain ⟨chain, hchained, rfl⟩ := h
      have hlength := hchained.length_entries
      rw [← (hchained.entries_split _).2]
      have hdropped := @length_drop _ ((m.entries chain).length - newSize.toNat) chain
      have htaken := @length_take _ ((m.entries chain).length - newSize.toNat) chain
      have happend := take_append_drop ((m.entries chain).length - newSize.toNat) chain
      generalize chain.drop ((m.entries chain).length - newSize.toNat) = kept at *
      generalize chain.take ((m.entries chain).length - newSize.toNat) = lost at *
      subst happend
      cases kept with
      | nil =>
        rw [length_nil] at hdropped
        omega
      | cons b back =>
        have hfront : lost ≠ [] := by
          rintro rfl
          rw [length_nil] at htaken
          omega
        have hcut := trimOld_spec_of_cut hchained hfront
        rwa [show ((b :: back).length : Int) = newSize by omega] at hcut

theorem trimNew_spec (h : Holds m es) {newSize : Int} (hnew : 0 ≤ newSize) :
    Holds (m.trimNew newSize) (es.take newSize.toNat) := by
  have hsize := h.size
  by_cases hge : newSize ≥ m.size
  · rw [trimNew, if_pos hge, take_of_length_le (by omega)]
    exact h
  · by_cases hzero : newSize = 0
    · rw [trimNew, if_neg hge, if_pos hzero, hzero]
      exact holds_clear
    · obtain ⟨chain, hchained, rfl⟩ := h
      have hlength := hchained.length_entries
      rw [← (hchained.entries_split _).1]
      have hdropped := @length_drop _ newSize.toNat chain
      have htaken := @length_take _ newSize.toNat chain
      have happend := take_append_drop newSize.toNat chain
      generalize chain.drop newSize.toNat = lost at *
      generalize chain.take newSize.toNat = kept at *
      subst happend
      rcases eq_nil_or_concat kept with rfl | ⟨front, t, rfl⟩
      · rw [length_nil] at htaken
        omega
      · rw [concat_eq_append] at *
        have hback : lost ≠ [] := by
          rintro rfl
          rw [length_nil] at hdropped
          omega
        have hcut := trimNew_spec_of_cut hchained hback
        rwa [show ((front ++ [t]).length : Int) = newSize by omega] at hcut

theorem trimNew_spec_of_neg {r : Ref} (h : Chained m (r :: back)) {newSize : Int}
    (hnew : newSize < 0) :
    (m.trimNew newSize).head = some r ∧ (m.trimNew newSize).tail = none ∧
      ∀ k, (m.trimNew newSize).map k = none := by
  have hsize := h.size
  have hwalk : Walk (previousOf m) m.tail (r :: back).reverse := by
    rw [h.listed.tail]
    exact h.listed.links.walk_previous
  obtain ⟨map, hmap⟩ := deleteKeys_eq m (r :: back).reverse
  have hcount : (r :: back).reverse.length ≤ (m.size - newSize).toNat := by
    rw [length_reverse]
    omega
  rw [trimNew, if_neg (by omega), if_neg hnew.ne, trimLoop_spec previousOf_deleteKeyOf hwalk,
    take_of_length_le hcount, drop_of_length_le hcount]
  refine ⟨?_, rfl, fun k => ?_⟩
  · rw [hmap]
    exact h.listed.head
  · refine Option.eq_none_iff_forall_ne_some.mpr fun s hs => ?_
    obtain ⟨hs, hlost⟩ := (map_deleteKeys m (r :: back).reverse k s).mp hs
    obtain ⟨hmem, hkey⟩ := (h.map k s).mp hs
    exact hlost s (mem_reverse.mpr hmem) hkey

end Gavea.MapCaches.LinkedMap

namespace Gavea.MapCaches

variable {K V : Type*} [DecidableEq K]

inductive MapOp (K V : Type*)
  | set (key : K) (value : V) (touch : Touch)
  | get (key : K) (touch : Touch)
  | delete (key : K)
  | shift
  | clear

def LinkedMap.apply (m : LinkedMap K V) : MapOp K V → Except MapError (LinkedMap K V)
  | .set key value touch => m.set key value touch
  | .get key touch => (m.get key touch).map Prod.fst
  | .delete key => (m.remove key).map Prod.fst
  | .shift => m.shift.map Prod.fst
  | .clear => .ok m.clear

inductive Kind
  | lru
  | mru
deriving DecidableEq

structure Cache (K V : Type*) where
  kind : Kind
  map : LinkedMap K V
  limit : Int
  ratio : ℚ

inductive CacheOp (K V : Type*)
  | set (key : K) (value : V)
  | get (key : K) (touch : Touch)
  | peek (key : K)
  | delete (key : K)
  | shift
  | clear
  | setLimit (limit : Int)
  | setRatio (ratio : ℚ)

def mathRound (x : ℚ) : Int := ⌊x + 1 / 2⌋

def clampRatio (ratio : ℚ) : ℚ := min (max 0 ratio) 1

namespace Cache

def new (kind : Kind) (limit : Int) (ratio : ℚ) : Cache K V := ⟨kind, LinkedMap.new, limit, clampRatio ratio⟩

def size (c : Cache K V) : Int := c.map.size

def trim (c : Cache K V) (newSize : Int) : Cache K V :=
  match c.kind with
  | .lru => { c with map := c.map.trimOld newSize }
  | .mru => { c with map := c.map.trimNew newSize }

def checkTrim (c : Cache K V) : Cache K V := if c.size > c.limit then c.trim (mathRound (c.limit * c.ratio)) else c

def setLimit (c : Cache K V) (limit : Int) : Cache K V := checkTrim { c with limit := limit }

def setRatio (c : Cache K V) (ratio : ℚ) : Cache K V := checkTrim { c with ratio := clampRatio ratio }

def inherited {α : Type*} (c : Cache K V) (result : Except MapError (LinkedMap K V × α)) :
    Except MapError (Cache K V × α) :=
  result.map fun (m, value) => ({ c with map := m }, value)

def get (c : Cache K V) (key : K) (touch : Touch) : Except MapError (Cache K V × Option V) :=
  c.inherited (c.map.get key touch)

def peek (c : Cache K V) (key : K) : Except MapError (Cache K V × Option V) := c.inherited (c.map.get key .none)

def superSet (c : Cache K V) (key : K) (value : V) : Except MapError (Cache K V) :=
  (c.map.set key value .asNew).map fun m => { c with map := m }

def set (c : Cache K V) (key : K) (value : V) : Except MapError (Cache K V) :=
  match c.kind with
  | .lru => do
      let c ← c.superSet key value
      return c.checkTrim
  | .mru =>
    let c :=
      if c.limit ≤ c.size ∧ ¬c.map.has key then c.trim (mathRound (c.limit * c.ratio) - 1) else c
    c.superSet key value

def apply (c : Cache K V) : CacheOp K V → Except MapError (Cache K V)
  | .set key value => c.set key value
  | .get key touch => (c.get key touch).map Prod.fst
  | .peek key => (c.peek key).map Prod.fst
  | .delete key => (c.inherited (c.map.remove key)).map Prod.fst
  | .shift => (c.inherited c.map.shift).map Prod.fst
  | .clear => .ok { c with map := c.map.clear }
  | .setLimit limit => .ok (c.setLimit limit)
  | .setRatio ratio => .ok (c.setRatio ratio)

theorem set_lru {c : Cache K V} (h : c.kind = .lru) (key : K) (value : V) :
    c.set key value = (c.superSet key value).map checkTrim := by
  rw [set, h]
  cases c.superSet key value <;> rfl

theorem set_mru {c : Cache K V} (h : c.kind = .mru) (key : K) (value : V) :
    c.set key value = superSet
      (if c.limit ≤ c.size ∧ ¬c.map.has key then c.trim (mathRound (c.limit * c.ratio) - 1) else c)
      key value := by
  rw [set, h]

theorem clampRatio_bounds (ratio : ℚ) : 0 ≤ clampRatio ratio ∧ clampRatio ratio ≤ 1 :=
  ⟨le_min (le_max_left 0 ratio) zero_le_one, min_le_right _ _⟩

theorem mathRound_bounds {limit : Int} {ratio : ℚ} (hlimit : 1 ≤ limit) (h0 : 0 ≤ ratio)
    (h1 : ratio ≤ 1) :
    0 ≤ mathRound (limit * ratio) ∧ mathRound (limit * ratio) ≤ limit := by
  have hpos : (0 : ℚ) ≤ limit := by exact_mod_cast (by omega : (0 : Int) ≤ limit)
  have hprod : (limit : ℚ) * ratio ≤ limit := mul_le_of_le_one_right hpos h1
  constructor
  · exact Int.floor_nonneg.mpr (by positivity)
  · refine Int.lt_add_one_iff.mp (Int.floor_lt.mpr ?_)
    push_cast
    linarith

theorem one_le_mathRound (x : ℚ) : 1 ≤ mathRound x ↔ 1 / 2 ≤ x := by
  rw [mathRound, Int.le_floor]
  constructor
  · intro h
    push_cast at h
    linarith
  · intro h
    push_cast
    linarith

/-- The entries that a trim keeps. -/
def kept (kind : Kind) (newSize : Nat) (es : List (K × V)) : List (K × V) :=
  match kind with
  | .lru => es.drop (es.length - newSize)
  | .mru => es.take newSize

omit [DecidableEq K] in
theorem length_kept_le (kind : Kind) (newSize : Nat) (es : List (K × V)) :
    (kept kind newSize es).length ≤ newSize := by
  cases kind with
  | lru =>
    rw [kept, List.length_drop]
    omega
  | mru => exact List.length_take_le newSize es

theorem trim_spec {c : Cache K V} {es : List (K × V)} (h : c.map.Holds es) {newSize : Int}
    (hnew : 0 ≤ newSize) :
    ∃ m, c.trim newSize = { c with map := m } ∧ m.Holds (kept c.kind newSize.toNat es) := by
  rw [trim]
  cases c.kind with
  | lru => exact ⟨_, rfl, LinkedMap.trimOld_spec h hnew⟩
  | mru => exact ⟨_, rfl, LinkedMap.trimNew_spec h hnew⟩

structure Kept (c : Cache K V) (es : List (K × V)) : Prop where
  holds : c.map.Holds es
  limit : 1 ≤ c.limit
  ratio_nonneg : 0 ≤ c.ratio
  ratio_le_one : c.ratio ≤ 1

theorem checkTrim_spec {c : Cache K V} {es : List (K × V)} (h : c.Kept es) :
    ∃ m n, c.checkTrim = { c with map := m } ∧ m.Holds (kept c.kind n es) ∧
      ((kept c.kind n es).length : Int) ≤ c.limit := by
  have hsize := h.holds.size
  obtain ⟨hround, hle⟩ := mathRound_bounds h.limit h.ratio_nonneg h.ratio_le_one
  rw [checkTrim, size]
  by_cases hover : c.map.size > c.limit
  · obtain ⟨m, hm, hholds⟩ := @trim_spec K V _ c es h.holds _ hround
    rw [if_pos hover]
    refine ⟨m, _, hm, hholds, ?_⟩
    have hkept := length_kept_le c.kind (mathRound (c.limit * c.ratio)).toNat es
    omega
  · have hall : kept c.kind es.length es = es := by
      cases c.kind with
      | lru => rw [kept, Nat.sub_self, List.drop_zero]
      | mru => exact List.take_length
    rw [if_neg hover]
    refine ⟨c.map, es.length, rfl, hall.symm ▸ h.holds, ?_⟩
    rw [hall]
    omega

end Cache
end Gavea.MapCaches

namespace Gavea.MapCaches

open Lib.DoublyLinked Lib.Runs List

variable {K V : Type*} [DecidableEq K]

def LinkedMap.Enumerates (m : LinkedMap K V) (es : List (K × V)) : Prop :=
  ∃ chain, Walk m.nextOf m.head chain ∧ Walk m.previousOf m.tail chain.reverse ∧ chain.Nodup ∧
    (∀ k r, m.map k = some r ↔ r ∈ chain ∧ m.keyOf r = some k) ∧ m.size = chain.length ∧
    m.entries chain = es ∧ m.size = es.length

omit [DecidableEq K] in
theorem LinkedMap.Holds.enumerates {m : LinkedMap K V} {es : List (K × V)} (h : m.Holds es) :
    m.Enumerates es := by
  have hsize := h.size
  obtain ⟨chain, hchained, hentries⟩ := h
  have hlisted := hchained.listed
  refine ⟨chain, ?_, ?_, hlisted.nodup, hchained.map, hchained.size, hentries, hsize⟩
  · rw [hlisted.head]
    exact hlisted.links.walk_next
  · rw [hlisted.tail]
    exact hlisted.links.walk_previous

/-- What an operation of `LinkedMap` does to the entries. -/
def Recency.apply (es : List (K × V)) : MapOp K V → List (K × V)
  | .set key value touch => set key value touch es
  | .get key touch => get key touch es
  | .delete key => without key es
  | .shift => es.tail
  | .clear => []

theorem LinkedMap.apply_spec {m : LinkedMap K V} {es : List (K × V)} (h : m.Holds es)
    (op : MapOp K V) : ∃ m', m.apply op = .ok m' ∧ m'.Holds (Recency.apply es op) := by
  cases op with
  | set key value touch => exact set_spec h key value touch
  | get key touch =>
    obtain ⟨m', hget, hholds⟩ := get_spec h key touch
    exact ⟨m', by rw [apply, hget]; rfl, hholds⟩
  | delete key =>
    obtain ⟨m', hremove, hholds⟩ := remove_spec h key
    exact ⟨m', by rw [apply, hremove]; rfl, hholds⟩
  | shift =>
    obtain ⟨m', hshift, hholds⟩ := shift_spec h
    exact ⟨m', by rw [apply, hshift]; rfl, hholds⟩
  | clear => exact ⟨m.clear, rfl, holds_clear⟩

def Leaves (kind : Kind) (op : CacheOp K V) (es es' : List (K × V)) : Prop :=
  match op, kind with
  | .set key value, .lru => es' <:+ Recency.set key value .asNew es
  | .set key value, .mru => ∃ kept, kept <+: Recency.without key es ∧ es' = kept ++ [(key, value)]
  | .get key touch, _ => es' = Recency.get key touch es
  | .peek _, _ => es' = es
  | .delete key, _ => es' = Recency.without key es
  | .shift, _ => es' = es.tail
  | .clear, _ => es' = []
  | .setLimit _, .lru | .setRatio _, .lru => es' <:+ es
  | .setLimit _, .mru | .setRatio _, .mru => es' <+: es

/-- The operation does not throw, the lists stay consistent, and the limit holds after it. -/
def Behaves (c : Cache K V) (op : CacheOp K V) : Prop :=
  ∃ c' es es', c.apply op = .ok c' ∧ c.map.Enumerates es ∧ c'.map.Enumerates es' ∧
    Leaves c.kind op es es' ∧ c'.size ≤ c'.limit

def CacheOp.LimitOk : CacheOp K V → Prop
  | .setLimit limit => 1 ≤ limit
  | _ => True

def RoomForNew (c : Cache K V) : CacheOp K V → Prop
  | .set key _ => c.kind = .mru → c.limit ≤ c.size → c.map.has key = false → 1 / 2 ≤ c.limit * c.ratio
  | _ => True

instance (c : Cache K V) (op : CacheOp K V) : Decidable (RoomForNew c op) :=
  match op with
  | .set key _ => inferInstanceAs (Decidable (c.kind = .mru → c.limit ≤ c.size →
      c.map.has key = false → 1 / 2 ≤ c.limit * c.ratio))
  | .get _ _ | .peek _ | .delete _ | .shift | .clear | .setLimit _ | .setRatio _ => inferInstanceAs (Decidable True)

/-- The entries, the limit and the ratio of a cache between two operations. -/
structure Settled (c : Cache K V) (es : List (K × V)) : Prop where
  kept : c.Kept es
  within : (es.length : Int) ≤ c.limit

def Serves (c : Cache K V) (op : CacheOp K V) (es : List (K × V)) : Prop :=
  ∃ c' es', c.apply op = .ok c' ∧ Settled c' es' ∧ Leaves c.kind op es es'

variable {c : Cache K V} {es : List (K × V)}

theorem Serves.behaves {op : CacheOp K V} (h : Settled c es) (hserves : Serves c op es) :
    Behaves c op := by
  obtain ⟨c', es', happly, hsettled, hleaves⟩ := hserves
  refine ⟨c', es, es', happly, h.kept.holds.enumerates, hsettled.kept.holds.enumerates, hleaves, ?_⟩
  have hsize := hsettled.kept.holds.size
  rw [Cache.size, hsize]
  exact hsettled.within

omit [DecidableEq K] in
theorem Settled.withMap (h : Settled c es) {m : LinkedMap K V} {es' : List (K × V)}
    (hm : m.Holds es') (hlength : es'.length ≤ es.length) : Settled { c with map := m } es' :=
  ⟨⟨hm, h.kept.limit, h.kept.ratio_nonneg, h.kept.ratio_le_one⟩, le_trans (by exact_mod_cast hlength) h.within⟩

theorem Recency.length_without_le (key : K) (es : List (K × V)) :
    (without key es).length ≤ es.length :=
  length_filter_le _ es

omit [DecidableEq K] in
theorem Recency.length_put (touch : Touch) (e : K × V) (es : List (K × V)) :
    (put touch e es).length = es.length + 1 := by
  cases touch <;> simp [put]

theorem Recency.length_without_lt {key : K} {e : K × V} {es : List (K × V)}
    (h : find key es = some e) : (without key es).length + 1 ≤ es.length := by
  refine Nat.succ_le_of_lt (length_filter_lt_length_iff_exists.mpr ?_)
  exact ⟨e, mem_of_find?_eq_some h, by simpa using find?_some h⟩

theorem Recency.length_get_le (key : K) (touch : Touch) (es : List (K × V)) :
    (get key touch es).length ≤ es.length := by
  rw [get]
  cases hfind : find key es with
  | none => exact le_refl _
  | some e =>
    dsimp only
    split_ifs
    · exact le_refl _
    · rw [length_put]
      exact length_without_lt hfind

theorem Recency.set_asNew (key : K) (value : V) (es : List (K × V)) :
    set key value .asNew es = without key es ++ [(key, value)] := by
  rw [set]
  cases hfind : find key es with
  | none =>
    rw [without_eq_self]
    · rfl
    · intro e he heq
      exact absurd (find?_eq_none.mp hfind e he) (by simp [heq])
  | some e => rfl

theorem serves_checkTrim {op : CacheOp K V} (h : c.Kept es) {c₀ : Cache K V} {es₀ : List (K × V)}
    (happly : c₀.apply op = .ok c.checkTrim)
    (hleaves : ∀ n, Leaves c₀.kind op es₀ (Cache.kept c.kind n es)) : Serves c₀ op es₀ := by
  obtain ⟨m, n, hchecked, hholds, hwithin⟩ := Cache.checkTrim_spec h
  rw [hchecked] at happly
  exact ⟨_, _, happly, ⟨⟨hholds, h.limit, h.ratio_nonneg, h.ratio_le_one⟩, hwithin⟩, hleaves n⟩

theorem leaves_setLimit (kind : Kind) (limit : Int) (n : Nat) (es : List (K × V)) :
    Leaves kind (.setLimit limit) es (Cache.kept kind n es) := by
  cases kind with
  | lru => exact drop_suffix _ es
  | mru => exact take_prefix _ es

theorem leaves_setRatio (kind : Kind) (ratio : ℚ) (n : Nat) (es : List (K × V)) :
    Leaves kind (.setRatio ratio) es (Cache.kept kind n es) := by
  cases kind with
  | lru => exact drop_suffix _ es
  | mru => exact take_prefix _ es

theorem has_eq_find (h : c.map.Holds es) (key : K) :
    c.map.has key = (Recency.find key es).isSome := by
  rw [LinkedMap.has]
  cases hkey : c.map.map key with
  | none =>
    rw [LinkedMap.find_of_map_none h hkey]
    rfl
  | some r =>
    obtain ⟨chain, hchained, rfl⟩ := h
    obtain ⟨front, back, v, rfl, hentry⟩ := hchained.place hkey
    rw [LinkedMap.find_entries hchained hentry]
    rfl

theorem superSet_spec (h : c.map.Holds es) (key : K) (value : V) :
    ∃ m, c.superSet key value = .ok { c with map := m } ∧
      m.Holds (Recency.without key es ++ [(key, value)]) := by
  obtain ⟨m, hset, hholds⟩ := LinkedMap.set_spec h key value .asNew
  rw [Recency.set_asNew] at hholds
  refine ⟨m, ?_, hholds⟩
  rw [Cache.superSet, hset]
  rfl

theorem serves_set_lru (h : Settled c es) (hkind : c.kind = .lru) (key : K) (value : V) :
    Serves c (.set key value) es := by
  obtain ⟨m, hset, hholds⟩ := superSet_spec h.kept.holds key value
  have hkept : Cache.Kept { c with map := m } _ := ⟨hholds, h.kept.limit, h.kept.ratio_nonneg, h.kept.ratio_le_one⟩
  refine serves_checkTrim hkept ?_ fun n => ?_
  · rw [Cache.apply, Cache.set_lru hkind, hset]
    rfl
  · rw [hkind, Leaves, Recency.set_asNew]
    exact drop_suffix _ _

theorem serves_set_mru {n : Nat} {m : LinkedMap K V} (h : Settled c es) (hkind : c.kind = .mru)
    {key : K} {value : V} (hset : c.set key value = Cache.superSet { c with map := m } key value)
    (hm : m.Holds (es.take n))
    (hwithin : ((Recency.without key (es.take n)).length : Int) + 1 ≤ c.limit) :
    Serves c (.set key value) es := by
  obtain ⟨m', hset', hholds⟩ := @superSet_spec K V _ { c with map := m } _ hm key value
  refine ⟨{ c with map := m' }, _, hset.trans hset', ⟨⟨hholds, h.kept.limit, h.kept.ratio_nonneg,
    h.kept.ratio_le_one⟩, ?_⟩, ?_⟩
  · rw [length_append, length_singleton]
    exact_mod_cast hwithin
  · rw [hkind]
    exact ⟨_, ( take_prefix n es).filter _, rfl⟩

theorem serves_set (h : Settled c es) (key : K) (value : V)
    (hroom : RoomForNew c (.set key value)) : Serves c (.set key value) es := by
  cases hkind : c.kind with
  | lru => exact serves_set_lru h hkind key value
  | mru =>
    have hsize := h.kept.holds.size
    have hhas := has_eq_find h.kept.holds key
    by_cases htrim : c.limit ≤ c.size ∧ ¬c.map.has key
    · have habsent : c.map.has key = false := Bool.eq_false_iff.mpr htrim.2
      have hround := (Cache.one_le_mathRound _).mpr (hroom hkind htrim.1 habsent)
      obtain ⟨-, hle⟩ := Cache.mathRound_bounds h.kept.limit h.kept.ratio_nonneg h.kept.ratio_le_one
      obtain ⟨m, hm, hholds⟩ := @Cache.trim_spec K V _ c es h.kept.holds (mathRound (c.limit * c.ratio) - 1) (by omega)
      rw [hkind] at hholds
      refine serves_set_mru h hkind ?_ hholds ?_
      · rw [Cache.set_mru hkind, if_pos htrim, hm]
      · have hlength := Recency.length_without_le key (es.take (mathRound (c.limit * c.ratio) - 1).toNat)
        have htaken := length_take_le (mathRound (c.limit * c.ratio) - 1).toNat es
        omega
    · refine @serves_set_mru K V _ c es es.length c.map h hkind key value ?_ ?_ ?_
      · rw [Cache.set_mru hkind, if_neg htrim]
      · rw [take_length]
        exact h.kept.holds
      · rw [take_length]
        cases hfind : Recency.find key es with
        | none =>
          rw [hfind] at hhas
          have hfree : ¬c.limit ≤ c.size := fun hfull => htrim ⟨hfull, by rw [hhas]; simp⟩
          have hlength := Recency.length_without_le key es
          rw [Cache.size, hsize] at hfree
          omega
        | some e =>
          have hlength := Recency.length_without_lt hfind
          have hwithin := h.within
          omega

theorem serves (h : Settled c es) {op : CacheOp K V} (hlimit : op.LimitOk)
    (hroom : RoomForNew c op) : Serves c op es := by
  cases op with
  | set key value => exact serves_set h key value hroom
  | get key touch =>
    obtain ⟨m, hget, hholds⟩ := LinkedMap.get_spec h.kept.holds key touch
    refine ⟨{ c with map := m }, _, ?_, h.withMap hholds (Recency.length_get_le key touch es), rfl⟩
    rw [Cache.apply, Cache.get, hget]
    rfl
  | peek key =>
    obtain ⟨m, hget, hholds⟩ := LinkedMap.get_spec h.kept.holds key .none
    have hsame : Recency.get key .none es = es := by
      rw [Recency.get]
      cases Recency.find key es <;> rfl
    rw [hsame] at hholds
    refine ⟨{ c with map := m }, es, ?_, h.withMap hholds (le_refl _), rfl⟩
    rw [Cache.apply, Cache.peek, hget]
    rfl
  | delete key =>
    obtain ⟨m, hremove, hholds⟩ := LinkedMap.remove_spec h.kept.holds key
    refine ⟨{ c with map := m }, _, ?_, h.withMap hholds (Recency.length_without_le key es), rfl⟩
    rw [Cache.apply, hremove]
    rfl
  | shift =>
    obtain ⟨m, hshift, hholds⟩ := LinkedMap.shift_spec h.kept.holds
    refine ⟨{ c with map := m }, _, ?_, h.withMap hholds ?_, rfl⟩
    · rw [Cache.apply, hshift]
      rfl
    · rw [length_tail]
      exact Nat.sub_le _ _
  | clear => exact ⟨_, [], rfl, h.withMap LinkedMap.holds_clear (Nat.zero_le _), rfl⟩
  | setLimit limit =>
    have hkept : Cache.Kept { c with limit := limit } es :=
      ⟨h.kept.holds, hlimit, h.kept.ratio_nonneg, h.kept.ratio_le_one⟩
    refine serves_checkTrim hkept rfl fun n => ?_
    exact leaves_setLimit c.kind limit n es
  | setRatio ratio =>
    obtain ⟨h0, h1⟩ := Cache.clampRatio_bounds ratio
    have hkept : Cache.Kept { c with ratio := clampRatio ratio } es := ⟨h.kept.holds, h.kept.limit, h0, h1⟩
    refine serves_checkTrim hkept rfl fun n => ?_
    exact leaves_setRatio c.kind ratio n es

theorem set_of_no_room (h : Settled c es) {key : K} {value : V}
    (hroom : ¬RoomForNew c (.set key value)) : c.set key value = .error .invalidList := by
  rw [RoomForNew] at hroom
  push Not at hroom
  obtain ⟨hkind, hfull, habsent, hsmall⟩ := hroom
  have hround : mathRound (c.limit * c.ratio) - 1 < 0 := by
    have hnot := mt (Cache.one_le_mathRound _).mp (not_le_of_gt hsmall)
    omega
  have hsize : c.size = es.length := h.kept.holds.size
  have hlimit := h.kept.limit
  obtain ⟨chain, hchained, hentries⟩ := h.kept.holds
  cases chain with
  | nil =>
    obtain rfl : es = [] := hentries.symm
    rw [length_nil] at hsize
    omega
  | cons r back =>
    obtain ⟨hhead, htail, hmap⟩ := LinkedMap.trimNew_spec_of_neg hchained hround
    have htrim : c.trim (mathRound (c.limit * c.ratio) - 1) =
        { c with map := c.map.trimNew (mathRound (c.limit * c.ratio) - 1) } := by
      rw [Cache.trim, hkind]
    rw [Cache.set_mru hkind, if_pos ⟨hfull, by rw [habsent]; simp⟩, htrim, Cache.superSet,
      LinkedMap.set_of_absent (hmap key)]
    dsimp only
    rw [LinkedMap.addItem, LinkedMap.addItemLast, LinkedMap.allocate]
    dsimp only
    rw [hhead, htail]
    rfl

omit [DecidableEq K] in
theorem settled_new (kind : Kind) {limit : Int} (hlimit : 1 ≤ limit) (ratio : ℚ) :
    Settled (Cache.new kind limit ratio : Cache K V) [] := by
  obtain ⟨h0, h1⟩ := Cache.clampRatio_bounds ratio
  exact ⟨⟨LinkedMap.holds_new, hlimit, h0, h1⟩, le_trans zero_le_one hlimit⟩

def LinkedMap.step (m : LinkedMap K V) (op : MapOp K V) : Option (LinkedMap K V) := (m.apply op).toOption

def Cache.step (c : Cache K V) (op : CacheOp K V) : Option (Cache K V) := (c.apply op).toOption

def LinkedMap.Behaves (m : LinkedMap K V) (op : MapOp K V) : Prop :=
  ∃ m' es, m.apply op = .ok m' ∧ m.Enumerates es ∧ m'.Enumerates (Recency.apply es op)

theorem guarded_behaves_map {m : LinkedMap K V} (h : m.Holds es) (ops : List (MapOp K V)) :
    Guarded LinkedMap.step LinkedMap.Behaves m ops := by
  induction ops generalizing m es with
  | nil => trivial
  | cons op ops ih =>
    obtain ⟨m', happly, hholds⟩ := LinkedMap.apply_spec h op
    refine ⟨⟨m', es, happly, h.enumerates, hholds.enumerates⟩, fun m'' hm'' => ?_⟩
    rw [Option.mem_def, LinkedMap.step, happly] at hm''
    obtain rfl := Option.some.inj hm''
    exact ih hholds

theorem guarded_behaves_iff (h : Settled c es) {ops : List (CacheOp K V)}
    (hlimits : ∀ op ∈ ops, op.LimitOk) :
    Guarded Cache.step Behaves c ops ↔ Guarded Cache.step RoomForNew c ops := by
  induction ops generalizing c es with
  | nil => exact Iff.rfl
  | cons op ops ih =>
    have hrest := fun op' hop' => hlimits op' (mem_cons_of_mem op hop')
    have hroom_of : Behaves c op → RoomForNew c op := by
      rintro ⟨c', es₀, es', happly, -⟩
      by_contra hroom
      cases op with
      | set key value => exact nomatch (set_of_no_room h hroom).symm.trans happly
      | _ => exact hroom trivial
    have hserve (hroom : RoomForNew c op) := serves h (hlimits op mem_cons_self) hroom
    have hnext (hroom : RoomForNew c op) : ∀ c' ∈ c.step op,
        (Guarded Cache.step Behaves c' ops ↔ Guarded Cache.step RoomForNew c' ops) := by
      intro c' hc'
      obtain ⟨c'', es', happly, hsettled, -⟩ := hserve hroom
      rw [Option.mem_def, Cache.step, happly] at hc'
      obtain rfl := Option.some.inj hc'
      exact ih hsettled hrest
    constructor
    · rintro ⟨hbehaves, hall⟩
      have hroom := hroom_of hbehaves
      exact ⟨hroom, fun c' hc' => (hnext hroom c' hc').mp (hall c' hc')⟩
    · rintro ⟨hroom, hall⟩
      exact ⟨(hserve hroom).behaves h, fun c' hc' => (hnext hroom c' hc').mpr (hall c' hc')⟩

end Gavea.MapCaches
