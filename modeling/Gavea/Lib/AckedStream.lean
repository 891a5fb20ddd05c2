import Mathlib.Tactic

namespace Gavea.Lib

variable {α : Type*}

/-- A stream whose items are numbered from 1: the receiver has taken the first of them in
order, and the sender knows so of no more than that. -/
structure AckedStream (α : Type*) where
  sent : List α
  acked : Nat
  delivered : Nat
  acked_le : acked ≤ delivered
  delivered_le : delivered ≤ sent.length

namespace AckedStream

def entries (l : List α) : List (α × Nat) := l.zipIdx 1

theorem entries_append (l l' : List α) :
    entries (l ++ l') = entries l ++ l'.zipIdx (l.length + 1) := by
  rw [entries, List.zipIdx_append, entries, Nat.add_comm]

theorem mem_entries_of_prefix {l l' : List α} (h : l <+: l') {p : α × Nat} (hp : p ∈ entries l) :
    p ∈ entries l' := by
  obtain ⟨m, rfl⟩ := h
  rw [entries_append]
  exact List.mem_append_left _ hp

theorem length_entries (l : List α) : (entries l).length = l.length := List.length_zipIdx

theorem getElem?_entries (l : List α) (k : Nat) :
    (entries l)[k]? = l[k]?.map fun a => (a, k + 1) := by
  rw [entries, List.getElem?_zipIdx, Nat.add_comm]

theorem mem_entries {l : List α} {a : α} {i : Nat} :
    (a, i) ∈ entries l ↔ 0 < i ∧ l[i - 1]? = some a := by
  rw [List.mem_iff_getElem?]
  constructor
  · rintro ⟨k, hk⟩
    rw [getElem?_entries] at hk
    obtain ⟨b, hb, heq⟩ := Option.map_eq_some_iff.mp hk
    obtain ⟨rfl, rfl⟩ := Prod.mk.inj heq
    exact ⟨Nat.succ_pos k, hb⟩
  · rintro ⟨hi, ha⟩
    refine ⟨i - 1, ?_⟩
    rw [getElem?_entries, ha, Option.map_some, Nat.sub_add_cancel hi]

theorem le_of_mem_entries {l : List α} {a : α} {i : Nat} (h : (a, i) ∈ entries l) :
    i ≤ l.length := by
  obtain ⟨hi, ha⟩ := mem_entries.mp h
  have := (List.getElem?_eq_some_iff.mp ha).1
  omega

def empty : AckedStream α := ⟨[], 0, 0, le_rfl, le_rfl⟩

variable (s : AckedStream α)

def send (a : α) : AckedStream α where
  sent := s.sent ++ [a]
  acked := s.acked
  delivered := s.delivered
  acked_le := s.acked_le
  delivered_le := by
    rw [List.length_append]
    exact Nat.le_add_right_of_le s.delivered_le

def deliver (h : s.delivered < s.sent.length) : AckedStream α where
  sent := s.sent
  acked := s.acked
  delivered := s.delivered + 1
  acked_le := Nat.le_succ_of_le s.acked_le
  delivered_le := h

def acknowledge (n : Nat) (h : n ≤ s.delivered) : AckedStream α where
  sent := s.sent
  acked := max s.acked n
  delivered := s.delivered
  acked_le := max_le s.acked_le h
  delivered_le := s.delivered_le

def output : List α := s.sent.take s.delivered

def unacked : List (α × Nat) := (entries s.sent).drop s.acked

theorem prefix_output : s.output <+: s.sent := List.take_prefix _ _

theorem length_output : s.output.length = s.delivered := List.length_take_of_le s.delivered_le

theorem output_deliver (h : s.delivered < s.sent.length) :
    (s.deliver h).output = s.output ++ [s.sent[s.delivered]] :=
  List.take_succ_eq_append_getElem h

theorem unacked_send (a : α) : (s.send a).unacked = s.unacked ++ [(a, s.sent.length + 1)] := by
  rw [unacked, send, entries_append, List.drop_append_of_le_length]
  · rfl
  · rw [length_entries]
    exact s.acked_le.trans s.delivered_le

theorem unacked_acknowledge (n : Nat) (h : n ≤ s.delivered) :
    (s.acknowledge n h).unacked = s.unacked.dropWhile (·.2 ≤ n) := by
  have hdrop : ∀ (m : Nat) (l : List (α × Nat)), (∀ k p, l[k]? = some p → p.2 = m + k + 1) →
      l.dropWhile (·.2 ≤ n) = l.drop (n - m) := by
    intro m l
    induction l generalizing m with
    | nil => simp
    | cons p rest ih =>
      intro hnum
      have hp := hnum 0 p rfl
      rw [List.dropWhile_cons]
      by_cases hle : p.2 ≤ n
      · have hrest := ih (m + 1) fun k q hq => by
          rw [hnum (k + 1) q hq]
          omega
        rw [if_pos (decide_eq_true hle), hrest, ← List.drop_succ_cons (a := p)]
        congr 1
        omega
      · rw [if_neg (by simpa using hle), Nat.sub_eq_zero_of_le (by omega), List.drop_zero]
  rw [unacked, unacked, hdrop s.acked, List.drop_drop]
  · congr 1
    change max s.acked n = s.acked + (n - s.acked)
    omega
  · intro k p hp
    rw [List.getElem?_drop, getElem?_entries] at hp
    obtain ⟨a, -, rfl⟩ := Option.map_eq_some_iff.mp hp
    rfl

theorem mem_unacked {k : Nat} (hk : s.delivered ≤ k) (hlt : k < s.sent.length) :
    (s.sent[k], k + 1) ∈ s.unacked := by
  refine List.mem_iff_getElem?.mpr ⟨k - s.acked, ?_⟩
  have := s.acked_le
  rw [unacked, List.getElem?_drop, getElem?_entries, show s.acked + (k - s.acked) = k by omega,
    List.getElem?_eq_getElem hlt, Option.map_some]

end AckedStream

end Gavea.Lib
