import Mathlib.Data.List.Nodup
import Mathlib.Tactic
import Mathlib.Data.List.Basic
import Mathlib.Data.List.Perm.Basic

namespace Gavea.Lib.DoublyLinked

open List

variable {ι : Type*}

/-- The nodes are linked in their order, from the node before them to the node behind them. -/
def Segment (next previous : ι → Option ι) : Option ι → List ι → Option ι → Prop
  | _, [], _ => True
  | before, r :: l, behind => previous r = before ∧ next r = l.head?.or behind ∧ Segment next previous (some r) l behind

variable {next previous next' previous' : ι → Option ι} {before behind : Option ι} {l l' : List ι}

theorem segment_append :
    Segment next previous before (l ++ l') behind ↔
      Segment next previous before l (l'.head?.or behind) ∧
        Segment next previous (l.getLast?.or before) l' behind := by
  induction l generalizing before with
  | nil => simp [Segment]
  | cons r l ih =>
    have hlast : (r :: l).getLast?.or before = l.getLast?.or (some r) := by
      cases l with
      | nil => rfl
      | cons s l =>
        rw [getLast?_cons_cons]
        cases h : (s :: l).getLast? with
        | none => simp at h
        | some t => rfl
    have hhead : (l ++ l').head?.or behind = l.head?.or (l'.head?.or behind) := by
      rw [head?_append, Option.or_assoc]
    simp only [cons_append, Segment, ih, hlast, hhead, and_assoc]

theorem Segment.congr (h : Segment next previous before l behind)
    (hnext : ∀ r ∈ l, next' r = next r) (hprevious : ∀ r ∈ l, previous' r = previous r) :
    Segment next' previous' before l behind := by
  induction l generalizing before with
  | nil => trivial
  | cons r l ih =>
    obtain ⟨hp, hn, hrest⟩ := h
    refine ⟨(hprevious r mem_cons_self).trans hp, (hnext r mem_cons_self).trans hn, ?_⟩
    exact ih hrest (fun s hs => hnext s (mem_cons_of_mem r hs)) fun s hs => hprevious s (mem_cons_of_mem r hs)

theorem segment_singleton {r : ι} :
    Segment next previous before [r] behind ↔ previous r = before ∧ next r = behind := by
  simp [Segment]

theorem Segment.relink_last {r : ι} {behind' : Option ι}
    (h : Segment next previous before (l ++ [r]) behind) (hn : next' r = behind')
    (hnext : ∀ s ∈ l, next' s = next s) (hprevious : ∀ s ∈ l ++ [r], previous' s = previous s) :
    Segment next' previous' before (l ++ [r]) behind' := by
  rw [segment_append, segment_singleton] at h ⊢
  refine ⟨h.1.congr hnext fun s hs => hprevious s (mem_append_left _ hs), ?_, hn⟩
  rw [hprevious r (mem_append_right _ (mem_singleton_self r))]
  exact h.2.1

theorem Segment.relink_first {r : ι} {before' : Option ι}
    (h : Segment next previous before (r :: l) behind) (hp : previous' r = before')
    (hnext : ∀ s ∈ r :: l, next' s = next s) (hprevious : ∀ s ∈ l, previous' s = previous s) :
    Segment next' previous' before' (r :: l) behind := by
  obtain ⟨-, hn, hrest⟩ := h
  refine ⟨hp, (hnext r mem_cons_self).trans hn, ?_⟩
  exact hrest.congr (fun s hs => hnext s (mem_cons_of_mem r hs)) hprevious

def Walk (step : ι → Option ι) : Option ι → List ι → Prop
  | start, [] => start = none
  | start, r :: l => start = some r ∧ Walk step (step r) l

theorem Segment.walk_next (h : Segment next previous before l none) : Walk next l.head? l := by
  induction l generalizing before with
  | nil => rfl
  | cons r l ih =>
    obtain ⟨-, hn, hrest⟩ := h
    refine ⟨rfl, ?_⟩
    rw [hn, Option.or_none]
    exact ih hrest

theorem Segment.walk_previous (h : Segment next previous none l behind) :
    Walk previous l.getLast? l.reverse := by
  induction l using List.reverseRecOn generalizing behind with
  | nil => rfl
  | append_singleton l r ih =>
    rw [segment_append, segment_singleton] at h
    rw [getLast?_concat, reverse_concat]
    refine ⟨rfl, ?_⟩
    rw [h.2.1, Option.or_none]
    exact ih h.1

end Gavea.Lib.DoublyLinked

namespace Gavea.Lib.FrontPart

open List

variable {α : Type*}

def insertAt (l : List α) (k : Nat) (x : α) : List α := l.take k ++ x :: l.drop k

theorem insertAt_perm (l : List α) (k : Nat) (x : α) : (insertAt l k x).Perm (x :: l) := by
  have hperm := @perm_middle α x (l.take k) (l.drop k)
  rwa [take_append_drop] at hperm

@[simp] theorem mem_insertAt {l : List α} {k : Nat} {x y : α} :
    y ∈ insertAt l k x ↔ y = x ∨ y ∈ l := by
  rw [(insertAt_perm l k x).mem_iff, mem_cons]

theorem take_insertAt_of_le {l : List α} {k s : Nat} (x : α) (hk : k ≤ s) (hs : s ≤ l.length) :
    (insertAt l k x).take (s + 1) = insertAt (l.take s) k x := by
  rw [insertAt, insertAt, take_take, min_eq_left hk, drop_take, take_append,
    take_of_length_le (by rw [length_take]; omega), length_take, min_eq_left (by omega),
    show s + 1 - k = (s - k) + 1 by omega, take_succ_cons]

theorem take_insertAt_of_ge {l : List α} {k s : Nat} (x : α) (hk : s ≤ k) (hl : k ≤ l.length) :
    (insertAt l k x).take s = l.take s := by
  rw [insertAt, take_append_of_le_length (by rw [length_take]; omega), take_take, min_eq_left hk]

variable [DecidableEq α]

theorem take_erase_of_mem {l : List α} {s : Nat} {x : α} (hx : x ∈ l.take s) (hs : s ≤ l.length) :
    (l.erase x).take (s - 1) = (l.take s).erase x := by
  have hsplit := take_append_drop s l
  have herase : l.erase x = (l.take s).erase x ++ l.drop s := by
    rw [← erase_append_left _ hx, hsplit]
  rw [herase, take_append_of_le_length, take_of_length_le]
  · rw [length_erase_of_mem hx, length_take]
    omega
  · rw [length_erase_of_mem hx, length_take]
    omega

theorem take_erase_of_notMem {l : List α} {s : Nat} {x : α} (hx : x ∉ l.take s)
    (hs : s ≤ l.length) : (l.erase x).take s = l.take s := by
  have hsplit := take_append_drop s l
  have herase : l.erase x = l.take s ++ (l.drop s).erase x := by
    rw [← erase_append_right _ hx, hsplit]
  rw [herase, take_append_of_le_length (by rw [length_take]; omega), take_of_length_le (by rw [length_take]; omega)]

end Gavea.Lib.FrontPart

namespace Gavea.Lib

open List

variable {α β : Type}

def setFirst (p : α → Bool) (x : α) : List α → List α
  | [] => [x]
  | y :: l => if p y then x :: l else y :: setFirst p x l

def modifyFirst (p : α → Bool) (f : α → α) : List α → List α
  | [] => []
  | y :: l => if p y then f y :: l else y :: modifyFirst p f l

theorem bind_ok {ε : Type} (a : α) (f : α → Except ε β) : (Except.ok a >>= f) = f a := rfl

theorem exists_of_bind_eq_ok {ε : Type} {x : Except ε α} {f : α → Except ε β} {b : β}
    (h : (x >>= f) = .ok b) : ∃ a, x = .ok a ∧ f a = .ok b := by
  cases x with
  | error e => cases h
  | ok a => exact ⟨a, rfl, h⟩

section Keys

variable {κ γ : Type} [BEq κ] [LawfulBEq κ] {l : List (κ × γ)}

theorem find?_key_eq_some_iff (h : (l.map Prod.fst).Nodup) {key : κ} {value : γ} :
    (l.find? fun entry => entry.1 == key).map Prod.snd = some value ↔ (key, value) ∈ l := by
  induction l with
  | nil => simp
  | cons entry l ih =>
    obtain ⟨hnot, hl⟩ := nodup_cons.mp h
    by_cases hkey : entry.1 = key
    · rw [find?_cons_of_pos (by simpa using hkey), Option.map_some, mem_cons]
      constructor
      · intro hvalue
        left
        exact Prod.ext hkey.symm (Option.some.inj hvalue).symm
      · rintro (heq | hmem)
        · rw [← heq]
        · exact absurd (mem_map_of_mem (f := Prod.fst) hmem) (hkey ▸ hnot)
    · rw [find?_cons_of_neg (by simpa using hkey), ih hl, mem_cons]
      constructor
      · exact Or.inr
      · rintro (heq | hmem)
        · exact absurd (congrArg Prod.fst heq).symm hkey
        · exact hmem

theorem filter_key_of_not_mem {key : κ} (h : key ∉ l.map Prod.fst) :
    l.filter (fun entry => entry.1 != key) = l := by
  refine filter_eq_self.mpr fun entry hentry => bne_iff_ne.mpr ?_
  rintro rfl
  exact h (mem_map_of_mem hentry)

theorem modifyFirst_key_perm (h : (l.map Prod.fst).Nodup) {key : κ} {value : γ}
    (hmem : (key, value) ∈ l) (value' : γ) :
    List.Perm (modifyFirst (fun entry => entry.1 == key) (fun _ => (key, value')) l)
      ((key, value') :: l.filter fun entry => entry.1 != key) := by
  induction l with
  | nil => exact absurd hmem not_mem_nil
  | cons entry l ih =>
    obtain ⟨hnot, hl⟩ := nodup_cons.mp h
    rw [modifyFirst]
    by_cases hkey : entry.1 = key
    · rw [if_pos (beq_iff_eq.mpr hkey), filter_cons_of_neg (by simpa using hkey), filter_key_of_not_mem (hkey ▸ hnot)]
    · rw [if_neg (by simpa using hkey), filter_cons_of_pos (by simpa using hkey)]
      have hrest : (key, value) ∈ l := by
        rcases mem_cons.mp hmem with heq | hrest
        · exact absurd (congrArg Prod.fst heq).symm hkey
        · exact hrest
      exact ((ih hl hrest).cons entry).trans (List.Perm.swap _ _ _)

theorem perm_cons_filter_key (h : (l.map Prod.fst).Nodup) {key : κ} {value : γ}
    (hmem : (key, value) ∈ l) :
    List.Perm l ((key, value) :: l.filter fun entry => entry.1 != key) := by
  induction l with
  | nil => exact absurd hmem not_mem_nil
  | cons entry l ih =>
    obtain ⟨hnot, hl⟩ := nodup_cons.mp h
    by_cases hkey : entry.1 = key
    · have hentry : (key, value) = entry := by
        rcases mem_cons.mp hmem with heq | hrest
        · exact heq
        · exact absurd (mem_map_of_mem (f := Prod.fst) hrest) (hkey ▸ hnot)
      rw [filter_cons_of_neg (by simpa using hkey), filter_key_of_not_mem (hkey ▸ hnot), hentry]
    · rw [filter_cons_of_pos (by simpa using hkey)]
      have hrest : (key, value) ∈ l := by
        rcases mem_cons.mp hmem with heq | hrest
        · exact absurd (congrArg Prod.fst heq).symm hkey
        · exact hrest
      exact ((ih hl hrest).cons entry).trans (List.Perm.swap _ _ _)

end Keys
/-- An object used as a map from its keys. -/
abbrev Record (β : Type) := List (String × β)

namespace Record

def set (r : Record β) (key : String) (value : β) : Record β := setFirst (fun entry => entry.1 == key) (key, value) r

def delete (r : Record β) (key : String) : Record β := r.filter fun entry => entry.1 != key

def spread (r changes : Record β) : Record β := changes.foldl (fun acc entry => acc.set entry.1 entry.2) r

end Record

end Gavea.Lib
