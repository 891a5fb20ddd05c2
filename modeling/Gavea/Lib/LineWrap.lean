import Mathlib.Algebra.Order.Group.Defs
import Mathlib.Tactic

namespace Gavea.Lib.LineWrap

/-- The characters of a line: the column in front of each of them, where a break is welcome and
where there has to be one. -/
structure Line (α : Type*) where
  length : Nat
  column : Nat → α
  canBreak : Nat → Bool
  mustBreak : Nat → Bool

def latest (canBreak : Nat → Bool) (last : Nat) : Nat → Option Nat
  | 0 => none
  | k + 1 =>
    if k + 1 ≤ last then none
    else if canBreak (k + 1) then some (k + 1)
    else latest canBreak last k

variable {canBreak : Nat → Bool} {last k p : Nat}

theorem latest_spec (h : latest canBreak last k = some p) :
    last < p ∧ p ≤ k ∧ canBreak p = true ∧ ∀ i, p < i → i ≤ k → canBreak i = false := by
  induction k with
  | zero => exact absurd h nofun
  | succ k ih =>
    rw [latest] at h
    split_ifs at h with hle hbreak
    · injection h with h
      subst h
      exact ⟨not_le.mp hle, le_rfl, hbreak, fun i hi hik => absurd hik (not_le.mpr hi)⟩
    · obtain ⟨hlast, hpk, hp, hno⟩ := ih h
      refine ⟨hlast, by omega, hp, fun i hi hik => ?_⟩
      rcases Nat.le_succ_iff.mp hik with hik | rfl
      · exact hno i hi hik
      · exact (Bool.not_eq_true _).mp hbreak

theorem latest_none (h : latest canBreak last k = none) :
    ∀ i, last < i → i ≤ k → canBreak i = false := by
  induction k with
  | zero => exact fun i hi hik => absurd hik (by omega)
  | succ k ih =>
    intro i hi hik
    rw [latest] at h
    split_ifs at h with hle hbreak
    · omega
    · rcases Nat.le_succ_iff.mp hik with hik | rfl
      · exact ih h i hi hik
      · exact (Bool.not_eq_true _).mp hbreak

theorem latest_eq_some (hlast : last < p) (hpk : p ≤ k) (hp : canBreak p = true)
    (hno : ∀ i, p < i → i ≤ k → canBreak i = false) : latest canBreak last k = some p := by
  rcases hq : latest canBreak last k with - | q
  · rw [latest_none hq p hlast hpk] at hp
    exact absurd hp Bool.false_ne_true
  · obtain ⟨hlast', hqk, hq', hno'⟩ := latest_spec hq
    rcases lt_trichotomy p q with hlt | rfl | hlt
    · rw [hno q hlt hqk] at hq'
      exact absurd hq' Bool.false_ne_true
    · rfl
    · rw [hno' p hlt hpk] at hp
      exact absurd hp Bool.false_ne_true

theorem latest_eq_none (h : ∀ i, last < i → i ≤ k → canBreak i = false) :
    latest canBreak last k = none := by
  rcases hq : latest canBreak last k with - | q
  · rfl
  · obtain ⟨hlast, hqk, hq', -⟩ := latest_spec hq
    rw [h q hlast hqk] at hq'
    exact absurd hq' Bool.false_ne_true

section Wraps

variable {α : Type*} [LinearOrder α] (l : Line α) (width : α)

def Fits (last stop : Nat) (limit : α) : Prop :=
  ∀ k, last < k → k < stop → l.column (k + 1) ≤ limit ∧ l.mustBreak k = false

structure Overflows (last : Nat) (limit : α) (q : Nat) : Prop where
  gt : last < q
  lt : q < l.length
  beyond : limit < l.column (q + 1) ∨ l.mustBreak q = true
  fits : Fits l last q limit

variable {l} {limit : α} {q q' : Nat}

theorem Overflows.unique (h : Overflows l last limit q) (h' : Overflows l last limit q') : q = q'
    := by
  have hle {a b : Nat} (ha : Overflows l last limit a) (hb : Overflows l last limit b) : a ≤ b := by
    by_contra hlt
    obtain ⟨hcol, hmust⟩ := ha.fits b hb.gt (not_le.mp hlt)
    rcases hb.beyond with hover | hover
    · exact absurd hover (not_lt.mpr hcol)
    · rw [hmust] at hover
      exact absurd hover Bool.false_ne_true
  exact le_antisymm (hle h h') (hle h' h)

theorem Overflows.not_fits (h : Overflows l last limit q) : ¬Fits l last l.length limit := by
  intro hfits
  obtain ⟨hcol, hmust⟩ := hfits q h.gt h.lt
  rcases h.beyond with hover | hover
  · exact absurd hover (not_lt.mpr hcol)
  · rw [hmust] at hover
    exact absurd hover Bool.false_ne_true

theorem Fits.column_le {stop r : Nat} (h : Fits l last stop limit) (hr : last < r) (hle : r ≤ stop) :
    l.column r ≤ limit ∨ r = last + 1 := by
  rcases Nat.lt_or_eq_of_le hr with hlt | rfl
  · obtain ⟨k, rfl⟩ : ∃ k, r = k + 1 := ⟨r - 1, by omega⟩
    exact .inl (h k (by omega) (by omega)).1
  · exact .inr rfl

variable [AddCommGroup α] (l)

/-- Where a line that overflows with the character `q` is broken: at the last welcome place if what
is behind it fits on the next line, else in front of that character. -/
def breakAt (last q : Nat) : Nat :=
  match latest l.canBreak last q with
  | some p => if l.column (q + 1) - l.column p ≤ width then p else q
  | none => q

/-- The breaks behind `last`, with the column that the line there may go up to. -/
inductive Wraps : Nat → α → List Nat → Prop
  | rest {last : Nat} {limit : α} : Fits l last l.length limit → Wraps last limit []
  | next {last : Nat} {limit : α} {q : Nat} {breaks : List Nat} : Overflows l last limit q →
      Wraps (breakAt l width last q) (l.column (breakAt l width last q) + width) breaks →
      Wraps last limit (breakAt l width last q :: breaks)

def EachFits : Nat → α → List Nat → Prop
  | _, _, [] => True
  | last, limit, r :: breaks => (l.column r ≤ limit ∨ r = last + 1) ∧ EachFits r (l.column r + width) breaks

variable {l width} {breaks breaks' : List Nat}

theorem breakAt_bounds (l : Line α) (width : α) (h : last < q) :
    last < breakAt l width last q ∧ breakAt l width last q ≤ q
    := by
  rw [breakAt]
  split
  · rename_i p hp
    obtain ⟨hlast, hle, -, -⟩ := latest_spec hp
    split_ifs
    · exact ⟨hlast, hle⟩
    · exact ⟨h, le_rfl⟩
  · exact ⟨h, le_rfl⟩

theorem Wraps.unique (h : Wraps l width last limit breaks) (h' : Wraps l width last limit breaks') :
    breaks = breaks' := by
  induction h generalizing breaks' with
  | rest hfits =>
    cases h' with
    | rest => rfl
    | next hover => exact absurd hfits hover.not_fits
  | next hover _ ih =>
    cases h' with
    | rest hfits => exact absurd hfits hover.not_fits
    | next hover' hrest =>
      obtain rfl := hover.unique hover'
      rw [ih hrest]

theorem Wraps.increasing (h : Wraps l width last limit breaks) (hlast : last < l.length) :
    (last :: (breaks ++ [l.length])).Pairwise (· < ·) ∧ ∀ r ∈ breaks, r < l.length := by
  induction h with
  | rest => simp [hlast]
  | @next last limit q breaks hover hwraps ih =>
    obtain ⟨hgt, hle⟩ := breakAt_bounds l width hover.gt
    have hlt := lt_of_le_of_lt hle hover.lt
    obtain ⟨hpairwise, hbounds⟩ := ih hlt
    refine ⟨?_, List.forall_mem_cons.mpr ⟨hlt, hbounds⟩⟩
    rw [List.cons_append, List.pairwise_cons]
    refine ⟨List.forall_mem_cons.mpr ⟨hgt, fun r hr => ?_⟩, hpairwise⟩
    exact hgt.trans ((List.pairwise_cons.mp hpairwise).1 r hr)

theorem Wraps.eachFits (h : Wraps l width last limit breaks) (hlast : last < l.length) :
    EachFits l width last limit (breaks ++ [l.length]) := by
  induction h with
  | rest hfits => exact ⟨hfits.column_le hlast le_rfl, trivial⟩
  | next hover hwraps ih =>
    obtain ⟨hgt, hle⟩ := breakAt_bounds l width hover.gt
    exact ⟨hover.fits.column_le hgt hle, ih (lt_of_le_of_lt hle hover.lt)⟩

theorem latest_breakAt : latest l.canBreak (breakAt l width last q) q = none := by
  refine latest_eq_none fun i hi hiq => ?_
  rw [breakAt] at hi
  split at hi
  · rename_i p hp
    obtain ⟨-, -, -, hno⟩ := latest_spec hp
    split_ifs at hi
    · exact hno i hi hiq
    · exact absurd hi (not_lt.mpr hiq)
  · exact absurd hi (not_lt.mpr hiq)

theorem fits_breakAt [IsOrderedAddMonoid α] (hmono : ∀ j, j ≤ q → l.column (j + 1) ≤ l.column (q + 1))
    (hmust : ∀ k, l.mustBreak k = true → l.canBreak k = true) :
    Fits l (breakAt l width last q) (q + 1) (l.column (breakAt l width last q) + width) := by
  intro k hk hkq
  have hno := latest_none latest_breakAt k hk (by omega)
  refine ⟨?_, ?_⟩
  · refine (hmono k (by omega)).trans ?_
    rw [breakAt] at hk ⊢
    split at hk
    · split_ifs at hk ⊢ with hfit
      · rwa [sub_le_iff_le_add'] at hfit
      · omega
    · omega
  · by_contra hbreak
    rw [hmust k ((Bool.not_eq_false _).mp hbreak)] at hno
    exact absurd hno (by decide)

end Wraps

end Gavea.Lib.LineWrap
