import Mathlib.Order.Filter.AtTopBot.Basic
import Mathlib.Data.List.Forall2

namespace Gavea.Lib

open Filter

section Fuel

variable {α β : Type} {f f' : Nat → Option α} {g : Nat → α → Option β} {a b : α}
  {P P' : α → Prop} {Q : β → Prop}

def Returns (f : Nat → Option α) (a : α) : Prop := ∀ᶠ fuel in atTop, f fuel = some a

def Settles (f : Nat → Option α) (P : α → Prop) : Prop := ∃ a, Returns f a ∧ P a

theorem Returns.unique (ha : Returns f a) (hb : Returns f b) : a = b := by
  obtain ⟨fuel, h, h'⟩ := (ha.and hb).exists
  exact Option.some.inj (h.symm.trans h')

theorem Returns.congr (h : ∀ᶠ fuel in atTop, f fuel = f' fuel) (ha : Returns f' a) :
    Returns f a := by
  filter_upwards [h, ha] with fuel h ha
  rw [h, ha]

theorem Returns.bind {c : β} (ha : Returns f a) (hc : Returns (fun fuel => g fuel a) c) :
    Returns (fun fuel => f fuel >>= g fuel) c := by
  filter_upwards [ha, hc] with fuel ha hc
  rw [ha]
  exact hc

theorem Returns.of_succ (h : ∀ fuel, f (fuel + 1) = some a) : Returns f a := by
  filter_upwards [eventually_ge_atTop 1] with fuel hfuel
  obtain ⟨k, rfl⟩ : ∃ k, fuel = k + 1 := ⟨fuel - 1, by omega⟩
  exact h k

theorem Settles.holds (h : Settles f P) (ha : Returns f a) : P a := by
  obtain ⟨b, hb, hP⟩ := h
  rwa [ha.unique hb]

theorem Settles.mono (h : Settles f P) (hP : ∀ a, P a → P' a) : Settles f P' := by
  obtain ⟨a, ha, h⟩ := h
  exact ⟨a, ha, hP a h⟩

theorem Settles.some (h : P a) : Settles (fun _ => some a) P := ⟨a, .of_forall fun _ => rfl, h⟩

theorem Settles.congr (h : ∀ fuel, f fuel = f' fuel) (hs : Settles f' P) : Settles f P := by
  obtain ⟨a, ha, hP⟩ := hs
  exact ⟨a, ha.congr (.of_forall h), hP⟩

theorem Settles.bind (h : Settles f P) (hg : ∀ a, P a → Settles (fun fuel => g fuel a) Q) :
    Settles (fun fuel => f fuel >>= g fuel) Q := by
  obtain ⟨a, ha, hP⟩ := h
  obtain ⟨c, hc, hQ⟩ := hg a hP
  exact ⟨c, ha.bind hc, hQ⟩

theorem Settles.of_succ (h : Settles (fun fuel => f (fuel + 1)) P) : Settles f P := by
  obtain ⟨a, ha, hP⟩ := h
  obtain ⟨n, hn⟩ := eventually_atTop.mp ha
  refine ⟨a, eventually_atTop.mpr ⟨n + 1, fun m hm => ?_⟩, hP⟩
  obtain ⟨k, rfl⟩ : ∃ k, m = k + 1 := ⟨m - 1, by omega⟩
  exact hn k (by omega)

theorem Settles.succ (h : Settles f P) : Settles (fun fuel => f (fuel + 1)) P := by
  obtain ⟨a, ha, hP⟩ := h
  obtain ⟨n, hn⟩ := eventually_atTop.mp ha
  exact ⟨a, eventually_atTop.mpr ⟨n, fun m hm => hn (m + 1) (by omega)⟩, hP⟩

theorem Settles.mapM {γ : Type} {call : Nat → γ → Option α} {P : γ → α → Prop} {l : List γ}
    (h : ∀ x ∈ l, Settles (fun fuel => call fuel x) (P x)) :
    Settles (fun fuel => l.mapM (call fuel)) (List.Forall₂ P l) := by
  induction l with
  | nil => exact .some .nil
  | cons x l ih =>
    refine .congr (fun fuel => List.mapM_cons) ?_
    refine (h x List.mem_cons_self).bind fun a ha => ?_
    refine (ih fun y hy => h y (List.mem_cons_of_mem x hy)).bind fun as has => ?_
    exact .some (.cons ha has)

theorem Settles.anyM {γ : Type} {call : Nat → γ → Option Bool} {P : γ → Bool → Prop}
    {l : List γ} (h : ∀ x ∈ l, Settles (fun fuel => call fuel x) (P x)) :
    Settles (fun fuel => l.anyM (call fuel)) fun found =>
      (found = true → ∃ x ∈ l, P x true) ∧ (found = false → ∀ x ∈ l, P x false) := by
  induction l with
  | nil => exact .some ⟨by simp, by simp⟩
  | cons x l ih =>
    refine (h x List.mem_cons_self).bind fun found hx => ?_
    cases found with
    | true => exact .some ⟨fun _ => ⟨x, List.mem_cons_self, hx⟩, by simp⟩
    | false =>
      refine (ih fun y hy => h y (List.mem_cons_of_mem x hy)).mono ?_
      rintro found ⟨hfound, hnone⟩
      refine ⟨fun ht => ?_, fun hf => ?_⟩
      · obtain ⟨y, hy, hP⟩ := hfound ht
        exact ⟨y, List.mem_cons_of_mem x hy, hP⟩
      · rintro y hy
        rcases List.mem_cons.mp hy with rfl | hy
        · exact hx
        · exact hnone hf y hy

end Fuel

end Gavea.Lib
