import Gavea.Lib.Splicing

namespace Gavea.Lib.Hunks

open Splicing List

variable {α : Type*}

structure Hunk where
  start : Int
  stop : Int
  newStart : Int
  newStop : Int

def Aligned : Int → Int → List Hunk → List α → List α → Prop
  | _, _, [], t, u => t = u
  | p, q, h :: hs, t, u =>
    (p ≤ h.start ∧ h.start ≤ h.stop ∧ h.stop ≤ p + t.length) ∧
      (h.newStart - q = h.start - p ∧ h.newStart ≤ h.newStop ∧ h.newStop ≤ q + u.length) ∧
        t.take (h.start - p).toNat = u.take (h.start - p).toNat ∧
          Aligned h.stop h.newStop hs (t.drop (h.stop - p).toNat) (u.drop (h.newStop - q).toNat)

def Apart (hs : List Hunk) : Prop := hs.Pairwise fun h h' => h.stop < h'.start

def deltaAfter : Int → List Hunk → Int
  | d, [] => d
  | _, h :: hs => deltaAfter (h.newStop - h.stop) hs

@[simp] theorem deltaAfter_nil (d : Int) : deltaAfter d [] = d := rfl

@[simp] theorem deltaAfter_cons (d : Int) (h : Hunk) (hs : List Hunk) :
    deltaAfter d (h :: hs) = deltaAfter (h.newStop - h.stop) hs := rfl

theorem deltaAfter_append (d : Int) (hs hs' : List Hunk) :
    deltaAfter d (hs ++ hs') = deltaAfter (deltaAfter d hs) hs' := by
  induction hs generalizing d with
  | nil => rfl
  | cons h hs ih => exact ih (h.newStop - h.stop)

def Numbered : Int → List Hunk → Prop
  | _, [] => True
  | d, h :: hs =>
    h.newStart = h.start + d ∧ h.start ≤ h.stop ∧ h.newStart ≤ h.newStop ∧ Numbered (h.newStop - h.stop) hs

theorem Numbered.append {d : Int} {hs hs' : List Hunk} :
    Numbered d (hs ++ hs') ↔ Numbered d hs ∧ Numbered (deltaAfter d hs) hs' := by
  induction hs generalizing d with
  | nil => simp [Numbered]
  | cons h hs ih => simp [Numbered, ih, and_assoc]

theorem Aligned.numbered {p q : Int} {hs : List Hunk} {t u : List α} (h : Aligned p q hs t u) :
    Numbered (q - p) hs := by
  induction hs generalizing p q t u with
  | nil => trivial
  | cons x hs ih =>
    obtain ⟨⟨_, hle, _⟩, ⟨hgap, hle', _⟩, -, hrest⟩ := h
    exact ⟨by omega, hle, hle', ih hrest⟩

theorem Aligned.inside {p q : Int} {hs : List Hunk} {t u : List α} (h : Aligned p q hs t u) :
    ∀ x ∈ hs, (p ≤ x.start ∧ x.start ≤ x.stop ∧ x.stop ≤ p + t.length) ∧
      (q ≤ x.newStart ∧ x.newStart ≤ x.newStop ∧ x.newStop ≤ q + u.length) := by
  induction hs generalizing p q t u with
  | nil => exact fun x hx => absurd hx not_mem_nil
  | cons y hs ih =>
    obtain ⟨⟨hp, hle, hstop⟩, ⟨hgap, hle', hstop'⟩, -, hrest⟩ := h
    intro x hx
    rcases mem_cons.mp hx with rfl | hx
    · exact ⟨⟨hp, hle, hstop⟩, by omega, hle', hstop'⟩
    · obtain ⟨hx1, hx2⟩ := ih hrest x hx
      rw [length_drop] at hx1 hx2
      omega

theorem Aligned.advance {p q a : Int} {hs : List Hunk} {t u : List α} (h : Aligned p q hs t u)
    (hpa : p ≤ a) (hat : a ≤ p + t.length) (hs_start : ∀ x ∈ hs, a ≤ x.start) :
    t.take (a - p).toNat = u.take (a - p).toNat ∧ a - p ≤ u.length ∧
      Aligned a (q + (a - p)) hs (t.drop (a - p).toNat) (u.drop (a - p).toNat) := by
  cases hs with
  | nil =>
    have htu : t = u := h
    subst htu
    exact ⟨rfl, by omega, rfl⟩
  | cons x hs =>
    obtain ⟨⟨hp, hle, hstop⟩, ⟨hgap, hle', hstop'⟩, htake, hrest⟩ := h
    have ha := hs_start x mem_cons_self
    refine ⟨?_, by omega, ⟨ha, hle, ?_⟩, ⟨by omega, hle', ?_⟩, ?_, ?_⟩
    · have hcut := congrArg (List.take (a - p).toNat) htake
      rwa [take_take, take_take, min_eq_left (by omega)] at hcut
    · rw [length_drop]
      omega
    · rw [length_drop]
      omega
    · have hcut := congrArg (List.drop (a - p).toNat) htake
      rw [drop_take, drop_take] at hcut
      rwa [show (x.start - a).toNat = (x.start - p).toNat - (a - p).toNat by omega]
    · rw [drop_drop, drop_drop,
        show (a - p).toNat + (x.stop - a).toNat = (x.stop - p).toNat by omega,
        show (a - p).toNat + (x.newStop - (q + (a - p))).toNat = (x.newStop - q).toNat by omega]
      exact hrest

theorem Aligned.reach {p q b : Int} {hs rest : List Hunk} {t u : List α}
    (h : Aligned p q (hs ++ rest) t u) (hpb : p ≤ b) (hbt : b ≤ p + t.length)
    (hstop : ∀ x ∈ hs, x.stop ≤ b) (hstart : ∀ x ∈ rest, b ≤ x.start) :
    q ≤ b + deltaAfter (q - p) hs ∧ b + deltaAfter (q - p) hs ≤ q + u.length ∧
      Aligned b (b + deltaAfter (q - p) hs) rest (t.drop (b - p).toNat)
        (u.drop (b + deltaAfter (q - p) hs - q).toNat) := by
  induction hs generalizing p q t u with
  | nil =>
    obtain ⟨-, hle, hrest⟩ := h.advance hpb hbt hstart
    rw [deltaAfter_nil, show b + (q - p) - q = b - p by omega, show b + (q - p) = q + (b - p) by omega]
    exact ⟨by omega, by omega, hrest⟩
  | cons x hs ih =>
    obtain ⟨⟨hp, hle, hstop'⟩, ⟨hgap, hle', hnew⟩, -, hrest⟩ := h
    have hxb := hstop x mem_cons_self
    obtain ⟨hlo, hhi, hrest⟩ := ih hrest hxb (by rw [length_drop]; omega) (fun y hy => hstop y (mem_cons_of_mem x hy))
    rw [deltaAfter_cons]
    rw [length_drop] at hhi
    refine ⟨by omega, by omega, ?_⟩
    rw [drop_drop, drop_drop] at hrest
    rwa [show (x.stop - p).toNat + (b - x.stop).toNat = (b - p).toNat by omega,
      show (x.newStop - q).toNat +
        (b + deltaAfter (x.newStop - x.stop) hs - x.newStop).toNat =
          (b + deltaAfter (x.newStop - x.stop) hs - q).toNat by omega] at hrest

def Hunk.newText (h : Hunk) (q : Int) (u : List α) : List α :=
  (u.take (h.newStop - q).toNat).drop (h.newStart - q).toNat

def Hunk.splice (h : Hunk) (q : Int) (u : List α) : Splice α := ⟨h.start, h.stop, h.newText q u⟩

theorem Hunk.newText_drop {h : Hunk} {q q' : Int} (u : List α) (hq : q ≤ q')
    (hstart : q' ≤ h.newStart) (hle : h.newStart ≤ h.newStop) :
    h.newText q' (u.drop (q' - q).toNat) = h.newText q u := by
  rw [newText, newText, take_drop, drop_drop,
    show (q' - q).toNat + (h.newStop - q').toNat = (h.newStop - q).toNat by omega,
    show (q' - q).toNat + (h.newStart - q').toNat = (h.newStart - q).toNat by omega]

theorem Aligned.splice_eq {p q : Int} {hs : List Hunk} {t u : List α} (h : Aligned p q hs t u) :
    splice p (hs.map fun x => x.splice q u) t = u := by
  induction hs generalizing p q t u with
  | nil => exact h
  | cons x hs ih =>
    obtain ⟨⟨hp, hle, hstop⟩, ⟨hgap, hle', hnew⟩, htake, hrest⟩ := h
    have htail : (hs.map fun y => y.splice q u) =
        hs.map fun y => y.splice x.newStop (u.drop (x.newStop - q).toNat) := by
      apply map_congr_left
      intro y hy
      obtain ⟨-, hstart, hle'', -⟩ := hrest.inside y hy
      rw [Hunk.splice, Hunk.splice, Hunk.newText_drop u (by omega) hstart hle'']
    rw [map_cons, splice_cons, htail]
    simp only [Hunk.splice] at ih ⊢
    rw [ih hrest, htake, show (x.start - p).toNat = (x.newStart - q).toNat by omega, Hunk.newText]
    have hfront : u.take (x.newStart - q).toNat ++
        (u.take (x.newStop - q).toNat).drop (x.newStart - q).toNat =
          u.take (x.newStop - q).toNat := by
      have hcut := take_append_drop (x.newStart - q).toNat (u.take (x.newStop - q).toNat)
      rwa [take_take, min_eq_left (by omega)] at hcut
    rw [← append_assoc, hfront, take_append_drop]

structure Group where
  start : Int
  stop : Int
  hunks : List Hunk

def Within : Int → List Group → Int → Prop
  | lo, [], hi => lo ≤ hi
  | lo, g :: gs, hi =>
    lo ≤ g.start ∧ g.start ≤ g.stop ∧ (∀ h ∈ g.hunks, g.start ≤ h.start ∧ h.stop ≤ g.stop) ∧ Within g.stop gs hi

def coarse : Int → List Group → List Hunk
  | _, [] => []
  | d, g :: gs => ⟨g.start, g.stop, g.start + d, g.stop + deltaAfter d g.hunks⟩ :: coarse (deltaAfter d g.hunks) gs

theorem Within.le {lo hi : Int} {gs : List Group} (h : Within lo gs hi) : lo ≤ hi := by
  induction gs generalizing lo with
  | nil => exact h
  | cons g gs ih =>
    obtain ⟨hlo, hle, -, hrest⟩ := h
    have := ih hrest
    omega

theorem Within.lo_le {lo hi : Int} {gs : List Group} (h : Within lo gs hi) :
    ∀ x ∈ gs.flatMap Group.hunks, lo ≤ x.start := by
  induction gs generalizing lo with
  | nil => exact fun x hx => absurd hx not_mem_nil
  | cons g gs ih =>
    obtain ⟨hlo, hle, hin, hrest⟩ := h
    intro x hx
    rcases mem_append.mp hx with hx | hx
    · exact hlo.trans (hin x hx).1
    · exact hlo.trans (hle.trans (ih hrest x hx))

theorem coarse_append (d : Int) (gs gs' : List Group) :
    coarse d (gs ++ gs') =
      coarse d gs ++ coarse (deltaAfter d (gs.flatMap Group.hunks)) gs' := by
  induction gs generalizing d with
  | nil => rfl
  | cons g gs ih => simp [coarse, ih, deltaAfter_append]

theorem coarse_concat (d : Int) (gs : List Group) (g : Group) :
    coarse d (gs ++ [g]) = coarse d gs ++
      [⟨g.start, g.stop, g.start + deltaAfter d (gs.flatMap Group.hunks),
        g.stop + deltaAfter (deltaAfter d (gs.flatMap Group.hunks)) g.hunks⟩] :=
  coarse_append d gs [g]

@[simp] theorem length_coarse (d : Int) (gs : List Group) : (coarse d gs).length = gs.length := by
  induction gs generalizing d with
  | nil => rfl
  | cons g gs ih => simp [coarse, ih]

theorem within_of_pairwise {lo hi : Int} {gs : List Group} (hlo : lo ≤ hi)
    (hpair : gs.Pairwise fun g g' => g.stop ≤ g'.start)
    (hbounds : ∀ g ∈ gs, lo ≤ g.start ∧ g.start ≤ g.stop ∧ g.stop ≤ hi)
    (hin : ∀ g ∈ gs, ∀ h ∈ g.hunks, g.start ≤ h.start ∧ h.stop ≤ g.stop) : Within lo gs hi := by
  induction gs generalizing lo with
  | nil => exact hlo
  | cons g gs ih =>
    rw [pairwise_cons] at hpair
    obtain ⟨h1, h2, h3⟩ := hbounds g mem_cons_self
    refine ⟨h1, h2, hin g mem_cons_self, ih h3 hpair.2 (fun x hx => ?_) fun x hx => ?_⟩
    · obtain ⟨-, hx2⟩ := hbounds x (mem_cons_of_mem g hx)
      exact ⟨hpair.1 x hx, hx2⟩
    · exact hin x (mem_cons_of_mem g hx)

theorem Aligned.coarse {p q : Int} {gs : List Group} {t u : List α}
    (h : Aligned p q (gs.flatMap Group.hunks) t u) (hin : Within p gs (p + t.length)) :
    Aligned p q (coarse (q - p) gs) t u := by
  induction gs generalizing p q t u with
  | nil => exact h
  | cons g gs ih =>
    have hstarts := hin.2.2.2.lo_le
    obtain ⟨hlo, hle, hinside, hrest⟩ := hin
    have hhi := hrest.le
    have hfirst : ∀ x ∈ g.hunks ++ gs.flatMap Group.hunks, g.start ≤ x.start := by
      intro x hx
      rcases mem_append.mp hx with hx | hx
      · exact (hinside x hx).1
      · exact hle.trans (hstarts x hx)
    rw [flatMap_cons] at h
    obtain ⟨htake, hlen, hadvanced⟩ := h.advance hlo (by omega) hfirst
    obtain ⟨hdlo, hdhi, -⟩ := hadvanced.reach hle (by rw [length_drop]; omega) (fun x hx => (hinside x hx).2) hstarts
    obtain ⟨-, hdhi', hreached⟩ := h.reach (by omega) (by omega) (fun x hx => (hinside x hx).2) hstarts
    rw [show q + (g.start - p) - g.start = q - p by omega] at hdlo
    refine ⟨⟨hlo, hle, by omega⟩, ⟨?_, ?_, hdhi'⟩, htake, ?_⟩
    · change g.start + (q - p) - q = g.start - p
      omega
    · change g.start + (q - p) ≤ g.stop + deltaAfter (q - p) g.hunks
      omega
    have hcoarse := ih hreached (by
      rw [length_drop]
      rwa [show g.stop + ((t.length - (g.stop - p).toNat : Nat) : Int) = p + t.length by omega])
    rwa [show g.stop + deltaAfter (q - p) g.hunks - g.stop = deltaAfter (q - p) g.hunks by
      omega] at hcoarse

end Gavea.Lib.Hunks
