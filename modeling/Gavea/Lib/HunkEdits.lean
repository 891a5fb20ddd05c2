import Gavea.Lib.Hunks

namespace Gavea.Lib.Hunks

open Splicing List

variable {α : Type*}

def Hunk.shift (d : Int) (h : Hunk) : Hunk := ⟨h.start, h.stop, h.newStart + d, h.newStop + d⟩

@[simp] theorem Hunk.shift_zero (h : Hunk) : h.shift 0 = h := by simp [Hunk.shift]

theorem Aligned.shift {p q : Int} {hs : List Hunk} {t u : List α} (h : Aligned p q hs t u)
    (d : Int) : Aligned p (q + d) (hs.map (Hunk.shift d)) t u := by
  induction hs generalizing p q t u with
  | nil => exact h
  | cons x hs ih =>
    obtain ⟨hold, ⟨hgap, hle, hstop⟩, htake, hrest⟩ := h
    refine ⟨hold, ⟨?_, ?_, ?_⟩, htake, ?_⟩
    · simp only [Hunk.shift]
      omega
    · simp only [Hunk.shift]
      omega
    · simp only [Hunk.shift]
      omega
    · rw [show (x.shift d).newStop - (q + d) = x.newStop - q by simp only [Hunk.shift]; omega]
      exact ih hrest

theorem aligned_single (p q : Int) (t u : List α) :
    Aligned p q [⟨p, p + t.length, q, q + u.length⟩] t u := by
  have ht : p ≤ p + (t.length : Int) := by omega
  have hu : q ≤ q + (u.length : Int) := by omega
  refine ⟨⟨le_rfl, ht, le_rfl⟩, ⟨(sub_self q).trans (sub_self p).symm, hu, le_rfl⟩, by simp, ?_⟩
  simp only [add_sub_cancel_left, Int.toNat_natCast, drop_length]
  rfl

theorem Aligned.glue {p q p' q' : Int} {hs hs' : List Hunk} {t t' u u' : List α}
    (h : Aligned p q hs t u) (h' : Aligned p' q' hs' t' u') (hp : p' = p + t.length)
    (hq : q' = q + u.length) : Aligned p q (hs ++ hs') (t ++ t') (u ++ u') := by
  induction hs generalizing p q t u with
  | nil =>
    have htu : t = u := h
    subst htu
    cases hs' with
    | nil =>
      have htu : t' = u' := h'
      subst htu
      exact rfl
    | cons x hs' =>
      obtain ⟨⟨hlo, hle, hstop⟩, ⟨hgap, hle', hstop'⟩, htake, hrest⟩ := h'
      refine ⟨⟨by omega, hle, by rw [length_append]; omega⟩,
        ⟨by omega, hle', by rw [length_append]; omega⟩, ?_, ?_⟩
      · rw [show (x.start - p).toNat = t.length + (x.start - p').toNat by omega,
          take_length_add_append, take_length_add_append, htake]
      · rw [show (x.stop - p).toNat = t.length + (x.stop - p').toNat by omega,
          show (x.newStop - q).toNat = t.length + (x.newStop - q').toNat by omega,
          drop_length_add_append, drop_length_add_append]
        exact hrest
  | cons x hs ih =>
    obtain ⟨⟨hlo, hle, hstop⟩, ⟨hgap, hle', hstop'⟩, htake, hrest⟩ := h
    refine ⟨⟨hlo, hle, by rw [length_append]; omega⟩,
      ⟨hgap, hle', by rw [length_append]; omega⟩, ?_, ?_⟩
    · rw [take_append_of_le_length (by omega), take_append_of_le_length (by omega), htake]
    · rw [drop_append_of_le_length (by omega), drop_append_of_le_length (by omega)]
      exact ih hrest (by rw [length_drop]; omega) (by rw [length_drop]; omega)

theorem Aligned.front {p q b : Int} {hs rest : List Hunk} {t u : List α}
    (h : Aligned p q (hs ++ rest) t u) (hpb : p ≤ b) (hbt : b ≤ p + t.length)
    (hstop : ∀ x ∈ hs, x.stop ≤ b) (hstart : ∀ x ∈ rest, b ≤ x.start) :
    Aligned p q hs (t.take (b - p).toNat) (u.take (b + deltaAfter (q - p) hs - q).toNat) := by
  induction hs generalizing p q t u with
  | nil =>
    obtain ⟨htake, -, -⟩ := h.advance hpb hbt hstart
    rw [deltaAfter_nil, show b + (q - p) - q = b - p by omega]
    exact htake
  | cons x hs ih =>
    obtain ⟨hlo, hhi, -⟩ := h.reach hpb hbt hstop hstart
    obtain ⟨⟨hp, hle, hstop'⟩, ⟨hgap, hle', hnew⟩, htake, hrest⟩ := h
    have hxb := hstop x mem_cons_self
    have hstop_tail : ∀ y ∈ hs, y.stop ≤ b := fun y hy => hstop y (mem_cons_of_mem x hy)
    obtain ⟨hlo', -, -⟩ := hrest.reach hxb (by rw [length_drop]; omega) hstop_tail hstart
    have hfront := ih hrest hxb (by rw [length_drop]; omega) hstop_tail
    rw [deltaAfter_cons] at hlo hhi ⊢
    refine ⟨⟨hp, hle, by rw [length_take]; omega⟩,
      ⟨hgap, hle', by rw [length_take]; omega⟩, ?_, ?_⟩
    · rw [take_take, take_take, min_eq_left (by omega), min_eq_left (by omega), htake]
    · rw [drop_take, drop_take,
        show (b - p).toNat - (x.stop - p).toNat = (b - x.stop).toNat by omega,
        show (b + deltaAfter (x.newStop - x.stop) hs - q).toNat - (x.newStop - q).toNat =
          (b + deltaAfter (x.newStop - x.stop) hs - x.newStop).toNat by omega]
      exact hfront

def Hunk.oldText (h : Hunk) (p : Int) (t : List α) : List α := (t.take (h.stop - p).toNat).drop (h.start - p).toNat

theorem Aligned.pairwise {p q : Int} {hs : List Hunk} {t u : List α} (h : Aligned p q hs t u) :
    hs.Pairwise fun x y => x.stop ≤ y.start := by
  induction hs generalizing p q t u with
  | nil => exact List.Pairwise.nil
  | cons x hs ih =>
    obtain ⟨-, -, -, hrest⟩ := h
    exact pairwise_cons.mpr ⟨fun y hy => (hrest.inside y hy).1.1, ih hrest⟩

theorem Aligned.pairwise_new {p q : Int} {hs : List Hunk} {t u : List α} (h : Aligned p q hs t u) :
    hs.Pairwise fun x y => x.newStop ≤ y.newStart := by
  induction hs generalizing p q t u with
  | nil => exact List.Pairwise.nil
  | cons x hs ih =>
    obtain ⟨-, -, -, hrest⟩ := h
    exact pairwise_cons.mpr ⟨fun y hy => (hrest.inside y hy).2.1, ih hrest⟩

theorem take_append_drop_take {t : List α} {a b : Nat} (h : a ≤ b) :
    t.take a ++ (t.take b).drop a = t.take b := by
  have hcut := take_append_drop a (t.take b)
  rwa [take_take, min_eq_left h] at hcut

theorem Aligned.remove {p q : Int} {pre post : List Hunk} {x : Hunk} {t u : List α}
    (h : Aligned p q (pre ++ x :: post) t u) :
    Aligned p q (pre ++ post.map (Hunk.shift (x.stop - x.start - (x.newStop - x.newStart)))) t
      (u.take (x.newStart - q).toNat ++ (x.oldText p t ++ u.drop (x.newStop - q).toNat)) := by
  obtain ⟨⟨hlo, hle, hhi⟩, hnlo, hnle, hnhi⟩ := h.inside x (mem_append_right pre mem_cons_self)
  obtain ⟨-, hpost, hpre⟩ := pairwise_append.mp h.pairwise
  have hstop : ∀ y ∈ pre, y.stop ≤ x.start := fun y hy => hpre y hy x mem_cons_self
  have hstart : ∀ y ∈ x :: post, x.start ≤ y.start := by
    intro y hy
    rcases mem_cons.mp hy with rfl | hy
    · exact le_rfl
    · have := (pairwise_cons.mp hpost).1 y hy
      omega
  obtain ⟨-, -, -, ⟨hgap, -, -⟩, -, hrest⟩ := h.reach hlo (by omega) hstop hstart
  have hnew : x.start + deltaAfter (q - p) pre = x.newStart := by omega
  have hfront := h.front hlo (by omega) hstop hstart
  rw [hnew] at hrest hfront
  rw [drop_drop, drop_drop,
    show (x.start - p).toNat + (x.stop - x.start).toNat = (x.stop - p).toNat by omega,
    show (x.newStart - q).toNat + (x.newStop - x.newStart).toNat = (x.newStop - q).toNat by omega]
    at hrest
  have hold : ((x.oldText p t).length : Int) = x.stop - x.start := by
    rw [Hunk.oldText, length_drop, length_take]
    omega
  have hsame : Aligned x.start x.newStart [] (x.oldText p t) (x.oldText p t) := rfl
  have hback := hsame.glue (hrest.shift (x.stop - x.start - (x.newStop - x.newStart))) (by omega) (by omega)
  have hall := hfront.glue hback (by rw [length_take]; omega) (by rw [length_take]; omega)
  rwa [← append_assoc (t.take _), Hunk.oldText, take_append_drop_take (by omega),
    take_append_drop, ← Hunk.oldText] at hall

theorem Aligned.insert {p q a b : Int} {pre post : List Hunk} {t u : List α} (text : List α)
    (h : Aligned p q (pre ++ post) t u) (hpa : p ≤ a) (hab : a ≤ b) (hbt : b ≤ p + t.length)
    (hpre : ∀ y ∈ pre, y.stop ≤ a) (hpost : ∀ y ∈ post, b ≤ y.start) :
    Aligned p q (pre ++ ⟨a, b, a + deltaAfter (q - p) pre,
        a + deltaAfter (q - p) pre + text.length⟩ :: post.map (Hunk.shift (text.length - (b - a)))) t
      (u.take (a + deltaAfter (q - p) pre - q).toNat ++
        (text ++ u.drop (b + deltaAfter (q - p) pre - q).toNat)) := by
  have hposta : ∀ y ∈ post, a ≤ y.start := fun y hy => hab.trans (hpost y hy)
  have hfront := h.front hpa (by omega) hpre hposta
  obtain ⟨hlo, hhi, -⟩ := h.reach hpa (by omega) hpre hposta
  obtain ⟨hlo', hhi', hrest⟩ := h.reach (by omega) hbt (fun y hy => (hpre y hy).trans hab) hpost
  have hmiddle := aligned_single a (a + deltaAfter (q - p) pre) ((t.take (b - p).toNat).drop (a - p).toNat) text
  have hlength : (((t.take (b - p).toNat).drop (a - p).toNat).length : Int) = b - a := by
    rw [length_drop, length_take]
    omega
  have hback := hmiddle.glue (hrest.shift (text.length - (b - a))) (by omega) (by omega)
  have hall := hfront.glue hback (by rw [length_take]; omega) (by rw [length_take]; omega)
  rw [← append_assoc (t.take _), take_append_drop_take (by omega), take_append_drop,
    hlength, show a + (b - a) = b by omega] at hall
  exact hall

theorem Aligned.same_at {p q a : Int} {hs rest : List Hunk} {t u : List α}
    (h : Aligned p q (hs ++ rest) t u) (hpa : p ≤ a) (hat : a < p + t.length)
    (hstop : ∀ x ∈ hs, x.stop ≤ a) (hstart : ∀ x ∈ rest, a + 1 ≤ x.start) :
    q ≤ a + deltaAfter (q - p) hs ∧ a + deltaAfter (q - p) hs < q + u.length ∧
      u[(a + deltaAfter (q - p) hs - q).toNat]? = t[(a - p).toNat]? := by
  obtain ⟨hlo, hhi, hrest⟩ := h.reach hpa hat.le hstop fun x hx => by
    have := hstart x hx
    omega
  obtain ⟨htake, hlen, -⟩ := hrest.advance (a := a + 1) (by omega) (by rw [length_drop]; omega) hstart
  rw [length_drop] at hlen
  rw [show (a + 1 - a).toNat = 1 by omega] at htake
  have hget := congrArg (fun l => l[0]?) htake
  simp only [getElem?_take_of_lt zero_lt_one, getElem?_drop, Nat.add_zero] at hget
  exact ⟨hlo, by omega, hget.symm⟩

theorem Aligned.first {p q : Int} {hs : List Hunk} {t u : List α} (h : Aligned p q hs t u)
    (hapart : Apart hs) {x : Hunk} (hx : x ∈ hs) (hstart : x.start = p) : x.newStart = q := by
  cases hs with
  | nil => exact absurd hx not_mem_nil
  | cons y hs =>
    obtain ⟨⟨hy, hle, -⟩, ⟨hgap, -, -⟩, -, -⟩ := h
    rcases mem_cons.mp hx with rfl | hmem
    · omega
    · have := (pairwise_cons.mp hapart).1 x hmem
      omega

theorem Aligned.last {p q : Int} {hs : List Hunk} {t u : List α} (h : Aligned p q hs t u)
    (hapart : Apart hs) {x : Hunk} (hx : x ∈ hs) (hstop : x.stop = p + t.length) :
    x.newStop = q + u.length := by
  induction hs generalizing p q t u with
  | nil => exact absurd hx not_mem_nil
  | cons y hs ih =>
    obtain ⟨hhead, htail⟩ := pairwise_cons.mp hapart
    obtain ⟨⟨hlo, hle, hhi⟩, ⟨hgap, hnle, hnew⟩, -, hrest⟩ := h
    rcases mem_cons.mp hx with rfl | hmem
    · have hnil : hs = [] := by
        refine eq_nil_iff_forall_not_mem.mpr fun z hz => ?_
        have h1 := hhead z hz
        have h2 := (hrest.inside z hz).1
        rw [length_drop] at h2
        omega
      rw [hnil, show (x.stop - p).toNat = t.length by omega, drop_length] at hrest
      have hempty : [] = u.drop (x.newStop - q).toNat := hrest
      rw [eq_comm, drop_eq_nil_iff] at hempty
      omega
    · have := ih hrest htail hmem (by rw [length_drop]; omega)
      rw [length_drop] at this
      omega

theorem Hunk.newText_front {h : Hunk} {q c : Int} {u : List α} (w : List α) (hle : h.newStop ≤ c)
    (hc : c - q ≤ u.length) : h.newText q (u.take (c - q).toNat ++ w) = h.newText q u := by
  rw [newText, newText, take_append_of_le_length (by rw [length_take]; omega), take_take, min_eq_left (by omega)]

theorem Hunk.newText_back {h : Hunk} {q b d : Int} {u v : List α} (hqb : q ≤ b)
    (hb : b ≤ h.newStart) (hle : h.newStart ≤ h.newStop) (hv : (v.length : Int) = b + d - q) :
    (h.shift d).newText q (v ++ u.drop (b - q).toNat) = h.newText q u := by
  rw [← Hunk.newText_drop u hqb hb hle, newText, newText,
    show ((h.shift d).newStop - q).toNat = v.length + (h.newStop - b).toNat by
      simp only [shift]; omega,
    show ((h.shift d).newStart - q).toNat = v.length + (h.newStart - b).toNat by
      simp only [shift]; omega,
    take_length_add_append, drop_length_add_append]

structure Hull (p : Int) (t : List α) (pre mid post : List Hunk) (lo hi : Int) : Prop where
  bounds : p ≤ lo ∧ lo ≤ hi ∧ hi ≤ p + t.length
  before : ∀ x ∈ pre, x.stop ≤ lo
  within : ∀ x ∈ mid, lo ≤ x.start ∧ x.stop ≤ hi
  behind : ∀ x ∈ post, hi ≤ x.start

namespace Hull

variable {p q lo hi : Int} {pre mid post pre' mid' post' : List Hunk} {t u u' : List α}

theorem before_all (h : Hull p t pre mid post lo hi) : ∀ x ∈ pre ++ mid, x.stop ≤ hi := by
  intro x hx
  rcases mem_append.mp hx with hx | hx
  · exact (h.before x hx).trans h.bounds.2.1
  · exact (h.within x hx).2

theorem behind_all (h : Hull p t pre mid post lo hi) : ∀ x ∈ mid ++ post, lo ≤ x.start := by
  intro x hx
  rcases mem_append.mp hx with hx | hx
  · exact (h.within x hx).1
  · exact h.bounds.2.1.trans (h.behind x hx)

theorem front_eq (h : Hull p t pre mid post lo hi) (hu : Aligned p q (pre ++ (mid ++ post)) t u) :
    u.take (lo + deltaAfter (q - p) pre - q).toNat =
      splice p (pre.map fun x => x.splice q u) (t.take (lo - p).toNat) := by
  obtain ⟨hlo, hle, hhi⟩ := h.bounds
  have hfront := hu.front hlo (by omega) h.before h.behind_all
  obtain ⟨hlo', hhi', -⟩ := hu.reach hlo (by omega) h.before h.behind_all
  refine hfront.splice_eq.symm.trans (congrArg (fun s => splice p s _) ?_)
  apply map_congr_left
  intro x hx
  have hx' := (hfront.inside x hx).2.2.2
  rw [length_take] at hx'
  have hcut := @Hunk.newText_front _ x q (lo + deltaAfter (q - p) pre) u [] (by omega) (by omega)
  rw [append_nil] at hcut
  rw [Hunk.splice, Hunk.splice, hcut]

theorem back_eq (h : Hull p t pre mid post lo hi) (hu : Aligned p q (pre ++ (mid ++ post)) t u) :
    u.drop (hi + deltaAfter (q - p) (pre ++ mid) - q).toNat =
      splice hi (post.map fun x => x.splice q u) (t.drop (hi - p).toNat) := by
  obtain ⟨hlo, hle, hhi⟩ := h.bounds
  rw [← append_assoc] at hu
  obtain ⟨hlo', hhi', hrest⟩ := hu.reach (by omega) hhi h.before_all h.behind
  refine hrest.splice_eq.symm.trans (congrArg (fun s => splice hi s _) ?_)
  apply map_congr_left
  intro x hx
  obtain ⟨-, h1, h2, -⟩ := hrest.inside x hx
  rw [Hunk.splice, Hunk.splice, Hunk.newText_drop u hlo' h1 h2]

theorem inside_eq (h : Hull p t pre mid post lo hi) (hu : Aligned p q (pre ++ (mid ++ post)) t u) :
    (u.take (hi + deltaAfter (q - p) (pre ++ mid) - q).toNat).drop
        (lo + deltaAfter (q - p) pre - q).toNat =
      splice lo (mid.map fun x => x.splice q u) ((t.take (hi - p).toNat).drop (lo - p).toNat) := by
  obtain ⟨hlo, hle, hhi⟩ := h.bounds
  have hu' : Aligned p q ((pre ++ mid) ++ post) t u := by rwa [append_assoc]
  have hfront := hu'.front (by omega) hhi h.before_all h.behind
  obtain ⟨hlo', hhi', -⟩ := hu'.reach (by omega) hhi h.before_all h.behind
  obtain ⟨hlo'', hhi'', hrest⟩ := hfront.reach hlo (by rw [length_take]; omega) h.before fun x hx => (h.within x hx).1
  refine hrest.splice_eq.symm.trans (congrArg (fun s => splice lo s _) ?_)
  apply map_congr_left
  intro x hx
  obtain ⟨-, h1, h2, h3⟩ := hrest.inside x hx
  rw [length_drop, length_take] at h3
  rw [length_take] at hhi''
  have hcut := @Hunk.newText_front _ x q (hi + deltaAfter (q - p) (pre ++ mid)) u [] (by omega) (by omega)
  rw [append_nil] at hcut
  rw [Hunk.splice, Hunk.splice, Hunk.newText_drop _ hlo'' h1 h2, hcut]

theorem outside_eq (h : Hull p t pre mid post lo hi) (h' : Hull p t pre' mid' post' lo hi)
    (hu : Aligned p q (pre ++ (mid ++ post)) t u) (hu' : Aligned p q (pre' ++ (mid' ++ post')) t u')
    (hpre : (pre.map fun x => x.splice q u) = pre'.map fun x => x.splice q u')
    (hpost : (post.map fun x => x.splice q u) = post'.map fun x => x.splice q u') :
    ∃ inner, u' = u.take (lo + deltaAfter (q - p) pre - q).toNat ++
      (inner ++ u.drop (hi + deltaAfter (q - p) (pre ++ mid) - q).toNat) := by
  have hle : (lo + deltaAfter (q - p) pre' - q).toNat ≤
      (hi + deltaAfter (q - p) (pre' ++ mid') - q).toNat := by
    obtain ⟨hlo, hle, hhi⟩ := h'.bounds
    obtain ⟨hlo', -, hrest⟩ := hu'.reach hlo (by omega) h'.before h'.behind_all
    obtain ⟨hlo'', -, -⟩ := hrest.reach hle (by rw [length_drop]; omega) (fun x hx => (h'.within x hx).2) h'.behind
    rw [show lo + deltaAfter (q - p) pre' - lo = deltaAfter (q - p) pre' by omega, ← deltaAfter_append] at hlo''
    omega
  refine ⟨(u'.take (hi + deltaAfter (q - p) (pre' ++ mid') - q).toNat).drop
    (lo + deltaAfter (q - p) pre' - q).toNat, ?_⟩
  rw [h.front_eq hu, hpre, ← h'.front_eq hu', h.back_eq hu, hpost, ← h'.back_eq hu',
    ← append_assoc, take_append_drop_take hle, take_append_drop]

end Hull

end Gavea.Lib.Hunks
