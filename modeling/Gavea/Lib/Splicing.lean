import Mathlib.Data.List.Basic
import Mathlib.Tactic

namespace Gavea.Lib.Splicing

open List

variable {α : Type*}

/-- Replacement of the stretch from start to stop by text. A list of splices
addresses one common source and all its members take effect at once. -/
structure Splice (α : Type*) where
  start : Int
  stop : Int
  text : List α

/-- The splices lie one after the other from position lo on; touching is allowed. -/
def Chain : Int → List (Splice α) → Prop
  | _, [] => True
  | lo, r :: rs => lo ≤ r.start ∧ r.start ≤ r.stop ∧ Chain r.stop rs

def ChainTo : Int → List (Splice α) → Int → Prop
  | lo, [], hi => lo ≤ hi
  | lo, r :: rs, hi => lo ≤ r.start ∧ r.start ≤ r.stop ∧ ChainTo r.stop rs hi

/-- The result of replacing at once in a source whose rest from position p on is t. -/
def splice : Int → List (Splice α) → List α → List α
  | _, [], t => t
  | p, r :: rs, t => t.take (r.start - p).toNat ++ (r.text ++ splice r.stop rs (t.drop (r.stop - p).toNat))

/-- How much longer than its source the result is. -/
def shift : List (Splice α) → Int
  | [] => 0
  | r :: rs => r.text.length - (r.stop - r.start) + shift rs

theorem Chain.mono {lo lo' : Int} {rs : List (Splice α)} (h : Chain lo rs) (hle : lo' ≤ lo) :
    Chain lo' rs := by
  cases rs with
  | nil => trivial
  | cons r rs => exact ⟨hle.trans h.1, h.2⟩

theorem ChainTo.chain {lo hi : Int} {rs : List (Splice α)} (h : ChainTo lo rs hi) : Chain lo rs := by
  induction rs generalizing lo with
  | nil => trivial
  | cons r rs ih => exact ⟨h.1, h.2.1, ih h.2.2⟩

theorem ChainTo.le {lo hi : Int} {rs : List (Splice α)} (h : ChainTo lo rs hi) : lo ≤ hi := by
  induction rs generalizing lo with
  | nil => exact h
  | cons r rs ih => exact h.1.trans (h.2.1.trans (ih h.2.2))

theorem ChainTo.mono {lo hi hi' : Int} {rs : List (Splice α)} (h : ChainTo lo rs hi)
    (hle : hi ≤ hi') : ChainTo lo rs hi' := by
  induction rs generalizing lo with
  | nil => exact le_trans h hle
  | cons r rs ih => exact ⟨h.1, h.2.1, ih h.2.2⟩

theorem ChainTo.mono_left {lo lo' hi : Int} {rs : List (Splice α)} (h : ChainTo lo rs hi)
    (hle : lo' ≤ lo) : ChainTo lo' rs hi := by
  cases rs with
  | nil => exact le_trans hle h
  | cons r rs => exact ⟨hle.trans h.1, h.2⟩

theorem ChainTo.append {lo mid hi : Int} {rs qs : List (Splice α)} (h : ChainTo lo rs mid)
    (hq : ChainTo mid qs hi) : ChainTo lo (rs ++ qs) hi := by
  induction rs generalizing lo with
  | nil =>
    cases qs with
    | nil => exact le_trans h hq
    | cons q qs => exact ⟨le_trans h hq.1, hq.2⟩
  | cons r rs ih => exact ⟨h.1, h.2.1, ih h.2.2⟩

theorem ChainTo.append_chain {lo mid : Int} {rs qs : List (Splice α)} (h : ChainTo lo rs mid)
    (hq : Chain mid qs) : Chain lo (rs ++ qs) := by
  induction rs generalizing lo with
  | nil => exact hq.mono h
  | cons r rs ih => exact ⟨h.1, h.2.1, ih h.2.2⟩

theorem ChainTo.split {lo hi : Int} {rs qs : List (Splice α)} {r : Splice α}
    (h : ChainTo lo (rs ++ r :: qs) hi) : ChainTo lo rs r.start ∧ ChainTo r.start (r :: qs) hi := by
  induction rs generalizing lo with
  | nil => exact ⟨h.1, le_rfl, h.2⟩
  | cons q rs ih =>
    obtain ⟨hrs, hqs⟩ := ih h.2.2
    exact ⟨⟨h.1, h.2.1, hrs⟩, hqs⟩

@[simp] theorem splice_nil (p : Int) (t : List α) : splice p [] t = t := rfl

theorem splice_cons (p : Int) (r : Splice α) (rs : List (Splice α)) (t : List α) :
    splice p (r :: rs) t = t.take (r.start - p).toNat ++ (r.text ++ splice r.stop rs (t.drop (r.stop - p).toNat)) := rfl

theorem splice_append_left {p q : Int} {rs : List (Splice α)} (u v : List α)
    (hq : q = p + u.length) (h : Chain q rs) : splice p rs (u ++ v) = u ++ splice q rs v := by
  cases rs with
  | nil => rfl
  | cons r rs =>
    obtain ⟨h1, h2, _⟩ := h
    have hs : (r.start - p).toNat = u.length + (r.start - q).toNat := by omega
    have he : (r.stop - p).toNat = u.length + (r.stop - q).toNat := by omega
    simp only [splice, hs, he, take_length_add_append, drop_length_add_append, append_assoc]

theorem splice_take_drop {p q : Int} {rs : List (Splice α)} (t : List α) (hpq : p ≤ q)
    (h : Chain q rs) :
    splice p rs t = t.take (q - p).toNat ++ splice q rs (t.drop (q - p).toNat) := by
  cases rs with
  | nil => simp
  | cons r rs =>
    obtain ⟨h1, h2, _⟩ := h
    have hs : (r.start - p).toNat = (q - p).toNat + (r.start - q).toNat := by omega
    have he : (r.stop - p).toNat = (q - p).toNat + (r.stop - q).toNat := by omega
    simp only [splice, hs, he, take_add, drop_drop, append_assoc]

theorem length_take_of_fits {p q : Int} {rs : List (Splice α)} {t : List α} (hpq : p ≤ q)
    (h : Chain q rs) (hfit : ChainTo p rs (p + t.length)) :
    rs = [] ∨ ((t.take (q - p).toNat).length : Int) = q - p := by
  cases rs with
  | nil => exact .inl rfl
  | cons r rs =>
    right
    have h1 := h.1
    have h2 := hfit.2.1
    have h3 := hfit.2.2.le
    rw [length_take]
    omega

theorem take_splice {p q : Int} {rs : List (Splice α)} {t : List α} (hpq : p ≤ q)
    (h : Chain q rs) (hfit : ChainTo p rs (p + t.length)) :
    (splice p rs t).take (q - p).toNat = t.take (q - p).toNat := by
  rcases length_take_of_fits hpq h hfit with rfl | hlen
  · rfl
  · rw [splice_take_drop t hpq h, take_append_of_le_length (by omega), take_of_length_le (by omega)]

theorem drop_splice {p q : Int} {rs : List (Splice α)} {t : List α} (hpq : p ≤ q)
    (h : Chain q rs) (hfit : ChainTo p rs (p + t.length)) :
    (splice p rs t).drop (q - p).toNat = splice q rs (t.drop (q - p).toNat) := by
  rcases length_take_of_fits hpq h hfit with rfl | hlen
  · rfl
  · rw [splice_take_drop t hpq h, drop_left' (by omega)]

theorem ChainTo.drop {p q : Int} {rs : List (Splice α)} {t : List α} (hpq : p ≤ q)
    (h : Chain q rs) (hfit : ChainTo p rs (p + t.length)) :
    ChainTo q rs (q + (t.drop (q - p).toNat).length) := by
  cases rs with
  | nil => exact le_add_of_nonneg_right (Int.natCast_nonneg _)
  | cons r rs =>
    refine ⟨h.1, h.2.1, hfit.2.2.mono ?_⟩
    rw [length_drop]
    omega

theorem splice_append {p q : Int} {rs qs : List (Splice α)} (t : List α)
    (h : ChainTo p rs q) (hq : Chain q qs) :
    splice p (rs ++ qs) t =
      splice p rs (t.take (q - p).toNat) ++ splice q qs (t.drop (q - p).toNat) := by
  induction rs generalizing p t with
  | nil => exact splice_take_drop t h hq
  | cons r rs ih =>
    obtain ⟨h1, h2, h3⟩ := h
    have hle := h3.le
    have hn : (r.start - p).toNat ≤ (q - p).toNat := by omega
    have hd : (q - p).toNat - (r.stop - p).toNat = (q - r.stop).toNat := by omega
    have ha : (r.stop - p).toNat + (q - r.stop).toNat = (q - p).toNat := by omega
    simp only [cons_append, splice, append_assoc, take_take, min_eq_left hn, drop_take, hd]
    rw [ih (t.drop (r.stop - p).toNat) h3, drop_drop, ha]

theorem splice_append_congr {p q : Int} {rs qs qs' : List (Splice α)} (t : List α)
    (h : ChainTo p rs q) (hq : Chain q qs) (hq' : Chain q qs')
    (heq : ∀ t : List α, splice q qs t = splice q qs' t) :
    splice p (rs ++ qs) t = splice p (rs ++ qs') t := by
  rw [splice_append t h hq, splice_append t h hq', heq]

theorem splice_cons_drop {p : Int} {r : Splice α} (rs : List (Splice α)) (data : List α)
    (h0 : 0 ≤ p) (h1 : p ≤ r.start) (h2 : r.start ≤ r.stop) :
    splice p (r :: rs) (data.drop p.toNat) = (data.take r.start.toNat).drop p.toNat ++
      (r.text ++ splice r.stop rs (data.drop r.stop.toNat)) := by
  have hs : r.start.toNat - p.toNat = (r.start - p).toNat := by omega
  have he : p.toNat + (r.stop - p).toNat = r.stop.toNat := by omega
  rw [splice_cons, drop_drop, drop_take, hs, he]

theorem splice_cons_empty {p q : Int} {rs : List (Splice α)} (t : List α) (hpq : p ≤ q)
    (h : Chain q rs) : splice p (⟨q, q, []⟩ :: rs) t = splice p rs t := by
  rw [splice_take_drop t hpq h]
  rfl

theorem splice_cons_join {p : Int} {a b : Splice α} {rs : List (Splice α)} (t : List α)
    (hp : p ≤ a.start) (ha : a.start ≤ a.stop) (hb : b.start ≤ b.stop) (h : a.stop = b.start) :
    splice p (a :: b :: rs) t = splice p (⟨a.start, b.stop, a.text ++ b.text⟩ :: rs) t := by
  have hd : (a.stop - p).toNat + (b.stop - a.stop).toNat = (b.stop - p).toNat := by omega
  simp only [splice, ← h, sub_self, Int.toNat_zero, take_zero, nil_append, drop_drop, hd, append_assoc]

theorem shift_append (rs qs : List (Splice α)) : shift (rs ++ qs) = shift rs + shift qs := by
  induction rs with
  | nil => simp [shift]
  | cons r rs ih => simp [shift, ih, add_assoc]

theorem length_splice {p : Int} {rs : List (Splice α)} {t : List α}
    (h : ChainTo p rs (p + t.length)) : ((splice p rs t).length : Int) = t.length + shift rs := by
  induction rs generalizing p t with
  | nil => simp [shift]
  | cons r rs ih =>
    obtain ⟨h1, h2, h3⟩ := h
    have hle := h3.le
    have hlen : ((t.drop (r.stop - p).toNat).length : Int) = t.length - (r.stop - p) := by
      rw [length_drop]; omega
    have hih := @ih r.stop (t.drop (r.stop - p).toNat) (h3.mono (by omega))
    have htake : ((t.take (r.start - p).toNat).length : Int) = r.start - p := by
      rw [length_take]; omega
    simp only [splice, shift, length_append, Nat.cast_add]
    omega

/-- Moves splices to where their source moved by k. -/
def Splice.move (k : Int) (r : Splice α) : Splice α := ⟨r.start + k, r.stop + k, r.text⟩

theorem splice_move (p k : Int) (rs : List (Splice α)) (t : List α) :
    splice (p + k) (rs.map (Splice.move k)) t = splice p rs t := by
  induction rs generalizing p t with
  | nil => rfl
  | cons r rs ih =>
    simp only [map_cons, splice_cons, Splice.move, Int.add_sub_add_right]
    rw [← ih r.stop]

theorem splice_cons_move {p : Int} {r : Splice α} {qs : List (Splice α)} {t : List α} (k : Int)
    (rs : List (Splice α)) (hp : p ≤ r.start) (hr : r.start ≤ r.stop) (h : Chain r.stop qs)
    (hfit : ChainTo p qs (p + t.length)) :
    splice (p + k) (r.move k :: rs) (splice p qs t) = t.take (r.start - p).toNat ++
      (r.text ++ splice (r.stop + k) rs (splice r.stop qs (t.drop (r.stop - p).toNat))) := by
  rw [splice_cons]
  simp only [Splice.move, Int.add_sub_add_right]
  rw [take_splice hp (h.mono hr) hfit, drop_splice (hp.trans hr) h hfit]

theorem splice_splice_cons {p q : Int} {r : Splice α} {rs qs : List (Splice α)} {t : List α}
    (k : Int) (hq : q = r.stop + (k + (r.text.length - (r.stop - r.start)))) (h : Chain q qs)
    (hfit : ChainTo p (r :: rs) (p + t.length)) :
    splice (p + k) qs (splice p (r :: rs) t) = t.take (r.start - p).toNat ++
      (r.text ++ splice q qs (splice r.stop rs (t.drop (r.stop - p).toNat))) := by
  have h1 := hfit.1
  have h2 := hfit.2.1
  have h3 := hfit.2.2.le
  have hlen : ((t.take (r.start - p).toNat ++ r.text).length : Int) =
      r.start - p + r.text.length := by
    rw [length_append, length_take]
    omega
  rw [splice_cons, ← append_assoc, splice_append_left _ _ (by rw [hlen, hq]; ring) h, append_assoc]

theorem exists_fits (lo : Int) (rs : List (Splice α)) (h : Chain lo rs) :
    ∃ n : Nat, ∀ m : Nat, n ≤ m → ChainTo lo rs (lo + m) := by
  induction rs generalizing lo with
  | nil => exact ⟨0, fun m _ => le_add_of_nonneg_right (Int.natCast_nonneg m)⟩
  | cons r rs ih =>
    obtain ⟨n, hn⟩ := ih r.stop h.2.2
    have h1 := h.1
    have h2 := h.2.1
    refine ⟨n + (r.stop - lo).toNat, fun m hm => ⟨h1, h2, (hn n le_rfl).mono ?_⟩⟩
    omega

theorem mem_splice {p : Int} {rs : List (Splice α)} {t : List α} {x : α}
    (h : x ∈ splice p rs t) : x ∈ t ∨ ∃ r ∈ rs, x ∈ r.text := by
  induction rs generalizing p t with
  | nil => exact .inl h
  | cons r rs ih =>
    rw [splice_cons, mem_append, mem_append] at h
    rcases h with h | h | h
    · exact .inl (mem_of_mem_take h)
    · exact .inr ⟨r, mem_cons_self, h⟩
    · rcases ih h with h | ⟨q, hq, hx⟩
      · exact .inl (mem_of_mem_drop h)
      · exact .inr ⟨q, mem_cons_of_mem r hq, hx⟩

def Splice.mapText {β : Type*} (f : α → β) (r : Splice α) : Splice β := ⟨r.start, r.stop, r.text.map f⟩

theorem map_splice {β : Type*} (f : α → β) (p : Int) (rs : List (Splice α)) (t : List α) :
    (splice p rs t).map f = splice p (rs.map (Splice.mapText f)) (t.map f) := by
  induction rs generalizing p t with
  | nil => rfl
  | cons r rs ih => simp only [map_cons, splice_cons, Splice.mapText, map_append, map_take, ih, map_drop]

theorem splice_append_right {p : Int} {rs : List (Splice α)} (u v : List α)
    (h : ChainTo p rs (p + u.length)) : splice p rs (u ++ v) = splice p rs u ++ v := by
  have hlength : (p + (u.length : Int) - p).toNat = u.length := by omega
  have hall : Chain (p + (u.length : Int)) ([] : List (Splice α)) := trivial
  have hsplit := splice_append (u ++ v) h hall
  rwa [append_nil, hlength, take_left, drop_left, splice_nil] at hsplit

section Trimming

/-- The one splice leaves alone what the other one replaces by itself. -/
structure Trims (data : List α) (r' r : Splice α) : Prop where
  start_le : r.start ≤ r'.start
  le : r'.start ≤ r'.stop
  stop_le : r'.stop ≤ r.stop
  text_eq : r.text = (data.take r'.start.toNat).drop r.start.toNat ++
    (r'.text ++ (data.take r.stop.toNat).drop r'.stop.toNat)

theorem drop_take_append {data : List α} {a b c : Nat} (hab : a ≤ b) (hbc : b ≤ c) :
    (data.take b).drop a ++ (data.take c).drop b = (data.take c).drop a := by
  have hsplit : data.take c = data.take b ++ (data.take c).drop b := by
    conv_lhs => rw [← take_append_drop b (data.take c), take_take, min_eq_left hbc]
  rcases Nat.lt_or_ge a data.length with hlt | hge
  · conv_rhs => rw [hsplit]
    rw [drop_append_of_le_length (by rw [length_take]; omega)]
  · rw [drop_eq_nil_of_le (by rw [length_take]; omega), drop_eq_nil_of_le (by rw [length_take]; omega),
      drop_eq_nil_of_le (by rw [length_take]; omega), nil_append]

variable {data : List α} {r r' r'' : Splice α} {rs : List (Splice α)} {p : Int}

theorem Trims.trans (h : Trims data r' r) (h' : Trims data r'' r') :
    Trims data r'' r where
  start_le := h.start_le.trans h'.start_le
  le := h'.le
  stop_le := h'.stop_le.trans h.stop_le
  text_eq := by
    have h1 := h.start_le
    have h2 := h'.start_le
    have h3 := h'.le
    have h4 := h'.stop_le
    have h5 := h.stop_le
    rw [h.text_eq, h'.text_eq, ← @drop_take_append _ data r.start.toNat r'.start.toNat
      r''.start.toNat (by omega) (by omega), ← @drop_take_append _ data r''.stop.toNat
      r'.stop.toNat r.stop.toNat (by omega) (by omega)]
    simp only [append_assoc]

theorem Trims.splice_cons_drop (h : Trims data r' r) (h0 : 0 ≤ p) (hp : p ≤ r.start)
    (hrs : Chain r.stop rs) : splice p (r' :: rs) (data.drop p.toNat) =
      splice p (r :: rs) (data.drop p.toNat) := by
  have h1 := h.start_le
  have h2 := h.le
  have h3 := h.stop_le
  have hstop : (r.stop - r'.stop).toNat = r.stop.toNat - r'.stop.toNat := by omega
  have hadd : r'.stop.toNat + (r.stop.toNat - r'.stop.toNat) = r.stop.toNat := by omega
  rw [Gavea.Lib.Splicing.splice_cons_drop rs data h0 (hp.trans h1) h2,
    Gavea.Lib.Splicing.splice_cons_drop rs data h0 hp (h1.trans (h2.trans h3)), h.text_eq,
    splice_take_drop _ h3 hrs, hstop, drop_drop, hadd, ← drop_take,
    ← @drop_take_append _ data p.toNat r.start.toNat r'.start.toNat (by omega) (by omega)]
  simp only [append_assoc]

end Trimming

/-- Every splice does something and no two of them touch. -/
def Normal : List (Splice α) → Prop
  | [] => True
  | r :: rs => (r.start < r.stop ∨ r.text ≠ []) ∧ (∀ q ∈ rs.head?, r.stop < q.start) ∧ Normal rs

section Canonical

variable {mark : α → Prop} {p : Int} {t : List α}

theorem getElem?_splice_ne {r : Splice α} {rs : List (Splice α)}
    (hfit : ChainTo p (r :: rs) (p + t.length)) (hr : r.start < r.stop ∨ r.text ≠ [])
    (htext : ∀ q ∈ r :: rs, ∀ x ∈ q.text, ¬ mark x) (ht : ∀ x ∈ t, mark x) (hnodup : t.Nodup) :
    (splice p (r :: rs) t)[(r.start - p).toNat]? ≠ t[(r.start - p).toNat]? := by
  obtain ⟨h1, h2, h3⟩ := hfit
  have hle := h3.le
  have hlen : (t.take (r.start - p).toNat).length = (r.start - p).toNat := by
    rw [length_take]; omega
  intro heq
  rw [splice_cons, getElem?_append_right hlen.le, hlen, Nat.sub_self] at heq
  cases htxt : r.text with
  | cons x xs =>
    rw [htxt, cons_append, getElem?_cons_zero] at heq
    have hx : x ∈ t := mem_of_getElem? heq.symm
    exact htext r mem_cons_self x (by rw [htxt]; exact mem_cons_self) (ht x hx)
  | nil =>
    rw [htxt, nil_append] at heq
    have hlt : r.start < r.stop := by simpa [htxt] using hr
    have hk : (r.start - p).toNat < t.length := by omega
    rw [getElem?_eq_getElem hk] at heq
    have hmem := mem_splice (mem_of_getElem? heq)
    rcases hmem with hmem | ⟨q, hq, hmem⟩
    · obtain ⟨i, hi, hget⟩ := getElem_of_mem hmem
      rw [getElem_drop] at hget
      have := (List.Nodup.getElem_inj_iff hnodup).mp hget
      omega
    · exact htext q (mem_cons_of_mem r hq) _ hmem (ht _ (getElem_mem hk))

theorem getElem?_splice_of_lt {k : Nat} {rs : List (Splice α)}
    (hfit : ChainTo p rs (p + t.length)) (h : ∀ q ∈ rs.head?, p + k < q.start) :
    (splice p rs t)[k]? = t[k]? := by
  have hchain : Chain (p + (k + 1 : Nat)) rs := by
    cases rs with
    | nil => trivial
    | cons q rs =>
      have := h q rfl
      exact ⟨by push_cast; omega, hfit.2.1, hfit.2.2.chain⟩
  have htake := take_splice (by omega) hchain hfit
  have hk : (p + (k + 1 : Nat) - p).toNat = k + 1 := by omega
  rw [hk] at htake
  have := congrArg (·[k]?) htake
  simpa [getElem?_take] using this

theorem head?_splice_of_normal {r : Splice α} {rs : List (Splice α)}
    (hfit : ChainTo r.stop rs (r.stop + t.length)) (h : ∀ q ∈ rs.head?, r.stop < q.start) :
    (splice r.stop rs t).head? = t.head? := by
  rw [head?_eq_getElem?, head?_eq_getElem?]
  exact getElem?_splice_of_lt hfit (by simpa using h)

theorem append_inj_of_marked {u v y z : List α} (hu : ∀ x ∈ u, ¬ mark x) (hv : ∀ x ∈ v, ¬ mark x)
    (hy : ∀ x ∈ y.head?, mark x) (hz : ∀ x ∈ z.head?, mark x) (h : u ++ y = v ++ z) :
    u = v ∧ y = z := by
  induction u generalizing v with
  | nil =>
    cases v with
    | nil => exact ⟨rfl, h⟩
    | cons b v =>
      rw [nil_append] at h
      exact absurd (hy b (by rw [h]; rfl)) (hv b mem_cons_self)
  | cons a u ih =>
    cases v with
    | nil =>
      rw [nil_append] at h
      exact absurd (hz a (by rw [← h]; rfl)) (hu a mem_cons_self)
    | cons b v =>
      rw [cons_append, cons_append, List.cons.injEq] at h
      obtain ⟨rfl, h⟩ := h
      obtain ⟨rfl, hyz⟩ := ih (fun x hx => hu x (mem_cons_of_mem a hx)) (fun x hx => hv x (mem_cons_of_mem a hx)) h
      exact ⟨rfl, hyz⟩

theorem eq_of_splice_eq {rs qs : List (Splice α)} (hr : ChainTo p rs (p + t.length))
    (hq : ChainTo p qs (p + t.length)) (hnr : Normal rs) (hnq : Normal qs)
    (htr : ∀ r ∈ rs, ∀ x ∈ r.text, ¬ mark x) (htq : ∀ q ∈ qs, ∀ x ∈ q.text, ¬ mark x)
    (ht : ∀ x ∈ t, mark x) (hnodup : t.Nodup) (h : splice p rs t = splice p qs t) : rs = qs := by
  induction rs generalizing qs p t with
  | nil =>
    cases qs with
    | nil => rfl
    | cons q qs => exact absurd (congrArg (·[(q.start - p).toNat]?) h.symm) (getElem?_splice_ne hq hnq.1 htq ht hnodup)
  | cons r rs ih =>
    cases qs with
    | nil => exact absurd (congrArg (·[(r.start - p).toNat]?) h) (getElem?_splice_ne hr hnr.1 htr ht hnodup)
    | cons q qs =>
      have hr1 := hr.1
      have hq1 := hq.1
      have hstart : r.start = q.start := by
        rcases lt_trichotomy r.start q.start with hlt | heq | hlt
        · refine absurd ?_ (getElem?_splice_ne hr hnr.1 htr ht hnodup)
          rw [h]
          exact getElem?_splice_of_lt hq (by simp only [head?_cons, Option.mem_some_iff, forall_eq']; omega)
        · exact heq
        · refine absurd ?_ (getElem?_splice_ne hq hnq.1 htq ht hnodup)
          rw [← h]
          exact getElem?_splice_of_lt hr (by simp only [head?_cons, Option.mem_some_iff, forall_eq']; omega)
      have hrle := hr.2.2.le
      have hqle := hq.2.2.le
      have hr2 := hr.2.1
      have hq2 := hq.2.1
      have hfitr : ChainTo r.stop rs (r.stop + (t.drop (r.stop - p).toNat).length) :=
        hr.2.2.mono (by rw [length_drop]; omega)
      have hfitq : ChainTo q.stop qs (q.stop + (t.drop (q.stop - p).toNat).length) :=
        hq.2.2.mono (by rw [length_drop]; omega)
      have hheadr := head?_splice_of_normal hfitr hnr.2.1
      have hheadq := head?_splice_of_normal hfitq hnq.2.1
      have hmark {k : Nat} {s : List α} (hs : s.head? = (t.drop k).head?) :
          ∀ x ∈ s.head?, mark x := by
        intro x hx
        rw [hs] at hx
        exact ht x (mem_of_mem_drop (mem_of_head? hx))
      rw [splice_cons, splice_cons, hstart] at h
      obtain ⟨htext, hrest⟩ := append_inj_of_marked (htr r mem_cons_self)
        (htq q mem_cons_self) (hmark hheadr) (hmark hheadq) (append_cancel_left h)
      have hstop : r.stop = q.stop := by
        rw [← hrest] at hheadq
        have hhead := hheadr.symm.trans hheadq
        rw [head?_drop, head?_drop] at hhead
        rcases Nat.lt_or_ge (r.stop - p).toNat t.length with hlt | hge
        · have := (getElem?_inj hlt hnodup).mp hhead
          omega
        · rw [getElem?_eq_none hge, eq_comm, getElem?_eq_none_iff] at hhead
          omega
      have hrq : r = q := by
        cases r; cases q; simp_all
      subst hrq
      rw [ih hfitr hfitq hnr.2.2 hnq.2.2 (fun r' hr' => htr r' (mem_cons_of_mem _ hr'))
        (fun q' hq' => htq q' (mem_cons_of_mem _ hq'))
        (fun x hx => ht x (mem_of_mem_drop hx)) (hnodup.sublist (drop_sublist _ _)) hrest]

end Canonical

section Padded

variable {mark : α → Prop} {p : Int} {t x pad : List α}

theorem length_le_of_unmarked {u w : List α} (hu : ∀ a ∈ u, ¬mark a) (hpad : ∀ a ∈ pad, mark a)
    (h : u ++ w = x ++ pad) : ∃ x', x = u ++ x' ∧ w = x' ++ pad := by
  rcases append_eq_append_iff.mp h with ⟨x', hx, hw⟩ | ⟨c, hc, hpadc⟩
  · exact ⟨x', hx, hw⟩
  · cases c with
    | nil =>
      rw [append_nil] at hc
      rw [nil_append] at hpadc
      exact ⟨[], by rw [hc, append_nil], hpadc.symm⟩
    | cons a c =>
      have ha : mark a := hpad a (by rw [hpadc]; exact mem_append_left _ mem_cons_self)
      exact absurd ha (hu a (by rw [hc]; exact mem_append_right _ mem_cons_self))

theorem stop_le_of_keeps_pad {r : Splice α} {rs : List (Splice α)}
    (hfit : ChainTo p (r :: rs) (p + (t ++ pad).length)) (hr : r.start < r.stop ∨ r.text ≠ [])
    (htext : ∀ q ∈ r :: rs, ∀ a ∈ q.text, ¬mark a) (ht : ∀ a ∈ t, ¬mark a)
    (hx : ∀ a ∈ x, ¬mark a) (hpad : ∀ a ∈ pad, mark a) (hnodup : pad.Nodup)
    (h : splice p (r :: rs) (t ++ pad) = x ++ pad) : r.stop ≤ p + t.length := by
  obtain ⟨h1, h2, h3⟩ := hfit
  have hle := h3.le
  rw [length_append] at hle
  by_contra hlt
  rw [splice_cons] at h
  rcases h2.lt_or_eq with hlt' | heq
  · -- the letter at m is lost
    obtain ⟨m, hm⟩ : ∃ m : Nat, m = (r.start - p).toNat - t.length := ⟨_, rfl⟩
    have hmlt : m < pad.length := by omega
    have hmem : pad[m] ∈ x ++ pad := mem_append_right _ (getElem_mem hmlt)
    have hmark := hpad _ (getElem_mem hmlt)
    have hdrop (k : Nat) (hk : m < k) : pad[m] ∉ pad.drop k := by
      intro hin
      obtain ⟨i, hi, hget⟩ := getElem_of_mem hin
      rw [getElem_drop] at hget
      have hinj := (List.Nodup.getElem_inj_iff hnodup).mp hget
      omega
    have hdropt (k : Nat) (hk : t.length + m < k) : pad[m] ∉ (t ++ pad).drop k := by
      rw [drop_append, drop_eq_nil_of_le (by omega), nil_append]
      exact hdrop _ (by omega)
    rw [← h, mem_append, mem_append] at hmem
    rcases hmem with hin | hin | hin
    · rw [take_append, mem_append] at hin
      rcases hin with hin | hin
      · exact ht _ (mem_of_mem_take hin) hmark
      · obtain ⟨i, hi, hget⟩ := getElem_of_mem hin
        rw [length_take] at hi
        rw [getElem_take] at hget
        have hinj := (List.Nodup.getElem_inj_iff hnodup).mp hget
        omega
    · exact htext r mem_cons_self _ hin hmark
    · rcases mem_splice hin with hin | ⟨q, hq, hin⟩
      · exact hdropt _ (by omega) hin
      · exact htext q (mem_cons_of_mem r hq) _ hin hmark
  · have hne : r.text ≠ [] := hr.resolve_left (by omega)
    obtain ⟨a, text, hcons⟩ := exists_cons_of_ne_nil hne
    obtain ⟨k, hk⟩ : ∃ k : Nat, k = (r.start - p).toNat - t.length := ⟨_, rfl⟩
    have htake : (t ++ pad).take (r.start - p).toNat = t ++ pad.take k := by
      rw [take_append, take_of_length_le (by omega), hk]
    have hk0 : k ≠ 0 := by omega
    have hhead : ∀ b ∈ (pad.take k ++ (r.text ++
        splice r.stop rs ((t ++ pad).drop (r.stop - p).toNat))).head?, mark b := by
      intro b hb
      cases pad with
      | nil => rw [length_nil] at hle; omega
      | cons c pad =>
        obtain ⟨k, rfl⟩ := Nat.exists_eq_succ_of_ne_zero hk0
        rw [take_succ_cons, cons_append, head?_cons, Option.mem_some_iff] at hb
        exact hb ▸ hpad c mem_cons_self
    rw [htake, append_assoc] at h
    obtain ⟨-, hrest⟩ := append_inj_of_marked ht hx hhead (fun b hb => hpad b (mem_of_head? hb)) h
    have hsplit : pad.take k ++ (r.text ++ splice r.stop rs ((t ++ pad).drop (r.stop - p).toNat)) =
        pad.take k ++ pad.drop k := by
      rw [hrest, take_append_drop]
    have hin : a ∈ pad.drop k := by
      rw [← append_cancel_left hsplit, hcons]
      exact mem_cons_self
    exact htext r mem_cons_self a (by rw [hcons]; exact mem_cons_self) (hpad a (mem_of_mem_drop hin))

theorem chainTo_of_keeps_pad {rs : List (Splice α)} (hfit : ChainTo p rs (p + (t ++ pad).length))
    (hnormal : Normal rs) (htext : ∀ q ∈ rs, ∀ a ∈ q.text, ¬mark a) (ht : ∀ a ∈ t, ¬mark a)
    (hx : ∀ a ∈ x, ¬mark a) (hpad : ∀ a ∈ pad, mark a) (hnodup : pad.Nodup)
    (h : splice p rs (t ++ pad) = x ++ pad) : ChainTo p rs (p + t.length) := by
  induction rs generalizing p t x with
  | nil => exact le_add_of_nonneg_right (Int.natCast_nonneg _)
  | cons r rs ih =>
    have hstop := stop_le_of_keeps_pad hfit hnormal.1 htext ht hx hpad hnodup h
    obtain ⟨h1, h2, h3⟩ := hfit
    have hdrop : (t ++ pad).drop (r.stop - p).toNat = t.drop (r.stop - p).toNat ++ pad :=
      drop_append_of_le_length (by omega)
    have hunmarked : ∀ a ∈ (t ++ pad).take (r.start - p).toNat ++ r.text, ¬mark a := by
      intro a ha
      rw [take_append_of_le_length (by omega), mem_append] at ha
      rcases ha with ha | ha
      · exact ht a (mem_of_mem_take ha)
      · exact htext r mem_cons_self a ha
    rw [splice_cons, hdrop, ← append_assoc] at h
    obtain ⟨x', hx', hrest⟩ := length_le_of_unmarked hunmarked hpad h
    have hlength : r.stop + ((t.drop (r.stop - p).toNat ++ pad).length : Int) =
        p + ((t ++ pad).length : Int) := by
      rw [length_append, length_append, length_drop]
      omega
    have hto := ih (by rwa [hlength]) hnormal.2.2
      (fun q hq => htext q (mem_cons_of_mem r hq))
      (fun a ha => ht a (mem_of_mem_drop ha))
      (fun a ha => hx a (by rw [hx']; exact mem_append_right _ ha)) hrest
    refine ⟨h1, h2, hto.mono ?_⟩
    rw [length_drop]
    omega

end Padded

section Inverted

variable {α : Type*}

/-- The splices that undo the given ones, where slice reads the source; k says how much
longer the result is than the source in front of the first one. -/
def inverted (slice : Int → Int → List α) : Int → List (Splice α) → List (Splice α)
  | _, [] => []
  | k, r :: rs => ⟨r.start + k, r.start + k + r.text.length, slice r.start r.stop⟩ ::
      inverted slice (k + (r.text.length - (r.stop - r.start))) rs

theorem chain_inverted {slice : Int → Int → List α} {p k : Int} {rs : List (Splice α)}
    (h : Chain p rs) : Chain (p + k) (inverted slice k rs) := by
  induction rs generalizing p k with
  | nil => trivial
  | cons r rs ih =>
    obtain ⟨h1, h2, h3⟩ := h
    have hk : r.start + k + r.text.length = r.stop + (k + (r.text.length - (r.stop - r.start))) := by ring
    refine ⟨Int.add_le_add_right h1 k, Int.le_add_of_nonneg_right (Int.natCast_nonneg _), ?_⟩
    rw [hk]
    exact ih h3

theorem splice_inverted {slice : Int → Int → List α} {p k : Int} {rs : List (Splice α)}
    {t : List α} (h : ChainTo p rs (p + t.length))
    (hslice : ∀ a b, p ≤ a → a ≤ b → slice a b = (t.drop (a - p).toNat).take (b - a).toNat) :
    splice (p + k) (inverted slice k rs) (splice p rs t) = t := by
  induction rs generalizing p k t with
  | nil => rfl
  | cons r rs ih =>
    obtain ⟨h1, h2, h3⟩ := h
    have hle := h3.le
    have hdrop : r.stop + ((t.drop (r.stop - p).toNat).length : Int) = p + t.length := by
      rw [length_drop]
      omega
    have hrest := @ih r.stop (k + (r.text.length - (r.stop - r.start)))
      (t.drop (r.stop - p).toNat) (by rwa [hdrop]) fun a b ha hab => by
        have hd : (r.stop - p).toNat + (a - r.stop).toNat = (a - p).toNat := by omega
        rw [hslice a b (by omega) hab, drop_drop, hd]
    have hk : r.start + k + r.text.length = r.stop + (k + (r.text.length - (r.stop - r.start))) := by ring
    have hfront : (t.take (r.start - p).toNat).length = (r.start - p).toNat := by
      rw [length_take]
      omega
    have hstart : r.start + k - (p + k) = r.start - p := by ring
    have hstop : (r.start + k + r.text.length - (p + k)).toNat = (r.start - p).toNat + r.text.length := by omega
    have hslices : (r.start - p).toNat + (r.stop - r.start).toNat = (r.stop - p).toNat := by omega
    rw [inverted, splice_cons, splice_cons, hstart, hstop, ← drop_drop, take_left' hfront, drop_left' hfront,
      drop_left, hk, hrest, hslice _ _ h1 h2, ← hslices, ← drop_drop, take_append_drop, take_append_drop]

end Inverted

end Gavea.Lib.Splicing
