import Gavea.MapCaches.LinkedMap

namespace Gavea.MapCaches

open Lib.DoublyLinked List

variable {K V : Type*}

namespace LinkedMap

variable {m : LinkedMap K V} {chain front back : List Ref} {r : Ref}

theorem not_mem_unlinked (h : (front ++ r :: back).Nodup) : r ∉ front ++ back := (nodup_middle.mp h).notMem

theorem head_eq_iff (h : Listed m (front ++ r :: back)) : m.head = some r ↔ front = [] := by
  rw [h.head]
  cases front with
  | nil => simp
  | cons a front =>
    have hne : a ≠ r := fun heq => not_mem_unlinked h.nodup (heq ▸ mem_append_left _ mem_cons_self)
    simp [hne]

theorem tail_eq_iff (h : Listed m (front ++ r :: back)) : m.tail = some r ↔ back = [] := by
  rw [h.tail]
  rcases eq_nil_or_concat back with rfl | ⟨l, a, rfl⟩
  · simp
  · have hne : a ≠ r := fun heq => not_mem_unlinked h.nodup (heq ▸ mem_append_right _ (by simp))
    rw [concat_eq_append, ← cons_append, ← append_assoc, getLast?_concat]
    simp [hne]

theorem listed_unlinkFirst {n : Ref} (h : Listed m (r :: n :: back)) :
    Listed { m.setPrevious n none with head := some n } (n :: back) := by
  have hn := h.alive n (mem_cons_of_mem r mem_cons_self)
  refine @Listed.unlink K V m _ [] (n :: back) r h (fun p hp => (nomatch hp)) ?_ ?_ ?_ rfl ?_ ?_
  · intro n' hn'
    obtain rfl := Option.some.inj hn'
    exact previousOf_setPrevious_self m n none hn
  · intro s _ _
    exact nextOf_setPrevious m n none s
  · intro s _ hne
    exact previousOf_setPrevious_ne m n none fun heq => hne (congrArg some heq.symm)
  · exact h.tail
  · intro s hs
    exact (alive_setPrevious m n none s).mpr (h.alive s (mem_cons_of_mem r hs))

theorem listed_unlinkLast {p : Ref} (h : Listed m (front ++ [p] ++ [r])) :
    Listed { m.setNext p none with tail := some p } (front ++ [p]) := by
  have hp := h.alive p (by simp)
  have hlast : (front ++ [p]).getLast? = some p := getLast?_concat
  have hunlink := @Listed.unlink K V m { m.setNext p none with tail := some p } (front ++ [p]) [] r h
  rw [append_nil] at hunlink
  refine hunlink ?_ (fun n hn => (nomatch hn)) ?_ ?_ ?_ hlast.symm ?_
  · intro p' hp'
    rw [hlast] at hp'
    obtain rfl := Option.some.inj hp'
    exact nextOf_setNext_self m p none hp
  · intro s _ hne
    exact nextOf_setNext_ne m p none fun heq => hne (hlast.trans (congrArg some heq.symm))
  · intro s _ _
    exact previousOf_setNext m p none s
  · refine h.head.trans ?_
    cases front <;> rfl
  · intro s hs
    exact (alive_setNext m p none s).mpr (h.alive s (mem_append_left _ hs))

theorem listed_unlinkMiddle {p n : Ref} (h : Listed m (front ++ [p] ++ r :: n :: back)) :
    Listed ((m.setPrevious n (some p)).setNext p (some n)) (front ++ [p] ++ n :: back) := by
  have hp := h.alive p (by simp)
  have hn := h.alive n (by simp)
  have hlast : (front ++ [p]).getLast? = some p := getLast?_concat
  refine h.unlink ?_ ?_ ?_ ?_ ?_ ?_ ?_
  · intro p' hp'
    rw [hlast] at hp'
    obtain rfl := Option.some.inj hp'
    exact nextOf_setNext_self _ p (some n) ((alive_setPrevious m n (some p) p).mpr hp)
  · intro n' hn'
    obtain rfl := Option.some.inj hn'
    rw [hlast, previousOf_setNext]
    exact previousOf_setPrevious_self m n (some p) hn
  · intro s _ hne
    rw [nextOf_setNext_ne _ p (some n) fun heq => hne (hlast.trans (congrArg some heq.symm)), nextOf_setPrevious]
  · intro s _ hne
    rw [previousOf_setNext, previousOf_setPrevious_ne m n (some p) fun heq => hne (congrArg some heq.symm)]
  · refine h.head.trans ?_
    cases front <;> rfl
  · refine h.tail.trans ?_
    rw [getLast?_append, getLast?_cons_cons, ← getLast?_append]
  · intro s hs
    rw [alive_setNext, alive_setPrevious]
    refine h.alive s ?_
    rcases mem_append.mp hs with hs | hs
    · exact mem_append_left _ hs
    · exact mem_append_right _ (mem_cons_of_mem r hs)

theorem listed_detach (h : Listed m chain) (hr : r ∉ chain) :
    Listed ((m.setNext r none).setPrevious r none) chain := by
  refine h.outside (fun s hs => ?_) (fun s hs => ?_) rfl rfl fun s hs => ?_
  · rw [nextOf_setPrevious, nextOf_setNext_ne m r none fun heq => hr (heq ▸ hs)]
  · rw [previousOf_setPrevious_ne _ r none fun heq => hr (heq ▸ hs), previousOf_setNext]
  · rw [alive_setPrevious, alive_setNext]
    exact h.alive s hs

theorem removeItem_spec (h : Listed m (front ++ r :: back)) :
    ∃ m', m.removeItem r = .ok m' ∧ Listed m' (front ++ back) ∧ Relinked m m' := by
  have hout := not_mem_unlinked h.nodup
  have hhead := head_eq_iff h
  have htail := tail_eq_iff h
  obtain ⟨hnext, hprevious⟩ := h.nextOf_eq
  have hdetach {m₁ : LinkedMap K V} (hlisted : Listed m₁ (front ++ back)) (hrel : Relinked m m₁) :
      Listed ((m₁.setNext r none).setPrevious r none) (front ++ back) ∧
        Relinked m ((m₁.setNext r none).setPrevious r none) :=
    ⟨listed_detach hlisted hout, hrel.trans ((relinked_setNext m₁ r none).trans (relinked_setPrevious _ r none))⟩
  rw [removeItem]
  rcases eq_nil_or_concat front with rfl | ⟨l, p, rfl⟩
  · cases back with
    | nil =>
      rw [if_pos ⟨hhead.mpr rfl, htail.mpr rfl⟩]
      have hempty : Listed { m with head := none, tail := none } ([] ++ []) :=
        ⟨trivial, rfl, rfl, nodup_nil, fun _ hs => (nomatch hs)⟩
      exact ⟨_, rfl, hdetach hempty ((Relinked.refl m).ends none none)⟩
    | cons n back =>
      rw [if_neg (fun hboth => nomatch htail.mp hboth.2), if_pos (hhead.mpr rfl), hnext]
      exact ⟨_, rfl, hdetach (listed_unlinkFirst h) ((relinked_setPrevious m n none).ends (some n) m.tail)⟩
  · rw [concat_eq_append] at *
    have hne : l ++ [p] ≠ [] := by simp
    rw [if_neg fun hboth => hne (hhead.mp hboth.1), if_neg fun hfirst => hne (hhead.mp hfirst),
      hprevious, getLast?_concat]
    cases back with
    | nil =>
      rw [if_pos (htail.mpr rfl)]
      rw [append_nil] at hdetach ⊢
      exact ⟨_, rfl, hdetach (listed_unlinkLast h) ((relinked_setNext m p none).ends m.head (some p))⟩
    | cons n back =>
      rw [if_neg (fun hlast => nomatch htail.mp hlast), hnext]
      exact ⟨_, rfl, hdetach (listed_unlinkMiddle h)
        ((relinked_setPrevious m n (some p)).trans (relinked_setNext _ p (some n)))⟩

theorem listed_atTail {m₁ : LinkedMap K V} {t : Ref} (h : Listed m chain)
    (ht : chain.getLast? = some t) (hr : r ∉ chain) (halive : m.Alive r)
    (hn : m₁.nextOf r = none) (hm : ∀ s ∈ chain, m₁.nextOf s = m.nextOf s)
    (hp : ∀ s ∈ chain, m₁.previousOf s = m.previousOf s) (hrel : Relinked m m₁)
    (hhead : m₁.head = m.head) :
    Listed { (m₁.setPrevious r (some t)).setNext t (some r) with tail := some r } (chain ++ [r]) := by
  have htmem : t ∈ chain := mem_of_getLast? ht
  have hrt : r ≠ t := fun heq => hr (heq ▸ htmem)
  have hta : m₁.Alive t := (hrel.alive t).mpr (h.alive t htmem)
  have hra : m₁.Alive r := (hrel.alive r).mpr halive
  refine h.snoc ht hr ?_ ?_ ?_ ?_ ?_ hhead rfl ?_
  · exact (nextOf_setNext_ne _ t (some r) hrt).trans ((nextOf_setPrevious m₁ r _ r).trans hn)
  · exact (previousOf_setNext _ t (some r) r).trans (previousOf_setPrevious_self m₁ r _ hra)
  · exact nextOf_setNext_self _ t (some r) ((alive_setPrevious m₁ r _ t).mpr hta)
  · intro s hs hst
    exact (nextOf_setNext_ne _ t (some r) hst).trans ((nextOf_setPrevious m₁ r _ s).trans (hm s hs))
  · intro s hs
    have hsr : s ≠ r := fun heq => hr (heq ▸ hs)
    exact (previousOf_setNext _ t (some r) s).trans ((previousOf_setPrevious_ne m₁ r _ hsr).trans (hp s hs))
  · intro s hs
    refine (alive_setNext _ t (some r) s).mpr ((alive_setPrevious m₁ r _ s).mpr ?_)
    rw [hrel.alive]
    rcases mem_append.mp hs with hs | hs
    · exact h.alive s hs
    · rw [mem_singleton.mp hs]
      exact halive

theorem listed_atHead {m₁ : LinkedMap K V} {t : Ref} (h : Listed m chain)
    (ht : chain.head? = some t) (hr : r ∉ chain) (halive : m.Alive r)
    (hn : m₁.previousOf r = none) (hm : ∀ s ∈ chain, m₁.nextOf s = m.nextOf s)
    (hp : ∀ s ∈ chain, m₁.previousOf s = m.previousOf s) (hrel : Relinked m m₁)
    (htail : m₁.tail = m.tail) :
    Listed { (m₁.setNext r (some t)).setPrevious t (some r) with head := some r } (r :: chain) := by
  have htmem : t ∈ chain := mem_of_mem_head? ht
  have hrt : r ≠ t := fun heq => hr (heq ▸ htmem)
  have hta : m₁.Alive t := (hrel.alive t).mpr (h.alive t htmem)
  have hra : m₁.Alive r := (hrel.alive r).mpr halive
  refine h.cons ht hr ?_ ?_ ?_ ?_ ?_ htail rfl ?_
  · exact (previousOf_setPrevious_ne _ t (some r) hrt).trans ((previousOf_setNext m₁ r _ r).trans hn)
  · exact (nextOf_setPrevious _ t (some r) r).trans (nextOf_setNext_self m₁ r _ hra)
  · exact previousOf_setPrevious_self _ t (some r) ((alive_setNext m₁ r _ t).mpr hta)
  · intro s hs hst
    exact (previousOf_setPrevious_ne _ t (some r) hst).trans ((previousOf_setNext m₁ r _ s).trans (hp s hs))
  · intro s hs
    have hsr : s ≠ r := fun heq => hr (heq ▸ hs)
    exact (nextOf_setPrevious _ t (some r) s).trans ((nextOf_setNext_ne m₁ r _ hsr).trans (hm s hs))
  · intro s hs
    refine (alive_setPrevious _ t (some r) s).mpr ((alive_setNext m₁ r _ s).mpr ?_)
    rw [hrel.alive]
    rcases mem_cons.mp hs with rfl | hs
    · exact halive
    · exact h.alive s hs

theorem listed_singleton (halive : m.Alive r) (hn : m.nextOf r = none)
    (hp : m.previousOf r = none) :
    Listed { m with head := some r, tail := some r } [r] where
  links := ⟨hp, hn, trivial⟩
  head := rfl
  tail := rfl
  nodup := nodup_singleton r
  alive s hs := by
    rw [mem_singleton.mp hs]
    exact halive

theorem addItemLast_spec (h : Listed m chain) (hr : r ∉ chain) (halive : m.Alive r)
    (hn : m.nextOf r = none) (hp : m.previousOf r = none) :
    ∃ m', m.addItemLast r = .ok m' ∧ Listed m' (chain ++ [r]) ∧ Relinked m m' := by
  rcases eq_nil_or_concat chain with rfl | ⟨l, t, rfl⟩
  · refine ⟨{ m with head := some r, tail := some r }, ?_, listed_singleton halive hn hp, (Relinked.refl m).ends _ _⟩
    rw [addItemLast, show m.head = none from h.head, show m.tail = none from h.tail]
  · rw [concat_eq_append] at *
    have ht : m.tail = some t := h.tail.trans getLast?_concat
    refine ⟨{ (m.setPrevious r (some t)).setNext t (some r) with tail := some r }, ?_,
      listed_atTail h getLast?_concat hr halive hn (fun _ _ => rfl) (fun _ _ => rfl) (Relinked.refl m) rfl,
      ((relinked_setPrevious m r _).trans (relinked_setNext _ t _)).ends m.head (some r)⟩
    rw [addItemLast, ht]
    cases m.head <;> rfl

theorem addItemFirst_spec (h : Listed m chain) (hr : r ∉ chain) (halive : m.Alive r)
    (hn : m.nextOf r = none) (hp : m.previousOf r = none) :
    ∃ m', m.addItemFirst r = .ok m' ∧ Listed m' (r :: chain) ∧ Relinked m m' := by
  cases chain with
  | nil =>
    refine ⟨{ m with tail := some r, head := some r }, ?_, listed_singleton halive hn hp, (Relinked.refl m).ends _ _⟩
    rw [addItemFirst, show m.head = none from h.head, show m.tail = none from h.tail]
  | cons t l =>
    have ht : m.head = some t := h.head
    refine ⟨{ (m.setNext r (some t)).setPrevious t (some r) with head := some r }, ?_,
      listed_atHead h rfl hr halive hp (fun _ _ => rfl) (fun _ _ => rfl) (Relinked.refl m) rfl,
      ((relinked_setNext m r _).trans (relinked_setPrevious _ t _)).ends (some r) m.tail⟩
    rw [addItemFirst, ht]

end LinkedMap
end Gavea.MapCaches

namespace Gavea.MapCaches.LinkedMap

open List

variable {K V : Type*} {m : LinkedMap K V} {front back : List Ref} {r : Ref}

theorem listed_reinsertLast {chain : List Ref} {t : Ref} (h : Listed m chain)
    (ht : chain.getLast? = some t) (hr : r ∉ chain) (halive : m.Alive r) :
    Listed { ((m.setNext r none).setPrevious r (some t)).setNext t (some r) with tail := some r } (chain ++ [r]) :=
  listed_atTail h ht hr halive (nextOf_setNext_self m r none halive)
    (fun _ hs => nextOf_setNext_ne m r none fun heq => hr (heq ▸ hs))
    (fun s _ => previousOf_setNext m r none s) (relinked_setNext m r none) rfl

theorem listed_reinsertFirst {chain : List Ref} {t : Ref} (h : Listed m chain)
    (ht : chain.head? = some t) (hr : r ∉ chain) (halive : m.Alive r) :
    Listed { ((m.setPrevious r none).setNext r (some t)).setPrevious t (some r) with head := some r } (r :: chain) :=
  listed_atHead h ht hr halive (previousOf_setPrevious_self m r none halive)
    (fun s _ => nextOf_setPrevious m r none s)
    (fun _ hs => previousOf_setPrevious_ne m r none fun heq => hr (heq ▸ hs))
    (relinked_setPrevious m r none) rfl

theorem relinked_reinsertLast {m₁ : LinkedMap K V} (h : Relinked m m₁) (t : Ref) :
    Relinked m { ((m₁.setNext r none).setPrevious r (some t)).setNext t (some r) with tail := some r } :=
  (h.trans ((relinked_setNext m₁ r none).trans ((relinked_setPrevious _ r _).trans
    (relinked_setNext _ t _)))).ends m₁.head (some r)

theorem relinked_reinsertFirst {m₁ : LinkedMap K V} (h : Relinked m m₁) (t : Ref) :
    Relinked m { ((m₁.setPrevious r none).setNext r (some t)).setPrevious t (some r) with head := some r } :=
  (h.trans ((relinked_setPrevious m₁ r none).trans ((relinked_setNext _ r _).trans
    (relinked_setPrevious _ t _)))).ends (some r) m₁.tail

theorem touchAsNew_spec {t : Ref} (h : Listed m (front ++ r :: back)) (ht : m.tail = some t) :
    ∃ m', m.touchAsNew r t = .ok m' ∧ Listed m' (front ++ back ++ [r]) ∧ Relinked m m' := by
  have hout := not_mem_unlinked h.nodup
  have hhead := head_eq_iff h
  have htail := tail_eq_iff h
  have halive := h.alive r (by simp)
  obtain ⟨hnext, hprevious⟩ := h.nextOf_eq
  rw [touchAsNew]
  cases back with
  | nil =>
    rw [if_pos (htail.mpr rfl), append_nil]
    exact ⟨m, rfl, h, Relinked.refl m⟩
  | cons n back =>
    have hlast : (front ++ n :: back).getLast? = some t := by
      rw [← ht, h.tail, getLast?_append, getLast?_append, getLast?_cons_cons]
    rw [if_neg (fun hsame => nomatch htail.mp hsame), hnext]
    rcases eq_nil_or_concat front with rfl | ⟨l, p, rfl⟩
    · rw [if_pos (hhead.mpr rfl)]
      have hrel : Relinked m { m.setPrevious n none with head := some n } :=
        (relinked_setPrevious m n none).ends (some n) m.tail
      exact ⟨_, rfl, listed_reinsertLast (listed_unlinkFirst h) hlast hout
        ((hrel.alive r).mpr halive), relinked_reinsertLast hrel t⟩
    · rw [concat_eq_append] at *
      rw [if_neg fun hfirst => absurd (hhead.mp hfirst) (by simp), hprevious, getLast?_concat]
      have hrel : Relinked m ((m.setPrevious n (some p)).setNext p (some n)) :=
        (relinked_setPrevious m n _).trans (relinked_setNext _ p _)
      exact ⟨_, rfl, listed_reinsertLast (listed_unlinkMiddle h) hlast hout
        ((hrel.alive r).mpr halive), relinked_reinsertLast hrel t⟩

theorem touchAsOld_spec {t : Ref} (h : Listed m (front ++ r :: back)) (ht : m.head = some t) :
    ∃ m', m.touchAsOld r t = .ok m' ∧ Listed m' (r :: (front ++ back)) ∧ Relinked m m' := by
  have hout := not_mem_unlinked h.nodup
  have hhead := head_eq_iff h
  have htail := tail_eq_iff h
  have halive := h.alive r (by simp)
  obtain ⟨hnext, hprevious⟩ := h.nextOf_eq
  rw [touchAsOld]
  rcases eq_nil_or_concat front with rfl | ⟨l, p, rfl⟩
  · rw [if_pos (hhead.mpr rfl)]
    exact ⟨m, rfl, h, Relinked.refl m⟩
  · rw [concat_eq_append] at *
    have hfirst : (l ++ [p] ++ back).head? = some t := by
      rw [← ht, h.head]
      cases l <;> rfl
    rw [if_neg fun hsame => absurd (hhead.mp hsame) (by simp), hprevious, getLast?_concat]
    cases back with
    | nil =>
      rw [if_pos (htail.mpr rfl)]
      have hrel : Relinked m { m.setNext p none with tail := some p } :=
        (relinked_setNext m p none).ends m.head (some p)
      rw [append_nil] at hfirst hout ⊢
      exact ⟨_, rfl, listed_reinsertFirst (listed_unlinkLast h) hfirst hout
        ((hrel.alive r).mpr halive), relinked_reinsertFirst hrel t⟩
    | cons n back =>
      rw [if_neg (fun hlast => nomatch htail.mp hlast), hnext]
      have hrel : Relinked m ((m.setPrevious n (some p)).setNext p (some n)) :=
        (relinked_setPrevious m n _).trans (relinked_setNext _ p _)
      exact ⟨_, rfl, listed_reinsertFirst (listed_unlinkMiddle h) hfirst hout
        ((hrel.alive r).mpr halive), relinked_reinsertFirst hrel t⟩

def moved {α : Type*} (touch : Touch) (front : List α) (a : α) (back : List α) : List α :=
  match touch with
  | .none => front ++ a :: back
  | .asOld => a :: (front ++ back)
  | .asNew => front ++ back ++ [a]

theorem touch_spec (h : Listed m (front ++ r :: back)) (touch : Touch) :
    ∃ m', m.touch r touch = .ok m' ∧ Listed m' (moved touch front r back) ∧ Relinked m m' := by
  have hhead : ∃ a, m.head = some a := by
    rw [h.head]
    cases front with
    | nil => exact ⟨r, rfl⟩
    | cons a front => exact ⟨a, rfl⟩
  have htail : ∃ b, m.tail = some b := by
    rw [h.tail]
    exact ⟨_, getLast?_eq_some_getLast (by simp)⟩
  obtain ⟨a, ha⟩ := hhead
  obtain ⟨b, hb⟩ := htail
  rw [LinkedMap.touch, ha, hb]
  cases touch with
  | none => exact ⟨m, rfl, h, Relinked.refl m⟩
  | asOld => exact touchAsOld_spec h ha
  | asNew => exact touchAsNew_spec h hb

end Gavea.MapCaches.LinkedMap

namespace Gavea.MapCaches

open List

variable {K V : Type*}

namespace Recency

variable [DecidableEq K]

def without (key : K) (es : List (K × V)) : List (K × V) := es.filter fun e => e.1 ≠ key

def find (key : K) (es : List (K × V)) : Option (K × V) := es.find? fun e => e.1 = key

/-- An entry becomes the oldest or, in the other cases, the newest. -/
def put (touch : Touch) (e : K × V) (es : List (K × V)) : List (K × V) :=
  match touch with
  | .asOld => e :: es
  | _ => es ++ [e]

def get (key : K) (touch : Touch) (es : List (K × V)) : List (K × V) :=
  match find key es with
  | none => es
  | some e => if touch = .none then es else put touch e (without key es)

def set (key : K) (value : V) (touch : Touch) (es : List (K × V)) : List (K × V) :=
  match find key es with
  | none => put touch (key, value) es
  | some _ =>
    if touch = .none then es.map fun e => if e.1 = key then (key, value) else e
    else put touch (key, value) (without key es)

theorem without_append (key : K) (es es' : List (K × V)) :
    without key (es ++ es') = without key es ++ without key es' :=
  filter_append es es'

theorem without_eq_self {key : K} {es : List (K × V)} (h : ∀ e ∈ es, e.1 ≠ key) :
    without key es = es :=
  filter_eq_self.mpr fun e he => decide_eq_true (h e he)

theorem find_eq_none {key : K} {es : List (K × V)} (h : ∀ e ∈ es, e.1 ≠ key) :
    find key es = none :=
  find?_eq_none.mpr fun e he => by simpa using h e he

theorem find_split {key : K} {value : V} {front back : List (K × V)}
    (h : ∀ e ∈ front, e.1 ≠ key) : find key (front ++ (key, value) :: back) = some (key, value) := by
  rw [find, find?_append, ← find, find_eq_none h]
  simp

theorem without_split {key : K} {value : V} {front back : List (K × V)}
    (h : ∀ e ∈ front, e.1 ≠ key) (h' : ∀ e ∈ back, e.1 ≠ key) :
    without key (front ++ (key, value) :: back) = front ++ back := by
  rw [without_append, without_eq_self h, without, filter_cons_of_neg (by simp), ← without, without_eq_self h']

end Recency

namespace LinkedMap

variable {m m' : LinkedMap K V} {chain front back : List Ref} {r : Ref} {k : K} {v : V}

def entryOf (m : LinkedMap K V) (r : Ref) : Option (K × V) := (m.items r).map fun item => (item.key, item.value)

def entries (m : LinkedMap K V) (chain : List Ref) : List (K × V) := chain.filterMap m.entryOf

theorem entryOf_eq_some : m.entryOf r = some (k, v) ↔ m.keyOf r = some k ∧ m.valueOf r = some v := by
  rw [entryOf, keyOf, valueOf]
  cases m.items r <;> simp

theorem Relinked.entryOf_eq (h : Relinked m m') (r : Ref) : m'.entryOf r = m.entryOf r := by
  refine Option.ext fun e => ?_
  obtain ⟨k, v⟩ := e
  rw [entryOf_eq_some, entryOf_eq_some, h.keyOf, h.valueOf]

theorem Relinked.entries_eq (h : Relinked m m') (chain : List Ref) :
    m'.entries chain = m.entries chain :=
  filterMap_congr fun r _ => h.entryOf_eq r

theorem entries_append (m : LinkedMap K V) (front back : List Ref) :
    m.entries (front ++ back) = m.entries front ++ m.entries back :=
  filterMap_append

theorem entries_cons (h : m.entryOf r = some (k, v)) (back : List Ref) :
    m.entries (r :: back) = (k, v) :: m.entries back :=
  filterMap_cons_some h

structure Chained (m : LinkedMap K V) (chain : List Ref) : Prop where
  listed : Listed m chain
  size : m.size = chain.length
  map : ∀ k r, m.map k = some r ↔ r ∈ chain ∧ m.keyOf r = some k
  fresh : ∀ r ∈ chain, r < m.fresh

theorem Chained.entry (h : Chained m chain) (hr : r ∈ chain) :
    ∃ k v, m.entryOf r = some (k, v) ∧ m.keyOf r = some k ∧ m.valueOf r = some v := by
  obtain ⟨item, hitem⟩ := Option.isSome_iff_exists.mp (h.listed.alive r hr)
  exact ⟨item.key, item.value, by rw [entryOf, hitem]; rfl, by rw [keyOf, hitem]; rfl,
    by rw [valueOf, hitem]; rfl⟩

theorem length_entries_of_alive {l : List Ref} (h : ∀ r ∈ l, m.Alive r) :
    (m.entries l).length = l.length := by
  induction l with
  | nil => rfl
  | cons r l ih =>
    obtain ⟨item, hitem⟩ := Option.isSome_iff_exists.mp (h r mem_cons_self)
    have hentry : m.entryOf r = some (item.key, item.value) := by rw [entryOf, hitem]; rfl
    rw [entries_cons hentry, length_cons, length_cons, ih fun s hs => h s (mem_cons_of_mem r hs)]

theorem Chained.length_entries (h : Chained m chain) :
    (m.entries chain).length = chain.length :=
  length_entries_of_alive h.listed.alive

theorem mem_entries {e : K × V} (he : e ∈ m.entries chain) :
    ∃ r ∈ chain, m.keyOf r = some e.1 := by
  obtain ⟨r, hr, hentry⟩ := mem_filterMap.mp he
  obtain ⟨k, v⟩ := e
  exact ⟨r, hr, (entryOf_eq_some.mp hentry).1⟩

theorem Chained.split (h : Chained m (front ++ r :: back)) (hk : m.keyOf r = some k) :
    (∀ e ∈ m.entries front, e.1 ≠ k) ∧ ∀ e ∈ m.entries back, e.1 ≠ k := by
  have hout := not_mem_unlinked h.listed.nodup
  have hmap := (h.map k r).mpr ⟨by simp, hk⟩
  have hother : ∀ s ∈ front ++ back, m.keyOf s ≠ some k := by
    intro s hs hkey
    have hs' : s ∈ front ++ r :: back := by
      rcases mem_append.mp hs with hs | hs
      · exact mem_append_left _ hs
      · exact mem_append_right _ (mem_cons_of_mem r hs)
    have heq := ((h.map k s).mpr ⟨hs', hkey⟩).symm.trans hmap
    exact hout (Option.some.inj heq ▸ hs)
  constructor
  · intro e he heq
    obtain ⟨s, hs, hkey⟩ := mem_entries he
    exact hother s (mem_append_left _ hs) (heq ▸ hkey)
  · intro e he heq
    obtain ⟨s, hs, hkey⟩ := mem_entries he
    exact hother s (mem_append_right _ hs) (heq ▸ hkey)

theorem Chained.absent (h : Chained m chain) (hk : m.map k = none) :
    ∀ e ∈ m.entries chain, e.1 ≠ k := by
  intro e he heq
  obtain ⟨r, hr, hkey⟩ := mem_entries he
  have hmap := (h.map k r).mpr ⟨hr, heq ▸ hkey⟩
  rw [hk] at hmap
  exact nomatch hmap

def Holds (m : LinkedMap K V) (es : List (K × V)) : Prop := ∃ chain, Chained m chain ∧ m.entries chain = es

theorem chained_new : Chained (LinkedMap.new : LinkedMap K V) [] where
  listed := ⟨trivial, rfl, rfl, nodup_nil, fun _ hr => (nomatch hr)⟩
  size := rfl
  map _ _ := ⟨fun h => (nomatch h), fun h => (nomatch h.1)⟩
  fresh _ hr := nomatch hr

theorem holds_new : Holds (LinkedMap.new : LinkedMap K V) [] := ⟨[], chained_new, rfl⟩

theorem Chained.reorder {chain' : List Ref} (h : Chained m chain) (hlisted : Listed m' chain')
    (hrel : Relinked m m') (hperm : chain'.Perm chain) : Chained m' chain' where
  listed := hlisted
  size := by rw [hrel.size, h.size, hperm.length_eq]
  map k r := by rw [hrel.map, h.map, hperm.mem_iff, hrel.keyOf]
  fresh r hr := by
    rw [hrel.fresh]
    exact h.fresh r (hperm.mem_iff.mp hr)

theorem perm_moved (touch : Touch) (front : List Ref) (r : Ref) (back : List Ref) :
    (moved touch front r back).Perm (front ++ r :: back) := by
  cases touch with
  | none => exact List.Perm.refl _
  | asOld => exact perm_middle.symm
  | asNew =>
    rw [moved, append_assoc]
    exact List.Perm.append_left front (perm_append_singleton r back)

theorem Chained.place (h : Chained m chain) (hk : m.map k = some r) :
    ∃ front back v, chain = front ++ r :: back ∧ m.entryOf r = some (k, v) := by
  obtain ⟨hr, hkey⟩ := (h.map k r).mp hk
  obtain ⟨front, back, rfl⟩ := append_of_mem hr
  obtain ⟨k', v, hentry, hkey', -⟩ := h.entry hr
  obtain rfl := Option.some.inj (hkey.symm.trans hkey')
  exact ⟨front, back, v, rfl, hentry⟩

section

variable [DecidableEq K]

theorem entries_moved (h : Chained m (front ++ r :: back)) (hentry : m.entryOf r = some (k, v))
    {touch : Touch} (htouch : touch ≠ .none) :
    m.entries (moved touch front r back) =
      Recency.put touch (k, v) (Recency.without k (m.entries (front ++ r :: back))) := by
  obtain ⟨hfront, hback⟩ := h.split (entryOf_eq_some.mp hentry).1
  rw [entries_append, entries_cons hentry, Recency.without_split hfront hback]
  cases touch with
  | none => exact absurd rfl htouch
  | asOld => rw [moved, entries_cons hentry, entries_append]; rfl
  | asNew => rw [moved, entries_append, entries_append, entries_cons hentry]; rfl

theorem find_entries (h : Chained m (front ++ r :: back)) (hentry : m.entryOf r = some (k, v)) :
    Recency.find k (m.entries (front ++ r :: back)) = some (k, v) := by
  obtain ⟨hfront, -⟩ := h.split (entryOf_eq_some.mp hentry).1
  rw [entries_append, entries_cons hentry, Recency.find_split hfront]

theorem find_eq_none_of_map (h : Chained m chain) (hk : m.map k = none) :
    Recency.find k (m.entries chain) = none :=
  Recency.find_eq_none (h.absent hk)

end

end LinkedMap
end Gavea.MapCaches
