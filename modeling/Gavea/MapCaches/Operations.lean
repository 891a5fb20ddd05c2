import Gavea.MapCaches.Entries

namespace Gavea.MapCaches.LinkedMap

open List

variable {K V : Type*} [DecidableEq K] {m m' : LinkedMap K V} {es : List (K × V)}

theorem find_of_map_none {k : K} (h : Holds m es) (hk : m.map k = none) :
    Recency.find k es = none := by
  obtain ⟨chain, hchained, rfl⟩ := h
  exact find_eq_none_of_map hchained hk

theorem get_spec (h : Holds m es) (k : K) (touch : Touch) :
    ∃ m', m.get k touch = .ok (m', (Recency.find k es).map Prod.snd) ∧
      Holds m' (Recency.get k touch es) := by
  cases hk : m.map k with
  | none =>
    have hfind := find_of_map_none h hk
    refine ⟨m, ?_, ?_⟩
    · rw [LinkedMap.get, hk, hfind]
      rfl
    · rw [Recency.get, hfind]
      exact h
  | some r =>
    obtain ⟨chain, hchained, rfl⟩ := h
    obtain ⟨front, back, v, rfl, hentry⟩ := hchained.place hk
    have hfind := find_entries hchained hentry
    have hvalue := (entryOf_eq_some.mp hentry).2
    rw [LinkedMap.get, hk, Recency.get, hfind]
    by_cases htouch : touch = .none
    · refine ⟨m, ?_, ?_⟩
      · simp only [htouch, ne_eq, not_true_eq_false, if_false]
        show Except.ok (m, m.valueOf r) = Except.ok (m, some v)
        rw [hvalue]
      · simp only [if_pos htouch]
        exact ⟨_, hchained, rfl⟩
    · obtain ⟨m', htouched, hlisted, hrel⟩ := touch_spec hchained.listed touch
      refine ⟨m', ?_, ?_⟩
      · simp only [if_pos htouch, htouched]
        show Except.ok (m', m'.valueOf r) = Except.ok (m', some v)
        rw [hrel.valueOf, hvalue]
      · simp only [if_neg htouch]
        refine ⟨_, hchained.reorder hlisted hrel (perm_moved touch front r back), ?_⟩
        rw [hrel.entries_eq, entries_moved hchained hentry htouch]

omit [DecidableEq K] in
theorem chained_setValue {chain : List Ref} (h : Chained m chain) (r : Ref) (v : V) :
    Chained (m.setValue r v) chain where
  listed := h.listed.outside
    (fun s _ => bind_modify m r (fun item => { item with value := v }) Item.next (fun _ => rfl) s)
    (fun s _ => bind_modify m r (fun item => { item with value := v }) Item.previous (fun _ => rfl) s)
    rfl rfl fun s hs => (alive_modify m r _ s).mpr (h.listed.alive s hs)
  size := h.size
  map k s := by
    have hkey : (m.setValue r v).keyOf s = m.keyOf s :=
      map_modify m r (fun item => { item with value := v }) Item.key (fun _ => rfl) s
    rw [hkey]
    exact h.map k s
  fresh := h.fresh

omit [DecidableEq K] in
theorem entryOf_setValue_ne {r s : Ref} (v : V) (h : s ≠ r) :
    (m.setValue r v).entryOf s = m.entryOf s := by
  rw [entryOf, setValue, items_modify_ne m r _ h, entryOf]

omit [DecidableEq K] in
theorem entryOf_setValue_self {r : Ref} {k : K} (h : m.keyOf r = some k) (v' : V) :
    (m.setValue r v').entryOf r = some (k, v') := by
  obtain ⟨item, hitem, rfl⟩ := Option.map_eq_some_iff.mp h
  rw [entryOf, setValue, items_modify_self, hitem]
  rfl

omit [DecidableEq K] in
theorem entries_setValue {front back : List Ref} {r : Ref} {k : K} {v : V}
    (h : Chained m (front ++ r :: back)) (hentry : m.entryOf r = some (k, v)) (v' : V) :
    (m.setValue r v').entries (front ++ r :: back) =
      m.entries front ++ (k, v') :: m.entries back := by
  have hout := not_mem_unlinked h.listed.nodup
  have hother (l : List Ref) (hl : r ∉ l) : (m.setValue r v').entries l = m.entries l :=
    filterMap_congr fun s hs => entryOf_setValue_ne v' fun heq => hl (heq ▸ hs)
  rw [entries_append, entries_cons (entryOf_setValue_self (entryOf_eq_some.mp hentry).1 v'),
    hother front fun hmem => hout (mem_append_left _ hmem), hother back fun hmem => hout (mem_append_right _ hmem)]

/-- A new item that is in no list yet. -/
def allocate (m : LinkedMap K V) (k : K) (v : V) : LinkedMap K V :=
  { m with
    items := Function.update m.items m.fresh (some ⟨k, v, none, none⟩)
    fresh := m.fresh + 1 }

omit [DecidableEq K] in
theorem items_allocate_ne {s : Ref} (k : K) (v : V) (h : s < m.fresh) :
    (m.allocate k v).items s = m.items s :=
  Function.update_of_ne h.ne _ _

omit [DecidableEq K] in
theorem items_allocate_self (k : K) (v : V) :
    (m.allocate k v).items m.fresh = some ⟨k, v, none, none⟩ :=
  Function.update_self _ _ _

omit [DecidableEq K] in
theorem chained_allocate {chain : List Ref} (h : Chained m chain) (k : K) (v : V) :
    Listed (m.allocate k v) chain ∧ (m.allocate k v).entries chain = m.entries chain ∧
      ∀ s ∈ chain, (m.allocate k v).keyOf s = m.keyOf s := by
  have hitems : ∀ s ∈ chain, (m.allocate k v).items s = m.items s := fun s hs => items_allocate_ne k v (h.fresh s hs)
  refine ⟨h.listed.outside (fun s hs => ?_) (fun s hs => ?_) rfl rfl (fun s hs => ?_),
    filterMap_congr fun s hs => ?_, fun s hs => ?_⟩
  · rw [nextOf, hitems s hs, nextOf]
  · rw [previousOf, hitems s hs, previousOf]
  · rw [Alive, hitems s hs]
    exact h.listed.alive s hs
  · rw [entryOf, hitems s hs, entryOf]
  · rw [keyOf, hitems s hs, keyOf]

theorem chained_insert {chain chain' : List Ref} {k : K} {v : V} (h : Chained m chain)
    (hk : m.map k = none) (hlisted : Listed m' chain') (hrel : Relinked (m.allocate k v) m')
    (hperm : chain'.Perm (m.fresh :: chain)) :
    Chained { m' with map := Function.update m'.map k (some m.fresh), size := m'.size + 1 } chain' := by
  obtain ⟨-, -, hkeys⟩ := chained_allocate h k v
  have hfresh : m.fresh ∉ chain := fun hmem => lt_irrefl _ (h.fresh m.fresh hmem)
  have hself : m'.keyOf m.fresh = some k := by
    rw [hrel.keyOf, keyOf, items_allocate_self]
    rfl
  have hold : ∀ s ∈ chain, m'.keyOf s = m.keyOf s := fun s hs => (hrel.keyOf s).trans (hkeys s hs)
  constructor
  case listed => exact hlisted.outside (fun _ _ => rfl) (fun _ _ => rfl) rfl rfl hlisted.alive
  case size =>
    have hsize : m'.size = m.size := hrel.size
    dsimp only
    rw [hsize, h.size, hperm.length_eq, length_cons]
    omega
  case map =>
    intro k' s
    have hmap : m'.map = m.map := hrel.map
    show Function.update m'.map k (some m.fresh) k' = some s ↔ s ∈ chain' ∧ m'.keyOf s = some k'
    rw [hperm.mem_iff, mem_cons, hmap]
    by_cases hkk : k' = k
    · subst hkk
      rw [Function.update_self]
      constructor
      · intro heq
        obtain rfl := Option.some.inj heq
        exact ⟨Or.inl rfl, hself⟩
      · rintro ⟨rfl | hs, hkey⟩
        · rfl
        · rw [hold s hs] at hkey
          cases hk.symm.trans ((h.map k' s).mpr ⟨hs, hkey⟩)
    · rw [Function.update_of_ne hkk, h.map]
      constructor
      · rintro ⟨hs, hkey⟩
        exact ⟨Or.inr hs, (hold s hs).trans hkey⟩
      · rintro ⟨rfl | hs, hkey⟩
        · exact absurd (Option.some.inj (hself.symm.trans hkey)).symm hkk
        · exact ⟨hs, (hold s hs).symm.trans hkey⟩
  case fresh =>
    intro s hs
    have hbound : m'.fresh = m.fresh + 1 := hrel.fresh
    show s < m'.fresh
    rw [hbound]
    rcases mem_cons.mp (hperm.mem_iff.mp hs) with rfl | hs
    · exact Nat.lt_succ_self _
    · exact Nat.lt_succ_of_lt (h.fresh s hs)

def addItem (m : LinkedMap K V) (item : Ref) : Touch → Except MapError (LinkedMap K V)
  | .none => m.addItemLast item
  | .asOld => m.addItemFirst item
  | .asNew => m.addItemLast item

theorem set_of_absent {k : K} (hk : m.map k = none) (v : V) (touch : Touch) :
    m.set k v touch = ((m.allocate k v).addItem m.fresh touch).map fun m₁ =>
      { m₁ with map := Function.update m₁.map k (some m.fresh), size := m₁.size + 1 } := by
  rw [LinkedMap.set, hk]
  cases touch
  case none =>
    show ((m.allocate k v).addItemLast m.fresh >>= _) = _
    rw [addItem]
    cases (m.allocate k v).addItemLast m.fresh <;> rfl
  case asOld =>
    show ((m.allocate k v).addItemFirst m.fresh >>= _) = _
    rw [addItem]
    cases (m.allocate k v).addItemFirst m.fresh <;> rfl
  case asNew =>
    show ((m.allocate k v).addItemLast m.fresh >>= _) = _
    rw [addItem]
    cases (m.allocate k v).addItemLast m.fresh <;> rfl

theorem set_spec_of_absent (h : Holds m es) {k : K} (hk : m.map k = none) (v : V) (touch : Touch) :
    ∃ m', m.set k v touch = .ok m' ∧ Holds m' (Recency.put touch (k, v) es) := by
  obtain ⟨chain, hchained, rfl⟩ := h
  obtain ⟨hlisted, hentries, -⟩ := chained_allocate hchained k v
  have hfresh : m.fresh ∉ chain := fun hmem => lt_irrefl _ (hchained.fresh m.fresh hmem)
  have hself := @items_allocate_self K V m k v
  have halive : (m.allocate k v).Alive m.fresh := by
    rw [Alive, hself]
    rfl
  have hnext : (m.allocate k v).nextOf m.fresh = none := by
    rw [nextOf, hself]
    rfl
  have hprevious : (m.allocate k v).previousOf m.fresh = none := by
    rw [previousOf, hself]
    rfl
  have hentry : (m.allocate k v).entryOf m.fresh = some (k, v) := by
    rw [entryOf, hself]
    rfl
  have hlast := addItemLast_spec hlisted hfresh halive hnext hprevious
  have hfirst := addItemFirst_spec hlisted hfresh halive hnext hprevious
  have hatEnd {m₁ : LinkedMap K V} (hlisted : Listed m₁ (chain ++ [m.fresh]))
      (hrel : Relinked (m.allocate k v) m₁) :
      Holds { m₁ with map := Function.update m₁.map k (some m.fresh), size := m₁.size + 1 }
        (m.entries chain ++ [(k, v)]) := by
    refine ⟨_, chained_insert hchained hk hlisted hrel (perm_append_singleton _ _), ?_⟩
    have hall := hrel.entries_eq (chain ++ [m.fresh])
    rw [entries_append, entries_append, hentries, entries_cons hentry, ← entries_append] at hall
    exact hall
  rw [set_of_absent hk]
  cases touch with
  | none =>
    obtain ⟨m₁, hadd, hlisted₁, hrel⟩ := hlast
    rw [addItem, hadd]
    exact ⟨_, rfl, hatEnd hlisted₁ hrel⟩
  | asNew =>
    obtain ⟨m₁, hadd, hlisted₁, hrel⟩ := hlast
    rw [addItem, hadd]
    exact ⟨_, rfl, hatEnd hlisted₁ hrel⟩
  | asOld =>
    obtain ⟨m₁, hadd, hlisted₁, hrel⟩ := hfirst
    rw [addItem, hadd]
    refine ⟨_, rfl, _, chained_insert hchained hk hlisted₁ hrel (List.Perm.refl _), ?_⟩
    have hall := hrel.entries_eq (m.fresh :: chain)
    rw [entries_cons hentry, hentries] at hall
    exact hall

theorem set_spec (h : Holds m es) (k : K) (v : V) (touch : Touch) :
    ∃ m', m.set k v touch = .ok m' ∧ Holds m' (Recency.set k v touch es) := by
  cases hk : m.map k with
  | none =>
    rw [Recency.set, find_of_map_none h hk]
    exact set_spec_of_absent h hk v touch
  | some r =>
    obtain ⟨chain, hchained, rfl⟩ := h
    obtain ⟨front, back, v', rfl, hentry⟩ := hchained.place hk
    have hfind := find_entries hchained hentry
    have hkey := (entryOf_eq_some.mp hentry).1
    have hvalued := chained_setValue hchained r v
    have hentries := entries_setValue hchained hentry v
    have hself : (m.setValue r v).entryOf r = some (k, v) := entryOf_setValue_self hkey v
    obtain ⟨hfront, hback⟩ := hchained.split hkey
    rw [LinkedMap.set, hk, Recency.set, hfind]
    by_cases htouch : touch = .none
    · refine ⟨m.setValue r v, ?_, _, hvalued, ?_⟩
      · simp only [htouch, ne_eq, not_true_eq_false, if_false]
        rfl
      · simp only [if_pos htouch]
        rw [hentries, entries_append, entries_cons hentry, map_append, map_cons, if_pos rfl]
        have hid : ∀ l : List (K × V), (∀ e ∈ l, e.1 ≠ k) →
            l.map (fun e => if e.1 = k then (k, v) else e) = l := by
          intro l hl
          conv_rhs => rw [← map_id l]
          exact map_congr_left fun e he => if_neg (hl e he)
        rw [hid _ hfront, hid _ hback]
    · obtain ⟨m', htouched, hlisted, hrel⟩ := touch_spec hvalued.listed touch
      refine ⟨m', ?_, _, hvalued.reorder hlisted hrel (perm_moved touch front r back), ?_⟩
      · simp only [ne_eq, htouch, not_false_eq_true, if_true]
        exact htouched
      · simp only [if_neg htouch]
        rw [hrel.entries_eq, entries_moved hvalued hself htouch, hentries, Recency.without_split hfront hback,
          entries_append, entries_cons hentry, Recency.without_split hfront hback]

end Gavea.MapCaches.LinkedMap

namespace Gavea.MapCaches.LinkedMap

open List

variable {K V : Type*} {m m' : LinkedMap K V} {es : List (K × V)} {chain lost kept : List Ref}

theorem Chained.cut (h : Chained m chain) (hlisted : Listed m' kept)
    (hperm : chain.Perm (lost ++ kept)) (hkey : ∀ r, m'.keyOf r = m.keyOf r)
    (hsize : m'.size = kept.length) (hfresh : m'.fresh = m.fresh)
    (hmap : ∀ k r, m'.map k = some r ↔ m.map k = some r ∧ ∀ s ∈ lost, m.keyOf s ≠ some k) :
    Chained m' kept where
  listed := hlisted
  size := hsize
  map k r := by
    rw [hmap, h.map, hkey, hperm.mem_iff, mem_append]
    constructor
    · rintro ⟨⟨hr | hr, hk⟩, hlost⟩
      · exact absurd hk (hlost r hr)
      · exact ⟨hr, hk⟩
    · rintro ⟨hr, hk⟩
      refine ⟨⟨Or.inr hr, hk⟩, fun s hs hks => ?_⟩
      have hof {s : Ref} (hs : s ∈ lost ++ kept) (hks : m.keyOf s = some k) : m.map k = some s :=
        (h.map k s).mpr ⟨hperm.mem_iff.mpr hs, hks⟩
      have hsame := (hof (mem_append_left _ hs) hks).symm.trans (hof (mem_append_right _ hr) hk)
      have hapart := (nodup_append.mp (hperm.nodup_iff.mp h.listed.nodup)).2.2
      exact hapart s hs r hr (Option.some.inj hsame)
  fresh r hr := by
    rw [hfresh]
    exact h.fresh r (hperm.mem_iff.mpr (mem_append_right _ hr))

theorem Holds.size (h : Holds m es) : m.size = es.length := by
  obtain ⟨chain, hchained, rfl⟩ := h
  rw [hchained.size, hchained.length_entries]

theorem holds_clear : Holds m.clear [] :=
  ⟨[], ⟨⟨trivial, rfl, rfl, nodup_nil, fun _ hr => (nomatch hr)⟩, rfl,
    fun _ _ => ⟨fun h => (nomatch h), fun h => (nomatch h.1)⟩, fun _ hr => (nomatch hr)⟩, rfl⟩

section

variable [DecidableEq K]

theorem removed_spec {front back : List Ref} {r : Ref} {k : K} {v : V}
    (h : Chained m (front ++ r :: back)) (hentry : m.entryOf r = some (k, v)) :
    ∃ m₁, LinkedMap.removeItem { m with map := Function.update m.map k none } r = .ok m₁ ∧
      m₁.valueOf r = some v ∧ Holds { m₁ with size := m₁.size - 1 }
        (Recency.without k (m.entries (front ++ r :: back))) := by
  obtain ⟨hfront, hback⟩ := h.split (entryOf_eq_some.mp hentry).1
  have hlisted : Listed { m with map := Function.update m.map k none } (front ++ r :: back) :=
    h.listed.outside (fun _ _ => rfl) (fun _ _ => rfl) rfl rfl h.listed.alive
  obtain ⟨m₁, hremoved, hlisted₁, hrel⟩ := removeItem_spec hlisted
  refine ⟨m₁, hremoved, (hrel.valueOf r).trans (entryOf_eq_some.mp hentry).2, front ++ back, ?_, ?_⟩
  · have hlisted₂ : Listed { m₁ with size := m₁.size - 1 } (front ++ back) :=
      hlisted₁.outside (fun _ _ => rfl) (fun _ _ => rfl) rfl rfl hlisted₁.alive
    have hperm : (front ++ r :: back).Perm ([r] ++ (front ++ back)) := perm_middle
    refine h.cut hlisted₂ hperm hrel.keyOf ?_ hrel.fresh ?_
    · have hsize : m₁.size = m.size := hrel.size
      have hlength := h.size
      dsimp only
      rw [length_append, length_cons] at hlength
      rw [hsize, hlength, length_append]
      omega
    · intro k' s
      have hmap : m₁.map = Function.update m.map k none := hrel.map
      dsimp only
      rw [hmap]
      by_cases hkk : k' = k
      · subst hkk
        rw [Function.update_self]
        refine ⟨fun hnone => (nomatch hnone), fun hboth => ?_⟩
        exact absurd (entryOf_eq_some.mp hentry).1 (hboth.2 r (mem_singleton_self r))
      · rw [Function.update_of_ne hkk]
        refine ⟨fun hs => ⟨hs, fun s' hs' hkey => hkk ?_⟩, fun hboth => hboth.1⟩
        rw [mem_singleton.mp hs', (entryOf_eq_some.mp hentry).1] at hkey
        exact (Option.some.inj hkey).symm
  · have hentries : LinkedMap.entries { m₁ with size := m₁.size - 1 } (front ++ back) =
        m.entries (front ++ back) := hrel.entries_eq (front ++ back)
    rw [hentries, entries_append, entries_append, entries_cons hentry, Recency.without_split hfront hback]

theorem remove_spec (h : Holds m es) (k : K) :
    ∃ m', m.remove k = .ok (m', (Recency.find k es).map Prod.snd) ∧
      Holds m' (Recency.without k es) := by
  cases hk : m.map k with
  | none =>
    have hfind := find_of_map_none h hk
    obtain ⟨chain, hchained, rfl⟩ := h
    refine ⟨m, ?_, chain, hchained, (Recency.without_eq_self (hchained.absent hk)).symm⟩
    rw [LinkedMap.remove, hk, hfind]
    rfl
  | some r =>
    obtain ⟨chain, hchained, rfl⟩ := h
    obtain ⟨front, back, v, rfl, hentry⟩ := hchained.place hk
    obtain ⟨m₁, hremoved, hvalue, hholds⟩ := removed_spec hchained hentry
    refine ⟨_, ?_, hholds⟩
    rw [LinkedMap.remove, hk, find_entries hchained hentry]
    dsimp only
    rw [hremoved, Option.map_some, ← hvalue]
    rfl

theorem shift_spec (h : Holds m es) :
    ∃ m', m.shift = .ok (m', es.head?.map Prod.snd) ∧ Holds m' es.tail := by
  obtain ⟨chain, hchained, rfl⟩ := h
  cases chain with
  | nil =>
    have hhead : m.head = none := hchained.listed.head
    have htail : m.tail = none := hchained.listed.tail
    refine ⟨m, ?_, [], hchained, rfl⟩
    rw [LinkedMap.shift, hhead, htail]
    rfl
  | cons r back =>
    have hhead : m.head = some r := hchained.listed.head
    obtain ⟨t, htail⟩ : ∃ t, m.tail = some t :=
      ⟨_, hchained.listed.tail.trans (getLast?_eq_some_getLast (cons_ne_nil r back))⟩
    obtain ⟨k, v, hentry, hkey, -⟩ := hchained.entry mem_cons_self
    obtain ⟨-, hback⟩ := @Chained.split K V m [] back r k hchained hkey
    obtain ⟨m₁, hremoved, hvalue, hholds⟩ := @removed_spec K V m _ [] back r k v hchained hentry
    have hwithout : Recency.without k (m.entries (r :: back)) = m.entries back := by
      rw [entries_cons hentry]
      exact @Recency.without_split K V _ k v [] (m.entries back) (fun _ he => (nomatch he)) hback
    rw [nil_append, hwithout] at hholds
    refine ⟨{ m₁ with size := m₁.size - 1 }, ?_, ?_⟩
    · rw [LinkedMap.shift, hhead, htail]
      dsimp only
      rw [deleteKeyOf, hkey]
      dsimp only
      rw [hremoved, entries_cons hentry, head?_cons, Option.map_some, ← hvalue]
      rfl
    · rw [entries_cons hentry]
      exact hholds

end

end Gavea.MapCaches.LinkedMap
