import Gavea.LineDecorations.LineDecorations

namespace Gavea.LineDecorations

open Lib.Js List

variable {content : JsString}

theorem getElem?_ofDecorations (d : LineDecoration) (ds : List LineDecoration) :
    (Stack.ofDecorations content (d :: ds)).stopOffsets[0]? = some (stopOffset content d) :=
  rfl

theorem consumeLoop_spec (maxStopOffset : Int) (fuel : Nat) :
    ∀ (ds : List LineDecoration) (next : Int) (result : List DecorationSegment),
      ds.length ≤ fuel → Sorted content ds → (∀ d ∈ ds, next ≤ stopOffset content d + 1) →
      next ≤ maxStopOffset →
      ∃ pieces next', Stack.consumeLoop maxStopOffset fuel (.ofDecorations content ds) next result =
          (.ofDecorations content (upTo content maxStopOffset ds), next', result ++ pieces.map Piece.segment) ∧
        next ≤ next' ∧ next' ≤ maxStopOffset ∧ Emits content ds next next' pieces ∧
        upTo content next' ds = upTo content maxStopOffset ds := by
  induction fuel with
  | zero =>
    intro ds next result hfuel _ _ hmax
    obtain rfl := length_eq_zero_iff.mp (Nat.le_zero.mp hfuel)
    exact ⟨[], next, by simp [Stack.consumeLoop, upTo], le_rfl, hmax, emits_nil next next, rfl⟩
  | succ fuel ih =>
    intro ds next result hfuel hsorted hnext hmax
    cases ds with
    | nil =>
      exact ⟨[], next, by simp [Stack.consumeLoop, Stack.ofDecorations, upTo], le_rfl, hmax, emits_nil next next, rfl⟩
    | cons d ds =>
      by_cases hstop : stopOffset content d < maxStopOffset
      · have hcount : (Stack.ofDecorations content (d :: ds)).count > 0 ∧
            stopOffset content d < maxStopOffset := ⟨Nat.succ_pos _, hstop⟩
        have hlast := (lastEqual_spec hsorted).1
        have hle := head_le hsorted
        have hpiece : Emits content (d :: ds) next (stopOffset content d + 1)
            [⟨next, stopOffset content d, d :: ds⟩] :=
          emits_piece hle (cons_ne_nil _ _)
        have hlength :
            (upTo content (stopOffset content d + 1) (d :: ds)).length ≤ fuel := by
          rw [upTo, filter_cons_of_neg (by simp)]
          have := length_filter_le (fun d' => decide (stopOffset content d + 1 ≤ stopOffset content d')) ds
          rw [length_cons] at hfuel
          omega
        have hrest : ∀ d' ∈ upTo content (stopOffset content d + 1) (d :: ds),
            stopOffset content d + 1 ≤ stopOffset content d' + 1 := by
          intro d' hd'
          have := of_decide_eq_true (mem_filter.mp hd').2
          omega
        obtain ⟨pieces, next', hloop, hlo, hhi, hemits, hup⟩ :=
          ih _ (stopOffset content d + 1)
            (result ++ [(Stack.ofDecorations content (d :: ds)).segment next
              (stopOffset content d)]) hlength (sorted_upTo hsorted _) hrest (by omega)
        rw [upTo_upTo hlo, upTo_upTo (by omega)] at hup
        rw [upTo_upTo (by omega)] at hloop
        have hle' := hnext d mem_cons_self
        refine ⟨_ :: pieces, next', ?_, hle'.trans hlo, hhi, hpiece.append hemits hle' hlo, hup⟩
        rw [Stack.consumeLoop, getElem?_ofDecorations]
        simp only [if_pos hcount, splice_ofDecorations hsorted]
        rw [show (Stack.ofDecorations content (d :: ds)).stopOffsets.getD
            (Stack.lastEqual (Stack.ofDecorations content (d :: ds)).stopOffsets) 0 =
            stopOffset content d from hlast, hloop, append_assoc]
        rfl
      · have hall : ∀ d' ∈ d :: ds, maxStopOffset ≤ stopOffset content d' :=
          fun d' hd' => (not_lt.mp hstop).trans (head_le hsorted d' hd')
        have hself := upTo_of_le hall
        refine ⟨[], next, ?_, le_rfl, hmax,
          emits_none fun d' hd' => hmax.trans (hall d' hd'), ?_⟩
        · rw [Stack.consumeLoop, getElem?_ofDecorations, hself]
          simp only [if_neg fun h : _ ∧ _ => hstop h.2, map_nil, append_nil]
        · rw [hself, upTo_of_le fun d' hd' => hmax.trans (hall d' hd')]

theorem consumeLowerThan_spec {ds : List LineDecoration} {maxStopOffset next : Int}
    (hsorted : Sorted content ds) (hnext : ∀ d ∈ ds, next ≤ stopOffset content d + 1)
    (hmax : next ≤ maxStopOffset) (result : List DecorationSegment) :
    ∃ pieces next', Stack.consumeLowerThan (.ofDecorations content ds) maxStopOffset next result =
        (.ofDecorations content (upTo content maxStopOffset ds), next', result ++ pieces.map Piece.segment) ∧
      Emits content ds next maxStopOffset pieces ∧
      (upTo content maxStopOffset ds ≠ [] → next' = maxStopOffset) := by
  obtain ⟨pieces, next', hloop, hlo, hhi, hemits, hup⟩ :=
    @consumeLoop_spec content maxStopOffset ds.length ds next result le_rfl hsorted hnext hmax
  rw [Stack.consumeLowerThan, show (Stack.ofDecorations content ds).count = ds.length from rfl, hloop]
  dsimp only
  have hrest : ∀ d ∈ upTo content next' ds, maxStopOffset ≤ stopOffset content d := by
    intro d hd
    rw [hup] at hd
    exact of_decide_eq_true (mem_filter.mp hd).2
  by_cases hnil : upTo content maxStopOffset ds = []
  · rw [if_neg (by rw [hnil]; exact fun h => Nat.lt_irrefl 0 h.1)]
    refine ⟨pieces, next', rfl, ?_, fun h => absurd hnil h⟩
    have hempty : Emits content (upTo content next' ds) next' maxStopOffset [] := by
      rw [hup, hnil]
      exact emits_nil next' maxStopOffset
    simpa using hemits.append hempty hlo hhi
  · have hpos : 0 < (upTo content maxStopOffset ds).length := length_pos_iff.mpr hnil
    by_cases hlt : next' < maxStopOffset
    · rw [if_pos ⟨hpos, hlt⟩]
      have hpiece : Emits content (upTo content next' ds) next' (maxStopOffset - 1 + 1)
          [⟨next', maxStopOffset - 1, upTo content next' ds⟩] :=
        emits_piece (fun d hd => (by omega : maxStopOffset - 1 ≤ maxStopOffset).trans (hrest d hd)) (hup ▸ hnil)
      rw [Int.sub_add_cancel] at hpiece
      refine ⟨pieces ++ [⟨next', maxStopOffset - 1, upTo content next' ds⟩], maxStopOffset, ?_,
        hemits.append hpiece hlo hhi, fun _ => rfl⟩
      rw [hup, map_append, append_assoc]
      rfl
    · rw [if_neg fun h => hlt h.2]
      obtain rfl : next' = maxStopOffset := by omega
      exact ⟨pieces, next', rfl, hemits, fun _ => rfl⟩

theorem insertIdx_eq_take_drop {α : Type*} (a : α) (l : List α) {i : Nat} (h : i ≤ l.length) :
    l.insertIdx i a = l.take i ++ a :: l.drop i := by
  induction l generalizing i with
  | nil =>
    obtain rfl := Nat.le_zero.mp h
    rfl
  | cons b l ih =>
    cases i with
    | zero => rfl
    | succ i => rw [insertIdx_succ_cons, ih (Nat.le_of_succ_le_succ h)]; rfl

theorem sorted_insertIdx {ds : List LineDecoration} (h : Sorted content ds) (d : LineDecoration)
    {i : Nat} (hi : i ≤ ds.length)
    (hbefore : ∀ d' ∈ ds.take i, stopOffset content d' ≤ stopOffset content d)
    (hbehind : ∀ d' ∈ ds.drop i, stopOffset content d ≤ stopOffset content d') :
    Sorted content (ds.insertIdx i d) := by
  have hsplit : Sorted content (ds.take i ++ ds.drop i) := by
    rw [take_append_drop]
    exact h
  rw [Sorted, pairwise_append] at hsplit
  rw [insertIdx_eq_take_drop d ds hi, Sorted, pairwise_append, pairwise_cons]
  refine ⟨hsplit.1, ⟨hbehind, hsplit.2.1⟩, fun a ha b hb => ?_⟩
  rcases mem_cons.mp hb with rfl | hb
  · exact hbefore a ha
  · exact hsplit.2.2 a ha b hb

theorem insert_spec {ds : List LineDecoration} (hsorted : Sorted content ds) (d : LineDecoration) :
    ∃ ds', (Stack.ofDecorations content ds).insert (stopOffset content d) d.className d.metadata =
        .ofDecorations content ds' ∧
      ds'.Perm (d :: ds) ∧ Sorted content ds' := by
  rw [Stack.insert]
  split
  · next hlast =>
      refine ⟨ds ++ [d], ?_, perm_append_singleton d ds, ?_⟩
      · simp [Stack.ofDecorations]
      · rw [Sorted, pairwise_append]
        refine ⟨hsorted, pairwise_singleton _ _, fun a ha b hb => ?_⟩
        obtain rfl := mem_singleton.mp hb
        rcases eq_nil_or_concat ds with rfl | ⟨ds, e, rfl⟩
        · cases ha
        · have he : stopOffset content e ≤ stopOffset content b := by
            simpa [Stack.ofDecorations] using hlast
          refine le_trans ?_ he
          rw [Sorted, concat_eq_append, pairwise_append] at hsorted
          rw [concat_eq_append, mem_append, mem_singleton] at ha
          rcases ha with ha | rfl
          · exact hsorted.2.2 a ha e (mem_singleton_self e)
          · exact le_rfl
  · next hlast =>
      rw [not_or, not_le] at hlast
      rcases eq_nil_or_concat ds with rfl | ⟨front, e, hds⟩
      · exact absurd rfl hlast.1
      · have he : stopOffset content d < stopOffset content e := by
          simpa [Stack.ofDecorations, hds] using hlast.2
        have hfound : ((Stack.ofDecorations content ds).stopOffsets.findIdx?
            fun other => decide (other ≥ stopOffset content d)).isSome := by
          rw [findIdx?_isSome, any_eq_true]
          refine ⟨stopOffset content e, ?_, decide_eq_true he.le⟩
          exact mem_map.mpr ⟨e, by simp [hds], rfl⟩
        obtain ⟨i, hi⟩ := Option.isSome_iff_exists.mp hfound
        simp only [hi]
        rw [findIdx?_eq_some_iff_getElem] at hi
        obtain ⟨hlt, hge, hbefore⟩ := hi
        have hilt : i < ds.length := by simpa [Stack.ofDecorations] using hlt
        refine ⟨ds.insertIdx i d, ?_, perm_insertIdx d ds hilt.le,
          sorted_insertIdx hsorted d hilt.le ?_ ?_⟩
        · simp [Stack.ofDecorations, map_insertIdx, length_insertIdx, hilt.le]
        · intro d' hd'
          obtain ⟨j, hj, rfl⟩ := mem_iff_getElem.mp hd'
          rw [length_take] at hj
          have := hbefore j (by omega)
          simp only [Stack.ofDecorations, getElem_map, decide_eq_true_eq] at this
          rw [getElem_take]
          omega
        · intro d' hd'
          rw [drop_eq_getElem_cons hilt] at hd'
          have hdrop : Sorted content (ds[i] :: ds.drop (i + 1)) := by
            rw [← drop_eq_getElem_cons hilt]
            exact List.Pairwise.drop hsorted
          refine le_trans ?_ (head_le hdrop d' hd')
          simpa [Stack.ofDecorations] using hge

structure Swept (content : JsString) (ps : List LineDecoration) (cur : Int)
    (ds : List LineDecoration) (pieces : List Piece) : Prop where
  starts : ∀ d ∈ ps, startOffset content d ≤ cur
  stops : ∀ d ∈ ds, cur ≤ stopOffset content d + 1
  stack_sorted : Sorted content ds
  stack : ∀ x : Int, cur ≤ x → (upTo content x ds).Perm (upTo content x ps)
  subset : ds ⊆ ps
  sorted : (pieces.filter fun p => p.first ≤ p.last).Pairwise fun p p' => p.last < p'.first
  inside : ∀ p ∈ pieces, p.first ≤ p.last → p.last < cur
  covered : ∀ x : Int, x < cur → ((∃ p ∈ pieces, p.first ≤ x ∧ x ≤ p.last) ↔
    ∃ d ∈ ps, startOffset content d ≤ x ∧ x ≤ stopOffset content d)
  shows : ∀ p ∈ pieces, p.decorations ⊆ ps ∧ ∀ x : Int, p.first ≤ x → x ≤ p.last →
    p.decorations.Perm (ps.filter fun d => startOffset content d ≤ x ∧ x ≤ stopOffset content d)
  present : ∀ d ∈ ps, d ∈ ds ∨ ∃ p ∈ pieces, d ∈ p.decorations

theorem covering_eq_upTo {ps : List LineDecoration} {cur x : Int}
    (hstarts : ∀ d ∈ ps, startOffset content d ≤ cur) (h : cur ≤ x) :
    (ps.filter fun d => startOffset content d ≤ x ∧ x ≤ stopOffset content d) =
      upTo content x ps := by
  refine filter_congr fun d hd => ?_
  have := (hstarts d hd).trans h
  simp [this]

theorem Swept.consume {ps ds : List LineDecoration} {cur hi : Int} {pieces pieces' : List Piece}
    (h : Swept content ps cur ds pieces) (hle : cur ≤ hi)
    (hemits : Emits content ds cur hi pieces') :
    Swept content ps hi (upTo content hi ds) (pieces ++ pieces') where
  starts d hd := (h.starts d hd).trans hle
  stops d hd := by
    have := of_decide_eq_true (mem_filter.mp hd).2
    omega
  stack_sorted := sorted_upTo h.stack_sorted hi
  stack x hx := by
    rw [upTo_upTo hx]
    exact h.stack x (hle.trans hx)
  subset d hd := h.subset (mem_of_mem_filter hd)
  sorted := by
    rw [filter_append, pairwise_append]
    refine ⟨h.sorted, hemits.sorted, fun p hp p' hp' => ?_⟩
    obtain ⟨hp, hne⟩ := mem_filter.mp hp
    obtain ⟨hp', hne'⟩ := mem_filter.mp hp'
    have := h.inside p hp (of_decide_eq_true hne)
    have := (hemits.inside p' hp' (of_decide_eq_true hne')).1
    omega
  inside p hp hne := by
    rcases mem_append.mp hp with hp | hp
    · have := h.inside p hp hne
      omega
    · exact (hemits.inside p hp hne).2
  covered x hx := by
    by_cases hcur : x < cur
    · rw [← h.covered x hcur]
      constructor
      · rintro ⟨p, hp, hfirst, hlast⟩
        rcases mem_append.mp hp with hp | hp
        · exact ⟨p, hp, hfirst, hlast⟩
        · have := (hemits.inside p hp (by omega)).1
          omega
      · rintro ⟨p, hp, hin⟩
        exact ⟨p, mem_append_left _ hp, hin⟩
    · have hcovered := hemits.covered x (not_lt.mp hcur) hx
      have hperm := h.stack x (not_lt.mp hcur)
      rw [← covering_eq_upTo h.starts (not_lt.mp hcur)] at hperm
      have hiff : upTo content x ds ≠ [] ↔
          ∃ d ∈ ps, startOffset content d ≤ x ∧ x ≤ stopOffset content d := by
        constructor
        · intro hne
          obtain ⟨d, hd⟩ := exists_mem_of_ne_nil _ hne
          have hmem := mem_filter.mp (hperm.subset hd)
          exact ⟨d, hmem.1, of_decide_eq_true hmem.2⟩
        · rintro ⟨d, hd, hin⟩ hnil
          have hmem := hperm.symm.subset (mem_filter.mpr ⟨hd, decide_eq_true hin⟩)
          rw [hnil] at hmem
          exact nomatch hmem
      rw [← hiff, ← hcovered]
      constructor
      · rintro ⟨p, hp, hfirst, hlast⟩
        rcases mem_append.mp hp with hp | hp
        · have := h.inside p hp (by omega)
          omega
        · exact ⟨p, hp, hfirst, hlast⟩
      · rintro ⟨p, hp, hin⟩
        exact ⟨p, mem_append_right _ hp, hin⟩
  shows p hp := by
    rcases mem_append.mp hp with hp | hp
    · exact h.shows p hp
    · obtain ⟨hsub, hshows⟩ := hemits.shows p hp
      refine ⟨fun d hd => h.subset (hsub hd), fun x hfirst hlast => ?_⟩
      have hcur := (hemits.inside p hp (by omega)).1.trans hfirst
      rw [hshows x hfirst hlast, covering_eq_upTo h.starts hcur]
      exact h.stack x hcur
  present d hd := by
    rcases h.present d hd with hd | ⟨p, hp, hd⟩
    · by_cases hstop : stopOffset content d < hi
      · obtain ⟨p, hp, hd⟩ := hemits.present d hd hstop
        exact Or.inr ⟨p, mem_append_right _ hp, hd⟩
      · exact Or.inl (mem_filter.mpr ⟨hd, decide_eq_true (not_lt.mp hstop)⟩)
    · exact Or.inr ⟨p, mem_append_left _ hp, hd⟩

theorem Swept.insert {ps ds ds' : List LineDecoration} {d : LineDecoration} {pieces : List Piece}
    (h : Swept content ps (startOffset content d) ds pieces)
    (hd : startOffset content d ≤ stopOffset content d + 1) (hperm : ds'.Perm (d :: ds))
    (hsorted : Sorted content ds') :
    Swept content (ps ++ [d]) (startOffset content d) ds' pieces where
  starts d' hd' := by
    rcases mem_append.mp hd' with hd' | hd'
    · exact h.starts d' hd'
    · rw [mem_singleton.mp hd']
  stops d' hd' := by
    rcases mem_cons.mp (hperm.subset hd') with rfl | hd'
    · exact hd
    · exact h.stops d' hd'
  stack_sorted := hsorted
  stack x hx := by
    have hcons : (upTo content x (d :: ds)).Perm (upTo content x (d :: ps)) := by
      rw [upTo, upTo, filter_cons, filter_cons]
      split
      · exact (h.stack x hx).cons d
      · exact h.stack x hx
    exact (hperm.filter _).trans (hcons.trans ((perm_append_singleton d ps).symm.filter _))
  subset d' hd' := by
    rcases mem_cons.mp (hperm.subset hd') with rfl | hd'
    · exact mem_append_right _ (mem_singleton_self _)
    · exact mem_append_left _ (h.subset hd')
  sorted := h.sorted
  inside := h.inside
  covered x hx := by
    rw [h.covered x hx]
    constructor
    · rintro ⟨d', hd', hin⟩
      exact ⟨d', mem_append_left _ hd', hin⟩
    · rintro ⟨d', hd', hin⟩
      rcases mem_append.mp hd' with hd' | hd'
      · exact ⟨d', hd', hin⟩
      · rw [mem_singleton.mp hd'] at hin
        omega
  shows p hp := by
    obtain ⟨hsub, hshows⟩ := h.shows p hp
    refine ⟨fun d' hd' => mem_append_left _ (hsub hd'), fun x hfirst hlast => ?_⟩
    have hx := h.inside p hp (hfirst.trans hlast)
    rw [filter_append, filter_cons_of_neg (by simp; omega), filter_nil, append_nil]
    exact hshows x hfirst hlast
  present d' hd' := by
    rcases mem_append.mp hd' with hd' | hd'
    · rcases h.present d' hd' with hd' | hp
      · exact Or.inl (hperm.symm.subset (mem_cons_of_mem d hd'))
      · exact Or.inr hp
    · rw [mem_singleton.mp hd']
      exact Or.inl (hperm.symm.subset mem_cons_self)

theorem Swept.start : Swept content [] 0 [] [] where
  starts _ hd := nomatch hd
  stops _ hd := nomatch hd
  stack_sorted := List.Pairwise.nil
  stack _ _ := List.Perm.refl _
  subset _ hd := nomatch hd
  sorted := List.Pairwise.nil
  inside _ hp := nomatch hp
  covered _ _ := by simp
  shows _ hp := nomatch hp
  present _ hd := nomatch hd

theorem consume_swept {ps ds : List LineDecoration} {cur hi next : Int} {pieces : List Piece}
    (h : Swept content ps cur ds pieces) (hnext : ds ≠ [] → next = cur) (hle : cur ≤ hi) :
    ∃ pieces' next', Stack.consumeLowerThan (.ofDecorations content ds) hi next
          (pieces.map Piece.segment) =
        (.ofDecorations content (upTo content hi ds), next', pieces'.map Piece.segment) ∧
      Swept content ps hi (upTo content hi ds) pieces' ∧
      (upTo content hi ds ≠ [] → next' = hi) := by
  by_cases hnil : ds = []
  · subst hnil
    have hswept := h.consume hle (emits_nil cur hi)
    rw [append_nil] at hswept
    exact ⟨pieces, next, rfl, hswept, fun hne => absurd rfl hne⟩
  · obtain rfl := hnext hnil
    obtain ⟨pieces', next', hconsume, hemits, hlast⟩ :=
      consumeLowerThan_spec h.stack_sorted h.stops hle (pieces.map Piece.segment)
    rw [← map_append] at hconsume
    exact ⟨pieces ++ pieces', next', hconsume, h.consume hle hemits, hlast⟩

theorem normalizeLoop_cons (d : LineDecoration) (rest : List LineDecoration) (s : Stack)
    (next : Int) (result : List DecorationSegment) :
    normalizeLoop content (d :: rest) s next result =
      let consumed := s.consumeLowerThan (startOffset content d) next result
      normalizeLoop content rest
        (consumed.1.insert (stopOffset content d) d.className d.metadata)
        (if consumed.1.count = 0 then startOffset content d else consumed.2.1) consumed.2.2 :=
  rfl

theorem normalizeLoop_spec (bound : Int) (rest : List LineDecoration) :
    ∀ (ps ds : List LineDecoration) (cur next : Int) (pieces : List Piece),
      Swept content ps cur ds pieces → (ds ≠ [] → next = cur) → cur ≤ bound →
      (rest.Pairwise fun d d' => startOffset content d ≤ startOffset content d') →
      (∀ d ∈ rest, cur ≤ startOffset content d ∧ startOffset content d ≤ bound ∧
        startOffset content d ≤ stopOffset content d + 1) →
      ∃ ds' cur' next' pieces', normalizeLoop content rest (.ofDecorations content ds) next
            (pieces.map Piece.segment) =
          (.ofDecorations content ds', next', pieces'.map Piece.segment) ∧
        Swept content (ps ++ rest) cur' ds' pieces' ∧ (ds' ≠ [] → next' = cur') ∧
        cur' ≤ bound := by
  induction rest with
  | nil =>
    intro ps ds cur next pieces h hnext hbound _ _
    rw [append_nil]
    exact ⟨ds, cur, next, pieces, rfl, h, hnext, hbound⟩
  | cons d rest ih =>
    intro ps ds cur next pieces h hnext hbound hsorted hrest
    obtain ⟨hcur, hle, hstop⟩ := hrest d mem_cons_self
    obtain ⟨pieces', next', hconsume, hswept, hlast⟩ := consume_swept h hnext hcur
    obtain ⟨ds', hinsert, hperm, hsorted'⟩ := insert_spec hswept.stack_sorted d
    have hinserted := hswept.insert hstop hperm hsorted'
    have hstart : (if (Stack.ofDecorations content
        (upTo content (startOffset content d) ds)).count = 0 then startOffset content d
        else next') = startOffset content d := by
      split
      · rfl
      · next hcount => exact hlast fun hnil => hcount (congrArg List.length hnil)
    obtain ⟨ds'', cur', next'', pieces'', hloop, hfinal, hstand, hbound'⟩ :=
      ih (ps ++ [d]) ds' (startOffset content d) (startOffset content d) pieces' hinserted
        (fun _ => rfl) hle hsorted.of_cons fun d' hd' =>
          ⟨rel_of_pairwise_cons hsorted hd', (hrest d' (mem_cons_of_mem d hd')).2⟩
    rw [append_assoc] at hfinal
    refine ⟨ds'', cur', next'', pieces'', ?_, hfinal, hstand, hbound'⟩
    rw [normalizeLoop_cons, hconsume]
    dsimp only
    rw [hstart, hinsert, hloop]

end Gavea.LineDecorations

namespace Gavea.LineDecorations

open List

open Lib.Js

variable {content : JsString}

theorem beforePair_bounds (content : JsString) (column : Int) :
    column - 1 ≤ beforePair content column ∧ beforePair content column ≤ column := by
  rw [beforePair]
  split
  · split
    · split <;> omega
    · omega
  · omega

theorem beforePair_mono {column column' : Int} (h : column ≤ column') :
    beforePair content column ≤ beforePair content column' := by
  rcases h.eq_or_lt with rfl | hlt
  · exact le_rfl
  · have := (beforePair_bounds content column).2
    have := (beforePair_bounds content column').1
    omega

theorem one_le_beforePair {column : Int} (h : 1 ≤ column) : 1 ≤ beforePair content column := by
  rcases h.eq_or_lt with rfl | hlt
  · rw [beforePair, if_neg (by decide)]
  · have := (beforePair_bounds content column).1
    omega

theorem beforePair_eq (h : WellFormed content) (column : Int) :
    beforePair content column = movedColumn content column := by
  rw [beforePair, movedColumn, splitsPair]
  by_cases hcolumn : column > 1
  · rw [if_pos hcolumn]
    cases hbefore : content[(column - 2).toNat]? with
    | none => simp
    | some u =>
      cases hhigh : isHighSurrogate u with
      | false => simp [hhigh]
      | true =>
        obtain ⟨v, hv, hlow⟩ := h.high _ u hbefore hhigh
        rw [show (column - 2).toNat + 1 = (column - 1).toNat by omega] at hv
        simp only [Option.any_some, hhigh, hv, hlow, hcolumn, decide_true, Bool.and_self, if_true]
  · rw [if_neg hcolumn, if_neg (by simp [hcolumn])]

theorem covers_iff (h : WellFormed content) (d : LineDecoration) (x : Int) :
    d.covers content x = true ↔ startOffset content d ≤ x ∧ x ≤ stopOffset content d := by
  rw [LineDecoration.covers, startOffset, stopOffset, beforePair_eq h, beforePair_eq h,
    Bool.and_eq_true, decide_eq_true_eq, decide_eq_true_eq]
  omega

theorem startColumn_le_of_compare {d d' : LineDecoration} (h : d.compare d' ≤ 0) :
    d.startColumn ≤ d'.startColumn := by
  rw [LineDecoration.compare] at h
  split at h
  · omega
  · next heq => exact (not_not.mp heq).le

theorem Swept.overlay (hwell : WellFormed content) {ds : List LineDecoration} {hi : Int}
    {pieces : List Piece} (h : Swept content ds hi [] pieces)
    (hstops : ∀ d ∈ ds, stopOffset content d < hi) :
    Overlay content ds (pieces.map Piece.segment) where
  sorted := by
    rw [filter_map, pairwise_map]
    exact h.sorted
  covered x := by
    have hcovers : (∃ d ∈ ds, d.covers content x = true) ↔
        ∃ d ∈ ds, startOffset content d ≤ x ∧ x ≤ stopOffset content d :=
      exists_congr fun d => and_congr_right fun _ => covers_iff hwell d x
    rw [hcovers]
    by_cases hx : x < hi
    · rw [← h.covered x hx]
      constructor
      · rintro ⟨s, hs, hin⟩
        obtain ⟨p, hp, rfl⟩ := mem_map.mp hs
        exact ⟨p, hp, hin⟩
      · rintro ⟨p, hp, hin⟩
        exact ⟨p.segment, mem_map_of_mem hp, hin⟩
    · constructor
      · rintro ⟨s, hs, hfirst, hlast⟩
        obtain ⟨p, hp, rfl⟩ := mem_map.mp hs
        have := h.inside p hp (hfirst.trans hlast)
        exact absurd (lt_of_le_of_lt hlast this) hx
      · rintro ⟨d, hd, -, hlast⟩
        have := hstops d hd
        omega
  shows s hs x hfirst hlast := by
    obtain ⟨p, hp, rfl⟩ := mem_map.mp hs
    refine ⟨p.decorations, ?_, rfl, rfl⟩
    have hcongr : (ds.filter fun d => d.covers content x) =
        ds.filter fun d => startOffset content d ≤ x ∧ x ≤ stopOffset content d :=
      filter_congr fun d _ => by
        rw [Bool.eq_iff_iff, covers_iff hwell, decide_eq_true_eq]
    rw [hcongr]
    exact (h.shows p hp).2 x hfirst hlast
  present d hd := by
    rcases h.present d hd with hd' | ⟨p, hp, hdp⟩
    · exact nomatch hd'
    · exact ⟨p.segment, mem_map_of_mem hp, p.decorations, hdp, (h.shows p hp).1, rfl, rfl⟩

/-- The segments of `normalize` lay the decorations over each other, offset by offset. -/
theorem normalize_overlay (hwell : WellFormed content) {ds : List LineDecoration}
    (hsorted : ds.Pairwise fun d d' => d.compare d' ≤ 0)
    (hcolumns : ∀ d ∈ ds, 1 ≤ d.startColumn ∧ d.startColumn ≤ d.endColumn)
    (hmax : ∀ d ∈ ds, d.endColumn ≤ maxSafeSmallInteger + 1) :
    Overlay content ds (normalize content ds) := by
  rw [normalize]
  split
  · next hnil =>
      obtain rfl := length_eq_zero_iff.mp hnil
      exact @Swept.overlay content hwell [] 0 [] Swept.start fun d hd => (nomatch hd)
  · have hstarts : ds.Pairwise fun d d' => startOffset content d ≤ startOffset content d' :=
      hsorted.imp fun h => Int.sub_le_sub_right (beforePair_mono (startColumn_le_of_compare h)) 1
    have hbounds : ∀ d ∈ ds, 0 ≤ startOffset content d ∧
        startOffset content d ≤ maxSafeSmallInteger ∧
        startOffset content d ≤ stopOffset content d + 1 := by
      intro d hd
      obtain ⟨hone, hle⟩ := hcolumns d hd
      have hfirst := @one_le_beforePair content _ hone
      have hmono := @beforePair_mono content _ _ hle
      have hlast := (beforePair_bounds content d.endColumn).2
      have hbound := hmax d hd
      rw [startOffset, stopOffset]
      omega
    have hstops : ∀ d ∈ ds, stopOffset content d < maxSafeSmallInteger := by
      intro d hd
      have hlast := (beforePair_bounds content d.endColumn).2
      have hbound := hmax d hd
      rw [stopOffset]
      omega
    obtain ⟨rest, cur, next, pieces, hloop, hswept, hstand, hcur⟩ :=
      normalizeLoop_spec maxSafeSmallInteger ds [] [] 0 0 [] Swept.start (fun h => absurd rfl h)
        (by decide) hstarts hbounds
    obtain ⟨pieces', next', hconsume, hfinal, -⟩ := consume_swept hswept hstand hcur
    have hnone : upTo content maxSafeSmallInteger rest = [] := by
      rw [upTo, filter_eq_nil_iff]
      intro d hd hle
      have := hstops d (hswept.subset hd)
      have := of_decide_eq_true hle
      omega
    rw [hnone, nil_append] at hfinal
    have hloop' : normalizeLoop content ds .new 0 [] = _ := hloop
    rw [hloop']
    dsimp only
    rw [hconsume]
    exact hfinal.overlay hwell hstops

/-- One decoration ends inside a pair, the other one behind it. -/
theorem normalize_overlay_of_pair :
    Overlay [97, 0xD83D, 0xDE00, 98] [⟨1, 3, [120], .before⟩, ⟨1, 4, [121], .regular⟩]
      [⟨0, 0, [120, 32, 121], 2⟩, ⟨1, 2, [121], 0⟩] := by
  have hwell : WellFormed [97, 0xD83D, 0xDE00, 98] := by
    constructor
    · intro i u hu hhigh
      match i, hu with
      | 0, hu => exact absurd hhigh (by obtain rfl := Option.some.inj hu; decide)
      | 1, _ => exact ⟨_, rfl, by decide⟩
      | 2, hu => exact absurd hhigh (by obtain rfl := Option.some.inj hu; decide)
      | 3, hu => exact absurd hhigh (by obtain rfl := Option.some.inj hu; decide)
    · intro i u hu hlow
      match i, hu with
      | 0, hu => exact absurd hlow (by obtain rfl := Option.some.inj hu; decide)
      | 1, hu => exact absurd hlow (by obtain rfl := Option.some.inj hu; decide)
      | 2, _ => exact ⟨_, by decide, rfl, by decide⟩
      | 3, hu => exact absurd hlow (by obtain rfl := Option.some.inj hu; decide)
  exact normalize_overlay hwell (by decide) (by decide) (by decide)

/-- The last segments are those in front of the largest small integer: an empty decoration
behind it is in none. -/
theorem not_normalize_overlay_behind_max :
    ¬ ∀ (content : JsString) (ds : List LineDecoration), WellFormed content →
      (ds.Pairwise fun d d' => d.compare d' ≤ 0) →
      (∀ d ∈ ds, 1 ≤ d.startColumn ∧ d.startColumn ≤ d.endColumn) →
      Overlay content ds (normalize content ds) := by
  intro h
  have hwell : WellFormed [] := ⟨fun _ _ hu => (nomatch hu), fun _ _ hu => (nomatch hu)⟩
  have hoverlay := h [] [⟨2 ^ 30 + 2, 2 ^ 30 + 2, [97], .regular⟩] hwell (by decide) (by decide)
  obtain ⟨s, hs, -⟩ := hoverlay.present _ mem_cons_self
  exact nomatch hs

end Gavea.LineDecorations
