import Gavea.ContextKey.Distribution

namespace Gavea.ContextKey

open Lib Lib.Js ContextKeyExpression List

variable {V R : Type}

namespace ContextKeyExpression

mutual

/-- How often a negation was given to a constructor inside a negation so given. -/
def cacheDepth : ContextKeyExpression V R → Nat
  | andExpr expr negated | orExpr expr negated => max (cacheDepthMax expr) (cacheDepthOf negated)
  | _ => 0

def cacheDepthMax : List (ContextKeyExpression V R) → Nat
  | [] => 0
  | e :: es => max (cacheDepth e) (cacheDepthMax es)

def cacheDepthOf : Option (ContextKeyExpression V R) → Nat
  | none => 0
  | some n => cacheDepth n + 1

end

theorem cacheDepthMax_le_iff {es : List (ContextKeyExpression V R)} {k : Nat} :
    cacheDepthMax es ≤ k ↔ ∀ e ∈ es, e.cacheDepth ≤ k := by
  induction es with
  | nil => simp [cacheDepthMax]
  | cons e es ih => rw [cacheDepthMax, max_le_iff, ih, forall_mem_cons]

theorem cacheDepth_of_isLeaf {e : ContextKeyExpression V R} (h : e.isLeaf = true) :
    e.cacheDepth = 0 := by
  cases e <;> first | rfl | cases h

theorem cacheDepth_terminal_le {e t : ContextKeyExpression V R} (h : t ∈ getTerminals e) :
    t.cacheDepth ≤ e.cacheDepth := by
  cases e with
  | orExpr es negated =>
    rw [cacheDepth]
    exact (cacheDepthMax_le_iff.mp (le_refl _) t h).trans (le_max_left _ _)
  | _ => rw [mem_singleton.mp h]

theorem getTerminals_of_isLeaf {e : ContextKeyExpression V R} (h : e.isLeaf = true) :
    getTerminals e = [e] := by
  cases e <;> first | rfl | cases h

end ContextKeyExpression

namespace Setting

variable {S : Setting V R} {T : ContextKeyExpression V R → Prop}

def negateFuel (S : Setting V R) (fuel : Nat) (e : ContextKeyExpression V R) :
    Option (ContextKeyExpression V R) :=
  e.negate S.rt S.constants fuel

structure IsTerms (T : ContextKeyExpression V R → Prop) : Prop where
  leaf {e} (hleaf : e.isLeaf = true) : T e
  terminals {t s} (ht : T t) (hs : s ∈ getTerminals t) : T s

structure IsTermClass (S : Setting V R) (T : ContextKeyExpression V R → Prop) : Prop
    extends IsTerms T where
  negation {t} (hsound : S.Sound t) (ht : T t) : Settles (fun fuel => S.negateFuel fuel t) (S.IsNegation t)
  conj {l r} (hl : S.Sound l ∧ T l) (hr : S.Sound r ∧ T r) : Settles
    (fun fuel => ContextKeyAndExpr.create S.rt (S.negateFuel fuel) fuel [some l, some r] none false)
    fun res => ∃ r', res = some r' ∧ S.Sound r' ∧ S.value r' = (S.value l && S.value r) ∧ ∀ t ∈ getTerminals r', T t

def IsMade (S : Setting V R) (T : ContextKeyExpression V R → Prop)
    (e : ContextKeyExpression V R) : Prop :=
  S.Sound e ∧ ∀ t ∈ getTerminals e, T t

theorem IsMade.of_isLeaf (hT : IsTerms T) {e : ContextKeyExpression V R} (he : S.Sound e)
    (hleaf : e.isLeaf = true) : S.IsMade T e := by
  refine ⟨he, fun t ht => ?_⟩
  rw [getTerminals_of_isLeaf hleaf, mem_singleton] at ht
  exact ht ▸ hT.leaf hleaf

theorem IsDisjunction.isMade (hT : IsTerms T) {parts : List (ContextKeyExpression V R)}
    {negated : Option (ContextKeyExpression V R)} {r : ContextKeyExpression V R}
    (h : S.IsDisjunction parts negated r) (hparts : ∀ p ∈ parts, S.IsMade T p)
    (hcached : ∀ n ∈ negated, S.Sound n ∧ S.value n = !parts.any S.value) : S.IsMade T r := by
  have hterminal (t) (ht : t ∈ parts.flatMap getTerminals) : S.Sound t ∧ T t := by
    obtain ⟨p, hp, ht⟩ := mem_flatMap.mp ht
    exact ⟨(hparts p hp).1.getTerminals.2.1 t ht, (hparts p hp).2 t ht⟩
  obtain ⟨hvalue, rfl | rfl | hr | ⟨es, hne, hes, rfl⟩⟩ := h
  · exact .of_isLeaf hT sound_trueExpr rfl
  · exact .of_isLeaf hT sound_falseExpr rfl
  · exact ⟨(hterminal r hr).1, fun t ht => hT.terminals (hterminal r hr).2 ht⟩
  · rw [value_orExpr] at hvalue
    exact ⟨.disj es negated hne (fun e he => (hterminal e (hes e he)).1)
      (fun n hn => (hcached n hn).1) (fun n hn => by rw [hvalue, (hcached n hn).2]),
      fun t ht => (hterminal t (hes t ht)).2⟩

theorem or_isMade (hT : IsTerms T) (hregexps : S.RegexpsAgree)
    (hneg : ∀ t, S.Sound t → T t → Settles (fun fuel => S.negateFuel fuel t) (S.IsNegation t))
    {parts : List (ContextKeyExpression V R)} (hne : parts ≠ [])
    (hparts : ∀ p ∈ parts, S.IsMade T p) {negated : Option (ContextKeyExpression V R)}
    (hcached : ∀ n ∈ negated, S.Sound n ∧ S.value n = !parts.any S.value) (check : Bool) :
    Settles
      (fun fuel => ContextKeyOrExpr.create S.rt (S.negateFuel fuel) (parts.map some) negated check)
      fun r => ∃ r', r = some r' ∧ S.IsMade T r' ∧ S.value r' = parts.any S.value := by
  have hreduce : (parts.map some).reduceOption = parts := by
    simp [List.reduceOption]
  have hor := @or_settles _ _ S S.negateFuel (parts.map some) hregexps
    (by rw [hreduce]; exact fun p hp => (hparts p hp).1) negated check
    (by
      rw [hreduce]
      rintro - t ht
      obtain ⟨p, hp, ht⟩ := mem_flatMap.mp ht
      exact hneg t ((hparts p hp).1.getTerminals.2.1 t ht) ((hparts p hp).2 t ht))
  rw [hreduce] at hor
  refine hor.mono fun r hr => ?_
  cases r with
  | none => exact absurd hr hne
  | some r => exact ⟨r, rfl, hr.2.isMade hT hparts hcached, hr.2.1⟩

theorem any_terminalPairs (left right : ContextKeyExpression V R) :
    (terminalPairs left right).any (fun pair => pair.reduceOption.all S.value) =
      ((getTerminals left).any S.value && (getTerminals right).any S.value) := by
  rw [terminalPairs]
  induction getTerminals left with
  | nil => rfl
  | cons l ls ih =>
    have hl : ((getTerminals right).map fun r => [some l, some r]).any
        (fun pair => pair.reduceOption.all S.value) =
        (S.value l && (getTerminals right).any S.value) := by
      induction getTerminals right with
      | nil => simp
      | cons r rs ihr =>
        rw [map_cons, any_cons, ihr, any_cons, Bool.and_or_distrib_left]
        congr 1
        simp [List.reduceOption]
    rw [flatMap_cons, any_append, ih, hl, any_cons, Bool.and_or_distrib_right]

theorem made_of_forall₂ {α : Type} {p : α → Bool} {l : List α}
    {parts : List (ContextKeyExpression V R)}
    (h : List.Forall₂ (fun a r => S.IsMade T r ∧ S.value r = p a) l parts) :
    (∀ r ∈ parts, S.IsMade T r) ∧ parts.any S.value = l.any p ∧ parts.all S.value = l.all p := by
  induction h with
  | nil => exact ⟨by simp, rfl, rfl⟩
  | cons hr _ ih =>
    obtain ⟨hmade, hany, hall⟩ := ih
    refine ⟨forall_mem_cons.mpr ⟨hr.1, hmade⟩, ?_, ?_⟩
    · rw [any_cons, any_cons, hany, hr.2]
    · rw [all_cons, all_cons, hall, hr.2]

theorem ne_nil_of_forall₂ {α β : Type} {P : α → β → Prop} {l : List α} {l' : List β}
    (h : List.Forall₂ P l l') (hne : l ≠ []) : l' ≠ [] := by
  rintro rfl
  exact hne (forall₂_nil_right_iff.mp h)

theorem distributeTerminals_settles (hT : S.IsTermClass T) (hregexps : S.RegexpsAgree)
    {left : ContextKeyExpression V R} (hleft : S.IsMade T left)
    {result : List (ContextKeyExpression V R)} (hresult : ∀ r ∈ result, S.IsMade T r) :
    Settles
      (fun fuel => distributeTerminals
        (fun arr => ContextKeyAndExpr.create S.rt (S.negateFuel fuel) fuel arr none false)
        (fun arr => ContextKeyOrExpr.create S.rt (S.negateFuel fuel) arr none false) left result)
      fun r => S.IsMade T r ∧ S.value r = (left :: result).all S.value := by
  induction result generalizing left with
  | nil => exact .some ⟨hleft, by rw [all_cons, all_nil, Bool.and_true]⟩
  | cons right result ih =>
    rw [forall_mem_cons] at hresult
    simp only [distributeTerminals]
    have hpairs : Settles
        (fun fuel => (terminalPairs left right).mapM fun arr =>
          ContextKeyAndExpr.create S.rt (S.negateFuel fuel) fuel arr none false)
        (List.Forall₂ (fun pair res => ∃ r, res = some r ∧
          (S.IsMade T r ∧ S.value r = pair.reduceOption.all S.value))
          (terminalPairs left right)) := by
      refine Settles.mapM fun pair hpair => ?_
      simp only [terminalPairs, mem_flatMap, mem_map] at hpair
      obtain ⟨l, hl, r, hr, rfl⟩ := hpair
      refine (hT.conj ⟨hleft.1.getTerminals.2.1 l hl, hleft.2 l hl⟩
        ⟨hresult.1.1.getTerminals.2.1 r hr, hresult.1.2 r hr⟩).mono ?_
      rintro _ ⟨r', rfl, hsound, hvalue, hterminals⟩
      refine ⟨r', rfl, ⟨hsound, hterminals⟩, ?_⟩
      rw [hvalue]
      simp [List.reduceOption]
    refine hpairs.bind fun os hos => ?_
    obtain ⟨parts, rfl, hparts⟩ := exists_parts
      (P := fun (pair : List (Option (ContextKeyExpression V R))) r =>
        S.IsMade T r ∧ S.value r = pair.reduceOption.all S.value) hos
    obtain ⟨hmade, hany, -⟩ := made_of_forall₂ hparts
    rw [any_terminalPairs, hleft.1.getTerminals.2.2, hresult.1.1.getTerminals.2.2] at hany
    have hne : parts ≠ [] := by
      refine ne_nil_of_forall₂ hparts ?_
      obtain ⟨l, hl⟩ := exists_mem_of_ne_nil _ hleft.1.getTerminals.1
      obtain ⟨r, hr⟩ := exists_mem_of_ne_nil _ hresult.1.1.getTerminals.1
      exact ne_nil_of_mem (mem_flatMap.mpr ⟨l, hl, mem_map.mpr ⟨r, hr, rfl⟩⟩)
    refine (or_isMade hT.toIsTerms hregexps (fun _ => hT.negation) hne hmade (by simp) false).bind ?_
    rintro _ ⟨r, rfl, hr, hvalue⟩
    refine (ih hr hresult.2).mono fun res hres => ⟨hres.1, ?_⟩
    rw [hres.2, all_cons, all_cons, all_cons, hvalue, hany, Bool.and_assoc]

theorem IsTermClass.negate (hT : S.IsTermClass T) (hregexps : S.RegexpsAgree) {k : Nat}
    (hcached : ∀ n, S.Sound n → n.cacheDepth < k → ∀ t ∈ getTerminals n, T t)
    {e : ContextKeyExpression V R} (he : S.Sound e) (hk : e.cacheDepth ≤ k) :
    Settles (fun fuel => S.negateFuel fuel e)
      fun r => S.IsMade T r ∧ S.value r = !S.value e := by
  have hknown (e n : ContextKeyExpression V R) (he : S.Sound e) (hn : e.cached = some n)
      (hk : n.cacheDepth < k) : S.IsMade T n ∧ S.value n = !S.value e :=
    ⟨⟨(he.opposite hn).1, hcached n (he.opposite hn).1 hk⟩, (he.opposite hn).2⟩
  have hterms (es : List (ContextKeyExpression V R))
      (ih : ∀ e ∈ es, S.Sound e → e.cacheDepth ≤ k → Settles (fun fuel => S.negateFuel fuel e)
        fun r => S.IsMade T r ∧ S.value r = !S.value e)
      (hes : ∀ e ∈ es, S.Sound e) (hk : cacheDepthMax es ≤ k) :
      Settles (fun fuel => es.mapM (S.negateFuel fuel)) fun result =>
        (result = [] ↔ es = []) ∧ (∀ r ∈ result, S.IsMade T r) ∧
          result.any S.value = es.any (fun e => !S.value e) ∧
          result.all S.value = es.all (fun e => !S.value e) := by
    refine (Settles.mapM fun e he => ih e he (hes e he)
      (cacheDepthMax_le_iff.mp hk e he)).mono fun result h => ⟨?_, made_of_forall₂ h⟩
    constructor
    · rintro rfl
      exact forall₂_nil_right_iff.mp h
    · rintro rfl
      exact forall₂_nil_left_iff.mp h
  induction e using node_induction with
  | leaf e hleaf =>
    obtain ⟨n, hn, hnleaf, hsound, hvalue⟩ := negate_leaf he hleaf
    exact .of_succ (.congr hn (.some ⟨.of_isLeaf hT.toIsTerms hsound hnleaf, hvalue⟩))
  | conj es negated ih _ =>
    rw [cacheDepth, max_le_iff] at hk
    refine .of_succ ?_
    cases negated with
    | some n => exact .some (hknown _ n he rfl hk.2)
    | none =>
      obtain ⟨hne, hes⟩ := he.terms_of_andExpr
      simp only [negateFuel, ContextKeyExpression.negate]
      refine (hterms es ih hes hk.1).bind ?_
      rintro result ⟨hnil, hmade, hany, -⟩
      have hopposite : S.value (andExpr es none) = !result.any S.value := by
        rw [value_andExpr, hany, all_eq_not_any_not]
      refine (or_isMade hT.toIsTerms hregexps (fun _ => hT.negation) (mt hnil.mp hne) hmade ?_ true).bind ?_
      · rintro n ⟨⟩
        exact ⟨he, hopposite⟩
      · rintro _ ⟨r, rfl, hr, hvalue⟩
        exact .some ⟨hr, by rw [hvalue, hopposite, Bool.not_not]⟩
  | disj es negated ih _ =>
    rw [cacheDepth, max_le_iff] at hk
    refine .of_succ ?_
    cases negated with
    | some n => exact .some (hknown _ n he rfl hk.2)
    | none =>
      obtain ⟨hne, hes⟩ := he.terms_of_orExpr
      simp only [negateFuel, ContextKeyExpression.negate]
      refine (hterms es ih hes hk.1).bind ?_
      rintro result ⟨hnil, hmade, -, hall⟩
      cases result with
      | nil => exact absurd (hnil.mp rfl) hne
      | cons left result =>
        rw [forall_mem_cons] at hmade
        refine (distributeTerminals_settles hT hregexps hmade.1 hmade.2).bind ?_
        rintro distributed ⟨hdistributed, hvalue⟩
        have hopposite : S.value (orExpr es none) = !S.value distributed := by
          rw [value_orExpr, hvalue, hall, any_eq_not_all_not]
        refine (or_isMade hT.toIsTerms hregexps (fun _ => hT.negation) (cons_ne_nil distributed [])
          (by simpa using hdistributed) ?_ true).bind ?_
        · rintro n ⟨⟩
          refine ⟨he, ?_⟩
          rw [hopposite, any_cons, any_nil, Bool.or_false]
        · rintro _ ⟨r, rfl, hr, hvalue⟩
          refine .some ⟨hr, ?_⟩
          rw [hvalue, hopposite, Bool.not_not, any_cons, any_nil, Bool.or_false]

def IsProduct (t : ContextKeyExpression V R) : Prop :=
  t.isLeaf = true ∨ ∃ es, t = andExpr es none ∧ ∀ e ∈ es, e.isLeaf = true

theorem getTerminals_of_isProduct {t : ContextKeyExpression V R} (h : IsProduct t) :
    getTerminals t = [t] := by
  rcases h with h | ⟨es, rfl, -⟩
  · exact getTerminals_of_isLeaf h
  · rfl

theorem isLeaf_of_mem_getTerms {e t : ContextKeyExpression V R} (h : IsProduct e)
    (ht : t ∈ ContextKeyAndExpr.getTerms e) : t.isLeaf = true := by
  rcases h with h | ⟨es, rfl, hes⟩
  · cases e <;> first | rwa [mem_singleton.mp ht] | cases h
  · exact hes t ht

theorem negate_isProduct (hregexps : S.RegexpsAgree) {t : ContextKeyExpression V R}
    (ht : S.Sound t) (h : IsProduct t) :
    Settles (fun fuel => S.negateFuel fuel t) (S.IsNegation t) := by
  have hleafNeg (e : ContextKeyExpression V R) (he : S.Sound e) (hleaf : e.isLeaf = true) :
      Settles (fun fuel => S.negateFuel fuel e) fun n => n.isLeaf = true ∧ S.IsNegation e n := by
    obtain ⟨n, hn, hnleaf, hneg⟩ := negate_leaf he hleaf
    exact .of_succ (.congr hn (.some ⟨hnleaf, hneg⟩))
  have hleaves : IsTerms fun e : ContextKeyExpression V R => e.isLeaf = true :=
    ⟨fun h => h, fun {t s} ht hs => by
      rw [getTerminals_of_isLeaf ht, mem_singleton] at hs
      rwa [hs]⟩
  rcases h with h | ⟨es, rfl, hes⟩
  · exact (hleafNeg t ht h).mono fun n hn => hn.2
  · obtain ⟨hne, hsound⟩ := ht.terms_of_andExpr
    refine .of_succ ?_
    simp only [negateFuel, negate]
    refine (Settles.mapM fun e he => (hleafNeg e (hsound e he) (hes e he)).mono fun n hn =>
      (⟨.of_isLeaf hleaves hn.2.1 hn.1, hn.2.2⟩ :
        S.IsMade (fun e => e.isLeaf = true) n ∧ S.value n = !S.value e)).bind fun result h => ?_
    obtain ⟨hmade, hany, -⟩ := made_of_forall₂ h
    have hopposite : S.value (andExpr es none) = !result.any S.value := by
      rw [value_andExpr, hany, all_eq_not_any_not]
    refine (or_isMade hleaves hregexps (fun t ht hleaf => (hleafNeg t ht hleaf).mono
      fun n hn => hn.2) (ne_nil_of_forall₂ h hne) hmade ?_ true).bind ?_
    · rintro n ⟨⟩
      exact ⟨ht, hopposite⟩
    · rintro _ ⟨r, rfl, hr, hvalue⟩
      exact .some ⟨hr.1, by rw [hvalue, hopposite, Bool.not_not]⟩

theorem and_isProduct (hregexps : S.RegexpsAgree) {l r : ContextKeyExpression V R}
    (hl : S.Sound l ∧ IsProduct l) (hr : S.Sound r ∧ IsProduct r) : Settles
    (fun fuel => ContextKeyAndExpr.create S.rt (S.negateFuel fuel) fuel [some l, some r] none false)
    fun res => ∃ r', res = some r' ∧ S.Sound r' ∧ S.value r' = (S.value l && S.value r) ∧
      ∀ t ∈ getTerminals r', IsProduct t := by
  have hreduce : [some l, some r].reduceOption = [l, r] := rfl
  have hall : [l, r].all S.value = (S.value l && S.value r) := by simp
  have hterm (t) (ht : t ∈ [l, r].flatMap ContextKeyAndExpr.getTerms) :
      S.Sound t ∧ t.isLeaf = true := by
    obtain ⟨e, he, ht⟩ := mem_flatMap.mp ht
    have he' : S.Sound e ∧ IsProduct e := by
      rcases mem_cons.mp he with rfl | he
      · exact hl
      · rwa [mem_singleton.mp he]
    exact ⟨he'.1.getTerms.2.1 t ht, isLeaf_of_mem_getTerms he'.2 ht⟩
  have hmade (e : ContextKeyExpression V R) (he : IsProduct e) :
      ∀ t ∈ getTerminals e, IsProduct t := by
    rintro t ht
    rw [getTerminals_of_isProduct he, mem_singleton] at ht
    rwa [ht]
  have hcases := @and_cases _ _ S [some l, some r] hregexps (by
    rw [hreduce]
    simp [hl.1, hr.1])
  rw [hreduce] at hcases
  refine .of_succ ?_
  rcases hcases with ⟨res, hcreate, hres⟩ | ⟨expr, hne, hsub, hvalue, hcreate⟩
  · refine .congr (fun fuel => hcreate _ _ _ _) (.some ?_)
    cases res with
    | none => exact absurd hres (cons_ne_nil _ _)
    | some r' =>
      have hr' : S.Sound r' ∧ r'.isLeaf = true := by
        rcases hres.2.2 with rfl | rfl | hmem
        · exact ⟨sound_trueExpr, rfl⟩
        · exact ⟨sound_falseExpr, rfl⟩
        · exact hterm r' hmem
      exact ⟨r', rfl, hr'.1, by rw [hres.2.1, hall], hmade r' (.inl hr'.2)⟩
  · have hexpr (e) (he : e ∈ expr) := hterm e (hsub.subset he)
    have hround (createAnd createOr) : ContextKeyAndExpr.distribute S.rt createAnd createOr
        expr.length expr = some expr := by
      rcases hr : expr.reverse with _ | ⟨last, rest⟩
      · exact absurd (reverse_eq_nil_iff.mp hr) hne
      · obtain ⟨n, hn⟩ : ∃ n, expr.length = n + 1 := ⟨expr.length - 1, by have := length_pos_of_ne_nil hne; omega⟩
        have hlast : last.isLeaf = true := (hexpr last (mem_reverse.mp (hr ▸ mem_cons_self))).2
        rw [hn, ContextKeyAndExpr.distribute, hr]
        cases last <;> first | rfl | cases hlast
    refine .congr (fun fuel => hcreate _ _ _ _) ?_
    simp only [createFrom, hround, Option.bind_eq_bind, Option.bind_some]
    rcases expr with _ | ⟨e, _ | ⟨e', es⟩⟩
    · exact absurd rfl hne
    · refine .some ⟨e, rfl, (hexpr e mem_cons_self).1, ?_, hmade e (.inl (hexpr e mem_cons_self).2)⟩
      rw [← hall, ← hvalue, all_cons, all_nil, Bool.and_true]
    · refine .some ⟨andExpr (e :: e' :: es) none, rfl, ?_, by rw [value_andExpr, hvalue, hall],
        hmade _ (.inr ⟨_, rfl, fun t ht => (hexpr t ht).2⟩)⟩
      exact .conj _ none hne (fun t ht => (hexpr t ht).1) (by simp) (by simp)

theorem isTermClass_isProduct (hregexps : S.RegexpsAgree) : S.IsTermClass IsProduct where
  leaf h := .inl h
  terminals ht hs := by
    rw [getTerminals_of_isProduct ht, mem_singleton] at hs
    rwa [hs]
  negation := negate_isProduct hregexps
  conj := and_isProduct hregexps

theorem isClosed_of_negation {D : ContextKeyExpression V R → Prop}
    (hleaf : ∀ e : ContextKeyExpression V R, e.isLeaf = true → D e)
    (hconj : ∀ es : List (ContextKeyExpression V R), D (andExpr es none) ↔ ∀ e ∈ es, D e)
    (hconj' : ∀ (es : List (ContextKeyExpression V R)) n, D (andExpr es n) → ∀ e ∈ es, D e)
    (hdisj : ∀ es : List (ContextKeyExpression V R), D (orExpr es none) ↔ ∀ e ∈ es, D e)
    (hdisj' : ∀ (es : List (ContextKeyExpression V R)) n, D (orExpr es n) → ∀ e ∈ es, D e)
    (hneg : ∀ e, S.Sound e → D e → Settles (fun fuel => S.negateFuel fuel e) (S.IsNegation e)) :
    S.IsClosed (fun e => S.Sound e ∧ D e) S.negateFuel where
  sound h := h.1
  constant b := ⟨sound_constantExpr b, hleaf _ (isLeaf_constantExpr b)⟩
  terms {e t} h ht := by
    refine ⟨h.1.getTerms.2.1 t ht, ?_⟩
    cases e with
    | andExpr es n => exact hconj' es n h.2 t ht
    | _ =>
      rw [mem_singleton.mp ht]
      exact h.2
  terminals {e t} h ht := by
    refine ⟨h.1.getTerminals.2.1 t ht, ?_⟩
    cases e with
    | orExpr es n => exact hdisj' es n h.2 t ht
    | _ =>
      rw [mem_singleton.mp ht]
      exact h.2
  conj {es} hne h := ⟨.conj es none hne (fun e he => (h e he).1) (by simp) (by simp),
    (hconj es).mpr fun e he => (h e he).2⟩
  disj {es} hne h := ⟨.disj es none hne (fun e he => (h e he).1) (by simp) (by simp),
    (hdisj es).mpr fun e he => (h e he).2⟩
  negation h := hneg _ h.1 h.2

theorem isClosed_of_depth {k : Nat}
    (hneg : ∀ e, S.Sound e → e.cacheDepth ≤ k → Settles (fun fuel => S.negateFuel fuel e) (S.IsNegation e)) :
    S.IsClosed (fun e => S.Sound e ∧ e.cacheDepth ≤ k) S.negateFuel := by
  refine isClosed_of_negation ?_ ?_ ?_ ?_ ?_ hneg
  · rintro e he
    rw [cacheDepth_of_isLeaf he]
    exact Nat.zero_le k
  · rintro es
    rw [cacheDepth, cacheDepthOf, Nat.max_zero, cacheDepthMax_le_iff]
  · rintro es n h
    rw [cacheDepth, max_le_iff] at h
    exact cacheDepthMax_le_iff.mp h.1
  · rintro es
    rw [cacheDepth, cacheDepthOf, Nat.max_zero, cacheDepthMax_le_iff]
  · rintro es n h
    rw [cacheDepth, max_le_iff] at h
    exact cacheDepthMax_le_iff.mp h.1

/-- By induction on the depth of known negations: those of the terms that a negation is made
of are known less deep. -/
theorem negate_settles_of_depth (hregexps : S.RegexpsAgree) (k : Nat)
    (e : ContextKeyExpression V R) (he : S.Sound e) (hk : e.cacheDepth ≤ k) :
    Settles (fun fuel => S.negateFuel fuel e) (S.IsNegation e) := by
  induction k generalizing e with
  | zero => exact ((isTermClass_isProduct hregexps).negate hregexps (by simp) he hk).mono fun r hr => ⟨hr.1.1, hr.2⟩
  | succ k ih =>
    have hclosed := isClosed_of_depth ih
    have hT : S.IsTermClass fun t => t.cacheDepth ≤ k :=
      { leaf := fun hleaf => by rw [cacheDepth_of_isLeaf hleaf]; exact Nat.zero_le k
        terminals := fun ht hs => (cacheDepth_terminal_le hs).trans ht
        negation := fun hsound ht => ih _ hsound ht
        conj := fun {l r} hl hr => by
          have hreduce : [some l, some r].reduceOption = [l, r] := rfl
          refine (hclosed.and hregexps [some l, some r] ?_ false).mono fun res hres => ?_
          · simp [hreduce, hl, hr]
          · cases res with
            | none => simp [hreduce] at hres
            | some r' =>
              obtain ⟨-, hC, hvalue, -⟩ := hres
              refine ⟨r', rfl, hC.1, by simpa [hreduce] using hvalue, fun t ht => ?_⟩
              exact (cacheDepth_terminal_le ht).trans hC.2 }
    refine (hT.negate hregexps (fun n hn hlt t ht => ?_) he hk).mono fun r hr => ⟨hr.1.1, hr.2⟩
    exact (cacheDepth_terminal_le ht).trans (Nat.lt_succ_iff.mp hlt)

theorem negate_settles (hregexps : S.RegexpsAgree) {e : ContextKeyExpression V R}
    (he : S.Sound e) : Settles (fun fuel => S.negateFuel fuel e) (S.IsNegation e) :=
  negate_settles_of_depth hregexps _ e he (le_refl _)

theorem isClosed_sound (hregexps : S.RegexpsAgree) :
    S.IsClosed (fun e => S.Sound e ∧ True) S.negateFuel :=
  isClosed_of_negation (by simp) (by simp) (by simp) (by simp) (by simp) fun _ he _ => negate_settles hregexps he

variable {expr : List (Option (ContextKeyExpression V R))}

theorem and_settles (hregexps : S.RegexpsAgree) (h : ∀ e ∈ expr.reduceOption, S.Sound e) :
    Settles (fun fuel => ContextKeyExpr.and S.rt S.constants fuel expr) fun r =>
      (r = none ↔ expr.reduceOption = []) ∧
        ∀ r' ∈ r, S.Sound r' ∧ S.value r' = expr.reduceOption.all S.value := by
  refine ((isClosed_sound hregexps).and hregexps expr (fun e he => ⟨h e he, trivial⟩) true).mono fun r hr => ?_
  cases r with
  | none => exact ⟨by simp [hr], by simp⟩
  | some r =>
    refine ⟨by simp [hr.1], ?_⟩
    rintro r' ⟨⟩
    exact ⟨hr.2.1.1, hr.2.2.1⟩

theorem or_settles_sound (hregexps : S.RegexpsAgree) (h : ∀ e ∈ expr.reduceOption, S.Sound e) :
    Settles (fun fuel => ContextKeyExpr.or S.rt S.constants fuel expr) fun r =>
      (r = none ↔ expr.reduceOption = []) ∧
        ∀ r' ∈ r, S.Sound r' ∧ S.value r' = expr.reduceOption.any S.value := by
  have hterminal (t) (ht : t ∈ expr.reduceOption.flatMap getTerminals) : S.Sound t := by
    obtain ⟨e, he, ht⟩ := mem_flatMap.mp ht
    exact (h e he).getTerminals.2.1 t ht
  refine (@or_settles _ _ S S.negateFuel expr hregexps h none true
    (fun _ t ht => negate_settles hregexps (hterminal t ht))).mono fun r hr => ?_
  cases r with
  | none => exact ⟨by simp [hr], by simp⟩
  | some r =>
    refine ⟨by simp [hr.1], ?_⟩
    rintro r' ⟨⟩
    have hall : IsTerms fun _ : ContextKeyExpression V R => True := ⟨fun _ => trivial, fun _ _ => trivial⟩
    exact ⟨(hr.2.isMade hall (fun p hp => ⟨h p hp, fun _ _ => trivial⟩) (by simp)).1, hr.2.1⟩

end Setting

end Gavea.ContextKey
