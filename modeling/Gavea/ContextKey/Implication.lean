import Gavea.ContextKey.Normalize

namespace Gavea.ContextKey

open Lib.Js ContextKeyExpression

variable {V R : Type}

section Implies

variable (rt : Runtime V R)

/-- Both arrays are assumed to be sorted. -/
def allElementsIncluded : List (ContextKeyExpression V R) → List (ContextKeyExpression V R) → Bool
  | [], _ => true
  | _ :: _, [] => false
  | e :: p, other :: q =>
    if e.cmp rt other < 0 then false
    else if e.cmp rt other = 0 then allElementsIncluded p q
    else allElementsIncluded (e :: p) q

mutual

def implies (p q : ContextKeyExpression V R) : Bool :=
  match p, q with
  | falseExpr, _ => true
  | _, trueExpr => true
  | orExpr expr _, orExpr otherExpr _ => allElementsIncluded rt expr otherExpr
  | orExpr _ _, _ => false
  | p, orExpr otherExpr _ => impliesSome p otherExpr
  | andExpr expr _, andExpr otherExpr _ => allElementsIncluded rt otherExpr expr
  | andExpr expr _, q => someImplies expr q
  | p, q => p.equals rt q
termination_by sizeOf p + sizeOf q

def impliesSome (p : ContextKeyExpression V R) : List (ContextKeyExpression V R) → Bool
  | [] => false
  | element :: q => if implies p element then true else impliesSome p q
termination_by q => sizeOf p + sizeOf q

def someImplies : List (ContextKeyExpression V R) → ContextKeyExpression V R → Bool
  | [], _ => false
  | element :: p, q => if implies element q then true else someImplies p q
termination_by p q => sizeOf p + sizeOf q

end

def isTrue : ContextKeyExpression V R → Bool
  | trueExpr => true
  | _ => false

def whenIsEntirelyIncluded : Option (ContextKeyExpression V R) →
    Option (ContextKeyExpression V R) → Bool
  | _, none => true
  | none, some b => isTrue b
  | some a, some b => isTrue b || !isTrue a && implies rt a b

def contextMatchesRules (context : Context V) : Option (ContextKeyExpression V R) → Bool
  | none => true
  | some rules => rules.evaluate rt context

end Implies

inductive ContextKeyExpression.HasClause : ContextKeyExpression V R → ContextKeyExpression V R → Prop
  | leaf (c) (h : c.isLeaf = true) : HasClause c c
  | conj (es negated e c) (he : e ∈ es) (h : HasClause e c) : HasClause (andExpr es negated) c
  | disj (es negated e c) (he : e ∈ es) (h : HasClause e c) : HasClause (orExpr es negated) c

/-- Clauses that the comparisons tell apart when they differ: values of which neither is the
smaller one are the same, and so are regular expressions with one source. -/
structure Comparable (rt : Runtime V R) (clauses : Set (ContextKeyExpression V R)) : Prop where
  equals (key v v' n n') (h : equalsExpr key v n ∈ clauses) (h' : equalsExpr key v' n' ∈ clauses)
      (hless : rt.less v v' = false) (hmore : rt.less v' v = false) :
    v = v' ∨ rt.strictEquals v v' = true
  notEquals (key v v' n n') (h : notEqualsExpr key v n ∈ clauses)
      (h' : notEqualsExpr key v' n' ∈ clauses) (hless : rt.less v v' = false)
      (hmore : rt.less v' v = false) : v = v' ∨ rt.strictEquals v v' = true
  comparisons (op key b b' n n') (h : comparisonExpr op key b n ∈ clauses)
      (h' : comparisonExpr op key b' n' ∈ clauses)
      (hless : rt.less (rt.ofBound b) (rt.ofBound b') = false)
      (hmore : rt.less (rt.ofBound b') (rt.ofBound b) = false) : b = b'
  regexps (key r r') (h : regexExpr key r ∈ clauses) (h' : regexExpr key r' ∈ clauses)
      (hsource : sourceOf rt r = sourceOf rt r') : r = r'
  notRegexps (key r r') (h : notRegexExpr key r ∈ clauses) (h' : notRegexExpr key r' ∈ clauses)
      (hsource : sourceOf rt r = sourceOf rt r') : r = r'

section Sound

variable {rt : Runtime V R} {clauses : Set (ContextKeyExpression V R)}
  {p q : ContextKeyExpression V R}

theorem eq_of_not_less {s t : JsString} (h : ¬ s < t) (h' : ¬ t < s) : s = t :=
  List.le_antisymm (List.not_lt.mp h') (List.not_lt.mp h)

theorem cmp1_eq_zero {key otherKey : JsString} (h : cmp1 key otherKey = 0) : key = otherKey := by
  rw [cmp1] at h
  split at h
  · omega
  · split at h
    · omega
    · next hless hmore => exact eq_of_not_less hless hmore

theorem cmp2_eq_zero {key otherKey : JsString} {value otherValue : V}
    (h : cmp2 rt key value otherKey otherValue = 0) :
    key = otherKey ∧ rt.less value otherValue = false ∧ rt.less otherValue value = false := by
  rw [cmp2] at h
  split at h
  · omega
  · split at h
    · omega
    · next hless hmore =>
        refine ⟨eq_of_not_less hless hmore, ?_⟩
        split at h
        · omega
        · split at h
          · omega
          · next hvalue hother => exact ⟨by simpa using hvalue, by simpa using hother⟩

theorem cmpKeys_eq_zero {key valueKey otherKey otherValueKey : JsString}
    (h : cmpKeys key valueKey otherKey otherValueKey = 0) :
    key = otherKey ∧ valueKey = otherValueKey := by
  rw [cmpKeys] at h
  split at h
  · omega
  · split at h
    · omega
    · next hless hmore => exact ⟨eq_of_not_less hless hmore, cmp1_eq_zero h⟩

theorem type_eq_of_cmp_eq_zero (h : p.cmp rt q = 0) : p.type = q.type := by
  by_contra hne
  have hcmp : p.cmp rt q = p.type - q.type := by
    unfold ContextKeyExpression.cmp
    split
    case h_11 => exact if_neg fun hop => hne (congrArg Comparison.type hop)
    case h_12 => rfl
    all_goals exact absurd rfl hne
  omega

theorem Comparable.evaluate_eq_of_cmp_leaf (hc : Comparable rt clauses) (hleaf : p.isLeaf = true)
    (hp : p ∈ clauses) (hq : q ∈ clauses) (h : p.cmp rt q = 0) (context : Context V) :
    p.evaluate rt context = q.evaluate rt context := by
  have htype := type_eq_of_cmp_eq_zero h
  unfold ContextKeyExpression.cmp at h
  split at h
  case h_1 | h_2 => simp only [evaluate, cmp1_eq_zero h]
  case h_3 | h_4 =>
      obtain ⟨rfl, hless, hmore⟩ := cmp2_eq_zero h
      have hvalue := by first
        | exact hc.equals _ _ _ _ _ hp hq hless hmore
        | exact hc.notEquals _ _ _ _ _ hp hq hless hmore
      rcases hvalue with rfl | hvalue
      · simp only [evaluate]
      · simp only [evaluate, rt.looseEquals_congr _ _ _ hvalue]
  case h_5 | h_8 => cases hleaf
  case h_6 | h_7 =>
      obtain ⟨rfl, hsource⟩ := cmpKeys_eq_zero h
      have hregexp := by first
        | exact hc.regexps _ _ _ hp hq hsource
        | exact hc.notRegexps _ _ _ hp hq hsource
      rw [hregexp]
  case h_9 | h_10 =>
      obtain ⟨rfl, rfl⟩ := cmpKeys_eq_zero h
      rfl
  case h_11 op key value n otherOp otherKey otherValue n' =>
      split at h
      next hop =>
        subst hop
        obtain ⟨rfl, hless, hmore⟩ := cmp2_eq_zero h
        simp only [evaluate, hc.comparisons _ _ _ _ _ _ hp hq hless hmore]
      next hop =>
        exfalso
        cases op <;> cases otherOp <;> simp [Comparison.type] at hop h
  case h_12 hne₁ hne₂ hne₃ hne₄ hne₅ hne₆ hne₇ hne₈ hne₉ hne₁₀ hne₁₁ =>
      cases p <;> cases q <;>
        first
        | rfl
        | (simp only [type, Nat.reduceEqDiff, Nat.succ_ne_self] at htype; done)
        | (simp only [type, Comparison.type] at htype; split at htype <;> omega)
        | exact absurd rfl (hne₁ _ _ _ _ rfl)
        | exact absurd rfl (hne₂ _ _ _ _ rfl)
        | exact absurd rfl (hne₃ _ _ _ _ _ _ rfl)
        | exact absurd rfl (hne₄ _ _ _ _ _ _ rfl)
        | exact absurd rfl (hne₆ _ _ _ _ rfl)
        | exact absurd rfl (hne₇ _ _ _ _ rfl)
        | exact absurd rfl (hne₉ _ _ _ _ rfl)
        | exact absurd rfl (hne₁₀ _ _ _ _ rfl)
        | exact absurd rfl (hne₁₁ _ _ _ _ _ _ _ _ rfl)
        | cases hleaf

theorem Comparable.evaluate_eq_of_equals_leaf (hc : Comparable rt clauses)
    (hleaf : p.isLeaf = true) (hp : p ∈ clauses) (hq : q ∈ clauses) (h : p.equals rt q = true)
    (context : Context V) : p.evaluate rt context = q.evaluate rt context := by
  refine evaluate_eq_of_equals hleaf h fun key r r' hshape hsource => ?_
  rcases hshape with ⟨rfl, rfl⟩ | ⟨rfl, rfl⟩
  · rw [hc.regexps _ _ _ hp hq hsource]
  · rw [hc.notRegexps _ _ _ hp hq hsource]

theorem isLeaf_iff_type : p.isLeaf = true ↔ p.type ≠ 6 ∧ p.type ≠ 9 := by
  cases p with
  | comparisonExpr op => cases op <;> simp [isLeaf, type, Comparison.type]
  | _ => simp [isLeaf, type]

theorem exists_andExpr_of_type (h : p.type = 6) : ∃ es negated, p = andExpr es negated := by
  cases p with
  | andExpr es negated => exact ⟨es, negated, rfl⟩
  | comparisonExpr op => cases op <;> cases h
  | _ => cases h

theorem exists_orExpr_of_type (h : p.type = 9) : ∃ es negated, p = orExpr es negated := by
  cases p with
  | orExpr es negated => exact ⟨es, negated, rfl⟩
  | comparisonExpr op => cases op <;> cases h
  | _ => cases h

def ComposedOf (clauses : Set (ContextKeyExpression V R)) (e : ContextKeyExpression V R) : Prop :=
  ∀ c, e.HasClause c → c ∈ clauses

theorem ComposedOf.of_mem_and {es : List (ContextKeyExpression V R)}
    {negated : Option (ContextKeyExpression V R)} (h : ComposedOf clauses (andExpr es negated)) :
    ∀ e ∈ es, ComposedOf clauses e :=
  fun e he c hc => h c (.conj es negated e c he hc)

theorem ComposedOf.of_mem_or {es : List (ContextKeyExpression V R)}
    {negated : Option (ContextKeyExpression V R)} (h : ComposedOf clauses (orExpr es negated)) :
    ∀ e ∈ es, ComposedOf clauses e :=
  fun e he c hc => h c (.disj es negated e c he hc)

theorem ComposedOf.mem_of_isLeaf (h : ComposedOf clauses p) (hleaf : p.isLeaf = true) :
    p ∈ clauses :=
  h p (.leaf p hleaf)

theorem Comparable.evaluate_eq_of_cmp (hc : Comparable rt clauses) (hp : ComposedOf clauses p)
    (hq : ComposedOf clauses q) (h : p.cmp rt q = 0) (context : Context V) :
    p.evaluate rt context = q.evaluate rt context := by
  have heach (es : List (ContextKeyExpression V R))
      (ih : ∀ e ∈ es, ∀ q, ComposedOf clauses e → ComposedOf clauses q → e.cmp rt q = 0 →
        e.evaluate rt context = q.evaluate rt context) (hes : ∀ e ∈ es, ComposedOf clauses e)
      (others) (hothers : ∀ e ∈ others, ComposedOf clauses e)
      (hlength : es.length = others.length) (h : cmpEach rt es others = 0) :
      es.map (evaluate rt context) = others.map (evaluate rt context) := by
    induction es generalizing others with
    | nil => rw [List.length_eq_zero_iff.mp hlength.symm]
    | cons e es ihes =>
      cases others with
      | nil => cases hlength
      | cons other others =>
        simp only [List.forall_mem_cons] at ih hes hothers
        simp only [cmpEach] at h
        split at h
        next hzero =>
          rw [List.map_cons, List.map_cons, ih.1 other hes.1 hothers.1 hzero,
            ihes ih.2 hes.2 others hothers.2 (Nat.succ.inj hlength) h]
        next hne => exact absurd h hne
  have hlengths {es others : List (ContextKeyExpression V R)}
      (h : (if es.length < others.length then -1 else if others.length < es.length then 1
        else cmpEach rt es others) = 0) : es.length = others.length ∧ cmpEach rt es others = 0 := by
    split at h
    · omega
    · split at h
      · omega
      · exact ⟨by omega, h⟩
  have htype := type_eq_of_cmp_eq_zero h
  induction p using node_induction generalizing q with
  | leaf p hleaf =>
    have hqleaf : q.isLeaf = true := by
      rw [isLeaf_iff_type, ← htype]
      exact isLeaf_iff_type.mp hleaf
    exact hc.evaluate_eq_of_cmp_leaf hleaf (hp.mem_of_isLeaf hleaf) (hq.mem_of_isLeaf hqleaf) h context
  | conj es negated ih ihn =>
    obtain ⟨others, negated', rfl⟩ := exists_andExpr_of_type htype.symm
    rw [ContextKeyExpression.cmp] at h
    obtain ⟨hlength, h⟩ := hlengths h
    have hmap := heach es
      (fun e he q hp hq h => ih e he hp hq h (type_eq_of_cmp_eq_zero h)) hp.of_mem_and others
      hq.of_mem_and hlength h
    rw [evaluate_andExpr, evaluate_andExpr]
    simpa only [List.all_map, Function.id_comp] using congrArg (List.all · id) hmap
  | disj es negated ih ihn =>
    obtain ⟨others, negated', rfl⟩ := exists_orExpr_of_type htype.symm
    rw [ContextKeyExpression.cmp] at h
    obtain ⟨hlength, h⟩ := hlengths h
    have hmap := heach es
      (fun e he q hp hq h => ih e he hp hq h (type_eq_of_cmp_eq_zero h)) hp.of_mem_or others
      hq.of_mem_or hlength h
    rw [evaluate_orExpr, evaluate_orExpr]
    simpa only [List.any_map, Function.id_comp] using congrArg (List.any · id) hmap

theorem Comparable.exists_of_allElementsIncluded (hc : Comparable rt clauses)
    {es others : List (ContextKeyExpression V R)} (hes : ∀ e ∈ es, ComposedOf clauses e)
    (hothers : ∀ e ∈ others, ComposedOf clauses e) (h : allElementsIncluded rt es others = true)
    (context : Context V) :
    ∀ e ∈ es, ∃ other ∈ others, e.evaluate rt context = other.evaluate rt context := by
  induction others generalizing es with
  | nil =>
    cases es with
    | nil => simp
    | cons e es => cases h
  | cons other others ih =>
    cases es with
    | nil => simp
    | cons e es =>
      have hrest := List.forall_mem_cons.mp hothers
      rw [allElementsIncluded] at h
      split at h
      next => cases h
      next =>
        split at h
        next hzero =>
          have heq := hc.evaluate_eq_of_cmp (hes e List.mem_cons_self) hrest.1 hzero context
          rw [List.forall_mem_cons]
          refine ⟨⟨other, List.mem_cons_self, heq⟩, fun e' he' => ?_⟩
          obtain ⟨other', hmem, heq'⟩ := ih (fun x hx => hes x (List.mem_cons_of_mem e hx)) hrest.2 h e' he'
          exact ⟨other', List.mem_cons_of_mem other hmem, heq'⟩
        next =>
          rintro e' he'
          obtain ⟨other', hmem, heq'⟩ := ih hes hrest.2 h e' he'
          exact ⟨other', List.mem_cons_of_mem other hmem, heq'⟩

theorem impliesSome_eq_any (qs : List (ContextKeyExpression V R)) :
    impliesSome rt p qs = qs.any (implies rt p) := by
  induction qs with
  | nil => simp [impliesSome]
  | cons q qs ih => cases h : implies rt p q <;> simp [impliesSome, h, ih]

theorem someImplies_eq_any (ps : List (ContextKeyExpression V R)) :
    someImplies rt ps q = ps.any (implies rt · q) := by
  induction ps with
  | nil => simp [someImplies]
  | cons p ps ih => cases h : implies rt p q <;> simp [someImplies, h, ih]

theorem Comparable.implies_sound (hc : Comparable rt clauses) (hp : ComposedOf clauses p)
    (hq : ComposedOf clauses q) (h : implies rt p q = true) {context : Context V}
    (hholds : p.evaluate rt context = true) : q.evaluate rt context = true := by
  induction hn : sizeOf p + sizeOf q using Nat.strong_induction_on generalizing p q with
  | _ n ih =>
    subst hn
    rw [implies.eq_def] at h
    split at h
    next => cases hholds
    next => rfl
    next es _ others _ _ =>
        rw [evaluate_orExpr, List.any_eq_true] at hholds ⊢
        obtain ⟨e, he, hholds⟩ := hholds
        obtain ⟨other, hmem, heq⟩ := hc.exists_of_allElementsIncluded hp.of_mem_or hq.of_mem_or h context e he
        exact ⟨other, hmem, heq ▸ hholds⟩
    next => cases h
    next others _ _ _ =>
        rw [impliesSome_eq_any, List.any_eq_true] at h
        rw [evaluate_orExpr, List.any_eq_true]
        obtain ⟨other, hmem, h⟩ := h
        have hsize := List.sizeOf_lt_of_mem hmem
        refine ⟨other, hmem, ih _ ?_ hp (hq.of_mem_or other hmem) h hholds rfl⟩
        simp
        omega
    next es _ others _ _ =>
        rw [evaluate_andExpr, List.all_eq_true] at hholds ⊢
        rintro other hmem
        obtain ⟨e, he, heq⟩ := hc.exists_of_allElementsIncluded hq.of_mem_and hp.of_mem_and h context other hmem
        exact heq ▸ hholds e he
    next es _ q _ _ _ =>
        rw [someImplies_eq_any, List.any_eq_true] at h
        rw [evaluate_andExpr, List.all_eq_true] at hholds
        obtain ⟨e, he, h⟩ := h
        have hsize := List.sizeOf_lt_of_mem he
        refine ih _ ?_ (hp.of_mem_and e he) hq h (hholds e he) rfl
        simp
        omega
    next hor hand _ _ _ _ =>
        have hleaf : p.isLeaf = true := by
          cases p with
          | andExpr es negated => exact (hand es negated rfl).elim
          | orExpr es negated => exact (hor es negated rfl).elim
          | _ => rfl
        have hqleaf : q.isLeaf = true := by rw [← Setting.isLeaf_eq_of_equals h, hleaf]
        rw [← hc.evaluate_eq_of_equals_leaf hleaf (hp.mem_of_isLeaf hleaf) (hq.mem_of_isLeaf hqleaf) h context, hholds]

theorem isTrue_iff : isTrue p = true ↔ p = trueExpr := by
  cases p <;> simp [isTrue]

theorem Comparable.whenIsEntirelyIncluded_sound (hc : Comparable rt clauses)
    {a b : Option (ContextKeyExpression V R)} (ha : ∀ e ∈ a, ComposedOf clauses e)
    (hb : ∀ e ∈ b, ComposedOf clauses e) (h : whenIsEntirelyIncluded rt a b = true)
    {context : Context V} (hholds : contextMatchesRules rt context a = true) :
    contextMatchesRules rt context b = true := by
  cases b with
  | none => rfl
  | some b =>
    by_cases htrue : isTrue b = true
    · rw [isTrue_iff.mp htrue]
      rfl
    · cases a with
      | none => exact absurd h htrue
      | some a =>
        simp only [whenIsEntirelyIncluded, htrue, Bool.false_or, Bool.and_eq_true] at h
        exact hc.implies_sound (ha a rfl) (hb b rfl) h.2 hholds

end Sound

end Gavea.ContextKey
