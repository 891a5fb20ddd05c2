import Mathlib.Data.List.ReduceOption
import Gavea.ContextKey.Normalize

namespace Gavea.ContextKey

open Lib Lib.Js ContextKeyExpression List

variable {V R : Type} {S : Setting V R}
  {neg : Nat → ContextKeyExpression V R → Option (ContextKeyExpression V R)}

namespace Setting

section Collect

variable (isNeutral isAbsorbing : ContextKeyExpression V R → Bool)
  (terms : ContextKeyExpression V R → List (ContextKeyExpression V R))
  (p : ContextKeyExpression V R → Bool) (arr : List (Option (ContextKeyExpression V R)))

theorem collectTerms_spec (hneutral : ∀ e, isNeutral e = true → p e = false)
    (habsorbing : ∀ e, isAbsorbing e = true → p e = true)
    (hterms : ∀ e ∈ arr.reduceOption, terms e ≠ [] ∧ (terms e).any p = p e) :
    match collectTerms isNeutral isAbsorbing terms arr with
    | none => arr.reduceOption.any p = true ∧ arr.reduceOption ≠ []
    | some (expr, hasNeutral) =>
      expr.Sublist (arr.reduceOption.flatMap terms) ∧ expr.any p = arr.reduceOption.any p ∧
        (expr = [] → (hasNeutral = false ↔ arr.reduceOption = [])) := by
  induction arr with
  | nil => exact ⟨.refl _, rfl, by simp [reduceOption_nil]⟩
  | cons o arr ih =>
    cases o with
    | none =>
      rw [reduceOption_cons_of_none] at hterms ⊢
      exact ih hterms
    | some e =>
      rw [reduceOption_cons_of_some] at hterms ⊢
      rw [forall_mem_cons] at hterms
      specialize ih hterms.2
      rcases hc : collectTerms isNeutral isAbsorbing terms arr with _ | ⟨expr, hasNeutral⟩
      · rw [hc] at ih
        have hany : (e :: arr.reduceOption).any p = true := by
          rw [any_cons, ih.1, Bool.or_true]
        simp only [collectTerms, hc, Option.map_none, ite_self]
        exact ⟨hany, cons_ne_nil _ _⟩
      · rw [hc] at ih
        obtain ⟨hsub, hany, -⟩ := ih
        by_cases hn : isNeutral e = true
        · simp only [collectTerms, hc, hn, if_true, Option.map_some, flatMap_cons]
          refine ⟨hsub.trans (sublist_append_right _ _), ?_, by simp⟩
          rw [any_cons, hneutral e hn, hany, Bool.false_or]
        · by_cases ha : isAbsorbing e = true
          · simp only [collectTerms, hn, ha, if_true, if_false, Bool.false_eq_true]
            exact ⟨by rw [any_cons, habsorbing e ha, Bool.true_or], cons_ne_nil _ _⟩
          · simp only [collectTerms, hc, hn, ha, if_false, Bool.false_eq_true, Option.map_some, flatMap_cons]
            refine ⟨hsub.append_left (terms e), ?_, fun h => absurd (append_eq_nil_iff.mp h).1 hterms.1.1⟩
            rw [any_append, hterms.1.2, hany, any_cons]

end Collect

/-- How a normalised disjunction came about: its terms are terms of the given disjuncts. -/
def IsDisjunction (S : Setting V R) (arr : List (ContextKeyExpression V R))
    (negated : Option (ContextKeyExpression V R)) (r : ContextKeyExpression V R) : Prop :=
  S.value r = arr.any S.value ∧
    (r = trueExpr ∨ r = falseExpr ∨ r ∈ arr.flatMap getTerminals ∨
      ∃ es, es ≠ [] ∧ (∀ e ∈ es, e ∈ arr.flatMap getTerminals) ∧ r = orExpr es negated)

theorem Sound.getTerminals {e : ContextKeyExpression V R} (h : S.Sound e) :
    getTerminals e ≠ [] ∧ (∀ t ∈ getTerminals e, S.Sound t) ∧
      (getTerminals e).any S.value = S.value e := by
  cases e with
  | orExpr es => exact ⟨h.terms_of_orExpr.1, h.terms_of_orExpr.2, (value_orExpr _ _).symm⟩
  | _ =>
    refine ⟨cons_ne_nil _ _, ?_, by simp [ContextKey.getTerminals]⟩
    rintro t ht
    rwa [mem_singleton.mp ht]

theorem Sound.getTerms {e : ContextKeyExpression V R} (h : S.Sound e) :
    ContextKeyAndExpr.getTerms e ≠ [] ∧ (∀ t ∈ ContextKeyAndExpr.getTerms e, S.Sound t) ∧
      (ContextKeyAndExpr.getTerms e).all S.value = S.value e := by
  cases e with
  | andExpr es => exact ⟨h.terms_of_andExpr.1, h.terms_of_andExpr.2, (value_andExpr _ _).symm⟩
  | _ =>
    refine ⟨cons_ne_nil _ _, ?_, by simp [ContextKeyAndExpr.getTerms]⟩
    rintro t ht
    rwa [mem_singleton.mp ht]

theorem isTrueExpr_iff {e : ContextKeyExpression V R} : isTrueExpr e = true ↔ e = trueExpr := by
  cases e <;> simp [isTrueExpr]

theorem isFalseExpr_iff {e : ContextKeyExpression V R} :
    isFalseExpr e = true ↔ e = falseExpr := by
  cases e <;> simp [isFalseExpr]

variable {arr : List (Option (ContextKeyExpression V R))}

theorem or_settles (hregexps : S.RegexpsAgree) (hsound : ∀ e ∈ arr.reduceOption, S.Sound e)
    (negated : Option (ContextKeyExpression V R)) (check : Bool)
    (hneg : check = true → ∀ t ∈ arr.reduceOption.flatMap getTerminals,
      Settles (fun fuel => neg fuel t) (S.IsNegation t)) :
    Settles (fun fuel => ContextKeyOrExpr.create S.rt (neg fuel) arr negated check) fun r =>
      match r with
      | none => arr.reduceOption = []
      | some r => arr.reduceOption ≠ [] ∧ S.IsDisjunction arr.reduceOption negated r := by
  have hcollect := collectTerms_spec isFalseExpr isTrueExpr getTerminals S.value arr
    (fun e he => by rw [isFalseExpr_iff.mp he, value_falseExpr])
    (fun e he => by rw [isTrueExpr_iff.mp he, value_trueExpr])
    (fun e he => ⟨(hsound e he).getTerminals.1, (hsound e he).getTerminals.2.2⟩)
  simp only [ContextKeyOrExpr.create, ContextKeyOrExpr.collect]
  rcases hc : collectTerms isFalseExpr isTrueExpr getTerminals arr
    with _ | ⟨collected, hasFalse⟩
  · simp only [hc] at hcollect
    exact .some ⟨hcollect.2, by rw [hcollect.1, value_trueExpr], .inl rfl⟩
  · simp only [hc] at hcollect
    obtain ⟨hsub, hany, hnil⟩ := hcollect
    have hmem (t) (ht : t ∈ collected) : t ∈ arr.reduceOption.flatMap getTerminals := hsub.mem ht
    have hcollected (t) (ht : t ∈ collected) : S.Sound t := by
      obtain ⟨e, he, ht⟩ := mem_flatMap.mp (hmem t ht)
      exact (hsound e he).getTerminals.2.1 t ht
    simp only []
    by_cases hempty : collected = []
    · subst hempty
      have hsorted : S.rt.sort (cmp S.rt) ([] : List (ContextKeyExpression V R)) = [] := (S.rt.sort_perm _ _).eq_nil
      cases hasFalse with
      | true =>
        refine .some ⟨fun h => ?_, by rw [← hany]; rfl, .inr (.inl rfl)⟩
        exact absurd ((hnil rfl).mpr h) (by simp)
      | false =>
        simp only [length_nil, decide_true, Bool.and_false, Bool.false_eq_true, if_false, hsorted]
        exact .some ((hnil rfl).mp rfl)
    · have hne : arr.reduceOption ≠ [] := by
        intro h
        rw [h, flatMap_nil] at hsub
        exact hempty (sublist_nil.mp hsub)
      have hlength : (decide (collected.length = 0) && hasFalse) = false := by
        rw [decide_eq_false (mt eq_nil_of_length_eq_zero hempty), Bool.false_and]
      simp only [hlength, Bool.false_eq_true, if_false]
      obtain ⟨hsort, -, hsortAny⟩ := sort_spec (S := S) (cmp S.rt) collected
      rcases hs : S.rt.sort (cmp S.rt) collected with _ | ⟨e, _ | ⟨e', es⟩⟩
      · rw [hs] at hsort
        exact absurd (eq_nil_iff_forall_not_mem.mpr fun t ht => by simpa using (hsort t).mpr ht) hempty
      · rw [hs] at hsort hsortAny
        refine .some ⟨hne, ?_, .inr (.inr (.inl (hmem e ((hsort e).mp (by simp)))))⟩
        rw [← hany, ← hsortAny, any_cons, any_nil, Bool.or_false]
      · rw [hs] at hsort hsortAny
        have hsorted (t) (ht : t ∈ e :: e' :: es) : S.Sound t := hcollected t ((hsort t).mp ht)
        obtain ⟨hdsub, -, hdany⟩ := withoutDuplicates_spec hregexps hsorted
        have hdmem (t) (ht : t ∈ withoutDuplicates S.rt (e :: e' :: es)) :
            t ∈ arr.reduceOption.flatMap getTerminals :=
          hmem t ((hsort t).mp (hdsub.mem ht))
        have hvalue : (withoutDuplicates S.rt (e :: e' :: es)).any S.value =
            arr.reduceOption.any S.value := by
          rw [hdany, hsortAny, hany]
        have hdne := withoutDuplicates_ne_nil S.rt (cons_ne_nil e (e' :: es))
        simp only []
        rcases hd : withoutDuplicates S.rt (e :: e' :: es) with _ | ⟨f, fs⟩
        · exact absurd hd hdne
        · rw [hd] at hdmem hvalue
          have hfs (t) (ht : t ∈ f :: fs) : S.Sound t := by
            obtain ⟨e, he, ht⟩ := mem_flatMap.mp (hdmem t ht)
            exact (hsound e he).getTerminals.2.1 t ht
          cases fs with
          | nil =>
            refine .some ⟨hne, ?_, .inr (.inr (.inl (hdmem f mem_cons_self)))⟩
            rw [← hvalue, any_cons, any_nil, Bool.or_false]
          | cons f' fs =>
            have hor : S.IsDisjunction arr.reduceOption negated
                (orExpr (f :: f' :: fs) negated) :=
              ⟨by rw [value_orExpr, hvalue], .inr (.inr (.inr ⟨f :: f' :: fs, cons_ne_nil _ _, hdmem, rfl⟩))⟩
            cases check with
            | false => exact .some ⟨hne, hor⟩
            | true =>
              refine (hasNegatedPair_settles hregexps hfs
                fun t ht => hneg rfl t (hdmem t ht)).bind fun found hfound => ?_
              cases found with
              | false => exact .some ⟨hne, hor⟩
              | true =>
                refine .some ⟨hne, ?_, .inl rfl⟩
                rw [value_trueExpr, ← hvalue, (hfound rfl).2]

/-- The value of a normalised conjunction that needs no further rounds. -/
def IsSimpleConjunction (S : Setting V R) (arr : List (ContextKeyExpression V R))
    (r : ContextKeyExpression V R) : Prop :=
  S.value r = arr.all S.value ∧ (r = trueExpr ∨ r = falseExpr ∨ r ∈ arr.flatMap ContextKeyAndExpr.getTerms)

def createFrom (S : Setting V R)
    (negate : ContextKeyExpression V R → Option (ContextKeyExpression V R)) (fuel : Nat)
    (expr : List (ContextKeyExpression V R)) (negated : Option (ContextKeyExpression V R))
    (check : Bool) : Option (Option (ContextKeyExpression V R)) := do
  let expr ← ContextKeyAndExpr.distribute S.rt
    (fun arr => ContextKeyAndExpr.create S.rt negate fuel arr none check)
    (fun arr isFinished => ContextKeyOrExpr.create S.rt negate arr none isFinished)
    expr.length expr
  ContextKeyAndExpr.conclude S.rt negate expr negated check

theorem and_cases (hregexps : S.RegexpsAgree) (hsound : ∀ e ∈ arr.reduceOption, S.Sound e) :
    (∃ r, (∀ negate fuel negated check,
        ContextKeyAndExpr.create S.rt negate (fuel + 1) arr negated check = some r) ∧
      match r with
      | none => arr.reduceOption = []
      | some r => arr.reduceOption ≠ [] ∧ S.IsSimpleConjunction arr.reduceOption r) ∨
    ∃ expr : List (ContextKeyExpression V R), expr ≠ [] ∧
      List.Subperm expr (arr.reduceOption.flatMap ContextKeyAndExpr.getTerms) ∧
      expr.all S.value = arr.reduceOption.all S.value ∧
      ∀ negate fuel negated check,
        ContextKeyAndExpr.create S.rt negate (fuel + 1) arr negated check =
          S.createFrom negate fuel expr negated check := by
  have hcollect := collectTerms_spec isTrueExpr isFalseExpr ContextKeyAndExpr.getTerms
    (fun e => !S.value e) arr
    (fun e he => by rw [isTrueExpr_iff.mp he, value_trueExpr, Bool.not_true])
    (fun e he => by rw [isFalseExpr_iff.mp he, value_falseExpr, Bool.not_false])
    (fun e he => by
      refine ⟨(hsound e he).getTerms.1, ?_⟩
      rw [← (hsound e he).getTerms.2.2, all_eq_not_any_not, Bool.not_not])
  have hall (es : List (ContextKeyExpression V R)) : es.all S.value = !es.any fun e => !S.value e := all_eq_not_any_not
  rcases hc : collectTerms isTrueExpr isFalseExpr ContextKeyAndExpr.getTerms arr
    with _ | ⟨collected, hasTrue⟩
  · rw [hc] at hcollect
    refine .inl ⟨some falseExpr, fun negate fuel negated check => ?_, hcollect.2, ?_, .inr (.inl rfl)⟩
    · simp only [ContextKeyAndExpr.create, ContextKeyAndExpr.collect, hc]
    · rw [hall, hcollect.1, value_falseExpr, Bool.not_true]
  · rw [hc] at hcollect
    obtain ⟨hsub, hany, hnil⟩ := hcollect
    have hvalue : collected.all S.value = arr.reduceOption.all S.value := by
      rw [hall, hany, ← hall]
    have hcollected (t) (ht : t ∈ collected) : S.Sound t := by
      obtain ⟨e, he, ht⟩ := mem_flatMap.mp (hsub.mem ht)
      exact (hsound e he).getTerms.2.1 t ht
    have hne (h : collected ≠ []) : arr.reduceOption ≠ [] := by
      intro hempty
      rw [hempty, flatMap_nil] at hsub
      exact h (sublist_nil.mp hsub)
    rcases collected with _ | ⟨e, _ | ⟨e', es⟩⟩
    · cases hasTrue with
      | false =>
        refine .inl ⟨none, fun negate fuel negated check => ?_, (hnil rfl).mp rfl⟩
        simp [ContextKeyAndExpr.create, ContextKeyAndExpr.collect, hc]
      | true =>
        refine .inl ⟨some trueExpr, fun negate fuel negated check => ?_, fun h => ?_, ?_, .inl rfl⟩
        · simp [ContextKeyAndExpr.create, ContextKeyAndExpr.collect, hc]
        · exact absurd ((hnil rfl).mpr h) (by simp)
        · rw [← hvalue]
          rfl
    · refine .inl ⟨some e, fun negate fuel negated check => ?_, hne (cons_ne_nil _ _), ?_,
        .inr (.inr (hsub.mem mem_cons_self))⟩
      · simp only [ContextKeyAndExpr.create, ContextKeyAndExpr.collect, hc]
      · rw [← hvalue, all_cons, all_nil, Bool.and_true]
    · have hperm := S.rt.sort_perm (cmp S.rt) (e :: e' :: es)
      have hsorted (t) (ht : t ∈ S.rt.sort (cmp S.rt) (e :: e' :: es)) : S.Sound t := hcollected t (hperm.mem_iff.mp ht)
      obtain ⟨hdsub, hdall, -⟩ := withoutDuplicates_spec hregexps hsorted
      have hne' : S.rt.sort (cmp S.rt) (e :: e' :: es) ≠ [] := fun h => by simpa [h] using hperm.length_eq
      have hdne := withoutDuplicates_ne_nil S.rt hne'
      have hsubperm := (hdsub.subperm.trans hperm.subperm).trans hsub.subperm
      have hdvalue := (hdall.trans hperm.all_eq).trans hvalue
      rcases hd : withoutDuplicates S.rt (S.rt.sort (cmp S.rt) (e :: e' :: es))
        with _ | ⟨f, _ | ⟨f', fs⟩⟩
      · exact absurd hd hdne
      · rw [hd] at hsubperm hdvalue
        refine .inl ⟨some f, fun negate fuel negated check => ?_, hne (cons_ne_nil _ _), ?_,
          .inr (.inr (hsubperm.subset mem_cons_self))⟩
        · simp only [ContextKeyAndExpr.create, ContextKeyAndExpr.collect, hc, hd]
        · rw [← hdvalue, all_cons, all_nil, Bool.and_true]
      · rw [hd] at hsubperm hdvalue
        refine .inr ⟨f :: f' :: fs, cons_ne_nil _ _, hsubperm, hdvalue, fun negate fuel negated check => ?_⟩
        simp only [ContextKeyAndExpr.create, ContextKeyAndExpr.collect, hc, hd, createFrom]

end Setting

end Gavea.ContextKey

namespace Gavea.ContextKey

open Lib Lib.Js ContextKeyExpression List

variable {V R : Type}

namespace ContextKeyExpression

mutual

/-- The number of terms of the longest conjunction that distribution makes of an expression,
and one more for each disjunction that it takes apart. -/
def weight : ContextKeyExpression V R → Nat
  | andExpr expr _ => max 1 (weightSum expr)
  | orExpr expr _ => weightMax expr + 1
  | _ => 1

def weightSum : List (ContextKeyExpression V R) → Nat
  | [] => 0
  | e :: es => weight e + weightSum es

def weightMax : List (ContextKeyExpression V R) → Nat
  | [] => 0
  | e :: es => max (weight e) (weightMax es)

end

theorem weight_pos (e : ContextKeyExpression V R) : 0 < e.weight := by
  cases e <;> simp only [weight] <;> omega

theorem weightSum_eq (es : List (ContextKeyExpression V R)) :
    weightSum es = (es.map weight).sum := by
  induction es with
  | nil => rfl
  | cons e es ih => rw [weightSum, ih, map_cons, sum_cons]

theorem weight_le_weightMax {e : ContextKeyExpression V R} {es : List (ContextKeyExpression V R)}
    (h : e ∈ es) : e.weight ≤ weightMax es := by
  induction es with
  | nil => cases h
  | cons e' es ih =>
    rw [weightMax]
    rcases mem_cons.mp h with rfl | h
    · exact le_max_left _ _
    · exact (ih h).trans (le_max_right _ _)

theorem weightMax_le {es : List (ContextKeyExpression V R)} {bound : Nat}
    (h : ∀ e ∈ es, e.weight ≤ bound) : weightMax es ≤ bound := by
  induction es with
  | nil => exact Nat.zero_le _
  | cons e es ih =>
    rw [forall_mem_cons] at h
    exact max_le h.1 (ih h.2)

theorem weight_le_weightSum {e : ContextKeyExpression V R} {es : List (ContextKeyExpression V R)}
    (h : e ∈ es) : e.weight ≤ weightSum es := by
  rw [weightSum_eq]
  exact single_le_sum (by simp) _ (mem_map_of_mem h)

theorem weightSum_append (es es' : List (ContextKeyExpression V R)) :
    weightSum (es ++ es') = weightSum es + weightSum es' := by
  rw [weightSum_eq, weightSum_eq, weightSum_eq, map_append, sum_append]

theorem weightSum_le_of_subperm {es es' : List (ContextKeyExpression V R)}
    (h : List.Subperm es es') : weightSum es ≤ weightSum es' := by
  obtain ⟨l, hperm, hsub⟩ := h
  rw [weightSum_eq, weightSum_eq, ← (hperm.map weight).sum_eq]
  exact (hsub.map weight).sum_le_sum (by simp)

theorem weight_terminal_le {e t : ContextKeyExpression V R} (h : t ∈ getTerminals e) :
    t.weight ≤ e.weight := by
  cases e with
  | orExpr es negated =>
    rw [weight]
    exact (weight_le_weightMax h).trans (Nat.le_succ _)
  | _ => rw [mem_singleton.mp h]

theorem weightSum_getTerms_le (e : ContextKeyExpression V R) :
    weightSum (ContextKeyAndExpr.getTerms e) ≤ e.weight := by
  cases e with
  | andExpr es negated =>
    rw [weight]
    exact le_max_right _ _
  | _ => simp [ContextKeyAndExpr.getTerms, weightSum]

theorem weightSum_flatMap_getTerms_le (es : List (ContextKeyExpression V R)) :
    weightSum (es.flatMap ContextKeyAndExpr.getTerms) ≤ weightSum es := by
  induction es with
  | nil => exact le_refl _
  | cons e es ih =>
    rw [flatMap_cons, weightSum_append, weightSum]
    have := weightSum_getTerms_le e
    omega

end ContextKeyExpression

namespace Setting

variable {S : Setting V R}
  {neg : Nat → ContextKeyExpression V R → Option (ContextKeyExpression V R)}

/-- A class of expressions that normalisation stays in and whose negations are known. -/
structure IsClosed (S : Setting V R) (C : ContextKeyExpression V R → Prop)
    (neg : Nat → ContextKeyExpression V R → Option (ContextKeyExpression V R)) : Prop where
  sound {e} (h : C e) : S.Sound e
  constant (b : Bool) : C (constantExpr b)
  terms {e t} (h : C e) (ht : t ∈ ContextKeyAndExpr.getTerms e) : C t
  terminals {e t} (h : C e) (ht : t ∈ getTerminals e) : C t
  conj {es} (hne : es ≠ []) (h : ∀ e ∈ es, C e) : C (andExpr es none)
  disj {es} (hne : es ≠ []) (h : ∀ e ∈ es, C e) : C (orExpr es none)
  negation {e} (h : C e) : Settles (fun fuel => neg fuel e) (S.IsNegation e)

def IsConjunction (S : Setting V R) (C : ContextKeyExpression V R → Prop)
    (arr : List (ContextKeyExpression V R)) (r : ContextKeyExpression V R) : Prop :=
  C r ∧ S.value r = arr.all S.value ∧ r.weight ≤ weightSum arr

variable {C : ContextKeyExpression V R → Prop}

theorem IsClosed.or (hC : S.IsClosed C neg) (hregexps : S.RegexpsAgree)
    {parts : List (ContextKeyExpression V R)} (hne : parts ≠ []) (hparts : ∀ p ∈ parts, C p)
    {bound : Nat} (hbound : ∀ p ∈ parts, p.weight ≤ bound) (check : Bool) :
    Settles
      (fun fuel => ContextKeyOrExpr.create S.rt (neg fuel) (parts.map some) none check)
      fun r => ∃ r', r = some r' ∧ C r' ∧ S.value r' = parts.any S.value ∧
        r'.weight ≤ bound + 1 := by
  have hreduce : (parts.map some).reduceOption = parts := by
    simp [List.reduceOption]
  have hterminals (t) (ht : t ∈ parts.flatMap getTerminals) : C t ∧ t.weight ≤ bound := by
    obtain ⟨p, hp, ht⟩ := mem_flatMap.mp ht
    exact ⟨hC.terminals (hparts p hp) ht, (weight_terminal_le ht).trans (hbound p hp)⟩
  have hor := @or_settles _ _ S neg (parts.map some) hregexps
    (by rw [hreduce]; exact fun p hp => hC.sound (hparts p hp)) none check
    (by rw [hreduce]; exact fun _ t ht => hC.negation (hterminals t ht).1)
  rw [hreduce] at hor
  refine hor.mono fun r hr => ?_
  cases r with
  | none => exact absurd hr hne
  | some r =>
    obtain ⟨-, hvalue, rfl | rfl | hr | ⟨es, hesne, hes, rfl⟩⟩ := hr
    · exact ⟨_, rfl, hC.constant true, hvalue, Nat.le_add_left 1 bound⟩
    · exact ⟨_, rfl, hC.constant false, hvalue, Nat.le_add_left 1 bound⟩
    · exact ⟨_, rfl, (hterminals r hr).1, hvalue, (hterminals r hr).2.trans (Nat.le_succ _)⟩
    · refine ⟨_, rfl, hC.disj hesne fun e he => (hterminals e (hes e he)).1, hvalue, ?_⟩
      rw [weight]
      exact Nat.succ_le_succ (weightMax_le fun e he => (hterminals e (hes e he)).2)

theorem exists_parts {α β : Type} {P : α → β → Prop} {l : List α} {os : List (Option β)}
    (h : List.Forall₂ (fun a o => ∃ b, o = some b ∧ P a b) l os) :
    ∃ bs, os = bs.map some ∧ List.Forall₂ P l bs := by
  induction h with
  | nil => exact ⟨[], rfl, .nil⟩
  | cons h _ ih =>
    obtain ⟨b, rfl, hb⟩ := h
    obtain ⟨bs, rfl, hbs⟩ := ih
    exact ⟨b :: bs, rfl, .cons hb hbs⟩

theorem conjunctions_spec {second : ContextKeyExpression V R}
    {els parts : List (ContextKeyExpression V R)}
    (h : List.Forall₂ (fun el => S.IsConjunction C [el, second]) els parts) :
    (∀ p ∈ parts, C p ∧ p.weight ≤ weightMax els + second.weight) ∧
      parts.any S.value = (els.any S.value && S.value second) := by
  induction h with
  | nil => exact ⟨by simp, by simp⟩
  | cons hp _ ih =>
    obtain ⟨hC, hvalue, hweight⟩ := hp
    simp only [weightSum] at hweight
    refine ⟨?_, ?_⟩
    · rw [forall_mem_cons]
      refine ⟨⟨hC, ?_⟩, fun p hp => ⟨(ih.1 p hp).1, (ih.1 p hp).2.trans ?_⟩⟩
      · rw [weightMax]
        omega
      · rw [weightMax]
        omega
    · rw [any_cons, any_cons, ih.2, hvalue, Bool.and_or_distrib_right]
      simp

theorem IsClosed.distribute (hC : S.IsClosed C neg) (hregexps : S.RegexpsAgree) {check : Bool}
    {bound : Nat}
    (hand : ∀ l r, C l → C r → l.weight + r.weight < bound → Settles
      (fun fuel => ContextKeyAndExpr.create S.rt (neg fuel) fuel [some l, some r] none check)
      fun res => ∃ r', res = some r' ∧ S.IsConjunction C [l, r] r')
    (rounds : Nat) {expr : List (ContextKeyExpression V R)} (hne : expr ≠ [])
    (hexpr : ∀ e ∈ expr, C e) (hbound : weightSum expr ≤ bound) :
    Settles
      (fun fuel => ContextKeyAndExpr.distribute S.rt
        (fun arr => ContextKeyAndExpr.create S.rt (neg fuel) fuel arr none check)
        (fun arr isFinished => ContextKeyOrExpr.create S.rt (neg fuel) arr none isFinished)
        rounds expr)
      fun expr' => expr' ≠ [] ∧ (∀ e ∈ expr', C e) ∧ expr'.all S.value = expr.all S.value ∧
        weightSum expr' ≤ weightSum expr := by
  induction rounds generalizing expr with
  | zero => exact .some ⟨hne, hexpr, rfl, le_refl _⟩
  | succ rounds ih =>
    simp only [ContextKeyAndExpr.distribute]
    rcases hr : expr.reverse with _ | ⟨last, _ | ⟨second, rest⟩⟩
    · exact .some ⟨hne, hexpr, rfl, le_refl _⟩
    · cases last <;> exact .some ⟨hne, hexpr, rfl, le_refl _⟩
    · cases last with
      | orExpr els negated =>
        obtain rfl : expr = rest.reverse ++ [second, orExpr els negated] := by
          rw [← reverse_reverse expr, hr]
          simp
        have hlast : C (orExpr els negated) := hexpr _ (by simp)
        have hsecond : C second := hexpr _ (by simp)
        have hels (el) (hel : el ∈ els) : C el := hC.terminals hlast hel
        simp only [weightSum_append, weightSum, weight, Nat.add_zero] at hbound ⊢
        have hparts : Settles
            (fun fuel => els.mapM fun el => ContextKeyAndExpr.create S.rt (neg fuel) fuel
              [some el, some second] none check)
            (List.Forall₂ (fun el res => ∃ r', res = some r' ∧
              S.IsConjunction C [el, second] r') els) := by
          refine Settles.mapM fun el hel => hand el second (hels el hel) hsecond ?_
          have := weight_le_weightMax hel
          omega
        refine hparts.bind fun os hos => ?_
        obtain ⟨parts, rfl, hels'⟩ := exists_parts (P := fun el => S.IsConjunction C [el, second]) hos
        obtain ⟨hpart, hany⟩ := conjunctions_spec hels'
        have hpartsne : parts ≠ [] := by
          rintro rfl
          exact (hC.sound hlast).terms_of_orExpr.1 (forall₂_nil_right_iff.mp hels')
        refine (hC.or hregexps hpartsne (fun p hp => (hpart p hp).1) (fun p hp => (hpart p hp).2) rest.isEmpty).bind ?_
        rintro _ ⟨result, rfl, hresult, hvalue, hweight⟩
        have hperm := S.rt.sort_perm (cmp S.rt) (rest.reverse ++ [result])
        have hsum : weightSum (S.rt.sort (cmp S.rt) (rest.reverse ++ [result])) =
            weightSum rest.reverse + result.weight := by
          rw [weightSum_eq, (hperm.map weight).sum_eq, ← weightSum_eq, weightSum_append]
          rfl
        refine (@ih (S.rt.sort (cmp S.rt) (rest.reverse ++ [result])) ?_ ?_ ?_).mono ?_
        · rintro h
          simpa [h] using hperm.length_eq
        · rintro e he
          rcases mem_append.mp (hperm.mem_iff.mp he) with he | he
          · exact hexpr e (mem_append_left _ he)
          · rwa [mem_singleton.mp he]
        · omega
        · rintro expr' ⟨hne', hexpr', hall, hweight'⟩
          refine ⟨hne', hexpr', ?_, by omega⟩
          rw [hall, hperm.all_eq]
          simp only [all_append, all_cons, all_nil, Bool.and_true, hvalue, hany,
            value_orExpr, Bool.and_comm (S.value second)]
      | _ => exact .some ⟨hne, hexpr, rfl, le_refl _⟩

theorem IsClosed.conclude (hC : S.IsClosed C neg) (hregexps : S.RegexpsAgree)
    {expr : List (ContextKeyExpression V R)} (hne : expr ≠ []) (hexpr : ∀ e ∈ expr, C e)
    (check : Bool) :
    Settles (fun fuel => ContextKeyAndExpr.conclude S.rt (neg fuel) expr none check)
      fun r => ∃ r', r = some r' ∧ S.IsConjunction C expr r' := by
  have hpos (e) (es : List (ContextKeyExpression V R)) : 1 ≤ weightSum (e :: es) :=
    (weight_pos e).trans_le (weight_le_weightSum mem_cons_self)
  rcases expr with _ | ⟨e, _ | ⟨e', es⟩⟩
  · exact absurd rfl hne
  · refine .some ⟨e, rfl, hexpr e mem_cons_self, ?_, le_refl _⟩
    rw [all_cons, all_nil, Bool.and_true]
  · have hand : S.IsConjunction C (e :: e' :: es) (andExpr (e :: e' :: es) none) := by
      refine ⟨hC.conj hne hexpr, value_andExpr _ _, ?_⟩
      rw [weight]
      exact max_le (hpos e (e' :: es)) (le_refl _)
    cases check with
    | false => exact .some ⟨_, rfl, hand⟩
    | true =>
      refine (hasNegatedPair_settles hregexps (fun t ht => hC.sound (hexpr t ht))
        fun t ht => hC.negation (hexpr t ht)).bind fun found hfound => ?_
      cases found with
      | false => exact .some ⟨_, rfl, hand⟩
      | true =>
        refine .some ⟨falseExpr, rfl, hC.constant false, ?_, hpos e (e' :: es)⟩
        rw [value_falseExpr, (hfound rfl).1]

theorem IsClosed.and (hC : S.IsClosed C neg) (hregexps : S.RegexpsAgree)
    (arr : List (Option (ContextKeyExpression V R))) (harr : ∀ e ∈ arr.reduceOption, C e)
    (check : Bool) :
    Settles (fun fuel => ContextKeyAndExpr.create S.rt (neg fuel) fuel arr none check) fun r =>
      match r with
      | none => arr.reduceOption = []
      | some r => arr.reduceOption ≠ [] ∧ S.IsConjunction C arr.reduceOption r := by
  induction hn : weightSum arr.reduceOption using Nat.strong_induction_on generalizing arr neg with
  | _ n ih =>
    subst hn
    refine .of_succ ?_
    rcases and_cases hregexps fun e he => hC.sound (harr e he) with
      ⟨r, hcreate, hr⟩ | ⟨expr, hne, hsub, hall, hcreate⟩
    · refine .congr (fun fuel => hcreate _ _ _ _) (.some ?_)
      cases r with
      | none => exact hr
      | some r =>
        obtain ⟨hne, hvalue, hr⟩ := hr
        refine ⟨hne, ?_, hvalue, ?_⟩
        · rcases hr with rfl | rfl | hr
          · exact hC.constant true
          · exact hC.constant false
          · obtain ⟨e, he, hr⟩ := mem_flatMap.mp hr
            exact hC.terms (harr e he) hr
        · have hpos : 1 ≤ weightSum arr.reduceOption := by
            obtain ⟨e, he⟩ := exists_mem_of_ne_nil _ hne
            exact (weight_pos e).trans_le (weight_le_weightSum he)
          rcases hr with rfl | rfl | hr
          · exact hpos
          · exact hpos
          · exact (weight_le_weightSum hr).trans (weightSum_flatMap_getTerms_le _)
    · have hweight : weightSum expr ≤ weightSum arr.reduceOption :=
        (weightSum_le_of_subperm hsub).trans (weightSum_flatMap_getTerms_le _)
      have hexpr (e) (he : e ∈ expr) : C e := by
        obtain ⟨a, ha, he⟩ := mem_flatMap.mp (hsub.subset he)
        exact hC.terms (harr a ha) he
      have harrne : arr.reduceOption ≠ [] := by
        intro h
        rw [h, flatMap_nil] at hsub
        exact hne (subperm_nil.mp hsub)
      have hC' : S.IsClosed C fun fuel => neg (fuel + 1) := { hC with negation := fun h => (hC.negation h).succ }
      refine .congr (fun fuel => hcreate _ _ _ _) ?_
      simp only [createFrom]
      refine (hC'.distribute hregexps (fun l r hl hr hlt => ?_) expr.length hne hexpr
        hweight).bind ?_
      · have hreduce : [some l, some r].reduceOption = [l, r] := rfl
        refine (ih _ ?_ hC' [some l, some r] ?_ rfl).mono fun res hres => ?_
        · rw [hreduce]
          simpa only [weightSum, Nat.add_zero] using hlt
        · simp [hreduce, hl, hr]
        · cases res with
          | none => simp [hreduce] at hres
          | some r' => exact ⟨r', rfl, hres.2⟩
      · rintro expr' ⟨hne', hexpr', hall', hweight'⟩
        refine ((hC'.conclude hregexps hne' hexpr' check).mono ?_)
        rintro _ ⟨r, rfl, hr, hvalue, hle⟩
        refine ⟨harrne, hr, ?_, hle.trans (hweight'.trans hweight)⟩
        rw [hvalue, hall', hall]

end Setting

end Gavea.ContextKey
