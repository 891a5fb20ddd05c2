import Gavea.ContextKey.Expression
import Gavea.Lib.Fuel

namespace Gavea.ContextKey

open Lib.Js ContextKeyExpression

variable {V R : Type}

section Loops

variable (rt : Runtime V R)

def withoutDuplicatesFrom (e : ContextKeyExpression V R) :
    List (ContextKeyExpression V R) → List (ContextKeyExpression V R)
  | [] => [e]
  | e' :: expr => if e.equals rt e' then withoutDuplicatesFrom e expr else e :: withoutDuplicatesFrom e' expr

def withoutDuplicates : List (ContextKeyExpression V R) → List (ContextKeyExpression V R)
  | [] => []
  | e :: expr => withoutDuplicatesFrom rt e expr

def hasNegatedPair (negate : ContextKeyExpression V R → Option (ContextKeyExpression V R)) :
    List (ContextKeyExpression V R) → Option Bool
  | [] => some false
  | e :: expr => do
      let found ← expr.anyM fun other => do
        let n ← negate e
        return n.equals rt other
      if found then return true
      hasNegatedPair negate expr

def getTerminals : ContextKeyExpression V R → List (ContextKeyExpression V R)
  | orExpr expr _ => expr
  | node => [node]

/-- The first loop of both `_normalizeArr`: it skips neutral terms, remembering that there was
one, stops at an absorbing one, and opens nested terms. -/
def collectTerms (isNeutral isAbsorbing : ContextKeyExpression V R → Bool)
    (terms : ContextKeyExpression V R → List (ContextKeyExpression V R)) :
    List (Option (ContextKeyExpression V R)) → Option (List (ContextKeyExpression V R) × Bool)
  | [] => some ([], false)
  | none :: arr => collectTerms isNeutral isAbsorbing terms arr
  | some e :: arr =>
    if isNeutral e then
      (collectTerms isNeutral isAbsorbing terms arr).map fun (expr, _) => (expr, true)
    else if isAbsorbing e then none
    else
      (collectTerms isNeutral isAbsorbing terms arr).map fun (expr, hasNeutral) => (terms e ++ expr, hasNeutral)

def isTrueExpr : ContextKeyExpression V R → Bool
  | trueExpr => true
  | _ => false

def isFalseExpr : ContextKeyExpression V R → Bool
  | falseExpr => true
  | _ => false

end Loops

namespace ContextKeyOrExpr

/-- The terms of a disjunction and whether one was false; nothing when one is true. -/
def collect : List (Option (ContextKeyExpression V R)) →
    Option (List (ContextKeyExpression V R) × Bool) :=
  collectTerms isFalseExpr isTrueExpr getTerminals

/-- `_normalizeArr`. The outer `none` stands for a call that gets no answer. -/
def create (rt : Runtime V R)
    (negate : ContextKeyExpression V R → Option (ContextKeyExpression V R))
    (arr : List (Option (ContextKeyExpression V R))) (negated : Option (ContextKeyExpression V R))
    (extraRedundantCheck : Bool) : Option (Option (ContextKeyExpression V R)) :=
  match collect arr with
  | none => some (some trueExpr)
  | some (collected, hasFalse) =>
    if collected.length = 0 && hasFalse then some (some falseExpr)
    else
      match rt.sort (cmp rt) collected with
      | [] => some none
      | [e] => some (some e)
      | sorted =>
        match withoutDuplicates rt sorted with
        | [e] => some (some e)
        | expr => do
            if extraRedundantCheck then
              if ← hasNegatedPair rt negate expr then return some trueExpr
            return some (orExpr expr negated)

end ContextKeyOrExpr

namespace ContextKeyAndExpr

def getTerms : ContextKeyExpression V R → List (ContextKeyExpression V R)
  | andExpr expr _ => expr
  | node => [node]

/-- The terms of a conjunction and whether one was true; nothing when one is false. -/
def collect : List (Option (ContextKeyExpression V R)) →
    Option (List (ContextKeyExpression V R) × Bool) :=
  collectTerms isTrueExpr isFalseExpr getTerms

/-- The loop that distributes a disjunction at the end over the term before it, in at most
`rounds` rounds: each makes the list shorter. -/
def distribute (rt : Runtime V R)
    (createAnd : List (Option (ContextKeyExpression V R)) → Option (Option (ContextKeyExpression V R)))
    (createOr : List (Option (ContextKeyExpression V R)) → Bool → Option (Option (ContextKeyExpression V R))) :
    Nat → List (ContextKeyExpression V R) → Option (List (ContextKeyExpression V R))
  | 0, expr => some expr
  | rounds + 1, expr =>
    match expr.reverse with
    | orExpr lastElement _ :: secondToLastElement :: rest => do
        let isFinished := rest.isEmpty
        let parts ← lastElement.mapM fun el => createAnd [some el, some secondToLastElement]
        match ← createOr parts isFinished with
        | some resultElement =>
          distribute rt createAnd createOr rounds (rt.sort (cmp rt) (rest.reverse ++ [resultElement]))
        | none => distribute rt createAnd createOr rounds rest.reverse
    | _ => some expr

def conclude (rt : Runtime V R)
    (negate : ContextKeyExpression V R → Option (ContextKeyExpression V R))
    (expr : List (ContextKeyExpression V R)) (negated : Option (ContextKeyExpression V R))
    (extraRedundantCheck : Bool) : Option (Option (ContextKeyExpression V R)) :=
  match expr with
  | [e] => some (some e)
  | expr => do
      if extraRedundantCheck then
        if ← hasNegatedPair rt negate expr then return some falseExpr
      return some (andExpr expr negated)

/-- `_normalizeArr`, with `fuel` for the conjunctions that the distribution creates. -/
def create (rt : Runtime V R)
    (negate : ContextKeyExpression V R → Option (ContextKeyExpression V R)) :
    Nat → List (Option (ContextKeyExpression V R)) → Option (ContextKeyExpression V R) → Bool →
      Option (Option (ContextKeyExpression V R))
  | 0, _, _, _ => none
  | fuel + 1, arr, negated, extraRedundantCheck =>
    match collect arr with
    | none => some (some falseExpr)
    | some ([], hasTrue) => some (if hasTrue then some trueExpr else none)
    | some ([e], _) => some (some e)
    | some (collected, _) =>
      match withoutDuplicates rt (rt.sort (cmp rt) collected) with
      | [e] => some (some e)
      | expr => do
          let expr ← distribute rt
            (fun arr => create rt negate fuel arr none extraRedundantCheck)
            (fun arr isFinished => ContextKeyOrExpr.create rt negate arr none isFinished)
            expr.length expr
          conclude rt negate expr negated extraRedundantCheck

end ContextKeyAndExpr

section Negate

variable (rt : Runtime V R) (constants : Constants)

def terminalPairs (left right : ContextKeyExpression V R) :
    List (List (Option (ContextKeyExpression V R))) :=
  (getTerminals left).flatMap fun l => (getTerminals right).map fun r => [some l, some r]

def distributeTerminals
    (createAnd : List (Option (ContextKeyExpression V R)) → Option (Option (ContextKeyExpression V R)))
    (createOr : List (Option (ContextKeyExpression V R)) → Option (Option (ContextKeyExpression V R))) :
    ContextKeyExpression V R → List (ContextKeyExpression V R) → Option (ContextKeyExpression V R)
  | left, [] => some left
  | left, right :: result => do
      let all ← (terminalPairs left right).mapM createAnd
      let distributed ← createOr all
      distributeTerminals createAnd createOr (← distributed) result

/-- `negate`. `none` stands for a call that gets no answer: the fuel is out, or the code
goes on with undefined. -/
def ContextKeyExpression.negate :
    Nat → ContextKeyExpression V R → Option (ContextKeyExpression V R)
  | 0, _ => none
  | fuel + 1, e =>
    match e with
    | falseExpr => some trueExpr
    | trueExpr => some falseExpr
    | definedExpr key negated => some (negated.getD (ContextKeyNotExpr.create constants key e))
    | notExpr key negated => some (negated.getD (ContextKeyDefinedExpr.create constants key e))
    | equalsExpr key value negated => some (negated.getD (ContextKeyNotEqualsExpr.create rt constants key value e))
    | notEqualsExpr key value negated => some (negated.getD (ContextKeyEqualsExpr.create rt constants key value e))
    | regexExpr key regexp => some (ContextKeyNotRegexExpr.create key regexp)
    | notRegexExpr key regexp => some (regexExpr key regexp)
    | inExpr key valueKey => some (ContextKeyNotInExpr.create key valueKey)
    | notInExpr key valueKey => some (inExpr key valueKey)
    | comparisonExpr op key value negated =>
      some (negated.getD (createComparison rt op.negated key (rt.ofBound value) e))
    | andExpr _ (some negated) => some negated
    | andExpr expr none => do
        let result ← expr.mapM (negate fuel)
        let negated ← ContextKeyOrExpr.create rt (negate fuel) (result.map some) (some e) true
        negated
    | orExpr _ (some negated) => some negated
    | orExpr expr none => do
        match ← expr.mapM (negate fuel) with
        | [] => none
        | left :: result =>
          let distributed ← distributeTerminals
            (fun arr => ContextKeyAndExpr.create rt (negate fuel) fuel arr none false)
            (fun arr => ContextKeyOrExpr.create rt (negate fuel) arr none false) left result
          let negated ←
            ContextKeyOrExpr.create rt (negate fuel) [some distributed] (some e) true
          negated

end Negate

namespace ContextKeyExpr

variable (rt : Runtime V R) (constants : Constants)

def and (fuel : Nat) (expr : List (Option (ContextKeyExpression V R))) :
    Option (Option (ContextKeyExpression V R)) :=
  ContextKeyAndExpr.create rt (negate rt constants fuel) fuel expr none true

def or (fuel : Nat) (expr : List (Option (ContextKeyExpression V R))) :
    Option (Option (ContextKeyExpression V R)) :=
  ContextKeyOrExpr.create rt (negate rt constants fuel) expr none true

end ContextKeyExpr

end Gavea.ContextKey

namespace Gavea.ContextKey

open Lib Lib.Js ContextKeyExpression List

variable {V R : Type}

namespace ContextKeyExpression

def cached : ContextKeyExpression V R → Option (ContextKeyExpression V R)
  | definedExpr _ negated | notExpr _ negated | equalsExpr _ _ negated | notEqualsExpr _ _ negated
  | andExpr _ negated | orExpr _ negated | comparisonExpr _ _ _ negated => negated
  | _ => none

end ContextKeyExpression

/-- What an expression is read against: a context, and the regular expressions that occur. -/
structure Setting (V R : Type) where
  rt : Runtime V R
  constants : Constants
  context : Context V
  regexps : JsString → Option R → Prop

namespace Setting

variable (S : Setting V R)

def value (e : ContextKeyExpression V R) : Bool := e.evaluate S.rt S.context

/-- A leaf that means what its negation and its duplicates take it to mean. -/
def LeafSound : ContextKeyExpression V R → Prop
  | definedExpr key _ | notExpr key _ =>
    ∀ constantValue ∈ S.constants key, S.rt.isTruthy (S.context key) = constantValue
  | equalsExpr key value _ | notEqualsExpr key value _ => S.constants key = none ∧ S.rt.asBoolean value = none
  | regexExpr key regexp | notRegexExpr key regexp => S.regexps key regexp
  | comparisonExpr _ key value _ =>
    ∃ n, value = .number n ∧ n.isNaN = false ∧ (S.rt.parseFloat (S.context key)).isNaN = false
  | _ => True

inductive Sound : ContextKeyExpression V R → Prop
  | leaf (e) (hleaf : e.isLeaf = true) (hsound : S.LeafSound e)
      (hcached : ∀ n ∈ e.cached, Sound n)
      (hopposite : ∀ n ∈ e.cached, n.isLeaf = true ∧ S.value n = !S.value e) : Sound e
  | conj (es negated) (hne : es ≠ []) (hes : ∀ e ∈ es, Sound e)
      (hcached : ∀ n ∈ negated, Sound n)
      (hopposite : ∀ n ∈ negated, S.value n = !es.all S.value) : Sound (andExpr es negated)
  | disj (es negated) (hne : es ≠ []) (hes : ∀ e ∈ es, Sound e)
      (hcached : ∀ n ∈ negated, Sound n)
      (hopposite : ∀ n ∈ negated, S.value n = !es.any S.value) : Sound (orExpr es negated)

def RegexpsAgree : Prop :=
  ∀ key r r', S.regexps key r → S.regexps key r' → sourceOf S.rt r = sourceOf S.rt r' →
    ContextKeyRegexExpr.evaluate S.rt S.context key r = ContextKeyRegexExpr.evaluate S.rt S.context key r'

variable {S}

@[simp] theorem value_falseExpr : S.value falseExpr = false := rfl

@[simp] theorem value_trueExpr : S.value trueExpr = true := rfl

@[simp] theorem value_constantExpr (b : Bool) : S.value (constantExpr b) = b := evaluate_constantExpr _ _ b

@[simp] theorem value_andExpr (es : List (ContextKeyExpression V R))
    (negated : Option (ContextKeyExpression V R)) :
    S.value (andExpr es negated) = es.all S.value :=
  evaluate_andExpr _ _ es negated

@[simp] theorem value_orExpr (es : List (ContextKeyExpression V R))
    (negated : Option (ContextKeyExpression V R)) :
    S.value (orExpr es negated) = es.any S.value :=
  evaluate_orExpr _ _ es negated

theorem sound_falseExpr : S.Sound falseExpr := .leaf _ rfl trivial (by simp [cached]) (by simp [cached])

theorem sound_trueExpr : S.Sound trueExpr := .leaf _ rfl trivial (by simp [cached]) (by simp [cached])

theorem sound_constantExpr (b : Bool) : S.Sound (constantExpr b) := by
  cases b
  · exact sound_falseExpr
  · exact sound_trueExpr

theorem isLeaf_constantExpr (b : Bool) :
    (constantExpr b : ContextKeyExpression V R).isLeaf = true := by
  cases b <;> rfl

theorem Sound.leafSound {e : ContextKeyExpression V R} (h : S.Sound e) (hleaf : e.isLeaf = true) :
    S.LeafSound e := by
  cases h with
  | leaf e _ hsound => exact hsound
  | conj | disj => cases hleaf

theorem Sound.opposite {e n : ContextKeyExpression V R} (h : S.Sound e) (hn : e.cached = some n) :
    S.Sound n ∧ S.value n = !S.value e := by
  cases h with
  | leaf e _ _ hcached hopposite => exact ⟨hcached n hn, (hopposite n hn).2⟩
  | conj es negated _ _ hcached hopposite => exact ⟨hcached n hn, by rw [hopposite n hn, value_andExpr]⟩
  | disj es negated _ _ hcached hopposite => exact ⟨hcached n hn, by rw [hopposite n hn, value_orExpr]⟩

theorem Sound.terms_of_andExpr {es : List (ContextKeyExpression V R)}
    {negated : Option (ContextKeyExpression V R)} (h : S.Sound (andExpr es negated)) :
    es ≠ [] ∧ ∀ e ∈ es, S.Sound e := by
  cases h with
  | leaf _ hleaf => cases hleaf
  | conj es negated hne hes => exact ⟨hne, hes⟩

theorem Sound.terms_of_orExpr {es : List (ContextKeyExpression V R)}
    {negated : Option (ContextKeyExpression V R)} (h : S.Sound (orExpr es negated)) :
    es ≠ [] ∧ ∀ e ∈ es, S.Sound e := by
  cases h with
  | leaf _ hleaf => cases hleaf
  | disj es negated hne hes => exact ⟨hne, hes⟩

theorem isLeaf_eq_of_equals {rt : Runtime V R} {a b : ContextKeyExpression V R}
    (h : a.equals rt b = true) : a.isLeaf = b.isLeaf := by
  unfold equals at h
  split at h
  all_goals first | rfl | cases h

theorem LeafSound.value_eq (hregexps : S.RegexpsAgree) {a b : ContextKeyExpression V R}
    (hleaf : a.isLeaf = true) (ha : S.LeafSound a) (hb : S.LeafSound b)
    (h : a.equals S.rt b = true) : S.value a = S.value b := by
  refine evaluate_eq_of_equals hleaf h fun key r r' hshape hsource => ?_
  rcases hshape with ⟨rfl, rfl⟩ | ⟨rfl, rfl⟩
  · exact hregexps _ _ _ ha hb hsource
  · exact hregexps _ _ _ ha hb hsource

theorem value_eq_of_equals (hregexps : S.RegexpsAgree) {a b : ContextKeyExpression V R}
    (ha : S.Sound a) (hb : S.Sound b) (h : a.equals S.rt b = true) : S.value a = S.value b := by
  have heach (es : List (ContextKeyExpression V R))
      (ih : ∀ e ∈ es, ∀ b, S.Sound e → S.Sound b → e.equals S.rt b = true →
        S.value e = S.value b) (hes : ∀ e ∈ es, S.Sound e) (others)
      (hothers : ∀ e ∈ others, S.Sound e) (h : equalsEach S.rt es others = true) :
      es.all S.value = others.all S.value ∧ es.any S.value = others.any S.value := by
    induction es generalizing others with
    | nil =>
      cases others with
      | nil => exact ⟨rfl, rfl⟩
      | cons other others => simp [equalsEach] at h
    | cons e es ihes =>
      cases others with
      | nil => simp [equalsEach] at h
      | cons other others =>
        simp only [equalsEach, Bool.and_eq_true] at h
        simp only [forall_mem_cons] at ih hes hothers
        obtain ⟨hall, hany⟩ := ihes ih.2 hes.2 others hothers.2 h.2
        simp only [all_cons, any_cons, ih.1 other hes.1 hothers.1 h.1, hall, hany, and_self]
  induction a using node_induction generalizing b with
  | leaf a hleaf =>
    have hbleaf : b.isLeaf = true := by rw [← isLeaf_eq_of_equals h, hleaf]
    exact (ha.leafSound hleaf).value_eq hregexps hleaf (hb.leafSound hbleaf) h
  | conj es negated ih ihn =>
    cases b with
    | andExpr others =>
      rw [value_andExpr, value_andExpr]
      exact (heach es (fun e he b => ih e he) ha.terms_of_andExpr.2 others
        hb.terms_of_andExpr.2 (by simpa only [equals] using h)).1
    | _ => simp [equals] at h
  | disj es negated ih ihn =>
    cases b with
    | orExpr others =>
      rw [value_orExpr, value_orExpr]
      exact (heach es (fun e he b => ih e he) ha.terms_of_orExpr.2 others
        hb.terms_of_orExpr.2 (by simpa only [equals] using h)).2
    | _ => simp [equals] at h

def IsNegation (S : Setting V R) (e r : ContextKeyExpression V R) : Prop := S.Sound r ∧ S.value r = !S.value e

theorem IsNegation.of_leaf {e n : ContextKeyExpression V R} (he : S.Sound e)
    (hleaf : e.isLeaf = true) (hn : n.isLeaf = true) (hsound : S.LeafSound n)
    (hcached : n.cached = some e) (hvalue : S.value n = !S.value e) : S.IsNegation e n := by
  refine ⟨.leaf n hn hsound ?_ ?_, hvalue⟩
  · rw [hcached]
    rintro m ⟨⟩
    exact he
  · rw [hcached]
    rintro m ⟨⟩
    exact ⟨hleaf, by rw [hvalue, Bool.not_not]⟩

theorem negate_leaf {e : ContextKeyExpression V R} (he : S.Sound e) (hleaf : e.isLeaf = true) :
    ∃ n, (∀ fuel, e.negate S.rt S.constants (fuel + 1) = some n) ∧ n.isLeaf = true ∧
      S.IsNegation e n := by
  have hsound := he.leafSound hleaf
  have hknown (n) (hn : e.cached = some n) : n.isLeaf = true ∧ S.IsNegation e n := by
    cases he with
    | leaf e _ _ hcached hopposite => exact ⟨(hopposite n hn).1, hcached n hn, (hopposite n hn).2⟩
    | conj | disj => cases hleaf
  cases e with
  | falseExpr => exact ⟨trueExpr, fun _ => rfl, rfl, sound_trueExpr, rfl⟩
  | trueExpr => exact ⟨falseExpr, fun _ => rfl, rfl, sound_falseExpr, rfl⟩
  | andExpr | orExpr => cases hleaf
  | regexExpr key regexp =>
    exact ⟨notRegexExpr key regexp, fun _ => rfl, rfl, .leaf _ rfl hsound (by simp [cached]) (by simp [cached]), rfl⟩
  | notRegexExpr key regexp =>
    refine ⟨regexExpr key regexp, fun _ => rfl, rfl, .leaf _ rfl hsound (by simp [cached]) (by simp [cached]), ?_⟩
    simp only [value, evaluate, Bool.not_not]
  | inExpr key valueKey =>
    exact ⟨notInExpr key valueKey, fun _ => rfl, rfl, .leaf _ rfl trivial (by simp [cached]) (by simp [cached]), rfl⟩
  | notInExpr key valueKey =>
    refine ⟨inExpr key valueKey, fun _ => rfl, rfl, .leaf _ rfl trivial (by simp [cached]) (by simp [cached]), ?_⟩
    simp only [value, evaluate, Bool.not_not]
  | definedExpr key negated =>
    cases negated with
    | some n => exact ⟨n, fun _ => rfl, hknown n rfl⟩
    | none =>
      refine ⟨_, fun _ => rfl, ?_⟩
      rw [Option.getD_none, ContextKeyNotExpr.create]
      split
      next b hb =>
        refine ⟨isLeaf_constantExpr _, sound_constantExpr _, ?_⟩
        rw [value_constantExpr, value, evaluate, hsound b hb]
      next => exact ⟨rfl, .of_leaf he rfl rfl hsound rfl rfl⟩
  | notExpr key negated =>
    cases negated with
    | some n => exact ⟨n, fun _ => rfl, hknown n rfl⟩
    | none =>
      refine ⟨_, fun _ => rfl, ?_⟩
      rw [Option.getD_none, ContextKeyDefinedExpr.create]
      split
      next b hb =>
        refine ⟨isLeaf_constantExpr _, sound_constantExpr _, ?_⟩
        rw [value_constantExpr, value, evaluate, hsound b hb, Bool.not_not]
      next =>
        refine ⟨rfl, .of_leaf he rfl rfl hsound rfl ?_⟩
        simp only [value, evaluate, Bool.not_not]
  | equalsExpr key v negated =>
    cases negated with
    | some n => exact ⟨n, fun _ => rfl, hknown n rfl⟩
    | none =>
      refine ⟨notEqualsExpr key v (some (equalsExpr key v none)), fun _ => ?_, rfl, .of_leaf he rfl rfl hsound rfl rfl⟩
      simp only [negate, Option.getD_none, ContextKeyNotEqualsExpr.create, hsound.1, hsound.2]
  | notEqualsExpr key v negated =>
    cases negated with
    | some n => exact ⟨n, fun _ => rfl, hknown n rfl⟩
    | none =>
      refine ⟨equalsExpr key v (some (notEqualsExpr key v none)), fun _ => ?_, rfl,
        .of_leaf he rfl rfl hsound rfl ?_⟩
      · simp only [negate, Option.getD_none, ContextKeyEqualsExpr.create, hsound.1, hsound.2]
      · simp only [value, evaluate, Bool.not_not]
  | comparisonExpr op key bound negated =>
    cases negated with
    | some n => exact ⟨n, fun _ => rfl, hknown n rfl⟩
    | none =>
      obtain ⟨n, rfl, hn, hparse⟩ := hsound
      refine ⟨comparisonExpr op.negated key (.number n)
        (some (comparisonExpr op key (.number n) none)), fun _ => ?_, rfl,
        .of_leaf he rfl rfl ⟨n, rfl, hn, hparse⟩ rfl ?_⟩
      · simp only [negate, Option.getD_none, createComparison, Runtime.ofBound, Runtime.withFloatOrStr,
          S.rt.asString_ofNumber, S.rt.asNumber_ofNumber, Option.map_some]
      · simp only [value, evaluate, evaluateComparison, op.holds_negated hparse hn]

section Loops

variable {es : List (ContextKeyExpression V R)}

theorem withoutDuplicatesFrom_spec (hregexps : S.RegexpsAgree) {e : ContextKeyExpression V R}
    (he : S.Sound e) (hes : ∀ e ∈ es, S.Sound e) :
    (withoutDuplicatesFrom S.rt e es).Sublist (e :: es) ∧
      (withoutDuplicatesFrom S.rt e es).all S.value = (e :: es).all S.value ∧
      (withoutDuplicatesFrom S.rt e es).any S.value = (e :: es).any S.value := by
  induction es generalizing e with
  | nil => exact ⟨.refl _, rfl, rfl⟩
  | cons e' es ih =>
    rw [forall_mem_cons] at hes
    simp only [withoutDuplicatesFrom]
    split
    next h =>
      obtain ⟨hsub, hall, hany⟩ := ih he hes.2
      have hvalue := value_eq_of_equals hregexps he hes.1 h
      refine ⟨hsub.trans ((sublist_cons_self e' es).cons_cons e), ?_, ?_⟩
      · simp only [hall, all_cons, hvalue, Bool.and_self_left]
      · simp only [hany, any_cons, hvalue, Bool.or_self_left]
    next =>
      obtain ⟨hsub, hall, hany⟩ := ih hes.1 hes.2
      refine ⟨hsub.cons_cons e, ?_, ?_⟩
      · simp only [all_cons, hall]
      · simp only [any_cons, hany]

theorem withoutDuplicates_spec (hregexps : S.RegexpsAgree) (hes : ∀ e ∈ es, S.Sound e) :
    (withoutDuplicates S.rt es).Sublist es ∧
      (withoutDuplicates S.rt es).all S.value = es.all S.value ∧
      (withoutDuplicates S.rt es).any S.value = es.any S.value := by
  cases es with
  | nil => exact ⟨.refl _, rfl, rfl⟩
  | cons e es =>
    rw [forall_mem_cons] at hes
    exact withoutDuplicatesFrom_spec hregexps hes.1 hes.2

theorem withoutDuplicates_ne_nil (rt : Runtime V R) (h : es ≠ []) :
    withoutDuplicates rt es ≠ [] := by
  cases es with
  | nil => exact absurd rfl h
  | cons e es =>
    rw [withoutDuplicates]
    clear h
    induction es generalizing e with
    | nil => exact cons_ne_nil _ _
    | cons e' es ih =>
      simp only [withoutDuplicatesFrom]
      split
      next => exact ih e
      next => exact cons_ne_nil _ _

theorem hasNegatedPair_settles (hregexps : S.RegexpsAgree)
    {neg : Nat → ContextKeyExpression V R → Option (ContextKeyExpression V R)}
    (hes : ∀ e ∈ es, S.Sound e)
    (hneg : ∀ e ∈ es, Settles (fun fuel => neg fuel e) (S.IsNegation e)) :
    Settles (fun fuel => hasNegatedPair S.rt (neg fuel) es) fun found =>
      found = true → es.all S.value = false ∧ es.any S.value = true := by
  induction es with
  | nil => exact .some (by simp)
  | cons e es ih =>
    rw [forall_mem_cons] at hes hneg
    have hfound : Settles
        (fun fuel => es.anyM fun other => do
          let n ← neg fuel e
          return n.equals S.rt other)
        fun found => (found = true → ∃ other ∈ es, S.value other = !S.value e) ∧
          (found = false → ∀ other ∈ es, True) := by
      refine (Settles.anyM (P := fun other found => found = true → S.value other = !S.value e)
        fun other hother => ?_).mono fun found h => ⟨fun ht => ?_, fun _ _ _ => trivial⟩
      · refine hneg.1.bind fun n hn => .some fun hequals => ?_
        rw [← hn.2, value_eq_of_equals hregexps hn.1 (hes.2 other hother) hequals]
      · obtain ⟨other, hother, h⟩ := h.1 ht
        exact ⟨other, hother, h rfl⟩
    refine hfound.bind fun found hpair => ?_
    cases found with
    | true =>
      refine .some fun _ => ?_
      obtain ⟨other, hother, hvalue⟩ := hpair.1 rfl
      cases he : S.value e with
      | true =>
        rw [he] at hvalue
        refine ⟨all_eq_false.mpr ⟨other, mem_cons_of_mem e hother, ?_⟩, ?_⟩
        · simp [hvalue]
        · simp [he]
      | false =>
        rw [he] at hvalue
        refine ⟨by simp [he], any_eq_true.mpr ⟨other, mem_cons_of_mem e hother, ?_⟩⟩
        simp [hvalue]
    | false =>
      refine (ih hes.2 hneg.2).mono fun found h ht => ?_
      obtain ⟨hall, hany⟩ := h ht
      simp [hall, hany]

theorem sort_spec (compare : ContextKeyExpression V R → ContextKeyExpression V R → Int)
    (es : List (ContextKeyExpression V R)) :
    (∀ t, t ∈ S.rt.sort compare es ↔ t ∈ es) ∧
      (S.rt.sort compare es).all S.value = es.all S.value ∧
      (S.rt.sort compare es).any S.value = es.any S.value := by
  have hperm := S.rt.sort_perm compare es
  exact ⟨fun t => hperm.mem_iff, hperm.all_eq, hperm.any_eq⟩

end Loops

end Setting

end Gavea.ContextKey
