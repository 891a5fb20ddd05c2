import Mathlib.Data.List.Permutation
import Gavea.ContextKey.Negation

namespace Gavea.ContextKey

open Lib Lib.Js ContextKeyExpression

variable {V R : Type}

/-- The calls that create an expression without terms: those of `ContextKeyExpr`, and the
constructor of `RawContextKey`, which does not look for a constant. -/
inductive LeafCall (V R : Type)
  | constant (value : Bool)
  | has (key : JsString)
  | hasNot (key : JsString)
  | equals (key : JsString) (value : V)
  | notEquals (key : JsString) (value : V)
  | regex (key : JsString) (regexp : Option R)
  | notRegex (key : JsString) (regexp : Option R)
  | isIn (key valueKey : JsString)
  | notIn (key valueKey : JsString)
  | comparison (op : Comparison) (key : JsString) (value : V)
  | rawContextKey (key : JsString)

section

variable (rt : Runtime V R) (constants : Constants) (context : Context V)
  (leaves : Set (LeafCall V R))

def LeafCall.create : LeafCall V R → ContextKeyExpression V R
  | constant value => constantExpr value
  | has key => ContextKeyDefinedExpr.create constants key none
  | hasNot key => ContextKeyNotExpr.create constants key none
  | equals key value => ContextKeyEqualsExpr.create rt constants key value none
  | notEquals key value => ContextKeyNotEqualsExpr.create rt constants key value none
  | regex key regexp => ContextKeyRegexExpr.create key regexp
  | notRegex key regexp => ContextKeyNotRegexExpr.create key regexp
  | isIn key valueKey => ContextKeyInExpr.create key valueKey
  | notIn key valueKey => ContextKeyNotInExpr.create key valueKey
  | comparison op key value => createComparison rt op key value none
  | rawContextKey key => definedExpr key none

inductive Built : ContextKeyExpression V R → Prop
  | leaf (call) (h : call ∈ leaves) : Built (call.create rt constants)
  | conj (expr r) (h : ∀ e ∈ expr.reduceOption, Built e)
      (hr : Returns (fun fuel => ContextKeyExpr.and rt constants fuel expr) (some r)) : Built r
  | disj (expr r) (h : ∀ e ∈ expr.reduceOption, Built e)
      (hr : Returns (fun fuel => ContextKeyExpr.or rt constants fuel expr) (some r)) : Built r
  | negation (e r) (h : Built e) (hr : Returns (fun fuel => e.negate rt constants fuel) r) : Built r
  | mappedAnd (expr) (hne : expr ≠ []) (h : ∀ e ∈ expr, Built e) : Built (andExpr expr none)
  | mappedOr (expr) (hne : expr ≠ []) (h : ∀ e ∈ expr, Built e) : Built (orExpr expr none)

structure MeaningPreserved : Prop where
  conj (expr) (h : ∀ e ∈ expr.reduceOption, Built rt constants leaves e) :
    Settles (fun fuel => ContextKeyExpr.and rt constants fuel expr) fun r =>
      (r = none ↔ expr.reduceOption = []) ∧
        ∀ r' ∈ r, r'.evaluate rt context = expr.reduceOption.all (evaluate rt context)
  disj (expr) (h : ∀ e ∈ expr.reduceOption, Built rt constants leaves e) :
    Settles (fun fuel => ContextKeyExpr.or rt constants fuel expr) fun r =>
      (r = none ↔ expr.reduceOption = []) ∧
        ∀ r' ∈ r, r'.evaluate rt context = expr.reduceOption.any (evaluate rt context)
  negation (e) (h : Built rt constants leaves e) :
    Settles (fun fuel => e.negate rt constants fuel) fun r => r.evaluate rt context = !e.evaluate rt context

def HasRegexp (key : JsString) (regexp : Option R) : Prop := .regex key regexp ∈ leaves ∨ .notRegex key regexp ∈ leaves

/-- Both sides of a comparison are numbers, regular expressions that differ in their flags alone
test alike, and the context agrees with the constants that raw context keys stand for. -/
structure LeavesAgree : Prop where
  comparisons (op key value) (h : .comparison op key value ∈ leaves) :
    ∀ bound ∈ rt.withFloatOrStr value, ∃ n, bound = .number n ∧ n.isNaN = false ∧
      (rt.parseFloat (context key)).isNaN = false
  regexps (key r r') (h : HasRegexp leaves key r) (h' : HasRegexp leaves key r')
      (hsource : sourceOf rt r = sourceOf rt r') :
    ContextKeyRegexExpr.evaluate rt context key r = ContextKeyRegexExpr.evaluate rt context key r'
  rawContextKeys (key) (h : .rawContextKey key ∈ leaves) :
    ∀ constantValue ∈ constants key, rt.isTruthy (context key) = constantValue

end

variable {rt : Runtime V R} {constants : Constants} {context : Context V}
  {leaves : Set (LeafCall V R)}

section Sound

variable (rt constants context leaves) in
def settingOf : Setting V R := ⟨rt, constants, context, HasRegexp leaves⟩

theorem sound_of_uncached {e : ContextKeyExpression V R} (he : e.isLeaf = true)
    (hcached : e.cached = none) (h : (settingOf rt constants context leaves).LeafSound e) :
    (settingOf rt constants context leaves).Sound e :=
  .leaf e he h (by simp [hcached]) (by simp [hcached])

theorem sound_createDefined (key : JsString) :
    (settingOf rt constants context leaves).Sound
      (ContextKeyDefinedExpr.create constants key none) := by
  rw [ContextKeyDefinedExpr.create]
  split
  next b _ => exact Setting.sound_constantExpr b
  next h =>
    refine sound_of_uncached rfl rfl fun b hb => ?_
    cases h.symm.trans hb

theorem sound_createNot (key : JsString) :
    (settingOf rt constants context leaves).Sound
      (ContextKeyNotExpr.create constants key none) := by
  rw [ContextKeyNotExpr.create]
  split
  next b _ => exact Setting.sound_constantExpr !b
  next h =>
    refine sound_of_uncached rfl rfl fun b hb => ?_
    cases h.symm.trans hb

theorem LeavesAgree.sound_create (h : LeavesAgree rt constants context leaves)
    {call : LeafCall V R} (hcall : call ∈ leaves) :
    (settingOf rt constants context leaves).Sound (call.create rt constants) := by
  cases call with
  | constant value => exact Setting.sound_constantExpr value
  | has key => exact sound_createDefined key
  | hasNot key => exact sound_createNot key
  | equals key value =>
    simp only [LeafCall.create, ContextKeyEqualsExpr.create]
    split
    next => exact sound_createDefined key
    next => exact sound_createNot key
    next hboolean =>
      split
      next => exact Setting.sound_constantExpr _
      next hconstant => exact sound_of_uncached rfl rfl ⟨hconstant, hboolean⟩
  | notEquals key value =>
    simp only [LeafCall.create, ContextKeyNotEqualsExpr.create]
    split
    next => exact sound_createNot key
    next => exact sound_createDefined key
    next hboolean =>
      split
      next => exact Setting.sound_constantExpr _
      next hconstant => exact sound_of_uncached rfl rfl ⟨hconstant, hboolean⟩
  | regex key regexp => exact sound_of_uncached rfl rfl (.inl hcall)
  | notRegex key regexp => exact sound_of_uncached rfl rfl (.inr hcall)
  | isIn key valueKey => exact sound_of_uncached rfl rfl trivial
  | notIn key valueKey => exact sound_of_uncached rfl rfl trivial
  | comparison op key value =>
    simp only [LeafCall.create, createComparison]
    split
    next bound hbound => exact sound_of_uncached rfl rfl (h.comparisons op key value hcall bound hbound)
    next => exact Setting.sound_falseExpr
  | rawContextKey key => exact sound_of_uncached rfl rfl (h.rawContextKeys key hcall)

theorem LeavesAgree.sound_of_built (h : LeavesAgree rt constants context leaves)
    {e : ContextKeyExpression V R} (he : Built rt constants leaves e) :
    (settingOf rt constants context leaves).Sound e := by
  have hregexps : (settingOf rt constants context leaves).RegexpsAgree := h.regexps
  induction he with
  | leaf call hcall => exact h.sound_create hcall
  | conj expr r _ hr ih => exact (((Setting.and_settles hregexps ih).holds hr).2 r rfl).1
  | disj expr r _ hr ih => exact (((Setting.or_settles_sound hregexps ih).holds hr).2 r rfl).1
  | negation e r _ hr ih => exact ((Setting.negate_settles hregexps ih).holds hr).1
  | mappedAnd expr hne _ ih => exact .conj expr none hne ih (by simp) (by simp)
  | mappedOr expr hne _ ih => exact .disj expr none hne ih (by simp) (by simp)

theorem LeavesAgree.meaningPreserved (h : LeavesAgree rt constants context leaves) :
    MeaningPreserved rt constants context leaves where
  conj expr hexpr := by
    refine (Setting.and_settles (S := settingOf rt constants context leaves) h.regexps
      fun e he => h.sound_of_built (hexpr e he)).mono fun r hr => ⟨hr.1, fun r' hr' => ?_⟩
    exact (hr.2 r' hr').2
  disj expr hexpr := by
    refine (Setting.or_settles_sound (S := settingOf rt constants context leaves) h.regexps
      fun e he => h.sound_of_built (hexpr e he)).mono fun r hr => ⟨hr.1, fun r' hr' => ?_⟩
    exact (hr.2 r' hr').2
  negation e he :=
    (Setting.negate_settles (S := settingOf rt constants context leaves) h.regexps
      (h.sound_of_built he)).mono fun r hr => hr.2

end Sound

theorem built_regexExpr {key : JsString} {r : Option R}
    (hr : HasRegexp leaves key r) : Built rt constants leaves (regexExpr key r) := by
  rcases hr with hr | hr
  · exact @Built.leaf _ _ rt constants _ _ hr
  · exact .negation _ _ (@Built.leaf _ _ rt constants _ _ hr) (.of_succ fun fuel => rfl)

theorem create_of_one_source {key : JsString} {r r' : Option R}
    (hsource : sourceOf rt r = sourceOf rt r') : ∃ x, (x = r ∨ x = r') ∧
      (∀ fuel, ContextKeyExpr.and rt constants (fuel + 1)
        [some (regexExpr key r), some (regexExpr key r')] = some (some (regexExpr key x))) ∧
      ∀ fuel, ContextKeyExpr.or rt constants (fuel + 1)
        [some (regexExpr key r), some (regexExpr key r')] = some (some (regexExpr key x)) := by
  have hequals (x y : Option R) (hxy : sourceOf rt x = sourceOf rt y) :
      (regexExpr key x : ContextKeyExpression V R).equals rt (regexExpr key y) = true := by
    simp [ContextKeyExpression.equals, hxy]
  have hmerged (x y : Option R) (hxy : sourceOf rt x = sourceOf rt y)
      (hsort : rt.sort (cmp rt) [regexExpr key r, regexExpr key r'] = [regexExpr key x, regexExpr key y]) :
      (∀ fuel, ContextKeyExpr.and rt constants (fuel + 1)
        [some (regexExpr key r), some (regexExpr key r')] = some (some (regexExpr key x))) ∧
      ∀ fuel, ContextKeyExpr.or rt constants (fuel + 1)
        [some (regexExpr key r), some (regexExpr key r')] = some (some (regexExpr key x)) := by
    constructor <;> rintro fuel <;>
      simp [ContextKeyExpr.and, ContextKeyExpr.or, ContextKeyAndExpr.create, ContextKeyOrExpr.create,
        ContextKeyAndExpr.collect, ContextKeyOrExpr.collect, collectTerms, isTrueExpr, isFalseExpr, getTerminals,
        ContextKeyAndExpr.getTerms, hsort, withoutDuplicates, withoutDuplicatesFrom, hequals x y hxy]
  rcases List.perm_pair.mp (rt.sort_perm (cmp rt)
    [(regexExpr key r : ContextKeyExpression V R), regexExpr key r']) with hsort | hsort
  · exact ⟨r, .inl rfl, hmerged r r' hsource hsort⟩
  · exact ⟨r', .inr rfl, hmerged r' r hsource.symm hsort⟩

section Necessary

variable (h : MeaningPreserved rt constants context leaves)

include h

theorem MeaningPreserved.negation_of_returns {e r : ContextKeyExpression V R}
    (he : Built rt constants leaves e) (hr : ∀ fuel, e.negate rt constants (fuel + 1) = some r) :
    r.evaluate rt context = !e.evaluate rt context :=
  (h.negation e he).holds (.of_succ hr)

theorem MeaningPreserved.comparisons {op : Comparison} {key : JsString} {value : V}
    (hcall : .comparison op key value ∈ leaves) {bound : Bound}
    (hbound : rt.withFloatOrStr value = some bound) :
    ∃ n, bound = .number n ∧ n.isNaN = false ∧ (rt.parseFloat (context key)).isNaN = false := by
  have hbuilt : Built rt constants leaves (comparisonExpr op key bound none) := by
    have := @Built.leaf _ _ rt constants _ _ hcall
    rwa [LeafCall.create, createComparison, hbound] at this
  have hagain : rt.withFloatOrStr (rt.ofBound bound) = some bound := by
    cases bound with
    | number n => simp [Runtime.withFloatOrStr, Runtime.ofBound, rt.asString_ofNumber, rt.asNumber_ofNumber]
    | string s =>
      simp only [Runtime.withFloatOrStr] at hbound
      split at hbound
      next s' hs' =>
        split at hbound
        next hnan =>
          cases hbound
          rw [Runtime.ofBound, ← (rt.asString_eq_some value s).mp hs', Runtime.withFloatOrStr, hs']
          exact if_pos hnan
        next => cases hbound
      next => simp at hbound
  have hopposite := h.negation_of_returns hbuilt fun fuel => rfl
  rw [Option.getD_none, createComparison, hagain] at hopposite
  simp only [evaluate, evaluateComparison] at hopposite
  cases bound with
  | string s => cases hopposite
  | number n =>
    refine ⟨n, rfl, ?_⟩
    by_contra hnan
    have hnan' : (rt.parseFloat (context key)).isNaN = true ∨ n.isNaN = true := by
      revert hnan
      cases n.isNaN <;> cases (rt.parseFloat (context key)).isNaN <;> simp
    simp only [Comparison.holds_of_isNaN _ hnan'] at hopposite
    cases hopposite

theorem MeaningPreserved.regexps {key : JsString} {r r' : Option R}
    (hr : HasRegexp leaves key r) (hr' : HasRegexp leaves key r')
    (hsource : sourceOf rt r = sourceOf rt r') :
    ContextKeyRegexExpr.evaluate rt context key r =
      ContextKeyRegexExpr.evaluate rt context key r' := by
  obtain ⟨x, hx, hand, hor⟩ := @create_of_one_source _ _ rt constants key r r' hsource
  have hreduce : [some (regexExpr key r : ContextKeyExpression V R),
      some (regexExpr key r')].reduceOption = [regexExpr key r, regexExpr key r'] := rfl
  have hbuilt (e) (he : e ∈ [some (regexExpr key r : ContextKeyExpression V R),
      some (regexExpr key r')].reduceOption) : Built rt constants leaves e := by
    rw [hreduce] at he
    rcases List.mem_cons.mp he with rfl | he
    · exact built_regexExpr hr
    · rw [List.mem_singleton.mp he]
      exact built_regexExpr hr'
  have hconj := ((h.conj _ hbuilt).holds (.of_succ hand)).2 _ rfl
  have hdisj := ((h.disj _ hbuilt).holds (.of_succ hor)).2 _ rfl
  simp only [hreduce, evaluate, List.all_cons, List.all_nil, List.any_cons, List.any_nil,
    Bool.and_true, Bool.or_false] at hconj hdisj
  rw [hconj] at hdisj
  revert hdisj
  cases ContextKeyRegexExpr.evaluate rt context key r <;>
    cases ContextKeyRegexExpr.evaluate rt context key r' <;> simp

theorem MeaningPreserved.rawContextKeys {key : JsString} (hcall : .rawContextKey key ∈ leaves)
    {constantValue : Bool} (hconstant : constants key = some constantValue) :
    rt.isTruthy (context key) = constantValue := by
  have hbuilt := @Built.leaf _ _ rt constants _ _ hcall
  have hopposite := h.negation_of_returns hbuilt fun fuel => rfl
  rw [Option.getD_none, ContextKeyNotExpr.create, hconstant, evaluate_constantExpr] at hopposite
  exact (Bool.not_inj hopposite).symm

end Necessary

/-- Normalisation keeps the meaning of everything made from some leaves in a context exactly when
the leaves agree with what is taken for their negation or their duplicate. -/
theorem meaning_preserved_iff (rt : Runtime V R) (constants : Constants) (context : Context V)
    (leaves : Set (LeafCall V R)) :
    MeaningPreserved rt constants context leaves ↔ LeavesAgree rt constants context leaves :=
  ⟨fun h => ⟨fun _ _ _ hcall _ hbound => h.comparisons hcall hbound,
      fun _ _ _ hr hr' hsource => h.regexps hr hr' hsource,
      fun _ hcall _ hconstant => h.rawContextKeys hcall hconstant⟩,
    fun h => h.meaningPreserved⟩

inductive Primitive
  | undefined
  | boolean (value : Bool)
  | number (value : JsNumber)
  | string (value : JsString)
  deriving DecidableEq

namespace Primitive

def isTruthy : Primitive → Bool
  | undefined => false
  | boolean b => b
  | number n => !n.isNaN && decide (n ≠ .ordered ((0 : ℚ) : WithTop ℚ))
  | string s => !s.isEmpty

def strictEquals : Primitive → Primitive → Bool
  | number a, number b => a.strictEquals b
  | a, b => decide (a = b)

theorem eq_of_strictEquals {a b : Primitive} (h : a.strictEquals b = true) : a = b := by
  cases a <;> cases b <;> simp_all [strictEquals]
  exact JsNumber.eq_of_strictEquals h

def parseFloat : Primitive → JsNumber
  | number n => n
  | _ => .nan

/-- The operators for primitive values of one type, and strings that are no numerals. -/
def runtime : Runtime Primitive Unit where
  isTruthy := isTruthy
  looseEquals := strictEquals
  strictEquals := strictEquals
  less
    | number a, number b => a.less b
    | string a, string b => decide (a < b)
    | _, _ => false
  sameValueZero a b := decide (a = b)
  asBoolean
    | boolean b => some b
    | _ => none
  asNumber
    | number n => some n
    | _ => none
  asString
    | string s => some s
    | _ => none
  asArray _ := none
  ofNumber := number
  ofString := string
  isObject _ := false
  hasOwnProperty _ _ := false
  objectKeys _ := []
  parseFloat := parseFloat
  toLowerCase s := s
  isWindows := false
  source _ := []
  test _ _ := true
  sort compare items := items.mergeSort fun a b => compare a b ≤ 0
  asNumber_ofNumber _ := rfl
  asString_ofNumber _ := rfl
  asString_eq_some v s := by cases v <;> simp
  looseEquals_congr v w u h := by rw [eq_of_strictEquals h]
  sort_perm compare items := List.mergeSort_perm items _

end Primitive

/-- Without a line count, neither `editorLineCount > 5` nor its negation holds. -/
theorem not_meaning_preserved : ¬ ∀ (V R : Type) (rt : Runtime V R) (constants : Constants)
    (context : Context V) (leaves : Set (LeafCall V R)),
    MeaningPreserved rt constants context leaves := by
  intro h
  have hfive := h Primitive Unit Primitive.runtime (fun _ => none) (fun _ => .undefined)
    {.comparison .greater (ofText "editorLineCount") (.number (.ordered ((5 : ℚ) : WithTop ℚ)))}
  obtain ⟨n, -, -, hparse⟩ := hfive.comparisons rfl rfl
  cases hparse

end Gavea.ContextKey
