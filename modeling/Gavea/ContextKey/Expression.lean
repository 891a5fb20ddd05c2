import Mathlib.Data.Rat.Defs
import Mathlib.Algebra.Order.Ring.Rat
import Mathlib.Order.WithBot
import Gavea.Lib.JsonLex

namespace Gavea.ContextKey

open Lib.Js

/-- The numbers of the language: those in their order, and the one that is none. -/
inductive JsNumber
  | nan
  | ordered (value : WithBot (WithTop ℚ))
  deriving DecidableEq

namespace JsNumber

def isNaN : JsNumber → Bool
  | nan => true
  | ordered _ => false

def less : JsNumber → JsNumber → Bool
  | ordered a, ordered b => decide (a < b)
  | _, _ => false

def lessEquals : JsNumber → JsNumber → Bool
  | ordered a, ordered b => decide (a ≤ b)
  | _, _ => false

/-- `===`, under which NaN is not even itself. -/
def strictEquals : JsNumber → JsNumber → Bool
  | ordered a, ordered b => decide (a = b)
  | _, _ => false

theorem less_eq_not {a b : JsNumber} (ha : a.isNaN = false) (hb : b.isNaN = false) :
    a.less b = !b.lessEquals a := by
  cases a <;> cases b <;> simp_all [isNaN, less, lessEquals, ← not_lt]

theorem eq_of_strictEquals {a b : JsNumber} (h : a.strictEquals b = true) : a = b := by
  cases a <;> cases b <;> simp_all [strictEquals]

end JsNumber

/-- The right-hand side of a comparison. -/
inductive Bound
  | number (value : JsNumber)
  | string (value : JsString)

/-- `===` -/
def Bound.strictEquals : Bound → Bound → Bool
  | number a, number b => a.strictEquals b
  | string a, string b => decide (a = b)
  | _, _ => false

theorem Bound.eq_of_strictEquals {a b : Bound} (h : a.strictEquals b = true) : a = b := by
  cases a <;> cases b <;> simp_all [Bound.strictEquals]
  exact JsNumber.eq_of_strictEquals h

/-- What the expressions use of the language: its values `V` with their operators, its regular
expressions `R` (without the flags g and y, whose `test` keeps no state) and its sort, which
puts the elements in some order, whatever the comparator answers. -/
structure Runtime (V R : Type) where
  isTruthy : V → Bool
  /-- `==` -/
  looseEquals : V → V → Bool
  /-- `===` -/
  strictEquals : V → V → Bool
  /-- `<` -/
  less : V → V → Bool
  /-- The comparison of `Array.includes`. -/
  sameValueZero : V → V → Bool
  asBoolean : V → Option Bool
  asNumber : V → Option JsNumber
  asString : V → Option JsString
  asArray : V → Option (List V)
  ofNumber : JsNumber → V
  ofString : JsString → V
  /-- `typeof v === 'object' && v !== null` -/
  isObject : V → Bool
  hasOwnProperty : V → JsString → Bool
  objectKeys : V → List JsString
  parseFloat : V → JsNumber
  toLowerCase : JsString → JsString
  isWindows : Bool
  source : R → JsString
  test : R → V → Bool
  sort {α : Type} (compare : α → α → Int) (items : List α) : List α
  asNumber_ofNumber (n : JsNumber) : asNumber (ofNumber n) = some n
  asString_ofNumber (n : JsNumber) : asString (ofNumber n) = none
  asString_eq_some (v : V) (s : JsString) : asString v = some s ↔ v = ofString s
  looseEquals_congr (v w u : V) (h : strictEquals v w = true) : looseEquals u v = looseEquals u w
  sort_perm {α : Type} (compare : α → α → Int) (items : List α) : (sort compare items).Perm items

namespace Runtime

variable {V R : Type} (rt : Runtime V R)

def ofBound : Bound → V
  | .number n => rt.ofNumber n
  | .string s => rt.ofString s

def withFloatOrStr (value : V) : Option Bound :=
  match rt.asString value with
  | some s =>
    if (rt.parseFloat value).isNaN then some (.string s)
    else some (.number (rt.parseFloat value))
  | none => (rt.asNumber value).map .number

end Runtime

/-- `CONSTANT_VALUES`: the keys whose value is known when an expression is created. -/
abbrev Constants := JsString → Option Bool

/-- What `getValue` answers for each key. -/
abbrev Context (V : Type) := JsString → V

inductive Comparison
  | greater
  | greaterEquals
  | smaller
  | smallerEquals
  deriving DecidableEq

namespace Comparison

def type : Comparison → Nat
  | greater => 12
  | greaterEquals => 13
  | smaller => 14
  | smallerEquals => 15

def holds : Comparison → JsNumber → JsNumber → Bool
  | greater, a, b => b.less a
  | greaterEquals, a, b => b.lessEquals a
  | smaller, a, b => a.less b
  | smallerEquals, a, b => a.lessEquals b

def negated : Comparison → Comparison
  | greater => smallerEquals
  | greaterEquals => smaller
  | smaller => greaterEquals
  | smallerEquals => greater

theorem holds_negated (op : Comparison) {a b : JsNumber} (ha : a.isNaN = false)
    (hb : b.isNaN = false) : op.negated.holds a b = !op.holds a b := by
  cases op <;> simp [negated, holds, JsNumber.less_eq_not, ha, hb]

theorem holds_of_isNaN (op : Comparison) {a b : JsNumber}
    (h : a.isNaN = true ∨ b.isNaN = true) : op.holds a b = false := by
  cases op <;> cases a <;> cases b <;> simp_all [holds, JsNumber.isNaN, JsNumber.less, JsNumber.lessEquals]

end Comparison

/-- A context key expression. The field `negated` is what the constructor was given; what
`negate` writes into it later is what it computes again. -/
inductive ContextKeyExpression (V R : Type)
  | falseExpr
  | trueExpr
  | definedExpr (key : JsString) (negated : Option (ContextKeyExpression V R))
  | notExpr (key : JsString) (negated : Option (ContextKeyExpression V R))
  | equalsExpr (key : JsString) (value : V) (negated : Option (ContextKeyExpression V R))
  | notEqualsExpr (key : JsString) (value : V) (negated : Option (ContextKeyExpression V R))
  | andExpr (expr : List (ContextKeyExpression V R)) (negated : Option (ContextKeyExpression V R))
  | regexExpr (key : JsString) (regexp : Option R)
  | notRegexExpr (key : JsString) (regexp : Option R)
  | orExpr (expr : List (ContextKeyExpression V R)) (negated : Option (ContextKeyExpression V R))
  | inExpr (key valueKey : JsString)
  | notInExpr (key valueKey : JsString)
  | comparisonExpr (op : Comparison) (key : JsString) (value : Bound) (negated : Option (ContextKeyExpression V R))

variable {V R : Type}

namespace ContextKeyExpression

def isLeaf : ContextKeyExpression V R → Bool
  | andExpr _ _ | orExpr _ _ => false
  | _ => true

/-- Induction over the conjunctions and disjunctions of an expression and their negations. -/
@[elab_as_elim]
theorem node_induction {motive : ContextKeyExpression V R → Prop}
    (leaf : ∀ e, e.isLeaf = true → motive e)
    (conj : ∀ es negated, (∀ e ∈ es, motive e) → (∀ n ∈ negated, motive n) → motive (andExpr es negated))
    (disj : ∀ es negated, (∀ e ∈ es, motive e) → (∀ n ∈ negated, motive n) →
      motive (orExpr es negated)) (e : ContextKeyExpression V R) : motive e := by
  refine @ContextKeyExpression.rec V R motive (fun n => ∀ e ∈ n, motive e)
    (fun es => ∀ e ∈ es, motive e) ?_ ?_ ?_ ?_ ?_ ?_ ?_ ?_ ?_ ?_ ?_ ?_ ?_ ?_ ?_ ?_ ?_ e
  all_goals try (intros; exact leaf _ rfl)
  · exact fun es negated hes hn => conj es negated hes hn
  · exact fun es negated hes hn => disj es negated hes hn
  · simp
  · exact fun n hn => by simpa using hn
  · simp
  · exact fun e es he hes => by simpa using ⟨he, hes⟩

def type : ContextKeyExpression V R → Nat
  | falseExpr => 0
  | trueExpr => 1
  | definedExpr _ _ => 2
  | notExpr _ _ => 3
  | equalsExpr _ _ _ => 4
  | notEqualsExpr _ _ _ => 5
  | andExpr _ _ => 6
  | regexExpr _ _ => 7
  | notRegexExpr _ _ => 8
  | orExpr _ _ => 9
  | inExpr _ _ => 10
  | notInExpr _ _ => 11
  | comparisonExpr op _ _ _ => op.type

end ContextKeyExpression

open ContextKeyExpression

section Create

variable (rt : Runtime V R) (constants : Constants)

def constantExpr (value : Bool) : ContextKeyExpression V R := if value then trueExpr else falseExpr

def ContextKeyDefinedExpr.create (key : JsString) (negated : Option (ContextKeyExpression V R)) :
    ContextKeyExpression V R :=
  match constants key with
  | some constantValue => constantExpr constantValue
  | none => definedExpr key negated

def ContextKeyNotExpr.create (key : JsString) (negated : Option (ContextKeyExpression V R)) :
    ContextKeyExpression V R :=
  match constants key with
  | some constantValue => constantExpr !constantValue
  | none => notExpr key negated

def constantText (constantValue : Bool) : JsString := ofText (if constantValue then "true" else "false")

def ContextKeyEqualsExpr.create (key : JsString) (value : V)
    (negated : Option (ContextKeyExpression V R)) : ContextKeyExpression V R :=
  match rt.asBoolean value with
  | some true => ContextKeyDefinedExpr.create constants key negated
  | some false => ContextKeyNotExpr.create constants key negated
  | none =>
    match constants key with
    | some constantValue => constantExpr (decide (rt.asString value = some (constantText constantValue)))
    | none => equalsExpr key value negated

def ContextKeyNotEqualsExpr.create (key : JsString) (value : V)
    (negated : Option (ContextKeyExpression V R)) : ContextKeyExpression V R :=
  match rt.asBoolean value with
  | some true => ContextKeyNotExpr.create constants key negated
  | some false => ContextKeyDefinedExpr.create constants key negated
  | none =>
    match constants key with
    | some constantValue => constantExpr !decide (rt.asString value = some (constantText constantValue))
    | none => notEqualsExpr key value negated

def ContextKeyInExpr.create (key valueKey : JsString) : ContextKeyExpression V R := inExpr key valueKey

def ContextKeyNotInExpr.create (key valueKey : JsString) : ContextKeyExpression V R := notInExpr key valueKey

def ContextKeyRegexExpr.create (key : JsString) (regexp : Option R) : ContextKeyExpression V R := regexExpr key regexp

def ContextKeyNotRegexExpr.create (key : JsString) (regexp : Option R) :
    ContextKeyExpression V R :=
  notRegexExpr key regexp

def createComparison (op : Comparison) (key : JsString) (value : V)
    (negated : Option (ContextKeyExpression V R)) : ContextKeyExpression V R :=
  match rt.withFloatOrStr value with
  | some bound => comparisonExpr op key bound negated
  | none => falseExpr

end Create

section Compare

variable (rt : Runtime V R)

def cmp1 (key1 key2 : JsString) : Int := if key1 < key2 then -1 else if key2 < key1 then 1 else 0

def cmp2 (key1 : JsString) (value1 : V) (key2 : JsString) (value2 : V) : Int :=
  if key1 < key2 then -1
  else if key2 < key1 then 1
  else if rt.less value1 value2 then -1
  else if rt.less value2 value1 then 1
  else 0

def cmpKeys (key1 valueKey1 key2 valueKey2 : JsString) : Int :=
  if key1 < key2 then -1 else if key2 < key1 then 1 else cmp1 valueKey1 valueKey2

def sourceOf (regexp : Option R) : JsString := (regexp.map rt.source).getD []

namespace ContextKeyExpression

mutual

def cmp : ContextKeyExpression V R → ContextKeyExpression V R → Int
  | definedExpr key _, definedExpr otherKey _ => cmp1 key otherKey
  | notExpr key _, notExpr otherKey _ => cmp1 key otherKey
  | equalsExpr key value _, equalsExpr otherKey otherValue _ => cmp2 rt key value otherKey otherValue
  | notEqualsExpr key value _, notEqualsExpr otherKey otherValue _ => cmp2 rt key value otherKey otherValue
  | andExpr expr _, andExpr otherExpr _ =>
    if expr.length < otherExpr.length then -1
    else if otherExpr.length < expr.length then 1
    else cmpEach expr otherExpr
  | regexExpr key regexp, regexExpr otherKey otherRegexp =>
    cmpKeys key (sourceOf rt regexp) otherKey (sourceOf rt otherRegexp)
  | notRegexExpr key regexp, notRegexExpr otherKey otherRegexp =>
    cmpKeys key (sourceOf rt regexp) otherKey (sourceOf rt otherRegexp)
  | orExpr expr _, orExpr otherExpr _ =>
    if expr.length < otherExpr.length then -1
    else if otherExpr.length < expr.length then 1
    else cmpEach expr otherExpr
  | inExpr key valueKey, inExpr otherKey otherValueKey => cmpKeys key valueKey otherKey otherValueKey
  | notInExpr key valueKey, notInExpr otherKey otherValueKey => cmpKeys key valueKey otherKey otherValueKey
  | comparisonExpr op key value _, comparisonExpr otherOp otherKey otherValue _ =>
    if op = otherOp then cmp2 rt key (rt.ofBound value) otherKey (rt.ofBound otherValue)
    else op.type - otherOp.type
  | e, other => e.type - other.type

def cmpEach : List (ContextKeyExpression V R) → List (ContextKeyExpression V R) → Int
  | e :: es, other :: others => if cmp e other = 0 then cmpEach es others else cmp e other
  | _, _ => 0

end

mutual

def equals : ContextKeyExpression V R → ContextKeyExpression V R → Bool
  | falseExpr, falseExpr => true
  | trueExpr, trueExpr => true
  | definedExpr key _, definedExpr otherKey _ => decide (key = otherKey)
  | notExpr key _, notExpr otherKey _ => decide (key = otherKey)
  | equalsExpr key value _, equalsExpr otherKey otherValue _ =>
    decide (key = otherKey) && rt.strictEquals value otherValue
  | notEqualsExpr key value _, notEqualsExpr otherKey otherValue _ =>
    decide (key = otherKey) && rt.strictEquals value otherValue
  | andExpr expr _, andExpr otherExpr _ => equalsEach expr otherExpr
  | regexExpr key regexp, regexExpr otherKey otherRegexp =>
    decide (key = otherKey) && decide (sourceOf rt regexp = sourceOf rt otherRegexp)
  | notRegexExpr key regexp, notRegexExpr otherKey otherRegexp =>
    decide (key = otherKey) && decide (sourceOf rt regexp = sourceOf rt otherRegexp)
  | orExpr expr _, orExpr otherExpr _ => equalsEach expr otherExpr
  | inExpr key valueKey, inExpr otherKey otherValueKey => decide (key = otherKey) && decide (valueKey = otherValueKey)
  | notInExpr key valueKey, notInExpr otherKey otherValueKey =>
    decide (key = otherKey) && decide (valueKey = otherValueKey)
  | comparisonExpr op key value _, comparisonExpr otherOp otherKey otherValue _ =>
    decide (op = otherOp) && decide (key = otherKey) && value.strictEquals otherValue
  | _, _ => false

def equalsEach : List (ContextKeyExpression V R) → List (ContextKeyExpression V R) → Bool
  | [], [] => true
  | e :: es, other :: others => equals e other && equalsEach es others
  | _, _ => false

end

end ContextKeyExpression

end Compare

section Evaluate

variable (rt : Runtime V R) (context : Context V)

def fileUriPrefix : JsString := ofText "file:///"

def isFileUri (item : JsString) : Bool := rt.isWindows && fileUriPrefix.isPrefixOf item

def ContextKeyInExpr.evaluate (key valueKey : JsString) : Bool :=
  let source := context valueKey
  let item := context key
  match rt.asArray source with
  | some elements =>
    if elements.any (rt.sameValueZero item) then true
    else
      match rt.asString item with
      | some text =>
        isFileUri rt text && elements.any fun s => (rt.asString s).map rt.toLowerCase = some (rt.toLowerCase text)
      | none => false
  | none =>
    match rt.asString item with
    | some text =>
      if rt.isObject source then
        if rt.hasOwnProperty source text then true
        else isFileUri rt text && (rt.objectKeys source).any fun key => rt.toLowerCase key = rt.toLowerCase text
      else false
    | none => false

def ContextKeyRegexExpr.evaluate (key : JsString) (regexp : Option R) : Bool :=
  match regexp with
  | some r => rt.test r (context key)
  | none => false

def evaluateComparison (op : Comparison) (key : JsString) (value : Bound) : Bool :=
  match value with
  | .string _ => false
  | .number n => op.holds (rt.parseFloat (context key)) n

namespace ContextKeyExpression

mutual

def evaluate : ContextKeyExpression V R → Bool
  | falseExpr => false
  | trueExpr => true
  | definedExpr key _ => rt.isTruthy (context key)
  | notExpr key _ => !rt.isTruthy (context key)
  | equalsExpr key value _ => rt.looseEquals (context key) value
  | notEqualsExpr key value _ => !rt.looseEquals (context key) value
  | andExpr expr _ => evaluateEvery expr
  | regexExpr key regexp => ContextKeyRegexExpr.evaluate rt context key regexp
  | notRegexExpr key regexp => !ContextKeyRegexExpr.evaluate rt context key regexp
  | orExpr expr _ => evaluateSome expr
  | inExpr key valueKey => ContextKeyInExpr.evaluate rt context key valueKey
  | notInExpr key valueKey => !ContextKeyInExpr.evaluate rt context key valueKey
  | comparisonExpr op key value _ => evaluateComparison rt context op key value

def evaluateEvery : List (ContextKeyExpression V R) → Bool
  | [] => true
  | e :: es => if !evaluate e then false else evaluateEvery es

def evaluateSome : List (ContextKeyExpression V R) → Bool
  | [] => false
  | e :: es => if evaluate e then true else evaluateSome es

end

theorem evaluateEvery_eq (es : List (ContextKeyExpression V R)) :
    evaluateEvery rt context es = es.all (evaluate rt context) := by
  induction es with
  | nil => rfl
  | cons e es ih => cases h : evaluate rt context e <;> simp [evaluateEvery, h, ih]

theorem evaluateSome_eq (es : List (ContextKeyExpression V R)) :
    evaluateSome rt context es = es.any (evaluate rt context) := by
  induction es with
  | nil => rfl
  | cons e es ih => cases h : evaluate rt context e <;> simp [evaluateSome, h, ih]

@[simp] theorem evaluate_constantExpr (value : Bool) :
    evaluate rt context (constantExpr value) = value := by
  cases value <;> rfl

@[simp] theorem evaluate_andExpr (es : List (ContextKeyExpression V R))
    (negated : Option (ContextKeyExpression V R)) :
    evaluate rt context (andExpr es negated) = es.all (evaluate rt context) :=
  evaluateEvery_eq rt context es

@[simp] theorem evaluate_orExpr (es : List (ContextKeyExpression V R))
    (negated : Option (ContextKeyExpression V R)) :
    evaluate rt context (orExpr es negated) = es.any (evaluate rt context) :=
  evaluateSome_eq rt context es

variable {rt context}

theorem evaluate_eq_of_equals {a b : ContextKeyExpression V R} (hleaf : a.isLeaf = true)
    (h : a.equals rt b = true)
    (hregexp : ∀ key r r', (a = regexExpr key r ∧ b = regexExpr key r') ∨
        (a = notRegexExpr key r ∧ b = notRegexExpr key r') → sourceOf rt r = sourceOf rt r' →
      ContextKeyRegexExpr.evaluate rt context key r = ContextKeyRegexExpr.evaluate rt context key r') :
    a.evaluate rt context = b.evaluate rt context := by
  unfold equals at h
  split at h
  all_goals try simp only [Bool.and_eq_true, decide_eq_true_eq, Bool.false_eq_true] at h
  case h_1 | h_2 => rfl
  case h_3 | h_4 => simp only [evaluate, h]
  case h_5 | h_6 => simp only [evaluate, h.1, rt.looseEquals_congr _ _ _ h.2]
  case h_7 | h_10 => cases hleaf
  case h_8 =>
      obtain ⟨rfl, hsource⟩ := h
      simp only [evaluate, hregexp _ _ _ (.inl ⟨rfl, rfl⟩) hsource]
  case h_9 =>
      obtain ⟨rfl, hsource⟩ := h
      simp only [evaluate, hregexp _ _ _ (.inr ⟨rfl, rfl⟩) hsource]
  case h_11 | h_12 => simp only [evaluate, h.1, h.2]
  case h_13 =>
      obtain ⟨⟨rfl, rfl⟩, hvalue⟩ := h
      simp only [evaluate, Bound.eq_of_strictEquals hvalue]

end ContextKeyExpression

end Evaluate

end Gavea.ContextKey
