import Gavea.ContextKey.Implication
import Gavea.ContextKey.Meaning

namespace Gavea.ContextKey

open Lib.Js ContextKeyExpression

variable {V R : Type} (rt : Runtime V R) (constants : Constants)

/-- What takes the place of a clause on a key that has become a constant, and whether it has. -/
def substituteLeaf (key : JsString) (e : ContextKeyExpression V R)
    (value : Bool → Bool) : Option (ContextKeyExpression V R) × Bool :=
  match constants key with
  | some constantValue => (some (constantExpr (value constantValue)), true)
  | none => (some e, false)

mutual

/-- `substituteConstants`, and whether the answer is another object than the expression. The
outer `none` stands for a normalisation that gets no answer. -/
def ContextKeyExpression.substituteConstants (fuel : Nat) :
    ContextKeyExpression V R → Option (Option (ContextKeyExpression V R) × Bool)
  | definedExpr key negated =>
    some (substituteLeaf constants key (definedExpr key negated) fun constantValue => constantValue)
  | notExpr key negated => some (substituteLeaf constants key (notExpr key negated) fun constantValue => !constantValue)
  | equalsExpr key value negated =>
    some (substituteLeaf constants key (equalsExpr key value negated) fun constantValue =>
      decide (rt.asString value = some (constantText constantValue)))
  | notEqualsExpr key value negated =>
    some (substituteLeaf constants key (notEqualsExpr key value negated) fun constantValue =>
      !decide (rt.asString value = some (constantText constantValue)))
  | andExpr expr negated => do
      let (exprArr, hasChanged) ← eliminateConstantsInArray fuel expr
      if !hasChanged then return (some (andExpr expr negated), false)
      return (← ContextKeyAndExpr.create rt (negate rt constants fuel) fuel exprArr negated false, true)
  | orExpr expr negated => do
      let (exprArr, hasChanged) ← eliminateConstantsInArray fuel expr
      if !hasChanged then return (some (orExpr expr negated), false)
      return (← ContextKeyOrExpr.create rt (negate rt constants fuel) exprArr negated false, true)
  | e => some (some e, false)

/-- The elements with their constants substituted, and whether something has changed. -/
def eliminateConstantsInArray (fuel : Nat) : List (ContextKeyExpression V R) →
    Option (List (Option (ContextKeyExpression V R)) × Bool)
  | [] => some ([], false)
  | e :: arr => do
      let (newExpr, hasChanged) ← e.substituteConstants fuel
      let (newArr, hasChangedLater) ← eliminateConstantsInArray fuel arr
      return (newExpr :: newArr, hasChanged || hasChangedLater)

end

end Gavea.ContextKey

namespace Gavea.Keybinding

open Lib.Js ContextKey ContextKeyExpression

/-- A rule. The number `id` stands for the identity of the object. -/
structure ResolvedKeybindingItem (V R A : Type) where
  id : Nat
  chords : List JsString
  bubble : Bool
  command : Option JsString
  commandArgs : A
  when : Option (ContextKeyExpression V R)
  isDefault : Bool

inductive ResolutionResult (A : Type)
  | noMatchingKb
  | moreChordsNeeded
  | kbFound (commandId : Option JsString) (commandArgs : A) (isBubble : Bool)

variable {V R A : Type}

def minus : CodeUnit := 45

def removedCommand : Option JsString → Option JsString
  | some (c :: command) => if c = minus then some command else none
  | _ => none

section Removals

variable (rt : Runtime V R) (constants : Constants) (fuel : Nat)

/-- `when?.substituteConstants()`. The outer `none` stands for a call that gets no answer. -/
def substituteConstants : Option (ContextKeyExpression V R) →
    Option (Option (ContextKeyExpression V R))
  | none => some none
  | some e => (e.substituteConstants rt constants fuel).map Prod.fst

def isTargetedForRemoval (defaultKb : ResolvedKeybindingItem V R A) (keypress : List JsString)
    (when : Option (ContextKeyExpression V R)) : Option Bool :=
  if !keypress.isPrefixOf defaultKb.chords then some false
  else
    match when with
    | none | some trueExpr => some true
    | some removal =>
      match defaultKb.when with
      | none => some false
      | some defaultKbWhen => do
          let defaultWhen ← substituteConstants rt constants fuel (some defaultKbWhen)
          let removalWhen ← substituteConstants rt constants fuel (some removal)
          return whenIsEntirelyIncluded rt defaultWhen removalWhen

def isKept (rules : List (ResolvedKeybindingItem V R A)) (rule : ResolvedKeybindingItem V R A) :
    Option Bool :=
  match rule.command with
  | none | some [] => some true
  | some command =>
    if (removedCommand rule.command).isSome then some false
    else
      let commandRemovals := rules.filter fun r => decide (removedCommand r.command = some command)
      if commandRemovals.isEmpty || !rule.isDefault then some true
      else do
        let isRemoved ← commandRemovals.anyM fun commandRemoval =>
          isTargetedForRemoval rt constants fuel rule commandRemoval.chords commandRemoval.when
        return !isRemoved

def keepRules (rules : List (ResolvedKeybindingItem V R A)) :
    List (ResolvedKeybindingItem V R A) → Option (List (ResolvedKeybindingItem V R A))
  | [] => some []
  | rule :: rest => do
      let kept ← isKept rt constants fuel rules rule
      let result ← keepRules rules rest
      return if kept then rule :: result else result

/-- Looks for rules containing `-commandId` and removes them. -/
def handleRemovals (rules : List (ResolvedKeybindingItem V R A)) :
    Option (List (ResolvedKeybindingItem V R A)) :=
  if rules.all fun rule => (removedCommand rule.command).isNone then some rules
  else keepRules rt constants fuel rules rules

end Removals

/-- The rules in order, those of each first chord, and those of each command that are not known
to be overwritten. -/
structure KeybindingResolver (V R A : Type) where
  keybindings : List (ResolvedKeybindingItem V R A)
  map : JsString → Option (List (ResolvedKeybindingItem V R A))
  lookupMap : JsString → Option (List (ResolvedKeybindingItem V R A))

namespace KeybindingResolver

section Construction

variable (rt : Runtime V R) (constants : Constants) (fuel : Nat)

def addToLookupMap (item : ResolvedKeybindingItem V R A) (resolver : KeybindingResolver V R A) :
    KeybindingResolver V R A :=
  match item.command with
  | none | some [] => resolver
  | some command =>
    { resolver with
      lookupMap := Function.update resolver.lookupMap command (some ((resolver.lookupMap command).getD [] ++ [item])) }

def removeFromLookupMap (item : ResolvedKeybindingItem V R A)
    (resolver : KeybindingResolver V R A) : KeybindingResolver V R A :=
  match item.command with
  | none | some [] => resolver
  | some command =>
    { resolver with
      lookupMap := Function.update resolver.lookupMap command
        ((resolver.lookupMap command).map fun arr => arr.eraseP fun other => other.id == item.id) }

def agree : List JsString → List JsString → Bool
  | chord :: chords, other :: others => decide (chord = other) && agree chords others
  | _, _ => true

def overwrites (item conflict : ResolvedKeybindingItem V R A) : Bool :=
  !decide (conflict.command = item.command) && agree conflict.chords.tail item.chords.tail &&
    whenIsEntirelyIncluded rt conflict.when item.when

def removeConflicts (item : ResolvedKeybindingItem V R A) :
    List (ResolvedKeybindingItem V R A) → KeybindingResolver V R A → KeybindingResolver V R A
  | [], resolver => resolver
  | conflict :: conflicts, resolver =>
    removeConflicts item conflicts
      (if overwrites rt item conflict then resolver.removeFromLookupMap conflict else resolver)

def addKeyPress (keypress : JsString) (item : ResolvedKeybindingItem V R A)
    (resolver : KeybindingResolver V R A) : KeybindingResolver V R A :=
  match resolver.map keypress with
  | none => { resolver with map := Function.update resolver.map keypress (some [item]) }.addToLookupMap item
  | some conflicts =>
    let resolver := removeConflicts rt item conflicts.reverse resolver
    { resolver with
      map := Function.update resolver.map keypress (some (conflicts ++ [item])) }.addToLookupMap
      item

def addKeybindings : List (ResolvedKeybindingItem V R A) → KeybindingResolver V R A →
    Option (KeybindingResolver V R A)
  | [], resolver => some resolver
  | k :: keybindings, resolver =>
    match k.chords with
    | [] => addKeybindings keybindings resolver
    | keypress :: _ => do
        match ← substituteConstants rt constants fuel k.when with
        | some falseExpr => addKeybindings keybindings resolver
        | _ => addKeybindings keybindings (resolver.addKeyPress rt keypress k)

def create (defaultKeybindings overrides : List (ResolvedKeybindingItem V R A)) :
    Option (KeybindingResolver V R A) := do
  let keybindings ← handleRemovals rt constants fuel (defaultKeybindings ++ overrides)
  addKeybindings rt constants fuel keybindings ⟨keybindings, fun _ => none, fun _ => none⟩

end Construction

def lookupKeybindings (resolver : KeybindingResolver V R A) (commandId : JsString) :
    List (ResolvedKeybindingItem V R A) :=
  match resolver.lookupMap commandId with
  | none => []
  | some items => items.reverse

section Resolve

variable (rt : Runtime V R)

def prefixMatches (pressedChords : List JsString) (candidate : ResolvedKeybindingItem V R A) :
    Bool :=
  decide (pressedChords.length ≤ candidate.chords.length) && pressedChords.tail.isPrefixOf candidate.chords.tail

def findCommand (context : Context V) (matching : List (ResolvedKeybindingItem V R A)) :
    Option (ResolvedKeybindingItem V R A) :=
  matching.reverse.find? fun k => contextMatchesRules rt context k.when

def resolve (resolver : KeybindingResolver V R A) (context : Context V)
    (currentChords : List JsString) (keypress : JsString) : ResolutionResult A :=
  let pressedChords := currentChords ++ [keypress]
  match resolver.map (pressedChords.headD keypress) with
  | none => .noMatchingKb
  | some kbCandidates =>
    let lookupMap :=
      if pressedChords.length < 2 then kbCandidates
      else kbCandidates.filter (prefixMatches pressedChords)
    match findCommand rt context lookupMap with
    | none => .noMatchingKb
    | some result =>
      if pressedChords.length < result.chords.length then .moreChordsNeeded
      else .kbFound result.command result.commandArgs result.bubble

end Resolve

end KeybindingResolver

end Gavea.Keybinding

namespace Gavea.Keybinding

open Lib.Js ContextKey ContextKeyExpression KeybindingResolver List

variable {V R A : Type} {rt : Runtime V R} {constants : Constants} {fuel : Nat}
  {resolver : KeybindingResolver V R A} {item k : ResolvedKeybindingItem V R A}
  {rules : List (ResolvedKeybindingItem V R A)}

def Identified (rules : List (ResolvedKeybindingItem V R A)) : Prop := ∀ k ∈ rules, ∀ k' ∈ rules, k.id = k'.id → k = k'

def clausesOf (rules : List (ResolvedKeybindingItem V R A)) : Set (ContextKeyExpression V R) :=
  {c | ∃ k ∈ rules, ∃ e ∈ k.when, e.HasClause c}

theorem keepRules_subset {all kept : List (ResolvedKeybindingItem V R A)}
    (h : keepRules rt constants fuel all rules = some kept) : kept ⊆ rules := by
  induction rules generalizing kept with
  | nil =>
    cases h
    exact List.Subset.refl []
  | cons rule rest ih =>
    simp only [keepRules, Option.bind_eq_bind, Option.bind_eq_some_iff, Option.pure_def, Option.some.injEq] at h
    obtain ⟨isRuleKept, -, result, hresult, rfl⟩ := h
    split
    · exact cons_subset_cons rule (ih hresult)
    · exact subset_cons_of_subset rule (ih hresult)

theorem handleRemovals_subset {kept : List (ResolvedKeybindingItem V R A)}
    (h : handleRemovals rt constants fuel rules = some kept) : kept ⊆ rules := by
  rw [handleRemovals] at h
  split at h
  · rw [Option.some.inj h]
    exact List.Subset.refl kept
  · exact keepRules_subset h

def lookedUp (resolver : KeybindingResolver V R A) (command : JsString) :
    List (ResolvedKeybindingItem V R A) :=
  (resolver.lookupMap command).getD []

theorem mem_lookupKeybindings {command : JsString} :
    k ∈ resolver.lookupKeybindings command ↔ k ∈ lookedUp resolver command := by
  rw [lookupKeybindings, lookedUp]
  cases resolver.lookupMap command <;> simp

@[simp] theorem map_addToLookupMap : (resolver.addToLookupMap item).map = resolver.map := by
  rw [addToLookupMap]
  split <;> rfl

@[simp] theorem map_removeFromLookupMap :
    (resolver.removeFromLookupMap item).map = resolver.map := by
  rw [removeFromLookupMap]
  split <;> rfl

theorem lookedUp_addToLookupMap (command : JsString) :
    lookedUp (resolver.addToLookupMap item) command =
      if item.command = some command ∧ command ≠ [] then lookedUp resolver command ++ [item]
      else lookedUp resolver command := by
  rw [addToLookupMap]
  split
  next h => simp [h]
  next h =>
    rw [if_neg]
    rintro ⟨hcommand, hne⟩
    exact hne (Option.some.inj (hcommand.symm.trans h))
  next other hne hother =>
    by_cases heq : command = other
    · subst heq
      rw [if_pos ⟨hother, hne⟩]
      simp [lookedUp]
    · rw [if_neg fun h => heq (Option.some.inj (h.1.symm.trans hother))]
      simp [lookedUp, Function.update_of_ne heq]

theorem mem_lookedUp_removeFromLookupMap {conflict : ResolvedKeybindingItem V R A}
    {command : JsString} (h : k ∈ lookedUp resolver command) (hid : k.id ≠ conflict.id) :
    k ∈ lookedUp (resolver.removeFromLookupMap conflict) command := by
  rw [removeFromLookupMap]
  split
  · exact h
  · exact h
  next other _ _ =>
    by_cases heq : command = other
    · subst heq
      rw [lookedUp] at h
      cases hitems : resolver.lookupMap command with
      | none => simp [hitems] at h
      | some items =>
        rw [hitems, Option.getD_some] at h
        simp only [lookedUp, Function.update_self, Option.map_some, Option.getD_some]
        exact (mem_eraseP_of_neg (by simpa using hid)).mpr h
    · simpa [lookedUp, Function.update_of_ne heq] using h

@[simp] theorem map_removeConflicts (conflicts : List (ResolvedKeybindingItem V R A)) :
    (removeConflicts rt item conflicts resolver).map = resolver.map := by
  induction conflicts generalizing resolver with
  | nil => rfl
  | cons conflict conflicts ih =>
    rw [removeConflicts, ih]
    split <;> simp

theorem mem_lookedUp_removeConflicts {conflicts : List (ResolvedKeybindingItem V R A)}
    {command : JsString} (h : k ∈ lookedUp resolver command)
    (hkept : ∀ conflict ∈ conflicts, k.id = conflict.id → overwrites rt item conflict = false) :
    k ∈ lookedUp (removeConflicts rt item conflicts resolver) command := by
  induction conflicts generalizing resolver with
  | nil => exact h
  | cons conflict conflicts ih =>
    rw [forall_mem_cons] at hkept
    refine ih ?_ hkept.2
    split
    next hover =>
      refine mem_lookedUp_removeFromLookupMap h fun hid => ?_
      rw [hkept.1 hid] at hover
      cases hover
    next => exact h

/-- The rules of a first chord start with it, and those that are not looked up for their command
are overwritten by a later one. -/
structure Consistent (rt : Runtime V R) (rules : List (ResolvedKeybindingItem V R A))
    (resolver : KeybindingResolver V R A) : Prop where
  mem_rules (keypress items) (h : resolver.map keypress = some items) : items ⊆ rules
  first (keypress items) (h : resolver.map keypress = some items) : ∀ k ∈ items, ∃ rest, k.chords = keypress :: rest
  kept (keypress pre k post) (h : resolver.map keypress = some (pre ++ k :: post)) (command)
    (hcommand : k.command = some command) (hne : command ≠ []) :
    k ∈ lookedUp resolver command ∨ ∃ later ∈ post, overwrites rt later k = true

theorem addKeyPress_eq (keypress : JsString) :
    resolver.addKeyPress rt keypress item =
      addToLookupMap item
        { removeConflicts rt item ((resolver.map keypress).getD []).reverse resolver with
          map := Function.update resolver.map keypress
            (some ((resolver.map keypress).getD [] ++ [item])) } := by
  rw [addKeyPress]
  split
  next h => simp [h, removeConflicts]
  next h => simp [h]

theorem mem_lookedUp_addToLookupMap {command : JsString} (h : k ∈ lookedUp resolver command) :
    k ∈ lookedUp (resolver.addToLookupMap item) command := by
  rw [lookedUp_addToLookupMap]
  split
  · exact mem_append_left [item] h
  · exact h

theorem map_addKeyPress {keypress other : JsString} {items : List (ResolvedKeybindingItem V R A)}
    (h : (resolver.addKeyPress rt keypress item).map other = some items) :
    (other = keypress ∧ items = (resolver.map keypress).getD [] ++ [item]) ∨
      (other ≠ keypress ∧ resolver.map other = some items) := by
  simp only [addKeyPress_eq, map_addToLookupMap] at h
  by_cases heq : other = keypress
  · subst heq
    rw [Function.update_self] at h
    exact .inl ⟨rfl, (Option.some.inj h).symm⟩
  · rw [Function.update_of_ne heq] at h
    exact .inr ⟨heq, h⟩

theorem Consistent.getD (h : Consistent rt rules resolver) (keypress : JsString) :
    ∀ k ∈ (resolver.map keypress).getD [], k ∈ rules ∧ ∃ rest, k.chords = keypress :: rest := by
  cases hitems : resolver.map keypress with
  | none => simp
  | some items => exact fun k hk => ⟨h.mem_rules keypress items hitems hk, h.first keypress items hitems k hk⟩

theorem Consistent.mem_lookedUp_addKeyPress (hids : Identified rules)
    (h : Consistent rt rules resolver) (hk : k ∈ rules) {keypress command : JsString}
    (hmem : k ∈ lookedUp resolver command)
    (hkept : k.chords.head? = some keypress → overwrites rt item k = false) :
    k ∈ lookedUp (resolver.addKeyPress rt keypress item) command := by
  rw [addKeyPress_eq]
  refine mem_lookedUp_addToLookupMap
    (@mem_lookedUp_removeConflicts V R A rt resolver item k _ command hmem fun conflict hconflict hid => ?_)
  obtain ⟨hrules, rest, hchords⟩ := h.getD keypress conflict (mem_reverse.mp hconflict)
  obtain rfl := hids k hk conflict hrules hid
  exact hkept (by rw [hchords, head?_cons])

theorem Consistent.addKeyPress (hids : Identified rules) (h : Consistent rt rules resolver)
    (hitem : item ∈ rules) {keypress : JsString} {rest : List JsString}
    (hchords : item.chords = keypress :: rest) :
    Consistent rt rules (resolver.addKeyPress rt keypress item) where
  mem_rules other items hitems := by
    rcases map_addKeyPress hitems with ⟨rfl, rfl⟩ | ⟨-, hitems⟩
    · rintro k hk
      rcases mem_append.mp hk with hk | hk
      · exact (h.getD other k hk).1
      · rw [mem_singleton.mp hk]
        exact hitem
    · exact h.mem_rules other items hitems
  first other items hitems k hk := by
    rcases map_addKeyPress hitems with ⟨rfl, rfl⟩ | ⟨-, hitems⟩
    · rcases mem_append.mp hk with hk | hk
      · exact (h.getD other k hk).2
      · rw [mem_singleton.mp hk]
        exact ⟨rest, hchords⟩
    · exact h.first other items hitems k hk
  kept other pre k post hitems command hcommand hne := by
    rcases map_addKeyPress hitems with ⟨rfl, happend⟩ | ⟨hother, hitems⟩
    · rcases eq_nil_or_concat post with rfl | ⟨post, last, rfl⟩
      · -- `k` is the new rule
        left
        obtain ⟨-, hk⟩ := append_inj' happend rfl
        obtain rfl := singleton_injective hk
        rw [addKeyPress_eq, lookedUp_addToLookupMap, if_pos ⟨hcommand, hne⟩]
        exact mem_append_right _ (mem_singleton_self k)
      · rw [concat_eq_append, ← cons_append, ← append_assoc] at happend
        obtain ⟨hold, hlast⟩ := append_inj' happend rfl
        obtain rfl := singleton_injective hlast
        rw [concat_eq_append]
        cases hmap : resolver.map other with
        | none => simp [hmap] at hold
        | some conflicts =>
          rw [hmap, Option.getD_some] at hold
          subst hold
          rcases h.kept other pre k post hmap command hcommand hne with
            hmem | ⟨later, hlater, hover⟩
          · by_cases hover : overwrites rt last k = true
            · exact .inr ⟨last, by simp, hover⟩
            · left
              refine h.mem_lookedUp_addKeyPress hids ?_ hmem fun _ => by simpa using hover
              exact h.mem_rules other _ hmap (by simp)
          · exact .inr ⟨later, by simp [hlater], hover⟩
    · rcases h.kept other pre k post hitems command hcommand hne with hmem | hover
      · left
        refine h.mem_lookedUp_addKeyPress hids (h.mem_rules other _ hitems (by simp)) hmem fun hhead => ?_
        obtain ⟨rest, hfirst⟩ := h.first other _ hitems k (by simp)
        rw [hfirst, head?_cons] at hhead
        exact absurd (Option.some.inj hhead) hother
      · exact .inr hover

theorem Consistent.addKeybindings (hids : Identified rules) (h : Consistent rt rules resolver)
    {keybindings : List (ResolvedKeybindingItem V R A)} (hsub : keybindings ⊆ rules)
    {resolver' : KeybindingResolver V R A}
    (hadd : addKeybindings rt constants fuel keybindings resolver = some resolver') :
    Consistent rt rules resolver' := by
  induction keybindings generalizing resolver with
  | nil =>
    cases hadd
    exact h
  | cons k keybindings ih =>
    obtain ⟨hk, hsub⟩ := cons_subset.mp hsub
    rw [KeybindingResolver.addKeybindings] at hadd
    split at hadd
    next => exact ih h hsub hadd
    next keypress rest hchords =>
      obtain ⟨when, -, hadd⟩ := Option.bind_eq_some_iff.mp hadd
      split at hadd
      · exact ih h hsub hadd
      · exact ih (h.addKeyPress hids hk hchords) hsub hadd

theorem consistent_of_create {defaultKeybindings overrides : List (ResolvedKeybindingItem V R A)}
    (hids : Identified (defaultKeybindings ++ overrides))
    (h : create rt constants fuel defaultKeybindings overrides = some resolver) :
    Consistent rt (defaultKeybindings ++ overrides) resolver := by
  obtain ⟨keybindings, hkept, hadd⟩ := Option.bind_eq_some_iff.mp h
  refine Consistent.addKeybindings hids ?_ (handleRemovals_subset hkept) hadd
  exact ⟨by simp, by simp, by simp⟩

theorem prefix_of_agree {chords others : List JsString} (h : agree chords others = true)
    (hlength : chords.length ≤ others.length) : chords <+: others := by
  induction chords generalizing others with
  | nil => exact nil_prefix
  | cons chord chords ih =>
    cases others with
    | nil => simp at hlength
    | cons other others =>
      simp only [agree, Bool.and_eq_true, decide_eq_true_eq] at h
      rw [h.1, prefix_cons_inj]
      exact ih h.2 (by simpa using hlength)

theorem agree_comm (chords others : List JsString) : agree chords others = agree others chords := by
  induction chords generalizing others with
  | nil => cases others <;> rfl
  | cons chord chords ih =>
    cases others with
    | nil => rfl
    | cons other others => simp only [agree, ih others, eq_comm]

theorem prefix_of_overwrites {keypress : JsString} {rest other : List JsString}
    {later : ResolvedKeybindingItem V R A} (h : overwrites rt later k = true)
    (hk : k.chords = keypress :: rest) (hlater : later.chords = keypress :: other) :
    (later.chords.length ≤ k.chords.length → later.chords <+: k.chords) ∧
      (k.chords.length ≤ later.chords.length → k.chords <+: later.chords) := by
  simp only [overwrites, Bool.and_eq_true, hk, hlater, tail_cons] at h
  simp only [hk, hlater, length_cons, Nat.add_le_add_iff_right, prefix_cons_inj]
  exact ⟨prefix_of_agree (by rw [agree_comm, h.1.2]), prefix_of_agree h.1.2⟩

theorem Consistent.holds_of_overwrites (h : Consistent rt rules resolver)
    (hclauses : Comparable rt (clausesOf rules)) {keypress : JsString}
    {items : List (ResolvedKeybindingItem V R A)} (hitems : resolver.map keypress = some items)
    {later : ResolvedKeybindingItem V R A} (hk : k ∈ items) (hlater : later ∈ items)
    (hover : overwrites rt later k = true) {context : Context V}
    (hholds : contextMatchesRules rt context k.when = true) :
    contextMatchesRules rt context later.when = true := by
  simp only [overwrites, Bool.and_eq_true] at hover
  have hsub := h.mem_rules keypress items hitems
  exact hclauses.whenIsEntirelyIncluded_sound (fun e he c hc => ⟨k, hsub hk, e, he, hc⟩)
    (fun e he c hc => ⟨later, hsub hlater, e, he, hc⟩) hover.2 hholds

theorem Consistent.filter_eq (h : Consistent rt rules resolver) {pressedChords : List JsString}
    (hne : pressedChords ≠ []) {keypress : JsString} {items : List (ResolvedKeybindingItem V R A)}
    (hitems : resolver.map keypress = some items) :
    (if pressedChords.length < 2 then items else items.filter (prefixMatches pressedChords)) =
      items.filter (prefixMatches pressedChords) := by
  split
  next hlength =>
    obtain ⟨chord, rfl⟩ : ∃ chord, pressedChords = [chord] := by
      refine length_eq_one_iff.mp ?_
      have := length_pos_iff.mpr hne
      omega
    refine (filter_eq_self.mpr fun k hk => ?_).symm
    obtain ⟨rest, hchords⟩ := h.first keypress items hitems k hk
    simp [prefixMatches, hchords]
  next => rfl

theorem exists_of_findCommand {context : Context V} {p : ResolvedKeybindingItem V R A → Bool}
    {items : List (ResolvedKeybindingItem V R A)} {result : ResolvedKeybindingItem V R A}
    (h : findCommand rt context (items.filter p) = some result) :
    contextMatchesRules rt context result.when = true ∧ p result = true ∧
      ∃ pre post, items = pre ++ result :: post ∧
        ∀ later ∈ post, p later = true → contextMatchesRules rt context later.when = false := by
  obtain ⟨hholds, after, before, hreverse, hafter⟩ := find?_eq_some_iff_append.mp h
  have hfilter : items.filter p = before.reverse ++ result :: after.reverse := by
    rw [← reverse_reverse (items.filter p), hreverse]
    simp
  obtain ⟨pre, rest, rfl, -, hrest⟩ := filter_eq_append_iff.mp hfilter
  obtain ⟨between, post, rfl, -, hp, hpost⟩ := filter_eq_cons_iff.mp hrest
  refine ⟨hholds, hp, pre ++ between, post, by simp, fun later hlater hmatches => ?_⟩
  have hmem : later ∈ after.reverse := by
    rw [← hpost]
    exact mem_filter.mpr ⟨hlater, hmatches⟩
  simpa using hafter later (mem_reverse.mp hmem)

theorem Consistent.exists_of_resolve (h : Consistent rt rules resolver) {context : Context V}
    {currentChords : List JsString} {keypress : JsString} {command : Option JsString}
    {commandArgs : A} {isBubble : Bool}
    (hfound : resolver.resolve rt context currentChords keypress = .kbFound command commandArgs isBubble) :
    ∃ first pre result post, resolver.map first = some (pre ++ result :: post) ∧
      result.command = command ∧ result.chords = currentChords ++ [keypress] ∧
      contextMatchesRules rt context result.when = true ∧
      ∀ later ∈ post, prefixMatches (currentChords ++ [keypress]) later = true →
        contextMatchesRules rt context later.when = false := by
  have hpressed : currentChords ++ [keypress] ≠ [] := by simp
  obtain ⟨first, others, hfirst⟩ := exists_cons_of_ne_nil hpressed
  simp only [resolve, hfirst, headD_cons] at hfound
  rw [hfirst] at hpressed ⊢
  split at hfound
  next => cases hfound
  next items hitems =>
    rw [h.filter_eq hpressed hitems] at hfound
    split at hfound
    next => cases hfound
    next result hresult =>
      split at hfound
      next => cases hfound
      next hcomplete =>
        injection hfound with hcommand
        obtain ⟨hholds, hmatches, pre, post, rfl, hlast⟩ := exists_of_findCommand hresult
        obtain ⟨rest, hchords⟩ := h.first first _ hitems result (by simp)
        simp only [prefixMatches, Bool.and_eq_true, decide_eq_true_eq, hchords, tail_cons,
          isPrefixOf_iff_prefix] at hmatches
        rw [hchords, length_cons, length_cons] at hcomplete
        obtain rfl : others = rest := hmatches.2.eq_of_length_le (by omega)
        exact ⟨first, pre, result, post, hitems, hcommand, hchords, hholds, hlast⟩

theorem prefixMatches_of_le {pressedChords : List JsString}
    (h : pressedChords <+: k.chords) : prefixMatches pressedChords k = true := by
  simp only [prefixMatches, Bool.and_eq_true, decide_eq_true_eq, isPrefixOf_iff_prefix]
  refine ⟨h.length_le, ?_⟩
  rw [← drop_one, ← drop_one]
  exact h.drop 1

def Dispatched (resolver : KeybindingResolver V R A) (k : ResolvedKeybindingItem V R A) : Prop :=
  ∃ keypress items, resolver.map keypress = some items ∧ k ∈ items

def IsLookedUp (rt : Runtime V R) (resolver : KeybindingResolver V R A) (context : Context V)
    (pressedChords : List JsString) (commandId : JsString) : Prop :=
  ∃ item ∈ resolver.lookupKeybindings commandId,
    item.chords = pressedChords ∧ contextMatchesRules rt context item.when = true

def IsShadowed (rt : Runtime V R) (resolver : KeybindingResolver V R A) (context : Context V)
    (currentChords : List JsString) (commandId : JsString) : Prop :=
  ∃ shorter, Dispatched resolver shorter ∧ shorter.command ≠ some commandId ∧
    shorter.chords <+: currentChords ∧ contextMatchesRules rt context shorter.when = true

theorem Consistent.isLookedUp_of_resolve (h : Consistent rt rules resolver)
    (hclauses : Comparable rt (clausesOf rules)) {context : Context V}
    {currentChords : List JsString} {keypress commandId : JsString} {commandArgs : A}
    {isBubble : Bool} (hne : commandId ≠ [])
    (hfound : resolver.resolve rt context currentChords keypress = .kbFound (some commandId) commandArgs isBubble) :
    IsLookedUp rt resolver context (currentChords ++ [keypress]) commandId ∨
      IsShadowed rt resolver context currentChords commandId := by
  obtain ⟨first, pre, result, post, hitems, hcommand, hchords, hholds, hlast⟩ := h.exists_of_resolve hfound
  rcases h.kept first pre result post hitems commandId hcommand hne with
    hmem | ⟨later, hlater, hover⟩
  · exact .inl ⟨result, mem_lookupKeybindings.mpr hmem, hchords, hholds⟩
  · right
    have hmem : later ∈ pre ++ result :: post := by simp [hlater]
    have happlies := h.holds_of_overwrites hclauses hitems (by simp) hmem hover hholds
    obtain ⟨rest, hrest⟩ := h.first first _ hitems result (by simp)
    obtain ⟨other, hother⟩ := h.first first _ hitems later hmem
    obtain ⟨hshorter, hlonger⟩ := prefix_of_overwrites hover hrest hother
    rw [hchords] at hshorter hlonger
    refine ⟨later, ⟨first, _, hitems, hmem⟩, ?_, ?_, happlies⟩
    · simp only [overwrites, Bool.and_eq_true, Bool.not_eq_true', decide_eq_false_iff_not] at hover
      exact fun heq => hover.1.1 (hcommand.trans heq.symm)
    · by_cases hlength : (currentChords ++ [keypress]).length ≤ later.chords.length
      · -- a later rule with all the pressed chords would have been found
        rw [hlast later hlater (prefixMatches_of_le (hlonger hlength))] at happlies
        cases happlies
      · refine prefix_of_prefix_length_le (hshorter (by omega)) (prefix_append _ _) ?_
        rw [length_append, length_singleton] at hlength
        omega

theorem Consistent.isLookedUp_or_overwritten (h : Consistent rt rules resolver)
    (hclauses : Comparable rt (clausesOf rules)) {first : JsString}
    {pre post : List (ResolvedKeybindingItem V R A)}
    (hitems : resolver.map first = some (pre ++ k :: post)) {command : JsString}
    (hcommand : k.command = some command) (hne : command ≠ []) :
    k ∈ resolver.lookupKeybindings command ∨ ∃ later ∈ post,
      (later.chords <+: k.chords ∨ k.chords <+: later.chords) ∧
        ∀ context, contextMatchesRules rt context k.when = true →
          contextMatchesRules rt context later.when = true := by
  rcases h.kept first pre k post hitems command hcommand hne with hmem | ⟨later, hlater, hover⟩
  · exact .inl (mem_lookupKeybindings.mpr hmem)
  · have hmem : later ∈ pre ++ k :: post := by simp [hlater]
    obtain ⟨rest, hrest⟩ := h.first first _ hitems k (by simp)
    obtain ⟨other, hother⟩ := h.first first _ hitems later hmem
    obtain ⟨hshorter, hlonger⟩ := prefix_of_overwrites hover hrest hother
    refine .inr ⟨later, hlater, ?_, fun context hholds => ?_⟩
    · exact (le_total later.chords.length k.chords.length).imp hshorter hlonger
    · exact h.holds_of_overwrites hclauses hitems (by simp) hmem hover hholds

/-- What the two views of a resolver agree on, where no shorter rule shadows a longer one: a
command that is resolved is looked up, and only rules that a later one overwrites are not. -/
theorem views_agree (rt : Runtime V R) (constants : Constants) (fuel : Nat)
    (defaultKeybindings overrides : List (ResolvedKeybindingItem V R A))
    (resolver : KeybindingResolver V R A)
    (hids : Identified (defaultKeybindings ++ overrides))
    (hclauses : Comparable rt (clausesOf (defaultKeybindings ++ overrides)))
    (hcreate : create rt constants fuel defaultKeybindings overrides = some resolver) :
    (∀ context currentChords keypress commandId commandArgs isBubble, commandId ≠ [] →
      resolver.resolve rt context currentChords keypress = .kbFound (some commandId) commandArgs isBubble →
      IsLookedUp rt resolver context (currentChords ++ [keypress]) commandId ∨
        IsShadowed rt resolver context currentChords commandId) ∧
    ∀ first pre k post command, resolver.map first = some (pre ++ k :: post) →
      k.command = some command → command ≠ [] →
      k ∈ resolver.lookupKeybindings command ∨ ∃ later ∈ post,
        (later.chords <+: k.chords ∨ k.chords <+: later.chords) ∧
          ∀ context, contextMatchesRules rt context k.when = true →
            contextMatchesRules rt context later.when = true := by
  have h := consistent_of_create hids hcreate
  refine ⟨?_, ?_⟩
  · rintro context currentChords keypress commandId commandArgs isBubble hne hfound
    exact h.isLookedUp_of_resolve hclauses hne hfound
  · rintro first pre k post command hitems hcommand hne
    exact h.isLookedUp_or_overwritten hclauses hitems hcommand hne

section Example

def chordK : JsString := [107]

def chordP : JsString := [112]

def openCommand : JsString := [111]

def clearCommand : JsString := [99]

def openRule : ResolvedKeybindingItem Primitive Unit Unit :=
  ⟨0, [chordK, chordP], false, some openCommand, (), none, true⟩

def clearRule : ResolvedKeybindingItem Primitive Unit Unit := ⟨1, [chordK], false, some clearCommand, (), none, true⟩

def userRule : ResolvedKeybindingItem Primitive Unit Unit :=
  ⟨2, [chordK, chordP], false, some clearCommand, (), some (definedExpr chordP none), false⟩

theorem views_agree_of_userRule : ∃ resolver,
    create Primitive.runtime (fun _ => none) 0 [openRule] [userRule] = some resolver ∧
      (IsLookedUp Primitive.runtime resolver (fun _ => .undefined) [chordK, chordP] openCommand ∨
        IsShadowed Primitive.runtime resolver (fun _ => .undefined) [chordK] openCommand) := by
  obtain ⟨resolver, hresolver⟩ := Option.isSome_iff_exists.mp
    (show (create Primitive.runtime (fun _ => none) 0 [openRule] [userRule]).isSome = true from rfl)
  have hfound : resolver.resolve Primitive.runtime (fun _ => .undefined) [chordK] chordP =
      .kbFound (some openCommand) () false := by
    cases hresolver
    rfl
  have hclause (c) (hc : c ∈ clausesOf [openRule, userRule]) : c = definedExpr chordP none := by
    obtain ⟨k, hk, e, he, hc⟩ := hc
    simp only [mem_cons, not_mem_nil, or_false] at hk
    rcases hk with rfl | rfl
    · cases he
    · cases he
      cases hc
      rfl
  refine ⟨resolver, hresolver, (views_agree Primitive.runtime (fun _ => none) 0 [openRule]
    [userRule] resolver (by simp [Identified, openRule, userRule]) ?_ hresolver).1 _ [chordK] chordP
    openCommand () false (by decide) hfound⟩
  constructor
  · intro _ _ _ _ _ h
    cases hclause _ h
  · intro _ _ _ _ _ h
    cases hclause _ h
  · intro _ _ _ _ _ _ h
    cases hclause _ h
  · intro _ _ _ h
    cases hclause _ h
  · intro _ _ _ h
    cases hclause _ h

/-- The longer rule is resolved and not looked up. -/
theorem not_isLookedUp : ¬ ∀ (V R A : Type) (rt : Runtime V R) (constants : Constants) (fuel : Nat)
    (defaultKeybindings overrides : List (ResolvedKeybindingItem V R A))
    (resolver : KeybindingResolver V R A) (context : Context V) (currentChords : List JsString)
    (keypress commandId : JsString) (commandArgs : A) (isBubble : Bool),
    Identified (defaultKeybindings ++ overrides) →
    create rt constants fuel defaultKeybindings overrides = some resolver → commandId ≠ [] →
    resolver.resolve rt context currentChords keypress = .kbFound (some commandId) commandArgs isBubble →
    IsLookedUp rt resolver context (currentChords ++ [keypress]) commandId := by
  intro h
  obtain ⟨resolver, hresolver⟩ := Option.isSome_iff_exists.mp
    (show (create Primitive.runtime (fun _ => none) 0 [openRule, clearRule] []).isSome = true from rfl)
  have hfound : resolver.resolve Primitive.runtime (fun _ => .undefined) [chordK] chordP =
      .kbFound (some openCommand) () false := by
    cases hresolver
    rfl
  have hnone : resolver.lookupKeybindings openCommand = [] := by
    cases hresolver
    rfl
  obtain ⟨item, hitem, -⟩ := h _ _ _ Primitive.runtime (fun _ => none) 0 [openRule, clearRule] []
    resolver _ [chordK] chordP openCommand () false (by simp [Identified, openRule, clearRule])
    hresolver (by decide) hfound
  rw [hnone] at hitem
  cases hitem

end Example

end Gavea.Keybinding
