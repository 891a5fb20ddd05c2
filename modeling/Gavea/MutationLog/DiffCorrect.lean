import Gavea.MutationLog.DiffReplay

namespace Gavea.MutationLog

open Gavea.Lib Gavea.Lib.Js List

variable {α : Type}

/-- At the root nothing is to be replaced: a value is equal, an array has the items that it had
with their keys, an object is there as before with its keys. -/
def Rooted : Transform α → Value → Value → Prop
  | .value _ _ equals, prev, curr => equals prev curr = true
  | .values _ _ equals, .array prevArr, .array currArr => List.Forall₂ (fun p c => equals p c = true) prevArr currArr
  | .values .., prev, curr => prev = curr
  | .objects _ _ children _, .array prevArr, .array currArr =>
    List.Forall₂ (fun p c => hasKeyMismatch children p c = .ok false) prevArr currArr
  | .objects .., prev, curr => prev = curr
  | .object _ children _, prev, curr =>
    if prev.isNullish || curr.isNullish then prev = curr
    else hasKeyMismatch children prev curr = .ok false

theorem diffValues_eq_nil {equals : Value → Value → Bool} {path : ObjectPath} {ps cs : List Value}
    (h : List.Forall₂ (fun p c => equals p c = true) ps cs) (i : Nat) :
    diffValues equals path i ps cs = [] := by
  induction h generalizing i with
  | nil => rfl
  | cons hequal _ ih => rw [diffValues, if_pos hequal, ih]

theorem CanPush.set {state : Value} {path : ObjectPath} (h : CanPush state path) {v : Value}
    (hv : v.WellFormed) : Replays state path [.set path v] v := by
  obtain ⟨p, name, rfl, hobject⟩ := h
  exact replays_set name hv hobject

theorem CanPush.delete {state : Value} {path : ObjectPath} (h : CanPush state path) :
    Replays state path [.delete path] .undefined := by
  obtain ⟨p, name, rfl, hobject⟩ := h
  exact replays_delete name hobject

theorem diffNullish_self {path : ObjectPath} {v : Value} (h : v.isNullish = true) :
    diffNullish path v v = [] := by
  cases v with
  | undefined | null => rfl
  | bool | number | string | array | object => cases h

theorem diffNullish_replays {state : Value} {path : ObjectPath} {prev curr : Value}
    (hcurr : curr.WellFormed) (hshows : Shows state path prev)
    (hpush : CanPush state path ∨ prev = curr ∧ prev.isNullish = true) :
    Replays state path (diffNullish path prev curr) curr := by
  rcases hpush with hpush | ⟨rfl, hnullish⟩
  · unfold diffNullish
    split
    · exact Replays.nil hshows
    · exact Replays.nil hshows
    · exact hpush.delete
    · exact hpush.set hcurr
  · rw [diffNullish_self hnullish]
    exact Replays.nil hshows

theorem diffObject_replays {children : List (JsString × Transform α)}
    {isSealed : Option (Value → Bool → Bool)}
    {diffRest : ObjectPath → Value → Value → Except LogError (List Entry)} {state : Value}
    {path : ObjectPath} {prev curr : Value} {es : List Entry}
    (h : diffObject children isSealed diffRest path prev curr = .ok es)
    (hkeys : hasKeyMismatch children prev curr = .ok false) (hshows : Shows state path prev)
    (hsealed : areSealed isSealed prev curr = true → Value.Same prev curr)
    (hrest : areSealed isSealed prev curr = false → diffRest path prev curr = .ok es → Replays state path es curr) :
    Replays state path es curr := by
  rw [diffObject, hkeys] at h
  simp only [bind, Except.bind, Bool.false_eq_true, if_false] at h
  by_cases hareSealed : areSealed isSealed prev curr = true
  · rw [if_pos hareSealed] at h
    obtain rfl := Except.ok.inj h
    exact Replays.nil (hshows.congr (hsealed hareSealed))
  · rw [if_neg hareSealed] at h
    exact hrest (by simpa using hareSealed) h

def FrameProps (path : ObjectPath) (keys : List JsString) (v w : Value) : Prop :=
  ∀ r, (∀ key ∈ keys, ¬ path ++ [.prop key] <+: r) → w.view r = v.view r

theorem not_prefix_of_prop (path : ObjectPath) (key : JsString) : ¬ path ++ [.prop key] <+: path := by
  intro h
  have hlen := h.length_le
  simp only [length_append, length_singleton] at hlen
  omega

theorem key_eq_of_prefix_cons {path : ObjectPath} {k k' : Key} {q : ObjectPath}
    (h : path ++ [k] <+: path ++ k' :: q) : k = k' := by
  obtain ⟨t, ht⟩ := h
  rw [append_assoc, append_cancel_left_eq] at ht
  exact (List.cons.inj ht).1

theorem Frame.frameProps {path : ObjectPath} {key : JsString} {keys : List JsString}
    {u v w : Value} (h : Frame (path ++ [.prop key]) u v) (h' : FrameProps path keys v w) :
    FrameProps path (key :: keys) u w := fun r hr =>
  (h' r fun key' hkey' => hr key' (mem_cons_of_mem key hkey')).trans (h r (hr key mem_cons_self))

theorem Frame.shows {path : ObjectPath} {key key' : JsString} {v w x : Value}
    (h : Frame (path ++ [.prop key]) v w) (hkey : key' ≠ key)
    (hshows : Shows v (path ++ [.prop key']) x) : Shows w (path ++ [.prop key']) x := by
  intro q
  rw [h _ fun hp => ?_, hshows]
  rw [append_assoc, singleton_append] at hp
  exact hkey (Key.prop.inj (key_eq_of_prefix_cons hp)).symm

theorem FrameProps.shows {path : ObjectPath} {key : JsString} {keys : List JsString}
    {v w x : Value} (h : FrameProps path keys v w) (hkey : key ∉ keys)
    (hshows : Shows v (path ++ [.prop key]) x) : Shows w (path ++ [.prop key]) x := by
  intro q
  rw [h _ fun key' hkey' hp => ?_, hshows]
  rw [append_assoc, singleton_append] at hp
  exact hkey (Key.prop.inj (key_eq_of_prefix_cons hp) ▸ hkey')

theorem shows_object {children : List (JsString × Transform α)}
    (hnodup : (children.map Prod.fst).Nodup) {a b : α} {state w : Value} {path : ObjectPath}
    (hstate : Shows state path (.object (Transform.extractChildren children a)))
    (hw : ∀ c ∈ children, Shows w (path ++ [.prop c.1]) (c.2.extract b))
    (hframe : FrameProps path (children.map Prod.fst) state w) :
    Shows w path (.object (Transform.extractChildren children b)) ∧ Frame path state w := by
  refine ⟨fun q => ?_, fun r hr => hframe r fun key _ hp => hr ?_⟩
  · cases q with
    | nil =>
      rw [append_nil, hframe path fun key _ => not_prefix_of_prop path key]
      have hroot := hstate []
      rw [append_nil] at hroot
      exact hroot
    | cons k q =>
      by_cases hk : ∃ c ∈ children, k = .prop c.1
      · obtain ⟨c, hc, rfl⟩ := hk
        have hview := hw c hc q
        rw [append_assoc, singleton_append] at hview
        rw [hview, Value.view, Value.view, Value.part_cons]
        show _ = ((Value.member (Transform.extractChildren children b) c.1).part q).shape
        rw [Transform.member_extractChildren hnodup hc]
      · have hnot : ∀ key ∈ children.map Prod.fst, k ≠ .prop key := by
          rintro key hkey rfl
          obtain ⟨c, hc, rfl⟩ := mem_map.mp hkey
          exact hk ⟨c, hc, rfl⟩
        rw [hframe _ fun key hkey hp => hnot key hkey (key_eq_of_prefix_cons hp).symm, hstate]
        cases k with
        | index i => rfl
        | prop name =>
          have hmem : name ∉ children.map Prod.fst := fun hmem => hnot name hmem rfl
          show ((Value.member (Transform.extractChildren children a) name).part q).shape =
            ((Value.member (Transform.extractChildren children b) name).part q).shape
          rw [Transform.member_extractChildren_of_not_mem hmem, Transform.member_extractChildren_of_not_mem hmem]
  · exact (prefix_append path _).trans hp

theorem SealedStable.child {get : α → Source α} {children : List (JsString × Transform α)}
    {isSealed : Option (Value → Bool → Bool)} {prev curr : Value}
    (h : SealedStable (.object get children isSealed) prev curr) (hprev : prev.isNullish = false)
    (hcurr : curr.isNullish = false) (hkeys : hasKeyMismatch children prev curr = .ok false)
    (hopen : areSealed isSealed prev curr = false) {key : JsString} {t : Transform α}
    (hmem : (key, t) ∈ children) :
    SealedStable t (optionalProperty prev key) (optionalProperty curr key) :=
  fun _ _ a b hab => h _ _ a b (Compares.child hprev hcurr hkeys hopen hmem hab)

theorem ItemsStay.child {get : α → Source α} {children : List (JsString × Transform α)}
    {isSealed : Option (Value → Bool → Bool)} {prev curr : Value}
    (h : ItemsStay (.object get children isSealed) prev curr) (hprev : prev.isNullish = false)
    (hcurr : curr.isNullish = false) (hkeys : hasKeyMismatch children prev curr = .ok false)
    (hopen : areSealed isSealed prev curr = false) {key : JsString} {t : Transform α}
    (hmem : (key, t) ∈ children) :
    ItemsStay t (optionalProperty prev key) (optionalProperty curr key) :=
  fun _ a b hab => h _ a b (Compares.child hprev hcurr hkeys hopen hmem hab)

def ChildrenStable (children : List (JsString × Transform α)) (a b : α) : Prop :=
  ∀ c ∈ children, SealedStable c.2 (c.2.extract a) (c.2.extract b) ∧ ItemsStay c.2 (c.2.extract a) (c.2.extract b)

def ChildrenReplay (children : List (JsString × Transform α)) : Prop :=
  ∀ (a b : α) (state : Value) (path : ObjectPath) (es : List Entry),
    Shows state path (.object (Transform.extractChildren children a)) →
    hasKeyMismatch children (.object (Transform.extractChildren children a))
      (.object (Transform.extractChildren children b)) = .ok false →
    ChildrenStable children a b →
    diffChildren children true path (.object (Transform.extractChildren children a))
      (.object (Transform.extractChildren children b)) = .ok es →
    Replays state path es (.object (Transform.extractChildren children b))

/-- The entries for the two extracted values of a schema are right. -/
def DiffReplays (t : Transform α) : Prop :=
  ∀ (a b : α) (state : Value) (path : ObjectPath) (es : List Entry),
    Shows state path (t.extract a) →
    (CanPush state path ∨ Rooted t (t.extract a) (t.extract b)) →
    SealedStable t (t.extract a) (t.extract b) → ItemsStay t (t.extract a) (t.extract b) →
    diff t path (t.extract a) (t.extract b) = .ok es → Replays state path es (t.extract b)

theorem value_replays {key : Bool} {get : α → {v : Value // v.WellFormed}}
    {equals : Value → Value → Bool} (h : (Transform.value key get equals).Lawful) :
    DiffReplays (.value key get equals) := by
  intro a b state path es hshows hpush _ _ hdiff
  obtain rfl := Except.ok.inj hdiff
  have hwf := Transform.wellFormed_extract (.value key get equals) h b
  by_cases hequal : equals ((Transform.value key get equals).extract a)
    ((Transform.value key get equals).extract b) = true
  · rw [if_pos hequal]
    exact Replays.nil (hshows.congr (h a b hequal))
  · rw [if_neg hequal]
    rcases hpush with hpush | hroot
    · exact hpush.set hwf
    · exact absurd hroot hequal

theorem values_replays {get : α → Option (List α)} {getItem : α → {v : Value // v.WellFormed}}
    {equals : Value → Value → Bool} (h : (Transform.values get getItem equals).Lawful) :
    DiffReplays (.values get getItem equals) := by
  intro a b state path es hshows hpush _ _ hdiff
  have hwf := Transform.wellFormed_extract (.values get getItem equals) h b
  simp only [Transform.extract] at hshows hpush hwf hdiff ⊢
  cases ha : get a with
  | none =>
    rw [ha] at hshows hpush hdiff
    obtain rfl := Except.ok.inj hdiff
    refine diffNullish_replays hwf hshows (hpush.imp_right fun hroot => ⟨?_, rfl⟩)
    cases hb : get b with
    | none => rfl
    | some bs =>
      rw [hb] at hroot
      exact hroot
  | some as =>
    rw [ha] at hshows hpush hdiff
    cases hb : get b with
    | none =>
      rw [hb] at hpush hdiff hwf
      obtain rfl := Except.ok.inj hdiff
      rcases hpush with hpush | hroot
      · exact hpush.delete
      · cases hroot
    | some bs =>
      rw [hb] at hpush hdiff hwf
      obtain rfl := Except.ok.inj hdiff
      refine diffValues_replays _ [] _ ?_ hwf hshows (hpush.imp_right fun hroot => diffValues_eq_nil hroot 0)
      intro p hp c hc hequal
      obtain ⟨x, -, rfl⟩ := mem_map.mp hp
      obtain ⟨y, -, rfl⟩ := mem_map.mp hc
      exact h x y hequal

theorem ItemPair.mem {hasKeyMismatch : Value → Value → Except LogError Bool} {ps cs : List Value}
    {p c : Value} (h : ItemPair hasKeyMismatch ps cs p c) :
    p ∈ ps ∧ c ∈ cs ∧ hasKeyMismatch p c = .ok false := by
  induction h with
  | head h => exact ⟨mem_cons_self, mem_cons_self, h⟩
  | tail _ _ ih => exact ⟨mem_cons_of_mem _ ih.1, mem_cons_of_mem _ ih.2.1, ih.2.2⟩

theorem diffChildren_nullish {children : List (JsString × Transform α)} {prev curr : Value}
    {path : ObjectPath} {es : List Entry} (hcurr : curr.isNullish = true)
    (hkeys : hasKeyMismatch children prev curr = .ok false)
    (h : diffChildren children true path prev curr = .ok es) : es = [] := by
  have hproperty : ∀ key, property curr key = .error .typeError := by
    intro key
    cases curr with
    | undefined | null => rfl
    | bool | number | string | array | object => cases hcurr
  cases children with
  | nil => exact (Except.ok.inj h).symm
  | cons c children =>
    obtain ⟨key, t⟩ := c
    cases hkey : t.isKey with
    | false =>
      rw [diffChildren, hkey, hproperty] at h
      cases h
    | true =>
      cases t with
      | values | objects | object => cases hkey
      | value isKey get equals =>
        obtain rfl : isKey = true := hkey
        rw [hasKeyMismatch, hproperty] at hkeys
        cases hkeys

theorem diffObject_nullish {children : List (JsString × Transform α)}
    {isSealed : Option (Value → Bool → Bool)} {path : ObjectPath} {prev curr : Value}
    {es : List Entry} (hcurr : curr.isNullish = true)
    (hkeys : hasKeyMismatch children prev curr = .ok false)
    (h : diffObject children isSealed (fun path prev curr => diffChildren children true path prev curr)
      path prev curr = .ok es) : es = [] := by
  rw [diffObject, hkeys] at h
  simp only [bind, Except.bind, Bool.false_eq_true, if_false] at h
  by_cases hareSealed : areSealed isSealed prev curr = true
  · rw [if_pos hareSealed] at h
    exact (Except.ok.inj h).symm
  · rw [if_neg hareSealed] at h
    exact diffChildren_nullish hcurr hkeys h

theorem item_replays (getItem : α → Source α) (a b : α) {children : List (JsString × Transform α)}
    {isSealed : Option (Value → Bool → Bool)} (hchildren : ChildrenReplay children)
    (hnodup : (children.map Prod.fst).Nodup) {prev curr : Value}
    (hprev : prev = Transform.extractItem getItem children a)
    (hcurr : curr = Transform.extractItem getItem children b)
    (hkeys : hasKeyMismatch children prev curr = .ok false)
    (hstay : prev.isNullish = curr.isNullish)
    (hsealed : areSealed isSealed prev curr = true → Value.Same prev curr)
    (hstable : areSealed isSealed prev curr = false → ∀ c ∈ children,
      SealedStable c.2 (optionalProperty prev c.1) (optionalProperty curr c.1) ∧
        ItemsStay c.2 (optionalProperty prev c.1) (optionalProperty curr c.1))
    {state : Value} {path : ObjectPath} {es : List Entry} (hshows : Shows state path prev.orNull)
    (h : diffObject children isSealed (fun path prev curr => diffChildren children true path prev curr)
      path prev curr = .ok es) : Replays state path es curr.orNull := by
  have hnull : ∀ v : Value, v.isNullish = true → v.orNull = .null := by
    intro v hv
    cases v with
    | undefined | null => rfl
    | bool | number | string | array | object => cases hv
  by_cases hcurrNull : curr.isNullish = true
  · rw [diffObject_nullish hcurrNull hkeys h, hnull curr hcurrNull]
    rw [hnull prev (hstay.trans hcurrNull)] at hshows
    exact Replays.nil hshows
  · have hprevNull : ¬ prev.isNullish = true := hstay ▸ hcurrNull
    rw [Transform.extractItem] at hprev hcurr
    split at hprev
    · exact absurd (congrArg Value.isNullish hprev) hprevNull
    · exact absurd (congrArg Value.isNullish hprev) hprevNull
    · next objA _ =>
        split at hcurr
        · exact absurd (congrArg Value.isNullish hcurr) hcurrNull
        · exact absurd (congrArg Value.isNullish hcurr) hcurrNull
        · next objB _ =>
            subst hprev
            subst hcurr
            refine diffObject_replays h hkeys hshows hsealed fun hopen hrest => ?_
            refine hchildren objA objB state path es hshows hkeys (fun c hc => ?_) hrest
            have hc' := hstable hopen c hc
            simp only [optionalProperty, Transform.member_extractChildren hnodup hc] at hc'
            exact hc'

theorem objects_replays {get : α → Option (List α)} {getItem : α → Source α}
    {children : List (JsString × Transform α)} {isSealed : Option (Value → Bool → Bool)}
    (h : (Transform.objects get getItem children isSealed).Lawful)
    (hchildren : ChildrenReplay children) :
    DiffReplays (.objects get getItem children isSealed) := by
  intro a b state path es hshows hpush hsealed hitems hdiff
  have hwf := Transform.wellFormed_extract (.objects get getItem children isSealed) h b
  simp only [Transform.extract] at hshows hpush hwf hdiff hsealed hitems ⊢
  cases ha : get a with
  | none =>
    rw [ha] at hshows hpush hdiff
    obtain rfl := Except.ok.inj hdiff
    refine diffNullish_replays hwf hshows (hpush.imp_right fun hroot => ⟨?_, rfl⟩)
    cases hb : get b with
    | none => rfl
    | some bs =>
      rw [hb] at hroot
      exact hroot
  | some as =>
    rw [ha] at hshows hpush hdiff hsealed hitems
    cases hb : get b with
    | none =>
      rw [hb] at hpush hdiff hwf
      obtain rfl := Except.ok.inj hdiff
      rcases hpush with hpush | hroot
      · exact hpush.delete
      · cases hroot
    | some bs =>
      rw [hb] at hpush hdiff hwf hsealed hitems
      refine diffItems_replays _ [] _ state es hdiff ?_ hwf hshows hpush
      intro p c hpair i state' es' hobject hshows'
      obtain ⟨hp, hc, hkeys⟩ := hpair.mem
      obtain ⟨x, -, hx⟩ := mem_map.mp hp
      obtain ⟨y, -, hy⟩ := mem_map.mp hc
      refine item_replays getItem x y hchildren h.1 hx.symm hy.symm hkeys
        (hitems _ _ _ (Compares.item hpair)) (hsealed _ _ _ _ (Compares.item hpair))
        (fun hopen ch hch => ⟨fun _ _ u v huv => ?_, fun _ u v huv => ?_⟩) hshows' hobject
      · exact hsealed _ _ u v (Compares.itemChild hpair hopen hch huv)
      · exact hitems _ u v (Compares.itemChild hpair hopen hch huv)

theorem Transform.exists_extractChildren {get : α → Source α}
    {children : List (JsString × Transform α)} {isSealed : Option (Value → Bool → Bool)} {a : α}
    (h : ((Transform.object get children isSealed).extract a).isNullish = false) :
    ∃ obj, (Transform.object get children isSealed).extract a =
      .object (Transform.extractChildren children obj) := by
  rw [Transform.extract] at h ⊢
  split at h
  · cases h
  · cases h
  · next obj _ => exact ⟨obj, rfl⟩

theorem object_replays {get : α → Source α}
    {children : List (JsString × Transform α)} {isSealed : Option (Value → Bool → Bool)}
    (h : (Transform.object get children isSealed).Lawful)
    (hchildren : ChildrenReplay children) :
    DiffReplays (.object get children isSealed) := by
  intro a b state path es hshows hpush hsealed hitems hdiff
  have hwf := Transform.wellFormed_extract (.object get children isSealed) h b
  rw [diff] at hdiff
  by_cases hnullish : (((Transform.object get children isSealed).extract a).isNullish ||
    ((Transform.object get children isSealed).extract b).isNullish) = true
  · rw [if_pos hnullish] at hdiff
    obtain rfl := Except.ok.inj hdiff
    refine diffNullish_replays hwf hshows (hpush.imp_right fun hroot => ?_)
    rw [Rooted, if_pos hnullish] at hroot
    rw [← hroot, Bool.or_self] at hnullish
    exact ⟨hroot, hnullish⟩
  · rw [if_neg hnullish] at hdiff
    rw [Rooted, if_neg hnullish] at hpush
    obtain ⟨hprev, hcurr⟩ := Bool.or_eq_false_iff.mp (Bool.not_eq_true _ ▸ hnullish)
    cases hkeys : hasKeyMismatch children ((Transform.object get children isSealed).extract a)
      ((Transform.object get children isSealed).extract b) with
    | error e =>
      rw [diffObject, hkeys] at hdiff
      cases hdiff
    | ok mismatch =>
      cases mismatch with
      | true =>
        rcases hpush with hpush | hroot
        · rw [diffObject, hkeys] at hdiff
          obtain rfl := Except.ok.inj hdiff
          exact hpush.set hwf
        · rw [hkeys] at hroot
          cases hroot
      | false =>
        refine diffObject_replays hdiff hkeys hshows
          (hsealed _ _ _ _ (Compares.object hprev hcurr hkeys)) fun hopen hrest => ?_
        have hstable : ∀ c ∈ children,
            SealedStable c.2
              (optionalProperty ((Transform.object get children isSealed).extract a) c.1)
              (optionalProperty ((Transform.object get children isSealed).extract b) c.1) ∧
            ItemsStay c.2
              (optionalProperty ((Transform.object get children isSealed).extract a) c.1)
              (optionalProperty ((Transform.object get children isSealed).extract b) c.1) :=
          fun c hc => ⟨hsealed.child hprev hcurr hkeys hopen hc, hitems.child hprev hcurr hkeys hopen hc⟩
        obtain ⟨objA, hA⟩ := Transform.exists_extractChildren hprev
        obtain ⟨objB, hB⟩ := Transform.exists_extractChildren hcurr
        rw [hA] at hshows hkeys hrest hstable
        rw [hB] at hkeys hrest hstable ⊢
        refine hchildren objA objB state path es hshows hkeys (fun c hc => ?_) hrest
        have hc' := hstable c hc
        simp only [optionalProperty, Transform.member_extractChildren h.1 hc] at hc'
        exact hc'

theorem Transform.exists_of_isKey {t : Transform α} (h : t.isKey = true) :
    ∃ get equals, t = .value true get equals := by
  cases t with
  | value key get equals =>
    obtain rfl : key = true := h
    exact ⟨get, equals, rfl⟩
  | values | objects | object => cases h

theorem hasKeyMismatch_key {key : JsString} {get : α → {v : Value // v.WellFormed}}
    {equals : Value → Value → Bool} {children : List (JsString × Transform α)}
    {prev curr currValue : Value} (hcurr : property curr key = .ok currValue)
    (h : hasKeyMismatch ((key, .value true get equals) :: children) prev curr = .ok false) :
    equals (optionalProperty prev key) currValue = true ∧
      hasKeyMismatch children prev curr = .ok false := by
  rw [hasKeyMismatch, hcurr] at h
  simp only [bind, Except.bind] at h
  by_cases hequal : equals (optionalProperty prev key) currValue = true
  · rw [if_pos hequal] at h
    exact ⟨hequal, h⟩
  · rw [if_neg hequal] at h
    cases h

theorem children_spec (children : List (JsString × Transform α)) :
    (∀ c ∈ children, c.2.Lawful) → (∀ c ∈ children, DiffReplays c.2) →
    (children.map Prod.fst).Nodup → ∀ (a b : α)
    (prev curr : Value) {state : Value} {path : ObjectPath} {skipKeys : Bool} {es : List Entry},
    (∀ c ∈ children, optionalProperty prev c.1 = c.2.extract a) →
    (∀ c ∈ children, property curr c.1 = .ok (c.2.extract b)) →
    (state.part path).shape = .object →
    (∀ c ∈ children, Shows state (path ++ [.prop c.1]) (c.2.extract a)) →
    (skipKeys = true → hasKeyMismatch children prev curr = .ok false) →
    ChildrenStable children a b → diffChildren children skipKeys path prev curr = .ok es →
    ∃ w, applyAll state (es.map Entry.normal) = .ok w ∧
      (∀ c ∈ children, Shows w (path ++ [.prop c.1]) (c.2.extract b)) ∧
      FrameProps path (children.map Prod.fst) state w := by
  induction children with
  | nil =>
    intro _ _ _ a b prev curr state path skipKeys es _ _ _ _ _ _ hdiff
    obtain rfl := Except.ok.inj hdiff
    exact ⟨state, rfl, fun c hc => absurd hc not_mem_nil, fun _ _ => rfl⟩
  | cons c children ih =>
    obtain ⟨key, t⟩ := c
    intro hlawful hreplays hnodup a b prev curr state path skipKeys es hprev hcurr hobject hshows hskip hstable hdiff
    obtain ⟨hkey, hnodup⟩ := nodup_cons.mp hnodup
    have hprevKey := hprev (key, t) mem_cons_self
    have hcurrKey := hcurr (key, t) mem_cons_self
    have hshowsKey := hshows (key, t) mem_cons_self
    have hrestStable : ChildrenStable children a b := fun c hc => hstable c (mem_cons_of_mem _ hc)
    have hrest := fun state skipKeys es => @ih (fun c hc => hlawful c (mem_cons_of_mem _ hc))
      (fun c hc => hreplays c (mem_cons_of_mem _ hc)) hnodup a b prev curr state path skipKeys
      es (fun c hc => hprev c (mem_cons_of_mem _ hc))
      (fun c hc => hcurr c (mem_cons_of_mem _ hc))
    by_cases hskipped : (skipKeys && t.isKey) = true
    · rw [diffChildren, if_pos hskipped] at hdiff
      obtain ⟨hskipKeys, hisKey⟩ := Bool.and_eq_true_iff.mp hskipped
      obtain ⟨get, equals, rfl⟩ := Transform.exists_of_isKey hisKey
      obtain ⟨hequal, hkeys⟩ := hasKeyMismatch_key hcurrKey (hskip hskipKeys)
      rw [hprevKey] at hequal
      have hsame := hlawful _ mem_cons_self a b hequal
      obtain ⟨w, hw, hshows', hframe⟩ := hrest state true es hobject
        (fun c hc => hshows c (mem_cons_of_mem _ hc)) (fun _ => hkeys) hrestStable hdiff
      refine ⟨w, hw, fun c hc => ?_, fun r hr => hframe r fun key' hkey' => hr key' (mem_cons_of_mem _ hkey')⟩
      rcases mem_cons.mp hc with rfl | hc
      · exact hframe.shows hkey (hshowsKey.congr hsame)
      · exact hshows' c hc
    · rw [diffChildren, if_neg hskipped, hcurrKey, hprevKey] at hdiff
      simp only [bind, Except.bind] at hdiff
      cases hentries : diff t (path ++ [.prop key]) (t.extract a) (t.extract b) with
      | error e =>
        rw [hentries] at hdiff
        cases hdiff
      | ok entries =>
        rw [hentries] at hdiff
        simp only at hdiff
        cases hothers : diffChildren children false path prev curr with
        | error e =>
          rw [hothers] at hdiff
          cases hdiff
        | ok others =>
          rw [hothers] at hdiff
          obtain rfl := Except.ok.inj hdiff
          obtain ⟨u, hu, hushows, huframe⟩ := hreplays (key, t) mem_cons_self a b state
            (path ++ [.prop key]) entries hshowsKey (Or.inl ⟨path, key, rfl, hobject⟩)
            (hstable _ mem_cons_self).1 (hstable _ mem_cons_self).2 hentries
          obtain ⟨w, hw, hshows', hframe⟩ := hrest u false others
            ((huframe path (not_prefix_of_prop path key)).trans hobject)
            (fun c hc => huframe.shows
              (fun hc' => hkey (mem_map.mpr ⟨c, hc, hc'⟩))
              (hshows c (mem_cons_of_mem _ hc)))
            (fun h => absurd h Bool.false_ne_true) hrestStable hothers
          refine ⟨w, ?_, fun c hc => ?_, huframe.frameProps hframe⟩
          · rw [map_append, applyAll_append, hu]
            exact hw
          · rcases mem_cons.mp hc with rfl | hc
            · exact hframe.shows hkey hushows
            · exact hshows' c hc

theorem children_replay {children : List (JsString × Transform α)}
    (hlawful : Transform.ChildrenLawful children) (hnodup : (children.map Prod.fst).Nodup)
    (hreplays : ∀ c ∈ children, DiffReplays c.2) : ChildrenReplay children := by
  intro a b state path es hshows hkeys hstable hdiff
  have hroot := hshows []
  rw [append_nil] at hroot
  obtain ⟨w, hw, hshows', hframe⟩ := children_spec children (fun c hc => hlawful.of_mem hc) hreplays
    hnodup a b (.object (Transform.extractChildren children a))
    (.object (Transform.extractChildren children b)) (fun c hc => Transform.member_extractChildren hnodup hc a)
    (fun c hc => congrArg Except.ok (Transform.member_extractChildren hnodup hc b)) hroot
    (fun c hc q => by
      rw [append_assoc, singleton_append, hshows, Value.view, Value.part_cons]
      exact congrArg (fun v => (Value.part v q).shape) (Transform.member_extractChildren hnodup hc a))
    (fun _ => hkeys) hstable hdiff
  obtain ⟨hshowsObject, hframeObject⟩ := shows_object hnodup hshows hshows' hframe
  exact ⟨w, hw, hshowsObject, hframeObject⟩

mutual

theorem diff_replays : (t : Transform α) → t.Lawful → DiffReplays t
  | .value _ _ _, h => value_replays h
  | .values _ _ _, h => values_replays h
  | .objects _ _ children _, h => objects_replays h (children_replay h.2 h.1 (children_diff_replays children h.2))
  | .object _ children _, h => object_replays h (children_replay h.2 h.1 (children_diff_replays children h.2))

theorem children_diff_replays : (children : List (JsString × Transform α)) →
    Transform.ChildrenLawful children → ∀ c ∈ children, DiffReplays c.2
  | [], _, _, hc => absurd hc not_mem_nil
  | (_, t) :: children, h, c, hc => by
      rcases mem_cons.mp hc with rfl | hc
      · exact diff_replays t h.1
      · exact children_diff_replays children h.2 c hc

end

end Gavea.MutationLog
