import Gavea.MutationLog.Replay

namespace Gavea.MutationLog

open Gavea.Lib Gavea.Lib.Js

variable {α : Type}

namespace Transform

mutual

/-- The keys of every object differ, and values that compare equal are the same. -/
def Lawful : Transform α → Prop
  | .value _ get equals => ∀ a b, equals (get a).1 (get b).1 = true → Value.Same (get a).1 (get b).1
  | .values _ getItem equals =>
    ∀ a b, equals (getItem a).1 (getItem b).1 = true → Value.Same (getItem a).1 (getItem b).1
  | .objects _ _ children _ => (children.map Prod.fst).Nodup ∧ ChildrenLawful children
  | .object _ children _ => (children.map Prod.fst).Nodup ∧ ChildrenLawful children

def ChildrenLawful : List (JsString × Transform α) → Prop
  | [] => True
  | (_, transform) :: children => transform.Lawful ∧ ChildrenLawful children

end

theorem ChildrenLawful.of_mem {children : List (JsString × Transform α)}
    (h : ChildrenLawful children) {key : JsString} {transform : Transform α}
    (hmem : (key, transform) ∈ children) : transform.Lawful := by
  induction children with
  | nil => exact absurd hmem List.not_mem_nil
  | cons c children ih =>
    rcases List.mem_cons.mp hmem with rfl | hrest
    · exact h.1
    · exact ih h.2 hrest

theorem keys_extractChildren (children : List (JsString × Transform α)) (obj : α) :
    (extractChildren children obj).map Prod.fst = children.map Prod.fst := by
  induction children with
  | nil => rfl
  | cons c children ih => rw [extractChildren, List.map_cons, List.map_cons, ih]

theorem member_extractChildren {children : List (JsString × Transform α)}
    (h : (children.map Prod.fst).Nodup) {key : JsString} {transform : Transform α}
    (hmem : (key, transform) ∈ children) (obj : α) :
    Value.member (extractChildren children obj) key = transform.extract obj := by
  induction children with
  | nil => exact absurd hmem List.not_mem_nil
  | cons c children ih =>
    obtain ⟨hnot, hchildren⟩ := List.nodup_cons.mp h
    rcases List.mem_cons.mp hmem with rfl | hrest
    · exact Value.member_cons_self _ _ _
    · have hne : c.1 ≠ key := by
        rintro rfl
        exact hnot (List.mem_map.mpr ⟨_, hrest, rfl⟩)
      exact (Value.member_cons_of_ne hne _ _).trans (ih hchildren hrest)

theorem member_extractChildren_of_not_mem {children : List (JsString × Transform α)}
    {key : JsString} (h : key ∉ children.map Prod.fst) (obj : α) :
    Value.member (extractChildren children obj) key = .undefined := by
  refine Value.member_of_not_mem ?_
  rwa [keys_extractChildren]

def extractItem (getItem : α → Source α) (children : List (JsString × Transform α)) (item : α) :
    Value :=
  match getItem item with
  | .undefined => .undefined
  | .null => .null
  | .some obj => .object (extractChildren children obj)

theorem itemsWellFormed_map {β : Type} {f : β → Value} (h : ∀ b, (f b).WellFormed) (l : List β) :
    Value.ItemsWellFormed (l.map f) := by
  induction l with
  | nil => exact trivial
  | cons b l ih => exact ⟨h b, ih⟩

mutual

theorem wellFormed_extract : (t : Transform α) → t.Lawful → ∀ a, (t.extract a).WellFormed
  | .value _ get _, _, a => (get a).2
  | .values get getItem _, _, a => by
      rw [extract]
      split
      · exact trivial
      · next items _ => exact itemsWellFormed_map (fun item => (getItem item).2) items
  | .objects get getItem children _, h, a => by
      rw [extract]
      split
      · exact trivial
      · next items _ =>
          refine itemsWellFormed_map (fun item => ?_) items
          split
          · exact trivial
          · exact trivial
          · next obj _ =>
              refine ⟨?_, wellFormed_extractChildren children h.2 obj⟩
              rw [keys_extractChildren]
              exact h.1
  | .object get children _, h, a => by
      rw [extract]
      split
      · exact trivial
      · exact trivial
      · next obj _ =>
          refine ⟨?_, wellFormed_extractChildren children h.2 obj⟩
          rw [keys_extractChildren]
          exact h.1

theorem wellFormed_extractChildren : (children : List (JsString × Transform α)) →
    ChildrenLawful children → ∀ obj, Value.MembersWellFormed (extractChildren children obj)
  | [], _, _ => trivial
  | (_, t) :: children, h, obj => ⟨wellFormed_extract t h.1 obj, wellFormed_extractChildren children h.2 obj⟩

end

end Transform

/-- The items that two arrays of objects have at one place, where their keys agree there and at
every place before. -/
inductive ItemPair (hasKeyMismatch : Value → Value → Except LogError Bool) :
    List Value → List Value → Value → Value → Prop
  | head {p c ps cs} (h : hasKeyMismatch p c = .ok false) : ItemPair hasKeyMismatch (p :: ps) (c :: cs) p c
  | tail {p c ps cs p' c'} (h : hasKeyMismatch p' c' = .ok false)
      (hrest : ItemPair hasKeyMismatch ps cs p c) :
      ItemPair hasKeyMismatch (p' :: ps) (c' :: cs) p c

/-- The pairs of objects that a diff compares field by field because their keys agree, with
whether they are items of an array and with the test for sealed ones. -/
inductive Compares : Transform α → Value → Value → Bool → Option (Value → Bool → Bool) →
    Value → Value → Prop
  | object {get children isSealed prev curr} (hprev : prev.isNullish = false)
      (hcurr : curr.isNullish = false) (h : hasKeyMismatch children prev curr = .ok false) :
      Compares (.object get children isSealed) prev curr false isSealed prev curr
  | child {get children isSealed prev curr key t inArray isSealed' a b}
      (hprev : prev.isNullish = false) (hcurr : curr.isNullish = false)
      (h : hasKeyMismatch children prev curr = .ok false)
      (hopen : areSealed isSealed prev curr = false) (hmem : (key, t) ∈ children)
      (hrest : Compares t (optionalProperty prev key) (optionalProperty curr key) inArray isSealed' a b) :
      Compares (.object get children isSealed) prev curr inArray isSealed' a b
  | item {get getItem children isSealed prevArr currArr prev curr}
      (h : ItemPair (hasKeyMismatch children) prevArr currArr prev curr) :
      Compares (.objects get getItem children isSealed) (.array prevArr) (.array currArr) true isSealed prev curr
  | itemChild {get getItem children isSealed prevArr currArr prev curr key t inArray isSealed' a b}
      (h : ItemPair (hasKeyMismatch children) prevArr currArr prev curr)
      (hopen : areSealed isSealed prev curr = false) (hmem : (key, t) ∈ children)
      (hrest : Compares t (optionalProperty prev key) (optionalProperty curr key) inArray isSealed' a b) :
      Compares (.objects get getItem children isSealed) (.array prevArr) (.array currArr) inArray isSealed' a b

def SealedStable (t : Transform α) (prev curr : Value) : Prop :=
  ∀ inArray isSealed a b, Compares t prev curr inArray isSealed a b → areSealed isSealed a b = true → Value.Same a b

/-- No item of an array of objects comes in the place of one that is null or undefined, or the
other way round, unless a key tells the two apart. -/
def ItemsStay (t : Transform α) (prev curr : Value) : Prop :=
  ∀ isSealed a b, Compares t prev curr true isSealed a b → a.isNullish = b.isNullish

def Replays (state : Value) (path : ObjectPath) (es : List Entry) (v : Value) : Prop :=
  ∃ w, applyAll state (es.map Entry.normal) = .ok w ∧ Shows w path v ∧ Frame path state w

theorem Replays.nil {state : Value} {path : ObjectPath} {v : Value} (h : Shows state path v) :
    Replays state path [] v := ⟨state, rfl, h, Frame.refl path state⟩

theorem Shows.congr {state : Value} {path : ObjectPath} {v w : Value} (h : Shows state path v)
    (hsame : Value.Same v w) : Shows state path w := fun q => (h q).trans (congrFun hsame q)

theorem shape_ne_undefined {state : Value} {path : ObjectPath}
    (h : (state.part path).shape = .object) : state.shape ≠ .undefined := by
  intro hshape
  rcases isContainer_of_part path (v := state) (Or.inl h) with h | ⟨n, h⟩ <;> rw [hshape] at h <;>
    cases h

theorem replays_set {state : Value} {path : ObjectPath} (name : JsString) {v : Value}
    (hv : v.WellFormed) (hobject : (state.part path).shape = .object) :
    Replays state (path ++ [.prop name]) [.set (path ++ [.prop name]) v] v := by
  obtain ⟨w, hw, hshows, hframe⟩ := applySet_spec name v.normal hobject
  refine ⟨w, ?_, hshows.congr (Value.same_normal hv), hframe⟩
  simp only [List.map_cons, List.map_nil, Entry.normal, applyAll, applyEntry,
    shape_ne_undefined hobject, if_false, hw, bind, Except.bind, pure, Except.pure]

theorem replays_delete {state : Value} {path : ObjectPath} (name : JsString)
    (hobject : (state.part path).shape = .object) :
    Replays state (path ++ [.prop name]) [.delete (path ++ [.prop name])] .undefined := by
  obtain ⟨w, hw, hshows, hframe⟩ := applySet_spec name .undefined hobject
  refine ⟨w, ?_, hshows, hframe⟩
  simp only [List.map_cons, List.map_nil, Entry.normal, applyAll, applyEntry,
    shape_ne_undefined hobject, if_false, hw, bind, Except.bind, pure, Except.pure]

theorem same_orNull_normal {v : Value} (h : v.WellFormed) :
    Value.Same v.orNull.normal.orNull v.orNull := by
  have hwf : v.orNull.WellFormed := by
    cases v with
    | undefined => exact trivial
    | null | bool | number | string | array | object => exact h
  have hsame := Value.same_normal hwf
  have horNull := hsame.orNull
  cases v <;> exact horNull

theorem replays_push {state : Value} {path : ObjectPath} {name : JsString} {front ps cs : List Value}
    (hobject : (state.part path).shape = .object)
    (hshows : Shows state (path ++ [.prop name]) (.array (front ++ ps)))
    (hcs : Value.ItemsWellFormed cs) {i : Option Nat} (hi : i = some front.length ∨ i = none ∧ ps = [])
    {values : Option (List Value)} (hvalues : values.getD [] = cs) :
    Replays state (path ++ [.prop name]) [.push (path ++ [.prop name]) values i]
      (.array (front ++ cs)) := by
  obtain ⟨w, items, hw, hitems, hresult, hframe⟩ := applyPush_spec hobject hshows
    (values.map fun items => items.map fun item => item.orNull.normal) i
  refine ⟨w, ?_, hresult.congr ?_, hframe⟩
  · simp only [List.map_cons, List.map_nil, Entry.normal, applyAll, applyEntry,
      shape_ne_undefined hobject, if_false, hw, bind, Except.bind, pure, Except.pure]
  · have hpushed : (values.map fun items => items.map fun item => item.orNull.normal).getD [] =
        cs.map fun item => item.orNull.normal := by
      rw [← hvalues]
      cases values <;> rfl
    have hkept : List.Forall₂ (fun x y => Value.Same x.orNull y.orNull) (setLength items i) front := by
      rcases hi with rfl | ⟨rfl, rfl⟩
      · have htake := List.forall₂_take front.length hitems
        rw [List.take_left] at htake
        have hlen := hitems.length_eq
        rw [List.length_append] at hlen
        rw [setLength, show front.length - items.length = 0 by omega, List.replicate_zero, List.append_nil]
        exact htake
      · rw [List.append_nil] at hitems
        exact hitems
    rw [hpushed, Value.same_array]
    refine List.rel_append hkept ?_
    rw [List.forall₂_map_left_iff, List.forall₂_same]
    exact fun item hitem => same_orNull_normal (Value.wellFormed_of_mem_items hcs hitem)

theorem Replays.append {state : Value} {path : ObjectPath} {es es' : List Entry} {w v : Value}
    (hw : applyAll state (es.map Entry.normal) = .ok w) (hframe : Frame path state w)
    (h : Replays w path es' v) : Replays state path (es ++ es') v := by
  obtain ⟨u, hu, hshows, hframe'⟩ := h
  refine ⟨u, ?_, hshows, hframe.trans hframe'⟩
  rw [List.map_append, applyAll_append, hw]
  exact hu

def CanPush (state : Value) (path : ObjectPath) : Prop :=
  ∃ p name, path = p ++ [.prop name] ∧ (state.part p).shape = .object

theorem CanPush.replays {state : Value} {path : ObjectPath} (h : CanPush state path)
    {front ps cs : List Value} (hshows : Shows state path (.array (front ++ ps)))
    (hcs : Value.ItemsWellFormed cs) {i : Option Nat} (hi : i = some front.length ∨ i = none ∧ ps = [])
    {values : Option (List Value)} (hvalues : values.getD [] = cs) :
    Replays state path [.push path values i] (.array (front ++ cs)) := by
  obtain ⟨p, name, rfl, hobject⟩ := h
  exact replays_push hobject hshows hcs hi hvalues

theorem Shows.snoc {state : Value} {path : ObjectPath} {front ps : List Value} {p c : Value}
    (h : Shows state path (.array (front ++ p :: ps))) (hsame : Value.Same p c) :
    Shows state path (.array ((front ++ [c]) ++ ps)) := by
  refine h.congr ?_
  rw [List.append_assoc, Value.same_array]
  have hself : ∀ items : List Value,
      List.Forall₂ (fun x y : Value => Value.Same x.orNull y.orNull) items items := fun items =>
    List.forall₂_same.mpr fun v _ => Value.Same.refl _
  exact List.rel_append (hself front) (List.Forall₂.cons hsame.orNull (hself ps))

theorem diffValues_replays {equals : Value → Value → Bool} {state : Value} {path : ObjectPath}
    (ps : List Value) : ∀ front cs : List Value,
    (∀ p ∈ ps, ∀ c ∈ cs, equals p c = true → Value.Same p c) → Value.ItemsWellFormed cs →
    Shows state path (.array (front ++ ps)) →
    (CanPush state path ∨ diffValues equals path front.length ps cs = []) →
    Replays state path (diffValues equals path front.length ps cs) (.array (front ++ cs)) := by
  induction ps with
  | nil =>
    intro front cs _ hcs hshows hpush
    cases cs with
    | nil => exact Replays.nil hshows
    | cons c cs =>
      rcases hpush with hpush | hnil
      · exact hpush.replays hshows hcs (Or.inr ⟨rfl, rfl⟩) rfl
      · cases hnil
  | cons p ps ih =>
    intro front cs heq hcs hshows hpush
    cases cs with
    | nil =>
      rcases hpush with hpush | hnil
      · exact hpush.replays hshows hcs (Or.inl rfl) rfl
      · cases hnil
    | cons c cs =>
      rw [diffValues] at hpush ⊢
      by_cases hequal : equals p c = true
      · rw [if_pos hequal] at hpush ⊢
        have hsame := heq p List.mem_cons_self c List.mem_cons_self hequal
        have hrest := ih (front ++ [c]) cs
          (fun p' hp' c' hc' => heq p' (List.mem_cons_of_mem p hp') c' (List.mem_cons_of_mem c hc'))
          hcs.2 (hshows.snoc hsame)
        rw [List.length_append, List.length_singleton, List.append_assoc] at hrest
        exact hrest hpush
      · rw [if_neg hequal] at hpush ⊢
        rcases hpush with hpush | hnil
        · exact hpush.replays hshows hcs (Or.inl rfl) rfl
        · cases hnil

theorem Shows.replace {state w : Value} {path : ObjectPath} {front ps : List Value} {p c : Value}
    (h : Shows state path (.array (front ++ p :: ps)))
    (hc : Shows w (path ++ [.index front.length]) c.orNull)
    (hframe : Frame (path ++ [.index front.length]) state w) :
    Shows w path (.array ((front ++ [c]) ++ ps)) := by
  intro q
  by_cases hq : path ++ [.index front.length] <+: path ++ q
  · obtain ⟨q', hq'⟩ := hq
    rw [List.append_assoc, List.append_cancel_left_eq] at hq'
    subst hq'
    have hview := hc q'
    rw [List.append_assoc] at hview
    rw [hview, List.singleton_append, Value.view, Value.view, Value.part_cons]
    show _ = (((((front ++ [c]) ++ ps)[front.length]?).map Value.orNull).getD .undefined).view q'
    rw [List.append_assoc, List.getElem?_append_right le_rfl, Nat.sub_self]
    rfl
  · rw [hframe _ hq, h q]
    cases q with
    | nil =>
      show Shape.array (front ++ p :: ps).length = Shape.array ((front ++ [c]) ++ ps).length
      simp
    | cons k q =>
      cases k with
      | prop name => rfl
      | index i =>
        have hi : i ≠ front.length := by
          rintro rfl
          exact hq ⟨q, by rw [List.append_assoc, List.singleton_append]⟩
        have hitem : (front ++ p :: ps)[i]? = ((front ++ [c]) ++ ps)[i]? := by
          rw [List.append_assoc]
          rcases lt_or_gt_of_ne hi with hlt | hgt
          · rw [List.getElem?_append_left hlt, List.getElem?_append_left hlt]
          · rw [List.getElem?_append_right hgt.le, List.getElem?_append_right hgt.le]
            obtain ⟨n, hn⟩ := Nat.exists_eq_add_of_lt hgt
            rw [show i - front.length = n + 1 by omega]
            rfl
        show ((((front ++ p :: ps)[i]?).map Value.orNull).getD .undefined).view q =
          (((((front ++ [c]) ++ ps)[i]?).map Value.orNull).getD .undefined).view q
        rw [hitem]

theorem Shows.item {state : Value} {path : ObjectPath} {front ps : List Value} {p : Value}
    (h : Shows state path (.array (front ++ p :: ps))) :
    Shows state (path ++ [.index front.length]) p.orNull := by
  intro q
  rw [List.append_assoc, List.singleton_append, h, Value.view, Value.part_cons]
  show ((((front ++ p :: ps)[front.length]?).map Value.orNull).getD .undefined).view q = _
  rw [List.getElem?_append_right le_rfl, Nat.sub_self]
  rfl

theorem CanPush.frame {state w : Value} {path : ObjectPath} (h : CanPush state path) {k : Key}
    (hframe : Frame (path ++ [k]) state w) : CanPush w path := by
  obtain ⟨p, name, rfl, hobject⟩ := h
  refine ⟨p, name, rfl, ?_⟩
  have hp : ¬ p ++ [.prop name] ++ [k] <+: p := by
    intro hp
    have hlen := hp.length_le
    simp only [List.length_append, List.length_singleton] at hlen
    omega
  exact (hframe p hp).trans hobject

theorem diffItems_replays {hasKeyMismatch : Value → Value → Except LogError Bool}
    {diffObject : ObjectPath → Value → Value → Except LogError (List Entry)} {path : ObjectPath}
    (ps : List Value) : ∀ (front cs : List Value) (state : Value) (es : List Entry),
    diffItems hasKeyMismatch diffObject path front.length ps cs = .ok es →
    (∀ p c, ItemPair hasKeyMismatch ps cs p c → ∀ i state es,
      diffObject (path ++ [.index i]) p c = .ok es → Shows state (path ++ [.index i]) p.orNull →
        Replays state (path ++ [.index i]) es c.orNull) →
    Value.ItemsWellFormed cs → Shows state path (.array (front ++ ps)) →
    (CanPush state path ∨ List.Forall₂ (fun p c => hasKeyMismatch p c = .ok false) ps cs) →
    Replays state path es (.array (front ++ cs)) := by
  induction ps with
  | nil =>
    intro front cs state es hdiff _ hcs hshows hpush
    cases cs with
    | nil =>
      obtain rfl := Except.ok.inj hdiff
      exact Replays.nil hshows
    | cons c cs =>
      obtain rfl := Except.ok.inj hdiff
      rcases hpush with hpush | hmatch
      · exact hpush.replays hshows hcs (Or.inr ⟨rfl, rfl⟩) rfl
      · cases hmatch
  | cons p ps ih =>
    intro front cs state es hdiff hpair hcs hshows hpush
    cases cs with
    | nil =>
      obtain rfl := Except.ok.inj hdiff
      rcases hpush with hpush | hmatch
      · exact hpush.replays hshows hcs (Or.inl rfl) rfl
      · cases hmatch
    | cons c cs =>
      rw [diffItems] at hdiff
      cases hmismatch : hasKeyMismatch p c with
      | error e =>
        rw [hmismatch] at hdiff
        cases hdiff
      | ok mismatch =>
        rw [hmismatch] at hdiff
        cases mismatch with
        | true =>
          obtain rfl := Except.ok.inj hdiff
          rcases hpush with hpush | hmatch
          · exact hpush.replays hshows hcs (Or.inl rfl) rfl
          · cases hmatch with
            | cons hfalse _ =>
              rw [hmismatch] at hfalse
              cases hfalse
        | false =>
          simp only [bind, Except.bind, Bool.false_eq_true, if_false] at hdiff
          cases hobject : diffObject (path ++ [.index front.length]) p c with
          | error e =>
            rw [hobject] at hdiff
            cases hdiff
          | ok entries =>
            rw [hobject] at hdiff
            simp only at hdiff
            cases hrest : diffItems hasKeyMismatch diffObject path (front.length + 1) ps cs with
            | error e =>
              rw [hrest] at hdiff
              cases hdiff
            | ok rest =>
              rw [hrest] at hdiff
              obtain rfl := Except.ok.inj hdiff
              have hitem : Shows state (path ++ [.index front.length]) p.orNull := hshows.item
              obtain ⟨w, hw, hc, hframe⟩ := hpair p c (ItemPair.head hmismatch) front.length state entries hobject hitem
              have hnext := ih (front ++ [c]) cs w rest
                (by rw [List.length_append, List.length_singleton]; exact hrest)
                (fun p' c' hp' => hpair p' c' (ItemPair.tail hmismatch hp')) hcs.2
                (hshows.replace hc hframe)
                (hpush.imp (fun h => h.frame hframe) fun h => (List.forall₂_cons.mp h).2)
              rw [List.append_assoc] at hnext
              exact Replays.append hw (hframe.of_prefix (List.prefix_append path _)) hnext

end Gavea.MutationLog
