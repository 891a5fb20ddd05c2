import Gavea.MutationLog.DiffCorrect
import Gavea.Lib.Runs

namespace Gavea.MutationLog

open Gavea.Lib Gavea.Lib.Js List

variable {α : Type}

section WellFormed

theorem wellFormed_optionalProperty {v : Value} (h : v.WellFormed) (key : JsString) :
    (optionalProperty v key).WellFormed := by
  cases v with
  | object members => exact Value.wellFormed_member h.2 key
  | undefined | null | bool | number | string | array => exact trivial

theorem property_eq {v w : Value} {key : JsString} (h : property v key = .ok w) :
    w = optionalProperty v key := by
  cases v with
  | undefined | null => cases h
  | bool | number | string | array | object => exact (Except.ok.inj h).symm

theorem wellFormed_diffNullish {path : ObjectPath} {prev curr : Value} (h : curr.WellFormed) :
    ∀ e ∈ diffNullish path prev curr, e.WellFormed := by
  intro e he
  unfold diffNullish at he
  split at he
  · cases he
  · cases he
  · obtain rfl := mem_singleton.mp he
    exact trivial
  · obtain rfl := mem_singleton.mp he
    exact h

theorem wellFormed_push {path : ObjectPath} {cs : List Value} (h : Value.ItemsWellFormed cs)
    (i : Option Nat) : ∀ e ∈ [Entry.push path (some cs) i], e.WellFormed := by
  intro e he
  obtain rfl := mem_singleton.mp he
  intro items hitems
  obtain rfl := Option.some.inj hitems
  exact h

theorem wellFormed_diffValues {equals : Value → Value → Bool} {path : ObjectPath} (ps : List Value) :
    ∀ (i : Nat) (cs : List Value), Value.ItemsWellFormed cs →
      ∀ e ∈ diffValues equals path i ps cs, e.WellFormed := by
  induction ps with
  | nil =>
    intro i cs h e he
    cases cs with
    | nil => cases he
    | cons c cs => exact wellFormed_push h none e he
  | cons p ps ih =>
    intro i cs h e he
    cases cs with
    | nil =>
      obtain rfl := mem_singleton.mp he
      intro items hitems
      cases hitems
    | cons c cs =>
      rw [diffValues] at he
      split at he
      · exact ih (i + 1) cs h.2 e he
      · exact wellFormed_push h (some i) e he

theorem wellFormed_diffItems {hasKeyMismatch : Value → Value → Except LogError Bool}
    {diffObject : ObjectPath → Value → Value → Except LogError (List Entry)} {path : ObjectPath}
    (hobject : ∀ path prev curr es, curr.WellFormed → diffObject path prev curr = .ok es →
      ∀ e ∈ es, e.WellFormed) (ps : List Value) :
    ∀ (i : Nat) (cs : List Value) (es : List Entry), Value.ItemsWellFormed cs →
      diffItems hasKeyMismatch diffObject path i ps cs = .ok es → ∀ e ∈ es, e.WellFormed := by
  induction ps with
  | nil =>
    intro i cs es h hdiff e he
    cases cs with
    | nil =>
      obtain rfl := Except.ok.inj hdiff
      cases he
    | cons c cs =>
      obtain rfl := Except.ok.inj hdiff
      exact wellFormed_push h none e he
  | cons p ps ih =>
    intro i cs es h hdiff e he
    cases cs with
    | nil =>
      obtain rfl := Except.ok.inj hdiff
      obtain rfl := mem_singleton.mp he
      intro items hitems
      cases hitems
    | cons c cs =>
      rw [diffItems] at hdiff
      cases hmismatch : hasKeyMismatch p c with
      | error e =>
        rw [hmismatch] at hdiff
        cases hdiff
      | ok mismatch =>
        rw [hmismatch] at hdiff
        cases mismatch with
        | true =>
          obtain rfl := Except.ok.inj hdiff
          exact wellFormed_push h (some i) e he
        | false =>
          rw [bind_ok, if_neg Bool.false_ne_true] at hdiff
          obtain ⟨entries, hentries, hdiff⟩ := exists_of_bind_eq_ok hdiff
          obtain ⟨rest, hrest, hdiff⟩ := exists_of_bind_eq_ok hdiff
          obtain rfl := Except.ok.inj hdiff
          rcases mem_append.mp he with he | he
          · exact hobject _ p c entries h.1 hentries e he
          · exact ih (i + 1) cs rest h.2 hrest e he

theorem wellFormed_diffObject {children : List (JsString × Transform α)}
    {isSealed : Option (Value → Bool → Bool)}
    {diffRest : ObjectPath → Value → Value → Except LogError (List Entry)} {path : ObjectPath}
    {prev curr : Value} {es : List Entry} (hcurr : curr.WellFormed)
    (hrest : diffRest path prev curr = .ok es → ∀ e ∈ es, e.WellFormed)
    (h : diffObject children isSealed diffRest path prev curr = .ok es) :
    ∀ e ∈ es, e.WellFormed := by
  rw [diffObject] at h
  obtain ⟨mismatch, -, h⟩ := exists_of_bind_eq_ok h
  intro e he
  split at h
  · obtain rfl := Except.ok.inj h
    obtain rfl := mem_singleton.mp he
    exact hcurr
  · split at h
    · obtain rfl := Except.ok.inj h
      cases he
    · exact hrest h e he

mutual

theorem wellFormed_diff : (t : Transform α) → ∀ {path : ObjectPath} {prev curr : Value}
    {es : List Entry}, curr.WellFormed → diff t path prev curr = .ok es → ∀ e ∈ es, e.WellFormed
  | .value _ _ equals, path, prev, curr, es, hcurr, h, e, he => by
      obtain rfl := Except.ok.inj h
      split at he
      · cases he
      · obtain rfl := mem_singleton.mp he
        exact hcurr
  | .values _ _ equals, path, prev, curr, es, hcurr, h, e, he => by
      unfold diff at h
      split at h
      · obtain rfl := Except.ok.inj h
        exact wellFormed_diffValues _ 0 _ hcurr e he
      · obtain rfl := Except.ok.inj h
        exact wellFormed_diffNullish hcurr e he
  | .objects _ _ children isSealed, path, prev, curr, es, hcurr, h, e, he => by
      unfold diff at h
      split at h
      · refine wellFormed_diffItems (fun path prev curr es hcurr h => ?_) _ 0 _ es hcurr h e he
        exact wellFormed_diffObject hcurr (fun h => wellFormed_diffChildren children hcurr h) h
      · obtain rfl := Except.ok.inj h
        exact wellFormed_diffNullish hcurr e he
  | .object _ children isSealed, path, prev, curr, es, hcurr, h, e, he => by
      rw [diff] at h
      split at h
      · obtain rfl := Except.ok.inj h
        exact wellFormed_diffNullish hcurr e he
      · exact wellFormed_diffObject hcurr (fun h => wellFormed_diffChildren children hcurr h) h e he

theorem wellFormed_diffChildren : (children : List (JsString × Transform α)) →
    ∀ {skipKeys : Bool} {path : ObjectPath} {prev curr : Value} {es : List Entry},
      curr.WellFormed → diffChildren children skipKeys path prev curr = .ok es →
      ∀ e ∈ es, e.WellFormed
  | [], _, _, _, _, _, _, h, e, he => by
      obtain rfl := Except.ok.inj h
      cases he
  | (key, t) :: children, skipKeys, path, prev, curr, es, hcurr, h, e, he => by
      rw [diffChildren] at h
      split at h
      · exact wellFormed_diffChildren children hcurr h e he
      · obtain ⟨currValue, hproperty, h⟩ := exists_of_bind_eq_ok h
        obtain ⟨entries, hentries, h⟩ := exists_of_bind_eq_ok h
        obtain ⟨rest, hrest, h⟩ := exists_of_bind_eq_ok h
        obtain rfl := Except.ok.inj h
        rcases mem_append.mp he with he | he
        · refine wellFormed_diff t ?_ hentries e he
          rw [property_eq hproperty]
          exact wellFormed_optionalProperty hcurr key
        · exact wellFormed_diffChildren children hcurr hrest e he

end

end WellFormed

/-- The log, the bytes in storage, and the extracted value of the last result that was applied. -/
structure World where
  log : Log
  stored : List UInt8
  confirmed : Option Value

inductive Call (α : Type)
  | createInitial (current : α) (isApplied : Bool)
  | write (current : α) (isApplied : Bool)

def Call.current : Call α → α
  | .createInitial current _ | .write current _ => current

namespace World

def empty : World := ⟨Log.empty, [], none⟩

/-- Replace truncates the file, append writes behind what is there. -/
def store (stored : List UInt8) : Op × List UInt8 → List UInt8
  | (.append, data) => stored ++ data
  | (.replace, data) => data

section Step

variable (maxStringLength : Nat) (transform : Transform α) (compactAfterEntries : Nat)

def step (w : World) : Call α → World
  | .createInitial current isApplied =>
    match isApplied, Log.createInitial maxStringLength transform current with
    | true, (.ok data, log) => ⟨log, data, some (transform.extract current)⟩
    | _, (_, log) => { w with log := log }
  | .write current isApplied =>
    match isApplied, Log.write maxStringLength transform compactAfterEntries w.log current with
    | true, (.ok result, log) => ⟨log.confirmWrite, store w.stored result, some (transform.extract current)⟩
    | _, (_, log) => { w with log := log }

def StartsAnew (log : Log) : Prop := log.previous.isTruthy = false ∨ log.entryCount > compactAfterEntries

instance (log : Log) : Decidable (StartsAnew compactAfterEntries log) := inferInstanceAs (Decidable (_ ∨ _))

/-- When the entries that are appended for a value can be read back. -/
def Appendable (w : World) (current : α) : Prop :=
  (∃ v ∈ w.confirmed, Value.Same w.log.previous v) ∧
    Rooted transform w.log.previous (transform.extract current) ∧
    ItemsStay transform w.log.previous (transform.extract current) ∧
    ∀ es, diff transform [] w.log.previous (transform.extract current) = .ok es → ∀ e ∈ es, Fits maxStringLength e

def Sound (w : World) : Call α → Prop
  | .createInitial current isApplied => isApplied = true → Fits maxStringLength (.initial (transform.extract current))
  | .write current isApplied =>
    isApplied = true →
      if StartsAnew compactAfterEntries w.log
      then Fits maxStringLength (.initial (transform.extract current))
      else Appendable maxStringLength transform w current

end Step

def Faithful (w : World) : Prop :=
  ∀ v ∈ w.confirmed, ∃ state log, Log.read w.stored = .ok (state, log) ∧ Value.Same state v

def Holds (stored : List UInt8) (v : Value) : Prop :=
  ∃ es state, es ≠ [] ∧ (∀ e ∈ es, e.WellFormed) ∧ stored = es.flatMap lineBytes ∧
    applyAll .undefined (es.map Entry.normal) = .ok state ∧ Value.Same state v

theorem Holds.faithful {w : World} (h : ∀ v ∈ w.confirmed, Holds w.stored v) : w.Faithful := by
  intro v hv
  obtain ⟨es, state, hne, hwf, hstored, hstate, hsame⟩ := h v hv
  exact ⟨state, _, hstored ▸ Log.read_lines hwf hne hstate, hsame⟩

theorem Holds.initial {v : Value} (h : v.WellFormed) : Holds (lineBytes (.initial v)) v := by
  refine ⟨[.initial v], v.normal, cons_ne_nil _ _, ?_, (flatMap_singleton _ _).symm, rfl, Value.same_normal h⟩
  intro e he
  obtain rfl := mem_singleton.mp he
  exact h

theorem Holds.append {t : Transform α} (ht : t.Lawful) {stored : List UInt8} {a b : α}
    (h : Holds stored (t.extract a)) (hroot : Rooted t (t.extract a) (t.extract b))
    (hsealed : SealedStable t (t.extract a) (t.extract b))
    (hitems : ItemsStay t (t.extract a) (t.extract b)) {es : List Entry}
    (hdiff : diff t [] (t.extract a) (t.extract b) = .ok es) :
    Holds (stored ++ es.flatMap lineBytes) (t.extract b) := by
  obtain ⟨es', state, hne, hwf, rfl, hstate, hsame⟩ := h
  obtain ⟨w, hw, hshows, -⟩ := diff_replays t ht a b state [] es (fun q => congrFun hsame q)
    (Or.inr hroot) hsealed hitems hdiff
  refine ⟨es' ++ es, w, append_ne_nil_of_left_ne_nil hne es, fun e he => ?_,
    flatMap_append.symm, ?_, funext hshows⟩
  · rcases mem_append.mp he with he | he
    · exact hwf e he
    · exact wellFormed_diff t (Transform.wellFormed_extract t ht b) hdiff e he
  · rw [map_append, applyAll_append, hstate]
    exact hw

theorem Holds.congr {stored : List UInt8} {v w : Value} (h : Holds stored v)
    (hsame : Value.Same v w) : Holds stored w := by
  obtain ⟨es, state, hne, hwf, hstored, hstate, hsame'⟩ := h
  exact ⟨es, state, hne, hwf, hstored, hstate, hsame'.trans hsame⟩

def Extracted (t : Transform α) (past : List (Call α)) (v : Value) : Prop :=
  v.isTruthy = true → ∃ c ∈ past, v = t.extract c.current

structure Consistent (t : Transform α) (past : List (Call α)) (w : World) : Prop where
  holds : ∀ v ∈ w.confirmed, Holds w.stored v
  extracted : Extracted t past w.log.previous

section Step

variable {maxStringLength : Nat} {t : Transform α} {compactAfterEntries : Nat}

theorem Extracted.mono {past : List (Call α)} {v : Value} (h : Extracted t past v) (c : Call α) :
    Extracted t (past ++ [c]) v := by
  intro hv
  obtain ⟨c', hc', hextract⟩ := h hv
  exact ⟨c', mem_append_left _ hc', hextract⟩

theorem Extracted.last (past : List (Call α)) (c : Call α) :
    Extracted t (past ++ [c]) (t.extract c.current) := fun _ =>
  ⟨c, mem_append_right _ (mem_singleton_self c), rfl⟩

theorem write_startsAnew {log : Log} (current : α) (h : StartsAnew compactAfterEntries log) :
    Log.write maxStringLength t compactAfterEntries log current =
      ((Log.line maxStringLength (.initial (t.extract current))).map fun data => (.replace, data),
        { log with pending := some (t.extract current, 1) }) := if_pos h

theorem write_previous (log : Log) (current : α) :
    (Log.write maxStringLength t compactAfterEntries log current).2.previous = log.previous := by
  unfold Log.write
  simp only
  split
  · rfl
  · split <;> rfl

theorem write_error {log : Log} {current : α} (h : ¬ StartsAnew compactAfterEntries log)
    {e : LogError} (hdiff : diff t [] log.previous (t.extract current) = .error e) :
    Log.write maxStringLength t compactAfterEntries log current = (.error e, log) := by
  unfold StartsAnew at h
  unfold Log.write
  simp only
  rw [if_neg h, hdiff]

theorem write_ok {log : Log} {current : α} (h : ¬ StartsAnew compactAfterEntries log)
    {es : List Entry} (hdiff : diff t [] log.previous (t.extract current) = .ok es)
    (hfits : ∀ e ∈ es, Fits maxStringLength e) :
    ∃ log', Log.write maxStringLength t compactAfterEntries log current =
        (.ok (.append, es.flatMap lineBytes), log') ∧
      (log'.confirmWrite.previous = log.previous ∨
        log'.confirmWrite.previous = t.extract current) := by
  unfold StartsAnew at h
  unfold Log.write
  simp only
  rw [if_neg h, hdiff]
  cases es with
  | nil => exact ⟨_, rfl, Or.inl rfl⟩
  | cons e es =>
    simp only [Log.lines_of_fits hfits]
    exact ⟨_, rfl, Or.inr rfl⟩

theorem createInitial_consistent (ht : t.Lawful) {past : List (Call α)} {w : World}
    (h : Consistent t past w) (current : α) (isApplied : Bool)
    (hsound : Sound maxStringLength t compactAfterEntries w (.createInitial current isApplied)) :
    Consistent t (past ++ [.createInitial current isApplied])
      (step maxStringLength t compactAfterEntries w (.createInitial current isApplied)) := by
  have hextracted : Extracted t (past ++ [.createInitial current isApplied]) (t.extract current) :=
    Extracted.last past (.createInitial current isApplied)
  cases isApplied with
  | false => exact ⟨h.holds, hextracted⟩
  | true =>
    simp only [step, Log.createInitial, Log.line_of_fits (hsound rfl)]
    refine ⟨fun v hv => ?_, hextracted⟩
    obtain rfl := Option.some.inj hv
    exact Holds.initial (Transform.wellFormed_extract t ht current)

theorem write_consistent (ht : t.Lawful) {past : List (Call α)} {w : World}
    (h : Consistent t past w) (current : α) (isApplied : Bool)
    (hsealed : ∀ c ∈ past, SealedStable t (t.extract c.current) (t.extract current))
    (hsound : Sound maxStringLength t compactAfterEntries w (.write current isApplied)) :
    Consistent t (past ++ [.write current isApplied])
      (step maxStringLength t compactAfterEntries w (.write current isApplied)) := by
  have hextracted : Extracted t (past ++ [.write current isApplied]) (t.extract current) :=
    Extracted.last past (.write current isApplied)
  have hprevious := h.extracted.mono (.write current isApplied)
  have hwf := Transform.wellFormed_extract t ht current
  cases isApplied with
  | false =>
    refine ⟨h.holds, ?_⟩
    show Extracted t _ (Log.write maxStringLength t compactAfterEntries w.log current).2.previous
    rw [write_previous]
    exact hprevious
  | true =>
    have hsound := hsound rfl
    by_cases hanew : StartsAnew compactAfterEntries w.log
    · rw [if_pos hanew] at hsound
      simp only [step, write_startsAnew current hanew, Log.line_of_fits hsound]
      refine ⟨fun v hv => ?_, hextracted⟩
      obtain rfl := Option.some.inj hv
      exact Holds.initial hwf
    · rw [if_neg hanew] at hsound
      obtain ⟨⟨v, hv, hsame⟩, hroot, hitems, hfits⟩ := hsound
      have htruthy : w.log.previous.isTruthy = true := by
        by_contra hfalse
        exact hanew (Or.inl (by simpa using hfalse))
      obtain ⟨c, hc, hc'⟩ := h.extracted htruthy
      rw [hc'] at hroot hitems hfits hsame
      cases hdiff : diff t [] (t.extract c.current) (t.extract current) with
      | error e =>
        simp only [step, write_error hanew (hc' ▸ hdiff)]
        exact ⟨h.holds, hprevious⟩
      | ok es =>
        have hholds := ((h.holds v hv).congr hsame.symm).append ht hroot (hsealed c hc) hitems hdiff
        obtain ⟨log, hwrite, hlog⟩ := write_ok hanew (hc' ▸ hdiff) (hfits es hdiff)
        simp only [step, hwrite]
        refine ⟨fun v hv => ?_, ?_⟩
        · obtain rfl := Option.some.inj hv
          exact hholds
        · rcases hlog with hlog | hlog
          · rw [hlog]
            exact hprevious
          · rw [hlog]
            exact hextracted

theorem step_consistent (ht : t.Lawful) {past : List (Call α)} {w : World} {c : Call α}
    (h : Consistent t past w)
    (hsealed : ∀ c' ∈ past, SealedStable t (t.extract c'.current) (t.extract c.current))
    (hsound : Sound maxStringLength t compactAfterEntries w c) :
    Consistent t (past ++ [c]) (step maxStringLength t compactAfterEntries w c) := by
  cases c with
  | createInitial current isApplied => exact createInitial_consistent ht h current isApplied hsound
  | write current isApplied => exact write_consistent ht h current isApplied hsealed hsound

end Step

section Run

variable (maxStringLength : Nat) (transform : Transform α) (compactAfterEntries : Nat)

def run (w : World) (calls : List (Call α)) : World :=
  calls.foldl (step maxStringLength transform compactAfterEntries) w

def EverySound : World → List (Call α) → Prop
  | _, [] => True
  | w, c :: calls =>
    Sound maxStringLength transform compactAfterEntries w c ∧
      EverySound (step maxStringLength transform compactAfterEntries w c) calls

def SealedOnce (calls : List (Call α)) : Prop :=
  calls.Pairwise fun c c' => SealedStable transform (transform.extract c.current) (transform.extract c'.current)

variable {maxStringLength transform compactAfterEntries}

theorem run_consistent (ht : transform.Lawful) (calls : List (Call α)) : ∀ (past : List (Call α))
    (w : World), Consistent transform past w → SealedOnce transform (past ++ calls) →
    EverySound maxStringLength transform compactAfterEntries w calls →
    Consistent transform (past ++ calls)
      (run maxStringLength transform compactAfterEntries w calls) := by
  induction calls with
  | nil =>
    intro past w h _ _
    rwa [append_nil]
  | cons c calls ih =>
    intro past w h hsealed hsound
    have hpast : ∀ c' ∈ past, SealedStable transform (transform.extract c'.current)
        (transform.extract c.current) := fun c' hc' =>
      (pairwise_append.mp hsealed).2.2 c' hc' c mem_cons_self
    rw [append_cons] at hsealed ⊢
    exact ih (past ++ [c]) _ (step_consistent ht h hpast hsound.1) hsealed hsound.2

def flag (key : Bool) (get : Bool → Bool) : Transform Bool :=
  .value key (fun b => ⟨.bool (get b), trivial⟩) fun v w => v.shape == w.shape

def idAndDone (id done : Bool → Bool) : Transform Bool :=
  Transform.ofSchema Source.some [(ofText "done", flag false done), (ofText "id", flag true id)] none

theorem idAndDone_eq (id done : Bool → Bool) :
    idAndDone id done = .object Source.some [(ofText "id", flag true id), (ofText "done", flag false done)] none := rfl

theorem flag_lawful (key : Bool) (get : Bool → Bool) : (flag key get).Lawful := by
  intro a b hequal
  exact congrArg Value.view (congrArg Value.bool (Shape.bool.inj (eq_of_beq hequal)))

theorem idAndDone_lawful (id done : Bool → Bool) : (idAndDone id done).Lawful := by
  rw [idAndDone_eq]
  refine ⟨?_, flag_lawful true id, flag_lawful false done, trivial⟩
  show [ofText "id", ofText "done"].Nodup
  decide

theorem idAndDone_compares {id done : Bool → Bool} {v w a b : Value} {inArray : Bool}
    {isSealed : Option (Value → Bool → Bool)}
    (h : Compares (idAndDone id done) v w inArray isSealed a b) :
    inArray = false ∧ isSealed = none := by
  rw [idAndDone_eq] at h
  cases h with
  | object => exact ⟨rfl, rfl⟩
  | child _ _ _ _ hmem hrest => rcases mem_pair.mp hmem with h | h <;> obtain ⟨-, rfl⟩ := Prod.mk.inj h <;> cases hrest

theorem idAndDone_sealedStable (id done : Bool → Bool) (v w : Value) :
    SealedStable (idAndDone id done) v w := by
  intro inArray isSealed a b h hareSealed
  obtain ⟨-, rfl⟩ := idAndDone_compares h
  cases hareSealed

theorem idAndDone_itemsStay (id done : Bool → Bool) (v w : Value) :
    ItemsStay (idAndDone id done) v w := by
  intro isSealed a b h
  cases (idAndDone_compares h).1

end Run

end World

end Gavea.MutationLog
