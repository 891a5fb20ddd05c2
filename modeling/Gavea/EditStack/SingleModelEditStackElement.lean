import Gavea.EditStack.SingleModelEditStackData

namespace Gavea.EditStack

open Edits Lib.Js Wire VSBuffer SingleModelEditStackData List

namespace SingleModelEditStackData

def create (alternativeVersionId : Int) (eol : EndOfLineSequence)
    (beforeCursorState : Option (List Selection)) : SingleModelEditStackData :=
  ⟨alternativeVersionId, alternativeVersionId, eol, eol, beforeCursorState, beforeCursorState, []⟩

def append (d : SingleModelEditStackData) (textChanges : List TextChange)
    (afterEOL : EndOfLineSequence) (afterVersionId : Int)
    (afterCursorState : Option (List Selection)) : SingleModelEditStackData :=
  { d with
    changes := if textChanges.length > 0 then
      compressConsecutiveTextChanges (some d.changes) textChanges else d.changes
    afterEOL := afterEOL
    afterVersionId := afterVersionId
    afterCursorState := afterCursorState }

end SingleModelEditStackData

/-- `_data` of an element: it is serialized while the element is closed. -/
inductive ElementData
  | opened (data : SingleModelEditStackData)
  | closed (buffer : VSBuffer)

/-- A model whose end of line does not change, with an element of its edit stack. `undone` says
whether the element is to be redone. -/
structure EditedModel where
  text : JsString
  eol : EndOfLineSequence
  alternativeVersionId : Int
  undone : Bool
  data : ElementData

inductive ElementAction
  | pushEditOperation (textChanges : List TextChange) (afterVersionId : Int)
      (afterCursorState : Option (List Selection))
  | close
  | open
  | undo
  | redo

namespace EditedModel

def new (text : JsString) (eol : EndOfLineSequence) (alternativeVersionId : Int)
    (beforeCursorState : Option (List Selection)) : EditedModel :=
  ⟨text, eol, alternativeVersionId, false,
    .opened (SingleModelEditStackData.create alternativeVersionId eol beforeCursorState)⟩

def serialized : ElementData → VSBuffer
  | .opened d => d.serialize
  | .closed buffer => buffer

variable (decode : JsString → JsString)

def step (m : EditedModel) : ElementAction → Option EditedModel
  | .pushEditOperation textChanges afterVersionId afterCursorState =>
    match m.undone, m.data with
    | false, .opened d => some { m with
        text := applyForward textChanges m.text
        alternativeVersionId := afterVersionId
        data := .opened (d.append textChanges m.eol afterVersionId afterCursorState) }
    | _, _ => none
  | .close => if m.undone then none else some { m with data := .closed (serialized m.data) }
  | .open =>
    match m.undone, m.data with
    | false, .closed buffer => do
        let d ← deserialize decode buffer
        some { m with data := .opened d }
    | false, .opened _ => some m
    | true, _ => none
  | .undo =>
    if m.undone then none else do
      let buffer := serialized m.data
      let d ← deserialize decode buffer
      some ⟨applyBackward d.changes m.text, d.beforeEOL, d.beforeVersionId, true, .closed buffer⟩
  | .redo =>
    if m.undone then do
      let buffer := serialized m.data
      let d ← deserialize decode buffer
      some ⟨applyForward d.changes m.text, d.afterEOL, d.afterVersionId, false, .closed buffer⟩
    else none

def run : EditedModel → List ElementAction → Option EditedModel
  | m, [] => some m
  | m, action :: actions => do
      let m ← m.step decode action
      run m actions

/-- An edit reports well-formed changes of the text, and what is serialized can be read back. -/
def Sound (m : EditedModel) (action : ElementAction) : Prop :=
  (∀ textChanges version cursor, action = .pushEditOperation textChanges version cursor →
    WellFormed textChanges ∧ LeadsTo m.text (applyForward textChanges m.text) textChanges) ∧
  ∀ d, m.data = .opened d → action = .close ∨ action = .undo → Readable decode d

def EverySound : EditedModel → List ElementAction → Prop
  | _, [] => True
  | m, action :: actions => m.Sound decode action ∧ ∀ m', m.step decode action = some m' → EverySound m' actions

/-- The element holds data of changes that lead from the text to the other one, and the model is at
one of them. -/
structure Between (text0 : JsString) (eol : EndOfLineSequence) (version0 : Int) (m : EditedModel)
    (d : SingleModelEditStackData) (text1 : JsString) : Prop where
  changes : Describes 0 0 text0 text1 d.changes
  before : d.beforeVersionId = version0 ∧ d.beforeEOL = eol ∧ d.afterEOL = eol
  text : m.text = if m.undone then text0 else text1
  version : m.alternativeVersionId = if m.undone then version0 else d.afterVersionId
  eol : m.eol = eol
  data : (m.data = .opened d ∧ m.undone = false) ∨ (m.data = .closed d.serialize ∧ Readable decode d)

variable {decode} {text0 text1 : JsString} {eol : EndOfLineSequence} {version0 : Int}
  {m m' : EditedModel} {d : SingleModelEditStackData}

theorem deserialize_readable (h : Readable decode d) :
    deserialize decode d.serialize = some d.withSelections := by
  obtain ⟨hhead, hchanges⟩ := HasAt_serialize d
  have hread := readHead_eq hhead h
  obtain ⟨hat, -⟩ := HasAt.append_iff.mp hhead
  obtain ⟨hat, -⟩ := HasAt.append_iff.mp hat
  obtain ⟨hat, -⟩ := HasAt.append_iff.mp hat
  obtain ⟨hat, hafterEOL⟩ := HasAt.append_iff.mp hat
  obtain ⟨hat, hbeforeEOL⟩ := HasAt.append_iff.mp hat
  obtain ⟨hbefore, hafter⟩ := HasAt.append_iff.mp hat
  change d.serialize.HasAt 4 _ at hafter
  change d.serialize.HasAt (4 + 4) _ at hbeforeEOL
  change d.serialize.HasAt (4 + 4 + 1) _ at hafterEOL
  rw [SingleModelEditStackData.deserialize, ofValue_read hbeforeEOL, ofValue_read hafterEOL, hread,
    h.beforeVersionId.read hbefore, h.afterVersionId.read hafter]
  simp only [Option.bind_eq_bind, Option.bind_some]
  rw [readChanges_eq hchanges (even_length_headBytes d) h.changes, Option.bind_some, nil_append, withSelections]

theorem describes_append {text2 : JsString} {textChanges : List TextChange}
    (h : Describes 0 0 text0 text1 d.changes) (hcurr : Describes 0 0 text1 text2 textChanges)
    (version : Int) (cursor : Option (List Selection)) :
    Describes 0 0 text0 text2 (d.append textChanges eol version cursor).changes := by
  change Describes 0 0 text0 text2 (if textChanges.length > 0 then _ else _)
  split_ifs with hpos
  · cases hd : d.changes with
    | nil =>
      rw [hd] at h
      exact (h : text0 = text1) ▸ hcurr
    | cons prevEdit prev => exact TextChangeCompressor.compress_describes (hd ▸ h) hcurr
  · obtain rfl := length_eq_zero_iff.mp (Nat.eq_zero_of_not_pos hpos)
    exact (hcurr : text1 = text2) ▸ h

theorem Between.serialized (h : Between decode text0 eol version0 m d text1)
    (hreadable : ∀ d, m.data = .opened d → Readable decode d) :
    serialized m.data = d.serialize ∧ Readable decode d := by
  rcases h.data with ⟨hdata, -⟩ | ⟨hdata, hread⟩
  · rw [hdata]
    exact ⟨rfl, hreadable d hdata⟩
  · rw [hdata]
    exact ⟨rfl, hread⟩

theorem Between.undo (h : Between decode text0 eol version0 m d text1)
    (hreadable : ∀ d, m.data = .opened d → Readable decode d) (hundone : m.undone = false) :
    m.step decode .undo = some ⟨text0, eol, version0, true, .closed d.serialize⟩ := by
  obtain ⟨hdata, hread⟩ := h.serialized hreadable
  have htext := h.text
  rw [hundone] at htext
  rw [step, hundone, hdata]
  simp only [Option.bind_eq_bind, Bool.false_eq_true, if_false, deserialize_readable hread, Option.bind_some,
    withSelections, htext, h.changes.splice_eq.2, applyBackward, h.before.1, h.before.2.1]

theorem Between.redo (h : Between decode text0 eol version0 m d text1)
    (hundone : m.undone = true) : m.step decode .redo =
      some ⟨text1, eol, d.afterVersionId, false, .closed d.serialize⟩ := by
  obtain ⟨hdata, hread⟩ := h.serialized fun d' hd' => by
    rcases h.data with ⟨-, hfalse⟩ | ⟨hdata, -⟩
    · exact absurd (hundone.symm.trans hfalse) (by decide)
    · exact nomatch hd'.symm.trans hdata
  have htext := h.text
  rw [hundone] at htext
  rw [step, hundone, hdata]
  simp only [Option.bind_eq_bind, if_true, deserialize_readable hread, Option.bind_some,
    withSelections, htext, h.changes.splice_eq.1, applyForward, h.before.2.2]

theorem new_between (text0 : JsString) (eol : EndOfLineSequence) (version0 : Int)
    (cursor : Option (List Selection)) : Between decode text0 eol version0
      (new text0 eol version0 cursor) (create version0 eol cursor) text0 :=
  ⟨rfl, ⟨rfl, rfl, rfl⟩, rfl, rfl, rfl, .inl ⟨rfl, rfl⟩⟩

theorem Between.step (h : Between decode text0 eol version0 m d text1) {action : ElementAction}
    (hsound : m.Sound decode action) (hstep : m.step decode action = some m') :
    ∃ d' text1', Between decode text0 eol version0 m' d' text1' := by
  cases action with
  | pushEditOperation textChanges version cursor =>
    rcases h.data with ⟨hdata, hundone⟩ | ⟨hdata, -⟩
    · rw [EditedModel.step, hdata, hundone] at hstep
      obtain rfl := Option.some.inj hstep
      have htext := h.text
      rw [hundone] at htext
      obtain rfl : m.text = text1 := htext
      obtain ⟨hwf, hleads⟩ := hsound.1 textChanges version cursor rfl
      exact ⟨_, _, describes_append h.changes (describes_of_leadsTo hwf hleads) version cursor,
        ⟨h.before.1, h.before.2.1, h.eol⟩, rfl, rfl, h.eol, .inl ⟨rfl, rfl⟩⟩
    · rw [EditedModel.step, hdata] at hstep
      cases hundone : m.undone <;> rw [hundone] at hstep <;> exact nomatch hstep
  | close =>
    rw [EditedModel.step] at hstep
    split at hstep
    · exact nomatch hstep
    · obtain rfl := Option.some.inj hstep
      obtain ⟨hdata, hread⟩ := h.serialized fun d hd => hsound.2 d hd (.inl rfl)
      exact ⟨d, text1, h.changes, h.before, h.text, h.version, h.eol, .inr ⟨by rw [hdata], hread⟩⟩
  | «open» =>
    rcases h.data with ⟨hdata, hundone⟩ | ⟨hdata, hread⟩
    · rw [EditedModel.step, hdata, hundone] at hstep
      obtain rfl := Option.some.inj hstep
      exact ⟨d, text1, h⟩
    · cases hundone : m.undone with
      | true =>
        rw [EditedModel.step, hundone] at hstep
        exact nomatch hstep
      | false =>
        rw [EditedModel.step, hdata, hundone] at hstep
        obtain ⟨d', hd', hm'⟩ := Option.bind_eq_some_iff.mp hstep
        obtain rfl := Option.some.inj ((deserialize_readable hread).symm.trans hd')
        obtain rfl := Option.some.inj hm'
        have htext := h.text
        have hversion := h.version
        rw [hundone] at htext hversion
        exact ⟨d.withSelections, text1, h.changes, h.before, htext, hversion, h.eol, .inl ⟨rfl, rfl⟩⟩
  | undo =>
    cases hundone : m.undone with
    | true =>
      rw [EditedModel.step, hundone] at hstep
      exact nomatch hstep
    | false =>
      have hreadable := fun d hd => hsound.2 d hd (.inr rfl)
      rw [h.undo hreadable hundone] at hstep
      obtain rfl := Option.some.inj hstep
      exact ⟨d, text1, h.changes, h.before, rfl, rfl, rfl, .inr ⟨rfl, (h.serialized hreadable).2⟩⟩
  | redo =>
    cases hundone : m.undone with
    | true =>
      rw [h.redo hundone] at hstep
      obtain rfl := Option.some.inj hstep
      refine ⟨d, text1, h.changes, h.before, rfl, rfl, rfl, .inr ⟨rfl, ?_⟩⟩
      rcases h.data with ⟨-, hfalse⟩ | ⟨-, hread⟩
      · exact absurd (hundone.symm.trans hfalse) (by decide)
      · exact hread
    | false =>
      rw [EditedModel.step, hundone] at hstep
      exact nomatch hstep

theorem Between.run (h : Between decode text0 eol version0 m d text1) {actions : List ElementAction}
    (hsound : EverySound decode m actions) (hrun : m.run decode actions = some m') :
    ∃ d' text1', Between decode text0 eol version0 m' d' text1' := by
  induction actions generalizing m d text1 with
  | nil =>
    obtain rfl := Option.some.inj hrun
    exact ⟨d, text1, h⟩
  | cons action actions ih =>
    obtain ⟨m1, hstep, hrest⟩ := Option.bind_eq_some_iff.mp hrun
    obtain ⟨d1, text2, h1⟩ := h.step hsound.1 hstep
    exact ih h1 (hsound.2 m1 hstep) hrest

/-- "a" becomes "bc", and the element is closed. -/
def replaceAndClose : List ElementAction := [.pushEditOperation [⟨0, [97], 0, [98, 99]⟩] 2 none, .close]

end EditedModel

end Gavea.EditStack
