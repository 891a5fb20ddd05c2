import Gavea.Lib.Js

namespace Gavea.Snippet

open Gavea.Lib.Js

inductive TokenType
  | dollar
  | colon
  | comma
  | curlyOpen
  | curlyClose
  | backslash
  | forwardslash
  | pipe
  | int
  | variableName
  | format
  | plus
  | dash
  | questionMark
  deriving DecidableEq

structure Token where
  type : TokenType
  text : JsString

namespace Scanner

def table : List (CodeUnit × TokenType) :=
  [(0x24, .dollar), (0x3A, .colon), (0x2C, .comma), (0x7B, .curlyOpen), (0x7D, .curlyClose), (0x5C, .backslash),
    (0x2F, .forwardslash), (0x7C, .pipe), (0x2B, .plus), (0x2D, .dash), (0x3F, .questionMark)]

def isDigitCharacter (ch : CodeUnit) : Bool := 0x30 ≤ ch && ch ≤ 0x39

def isVariableCharacter (ch : CodeUnit) : Bool := ch = 0x5F || (0x61 ≤ ch && ch ≤ 0x7A) || (0x41 ≤ ch && ch ≤ 0x5A)

def isNameCharacter (ch : CodeUnit) : Bool := isVariableCharacter ch || isDigitCharacter ch

def isFormatCharacter (ch : CodeUnit) : Bool :=
  (table.lookup ch).isNone && !isDigitCharacter ch && !isVariableCharacter ch

def run (type : TokenType) (goesOn : CodeUnit → Bool) (ch : CodeUnit) (value : JsString) :
    Token × JsString :=
  (⟨type, ch :: value.takeWhile goesOn⟩, value.dropWhile goesOn)

def next (ch : CodeUnit) (value : JsString) : Token × JsString :=
  match table.lookup ch with
  | some type => (⟨type, [ch]⟩, value)
  | none =>
    if isDigitCharacter ch then run .int isDigitCharacter ch value
    else if isVariableCharacter ch then run .variableName isNameCharacter ch value
    else run .format isFormatCharacter ch value

theorem length_next_le (ch : CodeUnit) (value : JsString) :
    (next ch value).2.length ≤ value.length := by
  rw [next]
  split
  · exact le_rfl
  · split_ifs
    all_goals exact (List.dropWhile_sublist _).length_le

/-- What `next` gives from the start of a text on. -/
def tokens : JsString → List Token
  | [] => []
  | ch :: value => (next ch value).1 :: tokens (next ch value).2
  termination_by value => value.length
  decreasing_by exact Nat.lt_succ_of_le (length_next_le ch value)

end Scanner

abbrev Number := WithTop Nat

def toNumber (digits : JsString) : Number :=
  let n := digits.foldl (fun n ch => 10 * n + (ch.toNat - 0x30)) 0
  let unit := 2 ^ (n.log2 + 1 - 53)
  let up := unit < 2 * (n % unit) ∨ unit = 2 * (n % unit) ∧ n / unit % 2 = 1
  let rounded := if up then (n / unit + 1) * unit else n / unit * unit
  if rounded < 2 ^ 1024 then some rounded else ⊤

/-- The regular expressions of the language. The constructor gives none where it throws. -/
structure RegExpClass (R : Type) where
  new : (pattern flags : JsString) → Option R
  source : R → JsString
  ignoreCase : R → Bool
  global : R → Bool

/-- The children of a transform. -/
inductive FormatItem
  | Text (value : JsString)
  | FormatString (index : Number) (shorthandName ifValue elseValue : Option JsString)

structure Transform (R : Type) where
  regexp : R
  children : List FormatItem

/-- The markers that never have children; of the options of a choice the values. -/
inductive LeafKind
  | Text (value : JsString)
  | Choice (options : List JsString)

inductive InnerKind (R : Type)
  | Placeholder (index : Number) (transform : Option (Transform R))
  | Variable (name : JsString) (transform : Option (Transform R))

inductive Marker (R : Type)
  | leaf (id : Nat) (parent : Option Nat) (kind : LeafKind)
  | inner (id : Nat) (parent : Option Nat) (kind : InnerKind R) (children : List (Marker R))

variable {R : Type}

namespace Marker

def id : Marker R → Nat
  | leaf id _ _ => id
  | inner id _ _ _ => id

def children : Marker R → List (Marker R)
  | leaf _ _ _ => []
  | inner _ _ _ children => children

def setParent (parent : Nat) : Marker R → Marker R
  | leaf id _ kind => leaf id (some parent) kind
  | inner id _ kind children => inner id (some parent) kind children

end Marker

def appendChild (id : Nat) (children : List (Marker R)) (child : Marker R) : List (Marker R) :=
  match children.getLast?, child with
  | some (.leaf last parent (.Text before)), .leaf _ _ (.Text value) =>
    children.dropLast ++ [.leaf last parent (.Text (before ++ value))]
  | _, _ => children ++ [child.setParent id]

def LeafKind.toString : LeafKind → JsString
  | Text value => value
  | Choice options => options.headD []

mutual

def Marker.toString : Marker R → JsString
  | .leaf _ _ kind => kind.toString
  | .inner _ _ _ children => toStrings children

def toStrings : List (Marker R) → JsString
  | [] => []
  | child :: children => child.toString ++ toStrings children

end

def LeafKind.len : LeafKind → Nat
  | Text value => value.length
  | Choice options => (options.headD []).length

def Marker.len : Marker R → Nat
  | leaf _ _ kind => kind.len
  | inner _ _ _ _ => 0

def Transform.clone (regExp : RegExpClass R) (transform : Transform R) : Option (Transform R) := do
  let flags := (if regExp.ignoreCase transform.regexp then [0x69] else []) ++
    (if regExp.global transform.regexp then [0x67] else [])
  let regexp ← regExp.new (regExp.source transform.regexp) flags
  return ⟨regexp, transform.children⟩

def cloneTransform (regExp : RegExpClass R) :
    Option (Transform R) → Option (Option (Transform R))
  | none => some none
  | some transform => (transform.clone regExp).map some

def InnerKind.clone (regExp : RegExpClass R) : InnerKind R → Option (InnerKind R)
  | Placeholder index transform => (cloneTransform regExp transform).map fun transform => Placeholder index transform
  | Variable name transform => (cloneTransform regExp transform).map fun transform => Variable name transform

mutual

def Marker.clone (regExp : RegExpClass R) : Marker R → (nextId : Nat) → Option (Marker R × Nat)
  | .leaf _ _ kind, nextId => some (.leaf nextId none kind, nextId + 1)
  | .inner _ _ kind children, nextId => do
      let kind ← kind.clone regExp
      let (children, next) ← cloneAll regExp children (nextId + 1)
      return (.inner nextId none kind children, next)

def cloneAll (regExp : RegExpClass R) :
    List (Marker R) → (nextId : Nat) → Option (List (Marker R) × Nat)
  | [], nextId => some ([], nextId)
  | child :: children, nextId => do
      let (child, nextId) ← child.clone regExp nextId
      let (children, nextId) ← cloneAll regExp children nextId
      return (child :: children, nextId)

end

mutual

def Marker.fixParent (parent : Nat) : Marker R → Marker R
  | .leaf id _ kind => .leaf id (some parent) kind
  | .inner id _ kind children => .inner id (some parent) kind (fixParents id children)

def fixParents (parent : Nat) : List (Marker R) → List (Marker R)
  | [] => []
  | child :: children => child.fixParent parent :: fixParents parent children

end

def spliceChild (child : Nat) (others children : List (Marker R)) : List (Marker R) :=
  let idx := (children.findIdx? fun c => c.id == child).getD (children.length - 1)
  children.take idx ++ others ++ children.drop (idx + 1)

mutual

def Marker.replace (parent child : Nat) (others : List (Marker R)) : Marker R → Marker R
  | .leaf id grandparent kind => .leaf id grandparent kind
  | .inner id grandparent kind children =>
    .inner id grandparent kind
      (if id = parent then spliceChild child (fixParents parent others) children
      else replaceBelow parent child others children)

def replaceBelow (parent child : Nat) (others : List (Marker R)) :
    List (Marker R) → List (Marker R)
  | [] => []
  | marker :: markers => marker.replace parent child others :: replaceBelow parent child others markers

end

mutual

def Marker.count : Marker R → Nat
  | .leaf _ _ _ => 1
  | .inner _ _ _ children => countAll children + 1

def countAll : List (Marker R) → Nat
  | [] => 0
  | child :: children => child.count + countAll children

end

theorem Marker.count_eq (marker : Marker R) : marker.count = countAll marker.children + 1 := by
  cases marker with
  | leaf id parent kind => rfl
  | inner id parent kind children => rfl

theorem countAll_append (l l' : List (Marker R)) :
    countAll (l ++ l') = countAll l + countAll l' := by
  induction l with
  | nil => rw [List.nil_append, countAll, Nat.zero_add]
  | cons marker l ih => rw [List.cons_append, countAll, countAll, ih, Nat.add_assoc]

def walk {S : Type} (visitor : S → Marker R → S × Bool) : (stack : List (Marker R)) → S → S
  | [], state => state
  | marker :: stack, state =>
    let (state, recurse) := visitor state marker
    if recurse then walk visitor (marker.children ++ stack) state else state
  termination_by stack => countAll stack
  decreasing_by
    rw [countAll_append, countAll, marker.count_eq]
    exact Nat.add_lt_add_right (Nat.lt_succ_self _) _

structure TextmateSnippet (R : Type) where
  children : List (Marker R)
  nextId : Nat

namespace TextmateSnippet

def new : TextmateSnippet R := ⟨[], 1⟩

def toString (snippet : TextmateSnippet R) : JsString := toStrings snippet.children

def placeholders (snippet : TextmateSnippet R) : List (Marker R) :=
  walk (fun all candidate =>
    match candidate with
    | .inner _ _ (.Placeholder ..) _ => (all ++ [candidate], true)
    | _ => (all, true)) snippet.children []

def offset (snippet : TextmateSnippet R) (marker : Marker R) : Int :=
  let (pos, found) := walk (fun (pos, found) candidate =>
    if candidate.id = marker.id then ((pos, true), false)
    else ((pos + candidate.len, found), true)) snippet.children ((0 : Nat), false)
  if found then pos else -1

def fullLen (marker : Marker R) : Nat := walk (fun ret (marker : Marker R) => (ret + marker.len, true)) [marker] 0

end TextmateSnippet

end Gavea.Snippet

namespace Gavea.Snippet

open Gavea.Lib.Js

/-- `replace(/\$|}|\\/g, '\\$&')`. -/
def escape (value : JsString) : JsString :=
  value.flatMap fun ch => if ch = 0x24 ∨ ch = 0x7D ∨ ch = 0x5C then [0x5C, ch] else [ch]

variable {R : Type}

/-- What a parsing function hands to `appendChild`, the tokens behind it and the number of the next
marker. Where it fails the parser goes back to the token that it started from. -/
abbrev Parsed (R : Type) := List (Marker R) × List Token × Nat

namespace SnippetParser

def accept (type : TokenType) : List Token → Option (JsString × List Token)
  | [] => none
  | token :: ts => if token.type = type then some (token.text, ts) else none

/-- The string without the escapes of an if or else value, `replace(/\\(\$|}|\\)/g, '$1')`. -/
def unescape : JsString → JsString
  | [] => []
  | [ch] => [ch]
  | ch :: ch' :: value =>
    if ch = 0x5C ∧ (ch' = 0x24 ∨ ch' = 0x7D ∨ ch' = 0x5C) then ch' :: unescape value
    else ch :: unescape (ch' :: value)

def untilLoop (type : TokenType) : List Token → Option (JsString × List Token)
  | [] => none
  | token :: ts =>
    if token.type = type then some ([], ts)
    else if token.type = .backslash then
      match ts with
      | [] => none
      | nextToken :: ts =>
        if nextToken.type = .dollar ∨ nextToken.type = .curlyClose ∨
            nextToken.type = .backslash then
          (untilLoop type ts).map fun (value, ts) => (token.text ++ nextToken.text ++ value, ts)
        else none
    else (untilLoop type ts).map fun (value, ts) => (token.text ++ value, ts)

/-- `_until`; the empty value counts as none. -/
def untilToken (type : TokenType) (ts : List Token) : Option (JsString × List Token) :=
  match untilLoop type ts with
  | none => none
  | some (value, ts) => if value = [] then none else some (unescape value, ts)

def parseEscaped (ts : List Token) (nextId : Nat) : Option (Parsed R) :=
  match accept .backslash ts with
  | none => none
  | some (value, ts) =>
    let (value, ts) := (accept .dollar ts <|> accept .curlyClose ts <|> accept .backslash ts).getD
      (value, ts)
    some ([.leaf nextId none (.Text value)], ts, nextId + 1)

def parseTabstopOrVariableName (ts : List Token) (nextId : Nat) : Option (Parsed R) := do
  let (_, ts) ← accept .dollar ts
  let (value, ts) ← accept .variableName ts <|> accept .int ts
  let kind : InnerKind R :=
    if value.all Scanner.isDigitCharacter then .Placeholder (toNumber value) none
    else .Variable value none
  return ([.inner nextId none kind []], ts, nextId + 1)

def choiceElementLoop : List Token → List JsString → Option (List JsString × List Token)
  | [], _ => none
  | token :: ts, values =>
    if token.type = .comma ∨ token.type = .pipe then some (values, token :: ts)
    else if token.type = .backslash then
      match ts with
      | [] => choiceElementLoop [] (values ++ [token.text])
      | token' :: ts' =>
        if token'.type = .comma ∨ token'.type = .pipe ∨ token'.type = .backslash then
          choiceElementLoop ts' (values ++ [token'.text])
        else choiceElementLoop (token' :: ts') (values ++ [token.text])
    else choiceElementLoop ts (values ++ [token.text])

def parseChoiceElement (ts : List Token) : Option (JsString × List Token) := do
  let (values, ts) ← choiceElementLoop ts []
  if values.length = 0 then none else return (values.flatten, ts)

def choiceLoop : (fuel : Nat) → (options : List JsString) → List Token →
    Option (List JsString × List Token)
  | 0, _, _ => none
  | fuel + 1, options, ts => do
      let (option, ts) ← parseChoiceElement ts
      match accept .comma ts with
      | some (_, ts) => choiceLoop fuel (options ++ [option]) ts
      | none => do
          let (_, ts) ← accept .pipe ts
          let (_, ts) ← accept .curlyClose ts
          return (options ++ [option], ts)

def appendItem (children : List FormatItem) (child : FormatItem) : List FormatItem :=
  match children.getLast?, child with
  | some (.Text before), .Text value => children.dropLast ++ [.Text (before ++ value)]
  | _, _ => children ++ [child]

def parseFormatString (ts : List Token) : Option (FormatItem × List Token) := do
  let (_, ts) ← accept .dollar ts
  let (complex, ts) := match accept .curlyOpen ts with
    | some (_, ts) => (true, ts)
    | none => (false, ts)
  let (digits, ts) ← accept .int ts
  let index := toNumber digits
  if !complex then return (.FormatString index none none none, ts)
  match accept .curlyClose ts with
  | some (_, ts) => return (.FormatString index none none none, ts)
  | none => do
      let (_, ts) ← accept .colon ts
      match accept .forwardslash ts, accept .plus ts, accept .dash ts, accept .questionMark ts with
      | some (_, ts), _, _, _ => do
          let (shorthand, ts) ← accept .variableName ts
          let (_, ts) ← accept .curlyClose ts
          return (.FormatString index shorthand none none, ts)
      | _, some (_, ts), _, _ => do
          let (ifValue, ts) ← untilToken .curlyClose ts
          return (.FormatString index none ifValue none, ts)
      | _, _, some (_, ts), _ => do
          let (elseValue, ts) ← untilToken .curlyClose ts
          return (.FormatString index none none elseValue, ts)
      | _, _, _, some (_, ts) => do
          let (ifValue, ts) ← untilToken .colon ts
          let (elseValue, ts) ← untilToken .curlyClose ts
          return (.FormatString index none ifValue elseValue, ts)
      | none, none, none, none => do
          let (elseValue, ts) ← untilToken .curlyClose ts
          return (.FormatString index none none elseValue, ts)

/-- Part (1) of `_parseTransform`. -/
def regexLoop : List Token → (regexValue : JsString) → Option (JsString × List Token)
  | [], _ => none
  | token :: ts, regexValue =>
    if token.type = .forwardslash then some (regexValue, ts)
    else if token.type = .backslash then
      match ts with
      | [] => none
      | token' :: ts' =>
        if token'.type = .forwardslash then regexLoop ts' (regexValue ++ token'.text)
        else regexLoop (token' :: ts') (regexValue ++ token.text)
    else regexLoop ts (regexValue ++ token.text)

/-- One turn of part (2) of `_parseTransform`. -/
def parseFormatItem (ts : List Token) : Option (FormatItem × List Token) :=
  match accept .backslash ts with
  | some (escaped, ts) =>
    let (escaped, ts) := (accept .backslash ts <|> accept .forwardslash ts).getD (escaped, ts)
    some (.Text escaped, ts)
  | none =>
    parseFormatString ts <|>
      match ts with
      | [] => none
      | token :: ts => some (.Text token.text, ts)

/-- Part (2) of `_parseTransform`. -/
def formatLoop : (fuel : Nat) → List Token → List FormatItem → Option (List FormatItem × List Token)
  | 0, _, _ => none
  | fuel + 1, ts, children =>
    match accept .forwardslash ts with
    | some (_, ts) => some (children, ts)
    | none => do
        let (item, ts) ← parseFormatItem ts
        formatLoop fuel ts (appendItem children item)

/-- Part (3) of `_parseTransform`. -/
def optionLoop : List Token → (regexOptions : JsString) → Option (JsString × List Token)
  | [], _ => none
  | token :: ts, regexOptions =>
    if token.type = .curlyClose then some (regexOptions, ts)
    else optionLoop ts (regexOptions ++ token.text)

section Parse

variable (regExp : RegExpClass R)

def parseTransform (ts : List Token) : Option (Transform R × List Token) := do
  let (regexValue, ts) ← regexLoop ts []
  let (children, ts) ← formatLoop (ts.length + 1) ts []
  let (regexOptions, ts) ← optionLoop ts []
  let regexp ← regExp.new regexValue regexOptions
  return (⟨regexp, children⟩, ts)

def afterColon (parseDefault : (id : Nat) → List Token → Nat →
      List (Marker R) × List Token × Nat × Bool) (start : JsString) (kind : InnerKind R)
    (ts : List Token) (nextId : Nat) : Option (Parsed R) :=
  match parseDefault nextId ts (nextId + 1) with
  | (children, ts, next, true) => some ([.inner nextId none kind children], ts, next)
  | (children, ts, next, false) =>
    some (.leaf next none (.Text ([0x24, 0x7B] ++ start ++ [0x3A])) :: children, ts, next + 1)

def parseComplexPlaceholder (parseDefault : (id : Nat) → List Token → Nat →
      List (Marker R) × List Token × Nat × Bool) (ts : List Token) (nextId : Nat) :
    Option (Parsed R) := do
  let (_, ts) ← accept .dollar ts
  let (_, ts) ← accept .curlyOpen ts
  let (digits, ts) ← accept .int ts
  let index := toNumber digits
  match accept .colon ts with
  | some (_, ts) => afterColon parseDefault digits (.Placeholder index none) ts nextId
  | none =>
    match if 0 < index then accept .pipe ts else none with
    | some (_, ts) => do
        let (options, ts) ← choiceLoop (ts.length + 1) [] ts
        let choice := .leaf (nextId + 1) (some nextId) (.Choice options)
        return ([.inner nextId none (.Placeholder index none) [choice]], ts, nextId + 2)
    | none =>
      match accept .forwardslash ts with
      | some (_, ts) => do
          let (transform, ts) ← parseTransform regExp ts
          return ([.inner nextId none (.Placeholder index transform) []], ts, nextId + 1)
      | none => do
          let (_, ts) ← accept .curlyClose ts
          return ([.inner nextId none (.Placeholder index none) []], ts, nextId + 1)

def parseComplexVariable (parseDefault : (id : Nat) → List Token → Nat →
      List (Marker R) × List Token × Nat × Bool) (ts : List Token) (nextId : Nat) :
    Option (Parsed R) := do
  let (_, ts) ← accept .dollar ts
  let (_, ts) ← accept .curlyOpen ts
  let (name, ts) ← accept .variableName ts
  match accept .colon ts with
  | some (_, ts) => afterColon parseDefault name (.Variable name none) ts nextId
  | none =>
    match accept .forwardslash ts with
    | some (_, ts) => do
        let (transform, ts) ← parseTransform regExp ts
        return ([.inner nextId none (.Variable name transform) []], ts, nextId + 1)
    | none => do
        let (_, ts) ← accept .curlyClose ts
        return ([.inner nextId none (.Variable name none) []], ts, nextId + 1)

def parseAnything : List Token → (nextId : Nat) → Option (Parsed R)
  | [], _ => none
  | token :: ts, nextId => some ([.leaf nextId none (.Text token.text)], ts, nextId + 1)

mutual

def parseMarker : (fuel : Nat) → List Token → (nextId : Nat) → Option (Parsed R)
  | 0, _, _ => none
  | fuel + 1, ts, nextId =>
    parseEscaped ts nextId <|>
    parseTabstopOrVariableName ts nextId <|>
    parseComplexPlaceholder regExp (fun id ts => parseDefault fuel id ts []) ts nextId <|>
    parseComplexVariable regExp (fun id ts => parseDefault fuel id ts []) ts nextId <|>
    parseAnything ts nextId

def parseDefault : (fuel : Nat) → (id : Nat) → List Token → List (Marker R) → (nextId : Nat) →
    List (Marker R) × List Token × Nat × Bool
  | 0, _, ts, children, nextId => (children, ts, nextId, false)
  | fuel + 1, id, ts, children, nextId =>
    match accept .curlyClose ts with
    | some (_, ts) => (children, ts, nextId, true)
    | none =>
      match parseMarker fuel ts nextId with
      | some (appended, ts, nextId) => parseDefault fuel id ts (appended.foldl (appendChild id) children) nextId
      | none => (children, ts, nextId, false)

end

/-- Enough for every recursion of the parser. -/
def fuelFor (ts : List Token) : Nat := ts.length + 2

def parseLoop : (fuel : Nat) → List Token → TextmateSnippet R → TextmateSnippet R
  | 0, _, snippet => snippet
  | fuel + 1, ts, snippet =>
    match parseMarker regExp (fuelFor ts) ts snippet.nextId with
    | some (appended, ts, nextId) => parseLoop fuel ts ⟨appended.foldl (appendChild 0) snippet.children, nextId⟩
    | none => snippet

abbrev DefaultValues (R : Type) := List (Number × Option (List (Marker R)))

def DefaultValues.has (defaults : DefaultValues R) (index : Number) : Bool := defaults.any fun entry => entry.1 == index

def DefaultValues.get (defaults : DefaultValues R) (index : Number) : Option (List (Marker R)) :=
  (defaults.lookup index).join

/-- What the placeholders come to be: the default of their index, or one that waits for it. -/
def collectMarker : DefaultValues R × List (Marker R) → Marker R →
    DefaultValues R × List (Marker R)
  | (defaults, incomplete), .inner id parent (.Placeholder index transform) children =>
    if index = 0 then ((0, none) :: defaults, incomplete)
    else if !defaults.has index && !children.isEmpty then
      ((index, some children) :: defaults, incomplete)
    else (defaults, incomplete ++ [.inner id parent (.Placeholder index transform) children])
  | state, _ => state

def collect (snippet : TextmateSnippet R) : DefaultValues R × List (Marker R) :=
  walk (fun state marker => (collectMarker state marker, true)) snippet.children ([], [])

def adoptClone (defaults : DefaultValues R) (stack : List Number) (fill : List Number → Number →
      Option (Transform R) → Nat → Option (Option (Marker R) × Nat)) (id : Nat) :
    List (Marker R) × Nat → Marker R → Option (List (Marker R) × Nat)
  | (children, next), child => do
      let (newChild, next) ← child.clone regExp next
      let adopted := appendChild id children newChild
      match newChild with
      | .inner childId _ (.Placeholder index transform) _ =>
        if defaults.has index && !stack.contains index then do
          let (clone, next) ← fill (index :: stack) index transform next
          match clone with
          | some clone => return (spliceChild childId (fixParents id [clone]) adopted, next)
          | none => return (adopted, next)
        else return (adopted, next)
      | _ => return (adopted, next)

def fillInClone (defaults : DefaultValues R) : (fuel : Nat) → (stack : List Number) →
    (index : Number) → Option (Transform R) → (nextId : Nat) → Option (Option (Marker R) × Nat)
  | 0, _, _, _, nextId => some (none, nextId)
  | fuel + 1, stack, index, transform, nextId =>
    match defaults.get index with
    | none => some (none, nextId)
    | some values => do
        let (children, next) ← values.foldlM
          (adoptClone regExp defaults stack (fillInClone defaults fuel) nextId) ([], nextId + 1)
        return (some (.inner nextId none (.Placeholder index transform) children), next)

def fillIn (snippet : TextmateSnippet R) (defaults : DefaultValues R) (placeholder : Marker R) :
    Option (TextmateSnippet R × DefaultValues R) :=
  match placeholder with
  | .inner id (some parent) (.Placeholder index transform) _ => do
      let (clone, nextId) ← fillInClone regExp defaults (defaults.length + 1) [] index transform
        snippet.nextId
      match clone with
      | none => return (⟨snippet.children, nextId⟩, defaults)
      | some clone =>
        let children := if parent = 0 then
          spliceChild id (fixParents 0 [clone]) snippet.children
          else replaceBelow parent id [clone] snippet.children
        let replaced := defaults.map fun (index, values) =>
          (index, values.map (replaceBelow parent id [clone]))
        return (⟨children, nextId⟩, replaced)
  | _ => none

def parseFragment (value : JsString) (snippet : TextmateSnippet R) :
    Option (TextmateSnippet R) := do
  let ts := Scanner.tokens value
  let parsed := parseLoop regExp (ts.length + 1) ts snippet
  let (defaults, incomplete) := collect parsed
  let (snippet, _) ← incomplete.foldlM (fun (snippet, defaults) placeholder =>
    fillIn regExp snippet defaults placeholder) (parsed, defaults)
  return snippet

def ensureFinalTabstop (snippet : TextmateSnippet R)
    (enforceFinalTabstop insertFinalTabstop : Bool) : TextmateSnippet R :=
  let isFinalTabstop (p : Marker R) : Bool := match p with
    | .inner _ _ (.Placeholder index _) _ => index == 0
    | _ => false
  if enforceFinalTabstop || insertFinalTabstop && !snippet.placeholders.isEmpty then
    if (snippet.placeholders.find? isFinalTabstop).isNone then
      ⟨appendChild 0 snippet.children (.inner snippet.nextId none (.Placeholder 0 none) []), snippet.nextId + 1⟩
    else snippet
  else snippet

def parse (value : JsString) (insertFinalTabstop enforceFinalTabstop : Bool) :
    Option (TextmateSnippet R) := do
  let snippet ← parseFragment regExp value TextmateSnippet.new
  return ensureFinalTabstop snippet enforceFinalTabstop insertFinalTabstop

end Parse

end SnippetParser

end Gavea.Snippet
