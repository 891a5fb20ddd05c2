import Gavea.Lib.PercentEncoding

namespace Gavea.Uri

open Lib.Js

namespace CharCode

def hash : CodeUnit := 35
def dash : CodeUnit := 45
def period : CodeUnit := 46
def slash : CodeUnit := 47
def colon : CodeUnit := 58
def questionMark : CodeUnit := 63
def atSign : CodeUnit := 64
def openSquareBracket : CodeUnit := 91
def closeSquareBracket : CodeUnit := 93
def underline : CodeUnit := 95
def tilde : CodeUnit := 126

end CharCode

open CharCode

structure UriComponents where
  scheme : JsString
  authority : Option JsString
  path : Option JsString
  query : Option JsString
  fragment : Option JsString

structure URI where
  scheme : JsString
  authority : JsString
  path : JsString
  query : JsString
  fragment : JsString
  deriving DecidableEq

inductive UriError where
  | schemeMissing
  | schemeIllegal
  | pathUnrooted
  | pathDoubleSlash
  deriving DecidableEq

/-- The class `\w`. -/
def isWord (u : CodeUnit) : Bool := isAlphanumeric u || u == underline

/-- The class `[\w\d+.-]`. -/
def isSchemeUnit (u : CodeUnit) : Bool := isWord u || u == 43 || u == period || u == dash

def schemePattern : JsString → Bool
  | [] => false
  | u :: rest => isWord u && rest.all isSchemeUnit

def singleSlashStart (path : JsString) : Bool := [slash].isPrefixOf path

def doubleSlashStart (path : JsString) : Bool := [slash, slash].isPrefixOf path

def validateUri (ret : URI) (strict : Bool) : Except UriError Unit :=
  if ret.scheme = [] ∧ strict = true then .error .schemeMissing
  else if ret.scheme ≠ [] ∧ schemePattern ret.scheme = false then .error .schemeIllegal
  else if ret.path ≠ [] ∧ ret.authority ≠ [] ∧ singleSlashStart ret.path = false then
    .error .pathUnrooted
  else if ret.path ≠ [] ∧ ret.authority = [] ∧ doubleSlashStart ret.path = true then
    .error .pathDoubleSlash
  else .ok ()

def file : JsString := ofText "file"

def schemeFix (scheme : JsString) (strict : Bool) : JsString := if scheme = [] ∧ strict = false then file else scheme

def referenceResolution (scheme path : JsString) : JsString :=
  if scheme ∈ [ofText "https", ofText "http", file] then
    match path with
    | [] => [slash]
    | u :: _ => if u ≠ slash then slash :: path else path
  else path

def create (scheme authority path query fragment : JsString) (strict : Bool) :
    Except UriError URI :=
  let scheme := schemeFix scheme strict
  let ret := ⟨scheme, authority, referenceResolution scheme path, query, fragment⟩
  (validateUri ret strict).map fun _ => ret

def ofComponents (components : UriComponents) (strict : Bool) : Except UriError URI :=
  create components.scheme (components.authority.getD []) (components.path.getD [])
    (components.query.getD []) (components.fragment.getD []) strict

/-- The group `(([^:/?#]+?):)?` and what follows it. -/
def splitScheme (value : JsString) : JsString × JsString :=
  let p := fun u => u != colon && u != slash && u != questionMark && u != hash
  match value.takeWhile p, value.dropWhile p with
  | u :: scheme, v :: rest => if v = colon then (u :: scheme, rest) else ([], value)
  | _, _ => ([], value)

def isAuthorityUnit (u : CodeUnit) : Bool := u != slash && u != questionMark && u != hash

def isPathUnit (u : CodeUnit) : Bool := u != questionMark && u != hash

def isQueryUnit (u : CodeUnit) : Bool := u != hash

/-- What `.` matches. -/
def isFragmentUnit (u : CodeUnit) : Bool := u != lineFeed && u != carriageReturn && u != 0x2028 && u != 0x2029

/-- The group `(\/\/([^/?#]*))?` and what follows it. -/
def splitAuthority : JsString → JsString × JsString
  | u :: v :: rest =>
    if u = slash ∧ v = slash then
      (rest.takeWhile isAuthorityUnit, rest.dropWhile isAuthorityUnit)
    else ([], u :: v :: rest)
  | value => ([], value)

/-- The group `(\?([^#]*))?` and what follows it. -/
def splitQuery : JsString → JsString × JsString
  | u :: rest =>
    if u = questionMark then (rest.takeWhile isQueryUnit, rest.dropWhile isQueryUnit)
    else ([], u :: rest)
  | [] => ([], [])

/-- The group `(#(.*))?`. -/
def matchFragment : JsString → JsString
  | u :: rest => if u = hash then rest.takeWhile isFragmentUnit else []
  | [] => []

def regexpMatch (value : JsString) : URI :=
  let (scheme, value) := splitScheme value
  let (authority, value) := splitAuthority value
  let path := value.takeWhile isPathUnit
  let (query, value) := splitQuery (value.dropWhile isPathUnit)
  ⟨scheme, authority, path, query, matchFragment value⟩

def decodeURIComponentGraceful : JsString → JsString
  | u :: a :: b :: c :: rest =>
    (decodeURIComponent (u :: a :: b :: c :: rest)).getD (u :: a :: b :: decodeURIComponentGraceful (c :: rest))
  | str => (decodeURIComponent str).getD str

/-- `str.replace(_rEncodedAsHex, ..)` where `run` is the match so far: the longest run of
`%` with two letters or digits. -/
def percentDecodeFrom (run : JsString) : JsString → JsString
  | u :: a :: b :: rest =>
    if u = percentSign ∧ isAlphanumeric a = true ∧ isAlphanumeric b = true then
      percentDecodeFrom (run ++ [u, a, b]) rest
    else decodeURIComponentGraceful run ++ u :: percentDecodeFrom [] (a :: b :: rest)
  | str => decodeURIComponentGraceful run ++ str

def percentDecode (str : JsString) : JsString := percentDecodeFrom [] str

def parse (value : JsString) (strict : Bool) : Except UriError URI :=
  let groups := regexpMatch value
  create groups.scheme (percentDecode groups.authority) (percentDecode groups.path)
    (percentDecode groups.query) (percentDecode groups.fragment) strict

def encodeTable : List (CodeUnit × JsString) :=
  [(colon, ofText "%3A"), (slash, ofText "%2F"), (questionMark, ofText "%3F"), (hash, ofText "%23"), (openSquareBracket,
    ofText "%5B"), (closeSquareBracket, ofText "%5D"), (atSign, ofText "%40"), (33, ofText "%21"), (36, ofText "%24"),
    (38, ofText "%26"), (39, ofText "%27"), (40, ofText "%28"), (41, ofText "%29"), (42, ofText "%2A"), (43,
    ofText "%2B"), (44, ofText "%2C"), (59, ofText "%3B"), (61, ofText "%3D"), (32, ofText "%20")]

/-- The characters that `encodeURIComponentFast` keeps. -/
def isUnreserved (isPath isAuthority : Bool) (code : CodeUnit) : Bool :=
  isLowerUnit code || isUpperUnit code || isDigitUnit code || code == dash || code == period ||
    code == underline || code == tilde || (isPath && code == slash) ||
    (isAuthority && code == openSquareBracket) || (isAuthority && code == closeSquareBracket) ||
    (isAuthority && code == colon)

def encodeFrom (isPath isAuthority : Bool) (pending : JsString) : JsString → Option JsString
  | [] => encodeURIComponent pending
  | code :: rest =>
    if isUnreserved isPath isAuthority code then
      (encodeURIComponent pending).bind fun native =>
        (encodeFrom isPath isAuthority [] rest).map fun res => native ++ code :: res
    else
      match encodeTable.lookup code with
      | some escaped =>
        (encodeURIComponent pending).bind fun native =>
          (encodeFrom isPath isAuthority [] rest).map fun res => native ++ escaped ++ res
      | none => encodeFrom isPath isAuthority (pending ++ [code]) rest

def encodeURIComponentFast (uriComponent : JsString) (isPath isAuthority : Bool) :
    Option JsString :=
  encodeFrom isPath isAuthority [] uriComponent

def encodeURIComponentMinimal (path : JsString) : JsString :=
  path.flatMap fun code => if code = hash ∨ code = questionMark then (encodeTable.lookup code).getD [] else [code]

def splitFirst (sep : CodeUnit) : JsString → Option (JsString × JsString)
  | [] => none
  | u :: rest =>
    if u = sep then some ([], rest)
    else (splitFirst sep rest).map fun p => (u :: p.1, p.2)

def splitLast (sep : CodeUnit) : JsString → Option (JsString × JsString)
  | [] => none
  | u :: rest =>
    match splitLast sep rest with
    | some p => some (u :: p.1, p.2)
    | none => if u = sep then some ([], rest) else none

structure LowerCasing where
  toLowerCase : JsString → JsString
  wellPaired : ∀ s, WellPaired s → WellPaired (toLowerCase s)
  eq_nil_iff : ∀ s, toLowerCase s = [] ↔ s = []

def encoder (skipEncoding : Bool) (s : JsString) (isPath isAuthority : Bool) : Option JsString :=
  if skipEncoding then some (encodeURIComponentMinimal s)
  else encodeURIComponentFast s isPath isAuthority

def formatUserinfo (skipEncoding : Bool) (userinfo : JsString) : Option JsString :=
  match splitLast colon userinfo with
  | none => encoder skipEncoding userinfo false false
  | some (user, pass) =>
    (encoder skipEncoding user false false).bind fun user =>
      (encoder skipEncoding pass false true).map fun pass => user ++ colon :: pass

def formatHost (skipEncoding : Bool) (authority : JsString) : Option JsString :=
  match splitLast colon authority with
  | none => encoder skipEncoding authority false true
  | some (auth, port) => (encoder skipEncoding auth false true).map fun auth => auth ++ colon :: port

def formatAuthority (lowerCasing : LowerCasing) (skipEncoding : Bool) (authority : JsString) :
    Option JsString :=
  match splitFirst atSign authority with
  | none => formatHost skipEncoding (lowerCasing.toLowerCase authority)
  | some (userinfo, authority) =>
    (formatUserinfo skipEncoding userinfo).bind fun userinfo =>
      (formatHost skipEncoding (lowerCasing.toLowerCase authority)).map fun host => userinfo ++ atSign :: host

def lowerDriveLetter : JsString → JsString
  | a :: b :: c :: rest =>
    if a = slash ∧ c = colon then
      if isUpperUnit b then slash :: (b + 32) :: colon :: rest else a :: b :: c :: rest
    else if b = colon ∧ isUpperUnit a then (a + 32) :: colon :: c :: rest
    else a :: b :: c :: rest
  | [a, b] => if b = colon ∧ isUpperUnit a then [a + 32, colon] else [a, b]
  | path => path

def asFormatted (lowerCasing : LowerCasing) (uri : URI) (skipEncoding : Bool) : Option JsString :=
  (if uri.authority = [] then some []
    else formatAuthority lowerCasing skipEncoding uri.authority).bind fun authority =>
  (if uri.path = [] then some []
    else encoder skipEncoding (lowerDriveLetter uri.path) true false).bind fun path =>
  (if uri.query = [] then some []
    else (encoder skipEncoding uri.query false false).map fun query =>
      questionMark :: query).bind fun query =>
  (if uri.fragment = [] then some []
    else (if skipEncoding then some uri.fragment
      else encodeURIComponentFast uri.fragment false false).map fun fragment =>
        hash :: fragment).map fun fragment =>
  (if uri.scheme = [] then [] else uri.scheme ++ [colon]) ++
    ((if uri.authority ≠ [] ∨ uri.scheme = file then [slash, slash] else []) ++
      (authority ++ (path ++ (query ++ fragment))))

def toString (lowerCasing : LowerCasing) (uri : URI) : Option JsString := asFormatted lowerCasing uri false

open Lib.Js CharCode List

theorem isUnreserved_lt {isPath isAuthority : Bool} {code : CodeUnit}
    (h : isUnreserved isPath isAuthority code = true) : code.toNat < 128 := by
  simp only [isUnreserved, isLowerUnit, isUpperUnit, isDigitUnit, Bool.or_eq_true, Bool.and_eq_true,
    decide_eq_true_eq, beq_iff_eq] at h
  have hall : [dash, period, underline, tilde, slash, openSquareBracket, closeSquareBracket,
      colon].all (fun u => decide (u.toNat < 128)) = true := by decide
  have hmem := fun hu => of_decide_eq_true (all_eq_true.mp hall code hu)
  rcases h with (((((((((h | h) | h) | h) | h) | h) | h) | h) | h) | h) | h
  · omega
  · omega
  · omega
  all_goals exact hmem (by simp [h])

theorem not_surrogate_of_lt {u : CodeUnit} (h : u.toNat < 128) :
    isHigh u = false ∧ isLow u = false := by
  simp only [isHigh, isLow, Bool.and_eq_false_iff, decide_eq_false_iff_not]
  omega

theorem encodeTable_spec {code : CodeUnit} {escaped : JsString}
    (h : encodeTable.lookup code = some escaped) :
    code.toNat < 128 ∧ escaped = percentChar (Char.ofNat code.toNat) ∧
      unitsOf (Char.ofNat code.toNat) = [code] := by
  have hall : ∀ p ∈ encodeTable, p.1.toNat < 128 ∧ p.2 = percentChar (Char.ofNat p.1.toNat) ∧
      unitsOf (Char.ofNat p.1.toNat) = [p.1] := by decide
  obtain ⟨l, r, hl, _⟩ := lookup_eq_some_iff.mp h
  exact hall (code, escaped) (by simp [hl])

def Plain (u : CodeUnit) : Prop := u ≠ percentSign ∧ isAuthorityUnit u = true ∧ isFragmentUnit u = true

def PathPlain (u : CodeUnit) : Prop := Plain u ∨ u = slash

instance (u : CodeUnit) : Decidable (Plain u) := inferInstanceAs (Decidable (_ ∧ _ ∧ _))

theorem plain_of_alphanumeric {u : CodeUnit} (h : isAlphanumeric u = true) : Plain u := by
  have hne : ∀ v : CodeUnit, isAlphanumeric v = false → u ≠ v := by
    rintro v hv rfl
    rw [h] at hv
    cases hv
  simp only [Plain, isAuthorityUnit, isFragmentUnit, Bool.and_eq_true, bne_iff_ne]
  refine ⟨hne _ (by decide), ⟨⟨hne _ (by decide), hne _ (by decide)⟩, hne _ (by decide)⟩,
    ⟨⟨hne _ (by decide), hne _ (by decide)⟩, hne _ (by decide)⟩, hne _ (by decide)⟩

theorem plain_of_unreserved {isAuthority : Bool} {code : CodeUnit}
    (h : isUnreserved false isAuthority code = true) : Plain code := by
  simp only [isUnreserved, Bool.or_eq_true, Bool.and_eq_true, beq_iff_eq, Bool.false_eq_true, false_and, or_false] at h
  have hall : [dash, period, underline, tilde, openSquareBracket, closeSquareBracket, colon].all
      (fun u => decide (Plain u)) = true := by decide
  have hmem := fun hu => of_decide_eq_true (all_eq_true.mp hall code hu)
  rcases h with (((((((((h | h) | h) | h) | h) | h) | h) | h) | h)) | h
  · exact plain_of_alphanumeric (by simp [isAlphanumeric, h])
  · exact plain_of_alphanumeric (by simp [isAlphanumeric, h])
  · exact plain_of_alphanumeric (by simp [isAlphanumeric, h])
  all_goals exact hmem (by simp [h])

theorem pathPlain_of_unreserved {code : CodeUnit}
    (h : isUnreserved true false code = true) : PathPlain code := by
  by_cases hs : code = slash
  · exact .inr hs
  · exact .inl (@plain_of_unreserved false _ (by simpa [isUnreserved, hs] using h))

theorem plain_of_unescaped {c : Char} (h : isUriUnescaped c = true) :
    Plain (UInt16.ofNat c.toNat) := by
  have hall : ∀ n < 128, isUriUnescaped (Char.ofNat n) = true → Plain (UInt16.ofNat n) := by
    decide +kernel
  refine hall c.toNat (isUriUnescaped_spec h).2 ?_
  rwa [Char.ofNat_toNat]

variable {literal : CodeUnit → Prop}

theorem encodeFrom_encoded {isPath isAuthority : Bool}
    (hunreserved : ∀ u, isUnreserved isPath isAuthority u = true → literal u)
    (hunescaped : ∀ c, isUriUnescaped c = true → literal (UInt16.ofNat c.toNat))
    {pending s : JsString} (h : WellPaired (pending ++ s)) :
    ∃ e, encodeFrom isPath isAuthority pending s = some e ∧ Encoded literal e (pending ++ s) := by
  induction s generalizing pending with
  | nil =>
    rw [append_nil] at h ⊢
    exact encodeURIComponent_encoded hunescaped h
  | cons code s ih =>
    rw [encodeFrom]
    split
    · next hcode =>
        obtain ⟨hh, hl⟩ := not_surrogate_of_lt (isUnreserved_lt hcode)
        obtain ⟨hpending, hs⟩ := (wellPaired_around hh hl pending s).mp h
        obtain ⟨native, hnative, hne⟩ := encodeURIComponent_encoded hunescaped hpending
        obtain ⟨res, hres, hre⟩ := @ih [] hs
        rw [hnative, hres]
        exact ⟨_, rfl, hne.append (.literal (hunreserved code hcode) hre)⟩
    · split
      · next escaped hescaped =>
          obtain ⟨hlt, rfl, hunits⟩ := encodeTable_spec hescaped
          obtain ⟨hh, hl⟩ := not_surrogate_of_lt hlt
          obtain ⟨hpending, hs⟩ := (wellPaired_around hh hl pending s).mp h
          obtain ⟨native, hnative, hne⟩ := encodeURIComponent_encoded hunescaped hpending
          obtain ⟨res, hres, hre⟩ := @ih [] hs
          rw [hnative, hres]
          refine ⟨_, rfl, ?_⟩
          have hcode := Encoded.escaped (Char.ofNat code.toNat) hre
          rw [hunits] at hcode
          have happend := hne.append hcode
          rwa [← append_assoc] at happend
      · have hcons : pending ++ code :: s = (pending ++ [code]) ++ s := append_cons ..
        rw [hcons] at h ⊢
        exact ih h

theorem encodeURIComponentFast_plain (isAuthority : Bool) {s : JsString} (h : WellPaired s) :
    ∃ e, encodeURIComponentFast s false isAuthority = some e ∧ Encoded Plain e s :=
  @encodeFrom_encoded Plain _ _ (fun _ => plain_of_unreserved) (fun _ => plain_of_unescaped) [] s h

theorem encodeURIComponentFast_path {s : JsString} (h : WellPaired s) :
    ∃ e, encodeURIComponentFast s true false = some e ∧ Encoded PathPlain e s :=
  @encodeFrom_encoded PathPlain _ _ (fun _ => pathPlain_of_unreserved) (fun _ hc => .inl (plain_of_unescaped hc)) [] s h

theorem graceful_of_decodes {s r : JsString} (h : decodeURIComponent s = some r) :
    decodeURIComponentGraceful s = r := by
  rw [decodeURIComponentGraceful.eq_def]
  split <;> rw [h, Option.getD_some]

theorem percentDecodeFrom_cons {u : CodeUnit} (hu : u ≠ percentSign) (run s : JsString) :
    percentDecodeFrom run (u :: s) =
      decodeURIComponentGraceful run ++ u :: percentDecodeFrom [] s := by
  have hnil : decodeURIComponentGraceful [] = [] := graceful_of_decodes (by decide)
  match s with
  | [] => simp [percentDecodeFrom, hnil]
  | [v] => simp [percentDecodeFrom, hnil]
  | a :: b :: rest => rw [percentDecodeFrom, if_neg fun h => hu h.1]

theorem percentDecodeFrom_percentBytes (run s : JsString) (bytes : List UInt8) :
    percentDecodeFrom run (percentBytes bytes ++ s) =
      percentDecodeFrom (run ++ percentBytes bytes) s := by
  induction bytes generalizing run with
  | nil => simp [percentBytes]
  | cons b bytes ih =>
    have hlt := b.toNat_lt
    rw [percentBytes_cons, percentByte]
    simp only [cons_append, nil_append]
    rw [percentDecodeFrom, if_pos ⟨rfl, isAlphanumeric_hexUnit (by omega),
      isAlphanumeric_hexUnit (by omega)⟩, ih, append_assoc]
    rfl

theorem percentDecodeFrom_encoded (hliteral : ∀ u, literal u → u ≠ percentSign) {e s : JsString}
    (h : Encoded literal e s) (rest : JsString) (hrest : rest.head? ≠ some percentSign)
    (run : List Char) :
    percentDecodeFrom (run.flatMap percentChar) (e ++ rest) =
      textUnits run ++ (s ++ percentDecode rest) := by
  induction h generalizing run with
  | nil =>
    have hrun := graceful_of_decodes (decodeURIComponent_percentChars run)
    cases rest with
    | nil => simp [percentDecodeFrom, percentDecode, hrun, graceful_of_decodes (r := [])
        (show decodeURIComponent [] = some [] by decide)]
    | cons u rest =>
      have hu : u ≠ percentSign := by simpa using hrest
      rw [nil_append, nil_append, percentDecode, percentDecodeFrom_cons hu,
        percentDecodeFrom_cons hu, hrun, graceful_of_decodes (r := []) (by decide)]
      rfl
  | @literal u e s hu h ih =>
    rw [cons_append, percentDecodeFrom_cons (hliteral u hu), graceful_of_decodes (decodeURIComponent_percentChars run)]
    have hrest := ih []
    rw [flatMap_nil] at hrest
    rw [hrest]
    rfl
  | @escaped c e s h ih =>
    have hrun := ih (run ++ [c])
    rw [flatMap_append, textUnits_append] at hrun
    simp only [flatMap_cons, flatMap_nil, append_nil, textUnits] at hrun
    rw [append_assoc, percentChar, percentDecodeFrom_percentBytes, ← percentChar, hrun]
    simp only [append_assoc, textUnits]

theorem percentDecode_nil : percentDecode [] = [] := by
  have hnil : decodeURIComponentGraceful [] = [] := graceful_of_decodes (by decide)
  rw [percentDecode, percentDecodeFrom, hnil, append_nil]
  simp

theorem percentDecode_encoded (hliteral : ∀ u, literal u → u ≠ percentSign) {e s : JsString}
    (h : Encoded literal e s) : percentDecode e = s := by
  have hdecode := percentDecodeFrom_encoded hliteral h [] (by simp) []
  rw [append_nil, percentDecode_nil, append_nil] at hdecode
  exact hdecode

theorem length_graceful_le (s : JsString) : (decodeURIComponentGraceful s).length ≤ s.length := by
  induction s using decodeURIComponentGraceful.induct with
  | case1 u a b c rest ih =>
    rw [decodeURIComponentGraceful]
    cases h : decodeURIComponent (u :: a :: b :: c :: rest) with
    | none => simpa using ih
    | some r => simpa using length_decodeFrom_le h
  | case2 s hs =>
    rw [decodeURIComponentGraceful.eq_2 s hs]
    cases h : decodeURIComponent s with
    | none => simp
    | some r => simpa using length_decodeFrom_le h

theorem length_percentDecodeFrom_le (run s : JsString) :
    (percentDecodeFrom run s).length ≤ run.length + s.length := by
  induction run, s using percentDecodeFrom.induct with
  | case1 run u a b rest hu ih =>
    rw [percentDecodeFrom, if_pos hu]
    simp only [length_append, length_cons, length_nil] at ih ⊢
    omega
  | case2 run u a b rest hu ih =>
    have := length_graceful_le run
    rw [percentDecodeFrom, if_neg hu]
    simp only [length_append, length_cons, length_nil] at ih ⊢
    omega
  | case3 run s hs =>
    have := length_graceful_le run
    rw [percentDecodeFrom.eq_2 run s hs, length_append]
    omega

theorem length_percentDecode_le (s : JsString) : (percentDecode s).length ≤ s.length := by
  simpa [percentDecode] using length_percentDecodeFrom_le [] s

end Gavea.Uri
