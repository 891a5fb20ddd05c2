import Gavea.Uri.Uri
import Mathlib.Data.List.TakeWhile

namespace Gavea.Uri

open Lib.Js CharCode

structure Valid (u : URI) : Prop where
  scheme : schemePattern u.scheme = true
  resolved : u.scheme ∈ [ofText "https", ofText "http", file] → singleSlashStart u.path = true
  rooted : u.path ≠ [] → u.authority ≠ [] → singleSlashStart u.path = true
  single : u.authority = [] → doubleSlashStart u.path = false

theorem singleSlashStart_iff {path : JsString} :
    singleSlashStart path = true ↔ ∃ r, path = slash :: r := by
  cases path with
  | nil => simp [singleSlashStart]
  | cons u r =>
    simp only [singleSlashStart, List.isPrefixOf, Bool.and_true, beq_iff_eq, List.cons.injEq,
      exists_and_left, exists_eq', and_true]
    exact eq_comm

theorem doubleSlashStart_iff {path : JsString} :
    doubleSlashStart path = true ↔ ∃ r, path = slash :: slash :: r := by
  match path with
  | [] => simp [doubleSlashStart]
  | [u] => simp [doubleSlashStart, List.isPrefixOf]
  | u :: v :: r =>
    simp only [doubleSlashStart, List.isPrefixOf, Bool.and_true, Bool.and_eq_true, beq_iff_eq,
      List.cons.injEq, exists_and_left, exists_eq', and_true]
    exact and_congr eq_comm eq_comm

theorem referenceResolution_slash {scheme path : JsString}
    (h : scheme ∈ [ofText "https", ofText "http", file] → singleSlashStart path = true) :
    referenceResolution scheme path = path := by
  unfold referenceResolution
  split
  · next hscheme =>
      obtain ⟨r, rfl⟩ := singleSlashStart_iff.mp (h hscheme)
      rfl
  · rfl

theorem singleSlashStart_referenceResolution {scheme path : JsString}
    (h : scheme ∈ [ofText "https", ofText "http", file]) :
    singleSlashStart (referenceResolution scheme path) = true := by
  unfold referenceResolution
  rw [if_pos h, singleSlashStart_iff]
  cases path with
  | nil => exact ⟨_, rfl⟩
  | cons u r =>
    by_cases hu : u = slash
    · exact ⟨r, by simp [hu]⟩
    · exact ⟨u :: r, by simp [hu]⟩

theorem schemeFix_ne_nil {scheme : JsString} {strict : Bool}
    (h : ¬(schemeFix scheme strict = [] ∧ strict = true)) : schemeFix scheme strict ≠ [] := by
  intro hnil
  refine h ⟨hnil, ?_⟩
  unfold schemeFix at hnil
  split at hnil
  · exact absurd hnil (by decide)
  · next hn => simpa [hnil] using hn

theorem ofComponents_valid {components : UriComponents} {strict : Bool} {u : URI}
    (h : ofComponents components strict = .ok u) : Valid u := by
  unfold ofComponents create validateUri at h
  simp only at h
  split at h
  · cases h
  next hscheme =>
  split at h
  · cases h
  next hpattern =>
  split at h
  · cases h
  next hrooted =>
  split at h
  · cases h
  next hsingle =>
  cases h
  have hne := schemeFix_ne_nil hscheme
  refine ⟨?_, fun hmem => singleSlashStart_referenceResolution hmem, ?_, ?_⟩
  · simpa [hne] using hpattern
  · intro hp ha
    simpa [hp, ha] using hrooted
  · intro ha
    by_cases hp : referenceResolution (schemeFix components.scheme strict)
        (components.path.getD []) = []
    · rw [hp]
      rfl
    · rw [Bool.eq_false_iff]
      exact fun hs => hsingle ⟨hp, ha, hs⟩

theorem create_valid {u : URI} (h : Valid u) :
    create u.scheme u.authority u.path u.query u.fragment false = .ok u := by
  have hne : u.scheme ≠ [] := by
    intro hnil
    have := h.scheme
    rw [hnil] at this
    cases this
  have hfix : schemeFix u.scheme false = u.scheme := if_neg fun hn => hne hn.1
  rw [create, hfix, referenceResolution_slash h.resolved]
  simp only [validateUri]
  rw [if_neg (by simp), if_neg (by simp [h.scheme]), if_neg, if_neg]
  · rfl
  · rintro ⟨-, ha, hp⟩
    rw [h.single ha] at hp
    cases hp
  · rintro ⟨hp, ha, hs⟩
    rw [h.rooted hp ha] at hs
    cases hs

theorem add_toNat_of_upper {b : CodeUnit} (h : isUpperUnit b = true) :
    b.toNat < 128 ∧ (b + 32).toNat < 128 ∧ b ≠ slash ∧ b + 32 ≠ slash := by
  simp only [isUpperUnit, Bool.and_eq_true, decide_eq_true_eq] at h
  have hadd : (b + 32).toNat = b.toNat + 32 := by
    rw [UInt16.toNat_add]
    have : (32 : UInt16).toNat = 32 := rfl
    omega
  have hslash : slash.toNat = 47 := rfl
  refine ⟨by omega, by omega, ?_, ?_⟩
  · rintro rfl
    omega
  · intro heq
    rw [heq] at hadd
    omega

theorem lowerDriveLetter_spec (path : JsString) :
    lowerDriveLetter path = path ∨ ∃ (l r : JsString) (b : CodeUnit), isUpperUnit b = true ∧
      (l = [] ∨ l = [slash]) ∧ path = l ++ b :: colon :: r ∧
      lowerDriveLetter path = l ++ (b + 32) :: colon :: r := by
  match path with
  | [] => exact .inl rfl
  | [_] => exact .inl rfl
  | [a, b] =>
    rw [lowerDriveLetter]
    split
    · next h => exact .inr ⟨[], [], a, h.2, .inl rfl, by simp [h.1], rfl⟩
    · exact .inl rfl
  | a :: b :: c :: r =>
    rw [lowerDriveLetter]
    split
    · next h =>
        split
        · next hb => exact .inr ⟨[slash], r, b, hb, .inr rfl, by simp [h.1, h.2], rfl⟩
        · exact .inl rfl
    · split
      · next h => exact .inr ⟨[], c :: r, a, h.2, .inl rfl, by simp [h.1], rfl⟩
      · exact .inl rfl

theorem wellPaired_lowerDriveLetter {path : JsString} (h : WellPaired path) :
    WellPaired (lowerDriveLetter path) := by
  obtain heq | ⟨l, r, b, hb, -, hpath, heq⟩ := lowerDriveLetter_spec path
  · rwa [heq]
  · rw [hpath] at h
    obtain ⟨hlt, hlt', -, -⟩ := add_toNat_of_upper hb
    obtain ⟨hh, hl⟩ := not_surrogate_of_lt hlt
    obtain ⟨hh', hl'⟩ := not_surrogate_of_lt hlt'
    rw [heq, wellPaired_around hh' hl']
    exact (wellPaired_around hh hl l (colon :: r)).mp h

theorem slashStart_lowerDriveLetter (path : JsString) :
    singleSlashStart (lowerDriveLetter path) = singleSlashStart path ∧
      doubleSlashStart (lowerDriveLetter path) = doubleSlashStart path ∧
      (lowerDriveLetter path = [] ↔ path = []) := by
  obtain heq | ⟨l, r, b, hb, hl, hpath, heq⟩ := lowerDriveLetter_spec path
  · simp only [heq, and_self]
  · obtain ⟨-, -, hne, hne'⟩ := add_toNat_of_upper hb
    rw [heq, hpath]
    rcases hl with rfl | rfl
    · have hcolon : (slash == colon) = false := by decide
      simp [singleSlashStart, doubleSlashStart, List.isPrefixOf, hcolon, Ne.symm hne, Ne.symm hne']
    · simp [singleSlashStart, doubleSlashStart, List.isPrefixOf, Ne.symm hne, Ne.symm hne']

theorem splitFirst_spec {sep : CodeUnit} {s : JsString} {p : JsString × JsString}
    (h : splitFirst sep s = some p) : s = p.1 ++ sep :: p.2 := by
  induction s generalizing p with
  | nil => cases h
  | cons u s ih =>
    rw [splitFirst] at h
    split at h
    · next hu =>
        cases h
        rw [hu]
        rfl
    · obtain ⟨q, hq, rfl⟩ := Option.map_eq_some_iff.mp h
      rw [ih hq]
      rfl

theorem splitLast_spec {sep : CodeUnit} {s : JsString} {p : JsString × JsString}
    (h : splitLast sep s = some p) : s = p.1 ++ sep :: p.2 := by
  induction s generalizing p with
  | nil => cases h
  | cons u s ih =>
    rw [splitLast] at h
    split at h
    · next q hq =>
        cases h
        rw [ih hq]
        rfl
    · split at h
      · next hu =>
          cases h
          rw [hu]
          rfl
      · cases h

def hostOf (lowerCasing : LowerCasing) (authority : JsString) : JsString :=
  match splitFirst atSign authority with
  | none => lowerCasing.toLowerCase authority
  | some (_, host) => lowerCasing.toLowerCase host

def loweredAuthority (lowerCasing : LowerCasing) (authority : JsString) : JsString :=
  match splitFirst atSign authority with
  | none => lowerCasing.toLowerCase authority
  | some (userinfo, host) => userinfo ++ atSign :: lowerCasing.toLowerCase host

def portOf (lowerCasing : LowerCasing) (authority : JsString) : Option JsString :=
  (splitLast colon (hostOf lowerCasing authority)).map Prod.snd

def portText (lowerCasing : LowerCasing) (authority : JsString) : JsString :=
  ((portOf lowerCasing authority).map fun port => colon :: port).getD []

theorem plain_colon : Plain colon := by decide

theorem plain_atSign : Plain atSign := by decide

theorem formatUserinfo_encoded {userinfo : JsString} (h : WellPaired userinfo) :
    ∃ e, formatUserinfo false userinfo = some e ∧ Encoded Plain e userinfo := by
  unfold formatUserinfo
  split
  · exact encodeURIComponentFast_plain false h
  · next user pass hsplit =>
      have hspec := splitLast_spec hsplit
      simp only at hspec
      rw [hspec] at h ⊢
      obtain ⟨huser, hpass⟩ := (wellPaired_around (by decide) (by decide) user pass).mp h
      obtain ⟨e, he, hee⟩ := encodeURIComponentFast_plain false huser
      obtain ⟨e', he', hee'⟩ := encodeURIComponentFast_plain true hpass
      refine ⟨_, ?_, hee.append (.literal plain_colon hee')⟩
      simp only [encoder, Bool.false_eq_true, if_false, he, he', Option.bind_some, Option.map_some]

theorem formatHost_encoded {host : JsString} (h : WellPaired host) :
    ∃ e s, formatHost false host = some (e ++
        (((splitLast colon host).map Prod.snd).map fun port => colon :: port).getD []) ∧
      host = s ++ (((splitLast colon host).map Prod.snd).map fun port => colon :: port).getD [] ∧
      Encoded Plain e s := by
  unfold formatHost
  cases hsplit : splitLast colon host with
  | none =>
    obtain ⟨e, he, hee⟩ := encodeURIComponentFast_plain true h
    exact ⟨e, host, by simp [encoder, he], by simp, hee⟩
  | some p =>
    have hspec := splitLast_spec hsplit
    rw [hspec] at h
    obtain ⟨hauth, -⟩ := (wellPaired_around (by decide) (by decide) p.1 p.2).mp h
    obtain ⟨e, he, hee⟩ := encodeURIComponentFast_plain true hauth
    exact ⟨e, p.1, by simp [encoder, he], by simpa using hspec, hee⟩

theorem formatAuthority_encoded (lowerCasing : LowerCasing) {authority : JsString}
    (h : WellPaired authority) :
    ∃ e s, formatAuthority lowerCasing false authority =
        some (e ++ portText lowerCasing authority) ∧
      loweredAuthority lowerCasing authority = s ++ portText lowerCasing authority ∧
      Encoded Plain e s := by
  unfold formatAuthority loweredAuthority portText portOf hostOf
  cases hsplit : splitFirst atSign authority with
  | none => exact formatHost_encoded (lowerCasing.wellPaired _ h)
  | some p =>
    have hspec := splitFirst_spec hsplit
    rw [hspec] at h
    obtain ⟨huser, hhost⟩ := (wellPaired_around (by decide) (by decide) p.1 p.2).mp h
    obtain ⟨e, he, hee⟩ := formatUserinfo_encoded huser
    obtain ⟨e', s', he', hs', hee'⟩ := formatHost_encoded (lowerCasing.wellPaired _ hhost)
    refine ⟨e ++ atSign :: e', p.1 ++ atSign :: s', ?_, ?_,
      hee.append (.literal plain_atSign hee')⟩
    · simp only [he, he', Option.bind_some, Option.map_some, List.append_assoc, List.cons_append]
    · simp only
      rw [List.append_assoc, List.cons_append, ← hs']

def Marked (mark : CodeUnit) (text part : JsString) : Prop := text = [] ∧ part = [] ∨ text = mark :: part

structure Parts (lowerCasing : LowerCasing) (u : URI)
    (auth path queryText query fragmentText fragment : JsString) : Prop where
  text : toString lowerCasing u = some (u.scheme ++ colon ::
    ((if u.authority ≠ [] ∨ u.scheme = file then [slash, slash] else []) ++
      ((auth ++ portText lowerCasing u.authority) ++ (path ++ (queryText ++ fragmentText)))))
  auth_encoded : ∃ s, Encoded Plain auth s ∧
    loweredAuthority lowerCasing u.authority = s ++ portText lowerCasing u.authority
  path_encoded : Encoded PathPlain path (lowerDriveLetter u.path)
  rooted : singleSlashStart u.path = true → ∃ r, path = slash :: r
  query_marked : Marked questionMark queryText query
  query_encoded : Encoded Plain query u.query
  fragment_marked : Marked hash fragmentText fragment
  fragment_encoded : Encoded Plain fragment u.fragment

theorem encodeURIComponentFast_slash (s : JsString) :
    encodeURIComponentFast (slash :: s) true false =
      (encodeURIComponentFast s true false).map fun e => slash :: e := by
  have hnil : encodeURIComponent [] = some [] := by decide
  rw [encodeURIComponentFast, encodeFrom, if_pos (by decide), hnil]
  rfl

theorem toLowerCase_nil (lowerCasing : LowerCasing) : lowerCasing.toLowerCase [] = [] :=
  (lowerCasing.eq_nil_iff []).mpr rfl

theorem portText_nil (lowerCasing : LowerCasing) : portText lowerCasing [] = [] := by
  simp [portText, portOf, hostOf, splitFirst, toLowerCase_nil, splitLast]

theorem loweredAuthority_nil (lowerCasing : LowerCasing) : loweredAuthority lowerCasing [] = [] := by
  simp [loweredAuthority, splitFirst, toLowerCase_nil]

theorem exists_authority (lowerCasing : LowerCasing) {authority : JsString}
    (h : WellPaired authority) :
    ∃ e s, (if authority = [] then some [] else formatAuthority lowerCasing false authority) =
        some (e ++ portText lowerCasing authority) ∧
      loweredAuthority lowerCasing authority = s ++ portText lowerCasing authority ∧
      Encoded Plain e s := by
  split
  · next hnil =>
      rw [hnil, portText_nil, loweredAuthority_nil]
      exact ⟨[], [], rfl, rfl, .nil⟩
  · exact formatAuthority_encoded lowerCasing h

theorem exists_path {path : JsString} (h : WellPaired path) :
    ∃ e, (if path = [] then some [] else encoder false (lowerDriveLetter path) true false) =
        some e ∧ Encoded PathPlain e (lowerDriveLetter path) ∧
      (singleSlashStart path = true → ∃ r, e = slash :: r) := by
  split
  · next hnil =>
      rw [hnil]
      exact ⟨[], rfl, .nil, fun hs => absurd hs (by decide)⟩
  · obtain ⟨e, he, hee⟩ := encodeURIComponentFast_path (wellPaired_lowerDriveLetter h)
    refine ⟨e, by simpa [encoder] using he, hee, fun hs => ?_⟩
    rw [← (slashStart_lowerDriveLetter path).1, singleSlashStart_iff] at hs
    obtain ⟨r, hr⟩ := hs
    rw [hr, encodeURIComponentFast_slash] at he
    obtain ⟨e', -, rfl⟩ := Option.map_eq_some_iff.mp he
    exact ⟨e', rfl⟩

theorem exists_marked (mark : CodeUnit) {s : JsString} (h : WellPaired s) :
    ∃ text e, (if s = [] then some []
        else (encodeURIComponentFast s false false).map fun e => mark :: e) = some text ∧
      Marked mark text e ∧ Encoded Plain e s := by
  split
  · next hnil =>
      rw [hnil]
      exact ⟨[], [], rfl, .inl ⟨rfl, rfl⟩, .nil⟩
  · obtain ⟨e, he, hee⟩ := encodeURIComponentFast_plain false h
    exact ⟨mark :: e, e, by rw [he, Option.map_some], .inr rfl, hee⟩

theorem exists_parts (lowerCasing : LowerCasing) {u : URI} (hvalid : Valid u)
    (hauthority : WellPaired u.authority) (hpath : WellPaired u.path)
    (hquery : WellPaired u.query) (hfragment : WellPaired u.fragment) :
    ∃ auth path queryText query fragmentText fragment,
      Parts lowerCasing u auth path queryText query fragmentText fragment := by
  obtain ⟨a, s, ha, hs, hae⟩ := exists_authority lowerCasing hauthority
  obtain ⟨p, hp, hpe, hroot⟩ := exists_path hpath
  obtain ⟨qt, q, hqt, hq, hqe⟩ := exists_marked questionMark hquery
  obtain ⟨ft, f, hft, hf, hfe⟩ := exists_marked hash hfragment
  have hscheme : u.scheme ≠ [] := by
    intro hnil
    have := hvalid.scheme
    rw [hnil] at this
    cases this
  refine ⟨a, p, qt, q, ft, f, ?_, ⟨s, hae, hs⟩, hpe, hroot, hq, hqe, hf, hfe⟩
  rw [toString, asFormatted, ha, hp]
  simp only [encoder, Bool.false_eq_true, if_false, hqt, hft, if_neg hscheme, Option.map_some,
    Option.bind_some, List.append_assoc, List.singleton_append]

open Lib.Js CharCode List

theorem takeWhile_all_append {p : CodeUnit → Bool} {s : JsString} (h : ∀ u ∈ s, p u = true)
    (t : JsString) : (s ++ t).takeWhile p = s ++ t.takeWhile p :=
  takeWhile_append_of_pos h

theorem dropWhile_all_append {p : CodeUnit → Bool} {s : JsString} (h : ∀ u ∈ s, p u = true)
    (t : JsString) : (s ++ t).dropWhile p = t.dropWhile p :=
  dropWhile_append_of_pos h

theorem splitScheme_scheme {scheme : JsString} (h : schemePattern scheme = true)
    (rest : JsString) : splitScheme (scheme ++ colon :: rest) = (scheme, rest) := by
  have hunit : ∀ u : CodeUnit, isSchemeUnit u = true →
      (u != colon && u != slash && u != questionMark && u != hash) = true := by
    intro u hu
    simp only [Bool.and_eq_true, bne_iff_ne]
    refine ⟨⟨⟨?_, ?_⟩, ?_⟩, ?_⟩ <;> rintro rfl <;> exact absurd hu (by decide)
  cases scheme with
  | nil => cases h
  | cons u scheme =>
    rw [schemePattern, Bool.and_eq_true, all_eq_true] at h
    have hall : ∀ v ∈ u :: scheme,
        (v != colon && v != slash && v != questionMark && v != hash) = true := by
      intro v hv
      rcases mem_cons.mp hv with rfl | hv
      · exact hunit v (by simp [isSchemeUnit, h.1])
      · exact hunit v (h.2 v hv)
    unfold splitScheme
    have hstop : (colon :: rest).takeWhile (fun v => v != colon && v != slash &&
        v != questionMark && v != hash) = [] := rfl
    simp only [takeWhile_all_append hall, dropWhile_all_append hall, hstop, append_nil]
    rfl

theorem splitAuthority_slashes (rest : JsString) :
    splitAuthority (slash :: slash :: rest) =
      (rest.takeWhile isAuthorityUnit, rest.dropWhile isAuthorityUnit) := by
  rw [splitAuthority, if_pos ⟨rfl, rfl⟩]

theorem splitAuthority_none {rest : JsString} (h : doubleSlashStart rest = false) :
    splitAuthority rest = ([], rest) := by
  match rest with
  | [] => rfl
  | [u] => rfl
  | u :: v :: rest =>
    refine if_neg ?_
    rintro ⟨rfl, rfl⟩
    cases h

theorem match_tail {path queryText query fragmentText fragment : JsString}
    (hpath : ∀ u ∈ path, isPathUnit u = true) (hqt : Marked questionMark queryText query)
    (hquery : ∀ u ∈ query, isQueryUnit u = true) (hft : Marked hash fragmentText fragment)
    (hfragment : ∀ u ∈ fragment, isFragmentUnit u = true) :
    (path ++ (queryText ++ fragmentText)).takeWhile isPathUnit = path ∧
      splitQuery ((path ++ (queryText ++ fragmentText)).dropWhile isPathUnit) =
        (query, fragmentText) ∧ matchFragment fragmentText = fragment := by
  have hfragment' : matchFragment fragmentText = fragment := by
    rcases hft with ⟨rfl, rfl⟩ | rfl
    · rfl
    · rw [matchFragment, if_pos rfl]
      simpa using takeWhile_all_append hfragment []
  have hstop : fragmentText.takeWhile isQueryUnit = [] ∧
      fragmentText.dropWhile isQueryUnit = fragmentText := by
    rcases hft with ⟨rfl, -⟩ | rfl <;> exact ⟨rfl, rfl⟩
  rw [takeWhile_all_append hpath, dropWhile_all_append hpath]
  rcases hqt with ⟨rfl, rfl⟩ | rfl
  · rcases hft with ⟨rfl, rfl⟩ | rfl
    · exact ⟨append_nil path, rfl, rfl⟩
    · exact ⟨append_nil path, rfl, hfragment'⟩
  · refine ⟨append_nil path, ?_, hfragment'⟩
    change splitQuery (questionMark :: (query ++ fragmentText)) = _
    rw [splitQuery, if_pos rfl, takeWhile_all_append hquery, dropWhile_all_append hquery, hstop.1, hstop.2, append_nil]

theorem Plain.ne_percentSign {u : CodeUnit} (h : Plain u) : u ≠ percentSign := h.1

theorem PathPlain.ne_percentSign {u : CodeUnit} (h : PathPlain u) : u ≠ percentSign := by
  rcases h with h | rfl
  · exact h.1
  · decide

theorem Encoded.plain {e s : JsString} (h : Encoded Plain e s) :
    ∀ u ∈ e, isAuthorityUnit u = true ∧ isQueryUnit u = true ∧ isFragmentUnit u = true := by
  intro u hu
  have hquery : isAuthorityUnit u = true → isQueryUnit u = true := by
    simp only [isAuthorityUnit, isQueryUnit, Bool.and_eq_true]
    exact fun h => h.2
  rcases h.mem hu with hu | rfl | hu
  · exact ⟨hu.2.1, hquery hu.2.1, hu.2.2⟩
  · decide
  · have hplain := plain_of_alphanumeric hu
    exact ⟨hplain.2.1, hquery hplain.2.1, hplain.2.2⟩

theorem Encoded.pathPlain {e s : JsString} (h : Encoded PathPlain e s) :
    ∀ u ∈ e, isPathUnit u = true := by
  intro u hu
  have hplain : Plain u → isPathUnit u = true := by
    intro h
    have := h.2.1
    simp only [isAuthorityUnit, Bool.and_eq_true] at this
    rw [isPathUnit, this.1.2, this.2]
    rfl
  rcases h.mem hu with (hu | rfl) | rfl | hu
  · exact hplain hu
  · decide
  · decide
  · exact hplain (plain_of_alphanumeric hu)

section parts

variable {lowerCasing : LowerCasing} {u : URI}
  {auth path queryText query fragmentText fragment : JsString}

theorem Parts.match_tail
    (h : Parts lowerCasing u auth path queryText query fragmentText fragment) :
    (path ++ (queryText ++ fragmentText)).takeWhile isPathUnit = path ∧
      splitQuery ((path ++ (queryText ++ fragmentText)).dropWhile isPathUnit) =
        (query, fragmentText) ∧ matchFragment fragmentText = fragment :=
  Uri.match_tail (Encoded.pathPlain h.path_encoded) h.query_marked
    (fun v hv => (Encoded.plain h.query_encoded v hv).2.1) h.fragment_marked
    fun v hv => (Encoded.plain h.fragment_encoded v hv).2.2

theorem Parts.tail_stops (hvalid : Valid u) (hslashes : u.authority ≠ [] ∨ u.scheme = file)
    (h : Parts lowerCasing u auth path queryText query fragmentText fragment) :
    (path ++ (queryText ++ fragmentText)).takeWhile isAuthorityUnit = [] ∧
      (path ++ (queryText ++ fragmentText)).dropWhile isAuthorityUnit =
        path ++ (queryText ++ fragmentText) := by
  have htail : (queryText ++ fragmentText).takeWhile isAuthorityUnit = [] ∧
      (queryText ++ fragmentText).dropWhile isAuthorityUnit = queryText ++ fragmentText := by
    rcases h.query_marked with ⟨hq, -⟩ | hq
    · rcases h.fragment_marked with ⟨hf, -⟩ | hf <;> rw [hq, hf] <;> exact ⟨rfl, rfl⟩
    · rw [hq]
      exact ⟨rfl, rfl⟩
  by_cases hpath : u.path = []
  · have henc := h.path_encoded
    rw [(slashStart_lowerDriveLetter u.path).2.2.mpr hpath] at henc
    rw [henc.eq_nil]
    exact htail
  · have hslash : singleSlashStart u.path = true := by
      rcases hslashes with hauthority | hfile
      · exact hvalid.rooted hpath hauthority
      · exact hvalid.resolved (by simp [hfile])
    obtain ⟨r, hr⟩ := h.rooted hslash
    rw [hr]
    exact ⟨rfl, rfl⟩

theorem Parts.tail_single (hvalid : Valid u) (hauthority : u.authority = [])
    (h : Parts lowerCasing u auth path queryText query fragmentText fragment) :
    doubleSlashStart (path ++ (queryText ++ fragmentText)) = false := by
  rw [Bool.eq_false_iff]
  intro hslash
  obtain ⟨r, hr⟩ := doubleSlashStart_iff.mp hslash
  have hne : ∀ s, queryText ++ fragmentText ≠ slash :: s := by
    intro s
    rcases h.query_marked with ⟨hq, -⟩ | hq
    · rcases h.fragment_marked with ⟨hf, -⟩ | hf <;> rw [hq, hf]
      · exact (cons_ne_nil _ _).symm
      · exact fun heq => absurd (List.cons.inj heq).1 (by decide)
    · rw [hq]
      exact fun heq => absurd (List.cons.inj heq).1 (by decide)
  have hpath := h.path_encoded
  match path, hpath, hr with
  | [], _, hr => exact hne _ hr
  | [v], hpath, hr => exact hne _ (List.cons.inj hr).2
  | v :: w :: path, hpath, hr =>
    obtain ⟨rfl, htail⟩ := List.cons.inj hr
    obtain ⟨rfl, -⟩ := List.cons.inj htail
    obtain ⟨s, hs, hpath⟩ := hpath.cons_inv (by decide)
    obtain ⟨s', rfl, -⟩ := hpath.cons_inv (by decide)
    have hlower := (slashStart_lowerDriveLetter u.path).2.1
    rw [hs, hvalid.single hauthority] at hlower
    cases hlower

end parts

theorem regexpMatch_authority {scheme : JsString} (h : schemePattern scheme = true)
    (rest : JsString) :
    (regexpMatch (scheme ++ colon :: slash :: slash :: rest)).authority =
      rest.takeWhile isAuthorityUnit := by
  unfold regexpMatch
  simp only [splitScheme_scheme h, splitAuthority_slashes]

def normalized (lowerCasing : LowerCasing) (u : URI) : URI :=
  { u with authority := loweredAuthority lowerCasing u.authority, path := lowerDriveLetter u.path }

def RoundTrips (lowerCasing : LowerCasing) (u : URI) : Prop :=
  ∃ text, toString lowerCasing u = some text ∧ parse text false = .ok (normalized lowerCasing u)

def PlainPort (lowerCasing : LowerCasing) (u : URI) : Prop :=
  ∀ port, portOf lowerCasing u.authority = some port →
    (∀ c ∈ port, isAuthorityUnit c = true) ∧ percentDecode port = port

theorem loweredAuthority_eq_nil_iff (lowerCasing : LowerCasing) (authority : JsString) :
    loweredAuthority lowerCasing authority = [] ↔ authority = [] := by
  unfold loweredAuthority
  cases h : splitFirst atSign authority with
  | none => exact lowerCasing.eq_nil_iff authority
  | some p => simp [splitFirst_spec h]

theorem normalized_valid (lowerCasing : LowerCasing) {u : URI} (h : Valid u) :
    Valid (normalized lowerCasing u) := by
  obtain ⟨hsingle, hdouble, hnil⟩ := slashStart_lowerDriveLetter u.path
  refine ⟨h.scheme, fun hs => ?_, fun hp ha => ?_, fun ha => ?_⟩
  · exact hsingle.trans (h.resolved hs)
  · refine hsingle.trans (h.rooted (fun hn => hp (hnil.mpr hn)) fun hn => ha ?_)
    exact (loweredAuthority_eq_nil_iff lowerCasing u.authority).mpr hn
  · exact hdouble.trans (h.single ((loweredAuthority_eq_nil_iff lowerCasing u.authority).mp ha))

section roundTrip

variable {lowerCasing : LowerCasing} {u : URI}
  {auth path queryText query fragmentText fragment : JsString}

theorem Parts.parse_eq (hvalid : Valid u)
    (h : Parts lowerCasing u auth path queryText query fragmentText fragment) {text : JsString}
    (hmatch : regexpMatch text = ⟨u.scheme, auth ++ portText lowerCasing u.authority, path, query, fragment⟩)
    (hauth : percentDecode (auth ++ portText lowerCasing u.authority) = loweredAuthority lowerCasing u.authority) :
    parse text false = .ok (normalized lowerCasing u) := by
  rw [parse, hmatch]
  simp only
  rw [hauth, percentDecode_encoded (fun _ => PathPlain.ne_percentSign) h.path_encoded,
    percentDecode_encoded (fun _ => Plain.ne_percentSign) h.query_encoded,
    percentDecode_encoded (fun _ => Plain.ne_percentSign) h.fragment_encoded]
  exact create_valid (normalized_valid lowerCasing hvalid)

theorem percentDecode_port {s port : JsString} (hs : Encoded Plain auth s) :
    percentDecode (auth ++ colon :: port) = s ++ colon :: percentDecode port := by
  have hdecode := percentDecodeFrom_encoded (fun _ => Plain.ne_percentSign) hs (colon :: port)
    (by simp [show colon ≠ percentSign by decide]) []
  have hcolon : percentDecode (colon :: port) = colon :: percentDecode port := by
    rw [percentDecode, percentDecodeFrom_cons (by decide)]
    rfl
  rw [hcolon] at hdecode
  exact hdecode

theorem create_authority {scheme authority path query fragment : JsString} {strict : Bool}
    {u : URI} (h : create scheme authority path query fragment strict = .ok u) :
    authority = u.authority := by
  unfold create Except.map at h
  simp only at h
  split at h
  · cases h
  · cases h
    rfl

theorem length_takeWhile_lt {p : CodeUnit → Bool} {s : JsString} (h : ¬∀ u ∈ s, p u = true) :
    (s.takeWhile p).length < s.length := by
  have hle := ( takeWhile_prefix p (l := s)).length_le
  refine Nat.lt_of_le_of_ne hle fun heq => h ?_
  exact takeWhile_eq_self_iff.mp (( takeWhile_prefix p).eq_of_length heq)

theorem portText_of_none (hport : portOf lowerCasing u.authority = none) :
    portText lowerCasing u.authority = [] := by
  rw [portText, hport]
  rfl

theorem portText_of_some {port : JsString} (hport : portOf lowerCasing u.authority = some port) :
    portText lowerCasing u.authority = colon :: port := by
  rw [portText, hport]
  rfl

theorem Parts.authority_plain (hplain : PlainPort lowerCasing u)
    (h : Parts lowerCasing u auth path queryText query fragmentText fragment) :
    (∀ c ∈ auth ++ portText lowerCasing u.authority, isAuthorityUnit c = true) ∧
      percentDecode (auth ++ portText lowerCasing u.authority) =
        loweredAuthority lowerCasing u.authority := by
  obtain ⟨s, hs, hlowered⟩ := h.auth_encoded
  have hauth : ∀ c ∈ auth, isAuthorityUnit c = true := fun c hc => (Encoded.plain hs c hc).1
  rw [hlowered]
  cases hport : portOf lowerCasing u.authority with
  | none =>
    rw [portText_of_none hport, append_nil, append_nil]
    exact ⟨hauth, percentDecode_encoded (fun _ => Plain.ne_percentSign) hs⟩
  | some port =>
    obtain ⟨hunits, hdecode⟩ := hplain port hport
    rw [portText_of_some hport, percentDecode_port hs, hdecode]
    refine ⟨fun c hc => ?_, rfl⟩
    rcases mem_append.mp hc with hc | hc
    · exact hauth c hc
    · rcases mem_cons.mp hc with rfl | hc
      · rfl
      · exact hunits c hc

theorem Parts.roundTrips (hvalid : Valid u) (hplain : PlainPort lowerCasing u)
    (h : Parts lowerCasing u auth path queryText query fragmentText fragment) :
    RoundTrips lowerCasing u := by
  obtain ⟨hunits, hdecode⟩ := h.authority_plain hplain
  obtain ⟨hpath, hquery, hfragment⟩ := h.match_tail
  refine ⟨_, h.text, h.parse_eq hvalid ?_ hdecode⟩
  unfold regexpMatch
  rw [splitScheme_scheme hvalid.scheme]
  by_cases hslashes : u.authority ≠ [] ∨ u.scheme = file
  · obtain ⟨hstop, hrest⟩ := h.tail_stops hvalid hslashes
    rw [if_pos hslashes]
    simp only [cons_append, nil_append, splitAuthority_slashes, takeWhile_all_append hunits,
      dropWhile_all_append hunits, hstop, hrest, append_nil, hpath, hquery, hfragment]
  · have hauthority : u.authority = [] := by
      by_contra hne
      exact hslashes (.inl hne)
    obtain ⟨s, hs, hlowered⟩ := h.auth_encoded
    have hnil : auth ++ portText lowerCasing u.authority = [] := by
      rw [(loweredAuthority_eq_nil_iff lowerCasing u.authority).mpr hauthority] at hlowered
      obtain ⟨rfl, hport⟩ := append_eq_nil_iff.mp hlowered.symm
      rw [hs.eq_nil, hport, append_nil]
    rw [if_neg hslashes, hnil]
    simp only [nil_append, splitAuthority_none (h.tail_single hvalid hauthority), hpath, hquery, hfragment]

theorem Parts.plainPort (hvalid : Valid u)
    (h : Parts lowerCasing u auth path queryText query fragmentText fragment)
    (hround : RoundTrips lowerCasing u) : PlainPort lowerCasing u := by
  intro port hport
  have hauthority : u.authority ≠ [] := by
    intro hnil
    have hnone := portText_of_some hport
    rw [hnil, portText_nil] at hnone
    cases hnone
  obtain ⟨hstop, -⟩ := h.tail_stops hvalid (.inl hauthority)
  obtain ⟨s, hs, hlowered⟩ := h.auth_encoded
  have hauth : ∀ c ∈ auth, isAuthorityUnit c = true := fun c hc => (Encoded.plain hs c hc).1
  have hread : percentDecode ((port ++ (path ++ (queryText ++ fragmentText))).takeWhile
      isAuthorityUnit) = port := by
    obtain ⟨text, htext, hparse⟩ := hround
    rw [h.text, if_pos (.inl hauthority), portText_of_some hport, Option.some.injEq] at htext
    have hgroup := regexpMatch_authority hvalid.scheme
      ((auth ++ colon :: port) ++ (path ++ (queryText ++ fragmentText)))
    have hparsed := create_authority hparse
    rw [← htext] at hparsed
    simp only [cons_append, nil_append] at hparsed
    rw [hgroup] at hparsed
    rw [append_assoc, takeWhile_all_append hauth, cons_append,
      takeWhile_cons_of_pos (by decide), percentDecode_port hs] at hparsed
    simp only [normalized] at hparsed
    rw [hlowered, portText_of_some hport] at hparsed
    exact (List.cons.inj (append_cancel_left hparsed)).2
  have hunits : ∀ c ∈ port, isAuthorityUnit c = true := by
    by_contra hnot
    have hshort := length_takeWhile_lt hnot
    have hle := length_percentDecode_le ((port ++ (path ++ (queryText ++ fragmentText))).takeWhile isAuthorityUnit)
    rw [hread, takeWhile_append, if_neg (by omega)] at hle
    omega
  rw [takeWhile_all_append hunits, hstop, append_nil] at hread
  exact ⟨hunits, hread⟩

end roundTrip

theorem roundTrips_iff_of_valid (lowerCasing : LowerCasing) {u : URI} (hvalid : Valid u)
    (hauthority : WellPaired u.authority) (hpath : WellPaired u.path)
    (hquery : WellPaired u.query) (hfragment : WellPaired u.fragment) :
    RoundTrips lowerCasing u ↔ PlainPort lowerCasing u := by
  obtain ⟨auth, path, queryText, query, fragmentText, fragment, hparts⟩ :=
    exists_parts lowerCasing hvalid hauthority hpath hquery hfragment
  exact ⟨hparts.plainPort hvalid, hparts.roundTrips hvalid⟩

/-- The text of a URI is read as that URI exactly if its port is plain. -/
theorem roundTrips_iff_plainPort (lowerCasing : LowerCasing) (components : UriComponents)
    (strict : Bool) (u : URI) (h : ofComponents components strict = .ok u)
    (hauthority : WellPaired u.authority) (hpath : WellPaired u.path)
    (hquery : WellPaired u.query) (hfragment : WellPaired u.fragment) :
    RoundTrips lowerCasing u ↔ PlainPort lowerCasing u :=
  roundTrips_iff_of_valid lowerCasing (ofComponents_valid h) hauthority hpath hquery hfragment

def asciiLower (u : CodeUnit) : CodeUnit := if isUpperUnit u then u + 32 else u

theorem surrogate_asciiLower (u : CodeUnit) :
    isHigh (asciiLower u) = isHigh u ∧ isLow (asciiLower u) = isLow u := by
  unfold asciiLower
  split
  · next hu =>
      obtain ⟨hlt, hlt', -, -⟩ := add_toNat_of_upper hu
      obtain ⟨hh, hl⟩ := not_surrogate_of_lt hlt
      obtain ⟨hh', hl'⟩ := not_surrogate_of_lt hlt'
      rw [hh, hl, hh', hl']
      exact ⟨rfl, rfl⟩
  · exact ⟨rfl, rfl⟩

theorem wellPaired_asciiLower {s : JsString} (h : WellPaired s) : WellPaired (s.map asciiLower) := by
  have hhigh := fun u => (surrogate_asciiLower u).1
  have hlow := fun u => (surrogate_asciiLower u).2
  induction s using codePoints.induct with
  | case1 => exact h
  | case2 u hu => simp [WellPaired, codePoints, hu] at h
  | case3 u hu => simpa [WellPaired, codePoints, hhigh, hlow] using hu
  | case4 u v rest hu hv ih =>
    simp only [WellPaired, codePoints, hu, hv, if_true, Option.isSome_map, map_cons, hhigh, hlow] at h ih ⊢
    exact ih h
  | case5 u v rest hu hv => simp [WellPaired, codePoints, hu, hv] at h
  | case6 u v rest hu hl => simp [WellPaired, codePoints, hu, hl] at h
  | case7 u v rest hu hl ih =>
    simp only [WellPaired, codePoints, hu, hl, if_false, Option.isSome_map, map_cons, hhigh,
      hlow, Bool.false_eq_true] at h ih ⊢
    exact ih h

def asciiLowerCasing : LowerCasing where
  toLowerCase s := s.map asciiLower
  wellPaired _ := wellPaired_asciiLower
  eq_nil_iff _ := map_eq_nil_iff

def exampleComponents : UriComponents :=
  ⟨ofText "vscode", some (ofText "user@HOST:80"), some (ofText "/C:/a b?"), none, some (ofText "#")⟩

theorem roundTrips_iff_plainPort_of_host :
    RoundTrips asciiLowerCasing ⟨ofText "vscode", ofText "user@HOST:80", ofText "/C:/a b?", [],
        ofText "#"⟩ ↔
      PlainPort asciiLowerCasing ⟨ofText "vscode", ofText "user@HOST:80", ofText "/C:/a b?", [], ofText "#"⟩ :=
  roundTrips_iff_plainPort asciiLowerCasing exampleComponents false _ (by decide) (by decide)
    (by decide) (by decide) (by decide)

/-- `http://host:80/x/p` is read with the authority `host:80`. -/
theorem not_roundTrips :
    ¬∀ (components : UriComponents) (strict : Bool) (u : URI),
      ofComponents components strict = .ok u → WellPaired u.authority → WellPaired u.path →
      WellPaired u.query → WellPaired u.fragment → RoundTrips asciiLowerCasing u := by
  intro hround
  have hcreated : ofComponents
      ⟨ofText "http", some (ofText "host:80/x"), some (ofText "/p"), none, none⟩ false =
      .ok ⟨ofText "http", ofText "host:80/x", ofText "/p", [], []⟩ := by decide
  have hplain := (roundTrips_iff_of_valid asciiLowerCasing (ofComponents_valid hcreated) (by decide)
    (by decide) (by decide) (by decide)).mp
    (hround _ _ _ hcreated (by decide) (by decide) (by decide) (by decide))
  obtain ⟨hunits, -⟩ := hplain (ofText "80/x") (by decide)
  exact absurd (hunits slash (by decide)) (by decide)

end Gavea.Uri
