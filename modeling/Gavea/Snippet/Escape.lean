import Gavea.Snippet.Numbering

namespace Gavea.Snippet

open Gavea.Lib.Js List

variable {R : Type}

theorem escape_cons (ch : CodeUnit) (s : JsString) : escape (ch :: s) =
    (if ch = 0x24 ∨ ch = 0x7D ∨ ch = 0x5C then [0x5C, ch] else [ch]) ++ escape s := by
  rw [escape, flatMap_cons]
  rfl

/-- A property of characters that none of the escaped ones has. -/
def Plain (goesOn : CodeUnit → Bool) : Prop := goesOn 0x24 = false ∧ goesOn 0x7D = false ∧ goesOn 0x5C = false

def Ends (rest : JsString) : Prop := rest = [] ∨ rest = [0x7D]

theorem Plain.escape_cons {goesOn : CodeUnit → Bool} (h : Plain goesOn) {ch : CodeUnit}
    (hch : goesOn ch = true) (s : JsString) : escape (ch :: s) = ch :: escape s := by
  rw [Snippet.escape_cons, if_neg]
  · rfl
  · rintro (rfl | rfl | rfl)
    · exact absurd hch (by simp [h.1])
    · exact absurd hch (by simp [h.2.1])
    · exact absurd hch (by simp [h.2.2])

theorem Plain.span_escape {goesOn : CodeUnit → Bool} (h : Plain goesOn) {rest : JsString}
    (hrest : Ends rest) (s : JsString) :
    (escape s ++ rest).takeWhile goesOn = s.takeWhile goesOn ∧
      (escape s ++ rest).dropWhile goesOn = escape (s.dropWhile goesOn) ++ rest := by
  induction s with
  | nil =>
    rcases hrest with rfl | rfl
    · exact ⟨rfl, rfl⟩
    · simp [escape, h.2.1]
  | cons ch s ih =>
    by_cases hch : goesOn ch = true
    · rw [h.escape_cons hch, cons_append, takeWhile_cons_of_pos hch, dropWhile_cons_of_pos hch,
        takeWhile_cons_of_pos hch, dropWhile_cons_of_pos hch, ih.1, ih.2]
      exact ⟨rfl, rfl⟩
    · rw [takeWhile_cons_of_neg hch, dropWhile_cons_of_neg hch]
      rw [Snippet.escape_cons]
      have hslash : ¬goesOn 0x5C = true := by simp [h.2.2]
      split_ifs
      · exact ⟨takeWhile_cons_of_neg hslash, dropWhile_cons_of_neg hslash⟩
      · exact ⟨takeWhile_cons_of_neg hch, dropWhile_cons_of_neg hch⟩

namespace Scanner

theorem plain_isDigitCharacter : Plain isDigitCharacter := ⟨by decide, by decide, by decide⟩

theorem plain_isNameCharacter : Plain isNameCharacter := ⟨by decide, by decide, by decide⟩

theorem plain_isFormatCharacter : Plain isFormatCharacter := ⟨by decide, by decide, by decide⟩

def isEscaped (type : TokenType) : Bool := type = .dollar || type = .curlyClose || type = .backslash

inductive EscapedTokens : List Token → JsString → Prop
  | nil : EscapedTokens [] []
  | escaped {type : TokenType} {ch : CodeUnit} {ts : List Token} {s : JsString} :
      isEscaped type = true → EscapedTokens ts s →
      EscapedTokens (⟨.backslash, [0x5C]⟩ :: ⟨type, [ch]⟩ :: ts) (ch :: s)
  | plain {token : Token} {ts : List Token} {s : JsString} : isEscaped token.type = false →
      EscapedTokens ts s → EscapedTokens (token :: ts) (token.text ++ s)

theorem mem_table {ch : CodeUnit} {type : TokenType} (h : table.lookup ch = some type) :
    (ch, type) ∈ table := by
  obtain ⟨before, after, hsplit, -⟩ := lookup_eq_some_iff.mp h
  rw [hsplit]
  exact mem_append_right _ mem_cons_self

theorem table_eq_some {ch : CodeUnit} {type : TokenType} (h : table.lookup ch = some type) :
    isEscaped type = true ↔ ch = 0x24 ∨ ch = 0x7D ∨ ch = 0x5C := by
  have hall : ∀ entry ∈ table, (isEscaped entry.2 = true ↔
      entry.1 = 0x24 ∨ entry.1 = 0x7D ∨ entry.1 = 0x5C) := by decide
  exact hall (ch, type) (mem_table h)

theorem table_eq_none {ch : CodeUnit} (h : table.lookup ch = none) :
    ¬(ch = 0x24 ∨ ch = 0x7D ∨ ch = 0x5C) := by
  rintro (rfl | rfl | rfl)
  all_goals exact absurd h (by decide)

theorem starts_no_run {ch : CodeUnit} {type : TokenType} (h : table.lookup ch = some type) :
    isDigitCharacter ch = false ∧ isVariableCharacter ch = false := by
  have hall : ∀ entry ∈ table, isDigitCharacter entry.1 = false ∧ isVariableCharacter entry.1 = false := by decide
  exact hall (ch, type) (mem_table h)

theorem not_isDigitCharacter {ch : CodeUnit} (h : isVariableCharacter ch = true) :
    ¬isDigitCharacter ch = true := by
  simp only [isVariableCharacter, isDigitCharacter, Bool.or_eq_true, Bool.and_eq_true,
    decide_eq_true_eq, UInt16.le_iff_toNat_le, not_and, not_le] at h ⊢
  intro hle
  rcases h with (h | ⟨h, -⟩) | ⟨h, -⟩
  · subst h
    decide
  · exact lt_of_lt_of_le (by decide) h
  · exact lt_of_lt_of_le (by decide) h

theorem tokens_cons_static {ch : CodeUnit} {type : TokenType} (h : table.lookup ch = some type)
    (value : JsString) : tokens (ch :: value) = ⟨type, [ch]⟩ :: tokens value := by
  rw [tokens, next, h]

theorem tokens_escape {rest : JsString} (hrest : Ends rest) (s : JsString) :
    ∃ body, tokens (escape s ++ rest) = body ++ tokens rest ∧ EscapedTokens body s := by
  induction hn : s.length using Nat.strong_induction_on generalizing s with
  | h n ih =>
    cases s with
    | nil => exact ⟨[], rfl, .nil⟩
    | cons ch s =>
      -- a run of characters is one token, and the rest of the text is shorter
      have hrun (type : TokenType) (goesOn : CodeUnit → Bool) (htype : isEscaped type = false)
          (hplain : Plain goesOn) (hnext : ∀ value, next ch value = run type goesOn ch value)
          (hch : ¬(ch = 0x24 ∨ ch = 0x7D ∨ ch = 0x5C)) :
          ∃ body, tokens (escape (ch :: s) ++ rest) = body ++ tokens rest ∧
            EscapedTokens body (ch :: s) := by
        have hspan := hplain.span_escape hrest s
        have hlt : (s.dropWhile goesOn).length < n := by
          rw [← hn, length_cons]
          exact Nat.lt_succ_of_le (dropWhile_sublist _).length_le
        obtain ⟨body, hbody, hescaped⟩ := ih _ hlt (s.dropWhile goesOn) rfl
        refine ⟨⟨type, ch :: s.takeWhile goesOn⟩ :: body, ?_, ?_⟩
        · rw [escape_cons, if_neg hch, singleton_append, cons_append, tokens, hnext,
            run, hspan.1, hspan.2, hbody, cons_append]
        · have h := @EscapedTokens.plain ⟨type, ch :: s.takeWhile goesOn⟩ _ _ htype hescaped
          simp only [cons_append, takeWhile_append_dropWhile] at h
          exact h
      have hlt : s.length < n := by
        rw [← hn, length_cons]
        exact Nat.lt_succ_self _
      obtain ⟨body, hbody, hescaped⟩ := ih _ hlt s rfl
      cases htable : table.lookup ch with
      | some type =>
        by_cases hch : ch = 0x24 ∨ ch = 0x7D ∨ ch = 0x5C
        · refine ⟨⟨.backslash, [0x5C]⟩ :: ⟨type, [ch]⟩ :: body, ?_, .escaped ((table_eq_some htable).mpr hch) hescaped⟩
          rw [escape_cons, if_pos hch, cons_append, singleton_append, cons_append, cons_append,
            @tokens_cons_static 0x5C .backslash (by decide), tokens_cons_static htable, hbody, cons_append, cons_append]
        · have htype : isEscaped type = false := by
            rw [Bool.eq_false_iff]
            exact fun h => hch ((table_eq_some htable).mp h)
          refine ⟨⟨type, [ch]⟩ :: body, ?_, .plain htype hescaped⟩
          rw [escape_cons, if_neg hch, singleton_append, cons_append, tokens_cons_static htable, hbody, cons_append]
      | none =>
        have hch := table_eq_none htable
        by_cases hdigit : isDigitCharacter ch = true
        · exact hrun .int isDigitCharacter rfl plain_isDigitCharacter
            (fun value => by simp only [next, htable, if_pos hdigit]) hch
        · by_cases hvariable : isVariableCharacter ch = true
          · exact hrun .variableName isNameCharacter rfl plain_isNameCharacter
              (fun value => by simp only [next, htable, if_neg hdigit, if_pos hvariable]) hch
          · exact hrun .format isFormatCharacter rfl plain_isFormatCharacter
              (fun value => by simp only [next, htable, if_neg hdigit, if_neg hvariable]) hch

end Scanner

/-- Placeholders and variables. -/
def Marker.isInner : Marker R → Bool
  | .leaf _ _ _ => false
  | .inner _ _ _ _ => true

def inners (ms : List (Marker R)) : List (Marker R) := (markersOf ms).filter Marker.isInner

theorem inners_append (l l' : List (Marker R)) : inners (l ++ l') = inners l ++ inners l' := by
  rw [inners, markersOf_append, filter_append]
  rfl

theorem toString_setParent (parent : Nat) (m : Marker R) :
    (m.setParent parent).toString = m.toString := by
  cases m with
  | leaf id p kind => rfl
  | inner id p kind children => rfl

theorem toStrings_appendChild (id : Nat) (children : List (Marker R)) (child : Marker R) :
    toStrings (appendChild id children child) = toStrings children ++ child.toString := by
  unfold appendChild
  split
  next last parent before id' parent' value hlast =>
      obtain ⟨init, rfl⟩ := getLast?_eq_some_iff.mp hlast
      rw [dropLast_concat, toStrings_append, toStrings_append, append_assoc]
      simp [toStrings, Marker.toString, LeafKind.toString]
  next =>
      rw [toStrings_append]
      simp [toStrings, toString_setParent]

theorem inners_appendChild_leaf (id n : Nat) (parent : Option Nat) (kind : LeafKind)
    (children : List (Marker R)) :
    inners (appendChild id children (.leaf n parent kind)) = inners children := by
  unfold appendChild
  split
  next last lastParent before id' parent' value hlast _ =>
      obtain ⟨init, rfl⟩ := getLast?_eq_some_iff.mp hlast
      rw [dropLast_concat, inners_append, inners_append]
      rfl
  next =>
      rw [inners_append]
      exact append_nil _

namespace SnippetParser

variable {regExp : RegExpClass R} {n : Nat} {ts : List Token} {s : JsString}

theorem accept_of_ne {token : Token} {type : TokenType} (h : token.type ≠ type) :
    accept type (token :: ts) = none := by
  rw [accept, if_neg h]

theorem parseMarker_escaped (fuel : Nat) {type : TokenType} {ch : CodeUnit}
    (htype : Scanner.isEscaped type = true) :
    parseMarker regExp (fuel + 1) (⟨.backslash, [0x5C]⟩ :: ⟨type, [ch]⟩ :: ts) n =
      some ([.leaf n none (.Text [ch])], ts, n + 1) := by
  have hescaped : (parseEscaped (⟨.backslash, [0x5C]⟩ :: ⟨type, [ch]⟩ :: ts) n :
      Option (Parsed R)) = some ([.leaf n none (.Text [ch])], ts, n + 1) := by
    cases type with
    | dollar | curlyClose | backslash => rfl
    | _ => cases htype
  rw [parseMarker, hescaped]
  rfl

theorem parseMarker_plain (fuel : Nat) {token : Token}
    (htype : Scanner.isEscaped token.type = false) :
    parseMarker regExp (fuel + 1) (token :: ts) n =
      some ([.leaf n none (.Text token.text)], ts, n + 1) := by
  have hdollar : accept .dollar (token :: ts) = none := accept_of_ne fun h => by simp [Scanner.isEscaped, h] at htype
  have hbackslash : accept .backslash (token :: ts) = none :=
    accept_of_ne fun h => by simp [Scanner.isEscaped, h] at htype
  rw [parseMarker, parseEscaped, hbackslash, parseTabstopOrVariableName, hdollar,
    parseComplexPlaceholder, hdollar, parseComplexVariable, hdollar]
  rfl

theorem exists_parseMarker {body : List Token} (h : Scanner.EscapedTokens body s) (hne : body ≠ [])
    (fuel : Nat) (rest : List Token) (n : Nat) : ∃ value body' s',
      parseMarker regExp (fuel + 1) (body ++ rest) n = some ([.leaf n none (.Text value)], body' ++ rest, n + 1) ∧
      Scanner.EscapedTokens body' s' ∧ s = value ++ s' ∧ body'.length < body.length := by
  cases h with
  | nil => exact absurd rfl hne
  | @escaped type ch ts s htype hts => exact ⟨[ch], ts, s, parseMarker_escaped fuel htype, hts, rfl, by simp⟩
  | @plain token ts s htype hts => exact ⟨token.text, ts, s, parseMarker_plain fuel htype, hts, rfl, by simp⟩

theorem parseDefault_escaped {body : List Token} (h : Scanner.EscapedTokens body s)
    (fuel id : Nat) (hfuel : body.length < fuel) (rest : List Token) (children : List (Marker R))
    (n : Nat) : ∃ children' n',
      parseDefault regExp fuel id (body ++ ⟨.curlyClose, [0x7D]⟩ :: rest) children n = (children', rest, n', true) ∧
      toStrings children' = toStrings children ++ s ∧ inners children' = inners children := by
  induction fuel generalizing body s children n with
  | zero => exact absurd hfuel (Nat.not_lt_zero _)
  | succ fuel ih =>
    by_cases hne : body = []
    · subst hne
      cases h with
      | nil => exact ⟨children, n, rfl, (append_nil _).symm, rfl⟩
    · have hclose : accept .curlyClose (body ++ ⟨.curlyClose, [0x7D]⟩ :: rest) = none := by
        cases h with
        | nil => exact absurd rfl hne
        | escaped htype hts => exact accept_of_ne (by decide)
        | plain htype hts => exact accept_of_ne fun h => by simp [Scanner.isEscaped, h] at htype
      obtain ⟨value, body', s', hparse, hbody', rfl, hlt⟩ :=
        @exists_parseMarker _ regExp _ _ h hne (fuel - 1) (⟨.curlyClose, [0x7D]⟩ :: rest) n
      have hpos : fuel - 1 + 1 = fuel := by
        have := length_pos_of_ne_nil hne
        omega
      rw [hpos] at hparse
      obtain ⟨children', n', hdefault, htext, hinners⟩ := ih hbody' (by omega)
        (appendChild id children (.leaf n none (.Text value))) (n + 1)
      refine ⟨children', n', ?_, ?_, ?_⟩
      · rw [parseDefault, hclose, hparse]
        exact hdefault
      · rw [htext, toStrings_appendChild, append_assoc]
        rfl
      · rw [hinners, inners_appendChild_leaf]

theorem parseMarker_nil (fuel n : Nat) : parseMarker regExp fuel [] n = none := by
  cases fuel with
  | zero => rfl
  | succ fuel => rfl

theorem parseLoop_escaped {body : List Token} (h : Scanner.EscapedTokens body s) (fuel : Nat)
    (hfuel : body.length < fuel) (snippet : TextmateSnippet R) :
    (parseLoop regExp fuel body snippet).toString = snippet.toString ++ s ∧
      inners (parseLoop regExp fuel body snippet).children = inners snippet.children := by
  induction fuel generalizing body s snippet with
  | zero => exact absurd hfuel (Nat.not_lt_zero _)
  | succ fuel ih =>
    by_cases hne : body = []
    · subst hne
      cases h with
      | nil =>
        rw [parseLoop, parseMarker_nil]
        exact ⟨(append_nil _).symm, rfl⟩
    · obtain ⟨value, body', s', hparse, hbody', rfl, hlt⟩ :=
        @exists_parseMarker _ regExp _ _ h hne (body.length + 1) [] snippet.nextId
      rw [append_nil, append_nil] at hparse
      obtain ⟨htext, hinners⟩ := ih hbody' (by omega)
        ⟨appendChild 0 snippet.children (.leaf snippet.nextId none (.Text value)), snippet.nextId + 1⟩
      rw [parseLoop, fuelFor, hparse]
      refine ⟨htext.trans ?_, hinners.trans (inners_appendChild_leaf _ _ _ _ _)⟩
      rw [TextmateSnippet.toString, toStrings_appendChild, append_assoc]
      rfl

theorem collect_eq (snippet : TextmateSnippet R) :
    collect snippet = (inners snippet.children).foldl collectMarker ([], []) := by
  rw [collect, walk_eq, visit_eq_foldl (fun _ _ => rfl), inners, foldl_filter]
  refine foldl_ext _ _ _ fun state m _ => ?_
  cases m with
  | leaf id parent kind => rfl
  | inner id parent kind children => rfl

theorem parse_of_inners_nil {value : JsString} {snippet : TextmateSnippet R}
    (h : parseLoop regExp ((Scanner.tokens value).length + 1) (Scanner.tokens value)
      TextmateSnippet.new = snippet) (hinners : inners snippet.children = []) :
    parse regExp value false false = some snippet := by
  rw [parse, parseFragment, h]
  simp only [collect_eq, hinners]
  rfl

theorem parse_of_inners_singleton {value : JsString} {snippet : TextmateSnippet R} {id : Nat}
    {kind : InnerKind R} {children : List (Marker R)}
    (h : parseLoop regExp ((Scanner.tokens value).length + 1) (Scanner.tokens value) TextmateSnippet.new = snippet)
    (hinners : inners snippet.children = [.inner id (some 0) kind children]) :
    parse regExp value false false = some snippet := by
  rw [parse, parseFragment, h]
  simp only [collect_eq, hinners, foldl_cons, foldl_nil]
  cases kind with
  | Variable name transform => rfl
  | Placeholder index transform =>
    rw [collectMarker]
    split_ifs
    · rfl
    · rfl
    · rfl

theorem exists_parse_default {value text : JsString} {start : List Token} {kind : InnerKind R}
    {rest : JsString} (hrest : rest = escape s ++ [0x7D])
    (htokens : Scanner.tokens value = start ++ Scanner.tokens rest)
    (hstart : ∀ fuel ts, parseMarker regExp (fuel + 1) (start ++ ts) 1 =
      afterColon (fun id ts => parseDefault regExp fuel id ts []) text kind ts 1) :
    ∃ snippet id parent children, parse regExp value false false = some snippet ∧
      inners snippet.children = [.inner id parent kind children] ∧ toStrings children = s := by
  obtain ⟨body, hbody, hescaped⟩ := Scanner.tokens_escape (Or.inr rfl) s
  have hclose : Scanner.tokens [0x7D] = [⟨.curlyClose, [0x7D]⟩] := by
    rw [@Scanner.tokens_cons_static 0x7D .curlyClose (by decide), Scanner.tokens]
  rw [hrest, hbody, hclose] at htokens
  have hlen : (Scanner.tokens value).length = (start ++ body).length + 1 := by
    rw [htokens, ← append_assoc, length_append]
    rfl
  obtain ⟨children, n', hdefault, htext, hinners⟩ :=
    @parseDefault_escaped _ regExp _ _ hescaped ((start ++ body).length + 2) 1 (by rw [length_append]; omega) [] [] 2
  have hmarker : parseMarker regExp (fuelFor (Scanner.tokens value)) (Scanner.tokens value) 1 =
      some ([.inner 1 none kind children], [], n') := by
    rw [fuelFor, hlen, htokens, hstart, afterColon, hdefault]
  have hloop : parseLoop regExp ((Scanner.tokens value).length + 1) (Scanner.tokens value)
      TextmateSnippet.new = ⟨[.inner 1 (some 0) kind children], n'⟩ := by
    rw [parseLoop, TextmateSnippet.new]
    simp only
    rw [hmarker, hlen]
    simp only [parseLoop, parseMarker_nil]
    rfl
  have hone : inners [.inner 1 (some 0) kind children] = [.inner 1 (some 0) kind children] := by
    rw [inners, markersOf_singleton, Marker.markers, filter_cons_of_pos rfl]
    congr 1
  exact ⟨_, 1, some 0, children, parse_of_inners_singleton hloop hone, hone, htext⟩

theorem exists_afterColon (loop : Nat → List Token → Nat →
      List (Marker R) × List Token × Nat × Bool) (start : JsString) (kind : InnerKind R) (ts : List Token) (n : Nat) :
    ∃ parsed, afterColon loop start kind ts n = some parsed := by
  rw [afterColon]
  split
  all_goals exact ⟨_, rfl⟩

theorem parseMarker_placeholder (fuel : Nat) (digits : JsString) (ts : List Token) (n : Nat) :
    parseMarker regExp (fuel + 1) ([⟨.dollar, [0x24]⟩, ⟨.curlyOpen, [0x7B]⟩, ⟨.int, digits⟩,
      ⟨.colon, [0x3A]⟩] ++ ts) n = afterColon (fun id ts => parseDefault regExp fuel id ts [])
        digits (.Placeholder (toNumber digits) none) ts n := by
  obtain ⟨parsed, hparsed⟩ := exists_afterColon (fun id ts => parseDefault regExp fuel id ts [])
    digits (.Placeholder (toNumber digits) none) ts n
  have hcomplex : parseComplexPlaceholder regExp (fun id ts => parseDefault regExp fuel id ts [])
      ([⟨.dollar, [0x24]⟩, ⟨.curlyOpen, [0x7B]⟩, ⟨.int, digits⟩, ⟨.colon, [0x3A]⟩] ++ ts) n = some parsed := hparsed
  rw [parseMarker, hcomplex, hparsed]
  rfl

theorem parseMarker_variable (fuel : Nat) (name : JsString) (ts : List Token) (n : Nat) :
    parseMarker regExp (fuel + 1) ([⟨.dollar, [0x24]⟩, ⟨.curlyOpen, [0x7B]⟩,
      ⟨.variableName, name⟩, ⟨.colon, [0x3A]⟩] ++ ts) n =
        afterColon (fun id ts => parseDefault regExp fuel id ts []) name (.Variable name none) ts
          n := by
  obtain ⟨parsed, hparsed⟩ := exists_afterColon (fun id ts => parseDefault regExp fuel id ts [])
    name (.Variable name none) ts n
  have hcomplex : parseComplexVariable regExp (fun id ts => parseDefault regExp fuel id ts [])
      ([⟨.dollar, [0x24]⟩, ⟨.curlyOpen, [0x7B]⟩, ⟨.variableName, name⟩, ⟨.colon, [0x3A]⟩] ++ ts) n =
        some parsed := hparsed
  rw [parseMarker, hcomplex, hparsed]
  rfl

theorem tokens_digits {digits : JsString} (hne : digits ≠ [])
    (hdigits : ∀ ch ∈ digits, Scanner.isDigitCharacter ch = true) (rest : JsString) :
    Scanner.tokens (digits ++ 0x3A :: rest) =
      ⟨.int, digits⟩ :: Scanner.tokens (0x3A :: rest) := by
  obtain ⟨ch, digits, rfl⟩ := exists_cons_of_ne_nil hne
  obtain ⟨hch, hdigits⟩ := forall_mem_cons.mp hdigits
  have htable : Scanner.table.lookup ch = none := by
    cases h : Scanner.table.lookup ch with
    | none => rfl
    | some type => exact absurd hch (by simp [(Scanner.starts_no_run h).1])
  have hcolon : ¬Scanner.isDigitCharacter 0x3A = true := by decide
  rw [cons_append, Scanner.tokens, Scanner.next, htable]
  simp only [if_pos hch, Scanner.run, takeWhile_append_of_pos hdigits, dropWhile_append_of_pos hdigits,
    takeWhile_cons_of_neg hcolon, dropWhile_cons_of_neg hcolon, append_nil]

def IsName (name : JsString) : Prop :=
  (∃ ch ∈ name.head?, Scanner.isVariableCharacter ch = true) ∧ ∀ ch ∈ name, Scanner.isNameCharacter ch = true

theorem tokens_name {name : JsString} (h : IsName name) (rest : JsString) :
    Scanner.tokens (name ++ 0x3A :: rest) =
      ⟨.variableName, name⟩ :: Scanner.tokens (0x3A :: rest) := by
  obtain ⟨⟨ch, hhead, hch⟩, hname⟩ := h
  obtain ⟨name, rfl⟩ := head?_eq_some_iff.mp hhead
  obtain ⟨-, hname⟩ := forall_mem_cons.mp hname
  have htable : Scanner.table.lookup ch = none := by
    cases h : Scanner.table.lookup ch with
    | none => rfl
    | some type => exact absurd hch (by simp [(Scanner.starts_no_run h).2])
  have hdigit := Scanner.not_isDigitCharacter hch
  have hcolon : ¬Scanner.isNameCharacter 0x3A = true := by decide
  rw [cons_append, Scanner.tokens, Scanner.next, htable]
  simp only [if_neg hdigit, if_pos hch, Scanner.run, takeWhile_append_of_pos hname,
    dropWhile_append_of_pos hname, takeWhile_cons_of_neg hcolon, dropWhile_cons_of_neg hcolon, append_nil]

theorem tokens_start (rest : JsString) : Scanner.tokens (0x24 :: 0x7B :: rest) =
    ⟨.dollar, [0x24]⟩ :: ⟨.curlyOpen, [0x7B]⟩ :: Scanner.tokens rest := by
  rw [@Scanner.tokens_cons_static 0x24 .dollar (by decide), @Scanner.tokens_cons_static 0x7B .curlyOpen (by decide)]

theorem tokens_colon (rest : JsString) :
    Scanner.tokens (0x3A :: rest) = ⟨.colon, [0x3A]⟩ :: Scanner.tokens rest :=
  @Scanner.tokens_cons_static 0x3A .colon (by decide) rest

/-- What is escaped comes out as it is: as a snippet, as the default of a placeholder and as the
default of a variable; and at the offset of a placeholder stands its text. -/
theorem escape_embeds (regExp : RegExpClass R) :
    (∀ s, ∃ snippet, parse regExp (escape s) false false = some snippet ∧
      inners snippet.children = [] ∧ snippet.toString = s) ∧
    (∀ s n, n ≠ [] → (∀ ch ∈ n, Scanner.isDigitCharacter ch = true) →
      ∃ snippet id parent children,
        parse regExp ([0x24, 0x7B] ++ n ++ [0x3A] ++ escape s ++ [0x7D]) false false = some snippet ∧
        inners snippet.children = [.inner id parent (.Placeholder (toNumber n) none) children] ∧
        toStrings children = s) ∧
    (∀ s name, IsName name → ∃ snippet id parent children,
        parse regExp ([0x24, 0x7B] ++ name ++ [0x3A] ++ escape s ++ [0x7D]) false false = some snippet ∧
        inners snippet.children = [.inner id parent (.Variable name none) children] ∧
        toStrings children = s) ∧
    ∀ value insertFinalTabstop enforceFinalTabstop snippet,
      parse regExp value insertFinalTabstop enforceFinalTabstop = some snippet →
      ∀ p ∈ snippet.placeholders, substring snippet.toString (snippet.offset p)
        (snippet.offset p + TextmateSnippet.fullLen p) = p.toString := by
  refine ⟨fun s => ?_, fun s n hne hdigits => ?_, fun s name hname => ?_,
    fun value insert enforce snippet h p hp => TextmateSnippet.substring_offset
      (parse_numbered h).nodup (TextmateSnippet.mem_of_mem_placeholders hp)⟩
  · obtain ⟨body, hbody, hescaped⟩ := Scanner.tokens_escape (Or.inl rfl) s
    rw [append_nil, Scanner.tokens, append_nil] at hbody
    obtain ⟨htext, hinners⟩ := @parseLoop_escaped _ regExp _ _ hescaped (body.length + 1)
      (Nat.lt_succ_self _) TextmateSnippet.new
    rw [← hbody] at htext hinners
    exact ⟨_, parse_of_inners_nil rfl hinners, hinners, htext⟩
  · refine exists_parse_default rfl ?_ fun fuel ts => parseMarker_placeholder fuel n ts 1
    simp only [append_assoc, cons_append, nil_append]
    rw [tokens_start, tokens_digits hne hdigits, tokens_colon]
  · refine exists_parse_default rfl ?_ fun fuel ts => parseMarker_variable fuel name ts 1
    simp only [append_assoc, cons_append, nil_append]
    rw [tokens_start, tokens_name hname, tokens_colon]

/-- Signs that are escaped, alone and in the default of a placeholder and of a variable. -/
theorem escape_embeds_signs :
    let regExp : RegExpClass (JsString × JsString) :=
      ⟨fun pattern flags => some (pattern, flags), Prod.fst, fun r => r.2.contains 0x69, fun r => r.2.contains 0x67⟩
    (∃ snippet, parse regExp (escape [0x24, 0x31]) false false = some snippet ∧
      inners snippet.children = [] ∧ snippet.toString = [0x24, 0x31]) ∧
    (∃ snippet id parent children,
      parse regExp ([0x24, 0x7B] ++ [0x31] ++ [0x3A] ++ escape [0x7D] ++ [0x7D]) false false = some snippet ∧
      inners snippet.children = [.inner id parent (.Placeholder (toNumber [0x31]) none) children] ∧
      toStrings children = [0x7D] ∧ ∀ p ∈ snippet.placeholders, substring snippet.toString
        (snippet.offset p) (snippet.offset p + TextmateSnippet.fullLen p) = p.toString) ∧
    ∃ snippet id parent children,
      parse regExp ([0x24, 0x7B] ++ [0x61] ++ [0x3A] ++ escape [0x5C] ++ [0x7D]) false false = some snippet ∧
      inners snippet.children = [.inner id parent (.Variable [0x61] none) children] ∧
      toStrings children = [0x5C] := by
  intro regExp
  obtain ⟨hescape, hplaceholder, hvariable, hoffset⟩ := escape_embeds regExp
  obtain ⟨snippet, id, parent, children, hparse, hinners, htext⟩ :=
    hplaceholder [0x7D] [0x31] (cons_ne_nil _ _) (forall_mem_singleton.mpr rfl)
  exact ⟨hescape [0x24, 0x31], ⟨snippet, id, parent, children, hparse, hinners, htext,
    hoffset _ _ _ snippet hparse⟩, hvariable [0x5C] [0x61] ⟨⟨0x61, rfl, rfl⟩, forall_mem_singleton.mpr rfl⟩⟩

end SnippetParser

end Gavea.Snippet
