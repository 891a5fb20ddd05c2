import Gavea.Lib.JsonNumber
import Gavea.Lib.Collections
import Gavea.Lib.Utf8

namespace Gavea.Lib.Js

open List

/-- A JSON value; the members of an object are in the order of its enumeration. -/
inductive Json
  | null
  | bool (value : Bool)
  | number (value : Number)
  | string (value : JsString)
  | array (items : List Json)
  | object (members : List (JsString × Json))

namespace Json

/-- The property of an object under a key; other values have none of the keys read here. -/
def get? (value : Json) (key : JsString) : Option Json :=
  match value with
  | .object members => (members.find? fun m => m.1 == key).map Prod.snd
  | _ => none

mutual

def text : Json → List Char
  | .null => ['n', 'u', 'l', 'l']
  | .bool true => ['t', 'r', 'u', 'e']
  | .bool false => ['f', 'a', 'l', 's', 'e']
  | .number value => value.text
  | .string value => quote value
  | .array [] => ['[', ']']
  | .array (item :: items) => '[' :: (item.text ++ itemsText items)
  | .object [] => ['{', '}']
  | .object ((key, value) :: members) => '{' :: (quote key ++ ':' :: (value.text ++ membersText members))

def itemsText : List Json → List Char
  | [] => [']']
  | item :: items => ',' :: (item.text ++ itemsText items)

def membersText : List (JsString × Json) → List Char
  | [] => ['}']
  | (key, value) :: members => ',' :: (quote key ++ ':' :: (value.text ++ membersText members))

end

mutual

/-- The keys of every object in the value differ, as they do in an object of the language. -/
def WellFormed : Json → Prop
  | .array items => ItemsWellFormed items
  | .object members => (members.map Prod.fst).Nodup ∧ MembersWellFormed members
  | _ => True

def ItemsWellFormed : List Json → Prop
  | [] => True
  | item :: items => item.WellFormed ∧ ItemsWellFormed items

def MembersWellFormed : List (JsString × Json) → Prop
  | [] => True
  | (_, value) :: members => value.WellFormed ∧ MembersWellFormed members

end

def isWhitespace (c : Char) : Bool := c == ' ' || c == '\t' || c == '\n' || c == '\r'

def skipWhitespace (s : List Char) : List Char := s.dropWhile isWhitespace

def objectOf (members : List (JsString × Json)) : Json :=
  .object (members.foldl (fun acc m => setFirst (fun m' => m'.1 == m.1) m acc) [])

def keyword (word : List Char) (value : Json) (s : List Char) : Option (Json × List Char) :=
  if word.isPrefixOf s then some (value, s.drop word.length) else none

def parseNumber (s : List Char) : Option (Json × List Char) :=
  if h : isNumber (s.takeWhile isNumberChar) = true then
    some (.number ⟨s.takeWhile isNumberChar, h⟩, s.dropWhile isNumberChar)
  else none

mutual

def parseValue : Nat → List Char → Option (Json × List Char)
  | 0, _ => none
  | fuel + 1, s =>
    match skipWhitespace s with
    | [] => none
    | c :: rest =>
      if c = '"' then (parseString rest).map fun p => (.string p.1, p.2)
      else if c = '[' then
        if (skipWhitespace rest).head? = some ']' then
          some (.array [], (skipWhitespace rest).tail)
        else (parseItems fuel rest).map fun p => (.array p.1, p.2)
      else if c = '{' then
        if (skipWhitespace rest).head? = some '}' then
          some (.object [], (skipWhitespace rest).tail)
        else (parseMembers fuel rest).map fun p => (objectOf p.1, p.2)
      else if c = 'n' then keyword ['n', 'u', 'l', 'l'] .null (c :: rest)
      else if c = 't' then keyword ['t', 'r', 'u', 'e'] (.bool true) (c :: rest)
      else if c = 'f' then keyword ['f', 'a', 'l', 's', 'e'] (.bool false) (c :: rest)
      else parseNumber (c :: rest)

def parseItems : Nat → List Char → Option (List Json × List Char)
  | 0, _ => none
  | fuel + 1, s =>
    (parseValue fuel s).bind fun p =>
      match skipWhitespace p.2 with
      | [] => none
      | c :: rest =>
        if c = ',' then (parseItems fuel rest).map fun q => (p.1 :: q.1, q.2)
        else if c = ']' then some ([p.1], rest)
        else none

def parseMembers : Nat → List Char → Option (List (JsString × Json) × List Char)
  | 0, _ => none
  | fuel + 1, s =>
    match skipWhitespace s with
    | [] => none
    | c :: rest =>
      if c = '"' then
        (parseString rest).bind fun k =>
          match skipWhitespace k.2 with
          | [] => none
          | c :: rest =>
            if c = ':' then
              (parseValue fuel rest).bind fun p =>
                match skipWhitespace p.2 with
                | [] => none
                | c :: rest =>
                  if c = ',' then
                    (parseMembers fuel rest).map fun q => ((k.1, p.1) :: q.1, q.2)
                  else if c = '}' then some ([(k.1, p.1)], rest)
                  else none
            else none
      else none

end

def parse (s : List Char) : Option Json :=
  (parseValue (s.length + 1) s).bind fun p => if skipWhitespace p.2 = [] then some p.1 else none

@[simp] theorem skipWhitespace_cons {c : Char} (h : isWhitespace c = false) (s : List Char) :
    skipWhitespace (c :: s) = c :: s := by
  simp [skipWhitespace, h]

def EndsNumber (rest : List Char) : Prop := ∀ c ∈ rest.head?, isNumberChar c = false

theorem endsNumber_cons {c : Char} (h : isNumberChar c = false) (s : List Char) :
    EndsNumber (c :: s) := by
  rintro c' hc'
  obtain rfl := Option.some.inj hc'
  exact h

theorem endsNumber_itemsText (items : List Json) (rest : List Char) :
    EndsNumber (itemsText items ++ rest) := by
  cases items <;> exact endsNumber_cons (by decide) _

theorem endsNumber_membersText (members : List (JsString × Json)) (rest : List Char) :
    EndsNumber (membersText members ++ rest) := by
  cases members with
  | nil => exact endsNumber_cons (by decide) _
  | cons m members => exact endsNumber_cons (by decide) _

theorem parseNumber_text (n : Number) {rest : List Char} (h : EndsNumber rest) :
    parseNumber (n.text ++ rest) = some (.number n, rest) := by
  have hall : ∀ c ∈ n.text, isNumberChar c = true := by
    have hv := n.valid
    simp only [isNumber, Bool.and_eq_true] at hv
    exact all_eq_true.mp hv.1.1.1
  have htake : (n.text ++ rest).takeWhile isNumberChar = n.text := by
    rw [takeWhile_append_of_pos hall]
    cases rest with
    | nil => simp
    | cons c rest => simp [h c rfl]
  have hdrop : (n.text ++ rest).dropWhile isNumberChar = rest := by
    rw [dropWhile_append_of_pos hall]
    cases rest with
    | nil => rfl
    | cons c rest => simp [h c rfl]
  simp only [parseNumber, htake, hdrop, n.valid, dite_true]

theorem number_text_cons (n : Number) :
    ∃ c t, n.text = c :: t ∧ isNumberChar c = true := by
  have hv := n.valid
  simp only [isNumber, Bool.and_eq_true] at hv
  cases ht : n.text with
  | nil => simp [ht, dropSign] at hv
  | cons c t =>
    rw [ht] at hv
    exact ⟨c, t, rfl, all_eq_true.mp hv.1.1.1 c mem_cons_self⟩

theorem objectOf_append (acc members : List (JsString × Json))
    (h : ((acc ++ members).map Prod.fst).Nodup) :
    members.foldl (fun acc m => setFirst (fun m' => m'.1 == m.1) m acc) acc = acc ++ members := by
  induction members generalizing acc with
  | nil => simp
  | cons m members ih =>
    have hset : setFirst (fun m' => m'.1 == m.1) m acc = acc ++ [m] := by
      have hnot : ∀ m' ∈ acc, m'.1 ≠ m.1 := by
        intro m' hm' heq
        rw [map_append, nodup_append] at h
        exact h.2.2 m'.1 (mem_map_of_mem hm') m.1 (by simp) heq
      clear h ih
      induction acc with
      | nil => rfl
      | cons a acc ih =>
        have ha : (a.1 == m.1) = false := by simpa using hnot a mem_cons_self
        rw [setFirst, if_neg (by simp [ha]), ih fun m' hm' => hnot m' (mem_cons_of_mem a hm')]
        rfl
    rw [foldl_cons, hset, ih]
    · simp
    · simpa using h

theorem objectOf_of_nodup {members : List (JsString × Json)}
    (h : (members.map Prod.fst).Nodup) : objectOf members = .object members := by
  rw [objectOf, objectOf_append [] members h]
  rfl

theorem quote_append (s : JsString) (rest : List Char) :
    quote s ++ rest = '"' :: (quoteUnits s ++ '"' :: rest) := by
  simp [quote]

theorem parseValue_string (s : JsString) (fuel : Nat) (rest : List Char) :
    parseValue (fuel + 1) (quote s ++ rest) = some (.string s, rest) := by
  rw [quote_append, parseValue, skipWhitespace_cons (by decide)]
  simp only [if_true, parseString_quoteUnits, Option.map_some]

theorem parseValue_null (fuel : Nat) (rest : List Char) :
    parseValue (fuel + 1) (text .null ++ rest) = some (.null, rest) := by
  simp [text, parseValue, skipWhitespace, isWhitespace, keyword]

theorem parseValue_bool (b : Bool) (fuel : Nat) (rest : List Char) :
    parseValue (fuel + 1) (text (.bool b) ++ rest) = some (.bool b, rest) := by
  cases b <;> simp [text, parseValue, skipWhitespace, isWhitespace, keyword]

theorem parseValue_number (n : Number) (fuel : Nat) {rest : List Char} (h : EndsNumber rest) :
    parseValue (fuel + 1) (n.text ++ rest) = some (.number n, rest) := by
  obtain ⟨c, t, ht, hc⟩ := number_text_cons n
  have hall : ∀ c', isNumberChar c' = false → c ≠ c' := by
    rintro c' hc' rfl
    rw [hc] at hc'
    cases hc'
  have hspace : isWhitespace c = false := by
    simp only [isWhitespace, Bool.or_eq_false_iff, beq_eq_false_iff_ne]
    exact ⟨⟨⟨hall _ (by decide), hall _ (by decide)⟩, hall _ (by decide)⟩, hall _ (by decide)⟩
  have hparse := parseNumber_text n h
  rw [ht, cons_append] at hparse ⊢
  rw [parseValue, skipWhitespace_cons hspace]
  simp only [hall '"' (by decide), hall '[' (by decide), hall '{' (by decide),
    hall 'n' (by decide), hall 't' (by decide), hall 'f' (by decide), if_false, hparse]

theorem text_cons (v : Json) :
    ∃ c t, v.text = c :: t ∧ isWhitespace c = false ∧ c ≠ ']' ∧ c ≠ '}' := by
  cases v with
  | null => exact ⟨_, _, rfl, by decide, by decide, by decide⟩
  | bool b => cases b <;> exact ⟨_, _, rfl, by decide, by decide, by decide⟩
  | number n =>
    obtain ⟨c, t, ht, hc⟩ := number_text_cons n
    have hall : ∀ c', isNumberChar c' = false → c ≠ c' := by
      rintro c' hc' rfl
      rw [hc] at hc'
      cases hc'
    refine ⟨c, t, ht, ?_, hall _ (by decide), hall _ (by decide)⟩
    simp only [isWhitespace, Bool.or_eq_false_iff, beq_eq_false_iff_ne]
    exact ⟨⟨⟨hall _ (by decide), hall _ (by decide)⟩, hall _ (by decide)⟩, hall _ (by decide)⟩
  | string s => exact ⟨'"', quoteUnits s ++ ['"'], by simp [text, quote], by decide, by decide,
      by decide⟩
  | array items => cases items <;> exact ⟨_, _, rfl, by decide, by decide, by decide⟩
  | object members =>
    rcases members with - | ⟨⟨key, value⟩, members⟩ <;>
      exact ⟨_, _, by simp only [text]; rfl, by decide, by decide, by decide⟩

theorem toNat_lt_of_isNumberChar {c : Char} (h : isNumberChar c = true) : c.toNat < 128 := by
  simp only [isNumberChar, isDigit, Bool.or_eq_true, Bool.and_eq_true, decide_eq_true_eq, beq_iff_eq] at h
  rcases h with ((((h | rfl) | rfl) | rfl) | rfl) | rfl
  · omega
  all_goals decide

theorem head?_text_ne_byteOrderMark (v : Json) : v.text.head? ≠ some byteOrderMark := by
  cases v with
  | null => decide
  | bool b => cases b <;> decide
  | number n =>
    obtain ⟨c, t, ht, hc⟩ := number_text_cons n
    rw [text, ht, head?_cons]
    rintro heq
    obtain rfl := Option.some.inj heq
    exact absurd (toNat_lt_of_isNumberChar hc) (by decide)
  | string s => exact fun h => absurd (Option.some.inj h) (by decide)
  | array items => cases items <;> exact fun h => absurd (Option.some.inj h) (by decide)
  | object members =>
    rcases members with - | ⟨⟨key, value⟩, members⟩
    · decide
    · rw [text, head?_cons]
      exact fun h => absurd (Option.some.inj h) (by decide)

theorem length_text_pos (v : Json) : 0 < v.text.length := by
  obtain ⟨c, t, ht, -⟩ := v.text_cons
  simp [ht]

theorem head?_skipWhitespace_text (v : Json) (rest : List Char) :
    (skipWhitespace (v.text ++ rest)).head? ≠ some ']' ∧
      (skipWhitespace (v.text ++ rest)).head? ≠ some '}' := by
  obtain ⟨c, t, ht, hspace, harr, hobj⟩ := v.text_cons
  rw [ht, cons_append, skipWhitespace_cons hspace, head?_cons]
  exact ⟨fun h => harr (Option.some.inj h), fun h => hobj (Option.some.inj h)⟩

mutual

theorem parseValue_text : (v : Json) → (fuel : Nat) → (rest : List Char) →
    v.text.length ≤ fuel → v.WellFormed → EndsNumber rest → parseValue fuel (v.text ++ rest) = some (v, rest)
  | v, 0, _, h, _, _ => absurd (length_text_pos v) (by omega)
  | .null, fuel + 1, rest, _, _, _ => parseValue_null fuel rest
  | .bool b, fuel + 1, rest, _, _, _ => parseValue_bool b fuel rest
  | .number n, fuel + 1, _, _, _, hrest => parseValue_number n fuel hrest
  | .string s, fuel + 1, rest, _, _, _ => parseValue_string s fuel rest
  | .array [], fuel + 1, rest, _, _, _ => by
      simp [text, parseValue, skipWhitespace, isWhitespace]
  | .array (item :: items), fuel + 1, rest, h, hw, _ => by
      simp only [text, length_cons] at h
      have hitems := parseItems_text item items fuel rest (by omega) hw.1 hw.2
      simp only [text, cons_append, append_assoc]
      rw [parseValue, skipWhitespace_cons (by decide)]
      simp only [(head?_skipWhitespace_text item (itemsText items ++ rest)).1, if_false, if_true,
        hitems, Option.map_some, show ¬ ('[' = '"') by decide]
  | .object [], fuel + 1, rest, _, _, _ => by
      simp [text, parseValue, skipWhitespace, isWhitespace]
  | .object ((key, value) :: members), fuel + 1, rest, h, hw, _ => by
      simp only [text, length_cons, length_append] at h
      have hmembers := parseMembers_text key value members fuel rest (by
        simp only [length_append, length_cons]
        omega) hw.2.1 hw.2.2
      have hhead : (skipWhitespace
          (quote key ++ ':' :: (value.text ++ (membersText members ++ rest)))).head? ≠ some '}' := by
        rw [quote_append, skipWhitespace_cons (by decide), head?_cons]
        exact fun h => absurd (Option.some.inj h) (by decide)
      simp only [text, cons_append, append_assoc]
      rw [parseValue, skipWhitespace_cons (by decide)]
      simp only [hhead, if_false, if_true, hmembers, Option.map_some,
        show ¬ ('{' = '"') by decide, show ¬ ('{' = '[') by decide]
      rw [objectOf_of_nodup hw.1]

theorem parseItems_text : (item : Json) → (items : List Json) → (fuel : Nat) →
    (rest : List Char) → (item.text ++ itemsText items).length ≤ fuel → item.WellFormed →
      ItemsWellFormed items → parseItems fuel (item.text ++ (itemsText items ++ rest)) = some (item :: items, rest)
  | item, _, 0, _, h, _, _ => absurd (length_text_pos item) (by
      rw [length_append] at h
      omega)
  | item, [], fuel + 1, rest, h, hw, _ => by
      simp only [itemsText, length_append, length_singleton] at h
      have hitem := parseValue_text item fuel (']' :: rest) (by omega) hw (endsNumber_cons (by decide) _)
      simp only [itemsText, singleton_append]
      rw [parseItems, hitem, Option.bind_some, skipWhitespace_cons (by decide)]
      simp only [if_true, show ¬ (']' = ',') by decide, if_false]
  | item, next :: items, fuel + 1, rest, h, hw, hws => by
      have hpos := length_text_pos item
      simp only [itemsText, length_append, length_cons] at h
      have hitem := parseValue_text item fuel (itemsText (next :: items) ++ rest) (by omega) hw
        (endsNumber_itemsText _ _)
      have hitems := parseItems_text next items fuel rest (by
        rw [length_append]
        omega) hws.1 hws.2
      rw [parseItems, hitem, Option.bind_some]
      simp only [itemsText, cons_append, append_assoc]
      rw [skipWhitespace_cons (by decide)]
      simp only [if_true, hitems, Option.map_some]

theorem parseMembers_text : (key : JsString) → (value : Json) →
    (members : List (JsString × Json)) → (fuel : Nat) → (rest : List Char) →
      (quote key ++ ':' :: (value.text ++ membersText members)).length ≤ fuel →
        value.WellFormed → MembersWellFormed members →
          parseMembers fuel (quote key ++ ':' :: (value.text ++ (membersText members ++ rest))) =
            some ((key, value) :: members, rest)
  | _, value, _, 0, _, h, _, _ => absurd (length_text_pos value) (by
      simp only [length_append, length_cons] at h
      omega)
  | key, value, [], fuel + 1, rest, h, hw, _ => by
      simp only [membersText, length_append, length_cons, length_nil] at h
      have hvalue := parseValue_text value fuel ('}' :: rest) (by omega) hw (endsNumber_cons (by decide) _)
      simp only [membersText, singleton_append]
      rw [quote_append, parseMembers, skipWhitespace_cons (by decide)]
      simp only [if_true, parseString_quoteUnits, Option.bind_some]
      rw [skipWhitespace_cons (by decide)]
      simp only [if_true, hvalue, Option.bind_some]
      rw [skipWhitespace_cons (by decide)]
      simp only [if_true, show ¬ ('}' = ',') by decide, if_false]
  | key, value, (key', value') :: members, fuel + 1, rest, h, hw, hws => by
      have hpos := length_text_pos value
      simp only [membersText, length_append, length_cons] at h
      have hvalue := parseValue_text value fuel (membersText ((key', value') :: members) ++ rest)
        (by omega) hw (endsNumber_membersText _ _)
      have hmembers := parseMembers_text key' value' members fuel rest (by
        simp only [length_append, length_cons]
        omega) hws.1 hws.2
      rw [quote_append, parseMembers, skipWhitespace_cons (by decide)]
      simp only [if_true, parseString_quoteUnits, Option.bind_some]
      rw [skipWhitespace_cons (by decide)]
      simp only [if_true, hvalue, Option.bind_some]
      simp only [membersText, cons_append, append_assoc]
      rw [skipWhitespace_cons (by decide)]
      simp only [if_true, hmembers, Option.map_some]

end

theorem parse_text (v : Json) (h : v.WellFormed) : parse v.text = some v := by
  have hvalue := parseValue_text v (v.text.length + 1) [] (by omega) h (by rintro c ⟨⟩)
  rw [append_nil] at hvalue
  rw [parse, hvalue]
  rfl

theorem newline_not_mem_quoteUnit (u : CodeUnit) : '\n' ∉ quoteUnit u := by
  have hnewline : ∀ c : Char, c.toNat ≠ 10 → '\n' ≠ c := by
    rintro c hc rfl
    exact hc rfl
  unfold quoteUnit
  split
  · next c hshort =>
      obtain ⟨p, hp, rfl⟩ := Option.map_eq_some_iff.mp hshort
      have hall : ∀ p ∈ shortEscapes, '\n' ∉ ['\\', p.2] := by decide
      exact hall p (mem_of_find?_eq_some hp)
  · split
    · have hhex : ∀ n, n < 16 → '\n' ≠ hexDigit n := by decide
      have hlt := u.toNat_lt
      simp only [unicodeEscape, mem_cons, not_mem_nil, or_false, not_or]
      exact ⟨by decide, by decide, hhex _ (by omega), hhex _ (by omega), hhex _ (by omega), hhex _ (by omega)⟩
    · next hplain =>
        simp only [Bool.or_eq_true, decide_eq_true_eq, not_or, Bool.not_eq_true] at hplain
        obtain ⟨⟨hc, hh⟩, hl⟩ := hplain
        rw [mem_singleton]
        refine hnewline _ ?_
        rw [toNat_ofNat_of_plain hh hl]
        omega

theorem newline_not_mem_quoteUnits (s : JsString) : '\n' ∉ quoteUnits s := by
  fun_induction quoteUnits s with
  | case1 => exact not_mem_nil
  | case2 u => exact newline_not_mem_quoteUnit u
  | case3 u v s h ih =>
    simp only [Bool.and_eq_true] at h
    have hunits := unitsOf_pairChar h.1 h.2
    rw [mem_cons, not_or]
    refine ⟨?_, ih⟩
    intro heq
    rw [← heq] at hunits
    cases hunits
  | case4 u v s h ih =>
    rw [mem_append, not_or]
    exact ⟨newline_not_mem_quoteUnit u, ih⟩

theorem newline_not_mem_quote (s : JsString) : '\n' ∉ quote s := by
  simp only [quote, cons_append, mem_cons, mem_append, not_mem_nil, or_false, not_or]
  exact ⟨by decide, newline_not_mem_quoteUnits s, by decide⟩

mutual

theorem newline_not_mem_text : (v : Json) → '\n' ∉ v.text
  | .null => by decide
  | .bool true => by decide
  | .bool false => by decide
  | .number n => by
      have hv := n.valid
      simp only [isNumber, Bool.and_eq_true] at hv
      intro hmem
      exact absurd (all_eq_true.mp hv.1.1.1 _ hmem) (by decide)
  | .string s => newline_not_mem_quote s
  | .array [] => by decide
  | .array (item :: items) => by
      simp only [text, mem_cons, mem_append, not_or]
      exact ⟨by decide, newline_not_mem_text item, newline_not_mem_itemsText items⟩
  | .object [] => by decide
  | .object ((key, value) :: members) => by
      simp only [text, mem_cons, mem_append, not_or]
      exact ⟨by decide, newline_not_mem_quote key, by decide, newline_not_mem_text value,
        newline_not_mem_membersText members⟩

theorem newline_not_mem_itemsText : (items : List Json) → '\n' ∉ itemsText items
  | [] => by decide
  | item :: items => by
      simp only [itemsText, mem_cons, mem_append, not_or]
      exact ⟨by decide, newline_not_mem_text item, newline_not_mem_itemsText items⟩

theorem newline_not_mem_membersText :
    (members : List (JsString × Json)) → '\n' ∉ membersText members
  | [] => by decide
  | (key, value) :: members => by
      simp only [membersText, mem_cons, mem_append, not_or]
      exact ⟨by decide, newline_not_mem_quote key, by decide, newline_not_mem_text value,
        newline_not_mem_membersText members⟩

end

end Json

end Gavea.Lib.Js
