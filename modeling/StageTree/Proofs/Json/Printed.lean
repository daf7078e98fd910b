import Mathlib.Tactic.SplitIfs
import StageTree.Json.Printer
import StageTree.Json.Reader

/-! Values without fractions and excesses are read back from the compact text that they print. The reader keeps the
order of fields, and needs as much depth as the value has. A number ends where the text does not go on with it. -/

namespace StageTree.Json

mutual

/-- A value made of texts, arrays and objects. -/
inductive Textual : Json → Prop
  | string (s : String) : Textual (.string s)
  | array {js : List Json} (h : TextualItems js) : Textual (.array js)
  | object {fs : List (String × Json)} (h : TextualFields fs) : Textual (.object fs)

inductive TextualItems : List Json → Prop
  | nil : TextualItems []
  | cons {j : Json} {js : List Json} (head : Textual j) (tail : TextualItems js) : TextualItems (j :: js)

inductive TextualFields : List (String × Json) → Prop
  | nil : TextualFields []
  | cons {name : String} {j : Json} {fs : List (String × Json)} (head : Textual j) (tail : TextualFields fs) :
      TextualFields ((name, j) :: fs)

end

mutual

/-- A value whose text tells what it is: whole numbers are of 64 bits, and there are no other ones. -/
inductive Printable : Json → Prop
  | null : Printable .null
  | bool (b : Bool) : Printable (.bool b)
  | whole {n : Nat} (h : n < UInt64.size) : Printable (.number (.whole n))
  | string (s : String) : Printable (.string s)
  | array {js : List Json} (h : PrintableItems js) : Printable (.array js)
  | object {fs : List (String × Json)} (h : PrintableFields fs) : Printable (.object fs)

inductive PrintableItems : List Json → Prop
  | nil : PrintableItems []
  | cons {j : Json} {js : List Json} (head : Printable j) (tail : PrintableItems js) : PrintableItems (j :: js)

inductive PrintableFields : List (String × Json) → Prop
  | nil : PrintableFields []
  | cons {name : String} {j : Json} {fs : List (String × Json)} (head : Printable j) (tail : PrintableFields fs) :
      PrintableFields ((name, j) :: fs)

end

mutual

theorem Textual.printable {j : Json} : j.Textual → j.Printable
  | .string s => .string s
  | .array h => .array h.printable
  | .object h => .object h.printable

theorem TextualItems.printable {js : List Json} : TextualItems js → PrintableItems js
  | .nil => .nil
  | .cons head tail => .cons head.printable tail.printable

theorem TextualFields.printable {fs : List (String × Json)} : TextualFields fs → PrintableFields fs
  | .nil => .nil
  | .cons head tail => .cons head.printable tail.printable

end

theorem skipGap_cons {c : Char} (h : isGap c = false) (cs : List Char) : skipGap (c :: cs) = c :: cs :=
  List.dropWhile_cons_of_neg (by simp [h])

/-! ### Strings -/

theorem hexValue?_hexDigit : ∀ n < 16, hexValue? (hexDigit n) = some n := by
  decide

theorem readPoint?_hexDigits {c : Char} (h : c.toNat < 0x20) (rest : List Char) :
    readPoint? ('0' :: '0' :: hexDigit (c.toNat / 16) :: hexDigit (c.toNat % 16) :: rest) = some (c, rest) := by
  have hhigh : hexValue? (hexDigit (c.toNat / 16)) = some (c.toNat / 16) := hexValue?_hexDigit _ (by omega)
  have hlow : hexValue? (hexDigit (c.toNat % 16)) = some (c.toNat % 16) := hexValue?_hexDigit _ (by omega)
  have hzero : hexValue? '0' = some 0 := by decide
  have hsum : c.toNat / 16 * 16 + c.toNat % 16 = c.toNat := by omega
  have hread : readHex? ('0' :: '0' :: hexDigit (c.toNat / 16) :: hexDigit (c.toNat % 16) :: rest) =
      some (c.toNat, rest) := by
    simp [readHex?, hzero, hhigh, hlow, hsum]
  have hfirst : ¬ (0xD800 ≤ c.toNat ∧ c.toNat ≤ 0xDBFF) := by omega
  have hsecond : ¬ (0xDC00 ≤ c.toNat ∧ c.toNat ≤ 0xDFFF) := by omega
  rw [readPoint?, hread]
  simp [hfirst, hsecond]

/-- Each character is read back from its escape. -/
theorem readChar?_escapeChar (c : Char) (rest : List Char) : readChar? (escapeChar c ++ rest) = some (c, rest) := by
  unfold escapeChar
  split_ifs with hquote hslash hback hfeed hline hreturn htab hlow
  · simp [hquote, readChar?, unescape?]
  · simp [hslash, readChar?, unescape?]
  · simp [hback, readChar?, unescape?]
  · simp [hfeed, readChar?, unescape?]
  · simp [hline, readChar?, unescape?]
  · simp [hreturn, readChar?, unescape?]
  · simp [htab, readChar?, unescape?]
  · exact readPoint?_hexDigits hlow rest
  · simp [readChar?, hslash, hlow]

theorem escapeChar_ne_quote (c : Char) (rest cs : List Char) : escapeChar c ++ rest ≠ '"' :: cs := by
  unfold escapeChar
  split_ifs with hquote
  case neg => simp [hquote]
  all_goals simp

theorem readString?_escaped (s rest : List Char) :
    readString? (s.flatMap escapeChar ++ '"' :: rest) = some (s, rest) := by
  induction s with
  | nil => rw [List.flatMap_nil, List.nil_append, readString?]
  | cons c s ih =>
    rw [List.flatMap_cons, List.append_assoc, readString?]
    · split
      · rename_i h
        rw [readChar?_escapeChar] at h
        cases h
      · rename_i h
        rw [readChar?_escapeChar] at h
        cases h
        rw [ih]
    · exact escapeChar_ne_quote c _

theorem readText?_escaped (s : String) (rest : List Char) :
    readText? (s.toList.flatMap escapeChar ++ '"' :: rest) = some (some s, rest) := by
  rw [readText?, readString?_escaped]
  simp only [String.ofList_toList]

theorem printString_append (s : String) (rest : List Char) :
    printString s ++ rest = '"' :: (s.toList.flatMap escapeChar ++ '"' :: rest) := by
  simp [printString]

theorem readName?_printed (name : String) (rest : List Char) :
    readName? (printString name ++ ':' :: rest) = some (some name, rest) := by
  rw [printString_append, readName?, skipGap_cons (by decide)]
  simp only [readText?_escaped, skipGap_cons (show isGap ':' = false by decide)]

/-! ### Numbers -/

/-- The digits of a number as the reader takes them. -/
def digitsOf (n : Nat) : List Nat := (Nat.toDigits 10 n).map fun c => c.toNat - '0'.toNat

/-- Only zero has a zero in front. -/
theorem head?_digitsOf_ne {n : Nat} (h : 0 < n) : (digitsOf n).head? ≠ some 0 := by
  induction n using Nat.strongRecOn with
  | ind n ih =>
    rcases Nat.lt_or_ge n 10 with hlt | hge
    · have hsingle : ∀ m < 10, 0 < m → ([m.digitChar].map fun c => c.toNat - '0'.toNat).head? ≠ some 0 := by decide
      rw [digitsOf, Nat.toDigits_of_lt_base hlt]
      exact hsingle n hlt h
    · have hfront := ih (n / 10) (by omega) (by omega)
      rw [digitsOf] at hfront ⊢
      rw [Nat.toDigits_of_base_le (by decide) hge, List.map_append, List.head?_append,
        Option.or_of_isSome (by simp [Nat.toDigits_ne_nil])]
      exact hfront

theorem ofDigits_digitsOf (n : Nat) : ofDigits (digitsOf n) = n := by
  have hfold : ofDigits (digitsOf n) = Nat.ofDigitChars 10 (Nat.toDigits 10 n) 0 := by
    rw [ofDigits, digitsOf, List.foldl_map, Nat.ofDigitChars_eq_foldl]
    simp only [Nat.mul_comm]
  rw [hfold, Nat.ofDigitChars_ten_toDigits]

/-- That characters do not go on with a number. -/
def NumberEnds : List Char → Prop
  | [] => True
  | c :: _ => c.isDigit = false ∧ c ≠ '.' ∧ c ≠ 'e' ∧ c ≠ 'E'

theorem readDigits_toDigits (n : Nat) {rest : List Char} (h : NumberEnds rest) :
    readDigits (Nat.toDigits 10 n ++ rest) = (digitsOf n, rest) := by
  have hall : ∀ c ∈ Nat.toDigits 10 n, c.isDigit = true := fun c hc =>
    Nat.isDigit_of_mem_toDigits (by decide) (by decide) hc
  have hrest : rest.takeWhile Char.isDigit = [] ∧ rest.dropWhile Char.isDigit = rest := by
    cases rest with
    | nil => exact ⟨rfl, rfl⟩
    | cons c rest => simp [h.1]
  rw [readDigits, List.takeWhile_append_of_pos hall, List.dropWhile_append_of_pos hall, hrest.1, hrest.2,
    List.append_nil, digitsOf]

theorem readFraction?_of_ends {rest : List Char} (h : NumberEnds rest) : readFraction? rest = some (none, rest) := by
  unfold readFraction?
  split
  · exact absurd rfl h.2.1
  · rfl

theorem readExponent?_of_ends {rest : List Char} (h : NumberEnds rest) : readExponent? rest = some (none, rest) := by
  cases rest with
  | nil => rfl
  | cons c rest => simp [readExponent?, h.2.2.1, h.2.2.2]

/-- A whole number is read from its digits. -/
theorem readUnsigned?_toDigits {n : Nat} (hn : n < UInt64.size) {rest : List Char} (h : NumberEnds rest) :
    readUnsigned? false (Nat.toDigits 10 n ++ rest) = some (some (.whole n), rest) := by
  have hdigits : ¬ ((digitsOf n).isEmpty = true ∨ (digitsOf n).head? = some 0 ∧ (digitsOf n).length ≠ 1) := by
    rintro (hempty | ⟨hhead, hlength⟩)
    · simp [digitsOf, Nat.toDigits_ne_nil] at hempty
    · rcases Nat.eq_zero_or_pos n with rfl | hpos
      · exact hlength rfl
      · exact head?_digitsOf_ne hpos hhead
  simp only [readUnsigned?, readDigits_toDigits n h, if_neg hdigits, readFraction?_of_ends h,
    readExponent?_of_ends h, ofDigits_digitsOf, Option.bind_eq_bind, Option.bind_some]
  simp [hn]

theorem numberEnds_cons {c : Char} (h : c = ',' ∨ c = ']' ∨ c = '\x7d') (rest : List Char) :
    NumberEnds (c :: rest) := by
  rcases h with rfl | rfl | rfl <;> exact ⟨rfl, by decide, by decide, by decide⟩

/-- A number starts with a digit. -/
theorem toDigits_eq_cons (n : Nat) : ∃ c cs, Nat.toDigits 10 n = c :: cs ∧ c.isDigit = true := by
  obtain ⟨c, cs, h⟩ := List.exists_cons_of_ne_nil (Nat.toDigits_ne_nil (n := n) (b := 10))
  refine ⟨c, cs, h, Nat.isDigit_of_mem_toDigits (n := n) (b := 10) (by decide) (by decide) ?_⟩
  rw [h]
  exact List.mem_cons_self

theorem isGap_of_isDigit {c : Char} (hc : c.isDigit = true) :
    isGap c = false ∧ c ≠ '[' ∧ c ≠ ']' ∧ c ≠ '\x7b' := by
  have hne (d : Char) (hd : d.isDigit = false) : c ≠ d := by
    rintro rfl
    rw [hc] at hd
    cases hd
  exact ⟨by simp [isGap, hne ' ' rfl, hne '\n' rfl, hne '\t' rfl, hne '\r' rfl], hne _ rfl, hne _ rfl, hne _ rfl⟩

theorem readPlain?_toDigits {n : Nat} (hn : n < UInt64.size) {rest : List Char} (h : NumberEnds rest) :
    readPlain? (Nat.toDigits 10 n ++ rest) = some (.number (.whole n), rest) := by
  have hread := readUnsigned?_toDigits hn h
  obtain ⟨c, cs, hdigits, hc⟩ := toDigits_eq_cons n
  rw [hdigits, List.cons_append] at hread ⊢
  have hne (d : Char) (hd : d.isDigit = false) : c ≠ d := by
    rintro rfl
    rw [hc] at hd
    cases hd
  have hnumber : readNumber? (c :: (cs ++ rest)) = some (some (.whole n), rest) := by
    rw [readNumber?, hread]
    simp [hne '-' rfl]
  rw [readPlain?, hnumber]
  · rfl
  all_goals simp [hne '"' rfl, hne 'n' rfl, hne 't' rfl, hne 'f' rfl]

/-! ### What the reader does at each lexeme -/

section Reader

variable {fuel depth : Nat} {c : Char} {cs rest rest' : List Char} {j : Json} {js : List Json}
  {fs : List (String × Json)} {name : String}

theorem readValue?_plain (hgap : isGap c = false) (harray : c ≠ '[') (hobject : c ≠ '\x7b') :
    readValue? (fuel + 1) depth (c :: cs) = readPlain? (c :: cs) := by
  have hskip : skipGap (c :: cs) = c :: cs := skipGap_cons hgap cs
  rw [readValue?, hskip] <;> simp [hskip, harray, hobject]

theorem readValue?_noItems : readValue? (fuel + 1) (depth + 1) ('[' :: ']' :: cs) = some (.array [], cs) := by
  simp [readValue?, skipGap, isGap]

theorem readValue?_items (hgap : isGap c = false) (hc : c ≠ ']')
    (h : readItems? fuel depth (c :: cs) = some (js, rest)) :
    readValue? (fuel + 1) (depth + 1) ('[' :: c :: cs) = some (.array js, rest) := by
  simp [readValue?, skipGap_cons (show isGap '[' = false by decide), skipGap_cons hgap, hc, h]

theorem readValue?_noFields :
    readValue? (fuel + 1) (depth + 1) ('\x7b' :: '\x7d' :: cs) = some (.object [], cs) := by
  simp [readValue?, skipGap, isGap]

theorem readValue?_fields (h : readFields? fuel depth ('"' :: cs) = some (some fs, rest)) :
    readValue? (fuel + 1) (depth + 1) ('\x7b' :: '"' :: cs) = some (.object fs, rest) := by
  simp [readValue?, skipGap, isGap, h]

theorem readItems?_last (h : readValue? fuel depth cs = some (j, ']' :: rest)) :
    readItems? (fuel + 1) depth cs = some ([j], rest) := by
  simp [readItems?, h, skipGap, isGap]

theorem readItems?_comma (h : readValue? fuel depth cs = some (j, ',' :: rest))
    (h' : readItems? fuel depth rest = some (js, rest')) : readItems? (fuel + 1) depth cs = some (j :: js, rest') := by
  simp [readItems?, h, h', skipGap, isGap]

theorem readFields?_last (h : readValue? fuel depth cs = some (j, '\x7d' :: rest)) :
    readFields? (fuel + 1) depth (printString name ++ ':' :: cs) = some (some [(name, j)], rest) := by
  simp [readFields?, readName?_printed, h, skipGap, isGap]

theorem readFields?_comma (h : readValue? fuel depth cs = some (j, ',' :: rest))
    (h' : readFields? fuel depth rest = some (some fs, rest')) :
    readFields? (fuel + 1) depth (printString name ++ ':' :: cs) = some (some ((name, j) :: fs), rest') := by
  simp [readFields?, readName?_printed, h, h', skipGap, isGap]

end Reader

/-! ### Values -/

/-- A value starts with a character that is neither a blank nor the end of an array. -/
theorem Printable.print_eq_cons {j : Json} (h : j.Printable) :
    ∃ c cs, j.print = c :: cs ∧ isGap c = false ∧ c ≠ ']' := by
  cases h with
  | null => exact ⟨'n', _, rfl, by decide, by decide⟩
  | bool b => cases b <;> exact ⟨_, _, rfl, by decide, by decide⟩
  | @whole n h =>
    obtain ⟨c, cs, hdigits, hc⟩ := toDigits_eq_cons n
    obtain ⟨hgap, _, hclose, _⟩ := isGap_of_isDigit hc
    exact ⟨c, cs, hdigits, hgap, hclose⟩
  | string s => exact ⟨'"', _, rfl, by decide, by decide⟩
  | array h => exact ⟨'[', _, rfl, by decide, by decide⟩
  | object h => exact ⟨'\x7b', _, rfl, by decide, by decide⟩

theorem separate_cons_append (comma p : List Char) (ps : List (List Char)) (rest : List Char) :
    ∃ more, separate comma (p :: ps) ++ rest = p ++ more := by
  cases ps with
  | nil => exact ⟨rest, rfl⟩
  | cons q ps => exact ⟨comma ++ separate comma (q :: ps) ++ rest, by simp [separate]⟩

mutual

/-- A value is read from its text, whatever follows that does not go on with a number. -/
theorem Printable.readValue?_print {j : Json} : j.Printable → ∀ fuel depth, 2 * j.print.length ≤ fuel →
    j.depth ≤ depth → ∀ rest, NumberEnds rest → readValue? fuel depth (j.print ++ rest) = some (j, rest)
  | h, 0, _, hfuel, _, rest, _ => by
    obtain ⟨c, cs, hprint, -⟩ := h.print_eq_cons
    simp [hprint] at hfuel
  | .null, fuel + 1, depth, _, _, rest, _ => readValue?_plain (by decide) (by decide) (by decide)
  | .bool true, fuel + 1, depth, _, _, rest, _ => readValue?_plain (by decide) (by decide) (by decide)
  | .bool false, fuel + 1, depth, _, _, rest, _ => readValue?_plain (by decide) (by decide) (by decide)
  | @Printable.whole n h, fuel + 1, depth, _, _, rest, hrest => by
    have hread := readPlain?_toDigits h hrest
    obtain ⟨c, cs, hdigits, hc⟩ := toDigits_eq_cons n
    obtain ⟨hgap, harray, _, hobject⟩ := isGap_of_isDigit hc
    rw [print, printNumber, ← hread, hdigits]
    exact readValue?_plain hgap harray hobject
  | .string s, fuel + 1, depth, _, _, rest, _ => by
    rw [print, printString_append, readValue?_plain (by decide) (by decide) (by decide), readPlain?,
      readText?_escaped]
    rfl
  | .array h, fuel + 1, 0, _, hdepth, _, _ => by
    simp [Json.depth] at hdepth
  | .array .nil, fuel + 1, depth + 1, _, _, rest, _ => readValue?_noItems
  | @Printable.array (j :: js) (.cons head tail), fuel + 1, depth + 1, hfuel, hdepth, rest, _ => by
    simp only [print, List.cons_append, List.length_cons, List.length_append] at hfuel
    simp only [Json.depth] at hdepth
    have hitems := PrintableItems.readItems?_print (.cons head tail) (List.cons_ne_nil j js) fuel depth
      (by omega) (by omega) rest
    obtain ⟨c, cs, hprint, hgap, hc⟩ := head.print_eq_cons
    obtain ⟨more, hmore⟩ := separate_cons_append [','] j.print (printItems js) (']' :: rest)
    rw [printItems, hmore, hprint, List.cons_append] at hitems
    have htext : (array (j :: js)).print ++ rest = '[' :: c :: (cs ++ more) := by
      rw [← List.cons_append, ← hprint, ← hmore]
      simp [print, printItems]
    rw [htext]
    exact readValue?_items hgap hc hitems
  | .object h, fuel + 1, 0, _, hdepth, _, _ => by
    simp [Json.depth] at hdepth
  | .object .nil, fuel + 1, depth + 1, _, _, rest, _ => readValue?_noFields
  | @Printable.object (⟨name, j⟩ :: fs) (.cons head tail), fuel + 1, depth + 1, hfuel, hdepth, rest, _ => by
    simp only [print, List.cons_append, List.length_cons, List.length_append] at hfuel
    simp only [Json.depth] at hdepth
    have hfields := PrintableFields.readFields?_print (.cons head tail) (List.cons_ne_nil (name, j) fs) fuel depth
      (by omega) (by omega) rest
    obtain ⟨more, hmore⟩ := separate_cons_append [','] (printString name ++ ':' :: j.print) (printFields fs)
      ('\x7d' :: rest)
    rw [printFields, hmore, List.append_assoc, printString_append] at hfields
    have htext : (object ((name, j) :: fs)).print ++ rest =
        '\x7b' :: '"' :: (name.toList.flatMap escapeChar ++ '"' :: (':' :: j.print ++ more)) := by
      rw [← printString_append, ← List.append_assoc, ← hmore]
      simp [print, printFields]
    rw [htext]
    exact readValue?_fields hfields

/-- The items of an array are read up to its end. -/
theorem PrintableItems.readItems?_print {js : List Json} : PrintableItems js → js ≠ [] → ∀ fuel depth,
    2 * (separate [','] (printItems js)).length < fuel → depthItems js ≤ depth → ∀ rest,
    readItems? fuel depth (separate [','] (printItems js) ++ ']' :: rest) = some (js, rest)
  | .nil, hne, _, _, _, _, _ => absurd rfl hne
  | @PrintableItems.cons j [] head .nil, _, fuel + 1, depth, hfuel, hdepth, rest => by
    simp only [printItems, separate] at hfuel ⊢
    simp only [depthItems] at hdepth
    exact readItems?_last (head.readValue?_print fuel depth (by omega) (by omega) _ (numberEnds_cons (by decide) _))
  | @PrintableItems.cons j (k :: ks) head tail, _, fuel + 1, depth, hfuel, hdepth, rest => by
    simp only [printItems, separate, List.length_append, List.length_singleton] at hfuel
    rw [depthItems] at hdepth
    have hitems := tail.readItems?_print (List.cons_ne_nil k ks) fuel depth (by rw [printItems]; omega) (by omega) rest
    have hvalue := head.readValue?_print fuel depth (by omega) (by omega)
      (',' :: (separate [','] (printItems (k :: ks)) ++ ']' :: rest)) (numberEnds_cons (by decide) _)
    have htext : separate [','] (printItems (j :: k :: ks)) ++ ']' :: rest =
        j.print ++ ',' :: (separate [','] (printItems (k :: ks)) ++ ']' :: rest) := by
      simp [printItems, separate]
    rw [htext]
    exact readItems?_comma hvalue hitems

/-- The fields of an object are read up to its end. -/
theorem PrintableFields.readFields?_print {fs : List (String × Json)} : PrintableFields fs → fs ≠ [] → ∀ fuel depth,
    2 * (separate [','] (printFields fs)).length < fuel → depthFields fs ≤ depth → ∀ rest,
    readFields? fuel depth (separate [','] (printFields fs) ++ '\x7d' :: rest) = some (some fs, rest)
  | .nil, hne, _, _, _, _, _ => absurd rfl hne
  | @PrintableFields.cons name j [] head .nil, _, fuel + 1, depth, hfuel, hdepth, rest => by
    simp only [printFields, separate, List.length_append, List.length_cons] at hfuel ⊢
    simp only [depthFields] at hdepth
    rw [List.append_assoc]
    exact readFields?_last (head.readValue?_print fuel depth (by omega) (by omega) _ (numberEnds_cons (by decide) _))
  | @PrintableFields.cons name j (⟨name', k⟩ :: fs) head tail, _, fuel + 1, depth, hfuel, hdepth, rest => by
    simp only [printFields, separate, List.length_append, List.length_cons, List.length_nil] at hfuel
    rw [depthFields] at hdepth
    have hfields := tail.readFields?_print (List.cons_ne_nil (name', k) fs) fuel depth
      (by rw [printFields]; omega) (by omega) rest
    have hvalue := head.readValue?_print fuel depth (by omega) (by omega)
      (',' :: (separate [','] (printFields ((name', k) :: fs)) ++ '\x7d' :: rest)) (numberEnds_cons (by decide) _)
    have htext : separate [','] (printFields ((name, j) :: (name', k) :: fs)) ++ '\x7d' :: rest =
        printString name ++ ':' :: (j.print ++ ',' :: (separate [','] (printFields ((name', k) :: fs)) ++
          '\x7d' :: rest)) := by
      simp [printFields, separate]
    rw [htext]
    exact readFields?_comma hvalue hfields

end

mutual

theorem Printable.hasExcess_eq_false {j : Json} : j.Printable → j.hasExcess = false
  | .null | .bool _ | .whole _ | .string _ => rfl
  | .array h => h.anyExcess_eq_false
  | .object h => h.anyFieldExcess_eq_false

theorem PrintableItems.anyExcess_eq_false {js : List Json} : PrintableItems js → anyExcess js = false
  | .nil => rfl
  | .cons head tail => by rw [anyExcess, head.hasExcess_eq_false, tail.anyExcess_eq_false]; rfl

theorem PrintableFields.anyFieldExcess_eq_false {fs : List (String × Json)} :
    PrintableFields fs → anyFieldExcess fs = false
  | .nil => rfl
  | .cons head tail => by rw [anyFieldExcess, head.hasExcess_eq_false, tail.anyFieldExcess_eq_false]; rfl

end

/-- A reader that goes deep enough reads a value from its compact text. -/
theorem Printable.readLoosely?_compact {j : Json} (h : j.Printable) {depth : Nat} (hdepth : j.depth ≤ depth) :
    readLoosely? depth j.compact.toList = some j := by
  have hread := h.readValue?_print (2 * j.print.length + 2) depth (by omega) hdepth [] trivial
  rw [List.append_nil] at hread
  rw [compact, String.toList_ofList, readLoosely?, hread]
  rfl

theorem Textual.readWithin?_compact {j : Json} (h : j.Textual) {depth : Nat} (hdepth : j.depth ≤ depth) :
    readWithin? depth j.compact.toList = some j := by
  rw [readWithin?, h.printable.readLoosely?_compact hdepth]
  simp only [h.printable.hasExcess_eq_false, Bool.false_eq_true, if_false]

end StageTree.Json
