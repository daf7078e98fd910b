import Mathlib.Data.List.Basic
import StageTree.Shell.Quote

/-! How a shell takes a text apart by its quoting rules. Between single quotes every character is literal, a
backslash outside quotes keeps the character behind it, pieces without a gap between them join to one word, blanks
separate words, and an operator ends the command before it. Characters that join as letters to a word do so
wherever they stand, so a command line is read piece by piece: a quoted text is such a piece for the text itself,
a text put between single quotes as it is only if no single quote stands in it. -/

namespace StageTree.Shell

/-- A word with its quotes taken away, or an operator. -/
inductive Token where
  | word (text : String)
  | operator (c : Char)
  deriving DecidableEq, Repr

def isBlank (c : Char) : Bool := c = ' ' || c = '\t'

def isOperator (c : Char) : Bool := ['|', '&', ';', '<', '>', '(', ')', '\n'].contains c

/-- Starts an expansion, or quotes of the other kind, unless it is quoted. -/
def isExpanded (c : Char) : Bool := ['$', '\x60', '"'].contains c

/-- The tokens after a word that may have begun. -/
def closed (word : Option (List Char)) (ts : List Token) : List Token :=
  word.elim ts fun w => .word (String.ofList w) :: ts

mutual

/-- The tokens of a text outside quotes, with the letters of a word that has begun. A text is not read that leaves
quotes open, ends behind a backslash, or is subject to expansion. -/
def readBare (word : Option (List Char)) : List Char → Option (List Token)
  | [] => some (closed word [])
  | c :: cs =>
    if c = '\'' then readQuoted (word.getD []) cs
    else if c = '\\' then readEscaped word cs
    else if isBlank c then (readBare none cs).map (closed word)
    else if isOperator c then (readBare none cs).map fun ts => closed word (.operator c :: ts)
    else if isExpanded c then none
    else readBare (some (word.getD [] ++ [c])) cs

def readQuoted (word : List Char) : List Char → Option (List Token)
  | [] => none
  | c :: cs => if c = '\'' then readBare (some word) cs else readQuoted (word ++ [c]) cs

/-- The tokens of a text behind a backslash, which keeps its next character, and takes a line feed away. -/
def readEscaped (word : Option (List Char)) : List Char → Option (List Token)
  | [] => none
  | c :: cs => if c = '\n' then readBare word cs else readBare (some (word.getD [] ++ [c])) cs

end

def read (text : String) : Option (List Token) := readBare none text.toList

/-! ### What is read next -/

variable {word : Option (List Char)} {w cs ds letters more : List Char} {c : Char}

theorem readBare_nil : readBare word [] = some (closed word []) := rfl

theorem readBare_cons : readBare word (c :: cs) =
    if c = '\'' then readQuoted (word.getD []) cs
    else if c = '\\' then readEscaped word cs
    else if isBlank c then (readBare none cs).map (closed word)
    else if isOperator c then (readBare none cs).map fun ts => closed word (.operator c :: ts)
    else if isExpanded c then none
    else readBare (some (word.getD [] ++ [c])) cs := rfl

theorem readQuoted_nil : readQuoted w [] = none := rfl

theorem readQuoted_cons : readQuoted w (c :: cs) =
    if c = '\'' then readBare (some w) cs else readQuoted (w ++ [c]) cs := rfl

theorem readEscaped_nil : readEscaped word [] = none := rfl

theorem readEscaped_cons : readEscaped word (c :: cs) =
    if c = '\n' then readBare word cs else readBare (some (word.getD [] ++ [c])) cs := rfl

/-! ### Pieces of words -/

/-- Characters that join as letters to the word that they stand in, or begin a word with them. -/
def Joins (cs letters : List Char) : Prop :=
  ∀ word rest, readBare word (cs ++ rest) = readBare (some (word.getD [] ++ letters)) rest

/-- A character that stands for itself without quotes. -/
def isPlain (c : Char) : Bool :=
  !(c = '\'' || c = '\\' || isBlank c || isOperator c || isExpanded c)

theorem Joins.append (h : Joins cs letters) (h' : Joins ds more) : Joins (cs ++ ds) (letters ++ more) := by
  intro word rest
  rw [List.append_assoc, h, h', Option.getD_some, List.append_assoc]

theorem joins_plain (hne : cs ≠ []) (h : cs.all isPlain = true) : Joins cs cs := by
  induction cs with
  | nil => exact absurd rfl hne
  | cons c cs ih =>
    rw [List.all_cons, Bool.and_eq_true] at h
    obtain ⟨hplain, h⟩ := h
    have hc : Joins [c] [c] := by
      intro word rest
      simp only [isPlain, Bool.not_eq_true', Bool.or_eq_false_iff, decide_eq_false_iff_not] at hplain
      obtain ⟨⟨⟨⟨hquote, hback⟩, hblank⟩, hop⟩, hexp⟩ := hplain
      simp [readBare_cons, hquote, hback, hblank, hop, hexp]
    cases cs with
    | nil => exact hc
    | cons d cs => exact hc.append (ih (List.cons_ne_nil _ _) h)

theorem readQuoted_append (word rest : List Char) (h : '\'' ∉ cs) :
    readQuoted word (cs ++ '\'' :: rest) = readBare (some (word ++ cs)) rest := by
  induction cs generalizing word with
  | nil => simp [readQuoted_cons]
  | cons c cs ih =>
    rw [List.mem_cons, not_or] at h
    rw [List.cons_append, readQuoted_cons, if_neg (Ne.symm h.1), ih _ h.2, List.append_assoc, List.singleton_append]

/-- Between single quotes everything is literal but the single quote. -/
theorem joins_verbatim (h : '\'' ∉ cs) : Joins ('\'' :: (cs ++ ['\''])) cs := by
  intro word rest
  rw [List.cons_append, readBare_cons, if_pos rfl, List.append_assoc, List.singleton_append, readQuoted_append _ _ h]

/-- Each single quote of a quoted text closes the quotes, stands behind a backslash, and opens them again. -/
theorem readQuoted_quoteChar (word rest : List Char) :
    readQuoted word (cs.flatMap quoteChar ++ '\'' :: rest) = readBare (some (word ++ cs)) rest := by
  induction cs generalizing word with
  | nil => simp [readQuoted_cons]
  | cons c cs ih =>
    rw [List.flatMap_cons, List.append_assoc]
    by_cases hc : c = '\''
    · subst hc
      simp [quoteChar, readQuoted_cons, readBare_cons, readEscaped_cons, ih]
    · simp [quoteChar, hc, readQuoted_cons, ih]

/-- A quoted text is a piece of a word for the text itself. -/
theorem joins_quoteChars (cs : List Char) : Joins (quoteChars cs) cs := by
  intro word rest
  rw [quoteChars, List.cons_append, List.cons_append, readBare_cons, if_pos rfl, List.append_assoc,
    List.singleton_append, readQuoted_quoteChar]

/-! ### Command lines -/

/-- A text that is a piece of a word is a word of its own. -/
theorem Joins.read_eq {text word : String} (h : Joins text.toList word.toList) : read text = some [.word word] := by
  have hread := h none []
  rw [List.append_nil] at hread
  rw [read, hread]
  simp [readBare_nil, closed]

/-- So it is before a blank. -/
theorem Joins.read_blank {text word : String} (h : Joins text.toList word.toList) (rest : String) :
    read (text ++ " " ++ rest) = (read rest).map (.word word :: ·) := by
  have htext : (text ++ " " ++ rest).toList = text.toList ++ ' ' :: rest.toList := by simp
  have hclosed : closed (some word.toList) = (.word word :: ·) := by
    funext ts
    simp [closed]
  rw [read, htext, h none, readBare_cons, Option.getD_none, List.nil_append, hclosed]
  simp [isBlank, read]

theorem joins_quote (v : String) : Joins (quote v).toList v.toList := by
  rw [quote, String.toList_ofList]
  exact joins_quoteChars v.toList

/-! ### Lost letters -/

/-- How many letters the words of some tokens have. -/
def letterCount : List Token → Nat
  | [] => 0
  | .word text :: ts => text.toList.length + letterCount ts
  | .operator _ :: ts => letterCount ts

theorem letterCount_closed (word : Option (List Char)) (ts : List Token) :
    letterCount (closed word ts) = (word.getD []).length + letterCount ts := by
  cases word <;> simp [closed, letterCount]

mutual

/-- The letters of the words are characters of the text, and a single quote of the text is lost, or what
quotes it is. -/
theorem letterCount_readBare {word : Option (List Char)} {ts : List Token} {cs : List Char}
    (h : readBare word cs = some ts) :
    letterCount ts ≤ (word.getD []).length + cs.length ∧
      ('\'' ∈ cs → letterCount ts < (word.getD []).length + cs.length) := by
  match cs with
  | [] =>
    rw [readBare_nil, Option.some.injEq] at h
    rw [← h, letterCount_closed]
    simp [letterCount]
  | c :: cs =>
    rw [readBare_cons] at h
    split_ifs at h with hquote hback hblank hop hexp
    · have := letterCount_readQuoted h
      simp only [List.length_cons]
      omega
    · have := letterCount_readEscaped h
      simp only [List.length_cons]
      omega
    · obtain ⟨us, hus, rfl⟩ := Option.map_eq_some_iff.1 h
      have := (letterCount_readBare hus).1
      rw [letterCount_closed]
      simp only [List.length_cons, Option.getD_none, List.length_nil] at *
      omega
    · obtain ⟨us, hus, rfl⟩ := Option.map_eq_some_iff.1 h
      have := (letterCount_readBare hus).1
      rw [letterCount_closed, letterCount]
      simp only [List.length_cons, Option.getD_none, List.length_nil] at *
      omega
    · obtain ⟨hle, hlt⟩ := letterCount_readBare h
      simp only [Option.getD_some, List.length_append, List.length_cons, List.length_nil, List.mem_cons] at *
      refine ⟨by omega, fun hmem => ?_⟩
      have := hlt (hmem.resolve_left fun e => hquote e.symm)
      omega

theorem letterCount_readQuoted {word : List Char} {ts : List Token} {cs : List Char}
    (h : readQuoted word cs = some ts) : letterCount ts < word.length + cs.length := by
  match cs with
  | [] => simp [readQuoted_nil] at h
  | c :: cs =>
    rw [readQuoted_cons] at h
    split_ifs at h with hquote
    · have := (letterCount_readBare h).1
      simp only [Option.getD_some, List.length_cons] at *
      omega
    · have := letterCount_readQuoted h
      simp only [List.length_append, List.length_cons, List.length_nil] at *
      omega

theorem letterCount_readEscaped {word : Option (List Char)} {ts : List Token} {cs : List Char}
    (h : readEscaped word cs = some ts) : letterCount ts ≤ (word.getD []).length + cs.length := by
  match cs with
  | [] => simp [readEscaped_nil] at h
  | c :: cs =>
    rw [readEscaped_cons] at h
    split_ifs at h with hline
    · have := (letterCount_readBare h).1
      simp only [List.length_cons]
      omega
    · have := (letterCount_readBare h).1
      simp only [Option.getD_some, List.length_append, List.length_cons, List.length_nil] at *
      omega

end

/-- A text put between single quotes as it is reads as itself if no single quote stands in it, and only then. -/
theorem read_verbatim_iff (v : String) : read ("'" ++ v ++ "'") = some [.word v] ↔ '\'' ∉ v.toList := by
  have htext : ("'" ++ v ++ "'").toList = '\'' :: (v.toList ++ ['\'']) := by simp
  constructor
  · intro h hmem
    obtain ⟨front, back, hv, hfront⟩ := List.eq_append_cons_of_mem hmem
    rw [read, htext, readBare_cons, if_pos rfl, hv, List.append_assoc, List.cons_append,
      readQuoted_append _ _ hfront] at h
    have hlost := (letterCount_readBare h).2 (by simp)
    simp only [letterCount, hv, Option.getD_some, Option.getD_none, List.nil_append, List.length_append,
      List.length_cons, List.length_nil] at hlost
    omega
  · intro h
    exact Joins.read_eq (htext ▸ joins_verbatim h)

end StageTree.Shell
