import Mathlib.Data.List.Infix
import Mathlib.Data.List.TakeWhile
import StageTree.Source.Lexer

/-! How source spells tokens. Trivia and lexemes alternate: blanks and comments, then the characters of one
token, and so on up to the end of the source, or up to something that is neither. Every source can be read
in this way. -/

namespace StageTree.Source

/-- The place after characters from the start of a source on: the lines are counted by their ends, the
columns from the last of these. -/
def Position.following (before : List Char) : Position :=
  ⟨1 + before.count '\n', 1 + (before.reverse.takeWhile (· ≠ '\n')).length⟩

/-- Blanks and comments, which at the end of a source may end in the middle of a line. -/
inductive Trivia (atEnd : Bool) : List Char → Prop
  | nil : Trivia atEnd []
  | blank {c : Char} {cs : List Char} (hc : Text.isBlank c = true) (h : Trivia atEnd cs) : Trivia atEnd (c :: cs)
  | line {body cs : List Char} (hb : '\n' ∉ body) (h : Trivia atEnd cs) :
      Trivia atEnd ('/' :: '/' :: (body ++ '\n' :: cs))
  | block {body cs : List Char} (hb : ¬ ['*', '/'] <:+: body) (h : Trivia atEnd cs) :
      Trivia atEnd ('/' :: '*' :: (body ++ '*' :: '/' :: cs))
  | last {body : List Char} (he : atEnd = true) (hb : '\n' ∉ body) : Trivia atEnd ('/' :: '/' :: body)

inductive Spells : List Char → Lexeme → Prop
  | openBrace : Spells ['\x7b'] .openBrace
  | closeBrace : Spells ['\x7d'] .closeBrace
  | openParen : Spells ['('] .openParen
  | closeParen : Spells [')'] .closeParen
  | colon : Spells [':'] .colon
  | comma : Spells [','] .comma
  | text {quote : Char} {body : List Char} (hq : quote = '"' ∨ quote = '\'') (hb : quote ∉ body) :
      Spells (quote :: (body ++ [quote])) (.text (String.ofList body))
  | word {c : Char} {tail : List Char} (hc : startsWord c = true) (ht : ∀ d ∈ tail, continuesWord d = true) :
      Spells (c :: tail) (.word (String.ofList (c :: tail)))

theorem Spells.ne_nil {ls : List Char} {l : Lexeme} (h : Spells ls l) : ls ≠ [] := by cases h <;> simp

/-- What may stand after a lexeme: a word has all characters that could belong to it. -/
def Lexeme.EndsBefore : Lexeme → List Char → Prop
  | .word _, c :: _ => continuesWord c = false
  | _, _ => True

/-- Tokens that a source spells up to a rest, where it goes on after characters that were read before. -/
inductive Spelled : List Char → List Char → List Token → List Char → Prop
  | nil {before rest : List Char} : Spelled before rest [] rest
  | cons {before trivia ls cs rest : List Char} {l : Lexeme} {tokens : List Token} (ht : Trivia false trivia)
      (hl : Spells ls l) (he : l.EndsBefore cs) (h : Spelled (before ++ trivia ++ ls) cs tokens rest) :
      Spelled before (trivia ++ (ls ++ cs)) (⟨l, .following (before ++ trivia)⟩ :: tokens) rest

/-- Source that goes on with neither a blank nor a comment. -/
def StartsPlain : List Char → Prop
  | [] => True
  | c :: cs => Text.isBlank c = false ∧ (c = '/' → ∀ d ∈ cs.head?, d ≠ '/' ∧ d ≠ '*')

/-- Source that nothing can be read from: a quote or a comment that is never closed, or a character that
starts neither trivia nor a lexeme. -/
inductive Faulty : List Char → Fault → Prop
  | unclosedText {quote : Char} {cs : List Char} (hq : quote = '"' ∨ quote = '\'') (h : quote ∉ cs) :
      Faulty (quote :: cs) .unclosedText
  | unclosedComment {cs : List Char} (h : ¬ ['*', '/'] <:+: cs) : Faulty ('/' :: '*' :: cs) .unclosedComment
  | strayChar {c : Char} {cs : List Char} (hp : StartsPlain (c :: cs)) (hl : ∀ ds l, ¬ Spells (c :: ds) l) :
      Faulty (c :: cs) (.strayChar c)

/-- Source from which all tokens can be read. -/
def Describes (source : List Char) (ts : Tokens) : Prop :=
  ∃ rest, Spelled [] source ts.list rest ∧ Trivia true rest ∧ ts.stop = .following source

/-- Source from which tokens can be read up to an error. -/
def Rejects (source : List Char) (e : Error) : Prop :=
  ∃ front rest tokens trivia, source = front ++ rest ∧ Spelled [] source tokens (trivia ++ rest) ∧
    Trivia false trivia ∧ Faulty rest e.fault ∧ e.position = .following front

/-! ### Every source can be read -/

/-- A comment between marks is closed by the first mark that can close it. -/
theorem exists_first_close {cs : List Char} (h : ['*', '/'] <:+: cs) :
    ∃ body rest, cs = body ++ '*' :: '/' :: rest ∧ ¬ ['*', '/'] <:+: body := by
  induction cs with
  | nil => simp at h
  | cons c cs ih =>
    by_cases hp : ['*', '/'] <+: c :: cs
    · obtain ⟨rest, hrest⟩ := hp
      exact ⟨[], rest, hrest.symm, by simp⟩
    · obtain ⟨body, rest, rfl, hb⟩ := ih ((List.infix_cons_iff.1 h).resolve_left hp)
      refine ⟨c :: body, rest, rfl, fun hi => ?_⟩
      rcases List.infix_cons_iff.1 hi with hi | hi
      · exact hp (hi.trans (List.prefix_append (c :: body) _))
      · exact hb hi

/-- Source that starts with trivia, after which comes something else or a comment that is not closed. -/
def LeadsIn (cs : List Char) : Prop :=
  (∃ t rest, cs = t ++ rest ∧ Trivia rest.isEmpty t ∧ StartsPlain rest) ∨
    ∃ t rest, cs = t ++ '/' :: '*' :: rest ∧ Trivia false t ∧ ¬ ['*', '/'] <:+: rest

theorem LeadsIn.append {cs : List Char} (front : List Char) (hf : ∀ b t, Trivia b t → Trivia b (front ++ t)) :
    LeadsIn cs → LeadsIn (front ++ cs)
  | .inl ⟨t, rest, hcs, ht, hp⟩ => .inl ⟨front ++ t, rest, by simp [hcs], hf _ _ ht, hp⟩
  | .inr ⟨t, rest, hcs, ht, hr⟩ => .inr ⟨front ++ t, rest, by simp [hcs], hf _ _ ht, hr⟩

theorem LeadsIn.of_startsPlain {cs : List Char} (h : StartsPlain cs) : LeadsIn cs :=
  .inl ⟨[], cs, rfl, .nil, h⟩

theorem leadsIn_line {cs : List Char} (ih : ∀ ds, ds.length < cs.length → LeadsIn ds) :
    LeadsIn ('/' :: '/' :: cs) := by
  by_cases hn : '\n' ∈ cs
  · obtain ⟨body, rest, rfl, hb⟩ := List.eq_append_cons_of_mem hn
    have := LeadsIn.append ('/' :: '/' :: (body ++ ['\n'])) (fun b t ht => by simpa using Trivia.line hb ht)
      (ih rest (by simp; omega))
    simpa using this
  · exact .inl ⟨'/' :: '/' :: cs, [], by simp, .last rfl hn, trivial⟩

theorem leadsIn_block {cs : List Char} (ih : ∀ ds, ds.length < cs.length → LeadsIn ds) :
    LeadsIn ('/' :: '*' :: cs) := by
  by_cases hc : ['*', '/'] <:+: cs
  · obtain ⟨body, rest, rfl, hb⟩ := exists_first_close hc
    have := LeadsIn.append ('/' :: '*' :: (body ++ ['*', '/'])) (fun b t ht => by simpa using Trivia.block hb ht)
      (ih rest (by simp; omega))
    simpa using this
  · exact .inr ⟨[], cs, rfl, .nil, hc⟩

/-- Trivia are read up to something else, unless a comment is not closed. -/
theorem leadsIn (cs : List Char) : LeadsIn cs := by
  induction hn : cs.length using Nat.strong_induction_on generalizing cs with
  | _ n ih =>
    have shorter (ds : List Char) (hd : ds.length < cs.length) : LeadsIn ds := ih _ (hn ▸ hd) ds rfl
    cases cs with
    | nil => exact .of_startsPlain trivial
    | cons c cs =>
      by_cases hb : Text.isBlank c = true
      · exact (shorter cs (by simp)).append [c] fun _ _ => .blank hb
      · by_cases hp : c = '/' → ∀ d ∈ cs.head?, d ≠ '/' ∧ d ≠ '*'
        · exact .of_startsPlain ⟨by simpa using hb, hp⟩
        · cases cs with
          | nil => simp at hp
          | cons d cs =>
            obtain ⟨rfl, rfl | rfl⟩ : c = '/' ∧ (d = '/' ∨ d = '*') := by
              simpa [or_iff_not_imp_left] using hp
            · exact leadsIn_line fun ds hd => shorter ds (by simp; omega)
            · exact leadsIn_block fun ds hd => shorter ds (by simp; omega)

/-- Where neither a blank nor a comment stands, there is a lexeme or nothing that can be read. -/
theorem exists_lexeme {c : Char} {cs : List Char} (hp : StartsPlain (c :: cs)) :
    (∃ ls l rest, c :: cs = ls ++ rest ∧ Spells ls l ∧ l.EndsBefore rest) ∨
      ∃ fault, Faulty (c :: cs) fault := by
  by_cases h : ∃ ds l, Spells (c :: ds) l
  · obtain ⟨ds, l, hl⟩ := h
    generalize hds : c :: ds = ls at hl
    have one (m : Lexeme) (hm : Spells [c] m) (he : m.EndsBefore cs) :
        ∃ ls l rest, c :: cs = ls ++ rest ∧ Spells ls l ∧ l.EndsBefore rest :=
      ⟨[c], m, cs, rfl, hm, he⟩
    cases hl with
    | openBrace | closeBrace | openParen | closeParen | colon | comma =>
      obtain ⟨rfl, rfl⟩ := List.cons.inj hds
      exact .inl (one _ (by constructor) (by trivial))
    | text hq _ =>
      obtain ⟨rfl, -⟩ := List.cons.inj hds
      by_cases hc : c ∈ cs
      · obtain ⟨body, rest, rfl, hb⟩ := List.eq_append_cons_of_mem hc
        exact .inl ⟨c :: (body ++ [c]), _, rest, by simp, .text hq hb, trivial⟩
      · exact .inr ⟨_, .unclosedText hq hc⟩
    | word hc _ =>
      obtain ⟨rfl, -⟩ := List.cons.inj hds
      refine .inl ⟨c :: cs.takeWhile continuesWord, _, cs.dropWhile continuesWord, by simp,
        .word hc fun d hd => List.mem_takeWhile_imp hd, ?_⟩
      cases hr : cs.dropWhile continuesWord with
      | nil => trivial
      | cons d ds => simpa [Lexeme.EndsBefore, hr] using List.head?_dropWhile_not continuesWord cs
  · exact .inr ⟨_, .strayChar hp fun ds l hl => h ⟨ds, l, hl⟩⟩

/-- Every source is tokens among trivia, up to its end or up to something that nothing can be read from. -/
theorem spelled_or_faulty (before cs : List Char) :
    (∃ tokens rest, Spelled before cs tokens rest ∧ Trivia true rest) ∨
      ∃ front rest tokens trivia fault, cs = front ++ rest ∧ Spelled before cs tokens (trivia ++ rest) ∧
        Trivia false trivia ∧ Faulty rest fault := by
  induction hn : cs.length using Nat.strong_induction_on generalizing before cs with
  | _ n ih =>
    rcases leadsIn cs with ⟨t, rest, rfl, ht, hp⟩ | ⟨t, rest, rfl, ht, hr⟩
    · cases rest with
      | nil => exact .inl ⟨[], t, by simpa using .nil, ht⟩
      | cons c cs =>
        rcases exists_lexeme hp with ⟨ls, l, rest, hcs, hl, he⟩ | ⟨fault, hf⟩
        · rw [hcs] at hn ⊢
          have := List.length_pos_iff.2 hl.ne_nil
          rcases ih rest.length (by simp at hn; omega) (before ++ t ++ ls) rest rfl with
            ⟨tokens, last, hs, hlast⟩ | ⟨front, last, tokens, trivia, fault, rfl, hs, ht', hf⟩
          · exact .inl ⟨_, last, .cons ht hl he hs, hlast⟩
          · exact .inr ⟨t ++ (ls ++ front), last, _, trivia, fault, by simp, .cons ht hl he hs, ht', hf⟩
        · exact .inr ⟨t, c :: cs, [], t, fault, rfl, .nil, ht, hf⟩
    · exact .inr ⟨t, _, [], t, _, rfl, .nil, ht, .unclosedComment hr⟩

theorem describes_or_rejects (source : List Char) : (∃ ts, Describes source ts) ∨ ∃ e, Rejects source e := by
  rcases spelled_or_faulty [] source with ⟨tokens, rest, hs, ht⟩ |
    ⟨front, rest, tokens, trivia, fault, hsource, hs, ht, hf⟩
  · exact .inl ⟨⟨tokens, .following source⟩, rest, hs, ht, rfl⟩
  · exact .inr ⟨⟨fault, .following front⟩, front, rest, tokens, trivia, hsource, hs, ht, hf, rfl⟩

end StageTree.Source
