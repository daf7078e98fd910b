import Mathlib.Data.List.Chain
import StageTree.Proofs.Source.Tokenize

/-! Source as it is laid out: what its lexemes are, how each of them is spelled, and which blanks and comments
stand between them. A source that can be tokenized has one layout. -/

namespace StageTree.Source

/-- A lexeme, the characters that spell it, and the trivia before it. -/
structure Piece where
  trivia : List Char
  chars : List Char
  lexeme : Lexeme
  blank : Trivia false trivia
  spells : Spells chars lexeme

def Lexeme.isWord : Lexeme → Bool
  | word _ => true
  | _ => false

/-- That two lexemes may follow each other: there is something between two words. -/
def Piece.Apart (a b : Piece) : Prop := a.lexeme.isWord = true → b.lexeme.isWord = true → b.trivia ≠ []

/-- The pieces of a source in turn, and the trivia at its end. -/
structure Layout where
  pieces : List Piece
  last : List Char
  ending : Trivia true last
  apart : pieces.IsChain Piece.Apart

def Piece.spell (pieces : List Piece) (rest : List Char) : List Char :=
  pieces.foldr (fun a cs => a.trivia ++ (a.chars ++ cs)) rest

namespace Layout

def text (L : Layout) : String := String.ofList (Piece.spell L.pieces L.last)

def lexemes (L : Layout) : List Lexeme := L.pieces.map Piece.lexeme

end Layout

/-! ### Where a word ends -/

theorem continuesWord_of_isBlank {c : Char} (h : Text.isBlank c = true) : continuesWord c = false := by
  have blanks : ∀ n ∈ Text.blankPoints, continuesWord (Char.ofNat n) = false := by decide
  have := blanks c.toNat (by simpa [Text.isBlank] using h)
  rwa [Char.ofNat_toNat] at this

theorem continuesWord_of_startsWord {c : Char} (h : startsWord c = true) : continuesWord c = true := by
  simp only [startsWord, continuesWord, Char.isAlphanum, Bool.or_eq_true] at h ⊢
  tauto

/-- No word goes on with trivia. -/
theorem Trivia.continuesWord_eq_false {atEnd : Bool} {c : Char} {cs : List Char} (h : Trivia atEnd (c :: cs)) :
    continuesWord c = false := by
  cases h with
  | blank hc _ => exact continuesWord_of_isBlank hc
  | line | block | last => rfl

/-- A word goes on only with another word. -/
theorem Spells.continuesWord_eq {c : Char} {cs : List Char} {l : Lexeme} (h : Spells (c :: cs) l) :
    continuesWord c = l.isWord := by
  cases h with
  | openBrace | closeBrace | openParen | closeParen | colon | comma => rfl
  | text hq _ => rcases hq with rfl | rfl <;> rfl
  | word hc _ => exact continuesWord_of_startsWord hc

theorem Lexeme.endsBefore_cons {l : Lexeme} {c : Char} {cs : List Char} :
    l.EndsBefore (c :: cs) ↔ (l.isWord = true → continuesWord c = false) := by
  cases l <;> simp [EndsBefore, isWord]

theorem Lexeme.endsBefore_nil (l : Lexeme) : l.EndsBefore [] := by cases l <;> trivial

theorem Trivia.endsBefore {atEnd : Bool} {t : List Char} (h : Trivia atEnd t) (l : Lexeme) : l.EndsBefore t := by
  cases t with
  | nil => exact l.endsBefore_nil
  | cons c t => exact Lexeme.endsBefore_cons.2 fun _ => h.continuesWord_eq_false

/-- A lexeme ends before a piece exactly if the two are apart. -/
theorem Piece.endsBefore_iff (a b : Piece) (rest : List Char) :
    a.lexeme.EndsBefore (b.trivia ++ (b.chars ++ rest)) ↔ a.Apart b := by
  obtain ⟨trivia, chars, lexeme, hblank, hspells⟩ := b
  cases trivia with
  | cons c t => simp [Apart, Lexeme.endsBefore_cons, hblank.continuesWord_eq_false]
  | nil =>
    obtain ⟨c, cs, rfl⟩ := List.exists_cons_of_ne_nil hspells.ne_nil
    simp [Apart, Lexeme.endsBefore_cons, hspells.continuesWord_eq]

/-! ### The tokens of a layout -/

/-- The lexeme of a piece ends before the pieces after it. -/
theorem Piece.endsBefore_spell {a : Piece} {pieces : List Piece} {last : List Char}
    (h : (a :: pieces).IsChain Apart) (hlast : Trivia true last) : a.lexeme.EndsBefore (spell pieces last) := by
  cases pieces with
  | nil => exact hlast.endsBefore a.lexeme
  | cons b pieces => exact (a.endsBefore_iff b _).2 (List.isChain_cons_cons.1 h).1

/-- The text of pieces spells their lexemes. -/
theorem Piece.exists_spelled {pieces : List Piece} {last : List Char} (before : List Char)
    (h : pieces.IsChain Piece.Apart) (hlast : Trivia true last) :
    ∃ tokens, Spelled before (spell pieces last) tokens last ∧
      tokens.map Token.lexeme = pieces.map Piece.lexeme := by
  induction pieces generalizing before with
  | nil => exact ⟨[], .nil, rfl⟩
  | cons a pieces ih =>
    obtain ⟨tokens, hs, htokens⟩ := ih (before ++ a.trivia ++ a.chars) h.tail
    exact ⟨_, .cons a.blank a.spells (endsBefore_spell h hlast) hs,
      by rw [List.map_cons, List.map_cons, htokens]⟩

/-- Text that spells tokens is that of pieces with their lexemes. -/
theorem Spelled.exists_pieces {before cs last : List Char} {tokens : List Token}
    (h : Spelled before cs tokens last) (hlast : Trivia true last) :
    ∃ pieces : List Piece, cs = Piece.spell pieces last ∧ pieces.IsChain Piece.Apart ∧
      pieces.map Piece.lexeme = tokens.map Token.lexeme := by
  induction h with
  | nil => exact ⟨[], rfl, .nil, rfl⟩
  | @cons before trivia ls cs rest l tokens ht hl he _ ih =>
    obtain ⟨pieces, rfl, hchain, hlexemes⟩ := ih hlast
    refine ⟨⟨trivia, ls, l, ht, hl⟩ :: pieces, rfl, ?_, by rw [List.map_cons, List.map_cons, hlexemes]⟩
    cases pieces with
    | nil => exact .singleton _
    | cons b pieces => exact .cons_cons ((Piece.endsBefore_iff ⟨trivia, ls, l, ht, hl⟩ b _).1 he) hchain

/-- The tokens of the text of a layout are its lexemes. -/
theorem Layout.exists_tokenize_eq (L : Layout) :
    ∃ ts, tokenize L.text = .ok ts ∧ ts.list.map Token.lexeme = L.lexemes := by
  obtain ⟨tokens, hs, htokens⟩ := Piece.exists_spelled [] L.apart L.ending
  refine ⟨⟨tokens, .following L.text.toList⟩, Describes.tokenize_eq ?_, htokens⟩
  exact ⟨L.last, by rwa [text, String.toList_ofList], L.ending, rfl⟩

/-- Source that can be tokenized is laid out, with the lexemes of its tokens. -/
theorem exists_layout {source : String} {ts : Tokens} (h : tokenize source = .ok ts) :
    ∃ L : Layout, L.text = source ∧ L.lexemes = ts.list.map Token.lexeme := by
  obtain ⟨rest, hs, hrest, _⟩ : Describes source.toList ts := by
    rcases describes_or_rejects source.toList with ⟨_, hd⟩ | ⟨_, hr⟩
    · rwa [Except.ok.inj (h.symm.trans hd.tokenize_eq)]
    · cases h.symm.trans hr.tokenize_eq
  obtain ⟨pieces, hpieces, hchain, hlexemes⟩ := hs.exists_pieces hrest
  exact ⟨⟨pieces, rest, hrest, hchain⟩, by rw [Layout.text, ← hpieces, String.ofList_toList], hlexemes⟩

/-! ### There is no other layout -/

/-- Trivia before a lexeme end where the lexeme starts. -/
theorem Trivia.append_inj {t t' rest rest' : List Char} (ht : Trivia false t) (ht' : Trivia false t')
    (hr : StartsPlain rest) (hr' : StartsPlain rest') (h : t ++ rest = t' ++ rest') : t = t' ∧ rest = rest' := by
  have hskip := ht.skip_eq (show false = true → rest = [] by simp) .start
  have hskip' := ht'.skip_eq (show false = true → rest' = [] by simp) .start
  rw [h, hskip', skip_plain _ hr, skip_plain _ hr'] at hskip
  obtain rfl : rest' = rest := congrArg Prod.snd (Except.ok.inj hskip)
  exact ⟨List.append_cancel_right h, rfl⟩

/-- No lexeme stands in trivia at the end of a source. -/
theorem Trivia.append_ne {t t' : List Char} {c : Char} {cs : List Char} (ht : Trivia true t) (ht' : Trivia false t')
    (hp : StartsPlain (c :: cs)) : t ≠ t' ++ c :: cs := by
  rintro rfl
  have hskip := ht.skip_eq (fun _ => rfl) .start
  rw [List.append_nil, ht'.skip_eq (by simp), skip_plain _ hp] at hskip
  cases congrArg Prod.snd (Except.ok.inj hskip)

/-- A lexeme ends where it is read to end. -/
theorem Spells.append_inj {ls ls' rest rest' : List Char} {l l' : Lexeme} (hl : Spells ls l) (hl' : Spells ls' l')
    (he : l.EndsBefore rest) (he' : l'.EndsBefore rest') (h : ls ++ rest = ls' ++ rest') :
    ls = ls' ∧ l = l' ∧ rest = rest' := by
  obtain ⟨c, cs, rfl⟩ := List.exists_cons_of_ne_nil hl.ne_nil
  obtain ⟨c', cs', rfl⟩ := List.exists_cons_of_ne_nil hl'.ne_nil
  rw [List.cons_append, List.cons_append] at h
  obtain ⟨rfl, hrest⟩ := List.cons.inj h
  have hread := hl.lexeme_eq he
  rw [hrest, hl'.lexeme_eq he'] at hread
  obtain ⟨rfl, hlength⟩ := Prod.mk.inj (Except.ok.inj hread)
  obtain ⟨rfl, rfl⟩ := List.append_inj hrest hlength.symm
  exact ⟨rfl, rfl, rfl⟩

theorem Piece.spell_startsPlain (a : Piece) (pieces : List Piece) (last : List Char) :
    StartsPlain (a.chars ++ spell pieces last) := a.spells.startsPlain _

theorem Piece.spell_inj {pieces pieces' : List Piece} {last last' : List Char} (h : pieces.IsChain Apart)
    (h' : pieces'.IsChain Apart) (hlast : Trivia true last) (hlast' : Trivia true last')
    (heq : spell pieces last = spell pieces' last') : pieces = pieces' ∧ last = last' := by
  have hne (a : Piece) (pieces : List Piece) {last last' : List Char} (hlast : Trivia true last) :
      last ≠ spell (a :: pieces) last' := by
    obtain ⟨c, cs, hchars⟩ := List.exists_cons_of_ne_nil a.spells.ne_nil
    have hp := a.spell_startsPlain pieces last'
    rw [hchars, List.cons_append] at hp
    simpa [spell, hchars] using hlast.append_ne a.blank hp
  induction pieces generalizing pieces' with
  | nil =>
    cases pieces' with
    | nil => exact ⟨rfl, heq⟩
    | cons b pieces' => exact absurd heq (hne b pieces' hlast)
  | cons a pieces ih =>
    cases pieces' with
    | nil => exact absurd heq.symm (hne a pieces hlast')
    | cons b pieces' =>
      obtain ⟨htrivia, hrest⟩ :=
        a.blank.append_inj b.blank (a.spell_startsPlain _ _) (b.spell_startsPlain _ _) heq
      obtain ⟨hchars, hlexeme, hrest⟩ :=
        a.spells.append_inj b.spells (endsBefore_spell h hlast) (endsBefore_spell h' hlast') hrest
      obtain ⟨rfl, rfl⟩ := ih h.tail h'.tail hrest
      obtain ⟨_, _, _, _, _⟩ := a
      obtain ⟨_, _, _, _, _⟩ := b
      subst htrivia hchars hlexeme
      exact ⟨rfl, rfl⟩

theorem Layout.text_inj {L L' : Layout} (h : L.text = L'.text) : L = L' := by
  obtain ⟨pieces, last, hlast, hchain⟩ := L
  obtain ⟨pieces', last', hlast', hchain'⟩ := L'
  obtain ⟨rfl, rfl⟩ := Piece.spell_inj hchain hchain' hlast hlast' (String.ofList_injective h)
  rfl

/-- Source that can be tokenized has one layout. -/
theorem existsUnique_layout {source : String} {ts : Tokens} (h : tokenize source = .ok ts) :
    ∃! L : Layout, L.text = source := by
  obtain ⟨L, rfl, _⟩ := exists_layout h
  exact ⟨L, rfl, fun _ => Layout.text_inj⟩

end StageTree.Source
