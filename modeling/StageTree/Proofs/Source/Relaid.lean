import StageTree.Proofs.Source.Layout
import StageTree.Proofs.Source.Places
import StageTree.Proofs.Source.Reads

/-! Blanks, comments and the kind of quotes say nothing. A source that is laid out anew, with other trivia between
its lexemes and with other quotes around its texts, is the same pipeline, or is refused for the same fault. -/

namespace StageTree.Source

/-- The same characters, or a text between quotes of another kind, which does not stand in it. -/
inductive Requoted : List Char → List Char → Prop
  | same (cs : List Char) : Requoted cs cs
  | switched {quote quote' : Char} {body : List Char} (hq : isQuote quote = true) (hq' : isQuote quote' = true)
      (hb : quote' ∉ body) : Requoted (quote :: (body ++ [quote])) (quote' :: (body ++ [quote']))

/-- Layouts that differ in trivia and in the kinds of quotes alone. -/
def Layout.Resembles (L L' : Layout) : Prop :=
  List.Forall₂ (fun a b => Requoted a.chars b.chars) L.pieces L'.pieces

/-! ### The lexemes that characters spell -/

theorem Spells.text_eq {quote : Char} {body : List Char} {l : Lexeme} (hq : isQuote quote = true)
    (h : Spells (quote :: (body ++ [quote])) l) : l = .text (String.ofList body) := by
  generalize hls : quote :: (body ++ [quote]) = ls at h
  cases h with
  | openBrace | closeBrace | openParen | closeParen | colon | comma => simp at hls
  | text =>
    obtain ⟨rfl, hbody⟩ := List.cons.inj hls
    rw [List.append_cancel_right hbody]
  | word hc =>
    obtain ⟨rfl, -⟩ := List.cons.inj hls
    rw [isQuote_of_startsWord hc] at hq
    cases hq

theorem Spells.lexeme_unique {ls : List Char} {l l' : Lexeme} (h : Spells ls l) (h' : Spells ls l') : l = l' :=
  (h.append_inj h' l.endsBefore_nil l'.endsBefore_nil rfl).2.1

theorem Requoted.lexeme_eq {ls ls' : List Char} {l l' : Lexeme} (h : Requoted ls ls') (hl : Spells ls l)
    (hl' : Spells ls' l') : l = l' := by
  cases h with
  | same => exact hl.lexeme_unique hl'
  | switched hq hq' => rw [hl.text_eq hq, hl'.text_eq hq']

/-- A lexeme is spelled in one way, up to the quotes around a text. -/
theorem Spells.requoted {ls ls' : List Char} {l : Lexeme} (h : Spells ls l) (h' : Spells ls' l) :
    Requoted ls ls' := by
  cases h with
  | openBrace | closeBrace | openParen | closeParen | colon | comma =>
    cases h'
    exact .same _
  | @text quote body hq =>
    generalize hl : Lexeme.text (String.ofList body) = l at h'
    cases h' with
    | text hq' hb' =>
      obtain rfl := String.ofList_injective (Lexeme.text.inj hl)
      exact .switched (isQuote_iff.2 hq) (isQuote_iff.2 hq') hb'
    | openBrace | closeBrace | openParen | closeParen | colon | comma | word => cases hl
  | @word c tail =>
    generalize hl : Lexeme.word (String.ofList (c :: tail)) = l at h'
    cases h' with
    | word =>
      rw [String.ofList_injective (Lexeme.word.inj hl)]
      exact .same _
    | openBrace | closeBrace | openParen | closeParen | colon | comma | text => cases hl

/-- Layouts resemble each other exactly if they have the same lexemes. -/
theorem Layout.resembles_iff {L L' : Layout} : L.Resembles L' ↔ L.lexemes = L'.lexemes := by
  have hpieces (as bs : List Piece) : List.Forall₂ (fun a b => Requoted a.chars b.chars) as bs ↔
      as.map Piece.lexeme = bs.map Piece.lexeme := by
    constructor
    · intro h
      induction h with
      | nil => rfl
      | @cons a b _ _ hab _ ih => rw [List.map_cons, List.map_cons, hab.lexeme_eq a.spells b.spells, ih]
    · intro h
      induction as generalizing bs with
      | nil =>
        obtain rfl := List.map_eq_nil_iff.1 h.symm
        exact .nil
      | cons a as ih =>
        obtain ⟨b, bs, rfl, hb, hbs⟩ := List.map_eq_cons_iff.1 h.symm
        exact .cons (a.spells.requoted (hb ▸ b.spells)) (ih bs hbs.symm)
  exact hpieces L.pieces L'.pieces

/-! ### Reading -/

/-- Sources of the same lexemes are read as the same pipeline, or refused with the same fault. -/
theorem Layout.alike_parse {L L' : Layout} (h : L.lexemes = L'.lexemes) : Alike Eq (parse L.text) (parse L'.text) := by
  obtain ⟨ts, hts, hlexemes⟩ := L.exists_tokenize_eq
  obtain ⟨ts', hts', hlexemes'⟩ := L'.exists_tokenize_eq
  rw [parse, parse, hts, hts']
  exact Source.alike_parse (hlexemes.trans (h.trans hlexemes'.symm))

/-- A source that can be tokenized has one layout, and however it is laid out anew, it is read as the same pipeline
or refused with the same fault. -/
theorem parse_relaid (source : String) (ts : Tokens) (h : tokenize source = .ok ts) :
    ∃ L : Layout, L.text = source ∧ (∀ L' : Layout, L'.text = source → L' = L) ∧
      ∀ L' : Layout, L.Resembles L' →
        (∃ p, parse source = .ok p ∧ parse L'.text = .ok p) ∨
          ∃ e e', parse source = .error e ∧ parse L'.text = .error e' ∧ e.fault = e'.fault := by
  obtain ⟨L, rfl, hunique⟩ := existsUnique_layout h
  refine ⟨L, rfl, hunique, fun L' hL' => ?_⟩
  have halike := L.alike_parse (Layout.resembles_iff.1 hL')
  generalize parse L.text = x, parse L'.text = y at halike
  cases halike with
  | ok h => exact .inl ⟨_, rfl, h ▸ rfl⟩
  | error h => exact .inr ⟨_, _, rfl, rfl, h⟩

/-- A small source with nothing between its tokens but what it needs. -/
def terse : String := "pipeline\x7bagent none stages\x7bstage('a')\x7b\x7d\x7d\x7d"

/-- The same tokens with comments between them, in which there are quotes and marks, and with other quotes around
the name. -/
def commented : String :=
  "// '\npipeline/*\x7b*/\x7bagent/**/none\tstages \x7b stage ( \"a\" ) \x7b \x7d \x7d \x7d// \"\n"

theorem parse_relaid_commented :
    parse terse = .ok ⟨.none, [{ name := "a" }]⟩ ∧ parse commented = .ok ⟨.none, [{ name := "a" }]⟩ := by
  have hlexemes : (tokenize terse).map (fun ts => ts.list.map Token.lexeme) =
      (tokenize commented).map fun ts => ts.list.map Token.lexeme := by decide +kernel
  have hplain : parse terse = .ok ⟨.none, [{ name := "a" }]⟩ := by decide +kernel
  refine ⟨hplain, ?_⟩
  generalize commented = relaid at *
  obtain ⟨ts, hts, _⟩ := bind_eq_ok.1 hplain
  obtain ⟨_, _, hunique, hread⟩ := parse_relaid _ ts hts
  obtain ⟨L, hL, hlexemesL⟩ := exists_layout hts
  obtain rfl := hunique L hL
  rw [hts] at hlexemes
  cases hts' : tokenize relaid with
  | error e =>
    rw [hts'] at hlexemes
    cases hlexemes
  | ok ts' =>
    obtain ⟨L', rfl, hL'⟩ := exists_layout hts'
    rw [hts'] at hlexemes
    have hsame := hlexemesL.trans ((Except.ok.inj hlexemes).trans hL'.symm)
    rcases hread L' (Layout.resembles_iff.2 hsame) with ⟨p, hp, hp'⟩ | ⟨e, _, he, _⟩
    · rwa [← hp, hplain] at hp'
    · rw [hplain] at he
      cases he

end StageTree.Source
