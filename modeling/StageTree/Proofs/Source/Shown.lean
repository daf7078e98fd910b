import StageTree.Proofs.Source.Printed

/-! Steps as they are shown, which is in source form with every value between single quotes. Whether what is
shown is read back is a matter of these quotes alone: characters are laid out in one way at most, so a value
with a quote in it would have to be spelled by a text that ends before the value does. -/

namespace StageTree

open Source

/-! ### Characters and rows of lexemes -/

namespace Source

/-- That characters can be laid out as a row of lexemes. -/
def Lays (cs : List Char) (row : List Lexeme) : Prop :=
  ∃ L : Layout, Piece.spell L.pieces L.last = cs ∧ L.lexemes = row

variable {t ls cs : List Char} {l : Lexeme} {row : List Lexeme}

theorem lays_toList {source : String} :
    Lays source.toList row ↔ ∃ L : Layout, L.text = source ∧ L.lexemes = row := by
  refine exists_congr fun L => and_congr_left' ?_
  rw [Layout.text, ← String.toList_inj, String.toList_ofList]

theorem lays_blanks (h : Trivia true cs) : Lays cs row ↔ row = [] := by
  constructor
  · rintro ⟨⟨pieces, last, hlast, hchain⟩, hspell, rfl⟩
    cases pieces with
    | nil => rfl
    | cons a pieces =>
      obtain ⟨c, ds, hchars⟩ := List.exists_cons_of_ne_nil a.spells.ne_nil
      have hp := a.spell_startsPlain pieces last
      rw [hchars, List.cons_append] at hp
      exact absurd hspell.symm (by simpa [Piece.spell, hchars] using h.append_ne a.blank hp)
  · rintro rfl
    exact ⟨⟨[], cs, h, .nil⟩, rfl, rfl⟩

theorem Trivia.of_blanks {atEnd : Bool} (h : ∀ c ∈ t, Text.isBlank c = true) : Trivia atEnd t := by
  induction t with
  | nil => exact .nil
  | cons c t ih =>
    obtain ⟨hc, ht⟩ := List.forall_mem_cons.1 h
    exact .blank hc (ih ht)

theorem Trivia.of_allBlank {atEnd : Bool} {s : String} (h : Text.allBlank s = true) : Trivia atEnd s.toList :=
  .of_blanks (by simpa [Text.allBlank] using h)

/-- What is laid out after a lexeme is laid out by itself. -/
theorem Lays.cons (ht : Trivia false t) (hl : Spells ls l) (he : l.EndsBefore cs) (h : Lays cs row) :
    Lays (t ++ (ls ++ cs)) (l :: row) := by
  obtain ⟨⟨pieces, last, hlast, hchain⟩, rfl, rfl⟩ := h
  refine ⟨⟨⟨t, ls, l, ht, hl⟩ :: pieces, last, hlast, ?_⟩, rfl, rfl⟩
  cases pieces with
  | nil => exact .singleton _
  | cons b pieces => exact .cons_cons ((Piece.endsBefore_iff ⟨t, ls, l, ht, hl⟩ b _).1 he) hchain

/-- The first lexeme of a row that is laid out. -/
theorem Lays.exists_piece (h : Lays (t ++ cs) (l :: row)) (ht : Trivia false t) (hp : StartsPlain cs) :
    ∃ ls ds, cs = ls ++ ds ∧ Spells ls l ∧ l.EndsBefore ds ∧ Lays ds row := by
  obtain ⟨⟨pieces, last, hlast, hchain⟩, hspell, hrow⟩ := h
  cases pieces with
  | nil => cases hrow
  | cons a pieces =>
    obtain ⟨rfl, rfl⟩ := List.cons.inj hrow
    obtain ⟨_, hchars⟩ := a.blank.append_inj ht (a.spell_startsPlain pieces last) hp hspell
    exact ⟨a.chars, _, hchars.symm, a.spells, Piece.endsBefore_spell hchain hlast,
      ⟨pieces, last, hlast, hchain.tail⟩, rfl, rfl⟩

/-- Characters that start with a lexeme are laid out with this lexeme first. -/
theorem lays_cons (ht : Trivia false t) (hl : Spells ls l) (he : l.EndsBefore cs) :
    Lays (t ++ (ls ++ cs)) row ↔ ∃ rest, row = l :: rest ∧ Lays cs rest := by
  constructor
  · intro h
    cases row with
    | nil =>
      obtain ⟨⟨pieces, last, hlast, hchain⟩, hspell, hrow⟩ := h
      obtain rfl := List.map_eq_nil_iff.1 hrow
      obtain ⟨c, ds, rfl⟩ := List.exists_cons_of_ne_nil hl.ne_nil
      exact absurd hspell (hlast.append_ne ht (hl.startsPlain cs))
    | cons l' rest =>
      obtain ⟨ls', ds, hcs, hl', he', hrest⟩ := h.exists_piece ht (hl.startsPlain cs)
      obtain ⟨_, rfl, rfl⟩ := hl.append_inj hl' he he' hcs
      exact ⟨rest, rfl, hrest⟩
  · rintro ⟨rest, rfl, h⟩
    exact h.cons ht hl he

theorem lays_cons_self (ht : Trivia false t) (hl : Spells ls l) (he : l.EndsBefore cs) :
    Lays (t ++ (ls ++ cs)) (l :: row) ↔ Lays cs row := by
  simp [lays_cons ht hl he]

/-- A value between single quotes is laid out as a text exactly if there is no single quote in it. -/
theorem lays_quoted (ht : Trivia false t) (value : String) :
    Lays (t ++ '\'' :: (value.toList ++ '\'' :: cs)) (.text value :: row) ↔
      '\'' ∉ value.toList ∧ Lays cs row := by
  have hspells (hquote : '\'' ∉ value.toList) : Spells ('\'' :: (value.toList ++ ['\''])) (.text value) := by
    simpa using Spells.text (.inr rfl) hquote
  have hchars : '\'' :: (value.toList ++ '\'' :: cs) = '\'' :: (value.toList ++ ['\'']) ++ cs := by simp
  constructor
  · intro h
    have hquote : '\'' ∉ value.toList := by
      obtain ⟨ls, ds, hls, hl, _⟩ := h.exists_piece ht (startsPlain_quote (.inr rfl) _)
      generalize htext : Lexeme.text value = l at hl
      cases hl with
      | text hq hb =>
        obtain ⟨rfl, _⟩ := List.cons.inj hls
        obtain rfl := Lexeme.text.inj htext
        rwa [String.toList_ofList]
      | openBrace | closeBrace | openParen | closeParen | colon | comma | word => cases htext
    rw [hchars, lays_cons_self ht (hspells hquote) trivial] at h
    exact ⟨hquote, h⟩
  · rintro ⟨hquote, h⟩
    rw [hchars]
    exact h.cons ht (hspells hquote) trivial

/-- Lexemes in print, with a blank before each, are laid out as they stand. -/
theorem lays_print {print : List Lexeme} (h : ∀ l ∈ print, l.Writable) :
    Lays (print.flatMap (fun l => ' ' :: l.written) ++ ' ' :: cs) row ↔
      ∃ rest, row = print ++ rest ∧ Lays (' ' :: cs) rest := by
  induction print generalizing row with
  | nil => simp
  | cons l print ih =>
    obtain ⟨hl, hprint⟩ := List.forall_mem_cons.1 h
    have he : l.EndsBefore (print.flatMap (fun l => ' ' :: l.written) ++ ' ' :: cs) := by
      cases print <;> exact Lexeme.endsBefore_cons.2 fun _ => rfl
    have hcons : Lays ([' '] ++ (l.written ++ _)) row ↔ _ := lays_cons (.blank (by decide) .nil) hl.spells he
    rw [List.flatMap_cons, List.append_assoc]
    refine hcons.trans ⟨?_, ?_⟩
    · rintro ⟨_, rfl, hrow⟩
      obtain ⟨rest, rfl, hrest⟩ := (ih hprint).1 hrow
      exact ⟨rest, rfl, hrest⟩
    · rintro ⟨rest, rfl, hrest⟩
      exact ⟨print ++ rest, rfl, (ih hprint).2 ⟨rest, rfl, hrest⟩⟩

end Source

/-! ### Steps -/

def Step.values : Step → List String
  | .single _ value => [value]
  | .multi _ params => params.map Param.value

/-- A step whose command and keys are words, and which has something after its command. -/
def Step.Worded : Step → Prop
  | .single command _ => Source.isIdentifier command = true
  | .multi command params =>
    Source.isIdentifier command = true ∧ params ≠ [] ∧ ∀ p ∈ params, Source.isIdentifier p.key = true

/-- A step without a single quote in its values. -/
def Step.Unquoted (t : Step) : Prop := ∀ value ∈ t.values, '\'' ∉ value.toList

instance : DecidablePred Step.Worded
  | .single _ _ => inferInstanceAs (Decidable (_ = _))
  | .multi _ _ => inferInstanceAs (Decidable (_ ∧ _ ∧ _))

instance : DecidablePred Step.Unquoted := fun _ => inferInstanceAs (Decidable (∀ _ ∈ _, _))

/-- A worded step can be written down if one of the two quotes is not in its values. -/
theorem Step.Worded.writable {t : Step} (h : t.Worded) (hquotes : t.Unquoted) : t.Writable := by
  cases t with
  | single command value => exact ⟨h, .inr (hquotes value (List.mem_singleton_self value))⟩
  | multi command params =>
    obtain ⟨hcommand, hne, hkeys⟩ := h
    exact ⟨hcommand, hne, fun p hp => ⟨hkeys p hp, .inr (hquotes p.value (List.mem_map_of_mem hp))⟩⟩

namespace Source

variable {t cs : List Char} {row : List Lexeme}

theorem lays_word {c : Char} (ht : Trivia false t) {name : String} (hname : isIdentifier name = true)
    (hc : continuesWord c = false) :
    Lays (t ++ (name.toList ++ c :: cs)) (.word name :: row) ↔ Lays (c :: cs) row :=
  lays_cons_self ht (Lexeme.Writable.spells (l := .word name) hname) hc

theorem blank_trivia : Trivia false [' '] := .blank (by decide) .nil

theorem lays_param {p : Param} (hkey : isIdentifier p.key = true) :
    Lays (' ' :: (p.shown.toList ++ cs)) (p.lexemes ++ row) ↔ '\'' ∉ p.value.toList ∧ Lays cs row := by
  have hshown : p.shown.toList ++ cs =
      p.key.toList ++ ([':'] ++ ([' '] ++ '\'' :: (p.value.toList ++ '\'' :: cs))) := by
    simp [Param.shown]
  rw [hshown]
  calc Lays (' ' :: _) (.word p.key :: .colon :: .text p.value :: row)
    _ ↔ Lays _ (.colon :: .text p.value :: row) := lays_word (c := ':') blank_trivia hkey rfl
    _ ↔ Lays _ (.text p.value :: row) := lays_cons_self .nil .colon trivial
    _ ↔ _ := lays_quoted blank_trivia p.value

/-- Parameters with commas between them. -/
theorem lays_params {p : Param} {ps : List Param} (hkeys : ∀ q ∈ p :: ps, isIdentifier q.key = true) :
    Lays (' ' :: ((", ".intercalate ((p :: ps).map Param.shown)).toList ++ cs))
        (p.lexemes ++ ps.flatMap (fun q => .comma :: q.lexemes) ++ row) ↔
      (∀ q ∈ p :: ps, '\'' ∉ q.value.toList) ∧ Lays cs row := by
  induction ps generalizing p with
  | nil => simpa using lays_param (hkeys p (List.mem_singleton_self p))
  | cons q ps ih =>
    obtain ⟨hkey, hkeys⟩ := List.forall_mem_cons.1 hkeys
    have hshown : ' ' :: ((", ".intercalate ((p :: q :: ps).map Param.shown)).toList ++ cs) =
        ' ' :: (p.shown.toList ++
          ([] ++ ([','] ++ ' ' :: ((", ".intercalate ((q :: ps).map Param.shown)).toList ++ cs)))) := by
      rw [List.map_cons, List.map_cons, String.intercalate_cons_cons]
      simp only [String.toList_append, List.append_assoc]
      rfl
    have hrow : p.lexemes ++ (q :: ps).flatMap (fun q => .comma :: q.lexemes) ++ row =
        p.lexemes ++ (.comma :: (q.lexemes ++ ps.flatMap (fun q => .comma :: q.lexemes) ++ row)) := by simp
    rw [hshown, hrow, lays_param hkey, lays_cons_self .nil .comma trivial, ih hkeys]
    simp only [List.forall_mem_cons, and_assoc]

/-- A step as it is shown spells its lexemes exactly if no value has a single quote in it. -/
theorem lays_step (ht : Trivia false t) {step : Step} (h : step.Worded) :
    Lays (t ++ (step.shown.toList ++ cs)) (step.lexemes ++ row) ↔ step.Unquoted ∧ Lays cs row := by
  cases step with
  | single command value =>
    have hshown : (Step.single command value).shown.toList ++ cs =
        command.toList ++ ([' '] ++ '\'' :: (value.toList ++ '\'' :: cs)) := by
      simp [Step.shown]
    rw [hshown]
    calc Lays _ (.word command :: .text value :: row)
      _ ↔ Lays _ (.text value :: row) := lays_word (c := ' ') ht h rfl
      _ ↔ '\'' ∉ value.toList ∧ Lays cs row := lays_quoted blank_trivia value
      _ ↔ _ := by simp [Step.Unquoted, Step.values]
  | multi command params =>
    obtain ⟨hcommand, hne, hkeys⟩ := h
    obtain ⟨p, ps, rfl⟩ := List.exists_cons_of_ne_nil hne
    have hshown : (Step.multi command (p :: ps)).shown.toList ++ cs =
        command.toList ++ ' ' :: ((", ".intercalate ((p :: ps).map Param.shown)).toList ++ cs) := by
      rw [Step.shown, String.toList_append, String.toList_append, List.append_assoc, List.append_assoc]
      rfl
    rw [hshown]
    calc Lays _ (.word command :: (p.lexemes ++ ps.flatMap (fun q => .comma :: q.lexemes) ++ row))
      _ ↔ Lays _ (p.lexemes ++ ps.flatMap (fun q => .comma :: q.lexemes) ++ row) :=
        lays_word (c := ' ') ht hcommand rfl
      _ ↔ (∀ q ∈ p :: ps, '\'' ∉ q.value.toList) ∧ Lays cs row := lays_params hkeys
      _ ↔ _ := by simp [Step.Unquoted, Step.values]

/-- Steps as they are shown, with blanks before each. -/
def shownSteps (parts : List (String × Step)) : String := .join (parts.map fun part => part.1 ++ part.2.shown)

theorem lays_steps {parts : List (String × Step)} (hblank : ∀ part ∈ parts, Text.allBlank part.1 = true)
    (h : ∀ part ∈ parts, part.2.Worded) :
    Lays ((shownSteps parts).toList ++ cs) ((parts.map Prod.snd).flatMap Step.lexemes ++ row) ↔
      (∀ t ∈ parts.map Prod.snd, t.Unquoted) ∧ Lays cs row := by
  induction parts with
  | nil => simp [shownSteps]
  | cons part parts ih =>
    obtain ⟨hpart, hparts⟩ := List.forall_mem_cons.1 hblank
    obtain ⟨hw, hws⟩ := List.forall_mem_cons.1 h
    have hshown : (shownSteps (part :: parts)).toList ++ cs =
        part.1.toList ++ (part.2.shown.toList ++ ((shownSteps parts).toList ++ cs)) := by
      simp [shownSteps]
    rw [hshown, List.map_cons, List.flatMap_cons, List.append_assoc, lays_step (.of_allBlank hpart) hw,
      ih hparts hws, List.forall_mem_cons, and_assoc]

/-! ### The clause of the steps -/

def shownClause (parts : List (String × Step)) (last : String) : String :=
  "steps \x7b" ++ shownSteps parts ++ last ++ "\x7d"

/-- One step or more, with words where these are wanted and nothing but blanks in between. -/
structure Shown (parts : List (String × Step)) (last : String) : Prop where
  ne_nil : parts ≠ []
  blank : ∀ part ∈ parts, Text.allBlank part.1 = true
  blank_last : Text.allBlank last = true
  worded : ∀ part ∈ parts, part.2.Worded

variable {parts : List (String × Step)} {last : String}

theorem lays_clause (ht : Trivia false t) :
    Lays (t ++ ((shownClause parts last).toList ++ cs)) row ↔
      ∃ rest, row = .word "steps" :: .openBrace :: rest ∧
        Lays ((shownSteps parts).toList ++ (last.toList ++ '\x7d' :: cs)) rest := by
  have hshown : (shownClause parts last).toList ++ cs =
      "steps".toList ++ ([' '] ++ (['\x7b'] ++ ((shownSteps parts).toList ++ (last.toList ++ '\x7d' :: cs)))) := by
    simp [shownClause]
  have hsteps : Spells "steps".toList (.word "steps") := Lexeme.Writable.spells (l := .word "steps") (by decide)
  have hend (ds : List Char) : (Lexeme.word "steps").EndsBefore ([' '] ++ ds) := rfl
  rw [hshown, lays_cons ht hsteps (hend _)]
  simp only [lays_cons blank_trivia .openBrace trivial]
  constructor
  · rintro ⟨_, rfl, rest, rfl, hrest⟩
    exact ⟨rest, rfl, hrest⟩
  · rintro ⟨rest, rfl, hrest⟩
    exact ⟨_, rfl, rest, rfl, hrest⟩

/-- The clause spells the steps exactly if no value has a single quote in it. -/
theorem lays_clause_steps (ht : Trivia false t) (h : Shown parts last) :
    Lays (t ++ ((shownClause parts last).toList ++ cs))
        (clause "steps" ((parts.map Prod.snd).flatMap Step.lexemes) ++ row) ↔
      (∀ step ∈ parts.map Prod.snd, step.Unquoted) ∧ Lays cs row := by
  have hrow : clause "steps" ((parts.map Prod.snd).flatMap Step.lexemes) ++ row =
      .word "steps" :: .openBrace :: ((parts.map Prod.snd).flatMap Step.lexemes ++ (.closeBrace :: row)) := by
    simp [clause]
  have hclose : Lays (last.toList ++ ('\x7d' :: cs)) (.closeBrace :: row) ↔ Lays cs row :=
    lays_cons_self (.of_allBlank h.blank_last) .closeBrace trivial
  rw [hrow, lays_clause ht, ← hclose, ← lays_steps h.blank h.worded]
  simp

/-- The steps of a source that is nothing but their clause. -/
def parseClause (source : String) : Except Error (List Step) := do
  let ts ← tokenize source
  let (steps, rest) ← braced ts.stop (parseSteps ts.stop) (← needKeyword ts.stop "steps" ts.list)
  match rest with
  | [] => return steps
  | rest => refuse ts.stop .ending rest

/-- The clause of some steps is read exactly if its lexemes are theirs. -/
theorem parseClause_eq_ok {source : String} {steps : List Step} :
    parseClause source = .ok steps ↔ (steps ≠ [] ∧ ∀ step ∈ steps, step.Writable) ∧
      Lays source.toList (clause "steps" (steps.flatMap Step.lexemes)) := by
  have hreads (n : Nat) (stop : Position) : Reads n DerivesSteps anywhere fun ts =>
      needKeyword stop "steps" ts >>= braced stop (parseSteps stop) :=
    (reads_steps.braced fun _ _ => ⟨rfl, by simp [atLexeme]⟩).after (.word "steps") (.keyword "steps")
  have hprinted : Printed DerivesSteps steps _ _ :=
    (Printed.plus fun step _ => step.printed).clause "steps" (by decide)
  constructor
  · intro h
    obtain ⟨ts, hts, h⟩ := bind_eq_ok.1 h
    obtain ⟨ts₁, hkeyword, h⟩ := bind_eq_ok.1 h
    obtain ⟨⟨steps', ts₂⟩, hread, hend⟩ := bind_eq_ok.1 h
    obtain ⟨used, hused, hd⟩ := (hreads 0 ts.stop).sound (bind_eq_ok.2 ⟨ts₁, hkeyword, hread⟩)
    simp only at hend
    split at hend
    · obtain rfl := Except.ok.inj hend
      obtain ⟨L, rfl, hL⟩ := exists_layout hts
      rw [hused, List.append_nil] at hL
      obtain ⟨hw, hrow⟩ := (hprinted _).1 ⟨hd, hL ▸ L.writable⟩
      exact ⟨hw, lays_toList.2 ⟨L, rfl, hL.trans hrow⟩⟩
    · simp at hend
  · rintro ⟨hw, hlays⟩
    obtain ⟨L, rfl, hL⟩ := lays_toList.1 hlays
    obtain ⟨ts, hts, hrow⟩ := L.exists_tokenize_eq
    rw [hL] at hrow
    have hd : DerivesSteps (ts.list.map Token.lexeme) steps := hrow ▸ ((hprinted _).2 ⟨hw, rfl⟩).1
    obtain ⟨ts₁, hkeyword, hread⟩ :=
      bind_eq_ok.1 ((hreads _ ts.stop).complete (Nat.le_refl (ts.list ++ []).length) hd trivial)
    rw [List.append_nil] at hkeyword
    exact bind_eq_ok.2 ⟨ts, hts, bind_eq_ok.2 ⟨ts₁, hkeyword, bind_eq_ok.2 ⟨_, hread, rfl⟩⟩⟩

/-! ### A pipeline around the clause -/

/-- The lexemes of a pipeline up to the clauses of its first stage. -/
def opening (agent : Agent) (name : String) : List Lexeme :=
  .word "pipeline" :: .openBrace :: (agent.lexemes ++
    [.word "stages", .openBrace, .word "stage", .openParen, .text name, .closeParen, .openBrace])

/-- The source of a pipeline that has a single stage, with a clause in it. -/
def sourceAround (agent : Agent) (name content : String) : String :=
  String.ofList ((opening agent name).flatMap fun l => ' ' :: l.written) ++ " " ++ content ++ " \x7d \x7d \x7d"

/-- Where the lexemes of an agent end is seen from themselves. -/
theorem agent_append_inj {agent agent' : Agent} {ls ls' : List Lexeme}
    (h : agent.lexemes ++ ls = agent'.lexemes ++ ls') : agent = agent' ∧ ls = ls' := by
  cases agent <;> cases agent' <;> simp_all [Agent.lexemes]

/-- The steps come first in a stage whose clauses start with them. -/
theorem exists_of_opening {p : Pipeline} {stage : Stage} {others : List Stage} {agent : Agent} {name : String}
    {rest : List Lexeme} (hstages : p.stages = stage :: others) (hne : stage.steps ≠ [])
    (h : p.lexemes = opening agent name ++ .word "steps" :: rest) :
    ∃ row, .word "steps" :: rest = clause "steps" (stage.steps.flatMap Step.lexemes) ++ row := by
  obtain ⟨agent', stages⟩ := p
  obtain rfl : stages = stage :: others := hstages
  obtain ⟨name', agentOf, steps, failFast, parallel⟩ := stage
  obtain ⟨step, steps, rfl⟩ := List.exists_cons_of_ne_nil hne
  simp only [Pipeline.lexemes, opening, clause, List.cons_append, List.append_assoc, List.cons.injEq, true_and] at h
  obtain ⟨-, hbody⟩ := agent_append_inj h
  simp only [Stage.allLexemes, Stage.lexemes, List.cons_append, List.append_assoc, List.nil_append,
    List.cons.injEq, Lexeme.text.injEq, true_and] at hbody
  obtain ⟨-, hclauses⟩ := hbody
  cases agentOf with
  | none => exact ⟨_, hclauses.symm⟩
  | some a => cases a <;> simp [Agent.lexemes] at hclauses

theorem opening_writable {agent : Agent} {name : String} (ha : agent.Writable) (hname : Quotable name) :
    ∀ l ∈ opening agent name, l.Writable := by
  have hagent : ∀ l ∈ agent.lexemes, l.Writable := ((agent.printed _).2 ⟨ha, rfl⟩).2
  have hwords : (Lexeme.word "pipeline").Writable ∧ (Lexeme.word "stages").Writable ∧
      (Lexeme.word "stage").Writable := by decide
  obtain ⟨hpipeline, hstages, hstage⟩ := hwords
  simp only [opening, List.forall_mem_cons, List.forall_mem_append]
  exact ⟨hpipeline, trivial, hagent, hstages, trivial, hstage, trivial, hname, trivial, trivial,
    List.forall_mem_nil _⟩

theorem lays_closing : Lays " \x7d \x7d \x7d".toList [.closeBrace, .closeBrace, .closeBrace] := by
  have hend : Lays [] [] := (lays_blanks .nil).2 rfl
  exact ((hend.cons blank_trivia .closeBrace trivial).cons blank_trivia .closeBrace trivial).cons blank_trivia
    .closeBrace trivial

theorem lays_around {agent : Agent} {name : String} (ha : agent.Writable) (hname : Quotable name)
    (content : String) : Lays (sourceAround agent name content).toList row ↔
      ∃ rest, row = opening agent name ++ rest ∧
        Lays ([' '] ++ (content.toList ++ " \x7d \x7d \x7d".toList)) rest := by
  have hsource : (sourceAround agent name content).toList =
      (opening agent name).flatMap (fun l => ' ' :: l.written) ++
        ' ' :: (content.toList ++ " \x7d \x7d \x7d".toList) := by
    simp [sourceAround]
  rw [hsource, lays_print (opening_writable ha hname)]
  rfl

/-- Steps as they are shown are read back as the same steps exactly if no value has a single quote in it. So it is
for the clause alone, and for the clause in a stage: no pipeline that the source could be read as has just these
steps in its first stage, unless there is no quote, and then it is the one that was meant. -/
theorem parse_shown (h : Shown parts last) {agent : Agent} (ha : agent.Writable) {name : String}
    (hname : Quotable name) :
    let steps := parts.map Prod.snd
    let source := sourceAround agent name (shownClause parts last)
    (parseClause (shownClause parts last) = .ok steps ↔ ∀ step ∈ steps, step.Unquoted) ∧
      ((∃ p stage others, parse source = .ok p ∧ p.stages = stage :: others ∧ stage.steps = steps) ↔
        ∀ step ∈ steps, step.Unquoted) ∧
      ((∀ step ∈ steps, step.Unquoted) → parse source = .ok ⟨agent, [{ name, steps }]⟩) := by
  intro steps source
  have hne : steps ≠ [] := fun e => h.ne_nil (List.map_eq_nil_iff.1 e)
  have hwritable (hquotes : ∀ step ∈ steps, step.Unquoted) : ∀ step ∈ steps, step.Writable := by
    intro step hstep
    obtain ⟨part, hpart, rfl⟩ := List.mem_map.1 hstep
    exact (h.worded part hpart).writable (hquotes _ hstep)
  have hread (hquotes : ∀ step ∈ steps, step.Unquoted) : parse source = .ok ⟨agent, [{ name, steps }]⟩ := by
    have hlexemes : (⟨agent, [{ name, steps }]⟩ : Pipeline).lexemes =
        opening agent name ++ (clause "steps" (steps.flatMap Step.lexemes) ++ List.replicate 3 .closeBrace) := by
      obtain ⟨step, others, hsteps⟩ := List.exists_cons_of_ne_nil hne
      simp [Pipeline.lexemes, Stage.allLexemes, Stage.lexemes, Stage.stepLexemes, Stage.groupLexemes, opening,
        clause, hsteps, List.replicate]
    have hmember : ∀ s ∈ [({ name, steps } : Stage)], s.Everywhere Stage.Writable := by
      refine List.forall_mem_singleton.2 (.mk ⟨hname, ?_, hwritable hquotes, ?_⟩ ?_)
      all_goals simp [Stage.branches]
    refine (parse_iff_layout source _).2 ⟨⟨ha, List.cons_ne_nil _ _, hmember⟩, lays_toList.1 ?_⟩
    rw [hlexemes]
    exact (lays_around ha hname _).2 ⟨_, rfl, (lays_clause_steps blank_trivia h).2 ⟨hquotes, lays_closing⟩⟩
  refine ⟨?_, ⟨?_, fun hquotes => ⟨_, _, _, hread hquotes, rfl, rfl⟩⟩, hread⟩
  · have hend : Lays [] [] := (lays_blanks .nil).2 rfl
    have hclause : Lays ([] ++ (_ ++ [])) (_ ++ []) ↔ _ := lays_clause_steps .nil h
    rw [List.nil_append, List.append_nil, List.append_nil, and_iff_left hend] at hclause
    rw [parseClause_eq_ok, hclause]
    exact ⟨And.right, fun hquotes => ⟨⟨hne, hwritable hquotes⟩, hquotes⟩⟩
  · rintro ⟨p, stage, others, hparse, hstages, hsteps⟩
    obtain ⟨_, hlayout⟩ := (parse_iff_layout source p).1 hparse
    obtain ⟨rest, hrow, hrest⟩ := (lays_around ha hname _).1 (lays_toList.2 hlayout)
    obtain ⟨rest, rfl, _⟩ := (lays_clause blank_trivia).1 hrest
    obtain ⟨row, hclause⟩ := exists_of_opening hstages (hsteps ▸ hne) hrow
    rw [hclause, hsteps] at hrest
    exact ((lays_clause_steps blank_trivia h).1 hrest).1

/-- Keywords as commands and keys, and marks in values, are read back; a value that looks like the end of one step
and the start of another one is not. -/
theorem parse_shown_keywords :
    let parts : List (String × Step) := [("", .single "steps" "\"\x7d//"),
      ("\n\t", .multi "stage" [⟨"agent", ""⟩, ⟨"agent", "a: /*"⟩]), (" ", .single "_9" ", ")]
    let quoted : List (String × Step) := [(" ", .single "sh" "x' sh 'y")]
    (Shown parts "\n" ∧ Shown quoted "" ∧ Agent.none.Writable ∧ Quotable "s") ∧
      parse (sourceAround .none "s" (shownClause parts "\n")) =
        .ok ⟨.none, [{ name := "s", steps := parts.map Prod.snd }]⟩ ∧
      parseClause (shownClause quoted "") ≠ .ok (quoted.map Prod.snd) := by
  intro parts quoted
  have hparts : Shown parts "\n" := ⟨by decide, by decide, by decide, by decide⟩
  have hquoted : Shown quoted "" := ⟨by decide, by decide, by decide, by decide⟩
  have hagent : Agent.none.Writable := trivial
  have hname : Quotable "s" := by decide
  refine ⟨⟨hparts, hquoted, hagent, hname⟩, ?_, fun hread => ?_⟩
  · exact (parse_shown hparts hagent hname).2.2 (by decide)
  · exact absurd ((parse_shown hquoted hagent hname).1.1 hread) (by decide)

example : parseClause (shownClause [(" ", .single "sh" "x' sh 'y")] "") =
    .ok [.single "sh" "x", .single "sh" "y"] := by cbv

end Source

end StageTree
