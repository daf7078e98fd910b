import StageTree.Proofs.Pipeline.Proper
import StageTree.Proofs.Source.Derivation
import StageTree.Proofs.Source.Layout

/-! Pipelines in print. A tree has one row of lexemes, its clauses in the order of the grammar, and can be written
down if its words are words, its texts can be put between quotes and no list is empty that the grammar wants an
item in. These are the trees that can be read, and each is read from every layout of its lexemes. -/

namespace StageTree

open Source

/-! ### What can be written -/

namespace Source

/-- Whether a name is a letter or an underscore and then letters, digits and underscores. -/
def isIdentifier (name : String) : Bool :=
  match name.toList with
  | [] => false
  | c :: cs => startsWord c && cs.all continuesWord

/-- A text in which one of the two quotes does not stand. -/
abbrev Quotable (value : String) : Prop := '"' ∉ value.toList ∨ '\'' ∉ value.toList

/-- A lexeme that some characters spell. -/
def Lexeme.Writable : Lexeme → Prop
  | word name => isIdentifier name = true
  | text value => Quotable value
  | openBrace | closeBrace | openParen | closeParen | colon | comma => True

instance : DecidablePred Lexeme.Writable
  | .word name => inferInstanceAs (Decidable (isIdentifier name = true))
  | .text value => inferInstanceAs (Decidable (Quotable value))
  | .openBrace | .closeBrace | .openParen | .closeParen | .colon | .comma => .isTrue trivial

end Source

def Agent.Writable : Agent → Prop
  | none => True
  | container image => Quotable image

@[mk_iff]
structure Param.Writable (p : Param) : Prop where
  key : isIdentifier p.key = true
  value : Quotable p.value

def Step.Writable : Step → Prop
  | .single command value => isIdentifier command = true ∧ Quotable value
  | .multi command params => isIdentifier command = true ∧ params ≠ [] ∧ ∀ p ∈ params, p.Writable

/-- A stage that can be written down if its branches can be. -/
@[mk_iff]
structure Stage.Writable (s : Stage) : Prop where
  name : Quotable s.name
  agent : ∀ a ∈ s.agent, a.Writable
  steps : ∀ t ∈ s.steps, t.Writable
  group : s.parallel ≠ some []

instance : DecidablePred Agent.Writable
  | .none => .isTrue trivial
  | .container image => inferInstanceAs (Decidable (Quotable image))

instance : DecidablePred Param.Writable := fun p => decidable_of_iff' _ p.writable_iff

instance : DecidablePred Step.Writable
  | .single _ _ => inferInstanceAs (Decidable (_ ∧ _))
  | .multi _ _ => inferInstanceAs (Decidable (_ ∧ _ ∧ _))

instance : DecidablePred Stage.Writable := fun s => decidable_of_iff' _ s.writable_iff

structure Pipeline.Writable (p : Pipeline) : Prop where
  agent : p.agent.Writable
  stages : p.stages ≠ []
  members : ∀ s ∈ p.stages, s.Everywhere Stage.Writable

/-! ### Printing -/

def Source.clause (keyword : String) (content : List Lexeme) : List Lexeme :=
  .word keyword :: .openBrace :: (content ++ [.closeBrace])

def Agent.lexemes : Agent → List Lexeme
  | none => [.word "agent", .word "none"]
  | container image => .word "agent" :: [.openBrace, .word "docker", .text image, .closeBrace]

def Param.lexemes (p : Param) : List Lexeme := [.word p.key, .colon, .text p.value]

def Step.lexemes : Step → List Lexeme
  | .single command value => [.word command, .text value]
  | .multi command [] => [.word command]
  | .multi command (p :: ps) => .word command :: (p.lexemes ++ ps.flatMap fun p => .comma :: p.lexemes)

namespace Stage

/-- The clause of the steps, which is left out where there are none. -/
def stepLexemes : List Step → List Lexeme
  | [] => []
  | t :: ts => clause "steps" ((t :: ts).flatMap Step.lexemes)

def failFastLexemes : Bool → List Lexeme
  | true => [.word "failFast", .word "true"]
  | false => [.word "failFast", .word "false"]

mutual

def lexemes : Stage → List Lexeme
  | ⟨name, agent, steps, failFast, parallel⟩ =>
    .word "stage" :: .openParen :: .text name :: .closeParen :: .openBrace ::
      (agent.elim [] Agent.lexemes ++ (stepLexemes steps ++ (failFast.elim [] failFastLexemes ++
        (groupLexemes parallel ++ [.closeBrace]))))

def groupLexemes : Option (List Stage) → List Lexeme
  | none => []
  | some branches => clause "parallel" (allLexemes branches)

def allLexemes : List Stage → List Lexeme
  | [] => []
  | s :: ss => lexemes s ++ allLexemes ss

end

theorem allLexemes_eq (stages : List Stage) : allLexemes stages = stages.flatMap lexemes := by
  induction stages with
  | nil => rfl
  | cons s stages ih => rw [allLexemes, ih, List.flatMap_cons]

end Stage

def Pipeline.lexemes (p : Pipeline) : List Lexeme :=
  clause "pipeline" (p.agent.lexemes ++ clause "stages" (Stage.allLexemes p.stages))

/-- The characters of a lexeme in print; a text stands between quotes that do not stand in it. -/
def Source.Lexeme.written : Lexeme → List Char
  | word name => name.toList
  | text value =>
    if '"' ∈ value.toList then '\'' :: (value.toList ++ ['\'']) else '"' :: (value.toList ++ ['"'])
  | openBrace => ['\x7b']
  | closeBrace => ['\x7d']
  | openParen => ['(']
  | closeParen => [')']
  | colon => [':']
  | comma => [',']

/-- A pipeline in print, with a blank before every lexeme. -/
def Pipeline.source (p : Pipeline) : String := String.ofList (p.lexemes.flatMap fun l => ' ' :: l.written)

namespace Source

/-! ### Lexemes and their characters -/

theorem Spells.writable {cs : List Char} {l : Lexeme} (h : Spells cs l) : l.Writable := by
  cases h with
  | openBrace | closeBrace | openParen | closeParen | colon | comma => trivial
  | @text quote body hq hb =>
    show Quotable (String.ofList body)
    rw [Quotable, String.toList_ofList]
    rcases hq with rfl | rfl
    · exact .inl hb
    · exact .inr hb
  | @word c tail hc ht =>
    show isIdentifier (String.ofList (c :: tail)) = true
    simp only [isIdentifier, String.toList_ofList, Bool.and_eq_true, List.all_eq_true]
    exact ⟨hc, ht⟩

theorem Lexeme.Writable.spells {l : Lexeme} (h : l.Writable) : Spells l.written l := by
  cases l with
  | openBrace => exact .openBrace
  | closeBrace => exact .closeBrace
  | openParen => exact .openParen
  | closeParen => exact .closeParen
  | colon => exact .colon
  | comma => exact .comma
  | word name =>
    obtain ⟨cs, rfl⟩ : ∃ cs, name = String.ofList cs := ⟨_, String.ofList_toList.symm⟩
    simp only [Writable, isIdentifier, String.toList_ofList] at h
    rw [written, String.toList_ofList]
    cases cs with
    | nil => cases h
    | cons c cs =>
      rw [Bool.and_eq_true, List.all_eq_true] at h
      exact .word h.1 h.2
  | text value =>
    have hvalue : text value = text (String.ofList value.toList) := by rw [String.ofList_toList]
    rw [written]
    split
    · rename_i hquote
      rw [hvalue]
      exact .text (.inr rfl) (h.resolve_left (not_not_intro hquote))
    · rename_i hquote
      rw [hvalue]
      exact .text (.inl rfl) hquote

/-! ### The lexemes of a derivation -/

section

variable {α : Type} {D : List Lexeme → α → Prop} {a : α} {as : List α} {writable : Prop} {print : List Lexeme}

/-- That what can be written of something is derived from its lexemes in print, and from no others. -/
def Printed (D : List Lexeme → α → Prop) (a : α) (writable : Prop) (print : List Lexeme) : Prop :=
  ∀ ls, D ls a ∧ (∀ l ∈ ls, l.Writable) ↔ writable ∧ ls = print

/-- Something that is derived from these lexemes and no others. -/
theorem Printed.exactly (hD : ∀ ls, D ls a → ls = print) (hd : D print a)
    (hw : writable ↔ ∀ l ∈ print, l.Writable) : Printed D a writable print := by
  intro ls
  constructor
  · rintro ⟨h, hls⟩
    obtain rfl := hD ls h
    exact ⟨hw.2 hls, rfl⟩
  · rintro ⟨h, rfl⟩
    exact ⟨hd, hw.1 h⟩

theorem Printed.after {l : Lexeme} (h : Printed D a writable print) (hl : l.Writable) :
    Printed (After l D) a writable (l :: print) := by
  intro ls
  constructor
  · rintro ⟨⟨hd⟩, hls⟩
    have := (h _).1 ⟨hd, fun l hl => hls l (List.mem_cons_of_mem _ hl)⟩
    exact ⟨this.1, congrArg _ this.2⟩
  · rintro ⟨hw, rfl⟩
    obtain ⟨hd, hls⟩ := (h print).2 ⟨hw, rfl⟩
    exact ⟨.mk hd, List.forall_mem_cons.2 ⟨hl, hls⟩⟩

theorem Printed.braces (h : Printed D a writable print) :
    Printed (Braces D) a writable (.openBrace :: (print ++ [.closeBrace])) := by
  intro ls
  constructor
  · rintro ⟨⟨hd⟩, hls⟩
    have := (h _).1 ⟨hd, fun l hl => hls l (List.mem_cons_of_mem _ (List.mem_append_left _ hl))⟩
    exact ⟨this.1, by rw [this.2]⟩
  · rintro ⟨hw, rfl⟩
    obtain ⟨hd, hls⟩ := (h print).2 ⟨hw, rfl⟩
    refine ⟨.mk hd, List.forall_mem_cons.2 ⟨trivial, List.forall_mem_append.2 ⟨hls, ?_⟩⟩⟩
    exact List.forall_mem_singleton.2 trivial

theorem Printed.clause (h : Printed D a writable print) (keyword : String) (hk : isIdentifier keyword = true) :
    Printed (After (.word keyword) (Braces D)) a writable (clause keyword print) :=
  h.braces.after hk

theorem Printed.star {writable : α → Prop} {print : α → List Lexeme}
    (h : ∀ a ∈ as, Printed D a (writable a) (print a)) :
    Printed (Star D) as (∀ a ∈ as, writable a) (as.flatMap print) := by
  induction as with
  | nil =>
    intro ls
    constructor
    · rintro ⟨⟨⟩, _⟩
      exact ⟨by simp, rfl⟩
    · rintro ⟨_, rfl⟩
      exact ⟨.nil, by simp⟩
  | cons a as ih =>
    obtain ⟨ha, has⟩ := List.forall_mem_cons.1 h
    intro ls
    rw [List.forall_mem_cons, List.flatMap_cons]
    constructor
    · rintro ⟨hstar, hls⟩
      cases hstar with
      | cons head tail =>
        obtain ⟨hl, hms⟩ := List.forall_mem_append.1 hls
        obtain ⟨hw, rfl⟩ := (ha _).1 ⟨head, hl⟩
        obtain ⟨hws, rfl⟩ := (ih has _).1 ⟨tail, hms⟩
        exact ⟨⟨hw, hws⟩, rfl⟩
    · rintro ⟨⟨hw, hws⟩, rfl⟩
      obtain ⟨hd, hl⟩ := (ha _).2 ⟨hw, rfl⟩
      obtain ⟨hds, hls⟩ := (ih has _).2 ⟨hws, rfl⟩
      exact ⟨.cons hd hds, List.forall_mem_append.2 ⟨hl, hls⟩⟩

theorem plus_iff {ls : List Lexeme} : Plus D ls as ↔ as ≠ [] ∧ Star D ls as := by
  constructor
  · rintro ⟨head, tail⟩
    exact ⟨List.cons_ne_nil _ _, .cons head tail⟩
  · rintro ⟨hne, hstar⟩
    cases hstar with
    | nil => exact absurd rfl hne
    | cons head tail => exact .mk head tail

theorem Printed.plus {writable : α → Prop} {print : α → List Lexeme}
    (h : ∀ a ∈ as, Printed D a (writable a) (print a)) :
    Printed (Plus D) as (as ≠ [] ∧ ∀ a ∈ as, writable a) (as.flatMap print) := by
  intro ls
  rw [plus_iff, and_assoc, Printed.star h ls, and_assoc]

theorem Printed.optional {o : Option α} {writable : α → Prop} {print : α → List Lexeme}
    (h : ∀ a ∈ o, Printed D a (writable a) (print a)) :
    Printed (Optional D) o (∀ a ∈ o, writable a) (o.elim [] print) := by
  intro ls
  cases o with
  | none =>
    constructor
    · rintro ⟨⟨⟩, _⟩
      exact ⟨by simp, rfl⟩
    · rintro ⟨_, rfl⟩
      exact ⟨.absent, by simp⟩
  | some a =>
    constructor
    · rintro ⟨hd, hls⟩
      cases hd with
      | present hd =>
        obtain ⟨hw, hprint⟩ := (h a rfl ls).1 ⟨hd, hls⟩
        exact ⟨by simpa using hw, hprint⟩
    · rintro ⟨hw, rfl⟩
      obtain ⟨hd, hls⟩ := (h a rfl _).2 ⟨hw a rfl, rfl⟩
      exact ⟨.present hd, hls⟩

end

end Source

theorem Agent.printed (a : Agent) : Printed DerivesAgent a a.Writable a.lexemes := by
  cases a with
  | none =>
    refine Printed.after (.exactly ?_ .none (by decide)) (by decide)
    rintro _ ⟨⟩
    rfl
  | container image =>
    have hdocker : isIdentifier "docker" = true := by decide
    refine Printed.after (.exactly ?_ (.container image) ?_) (by decide)
    · rintro _ ⟨⟩
      rfl
    · simp [Agent.Writable, Lexeme.Writable, hdocker]

theorem Param.printed (p : Param) : Printed DerivesParam p p.Writable p.lexemes := by
  refine .exactly ?_ (.mk p.key p.value) ?_
  · rintro _ ⟨⟩
    rfl
  · simp [lexemes, p.writable_iff, Lexeme.Writable]

theorem Step.printed (t : Step) : Printed DerivesStep t t.Writable t.lexemes := by
  cases t with
  | single command value =>
    refine .exactly ?_ (.single command value) ?_
    · rintro _ ⟨⟩
      rfl
    · simp [lexemes, Step.Writable, Lexeme.Writable]
  | multi command params =>
    have hmore (ps : List Param) : Printed (Star (After .comma DerivesParam)) ps _ _ :=
      Printed.star fun p _ => p.printed.after (l := .comma) trivial
    intro ls
    constructor
    · rintro ⟨hd, hls⟩
      cases hd with
      | multi command head tail =>
        obtain ⟨hcommand, hls⟩ := List.forall_mem_cons.1 hls
        obtain ⟨hl, hms⟩ := List.forall_mem_append.1 hls
        obtain ⟨hp, rfl⟩ := (Param.printed _ _).1 ⟨head, hl⟩
        obtain ⟨hps, rfl⟩ := (hmore _ _).1 ⟨tail, hms⟩
        exact ⟨⟨hcommand, List.cons_ne_nil _ _, List.forall_mem_cons.2 ⟨hp, hps⟩⟩, rfl⟩
    · rintro ⟨⟨hcommand, hne, hparams⟩, rfl⟩
      cases params with
      | nil => exact absurd rfl hne
      | cons p ps =>
        obtain ⟨hp, hps⟩ := List.forall_mem_cons.1 hparams
        obtain ⟨head, hl⟩ := (p.printed _).2 ⟨hp, rfl⟩
        obtain ⟨tail, hls⟩ := (hmore ps _).2 ⟨hps, rfl⟩
        exact ⟨.multi command head tail, List.forall_mem_cons.2 ⟨hcommand, List.forall_mem_append.2 ⟨hl, hls⟩⟩⟩

namespace Stage

theorem printed_steps (steps : List Step) :
    Printed (fun ls steps => ∃ o, Optional DerivesSteps ls o ∧ o.getD [] = steps) steps
      (∀ t ∈ steps, t.Writable) (stepLexemes steps) := by
  have hclause : Printed DerivesSteps steps _ _ :=
    (Printed.plus fun t _ => t.printed).clause "steps" (by decide)
  intro ls
  constructor
  · rintro ⟨⟨o, hd, rfl⟩, hls⟩
    cases hd with
    | absent => exact ⟨by simp, rfl⟩
    | @present _ steps hd =>
      obtain ⟨⟨hne, hw⟩, rfl⟩ := (hclause ls).1 ⟨hd, hls⟩
      obtain ⟨t, ts, rfl⟩ := List.exists_cons_of_ne_nil hne
      exact ⟨hw, rfl⟩
  · rintro ⟨hw, rfl⟩
    cases steps with
    | nil => exact ⟨⟨none, .absent, rfl⟩, by simp [stepLexemes]⟩
    | cons t ts =>
      obtain ⟨hd, hls⟩ := (hclause _).2 ⟨⟨List.cons_ne_nil t ts, hw⟩, rfl⟩
      exact ⟨⟨some (t :: ts), .present hd, rfl⟩, hls⟩

theorem printed_failFast (b : Bool) : Printed DerivesFailFast b True (failFastLexemes b) := by
  cases b with
  | true =>
    refine Printed.after (.exactly ?_ .true (by decide)) (by decide)
    rintro _ ⟨⟩
    rfl
  | false =>
    refine Printed.after (.exactly ?_ .false (by decide)) (by decide)
    rintro _ ⟨⟩
    rfl

theorem printed_list {stages : List Stage}
    (h : ∀ b ∈ stages, Printed DerivesStage b (b.Everywhere Writable) b.lexemes) (keyword : String)
    (hk : isIdentifier keyword = true) :
    Printed (After (.word keyword) (Braces (Plus DerivesStage))) stages
      (stages ≠ [] ∧ ∀ b ∈ stages, b.Everywhere Writable) (clause keyword (allLexemes stages)) := by
  rw [allLexemes_eq]
  exact (Printed.plus h).clause keyword hk

theorem printed_group {parallel : Option (List Stage)}
    (h : ∀ b ∈ parallel.getD [], Printed DerivesStage b (b.Everywhere Writable) b.lexemes) :
    Printed (Optional (After (.word "parallel") (Braces (Plus DerivesStage)))) parallel
      (parallel ≠ some [] ∧ ∀ b ∈ parallel.getD [], b.Everywhere Writable) (groupLexemes parallel) := by
  have hgroup := Printed.optional fun stages (hstages : stages ∈ parallel) =>
    printed_list (fun b hb => h b (by rwa [hstages])) "parallel" (by decide)
  cases parallel with
  | none => simpa [groupLexemes] using hgroup
  | some branches => simpa [groupLexemes] using hgroup

theorem printed (s : Stage) : Printed DerivesStage s (s.Everywhere Writable) s.lexemes := by
  induction s using Stage.induction with
  | h s ih =>
    have hagent := Printed.optional (o := s.agent) fun a _ => a.printed
    have hfailFast := Printed.optional (o := s.failFast) fun b _ => printed_failFast b
    have hgroup := printed_group ih
    have hkeyword : (Lexeme.word "stage").Writable := by decide
    intro ls
    constructor
    · rintro ⟨hd, hls⟩
      cases hd with
      | mk name has hss hfs hps =>
        simp only [List.forall_mem_cons, List.forall_mem_append] at hls
        obtain ⟨_, _, hname, _, _, hla, hls, hlf, hlp, _⟩ := hls
        obtain ⟨hwa, rfl⟩ := (hagent _).1 ⟨has, hla⟩
        obtain ⟨hws, rfl⟩ := (printed_steps _ _).1 ⟨⟨_, hss, rfl⟩, hls⟩
        obtain ⟨_, rfl⟩ := (hfailFast _).1 ⟨hfs, hlf⟩
        obtain ⟨⟨hne, hwp⟩, rfl⟩ := (hgroup _).1 ⟨hps, hlp⟩
        exact ⟨.mk ⟨hname, hwa, hws, hne⟩ hwp, rfl⟩
    · rintro ⟨hw, rfl⟩
      obtain ⟨name, agent, steps, failFast, parallel⟩ := s
      obtain ⟨has, hla⟩ := (hagent _).2 ⟨hw.here.agent, rfl⟩
      obtain ⟨⟨o, hss, rfl⟩, hls⟩ := (printed_steps _ _).2 ⟨hw.here.steps, rfl⟩
      obtain ⟨hfs, hlf⟩ := (hfailFast _).2 ⟨fun _ _ => trivial, rfl⟩
      obtain ⟨hps, hlp⟩ := (hgroup _).2 ⟨⟨hw.here.group, fun b hb => hw.branch hb⟩, rfl⟩
      refine ⟨.mk name has hss hfs hps, ?_⟩
      simp only [lexemes, List.forall_mem_cons, List.forall_mem_append]
      exact ⟨hkeyword, trivial, hw.here.name, trivial, trivial, hla, hls, hlf, hlp, trivial, List.forall_mem_nil _⟩

end Stage

theorem Pipeline.printed (p : Pipeline) : Printed DerivesPipeline p p.Writable p.lexemes := by
  refine Printed.clause (fun ls => ?_) "pipeline" (by decide)
  have hmembers (s : Stage) (_ : s ∈ p.stages) := s.printed
  have hstages := Stage.printed_list hmembers "stages" (by decide)
  constructor
  · rintro ⟨hd, hls⟩
    cases hd with
    | mk ha hs =>
      obtain ⟨hla, hlm⟩ := List.forall_mem_append.1 hls
      obtain ⟨hwa, rfl⟩ := (Agent.printed _ _).1 ⟨ha, hla⟩
      obtain ⟨⟨hne, hws⟩, rfl⟩ := (hstages _).1 ⟨hs, hlm⟩
      exact ⟨⟨hwa, hne, hws⟩, rfl⟩
  · rintro ⟨hw, rfl⟩
    obtain ⟨ha, hla⟩ := (p.agent.printed _).2 ⟨hw.agent, rfl⟩
    obtain ⟨hs, hls⟩ := (hstages _).2 ⟨⟨hw.stages, hw.members⟩, rfl⟩
    exact ⟨.mk ha hs, List.forall_mem_append.2 ⟨hla, hls⟩⟩

namespace Source

/-! ### Reading what is printed -/

theorem Layout.writable (L : Layout) : ∀ l ∈ L.lexemes, l.Writable := by
  intro l hl
  obtain ⟨a, _, rfl⟩ := List.mem_map.1 hl
  exact a.spells.writable

/-- Source spells a pipeline exactly if it lays out the lexemes of the pipeline, and these can be written. -/
theorem parse_iff_layout (source : String) (p : Pipeline) :
    parse source = .ok p ↔ p.Writable ∧ ∃ L : Layout, L.text = source ∧ L.lexemes = p.lexemes := by
  constructor
  · intro h
    obtain ⟨ts, hts, hparse⟩ := bind_eq_ok.1 h
    obtain ⟨L, hL, hlexemes⟩ := exists_layout hts
    have hd : DerivesPipeline L.lexemes p := hlexemes ▸ parseAll_eq_ok.1 hparse
    obtain ⟨hw, hprint⟩ := (p.printed L.lexemes).1 ⟨hd, L.writable⟩
    exact ⟨hw, L, hL, hprint⟩
  · rintro ⟨hw, L, rfl, hprint⟩
    obtain ⟨ts, hts, hlexemes⟩ := L.exists_tokenize_eq
    refine bind_eq_ok.2 ⟨ts, hts, parseAll_eq_ok.2 ?_⟩
    rw [hlexemes, hprint]
    exact ((p.printed p.lexemes).2 ⟨hw, rfl⟩).1

/-- Lexemes that can be written are laid out with a blank before each. -/
theorem exists_spaced {ls : List Lexeme} (h : ∀ l ∈ ls, l.Writable) :
    ∃ L : Layout, L.text = String.ofList (ls.flatMap fun l => ' ' :: l.written) ∧ L.lexemes = ls := by
  have hpieces : ∃ pieces : List Piece, Piece.spell pieces [] = ls.flatMap (fun l => ' ' :: l.written) ∧
      pieces.map Piece.lexeme = ls ∧ ∀ a ∈ pieces, a.trivia = [' '] := by
    induction ls with
    | nil => exact ⟨[], rfl, rfl, by simp⟩
    | cons l ls ih =>
      obtain ⟨hl, hls⟩ := List.forall_mem_cons.1 h
      obtain ⟨pieces, htext, hlexemes, htrivia⟩ := ih hls
      refine ⟨⟨[' '], l.written, l, .blank (by decide) .nil, hl.spells⟩ :: pieces, ?_, ?_, ?_⟩
      · rw [List.flatMap_cons, ← htext]
        rfl
      · rw [List.map_cons, hlexemes]
      · exact List.forall_mem_cons.2 ⟨rfl, htrivia⟩
  obtain ⟨pieces, htext, hlexemes, htrivia⟩ := hpieces
  have hapart : pieces.Pairwise Piece.Apart :=
    List.pairwise_of_forall_mem_list fun _ _ b hb _ _ => by simp [htrivia b hb]
  exact ⟨⟨pieces, [], .nil, hapart.isChain⟩, congrArg String.ofList htext, hlexemes⟩

/-- The pipelines that can be read are those that can be written down. Each of them is read from itself in print,
and from a source exactly if this lays out its lexemes, whatever stands between them and around its texts. -/
theorem parse_printed :
    (∀ p, (∃ source, parse source = .ok p) ↔ p.Writable) ∧
      ∀ p : Pipeline, p.Writable → parse p.source = .ok p ∧
        ∀ source, parse source = .ok p ↔ ∃ L : Layout, L.text = source ∧ L.lexemes = p.lexemes := by
  have hprint (p : Pipeline) (h : p.Writable) : parse p.source = .ok p :=
    (parse_iff_layout p.source p).2 ⟨h, exists_spaced ((p.printed p.lexemes).2 ⟨h, rfl⟩).2⟩
  refine ⟨fun p => ⟨?_, fun h => ⟨p.source, hprint p h⟩⟩, fun p h => ⟨hprint p h, fun source => ?_⟩⟩
  · rintro ⟨source, hread⟩
    exact ((parse_iff_layout source p).1 hread).1
  · rw [parse_iff_layout]
    exact and_iff_right h

/-- Keywords as commands, and lines, comments, braces and quotes in texts. -/
theorem parse_printed_nested :
    let p : Pipeline := ⟨.container "a\"//", [
      { name := "it's\n/* \x7b stage", agent := some .none, failFast := some false
        steps := [.single "agent" "\"\x7d", .multi "steps" [⟨"parallel", ""⟩, ⟨"_9", "//"⟩]]
        parallel := some [{ name := "", parallel := some [{ name := "*/" }] }] }]⟩
    p.Writable ∧ parse p.source = .ok p := by
  intro p
  have hw : p.Writable := ⟨by decide +kernel, List.cons_ne_nil _ _, fun s hs =>
    Pipeline.everywhere_of_preorder (by decide +kernel) hs⟩
  exact ⟨hw, (parse_printed.2 p hw).1⟩

end Source

end StageTree
