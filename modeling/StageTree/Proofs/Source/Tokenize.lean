import StageTree.Proofs.Source.Spelling

/-! The tokenizer computes what a source spells: the skipping of comments by one character after the other
is the reading of trivia as wholes, and the place that it carries along is the place after all characters
before. As every source spells tokens up to its end or up to a fault, the tokenizer's answer tells which. -/

namespace StageTree.Source

/-! ### Places -/

theorem Position.next_following (before : List Char) (c : Char) :
    (following before).next c = following (before ++ [c]) := by
  by_cases hc : c = '\n'
  · simp [following, next, hc, Nat.add_assoc]
  · simp [following, next, hc, Nat.add_comm]

@[simp] theorem Position.after_following (before cs : List Char) :
    (following before).after cs = following (before ++ cs) := by
  induction cs generalizing before with
  | nil => simp [after]
  | cons c cs ih =>
    have : (following before).after (c :: cs) = ((following before).next c).after cs := rfl
    rw [this, next_following, ih, List.append_assoc, List.singleton_append]

/-! ### Trivia -/

theorem skip_blank {c : Char} (p : Position) (cs : List Char) (hc : Text.isBlank c = true) :
    skip .open p (c :: cs) = skip .open (p.next c) cs := by
  have hs : c ≠ '/' := by rintro rfl; exact absurd hc (by decide)
  rw [skip]
  · simp [hc]
  all_goals simp [hs]

theorem skip_line {body : List Char} (p : Position) (cs : List Char) (hb : '\n' ∉ body) :
    skip .line p (body ++ cs) = skip .line (p.after body) cs := by
  induction body generalizing p with
  | nil => rfl
  | cons c body ih =>
    obtain ⟨hc, hb⟩ := by simpa using hb
    rw [List.cons_append, skip, if_neg (Ne.symm hc), ih _ hb]
    rfl

theorem skip_block_cons {c : Char} {cs : List Char} (start p : Position) (h : ¬ ['*', '/'] <+: c :: cs) :
    skip (.block start) p (c :: cs) = skip (.block start) (p.next c) cs := by
  rw [skip]
  rintro ds rfl rfl
  simp at h

/-- A comment between marks is skipped as a whole. -/
theorem skip_block {body : List Char} (start p : Position) (cs : List Char) (hb : ¬ ['*', '/'] <:+: body) :
    skip (.block start) p (body ++ '*' :: '/' :: cs) = skip .open (p.after (body ++ ['*', '/'])) cs := by
  induction body generalizing p with
  | nil => rfl
  | cons c body ih =>
    rw [List.infix_cons_iff, not_or] at hb
    rw [List.cons_append, skip_block_cons, ih _ hb.2]
    · rfl
    · cases body with
      | nil => simp
      | cons d body => simpa using hb.1

theorem skip_unclosed {cs : List Char} (start p : Position) (h : ¬ ['*', '/'] <:+: cs) :
    skip (.block start) p cs = .error ⟨.unclosedComment, start⟩ := by
  induction cs generalizing p with
  | nil => rfl
  | cons c cs ih =>
    rw [List.infix_cons_iff, not_or] at h
    rw [skip_block_cons start p h.1, ih _ h.2]

theorem skip_plain {cs : List Char} (p : Position) (h : StartsPlain cs) : skip .open p cs = .ok (p, cs) := by
  cases cs with
  | nil => rfl
  | cons c cs =>
    rw [skip]
    · simp [h.1]
    · rintro ds rfl rfl
      simpa using h.2 rfl
    · rintro ds rfl rfl
      simpa using h.2 rfl

/-- Trivia are skipped as a whole. -/
theorem Trivia.skip_eq {atEnd : Bool} {t rest : List Char} (h : Trivia atEnd t) (he : atEnd = true → rest = [])
    (p : Position) : skip .open p (t ++ rest) = skip .open (p.after t) rest := by
  induction h generalizing p with
  | nil => rfl
  | blank hc _ ih => rw [List.cons_append, skip_blank p _ hc, ih]; rfl
  | @line body cs hb _ ih =>
    have : skip .open p ('/' :: '/' :: (body ++ '\n' :: cs) ++ rest) =
        skip .line (p.after ['/', '/']) (body ++ '\n' :: (cs ++ rest)) := by
      simp [skip]
    rw [this, skip_line _ _ hb, skip, if_pos rfl, ih]
    simp [Position.after]
  | @block body cs hb _ ih =>
    have : skip .open p ('/' :: '*' :: (body ++ '*' :: '/' :: cs) ++ rest) =
        skip (.block p) (p.after ['/', '*']) (body ++ '*' :: '/' :: (cs ++ rest)) := by
      simp [skip]
    rw [this, skip_block _ _ _ hb, ih]
    simp [Position.after]
  | @last body ha hb =>
    rw [he ha]
    have : skip .open p ('/' :: '/' :: body ++ []) = skip .line (p.after ['/', '/']) (body ++ []) := rfl
    rw [this, skip_line _ _ hb]
    rfl

/-! ### Lexemes -/

theorem isBlank_of_startsWord {c : Char} (h : startsWord c = true) : Text.isBlank c = false := by
  have blanks : ∀ n ∈ Text.blankPoints, startsWord (Char.ofNat n) = false := by decide
  rw [Bool.eq_false_iff]
  intro hb
  have := blanks c.toNat (by simpa [Text.isBlank] using hb)
  rw [Char.ofNat_toNat, h] at this
  cases this

theorem startsPlain_quote {quote : Char} (hq : quote = '"' ∨ quote = '\'') (cs : List Char) :
    StartsPlain (quote :: cs) := by
  rcases hq with rfl | rfl <;> exact ⟨by decide, by simp⟩

/-- A lexeme starts with neither a blank nor a comment. -/
theorem Spells.startsPlain {ls : List Char} {l : Lexeme} (h : Spells ls l) (rest : List Char) :
    StartsPlain (ls ++ rest) := by
  cases h with
  | openBrace | closeBrace | openParen | closeParen | colon | comma => exact ⟨by decide, by simp⟩
  | text hq _ => exact startsPlain_quote hq _
  | word hc _ =>
    refine ⟨isBlank_of_startsWord hc, ?_⟩
    rintro rfl
    exact absurd hc (by decide)

theorem spells_of_mark? {c : Char} {m : Lexeme} (h : mark? c = some m) : Spells [c] m := by
  unfold mark? at h
  split_ifs at h with hc hc hc hc hc hc
  all_goals
    obtain rfl := Option.some.inj h
    subst hc
    constructor

theorem isQuote_iff {c : Char} : isQuote c = true ↔ c = '"' ∨ c = '\'' := by simp [isQuote]

theorem mark?_eq_none {c : Char} (h : isQuote c = true ∨ startsWord c = true) : mark? c = none := by
  unfold mark?
  split_ifs with hc hc hc hc hc hc
  case neg => rfl
  all_goals
    subst hc
    revert h
    decide

theorem isQuote_of_startsWord {c : Char} (h : startsWord c = true) : isQuote c = false := by
  rw [Bool.eq_false_iff]
  intro hq
  rcases isQuote_iff.1 hq with rfl | rfl <;> exact absurd h (by decide)

theorem takeWhile_ne_append {c : Char} {cs : List Char} (rest : List Char) (h : c ∉ cs) :
    (cs ++ rest).takeWhile (· != c) = cs ++ rest.takeWhile (· != c) :=
  List.takeWhile_append_of_pos fun d hd => by
    have : d ≠ c := ne_of_mem_of_not_mem hd h
    simpa using this

/-- A lexeme is read as it is spelled. -/
theorem Spells.lexeme_eq {c : Char} {cs rest : List Char} {l : Lexeme} (h : Spells (c :: cs) l)
    (he : l.EndsBefore rest) : lexeme c (cs ++ rest) = .ok (l, cs.length) := by
  generalize hls : c :: cs = ls at h
  cases h with
  | openBrace | closeBrace | openParen | closeParen | colon | comma =>
    obtain ⟨rfl, rfl⟩ := List.cons.inj hls
    rfl
  | @text quote body hq hb =>
    obtain ⟨rfl, rfl⟩ := List.cons.inj hls
    have hq := isQuote_iff.2 hq
    simp [lexeme, mark?_eq_none (.inl hq), hq, takeWhile_ne_append _ hb]
  | @word c tail hc ht =>
    obtain ⟨rfl, rfl⟩ := List.cons.inj hls
    have hw : (cs ++ rest).takeWhile continuesWord = cs := by
      rw [List.takeWhile_append_of_pos ht]
      cases rest with
      | nil => simp
      | cons d rest => simp [show continuesWord d = false from he]
    simp [lexeme, mark?_eq_none (.inr hc), isQuote_of_startsWord hc, hc, hw]

theorem lexeme_unclosed {quote : Char} {cs : List Char} (hq : quote = '"' ∨ quote = '\'') (h : quote ∉ cs) :
    lexeme quote cs = .error .unclosedText := by
  have hq := isQuote_iff.2 hq
  have hw : cs.takeWhile (· != quote) = cs := by simpa using takeWhile_ne_append [] h
  simp [lexeme, mark?_eq_none (.inl hq), hq, hw]

/-- A character that no lexeme starts with is not read as one. -/
theorem lexeme_stray {c : Char} (cs : List Char) (h : ∀ ds l, ¬ Spells (c :: ds) l) :
    lexeme c cs = .error (.strayChar c) := by
  have hm : mark? c = none := Option.eq_none_iff_forall_ne_some.2 fun m hm => h [] m (spells_of_mark? hm)
  have hq : isQuote c = false := by
    rw [Bool.eq_false_iff]
    exact fun hq => h [c] _ (.text (isQuote_iff.1 hq) (List.not_mem_nil (a := c)))
  have hw : startsWord c = false := by
    rw [Bool.eq_false_iff]
    exact fun hw => h [] _ (.word hw (by simp))
  simp [lexeme, hm, hq, hw]

/-! ### Tokens -/

theorem tokensFrom_of_end {t : List Char} (p : Position) (h : Trivia true t) :
    tokensFrom p t = .ok ⟨[], p.after t⟩ := by
  have := h.skip_eq (fun _ => rfl) p
  rw [List.append_nil] at this
  rw [tokensFrom, this]
  rfl

theorem tokensFrom_of_fault {t cs : List Char} {c : Char} {fault : Fault} (p : Position) (ht : Trivia false t)
    (hp : StartsPlain (c :: cs)) (hl : lexeme c cs = .error fault) :
    tokensFrom p (t ++ c :: cs) = .error ⟨fault, p.after t⟩ := by
  have hskip : skip .open p (t ++ c :: cs) = .ok (p.after t, c :: cs) := by
    rw [ht.skip_eq (by simp), skip_plain _ hp]
  rw [tokensFrom, hskip]
  simp [hl]

theorem tokensFrom_of_lexeme {t cs : List Char} {c : Char} {l : Lexeme} {n : ℕ} (p : Position)
    (ht : Trivia false t) (hp : StartsPlain (c :: cs)) (hl : lexeme c cs = .ok (l, n)) :
    tokensFrom p (t ++ c :: cs) =
      (fun ts => ⟨⟨l, p.after t⟩ :: ts.list, ts.stop⟩) <$>
        tokensFrom ((p.after t).after (c :: cs.take n)) (cs.drop n) := by
  have hskip : skip .open p (t ++ c :: cs) = .ok (p.after t, c :: cs) := by
    rw [ht.skip_eq (by simp), skip_plain _ hp]
  rw [tokensFrom, hskip]
  simp only [hl]
  cases tokensFrom ((p.after t).after (c :: cs.take n)) (cs.drop n) <;> rfl

/-- A fault after trivia is told, with its place. -/
theorem Faulty.tokensFrom_eq {t rest : List Char} {fault : Fault} (h : Faulty rest fault) (p : Position)
    (ht : Trivia false t) : tokensFrom p (t ++ rest) = .error ⟨fault, p.after t⟩ := by
  cases h with
  | unclosedText hq hc => exact tokensFrom_of_fault p ht (startsPlain_quote hq _) (lexeme_unclosed hq hc)
  | @unclosedComment cs hc =>
    have hskip : skip .open p (t ++ '/' :: '*' :: cs) = .error ⟨.unclosedComment, p.after t⟩ := by
      rw [ht.skip_eq (by simp), skip, skip_unclosed _ _ hc]
    rw [tokensFrom, hskip]
  | strayChar hp hl => exact tokensFrom_of_fault p ht hp (lexeme_stray _ hl)

/-- The tokens that are spelled come first, and the tokenizer goes on with the rest at the place after them. -/
theorem Spelled.tokensFrom_eq {before cs rest : List Char} {tokens : List Token}
    (h : Spelled before cs tokens rest) :
    ∃ front, cs = front ++ rest ∧ tokensFrom (.following before) cs =
      (fun ts => ⟨tokens ++ ts.list, ts.stop⟩) <$> tokensFrom (.following (before ++ front)) rest := by
  induction h with
  | @nil before rest =>
    refine ⟨[], rfl, ?_⟩
    rw [List.append_nil]
    cases tokensFrom (.following before) rest <;> rfl
  | @cons before trivia ls cs rest l tokens ht hl he _ ih =>
    obtain ⟨front, rfl, ih⟩ := ih
    obtain ⟨c, ls, rfl⟩ := List.exists_cons_of_ne_nil hl.ne_nil
    refine ⟨trivia ++ (c :: ls ++ front), by simp, ?_⟩
    have hp : StartsPlain (c :: (ls ++ (front ++ rest))) := hl.startsPlain _
    have := tokensFrom_of_lexeme (.following before) ht hp (hl.lexeme_eq he)
    rw [List.take_left, List.drop_left, Position.after_following, Position.after_following] at this
    rw [List.cons_append, this, ih]
    simp only [List.append_assoc, List.cons_append]
    cases tokensFrom (.following (before ++ (trivia ++ c :: (ls ++ front)))) rest <;> rfl

theorem Describes.tokenize_eq {source : String} {ts : Tokens} (h : Describes source.toList ts) :
    tokenize source = .ok ts := by
  obtain ⟨rest, hs, ht, hstop⟩ := h
  obtain ⟨front, hfront, heq⟩ := hs.tokensFrom_eq
  rw [List.nil_append, tokensFrom_of_end _ ht, Position.after_following, ← hfront, ← hstop] at heq
  have : Except.ok (⟨ts.list ++ [], ts.stop⟩ : Tokens) = (.ok ts : Except Error Tokens) := by simp
  exact heq.trans this

theorem Rejects.tokenize_eq {source : String} {e : Error} (h : Rejects source.toList e) :
    tokenize source = .error e := by
  obtain ⟨front, rest, tokens, trivia, hsource, hs, ht, hf, hp⟩ := h
  obtain ⟨spelled, hspelled, heq⟩ := hs.tokensFrom_eq
  have : front = spelled ++ trivia := by
    rw [hsource, ← List.append_assoc] at hspelled
    exact List.append_cancel_right hspelled
  rw [List.nil_append, hf.tokensFrom_eq _ ht, Position.after_following, ← this, ← hp] at heq
  exact heq

/-- Tokenizing a source describes it: the tokens are those that it spells, and an error is the fault that it
comes to. -/
theorem tokenize_eq_iff (source : String) :
    (∀ ts, tokenize source = .ok ts ↔ Describes source.toList ts) ∧
      ∀ e, tokenize source = .error e ↔ Rejects source.toList e := by
  -- Each description is computed, and there is always one: so what is computed is described.
  refine ⟨fun ts => ⟨fun h => ?_, Describes.tokenize_eq⟩, fun e => ⟨fun h => ?_, Rejects.tokenize_eq⟩⟩
  · rcases describes_or_rejects source.toList with ⟨_, hd⟩ | ⟨_, hr⟩
    · rwa [Except.ok.inj (h.symm.trans hd.tokenize_eq)]
    · cases h.symm.trans hr.tokenize_eq
  · rcases describes_or_rejects source.toList with ⟨_, hd⟩ | ⟨_, hr⟩
    · cases h.symm.trans hd.tokenize_eq
    · rwa [Except.error.inj (h.symm.trans hr.tokenize_eq)]

end StageTree.Source
