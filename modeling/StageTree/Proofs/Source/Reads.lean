import StageTree.Proofs.Source.Grammar

/-! Readers of tokens against the grammar. A reader reads a part of the grammar if whatever it reads is
derived, and if it reads all that is derived wherever what follows cannot go on with the part. Readers with
a limit on their depth do so up to a number of tokens. -/

namespace StageTree.Source

variable {α β : Type} {stop : Position} {n : Nat}

theorem bind_eq_ok {ε : Type} {x : Except ε α} {f : α → Except ε β} {b : β} :
    (x >>= f) = .ok b ↔ ∃ a, x = .ok a ∧ f a = .ok b := by
  cases x <;> simp [bind, Except.bind]

/-- A reader of a part of the grammar. -/
structure Reads (n : Nat) (D : List Lexeme → α → Prop) (follow : List Token → Prop)
    (read : List Token → Except Error (α × List Token)) : Prop where
  sound : ∀ {ts : List Token} {a : α} {rest : List Token}, read ts = .ok (a, rest) →
    ∃ used, ts = used ++ rest ∧ D (used.map Token.lexeme) a
  complete : ∀ {used : List Token} {a : α} {rest : List Token}, (used ++ rest).length ≤ n →
    D (used.map Token.lexeme) a → follow rest → read (used ++ rest) = .ok (a, rest)

theorem map_lexeme_eq_cons {ts : List Token} {l : Lexeme} {ls : List Lexeme} :
    ts.map Token.lexeme = l :: ls ↔ ∃ p us, ts = ⟨l, p⟩ :: us ∧ us.map Token.lexeme = ls := by
  rw [List.map_eq_cons_iff]
  constructor
  · rintro ⟨⟨_, p⟩, us, rfl, rfl, rfl⟩
    exact ⟨p, us, rfl, rfl⟩
  · rintro ⟨p, us, rfl, rfl⟩
    exact ⟨_, us, rfl, rfl, rfl⟩

theorem map_lexeme_eq_singleton {ts : List Token} {l : Lexeme} :
    ts.map Token.lexeme = [l] ↔ ∃ p, ts = [⟨l, p⟩] := by
  rw [map_lexeme_eq_cons]
  simp

/-! ### Single tokens -/

@[simp] theorem refuse_ne_ok {expected : Expected} {ts : List Token} {a : α} :
    refuse stop expected ts ≠ .ok a := by
  cases ts <;> simp [refuse]

theorem need_eq_ok {lexeme : Lexeme} {expected : Expected} {ts rest : List Token} :
    need stop lexeme expected ts = .ok rest ↔ ∃ p, ts = ⟨lexeme, p⟩ :: rest := by
  match ts with
  | [] => simp [need]
  | ⟨l, p⟩ :: ts =>
    by_cases hl : l = lexeme
    · simp [need, hl]
    · simp [need, hl]

theorem needMark_eq_ok {lexeme : Lexeme} {ts rest : List Token} :
    needMark stop lexeme ts = .ok rest ↔ ∃ p, ts = ⟨lexeme, p⟩ :: rest := need_eq_ok

theorem needKeyword_eq_ok {word : String} {ts rest : List Token} :
    needKeyword stop word ts = .ok rest ↔ ∃ p, ts = ⟨.word word, p⟩ :: rest := need_eq_ok

theorem needStageEnd_eq_ok {ts rest : List Token} :
    needStageEnd stop ts = .ok rest ↔ ∃ p, ts = ⟨.closeBrace, p⟩ :: rest := need_eq_ok

theorem needText_eq_ok {expected : Expected} {ts rest : List Token} {value : String} :
    needText stop expected ts = .ok (value, rest) ↔ ∃ p, ts = ⟨.text value, p⟩ :: rest := by
  match ts with
  | [] => simp [needText]
  | ⟨l, p⟩ :: ts => cases l <;> simp [needText]

theorem needWord_eq_ok {expected : Expected} {ts rest : List Token} {name : String} :
    needWord stop expected ts = .ok (name, rest) ↔ ∃ p, ts = ⟨.word name, p⟩ :: rest := by
  match ts with
  | [] => simp [needWord]
  | ⟨l, p⟩ :: ts => cases l <;> simp [needWord]

def atLexeme (lexeme : Lexeme) : List Token → Bool
  | t :: _ => t.lexeme = lexeme
  | [] => false

/-! ### Parts of the grammar -/

theorem Plus.star {D : List Lexeme → α → Prop} {ls : List Lexeme} {as : List α} (h : Plus D ls as) :
    Star D ls as := by
  cases h with
  | mk head tail => exact .cons head tail

/-- What may follow one part may follow it too where more of them come first. -/
theorem Star.follow {D : List Lexeme → α → Prop} {follow : List Token → Prop} {starts : List Token → Bool}
    {used rest : List Token} {as : List α} (h : Star D (used.map Token.lexeme) as)
    (hstarts : ∀ used rest a, D (used.map Token.lexeme) a → starts (used ++ rest) = true)
    (hfollow : ∀ ts, starts ts = true → follow ts) (hrest : follow rest) : follow (used ++ rest) := by
  generalize hls : used.map Token.lexeme = ls at h
  cases h with
  | nil =>
    obtain rfl := List.map_eq_nil_iff.1 hls
    exact hrest
  | cons head _ =>
    obtain ⟨us, us', rfl, rfl, rfl⟩ := List.map_eq_append_iff.1 hls
    rw [List.append_assoc]
    exact hfollow _ (hstarts us _ _ head)

/-- A loop with a limit, which goes on as long as another one starts. -/
structure Loop (starts : List Token → Bool) (read : List Token → Except Error (α × List Token))
    (more : Nat → List Token → Except Error (List α × List Token)) : Prop where
  stop : ∀ fuel ts, fuel = 0 ∨ starts ts = false → more fuel ts = .ok ([], ts)
  go : ∀ fuel ts, starts ts = true → more (fuel + 1) ts = do
    let (a, ts) ← read ts
    let (as, ts) ← more fuel ts
    return (a :: as, ts)

namespace Reads

variable {D : List Lexeme → α → Prop} {follow : List Token → Prop}
  {read : List Token → Except Error (α × List Token)}

theorem after (h : Reads n D follow read) (lexeme : Lexeme) (expected : Expected) :
    Reads n (After lexeme D) follow fun ts => need stop lexeme expected ts >>= read where
  sound hr := by
    obtain ⟨ts', hneed, hread⟩ := bind_eq_ok.1 hr
    obtain ⟨used, rfl, hd⟩ := h.sound hread
    obtain ⟨p, rfl⟩ := need_eq_ok.1 hneed
    exact ⟨⟨lexeme, p⟩ :: used, rfl, .mk hd⟩
  complete := by
    intro used a rest hl hd hf
    generalize hls : used.map Token.lexeme = ls at hd
    cases hd with
    | mk hd =>
      obtain ⟨p, used, rfl, rfl⟩ := map_lexeme_eq_cons.1 hls
      refine bind_eq_ok.2 ⟨used ++ rest, need_eq_ok.2 ⟨p, rfl⟩, h.complete ?_ hd hf⟩
      simp only [List.cons_append, List.length_cons] at hl
      omega

/-- A clause that may be left out is there exactly if its keyword is. -/
theorem optional (h : Reads n D (fun _ => True) read) (word : String) :
    Reads n (Optional (After (.word word) D)) (fun rest => atKeyword word rest = false) (optional word read) where
  sound := by
    intro ts a rest hr
    rw [Source.optional] at hr
    split at hr
    · rename_i hat
      obtain ⟨⟨a, rest'⟩, hread, hr⟩ := bind_eq_ok.1 hr
      obtain ⟨rfl, rfl⟩ := Prod.mk.inj (Except.ok.inj hr)
      match ts with
      | [] => cases hat
      | ⟨l, p⟩ :: ts =>
        obtain ⟨used, rfl, hd⟩ := h.sound hread
        obtain rfl : l = .word word := by simpa [atKeyword] using hat
        exact ⟨⟨.word word, p⟩ :: used, rfl, .present (.mk hd)⟩
    · obtain ⟨rfl, rfl⟩ := Prod.mk.inj (Except.ok.inj hr)
      exact ⟨[], rfl, .absent⟩
  complete := by
    intro used a rest hl hd hf
    generalize hls : used.map Token.lexeme = ls at hd
    cases hd with
    | absent =>
      obtain rfl := List.map_eq_nil_iff.1 hls
      rw [List.nil_append, Source.optional, hf]
      rfl
    | present hd =>
      cases hd with
      | mk hd =>
        obtain ⟨p, used, rfl, rfl⟩ := map_lexeme_eq_cons.1 hls
        have hread : read (used ++ rest) = .ok (_, rest) :=
          h.complete (by simp only [List.cons_append, List.length_cons] at hl; omega) hd trivial
        rw [List.cons_append, Source.optional, if_pos (by simp [atKeyword])]
        exact bind_eq_ok.2 ⟨_, hread, rfl⟩

/-- Something between braces that cannot go on with the closing one. -/
theorem braced (h : Reads n D follow read) (hf : ∀ p rest, follow (⟨.closeBrace, p⟩ :: rest)) :
    Reads n (Braces D) (fun _ => True) (braced stop read) where
  sound := by
    intro ts a rest hr
    rw [Source.braced] at hr
    obtain ⟨ts₁, hopen, hr⟩ := bind_eq_ok.1 hr
    obtain ⟨⟨a', ts₂⟩, hread, hr⟩ := bind_eq_ok.1 hr
    obtain ⟨ts₃, hclose, hr⟩ := bind_eq_ok.1 hr
    obtain ⟨rfl, rfl⟩ := Prod.mk.inj (Except.ok.inj hr)
    obtain ⟨p, rfl⟩ := needMark_eq_ok.1 hopen
    obtain ⟨q, rfl⟩ := needMark_eq_ok.1 hclose
    obtain ⟨used, rfl, hd⟩ := h.sound hread
    exact ⟨⟨.openBrace, p⟩ :: used ++ [⟨.closeBrace, q⟩], by simp, by simpa using Braces.mk hd⟩
  complete := by
    intro used a rest hl hd _
    generalize hls : used.map Token.lexeme = ls at hd
    cases hd with
    | mk hd =>
      obtain ⟨p, us, rfl, hus⟩ := map_lexeme_eq_cons.1 hls
      obtain ⟨used, last, rfl, rfl, hlast⟩ := List.map_eq_append_iff.1 hus
      obtain ⟨q, rfl⟩ := map_lexeme_eq_singleton.1 hlast
      have hread : read (used ++ ⟨.closeBrace, q⟩ :: rest) = .ok (a, ⟨.closeBrace, q⟩ :: rest) :=
        h.complete (by simp at hl ⊢; omega) hd (hf q rest)
      refine bind_eq_ok.2 ⟨used ++ ⟨.closeBrace, q⟩ :: rest, needMark_eq_ok.2 ⟨p, by simp⟩, ?_⟩
      exact bind_eq_ok.2 ⟨_, hread, bind_eq_ok.2 ⟨rest, needMark_eq_ok.2 ⟨q, rfl⟩, rfl⟩⟩

/-- A loop that goes on as long as another one starts reads as many as there are. -/
theorem star {starts : List Token → Bool} {more : Nat → List Token → Except Error (List α × List Token)}
    (h : ∀ n, Reads n D follow read) (hloop : Loop starts read more)
    (hstarts : ∀ used rest a, D (used.map Token.lexeme) a → starts (used ++ rest) = true)
    (hfollow : ∀ ts, starts ts = true → follow ts) :
    Reads n (Star D) (fun rest => starts rest = false ∧ follow rest) (more n) where
  sound := by
    intro ts as rest hr
    induction n generalizing ts as rest with
    | zero =>
      rw [hloop.stop 0 ts (.inl rfl)] at hr
      obtain ⟨rfl, rfl⟩ := Prod.mk.inj (Except.ok.inj hr)
      exact ⟨[], rfl, .nil⟩
    | succ n ih =>
      cases hs : starts ts with
      | false =>
        rw [hloop.stop _ ts (.inr hs)] at hr
        obtain ⟨rfl, rfl⟩ := Prod.mk.inj (Except.ok.inj hr)
        exact ⟨[], rfl, .nil⟩
      | true =>
        rw [hloop.go n ts hs] at hr
        obtain ⟨⟨a, ts₁⟩, hread, hr⟩ := bind_eq_ok.1 hr
        obtain ⟨⟨as', ts₂⟩, hmore, hr⟩ := bind_eq_ok.1 hr
        obtain ⟨rfl, rfl⟩ := Prod.mk.inj (Except.ok.inj hr)
        obtain ⟨used, rfl, hd⟩ := (h 0).sound hread
        obtain ⟨used', rfl, hds⟩ := ih hmore
        exact ⟨used ++ used', by simp, by simpa using Star.cons hd hds⟩
  complete := by
    intro used as rest hl hd hf
    generalize hls : used.map Token.lexeme = ls at hd
    induction hd generalizing n used with
    | nil =>
      obtain rfl := List.map_eq_nil_iff.1 hls
      exact hloop.stop n rest (.inr hf.1)
    | @cons ls ms a as head tail ih =>
      obtain ⟨used, used', rfl, rfl, rfl⟩ := List.map_eq_append_iff.1 hls
      have hs := hstarts used (used' ++ rest) a head
      -- what starts has a token, so the limit is not reached
      obtain ⟨t, used, rfl⟩ : ∃ t us, used = t :: us := List.exists_cons_of_ne_nil fun e => by
        subst e
        have := hstarts [] rest a head
        rw [List.nil_append, hf.1] at this
        cases this
      obtain ⟨n, rfl⟩ : ∃ k, n = k + 1 := Nat.exists_eq_succ_of_ne_zero fun e => by simp [e] at hl
      have hnext := tail.follow hstarts hfollow hf.2
      rw [List.append_assoc] at hl ⊢
      rw [hloop.go n _ hs]
      have hmore : more n (used' ++ rest) = .ok (as, rest) :=
        ih (by simp only [List.cons_append, List.length_cons, List.length_append] at hl ⊢; omega) rfl
      exact bind_eq_ok.2 ⟨_, (h _).complete hl head hnext, bind_eq_ok.2 ⟨_, hmore, rfl⟩⟩

/-- One, and then as many more as there are. -/
theorem plus {starts : List Token → Bool} {more : Nat → List Token → Except Error (List α × List Token)}
    (h : Reads n D follow read)
    (hmore : ∀ n, Reads n (Star D) (fun rest => starts rest = false ∧ follow rest) (more n))
    (hstarts : ∀ used rest a, D (used.map Token.lexeme) a → starts (used ++ rest) = true)
    (hfollow : ∀ ts, starts ts = true → follow ts) :
    Reads n (Plus D) (fun rest => starts rest = false ∧ follow rest) fun ts => do
      let (a, ts) ← read ts
      let (as, ts) ← more ts.length ts
      return (a :: as, ts) where
  sound := by
    intro ts as rest hr
    obtain ⟨⟨a, ts₁⟩, hread, hr⟩ := bind_eq_ok.1 hr
    obtain ⟨⟨as', ts₂⟩, hloop, hr⟩ := bind_eq_ok.1 hr
    obtain ⟨rfl, rfl⟩ := Prod.mk.inj (Except.ok.inj hr)
    obtain ⟨used, rfl, hd⟩ := h.sound hread
    obtain ⟨used', rfl, hds⟩ := (hmore _).sound hloop
    exact ⟨used ++ used', by simp, by simpa using Plus.mk hd hds⟩
  complete := by
    intro used as rest hl hd hf
    generalize hls : used.map Token.lexeme = ls at hd
    cases hd with
    | mk head tail =>
      obtain ⟨used, used', rfl, rfl, rfl⟩ := List.map_eq_append_iff.1 hls
      rw [List.append_assoc] at hl ⊢
      exact bind_eq_ok.2 ⟨_, h.complete hl head (tail.follow hstarts hfollow hf.2),
        bind_eq_ok.2 ⟨_, (hmore _).complete (Nat.le_refl _) tail hf, rfl⟩⟩

end Reads

end StageTree.Source
