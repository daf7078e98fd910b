import Mathlib.Computability.Language
import StageTree.Proofs.Source.Limits

/-! Readers that refuse as early as they can. What a strict reader takes is a word of its language, and where it
refuses, what it took starts one. It looks at no more than one token after what it took, or at two where it
refuses a word after the command of a step: so it does the same wherever the same tokens stand, whatever comes
after them. Strictness is kept by each of the ways in which the parser puts readers together. -/

namespace StageTree.Source

variable {α β : Type} {stop : Position} {n : Nat}

/-! ### Languages and what starts their words -/

/-- What starts a word of a language. -/
def Viable {σ : Type} (L : Language σ) (ls : List σ) : Prop := ∃ ms, ls ++ ms ∈ L

theorem Viable.of_append {σ : Type} {L : Language σ} {ls ms : List σ} (h : Viable L (ls ++ ms)) : Viable L ls := by
  obtain ⟨ks, hks⟩ := h
  exact ⟨ms ++ ks, by rwa [← List.append_assoc]⟩

def language (D : List Lexeme → α → Prop) : Language Lexeme := {ls | ∃ a, D ls a}

/-- Lexemes that a reader of a language may have taken, those that it refused, and how many of these it had to
see. It is the first one that cannot follow, but for a word after the command of a step: that may be the name
of a parameter, and it is the next one, not being a colon, which tells that it is not. -/
inductive Misfit (L : Language Lexeme) : List Lexeme → List Lexeme → Nat → Prop
  | next {ls next : List Lexeme} (h : Viable L ls) : Misfit L ls next 1
  | argument {ls next : List Lexeme} (command word : String)
      (hstep : ∀ ms s, DerivesStep ms s → Viable L (ls ++ ms)) (hnext : next.head? ≠ some .colon) :
      Misfit L (ls ++ [.word command]) (.word word :: next) 2

section

variable {L M : Language Lexeme} {ls next : List Lexeme} {seen : Nat}

theorem Misfit.viable (h : Misfit L ls next seen) : Viable L ls := by
  cases h with
  | next h => exact h
  | argument command word hstep hnext =>
    obtain ⟨ms, hms⟩ := hstep _ _ (.single command "")
    exact ⟨.text "" :: ms, by simpa using hms⟩

theorem Misfit.seen_pos (h : Misfit L ls next seen) : 1 ≤ seen := by
  cases h <;> decide

/-- Behind what may come first, the same lexemes are refused. -/
theorem Misfit.behind (h : Misfit M ls next seen) (us : List Lexeme)
    (hviable : ∀ ms, Viable M ms → Viable L (us ++ ms)) : Misfit L (us ++ ls) next seen := by
  cases h with
  | next h => exact .next (hviable _ h)
  | argument command word hstep hnext =>
    rw [← List.append_assoc]
    refine .argument command word (fun ms s hs => ?_) hnext
    rw [List.append_assoc]
    exact hviable _ (hstep ms s hs)

theorem exists_mem_mul (hL : ∃ ls, ls ∈ L) (hM : ∃ ms, ms ∈ M) : ∃ ls, ls ∈ L * M := by
  obtain ⟨ls, hls⟩ := hL
  obtain ⟨ms, hms⟩ := hM
  exact ⟨ls ++ ms, Language.append_mem_mul hls hms⟩

theorem Viable.mul_left (h : Viable L ls) (hM : ∃ ms, ms ∈ M) : Viable (L * M) ls := by
  obtain ⟨us, hus⟩ := h
  obtain ⟨ms, hms⟩ := hM
  exact ⟨us ++ ms, by
    rw [← List.append_assoc]
    exact Language.append_mem_mul hus hms⟩

theorem Viable.mul_right (h : Viable M ls) {us : List Lexeme} (hus : us ∈ L) : Viable (L * M) (us ++ ls) := by
  obtain ⟨ms, hms⟩ := h
  exact ⟨ms, by
    rw [List.append_assoc]
    exact Language.append_mem_mul hus hms⟩

theorem Viable.mono (h : Viable L ls) (hle : ∀ ms ∈ L, ms ∈ M) : Viable M ls := by
  obtain ⟨ms, hms⟩ := h
  exact ⟨ms, hle _ hms⟩

end

/-! ### Tokens that look alike so far -/

/-- Tokens that begin with the same ones, or are the same where there are fewer. -/
def Agree (k : Nat) (ts us : List Token) : Prop := us.take k = ts.take k

section

variable {k : Nat} {t : Token} {ts us : List Token}

theorem Agree.refl (k : Nat) (ts : List Token) : Agree k ts ts := rfl

theorem Agree.of_le {m : Nat} (h : Agree k ts us) (hle : m ≤ k) : Agree m ts us := by
  unfold Agree at h ⊢
  rw [← Nat.min_eq_left hle, ← List.take_take, h, List.take_take]

theorem Agree.append (h : Agree k ts us) (vs : List Token) : Agree k (vs ++ ts) (vs ++ us) := by
  unfold Agree
  rw [List.take_append, List.take_append, h.of_le (Nat.sub_le k _)]

theorem Agree.eq_nil (h : Agree (k + 1) [] us) : us = [] := by
  simpa [Agree] using h

theorem Agree.exists_cons (h : Agree (k + 1) (t :: ts) us) : ∃ vs, us = t :: vs ∧ Agree k ts vs := by
  match us with
  | [] => simp [Agree] at h
  | u :: us =>
    simp only [Agree, List.take_succ_cons, List.cons.injEq] at h
    exact ⟨us, by rw [h.1], h.2⟩

theorem Agree.exists_append {rest : List Token} (h : Agree (ts.length + k) (ts ++ rest) us) :
    ∃ vs, us = ts ++ vs ∧ Agree k rest vs := by
  induction ts generalizing us with
  | nil =>
    rw [List.length_nil, Nat.zero_add] at h
    exact ⟨us, rfl, h⟩
  | cons t ts ih =>
    rw [List.length_cons, Nat.add_right_comm] at h
    obtain ⟨vs, rfl, hvs⟩ := h.exists_cons
    obtain ⟨ws, rfl, hws⟩ := ih hvs
    exact ⟨ws, rfl, hws⟩

/-- What depends on the next token only. -/
theorem Agree.congr {γ : Sort*} (h : Agree 1 ts us) (f : List Token → γ)
    (hf : ∀ t vs ws, f (t :: vs) = f (t :: ws)) : f us = f ts := by
  match ts with
  | [] => rw [h.eq_nil]
  | t :: ts =>
    obtain ⟨vs, rfl, _⟩ := h.exists_cons
    exact hf t vs ts

theorem Agree.atKeyword_eq (h : Agree 1 ts us) (word : String) : atKeyword word us = atKeyword word ts :=
  h.congr (atKeyword word) fun _ _ _ => rfl

end

/-- The error of tokens that do not go on as wanted. -/
def refusal (stop : Position) (expected : Expected) : List Token → Error
  | [] => ⟨.unexpectedEnd expected, stop⟩
  | t :: _ => ⟨.unexpected expected t.lexeme, t.position⟩

theorem refuse_eq (expected : Expected) (ts : List Token) :
    (refuse stop expected ts : Except Error α) = .error (refusal stop expected ts) := by
  cases ts <;> rfl

theorem refusal_congr {expected : Expected} {ts us : List Token} (h : Agree 1 ts us) :
    refusal stop expected us = refusal stop expected ts := h.congr (refusal stop expected) fun _ _ _ => rfl

/-! ### Strict readers -/

/-- What a strict reader of a language does at tokens, and does again wherever they look alike. -/
inductive Settled (stop : Position) (L : Language Lexeme) (read : List Token → Except Error (α × List Token)) :
    List Token → Prop
  | read (used rest : List Token) (a : α) (hword : used.map Token.lexeme ∈ L)
      (hagain : ∀ us, Agree 1 rest us → read (used ++ us) = .ok (a, us)) : Settled stop L read (used ++ rest)
  | refused (used rest : List Token) (expected : Expected) (seen : Nat)
      (hmisfit : Misfit L (used.map Token.lexeme) (rest.map Token.lexeme) seen)
      (hagain : ∀ us, Agree seen rest us → read (used ++ us) = .error (refusal stop expected rest)) :
      Settled stop L read (used ++ rest)

/-- A reader that is strict up to a number of tokens, of a language that has a word. -/
structure Strict (stop : Position) (n : Nat) (L : Language Lexeme)
    (read : List Token → Except Error (α × List Token)) : Prop where
  inhabited : ∃ ls, ls ∈ L
  settled : ∀ ts, ts.length ≤ n → Settled stop L read ts

namespace Settled

variable {L M : Language Lexeme} {read read' : List Token → Except Error (α × List Token)} {ts : List Token}

theorem mono (h : Settled stop L read ts) (hle : ∀ ls ∈ L, ls ∈ M) : Settled stop M read ts := by
  cases h with
  | read used rest a hword hagain => exact .read used rest a (hle _ hword) hagain
  | refused used rest expected seen hmisfit hagain =>
    exact .refused used rest expected seen (hmisfit.behind [] fun ms hms => hms.mono hle) hagain

/-- The next token may choose the reader. -/
theorem of_head (h : Settled stop L read' ts) (heq : ∀ us, Agree 1 ts us → read us = read' us) :
    Settled stop L read ts := by
  cases h with
  | read used rest a hword hagain =>
    apply Settled.read used rest a hword
    intro us hus
    rw [heq _ (hus.append used), hagain us hus]
  | refused used rest expected seen hmisfit hagain =>
    apply Settled.refused used rest expected seen hmisfit
    intro us hus
    rw [heq _ ((hus.of_le hmisfit.seen_pos).append used), hagain us hus]

theorem ok (a : α) : Settled stop 1 (fun us => .ok (a, us)) ts :=
  .read [] ts a rfl fun _ _ => rfl

theorem refuse (expected : Expected) (hL : ∃ ls, ls ∈ L) :
    Settled stop L (fun us => (Source.refuse stop expected us : Except Error (α × List Token))) ts := by
  apply Settled.refused [] ts expected 1 (.next hL)
  intro us hus
  rw [refuse_eq, List.nil_append, refusal_congr hus]

/-- Nothing is left, but something wanted. -/
theorem refuse_nil (expected : Expected) (hL : ∃ ls, ls ∈ L)
    (heq : read [] = Source.refuse stop expected []) : Settled stop L read [] :=
  (Settled.refuse expected hL).of_head fun us hus => by rw [hus.eq_nil, heq]

/-- The next token is not the one wanted. -/
theorem refuse_cons (expected : Expected) {t : Token} (hL : ∃ ls, ls ∈ L)
    (heq : ∀ us, read (t :: us) = Source.refuse stop expected (t :: us)) : Settled stop L read (t :: ts) := by
  refine (Settled.refuse expected hL).of_head fun us hus => ?_
  obtain ⟨vs, rfl, _⟩ := hus.exists_cons
  exact heq vs

/-- A token is all that is read. -/
theorem one {l : Lexeme} {p : Position} (a : α) (hl : [l] ∈ L) (heq : ∀ us, read (⟨l, p⟩ :: us) = .ok (a, us)) :
    Settled stop L read (⟨l, p⟩ :: ts) := .read [⟨l, p⟩] ts a hl fun us _ => heq us

/-- A reader that takes a token reads the rest as another one does. -/
theorem cons {l : Lexeme} {p : Position} (h : Settled stop M (fun us => read (⟨l, p⟩ :: us)) ts) :
    Settled stop ({[l]} * M) read (⟨l, p⟩ :: ts) := by
  have hl : [l] ∈ ({[l]} : Language Lexeme) := rfl
  cases h with
  | read used rest a hword hagain =>
    exact .read (⟨l, p⟩ :: used) rest a (Language.append_mem_mul hl hword) hagain
  | refused used rest expected seen hmisfit hagain =>
    exact .refused (⟨l, p⟩ :: used) rest expected seen (hmisfit.behind [l] fun ms hms => hms.mul_right hl) hagain

/-- One reader after another, which may use what the first one read. -/
theorem bind {next : α → List Token → Except Error (β × List Token)} (h : Settled stop L read ts)
    (hM : ∃ ms, ms ∈ M)
    (hnext : ∀ a used rest, ts = used ++ rest → used.map Token.lexeme ∈ L → Settled stop M (next a) rest) :
    Settled stop (L * M) (fun us => read us >>= fun x => next x.1 x.2) ts := by
  cases h with
  | refused used rest expected seen hmisfit hagain =>
    apply Settled.refused used rest expected seen (hmisfit.behind [] fun ms hms => hms.mul_left hM)
    intro us hus
    simp only [hagain us hus]
    rfl
  | read used rest a hword hagain =>
    have hthen : Settled stop M (next a) rest := hnext a used rest rfl hword
    cases hthen with
    | read used' rest b hword' hagain' =>
      have hboth : (used ++ used').map Token.lexeme ∈ L * M := by
        rw [List.map_append]
        exact Language.append_mem_mul hword hword'
      rw [← List.append_assoc]
      apply Settled.read (used ++ used') rest b hboth
      intro us hus
      rw [List.append_assoc]
      simp only [hagain _ (hus.append used')]
      exact hagain' us hus
    | refused used' rest expected seen hmisfit hagain' =>
      have hboth : Misfit (L * M) ((used ++ used').map Token.lexeme) (rest.map Token.lexeme) seen := by
        rw [List.map_append]
        exact hmisfit.behind _ fun ms hms => hms.mul_right hword
      rw [← List.append_assoc]
      apply Settled.refused (used ++ used') rest expected seen hboth
      intro us hus
      rw [List.append_assoc]
      simp only [hagain _ ((hus.of_le hmisfit.seen_pos).append used')]
      exact hagain' us hus

end Settled

namespace Strict

variable {L M : Language Lexeme} {read read' : List Token → Except Error (α × List Token)}

theorem mono (h : Strict stop n L read) (hle : ∀ ls ∈ L, ls ∈ M) : Strict stop n M read where
  inhabited := h.inhabited.imp fun _ hls => hle _ hls
  settled ts hts := (h.settled ts hts).mono hle

theorem of_le {m : Nat} (h : Strict stop n L read) (hle : m ≤ n) : Strict stop m L read where
  inhabited := h.inhabited
  settled ts hts := h.settled ts (hts.trans hle)

theorem ok (a : α) : Strict stop n 1 fun ts => .ok (a, ts) where
  inhabited := ⟨[], rfl⟩
  settled _ _ := .ok a

/-- One reader after another. Fewer tokens are left by a part that cannot be short. -/
theorem bind_of_length {next : α → List Token → Except Error (β × List Token)} (d : Nat)
    (h : Strict stop n L read) (hlength : ∀ ls ∈ L, d ≤ ls.length) (hM : ∃ ms, ms ∈ M)
    (hnext : ∀ a, Strict stop (n - d) M (next a)) :
    Strict stop n (L * M) fun ts => read ts >>= fun x => next x.1 x.2 where
  inhabited := exists_mem_mul h.inhabited hM
  settled ts hts := by
    refine (h.settled ts hts).bind hM fun a used rest hused hword => (hnext a).settled rest ?_
    have hd : d ≤ used.length := by simpa using hlength _ hword
    rw [hused, List.length_append] at hts
    omega

theorem bind [Nonempty α] {next : α → List Token → Except Error (β × List Token)} (h : Strict stop n L read)
    (hnext : ∀ a, Strict stop n M (next a)) :
    Strict stop n (L * M) fun ts => read ts >>= fun x => next x.1 x.2 :=
  h.bind_of_length 0 (fun _ _ => Nat.zero_le _) (hnext (Classical.arbitrary α)).inhabited hnext

/-- A reader behind a lexeme that has to stand there. -/
theorem need (h : Strict stop (n - 1) M read) (l : Lexeme) (expected : Expected) :
    Strict stop n ({[l]} * M) fun ts => Source.need stop l expected ts >>= read where
  inhabited := exists_mem_mul ⟨[l], rfl⟩ h.inhabited
  settled ts hts := by
    have hword : ∃ ls, ls ∈ ({[l]} * M : Language Lexeme) := exists_mem_mul ⟨[l], rfl⟩ h.inhabited
    match ts with
    | [] => exact Settled.refuse_nil expected hword (by rw [Source.need, refuse_eq, refuse_eq]; rfl)
    | ⟨l', p⟩ :: ts =>
      by_cases hl : l' = l
      · subst hl
        refine Settled.cons ((h.settled ts (by simp at hts; omega)).of_head fun us _ => ?_)
        simp only [Source.need, if_pos]
        rfl
      · refine Settled.refuse_cons expected hword fun us => ?_
        simp only [Source.need, if_neg hl]
        rw [refuse_eq, refuse_eq]
        rfl

theorem map (h : Strict stop n L read) (f : α → β) :
    Strict stop n L fun ts => read ts >>= fun x => .ok (f x.1, x.2) := by
  have hthen := h.bind_of_length 0 (fun _ _ => Nat.zero_le _) (M := 1) ⟨[], rfl⟩ fun a => Strict.ok (f a)
  rwa [mul_one] at hthen

/-! ### Readers of the parts of a grammar -/

variable {D : List Lexeme → α → Prop}

theorem after (h : Strict stop (n - 1) (language D) read) (l : Lexeme) (expected : Expected) :
    Strict stop n (language (After l D)) fun ts => Source.need stop l expected ts >>= read := by
  refine (h.need l expected).mono ?_
  rintro _ ⟨_, rfl, ls, ⟨a, hd⟩, rfl⟩
  exact ⟨a, .mk hd⟩

theorem braced (h : Strict stop (n - 1) (language D) read) :
    Strict stop n (language (Braces D)) (braced stop read) := by
  obtain ⟨_, a, _⟩ := h.inhabited
  have : Nonempty α := ⟨a⟩
  have hclose (a : α) : Strict stop (n - 1) ({[.closeBrace]} * 1) fun ts =>
      needMark stop .closeBrace ts >>= fun ts => .ok (a, ts) :=
    (Strict.ok a).need .closeBrace (.mark .closeBrace)
  refine ((h.bind hclose).need .openBrace (.mark .openBrace)).mono ?_
  rintro _ ⟨_, rfl, _, ⟨ls, ⟨a, hd⟩, _, ⟨_, rfl, _, rfl, rfl⟩, rfl⟩, rfl⟩
  exact ⟨a, .mk hd⟩

/-- The keyword of a clause chooses whether it is read. -/
theorem optional (h : Strict stop (n - 1) (language D) read) (word : String) :
    Strict stop n (language (Optional (After (.word word) D))) (optional word read) where
  inhabited := ⟨[], none, .absent⟩
  settled ts hts := by
    have habsent : ∀ ts, atKeyword word ts = false →
        Settled stop (language (Optional (After (.word word) D))) (Source.optional word read) ts := by
      intro ts hat
      refine ((Settled.ok none).of_head fun us hus => ?_).mono ?_
      · unfold Source.optional
        rw [hus.atKeyword_eq, hat]
        rfl
      · rintro _ rfl
        exact ⟨none, .absent⟩
    match ts with
    | [] => exact habsent [] rfl
    | ⟨l, p⟩ :: ts =>
      cases hat : atKeyword word (⟨l, p⟩ :: ts) with
      | false => exact habsent _ hat
      | true =>
        obtain rfl : l = .word word := by simpa [atKeyword] using hat
        have hclause := (h.map some).settled ts (by simp only [List.length_cons] at hts; omega)
        refine (Settled.cons (hclause.of_head fun us _ => ?_)).mono ?_
        · unfold Source.optional
          rw [if_pos (by simp [atKeyword])]
          rfl
        · rintro _ ⟨_, rfl, ls, ⟨a, hd⟩, rfl⟩
          exact ⟨some a, .present (.mk hd)⟩

section

variable {starts : List Token → Bool} {more : Nat → List Token → Except Error (List α × List Token)}

/-- A loop whose turns the next token starts. -/
theorem star (h : ∀ n, Strict stop n (language D) read) (hloop : Loop starts read more)
    (hhead : ∀ {ts us}, Agree 1 ts us → starts us = starts ts) (hnil : starts [] = false)
    (hne : ∀ a, ¬D [] a) (hread : ∀ {ts a rest}, read ts = .ok (a, rest) → rest.length < ts.length) :
    Strict stop n (language (Star D)) fun ts => more ts.length ts := by
  have hword : ∃ ls, ls ∈ language (Star D) := ⟨[], [], .nil⟩
  have hend : ∀ ts, starts ts = false → Settled stop (language (Star D)) (fun ts => more ts.length ts) ts := by
    intro ts hs
    refine ((Settled.ok []).of_head fun us hus => hloop.stop _ us (.inr ?_)).mono ?_
    · rw [hhead hus, hs]
    · rintro _ rfl
      exact ⟨[], .nil⟩
  induction n with
  | zero =>
    refine ⟨hword, fun ts hts => ?_⟩
    obtain rfl := List.length_eq_zero_iff.1 (Nat.le_zero.1 hts)
    exact hend [] hnil
  | succ n ih =>
    refine ⟨hword, fun ts hts => ?_⟩
    cases hs : starts ts with
    | false => exact hend ts hs
    | true =>
      have hlength : ∀ ls ∈ language D, 1 ≤ ls.length := by
        rintro ls ⟨a, hd⟩
        exact List.length_pos_iff.2 fun e => hne a (e ▸ hd)
      have hturn := (h (n + 1)).bind_of_length 1 hlength hword fun a => ih.map (a :: ·)
      refine ((hturn.settled ts hts).of_head fun us hus => ?_).mono ?_
      · exact hloop.go_length hnil hread ((hhead hus).trans hs)
      · rintro _ ⟨ls, ⟨a, hd⟩, ms, ⟨as, hds⟩, rfl⟩
        exact ⟨a :: as, .cons hd hds⟩

theorem plus (h : Strict stop n (language D) read)
    (hmore : Strict stop n (language (Star D)) fun ts => more ts.length ts) :
    Strict stop n (language (Plus D)) fun ts => do
      let (a, ts) ← read ts
      let (as, ts) ← more ts.length ts
      return (a :: as, ts) := by
  obtain ⟨_, a, _⟩ := h.inhabited
  have : Nonempty α := ⟨a⟩
  refine (h.bind fun a => hmore.map (a :: ·)).mono ?_
  rintro _ ⟨ls, ⟨a, hd⟩, ms, ⟨as, hds⟩, rfl⟩
  exact ⟨a :: as, .mk hd hds⟩

end

end Strict

end StageTree.Source
