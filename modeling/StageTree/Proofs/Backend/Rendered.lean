import StageTree.Backend.Handler
import StageTree.Proofs.Shell.Words
import StageTree.Proofs.Source.Printed

/-! What the shell texts of steps say to a shell. Every parameter of a repository to be cloned is one word,
whatever characters it has. The value of a step with a bare value is one word unless it has a single quote. -/

namespace StageTree

open Shell (Joins joins_plain joins_quote read)

namespace Handler

/-- The words of the command that clones a repository. -/
def cloneWords (url : String) (branch : Option String) : List String :=
  ["git", "clone"] ++ branch.elim [] (fun b => ["--branch", b]) ++ [url]

theorem read_cloneText (url : String) (branch : Option String) :
    read (cloneText url branch) = some ((cloneWords url branch).map .word) := by
  have hgit : Joins "git".toList "git".toList := joins_plain (by decide) (by decide)
  have hclone : Joins "clone".toList "clone".toList := joins_plain (by decide) (by decide)
  have hbranch : Joins "--branch".toList "--branch".toList := joins_plain (by decide) (by decide)
  cases branch with
  | none =>
    have hfront : "git clone " = "git" ++ " " ++ ("clone" ++ " ") := by decide
    have htext : cloneText url none = "git" ++ " " ++ ("clone" ++ " " ++ Shell.quote url) := by
      unfold cloneText
      rw [hfront]
      simp only [String.append_assoc, -String.reduceAppend]
    rw [htext, hgit.read_blank, hclone.read_blank, (joins_quote url).read_eq]
    rfl
  | some b =>
    have hfront : "git clone --branch " = "git" ++ " " ++ ("clone" ++ " " ++ ("--branch" ++ " ")) := by
      decide
    have htext : cloneText url (some b) =
        "git" ++ " " ++ ("clone" ++ " " ++ ("--branch" ++ " " ++ (Shell.quote b ++ " " ++ Shell.quote url))) := by
      unfold cloneText
      rw [hfront]
      simp only [String.append_assoc, -String.reduceAppend]
    rw [htext, hgit.read_blank, hclone.read_blank, hbranch.read_blank, (joins_quote b).read_blank,
      (joins_quote url).read_eq]
    rfl

/-- A quoted text is one word, by itself and as a piece of a longer one. So the address and the branch of a
repository reach the program that clones it as they are, and other parameters have no part in it. -/
theorem clone_words :
    (∀ v : String, read (Shell.quote v) = some [.word v] ∧ Joins (Shell.quote v).toList v.toList) ∧
      (∀ (params : Bindings) (url : String), params.get? "url" = some url →
        ∃ text, git.render params = .ok text ∧
          read text = some ((cloneWords url (params.get? "branch")).map .word)) ∧
      ∀ params params' : Bindings, params.get? "url" = params'.get? "url" →
        params.get? "branch" = params'.get? "branch" → git.render params = git.render params' := by
  refine ⟨fun v => ⟨(joins_quote v).read_eq, joins_quote v⟩, fun params url hurl => ?_,
    fun params params' hurl hbranch => ?_⟩
  · refine ⟨cloneText url (params.get? "branch"), ?_, read_cloneText url _⟩
    simp only [git, need, hurl]
    rfl
  · simp only [git, need, hurl, hbranch]

/-- A branch that would end the command, an address of two quotes, and a parameter more. -/
theorem clone_words_quotes :
    let params := Bindings.ofList [("url", "''"), ("branch", "a; b"), ("credentialsId", "1")]
    params.get? "url" = some "''" ∧ ∃ text, git.render params = .ok text ∧
      read text = some [.word "git", .word "clone", .word "--branch", .word "a; b", .word "''"] := by
  intro params
  have hurl : params.get? "url" = some "''" := by decide
  have hbranch : params.get? "branch" = some "a; b" := by decide
  obtain ⟨text, hrender, hread⟩ := clone_words.2.1 params "''" hurl
  exact ⟨hurl, text, hrender, by rw [hread, hbranch]; rfl⟩

end Handler

/-! ### Steps with a bare value -/

theorem isPlain_of_continuesWord {c : Char} (h : Source.continuesWord c = true) : Shell.isPlain c = true := by
  have hne (d : Char) (hd : Source.continuesWord d = false) : c ≠ d := by
    rintro rfl
    rw [h] at hd
    cases hd
  simp (disch := decide) [Shell.isPlain, Shell.isBlank, Shell.isOperator, Shell.isExpanded, hne]

theorem joins_identifier {name : String} (h : Source.isIdentifier name = true) :
    Joins name.toList name.toList := by
  unfold Source.isIdentifier at h
  split at h
  · cases h
  · rename_i c cs hname
    rw [Bool.and_eq_true, List.all_eq_true] at h
    have hc : Source.continuesWord c = true := by
      simp only [Source.startsWord, Source.continuesWord, Char.isAlphanum, Bool.or_eq_true] at h ⊢
      tauto
    rw [hname]
    refine joins_plain (List.cons_ne_nil c cs) (List.all_eq_true.2 ?_)
    exact List.forall_mem_cons.2 ⟨isPlain_of_continuesWord hc, fun d hd => isPlain_of_continuesWord (h.2 d hd)⟩

namespace Step

/-- The value of a step goes between single quotes as it is: so it is one word unless it has a single quote. -/
theorem read_single_iff {command : String} (h : Source.isIdentifier command = true) (value : String) :
    read (command ++ " '" ++ value ++ "'") = some [.word command, .word value] ↔ '\'' ∉ value.toList := by
  have hfront : " '" = " " ++ "'" := by decide
  have htext : command ++ " '" ++ value ++ "'" = command ++ " " ++ ("'" ++ value ++ "'") := by
    rw [hfront]
    simp only [String.append_assoc, -String.reduceAppend]
  have hword : read ("'" ++ value ++ "'") = some [.word value] ↔ '\'' ∉ value.toList := Shell.read_verbatim_iff value
  rw [htext, (joins_identifier h).read_blank, ← hword]
  constructor
  · intro hread
    obtain ⟨ts, hts, hcons⟩ := Option.map_eq_some_iff.1 hread
    rw [hts, (List.cons.inj hcons).2]
  · intro hread
    rw [hread]
    rfl

/-- A step with a bare value reaches the shell as its command and its value, both one word, if the value has no
single quote, and only then. -/
theorem single_words {source : String} {p : Pipeline} {path : List String} {s : Stage} {command value : String}
    (hp : Source.parse source = .ok p) (hs : (path, s) ∈ p.preorder) (ht : .single command value ∈ s.steps)
    (handlers : Handlers) :
    ∃ text, handlers.render (Step.single command value).toCommand = .ok text ∧
      (read text = some [.word command, .word value] ↔ '\'' ∉ value.toList) := by
  have hw : p.Writable := ((Source.parse_iff_layout source p).1 hp).1
  obtain ⟨t, hmem, hs⟩ := Stage.mem_preorderAll.1 hs
  have hstage : s.Writable := (hw.members t hmem).of_mem_preorder hs
  exact ⟨_, rfl, read_single_iff (hstage.steps _ ht).1 value⟩

/-- A pipeline with one step, of a bare value between double quotes. -/
def sayingSource (value : String) : String :=
  "pipeline \x7b agent none stages \x7b stage('say') \x7b steps \x7b echo \"" ++ value ++ "\" \x7d \x7d \x7d \x7d"

def saying (value : String) : Stage := { name := "say", steps := [.single "echo" value] }

/-- Operators, blanks and expansions are literal in a value. -/
theorem single_words_literal :
    Source.parse (sayingSource "$a; b\\") = .ok ⟨.none, [saying "$a; b\\"]⟩ ∧
      ∃ text, Handlers.builtins.render (Step.single "echo" "$a; b\\").toCommand = .ok text ∧
        read text = some [.word "echo", .word "$a; b\\"] := by
  have hp : Source.parse (sayingSource "$a; b\\") = .ok ⟨.none, [saying "$a; b\\"]⟩ := by decide +kernel
  obtain ⟨text, hrender, hread⟩ :=
    single_words hp (show (["say"], saying "$a; b\\") ∈ _ from List.mem_cons_self) List.mem_cons_self Handlers.builtins
  exact ⟨hp, text, hrender, hread.2 (by decide)⟩

/-- A value with single quotes is no word: here it ends the command, and another one follows. -/
theorem single_words_split :
    Source.parse (sayingSource "a'; b 'c") = .ok ⟨.none, [saying "a'; b 'c"]⟩ ∧
      Handlers.builtins.render (Step.single "echo" "a'; b 'c").toCommand = .ok "echo 'a'; b 'c'" ∧
      read "echo 'a'; b 'c'" = some [.word "echo", .word "a", .operator ';', .word "b", .word "c"] ∧
      read "echo 'a'; b 'c'" ≠ some [.word "echo", .word "a'; b 'c"] := by
  decide +kernel

end Step

end StageTree
