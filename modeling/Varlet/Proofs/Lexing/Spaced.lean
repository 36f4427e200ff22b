import Varlet.Proofs.Lexing.MaximalMunch

namespace Varlet

open Text

namespace Comment

def Free (cs : List Char) : Prop := cs.IsChain fun c d => c = '/' → d ≠ '/' ∧ d ≠ '*'

lemma blankLines_of_free {cs : List Char} (h : Free cs) : blankLines false cs = cs := by
  induction cs with
  | nil => rfl
  | cons c cs ih =>
    obtain ⟨hc, hcs⟩ := List.isChain_cons.mp h
    have hopen : ¬ (c = '/' ∧ cs.head? = some '/') := by
      rintro ⟨h, hd⟩
      exact (hc _ hd h).1 rfl
    simp only [blankLines, ih hcs]
    split <;> simp_all

lemma blankBlocks_of_free {cs : List Char} (h : Free cs) : blankBlocks 0 cs = cs := by
  induction cs with
  | nil => rfl
  | cons c cs ih =>
    obtain ⟨hc, hcs⟩ := List.isChain_cons.mp h
    have hopen : ¬ (c = '/' ∧ cs.head? = some '*') := by
      rintro ⟨h, hd⟩
      exact (hc _ hd h).2 rfl
    simp only [blankBlocks, ih hcs, hopen, if_false]

lemma blankAll_of_free {cs : List Char} (h : Free cs) : blankAll cs = cs := by
  rw [blankAll, blankLines_of_free h, blankBlocks_of_free h]

lemma Free.append {word right : List Char} (hw : ∀ c ∈ word, c ≠ '/') (hr : Free right) :
    Free (word ++ right) := by
  induction word with
  | nil => exact hr
  | cons c word ih =>
    rw [List.forall_mem_cons] at hw
    exact List.isChain_cons.mpr ⟨fun _ _ hc => absurd hc hw.1, ih hw.2⟩

end Comment

namespace IsWord

variable {left word right : List Char} {kind : Token.Kind}

lemma between (h : IsWord [] kind word []) (hl : ∀ c ∈ left.getLast?, Single c)
    (hr : ∀ c ∈ right.head?, Single c) : IsWord left kind word right := by
  obtain ⟨c, hp, rfl⟩ | ⟨rfl, hrun⟩ | ⟨rfl, hrun⟩ := h.shape
  · exact .punctuation hp
  · exact .number ⟨hrun.ne_nil, hrun.all, fun c hc => (hl c hc).not_digit,
      fun c hc => (hr c hc).not_digit⟩
  · exact of_letters ⟨hrun.ne_nil, hrun.all, fun c hc => (hl c hc).not_letter,
      fun c hc => (hr c hc).not_letter⟩

lemma free_append (h : IsWord left kind word []) (hr : ∀ c ∈ right.head?, c = ' ')
    (hfree : Comment.Free right) : Comment.Free (word ++ right) := by
  have hslash : Single '/' := .inr ⟨.divide, by decide⟩
  obtain ⟨c, hp, rfl⟩ | ⟨-, hrun⟩ | ⟨-, hrun⟩ := h.shape
  · refine List.isChain_cons.mpr ⟨fun d hd _ => ?_, hfree⟩
    simp [hr d hd]
  · apply hfree.append
    rintro c hc rfl
    exact hslash.not_digit (hrun.all _ hc)
  · apply hfree.append
    rintro c hc rfl
    exact hslash.not_letter (hrun.all _ hc)

end IsWord

def spaced (words : List (Token.Kind × List Char)) : List Char :=
  words.flatMap fun w => ' ' :: w.2

lemma head_spaced (words : List (Token.Kind × List Char)) :
    ∀ c ∈ (spaced words).head?, c = ' ' := by
  cases words <;> simp [spaced]

lemma single_blank : Single ' ' := .inl rfl

lemma cut_spaced {words : List (Token.Kind × List Char)}
    (hw : ∀ w ∈ words, IsWord [] w.1 w.2 []) (left : List Char) :
    Cut left (spaced words) (words.map fun w => ⟨[' '], w.1, w.2⟩) [] [] := by
  induction words generalizing left with
  | nil => exact @Cut.gap left [] [] (by simp)
  | cons w words ih =>
    rw [List.forall_mem_cons] at hw
    have hword : IsWord (left ++ [' ']) w.1 w.2 (spaced words) := by
      apply hw.1.between
      · simp [single_blank]
      · intro c hc
        rw [head_spaced words c hc]
        exact single_blank
    exact .word (by simp [isLayout, isSpace]) hword (ih hw.2 _)

lemma free_spaced {words : List (Token.Kind × List Char)}
    (hw : ∀ w ∈ words, IsWord [] w.1 w.2 []) : Comment.Free (spaced words) := by
  induction words with
  | nil => exact .nil
  | cons w words ih =>
    rw [List.forall_mem_cons] at hw
    have hblank : ∀ c ∈ [' '], c ≠ '/' := by simp
    have hword := hw.1.free_append (head_spaced words) (ih hw.2)
    simpa [spaced] using Comment.Free.append hblank hword

lemma tokenize_spaced {words : List (Token.Kind × List Char)}
    (hw : ∀ w ∈ words, IsWord [] w.1 w.2 []) :
    ∃ ts final, tokenize (.ofList (spaced words)) = .ok (ts ++ [final]) ∧
      ts.map (fun t => (t.kind, t.text)) = words.map (fun w => (w.1, .ofList w.2)) ∧
      (∀ t ∈ ts, t.kind ≠ .eof) ∧ final.kind = .eof := by
  have hcut := cut_spaced hw []
  have htext : Comment.blankAll (String.ofList (spaced words)).toList = spaced words := by
    rw [String.toList_ofList, Comment.blankAll_of_free (free_spaced hw)]
  refine ⟨_, _, tokenize_of_cut (htext.symm ▸ hcut), ?_, Piece.kind_tokens hcut.kind_ne_eof [], rfl⟩
  rw [Piece.map_tokens, List.map_map]
  rfl

def Token.Kind.sample : Token.Kind → List Char
  | parenLeft => ['(']
  | parenRight => [')']
  | braceLeft => ['{']
  | braceRight => ['}']
  | comma => [',']
  | colon => [':']
  | assign => ['=']
  | plus => ['+']
  | minus => ['-']
  | multiply => ['*']
  | divide => ['/']
  | modulo => ['%']
  | identifier => ['a']
  | number => ['0']
  | keywordVar => ['v', 'a', 'r']
  | keywordMut => ['m', 'u', 't']
  | keywordNull => ['n', 'u', 'l', 'l']
  | eof => []

lemma isWord_sample {kind : Token.Kind} (h : kind ≠ .eof) : IsWord [] kind kind.sample [] := by
  have hrun {P : Char → Bool} {word : List Char} (hne : word ≠ []) (hP : word.all P) :
      MaximalRun P [] word [] :=
    ⟨hne, List.all_eq_true.mp hP, by simp, by simp⟩
  cases kind with
  | identifier => exact .identifier (hrun (by decide) (by decide +kernel)) (by decide)
  | number => exact .number (hrun (by decide) (by decide))
  | keywordVar => exact .keywordVar (hrun (by decide) (by decide +kernel))
  | keywordMut => exact .keywordMut (hrun (by decide) (by decide +kernel))
  | keywordNull => exact .keywordNull (hrun (by decide) (by decide +kernel))
  | eof => exact absurd rfl h
  | _ => exact .punctuation (by decide)

lemma exists_source {kinds : List Token.Kind} (h : ∀ k ∈ kinds, k ≠ .eof) :
    ∃ source ts final, tokenize source = .ok (ts ++ [final]) ∧ ts.map Token.kind = kinds ∧
      (∀ t ∈ ts, t.kind ≠ .eof) ∧ final.kind = .eof := by
  have hw : ∀ w ∈ kinds.map fun k => (k, k.sample), IsWord [] w.1 w.2 [] := by
    simp only [List.forall_mem_map]
    exact fun k hk => isWord_sample (h k hk)
  obtain ⟨ts, final, htokens, hmap, hne, hend⟩ := tokenize_spaced hw
  refine ⟨_, ts, final, htokens, ?_, hne, hend⟩
  simpa [Function.comp_def] using congrArg (List.map Prod.fst) hmap

end Varlet
