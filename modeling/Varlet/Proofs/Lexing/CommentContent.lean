import Varlet.Proofs.Lexing.CommentPlaces
import Varlet.Proofs.Lexing.Trimming

/-! What a line comment says. It leaves spaces in front of a line break, and their number decides
neither which comments are closed nor where the tokens behind the line break stand. -/

namespace Varlet

open Text

def lineEnd (n : ℕ) : List Char := List.replicate n ' ' ++ ['\n']

section

variable {c : Char} {n : ℕ}

lemma eq_of_mem_lineEnd (h : c ∈ lineEnd n) : c = ' ' ∨ c = '\n' := by
  rw [lineEnd, List.mem_append, List.mem_singleton] at h
  exact h.imp_left List.eq_of_mem_replicate

lemma isLayout_lineEnd : ∀ c ∈ lineEnd n, isLayout c := by
  intro c hc
  obtain rfl | rfl := eq_of_mem_lineEnd hc <;> decide

lemma exists_lineEnd_append (n : ℕ) (back : List Char) :
    ∃ d ds, isLayout d ∧ lineEnd n ++ back = d :: ds := by
  cases n with
  | zero => exact ⟨'\n', back, by decide, rfl⟩
  | succ n => exact ⟨' ', lineEnd n ++ back, by decide, rfl⟩

lemma Position.after_lineEnd (p : Position) (n : ℕ) : p.after (lineEnd n) = ⟨count p.line, 1⟩ := by
  induction n generalizing p with
  | zero => rfl
  | succ n ih => exact ih (p.step ' ')

end

namespace Comment

variable {n : ℕ}

lemma lineEnd_ne_nil (n : ℕ) : lineEnd n ≠ [] := by simp [lineEnd]

lemma map_blank_lineEnd (n : ℕ) : (lineEnd n).map blank = lineEnd n := by
  simp [lineEnd, blank]

lemma unmarked_lineEnd : Unmarked (lineEnd n) := by
  intro c hc
  obtain rfl | rfl := eq_of_mem_lineEnd hc <;> decide

lemma blankLines_comment {comment : List Char} (h : '\n' ∉ comment) :
    blankLines true comment = List.replicate comment.length ' ' := by
  rw [blankLines_inside (mt List.mem_of_mem_dropLast h), List.map_eq_replicate_iff]
  rintro c hc
  have hbreak : c ≠ '\n' := ne_of_mem_of_not_mem hc h
  simp [blank, hbreak]

lemma exists_blankLines_comment (inside : Bool) (front : List Char) :
    ∃ front', ∀ comment, '\n' ∉ comment →
      blankLines inside (front ++ '/' :: '/' :: comment) =
        front' ++ List.replicate (comment.length + 2) ' ' := by
  induction front generalizing inside with
  | nil =>
    refine ⟨[], fun comment h => ?_⟩
    simp [blankLines, blankLines_comment h, List.replicate_succ]
  | cons c front ih =>
    have hhead (comment : List Char) :
        (front ++ '/' :: '/' :: comment).head? = (front ++ ['/']).head? := by
      cases front <;> rfl
    simp only [List.cons_append, blankLines, hhead]
    split_ifs
    · obtain ⟨front', h⟩ := ih false
      exact ⟨c :: front', fun comment hc => congrArg _ (h comment hc)⟩
    · obtain ⟨front', h⟩ := ih true
      exact ⟨' ' :: front', fun comment hc => congrArg _ (h comment hc)⟩
    · obtain ⟨front', h⟩ := ih false
      exact ⟨c :: front', fun comment hc => congrArg _ (h comment hc)⟩

section

variable {gap : List Char} (hg : Unmarked gap) (front back : List Char)

include hg

lemma Unmarked.closing?_behind :
    closing? (gap ++ back) = (closing? back).map (gap.length + ·) := by
  induction gap with
  | nil => simp
  | cons c gap ih =>
    obtain ⟨hc, hgap⟩ := List.forall_mem_cons.mp hg
    rw [List.cons_append, closing?, if_neg fun h => hc.2 h.1, ih hgap, Option.map_map]
    congr 1
    funext k
    simp only [Function.comp_apply, List.length_cons]
    omega

lemma Unmarked.head?_gap {d : Char} (hne : gap ≠ []) (hd : d = '/' ∨ d = '*') :
    (front ++ (gap ++ back)).head? = some d ↔ front.head? = some d := by
  rw [← List.append_assoc, List.head?_append_of_ne_nil _ (by simp [hne]), hg.head?_append hd]

lemma Unmarked.closing?_gap (hne : gap ≠ []) : closing? (front ++ (gap ++ back)) =
    (closing? front).or ((closing? back).map (front.length + gap.length + ·)) := by
  induction front with
  | nil => simp [closing?, hg.closing?_behind]
  | cons c front ih =>
    have hhead := hg.head?_gap front back hne (.inl rfl)
    simp only [List.cons_append, closing?, hhead, ih]
    split_ifs
    · rfl
    · rw [Option.map_or, Option.map_map]
      congr 2
      funext k
      simp only [Function.comp_apply, List.length_cons]
      omega

end

lemma blankBlocks_gap_inside {gap : List Char} (hg : gap.map blank = gap) (front back : List Char)
    (m : ℕ) : blankBlocks (front.length + gap.length + m) (front ++ (gap ++ back)) =
      front.map blank ++ (gap ++ blankBlocks m back) := by
  have h := blankBlocks_inside (front ++ gap) back m
  rwa [List.length_append, List.map_append, hg, List.append_assoc, List.append_assoc] at h

lemma exists_blankBlocks_open {front : List Char} (hfront : closing? front = none)
    (back : List Char) :
    ∃ front' back', ∀ n, blankBlocks 0 ('/' :: '*' :: (front ++ (lineEnd n ++ back))) =
      front' ++ (lineEnd n ++ back') := by
  have hclosing (n : ℕ) := unmarked_lineEnd.closing?_gap front back (lineEnd_ne_nil n)
  simp only [hfront, Option.none_or] at hclosing
  cases hback : closing? back with
  | none =>
    refine ⟨'/' :: '*' :: front, back, fun n => ?_⟩
    have hclose := hclosing n
    rw [hback] at hclose
    exact blankBlocks_open_unclosed hclose
  | some m =>
    refine ⟨' ' :: ('*' :: front).map blank, blankBlocks m back, fun n => ?_⟩
    have hclose := hclosing n
    rw [hback] at hclose
    have hcount : front.length + (lineEnd n).length + m + 1 =
        ('*' :: front).length + (lineEnd n).length + m := by
      simp only [List.length_cons]
      omega
    rw [blankBlocks_open_closed hclose, hcount]
    exact congrArg _ (blankBlocks_gap_inside (map_blank_lineEnd n) ('*' :: front) back m)

lemma exists_blankBlocks_lineEnd {inside : ℕ} (front back : List Char)
    (hn : inside ≤ front.length) :
    ∃ front' back', ∀ n, blankBlocks inside (front ++ (lineEnd n ++ back)) =
      front' ++ (lineEnd n ++ back') := by
  induction front generalizing inside with
  | nil =>
    obtain rfl : inside = 0 := Nat.le_zero.mp hn
    refine ⟨[], blankBlocks 0 back, fun n => ?_⟩
    exact blankBlocks_gap (fun c hc => (unmarked_lineEnd c hc).1) back
  | cons c front ih =>
    cases inside with
    | succ m =>
      obtain ⟨front', back', h⟩ := ih (Nat.le_of_succ_le_succ hn)
      exact ⟨blank c :: front', back', fun n => congrArg _ (h n)⟩
    | zero =>
      by_cases hopen : c = '/' ∧ front.head? = some '*'
      · obtain ⟨rfl, hhead⟩ := hopen
        obtain ⟨front, rfl⟩ := List.head?_eq_some_iff.mp hhead
        cases hfront : closing? front with
        | none => exact exists_blankBlocks_open hfront back
        | some m =>
          obtain ⟨front', back', h⟩ := ih (Nat.succ_le_succ (closing?_le hfront))
          refine ⟨' ' :: front', back', fun n => ?_⟩
          rw [List.cons_append, List.cons_append,
            blankBlocks_open_closed (closing?_append hfront _)]
          exact congrArg _ (h n)
      · obtain ⟨front', back', h⟩ := ih (Nat.zero_le _)
        refine ⟨c :: front', back', fun n => ?_⟩
        rw [← unmarked_lineEnd.head?_gap front back (lineEnd_ne_nil n) (.inr rfl)] at hopen
        rw [List.cons_append, blankBlocks_plain hopen, h]
        rfl

lemma exists_blankAll_comment (front back : List Char) :
    ∃ front' back', ∀ comment, '\n' ∉ comment →
      blankAll (front ++ '/' :: '/' :: (comment ++ '\n' :: back)) =
        front' ++ (lineEnd (comment.length + 2) ++ back') := by
  obtain ⟨lines, hlines⟩ := exists_blankLines_comment false front
  obtain ⟨front', back', hblocks⟩ :=
    exists_blankBlocks_lineEnd lines (blankLines false back) (Nat.zero_le _)
  refine ⟨front', back', fun comment hc => ?_⟩
  have hsplit : front ++ '/' :: '/' :: (comment ++ '\n' :: back) =
      front ++ '/' :: '/' :: comment ++ '\n' :: back := by simp
  have hline : blankLines false (front ++ '/' :: '/' :: (comment ++ '\n' :: back)) =
      lines ++ (lineEnd (comment.length + 2) ++ blankLines false back) := by
    rw [hsplit, blankLines_append, hlines comment hc, lineEnd]
    simp
  rw [blankAll, hline, hblocks]

end Comment

lemma Lexeme.next?_lineEnd {c : Char} {front : List Char} {l : Lexeme}
    (h : next? c front = some l) (n : ℕ) (back : List Char) :
    next? c (front ++ (lineEnd n ++ back)) =
      some ⟨l.kind, l.taken, l.rest ++ (lineEnd n ++ back)⟩ := by
  obtain ⟨d, ds, hd, heq⟩ := exists_lineEnd_append n back
  rw [heq, next?_append (.inl hd) h]

namespace Cursor

variable {k k' : Cursor}

/-- The cursors stand at the same place, and the texts to come differ at most in the number of
spaces in front of a line break. -/
inductive Alike : Cursor → Cursor → Prop
  | same {rest o o' p} : Alike ⟨rest, o, p⟩ ⟨rest, o', p⟩
  | spaces {front back n n' o o' p} :
      Alike ⟨front ++ (lineEnd n ++ back), o, p⟩ ⟨front ++ (lineEnd n' ++ back), o', p⟩

lemma head_skipLayout (k : Cursor) : ∀ c ∈ k.skipLayout.rest.head?, ¬ isLayout c :=
  head_dropWhile_not k.rest

lemma skipLayout_append {front : List Char} (hf : ∀ c ∈ front, isLayout c) (rest : List Char)
    (o : ℕ) (p : Position) : skipLayout ⟨front ++ rest, o, p⟩ =
      ⟨rest.dropWhile isLayout, o + (String.ofList (front ++ rest.takeWhile isLayout)).utf8ByteSize,
        (p.after front).after (rest.takeWhile isLayout)⟩ := by
  simp only [skipLayout, advance, List.takeWhile_append_of_pos hf, List.dropWhile_append_of_pos hf,
    Position.after_append]

namespace Alike

protected lemma skipLayout (h : Alike k k') : Alike k.skipLayout k'.skipLayout := by
  cases h with
  | same => exact .same
  | @spaces front back n n' o o' p =>
    obtain ⟨gap, right, rfl, hg, hr⟩ := exists_gap front
    cases right with
    | nil =>
      -- the layout runs over the line break, behind which every column counts from one again
      have hlayout (n : ℕ) : ∀ c ∈ gap ++ lineEnd n, isLayout c := by
        rw [List.forall_mem_append]
        exact ⟨hg, isLayout_lineEnd⟩
      simp only [List.append_nil, ← List.append_assoc, skipLayout_append (hlayout _),
        Position.after_append, Position.after_lineEnd]
      exact .same
    | cons c right =>
      have hc : ¬ isLayout c := hr c rfl
      simp only [List.append_assoc, skipLayout_append hg, List.cons_append, List.dropWhile_cons,
        List.takeWhile_cons, hc, Bool.false_eq_true, if_false]
      exact @spaces (c :: right) back n n' _ _ _

protected lemma scan (h : Alike k k') : k.scan.1 = k'.scan.1 ∧ Alike k.scan.2 k'.scan.2 := by
  have hs := h.skipLayout
  have hhead := k.head_skipLayout
  simp only [scan]
  generalize k.skipLayout = j at hs hhead ⊢
  generalize k'.skipLayout = j' at hs ⊢
  cases hs with
  | @same rest =>
    cases rest with
    | nil => exact ⟨rfl, .same⟩
    | cons c cs =>
      dsimp only
      cases Lexeme.next? c cs with
      | none => exact ⟨rfl, .same⟩
      | some l => exact ⟨rfl, .same⟩
  | @spaces front back n n' =>
    cases front with
    | nil =>
      obtain ⟨d, ds, hd, heq⟩ := exists_lineEnd_append n back
      exact absurd hd (hhead d (by simp [heq]))
    | cons c front =>
      dsimp only [List.cons_append]
      cases hnext : Lexeme.next? c front with
      | none =>
        have hc := Lexeme.not_known_of_next?_eq_none hnext (hhead c rfl)
        rw [Lexeme.next?_eq_none hc, Lexeme.next?_eq_none hc]
        exact ⟨rfl, .spaces⟩
      | some l =>
        rw [Lexeme.next?_lineEnd hnext, Lexeme.next?_lineEnd hnext]
        exact ⟨rfl, .spaces⟩

protected lemma tokens (h : Alike k k') (before : List Token) :
    k.tokens before = k'.tokens before := by
  fun_induction tokens k before generalizing k' with
  | case1 k before e next hscan =>
    have hstep := h.scan
    rw [hscan] at hstep
    rw [tokens_of_scan_error hstep.1.symm]
  | case2 k before t next hscan ht =>
    have hstep := h.scan
    rw [hscan] at hstep
    rw [tokens_of_scan_eof hstep.1.symm ht]
    simp
  | case3 k before t next hscan ht ih =>
    have hstep := h.scan
    rw [hscan] at hstep
    rw [ih hstep.2, ← tokens_of_scan (Prod.ext hstep.1.symm rfl : k'.scan = (.ok t, k'.scan.2)) ht]

end Alike

end Cursor

theorem tokenize_ignores_line_comment (front first second rest : String)
    (h₁ : '\n' ∉ first.toList) (h₂ : '\n' ∉ second.toList) (hr : rest.toList.head? = some '\n') :
    tokenize (front ++ "//" ++ first ++ rest) = tokenize (front ++ "//" ++ second ++ rest) := by
  obtain ⟨back, hback⟩ := List.head?_eq_some_iff.mp hr
  obtain ⟨front', back', hblank⟩ := Comment.exists_blankAll_comment front.toList back
  have htext (comment : String) : (front ++ "//" ++ comment ++ rest).toList =
      front.toList ++ '/' :: '/' :: (comment.toList ++ '\n' :: back) := by
    simp [hback]
  rw [tokenize, tokenize, htext, htext, hblank _ h₁, hblank _ h₂]
  exact Cursor.Alike.spaces.tokens []

theorem tokenize_ignores_line_comment_in_block :
    tokenize ("1 /* 2" ++ "//" ++ " */ 3" ++ "\n*/ 4") =
      tokenize ("1 /* 2" ++ "//" ++ "ü # /* //" ++ "\n*/ 4") :=
  tokenize_ignores_line_comment _ _ _ _ (by decide) (by decide) (by decide)

end Varlet
