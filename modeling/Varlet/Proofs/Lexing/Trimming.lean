import Varlet.Proofs.Lexing.Blanking
import Varlet.Proofs.Lexing.Comments
import Varlet.Proofs.Lexing.Words
import Varlet.Text.Classes

/-! White space at the two ends of a text. It begins and ends no comment, and where it is not
blanked with one it can only be layout, so a text that can be read at all is read alike without it.
-/

namespace Varlet

open Text

namespace Text

lemma trimBy_concat {p : Char → Bool} {cs : List Char} {c : Char} (hc : p c) :
    trimBy p (cs ++ [c]) = trimBy p cs := by
  rw [trimBy, trimBy, List.dropWhile_append]
  split_ifs with h
  · rw [List.isEmpty_iff] at h
    simp [h, hc]
  · rw [List.reverse_append, List.reverse_singleton, List.singleton_append,
      List.dropWhile_cons_of_pos hc]

lemma exists_trimBy (p : Char → Bool) (cs : List Char) :
    ∃ before after, cs = before ++ (trimBy p cs ++ after) ∧ (∀ c ∈ before, p c) ∧
      ∀ c ∈ after, p c := by
  refine ⟨cs.takeWhile p, ((cs.dropWhile p).reverse.takeWhile p).reverse, ?_,
    fun c => List.mem_takeWhile_imp, fun c hc => List.mem_takeWhile_imp (List.mem_reverse.mp hc)⟩
  rw [trimBy, ← List.reverse_append, List.takeWhile_append_dropWhile, List.reverse_reverse,
    List.takeWhile_append_dropWhile]

lemma isLayout_of_whiteSpace {c : Char} (hc : isWhiteSpace c) (hk : Known c) : isLayout c := by
  obtain ⟨r, hr, hrange⟩ := List.any_eq_true.mp hc
  simp only [Bool.and_eq_true, decide_eq_true_eq] at hrange
  rcases hk with (hl | ⟨kind, hp⟩) | hd | hl
  · exact hl
  · have hnone : ∀ d ∈ punctuation, ¬ isWhiteSpace d.1 := by decide
    exact absurd hc (hnone _ hp)
  · have hdigits : ∀ r ∈ whiteSpaceRanges, r.2 < 48 ∨ 57 < r.1 := by decide
    have := hdigits r hr
    have := digit_code hd
    omega
  · obtain ⟨l, hl, hletter⟩ := List.any_eq_true.mp hl
    simp only [Bool.and_eq_true, decide_eq_true_eq] at hletter
    have hletters : ∀ r ∈ whiteSpaceRanges, ∀ l ∈ letterRanges, r.2 < l.1 ∨ l.2 < r.1 := by
      decide +kernel
    have := hletters r hr l hl
    omega

lemma ne_mark_of_whiteSpace {c : Char} (hc : isWhiteSpace c) : c ≠ '/' ∧ c ≠ '*' := by
  constructor
  · rintro rfl
    exact absurd hc (by decide)
  · rintro rfl
    exact absurd hc (by decide)

end Text

namespace Comment

variable {cs ds ws : List Char}

lemma Blanked.exists_of_mem {d : Char} (h : Blanked cs ds) (hd : d ∈ ds) :
    ∃ c ∈ cs, Blanks c d := by
  induction h with
  | nil => cases hd
  | cons hcd _ ih =>
    rcases List.mem_cons.mp hd with rfl | hd
    · exact ⟨_, List.mem_cons_self, hcd⟩
    · obtain ⟨c, hc, hblanks⟩ := ih hd
      exact ⟨c, List.mem_cons_of_mem _ hc, hblanks⟩

def Unmarked (ws : List Char) : Prop := ∀ c ∈ ws, c ≠ '/' ∧ c ≠ '*'

lemma Blanked.unmarked (h : Blanked cs ds) (hc : Unmarked cs) : Unmarked ds := by
  intro d hd
  obtain ⟨c, hmem, rfl | rfl⟩ := h.exists_of_mem hd
  · exact hc d hmem
  · have hl := isLayout_blank c
    constructor
    · intro heq
      rw [heq] at hl
      exact absurd hl (by decide)
    · intro heq
      rw [heq] at hl
      exact absurd hl (by decide)

lemma Unmarked.head?_append {d : Char} (hw : Unmarked ws) (hd : d = '/' ∨ d = '*') :
    (cs ++ ws).head? = some d ↔ cs.head? = some d := by
  cases cs with
  | cons c cs => rfl
  | nil =>
    simp only [List.nil_append, List.head?_nil, reduceCtorEq, iff_false]
    intro h
    obtain ⟨hslash, hstar⟩ := hw d (List.mem_of_head? h)
    exact hd.elim hslash hstar

lemma Unmarked.closing?_append (hw : Unmarked ws) : closing? (cs ++ ws) = closing? cs := by
  induction cs with
  | nil =>
    induction ws with
    | nil => rfl
    | cons c ws ih =>
      obtain ⟨hc, hws⟩ := List.forall_mem_cons.mp hw
      simpa [closing?, hc.2] using ih hws
  | cons c cs ih => simp only [List.cons_append, closing?, hw.head?_append (.inl rfl), ih]

lemma Unmarked.exists_blankLines_append (hw : Unmarked ws) (inside : Bool) (cs : List Char) :
    ∃ ws', Blanked ws ws' ∧ blankLines inside (cs ++ ws) = blankLines inside cs ++ ws' := by
  induction cs generalizing inside with
  | nil => exact ⟨_, blanked_blankLines inside ws, rfl⟩
  | cons c cs ih =>
    have hhead : ((cs ++ ws).head? == some '/') = (cs.head? == some '/') := by
      rw [Bool.eq_iff_iff, beq_iff_eq, beq_iff_eq, hw.head?_append (.inl rfl)]
    simp only [List.cons_append, blankLines, hhead]
    split_ifs
    · obtain ⟨ws', hws', heq⟩ := ih false
      exact ⟨ws', hws', congrArg _ heq⟩
    · obtain ⟨ws', hws', heq⟩ := ih true
      exact ⟨ws', hws', congrArg _ heq⟩
    · obtain ⟨ws', hws', heq⟩ := ih false
      exact ⟨ws', hws', congrArg _ heq⟩

lemma Unmarked.exists_blankBlocks_append (hw : Unmarked ws) (inside : ℕ) (cs : List Char) :
    ∃ ws', Blanked ws ws' ∧ blankBlocks inside (cs ++ ws) = blankBlocks inside cs ++ ws' := by
  induction cs generalizing inside with
  | nil => exact ⟨_, blanked_blankBlocks inside ws, rfl⟩
  | cons c cs ih =>
    cases inside with
    | succ n =>
      obtain ⟨ws', hws', heq⟩ := ih n
      exact ⟨ws', hws', congrArg _ heq⟩
    | zero =>
      simp only [List.cons_append, blankBlocks, hw.head?_append (.inr rfl)]
      split_ifs with hopen
      · obtain ⟨cs, rfl⟩ := List.head?_eq_some_iff.mp hopen.2
        simp only [List.cons_append, List.tail_cons, hw.closing?_append]
        cases closing? cs with
        | none => exact ⟨ws, blanked_refl ws, rfl⟩
        | some n =>
          obtain ⟨ws', hws', heq⟩ := ih (n + 1)
          exact ⟨ws', hws', congrArg _ heq⟩
      · obtain ⟨ws', hws', heq⟩ := ih 0
        exact ⟨ws', hws', congrArg _ heq⟩

lemma Unmarked.exists_blankAll_append (hw : Unmarked ws) (cs : List Char) :
    ∃ ws', Blanked ws ws' ∧ blankAll (cs ++ ws) = blankAll cs ++ ws' := by
  obtain ⟨lines, hlines, heq⟩ := hw.exists_blankLines_append false cs
  obtain ⟨ws', hws', heq'⟩ := (hlines.unmarked hw).exists_blankBlocks_append 0 (blankLines false cs)
  exact ⟨ws', hlines.trans hws', by rw [blankAll, heq, heq', blankAll]⟩

end Comment

open Comment

lemma Lexes.trimBy {text : List Char} {words : List (Token.Kind × List Char)}
    (h : Lexes (blankAll text) words) : Lexes (blankAll (trimBy isWhiteSpace text)) words := by
  obtain ⟨before, after, heq, hbefore, hafter⟩ := exists_trimBy isWhiteSpace text
  have hgap : ∀ c ∈ before, c ≠ '/' := fun c hc => (ne_mark_of_whiteSpace (hbefore c hc)).1
  have hunmarked : Unmarked after := fun c hc => ne_mark_of_whiteSpace (hafter c hc)
  obtain ⟨after', hblanked, hblank⟩ :=
    hunmarked.exists_blankAll_append (Text.trimBy isWhiteSpace text)
  have htext : blankAll text = before ++ (blankAll (Text.trimBy isWhiteSpace text) ++ after') := by
    rw [← hblank, blankAll, heq, blankLines_gap hgap, blankBlocks_gap hgap, ← blankAll, ← heq]
  rw [htext] at h
  have hknown := h.known
  refine of_append_gap (fun d hd => ?_) (of_gap (fun c hc => ?_) h)
  · obtain ⟨c, hc, rfl | rfl⟩ := hblanked.exists_of_mem hd
    · exact isLayout_of_whiteSpace (hafter d hc) (hknown d (by simp [hd]))
    · exact isLayout_blank c
  · exact isLayout_of_whiteSpace (hbefore c hc) (hknown c (by simp [hc]))

end Varlet
