import Varlet.Proofs.Lexing.CommentPlaces

/-! What blanking leaves of the comments: nothing but an opening that is never closed. A text in
which there is no more than that stays as it is, so the comments of a text go in one round. -/

namespace Varlet

open Text

namespace Comment

variable {a b : Char} {cs : List Char} {i j start : ℕ}

lemma mark_blankWhere {p : ℕ → Prop} [DecidablePred p] (ha : ¬ isLayout a) (hb : ¬ isLayout b) :
    Mark a b (blankWhere p cs) i ↔ Mark a b cs i ∧ ¬ p i ∧ ¬ p (i + 1) := by
  have hplace {d : Char} (hd : ¬ isLayout d) (k : ℕ) :
      (blankWhere p cs)[k]? = some d ↔ cs[k]? = some d ∧ ¬ p k := by
    rw [getElem?_blankWhere]
    by_cases hp : p k
    · have hne (c : Char) : blank c ≠ d := fun h => hd (h ▸ isLayout_blank c)
      simp [hp, hne]
    · simp [hp]
  rw [Mark, Mark, hplace ha, hplace hb]
  exact and_and_and_comm

structure Clean (cs : List Char) : Prop where
  line : ¬ ∃ i, Mark '/' '/' cs i
  block : ¬ ∃ i j, Mark '/' '*' cs i ∧ i + 2 ≤ j ∧ Mark '*' '/' cs j

lemma not_mark_blankLines : ¬ Mark '/' '/' (blankLines false cs) i := by
  rw [blankLines_eq, mark_blankWhere not_layout_slash not_layout_slash]
  rintro ⟨hmark, hout, -⟩
  exact hout ⟨i, le_rfl, hmark, by omega⟩

lemma FirstMark.le_of_mark {k : ℕ} (h : FirstMark a b cs start k) (hi : start ≤ i)
    (hmark : Mark a b cs i) : k ≤ i := by
  by_contra hlt
  exact h.not_mark i hi (by omega) hmark

lemma Blocks.inBlock {blocks : List (ℕ × ℕ)} (h : Blocks cs start blocks) (hi : start ≤ i)
    (hopen : Mark '/' '*' cs i) (hij : i + 2 ≤ j) (hclose : Mark '*' '/' cs j) :
    InBlock blocks i := by
  induction h with
  | none hnone => exact absurd hopen (hnone i hi)
  | unclosed hfirst hnone =>
    have := hfirst.le_of_mark hi hopen
    exact absurd hclose (hnone j (by omega))
  | @closed start k m blocks hfirst hend _ ih =>
    have hk := hfirst.le_of_mark hi hopen
    by_cases hm : i < m + 2
    · exact ⟨(k, m + 2), List.mem_cons_self, hk, hm⟩
    · obtain ⟨b, hb, hplace⟩ := ih (by omega)
      exact ⟨b, List.mem_cons_of_mem _ hb, hplace⟩

lemma clean_blankAll (cs : List Char) : Clean (blankAll cs) := by
  obtain ⟨blocks, hblocks, heq⟩ := exists_blocks_blankBlocks (blankLines false cs)
  rw [blankAll, heq]
  constructor
  · rintro ⟨i, hmark⟩
    rw [mark_blankWhere not_layout_slash not_layout_slash] at hmark
    exact not_mark_blankLines hmark.1
  · rintro ⟨i, j, hopen, hij, hclose⟩
    rw [mark_blankWhere not_layout_slash not_layout_star] at hopen
    rw [mark_blankWhere not_layout_star not_layout_slash] at hclose
    exact hopen.2.1 (hblocks.inBlock (Nat.zero_le i) hopen.1 hij hclose.1)

namespace Clean

lemma blankLines_eq_self (h : Clean cs) : blankLines false cs = cs := by
  rw [blankLines_eq]
  exact blankWhere_of_not fun i ⟨j, _, hmark, _⟩ => h.line ⟨j, hmark⟩

lemma blankBlocks_eq_self (h : Clean cs) : blankBlocks 0 cs = cs := by
  obtain ⟨blocks, hblocks, heq⟩ := exists_blocks_blankBlocks cs
  cases hblocks with
  | none _ => rw [heq, blankWhere_of_not (by simp [InBlock])]
  | unclosed _ _ => rw [heq, blankWhere_of_not (by simp [InBlock])]
  | closed hopen hclose _ => exact absurd ⟨_, _, hopen.mark, hclose.le, hclose.mark⟩ h.block

lemma blankAll_eq_self (h : Clean cs) : blankAll cs = cs := by
  rw [blankAll, h.blankLines_eq_self, h.blankBlocks_eq_self]

end Clean

theorem strip_leaves_no_comment (source : String) :
    (¬ ∃ i, Mark '/' '/' (strip source).toList i) ∧
    (¬ ∃ i j, Mark '/' '*' (strip source).toList i ∧ i + 2 ≤ j ∧
      Mark '*' '/' (strip source).toList j) ∧
    strip (strip source) = strip source ∧
    tokenize (strip source) = tokenize source := by
  have htext : (strip source).toList = blankAll source.toList := String.toList_ofList
  have hclean := clean_blankAll source.toList
  rw [htext]
  refine ⟨hclean.line, hclean.block, ?_, ?_⟩
  · rw [strip, htext, hclean.blankAll_eq_self]
    rfl
  · rw [tokenize, htext, hclean.blankAll_eq_self]
    rfl

end Comment

end Varlet
