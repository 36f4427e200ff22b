import Varlet.Proofs.Lexing.Spaced

namespace Varlet.Comment

lemma blankLines_gap {gap : List Char} (hg : ∀ c ∈ gap, c ≠ '/') (right : List Char) :
    blankLines false (gap ++ right) = gap ++ blankLines false right := by
  induction gap with
  | nil => rfl
  | cons c gap ih =>
    rw [List.forall_mem_cons] at hg
    simp [blankLines, hg.1, ih hg.2]

lemma blankBlocks_gap {gap : List Char} (hg : ∀ c ∈ gap, c ≠ '/') (right : List Char) :
    blankBlocks 0 (gap ++ right) = gap ++ blankBlocks 0 right := by
  induction gap with
  | nil => rfl
  | cons c gap ih =>
    rw [List.forall_mem_cons] at hg
    simp [blankBlocks, hg.1, ih hg.2]

lemma blankLines_append (inside : Bool) (cs ds : List Char) :
    blankLines inside (cs ++ '\n' :: ds) =
      blankLines inside cs ++ '\n' :: blankLines false ds := by
  induction cs generalizing inside with
  | nil => simp [blankLines]
  | cons c cs ih =>
    have hhead : ((cs ++ '\n' :: ds).head? == some '/') = (cs.head? == some '/') := by
      cases cs <;> simp
    simp only [List.cons_append, blankLines, hhead, ih]
    split
    · rfl
    · split <;> rfl

lemma closing?_append {cs : List Char} {n : ℕ} (h : closing? cs = some n) (ds : List Char) :
    closing? (cs ++ ds) = some n := by
  induction cs generalizing n with
  | nil => simp [closing?] at h
  | cons c cs ih =>
    rw [closing?] at h
    rw [List.cons_append, closing?]
    split at h
    · next hc =>
      obtain ⟨rfl, hhead⟩ := hc
      simpa [List.head?_append, hhead] using h
    · next hc =>
      obtain ⟨m, hm, rfl⟩ := Option.map_eq_some_iff.mp h
      obtain ⟨d, cs, rfl⟩ : ∃ d ds, cs = d :: ds := by
        cases cs with
        | nil => simp [closing?] at hm
        | cons d ds => exact ⟨d, ds, rfl⟩
      rw [if_neg (by simpa using hc), ih hm]
      rfl

lemma closing?_le {cs : List Char} {n : ℕ} (h : closing? cs = some n) : n ≤ cs.length := by
  induction cs generalizing n with
  | nil => simp [closing?] at h
  | cons c cs ih =>
    rw [closing?] at h
    split at h
    · next hc =>
      obtain ⟨rfl⟩ := h
      cases cs with
      | nil => simp at hc
      | cons d cs => simp
    · obtain ⟨m, hm, rfl⟩ := Option.map_eq_some_iff.mp h
      exact Nat.succ_le_succ (ih hm)

lemma Free.of_cons {c : Char} {cs : List Char} (h : Free (c :: cs)) : Free cs :=
  (List.isChain_cons.mp h).2

lemma blankBlocks_append {inside : ℕ} {cs : List Char} (hn : inside ≤ cs.length)
    (h : Free (blankBlocks inside cs)) (ds : List Char) :
    blankBlocks inside (cs ++ '\n' :: ds) =
      blankBlocks inside cs ++ '\n' :: blankBlocks 0 ds := by
  induction cs generalizing inside with
  | nil =>
    obtain rfl : inside = 0 := Nat.le_zero.mp hn
    simp [blankBlocks]
  | cons c cs ih =>
    cases inside with
    | succ n =>
      simp only [List.cons_append, blankBlocks] at h ⊢
      rw [ih (Nat.le_of_succ_le_succ hn) h.of_cons]
    | zero =>
      have hhead : (cs ++ '\n' :: ds).head? = some '*' ↔ cs.head? = some '*' := by
        cases cs <;> simp
      by_cases hopen : c = '/' ∧ cs.head? = some '*'
      · simp only [List.cons_append, blankBlocks, hhead, if_pos hopen] at h ⊢
        obtain ⟨cs, rfl⟩ := List.head?_eq_some_iff.mp hopen.2
        simp only [List.cons_append, List.tail_cons] at h ⊢
        cases hclose : closing? cs with
        | none =>
          rw [hclose] at h
          obtain ⟨hstar, -⟩ := List.isChain_cons.mp h
          exact absurd rfl (hstar _ rfl hopen.1).2
        | some n =>
          rw [hclose] at h
          rw [closing?_append hclose]
          exact congrArg _ (ih (Nat.succ_le_succ (closing?_le hclose)) h.of_cons)
      · simp only [List.cons_append, blankBlocks, hhead, if_neg hopen] at h ⊢
        rw [ih (Nat.zero_le _) h.of_cons]

lemma blankAll_append {cs : List Char} (h : Free (blankAll cs)) (ds : List Char) :
    blankAll (cs ++ '\n' :: ds) = blankAll cs ++ '\n' :: blankAll ds := by
  rw [blankAll, blankLines_append, blankBlocks_append (Nat.zero_le _) h, ← blankAll, ← blankAll]

end Varlet.Comment
