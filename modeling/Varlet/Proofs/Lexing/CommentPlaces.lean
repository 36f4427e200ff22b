import Varlet.Proofs.Lexing.Blanking
import Varlet.Proofs.Lexing.Insertion

/-! Where comments stand: line comments from the first `//` of a line on, block comments one behind
the other, each up to the nearest `*/`. -/

namespace Varlet.Comment

variable {a b c : Char} {cs text : List Char} {i j k start : ℕ}

def Mark (a b : Char) (cs : List Char) (i : ℕ) : Prop := cs[i]? = some a ∧ cs[i + 1]? = some b

instance : DecidablePred (Mark a b cs) := fun i =>
  inferInstanceAs (Decidable (cs[i]? = some a ∧ cs[i + 1]? = some b))

lemma mark_zero : Mark a b (c :: cs) 0 ↔ c = a ∧ cs.head? = some b := by
  simp [Mark, List.head?_eq_getElem?]

lemma not_mark_nil : ¬ Mark a b [] i := by simp [Mark]

lemma mark_drop : Mark a b (text.drop k) i ↔ Mark a b text (k + i) := by
  simp [Mark, List.getElem?_drop, add_assoc]

def blankWhere (p : ℕ → Prop) [DecidablePred p] (cs : List Char) : List Char :=
  cs.mapIdx fun i c => if p i then blank c else c

section

variable {p q : ℕ → Prop} [DecidablePred p] [DecidablePred q]

lemma blankWhere_cons : blankWhere p (c :: cs) =
    (if p 0 then blank c else c) :: blankWhere (fun i => p (i + 1)) cs :=
  List.mapIdx_cons

lemma blankWhere_congr (h : ∀ i, p i ↔ q i) : blankWhere p cs = blankWhere q cs := by
  simp only [blankWhere, h]

lemma blankWhere_of_not (h : ∀ i, ¬ p i) : blankWhere p cs = cs := by
  simp only [blankWhere, h, if_false]
  exact List.ext_getElem? (by simp)

lemma getElem?_blankWhere :
    (blankWhere p cs)[i]? = cs[i]?.map fun c => if p i then blank c else c := by
  simp [blankWhere]

end

def InLineComment (cs : List Char) (i : ℕ) : Prop :=
  ∃ j ≤ i, Mark '/' '/' cs j ∧ ∀ k, j ≤ k → k < i → cs[k]? ≠ some '\n'

instance : DecidablePred (InLineComment cs) := fun i =>
  inferInstanceAs (Decidable (∃ j ≤ i, Mark '/' '/' cs j ∧ ∀ k, j ≤ k → k < i → cs[k]? ≠ some '\n'))

def Unbroken (cs : List Char) (i : ℕ) : Prop := ∀ k < i, cs[k]? ≠ some '\n'

instance : DecidablePred (Unbroken cs) := fun i =>
  inferInstanceAs (Decidable (∀ k < i, cs[k]? ≠ some '\n'))

lemma unbroken_zero : Unbroken cs 0 := by simp [Unbroken]

lemma unbroken_succ : Unbroken (c :: cs) (i + 1) ↔ c ≠ '\n' ∧ Unbroken cs i := by
  constructor
  · intro h
    refine ⟨fun hc => h 0 (by omega) (by simp [hc]), fun k hk => ?_⟩
    simpa using h (k + 1) (by omega)
  · rintro ⟨hc, h⟩ k hk
    cases k with
    | zero => simpa using hc
    | succ k => simpa using h k (by omega)

lemma inLineComment_zero : InLineComment (c :: cs) 0 ↔ c = '/' ∧ cs.head? = some '/' := by
  simp [InLineComment, mark_zero]

lemma inLineComment_succ : InLineComment (c :: cs) (i + 1) ↔
    (c = '/' ∧ cs.head? = some '/') ∧ Unbroken cs i ∨ InLineComment cs i := by
  constructor
  · rintro ⟨j, hj, hm, h⟩
    cases j with
    | zero =>
      rw [mark_zero] at hm
      refine .inl ⟨hm, fun k hk => ?_⟩
      simpa using h (k + 1) (by omega) (by omega)
    | succ j =>
      refine .inr ⟨j, by omega, hm, fun k hjk hk => ?_⟩
      simpa using h (k + 1) (by omega) (by omega)
  · rintro (⟨hm, h⟩ | ⟨j, hj, hm, h⟩)
    · refine ⟨0, by omega, mark_zero.mpr hm, fun k _ hk => ?_⟩
      exact unbroken_succ.mpr ⟨by simp [hm.1], h⟩ k hk
    · refine ⟨j + 1, by omega, hm, fun k hjk hk => ?_⟩
      obtain ⟨k, rfl⟩ : ∃ l, k = l + 1 := ⟨k - 1, by omega⟩
      simpa using h k (by omega) (by omega)

lemma blankLines_eq_blankWhere (inside : Bool) (cs : List Char) :
    blankLines inside cs = blankWhere (fun i => InLineComment cs i ∨ inside ∧ Unbroken cs i) cs := by
  induction cs generalizing inside with
  | nil => rfl
  | cons c cs ih =>
    rw [blankLines, blankWhere_cons]
    simp only [inLineComment_zero, inLineComment_succ, unbroken_zero, unbroken_succ, and_true]
    by_cases hc : c = '\n'
    · rw [if_pos hc, ih]
      refine congrArg₂ List.cons (by simp [blank, hc]) (blankWhere_congr fun i => ?_)
      simp [hc]
    · rw [if_neg hc]
      by_cases hopen : (c = '/' ∧ cs.head? = some '/') ∨ inside
      · rw [if_pos (by simpa [or_comm] using hopen), if_pos hopen, ih]
        refine congrArg₂ List.cons (by simp [blank, hc]) (blankWhere_congr fun i => ?_)
        simp only [true_and]
        tauto
      · rw [if_neg (by simpa [or_comm] using hopen), if_neg hopen, ih]
        refine congrArg₂ List.cons rfl (blankWhere_congr fun i => ?_)
        simp only [Bool.false_eq_true, false_and]
        tauto

structure FirstMark (a b : Char) (cs : List Char) (start i : ℕ) : Prop where
  le : start ≤ i
  mark : Mark a b cs i
  not_mark : ∀ k, start ≤ k → k < i → ¬ Mark a b cs k

/-- The block comments at `start` or behind it, each with its first place and the place behind its
last one. The search ends at an opening that nothing closes. -/
inductive Blocks (cs : List Char) : ℕ → List (ℕ × ℕ) → Prop
  | none {start : ℕ} : (∀ i, start ≤ i → ¬ Mark '/' '*' cs i) → Blocks cs start []
  | unclosed {start i : ℕ} : FirstMark '/' '*' cs start i → (∀ j, i + 2 ≤ j → ¬ Mark '*' '/' cs j) →
      Blocks cs start []
  | closed {start i j : ℕ} {blocks} : FirstMark '/' '*' cs start i → FirstMark '*' '/' cs (i + 2) j →
      Blocks cs (j + 2) blocks → Blocks cs start ((i, j + 2) :: blocks)

lemma FirstMark.unique (h : FirstMark a b cs start i) (h' : FirstMark a b cs start j) : i = j := by
  rcases lt_trichotomy i j with hlt | heq | hlt
  · exact absurd h.mark (h'.not_mark i h.le hlt)
  · exact heq
  · exact absurd h'.mark (h.not_mark j h'.le hlt)

lemma FirstMark.of_succ (h : FirstMark a b cs (start + 1) i) (hs : ¬ Mark a b cs start) :
    FirstMark a b cs start i where
  le := (Nat.le_succ start).trans h.le
  mark := h.mark
  not_mark k hk hki := by
    rcases hk.eq_or_lt with rfl | hlt
    · exact hs
    · exact h.not_mark k hlt hki

namespace Blocks

variable {blocks others : List (ℕ × ℕ)}

lemma unique (h : Blocks cs start blocks) (h' : Blocks cs start others) : blocks = others := by
  induction h generalizing others with
  | none hn =>
    cases h' with
    | none _ => rfl
    | unclosed _ _ => rfl
    | closed hi _ _ => exact absurd hi.mark (hn _ hi.le)
  | unclosed hi hj =>
    cases h' with
    | none _ => rfl
    | unclosed _ _ => rfl
    | closed hi' hj' _ =>
      obtain rfl := hi.unique hi'
      exact absurd hj'.mark (hj _ hj'.le)
  | closed hi hj _ ih =>
    cases h' with
    | none hn => exact absurd hi.mark (hn _ hi.le)
    | unclosed hi' hj' =>
      obtain rfl := hi.unique hi'
      exact absurd hj.mark (hj' _ hj.le)
    | closed hi' hj' hrest =>
      obtain rfl := hi.unique hi'
      obtain rfl := hj.unique hj'
      rw [ih hrest]

lemma of_succ (h : Blocks cs (start + 1) blocks) (hs : ¬ Mark '/' '*' cs start) :
    Blocks cs start blocks := by
  cases h with
  | none hn =>
    refine .none fun i hi => ?_
    rcases hi.eq_or_lt with rfl | hlt
    · exact hs
    · exact hn i hlt
  | unclosed hi hj => exact .unclosed (hi.of_succ hs) hj
  | closed hi hj hrest => exact .closed (hi.of_succ hs) hj hrest

lemma le_of_mem (h : Blocks cs start blocks) : ∀ b ∈ blocks, start ≤ b.1 := by
  induction h with
  | none _ => simp
  | unclosed _ _ => simp
  | closed hi hj _ ih =>
    rw [List.forall_mem_cons]
    refine ⟨hi.le, fun b hb => ?_⟩
    have := hi.le
    have := hj.le
    have := ih b hb
    omega

end Blocks

lemma blankBlocks_open_closed {n : ℕ} (h : closing? cs = some n) :
    blankBlocks 0 ('/' :: '*' :: cs) = ' ' :: blankBlocks (n + 1) ('*' :: cs) :=
  blankBlocks_closed rfl rfl h

lemma blankBlocks_open_unclosed (h : closing? cs = none) :
    blankBlocks 0 ('/' :: '*' :: cs) = '/' :: '*' :: cs :=
  blankBlocks_unclosed rfl rfl h

lemma blankLines_inside (h : '\n' ∉ cs.dropLast) : blankLines true cs = cs.map blank := by
  induction cs with
  | nil => rfl
  | cons c cs ih =>
    cases cs with
    | nil => by_cases hc : c = '\n' <;> simp [blankLines, blank, hc]
    | cons d cs =>
      rw [List.dropLast_cons_cons, List.mem_cons, not_or] at h
      rw [blankLines, if_neg (Ne.symm h.1), ih h.2]
      simp [blank, Ne.symm h.1]

lemma blankBlocks_inside (cs rest : List Char) (n : ℕ) :
    blankBlocks (cs.length + n) (cs ++ rest) = cs.map blank ++ blankBlocks n rest := by
  induction cs with
  | nil => simp
  | cons c cs ih =>
    rw [List.length_cons, Nat.add_right_comm, List.cons_append, blankBlocks, ih]
    rfl

lemma firstMark_of_closing? {n : ℕ} (h : closing? cs = some n) :
    ∃ j, n = j + 2 ∧ FirstMark '*' '/' cs 0 j := by
  induction cs generalizing n with
  | nil => cases h
  | cons c cs ih =>
    rw [closing?] at h
    split_ifs at h with hc
    · exact ⟨0, by simpa using h.symm, le_rfl, mark_zero.mpr hc, by simp⟩
    · obtain ⟨m, hm, rfl⟩ := Option.map_eq_some_iff.mp h
      obtain ⟨j, rfl, hj⟩ := ih hm
      refine ⟨j + 1, rfl, Nat.zero_le _, hj.mark, fun k _ hk => ?_⟩
      cases k with
      | zero => rwa [mark_zero]
      | succ k => exact hj.not_mark k (Nat.zero_le _) (by omega)

lemma not_mark_of_closing? (h : closing? cs = none) (i : ℕ) : ¬ Mark '*' '/' cs i := by
  induction cs generalizing i with
  | nil => exact not_mark_nil
  | cons c cs ih =>
    obtain ⟨hc, hcs⟩ := closing?_cons_eq_none.mp h
    cases i with
    | zero => rwa [mark_zero]
    | succ i => exact ih hcs i

lemma FirstMark.of_drop (h : FirstMark a b (text.drop k) 0 i) : FirstMark a b text k (k + i) where
  le := Nat.le_add_right _ _
  mark := mark_drop.mp h.mark
  not_mark l hl hli := by
    obtain ⟨l, rfl⟩ := Nat.exists_eq_add_of_le hl
    rw [← mark_drop]
    exact h.not_mark l (Nat.zero_le _) (by omega)

def InBlock (blocks : List (ℕ × ℕ)) (i : ℕ) : Prop := ∃ b ∈ blocks, b.1 ≤ i ∧ i < b.2

instance {blocks : List (ℕ × ℕ)} : DecidablePred (InBlock blocks) := fun i =>
  inferInstanceAs (Decidable (∃ b ∈ blocks, b.1 ≤ i ∧ i < b.2))

def BlanksFrom (text : List Char) (k inside : ℕ) : Prop :=
  ∃ blocks, Blocks text (k + inside) blocks ∧ blankBlocks inside (text.drop k) =
    blankWhere (fun i => i < inside ∨ InBlock blocks (k + i)) (text.drop k)

section

variable {n : ℕ}

lemma drop_succ (h : text.drop k = c :: cs) : text.drop (k + 1) = cs := by
  rw [← List.drop_drop, h, List.drop_one, List.tail_cons]

lemma blanksFrom_end (h : text.drop k = []) : BlanksFrom text k 0 := by
  refine ⟨[], .none fun i hi => ?_, by simp [h, blankBlocks, blankWhere]⟩
  obtain ⟨l, rfl⟩ := Nat.exists_eq_add_of_le hi
  rw [Nat.add_zero, ← mark_drop, h]
  exact not_mark_nil

lemma BlanksFrom.inside (hk : text.drop k = c :: cs) (h : BlanksFrom text (k + 1) n) :
    BlanksFrom text k (n + 1) := by
  obtain ⟨blocks, hblocks, heq⟩ := h
  rw [drop_succ hk] at heq
  have hstart : k + (n + 1) = k + 1 + n := by omega
  refine ⟨blocks, by rwa [hstart], ?_⟩
  rw [hk, blankWhere_cons, blankBlocks, heq]
  refine congrArg₂ List.cons (by simp) (blankWhere_congr fun i => ?_)
  have hplace : k + (i + 1) = k + 1 + i := by omega
  simp [hplace]

lemma BlanksFrom.plain (hk : text.drop k = c :: cs) (hopen : ¬ (c = '/' ∧ cs.head? = some '*'))
    (h : BlanksFrom text (k + 1) 0) : BlanksFrom text k 0 := by
  obtain ⟨blocks, hblocks, heq⟩ := h
  rw [drop_succ hk] at heq
  have hmark : ¬ Mark '/' '*' text k := by
    rwa [← Nat.add_zero k, ← mark_drop, hk, mark_zero]
  refine ⟨blocks, hblocks.of_succ hmark, ?_⟩
  rw [hk, blankWhere_cons, blankBlocks_plain hopen, heq]
  refine congrArg₂ List.cons (if_neg ?_).symm (blankWhere_congr fun i => ?_)
  · rintro (hlt | ⟨b, hb, hle, -⟩)
    · omega
    · have := hblocks.le_of_mem b hb
      omega
  · have hplace : k + (i + 1) = k + 1 + i := by omega
    simp [hplace]

lemma firstMark_self (hk : text.drop k = '/' :: '*' :: cs) : FirstMark '/' '*' text k k :=
  ⟨le_rfl, by rw [← Nat.add_zero k, ← mark_drop, hk, mark_zero]; exact ⟨rfl, rfl⟩, by omega⟩

lemma blanksFrom_unclosed (hk : text.drop k = '/' :: '*' :: cs) (hclose : closing? cs = none) :
    BlanksFrom text k 0 := by
  refine ⟨[], .unclosed (firstMark_self hk) fun j hj => ?_, ?_⟩
  · obtain ⟨l, rfl⟩ := Nat.exists_eq_add_of_le hj
    rw [← mark_drop, drop_succ (drop_succ hk)]
    exact not_mark_of_closing? hclose l
  · rw [hk, blankWhere_of_not (by simp [InBlock])]
    exact blankBlocks_open_unclosed hclose

lemma BlanksFrom.closed (hk : text.drop k = '/' :: '*' :: cs) (hclose : closing? cs = some n)
    (h : BlanksFrom text (k + 1) (n + 1)) : BlanksFrom text k 0 := by
  obtain ⟨blocks, hblocks, heq⟩ := h
  rw [drop_succ hk] at heq
  obtain ⟨j, rfl, hj⟩ := firstMark_of_closing? hclose
  rw [← drop_succ (drop_succ hk)] at hj
  have hstart : k + 1 + (j + 2 + 1) = k + 2 + j + 2 := by omega
  rw [hstart] at hblocks
  refine ⟨(k, k + 2 + j + 2) :: blocks, .closed (firstMark_self hk) hj.of_drop hblocks, ?_⟩
  rw [hk, blankWhere_cons, blankBlocks_open_closed hclose, heq]
  refine congrArg₂ List.cons ?_ (blankWhere_congr fun i => ?_)
  · rw [if_pos (.inr ⟨_, List.mem_cons_self, le_rfl, by dsimp only; omega⟩)]
    rfl
  · have hplace : k + (i + 1) = k + 1 + i := by omega
    simp only [InBlock, List.exists_mem_cons_iff, hplace, ← or_assoc]
    refine or_congr_left ⟨fun hlt => .inr ⟨by omega, by omega⟩, ?_⟩
    rintro (hlt | hlt) <;> omega

lemma blanksFrom {inside : ℕ} (hk : text.drop k = cs) (hn : inside ≤ cs.length) :
    BlanksFrom text k inside := by
  induction cs generalizing k inside with
  | nil =>
    obtain rfl : inside = 0 := Nat.le_zero.mp hn
    exact blanksFrom_end hk
  | cons c cs ih =>
    cases inside with
    | succ n => exact (ih (drop_succ hk) (Nat.le_of_succ_le_succ hn)).inside hk
    | zero =>
      by_cases hopen : c = '/' ∧ cs.head? = some '*'
      · obtain ⟨rfl, hhead⟩ := hopen
        obtain ⟨cs, rfl⟩ := List.head?_eq_some_iff.mp hhead
        cases hclose : closing? cs with
        | none => exact blanksFrom_unclosed hk hclose
        | some n =>
          have hlength : n + 1 ≤ ('*' :: cs).length := Nat.succ_le_succ (closing?_le hclose)
          exact (ih (drop_succ hk) hlength).closed hk hclose
      · exact (ih (drop_succ hk) (Nat.zero_le _)).plain hk hopen

end

lemma blankLines_eq (cs : List Char) : blankLines false cs = blankWhere (InLineComment cs) cs := by
  rw [blankLines_eq_blankWhere]
  exact blankWhere_congr (by simp)

lemma exists_blocks_blankBlocks (cs : List Char) :
    ∃ blocks, Blocks cs 0 blocks ∧ blankBlocks 0 cs = blankWhere (InBlock blocks) cs := by
  have hwhole : cs.drop 0 = cs := rfl
  obtain ⟨blocks, hblocks, heq⟩ := blanksFrom hwhole (Nat.zero_le _)
  refine ⟨blocks, hblocks, heq.trans (blankWhere_congr fun i => ?_)⟩
  simp

end Varlet.Comment
