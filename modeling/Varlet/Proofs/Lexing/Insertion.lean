import Varlet.Proofs.Lexing.Blanking
import Varlet.Proofs.Lexing.Comments
import Varlet.Proofs.Lexing.Words

/-! Layout put between two characters of a text. Next to a character that blanking leaves in place
it neither makes nor ends a comment, and at the border of a word it changes no word. -/

namespace Varlet

open Text

def Seam (left right : List Char) : Prop :=
  right = [] ∨ (∃ c ∈ left.getLast?, ¬ isLayout c) ∨ ∃ c ∈ right.head?, ¬ isLayout c

namespace Seam

variable {left right : List Char} {c : Char}

lemma of_cons (h : Seam (c :: left) right) (hc : isLayout c ∨ left ≠ []) : Seam left right := by
  rcases h with h | ⟨d, hd, hl⟩ | h
  · exact .inl h
  · cases left with
    | nil =>
      obtain rfl : c = d := by simpa using hd
      exact absurd (hc.resolve_right (by simp)) hl
    | cons e left => exact .inr (.inl ⟨d, by simpa using hd, hl⟩)
  · exact .inr (.inr h)

lemma length_le (h : Seam left right) {n : ℕ} (hn : n ≤ (left ++ right).length)
    (hl : ∀ c ∈ (left ++ right).take n, isLayout c) : n ≤ left.length := by
  by_contra hlt
  obtain ⟨m, hm⟩ : ∃ m, n = left.length + (m + 1) := ⟨n - left.length - 1, by omega⟩
  rw [hm, List.take_length_add_append, List.forall_mem_append] at hl
  rcases h with rfl | ⟨d, hd, hlayout⟩ | ⟨d, hd, hlayout⟩
  · simp at hn
    omega
  · exact hlayout (hl.1 d (List.mem_of_getLast? hd))
  · obtain ⟨right, rfl⟩ := List.head?_eq_some_iff.mp hd
    exact hlayout (hl.2 d (by simp))

end Seam

namespace Comment

variable {left right left' right' gap : List Char}

lemma Blanked.exists_getLast? {cs ds : List Char} {d : Char} (h : Blanked cs ds)
    (hd : d ∈ ds.getLast?) : ∃ c ∈ cs.getLast?, Blanks c d := by
  obtain ⟨ds, rfl⟩ := List.getLast?_eq_some_iff.mp hd
  obtain ⟨cs', es, rfl, -, hes⟩ := h.exists_append
  obtain ⟨c, rest, hc, hrest, rfl⟩ := List.forall₂_cons_right_iff.mp hes
  obtain rfl := List.forall₂_nil_right_iff.mp hrest
  exact ⟨c, by simp, hc⟩

lemma Blanked.exists_head? {cs ds : List Char} {d : Char} (h : Blanked cs ds)
    (hd : d ∈ ds.head?) : ∃ c ∈ cs.head?, Blanks c d := by
  obtain ⟨ds, rfl⟩ := List.head?_eq_some_iff.mp hd
  obtain ⟨c, cs, hc, -, rfl⟩ := List.forall₂_cons_right_iff.mp h
  exact ⟨c, rfl, hc⟩

lemma Blanked.seam (hl : Blanked left left') (hr : Blanked right right') (h : Seam left' right') :
    Seam left right := by
  rcases h with rfl | ⟨d, hd, hlayout⟩ | ⟨d, hd, hlayout⟩
  · exact .inl (List.forall₂_nil_right_iff.mp hr)
  · obtain ⟨c, hc, hcd⟩ := hl.exists_getLast? hd
    exact .inr (.inl ⟨c, hc, hcd.eq_of_not_layout hlayout ▸ hlayout⟩)
  · obtain ⟨c, hc, hcd⟩ := hr.exists_head? hd
    exact .inr (.inr ⟨c, hc, hcd.eq_of_not_layout hlayout ▸ hlayout⟩)

lemma Blanked.layout {cs ds : List Char} (h : Blanked cs ds) (hc : ∀ c ∈ cs, isLayout c) :
    ∀ d ∈ ds, isLayout d := by
  induction h with
  | nil => simp
  | cons hcd _ ih =>
    rw [List.forall_mem_cons] at hc ⊢
    refine ⟨?_, ih hc.2⟩
    rcases hcd with rfl | rfl
    · exact hc.1
    · exact isLayout_blank _

lemma ne_of_layout {c d : Char} (hc : isLayout c) (hd : ¬ isLayout d) : c ≠ d := by
  rintro rfl
  exact hd hc

lemma not_layout_slash : ¬ isLayout '/' := by decide

lemma not_layout_star : ¬ isLayout '*' := by decide

lemma head?_of_insert {d : Char} (hg : ∀ c ∈ gap, isLayout c) (hd : ¬ isLayout d)
    (h : (left ++ gap ++ right).head? = some d) : (left ++ right).head? = some d := by
  cases left with
  | cons c left => exact h
  | nil =>
    cases gap with
    | nil => exact h
    | cons c gap =>
      obtain rfl : c = d := by simpa using h
      exact absurd (hg c (by simp)) hd

lemma ne_slash_of_layout (hg : ∀ c ∈ gap, isLayout c) : ∀ c ∈ gap, c ≠ '/' :=
  fun c hc => ne_of_layout (hg c hc) not_layout_slash

lemma opens_of_insert {inside : Bool} {x : Char} (hg : ∀ c ∈ gap, isLayout c)
    (h : inside || (x == '/' && (left ++ gap ++ right).head? == some '/')) :
    inside || (x == '/' && (left ++ right).head? == some '/') := by
  simp only [Bool.or_eq_true, Bool.and_eq_true, beq_iff_eq] at h ⊢
  rcases h with h | ⟨hx, hd⟩
  · exact .inl h
  · exact .inr ⟨hx, head?_of_insert hg not_layout_slash hd⟩

lemma eq_nil_of_seam_inside (h : Seam [] (blankLines true right)) : right = [] := by
  cases right with
  | nil => rfl
  | cons c right =>
    have hlayout : ∀ d ∈ (blankLines true (c :: right)).head?, isLayout d := by
      by_cases hc : c = '\n' <;> simp [blankLines, hc, isLayout, isSpace]
    rcases h with h | ⟨d, hd, -⟩ | ⟨d, hd, hl⟩
    · simpa [h] using (blanked_blankLines true (c :: right)).length_eq
    · cases hd
    · exact absurd (hlayout d hd) hl

lemma blankLines_insert {inside : Bool} (hg : ∀ c ∈ gap, isLayout c)
    (h : blankLines inside (left ++ right) = left' ++ right') (hl : left.length = left'.length)
    (hs : Seam left' right') :
    ∃ gap', (∀ c ∈ gap', isLayout c) ∧
      blankLines inside (left ++ gap ++ right) = left' ++ gap' ++ right' := by
  induction left generalizing inside left' with
  | nil =>
    obtain rfl : left' = [] := List.length_eq_zero_iff.mp hl.symm
    obtain rfl : blankLines inside right = right' := h
    cases inside with
    | false => exact ⟨gap, hg, blankLines_gap (ne_slash_of_layout hg) right⟩
    | true =>
      obtain rfl := eq_nil_of_seam_inside hs
      exact ⟨blankLines true gap, (blanked_blankLines true gap).layout hg, by simp [blankLines]⟩
  | cons x left ih =>
    obtain ⟨y, left', rfl⟩ := List.exists_cons_of_length_eq_add_one hl.symm
    have hl' : left.length = left'.length := by simpa using hl
    simp only [List.cons_append, blankLines] at h ⊢
    have hstep {next : Bool} {d : Char} (heq : d :: blankLines next (left ++ right) =
        y :: (left' ++ right')) (hs' : Seam left' right') :
        ∃ gap', (∀ c ∈ gap', isLayout c) ∧
          d :: blankLines next (left ++ gap ++ right) = y :: (left' ++ gap' ++ right') := by
      obtain ⟨rfl, htail⟩ := List.cons.inj heq
      obtain ⟨gap', hgap', heq'⟩ := ih htail hl' hs'
      exact ⟨gap', hgap', by rw [heq']⟩
    by_cases hx : x = '\n'
    · rw [if_pos hx] at h ⊢
      obtain ⟨rfl, -⟩ := List.cons.inj h
      exact hstep h (hs.of_cons (.inl (by simp [hx, isLayout, isSpace])))
    · rw [if_neg hx] at h ⊢
      split_ifs at h with hopen
      · obtain ⟨rfl, htail⟩ := List.cons.inj h
        have hs' : Seam left' right' := hs.of_cons (.inl rfl)
        have hopen' : inside || (x == '/' && (left ++ gap ++ right).head? == some '/') := by
          cases left with
          | cons c left => exact hopen
          | nil =>
            -- A comment that began at the seam would blank both sides of it.
            obtain rfl : left' = [] := List.length_eq_zero_iff.mp hl'.symm
            obtain rfl : blankLines true right = right' := htail
            obtain rfl := eq_nil_of_seam_inside hs'
            obtain rfl : inside = true := by simpa using hopen
            rfl
        rw [if_pos hopen']
        exact hstep h hs'
      · rw [if_neg (mt (opens_of_insert hg) hopen)]
        cases left with
        | nil =>
          obtain rfl : left' = [] := List.length_eq_zero_iff.mp hl'.symm
          obtain ⟨rfl, rfl⟩ := List.cons.inj h
          exact ⟨gap, hg, congrArg _ (blankLines_gap (ne_slash_of_layout hg) right)⟩
        | cons c left =>
          exact hstep h (hs.of_cons (.inr (List.ne_nil_of_length_eq_add_one hl'.symm)))

section

variable {x : Char} {cs : List Char}

lemma blankBlocks_plain (h : ¬ (x = '/' ∧ cs.head? = some '*')) :
    blankBlocks 0 (x :: cs) = x :: blankBlocks 0 cs := by
  rw [blankBlocks, if_neg h]

lemma blankBlocks_closed {n : ℕ} (hx : x = '/') (hd : cs.head? = some '*')
    (h : closing? cs.tail = some n) : blankBlocks 0 (x :: cs) = ' ' :: blankBlocks (n + 1) cs := by
  rw [blankBlocks, if_pos ⟨hx, hd⟩, h]

lemma blankBlocks_unclosed (hx : x = '/') (hd : cs.head? = some '*')
    (h : closing? cs.tail = none) : blankBlocks 0 (x :: cs) = x :: cs := by
  rw [blankBlocks, if_pos ⟨hx, hd⟩, h]

end

lemma closing?_cons_eq_none {c : Char} {cs : List Char} :
    closing? (c :: cs) = none ↔ ¬ (c = '*' ∧ cs.head? = some '/') ∧ closing? cs = none := by
  rw [closing?]
  split_ifs with hc
  · simp [hc]
  · simp [hc]

lemma closing?_tail_eq_none {cs : List Char} (h : closing? cs = none) : closing? cs.tail = none := by
  cases cs with
  | nil => rfl
  | cons c cs => exact (closing?_cons_eq_none.mp h).2

lemma blankBlocks_of_closing?_eq_none {cs : List Char} (h : closing? cs = none) :
    blankBlocks 0 cs = cs := by
  induction cs with
  | nil => rfl
  | cons c cs ih =>
    have hcs := (closing?_cons_eq_none.mp h).2
    simp only [blankBlocks, closing?_tail_eq_none hcs, ih hcs, ite_self]

lemma closing?_insert_eq_none (hg : ∀ c ∈ gap, isLayout c) (h : closing? (left ++ right) = none) :
    closing? (left ++ gap ++ right) = none := by
  induction left with
  | nil =>
    induction gap with
    | nil => exact h
    | cons c gap ih =>
      rw [List.forall_mem_cons] at hg
      exact closing?_cons_eq_none.mpr
        ⟨fun hc => ne_of_layout hg.1 not_layout_star hc.1, ih hg.2⟩
  | cons c left ih =>
    obtain ⟨hc, hrest⟩ := closing?_cons_eq_none.mp h
    exact closing?_cons_eq_none.mpr
      ⟨fun ⟨hstar, hd⟩ => hc ⟨hstar, head?_of_insert hg not_layout_slash hd⟩, ih hrest⟩

lemma two_le_of_closing? {cs : List Char} {n : ℕ} (h : closing? cs = some n) : 2 ≤ n := by
  induction cs generalizing n with
  | nil => cases h
  | cons c cs ih =>
    rw [closing?] at h
    split_ifs at h
    · exact (Option.some.inj h).le
    · obtain ⟨m, hm, rfl⟩ := Option.map_eq_some_iff.mp h
      exact Nat.le_succ_of_le (ih hm)

lemma closing?_of_append {n : ℕ} (h : closing? (left ++ right) = some n) (hn : n ≤ left.length) :
    closing? left = some n := by
  have htwo := (two_le_of_closing? h).trans hn
  induction left generalizing n with
  | nil => simp at htwo
  | cons c left ih =>
    obtain ⟨d, left, rfl⟩ : ∃ d ds, left = d :: ds :=
      List.exists_cons_of_length_pos (Nat.le_of_succ_le_succ htwo)
    rw [List.cons_append, closing?] at h
    rw [closing?]
    split_ifs at h with hc
    · rw [if_pos (by simpa using hc), ← h]
    · obtain ⟨m, hm, rfl⟩ := Option.map_eq_some_iff.mp h
      have hle : m ≤ (d :: left).length := Nat.le_of_succ_le_succ hn
      rw [if_neg (by simpa using hc), ih hm hle ((two_le_of_closing? hm).trans hle)]
      rfl

lemma take_blankBlocks_layout (n : ℕ) (cs : List Char) :
    ∀ c ∈ (blankBlocks n cs).take n, isLayout c := by
  induction cs generalizing n with
  | nil => simp [blankBlocks]
  | cons c cs ih =>
    cases n with
    | zero => simp
    | succ n =>
      rw [blankBlocks, List.take_succ_cons, List.forall_mem_cons]
      exact ⟨isLayout_blank c, ih n⟩

lemma inside_le_length {inside : ℕ} (h : blankBlocks inside (left ++ right) = left' ++ right')
    (hl : left.length = left'.length) (hs : Seam left' right')
    (hn : inside ≤ (left ++ right).length) : inside ≤ left.length := by
  rw [hl]
  apply hs.length_le
  · rwa [← h, ← (blanked_blankBlocks inside (left ++ right)).length_eq]
  · rw [← h]
    exact take_blankBlocks_layout inside _

lemma blankBlocks_insert_unclosed {x : Char} (hg : ∀ c ∈ gap, isLayout c) (hx : x = '/')
    (hd : (left ++ right).head? = some '*') (hclose : closing? (left ++ right).tail = none) :
    blankBlocks 0 (x :: (left ++ gap ++ right)) = x :: (left ++ gap ++ right) := by
  cases left with
  | cons c left => exact blankBlocks_unclosed hx hd (closing?_insert_eq_none hg hclose)
  | nil =>
    cases gap with
    | nil => exact blankBlocks_unclosed hx hd hclose
    | cons c gap =>
      obtain ⟨right, rfl⟩ : ∃ cs, right = '*' :: cs := List.head?_eq_some_iff.mp hd
      have hrest : blankBlocks 0 right = right := blankBlocks_of_closing?_eq_none hclose
      have hopen : ¬ (x = '/' ∧ ([] ++ (c :: gap) ++ '*' :: right).head? = some '*') :=
        fun h => ne_of_layout (hg c (by simp)) not_layout_star (Option.some.inj h.2)
      have hstar : ¬ ('*' = '/' ∧ right.head? = some '*') := fun h => absurd h.1 (by decide)
      rw [blankBlocks_plain hopen, List.nil_append, blankBlocks_gap (ne_slash_of_layout hg),
        blankBlocks_plain hstar, hrest]

lemma blankBlocks_insert {inside : ℕ} (hg : ∀ c ∈ gap, isLayout c)
    (h : blankBlocks inside (left ++ right) = left' ++ right') (hl : left.length = left'.length)
    (hs : Seam left' right') (hn : inside ≤ (left ++ right).length) :
    blankBlocks inside (left ++ gap ++ right) = left' ++ gap ++ right' := by
  induction left generalizing inside left' with
  | nil =>
    obtain rfl : left' = [] := List.length_eq_zero_iff.mp hl.symm
    obtain rfl : inside = 0 := Nat.le_zero.mp (inside_le_length h hl hs hn)
    obtain rfl : blankBlocks 0 right = right' := h
    exact blankBlocks_gap (ne_slash_of_layout hg) right
  | cons x left ih =>
    obtain ⟨y, left', rfl⟩ := List.exists_cons_of_length_eq_add_one hl.symm
    have hl' : left.length = left'.length := by simpa using hl
    simp only [List.cons_append] at h ⊢
    cases inside with
    | succ n =>
      obtain ⟨rfl, htail⟩ := List.cons.inj h
      have hs' : Seam left' right' := hs.of_cons (.inl (isLayout_blank x))
      exact congrArg _ (ih htail hl' hs' (Nat.le_of_succ_le_succ hn))
    | zero =>
      by_cases hopen : x = '/' ∧ (left ++ right).head? = some '*'
      · obtain ⟨hx, hd⟩ := hopen
        cases hclose : closing? (left ++ right).tail with
        | none =>
          rw [blankBlocks_unclosed hx hd hclose] at h
          obtain ⟨rfl, htail⟩ := List.cons.inj h
          obtain ⟨rfl, rfl⟩ := List.append_inj htail hl'
          exact blankBlocks_insert_unclosed hg hx hd hclose
        | some n =>
          rw [blankBlocks_closed hx hd hclose] at h
          obtain ⟨rfl, htail⟩ := List.cons.inj h
          have hs' : Seam left' right' := hs.of_cons (.inl rfl)
          have hn' : n + 1 ≤ (left ++ right).length := by
            obtain ⟨cs, hcs⟩ := List.head?_eq_some_iff.mp hd
            rw [hcs] at hclose ⊢
            exact Nat.succ_le_succ (closing?_le hclose)
          have hinside := inside_le_length htail hl' hs' hn'
          have hrest := ih htail hl' hs' hn'
          obtain ⟨c, left, rfl⟩ := List.exists_cons_of_length_pos (n.succ_pos.trans_le hinside)
          have hclose' := closing?_append
            (closing?_of_append hclose (Nat.le_of_succ_le_succ hinside)) (gap ++ right)
          rw [← List.append_assoc] at hclose'
          have hd' : (c :: left ++ gap ++ right).head? = some '*' := hd
          rw [blankBlocks_closed hx hd' hclose', hrest]
      · have hopen' : ¬ (x = '/' ∧ (left ++ gap ++ right).head? = some '*') :=
          fun hnew => hopen ⟨hnew.1, head?_of_insert hg not_layout_star hnew.2⟩
        rw [blankBlocks_plain hopen] at h
        rw [blankBlocks_plain hopen']
        obtain ⟨rfl, htail⟩ := List.cons.inj h
        cases left with
        | nil =>
          obtain rfl : left' = [] := List.length_eq_zero_iff.mp hl'.symm
          obtain rfl : blankBlocks 0 right = right' := htail
          exact congrArg _ (blankBlocks_gap (ne_slash_of_layout hg) right)
        | cons c left =>
          have hs' := hs.of_cons (.inr (List.ne_nil_of_length_eq_add_one hl'.symm))
          exact congrArg _ (ih htail hl' hs' (Nat.zero_le _))

lemma blankAll_insert (hg : ∀ c ∈ gap, isLayout c) (h : blankAll (left ++ right) = left' ++ right')
    (hl : left.length = left'.length) (hs : Seam left' right') :
    ∃ gap', (∀ c ∈ gap', isLayout c) ∧
      blankAll (left ++ gap ++ right) = left' ++ gap' ++ right' := by
  have hblanked := blanked_blankBlocks 0 (blankLines false (left ++ right))
  rw [← blankAll, h] at hblanked
  obtain ⟨ml, mr, hlines, hml, hmr⟩ := hblanked.exists_append
  have hlen : left.length = ml.length := hl.trans hml.length_eq.symm
  obtain ⟨gap', hg', heq⟩ := blankLines_insert hg hlines hlen (hml.seam hmr hs)
  refine ⟨gap', hg', ?_⟩
  rw [blankAll, heq]
  apply blankBlocks_insert hg' _ hml.length_eq hs (Nat.zero_le _)
  rw [← hlines, ← blankAll, h]

end Comment

end Varlet
