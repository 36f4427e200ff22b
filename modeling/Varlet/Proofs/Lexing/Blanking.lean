import Varlet.Proofs.Lexing.MaximalMunch

/-! A text whose comments were blanked has the length and the line breaks of the original, and all
of its characters but layout stand where they stood there. -/

namespace Varlet

open Text

namespace Comment

def Blanks (c d : Char) : Prop := d = c ∨ d = blank c

def Blanked : List Char → List Char → Prop := List.Forall₂ Blanks

lemma blank_eq_newline_iff {c : Char} : blank c = '\n' ↔ c = '\n' := by
  by_cases h : c = '\n' <;> simp [blank, h]

lemma isLayout_blank (c : Char) : isLayout (blank c) := by
  by_cases h : c = '\n' <;> simp [blank, isLayout, isSpace, h]

namespace Blanks

variable {c d e : Char}

lemma refl (c : Char) : Blanks c c := .inl rfl

lemma trans (h : Blanks c d) (h' : Blanks d e) : Blanks c e := by
  have hblank : blank (blank c) = blank c := by
    by_cases hc : c = '\n' <;> simp [blank, hc]
  rcases h with rfl | rfl
  · exact h'
  · rcases h' with rfl | rfl
    · exact .inr rfl
    · exact .inr hblank

lemma newline (h : Blanks c d) : c = '\n' ↔ d = '\n' := by
  rcases h with rfl | rfl
  · exact Iff.rfl
  · exact blank_eq_newline_iff.symm

lemma eq_of_not_layout (h : Blanks c d) (hd : ¬ isLayout d) : c = d := by
  rcases h with rfl | rfl
  · rfl
  · exact absurd (isLayout_blank c) hd

end Blanks

lemma blanked_refl (cs : List Char) : Blanked cs cs := by
  induction cs with
  | nil => exact .nil
  | cons c cs ih => exact .cons (.refl c) ih

lemma blanked_blankLines (inside : Bool) (cs : List Char) : Blanked cs (blankLines inside cs) := by
  induction cs generalizing inside with
  | nil => exact .nil
  | cons c cs ih =>
    rw [blankLines]
    split_ifs with hc
    · exact .cons (.refl c) (ih _)
    · exact .cons (.inr (by simp [blank, hc])) (ih _)
    · exact .cons (.refl c) (ih _)

lemma blanked_blankBlocks (inside : ℕ) (cs : List Char) : Blanked cs (blankBlocks inside cs) := by
  induction cs generalizing inside with
  | nil => exact .nil
  | cons c cs ih =>
    cases inside with
    | succ n => exact .cons (.inr rfl) (ih n)
    | zero =>
      rw [blankBlocks]
      split_ifs with hopen
      · cases closing? cs.tail with
        | some n => exact .cons (.inr (by simp [blank, hopen.1])) (ih _)
        | none => exact blanked_refl (c :: cs)
      · exact .cons (.refl c) (ih 0)

namespace Blanked

variable {cs ds es : List Char}

lemma trans (h : Blanked cs ds) (h' : Blanked ds es) : Blanked cs es := by
  induction h generalizing es with
  | nil => exact h'
  | cons hc _ ih =>
    cases h' with
    | cons hd hrest => exact .cons (hc.trans hd) (ih hrest)

lemma exists_append (h : Blanked cs (ds ++ es)) :
    ∃ ds' es', cs = ds' ++ es' ∧ Blanked ds' ds ∧ Blanked es' es :=
  ⟨cs.take ds.length, cs.drop ds.length, (List.take_append_drop _ _).symm,
    List.forall₂_take_append _ _ _ h, List.forall₂_drop_append _ _ _ h⟩

lemma eq_of_not_layout (h : Blanked cs ds) (hd : ∀ d ∈ ds, ¬ isLayout d) : cs = ds := by
  induction h with
  | nil => rfl
  | cons hc _ ih =>
    rw [List.forall_mem_cons] at hd
    rw [hc.eq_of_not_layout hd.1, ih hd.2]

lemma after_eq (h : Blanked cs ds) (p : Position) : p.after cs = p.after ds := by
  induction h generalizing p with
  | nil => rfl
  | cons hc _ ih =>
    rw [Position.after_cons, Position.after_cons, Position.step, Position.step]
    simp only [hc.newline]
    exact ih _

lemma counted_eq (h : Blanked cs ds) : Position.counted cs = .counted ds := h.after_eq .start

end Blanked

lemma blanked_blankAll (cs : List Char) : Blanked cs (blankAll cs) :=
  (blanked_blankLines false cs).trans (blanked_blankBlocks 0 _)

end Comment

lemma IsWord.not_layout {left word right : List Char} {kind : Token.Kind}
    (h : IsWord left kind word right) : ∀ c ∈ word, ¬ isLayout c := by
  intro c hc hl
  obtain ⟨d, hp, rfl⟩ | ⟨-, hr⟩ | ⟨-, hr⟩ := h.shape
  · obtain rfl := List.mem_singleton.mp hc
    exact not_layout_of_punctuation hp hl
  · exact Single.not_digit (.inl hl) (hr.all c hc)
  · exact Single.not_letter (.inl hl) (hr.all c hc)

end Varlet
