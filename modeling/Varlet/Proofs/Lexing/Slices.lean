import Varlet.Proofs.Lexing.CommentPlaces
import Varlet.Text.Slice

namespace Varlet

namespace Text

lemma ok_bind {α β : Type} (a : α) (f : α → Except SliceError β) : (Except.ok a >>= f) = f a := rfl

lemma slice_append (front piece rest : String) :
    slice (front ++ piece ++ rest) front.utf8ByteSize (front ++ piece).utf8ByteSize = .ok piece := by
  have hstart : String.Pos.Raw.IsValid (front ++ piece ++ rest) ⟨front.utf8ByteSize⟩ :=
    String.Pos.Raw.isValid_iff_exists_append.mpr
      ⟨front, piece ++ rest, String.append_assoc, rfl⟩
  have hstop : String.Pos.Raw.IsValid (front ++ piece ++ rest) ⟨(front ++ piece).utf8ByteSize⟩ :=
    String.Pos.Raw.isValid_iff_exists_append.mpr ⟨front ++ piece, rest, rfl, rfl⟩
  have hrange : front.utf8ByteSize ≤ (front ++ piece).utf8ByteSize ∧
      (front ++ piece).utf8ByteSize ≤ (front ++ piece ++ rest).utf8ByteSize := by
    simp only [String.utf8ByteSize_append]
    omega
  rw [slice, if_pos hrange, dif_pos ⟨hstart, hstop⟩]
  congr 1
  rw [← String.toByteArray_inj, String.toByteArray_extract, String.toByteArray_append]
  simp only [← String.size_toByteArray, ByteArray.extract_append_size_left]
  rw [String.toByteArray_append]
  exact ByteArray.extract_append_eq_right rfl ByteArray.size_append

def size (cs : List Char) : ℕ := (String.ofList cs).utf8ByteSize

lemma utf8ByteSize_ofList (cs : List Char) : (String.ofList cs).utf8ByteSize = size cs := rfl

lemma size_append (cs ds : List Char) : size (cs ++ ds) = size cs + size ds := by
  simp [size, String.ofList_append, String.utf8ByteSize_append]

lemma size_cons (c : Char) (cs : List Char) : size (c :: cs) = c.utf8Size + size cs := by
  simp [size, String.ofList_cons, String.utf8ByteSize_append]

lemma slice_eq {cs : List Char} {start stop : ℕ} (front piece rest : List Char)
    (h : cs = front ++ piece ++ rest) (hstart : start = size front)
    (hstop : stop = size (front ++ piece)) :
    slice (.ofList cs) start stop = .ok (.ofList piece) := by
  rw [h, hstart, hstop, size, size, String.ofList_append, String.ofList_append]
  exact slice_append _ _ _

lemma isPrefixOf_iff_mark {a b c : Char} {cs : List Char} :
    [a, b].isPrefixOf (c :: cs) ↔ Comment.Mark a b (c :: cs) 0 := by
  rw [Comment.mark_zero]
  cases cs with
  | nil => simp [List.isPrefixOf]
  | cons d cs => simp [List.isPrefixOf, eq_comm (a := a), eq_comm (a := b)]

lemma exists_of_find? {a b : Char} {cs : List Char} {n : ℕ} (h : find? [a, b] cs = some n) :
    ∃ front rest, cs = front ++ a :: b :: rest ∧ n = size front ∧
      ∀ i < front.length, ¬ Comment.Mark a b cs i := by
  induction cs generalizing n with
  | nil => simp [find?] at h
  | cons c cs ih =>
    rw [find?] at h
    split_ifs at h with hmark
    · obtain ⟨rest, heq⟩ := List.isPrefixOf_iff_prefix.mp hmark
      exact ⟨[], rest, heq.symm, (Option.some.inj h).symm, by simp⟩
    · obtain ⟨m, hm, rfl⟩ := Option.map_eq_some_iff.mp h
      obtain ⟨front, rest, rfl, rfl, hfirst⟩ := ih hm
      refine ⟨c :: front, rest, rfl, (size_cons c front).symm, fun i hi => ?_⟩
      cases i with
      | zero => exact mt isPrefixOf_iff_mark.mpr hmark
      | succ i => exact hfirst i (by simpa using hi)

lemma not_mark_of_find? {a b : Char} {cs : List Char} (h : find? [a, b] cs = none) (i : ℕ) :
    ¬ Comment.Mark a b cs i := by
  induction cs generalizing i with
  | nil => exact Comment.not_mark_nil
  | cons c cs ih =>
    rw [find?] at h
    split_ifs at h with hmark
    cases i with
    | zero => exact mt isPrefixOf_iff_mark.mpr hmark
    | succ i => exact ih (Option.map_eq_none_iff.mp h) i

lemma lines_of_not_mem {cs : List Char} (h : '\n' ∉ cs) (hne : cs ≠ []) : lines cs = [cs] := by
  induction cs with
  | nil => exact absurd rfl hne
  | cons c cs ih =>
    rw [List.mem_cons, not_or] at h
    rw [lines, if_neg (Ne.symm h.1)]
    cases cs with
    | nil => rfl
    | cons d cs => rw [ih h.2 (by simp)]

lemma lines_break {line : List Char} (h : '\n' ∉ line) (rest : List Char) :
    lines (line ++ '\n' :: rest) = (line ++ ['\n']) :: lines rest := by
  induction line with
  | nil => simp [lines]
  | cons c line ih =>
    rw [List.mem_cons, not_or] at h
    rw [List.cons_append, lines, if_neg (Ne.symm h.1), ih h.2]
    rfl

end Text

namespace Comment

open Text

variable {cs front rest : List Char}

lemma blankLines_append_of_not_mark
    (h : ∀ i < front.length, ¬ Mark '/' '/' (front ++ rest) i) :
    blankLines false (front ++ rest) = front ++ blankLines false rest := by
  induction front with
  | nil => rfl
  | cons c front ih =>
    have hopen : ¬ (c = '/' ∧ (front ++ rest).head? = some '/') := mark_zero.not.mp (h 0 (by simp))
    have hrest := ih fun i hi => h (i + 1) (by simpa using hi)
    rw [List.cons_append, blankLines, hrest]
    split_ifs with hc hnew
    · rfl
    · exact absurd (by simpa using hnew) hopen
    · rfl

lemma blankBlocks_append_of_not_mark
    (h : ∀ i < front.length, ¬ Mark '/' '*' (front ++ rest) i) :
    blankBlocks 0 (front ++ rest) = front ++ blankBlocks 0 rest := by
  induction front with
  | nil => rfl
  | cons c front ih =>
    have hopen : ¬ (c = '/' ∧ (front ++ rest).head? = some '*') := mark_zero.not.mp (h 0 (by simp))
    rw [List.cons_append, blankBlocks_plain hopen, ih fun i hi => h (i + 1) (by simpa using hi)]
    rfl

lemma blankText_ofList (cs : List Char) : blankText (.ofList cs) = .ofList (cs.map blank) := by
  rw [blankText, String.toList_ofList]

lemma blankLines_open (h : '\n' ∉ ('/' :: '/' :: rest).dropLast) :
    blankLines false ('/' :: '/' :: rest) = ('/' :: '/' :: rest).map blank := by
  have hopen : blankLines false ('/' :: '/' :: rest) = ' ' :: blankLines true ('/' :: rest) := rfl
  rw [List.dropLast_cons_cons, List.mem_cons, not_or] at h
  rw [hopen, blankLines_inside h.2]
  rfl

lemma sliceLine_eq {line : List Char} (h : '\n' ∉ line.dropLast) :
    sliceLine (.ofList line) = .ok (.ofList (blankLines false line)) := by
  rw [sliceLine, String.toList_ofList, utf8ByteSize_ofList]
  cases hfind : find? ['/', '/'] line with
  | none =>
    have hnot : ∀ i, ¬ InLineComment line i := fun i ⟨j, _, hmark, _⟩ =>
      not_mark_of_find? hfind j hmark
    rw [blankLines_eq, blankWhere_of_not hnot]
    rfl
  | some n =>
    obtain ⟨front, rest, hline, rfl, hfirst⟩ := exists_of_find? hfind
    have hfront : slice (.ofList line) 0 (size front) = .ok (.ofList front) :=
      slice_eq [] front _ hline rfl rfl
    have hcomment : slice (.ofList line) (size front) (size line) =
        .ok (.ofList ('/' :: '/' :: rest)) :=
      slice_eq front _ [] (by simp [hline]) rfl (by rw [hline])
    rw [hline, List.dropLast_append_of_ne_nil (by simp), List.mem_append, not_or] at h
    rw [hline] at hfirst
    have hblank : blankLines false line = front ++ ('/' :: '/' :: rest).map blank := by
      rw [hline, blankLines_append_of_not_mark hfirst, blankLines_open h.2]
    rw [hblank, String.ofList_append, ← blankText_ofList]
    simp only [hfront, hcomment]
    rfl

lemma sliceLines_eq (cs : List Char) :
    ∃ ls, (lines cs).mapM (fun line => sliceLine (.ofList line)) = .ok ls ∧
      (ls.map String.toList).flatten = blankLines false cs := by
  induction hn : cs.length using Nat.strong_induction_on generalizing cs with
  | _ n ih =>
    by_cases hmem : '\n' ∈ cs
    · obtain ⟨line, rest, rfl, hline⟩ := List.eq_append_cons_of_mem hmem
      obtain ⟨ls, hls, hflat⟩ := ih rest.length (by simp [← hn]; omega) rest rfl
      have hslice := sliceLine_eq (show '\n' ∉ (line ++ ['\n']).dropLast by simpa using hline)
      refine ⟨_, by rw [lines_break hline, List.mapM_cons, hslice, hls]; rfl, ?_⟩
      rw [List.map_cons, List.flatten_cons, hflat, String.toList_ofList, blankLines_append,
        blankLines_append]
      simp [blankLines]
    · cases cs with
      | nil => exact ⟨[], rfl, rfl⟩
      | cons c cs =>
        have hslice := sliceLine_eq (mt List.mem_of_mem_dropLast hmem)
        refine ⟨_, by rw [lines_of_not_mem hmem (by simp), List.mapM_cons, hslice]; rfl, ?_⟩
        simp

lemma closing?_eq_none_of_find? {cs : List Char} (h : find? ['*', '/'] cs = none) :
    closing? cs = none := by
  cases hclose : closing? cs with
  | none => rfl
  | some n =>
    obtain ⟨j, -, hj⟩ := firstMark_of_closing? hclose
    exact absurd hj.mark (not_mark_of_find? h j)

lemma closing?_of_not_mark {front rest : List Char}
    (h : ∀ i < front.length, ¬ Mark '*' '/' (front ++ '*' :: '/' :: rest) i) :
    closing? (front ++ '*' :: '/' :: rest) = some (front.length + 2) := by
  induction front with
  | nil => simp [closing?]
  | cons c front ih =>
    have hc : ¬ (c = '*' ∧ (front ++ '*' :: '/' :: rest).head? = some '/') :=
      mark_zero.not.mp (h 0 (by simp))
    rw [List.cons_append, closing?, if_neg hc, ih fun i hi => h (i + 1) (by simpa using hi)]
    rfl

lemma blankBlocks_block {inner : List Char}
    (h : ∀ i < inner.length, ¬ Mark '*' '/' (inner ++ '*' :: '/' :: rest) i) :
    blankBlocks 0 ('/' :: '*' :: (inner ++ '*' :: '/' :: rest)) =
      ('/' :: '*' :: (inner ++ ['*', '/'])).map blank ++ blankBlocks 0 rest := by
  have hinside := blankBlocks_inside ('*' :: (inner ++ ['*', '/'])) rest 0
  simp only [List.length_cons, List.length_append, List.length_nil, List.cons_append,
    List.append_assoc, List.nil_append] at hinside
  rw [blankBlocks_open_closed (closing?_of_not_mark h), hinside]
  rfl

lemma size_block (front inner : List Char) :
    size (front ++ '/' :: '*' :: (inner ++ ['*', '/'])) = size front + 2 + size inner + 2 := by
  have hopen : '/' :: '*' :: (inner ++ ['*', '/']) = ['/', '*'] ++ (inner ++ ['*', '/']) := rfl
  have hmark : size ['/', '*'] = 2 ∧ size ['*', '/'] = 2 := ⟨rfl, rfl⟩
  rw [hopen, size_append, size_append, size_append]
  omega

lemma nextBlock_eq (text : String) :
    nextBlock text = .ok none ∧ blankBlocks 0 text.toList = text.toList ∨
    ∃ b, nextBlock text = .ok (some b) ∧ blankBlocks 0 text.toList =
      b.front.toList ++ b.comment.toList.map blank ++ blankBlocks 0 b.rest.toList := by
  obtain ⟨cs, rfl⟩ : ∃ cs, text = .ofList cs := ⟨text.toList, String.ofList_toList.symm⟩
  rw [nextBlock, String.toList_ofList, utf8ByteSize_ofList]
  cases hfind : find? ['/', '*'] cs with
  | none =>
    have hblank := @blankBlocks_append_of_not_mark cs [] fun i _ => by
      simpa using not_mark_of_find? hfind i
    exact .inl ⟨rfl, by simpa [blankBlocks] using hblank⟩
  | some n =>
    obtain ⟨front, rest, hcs, rfl, hfirst⟩ := exists_of_find? hfind
    rw [hcs] at hfirst
    have hbehind : slice (.ofList cs) (size front + 2) (size cs) = .ok (.ofList rest) :=
      slice_eq (front ++ ['/', '*']) rest [] (by simp [hcs]) (by rw [size_append]; rfl)
        (by simp [hcs])
    simp only [hbehind, ok_bind, String.toList_ofList]
    cases hclose : find? ['*', '/'] rest with
    | none =>
      have hopen := blankBlocks_open_unclosed (closing?_eq_none_of_find? hclose)
      exact .inl ⟨rfl, by rw [hcs, blankBlocks_append_of_not_mark hfirst, hopen]⟩
    | some m =>
      obtain ⟨inner, rest, rfl, rfl, hinner⟩ := exists_of_find? hclose
      have hfront : slice (.ofList cs) 0 (size front) = .ok (.ofList front) :=
        slice_eq [] front _ hcs rfl rfl
      have hcomment : slice (.ofList cs) (size front) (size front + 2 + size inner + 2) =
          .ok (.ofList ('/' :: '*' :: (inner ++ ['*', '/']))) :=
        slice_eq front _ rest (by simp [hcs]) rfl (size_block front inner).symm
      have hrest : slice (.ofList cs) (size front + 2 + size inner + 2) (size cs) =
          .ok (.ofList rest) :=
        slice_eq (front ++ '/' :: '*' :: (inner ++ ['*', '/'])) rest [] (by simp [hcs])
          (size_block front inner).symm (by simp [hcs])
      refine .inr ⟨⟨_, _, _⟩, by simp only [hfront, hcomment, hrest, ok_bind]; rfl, ?_⟩
      rw [hcs, blankBlocks_append_of_not_mark hfirst, blankBlocks_block hinner]
      simp

lemma sliceBlocks_eq (done text : String) :
    sliceBlocks done text = .ok (done ++ .ofList (blankBlocks 0 text.toList)) := by
  fun_induction sliceBlocks done text with
  | case1 done text e h =>
    obtain ⟨hnext, -⟩ | ⟨b, hnext, -⟩ := nextBlock_eq text
    · cases h.symm.trans hnext
    · cases h.symm.trans hnext
  | case2 done text h =>
    obtain ⟨-, hblank⟩ | ⟨b, hnext, -⟩ := nextBlock_eq text
    · rw [hblank, String.ofList_toList]
    · cases h.symm.trans hnext
  | case3 done text b h ih =>
    obtain ⟨hnext, -⟩ | ⟨b', hnext, hblank⟩ := nextBlock_eq text
    · cases h.symm.trans hnext
    · obtain rfl : b = b' := by simpa using h.symm.trans hnext
      rw [ih, hblank, String.ofList_append, String.ofList_append, String.ofList_toList,
        blankText, String.append_assoc, String.append_assoc, String.append_assoc]

lemma stripBySlices_eq (source : String) : stripBySlices source = .ok (strip source) := by
  obtain ⟨ls, hls, hflat⟩ := sliceLines_eq source.toList
  rw [stripBySlices, hls, ok_bind, sliceBlocks_eq, String.join_eq, String.toList_ofList, hflat]
  simp [strip, blankAll]

theorem strip_blanks_comments (source : String) :
    List.Forall₂ (fun c d => d = c ∨ d = ' ' ∧ c ≠ '\n') source.toList (strip source).toList ∧
    (∃ blocks,
      (∀ bs, Blocks (blankWhere (InLineComment source.toList) source.toList) 0 bs ↔ bs = blocks) ∧
      (strip source).toList = blankWhere (InBlock blocks)
        (blankWhere (InLineComment source.toList) source.toList)) ∧
    stripBySlices source = .ok (strip source) := by
  refine ⟨?_, ?_, stripBySlices_eq source⟩
  · rw [strip, String.toList_ofList]
    refine (blanked_blankAll source.toList).imp fun c d h => ?_
    by_cases hc : c = '\n' <;> simpa [Blanks, blank, hc] using h
  · rw [strip, String.toList_ofList, blankAll, blankLines_eq]
    obtain ⟨blocks, hblocks, heq⟩ := exists_blocks_blankBlocks
      (blankWhere (InLineComment source.toList) source.toList)
    exact ⟨blocks, fun bs => ⟨fun h => h.unique hblocks, fun h => h ▸ hblocks⟩, heq⟩

end Comment

end Varlet
