import Varlet.Text.Comment

namespace Varlet

inductive SliceError where
  | outOfRange
  | insideCharacter
deriving DecidableEq

namespace Text

def slice (text : String) (start stop : Nat) : Except SliceError String :=
  if start ≤ stop ∧ stop ≤ text.utf8ByteSize then
    if h : String.Pos.Raw.IsValid text ⟨start⟩ ∧ String.Pos.Raw.IsValid text ⟨stop⟩ then
      .ok (String.extract ⟨⟨start⟩, h.1⟩ ⟨⟨stop⟩, h.2⟩)
    else .error .insideCharacter
  else .error .outOfRange

def find? (mark : List Char) : List Char → Option Nat
  | [] => if mark.isEmpty then some 0 else none
  | c :: cs =>
    if mark.isPrefixOf (c :: cs) then some 0 else (find? mark cs).map (c.utf8Size + ·)

def lines : List Char → List (List Char)
  | [] => []
  | c :: cs =>
    if c = '\n' then [c] :: lines cs
    else
      match lines cs with
      | [] => [[c]]
      | line :: rest => (c :: line) :: rest

theorem size_of_slice {text piece : String} {start stop : Nat}
    (h : slice text start stop = .ok piece) :
    piece.utf8ByteSize + start = stop ∧ stop ≤ text.utf8ByteSize := by
  unfold slice at h
  split at h
  · rename_i hrange
    split at h
    · cases h
      refine ⟨?_, hrange.2⟩
      rw [← String.size_toByteArray, String.toByteArray_extract, ByteArray.size_extract,
        String.size_toByteArray, Nat.min_eq_left hrange.2]
      exact Nat.sub_add_cancel hrange.1
    · cases h
  · cases h

theorem exists_of_bind {α β : Type} {x : Except SliceError α} {f : α → Except SliceError β} {b : β}
    (h : (x >>= f) = .ok b) : ∃ a, x = .ok a ∧ f a = .ok b := by
  cases x with
  | error e => cases h
  | ok a => exact ⟨a, rfl, h⟩

end Text

namespace Comment

open Text

def blankText (text : String) : String :=
  String.ofList (text.toList.map blank)

def sliceLine (line : String) : Except SliceError String :=
  match find? ['/', '/'] line.toList with
  | none => return line
  | some start => do
    let front ← slice line 0 start
    let comment ← slice line start line.utf8ByteSize
    return front ++ blankText comment

structure Block where
  front : String
  comment : String
  rest : String

def nextBlock (text : String) : Except SliceError (Option Block) :=
  match find? ['/', '*'] text.toList with
  | none => return none
  | some start => do
    let behind ← slice text (start + 2) text.utf8ByteSize
    match find? ['*', '/'] behind.toList with
    | none => return none
    | some offset =>
      let stop := start + 2 + offset + 2
      let front ← slice text 0 start
      let comment ← slice text start stop
      let rest ← slice text stop text.utf8ByteSize
      return some ⟨front, comment, rest⟩

theorem size_rest_lt {text : String} {b : Block} (h : nextBlock text = .ok (some b)) :
    b.rest.utf8ByteSize < text.utf8ByteSize := by
  unfold nextBlock at h
  split at h
  · cases h
  · obtain ⟨behind, -, h⟩ := exists_of_bind h
    split at h
    · cases h
    · obtain ⟨front, -, h⟩ := exists_of_bind h
      obtain ⟨comment, -, h⟩ := exists_of_bind h
      obtain ⟨rest, hrest, h⟩ := exists_of_bind h
      cases h
      have hsize := size_of_slice hrest
      simp only
      omega

def sliceBlocks (done text : String) : Except SliceError String :=
  match _h : nextBlock text with
  | .error e => .error e
  | .ok none => .ok (done ++ text)
  | .ok (some b) => sliceBlocks (done ++ b.front ++ blankText b.comment) b.rest
termination_by text.utf8ByteSize
decreasing_by exact size_rest_lt ‹_›

def stripBySlices (source : String) : Except SliceError String := do
  let lines ← (lines source.toList).mapM fun line => sliceLine (String.ofList line)
  sliceBlocks "" (String.join lines)

end Comment

end Varlet
