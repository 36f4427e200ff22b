import Varlet.Text.Comment
import Varlet.Text.Classes
import Varlet.Token.Basic

/-! Cutting a text into tokens: layout is skipped, a punctuation character is a token, and so are
the longest runs of digits and of letters. A cursor remembers how far the text was read. -/

namespace Varlet

structure LexError where
  position : Position
  char : Char
deriving DecidableEq

def LexError.message (e : LexError) : String :=
  e.position.display ++ " Unexpected character '" ++ e.char.toString ++ "'"

structure Lexeme where
  kind : Token.Kind
  taken : List Char
  rest : List Char

def Lexeme.next? (c : Char) (cs : List Char) : Option Lexeme :=
  match Token.Kind.ofPunctuation? c with
  | some kind => some ⟨kind, [c], cs⟩
  | none =>
    if Text.isDigit c then
      some ⟨.number, c :: cs.takeWhile Text.isDigit, cs.dropWhile Text.isDigit⟩
    else if Text.isLetter c then
      let word := c :: cs.takeWhile Text.isLetter
      some ⟨Token.Kind.ofWord word, word, cs.dropWhile Text.isLetter⟩
    else none

theorem Lexeme.taken_append_rest {c : Char} {cs : List Char} {l : Lexeme}
    (h : Lexeme.next? c cs = some l) : l.taken ++ l.rest = c :: cs := by
  unfold Lexeme.next? at h
  split at h
  · cases h; rfl
  · split at h
    · cases h; simp
    · split at h
      · cases h; simp
      · cases h

theorem Lexeme.taken_ne_nil {c : Char} {cs : List Char} {l : Lexeme}
    (h : Lexeme.next? c cs = some l) : l.taken ≠ [] := by
  unfold Lexeme.next? at h
  split at h
  · cases h; simp
  · split at h
    · cases h; simp
    · split at h
      · cases h; simp
      · cases h

theorem Lexeme.kind_ne_eof {c : Char} {cs : List Char} {l : Lexeme}
    (h : Lexeme.next? c cs = some l) : l.kind ≠ .eof := by
  unfold Lexeme.next? at h
  split at h
  · rename_i kind hk
    cases h
    unfold Token.Kind.ofPunctuation? at hk
    split at hk <;> cases hk <;> simp
  · split at h
    · cases h; simp
    · split at h
      · cases h
        simp only [Token.Kind.ofWord]
        split <;> try split <;> try split
        all_goals simp
      · cases h

/-- How far a text was read: the characters to come, the size in bytes of those before them, and
the place between the two. -/
structure Cursor where
  rest : List Char
  offset : Nat
  position : Position

namespace Cursor

def ofList (cs : List Char) : Cursor := ⟨cs, 0, .start⟩

def advance (k : Cursor) (taken rest : List Char) : Cursor :=
  ⟨rest, k.offset + (String.ofList taken).utf8ByteSize, k.position.after taken⟩

def skipLayout (k : Cursor) : Cursor :=
  k.advance (k.rest.takeWhile Text.isLayout) (k.rest.dropWhile Text.isLayout)

def scan (k : Cursor) : Except LexError Token × Cursor :=
  let k := k.skipLayout
  match k.rest with
  | [] => (.ok (.endAt k.position), k)
  | c :: cs =>
    match Lexeme.next? c cs with
    | some l =>
      let next := k.advance l.taken l.rest
      (.ok ⟨l.kind, String.ofList l.taken, k.position, next.position⟩, next)
    | none => (.error ⟨k.position, c⟩, k.advance [c] cs)

theorem length_skipLayout (k : Cursor) : k.skipLayout.rest.length ≤ k.rest.length :=
  (List.dropWhile_suffix _).length_le

theorem length_scan_lt {k next : Cursor} {t : Token} (h : k.scan = (.ok t, next))
    (ht : t.kind ≠ .eof) : next.rest.length < k.rest.length := by
  have hs := k.length_skipLayout
  simp only [scan] at h
  generalize k.skipLayout = j at hs h
  split at h
  · cases h
    exact absurd rfl ht
  · rename_i c cs hj
    split at h
    · rename_i l hl
      cases h
      have happ := congrArg List.length (Lexeme.taken_append_rest hl)
      have hpos := List.length_pos_iff.2 (Lexeme.taken_ne_nil hl)
      simp only [List.length_append, List.length_cons] at happ
      simp only [hj, List.length_cons] at hs
      simp only [advance]
      omega
    · cases h

def tokens (k : Cursor) (before : List Token) : Except LexError (List Token) :=
  match _h : k.scan with
  | (.error e, _) => .error e
  | (.ok t, next) =>
    if _ht : t.kind = .eof then .ok (t :: before).reverse else tokens next (t :: before)
termination_by k.rest.length
decreasing_by exact length_scan_lt ‹_› ‹_›

def scanMany (k : Cursor) : Nat → List (Except LexError Token)
  | 0 => []
  | count + 1 =>
    match k.scan with
    | (result, next) => result :: next.scanMany count

end Cursor

def tokenize (source : String) : Except LexError (List Token) :=
  (Cursor.ofList (Comment.blankAll source.toList)).tokens []

end Varlet
