import Varlet.Text.Slice
import Varlet.Token.Lexer

/-! Scanning with one character of lookahead and two byte indices. It breaks off where
`Position.count` would begin anew, and up to there goes on as a `Cursor` does. -/

namespace Varlet

inductive ScanFault where
  | slice (e : SliceError)
  | overflow
deriving DecidableEq

structure Scanner where
  input : String
  chars : List Char
  peeked : Option Char
  startIndex : Nat
  index : Nat
  startPosition : Position
  position : Position

namespace Scanner

def ofString (input : String) : Scanner :=
  ⟨input, input.toList, none, 0, 0, .start, .start⟩

def remaining (s : Scanner) : List Char := s.peeked.toList ++ s.chars

def peek (s : Scanner) : Option Char × Scanner :=
  match s.peeked, s.chars with
  | some c, _ => (some c, s)
  | none, [] => (none, s)
  | none, c :: cs => (some c, { s with peeked := some c, chars := cs })

def next? (s : Scanner) : Option (Char × Scanner) :=
  match s.peeked, s.chars with
  | some c, _ => some (c, { s with peeked := none })
  | none, [] => none
  | none, c :: cs => some (c, { s with chars := cs })

def count (n : Int) : Except ScanFault Int :=
  if n < Position.greatest then .ok (Position.count n) else .error .overflow

def countPast (p : Position) (c : Char) : Except ScanFault Position :=
  if c = '\n' then (count p.line).map (⟨·, 1⟩) else (count p.column).map (⟨p.line, ·⟩)

def consume (s : Scanner) : Except ScanFault (Option Char × Scanner) :=
  match s.next? with
  | none => .ok (none, s)
  | some (c, next) =>
    (countPast s.position c).map fun p =>
      (some c, { next with index := s.index + c.utf8Size, position := p })

theorem remaining_of_peek {s next : Scanner} {c : Option Char} (h : s.peek = (c, next)) :
    c = s.remaining.head? ∧ next.remaining = s.remaining := by
  unfold peek at h
  split at h <;> cases h <;> simp [remaining, *]

theorem remaining_of_next? {s next : Scanner} {c : Char} (h : s.next? = some (c, next)) :
    s.remaining = c :: next.remaining := by
  unfold next? at h
  split at h <;> cases h <;> simp [remaining, *]

theorem remaining_of_next?_eq_none {s : Scanner} (h : s.next? = none) : s.remaining = [] := by
  unfold next? at h
  split at h
  · cases h
  · simp [remaining, *]
  · cases h

theorem remaining_of_consume {s next : Scanner} {c : Option Char} (h : s.consume = .ok (c, next)) :
    c = s.remaining.head? ∧ next.remaining = s.remaining.tail := by
  unfold consume at h
  split at h
  · rename_i hnext
    cases h
    simp [remaining_of_next?_eq_none hnext]
  · rename_i d after hnext
    cases hp : countPast s.position d with
    | error e => simp [hp, Except.map] at h
    | ok p =>
      simp only [hp, Except.map, Except.ok.injEq, Prod.mk.injEq] at h
      obtain ⟨rfl, rfl⟩ := h
      rw [remaining_of_next? hnext]
      exact ⟨rfl, rfl⟩

theorem length_of_consume {s next : Scanner} {c : Option Char} (h : s.consume = .ok (c, next))
    (hs : s.remaining ≠ []) : next.remaining.length < s.remaining.length := by
  rw [(remaining_of_consume h).2, List.length_tail]
  exact Nat.sub_lt (List.length_pos_iff.2 hs) Nat.one_pos

def consumeWhile (P : Char → Bool) (s : Scanner) : Except ScanFault Scanner :=
  match _hp : s.peek with
  | (none, seen) => .ok seen
  | (some c, seen) =>
    if P c then
      match _hc : seen.consume with
      | .error e => .error e
      | .ok (_, rest) => consumeWhile P rest
    else .ok seen
termination_by s.remaining.length
decreasing_by
  obtain ⟨hhead, hseen⟩ := remaining_of_peek _hp
  rw [← hseen]
  apply length_of_consume _hc
  intro hnil
  rw [← hseen, hnil] at hhead
  cases hhead

theorem remaining_of_consumeWhile {P : Char → Bool} {s next : Scanner}
    (h : s.consumeWhile P = .ok next) : next.remaining = s.remaining.dropWhile P := by
  fun_induction consumeWhile P s with
  | case1 s seen hp =>
    cases h
    obtain ⟨hhead, hseen⟩ := remaining_of_peek hp
    rw [hseen, List.head?_eq_none_iff.1 hhead.symm, List.dropWhile_nil]
  | case2 s c seen hp hc e he => cases h
  | case3 s c seen hp hc d rest hd ih =>
    obtain ⟨hhead, hseen⟩ := remaining_of_peek hp
    obtain ⟨cs, hs⟩ := List.head?_eq_some_iff.1 hhead.symm
    rw [ih h, (remaining_of_consume hd).2, hseen, hs, List.tail_cons, List.dropWhile_cons_of_pos hc]
  | case4 s c seen hp hc =>
    cases h
    obtain ⟨hhead, hseen⟩ := remaining_of_peek hp
    obtain ⟨cs, hs⟩ := List.head?_eq_some_iff.1 hhead.symm
    rw [hseen, hs, List.dropWhile_cons_of_neg hc]

def begin (s : Scanner) : Scanner :=
  { s with startIndex := s.index, startPosition := s.position }

def lexeme (s : Scanner) : Except ScanFault String :=
  (Text.slice s.input s.startIndex s.index).mapError .slice

def makeToken (s : Scanner) (kind : Token.Kind) : Except ScanFault Token :=
  s.lexeme.map fun text => ⟨kind, text, s.startPosition, s.position⟩

def finish (s : Scanner) (c : Char) : Except ScanFault (Except LexError Token × Scanner) :=
  match Token.Kind.ofPunctuation? c with
  | some kind => do
    let t ← s.makeToken kind
    return (.ok t, s)
  | none =>
    if Text.isDigit c then do
      let s ← s.consumeWhile Text.isDigit
      let t ← s.makeToken .number
      return (.ok t, s)
    else if Text.isLetter c then do
      let s ← s.consumeWhile Text.isLetter
      let name ← s.lexeme
      let t ← s.makeToken (.ofWord name.toList)
      return (.ok t, s)
    else return (.error ⟨s.startPosition, c⟩, s)

def scan (s : Scanner) : Except ScanFault (Except LexError Token × Scanner) :=
  match _hs : s.consumeWhile Text.isSpace with
  | .error e => .error e
  | .ok skipped =>
    match _hc : skipped.begin.consume with
    | .error e => .error e
    | .ok (none, last) => (last.makeToken .eof).map fun t => (.ok t, last)
    | .ok (some c, rest) => if c = ';' then scan rest else rest.finish c
termination_by s.remaining.length
decreasing_by
  have hle : skipped.remaining.length ≤ s.remaining.length := by
    rw [remaining_of_consumeWhile _hs]
    exact (List.dropWhile_suffix _).length_le
  obtain ⟨cs, hcs⟩ := List.head?_eq_some_iff.1 (remaining_of_consume _hc).1.symm
  have hlt := length_of_consume _hc (by rw [hcs]; exact List.cons_ne_nil c cs)
  exact Nat.lt_of_lt_of_le hlt hle

def scanMany (s : Scanner) : Nat → Except ScanFault (List (Except LexError Token))
  | 0 => return []
  | count + 1 => do
    let (result, next) ← s.scan
    let results ← next.scanMany count
    return result :: results

end Scanner

end Varlet
