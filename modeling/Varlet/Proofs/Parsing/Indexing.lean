import Varlet.Program.Indexed
import Varlet.Proofs.Parsing.Reading

/-! As long as no end token is in front of it, an index into the tokens shows a stream, and indexed
readers do what readers of that stream do. -/

namespace Varlet

namespace TokenStream

lemma eq_of_pending {s r : TokenStream} (hp : s.pending = r.pending) (hf : s.final = r.final) :
    s = r := by
  cases s
  cases r
  simp_all

variable {ts : List Token} {t : Token}

lemma current_ofTokens (t : Token) (ts : List Token) : (ofTokens (t :: ts)).current = t := by
  by_cases ht : t.kind = .eof
  · simp [current, ofTokens, ht]
  · simp [current, ofTokens, ht]

lemma advance_of_eof {s : TokenStream} (h : s.current.kind = .eof) : s.advance = s := by
  apply eq_of_pending
  · simp [advance, pending_nil_of_kind h]
  · rfl

lemma advance_ofTokens (ht : t.kind ≠ .eof) (h : ∃ e ∈ ts, e.kind = .eof) :
    (ofTokens (t :: ts)).advance = ofTokens ts := by
  apply eq_of_pending
  · simp [advance, ofTokens, ht]
  · cases hfind : ts.find? fun t => t.kind = .eof with
    | none =>
      obtain ⟨e, he, hk⟩ := h
      exact absurd (decide_eq_true hk) (List.find?_eq_none.mp hfind e he)
    | some e => simp [advance, ofTokens, ht, hfind]

end TokenStream

namespace Indexed

namespace State

def view (s : State) : TokenStream := .ofTokens (s.tokens.drop s.place.index)

def next (s : State) : State := s.moveTo ⟨s.place.index + 1, s.place.depth⟩

structure Sound (s : State) : Prop where
  ends : ∃ t ∈ s.tokens, t.kind = .eof
  within : ∀ p ∈ s.history, p.index < s.tokens.length ∧
    (∀ t ∈ s.tokens.take p.index, t.kind ≠ .eof) ∧ p.depth ≤ maxNesting
  forward : s.history.Pairwise fun later earlier => earlier.index ≤ later.index

variable {s : State}

lemma Sound.ends_drop (h : s.Sound) : ∃ t ∈ s.tokens.drop s.place.index, t.kind = .eof := by
  obtain ⟨t, ht, hk⟩ := h.ends
  obtain ⟨-, hfree, -⟩ := h.within s.place List.mem_cons_self
  rw [← List.take_append_drop s.place.index s.tokens, List.mem_append] at ht
  exact ⟨t, ht.resolve_left fun htake => hfree t htake hk, hk⟩

lemma Sound.exists_drop (h : s.Sound) :
    ∃ ts, s.tokens.drop s.place.index = s.view.current :: ts := by
  obtain ⟨t, ts, hdrop⟩ := List.exists_cons_of_ne_nil (List.ne_nil_of_mem h.ends_drop.choose_spec.1)
  rw [view, hdrop, TokenStream.current_ofTokens]
  exact ⟨ts, rfl⟩

lemma Sound.getElem_index (h : s.Sound) : s.tokens[s.place.index]? = some s.view.current := by
  obtain ⟨ts, hdrop⟩ := h.exists_drop
  rw [← List.head?_drop, hdrop, List.head?_cons]

lemma Sound.index_add (h : s.Sound) :
    s.place.index + s.view.pending.length =
      (s.tokens.takeWhile fun t => t.kind ≠ .eof).length := by
  obtain ⟨hlt, hfree, -⟩ := h.within s.place List.mem_cons_self
  rw [← List.take_append_drop s.place.index s.tokens,
    List.takeWhile_append_of_pos (by simpa using hfree), List.length_append,
    List.length_take, min_eq_left hlt.le]
  rfl

lemma Sound.pending_le (h : s.Sound) : s.view.pending.length ≤ s.tokens.length := by
  have hadd := h.index_add
  have hle := (List.takeWhile_sublist (fun t : Token => t.kind ≠ .eof) (l := s.tokens)).length_le
  omega

lemma Sound.moveTo (h : s.Sound) {p : Place} (hi : s.place.index ≤ p.index)
    (hlt : p.index < s.tokens.length) (hfree : ∀ t ∈ s.tokens.take p.index, t.kind ≠ .eof)
    (hd : p.depth ≤ maxNesting) : (s.moveTo p).Sound where
  ends := h.ends
  within := List.forall_mem_cons.mpr ⟨⟨hlt, hfree, hd⟩, h.within⟩
  forward := by
    refine List.pairwise_cons.mpr ⟨?_, h.forward⟩
    obtain ⟨htrail, -⟩ := List.pairwise_cons.mp h.forward
    exact List.forall_mem_cons.mpr ⟨hi, fun q hq => (htrail q hq).trans hi⟩

lemma Sound.setDepth (h : s.Sound) {depth : ℕ} (hd : depth ≤ maxNesting) :
    (s.moveTo ⟨s.place.index, depth⟩).Sound := by
  obtain ⟨hlt, hfree, -⟩ := h.within s.place List.mem_cons_self
  exact h.moveTo le_rfl hlt hfree hd

lemma Sound.next (h : s.Sound) (hk : s.view.current.kind ≠ .eof) :
    s.next.Sound ∧ s.next.view = s.view.advance := by
  obtain ⟨hlt, hfree, hd⟩ := h.within s.place List.mem_cons_self
  obtain ⟨ts, hdrop⟩ := h.exists_drop
  have hrest : s.tokens.drop (s.place.index + 1) = ts := by
    rw [← List.tail_drop, hdrop, List.tail_cons]
  have hends : ∃ e ∈ ts, e.kind = .eof := by
    simpa [hdrop, hk] using h.ends_drop
  constructor
  · refine h.moveTo (Nat.le_succ _) ?_ ?_ hd
    · obtain ⟨e, he, -⟩ := hends
      rw [← hrest] at he
      by_contra hle
      rw [List.drop_eq_nil_of_le (not_lt.mp hle)] at he
      exact List.not_mem_nil he
    · have htake : s.tokens.take (s.place.index + 1) =
          s.tokens.take s.place.index ++ [s.view.current] := by
        rw [List.take_add_one, h.getElem_index, Option.toList_some]
      rw [htake, List.forall_mem_append]
      exact ⟨hfree, by simpa using hk⟩
  · change TokenStream.ofTokens (s.tokens.drop (s.place.index + 1)) = _
    rw [hrest, view, hdrop, TokenStream.advance_ofTokens hk hends]

end State

structure At (tokens : List Token) (d : ℕ) (s : State) : Prop where
  sound : s.Sound
  tokens_eq : s.tokens = tokens
  depth_eq : s.place.depth = d

/-- An indexed reader ends as a reader of the stream does, with the same rest to be read: at the
depth `d` if it ends with a value, and at that depth or deeper if it ends with an error. -/
inductive Mirrors {α : Type} (tokens : List Token) (d : ℕ) :
    EStateM.Result ParseError TokenStream α → EStateM.Result Halt State α → Prop
  | ok {a s} : At tokens d s → Mirrors tokens d (.ok a s.view) (.ok a s)
  | error {e s n} : At tokens n s → d ≤ n →
      Mirrors tokens d (.error e s.view) (.error (.fault e) s)

def Follows {α : Type} (tokens : List Token) (d d' : ℕ) (p : Reader α) (q : Parser α) : Prop :=
  ∀ s, At tokens d s → Mirrors tokens d' (q s.view) (p s)

section

variable {α β : Type} {tokens : List Token} {d d' m n : ℕ} {s : State} {k : Token.Kind}

lemma bind_ok {p : Reader α} {f : α → Reader β} {a : α} {r : State} (h : p s = .ok a r) :
    (p >>= f) s = f a r := by
  simp [bind, EStateM.bind, h]

lemma bind_error {p : Reader α} {f : α → Reader β} {halt : Halt} {r : State}
    (h : p s = .error halt r) : (p >>= f) s = .error halt r := by
  simp [bind, EStateM.bind, h]

lemma get_eq (s : State) : (get : Reader State) s = .ok s s := rfl

lemma At.next (h : At tokens d s) (hk : s.view.current.kind ≠ .eof) : At tokens d s.next :=
  ⟨(h.sound.next hk).1, h.tokens_eq, h.depth_eq⟩

lemma At.setDepth (h : At tokens d s) (hm : m ≤ maxNesting) :
    At tokens m (s.moveTo ⟨s.place.index, m⟩) :=
  ⟨h.sound.setDepth hm, h.tokens_eq, rfl⟩

lemma At.depth_le (h : At tokens d s) : d ≤ maxNesting :=
  h.depth_eq ▸ (h.sound.within s.place List.mem_cons_self).2.2

section

variable (h : At tokens d s)

include h

lemma At.current_eq : current s = .ok s.view.current s := by
  change tokenAt s.place.index s = _
  rw [tokenAt, h.sound.getElem_index]

lemma At.check_eq (k : Token.Kind) : check k s = .ok (s.view.current.kind = k) s :=
  bind_ok h.current_eq

lemma At.consume_eq (hk : s.view.current.kind ≠ .eof) : consume s = .ok () s.next := by
  rw [consume, bind_ok h.current_eq, if_pos hk]
  rfl

lemma At.consume_eof (hk : s.view.current.kind = .eof) : consume s = .ok () s := by
  rw [consume, bind_ok h.current_eq, if_neg (by simp [hk])]
  rfl

lemma At.previous_next : previous s.next = .ok s.view.current s.next := by
  change tokenAt (s.place.index + 1 - 1) s.next = _
  have htoken : s.next.tokens[s.place.index]? = some s.view.current := h.sound.getElem_index
  rw [Nat.add_sub_cancel, tokenAt, htoken]

lemma At.accept_of_kind (hk : k ≠ .eof) (hc : s.view.current.kind = k) :
    accept k s = .ok true s.next := by
  rw [accept, bind_ok (h.check_eq k), if_pos (decide_eq_true hc),
    bind_ok (h.consume_eq (hc.trans_ne hk))]
  rfl

lemma At.accept_of_ne (hc : s.view.current.kind ≠ k) : accept k s = .ok false s := by
  rw [accept, bind_ok (h.check_eq k), if_neg (by simpa using hc)]
  rfl

lemma At.expect_of_kind {x : Expectation} (hk : k ≠ .eof) (hc : s.view.current.kind = k) :
    expect k x s = .ok s.view.current s.next := by
  rw [expect, bind_ok (h.check_eq k), if_pos (decide_eq_true hc),
    bind_ok (h.consume_eq (hc.trans_ne hk)), h.previous_next]

lemma At.expect_of_ne {x : Expectation} (hc : s.view.current.kind ≠ k) :
    expect k x s = .error (.fault (.unexpectedToken s.view.current x)) s := by
  rw [expect, bind_ok (h.check_eq k), if_neg (by simpa using hc), bind_ok h.current_eq]
  rfl

lemma At.enter_eq : enter s =
    if maxNesting ≤ d then .error (.fault (.nestingTooDeep s.view.current)) s
    else .ok () (s.moveTo ⟨s.place.index, d + 1⟩) := by
  rw [enter, bind_ok (get_eq s), h.depth_eq]
  split_ifs
  · rw [bind_ok h.current_eq]
    rfl
  · rfl

end

lemma Mirrors.bind {p : Reader α} {q : Parser α} {f : α → Reader β} {g : α → Parser β}
    {r : TokenStream} (h : Mirrors tokens m (q r) (p s)) (hd : d ≤ m)
    (hf : ∀ a t, At tokens m t → q r = .ok a t.view → Mirrors tokens d (g a t.view) (f a t)) :
    Mirrors tokens d ((q >>= g) r) ((p >>= f) s) := by
  generalize hq : q r = x at h
  generalize hp : p s = y at h
  cases h with
  | ok ht =>
    rw [Parser.bind_ok hq, bind_ok hp]
    exact hf _ _ ht hq
  | error ht hn =>
    rw [Parser.bind_error hq, bind_error hp]
    exact .error ht (hd.trans hn)

lemma Mirrors.of_ok {a : α} {r : TokenStream} {x : EStateM.Result Halt State α}
    (h : Mirrors tokens d (.ok a r) x) : ∃ t, x = .ok a t ∧ At tokens d t ∧ t.view = r := by
  cases h with
  | ok ht => exact ⟨_, rfl, ht, rfl⟩

lemma Follows.bind {p : Reader α} {q : Parser α} {f : α → Reader β} {g : α → Parser β}
    (h : Follows tokens d m p q) (hd : d' ≤ m) (hf : ∀ a, Follows tokens m d' (f a) (g a)) :
    Follows tokens d d' (p >>= f) (q >>= g) :=
  fun s hs => (h s hs).bind hd fun a t ht _ => hf a t ht

lemma follows_pure (a : α) : Follows tokens d d (pure a) (pure a) :=
  fun _ hs => .ok hs

lemma follows_fail (e : ParseError) (hd : d' ≤ d) :
    Follows tokens d d' (fail e : Reader α) (throw e) :=
  fun _ hs => .error hs hd

lemma follows_current : Follows tokens d d current Parser.current := by
  intro s hs
  rw [hs.current_eq]
  exact .ok hs

lemma follows_consume : Follows tokens d d consume Parser.skip := by
  intro s hs
  by_cases hk : s.view.current.kind = .eof
  · have hskip : Parser.skip s.view = .ok () s.view :=
      congrArg _ (TokenStream.advance_of_eof hk)
    rw [hs.consume_eof hk, hskip]
    exact .ok hs
  · have hskip : Parser.skip s.view = .ok () s.next.view :=
      congrArg _ (hs.sound.next hk).2.symm
    rw [hs.consume_eq hk, hskip]
    exact .ok (hs.next hk)

lemma follows_accept (hk : k ≠ .eof) : Follows tokens d d (accept k) (Parser.accept k) := by
  intro s hs
  by_cases hc : s.view.current.kind = k
  · have hne := hc.trans_ne hk
    rw [hs.accept_of_kind hk hc, Parser.accept_of_kind hc, ← (hs.sound.next hne).2]
    exact .ok (hs.next hne)
  · rw [hs.accept_of_ne hc, Parser.accept_of_ne hc]
    exact .ok hs

lemma follows_expect (x : Expectation) (hk : k ≠ .eof) :
    Follows tokens d d (expect k x) (Parser.expect k x) := by
  intro s hs
  by_cases hc : s.view.current.kind = k
  · have hne := hc.trans_ne hk
    rw [hs.expect_of_kind hk hc, Parser.expect_of_kind hc, ← (hs.sound.next hne).2]
    exact .ok (hs.next hne)
  · rw [hs.expect_of_ne hc, Parser.expect_of_ne hc]
    exact .error hs le_rfl

lemma follows_operator {sort : Token.Kind → Option Operator} (hs : sort .eof = none) :
    Follows tokens d d (operator? sort) (Parser.operator? sort) := by
  intro s h
  rw [operator?, bind_ok h.current_eq]
  cases hop : sort s.view.current.kind with
  | none =>
    rw [Parser.operator_of_none hop]
    exact .ok h
  | some op =>
    have hne : s.view.current.kind ≠ .eof := by
      intro heq
      rw [heq, hs] at hop
      cases hop
    rw [Parser.operator_of_some hop, ← (h.sound.next hne).2]
    change Mirrors tokens d _ ((consume >>= fun _ => pure (some op)) s)
    rw [bind_ok (h.consume_eq hne)]
    exact .ok (h.next hne)

lemma Follows.enter_bind {p : Reader α} {q : Parser α} (hd : d < maxNesting)
    (h : Follows tokens (d + 1) d' p q) : Follows tokens d d' (enter >>= fun _ => p) q := by
  intro s hs
  have henter := hs.enter_eq
  rw [if_neg hd.not_ge] at henter
  rw [bind_ok henter]
  exact h _ (hs.setDepth hd)

lemma follows_tooDeep {f : Unit → Reader α} (hd : maxNesting ≤ d) (hle : d' ≤ d) :
    Follows tokens d d' (enter >>= f) Parser.tooDeep := by
  intro s hs
  have henter := hs.enter_eq
  rw [if_pos hd] at henter
  rw [bind_error henter]
  exact .error hs hle

lemma Follows.setDepth_bind {p : Reader α} {q : Parser α} (hm : m ≤ maxNesting)
    (h : Follows tokens m d' p q) : Follows tokens d d' (setDepth m >>= fun _ => p) q :=
  fun _ hs => h _ (hs.setDepth hm)

lemma leave_of_succ (hs : s.place.depth = d + 1) :
    leave s = .ok () (s.moveTo ⟨s.place.index, d⟩) := by
  rw [leave, bind_ok (get_eq s), hs]
  rfl

lemma Follows.leaving {p : Reader α} {q : Parser α} (h : Follows tokens (d + 1) (d + 1) p q) :
    Follows tokens (d + 1) d (leaving p) q := by
  intro s hs
  have hm := h s hs
  rw [Indexed.leaving]
  generalize q s.view = x at hm
  generalize p s = y at hm
  cases hm with
  | ok ht =>
    change Mirrors tokens d _ ((leave >>= fun _ => pure _) _)
    rw [bind_ok (leave_of_succ ht.depth_eq)]
    exact .ok (ht.setDepth (Nat.le_of_succ_le ht.depth_le))
  | @error e t n ht hn =>
    obtain ⟨n, rfl⟩ : ∃ j, n = j + 1 := ⟨n - 1, by omega⟩
    change Mirrors tokens d _ ((leave >>= fun _ => fail e) t)
    rw [bind_ok (leave_of_succ ht.depth_eq)]
    exact .error (ht.setDepth (Nat.le_of_succ_le ht.depth_le)) (Nat.le_of_succ_le_succ hn)

end

end Indexed

end Varlet
