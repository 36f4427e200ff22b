import Varlet.Proofs.Parsing.Soundness

/-! Readers look at no token behind the current one, and more levels only help: they end in the same
way on every stream with the same tokens up to the current one. -/

namespace Varlet.Parser

variable {α β : Type} {s : TokenStream} {strict : Prop}

/-- How an error of `p` behind `ts` is repeated on other streams: by `p` itself if the levels ran
out there, else by `q`. A strict reader does not run out of levels before it has read a token. -/
structure SameError (strict : Prop) (p q : Parser α) (ts : List Token) (e : ParseError)
    (r : TokenStream) : Prop where
  nesting {t} : e = .nestingTooDeep t → (strict → ts ≠ []) ∧
    ∀ s' r', s'.Reads ts r' → ∃ t', p s' = .error (.nestingTooDeep t') r'
  other : (∀ t, e ≠ .nestingTooDeep t) →
    ∀ s' r', s'.Reads ts r' → r'.current = r.current → q s' = .error e r'

def SameValue (p q : Parser α) (ts : List Token) (a : α) (r : TokenStream) : Prop :=
  ∀ s' r', s'.Reads ts r' → r'.current = r.current → p s' = .ok a r' ∧ q s' = .ok a r'

def Agrees (strict : Prop) (s : TokenStream) (p q : Parser α) : Prop :=
  Ends s p (SameValue p q) (SameError strict p q)

section Rules

variable {p q p₁ q₁ : Parser α} {f g : α → Parser β}

lemma Agrees.mono {strict' : Prop} (h : Agrees strict s p q) (hs : strict' → strict) :
    Agrees strict' s p q :=
  Ends.mono h (fun _ _ _ _ h => h) fun _ _ _ _ h =>
    { nesting := fun he => ⟨fun hs' => (h.nesting he).1 (hs hs'), (h.nesting he).2⟩
      other := h.other }

lemma Agrees.weaken (h : Agrees strict s p q) : Agrees False s p q := h.mono False.elim

lemma Agrees.consume (hs : s.current.kind ≠ .eof)
    (hp : ∀ s', s'.current = s.current → p s' = p₁ s'.advance)
    (hq : ∀ s', s'.current = s.current → q s' = q₁ s'.advance)
    (h : Agrees False s.advance p₁ q₁) : Agrees strict s p q := by
  apply Ends.step (TokenStream.reads_advance hs) (hp s rfl)
  apply Ends.mono h
  · intro ts a r _ ha s' r' hs' hr
    rw [hp s' hs'.current_eq, hq s' hs'.current_eq]
    exact ha _ r' hs'.advance hr
  · intro ts e r _ he
    constructor
    · intro t ht
      refine ⟨fun _ => List.cons_ne_nil _ _, fun s' r' hs' => ?_⟩
      rw [hp s' hs'.current_eq]
      exact (he.nesting ht).2 _ r' hs'.advance
    · intro ht s' r' hs' hr
      rw [hq s' hs'.current_eq]
      exact he.other ht _ r' hs'.advance hr

lemma Agrees.peek (hp : ∀ s', s'.current = s.current → p s' = p₁ s')
    (hq : ∀ s', s'.current = s.current → q s' = q₁ s') (h : Agrees True s p₁ q₁) :
    Agrees strict s p q := by
  apply Ends.of_eq (hp s rfl)
  apply Ends.mono h
  · intro ts a r hs ha s' r' hs' hr
    have hc := hs.current_congr hs' fun _ => hr
    rw [hp s' hc, hq s' hc]
    exact ha s' r' hs' hr
  · intro ts e r hs he
    constructor
    · intro t ht
      obtain ⟨hne, hn⟩ := he.nesting ht
      refine ⟨fun _ => hne trivial, fun s' r' hs' => ?_⟩
      rw [hp s' (hs.current_congr hs' fun h => absurd h (hne trivial))]
      exact hn s' r' hs'
    · intro ht s' r' hs' hr
      rw [hq s' (hs.current_congr hs' fun _ => hr)]
      exact he.other ht s' r' hs' hr

lemma Agrees.bind (h : Agrees strict s p q)
    (hf : ∀ a m, p s = .ok a m → Agrees True m (f a) (g a)) :
    Agrees strict s (p >>= f) (q >>= g) := by
  cases hr : p s with
  | error e r =>
    obtain ⟨ts, hs, he⟩ := h.of_error hr
    apply Ends.of_result_error (bind_error hr) hs
    constructor
    · intro t ht
      refine ⟨(he.nesting ht).1, fun s' r' hs' => ?_⟩
      obtain ⟨t', ht'⟩ := (he.nesting ht).2 s' r' hs'
      exact ⟨t', bind_error ht'⟩
    · intro ht s' r' hs' hc
      exact bind_error (he.other ht s' r' hs' hc)
  | ok a m =>
    obtain ⟨ts, hs, ha⟩ := h.of_ok hr
    apply Ends.step hs (bind_ok hr)
    apply Ends.mono (hf a m hr)
    · intro us b r hm hb s' r' hs' hc
      obtain ⟨m', h₁, h₂⟩ := hs'.split
      obtain ⟨hp, hq⟩ := ha s' m' h₁ (hm.current_congr h₂ fun _ => hc)
      rw [bind_ok hp, bind_ok hq]
      exact hb m' r' h₂ hc
    · intro us e r hm he
      constructor
      · intro t ht
        obtain ⟨hne, hn⟩ := he.nesting ht
        refine ⟨fun _ => List.append_ne_nil_of_right_ne_nil _ (hne trivial), fun s' r' hs' => ?_⟩
        obtain ⟨m', h₁, h₂⟩ := hs'.split
        obtain ⟨hp, -⟩ := ha s' m' h₁ (hm.current_congr h₂ fun h => absurd h (hne trivial))
        rw [bind_ok hp]
        exact hn m' r' h₂
      · intro ht s' r' hs' hc
        obtain ⟨m', h₁, h₂⟩ := hs'.split
        obtain ⟨-, hq⟩ := ha s' m' h₁ (hm.current_congr h₂ fun _ => hc)
        rw [bind_ok hq]
        exact he.other ht m' r' h₂ hc

lemma Agrees.pure (a : α) : Agrees strict s (Pure.pure a) (Pure.pure a) := by
  apply Ends.pure
  intro s' r' hs' _
  obtain rfl := hs'.eq_of_nil
  exact ⟨rfl, rfl⟩

lemma Agrees.throw {e : ParseError} (he : ∀ t, e ≠ .nestingTooDeep t) :
    Agrees strict s (MonadExcept.throw e : Parser α) (MonadExcept.throw e) := by
  apply Ends.throw
  refine ⟨fun h => absurd h (he _), fun _ s' r' hs' _ => ?_⟩
  obtain rfl := hs'.eq_of_nil
  rfl

lemma Agrees.tooDeep : Agrees False s Parser.tooDeep q := by
  apply Ends.tooDeep
  refine ⟨fun _ => ⟨False.elim, fun s' r' hs' => ?_⟩, fun h => absurd rfl (h _)⟩
  obtain rfl := hs'.eq_of_nil
  exact ⟨_, rfl⟩

lemma Agrees.current_bind {f g : Token → Parser β} (h : Agrees True s (f s.current) (g s.current)) :
    Agrees strict s (current >>= f) (current >>= g) := by
  apply Agrees.peek _ _ h
  · intro s' hs'
    rw [Parser.current_bind, hs']
  · intro s' hs'
    rw [Parser.current_bind, hs']

lemma Agrees.skip_bind {f g : Unit → Parser β} (hs : s.current.kind ≠ .eof)
    (h : Agrees False s.advance (f ()) (g ())) : Agrees strict s (skip >>= f) (skip >>= g) :=
  Agrees.consume hs (fun _ _ => rfl) (fun _ _ => rfl) h

lemma Agrees.accept_bind {k : Token.Kind} {f g : Bool → Parser β} (hk : k ≠ .eof)
    (ht : Agrees False s.advance (f true) (g true)) (hf : Agrees True s (f false) (g false)) :
    Agrees strict s (accept k >>= f) (accept k >>= g) := by
  by_cases h : s.current.kind = k
  · apply Agrees.consume (h.trans_ne hk) _ _ ht
    · exact fun s' hs' => bind_ok (accept_of_kind (hs' ▸ h))
    · exact fun s' hs' => bind_ok (accept_of_kind (hs' ▸ h))
  · apply Agrees.peek _ _ hf
    · exact fun s' hs' => bind_ok (accept_of_ne (hs' ▸ h))
    · exact fun s' hs' => bind_ok (accept_of_ne (hs' ▸ h))

lemma Agrees.expect_bind {k : Token.Kind} {x : Expectation} {f g : Token → Parser β}
    (hk : k ≠ .eof) (ht : ∀ t, Agrees False s.advance (f t) (g t)) :
    Agrees strict s (expect k x >>= f) (expect k x >>= g) := by
  by_cases h : s.current.kind = k
  · apply Agrees.consume (h.trans_ne hk) _ _ (ht s.current)
    · intro s' hs'
      rw [bind_ok (expect_of_kind (hs' ▸ h)), hs']
    · intro s' hs'
      rw [bind_ok (expect_of_kind (hs' ▸ h)), hs']
  · apply Agrees.peek _ _ (Agrees.throw (e := .unexpectedToken s.current x) (by simp))
    · intro s' hs'
      rw [bind_error (expect_of_ne (hs' ▸ h)), hs']
      rfl
    · intro s' hs'
      rw [bind_error (expect_of_ne (hs' ▸ h)), hs']
      rfl

lemma Agrees.operator_bind {sort : Token.Kind → Option Operator}
    {f g : Option Operator → Parser β} (he : sort .eof = none)
    (ht : ∀ op, Agrees False s.advance (f (some op)) (g (some op)))
    (hf : Agrees True s (f none) (g none)) :
    Agrees strict s (operator? sort >>= f) (operator? sort >>= g) := by
  cases h : sort s.current.kind with
  | some op =>
    have hs : s.current.kind ≠ .eof := by
      intro hs
      simp [hs, he] at h
    apply Agrees.consume hs _ _ (ht op)
    · exact fun s' hs' => bind_ok (operator_of_some (hs' ▸ h))
    · exact fun s' hs' => bind_ok (operator_of_some (hs' ▸ h))
  | none =>
    apply Agrees.peek _ _ hf
    · exact fun s' hs' => bind_ok (operator_of_none (hs' ▸ h))
    · exact fun s' hs' => bind_ok (operator_of_none (hs' ▸ h))

end Rules

lemma itemsUntil_agrees {stop : Token.Kind → Bool} {item item' : Parser α} (he : stop .eof)
    (hi : Consumes item) (hi' : Consumes item') (h : ∀ s, Agrees True s item item')
    (s : TokenStream) (before : List α) :
    Agrees strict s (itemsUntil stop item before) (itemsUntil stop item' before) := by
  induction hl : s.pending.length using Nat.strong_induction_on generalizing s strict before with
  | _ l ih =>
    by_cases hs : stop s.current.kind
    · apply Agrees.peek _ _ (Agrees.pure before.reverse)
      · exact fun s' hs' => itemsUntil_of_stop (hs' ▸ hs) before
      · exact fun s' hs' => itemsUntil_of_stop (hs' ▸ hs) before
    · have hstep : Agrees True s (item >>= fun a => itemsUntil stop item (a :: before))
          (item' >>= fun a => itemsUntil stop item' (a :: before)) := by
        apply (h s).bind
        intro a m ha
        exact ih m.pending.length (hl ▸ hi ha) m (a :: before) rfl
      apply Agrees.peek _ _ hstep
      · exact fun s' hs' => itemsUntil_item hi he (hs' ▸ hs) before
      · exact fun s' hs' => itemsUntil_item hi' he (hs' ▸ hs) before

lemma property_agrees {value value' : Parser Expr} (hv : ∀ s, Agrees False s value value')
    (s : TokenStream) : Agrees strict s (property value) (property value') := by
  apply Agrees.expect_bind (by decide)
  intro key
  apply Agrees.current_bind
  split
  · exact Agrees.throw (by simp)
  · apply Agrees.expect_bind (by decide)
    intro _
    apply (hv _).bind
    intro e m _
    apply Agrees.current_bind
    split
    · exact Agrees.pure _
    · apply Agrees.expect_bind (by decide)
      exact fun _ => Agrees.pure _

variable {n m : ℕ}

lemma objectRest_agrees (he : ∀ s, Agrees False s (expression n) (expression m))
    (s : TokenStream) (before : List (Property Expr)) :
    Agrees strict s (objectRest (expression n) before) (objectRest (expression m) before) := by
  have hn := property_consumes (expression_sound n)
  have hm := property_consumes (expression_sound m)
  apply (itemsUntil_agrees rfl hn hm (property_agrees he) s before).bind
  intro ps r _
  apply Agrees.expect_bind (by decide)
  exact fun _ => Agrees.pure _

lemma primary_agrees (he : ∀ s, Agrees False s (expression n) (expression m))
    (s : TokenStream) : Agrees strict s (primary n) (primary m) := by
  rw [primary, primary]
  apply Agrees.current_bind
  split
  · next hk => exact Agrees.skip_bind (hk.trans_ne (by decide)) (Agrees.pure _)
  · next hk =>
    apply Agrees.skip_bind (hk.trans_ne (by decide))
    split
    · exact Agrees.pure _
    · exact Agrees.throw (by simp)
  · next hk =>
    apply Agrees.skip_bind (hk.trans_ne (by decide))
    apply (he _).bind
    intro e r _
    apply Agrees.expect_bind (by decide)
    exact fun _ => Agrees.pure _
  · next hk => exact Agrees.skip_bind (hk.trans_ne (by decide)) (Agrees.pure _)
  · exact Agrees.throw (by simp)

lemma rest_agrees {sort : Token.Kind → Option Operator} {operand : ℕ → Parser Expr}
    {rest : ℕ → Expr → Parser Expr} {left : Expr} (he : sort .eof = none) (hnm : n ≤ m)
    (h : ∀ op i j, n = i + 1 → m = j + 1 → (∀ s, Agrees True s (operand i) (operand j)) ∧
      ∀ right s, Agrees True s (rest i (.binary left op right)) (rest j (.binary left op right))) :
    Agrees strict s
      (do
        match ← operator? sort with
        | none => return left
        | some op =>
          match n with
          | 0 => tooDeep
          | n + 1 =>
            let right ← operand n
            rest n (.binary left op right))
      (do
        match ← operator? sort with
        | none => return left
        | some op =>
          match m with
          | 0 => tooDeep
          | m + 1 =>
            let right ← operand m
            rest m (.binary left op right)) := by
  apply Agrees.operator_bind he
  · intro op
    cases n with
    | zero => exact Agrees.tooDeep
    | succ n =>
      obtain ⟨m, rfl⟩ : ∃ j, m = j + 1 := ⟨m - 1, by omega⟩
      apply ((h op n m rfl rfl).1 _).weaken.bind
      exact fun right r _ => (h op n m rfl rfl).2 right r
  · exact Agrees.pure _

lemma expression_agrees (n : ℕ) :
    ∀ m, n ≤ m → ∀ s, Agrees (n ≠ 0) s (expression n) (expression m) := by
  -- Without a level, an expression fails before it reads a token, so it is strict only otherwise.
  refine (expression.mutual_induct
    (fun n => ∀ m, n ≤ m → ∀ s, Agrees (n ≠ 0) s (expression n) (expression m))
    (fun n => ∀ m, n ≤ m → ∀ s, Agrees True s (level n) (level m))
    (fun n => ∀ m, n ≤ m → ∀ s, Agrees True s (Parser.sum n) (Parser.sum m))
    (fun n left => ∀ m, n ≤ m → ∀ s, Agrees True s (sumRest n left) (sumRest m left))
    (fun n => ∀ m, n ≤ m → ∀ s, Agrees True s (product n) (product m))
    (fun n left => ∀ m, n ≤ m → ∀ s, Agrees True s (productRest n left) (productRest m left))
    (fun n => ∀ m, n ≤ m → ∀ s, Agrees True s (primary n) (primary m))
    ?_ ?_ ?_ ?_ ?_ ?_ ?_ ?_).1 n
  · intro m _ s
    rw [expression]
    simpa using Agrees.tooDeep
  · intro n hl he m hm s
    obtain ⟨m, rfl⟩ : ∃ j, m = j + 1 := ⟨m - 1, by omega⟩
    rw [expression, expression]
    apply ((hl m (by omega) s).mono fun _ => trivial).bind
    intro target r _
    apply Agrees.accept_bind (by decide)
    · apply (he m (by omega) _).weaken.bind
      exact fun _ _ _ => Agrees.pure _
    · exact Agrees.pure _
  · intro n he hs m hm s
    rw [level_eq, level_eq]
    apply Agrees.accept_bind (by decide)
    · exact objectRest_agrees (fun s => (he m hm s).weaken) _ _
    · exact hs m hm s
  · intro n hp hr m hm s
    rw [Parser.sum, Parser.sum]
    exact (hp m hm s).bind fun left r _ => hr left m hm r
  · intro n left h m hm s
    rw [sumRest, sumRest]
    apply rest_agrees rfl hm
    intro op i j hi hj
    subst hi hj
    exact ⟨(h op).1 j (by omega), fun right => (h op).2 right j (by omega)⟩
  · intro n hp hr m hm s
    rw [product, product]
    exact (hp m hm s).bind fun left r _ => hr left m hm r
  · intro n left h m hm s
    rw [productRest, productRest]
    apply rest_agrees rfl hm
    intro op i j hi hj
    subst hi hj
    exact ⟨(h op).1 j (by omega), fun right => (h op).2 right j (by omega)⟩
  · intro n he m hm s
    exact primary_agrees (fun s => (he m hm s).weaken) s

lemma declaration_agrees (hnm : n ≤ m)
    (hs : s.current.kind = .keywordVar ∨ s.current.kind = .keywordMut) :
    Agrees strict s (declaration n) (declaration m) := by
  apply Agrees.skip_bind (by rcases hs with hs | hs <;> simp [hs])
  have hrest (mutable : Bool) (s : TokenStream) (strict : Prop) : Agrees strict s
      (do
        let name ← expect .identifier .variableName
        if ← accept .assign then
          let e ← expression n
          return Statement.declaration mutable name.text (some e)
        else if mutable then return .declaration true name.text none
        else throw (.missingInitializer name))
      (do
        let name ← expect .identifier .variableName
        if ← accept .assign then
          let e ← expression m
          return .declaration mutable name.text (some e)
        else if mutable then return .declaration true name.text none
        else throw (.missingInitializer name)) := by
    apply Agrees.expect_bind (by decide)
    intro name
    apply Agrees.accept_bind (by decide)
    · apply (expression_agrees n m hnm _).weaken.bind
      exact fun _ _ _ => Agrees.pure _
    · cases mutable
      · exact Agrees.throw (by simp)
      · exact Agrees.pure _
  exact Agrees.accept_bind (by decide) (hrest true _ _) (hrest false _ _)

lemma statement_agrees (hn : n ≠ 0) (hnm : n ≤ m) (s : TokenStream) :
    Agrees strict s (statement n) (statement m) := by
  apply Agrees.current_bind
  split
  · next hs => exact declaration_agrees hnm (Or.inl hs)
  · next hs => exact declaration_agrees hnm (Or.inr hs)
  · apply ((expression_agrees n m hnm s).mono fun _ => hn).bind
    exact fun _ _ _ => Agrees.pure _

lemma programWithin_agrees (hn : n ≠ 0) (hnm : n ≤ m) (s : TokenStream) :
    Agrees True s (programWithin n) (programWithin m) := by
  apply (itemsUntil_agrees rfl (statement_consumes n) (statement_consumes m)
    (statement_agrees hn hnm) s []).bind
  exact fun _ _ _ => Agrees.pure _

end Varlet.Parser
