import Mathlib
import Varlet.Program.Parser

/-! What readers do to a token stream: they take tokens off its front, and end with a value or an
error. The rules follow the readers' own steps. -/

namespace Varlet

namespace TokenStream

def Reads (s : TokenStream) (ts : List Token) (r : TokenStream) : Prop :=
  s.pending = ts ++ r.pending ∧ s.final = r.final

variable {s m r : TokenStream} {t : Token} {ts us : List Token}

lemma Reads.refl (s : TokenStream) : s.Reads [] s := ⟨rfl, rfl⟩

lemma Reads.trans (h : s.Reads ts m) (h' : m.Reads us r) : s.Reads (ts ++ us) r := by
  refine ⟨?_, h.2.trans h'.2⟩
  rw [h.1, h'.1, List.append_assoc]

lemma Reads.split (h : s.Reads (ts ++ us) r) : ∃ m, s.Reads ts m ∧ m.Reads us r := by
  have hp : s.pending = ts ++ (us ++ r.pending) := by rw [h.1, List.append_assoc]
  have hk : ∀ t ∈ us ++ r.pending, t.kind ≠ .eof := by
    intro t ht
    apply s.pending_kind t
    rw [hp]
    exact List.mem_append_right _ ht
  exact ⟨⟨us ++ r.pending, r.final, hk, r.final_kind⟩, ⟨hp, h.2⟩, ⟨rfl, rfl⟩⟩

lemma Reads.unique (h : s.Reads ts m) (h' : s.Reads ts r) : m = r := by
  have hp : m.pending = r.pending := List.append_cancel_left (h.1.symm.trans h'.1)
  have hf : m.final = r.final := h.2.symm.trans h'.2
  cases m
  cases r
  simp_all

lemma Reads.tokens_unique (h : s.Reads ts r) (h' : s.Reads us r) : ts = us :=
  List.append_cancel_right (h.1.symm.trans h'.1)

lemma Reads.eq_of_nil (h : s.Reads [] r) : s = r := (Reads.refl s).unique h

lemma Reads.current_eq (h : s.Reads (t :: ts) r) : s.current = t := by
  simp [current, h.1]

lemma Reads.current_congr {s' r' : TokenStream} (h : s.Reads ts r) (h' : s'.Reads ts r')
    (hr : ts = [] → r'.current = r.current) : s'.current = s.current := by
  cases ts with
  | nil => rw [h.eq_of_nil, h'.eq_of_nil, hr rfl]
  | cons t ts => rw [h.current_eq, h'.current_eq]

lemma Reads.advance (h : s.Reads (t :: ts) r) : s.advance.Reads ts r := by
  refine ⟨?_, h.2⟩
  simp [TokenStream.advance, h.1]

lemma Reads.advance_eq (h : s.Reads [t] r) : s.advance = r := h.advance.eq_of_nil

lemma Reads.length_eq (h : s.Reads ts r) : s.pending.length = ts.length + r.pending.length := by
  rw [h.1, List.length_append]

lemma kind_of_pending_nil (h : s.pending = []) : s.current.kind = .eof := by
  simp [current, h, s.final_kind]

lemma reads_advance (h : s.current.kind ≠ .eof) : s.Reads [s.current] s.advance := by
  cases hp : s.pending with
  | nil => exact absurd (kind_of_pending_nil hp) h
  | cons t ts =>
    refine ⟨?_, rfl⟩
    simp [current, TokenStream.advance, hp]

lemma pending_nil_of_kind (h : s.current.kind = .eof) : s.pending = [] := by
  cases hp : s.pending with
  | nil => rfl
  | cons t ts =>
    have ht : t.kind ≠ .eof := s.pending_kind t (by simp [hp])
    exact absurd (by simpa [current, hp] using h) ht

end TokenStream

namespace Parser

variable {α β : Type} {s : TokenStream} {k : Token.Kind}

/-- Started at `s`, the reader ends behind some tokens of the stream: with a value as `ok` says, or
with an error as `bad` says. -/
structure Ends (s : TokenStream) (p : Parser α) (ok : List Token → α → TokenStream → Prop)
    (bad : List Token → ParseError → TokenStream → Prop) : Prop where
  of_ok {a r} : p s = .ok a r → ∃ ts, s.Reads ts r ∧ ok ts a r
  of_error {e r} : p s = .error e r → ∃ ts, s.Reads ts r ∧ bad ts e r

variable {ok : List Token → β → TokenStream → Prop}
variable {bad : List Token → ParseError → TokenStream → Prop}

lemma bind_ok {p : Parser α} {f : α → Parser β} {a : α} {m : TokenStream} (h : p s = .ok a m) :
    (p >>= f) s = f a m := by
  simp [bind, EStateM.bind, h]

lemma bind_error {p : Parser α} {f : α → Parser β} {e : ParseError} {m : TokenStream}
    (h : p s = .error e m) : (p >>= f) s = .error e m := by
  simp [bind, EStateM.bind, h]

lemma current_bind (f : Token → Parser β) (s : TokenStream) :
    (current >>= f) s = f s.current s := rfl

lemma Ends.of_result_ok {p : Parser β} {b : β} {r : TokenStream} {ts : List Token}
    (hp : p s = .ok b r) (hs : s.Reads ts r) (h : ok ts b r) : Ends s p ok bad where
  of_ok hp' := by
    rw [hp] at hp'
    cases hp'
    exact ⟨ts, hs, h⟩
  of_error hp' := by
    rw [hp] at hp'
    cases hp'

lemma Ends.of_result_error {p : Parser β} {e : ParseError} {r : TokenStream} {ts : List Token}
    (hp : p s = .error e r) (hs : s.Reads ts r) (h : bad ts e r) : Ends s p ok bad where
  of_ok hp' := by
    rw [hp] at hp'
    cases hp'
  of_error hp' := by
    rw [hp] at hp'
    cases hp'
    exact ⟨ts, hs, h⟩

lemma Ends.step {p q : Parser β} {m : TokenStream} {ts : List Token} (hs : s.Reads ts m)
    (hp : p s = q m) (h : Ends m q (fun us => ok (ts ++ us)) (fun us => bad (ts ++ us))) :
    Ends s p ok bad where
  of_ok hr := by
    obtain ⟨us, hu, hb⟩ := h.of_ok (hp.symm.trans hr)
    exact ⟨ts ++ us, hs.trans hu, hb⟩
  of_error hr := by
    obtain ⟨us, hu, he⟩ := h.of_error (hp.symm.trans hr)
    exact ⟨ts ++ us, hs.trans hu, he⟩

lemma Ends.of_eq {p q : Parser β} (hp : p s = q s) (h : Ends s q ok bad) : Ends s p ok bad :=
  Ends.step (.refl s) hp h

lemma Ends.mono {p : Parser β} {ok' : List Token → β → TokenStream → Prop}
    {bad' : List Token → ParseError → TokenStream → Prop} (h : Ends s p ok bad)
    (hok : ∀ ts b r, s.Reads ts r → ok ts b r → ok' ts b r)
    (hbad : ∀ ts e r, s.Reads ts r → bad ts e r → bad' ts e r) : Ends s p ok' bad' where
  of_ok hr := by
    obtain ⟨ts, hs, hb⟩ := h.of_ok hr
    exact ⟨ts, hs, hok ts _ _ hs hb⟩
  of_error hr := by
    obtain ⟨ts, hs, he⟩ := h.of_error hr
    exact ⟨ts, hs, hbad ts _ _ hs he⟩

lemma Ends.bind {p : Parser α} {f : α → Parser β} {ok' : List Token → α → TokenStream → Prop}
    {bad' : List Token → ParseError → TokenStream → Prop} (hp : Ends s p ok' bad')
    (hbad : ∀ ts e r, s.Reads ts r → bad' ts e r → bad ts e r)
    (hf : ∀ ts a m, s.Reads ts m → ok' ts a m →
      Ends m (f a) (fun us => ok (ts ++ us)) (fun us => bad (ts ++ us))) :
    Ends s (p >>= f) ok bad := by
  cases h : p s with
  | ok a m =>
    obtain ⟨ts, hs, ha⟩ := hp.of_ok h
    exact Ends.step hs (bind_ok h) (hf ts a m hs ha)
  | error e r =>
    obtain ⟨ts, hs, he⟩ := hp.of_error h
    exact Ends.of_result_error (bind_error h) hs (hbad ts e r hs he)

lemma Ends.pure {b : β} (h : ok [] b s) : Ends s (Pure.pure b) ok bad :=
  Ends.of_result_ok rfl (.refl s) h

lemma Ends.throw {e : ParseError} (h : bad [] e s) : Ends s (MonadExcept.throw e) ok bad :=
  Ends.of_result_error rfl (.refl s) h

lemma Ends.tooDeep (h : bad [] (.nestingTooDeep s.current) s) :
    Ends s (Parser.tooDeep : Parser β) ok bad :=
  Ends.of_result_error rfl (.refl s) h

lemma Ends.current_bind {f : Token → Parser β} (h : Ends s (f s.current) ok bad) :
    Ends s (Parser.current >>= f) ok bad :=
  Ends.of_eq (q := f s.current) rfl h

lemma Ends.skip_bind {f : Unit → Parser β} (hs : s.current.kind ≠ .eof)
    (h : Ends s.advance (f ()) (fun us => ok (s.current :: us))
      (fun us => bad (s.current :: us))) :
    Ends s (Parser.skip >>= f) ok bad :=
  Ends.step (TokenStream.reads_advance hs) rfl h

lemma accept_of_kind (h : s.current.kind = k) : accept k s = .ok true s.advance := by
  rw [accept, if_pos h]

lemma accept_of_ne (h : s.current.kind ≠ k) : accept k s = .ok false s := by
  rw [accept, if_neg h]

lemma expect_of_kind {x : Expectation} (h : s.current.kind = k) :
    expect k x s = .ok s.current s.advance := by
  rw [expect, if_pos h]

lemma expect_of_ne {x : Expectation} (h : s.current.kind ≠ k) :
    expect k x s = .error (.unexpectedToken s.current x) s := by
  rw [expect, if_neg h]

lemma operator_of_some {sort : Token.Kind → Option Operator} {op : Operator}
    (h : sort s.current.kind = some op) : operator? sort s = .ok (some op) s.advance := by
  rw [operator?, h]

lemma operator_of_none {sort : Token.Kind → Option Operator} (h : sort s.current.kind = none) :
    operator? sort s = .ok none s := by
  rw [operator?, h]

lemma Ends.accept_bind {f : Bool → Parser β} (hk : k ≠ .eof)
    (ht : s.current.kind = k → Ends s.advance (f true) (fun us => ok (s.current :: us))
      (fun us => bad (s.current :: us)))
    (hf : s.current.kind ≠ k → Ends s (f false) ok bad) :
    Ends s (accept k >>= f) ok bad := by
  by_cases h : s.current.kind = k
  · exact Ends.step (TokenStream.reads_advance (h.trans_ne hk)) (bind_ok (accept_of_kind h)) (ht h)
  · exact Ends.of_eq (bind_ok (accept_of_ne h)) (hf h)

lemma Ends.expect_bind {x : Expectation} {f : Token → Parser β} (hk : k ≠ .eof)
    (ht : s.current.kind = k → Ends s.advance (f s.current) (fun us => ok (s.current :: us))
      (fun us => bad (s.current :: us)))
    (hf : s.current.kind ≠ k → bad [] (.unexpectedToken s.current x) s) :
    Ends s (expect k x >>= f) ok bad := by
  by_cases h : s.current.kind = k
  · exact Ends.step (TokenStream.reads_advance (h.trans_ne hk)) (bind_ok (expect_of_kind h)) (ht h)
  · exact Ends.of_result_error (bind_error (expect_of_ne h)) (.refl s) (hf h)

lemma Ends.operator_bind {sort : Token.Kind → Option Operator} {f : Option Operator → Parser β}
    (hk : sort .eof = none)
    (ht : ∀ op, sort s.current.kind = some op → Ends s.advance (f (some op))
      (fun us => ok (s.current :: us)) (fun us => bad (s.current :: us)))
    (hf : sort s.current.kind = none → Ends s (f none) ok bad) :
    Ends s (operator? sort >>= f) ok bad := by
  cases h : sort s.current.kind with
  | some op =>
    have hs : s.current.kind ≠ .eof := by
      intro he
      simp [he, hk] at h
    exact Ends.step (TokenStream.reads_advance hs) (bind_ok (operator_of_some h)) (ht op h)
  | none => exact Ends.of_eq (bind_ok (operator_of_none h)) (hf h)

section Items

variable {stop : Token.Kind → Bool} {item : Parser α}

def Consumes (item : Parser α) : Prop :=
  ∀ ⦃s a r⦄, item s = .ok a r → r.pending.length < s.pending.length

lemma items_of_stop (h : stop s.current.kind) (before : List α) (count : ℕ) :
    items stop item before count s = .ok before.reverse s := by
  cases count with
  | zero => rfl
  | succ count =>
    rw [items, current_bind, if_pos h]
    rfl

lemma items_succ (h : ¬ stop s.current.kind) (before : List α) (count : ℕ) :
    items stop item before (count + 1) s =
      (item >>= fun a => items stop item (a :: before) count) s := by
  rw [items, current_bind, if_neg h]

lemma pending_pos (he : stop .eof) (h : ¬ stop s.current.kind) : 0 < s.pending.length := by
  apply List.length_pos_iff.mpr
  intro hp
  rw [TokenStream.kind_of_pending_nil hp] at h
  exact h he

lemma items_count (hi : Consumes item) (he : stop .eof) (before : List α) (count : ℕ)
    (hc : s.pending.length ≤ count) :
    items stop item before count s = itemsUntil stop item before s := by
  change _ = items stop item before s.pending.length s
  induction count using Nat.strong_induction_on generalizing s before with
  | _ count ih =>
    by_cases h : stop s.current.kind
    · rw [items_of_stop h, items_of_stop h]
    · have hpos := pending_pos he h
      obtain ⟨c, rfl⟩ : ∃ c, count = c + 1 := ⟨count - 1, by omega⟩
      obtain ⟨d, hd⟩ : ∃ d, s.pending.length = d + 1 := ⟨s.pending.length - 1, by omega⟩
      rw [hd, items_succ h, items_succ h]
      cases hr : item s with
      | ok a r =>
        have hlen := hi hr
        rw [bind_ok hr, bind_ok hr, ih c (by omega) _ (by omega), ih d (by omega) _ (by omega)]
      | error e r => rw [bind_error hr, bind_error hr]

lemma itemsUntil_of_stop (h : stop s.current.kind) (before : List α) :
    itemsUntil stop item before s = .ok before.reverse s :=
  items_of_stop h before _

lemma itemsUntil_item (hi : Consumes item) (he : stop .eof) (h : ¬ stop s.current.kind)
    (before : List α) :
    itemsUntil stop item before s =
      (item >>= fun a => itemsUntil stop item (a :: before)) s := by
  have hpos := pending_pos he h
  obtain ⟨c, hc⟩ : ∃ c, s.pending.length = c + 1 := ⟨s.pending.length - 1, by omega⟩
  change items stop item before s.pending.length s = _
  rw [hc, items_succ h]
  cases hr : item s with
  | ok a r =>
    have hlen := hi hr
    rw [bind_ok hr, bind_ok hr, items_count hi he _ _ (by omega)]
  | error e r => rw [bind_error hr, bind_error hr]

end Items

def objectRest (value : Parser Expr) (before : List (Property Expr)) : Parser Expr := do
  let ps ← itemsUntil endsObject (property value) before
  let _ ← expect .braceRight .closingBrace
  return .object ps

lemma level_eq (n : ℕ) : level n = (do
    if ← accept .braceLeft then objectRest (expression n) [] else sum n) := by
  rw [level]
  rfl

section Object

variable {value : Parser Expr} (before : List (Property Expr))

lemma objectRest_of_brace (h : s.current.kind = .braceRight) :
    objectRest value before s = .ok (.object before.reverse) s.advance := by
  rw [objectRest, bind_ok (itemsUntil_of_stop (by simp [endsObject, h]) _),
    bind_ok (expect_of_kind h)]
  rfl

lemma objectRest_of_eof (h : s.current.kind = .eof) :
    objectRest value before s = .error (.unexpectedToken s.current .closingBrace) s := by
  rw [objectRest, bind_ok (itemsUntil_of_stop (by simp [endsObject, h]) _)]
  exact bind_error (expect_of_ne (by simp [h]))

lemma objectRest_property (hv : Consumes (property value)) (hb : s.current.kind ≠ .braceRight)
    (he : s.current.kind ≠ .eof) :
    objectRest value before s = (property value >>= fun p => objectRest value (p :: before)) s := by
  have h : ¬ endsObject s.current.kind := by simp [endsObject, hb, he]
  have hstep := itemsUntil_item hv rfl h before
  cases hr : property value s with
  | ok p r =>
    rw [bind_ok hr] at hstep ⊢
    simp only [objectRest, bind, EStateM.bind, hstep]
  | error e r =>
    rw [bind_error hr] at hstep ⊢
    exact bind_error hstep

end Object

end Parser

end Varlet
