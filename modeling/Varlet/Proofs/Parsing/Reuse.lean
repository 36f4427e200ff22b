import Varlet.Proofs.Parsing.Completeness
import Varlet.Proofs.Parsing.Indexing

namespace Varlet

namespace Parser

variable {s : TokenStream} {n : ℕ}

lemma primary_unreadable (h : s.current.kind = .number)
    (hx : Number.read? s.current.text = none) :
    primary n s = .error (.unexpectedToken s.current .expression) s.advance := by
  rw [primary, current_bind]
  simp only [h, hx]
  rfl

lemma primary_open (h : s.current.kind = .parenLeft) : primary n s = (do
    let e ← expression n
    let _ ← expect .parenRight .closingParenthesis
    return e : Parser Expr) s.advance := by
  rw [primary, current_bind]
  simp only [h]
  rfl

lemma primary_of_ne (hi : s.current.kind ≠ .identifier) (hn : s.current.kind ≠ .number)
    (hp : s.current.kind ≠ .parenLeft) (hk : s.current.kind ≠ .keywordNull) :
    primary n s = .error (.unexpectedToken s.current .expression) s := by
  rw [primary, current_bind]
  generalize s.current.kind = k at hi hn hp hk
  cases k
  all_goals first | contradiction | rfl

lemma program_of_done (h : s.pending = []) : program s = .ok ⟨[]⟩ s :=
  bind_ok (itemsUntil_of_stop (by simp [TokenStream.kind_of_pending_nil h]) [])

end Parser

namespace Indexed

section

variable {α : Type} {tokens : List Token} {d m n clock count : ℕ}

section Loops

variable {stop : Token.Kind → Bool} {item : Reader α} {reader : Parser α}

lemma follows_items (hi : Parser.Consumes reader) (he : stop .eof)
    (h : Follows tokens d d item reader) (hc : tokens.length < count) (before : List α) :
    Follows tokens d d (loop (itemRound stop item) count before)
      (Parser.itemsUntil stop reader before) := by
  intro s hs
  have hlen : s.view.pending.length < count :=
    hs.sound.pending_le.trans_lt (hs.tokens_eq ▸ hc)
  clear hc
  -- Every round but the last one takes a pending token.
  induction count generalizing s before with
  | zero => exact absurd hlen (Nat.not_lt_zero _)
  | succ count ih =>
    by_cases hstop : stop s.view.current.kind
    · have hround : itemRound stop item before s = .ok (.inr before.reverse) s := by
        rw [itemRound, bind_ok hs.current_eq, if_pos hstop]
        rfl
      rw [Parser.itemsUntil_of_stop hstop, loop, bind_ok hround]
      exact .ok hs
    · have hround : itemRound stop item before s =
          (item >>= fun a => pure (.inl (a :: before))) s := by
        rw [itemRound, bind_ok hs.current_eq, if_neg hstop]
      have hloop : loop (itemRound stop item) (count + 1) before s =
          (item >>= fun a => loop (itemRound stop item) count (a :: before)) s := by
        cases hitem : item s with
        | ok a t =>
          rw [bind_ok hitem] at hround
          rw [bind_ok hitem, loop, bind_ok hround]
        | error halt t =>
          rw [bind_error hitem] at hround
          rw [bind_error hitem, loop, bind_error hround]
      rw [Parser.itemsUntil_item hi he hstop, hloop]
      refine (h s hs).bind le_rfl fun a t ht hq => ih (a :: before) t ht ?_
      have hconsumed := hi hq
      omega

end Loops

def chainRest (depth count : ℕ) (sort : Token.Kind → Option Operator) (operand : Reader Expr)
    (left : Expr) : Reader Expr := do
  let e ← loop (chainRound sort operand) count left
  setDepth depth
  return e

lemma chainRest_succ (depth count : ℕ) (sort : Token.Kind → Option Operator)
    (operand : Reader Expr) (left : Expr) :
    chainRest depth (count + 1) sort operand left = (do
      match ← operator? sort with
      | none =>
        setDepth depth
        return left
      | some op =>
        enter
        let right ← operand
        chainRest depth count sort operand (.binary left op right)) := by
  simp only [chainRest, loop, chainRound, bind_assoc]
  congr 1
  funext o
  cases o <;> simp

section Chains

variable {sort : Token.Kind → Option Operator} {operand : Reader Expr} {left : Expr}

lemma follows_chain {p : Parser Expr} {q : Expr → Parser Expr} (h : Follows tokens d d operand p)
    (hq : ∀ left, Follows tokens d d (chainRest d clock sort operand left) (q left)) :
    Follows tokens d d (chain clock sort operand) (p >>= q) := by
  intro s hs
  have hchain : chain clock sort operand s =
      (operand >>= chainRest s.place.depth clock sort operand) s := rfl
  rw [hchain, hs.depth_eq]
  exact h.bind le_rfl hq s hs

lemma follows_rest_max (hs : sort .eof = none) (hd : maxNesting ≤ d) (hm : m ≤ d)
    (hle : m ≤ maxNesting) :
    Follows tokens d m (chainRest m (count + 1) sort operand left) (do
      match ← Parser.operator? sort with
      | none => return left
      | some _ => Parser.tooDeep) := by
  rw [chainRest_succ]
  refine (follows_operator hs).bind hm fun o => ?_
  cases o with
  | none => exact .setDepth_bind hle (follows_pure left)
  | some op => exact follows_tooDeep hd hm

lemma follows_rest {p : Parser Expr} {q : Expr → Parser Expr} (hs : sort .eof = none)
    (hd : d < maxNesting) (hm : m ≤ d) (hp : Follows tokens (d + 1) (d + 1) operand p)
    (hq : ∀ op right, Follows tokens (d + 1) m
      (chainRest m count sort operand (.binary left op right)) (q (.binary left op right))) :
    Follows tokens d m (chainRest m (count + 1) sort operand left) (do
      match ← Parser.operator? sort with
      | none => return left
      | some op => do
        let right ← p
        q (.binary left op right)) := by
  rw [chainRest_succ]
  refine (follows_operator hs).bind hm fun o => ?_
  cases o with
  | none => exact .setDepth_bind (hm.trans hd.le) (follows_pure left)
  | some op => exact .enter_bind hd (hp.bind (hm.trans d.le_succ) (hq op))

end Chains

section Parts

variable {value : Reader Expr} {reader : Parser Expr}

lemma Follows.check_expect {p r : Reader α} {f : Bool → Parser α} {k : Token.Kind} (x : Expectation)
    (hk : k ≠ .eof) (hp : Follows tokens d m p (f true)) (hr : Follows tokens d m r (f false)) :
    Follows tokens d m (do if ← check k then let _ ← expect k x; p else r)
      (Parser.accept k >>= f) := by
  intro s hs
  by_cases hc : s.view.current.kind = k
  · have hne := hc.trans_ne hk
    rw [bind_ok (hs.check_eq k), if_pos (decide_eq_true hc), bind_ok (hs.expect_of_kind hk hc),
      Parser.bind_ok (Parser.accept_of_kind hc), ← (hs.sound.next hne).2]
    exact hp _ (hs.next hne)
  · rw [bind_ok (hs.check_eq k), if_neg (by simpa using hc),
      Parser.bind_ok (Parser.accept_of_ne hc)]
    exact hr s hs

lemma follows_property (h : Follows tokens d d value reader) :
    Follows tokens d d (property value) (Parser.property reader) := by
  refine (follows_expect _ (by decide)).bind le_rfl fun key s hs => ?_
  rw [bind_ok (hs.check_eq .comma), bind_ok (hs.check_eq .braceRight), Parser.current_bind]
  by_cases hc : s.view.current.kind = .comma ∨ s.view.current.kind = .braceRight
  · rw [if_pos hc, if_pos (by simpa using hc)]
    exact follows_fail _ le_rfl s hs
  · rw [if_neg hc, if_neg (by simpa using hc)]
    refine (follows_expect _ (by decide)).bind le_rfl (fun _ => ?_) s hs
    refine h.bind le_rfl fun e t ht => ?_
    rw [bind_ok (ht.check_eq .braceRight), Parser.current_bind]
    by_cases hb : t.view.current.kind = .braceRight
    · rw [if_pos hb, if_pos (decide_eq_true hb)]
      exact .ok ht
    · rw [if_neg hb, if_neg (by simpa using hb)]
      exact (follows_expect _ (by decide)).bind le_rfl (fun _ => follows_pure _) t ht

lemma follows_primary (h : Follows tokens d d value (Parser.expression n)) :
    Follows tokens d d (primary value) (Parser.primary n) := by
  intro s hs
  by_cases hi : s.view.current.kind = .identifier
  · have hne := hi.trans_ne (by decide : Token.Kind.identifier ≠ .eof)
    rw [Parser.primary_identifier hi, primary, bind_ok (hs.accept_of_kind (by decide) hi),
      if_pos rfl, bind_ok hs.previous_next, ← (hs.sound.next hne).2]
    exact .ok (hs.next hne)
  rw [primary, bind_ok (hs.accept_of_ne hi), if_neg Bool.false_ne_true]
  by_cases hn : s.view.current.kind = .number
  · have hne := hn.trans_ne (by decide : Token.Kind.number ≠ .eof)
    rw [bind_ok (hs.accept_of_kind (by decide) hn), if_pos rfl, bind_ok hs.previous_next]
    cases hread : Number.read? s.view.current.text with
    | some x =>
      rw [Parser.primary_number hn hread, ← (hs.sound.next hne).2]
      exact .ok (hs.next hne)
    | none =>
      rw [Parser.primary_unreadable hn hread, ← (hs.sound.next hne).2]
      exact .error (hs.next hne) le_rfl
  rw [bind_ok (hs.accept_of_ne hn), if_neg Bool.false_ne_true]
  by_cases hp : s.view.current.kind = .parenLeft
  · have hne := hp.trans_ne (by decide : Token.Kind.parenLeft ≠ .eof)
    rw [bind_ok (hs.accept_of_kind (by decide) hp), if_pos rfl, Parser.primary_open hp,
      ← (hs.sound.next hne).2]
    refine h.bind le_rfl (fun e => ?_) s.next (hs.next hne)
    exact (follows_expect _ (by decide)).bind le_rfl fun _ => follows_pure e
  rw [bind_ok (hs.accept_of_ne hp), if_neg Bool.false_ne_true]
  by_cases hk : s.view.current.kind = .keywordNull
  · have hne := hk.trans_ne (by decide : Token.Kind.keywordNull ≠ .eof)
    rw [bind_ok (hs.accept_of_kind (by decide) hk), if_pos rfl, Parser.primary_null hk,
      ← (hs.sound.next hne).2]
    exact .ok (hs.next hne)
  rw [bind_ok (hs.accept_of_ne hk), if_neg Bool.false_ne_true, bind_ok hs.current_eq,
    Parser.primary_of_ne hi hn hp hk]
  exact .error hs le_rfl

lemma follows_level (hi : Parser.Consumes (Parser.property (Parser.expression n)))
    (hc : tokens.length < clock) (h : Follows tokens d d value (Parser.expression n))
    (hsum : Follows tokens d d (sum clock value) (Parser.sum n)) :
    Follows tokens d d (level clock value) (Parser.level n) := by
  rw [Parser.level]
  refine (follows_accept (by decide)).bind le_rfl fun b => ?_
  cases b with
  | false => exact hsum
  | true =>
    refine (follows_items hi rfl (follows_property h) hc []).bind le_rfl fun ps => ?_
    exact (follows_expect _ (by decide)).bind le_rfl fun _ => follows_pure _

lemma follows_assignment (hl : Follows tokens d d (level clock value) (Parser.level n))
    (h : Follows tokens d d value (Parser.expression n)) :
    Follows tokens d d (assignment clock value) (do
      let target ← Parser.level n
      if ← Parser.accept .assign then
        let e ← Parser.expression n
        return .assignment target e
      else return target) := by
  refine hl.bind le_rfl fun target => ?_
  refine (follows_accept (by decide)).bind le_rfl fun b => ?_
  cases b with
  | false => exact follows_pure target
  | true => exact h.bind le_rfl fun e => follows_pure _

end Parts

section Within

variable {sort : Token.Kind → Option Operator} {operand : ℕ → Reader Expr} {left : Expr}

def FollowsWithin (tokens : List Token) (n : ℕ) (p : ℕ → Reader Expr) (q : Parser Expr) : Prop :=
  ∀ d clock, d + n = maxNesting → n + tokens.length < clock → Follows tokens d d (p clock) q

def RestFollowsWithin (tokens : List Token) (n : ℕ) (sort : Token.Kind → Option Operator)
    (operand : ℕ → Reader Expr) (left : Expr) (q : Parser Expr) : Prop :=
  ∀ d m clock count, d + n = maxNesting → m ≤ d → n + tokens.length < clock → n < count →
    Follows tokens d m (chainRest m count sort (operand clock) left) q

lemma chain_within {p : Parser Expr} {q : Expr → Parser Expr}
    (hp : FollowsWithin tokens n operand p)
    (hq : ∀ left, RestFollowsWithin tokens n sort operand left (q left)) :
    FollowsWithin tokens n (fun clock => chain clock sort (operand clock)) (p >>= q) := by
  intro d clock hd hc
  exact follows_chain (hp d clock hd hc) fun left =>
    hq left d d clock clock hd le_rfl hc (by omega)

lemma rest_within_zero (hs : sort .eof = none) :
    RestFollowsWithin tokens 0 sort operand left (do
      match ← Parser.operator? sort with
      | none => return left
      | some _ => Parser.tooDeep) := by
  intro d m clock count hd hm _ hcount
  obtain ⟨count, rfl⟩ : ∃ c, count = c + 1 := ⟨count - 1, by omega⟩
  exact follows_rest_max hs (by omega) hm (by omega)

lemma rest_within_succ {p : Parser Expr} {q : Expr → Parser Expr} (hs : sort .eof = none)
    (hp : FollowsWithin tokens n operand p)
    (hq : ∀ op right, RestFollowsWithin tokens n sort operand (.binary left op right)
      (q (.binary left op right))) :
    RestFollowsWithin tokens (n + 1) sort operand left (do
      match ← Parser.operator? sort with
      | none => return left
      | some op => do
        let right ← p
        q (.binary left op right)) := by
  intro d m clock count hd hm hc hcount
  obtain ⟨count, rfl⟩ : ∃ c, count = c + 1 := ⟨count - 1, by omega⟩
  have hdepth : d + 1 + n = maxNesting := by omega
  have hclock : n + tokens.length < clock := by omega
  exact follows_rest hs (by omega) hm (hp (d + 1) clock hdepth hclock) fun op right =>
    hq op right (d + 1) m clock count hdepth (hm.trans d.le_succ) hclock (by omega)

end Within

lemma follows_expression (tokens : List Token) (n : ℕ) :
    FollowsWithin tokens n expression (Parser.expression n) := by
  have hadd : Token.Kind.additive? .eof = none := rfl
  have hmul : Token.Kind.multiplicative? .eof = none := rfl
  refine (Parser.expression.mutual_induct
    (fun n => FollowsWithin tokens n expression (Parser.expression n))
    (fun n => FollowsWithin tokens n (fun clock => level clock (expression clock))
      (Parser.level n))
    (fun n => FollowsWithin tokens n (fun clock => sum clock (expression clock)) (Parser.sum n))
    (fun n left => RestFollowsWithin tokens n Token.Kind.additive?
      (fun clock => product clock (expression clock)) left (Parser.sumRest n left))
    (fun n => FollowsWithin tokens n (fun clock => product clock (expression clock))
      (Parser.product n))
    (fun n left => RestFollowsWithin tokens n Token.Kind.multiplicative?
      (fun clock => primary (expression clock)) left (Parser.productRest n left))
    (fun n => FollowsWithin tokens n (fun clock => primary (expression clock))
      (Parser.primary n))
    ?_ ?_ ?_ ?_ ?_ ?_ ?_ ?_).1 n
  · intro d clock hd hc
    obtain ⟨c, rfl⟩ : ∃ c, clock = c + 1 := ⟨clock - 1, by omega⟩
    rw [Parser.expression]
    exact follows_tooDeep (by omega) le_rfl
  · intro n hl he d clock hd hc
    obtain ⟨c, rfl⟩ : ∃ c, clock = c + 1 := ⟨clock - 1, by omega⟩
    have hdepth : d + 1 + n = maxNesting := by omega
    have hclock : n + tokens.length < c := by omega
    have hassignment := follows_assignment (hl (d + 1) c hdepth hclock) (he (d + 1) c hdepth hclock)
    rw [Parser.expression]
    exact .enter_bind (by omega) hassignment.leaving
  · intro n he hs d clock hd hc
    exact follows_level (Parser.property_consumes (Parser.expression_sound n)) (by omega)
      (he d clock hd hc) (hs d clock hd hc)
  · intro n hp hr
    rw [Parser.sum]
    exact chain_within hp hr
  · intro n left h
    rw [Parser.sumRest]
    cases n with
    | zero => exact rest_within_zero hadd
    | succ n => exact rest_within_succ hadd (h .add).1 fun op right => (h op).2 right
  · intro n hp hr
    rw [Parser.product]
    exact chain_within hp hr
  · intro n left h
    rw [Parser.productRest]
    cases n with
    | zero => exact rest_within_zero hmul
    | succ n => exact rest_within_succ hmul (h .add).1 fun op right => (h op).2 right
  · intro n he d clock hd hc
    exact follows_primary (he d clock hd hc)

lemma follows_declaration (hd : d + n = maxNesting) (hc : n + tokens.length < clock) :
    Follows tokens d d (declaration clock) (Parser.declaration n) := by
  refine follows_consume.bind le_rfl fun _ => ?_
  refine (follows_accept (by decide)).bind le_rfl fun mutable => ?_
  refine (follows_expect _ (by decide)).bind le_rfl fun name => ?_
  apply Follows.check_expect _ (by decide)
  · exact (follows_expression tokens n d clock hd hc).bind le_rfl fun e => follows_pure _
  · cases mutable with
    | false => exact follows_fail _ le_rfl
    | true => exact follows_pure _

lemma follows_statement (hd : d + n = maxNesting) (hc : n + tokens.length < clock) :
    Follows tokens d d (statement clock) (Parser.statement n) := by
  refine follows_current.bind le_rfl fun token => ?_
  generalize token.kind = k
  cases k
  case keywordVar => exact follows_declaration hd hc
  case keywordMut => exact follows_declaration hd hc
  all_goals exact (follows_expression tokens n d clock hd hc).bind le_rfl fun e => follows_pure _

lemma follows_program (hc : maxNesting + tokens.length < clock) :
    Follows tokens d 0 (program clock) Parser.program := by
  apply Follows.setDepth_bind maxNesting.zero_le
  refine (follows_items (Parser.statement_consumes maxNesting) rfl
    (follows_statement (Nat.zero_add _) hc) (by omega) []).bind le_rfl fun body => ?_
  exact follows_pure _

end

namespace State

lemma exists_end (ts : List Token) : ∃ t ∈ (ofTokens ts).tokens, t.kind = .eof := by
  rw [ofTokens]
  dsimp only
  split_ifs with h
  · obtain ⟨t, ht, hk⟩ := Option.map_eq_some_iff.mp h
    exact ⟨t, List.mem_of_getLast? ht, hk⟩
  · exact ⟨_, List.mem_append_right _ (List.mem_singleton_self _), rfl⟩

lemma sound_ofTokens (ts : List Token) : (ofTokens ts).Sound where
  ends := exists_end ts
  within := by
    obtain ⟨t, ht, -⟩ := exists_end ts
    refine List.forall_mem_singleton.mpr ⟨List.length_pos_of_mem ht, ?_, maxNesting.zero_le⟩
    intro u hu
    simp [ofTokens] at hu
  forward := List.pairwise_singleton _ _

lemma view_ofTokens (ts : List Token) : (ofTokens ts).view = .ofTokens ts := by
  rw [view, ofTokens, List.drop_zero]
  dsimp only
  split_ifs with h
  · rfl
  · apply TokenStream.eq_of_pending
    · simp only [TokenStream.ofTokens, List.takeWhile_append]
      split_ifs with hlen
      · have hend (p : Position) : [Token.endAt p].takeWhile (fun t => t.kind ≠ .eof) = [] := rfl
        rw [hend, List.append_nil]
        exact ((List.takeWhile_sublist _).eq_of_length hlen).symm
      · rfl
    · simp only [TokenStream.ofTokens, List.find?_append]
      cases ts.find? fun t => t.kind = .eof with
      | none => rfl
      | some t => rfl

end State

def outcome? : EStateM.Result Halt State Program → Option (Except ParseError Program)
  | .ok p _ => some (.ok p)
  | .error (.fault e) _ => some (.error e)
  | .error _ _ => none

def endState : EStateM.Result Halt State Program → State
  | .ok _ s => s
  | .error _ s => s

section

variable {tokens : List Token} {d clock : ℕ} {s : State}

lemma programs_eq (hs : At tokens d s) (hc : maxNesting + tokens.length < clock) (count : ℕ) :
    (programs clock count s).map outcome? = (Parser.programs s.view count).map some ∧
      ∀ run ∈ programs clock count s, ∃ n, At tokens n (endState run) := by
  induction count generalizing s d with
  | zero => simp [programs, Parser.programs]
  | succ count ih =>
    have hrun := follows_program hc s hs
    rw [programs, Parser.programs]
    generalize Parser.program s.view = x at hrun
    generalize program clock s = y at hrun
    cases hrun with
    | ok ht =>
      obtain ⟨hmap, hall⟩ := ih ht
      exact ⟨congrArg₂ List.cons rfl hmap, List.forall_mem_cons.mpr ⟨⟨_, ht⟩, hall⟩⟩
    | error ht hn =>
      obtain ⟨hmap, hall⟩ := ih ht
      exact ⟨congrArg₂ List.cons rfl hmap, List.forall_mem_cons.mpr ⟨⟨_, ht⟩, hall⟩⟩

lemma programs_of_done (hs : At tokens d s) (hc : maxNesting + tokens.length < clock)
    (hp : s.view.pending = []) (count : ℕ) :
    ∀ run ∈ programs clock count s, ∃ r, run = .ok ⟨[]⟩ r := by
  induction count generalizing s d with
  | zero => simp [programs]
  | succ count ih =>
    have hrun := follows_program hc s hs
    rw [Parser.program_of_done hp] at hrun
    obtain ⟨t, ht, hat, hview⟩ := hrun.of_ok
    rw [programs, ht]
    exact List.forall_mem_cons.mpr ⟨⟨t, rfl⟩, ih hat (hview ▸ hp)⟩

lemma programs_pairwise (hs : At tokens d s) (hc : maxNesting + tokens.length < clock)
    (count : ℕ) : (programs clock count s).Pairwise fun run later =>
      (∃ p r, run = .ok p r) → ∃ r, later = .ok ⟨[]⟩ r := by
  induction count generalizing s d with
  | zero => exact List.Pairwise.nil
  | succ count ih =>
    have hrun := follows_program hc s hs
    rw [programs]
    generalize hq : Parser.program s.view = x at hrun
    generalize program clock s = y at hrun
    cases hrun with
    | ok ht =>
      obtain ⟨-, -, hdone, -⟩ := (Parser.programWithin_sound maxNesting s.view).of_ok hq
      exact List.pairwise_cons.mpr ⟨fun later hl _ => programs_of_done ht hc hdone count later hl,
        ih ht⟩
    | error ht hn =>
      refine List.pairwise_cons.mpr ⟨fun later _ hok => ?_, ih ht⟩
      obtain ⟨p, r, hp⟩ := hok
      cases hp

lemma statement_advances (hs : s.Sound) (hc : maxNesting + s.tokens.length < clock)
    {st : Statement} {r : State} (h : statement clock s = .ok st r) :
    s.place.index < r.place.index := by
  have hat : At s.tokens s.place.depth s := ⟨hs, rfl, rfl⟩
  obtain ⟨n, hn⟩ := Nat.exists_eq_add_of_le hat.depth_le
  have hrun : Mirrors s.tokens s.place.depth (Parser.statement n s.view) (statement clock s) :=
    follows_statement hn.symm (by omega) s hat
  rw [h] at hrun
  generalize hq : Parser.statement n s.view = x at hrun
  cases hrun with
  | ok ht =>
    have hconsumed := Parser.statement_consumes n hq
    have hbefore := hs.index_add
    have hafter := ht.sound.index_add
    rw [ht.tokens_eq] at hafter
    omega

end

/-- With a clock that ticks more often than there are levels and tokens, every run over any tokens
ends as the run of the stream does. The reader has then always been within the tokens and within the
limit of nesting, and has never gone back. -/
theorem programs_end (ts : List Token) (count clock : ℕ)
    (hc : maxNesting + ts.length + 1 < clock) :
    let runs := programs clock count (.ofTokens ts)
    runs.map outcome? = (Parser.programs (.ofTokens ts) count).map some ∧
      (∀ run ∈ runs, (endState run).Sound ∧ (endState run).tokens = (State.ofTokens ts).tokens) ∧
      (runs.Pairwise fun run later => (∃ p r, run = .ok p r) → ∃ r, later = .ok ⟨[]⟩ r) ∧
      ∀ (s : State) (st : Statement) (r : State), s.Sound →
        s.tokens = (State.ofTokens ts).tokens → statement clock s = .ok st r →
        s.place.index < r.place.index := by
  intro runs
  have hlen : (State.ofTokens ts).tokens.length ≤ ts.length + 1 := by
    rw [State.ofTokens]
    dsimp only
    split_ifs
    · exact Nat.le_succ _
    · rw [List.length_append, List.length_singleton]
  have hs : At (State.ofTokens ts).tokens 0 (.ofTokens ts) := ⟨State.sound_ofTokens ts, rfl, rfl⟩
  have hclock : maxNesting + (State.ofTokens ts).tokens.length < clock := by omega
  obtain ⟨hmap, hall⟩ := programs_eq hs hclock count
  rw [State.view_ofTokens] at hmap
  refine ⟨hmap, fun run hrun => ?_, programs_pairwise hs hclock count,
    fun s st r hsound htokens h => ?_⟩
  · obtain ⟨n, hn⟩ := hall run hrun
    exact ⟨hn.sound, hn.tokens_eq⟩
  · exact statement_advances hsound (htokens ▸ hclock) h

theorem programs_end_reused :
    let unreadable : Token := ⟨.number, "x", .start, .start⟩
    let ts := [unreadable, ⟨.identifier, "y", .start, .start⟩, .endAt .start, Parser.filler .plus]
    (programs 2054 3 (.ofTokens ts)).map outcome? =
      [some (.error (.unexpectedToken unreadable .expression)),
        some (.ok ⟨[.expression (.identifier "y")]⟩), some (.ok ⟨[]⟩)] ∧
      ∀ run ∈ programs 2054 3 (.ofTokens ts), (endState run).Sound := by
  intro unreadable ts
  obtain ⟨hruns, hsound, -⟩ := programs_end ts 3 2054 (by decide)
  refine ⟨hruns.trans ?_, fun run hrun => (hsound run hrun).1⟩
  cbv

end Indexed

end Varlet
