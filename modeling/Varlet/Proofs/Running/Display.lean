import Varlet.Proofs.Numbers.Whole
import Varlet.Proofs.Running.Joining
import Varlet.Proofs.Scoping.Constants

namespace Varlet

open Text Grammar

mutual

/-- The value has a literal: its numbers are whole and not negative, and its keys, which increase,
are names. -/
def Value.Plain : Value → Prop
  | .null | .boolean _ => True
  | .number x => Number.IsWhole x
  | .object fields => fields.Pairwise (fun e f => e.1 < f.1) ∧ PlainFields fields

def PlainFields : List (String × Value) → Prop
  | [] => True
  | (key, v) :: fields => IsName key ∧ v.Plain ∧ PlainFields fields

end

mutual

def Value.depth : Value → ℕ
  | .null | .boolean _ | .number _ => 0
  | .object fields => fieldsDepth fields + 1

def fieldsDepth : List (String × Value) → ℕ
  | [] => 0
  | (_, v) :: fields => max v.depth (fieldsDepth fields)

end

mutual

def Value.literal : Value → Expr
  | .null => .null
  | .boolean b => .identifier (if b then "true" else "false")
  | .number x => .number x
  | .object fields => .object (literalFields fields)

def literalFields : List (String × Value) → List (Property Expr)
  | [] => []
  | (key, v) :: fields => ⟨key, some v.literal⟩ :: literalFields fields

end

def ReadsBack (e : Expr) (text : String) (depth : ℕ) : Prop :=
  ∃ words, ReadsAs text.toList words ∧ ∃ n ≤ depth + 1, Derives .expression (bare words) e n

def ReadsBackFields (ps : List (Property Expr)) (text : String) (depth : ℕ) : Prop :=
  ∃ words, ReadsAs text.toList words ∧ ∃ n ≤ depth + 1, ∀ closing : Token,
    closing.kind = .braceRight → Derives .members (bare words ++ [closing]) (.object ps) n

section

variable {e : Expr} {s t key : String} {ps : List (Property Expr)} {d m : ℕ}

lemma Prints.readsBack (h : Prints e s) (hr : e.rank = 0) : ReadsBack e s 0 := by
  obtain ⟨words, hw, n, hn, hd⟩ := h.spelled
  exact ⟨words, hw, n + 1, by omega, hd.ofPrimary⟩

lemma readsBack_empty : ReadsBack (.object []) "\x7b\x7d" 1 := by
  refine ⟨[(.braceLeft, ['{']), (.braceRight, ['}'])], ?_, 1, by omega, ?_⟩
  · intro c right others _ hr
    exact .sign braceLeft_mem (.sign braceRight_mem hr)
  · exact .expression (.object rfl (.closing rfl))

lemma ReadsBackFields.object (h : ReadsBackFields ps s d) :
    ReadsBack (.object ps) ("\x7b " ++ s ++ " \x7d") (d + 1) := by
  obtain ⟨words, hw, n, hn, hd⟩ := h
  refine ⟨(.braceLeft, ['{']) :: (words ++ [(.braceRight, ['}'])]), ?_, n + 1, by omega, ?_⟩
  · intro c right others _ hr
    have hfields := hw ' ' _ _ single_blank (Lexes.sign braceRight_mem hr).blank
    simpa using Lexes.sign braceLeft_mem hfields.blank
  · have hmembers := hd (.ofWord (.braceRight, ['}'])) rfl
    simpa using Derives.expression (.object (Token.kind_ofWord (.braceLeft, ['{'])) hmembers)

lemma ReadsBack.field (hk : IsName key) (h : ReadsBack e s d) :
    ReadsBackFields [⟨key, some e⟩] (key ++ ": " ++ s) d := by
  obtain ⟨words, hw, n, hn, hd⟩ := h
  refine ⟨(.identifier, key.toList) :: (.colon, [':']) :: words, ?_, n, hn, fun closing hc => ?_⟩
  · intro c right others hc hr
    simpa using hk.lexes_field (hw c right others hc hr)
  · have hmembers := Derives.last (Token.kind_ofWord (.identifier, key.toList))
      (Token.kind_ofWord (.colon, [':'])) hd hc
    simpa [Token.text_ofWord] using hmembers

lemma ReadsBackFields.cons (hk : IsName key) (h : ReadsBack e s d) (h' : ReadsBackFields ps t m) :
    ReadsBackFields (⟨key, some e⟩ :: ps) (key ++ ": " ++ s ++ ", " ++ t) (max d m) := by
  obtain ⟨words, hw, i, hi, hd⟩ := h
  obtain ⟨others, hw', j, hj, hd'⟩ := h'
  refine ⟨(.identifier, key.toList) :: (.colon, [':']) :: (words ++ (.comma, [',']) :: others), ?_,
    max i j, by omega, fun closing hc => ?_⟩
  · intro c right rest hc hr
    simpa using hk.lexes_field (hw.comma (hw' c right rest hc hr))
  · have hmembers := Derives.member (Token.kind_ofWord (.identifier, key.toList))
      (Token.kind_ofWord (.colon, [':'])) hd (Token.kind_ofWord (.comma, [','])) (hd' closing hc)
    simpa [Token.text_ofWord] using hmembers

lemma ReadsBack.parse_eq (h : ReadsBack e s d) (hd : d < maxNesting) :
    parse s = .ok ⟨[.expression e]⟩ := by
  obtain ⟨words, hw, n, hn, hderives⟩ := h
  have hblank := hw ' ' [] [] single_blank (.blank .nil)
  rw [List.append_nil] at hblank
  have hlexes := hblank.of_append_gap (by simp [isLayout, isSpace])
  have hprogram : DerivesProgram (bare words) [.expression e] n := by
    simpa using DerivesProgram.cons (.expression hderives) .nil
  have hfree := Comment.blankAll_of_free (hlexes.free hprogram.isChain)
  exact parse_of_lexes (hfree.symm ▸ hlexes) (by omega) hprogram

end

lemma isName_boolean (b : Bool) : IsName (if b then "true" else "false") := by
  cases b <;> exact ⟨by decide, by simp; decide, by decide⟩

mutual

lemma Value.readsBack : ∀ v : Value, v.Plain → ReadsBack v.literal v.display v.depth
  | .null, _ => Prints.null.readsBack rfl
  | .boolean b, _ => by
    rw [Value.display]
    exact (Prints.identifier (isName_boolean b)).readsBack rfl
  | .number x, h => by
    obtain ⟨hdigits, hx⟩ := Number.IsWhole.numeral h
    rw [Value.display]
    exact (Prints.number hdigits hx).readsBack rfl
  | .object [], _ => by
    rw [Value.display]
    exact readsBack_empty
  | .object (field :: fields), h => by
    rw [Value.display]
    exact (readsBack_fields (field :: fields) (by simp) h.2).object

lemma readsBack_fields : ∀ fields : List (String × Value), fields ≠ [] → PlainFields fields →
    ReadsBackFields (literalFields fields) (Value.displayFields fields) (fieldsDepth fields)
  | [(key, v)], _, h => by
    have hv := (v.readsBack h.2.1).field h.1
    simpa [fieldsDepth, Value.displayFields, literalFields] using hv
  | (key, v) :: field :: fields, _, h => by
    have hrest := readsBack_fields (field :: fields) (by simp) h.2.2
    simpa [fieldsDepth, Value.displayFields, literalFields] using
      ReadsBackFields.cons h.1 (v.readsBack h.2.1) hrest

end

lemma Keyed.insert_of_lt {α : Type} {key : String} {entries : List (String × α)}
    (h : ∀ e ∈ entries, e.1 < key) (a : α) :
    Keyed.insert key a entries = entries ++ [(key, a)] := by
  induction entries with
  | nil => rfl
  | cons e entries ih =>
    rw [List.forall_mem_cons] at h
    rw [Keyed.insert, if_neg h.1.asymm, if_neg h.1.ne', ih h.2, List.cons_append]

lemma Evaluation.lookup_of_fixes {c : Chain} {name : String} {v : Value}
    (h : c.inner.Fixes name v) : lookup name c = .ok v c := by
  have howner : c.owner? name = some c.inner := by
    simp [Chain.owner?, Chain.scopes, Scope.has, h.1]
  simp [lookup, howner, h.1]

def Chain.BindsGlobals (c : Chain) : Prop :=
  ∀ b : Bool, c.inner.Fixes (if b then "true" else "false") (.boolean b)

mutual

lemma Value.evaluate_literal {c : Chain} (hc : c.BindsGlobals) :
    ∀ v : Value, v.Plain → v.literal.evaluate c = .ok v c
  | .null, _ => by
    rw [Value.literal, Expr.evaluate]
    rfl
  | .boolean b, _ => by
    rw [Value.literal, Expr.evaluate]
    exact Evaluation.lookup_of_fixes (hc b)
  | .number x, _ => by
    rw [Value.literal, Expr.evaluate]
    rfl
  | .object fields, h => by
    rw [Value.literal, Expr.evaluate,
      Evaluation.bind_of_ok (evaluate_literalFields hc [] fields h.2 h.1)]
    rfl

lemma evaluate_literalFields {c : Chain} (hc : c.BindsGlobals) :
    ∀ done fields : List (String × Value), PlainFields fields →
      (done ++ fields).Pairwise (fun e f => e.1 < f.1) →
      evaluateProperties done (literalFields fields) c = .ok (done ++ fields) c
  | done, [], _, _ => by
    rw [literalFields, evaluateProperties, List.append_nil]
    rfl
  | done, (key, v) :: fields, h, hsorted => by
    have hlt : ∀ e ∈ done, e.1 < key := fun e he =>
      (List.pairwise_append.mp hsorted).2.2 e he (key, v) (by simp)
    have hrest := evaluate_literalFields hc (done ++ [(key, v)]) fields h.2.2 (by simpa using hsorted)
    rw [literalFields, evaluateProperties, Evaluation.bind_of_ok (v.evaluate_literal hc h.2.1),
      Keyed.insert_of_lt hlt, hrest, List.append_assoc, List.singleton_append]

end

lemma Value.echoes_literal (v : Value) : (Statement.expression v.literal).echoes := by
  cases v <;> rfl

namespace Session

lemma Reached.bindsGlobals {s : Session} (h : s.Reached) : s.chain.BindsGlobals := by
  intro b
  cases b with
  | false => exact h.fixes.2
  | true => exact h.fixes.1

theorem run_display (s : Session) (hs : s.Reached) (v : Value) (hv : v.Plain)
    (hd : v.depth ≤ 2047) (echo : Echo) :
    s.run v.display echo = ⟨.ok v, if echo = .statements then [v] else [], s⟩ := by
  have hparse := (v.readsBack hv).parse_eq (Nat.lt_succ_of_le hd)
  have hevaluate : (Statement.expression v.literal).evaluate s.chain = .ok v s.chain :=
    v.evaluate_literal hs.bindsGlobals hv
  have hrun : s.evaluate ⟨[.expression v.literal]⟩ echo =
      ⟨.ok v, (if echo = .statements then [v] else []).reverse, s⟩ := by
    simp [evaluate, Program.run, runStatements, hevaluate, v.echoes_literal, Except.mapError]
  rw [run_of_parse hparse, hrun]
  split_ifs <;> rfl

theorem run_display_nested :
    let s := (start.run "var mut a = true" .statements).session
    let v := Value.object [("a", .object []),
      ("é", .object [("b", .boolean false), ("c", .number (Float.ofBits 0x4028000000000000))])]
    v.display = "\x7b a: \x7b\x7d, é: \x7b b: false, c: 12 \x7d \x7d" ∧
      s.run v.display .statements = ⟨.ok v, [v], s⟩ := by
  intro s v
  have ha : IsName "a" := ⟨by decide, by simp; decide, by decide⟩
  have hb : IsName "b" := ⟨by decide, by simp; decide, by decide⟩
  have hc : IsName "c" := ⟨by decide, by simp; decide, by decide⟩
  have he : IsName "é" := ⟨by decide, by simp; decide, by decide⟩
  have hae : "a" < "é" := String.lt_iff_toList_lt.mpr (by decide)
  have hbc : "b" < "c" := String.lt_iff_toList_lt.mpr (by decide)
  have hnumber : Number.IsWhole (Float.ofBits 0x4028000000000000) := ⟨12, by decide +kernel⟩
  have hv : v.Plain := ⟨List.pairwise_pair.mpr hae, ha, ⟨.nil, trivial⟩, he,
    ⟨List.pairwise_pair.mpr hbc, hb, trivial, hc, hnumber, trivial⟩, trivial⟩
  have hdepth : v.depth ≤ 2047 := by simp [v, Value.depth, fieldsDepth]
  exact ⟨by decide +kernel, run_display s (.run _ _ .start) v hv hdepth .statements⟩

end Session

end Varlet
