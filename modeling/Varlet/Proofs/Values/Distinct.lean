import Varlet.Proofs.Lexing.Cut
import Varlet.Proofs.Numbers.Written
import Varlet.Proofs.Values.FiniteMaps
import Varlet.Value

/-! Displayed values can be told apart: under keys of letters, the text of a value shows where the
text of every part ends. -/

namespace Varlet

open Text

def IsKey (key : String) : Prop := key ≠ "" ∧ ∀ c ∈ key.toList, isLetter c

namespace Value

/-- Values whose keys are all made of letters. The entries of an object were put in in any order,
and of several under one key the last one counts. -/
inductive Built : Value → Prop
  | null : Built .null
  | number (x) : Built (.number x)
  | boolean (b) : Built (.boolean b)
  | object {entries} : (∀ e ∈ entries, IsKey e.1) → (∀ e ∈ entries, Built e.2) →
      Built (.ofFields entries)

/-- The values are the same: objects are finite maps, numbers are patterns of bits, so that zero and
minus zero differ, but all patterns that are not a number count as one. -/
inductive Identical : Value → Value → Prop
  | null : Identical .null .null
  | number {x y} : x.toBits = y.toBits ∨ (x.isNaN ∧ y.isNaN) → Identical (.number x) (.number y)
  | boolean (b) : Identical (.boolean b) (.boolean b)
  | object {fields others} :
      (∀ key, (fields.lookup key).isSome = (others.lookup key).isSome) →
      (∀ key v w, fields.lookup key = some v → others.lookup key = some w → Identical v w) →
      Identical (.object fields) (.object others)

section

variable {v w : Value} {fields others : List (String × Value)} {r r' : List Char}

lemma Built.increasing (h : (Value.object fields).Built) : Keyed.Increasing fields := by
  cases h
  exact Keyed.increasing_ofList _

lemma Built.entry (h : (Value.object fields).Built) : ∀ e ∈ fields, IsKey e.1 ∧ e.2.Built := by
  cases h with
  | object hkeys hvalues =>
    intro e he
    have hmem := Keyed.mem_of_mem_ofList he
    exact ⟨hkeys e hmem, hvalues e hmem⟩

lemma Built.lookup (h : (Value.object fields).Built) {key : String}
    (hv : fields.lookup key = some v) : v.Built :=
  (h.entry (key, v) (h.increasing.lookup_eq_some_iff.mp hv)).2

lemma Built.identical (h : v.Built) : v.Identical v := by
  induction h with
  | null => exact .null
  | number x => exact .number (.inl rfl)
  | boolean b => exact .boolean b
  | object _ _ ih =>
    refine .object (fun _ => rfl) fun key v w hv hw => ?_
    obtain rfl : v = w := Option.some.inj (hv.symm.trans hw)
    have hmem := (Keyed.increasing_ofList _).lookup_eq_some_iff.mp hv
    exact ih (key, v) (Keyed.mem_of_mem_ofList hmem)

lemma Identical.eq (h : v.Identical w) (hv : v.Built) (hw : w.Built) : v = w := by
  induction h with
  | null => rfl
  | boolean b => rfl
  | number hxy =>
    rcases hxy with hbits | ⟨hx, hy⟩
    · rw [Float.toBits_inj.mp hbits]
    · rw [Float.isNaN_eq_decide_eq_nan, decide_eq_true_eq] at hx hy
      rw [hx, hy]
  | object hkeys _ ih =>
    congr 1
    apply hv.increasing.eq_of_lookup hw.increasing
    intro key
    have hkey := hkeys key
    rcases hf : List.lookup key _ with - | v <;> rcases hg : List.lookup key _ with - | w
    · rfl
    · simp [hf, hg] at hkey
    · simp [hf, hg] at hkey
    · rw [ih key v w hf hg (hv.lookup hf) (hw.lookup hg)]

end

-- Objects with entries are the only values with a blank in their texts.
def IsAtom : Value → Prop
  | .object (_ :: _) => False
  | _ => True

lemma isAtom_or (v : Value) : v.IsAtom ∨ ∃ field fields, v = .object (field :: fields) := by
  match v with
  | .null | .number _ | .boolean _ | .object [] => exact .inl trivial
  | .object (field :: fields) => exact .inr ⟨field, fields, rfl⟩

def ofWord? (word : String) : Option Value :=
  if word = "null" then some .null
  else if word = "true" then some (.boolean true)
  else if word = "false" then some (.boolean false)
  else if word = "\x7b\x7d" then some (.object [])
  else (Number.read? word).map .number

def continues (c : Char) : Bool := c ≠ ',' && c ≠ ' '

section

variable {v w : Value} {fields others : List (String × Value)} {r r' : List Char}

lemma ofWord?_write (x : Float) : ofWord? (Number.plain.write x) = some (.number x) := by
  have hread := Number.read?_write x
  have hne {word : String} (hword : Number.read? word = none) : Number.plain.write x ≠ word := by
    rintro heq
    rw [heq, hword] at hread
    cases hread
  have hnull : Number.read? "null" = none := by decide +kernel
  have htrue : Number.read? "true" = none := by decide +kernel
  have hfalse : Number.read? "false" = none := by decide +kernel
  have hempty : Number.read? "\x7b\x7d" = none := by decide +kernel
  rw [ofWord?, if_neg (hne hnull), if_neg (hne htrue), if_neg (hne hfalse), if_neg (hne hempty),
    hread]
  rfl

lemma IsAtom.ofWord?_display (h : v.IsAtom) : ofWord? v.display = some v := by
  match v with
  | .null => simp [display, ofWord?]
  | .number x => rw [display, ofWord?_write]
  | .boolean true => simp [display, ofWord?]
  | .boolean false => simp [display, ofWord?]
  | .object [] => simp [display, ofWord?]

lemma IsAtom.continues (h : v.IsAtom) : ∀ c ∈ v.display.toList, Value.continues c := by
  match v with
  | .null => simp [display, Value.continues]
  | .number x =>
    intro c hc
    rw [display] at hc
    have hcomma : ¬ isLetter ',' ∧ ¬ isDigit ',' := by decide
    have hblank : ¬ isLetter ' ' ∧ ¬ isDigit ' ' := by decide
    rw [Value.continues, Bool.and_eq_true, decide_eq_true_eq, decide_eq_true_eq]
    rcases Number.mem_write hc with h | h | rfl | rfl
    · exact ⟨fun heq => hcomma.1 (heq ▸ h), fun heq => hblank.1 (heq ▸ h)⟩
    · exact ⟨fun heq => hcomma.2 (heq ▸ h), fun heq => hblank.2 (heq ▸ h)⟩
    · decide
    · decide
  | .boolean true => simp [display, Value.continues]
  | .boolean false => simp [display, Value.continues]
  | .object [] => simp [display, Value.continues]

def behind (r : List Char) : List (String × Value) → List Char
  | [] => ' ' :: '}' :: r
  | fields => ',' :: ' ' :: ((displayFields fields).toList ++ ' ' :: '}' :: r)

def Closed (r : List Char) : Prop := ∀ c ∈ r.head?, ¬ Value.continues c

lemma closed_behind (r : List Char) (fields : List (String × Value)) :
    Closed (behind r fields) := by
  cases fields <;> simp [Closed, behind, Value.continues]

lemma behind_cons (r : List Char) (key : String) (v : Value) (fields : List (String × Value)) :
    behind r ((key, v) :: fields) =
      ',' :: ' ' :: (key.toList ++ ':' :: ' ' :: (v.display.toList ++ behind r fields)) := by
  cases fields <;> simp [behind, displayFields]

lemma display_object (r : List Char) (field : String × Value) (fields : List (String × Value)) :
    ∃ text, behind r (field :: fields) = ',' :: ' ' :: text ∧
      (Value.object (field :: fields)).display.toList ++ r = '{' :: ' ' :: text := by
  exact ⟨_, rfl, by simp [display]⟩

lemma run_append_inj {P : Char → Bool} {word other : List Char} (hw : ∀ c ∈ word, P c)
    (ho : ∀ c ∈ other, P c) (hr : ∀ c ∈ r.head?, ¬ P c) (hr' : ∀ c ∈ r'.head?, ¬ P c)
    (h : word ++ r = other ++ r') : word = other ∧ r = r' := by
  have htake := congrArg (List.takeWhile P) h
  have hdrop := congrArg (List.dropWhile P) h
  rw [takeWhile_append_stop hw hr, takeWhile_append_stop ho hr'] at htake
  rw [dropWhile_append_stop hw hr, dropWhile_append_stop ho hr'] at hdrop
  exact ⟨htake, hdrop⟩

lemma IsAtom.display_append_inj (hv : v.IsAtom) (hr : Closed r) (hr' : Closed r')
    (h : v.display.toList ++ r = w.display.toList ++ r') : v = w ∧ r = r' := by
  rcases w.isAtom_or with hw | ⟨field, fields, rfl⟩
  · obtain ⟨hword, hrest⟩ := run_append_inj hv.continues hw.continues hr hr' h
    have hsome := hv.ofWord?_display
    rw [String.toList_inj.mp hword, hw.ofWord?_display] at hsome
    exact ⟨(Option.some.inj hsome).symm, hrest⟩
  · obtain ⟨text, -, htext⟩ := display_object r' field fields
    have hbrace : ∀ c ∈ "\x7b".toList, Value.continues c := by simp [Value.continues]
    have hblank : ∀ c ∈ (' ' :: text).head?, ¬ Value.continues c := by simp [Value.continues]
    obtain ⟨hword, -⟩ := run_append_inj hv.continues hbrace hr hblank (h.trans htext)
    have hnone : ofWord? "\x7b" = none := by decide +kernel
    have hsome := hv.ofWord?_display
    rw [String.toList_inj.mp hword, hnone] at hsome
    cases hsome

mutual

lemma display_append_inj (v w : Value) {r r' : List Char} (hv : v.Built) (hw : w.Built)
    (hr : Closed r) (hr' : Closed r') (h : v.display.toList ++ r = w.display.toList ++ r') :
    v = w ∧ r = r' := by
  match v with
  | .null | .number _ | .boolean _ | .object [] =>
    exact IsAtom.display_append_inj trivial hr hr' h
  | .object (f :: fs) =>
    rcases w.isAtom_or with hatom | ⟨g, gs, rfl⟩
    · exact (hatom.display_append_inj hr' hr h.symm).imp Eq.symm Eq.symm
    · obtain ⟨text, hbehind, htext⟩ := display_object r f fs
      obtain ⟨text', hbehind', htext'⟩ := display_object r' g gs
      have hfields : behind r (f :: fs) = behind r' (g :: gs) := by
        rw [hbehind, hbehind']
        simpa [htext, htext'] using h
      obtain ⟨heq, hrest⟩ := behind_inj (f :: fs) (g :: gs) hv.entry hw.entry hfields
      exact ⟨congrArg Value.object heq, hrest⟩

lemma behind_inj (fs gs : List (String × Value)) {r r' : List Char}
    (hf : ∀ e ∈ fs, IsKey e.1 ∧ e.2.Built) (hg : ∀ e ∈ gs, IsKey e.1 ∧ e.2.Built)
    (h : behind r fs = behind r' gs) : fs = gs ∧ r = r' := by
  match fs, gs with
  | [], [] => simpa [behind] using h
  | [], _ :: _ => simp [behind] at h
  | _ :: _, [] => simp [behind] at h
  | (key, v) :: fs, (other, w) :: gs =>
    obtain ⟨⟨hkey, hv⟩, hfs⟩ := List.forall_mem_cons.mp hf
    obtain ⟨⟨hother, hw⟩, hgs⟩ := List.forall_mem_cons.mp hg
    rw [behind_cons, behind_cons, List.cons_inj_right, List.cons_inj_right] at h
    have hcolon (text : List Char) : ∀ c ∈ (':' :: text).head?, ¬ isLetter c := by
      have : ¬ isLetter ':' := by decide
      simpa using this
    obtain ⟨hkeys, hvalues⟩ := run_append_inj hkey.2 hother.2 (hcolon _) (hcolon _) h
    rw [List.cons_inj_right, List.cons_inj_right] at hvalues
    obtain ⟨hvw, hbehind⟩ :=
      display_append_inj v w hv hw (closed_behind _ _) (closed_behind _ _) hvalues
    obtain ⟨heq, hrest⟩ := behind_inj fs gs hfs hgs hbehind
    have hentry : (key, v) = (other, w) := Prod.ext (String.toList_inj.mp hkeys) hvw
    exact ⟨congrArg₂ List.cons hentry heq, hrest⟩

end

theorem display_eq_iff (v w : Value) (hv : v.Built) (hw : w.Built) :
    v.display = w.display ↔ v.Identical w := by
  constructor
  · intro h
    have hnil : Closed [] := by simp [Closed]
    have hlists : v.display.toList ++ [] = w.display.toList ++ [] := by rw [h]
    rw [(display_append_inj v w hv hw hnil hnil hlists).1]
    exact hw.identical
  · intro h
    rw [h.eq hv hw]

theorem display_eq_iff_reordered :
    let one := number (Float.ofBits 0x3ff0000000000000)
    let v := ofFields [("b", one), ("a", ofFields [("null", null), ("NaN", number Number.nan)])]
    let w := ofFields [("a", ofFields [("NaN", one), ("NaN", number Number.nan), ("null", null)]),
      ("b", one)]
    v.Built ∧ w.Built ∧ v.Identical w := by
  intro one v w
  have ha : IsKey "a" := ⟨by decide, by simp; decide⟩
  have hb : IsKey "b" := ⟨by decide, by simp; decide⟩
  have hnull : IsKey "null" := ⟨by decide, by simp; decide⟩
  have hnan : IsKey "NaN" := ⟨by decide, by simp; decide⟩
  have hv : v.Built := by
    refine .object (by simp [ha, hb]) (List.forall_mem_cons.mpr ⟨.number _, ?_⟩)
    simp only [List.mem_singleton, forall_eq]
    exact .object (by simp [hnull, hnan]) (by simp [Built.null, Built.number])
  have hw : w.Built := by
    refine .object (by simp [ha, hb]) (List.forall_mem_cons.mpr ⟨?_, by simp [one, Built.number]⟩)
    exact .object (by simp [hnull, hnan]) (by simp [one, Built.null, Built.number])
  exact ⟨hv, hw, (display_eq_iff v w hv hw).mp (by decide +kernel)⟩

end

end Value

end Varlet
