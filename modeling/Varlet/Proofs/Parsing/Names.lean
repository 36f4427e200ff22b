import Varlet.Proofs.Parsing.Height
import Varlet.Proofs.Parsing.RoundTrip

namespace Varlet

open Text Grammar

def Expr.NamesHere : Expr → Prop
  | .identifier name => IsName name
  | .object ps => ∀ p ∈ ps, IsName p.key ∧ p.value ≠ none
  | .assignment _ _ | .binary _ _ _ | .number _ | .null => True

def Expr.WellNamed (e : Expr) : Prop := ∀ d ∈ e.parts, d.NamesHere

def Statement.WellNamed : Statement → Prop
  | .declaration mutable name initializer =>
    IsName name ∧ (mutable = false → initializer ≠ none) ∧ ∀ e ∈ initializer, e.WellNamed
  | .expression e => e.WellNamed

def Program.WellNamed (p : Program) : Prop := ∀ s ∈ p.body, s.WellNamed

namespace Expr

variable {e target value left right : Expr} {op : Operator} {name key : String} {x : Float}
variable {ps : List (Property Expr)}

@[simp] lemma wellNamed_assignment :
    (Expr.assignment target value).WellNamed ↔ target.WellNamed ∧ value.WellNamed := by
  simp [WellNamed, parts, NamesHere, or_imp, forall_and]

@[simp] lemma wellNamed_binary :
    (Expr.binary left op right).WellNamed ↔ left.WellNamed ∧ right.WellNamed := by
  simp [WellNamed, parts, NamesHere, or_imp, forall_and]

@[simp] lemma wellNamed_identifier : (Expr.identifier name).WellNamed ↔ IsName name := by
  simp [WellNamed, parts, NamesHere]

@[simp] lemma wellNamed_number : (Expr.number x).WellNamed := by
  simp [WellNamed, parts, NamesHere]

@[simp] lemma wellNamed_null : Expr.null.WellNamed := by
  simp [WellNamed, parts, NamesHere]

@[simp] lemma wellNamed_object_nil : (Expr.object []).WellNamed := by
  simp [WellNamed, parts, propertiesParts, NamesHere]

@[simp] lemma not_wellNamed_object_none : ¬ (Expr.object (⟨key, none⟩ :: ps)).WellNamed := by
  simp [WellNamed, parts, NamesHere]

@[simp] lemma wellNamed_object_some :
    (Expr.object (⟨key, some e⟩ :: ps)).WellNamed ↔
      IsName key ∧ e.WellNamed ∧ (Expr.object ps).WellNamed := by
  simp only [WellNamed, parts, propertiesParts, NamesHere, List.forall_mem_cons,
    List.forall_mem_append]
  constructor
  · rintro ⟨⟨hkey, hps⟩, he, hparts⟩
    exact ⟨hkey.1, he, hps, hparts⟩
  · rintro ⟨hkey, he, hps, hparts⟩
    exact ⟨⟨⟨hkey, by simp⟩, hps⟩, he, hparts⟩

end Expr

lemma IsWord.isName {left word right : List Char} (h : IsWord left .identifier word right) :
    IsName (.ofList word) := by
  cases h with
  | punctuation hc =>
    have hnone : ∀ d ∈ Text.punctuation, d.2 ≠ .identifier := by decide
    exact absurd rfl (hnone _ hc)
  | identifier hrun hreserved =>
    refine ⟨by simpa using hrun.ne_nil, by simpa using hrun.all, ?_⟩
    simpa [String.ext_iff] using hreserved

lemma Lexes.isName {text : List Char} {words : List (Token.Kind × List Char)}
    (h : Lexes text words) : ∀ w ∈ words, w.1 = .identifier → IsName (.ofList w.2) := by
  induction h with
  | nil => simp
  | layout _ _ ih => exact ih
  | word hnext _ ih =>
    rw [List.forall_mem_cons]
    refine ⟨?_, ih⟩
    rintro rfl
    have hparted (right : List Char) : Parted [] right := by simp [Parted]
    exact (IsWord.of_next? hnext (hparted _)).isName

namespace Grammar

def Named (ts : List Token) : Prop := ∀ t ∈ ts, t.kind = .identifier → IsName t.text

@[simp] lemma named_append {ts us : List Token} : Named (ts ++ us) ↔ Named ts ∧ Named us :=
  List.forall_mem_append

@[simp] lemma named_cons {t : Token} {ts : List Token} :
    Named (t :: ts) ↔ (t.kind = .identifier → IsName t.text) ∧ Named ts :=
  List.forall_mem_cons

lemma Derives.wellNamed {X : Symbol} {ts : List Token} {e : Expr} {n : ℕ} (h : Derives X ts e n)
    (hts : Named ts) : e.WellNamed := by
  induction h with
    try simp only [named_append, named_cons] at hts
  | expression _ ih => exact ih hts
  | assignment _ _ _ iht ihv => exact Expr.wellNamed_assignment.mpr ⟨iht hts.1, ihv hts.2.2⟩
  | object _ _ ih => exact ih hts.2
  | level _ ih => exact ih hts
  | closing _ => exact Expr.wellNamed_object_nil
  | last hk _ _ _ ih =>
    exact Expr.wellNamed_object_some.mpr ⟨hts.1 hk, ih hts.2.2.1, Expr.wellNamed_object_nil⟩
  | member hk _ _ _ _ ih ihs =>
    exact Expr.wellNamed_object_some.mpr ⟨hts.1 hk, ih hts.2.2.1, ihs hts.2.2.2.2⟩
  | summand _ ih => exact ih hts
  | add _ _ _ ih ih' => exact Expr.wellNamed_binary.mpr ⟨ih hts.1, ih' hts.2.2⟩
  | factor _ ih => exact ih hts
  | multiply _ _ _ ih ih' => exact Expr.wellNamed_binary.mpr ⟨ih hts.1, ih' hts.2.2⟩
  | identifier hk => exact Expr.wellNamed_identifier.mpr (hts.1 hk)
  | number _ _ => exact Expr.wellNamed_number
  | null _ => exact Expr.wellNamed_null
  | parentheses _ _ _ ih => exact ih hts.2.1

lemma DerivesStatement.wellNamed {ts : List Token} {s : Statement} {n : ℕ}
    (h : DerivesStatement ts s n) (hts : Named ts) : s.WellNamed := by
  cases h with
    try simp only [named_cons] at hts
  | expression h => exact h.wellNamed hts
  | constant _ hn _ h => exact ⟨hts.2.1 hn, by simp, by simpa using h.wellNamed hts.2.2.2⟩
  | mutable _ _ hn _ h => exact ⟨hts.2.2.1 hn, by simp, by simpa using h.wellNamed hts.2.2.2.2⟩
  | uninitialized _ _ hn => exact ⟨hts.2.2.1 hn, by simp, by simp⟩

lemma DerivesProgram.wellNamed {ts : List Token} {body : List Statement} {n : ℕ}
    (h : DerivesProgram ts body n) (hts : Named ts) : ∀ s ∈ body, s.WellNamed := by
  induction h with
  | nil => simp
  | cons hs _ ih =>
    rw [named_append] at hts
    rw [List.forall_mem_cons]
    exact ⟨hs.wellNamed hts.1, ih hts.2⟩

end Grammar

lemma wellNamed_of_parse {source : String} {p : Program} (h : parse source = .ok p) :
    p.WellNamed := by
  obtain ⟨words, hlexes, n, -, hd⟩ := lexes_of_parse h
  apply hd.wellNamed
  intro t ht hkind
  obtain ⟨w, hw, rfl⟩ := List.mem_map.mp ht
  exact hlexes.isName w hw hkind

end Varlet
