/-! Entries under text keys, kept in increasing order of their keys, so that two lists with the
same entries are equal however they came about. Keys compare by code points. -/

namespace Varlet.Keyed

variable {α : Type}

def insert (key : String) (a : α) : List (String × α) → List (String × α)
  | [] => [(key, a)]
  | (k, b) :: entries =>
    if key < k then (key, a) :: (k, b) :: entries
    else if key = k then (key, a) :: entries
    else (k, b) :: insert key a entries

def ofList (entries : List (String × α)) : List (String × α) :=
  entries.foldl (fun done e => insert e.1 e.2 done) []

theorem lookup_insert_self (key : String) (a : α) (entries : List (String × α)) :
    (insert key a entries).lookup key = some a := by
  induction entries with
  | nil => simp [insert]
  | cons e entries ih =>
    obtain ⟨k, b⟩ := e
    rw [insert]
    split
    · simp
    · split
      · simp
      · rename_i hne
        rw [List.lookup_cons, beq_eq_false_iff_ne.2 hne]
        exact ih

theorem lookup_insert_of_ne {key other : String} (h : other ≠ key) (a : α)
    (entries : List (String × α)) :
    (insert key a entries).lookup other = entries.lookup other := by
  have hb : (other == key) = false := beq_eq_false_iff_ne.2 h
  induction entries with
  | nil => simp [insert, List.lookup_cons, hb]
  | cons e entries ih =>
    obtain ⟨k, b⟩ := e
    rw [insert]
    split
    · rw [List.lookup_cons, hb]
    · split
      · rename_i heq
        subst heq
        simp [List.lookup_cons, hb]
      · simp [List.lookup_cons, ih]

end Varlet.Keyed
