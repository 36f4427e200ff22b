import Mathlib
import Varlet.Keyed

/-! Keyed lists are finite maps. However the entries came about, their keys increase, so a list is
determined by what is found in it. -/

namespace Varlet.Keyed

variable {α : Type} {key : String} {a : α} {entries others : List (String × α)}

def Increasing (entries : List (String × α)) : Prop :=
  entries.Pairwise fun e f => e.1 < f.1

lemma mem_of_mem_insert {e : String × α} (h : e ∈ insert key a entries) :
    e = (key, a) ∨ e ∈ entries := by
  induction entries with
  | nil => exact .inl (List.mem_singleton.mp h)
  | cons f entries ih =>
    rw [insert] at h
    split_ifs at h
    · exact List.mem_cons.mp h
    · exact (List.mem_cons.mp h).imp_right (List.mem_cons_of_mem f)
    · rcases List.mem_cons.mp h with rfl | h
      · exact .inr List.mem_cons_self
      · exact (ih h).imp_right (List.mem_cons_of_mem f)

lemma Increasing.insert (h : Increasing entries) (key : String) (a : α) :
    Increasing (insert key a entries) := by
  induction entries with
  | nil => exact List.pairwise_singleton _ _
  | cons f entries ih =>
    obtain ⟨hf, hrest⟩ := List.pairwise_cons.mp h
    rw [Keyed.insert]
    split_ifs with hlt heq
    · refine List.pairwise_cons.mpr ⟨List.forall_mem_cons.mpr ⟨hlt, fun e he => ?_⟩, h⟩
      exact hlt.trans (hf e he)
    · exact List.pairwise_cons.mpr ⟨fun e he => heq ▸ hf e he, hrest⟩
    · have hgt : f.1 < key := lt_of_le_of_ne (not_lt.mp hlt) (Ne.symm heq)
      refine List.pairwise_cons.mpr ⟨fun e he => ?_, ih hrest⟩
      rcases mem_of_mem_insert he with rfl | he
      · exact hgt
      · exact hf e he

lemma increasing_foldl_insert (hinc : Increasing others) :
    let done := entries.foldl (fun done e => insert e.1 e.2 done) others
    Increasing done ∧ ∀ e ∈ done, e ∈ others ∨ e ∈ entries := by
  induction entries generalizing others with
  | nil => exact ⟨hinc, fun e he => .inl he⟩
  | cons f entries ih =>
    obtain ⟨hdone, hmem⟩ := ih (hinc.insert f.1 f.2)
    refine ⟨hdone, fun e he => ?_⟩
    rcases hmem e he with he | he
    · rcases mem_of_mem_insert he with rfl | he
      · exact .inr List.mem_cons_self
      · exact .inl he
    · exact .inr (List.mem_cons_of_mem f he)

lemma increasing_ofList (entries : List (String × α)) : Increasing (ofList entries) :=
  (increasing_foldl_insert List.Pairwise.nil).1

lemma mem_of_mem_ofList {e : String × α} (h : e ∈ ofList entries) : e ∈ entries :=
  ((increasing_foldl_insert List.Pairwise.nil).2 e h).resolve_left List.not_mem_nil

lemma Increasing.lookup_eq_some_iff (h : Increasing entries) :
    entries.lookup key = some a ↔ (key, a) ∈ entries := by
  induction entries with
  | nil => simp
  | cons f entries ih =>
    obtain ⟨hf, hrest⟩ := List.pairwise_cons.mp h
    obtain ⟨k, b⟩ := f
    rcases eq_or_ne key k with rfl | hne
    · have hnot : (key, a) ∉ entries := fun hmem => (hf _ hmem).false
      simp [hnot, eq_comm]
    · simp [List.lookup_cons, beq_eq_false_iff_ne.mpr hne, ih hrest, hne]

lemma Increasing.eq_of_lookup (h : Increasing entries) (h' : Increasing others)
    (hlookup : ∀ key, entries.lookup key = others.lookup key) : entries = others := by
  have hperm : entries.Perm others := by
    refine (List.perm_ext_iff_of_nodup (h.imp ?_) (h'.imp ?_)).mpr fun ⟨key, a⟩ => ?_
    · exact fun hlt heq => hlt.ne (congrArg Prod.fst heq)
    · exact fun hlt heq => hlt.ne (congrArg Prod.fst heq)
    · rw [← h.lookup_eq_some_iff, hlookup, h'.lookup_eq_some_iff]
  exact hperm.eq_of_pairwise (fun e f _ _ hlt hgt => (hlt.asymm hgt).elim) h h'

end Varlet.Keyed
