import Mathlib
import Varlet.Script

/-! Texts as the bytes they are read from. No character but the line break has the byte of a line
break, so input that is cut at these bytes gives the lines it was made of. -/

namespace Varlet

lemma toList_loop (bytes : ByteArray) (i : ℕ) (read : List UInt8) :
    ByteArray.toList.loop bytes i read = read.reverse ++ bytes.data.toList.drop i := by
  fun_induction ByteArray.toList.loop bytes i read with
  | case1 i read hi ih =>
    have hlen : i < bytes.data.toList.length := by simpa using hi
    have hget : bytes.get! i = bytes.data[i]! := by
      cases bytes
      rfl
    rw [ih, List.drop_eq_getElem_cons hlen, hget, getElem!_pos bytes.data i hi, List.reverse_cons,
      List.append_assoc, Array.getElem_toList, List.singleton_append]
  | case2 i read hi =>
    rw [List.drop_eq_nil_of_le (by simpa using hi), List.append_nil]

lemma toList_eq_data (bytes : ByteArray) : bytes.toList = bytes.data.toList := by
  rw [ByteArray.toList, toList_loop, List.reverse_nil, List.nil_append, List.drop_zero]

lemma toList_toUTF8 (s : String) : s.toUTF8.toList = s.toList.flatMap String.utf8EncodeChar := by
  rw [toList_eq_data, String.toUTF8, ← String.utf8Encode_toList, List.utf8Encode]
  simp

lemma fromUTF8?_toUTF8 (s : String) : String.fromUTF8? s.toUTF8 = some s := by
  have hvalid : s.toUTF8.IsValidUTF8 := s.isValidUTF8
  rw [String.fromUTF8?, dif_pos hvalid]
  rfl

lemma byte_of_mem {c : Char} {b : UInt8} (h : b ∈ String.utf8EncodeChar c) :
    b.toNat = c.toNat ∨ 128 ≤ b.toNat := by
  change b.toNat = c.val.toNat ∨ 128 ≤ b.toNat
  rw [String.utf8EncodeChar] at h
  split_ifs at h <;>
    simp only [List.mem_cons, List.not_mem_nil, or_false, ← UInt8.toNat_inj,
      UInt8.toNat_ofNat'] at h <;>
    omega

lemma toNat_eq_of_mem {c : Char} {b : UInt8} (h : b ∈ String.utf8EncodeChar c)
    (hb : b.toNat < 128) : c.toNat = b.toNat :=
  ((byte_of_mem h).resolve_right (not_le.mpr hb)).symm

lemma mem_of_byte {line : String} {c : Char} {b : UInt8} (h : b ∈ line.toUTF8.toList)
    (hb : b.toNat < 128) (hc : c.toNat = b.toNat) : c ∈ line.toList := by
  rw [toList_toUTF8, List.mem_flatMap] at h
  obtain ⟨d, hd, hmem⟩ := h
  obtain rfl : d = c := Char.toNat_inj.mp ((toNat_eq_of_mem hmem hb).trans hc.symm)
  exact hd

namespace Shell

lemma splitLines_break {bs : List UInt8} (h : 10 ∉ bs) (line rest : List UInt8) :
    splitLines line (bs ++ 10 :: rest) = (line.reverse ++ bs ++ [10]) :: splitLines [] rest := by
  induction bs generalizing line with
  | nil => simp [splitLines]
  | cons b bs ih =>
    rw [List.mem_cons, not_or] at h
    simp [splitLines, Ne.symm h.1, ih h.2]

lemma splitLines_flatMap {ls : List (List UInt8)} (h : ∀ l ∈ ls, 10 ∉ l) :
    splitLines [] (ls.flatMap fun l => l ++ [10]) = ls.map fun l => l ++ [10] := by
  induction ls with
  | nil => rfl
  | cons l ls ih =>
    rw [List.forall_mem_cons] at h
    rw [List.flatMap_cons, List.append_assoc, List.singleton_append, splitLines_break h.1, ih h.2,
      List.reverse_nil, List.nil_append, List.map_cons]

def dropReturn (line : String) : String :=
  if line.toList.getLast? = some '\r' then .ofList line.toList.dropLast else line

lemma chomp_return (bs : List UInt8) : chomp (bs ++ [13, 10]) = bs := by
  simp [chomp]

lemma chomp_newline {bs : List UInt8} (h : bs.getLast? ≠ some 13) : chomp (bs ++ [10]) = bs := by
  obtain rfl | ⟨bs, b, rfl⟩ := List.eq_nil_or_concat bs
  · rfl
  · have hb : b ≠ 13 := by simpa using h
    simp [chomp, hb]

lemma chomp_toUTF8 (line : String) :
    chomp (line.toUTF8.toList ++ [10]) = (dropReturn line).toUTF8.toList := by
  by_cases hr : line.toList.getLast? = some '\r'
  · obtain ⟨cs, hcs⟩ := List.getLast?_eq_some_iff.mp hr
    have hcode : String.utf8EncodeChar '\r' = [13] := by decide
    rw [dropReturn, if_pos hr, toList_toUTF8, toList_toUTF8, hcs, List.dropLast_concat,
      String.toList_ofList, List.flatMap_append, List.flatMap_singleton, hcode, List.append_assoc]
    exact chomp_return _
  · rw [dropReturn, if_neg hr]
    refine chomp_newline fun hlast => hr ?_
    rw [toList_toUTF8] at hlast
    obtain hnil | ⟨cs, c, hcs⟩ := List.eq_nil_or_concat line.toList
    · simp [hnil] at hlast
    · have hlast' : (String.utf8EncodeChar c).getLast? = some 13 := by
        simpa [hcs, List.getLast?_append] using hlast
      have hc : c = '\r' :=
        Char.toNat_inj.mp (toNat_eq_of_mem (List.mem_of_getLast? hlast') (by decide))
      rw [hcs, hc, List.concat_eq_append, List.getLast?_concat]

lemma lineText_newline (line : String) :
    lineText (line.toUTF8.toList ++ [10]) = some (dropReturn line) := by
  rw [lineText, chomp_toUTF8, toList_eq_data, Array.toArray_toList]
  exact fromUTF8?_toUTF8 _

lemma linesOfBytes_join {lines : List String} (h : ∀ line ∈ lines, '\n' ∉ line.toList) :
    linesOfBytes (String.join (lines.map fun line => line ++ "\n")).toUTF8 =
      lines.map fun line => some (dropReturn line) := by
  have hbytes : (String.join (lines.map fun line => line ++ "\n")).toUTF8.toList =
      (lines.map fun line => line.toUTF8.toList).flatMap fun l => l ++ [10] := by
    have hcode : String.utf8EncodeChar '\n' = [10] := by decide
    simp only [toList_toUTF8]
    simp [List.flatMap_map, List.flatMap_assoc, hcode]
  have hbreak : ∀ l ∈ lines.map fun line => line.toUTF8.toList, 10 ∉ l := by
    simp only [List.mem_map, forall_exists_index, and_imp, forall_apply_eq_imp_iff₂]
    exact fun line hline hmem => h line hline (mem_of_byte hmem (by decide) rfl)
  rw [linesOfBytes, hbytes, splitLines_flatMap hbreak, List.map_map, List.map_map]
  exact List.map_congr_left fun line _ => lineText_newline line

end Shell

lemma Script.decode_toUTF8 (source : String) : decode source.toUTF8 = .ok source := by
  rw [decode, fromUTF8?_toUTF8]

end Varlet
