import Ram.Proofs.Numeral
import Ram.Proofs.Source.Shift

/-!
# ASCII texts

In an ASCII text every character is one byte, so its length is its size (`utf8ByteSize_eq`) and
its first characters are its first bytes (`toByteArray_cut`). The decimal text of a number is one.
-/

namespace Ram.Text

def IsAscii (s : String) : Prop := ∀ c ∈ s.toList, c.utf8Size = 1

instance (s : String) : Decidable (IsAscii s) :=
  decidable_of_iff (s.toList.all (fun c => c.utf8Size == 1) = true) (by simp [IsAscii])

/-- The first `n` characters of a text. -/
def cut (s : String) (n : Nat) : String := String.ofList (s.toList.take n)

theorem cut_append_of_le {a : String} {n : Nat} (h : a.length ≤ n) (b : String) :
    cut (a ++ b) n = a ++ cut b (n - a.length) := by
  unfold cut
  rw [String.toList_append, List.take_append, String.length_toList,
    List.take_of_length_le (by rwa [String.length_toList]), String.ofList_append,
    String.ofList_toList]

theorem cut_append_of_lt {a : String} {n : Nat} (h : n < a.length) (b : String) :
    cut (a ++ b) n = cut a n := by
  unfold cut
  rw [String.toList_append, List.take_append_of_le_length]
  rw [String.length_toList]
  omega

namespace IsAscii

theorem append {a b : String} (ha : IsAscii a) (hb : IsAscii b) : IsAscii (a ++ b) := by
  intro c hc
  rw [String.toList_append] at hc
  rcases List.mem_append.mp hc with h | h
  · exact ha c h
  · exact hb c h

theorem join {ss : List String} (h : ∀ s ∈ ss, IsAscii s) : IsAscii (String.join ss) := by
  induction ss with
  | nil => exact fun c hc => nomatch hc
  | cons s ss ih =>
    rw [String.join_cons]
    exact (h s List.mem_cons_self).append (ih fun s hs => h s (.tail _ hs))

theorem utf8ByteSize_eq {s : String} (h : IsAscii s) : s.utf8ByteSize = s.length := by
  rw [← Source.byteSize_toList, ← String.length_toList]
  unfold IsAscii at h
  generalize s.toList = cs at h
  induction cs with
  | nil => rfl
  | cons c cs ih =>
    rw [Text.byteSize, h c List.mem_cons_self, ih fun c hc => h c (.tail _ hc), List.length_cons]
    omega

theorem toByteArray_cut {s : String} (h : IsAscii s) {n : Nat} (hn : n ≤ s.length) :
    (cut s n).toByteArray = s.toByteArray.extract 0 n := by
  have hs : s = cut s n ++ String.ofList (s.toList.drop n) := by
    rw [cut, ← String.ofList_append, List.take_append_drop, String.ofList_toList]
  have hcut : IsAscii (cut s n) := by
    intro c hc
    rw [cut, String.toList_ofList] at hc
    exact h c (List.mem_of_mem_take hc)
  have hlen : n = (cut s n).toByteArray.size := by
    rw [String.size_toByteArray, hcut.utf8ByteSize_eq, cut, String.length_ofList, List.length_take,
      String.length_toList]
    omega
  have hbytes := congrArg String.toByteArray hs
  rw [String.toByteArray_append] at hbytes
  rw [hbytes, ByteArray.extract_append_eq_left hlen]

theorem of_isDigit {c : Char} (h : c.isDigit = true) : c.utf8Size = 1 := by
  obtain ⟨-, h9⟩ := Char.isDigit_iff_toNat.mp h
  have hc : c.toNat ≤ 127 := Nat.le_trans h9 (by decide)
  exact Char.utf8Size_eq_one_iff.mpr hc

theorem toString_nat (n : Nat) : IsAscii (toString n) :=
  fun _ hc => of_isDigit (Numeral.isDigit_of_mem_repr hc)

theorem toString_int (z : Int) : IsAscii (toString z) := by
  intro c hc
  rcases Numeral.of_mem_toString hc with rfl | h
  · rfl
  · exact of_isDigit h

end IsAscii

end Ram.Text
