import Ram.Proofs.Source.Layout
import Ram.Proofs.Source.Shift

/-!
# Texts at places

`slice?` is the text at a span, if the span lies within the source and cuts no character;
`lineAt?` is the number of the line on which a byte lies. `codeSpan` are the bytes of a line before
its comment. `Stands src site text` says that a site is right in all three respects, and
`stands_of_split` gives it for every part of the code of a line.
-/

namespace Ram.Source

open Ram.Text

/-! ## Slices -/

/-- Cuts a text behind its first `n` bytes; none if these do not end where a character does. -/
def cutBytes? (n : Nat) : List Char → Option (List Char × List Char)
  | [] => if n = 0 then some ([], []) else none
  | c :: cs =>
    if n = 0 then some ([], c :: cs)
    else if c.utf8Size ≤ n then
      (cutBytes? (n - c.utf8Size) cs).map fun (front, rest) => (c :: front, rest)
    else none

theorem cutBytes?_append (as bs : List Char) :
    cutBytes? (byteSize as) (as ++ bs) = some (as, bs) := by
  induction as with
  | nil => cases bs <;> rfl
  | cons a as ih =>
    have hpos := a.utf8Size_pos
    rw [List.cons_append, byteSize, cutBytes?, if_neg (by omega), if_pos (by omega),
      Nat.add_sub_cancel_left, ih]
    rfl

theorem of_cutBytes?_eq_some : ∀ {n : Nat} {cs as bs : List Char},
    cutBytes? n cs = some (as, bs) → cs = as ++ bs ∧ byteSize as = n
  | n, [], as, bs, h => by
    rw [cutBytes?] at h
    split at h
    · rename_i hn
      cases h
      exact ⟨rfl, hn.symm⟩
    · cases h
  | n, c :: cs, as, bs, h => by
    rw [cutBytes?] at h
    split at h
    · rename_i hn
      cases h
      exact ⟨rfl, hn.symm⟩
    · split at h
      · rename_i hle
        obtain ⟨⟨front, rest⟩, hcut, heq⟩ := Option.map_eq_some_iff.mp h
        cases heq
        obtain ⟨rfl, hsize⟩ := of_cutBytes?_eq_some hcut
        refine ⟨rfl, ?_⟩
        rw [byteSize, hsize]
        omega
      · cases h

/-- The text at a span; none if it is not within the source, or if an end of it falls into a
character. -/
def slice? (src : String) (s : Span) : Option String :=
  (cutBytes? s.offset src.toList).bind fun c =>
    (cutBytes? s.length c.2).map fun d => String.ofList d.1

/-- A slice is what is left between two texts of which the first has as many bytes as the offset. -/
theorem slice?_eq_some {src : String} {s : Span} {t : String} :
    slice? src s = some t ↔ ∃ before after : List Char,
      src.toList = before ++ t.toList ++ after ∧ byteSize before = s.offset ∧
        byteSize t.toList = s.length := by
  rw [slice?, Option.bind_eq_some_iff]
  constructor
  · rintro ⟨⟨before, rest⟩, hcut, hrest⟩
    obtain ⟨⟨text, after⟩, hcut', rfl⟩ := Option.map_eq_some_iff.mp hrest
    obtain ⟨hsrc, hoffset⟩ := of_cutBytes?_eq_some hcut
    obtain ⟨rfl, hlength⟩ := of_cutBytes?_eq_some hcut'
    refine ⟨before, after, ?_, hoffset, ?_⟩
    · rw [hsrc, String.toList_ofList, List.append_assoc]
    · rw [String.toList_ofList, hlength]
  · rintro ⟨before, after, hsrc, hoffset, hlength⟩
    refine ⟨(before, t.toList ++ after), ?_, Option.map_eq_some_iff.mpr ⟨(t.toList, after), ?_, ?_⟩⟩
    · rw [hsrc, ← hoffset, List.append_assoc, cutBytes?_append]
    · rw [← hlength, cutBytes?_append]
    · exact String.ofList_toList

/-- The number of the line on which a byte lies: one more than there are newlines before it. -/
def lineAt? (src : String) (offset : Nat) : Option Nat :=
  (cutBytes? offset src.toList).map fun c => c.1.count '\n' + 1

/-! ## Lines -/

/-- The characters of the line with this number. -/
def lineChars (src : String) (n : Nat) : List Char := (src.toList.splitOn '\n').getD (n - 1) []

/-- The bytes of the line with this number that are not in a comment. -/
def codeSpan (src : String) (n : Nat) : Span :=
  ⟨extent ((src.toList.splitOn '\n').take (n - 1)), byteSize (code (lineChars src n))⟩

example : lineChars "END\nGOTO é # é" 2 = "GOTO é # é".toList ∧
    codeSpan "END\nGOTO é # é" 2 = ⟨4, 8⟩ ∧ slice? "END\nGOTO é # é" ⟨9, 2⟩ = some "é" ∧
    slice? "END\nGOTO é # é" ⟨9, 1⟩ = none ∧ lineAt? "END\nGOTO é # é" 9 = some 2 := by
  decide

/-- Lines with a newline behind each. -/
def unlines (raws : List (List Char)) : List Char := raws.flatMap (· ++ ['\n'])

theorem byteSize_unlines (raws : List (List Char)) : byteSize (unlines raws) = extent raws := by
  induction raws with
  | nil => rfl
  | cons raw raws ih =>
    have hcons : unlines (raw :: raws) = raw ++ ['\n'] ++ unlines raws := rfl
    rw [hcons, byteSize_append, byteSize_append, ih, extent]
    rfl

theorem count_unlines {raws : List (List Char)} (h : ∀ raw ∈ raws, '\n' ∉ raw) :
    (unlines raws).count '\n' = raws.length := by
  induction raws with
  | nil => rfl
  | cons raw raws ih =>
    obtain ⟨hraw, hraws⟩ := List.forall_mem_cons.mp h
    have hcons : unlines (raw :: raws) = raw ++ ['\n'] ++ unlines raws := rfl
    rw [hcons, List.count_append, List.count_append, ih hraws, List.count_eq_zero.mpr hraw,
      List.length_cons]
    simp [Nat.add_comm]

theorem exists_intercalate_eq (raw : List Char) (after : List (List Char)) :
    ∀ before : List (List Char), ∃ rest,
      ['\n'].intercalate (before ++ raw :: after) = unlines before ++ raw ++ rest
  | [] => by
    cases after with
    | nil => exact ⟨[], by simp [unlines]⟩
    | cons next after => exact ⟨['\n'] ++ ['\n'].intercalate (next :: after), by simp [unlines]⟩
  | first :: before => by
    obtain ⟨rest, hrest⟩ := exists_intercalate_eq raw after before
    refine ⟨rest, ?_⟩
    have hcons : unlines (first :: before) = first ++ ['\n'] ++ unlines before := rfl
    rw [List.cons_append, List.intercalate_cons_of_ne_nil (by simp), hrest, hcons]
    simp only [List.append_assoc]

/-! ## Places -/

/-- The text stands at the site: on the line of the site and before any comment on it. -/
structure Stands (src : String) (site : Site) (text : String) : Prop where
  slice : slice? src site.span = some text
  line : lineAt? src site.span.offset = some site.line
  inCode : site.span ≤ codeSpan src site.line

theorem Stands.length_pos {src : String} {site : Site} {text : String} (h : Stands src site text)
    (hne : text.toList ≠ []) : 0 < site.span.length := by
  obtain ⟨-, -, -, -, hlength⟩ := slice?_eq_some.mp h.slice
  rw [← hlength]
  cases htext : text.toList with
  | nil => exact absurd htext hne
  | cons c cs =>
    have := c.utf8Size_pos
    rw [byteSize]
    omega

section Split

variable {src : String} {before after : List (List Char)} {raw : List Char}
  (h : src.toList.splitOn '\n' = before ++ raw :: after)
include h

theorem lineChars_of_split : lineChars src (before.length + 1) = raw := by
  simp [lineChars, h]

theorem newline_notMem_of_split : '\n' ∉ raw :=
  newline_notMem_of_mem_splitOn (h ▸ List.mem_append_right before List.mem_cons_self)

/-- Every part of the code of a line stands where it is counted to stand. -/
theorem stands_of_split {pre text post : List Char} (hcode : code raw = pre ++ text ++ post) :
    Stands src ⟨before.length + 1, ⟨extent before + byteSize pre, byteSize text⟩⟩
      (String.ofList text) := by
  obtain ⟨rest, hrest⟩ := exists_intercalate_eq raw after before
  rw [← h, List.intercalate_splitOn] at hrest
  have hraw : raw = pre ++ text ++ post ++ raw.dropWhile (· ≠ '#') := by
    rw [← hcode]
    exact List.takeWhile_append_dropWhile.symm
  obtain ⟨tail, hsrc⟩ : ∃ tail, src.toList = unlines before ++ pre ++ (text ++ tail) := by
    refine ⟨post ++ raw.dropWhile (· ≠ '#') ++ rest, ?_⟩
    rw [hrest]
    nth_rewrite 1 [hraw]
    simp only [List.append_assoc]
  have hoffset : byteSize (unlines before ++ pre) = extent before + byteSize pre := by
    rw [byteSize_append, byteSize_unlines]
  refine ⟨?_, ?_, ?_⟩
  · refine slice?_eq_some.mpr ⟨unlines before ++ pre, tail, ?_, hoffset, ?_⟩
    · rw [hsrc, String.toList_ofList, List.append_assoc _ text tail]
    · rw [String.toList_ofList]
  · have hbefore : ∀ r ∈ before, '\n' ∉ r := fun r hr =>
      newline_notMem_of_mem_splitOn (h ▸ List.mem_append_left (raw :: after) hr)
    have hpre : '\n' ∉ pre := by
      intro hmem
      refine newline_notMem_of_split h ?_
      rw [hraw]
      simp [hmem]
    rw [lineAt?, ← hoffset, hsrc, cutBytes?_append, Option.map_some, List.count_append,
      count_unlines hbefore, List.count_eq_zero.mpr hpre]
  · have htake : (before ++ raw :: after).take before.length = before := List.take_left
    rw [codeSpan, lineChars_of_split h, h, hcode, Nat.add_sub_cancel, htake, Span.le_def]
    simp only [Span.stop, byteSize_append]
    omega

end Split

end Ram.Source
