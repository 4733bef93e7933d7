import Ram.Source.Line

/-!
# Moving a source text

A text that stands behind another one has its lines further down and its bytes further back. The
`shift` functions move places by a number of lines and of bytes; reading lines commutes with them
(`linesFrom_shift`), so the lines of a text behind a newline are the lines of that text, moved
(`lines_append`).
-/

namespace Ram.Source

open Ram.Text

def Span.shift (s : Span) (bytes : Nat) : Span := ⟨s.offset + bytes, s.length⟩

def Site.shift (s : Site) (lines bytes : Nat) : Site := ⟨s.line + lines, s.span.shift bytes⟩

def Field.shift (f : Field) (bytes : Nat) : Field := ⟨f.offset + bytes, f.chars⟩

def Line.shift (l : Line) (lines bytes : Nat) : Line where
  site := l.site.shift lines bytes
  label := l.label.map (·.shift bytes)
  fields := l.fields.map (·.shift bytes)

@[simp] theorem Field.shift_text (f : Field) (b : Nat) : (f.shift b).text = f.text := rfl
@[simp] theorem Field.shift_chars (f : Field) (b : Nat) : (f.shift b).chars = f.chars := rfl
@[simp] theorem Field.shift_span (f : Field) (b : Nat) : (f.shift b).span = f.span.shift b := rfl

theorem Span.join_shift (s t : Span) (b : Nat) :
    (s.shift b).join (t.shift b) = (s.join t).shift b := by
  simp only [join, shift, stop, Span.mk.injEq]
  omega

theorem Field.label?_shift (f : Field) (b : Nat) :
    (f.shift b).label? = f.label?.map (·.shift b) := by
  unfold label?
  by_cases h : f.chars.getLast? = some ':'
  · simp only [shift_chars, h, ↓reduceIte]
    rfl
  · simp only [shift_chars, h, ↓reduceIte]
    rfl

/-! ## One line -/

theorem runs_shift (b : Nat) (cs : List Char) :
    ∀ o, runs (o + b) cs = (runs o cs).map (·.shift b) := by
  induction cs with
  | nil => intro o; rfl
  | cons c cs ih =>
    intro o
    have hrest : runs (o + b + c.utf8Size) cs = (runs (o + c.utf8Size) cs).map (·.shift b) := by
      rw [Nat.add_right_comm]; exact ih _
    simp only [runs, hrest]
    by_cases hc : isBlank c = true
    · simp only [hc, ↓reduceIte]
    · by_cases hn : cs.head?.all isBlank = true
      · simp only [hc, hn, ↓reduceIte]
        rfl
      · simp only [hc, hn]
        cases runs (o + c.utf8Size) cs <;> rfl

theorem Line.ofChars_shift (o n b k : Nat) (raw : List Char) :
    Line.ofChars (o + b) (n + k) raw = (Line.ofChars o n raw).map (·.shift k b) := by
  unfold Line.ofChars
  rw [runs_shift]
  cases runs o (code raw) with
  | nil => rfl
  | cons first rest =>
    simp only [List.map_cons, Field.label?_shift, List.getLastD_map, Field.shift_span,
      Span.join_shift]
    cases first.label? <;> rfl

/-! ## Many lines -/

theorem linesFrom_shift (b k : Nat) (raws : List (List Char)) :
    ∀ o n, linesFrom (o + b) (n + k) raws = (linesFrom o n raws).map (·.shift k b) := by
  induction raws with
  | nil => intro o n; rfl
  | cons raw raws ih =>
    intro o n
    simp only [linesFrom, List.map_append, Line.ofChars_shift]
    rw [show o + b + byteSize raw + 1 = o + byteSize raw + 1 + b by omega,
      show n + k + 1 = n + 1 + k by omega, ih]
    cases Line.ofChars o n raw <;> rfl

/-- The bytes that lines take up, with the newline behind each of them. -/
def extent : List (List Char) → Nat
  | [] => 0
  | raw :: raws => byteSize raw + 1 + extent raws

theorem linesFrom_append (as bs : List (List Char)) :
    ∀ o n, linesFrom o n (as ++ bs) =
      linesFrom o n as ++ linesFrom (o + extent as) (n + as.length) bs := by
  induction as with
  | nil => intro o n; rfl
  | cons raw as ih =>
    intro o n
    simp only [List.cons_append, linesFrom, ih, List.append_assoc, extent, List.length_cons]
    rw [show o + byteSize raw + 1 + extent as = o + (byteSize raw + 1 + extent as) by omega,
      show n + 1 + as.length = n + (as.length + 1) by omega]

theorem extent_modifyHead (c : Char) {raws : List (List Char)} (h : raws ≠ []) :
    extent (raws.modifyHead (List.cons c)) = c.utf8Size + extent raws := by
  cases raws with
  | nil => exact absurd rfl h
  | cons raw raws =>
    simp only [List.modifyHead_cons, extent, byteSize]
    omega

theorem extent_splitOn (cs : List Char) : extent (cs.splitOn '\n') = byteSize cs + 1 := by
  induction cs with
  | nil => rfl
  | cons c cs ih =>
    rw [List.splitOn_cons_eq_if_modifyHead]
    by_cases hc : c = '\n'
    · subst hc
      simp only [BEq.rfl, ↓reduceIte, extent, ih, byteSize]
      have : ('\n' : Char).utf8Size = 1 := rfl
      omega
    · have hne : (c == '\n') = false := by simpa using hc
      simp only [hne, Bool.false_eq_true, ↓reduceIte]
      rw [extent_modifyHead c (List.splitOn_ne_nil _ _), ih, byteSize]
      omega

theorem length_splitOn (cs : List Char) : (cs.splitOn '\n').length = cs.count '\n' + 1 := by
  induction cs with
  | nil => rfl
  | cons c cs ih =>
    rw [List.splitOn_cons_eq_if_modifyHead, List.count_cons]
    split
    · rw [List.length_cons, ih]
    · rw [List.length_modifyHead, ih]

theorem utf8ByteSize_ofList (cs : List Char) : (String.ofList cs).utf8ByteSize = byteSize cs := by
  induction cs with
  | nil => rfl
  | cons c cs ih =>
    rw [String.ofList_cons, String.utf8ByteSize_append, String.utf8ByteSize_singleton, ih]
    rfl

theorem byteSize_toList (s : String) : byteSize s.toList = s.utf8ByteSize := by
  rw [← utf8ByteSize_ofList, String.ofList_toList]

/-- The lines of two texts with a newline between them. -/
theorem lines_append (a b : String) :
    lines (a ++ "\n" ++ b) =
      lines a ++ (lines b).map (·.shift (a.toList.count '\n' + 1) (a.utf8ByteSize + 1)) := by
  have hlist : (a ++ "\n" ++ b).toList = a.toList ++ '\n' :: b.toList := by
    simp only [String.toList_append, List.append_assoc]
    rfl
  unfold lines
  rw [hlist, List.splitOn_append_cons_self, linesFrom_append, extent_splitOn, length_splitOn,
    byteSize_toList, linesFrom_shift]

end Ram.Source
