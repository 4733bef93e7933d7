import Ram.Proofs.Source.Slice

/-!
# Where fields and lines stand

`Spread` is all there is to say about the runs of a text: they stand in it in order, with blanks
and nothing else around them (`spread_runs`). So each of them is found at its span, and what lies
between the ends of the first and of the last one is the text with the blanks at both ends dropped
(`Spread.join_eq`). The lines of a source and their fields stand where their sites say
(`stands_line`, `stands_field`), and the lines follow one another (`pairwise_lines`).
-/

namespace Ram.Text

theorem dropWhile_isBlank_append {pre rest : List Char} (hpre : ∀ c ∈ pre, isBlank c = true)
    (hrest : ∀ c ∈ rest.head?, isBlank c = false) : (pre ++ rest).dropWhile isBlank = rest := by
  rw [List.dropWhile_append_of_pos hpre]
  cases rest with
  | nil => rfl
  | cons c rest => exact List.dropWhile_cons_of_neg (by simp [hrest c rfl])

theorem trim_append {pre mid post : List Char} (hpre : ∀ c ∈ pre, isBlank c = true)
    (hpost : ∀ c ∈ post, isBlank c = true) (hne : mid ≠ [])
    (hhead : ∀ c ∈ mid.head?, isBlank c = false)
    (hlast : ∀ c ∈ mid.getLast?, isBlank c = false) : trim (pre ++ mid ++ post) = mid := by
  have hfront : (pre ++ (mid ++ post)).dropWhile isBlank = mid ++ post := by
    refine dropWhile_isBlank_append hpre ?_
    rwa [List.head?_append_of_ne_nil _ hne]
  have hback : (post.reverse ++ mid.reverse).dropWhile isBlank = mid.reverse :=
    dropWhile_isBlank_append (by simpa using hpost) (by rwa [List.head?_reverse])
  rw [trim, List.append_assoc, hfront, List.reverse_append, hback, List.reverse_reverse]

theorem exists_eq_trim (cs : List Char) :
    ∃ pre post, cs = pre ++ trim cs ++ post ∧ (∀ c ∈ pre, isBlank c = true) ∧
      ∀ c ∈ post, isBlank c = true := by
  let rest := cs.dropWhile isBlank
  have hfront : cs = cs.takeWhile isBlank ++ rest := List.takeWhile_append_dropWhile.symm
  have hback : rest = trim cs ++ (rest.reverse.takeWhile isBlank).reverse := by
    rw [trim, ← List.reverse_append, List.takeWhile_append_dropWhile, List.reverse_reverse]
  refine ⟨cs.takeWhile isBlank, (rest.reverse.takeWhile isBlank).reverse, ?_,
    fun c hc => List.mem_takeWhile_imp hc, fun c hc => ?_⟩
  · rw [List.append_assoc, ← hback]
    exact hfront
  · exact List.mem_takeWhile_imp (List.mem_reverse.mp hc)

end Ram.Text

namespace Ram.Source

open Ram.Text

/-! ## Runs -/

/-- The fields stand in a text whose first byte is `offset`, with blanks and nothing else around
them. -/
inductive Spread : Nat → List Field → List Char → Prop where
  | blank {offset : Nat} {gap : List Char} : (∀ c ∈ gap, isBlank c = true) → Spread offset [] gap
  | field {offset : Nat} {gap rest : List Char} {f : Field} {fs : List Field} :
      (∀ c ∈ gap, isBlank c = true) → f.offset = offset + byteSize gap →
      f.chars ≠ [] → (∀ c ∈ f.chars, isBlank c = false) →
      rest.head?.all isBlank = true → Spread f.span.stop fs rest →
      Spread offset (f :: fs) (gap ++ f.chars ++ rest)

theorem Spread.cons_blank {o : Nat} {fs : List Field} {c : Char} {cs : List Char}
    (hc : isBlank c = true) (h : Spread (o + c.utf8Size) fs cs) : Spread o fs (c :: cs) := by
  cases h with
  | blank hgap => exact .blank (List.forall_mem_cons.mpr ⟨hc, hgap⟩)
  | field hgap hoffset hne hchars hrest hfs =>
    rw [← List.cons_append, ← List.cons_append]
    refine .field (List.forall_mem_cons.mpr ⟨hc, hgap⟩) ?_ hne hchars hrest hfs
    rw [hoffset, byteSize, Nat.add_assoc]

theorem Spread.cons_field {o : Nat} {f : Field} {fs : List Field} {rest : List Char}
    (hoffset : f.offset = o) (hne : f.chars ≠ []) (hchars : ∀ c ∈ f.chars, isBlank c = false)
    (hrest : rest.head?.all isBlank = true) (h : Spread f.span.stop fs rest) :
    Spread o (f :: fs) (f.chars ++ rest) :=
  @Spread.field o [] rest f fs nofun hoffset hne hchars hrest h

theorem Spread.cons_char {o : Nat} {fs : List Field} {c : Char} {cs : List Char}
    (hc : isBlank c = false) (hcs : ¬ cs.head?.all isBlank = true)
    (h : Spread (o + c.utf8Size) fs cs) :
    Spread o (fs.modifyHead fun f => ⟨o, c :: f.chars⟩) (c :: cs) := by
  cases h with
  | blank hgap =>
    cases cs with
    | nil => exact absurd rfl hcs
    | cons d cs => exact absurd (hgap d List.mem_cons_self) hcs
  | @field _ gap rest f fs hgap hoffset hne hchars hrest hfs =>
    cases gap with
    | cons d gap => exact absurd (hgap d List.mem_cons_self) hcs
    | nil =>
      refine .cons_field (f := ⟨o, c :: f.chars⟩) rfl (by simp)
        (List.forall_mem_cons.mpr ⟨hc, hchars⟩) hrest ?_
      have hstop : (Field.span ⟨o, c :: f.chars⟩).stop = f.span.stop := by
        simp only [Field.span, Span.stop, hoffset, byteSize]
        omega
      rwa [hstop]

theorem spread_runs (cs : List Char) : ∀ o, Spread o (runs o cs) cs := by
  induction cs with
  | nil => exact fun _ => .blank nofun
  | cons c cs ih =>
    intro o
    rw [runs]
    cases hc : isBlank c with
    | true => exact (ih _).cons_blank hc
    | false =>
      rw [if_neg Bool.false_ne_true]
      by_cases hcs : cs.head?.all isBlank = true
      · rw [if_pos hcs]
        exact .cons_field (f := ⟨o, [c]⟩) rfl (by simp) (by simpa using hc) hcs (ih _)
      · rw [if_neg hcs]
        exact (ih _).cons_char hc hcs

namespace Spread

variable {o : Nat} {fs : List Field} {cs : List Char}

theorem of_mem (h : Spread o fs cs) {f : Field} (hf : f ∈ fs) :
    ∃ pre post, cs = pre ++ f.chars ++ post ∧ f.offset = o + byteSize pre := by
  induction h with
  | blank => cases hf
  | @field o gap rest g fs hgap hoffset _ _ _ _ ih =>
    rcases List.mem_cons.mp hf with rfl | hf
    · exact ⟨gap, rest, rfl, hoffset⟩
    · obtain ⟨pre, post, rfl, hpre⟩ := ih hf
      refine ⟨gap ++ g.chars ++ pre, post, by simp only [List.append_assoc], ?_⟩
      rw [hpre, Span.stop, Field.span, hoffset]
      simp only [byteSize_append]
      omega

/-- From the first to the last field: what lies in front of them and behind them is blank. -/
theorem between {rest : List Field} : ∀ {o : Nat} {first : Field} {cs : List Char},
    Spread o (first :: rest) cs → ∃ pre mid post, cs = pre ++ mid ++ post ∧
      (∀ c ∈ pre, isBlank c = true) ∧ (∀ c ∈ post, isBlank c = true) ∧
      (first.chars ≠ [] ∧ ∀ c ∈ first.chars, isBlank c = false) ∧
      ((rest.getLastD first).chars ≠ [] ∧ ∀ c ∈ (rest.getLastD first).chars, isBlank c = false) ∧
      first.chars <+: mid ∧ (rest.getLastD first).chars <:+ mid ∧
      first.offset = o + byteSize pre ∧
      (rest.getLastD first).span.stop = o + byteSize pre + byteSize mid := by
  induction rest with
  | nil =>
    intro o first cs h
    cases h with
    | @field _ gap tail _ _ hgap hoffset hne hchars _ hrest =>
      cases hrest with
      | blank htail =>
        refine ⟨gap, first.chars, tail, rfl, hgap, htail, ⟨hne, hchars⟩, ⟨hne, hchars⟩,
          List.prefix_rfl, List.suffix_rfl, hoffset, ?_⟩
        rw [List.getLastD_nil, Span.stop, Field.span, hoffset]
  | cons second rest ih =>
    intro o first cs h
    cases h with
    | @field _ gap tail _ _ hgap hoffset hne hchars _ hrest =>
      obtain ⟨pre, mid, post, rfl, -, hpost, -, hlast, -, hsuffix, -, hstop⟩ := ih hrest
      rw [List.getLastD_cons]
      refine ⟨gap, first.chars ++ (pre ++ mid), post, by simp only [List.append_assoc], hgap, hpost,
        ⟨hne, hchars⟩, hlast, List.prefix_append _ _, ?_, hoffset, ?_⟩
      · exact hsuffix.trans ((List.suffix_append pre mid).trans (List.suffix_append _ _))
      · rw [hstop, Span.stop, Field.span, hoffset]
        simp only [byteSize_append]
        omega

/-- The span over the first and the last field has the whole text but for the blanks at its
ends. It ends with the last field. -/
theorem join_eq {first : Field} {rest : List Field} (h : Spread o (first :: rest) cs) :
    ∃ pre post, cs = pre ++ trim cs ++ post ∧ trim cs ≠ [] ∧
      first.span.join (rest.getLastD first).span = ⟨o + byteSize pre, byteSize (trim cs)⟩ ∧
      (rest.getLastD first).span.stop = o + byteSize pre + byteSize (trim cs) := by
  obtain ⟨pre, mid, post, rfl, hpre, hpost, ⟨hne, hfirst⟩, ⟨hne', hlast⟩, hprefix, hsuffix,
    hoffset, hstop⟩ := h.between
  obtain ⟨tail, rfl⟩ := hprefix
  obtain ⟨front, hfront⟩ := hsuffix
  have hmid : trim (pre ++ (first.chars ++ tail) ++ post) = first.chars ++ tail := by
    refine trim_append hpre hpost (by simp [hne]) (fun c hc => ?_) (fun c hc => ?_)
    · rw [List.head?_append_of_ne_nil _ hne] at hc
      exact hfirst c (List.mem_of_mem_head? hc)
    · rw [← hfront, List.getLast?_append_of_ne_nil _ hne'] at hc
      exact hlast c (List.mem_of_mem_getLast? hc)
  refine ⟨pre, post, by rw [hmid], by rw [hmid]; simp [hne], ?_, by rw [hmid, hstop]⟩
  have hsize := congrArg byteSize hfront
  rw [hmid]
  simp only [Span.stop, Field.span, byteSize_append] at hoffset hstop hsize
  simp only [Span.join, Span.stop, Field.span, byteSize_append, Span.mk.injEq]
  omega

end Spread

/-! ## Lines -/

/-- What a line is made of: its runs, of which the first may be its label. -/
theorem Line.of_ofChars {o n : Nat} {raw : List Char} {l : Line}
    (h : Line.ofChars o n raw = some l) :
    ∃ first rest, runs o (code raw) = first :: rest ∧
      l.site = ⟨n, first.span.join (rest.getLastD first).span⟩ ∧
      (l.fields = rest ∨ l.fields = first :: rest) := by
  unfold Line.ofChars at h
  split at h
  · cases h
  · rename_i first rest hruns
    refine ⟨first, rest, hruns, ?_⟩
    dsimp only at h
    split at h
    · cases h
      exact ⟨rfl, .inl rfl⟩
    · cases h
      exact ⟨rfl, .inr rfl⟩

theorem exists_of_mem_linesFrom {l : Line} : ∀ {raws : List (List Char)} {o n : Nat},
    l ∈ linesFrom o n raws → ∃ before raw after, raws = before ++ raw :: after ∧
      Line.ofChars (o + extent before) (n + before.length) raw = some l
  | [], _, _, h => nomatch h
  | raw :: raws, o, n, h => by
    rcases List.mem_append.mp h with h | h
    · exact ⟨[], raw, raws, rfl, Option.mem_toList.mp h⟩
    · obtain ⟨before, r, after, rfl, hl⟩ := exists_of_mem_linesFrom h
      refine ⟨raw :: before, r, after, rfl, ?_⟩
      rw [← hl, extent, List.length_cons]
      congr 1 <;> omega

theorem exists_of_mem_lines {src : String} {l : Line} (h : l ∈ lines src) :
    ∃ before raw after, src.toList.splitOn '\n' = before ++ raw :: after ∧
      Line.ofChars (extent before) (before.length + 1) raw = some l := by
  obtain ⟨before, raw, after, hsplit, hl⟩ := exists_of_mem_linesFrom h
  rw [Nat.zero_add, Nat.add_comm 1] at hl
  exact ⟨before, raw, after, hsplit, hl⟩

/-- The text of a line from its first to its last field. -/
def lineText (src : String) (n : Nat) : List Char := trim (code (lineChars src n))

/-- How the site of a line lies in the line. -/
theorem Line.site_of_ofChars {o n : Nat} {raw : List Char} {l : Line}
    (h : Line.ofChars o n raw = some l) :
    ∃ pre post, code raw = pre ++ trim (code raw) ++ post ∧ trim (code raw) ≠ [] ∧
      l.site = ⟨n, ⟨o + byteSize pre, byteSize (trim (code raw))⟩⟩ ∧
      ∀ f, l.fields.getLast? = some f → f.span.stop = l.site.span.stop := by
  obtain ⟨first, rest, hruns, hsite, hfields⟩ := Line.of_ofChars h
  have hspread := spread_runs (code raw) o
  rw [hruns] at hspread
  obtain ⟨pre, post, hcode, hne, hjoin, hstop⟩ := hspread.join_eq
  rw [hjoin] at hsite
  refine ⟨pre, post, hcode, hne, hsite, fun f hf => ?_⟩
  have hlast : rest.getLastD first = f := by
    rcases hfields with hfields | hfields
    · rw [List.getLastD_eq_getLast?, ← hfields, hf]
      rfl
    · rw [hfields, List.getLast?_cons] at hf
      rw [List.getLastD_eq_getLast?]
      exact Option.some.inj hf
  rw [← hlast, hstop, hsite]
  rfl

theorem Line.bounds_of_ofChars {o n : Nat} {raw : List Char} {l : Line}
    (h : Line.ofChars o n raw = some l) :
    l.site.line = n ∧ o ≤ l.site.span.offset ∧ l.site.span.stop ≤ o + byteSize raw := by
  obtain ⟨pre, post, hcode, -, hsite, -⟩ := Line.site_of_ofChars h
  have hraw : raw = code raw ++ raw.dropWhile (· ≠ '#') := List.takeWhile_append_dropWhile.symm
  have hsize := congrArg byteSize hraw
  have hcodeSize := congrArg byteSize hcode
  simp only [byteSize_append] at hsize hcodeSize
  rw [hsite]
  refine ⟨rfl, Nat.le_add_right _ _, ?_⟩
  show o + byteSize pre + byteSize (trim (code raw)) ≤ o + byteSize raw
  omega

section Lines

variable {src : String} {l : Line} (h : l ∈ lines src)
include h

/-- A line stands where its site says, and it is not empty. -/
theorem stands_line : Stands src l.site (String.ofList (lineText src l.site.line)) ∧
    lineText src l.site.line ≠ [] := by
  obtain ⟨before, raw, after, hsplit, hl⟩ := exists_of_mem_lines h
  obtain ⟨pre, post, hcode, hne, hsite, -⟩ := Line.site_of_ofChars hl
  rw [hsite, lineText, lineChars_of_split hsplit]
  exact ⟨stands_of_split hsplit hcode, hne⟩

theorem stands_field {f : Field} (hf : f ∈ l.fields) :
    Stands src ⟨l.site.line, f.span⟩ f.text := by
  obtain ⟨before, raw, after, hsplit, hl⟩ := exists_of_mem_lines h
  obtain ⟨first, rest, hruns, hsite, hfields⟩ := Line.of_ofChars hl
  have hmem : f ∈ runs (extent before) (code raw) := by
    rw [hruns]
    rcases hfields with hfields | hfields
    · exact .tail _ (hfields ▸ hf)
    · exact hfields ▸ hf
  obtain ⟨pre, post, hcode, hoffset⟩ := (spread_runs (code raw) (extent before)).of_mem hmem
  have hstands := stands_of_split hsplit hcode
  rw [← hoffset] at hstands
  rw [hsite]
  exact hstands

theorem isWord_of_mem_fields {f : Field} (hf : f ∈ l.fields) : IsWord f.chars := by
  have hword := (legible_of_mem_lines h).phrase f.text (List.mem_map_of_mem hf)
  rwa [Field.text, String.toList_ofList] at hword

theorem stop_getLast {f : Field} (hf : l.fields.getLast? = some f) :
    f.span.stop = l.site.span.stop := by
  obtain ⟨before, raw, after, -, hl⟩ := exists_of_mem_lines h
  obtain ⟨-, -, -, -, -, hstop⟩ := Line.site_of_ofChars hl
  exact hstop f hf

theorem phrase_lineChars : phrase (lineChars src l.site.line) = l.fields.map (·.text) := by
  obtain ⟨before, raw, after, hsplit, hl⟩ := exists_of_mem_lines h
  have hphrase := ofChars_phrase (extent before) (before.length + 1) raw
  rw [hl] at hphrase
  rw [hphrase.2, lineChars_of_split hsplit, hphrase.1]

theorem notMem_lineText : '\n' ∉ lineText src l.site.line ∧ '#' ∉ lineText src l.site.line := by
  obtain ⟨before, raw, after, hsplit, hl⟩ := exists_of_mem_lines h
  obtain ⟨pre, post, hcode, -, hsite, -⟩ := Line.site_of_ofChars hl
  rw [hsite, lineText, lineChars_of_split hsplit]
  have hmem : ∀ c ∈ trim (code raw), c ∈ code raw := fun c hc => by
    rw [hcode]
    simp [hc]
  refine ⟨fun hc => ?_, fun hc => ?_⟩
  · exact newline_notMem_of_split hsplit (List.takeWhile_subset _ (hmem _ hc))
  · simpa using List.mem_takeWhile_imp (hmem _ hc)

end Lines

/-! ## Lines one after the other -/

/-- The first site is further up than the second, and its bytes come first. -/
def Site.Precedes (a b : Site) : Prop := a.line < b.line ∧ a.span.stop < b.span.offset

theorem pairwise_linesFrom : ∀ (raws : List (List Char)) (o n : Nat),
    (linesFrom o n raws).Pairwise (·.site.Precedes ·.site)
  | [], _, _ => .nil
  | raw :: raws, o, n => by
    rw [linesFrom]
    refine List.pairwise_append.mpr ⟨?_, pairwise_linesFrom raws _ _, fun l hl l' hl' => ?_⟩
    · cases Line.ofChars o n raw with
      | none => exact .nil
      | some l => exact List.pairwise_singleton _ _
    · obtain ⟨hline, -, hstop⟩ := Line.bounds_of_ofChars (Option.mem_toList.mp hl)
      obtain ⟨before, raw', after, -, hofChars⟩ := exists_of_mem_linesFrom hl'
      obtain ⟨hline', hoffset, -⟩ := Line.bounds_of_ofChars hofChars
      constructor <;> omega

theorem pairwise_lines (src : String) : (lines src).Pairwise (·.site.Precedes ·.site) :=
  pairwise_linesFrom _ 0 1

end Ram.Source
