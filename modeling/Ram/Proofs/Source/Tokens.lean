import Mathlib.Data.List.DropRight
import Ram.Proofs.Source.Fields

/-!
# Reading loses nothing

The tokens of a line are the runs that it was read from: its label, with the colon put back, and
its fields. `Line.Faithful` says that a line gives its line of the source as it is: the tokens are
the runs there, each stands where its span says, and the line's own span is the least one over
them. `lines_exact` adds that no line with a run in it is left out, and that every character that
is neither blank nor in a comment lies in exactly one token.
-/

namespace Ram.Source

open Ram.Text

theorem append_eq_append_cons {as bs pre post : List Char} {c : Char}
    (h : as ++ bs = pre ++ c :: post) :
    (∃ mid, as = pre ++ c :: mid) ∨ ∃ mid, pre = as ++ mid ∧ bs = mid ++ c :: post := by
  rcases List.append_eq_append_iff.mp h with ⟨mid, hpre, hbs⟩ | ⟨mid, has, hpost⟩
  · exact .inr ⟨mid, hpre, hbs⟩
  · cases mid with
    | nil => exact .inr ⟨[], by simpa using has.symm, hpost.symm⟩
    | cons d mid =>
      obtain ⟨rfl, -⟩ := List.cons.inj hpost
      exact .inl ⟨mid, has⟩

/-! ## Tokens of a line -/

/-- The runs that a line was read from. -/
def Line.tokens (l : Line) : List Field :=
  match l.label with
  | some f => ⟨f.offset, f.chars ++ [':']⟩ :: l.fields
  | none => l.fields

/-- The byte is one of the field's. -/
def Field.Covers (f : Field) (i : Nat) : Prop := f.span.offset ≤ i ∧ i < f.span.stop

instance (f : Field) (i : Nat) : Decidable (f.Covers i) :=
  inferInstanceAs (Decidable (_ ∧ _))

theorem Field.label?_eq_some {f g : Field} :
    f.label? = some g ↔ f = ⟨g.offset, g.chars ++ [':']⟩ := by
  unfold Field.label?
  constructor
  · intro h
    by_cases hcolon : f.chars.getLast? = some ':'
    · rw [if_pos hcolon] at h
      cases h
      rw [List.dropLast_append_getLast? ':' hcolon]
    · rw [if_neg hcolon] at h
      cases h
  · rintro rfl
    simp

theorem Field.label?_text_eq_some {f : Field} {name : String} :
    f.label?.map (·.text) = some name ↔ f.chars = name.toList ++ [':'] := by
  rw [Option.map_eq_some_iff]
  constructor
  · rintro ⟨g, hg, rfl⟩
    rw [Field.label?_eq_some.mp hg, Field.text, String.toList_ofList]
  · intro h
    refine ⟨⟨f.offset, name.toList⟩, Field.label?_eq_some.mpr ?_, String.ofList_toList⟩
    rw [← h]

/-- A line takes its label and its fields from the runs of its code. -/
theorem Line.runs_of_ofChars {o n : Nat} {raw : List Char} {l : Line}
    (h : Line.ofChars o n raw = some l) :
    l.tokens = runs o (code raw) ∧ l.label = (runs o (code raw)).head?.bind Field.label? := by
  unfold Line.ofChars at h
  split at h
  · cases h
  · rename_i first rest hruns
    rw [hruns, List.head?_cons, Option.bind_some]
    dsimp only at h
    cases hlabel : first.label? with
    | some label =>
      rw [hlabel] at h
      cases h
      exact ⟨by rw [Field.label?_eq_some.mp hlabel]; rfl, rfl⟩
    | none =>
      rw [hlabel] at h
      cases h
      exact ⟨rfl, rfl⟩

namespace Spread

variable {o : Nat} {fs : List Field} {cs : List Char}

theorem bounds_of_mem (h : Spread o fs cs) {f : Field} (hf : f ∈ fs) :
    o ≤ f.span.offset ∧ f.span.stop ≤ o + byteSize cs := by
  obtain ⟨pre, post, rfl, hoffset⟩ := h.of_mem hf
  simp only [Field.span, Span.stop, byteSize_append, hoffset]
  omega

theorem pairwise (h : Spread o fs cs) : fs.Pairwise (·.span.stop ≤ ·.span.offset) := by
  induction h with
  | blank => exact .nil
  | field _ _ _ _ _ hrest ih => exact .cons (fun g hg => (hrest.bounds_of_mem hg).1) ih

/-- A character that is not blank lies in a field. -/
theorem exists_covers (h : Spread o fs cs) : ∀ {pre : List Char} {c : Char} {post : List Char},
    cs = pre ++ c :: post → isBlank c = false → ∃ f ∈ fs, f.Covers (o + byteSize pre) := by
  induction h with
  | blank hgap =>
    rintro pre c post rfl hc
    have := hgap c (by simp)
    rw [hc] at this
    cases this
  | @field o gap rest f fs hgap hoffset hne hchars hrest hfs ih =>
    intro pre c post heq hc
    rw [List.append_assoc] at heq
    rcases append_eq_append_cons heq with ⟨mid, rfl⟩ | ⟨mid, rfl, hmid⟩
    · have := hgap c (by simp)
      rw [hc] at this
      cases this
    · rcases append_eq_append_cons hmid with ⟨tail, hf⟩ | ⟨tail, rfl, htail⟩
      · have hpos := c.utf8Size_pos
        refine ⟨f, List.mem_cons_self, ?_⟩
        simp only [Field.Covers, Field.span, Span.stop, hoffset, hf, byteSize_append, byteSize]
        omega
      · obtain ⟨g, hg, hcovers⟩ := ih htail hc
        refine ⟨g, .tail f hg, ?_⟩
        have hbyte : f.span.stop + byteSize tail = o + byteSize (gap ++ (f.chars ++ tail)) := by
          simp only [Field.span, Span.stop, hoffset, byteSize_append]
          omega
        rwa [hbyte] at hcovers

end Spread

section Pairwise

variable {fs : List Field}

theorem stop_le_getLastD {rest : List Field} : ∀ {first : Field},
    (first :: rest).Pairwise (·.span.stop ≤ ·.span.offset) →
      ∀ f ∈ first :: rest, f.span.stop ≤ (rest.getLastD first).span.stop := by
  induction rest with
  | nil =>
    intro first _ f hf
    rw [List.mem_singleton.mp hf]
    exact Nat.le_refl _
  | cons second rest ih =>
    intro first h f hf
    obtain ⟨hfirst, hrest⟩ := List.pairwise_cons.mp h
    rw [List.getLastD_cons]
    rcases List.mem_cons.mp hf with rfl | hf
    · have hle : f.span.stop ≤ second.span.offset := hfirst second List.mem_cons_self
      have hlen : second.span.offset ≤ second.span.stop := Nat.le_add_right _ _
      have hlast := ih hrest second List.mem_cons_self
      omega
    · exact ih hrest f hf

theorem span_le_join {first : Field} {rest : List Field}
    (h : (first :: rest).Pairwise (·.span.stop ≤ ·.span.offset)) {f : Field}
    (hf : f ∈ first :: rest) : f.span ≤ first.span.join (rest.getLastD first).span := by
  have hstop := stop_le_getLastD h f hf
  have hoffset : first.span.offset ≤ f.span.offset := by
    rcases List.mem_cons.mp hf with rfl | hf
    · exact Nat.le_refl _
    · have hle : first.span.stop ≤ f.span.offset := (List.pairwise_cons.mp h).1 f hf
      have hlen : first.span.offset ≤ first.span.stop := Nat.le_add_right _ _
      omega
  simp only [Span.le_def, Span.offset_join, Span.stop_join]
  omega

/-- A byte that lies in one of the fields lies in no other. -/
theorem filter_covers {f : Field} {i : Nat} (h : fs.Pairwise (·.span.stop ≤ ·.span.offset))
    (hf : f ∈ fs) (hi : f.Covers i) : fs.filter (·.Covers i) = [f] := by
  have hmem : f ∈ fs.filter (·.Covers i) := List.mem_filter.mpr ⟨hf, by simpa using hi⟩
  have hall : ∀ g ∈ fs.filter (·.Covers i), g.Covers i := fun g hg => by
    simpa using (List.mem_filter.mp hg).2
  have hpairwise := h.filter (·.Covers i)
  generalize fs.filter (·.Covers i) = gs at hmem hall hpairwise
  match gs with
  | [] => cases hmem
  | [g] => rw [List.mem_singleton.mp hmem]
  | g :: g' :: gs =>
    have hg := hall g List.mem_cons_self
    have hg' := hall g' (.tail g List.mem_cons_self)
    have := (List.pairwise_cons.mp hpairwise).1 g' List.mem_cons_self
    unfold Field.Covers at hg hg'
    omega

end Pairwise

/-! ## Lines of a source -/

/-- A line of the source was read as it is there. -/
structure Line.Faithful (src : String) (l : Line) : Prop where
  /-- The tokens are the runs of the line, with blanks and nothing else around them. -/
  spread : Spread (codeSpan src l.site.line).offset l.tokens (code (lineChars src l.site.line))
  words : l.tokens.map (·.chars) = words (code (lineChars src l.site.line))
  token : ∀ f ∈ l.tokens, Stands src ⟨l.site.line, f.span⟩ f.text
  label : ∀ f ∈ l.label, Stands src ⟨l.site.line, f.span⟩ f.text
  covers : ∀ f ∈ l.tokens, f.span ≤ l.site.span
  least : ∀ s, (∀ f ∈ l.tokens, f.span ≤ s) → l.site.span ≤ s
  /-- The label is the first run less the colon that it ends in. -/
  labelled : ∀ name, l.label.map (·.text) = some name ↔
    ∃ first ∈ l.tokens.head?, first.chars = name.toList ++ [':']

theorem codeSpan_of_split {src : String} {before after : List (List Char)} {raw : List Char}
    (h : src.toList.splitOn '\n' = before ++ raw :: after) :
    (codeSpan src (before.length + 1)).offset = extent before := by
  simp [codeSpan, h]

theorem faithful_of_mem_lines {src : String} {l : Line} (h : l ∈ lines src) : l.Faithful src := by
  obtain ⟨before, raw, after, hsplit, hl⟩ := exists_of_mem_lines h
  obtain ⟨first, rest, hruns, hsite, -⟩ := Line.of_ofChars hl
  obtain ⟨htokens, hlabel⟩ := Line.runs_of_ofChars hl
  have hspread := spread_runs (code raw) (extent before)
  have hline : l.site.line = before.length + 1 := by rw [hsite]
  have hjoin : l.site.span = first.span.join (rest.getLastD first).span := by rw [hsite]
  rw [hruns] at htokens hlabel
  rw [hruns, ← htokens] at hspread
  refine ⟨?_, ?_, fun f hf => ?_, fun f hf => ?_, fun f hf => ?_, fun s hs => ?_, fun name => ?_⟩
  · rwa [hline, codeSpan_of_split hsplit, lineChars_of_split hsplit]
  · rw [hline, lineChars_of_split hsplit, htokens, ← hruns, map_chars_runs]
  · obtain ⟨pre, post, hcode, hoffset⟩ := hspread.of_mem hf
    have hstands := stands_of_split hsplit hcode
    rwa [← hoffset, ← hline] at hstands
  · have hfirst := Field.label?_eq_some.mp (hlabel.symm.trans (Option.mem_def.mp hf))
    have hmem : first ∈ l.tokens := htokens ▸ List.mem_cons_self
    obtain ⟨pre, post, hcode, hoffset⟩ := hspread.of_mem hmem
    have hcut : code raw = pre ++ f.chars ++ (':' :: post) := by
      rw [hcode, hfirst]
      simp
    have hstands := stands_of_split hsplit hcut
    rw [← hoffset, ← hline, hfirst] at hstands
    exact hstands
  · have hpairwise := hspread.pairwise
    rw [htokens] at hf hpairwise
    exact hjoin ▸ span_le_join hpairwise hf
  · rw [htokens] at hs
    rw [hjoin]
    exact Span.join_le (hs first List.mem_cons_self) (hs _ List.getLastD_mem_cons)
  · rw [hlabel, htokens, List.head?_cons, Option.bind_some, Field.label?_text_eq_some]
    simp

theorem mem_lines_of_split {src : String} {before after : List (List Char)} {raw : List Char}
    {l : Line} (h : src.toList.splitOn '\n' = before ++ raw :: after)
    (hl : Line.ofChars (extent before) (before.length + 1) raw = some l) : l ∈ lines src := by
  rw [lines, h, linesFrom_append, linesFrom, Nat.zero_add, Nat.add_comm 1, hl]
  simp

theorem Line.exists_ofChars_of_ne_nil {o n : Nat} {raw : List Char}
    (h : runs o (code raw) ≠ []) : ∃ l, Line.ofChars o n raw = some l := by
  unfold Line.ofChars
  cases hruns : runs o (code raw) with
  | nil => exact absurd hruns h
  | cons first rest =>
    dsimp only
    cases first.label? with
    | some label => exact ⟨_, rfl⟩
    | none => exact ⟨_, rfl⟩

/-- A line is read if and only if something of it is neither blank nor a comment. -/
theorem exists_ofChars_iff {o n : Nat} {raw : List Char} :
    (∃ l, Line.ofChars o n raw = some l) ↔ ∃ c ∈ code raw, isBlank c = false := by
  have hspread := spread_runs (code raw) o
  constructor
  · rintro ⟨l, hl⟩
    obtain ⟨first, rest, hruns, -⟩ := Line.of_ofChars hl
    rw [hruns] at hspread
    generalize code raw = cs at hspread
    cases hspread with
    | field _ _ hne hchars _ _ =>
      obtain ⟨c, hc⟩ := List.exists_mem_of_ne_nil _ hne
      exact ⟨c, by simp [hc], hchars c hc⟩
  · rintro ⟨c, hc, hblank⟩
    obtain ⟨pre, post, hcode⟩ := List.append_of_mem hc
    obtain ⟨f, hf, -⟩ := hspread.exists_covers hcode hblank
    exact Line.exists_ofChars_of_ne_nil (List.ne_nil_of_mem hf)

theorem mem_map_line_lines {src : String} {n : Nat} :
    n ∈ (lines src).map (·.site.line) ↔
      0 < n ∧ ∃ c ∈ code (lineChars src n), isBlank c = false := by
  constructor
  · intro h
    obtain ⟨l, hl, rfl⟩ := List.mem_map.mp h
    obtain ⟨before, raw, after, hsplit, hofChars⟩ := exists_of_mem_lines hl
    rw [(Line.bounds_of_ofChars hofChars).1, lineChars_of_split hsplit]
    exact ⟨Nat.succ_pos _, exists_ofChars_iff.mp ⟨l, hofChars⟩⟩
  · rintro ⟨hn, c, hc, hblank⟩
    cases hraw : (src.toList.splitOn '\n')[n - 1]? with
    | none =>
      rw [lineChars, List.getD_eq_getElem?_getD, hraw] at hc
      cases hc
    | some raw =>
      obtain ⟨hlt, rfl⟩ := List.getElem?_eq_some_iff.mp hraw
      rw [lineChars, List.getD_eq_getElem?_getD, hraw, Option.getD_some] at hc
      have hlength : ((src.toList.splitOn '\n').take (n - 1)).length + 1 = n := by
        rw [List.length_take]
        omega
      obtain ⟨l, hl⟩ := exists_ofChars_iff.mpr ⟨c, hc, hblank⟩
      refine List.mem_map.mpr ⟨l, ?_, (Line.bounds_of_ofChars hl).1.trans hlength⟩
      have hsplit : src.toList.splitOn '\n' = (src.toList.splitOn '\n').take (n - 1) ++
          (src.toList.splitOn '\n')[n - 1] :: (src.toList.splitOn '\n').drop (n - 1 + 1) := by
        rw [List.getElem_cons_drop, List.take_append_drop]
      exact mem_lines_of_split hsplit hl

/-! ## Every character -/

theorem pairwise_tokens (src : String) :
    ((lines src).flatMap Line.tokens).Pairwise (·.span.stop ≤ ·.span.offset) := by
  refine List.pairwise_flatMap.mpr
    ⟨fun l hl => (faithful_of_mem_lines hl).spread.pairwise, ?_⟩
  refine (pairwise_lines src).imp_of_mem fun {l l'} hl hl' hprecedes f hf g hg => ?_
  have hstop := ((faithful_of_mem_lines hl).covers f hf).2
  have hoffset := ((faithful_of_mem_lines hl').covers g hg).1
  have := hprecedes.2
  omega

theorem exists_splitOn_eq_cons {as : List Char} (h : '\n' ∉ as) (bs : List Char) :
    ∃ rest after, (as ++ bs).splitOn '\n' = (as ++ rest) :: after := by
  by_cases hbs : '\n' ∈ bs
  · obtain ⟨rest, tail, rfl, hrest⟩ := List.eq_append_cons_of_mem hbs
    refine ⟨rest, tail.splitOn '\n', ?_⟩
    rw [← List.append_assoc, List.splitOn_append_cons_self,
      List.splitOn_eq_singleton (by simp [h, hrest])]
    rfl
  · exact ⟨bs, [], List.splitOn_eq_singleton (by simp [h, hbs])⟩

/-- The line on which a character stands: what is in front of the character on that line, and how
many bytes are in front of the line. -/
theorem exists_split_of_char {src : String} {pre post : List Char} {c : Char}
    (h : src.toList = pre ++ c :: post) (hc : c ≠ '\n') :
    ∃ before rest after, src.toList.splitOn '\n' =
        before ++ (pre.rtakeWhile (· ≠ '\n') ++ c :: rest) :: after ∧
      byteSize pre = extent before + byteSize (pre.rtakeWhile (· ≠ '\n')) := by
  have hpre : pre.rdropWhile (· ≠ '\n') ++ pre.rtakeWhile (· ≠ '\n') = pre :=
    List.rdropWhile_append_rtakeWhile
  have hlast := List.rdropWhile_last_not (· ≠ '\n') pre
  have htail : '\n' ∉ pre.rtakeWhile (· ≠ '\n') := fun hmem => by
    simpa using List.mem_rtakeWhile_imp hmem
  generalize pre.rtakeWhile (· ≠ '\n') = tail at hpre htail ⊢
  generalize pre.rdropWhile (· ≠ '\n') = front at hpre hlast
  subst hpre
  have hstart : '\n' ∉ tail ++ [c] := by simp [htail, hc.symm]
  obtain ⟨rest, after, hline⟩ := exists_splitOn_eq_cons hstart post
  simp only [List.append_assoc, List.singleton_append] at h hline
  by_cases hfront : front = []
  · subst hfront
    exact ⟨[], rest, after, by rw [h]; exact hline, by simp [extent]⟩
  · have hends : front = front.dropLast ++ ['\n'] := by
      have := hlast hfront
      rw [← show front.getLast hfront = '\n' by simpa using this, List.dropLast_append_getLast]
    refine ⟨front.dropLast.splitOn '\n', rest, after, ?_, ?_⟩
    · rw [h, hends, List.append_assoc, List.singleton_append, List.splitOn_append_cons_self, hline]
      simp
    · rw [byteSize_append, extent_splitOn]
      nth_rewrite 1 [hends]
      rw [byteSize_append]
      rfl

/-- A character that is neither blank nor in a comment lies in exactly one token. -/
theorem exists_token_of_char {src : String} {pre post : List Char} {c : Char}
    (h : src.toList = pre ++ c :: post) (hc : isBlank c = false)
    (hcode : '#' ∉ pre.rtakeWhile (· ≠ '\n') ++ [c]) :
    ∃ f, ((lines src).flatMap Line.tokens).filter (·.Covers (byteSize pre)) = [f] := by
  have hnewline : c ≠ '\n' := by
    rintro rfl
    exact absurd hc (by decide)
  obtain ⟨before, rest, after, hsplit, hsize⟩ := exists_split_of_char h hnewline
  generalize pre.rtakeWhile (· ≠ '\n') = tail at hcode hsplit hsize
  have hraw : code (tail ++ c :: rest) = tail ++ c :: code rest := by
    have hall : ∀ d ∈ tail ++ [c], decide (d ≠ '#') = true := fun d hd => by
      refine decide_eq_true ?_
      rintro rfl
      exact hcode hd
    have htake : code ((tail ++ [c]) ++ rest) = (tail ++ [c]) ++ code rest :=
      List.takeWhile_append_of_pos hall
    rwa [List.append_assoc, List.append_assoc, List.singleton_append, List.singleton_append]
      at htake
  obtain ⟨l, hl⟩ := exists_ofChars_iff.mpr ⟨c, by rw [hraw]; simp, hc⟩
  obtain ⟨f, hf, hcovers⟩ :=
    (spread_runs (code (tail ++ c :: rest)) (extent before)).exists_covers hraw hc
  rw [← hsize] at hcovers
  refine ⟨f, filter_covers (pairwise_tokens src) (List.mem_flatMap.mpr ⟨l, ?_, ?_⟩) hcovers⟩
  · exact mem_lines_of_split hsplit hl
  · rwa [(Line.runs_of_ofChars hl).1]

/-- The lines of a source are read exactly. They come in the order of their numbers, which are
those of the lines with something in them that is neither blank nor a comment. Each gives its line
of the source as it is, and every character that is neither blank nor in a comment lies in exactly
one token. -/
theorem lines_exact (src : String) :
    ((lines src).map (·.site.line)).Pairwise (· < ·) ∧
    (∀ n, n ∈ (lines src).map (·.site.line) ↔
      0 < n ∧ ∃ c ∈ code (lineChars src n), isBlank c = false) ∧
    (∀ l ∈ lines src, l.Faithful src) ∧
    ∀ pre c post, src.toList = pre ++ c :: post → isBlank c = false →
      '#' ∉ pre.rtakeWhile (· ≠ '\n') ++ [c] →
      ∃ f, ((lines src).flatMap Line.tokens).filter (·.Covers (byteSize pre)) = [f] := by
  refine ⟨?_, fun n => mem_map_line_lines, fun l => faithful_of_mem_lines,
    fun pre c post => exists_token_of_char⟩
  exact List.pairwise_map.mpr ((pairwise_lines src).imp fun h => h.1)

/-- Wide characters, a comment right behind a field, and a label with two colons. -/
theorem lines_exact_of_wide :
    let src := "a: # x\n \né:: b#c"
    let l : Line := ⟨⟨3, ⟨9, 6⟩⟩, some ⟨9, ['é', ':']⟩, [⟨14, ['b']⟩]⟩
    l ∈ lines src ∧ l.Faithful src ∧
      ∃ f, ((lines src).flatMap Line.tokens).filter (·.Covers 14) = [f] := by
  intro src l
  have hl : l ∈ lines src := by decide
  obtain ⟨-, -, hfaithful, htoken⟩ := lines_exact src
  exact ⟨hl, hfaithful l hl,
    htoken "a: # x\n \né:: ".toList 'b' "#c".toList (by decide) (by decide) (by decide)⟩

end Ram.Source
