import Ram.Source.Span
import Ram.Text

/-!
# Lines of a source text

A source text is a sequence of lines, ended by newlines only. What stands before the first `#` of
a line is its code, and the maximal runs of non-blank characters of the code are its fields
(`runs`). A first field that ends in `:` declares a label. `lines` gives the lines that have at
least one field, each with its number and with the bytes that its fields cover.
-/

namespace Ram.Source

open Ram.Text

/-- A run of characters that starts at byte `offset` of the source. -/
structure Field where
  offset : Nat
  chars : List Char
  deriving DecidableEq, Repr

namespace Field

def text (f : Field) : String := String.ofList f.chars

def span (f : Field) : Span := ⟨f.offset, byteSize f.chars⟩

/-- The label that a field declares: the field less its last character, if that is a colon. -/
def label? (f : Field) : Option Field :=
  if f.chars.getLast? = some ':' then some ⟨f.offset, f.chars.dropLast⟩ else none

end Field

/-- The maximal runs of non-blank characters of a text whose first byte is `offset`. -/
def runs (offset : Nat) : List Char → List Field
  | [] => []
  | c :: cs =>
    let rest := runs (offset + c.utf8Size) cs
    if isBlank c then rest
    else if cs.head?.all isBlank then ⟨offset, [c]⟩ :: rest
    else rest.modifyHead fun f => ⟨offset, c :: f.chars⟩

/-- The part of a line before its comment. -/
def code (raw : List Char) : List Char := raw.takeWhile (· ≠ '#')

/-- A line with at least one field; `fields` are the ones behind the label. -/
structure Line where
  /-- The line's number and the span from its first to its last field, the label included. -/
  site : Site
  label : Option Field
  fields : List Field
  deriving DecidableEq, Repr

/-- Reads one line, of which the first byte is `offset`; none if it has no field. -/
def Line.ofChars (offset number : Nat) (raw : List Char) : Option Line :=
  match runs offset (code raw) with
  | [] => none
  | first :: rest =>
    let site : Site := ⟨number, first.span.join (rest.getLastD first).span⟩
    match first.label? with
    | some label => some ⟨site, some label, rest⟩
    | none => some ⟨site, none, first :: rest⟩

/-- The lines among `raws`, of which the first has this number and starts at this byte. -/
def linesFrom (offset number : Nat) : List (List Char) → List Line
  | [] => []
  | raw :: raws =>
    (Line.ofChars offset number raw).toList ++
      linesFrom (offset + byteSize raw + 1) (number + 1) raws

/-- The lines of a source text that have a field. -/
def lines (src : String) : List Line := linesFrom 0 1 (src.toList.splitOn '\n')

end Ram.Source
