/-!
# Places in a source text

A `Span` is a range of bytes, given by its first byte and its length; a `Site` adds the line it
lies on. Spans are ordered by containment (`≤`), and `Span.join` is the least span over two.
-/

namespace Ram.Source

structure Span where
  offset : Nat
  length : Nat
  deriving DecidableEq, Repr

namespace Span

/-- The first byte behind the span. -/
def stop (s : Span) : Nat := s.offset + s.length

def isEmpty (s : Span) : Bool := s.length == 0

/-- The least span that contains both. An empty span counts with its offset. -/
def join (a b : Span) : Span :=
  ⟨min a.offset b.offset, max a.stop b.stop - min a.offset b.offset⟩

instance : LE Span where
  le s t := t.offset ≤ s.offset ∧ s.stop ≤ t.stop

theorem le_def {s t : Span} : s ≤ t ↔ t.offset ≤ s.offset ∧ s.stop ≤ t.stop := Iff.rfl

instance (s t : Span) : Decidable (s ≤ t) := decidable_of_iff _ le_def.symm

@[simp] theorem offset_join (a b : Span) : (a.join b).offset = min a.offset b.offset := rfl

@[simp] theorem stop_join (a b : Span) : (a.join b).stop = max a.stop b.stop := by
  simp only [join, stop]; omega

theorem le_join_left (a b : Span) : a ≤ a.join b := by
  simp only [le_def, offset_join, stop_join]; omega

theorem le_join_right (a b : Span) : b ≤ a.join b := by
  simp only [le_def, offset_join, stop_join]; omega

theorem join_le {a b c : Span} (ha : a ≤ c) (hb : b ≤ c) : a.join b ≤ c := by
  simp only [le_def, offset_join, stop_join] at *; omega

theorem ext_stop {s t : Span} (h : s.offset = t.offset) (h' : s.stop = t.stop) : s = t := by
  obtain ⟨so, sl⟩ := s
  obtain ⟨o, l⟩ := t
  simp only [stop] at h h'
  subst h
  rw [Nat.add_left_cancel h']

end Span

/-- A span and the line, counted from 1, that it lies on. -/
structure Site where
  line : Nat
  span : Span
  deriving DecidableEq, Repr

end Ram.Source
