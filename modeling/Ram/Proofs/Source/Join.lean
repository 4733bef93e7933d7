import Mathlib.Order.Bounds.Basic
import Ram.Proofs.Source.Tokens

/-!
# Joins of spans

Spans are a semilattice: containment is a partial order, and `Span.join` gives least upper bounds.
So what is joined decides the total, and neither the order nor the grouping does
(`Span.Grouping.total_le_iff`). A line takes its span from its first and its last field alone. The
fields follow one another, so these two reach over all the others (`Line.span_le_iff`), and the
line's span is the total of its fields, however they are put together (`Line.total_eq_span`).

A machine computes with words, the numbers below some bound: an end may not be a word, and a
difference may be negative. `Span.join?` makes these checks. They pass for spans whose ends are
words, and for no others (`Span.join?_eq_some_iff`).
-/

namespace Ram.Source

open Ram.Text

namespace Span

instance : PartialOrder Span where
  le_refl _ := ⟨Nat.le_refl _, Nat.le_refl _⟩
  le_trans _ _ _ hst htu := ⟨Nat.le_trans htu.1 hst.1, Nat.le_trans hst.2 htu.2⟩
  le_antisymm _ _ hst hts :=
    ext_stop (Nat.le_antisymm hts.1 hst.1) (Nat.le_antisymm hst.2 hts.2)

instance : SemilatticeSup Span where
  sup := join
  le_sup_left := le_join_left
  le_sup_right := le_join_right
  sup_le _ _ _ := join_le

theorem join_le_iff {a b c : Span} : a.join b ≤ c ↔ a ≤ c ∧ b ≤ c := sup_le_iff

/-! ## Words -/

/-- The end of the span is a word, where the words are the numbers below `bound`. -/
def Fits (bound : Nat) (s : Span) : Prop := s.stop < bound

instance (bound : Nat) (s : Span) : Decidable (s.Fits bound) := inferInstanceAs (Decidable (_ < _))

/-- The end of a span, if the sum is a word. -/
def stop? (bound : Nat) (s : Span) : Option Nat :=
  if s.offset + s.length < bound then some (s.offset + s.length) else none

/-- The join of two spans, if every sum and difference on the way is a word. -/
def join? (bound : Nat) (a b : Span) : Option Span := do
  let stop := max (← a.stop? bound) (← b.stop? bound)
  let offset := min a.offset b.offset
  if offset ≤ stop then some ⟨offset, stop - offset⟩ else none

variable {bound : Nat} {a b : Span}

theorem fits_join : (a.join b).Fits bound ↔ a.Fits bound ∧ b.Fits bound := by
  unfold Fits
  rw [stop_join]
  omega

theorem stop?_eq_some_iff {n : Nat} : a.stop? bound = some n ↔ a.Fits bound ∧ a.stop = n := by
  unfold stop? Fits
  rw [Option.ite_none_right_eq_some, Option.some_inj]
  rfl

theorem join?_eq_some_iff : a.join? bound b = some (a.join b) ↔ a.Fits bound ∧ b.Fits bound := by
  constructor
  · intro h
    obtain ⟨i, hi, h⟩ := Option.bind_eq_some_iff.mp h
    obtain ⟨j, hj, -⟩ := Option.bind_eq_some_iff.mp h
    exact ⟨(stop?_eq_some_iff.mp hi).1, (stop?_eq_some_iff.mp hj).1⟩
  · rintro ⟨ha, hb⟩
    -- no difference is negative: a span does not end in front of its offset
    have hle : min a.offset b.offset ≤ max a.stop b.stop := by
      unfold stop
      omega
    have hjoin : a.join? bound b =
        if min a.offset b.offset ≤ max a.stop b.stop then some (a.join b) else none := by
      rw [join?, stop?_eq_some_iff.mpr ⟨ha, rfl⟩, stop?_eq_some_iff.mpr ⟨hb, rfl⟩]
      rfl
    rw [hjoin, if_pos hle]

/-! ## Orders and groupings -/

/-- A way to put spans together, two at a time. -/
inductive Grouping where
  | single (s : Span)
  | join (left right : Grouping)

namespace Grouping

/-- The spans that are put together, from left to right. -/
def spans : Grouping → List Span
  | single s => [s]
  | join left right => left.spans ++ right.spans

def total : Grouping → Span
  | single s => s
  | join left right => left.total.join right.total

/-- The total, if every join on the way is one of words. -/
def total? (bound : Nat) : Grouping → Option Span
  | single s => some s
  | join left right => do (← left.total? bound).join? bound (← right.total? bound)

theorem total_le_iff {g : Grouping} {s : Span} : g.total ≤ s ↔ ∀ t ∈ g.spans, t ≤ s := by
  induction g with
  | single t => rw [total, spans, List.forall_mem_singleton]
  | join left right ihl ihr =>
    rw [total, spans, join_le_iff, ihl, ihr, List.forall_mem_append]

theorem total?_of_fits {g : Grouping} (h : g.total.Fits bound) : g.total? bound = some g.total := by
  induction g with
  | single s => rfl
  | join left right ihl ihr =>
    obtain ⟨hl, hr⟩ := fits_join.mp h
    rw [total?, ihl hl, ihr hr]
    exact join?_eq_some_iff.mpr ⟨hl, hr⟩

theorem spans_ne_nil (g : Grouping) : g.spans ≠ [] := by
  induction g with
  | single s => exact List.cons_ne_nil _ _
  | join left right ihl ihr => exact List.append_ne_nil_of_left_ne_nil ihl _

end Grouping

end Span

/-! ## Lines -/

section Line

variable {o n : Nat} {raw : List Char}

/-- The first and the last field reach over all the fields between them. -/
theorem Line.span_le_iff {l : Line} (h : Line.ofChars o n raw = some l) {s : Span} :
    l.site.span ≤ s ↔ ∀ t ∈ (runs o (code raw)).map Field.span, t ≤ s := by
  obtain ⟨first, rest, hruns, hsite, -⟩ := Line.of_ofChars h
  have hpairwise := (spread_runs (code raw) o).pairwise
  rw [hruns] at hpairwise
  rw [hsite, hruns, List.forall_mem_map]
  constructor
  · intro hs f hf
    exact (span_le_join hpairwise hf).trans hs
  · intro hs
    exact Span.join_le (hs first List.mem_cons_self) (hs _ List.getLastD_mem_cons)

theorem Line.total_eq_span {l : Line} (h : Line.ofChars o n raw = some l) {g : Span.Grouping}
    (hg : g.spans.Perm ((runs o (code raw)).map Field.span)) : g.total = l.site.span := by
  refine eq_of_forall_ge_iff fun s => ?_
  rw [Span.Grouping.total_le_iff, Line.span_le_iff h]
  exact forall_congr' fun t => by rw [hg.mem_iff]

end Line

/-- Joins are least upper bounds of containment, and what is joined from words is made of words. So
joins can be put in another order and grouped in another way, and a span is not changed by joining
it to itself. The span of a line is computed from its first and its last field; joining all its
fields, a label with its colon included, gives the same in whatever order and grouping. -/
theorem join_least_in_any_order (bound : Nat) :
    (∀ a b : Span, IsLUB {a, b} (a.join b) ∧ (a.join b).stop = max a.stop b.stop) ∧
    (∀ a b : Span, a.Fits bound → b.Fits bound → (a.join b).Fits bound) ∧
    (∀ a b : Span, a.join? bound b = some (a.join b) ↔ a.Fits bound ∧ b.Fits bound) ∧
    (∀ a b : Span, a.join b = b.join a) ∧
    (∀ a b c : Span, (a.join b).join c = a.join (b.join c)) ∧
    (∀ a : Span, a.join a = a) ∧
    ∀ offset number raw (g : Span.Grouping),
      g.spans.Perm ((runs offset (code raw)).map Field.span) →
      (Line.ofChars offset number raw).map (·.site.span) = some g.total ∧
        (offset + byteSize raw < bound → g.total? bound = some g.total) := by
  refine ⟨fun a b => ⟨isLUB_pair, Span.stop_join a b⟩,
    fun a b ha hb => Span.fits_join.mpr ⟨ha, hb⟩, fun a b => Span.join?_eq_some_iff,
    fun a b => sup_comm a b, fun a b c => sup_assoc a b c, fun a => sup_idem a,
    fun offset number raw g hg => ?_⟩
  have hruns : runs offset (code raw) ≠ [] := by
    intro hnil
    rw [hnil] at hg
    exact g.spans_ne_nil hg.eq_nil
  obtain ⟨l, hl⟩ := Line.exists_ofChars_of_ne_nil (n := number) hruns
  have htotal : g.total = l.site.span := Line.total_eq_span hl hg
  refine ⟨by rw [hl, htotal, Option.map_some], fun hbound => ?_⟩
  have hstop : l.site.span.stop ≤ offset + byteSize raw := (Line.bounds_of_ofChars hl).2.2
  have hfits : g.total.Fits bound := by
    rw [htotal]
    exact Nat.lt_of_le_of_lt hstop hbound
  exact Span.Grouping.total?_of_fits hfits

/-- The last field first and the label next. The empty span stands at the last of the 64-bit words,
and still the join reaches to it. -/
theorem join_least_in_any_order_of_label :
    let bound := 0x10000000000000000
    let raw := "é: \tADD 7# x".toList
    let g : Span.Grouping := .join (.join (.single ⟨14, 1⟩) (.single ⟨5, 3⟩)) (.single ⟨10, 3⟩)
    g.spans.Perm ((runs 5 (code raw)).map Field.span) ∧
      (Line.ofChars 5 1 raw).map (·.site.span) = some ⟨5, 10⟩ ∧
      g.total? bound = some ⟨5, 10⟩ ∧
      Span.join? bound ⟨0xffffffffffffffff, 0⟩ ⟨2, 3⟩ = some ⟨2, 0xfffffffffffffffd⟩ := by
  intro bound raw g
  have hg : g.spans.Perm ((runs 5 (code raw)).map Field.span) := by decide
  obtain ⟨-, -, hjoin, -, -, -, hline⟩ := join_least_in_any_order bound
  obtain ⟨hspan, hwords⟩ := hline 5 1 raw g hg
  exact ⟨hg, hspan, hwords (by decide), (hjoin _ _).mpr (by decide)⟩

end Ram.Source
