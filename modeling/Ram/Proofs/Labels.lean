import Mathlib.Data.List.Nodup
import Ram.Labels

/-!
# Names of a label table

`Labels.names` are the declared names in order of first declaration. Declaring a name again leaves
them as they are, a new name goes to the end (`names_insert`), and a name is declared if and only
if it has an index (`mem_names`). As every name is in the table once, its entries are what it looks
up (`get?_eq_some_iff`). `below` are the entries by index: the order in which a program declares its
labels again if its statements are listed with their labels in front.
-/

namespace Ram.Labels

/-- The declared names in order of first declaration. -/
def names (t : Labels) : List String := t.toList.map Prod.fst

@[simp] theorem names_empty : ({} : Labels).names = [] := rfl

theorem names_insert (t : Labels) (name : String) (index : Nat) :
    (t.insert name index).names = if name ∈ t.names then t.names else t.names ++ [name] :=
  map_fst_put name index t.entries

theorem mem_names {t : Labels} {name : String} : name ∈ t.names ↔ ∃ i, t.get? name = some i := by
  simp only [names, toList, get?]
  induction t.entries with
  | nil => simp
  | cons e es ih =>
    obtain ⟨k, i⟩ := e
    by_cases h : name = k
    · subst h
      simp
    · have hne : (name == k) = false := by simpa using h
      simp only [List.map_cons, List.mem_cons, h, false_or, ih, List.lookup_cons, hne]

theorem insert_of_new {t : Labels} {name : String} (h : name ∉ t.names) (index : Nat) :
    (t.insert name index).toList = t.toList ++ [(name, index)] := by
  simp only [names, toList, insert] at h ⊢
  generalize t.entries = es at h ⊢
  induction es with
  | nil => rfl
  | cons e es ih =>
    rw [List.map_cons, List.mem_cons, not_or] at h
    rw [put, if_neg fun he => h.1 he.symm, ih h.2, List.cons_append]

theorem get?_eq_some_iff {t : Labels} {name : String} {index : Nat} :
    t.get? name = some index ↔ (name, index) ∈ t.toList := by
  have h := t.nodup
  simp only [toList, get?]
  generalize t.entries = es at h ⊢
  induction es with
  | nil => simp
  | cons e es ih =>
    obtain ⟨k, j⟩ := e
    rw [List.map_cons, List.nodup_cons] at h
    rw [List.lookup_cons, List.mem_cons, Prod.mk.injEq]
    by_cases hk : name = k
    · subst hk
      have hrest : (name, index) ∉ es := fun hmem => h.1 (List.mem_map.mpr ⟨_, hmem, rfl⟩)
      simp [hrest, eq_comm]
    · have hne : (name == k) = false := by simpa using hk
      simp only [hne, hk, false_and, false_or]
      exact ih h.2

/-! ## Entries by index -/

/-- The names that are bound to an index, in the order of the table. -/
def namesAt (t : Labels) (index : Nat) : List String :=
  (t.toList.filter (·.2 = index)).map Prod.fst

/-- The entries with an index below `n`, lower indices first. -/
def below (t : Labels) (n : Nat) : List (String × Nat) :=
  (List.range n).flatMap fun index => t.toList.filter (·.2 = index)

theorem map_namesAt (t : Labels) (index : Nat) :
    (t.namesAt index).map (·, index) = t.toList.filter (·.2 = index) := by
  rw [namesAt, List.map_map]
  refine (List.map_congr_left fun e he => ?_).trans (List.map_id _)
  have hindex : e.2 = index := by simpa using (List.mem_filter.mp he).2
  rw [← hindex]
  rfl

theorem below_succ (t : Labels) (n : Nat) :
    t.below (n + 1) = t.below n ++ (t.namesAt n).map (·, n) := by
  rw [map_namesAt, below, List.range_succ, List.flatMap_append, List.flatMap_singleton]
  rfl

theorem mem_below {t : Labels} {n : Nat} {e : String × Nat} :
    e ∈ t.below n ↔ e ∈ t.toList ∧ e.2 < n := by
  simp [below, and_comm]

theorem filter_below (t : Labels) {n index : Nat} (h : index < n) :
    (t.below n).filter (·.2 = index) = t.toList.filter (·.2 = index) := by
  induction n with
  | zero => omega
  | succ n ih =>
    rw [below_succ, List.filter_append, map_namesAt, List.filter_filter]
    by_cases hn : index = n
    · subst hn
      have hbelow : (t.below index).filter (·.2 = index) = [] := by
        refine List.filter_eq_nil_iff.mpr fun e he => ?_
        have := (mem_below.mp he).2
        simp only [decide_eq_true_eq]
        omega
      rw [hbelow, List.nil_append]
      simp
    · have hat : t.toList.filter (fun e => decide (e.2 = index) && decide (e.2 = n)) = [] := by
        refine List.filter_eq_nil_iff.mpr fun e _ => ?_
        simp only [Bool.and_eq_true, decide_eq_true_eq]
        omega
      rw [hat, List.append_nil, ih (by omega)]

theorem nodup_below (t : Labels) (n : Nat) : ((t.below n).map Prod.fst).Nodup := by
  induction n with
  | zero => exact List.nodup_nil
  | succ n ih =>
    rw [below_succ, map_namesAt, List.map_append]
    refine List.nodup_append.mpr ⟨ih, t.nodup.sublist (List.filter_sublist.map _), ?_⟩
    intro a ha b hb hab
    obtain ⟨e, he, rfl⟩ := List.mem_map.mp ha
    obtain ⟨f, hf, rfl⟩ := List.mem_map.mp hb
    obtain ⟨hemem, hlt⟩ := mem_below.mp he
    obtain ⟨hfmem, hn⟩ := List.mem_filter.mp hf
    obtain rfl : e = f := List.inj_on_of_nodup_map t.nodup hemem hfmem hab
    simp only [decide_eq_true_eq] at hn
    omega

section Below

variable {t u : Labels} {n : Nat} (hu : u.toList = t.below n)
include hu

theorem namesAt_of_below {index : Nat} (h : index < n) : u.namesAt index = t.namesAt index := by
  rw [namesAt, hu, filter_below t h]
  rfl

theorem get?_of_below (hlt : ∀ {name index}, t.get? name = some index → index < n)
    (name : String) : u.get? name = t.get? name := by
  refine Option.ext fun index => ?_
  rw [get?_eq_some_iff, get?_eq_some_iff, hu, mem_below]
  exact and_iff_left_of_imp fun hmem => hlt (get?_eq_some_iff.mpr hmem)

end Below

end Ram.Labels
