/-!
# Label tables

A finite map from label names to instruction indices that remembers the order in which the names
were first declared. Declaring a name again gives it the new index and leaves it in its place, so
every name is in the table once.
-/

namespace Ram

structure Labels where
  entries : List (String × Nat)
  nodup : (entries.map Prod.fst).Nodup
  deriving DecidableEq, Repr

namespace Labels

instance : EmptyCollection Labels := ⟨⟨[], List.nodup_nil⟩⟩

/-- The entries in order of first declaration. -/
def toList (t : Labels) : List (String × Nat) := t.entries

def get? (t : Labels) (name : String) : Option Nat := t.entries.lookup name

def contains (t : Labels) (name : String) : Bool := t.entries.any (·.1 == name)

def size (t : Labels) : Nat := t.entries.length

def isEmpty (t : Labels) : Bool := t.entries.isEmpty

/-! ## Declarations -/

def put (name : String) (index : Nat) : List (String × Nat) → List (String × Nat)
  | [] => [(name, index)]
  | e :: es => if e.1 = name then (name, index) :: es else e :: put name index es

theorem map_fst_put (name : String) (index : Nat) (es : List (String × Nat)) :
    (put name index es).map Prod.fst =
      if name ∈ es.map Prod.fst then es.map Prod.fst else es.map Prod.fst ++ [name] := by
  induction es with
  | nil => rfl
  | cons e es ih =>
    by_cases h : e.1 = name
    · subst h
      simp only [put, ↓reduceIte, List.map_cons, List.mem_cons, true_or]
    · have hne : ¬ name = e.1 := fun h' => h h'.symm
      simp only [put, h, ↓reduceIte, List.map_cons, ih, List.mem_cons, hne, false_or]
      split <;> rfl

theorem nodup_put {es : List (String × Nat)} (h : (es.map Prod.fst).Nodup) (name : String)
    (index : Nat) : ((put name index es).map Prod.fst).Nodup := by
  rw [map_fst_put]
  split
  · exact h
  · rename_i hnew
    exact List.nodup_append.mpr ⟨h, by simp, fun a ha b hb hab =>
      hnew (List.mem_singleton.mp hb ▸ hab ▸ ha)⟩

def insert (t : Labels) (name : String) (index : Nat) : Labels :=
  ⟨put name index t.entries, nodup_put t.nodup name index⟩

/-! ## Look-ups -/

theorem lookup_put (name : String) (index : Nat) (k : String) (es : List (String × Nat)) :
    (put name index es).lookup k = if name = k then some index else es.lookup k := by
  induction es with
  | nil => grind [put]
  | cons e es ih => grind [put]

@[simp] theorem get?_empty (k : String) : ({} : Labels).get? k = none := rfl

theorem get?_insert (t : Labels) (name : String) (index : Nat) (k : String) :
    (t.insert name index).get? k = if name = k then some index else t.get? k :=
  lookup_put name index k t.entries

theorem any_fst_eq_isSome_lookup (name : String) (es : List (String × Nat)) :
    es.any (·.1 == name) = (es.lookup name).isSome := by
  induction es with
  | nil => rfl
  | cons e es ih =>
    obtain ⟨k, i⟩ := e
    rw [List.any_cons, List.lookup_cons, ih, Bool.beq_comm]
    cases name == k <;> rfl

theorem contains_eq_isSome_get? (t : Labels) (name : String) :
    t.contains name = (t.get? name).isSome :=
  any_fst_eq_isSome_lookup name t.entries

end Labels

end Ram
