import Mathlib.Data.Set.Card
import Mathlib.Data.List.Induction
import Ram.Proofs.Labels

/-!
# What a label table keeps of its declarations

A table is made by declarations one after the other, and it forgets most of them. `Keeps` says
what it keeps of a history of events, some of which declare a name: the index that the last
declaration of a name gave it, and the order in which the names were first declared (`InOrder`).
One more event keeps the order, whether it declares a name (`InOrder.insert`) or none
(`InOrder.skip`). A table that is made of insertions alone keeps them in this way
(`keeps_ofList`).
-/

namespace Ram.Labels

variable {α : Type}

/-- The names are those that the events of the history declare, in the order of their first
declarations. -/
structure InOrder (declares : α → String → Prop) [∀ e name, Decidable (declares e name)]
    (history : List α) (names : List String) : Prop where
  mem_iff : ∀ name, name ∈ names ↔ ∃ e ∈ history, declares e name
  pairwise : names.Pairwise fun a b =>
    history.findIdx (declares · a) < history.findIdx (declares · b)

/-- What the table keeps of the history, where an event `e` that declares a name and has the events
`before` in front of it gives the name the index `index before e`. -/
structure Keeps (t : Labels) (declares : α → String → Prop)
    [∀ e name, Decidable (declares e name)] (index : List α → α → Nat) (history : List α) :
    Prop where
  /-- A name has the index of its last declaration, and none if it was never declared. -/
  get?_eq_some : ∀ name k, t.get? name = some k ↔
    ∃ before e after, history = before ++ e :: after ∧ declares e name ∧
      (∀ e' ∈ after, ¬ declares e' name) ∧ k = index before e
  contains_iff : ∀ name, t.contains name = true ↔ ∃ k, t.get? name = some k
  /-- The entries are the declared names with their indices, each of them once. -/
  mem_toList : ∀ name k, (name, k) ∈ t.toList ↔ t.get? name = some k
  nodup : t.names.Nodup
  inOrder : InOrder declares history t.names
  size_eq : t.size = {name | ∃ e ∈ history, declares e name}.ncard

variable {declares : α → String → Prop} {history : List α} {e : α} {t : Labels}

/-! ## The order of names -/

theorem exists_mem_concat (history : List α) (e : α) (name : String) :
    (∃ e' ∈ history ++ [e], declares e' name) ↔
      (∃ e' ∈ history, declares e' name) ∨ declares e name := by
  simp only [List.mem_append, List.mem_singleton, or_and_right, exists_or, exists_eq_left]

variable [∀ e name, Decidable (declares e name)]

namespace InOrder

variable {names : List String}

theorem empty : InOrder declares [] [] := ⟨by simp, .nil⟩

theorem findIdx_lt (h : InOrder declares history names) {name : String} (hname : name ∈ names) :
    history.findIdx (declares · name) < history.length := by
  rw [List.findIdx_lt_length]
  simpa using (h.mem_iff name).mp hname

theorem findIdx_concat (h : InOrder declares history names) (e : α) {name : String}
    (hname : name ∈ names) :
    (history ++ [e]).findIdx (declares · name) = history.findIdx (declares · name) := by
  rw [List.findIdx_append, if_pos (h.findIdx_lt hname)]

theorem pairwise_concat (h : InOrder declares history names) (e : α) :
    names.Pairwise fun a b =>
      (history ++ [e]).findIdx (declares · a) < (history ++ [e]).findIdx (declares · b) :=
  h.pairwise.imp_of_mem fun ha hb hlt => by
    rwa [h.findIdx_concat e ha, h.findIdx_concat e hb]

theorem skip (h : InOrder declares history names) (he : ∀ name, ¬ declares e name) :
    InOrder declares (history ++ [e]) names where
  mem_iff name := by rw [exists_mem_concat, h.mem_iff, or_iff_left (he name)]
  pairwise := h.pairwise_concat e

theorem insert (h : InOrder declares history t.names) {name : String}
    (he : ∀ k, declares e k ↔ name = k) (index : Nat) :
    InOrder declares (history ++ [e]) (t.insert name index).names := by
  rw [names_insert]
  split
  · rename_i hold
    refine ⟨fun k => ?_, h.pairwise_concat e⟩
    rw [exists_mem_concat, ← h.mem_iff, he, or_iff_left_of_imp]
    rintro rfl
    exact hold
  · rename_i hnew
    refine ⟨fun k => ?_, List.pairwise_append.mpr ⟨h.pairwise_concat e, by simp, ?_⟩⟩
    · rw [exists_mem_concat, ← h.mem_iff, he, List.mem_append, List.mem_singleton, eq_comm]
    · -- the new name is first declared by the last event, all others before
      intro a ha b hb
      obtain rfl := List.mem_singleton.mp hb
      have hlast : (history ++ [e]).findIdx (declares · b) = history.length := by
        have hnone : ¬ history.findIdx (declares · b) < history.length := by
          rw [List.findIdx_lt_length]
          simpa using mt (h.mem_iff b).mpr hnew
        have hhere : [e].findIdx (declares · b) = 0 := by
          simpa using (he b).mpr rfl
        rw [List.findIdx_append, if_neg hnone, hhere, Nat.zero_add]
      rw [h.findIdx_concat e ha, hlast]
      exact h.findIdx_lt ha

end InOrder

/-! ## Names and indices -/

theorem size_eq_ncard (h : InOrder declares history t.names) :
    t.size = {name | ∃ e ∈ history, declares e name}.ncard := by
  have hset : {name | ∃ e ∈ history, declares e name} = t.names.toFinset := by
    ext name
    simp [h.mem_iff]
  have hnodup : t.names.Nodup := t.nodup
  rw [hset, Set.ncard_coe_finset, List.toFinset_card_of_nodup hnodup, names, List.length_map]
  rfl

/-- The indices and the order of the names are all there is to show. -/
theorem keeps_of_inOrder {index : List α → α → Nat}
    (hget : ∀ name k, t.get? name = some k ↔
      ∃ before e after, history = before ++ e :: after ∧ declares e name ∧
        (∀ e' ∈ after, ¬ declares e' name) ∧ k = index before e)
    (h : InOrder declares history t.names) : t.Keeps declares index history where
  get?_eq_some := hget
  contains_iff name := by rw [contains_eq_isSome_get?, Option.isSome_iff_exists]
  mem_toList _ _ := get?_eq_some_iff.symm
  nodup := t.nodup
  inOrder := h
  size_eq := size_eq_ncard h

/-! ## Insertions -/

/-- The table of insertions into an empty one, the first one first. -/
def ofList (ds : List (String × Nat)) : Labels := ds.foldl (fun t d => t.insert d.1 d.2) {}

theorem ofList_concat (ds : List (String × Nat)) (d : String × Nat) :
    ofList (ds ++ [d]) = (ofList ds).insert d.1 d.2 :=
  List.foldl_concat _ _ d ds

theorem get?_ofList (ds : List (String × Nat)) (name : String) :
    (ofList ds).get? name = ds.reverse.lookup name := by
  induction ds using List.reverseRecOn with
  | nil => rfl
  | append_singleton ds d ih =>
    rw [ofList_concat, get?_insert, List.reverse_concat, List.lookup_cons, ih]
    by_cases h : d.1 = name
    · simp [h]
    · have hne : (name == d.1) = false := by simpa using fun h' => h h'.symm
      rw [if_neg h, hne]

theorem inOrder_ofList (ds : List (String × Nat)) :
    InOrder (fun d name => d.1 = name) ds (ofList ds).names := by
  induction ds using List.reverseRecOn with
  | nil => exact .empty
  | append_singleton ds d ih =>
    rw [ofList_concat]
    exact ih.insert (fun _ => Iff.rfl) d.2

theorem keeps_ofList (ds : List (String × Nat)) :
    (ofList ds).Keeps (fun d name => d.1 = name) (fun _ d => d.2) ds := by
  refine keeps_of_inOrder (fun name k => ?_) (inOrder_ofList ds)
  rw [get?_ofList, List.lookup_eq_some_iff]
  constructor
  · rintro ⟨after, before, hds, hafter⟩
    refine ⟨before.reverse, (name, k), after.reverse, ?_, rfl, fun d hd => ?_, rfl⟩
    · rw [← ds.reverse_reverse, hds]
      simp
    · exact (bne_iff_ne.mp (hafter d (List.mem_reverse.mp hd))).symm
  · rintro ⟨before, ⟨_, _⟩, after, rfl, rfl, hafter, rfl⟩
    refine ⟨after.reverse, before.reverse, by simp, fun d hd => ?_⟩
    exact bne_iff_ne.mpr fun h => hafter d (List.mem_reverse.mp hd) h.symm

end Ram.Labels
