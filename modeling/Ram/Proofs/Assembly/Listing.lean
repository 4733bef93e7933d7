import Ram.Proofs.Assembly.Assembled
import Ram.Proofs.Assembly.Written

/-!
# Listings

A listing is a program written out: the statements in order, each behind the labels that are bound
to it, and the labels of the end at the end. Reading its lines gives back its items
(`map_entry_listing`), and assembly does with them what they say (`assemble_listing_outline`).
What they say is the program again, with the label table in the order of the indices
(`foldl_add_itemsFrom`). So an assembled program is what its listing is assembled to, but for places
and for the order of labels of different indices, and that program has the same listing
(`assemble_listing`).
-/

namespace Ram

open Ram.Source Ram.Grammar

/-! ## Items -/

/-- A line of a listing. -/
inductive Item where
  | label (name : String)
  | instruction (i : Instruction)
  deriving DecidableEq, Repr

namespace Item

def text : Item → String
  | label name => name ++ ":"
  | instruction i => i.text

/-- What an item adds to a program. -/
def add (p : Program) : Item → Program
  | label name => p.declare name
  | instruction i => p.push ⟨i, Site.nowhere⟩

/-- What is read of an item. -/
def entry : Item → Entry
  | label name => ⟨some name, []⟩
  | instruction i => ⟨none, i.phrase⟩

def words : Item → List (List Char)
  | label name => [(name ++ ":").toList]
  | instruction i => i.phrase.map String.toList

/-- The item can be written so that it is read as itself. -/
def Legible : Item → Prop
  | label name => IsWord (name ++ ":").toList
  | instruction i => Spoken i

theorem toList_text (x : Item) : x.text.toList = joinWords x.words := by
  cases x with
  | label name => rw [words, joinWords, List.intercalate_singleton]; rfl
  | instruction i => exact i.toList_text

theorem Legible.isWord {x : Item} (h : x.Legible) : ∀ w ∈ x.words, IsWord w := by
  cases x with
  | label name =>
    intro w hw
    rw [List.mem_singleton.mp hw]
    exact h
  | instruction i =>
    obtain ⟨ws, hi, hws⟩ := h
    intro w hw
    obtain ⟨v, hv, rfl⟩ := List.mem_map.mp hw
    exact isWord_phrase hi hws v hv

theorem ofWords_words (x : Item) : Entry.ofWords x.words = some x.entry := by
  cases x with
  | label name =>
    have hlast : (name ++ ":").toList = name.toList ++ [':'] := String.toList_append
    rw [words, Entry.ofWords, hlast, List.getLast?_concat, if_pos rfl, List.dropLast_concat,
      String.ofList_toList]
    rfl
  | instruction i =>
    obtain ⟨head, args, hphrase, hhead⟩ := i.phrase_eq_cons
    have hid : String.ofList ∘ String.toList = id := funext fun _ => String.ofList_toList
    rw [words, entry, hphrase, List.map_cons, Entry.ofWords, if_neg hhead.2, List.map_cons,
      List.map_map, String.ofList_toList, hid, List.map_id]

end Item

/-! ## Listings -/

/-- The items of statements that are numbered from `index` on, the labels of the end included. -/
def itemsFrom (t : Labels) (index : Nat) : List Instruction → List Item
  | [] => (t.namesAt index).map .label
  | i :: is => (t.namesAt index).map .label ++ .instruction i :: itemsFrom t (index + 1) is

namespace Program

def items (p : Program) : List Item := itemsFrom p.labels 0 (instructions p)

def listing (p : Program) : String := "\n".intercalate (p.items.map Item.text)

end Program

theorem map_entry_listing {p : Program} (h : ∀ x ∈ p.items, x.Legible) :
    (lines p.listing).map Line.entry = p.items.map Item.entry := by
  have htext : p.listing = ofWordLines (p.items.map Item.words) := by
    have hmap : p.items.map (String.toList ∘ Item.text) = p.items.map (joinWords ∘ Item.words) :=
      List.map_congr_left fun x _ => x.toList_text
    rw [← String.toList_inj, Program.listing, String.toList_intercalate, List.map_map, hmap,
      ofWordLines, List.map_map]
    exact String.toList_ofList.symm
  have hwords : ∀ ws ∈ p.items.map Item.words, ∀ w ∈ ws, IsWord w := by
    intro ws hws
    obtain ⟨x, hx, rfl⟩ := List.mem_map.mp hws
    exact (h x hx).isWord
  have hentry : Entry.ofWords ∘ Item.words = some ∘ Item.entry :=
    funext fun x => x.ofWords_words
  rw [htext, map_entry_ofWordLines hwords, List.filterMap_map, hentry, List.filterMap_eq_map]

/-! ## Reading items -/

namespace Assembly

/-- A line that is read as an item adds what the item adds, but for places. -/
theorem addLine_item {q r : Program} (h : q.outline = r.outline) {l : Line} {x : Item}
    (hx : x.Legible) (hl : l.entry = x.entry) :
    ∃ q', addLine q l = .ok q' ∧ q'.outline = (x.add r).outline := by
  cases x with
  | label name =>
    obtain ⟨hlabel, hphrase⟩ := Entry.mk.inj hl
    obtain ⟨f, hf, rfl⟩ := Option.map_eq_some_iff.mp hlabel
    refine ⟨q.declare f.text, ?_, Program.outline_declare h f.text⟩
    rw [addLine_of_none (instruction?_of_nil hphrase), declareLabel, hf]
  | instruction i =>
    obtain ⟨hlabel, hphrase⟩ := Entry.mk.inj hl
    obtain ⟨ws, hden, -⟩ := hx
    obtain ⟨i', hi', -, hbare⟩ := instruction?_of_denotes (hphrase ▸ denotes_phrase hden)
    refine ⟨q.push ⟨i', l.site⟩, ?_, Program.outline_push h hbare⟩
    rw [addLine_of_some hi', declareLabel, Option.map_eq_none_iff.mp hlabel]

theorem foldlM_addLine_items : ∀ {ls : List Line} {xs : List Item}, (∀ x ∈ xs, x.Legible) →
    ls.map Line.entry = xs.map Item.entry → ∀ {q r : Program}, q.outline = r.outline →
      ∃ q', ls.foldlM addLine q = .ok q' ∧ q'.outline = (xs.foldl Item.add r).outline
  | [], xs, _, hls, q, r, h => by
    rw [List.map_eq_nil_iff.mp hls.symm]
    exact ⟨q, rfl, h⟩
  | l :: ls, xs, hxs, hls, q, r, h => by
    obtain ⟨x, xs, rfl, hx, hrest⟩ := List.map_eq_cons_iff.mp hls.symm
    obtain ⟨hx', hxs⟩ := List.forall_mem_cons.mp hxs
    obtain ⟨q', hq', h'⟩ := addLine_item h hx' hx.symm
    obtain ⟨q'', hq'', h''⟩ := foldlM_addLine_items hxs hrest.symm h'
    refine ⟨q'', ?_, h''⟩
    rw [List.foldlM_cons, hq']
    exact hq''

end Assembly

theorem assemble_listing_outline {p : Program} (h : ∀ x ∈ p.items, x.Legible) :
    ∃ q, assemble p.listing = .ok q ∧ q.outline = (p.items.foldl Item.add {}).outline :=
  Assembly.foldlM_addLine_items h (map_entry_listing h) rfl

/-! ## What the items of a program add up to -/

theorem of_mem_itemsFrom {t : Labels} {x : Item} : ∀ {is : List Instruction} {index : Nat},
    x ∈ itemsFrom t index is →
      (∃ name ∈ t.names, x = .label name) ∨ ∃ i ∈ is, x = .instruction i := by
  have hlabels : ∀ {index : Nat}, x ∈ (t.namesAt index).map .label →
      ∃ name ∈ t.names, x = .label name := by
    intro index hx
    obtain ⟨name, hname, rfl⟩ := List.mem_map.mp hx
    obtain ⟨e, he, rfl⟩ := List.mem_map.mp hname
    exact ⟨e.1, List.mem_map_of_mem (List.mem_filter.mp he).1, rfl⟩
  intro is
  induction is with
  | nil => exact fun hx => .inl (hlabels hx)
  | cons i is ih =>
    intro index hx
    rcases List.mem_append.mp hx with hx | hx
    · exact .inl (hlabels hx)
    · rcases List.mem_cons.mp hx with rfl | hx
      · exact .inr ⟨i, List.mem_cons_self, rfl⟩
      · rcases ih hx with hx | ⟨j, hj, rfl⟩
        · exact .inl hx
        · exact .inr ⟨j, .tail _ hj, rfl⟩

theorem Program.Assembled.legible {p : Program} (h : p.Assembled) : ∀ x ∈ p.items, x.Legible := by
  intro x hx
  rcases of_mem_itemsFrom hx with ⟨name, hname, rfl⟩ | ⟨i, hi, rfl⟩
  · exact h.isWord name hname
  · exact h.spoken i hi

/-- New labels go to the end of the table, all with the index of the next statement. -/
theorem Program.foldl_declare : ∀ {names : List String} {q : Program},
    (q.labels.names ++ names).Nodup →
      (names.foldl declare q).statements = q.statements ∧
      (names.foldl declare q).labels.toList = q.labels.toList ++ names.map (·, q.size)
  | [], q, _ => ⟨rfl, (List.append_nil _).symm⟩
  | name :: names, q, h => by
    have hnew : name ∉ q.labels.names := fun hmem =>
      (List.nodup_append.mp h).2.2 name hmem name List.mem_cons_self rfl
    have hrest : ((q.declare name).labels.names ++ names).Nodup := by
      rw [declare, Labels.names_insert, if_neg hnew, List.append_assoc]
      exact h
    have htable : (q.declare name).labels.toList = q.labels.toList ++ [(name, q.size)] :=
      Labels.insert_of_new hnew q.size
    obtain ⟨hstatements, hlabels⟩ := foldl_declare hrest
    rw [htable, List.append_assoc] at hlabels
    exact ⟨hstatements, hlabels⟩

section Items

variable (t : Labels)

theorem foldl_add_labels {q : Program} (hq : q.labels.toList = t.below q.size) :
    (((t.namesAt q.size).map Item.label).foldl Item.add q).statements = q.statements ∧
    (((t.namesAt q.size).map Item.label).foldl Item.add q).labels.toList =
      t.below (q.size + 1) := by
  have hnodup : (q.labels.names ++ t.namesAt q.size).Nodup := by
    have := t.nodup_below (q.size + 1)
    rw [Labels.below_succ, Labels.map_namesAt, List.map_append, ← hq] at this
    exact this
  rw [List.foldl_map, Labels.below_succ, ← hq]
  exact Program.foldl_declare hnodup

/-- Induction on the statements: the table has the labels of the statements so far. -/
theorem foldl_add_itemsFrom (is : List Instruction) : ∀ {q : Program},
    q.labels.toList = t.below q.size →
      ((itemsFrom t q.size is).foldl Item.add q).bare = q.bare ++ is.map Instruction.bare ∧
      ((itemsFrom t q.size is).foldl Item.add q).labels.toList =
        t.below (q.size + is.length + 1) := by
  induction is with
  | nil =>
    intro q hq
    obtain ⟨hstatements, hlabels⟩ := foldl_add_labels t hq
    rw [itemsFrom, List.map_nil, List.append_nil]
    exact ⟨by rw [Program.bare, hstatements]; rfl, hlabels⟩
  | cons i is ih =>
    intro q hq
    obtain ⟨hstatements, hlabels⟩ := foldl_add_labels t hq
    rw [itemsFrom, List.foldl_append, List.foldl_cons]
    generalize ((t.namesAt q.size).map Item.label).foldl Item.add q = r at hstatements hlabels ⊢
    -- behind the labels of the statement and the statement, the table again ends where it should
    have hsize : (r.push ⟨i, Site.nowhere⟩).size = q.size + 1 := by
      rw [Program.size, Program.push, hstatements]
      exact Array.size_push _
    have hbare : (r.push ⟨i, Site.nowhere⟩).bare = q.bare ++ [i.bare] := by
      simp [Program.bare, Program.push, hstatements]
    have hr := ih (q := r.push ⟨i, Site.nowhere⟩) (by rw [hsize]; exact hlabels)
    rw [hsize, hbare, List.append_assoc] at hr
    refine ⟨hr.1, ?_⟩
    rw [List.length_cons, Nat.add_comm is.length 1, ← Nat.add_assoc]
    exact hr.2

end Items

/-! ## Round trip -/

theorem itemsFrom_congr {t u : Labels} (is : List Instruction) : ∀ {index : Nat},
    (∀ k ≤ index + is.length, u.namesAt k = t.namesAt k) →
      itemsFrom u index is = itemsFrom t index is := by
  induction is with
  | nil =>
    intro index h
    rw [itemsFrom, itemsFrom, h index (Nat.le_refl _)]
  | cons i is ih =>
    intro index h
    rw [List.length_cons] at h
    rw [itemsFrom, itemsFrom, h index (by omega), ih fun k hk => h k (by omega)]

theorem map_text_itemsFrom_bare (t : Labels) (is : List Instruction) : ∀ index,
    (itemsFrom t index (is.map Instruction.bare)).map Item.text =
      (itemsFrom t index is).map Item.text := by
  induction is with
  | nil => exact fun _ => rfl
  | cons i is ih =>
    intro index
    simp only [List.map_cons, itemsFrom, List.map_append, ih, Item.text, i.text_bare]

theorem Program.bare_eq_map (p : Program) : p.bare = (instructions p).map Instruction.bare := by
  rw [instructions, List.map_map]
  rfl

/-- Places do not show in a listing. -/
theorem Program.listing_eq_bare (p : Program) :
    p.listing = "\n".intercalate ((itemsFrom p.labels 0 p.bare).map Item.text) := by
  rw [bare_eq_map, map_text_itemsFrom_bare]
  rfl

/-- Every assembled program has a listing that is assembled to the same program but for places,
and that program has the same listing. -/
theorem assemble_listing {src : String} {p : Program} (h : assemble src = .ok p) :
    ∃ q, assemble p.listing = .ok q ∧ q.size = p.size ∧ q.bare = p.bare ∧
      (∀ name, q.labels.get? name = p.labels.get? name) ∧ q.listing = p.listing := by
  have hp := assembled_of_assemble h
  obtain ⟨q, hq, houtline⟩ := assemble_listing_outline hp.legible
  obtain ⟨hinstructions, hlabels⟩ := Prod.mk.inj houtline
  obtain ⟨hbare, hbelow⟩ := foldl_add_itemsFrom p.labels (instructions p) (q := {}) rfl
  replace hbare : q.bare = p.bare := by
    rw [p.bare_eq_map]
    exact hinstructions.trans hbare
  replace hbelow : q.labels.toList = p.labels.below (p.size + 1) := by
    have hlength : 0 + (instructions p).length + 1 = p.size + 1 := by
      rw [← p.length_bare, p.bare_eq_map, List.length_map, Nat.zero_add]
    rw [hlabels, ← hlength]
    exact hbelow
  refine ⟨q, hq, ?_, hbare, fun name => ?_, ?_⟩
  · rw [← q.length_bare, ← p.length_bare, hbare]
  · exact Labels.get?_of_below hbelow (fun hk => Nat.lt_succ_of_le (hp.le_size hk)) name
  · have hitems : itemsFrom q.labels 0 p.bare = itemsFrom p.labels 0 p.bare := by
      refine itemsFrom_congr p.bare fun k hk => Labels.namesAt_of_below hbelow ?_
      rw [p.length_bare] at hk
      omega
    rw [q.listing_eq_bare, hbare, hitems, ← p.listing_eq_bare]

/-- A text with the least word, a number in base 16, a name that ends in a colon, the empty name, a
name that is bound twice and one that is bound to the end. -/
theorem assemble_listing_of_rebound :
    let src := "x: CLOAD -9223372036854775808 # least\ny:: LOAD 0x10\n:\nx: IF != +5 GOTO y:\nend:"
    let text := "CLOAD -9223372036854775808\ny::\nLOAD 16\nx:\n:\nIF != 5 GOTO y:\nend:"
    ∃ p q, assemble src = .ok p ∧ p.listing = text ∧ assemble text = .ok q ∧ q.size = p.size ∧
      q.bare = p.bare ∧ (∀ name, q.labels.get? name = p.labels.get? name) ∧ q.listing = text := by
  intro src text
  have htext : (assemble src).map Program.listing = .ok text := by decide
  cases hp : assemble src with
  | error e => rw [hp] at htext; cases htext
  | ok p =>
    rw [hp] at htext
    have hlisting : p.listing = text := Except.ok.inj htext
    obtain ⟨q, hq⟩ := assemble_listing hp
    rw [hlisting] at hq
    exact ⟨p, q, rfl, hlisting, hq⟩

end Ram
