import Mathlib.Data.List.Flatten
import ProtoSchema.Proofs.Document.Arranged
import ProtoSchema.Proofs.Json.Reading

/-!
# Room for documents

The text of an object holds the texts of its entries, which are set in further there, and it
is as long in any order of its keys. So a memory with room for the object has room for each of
them.
-/
namespace ProtoSchema.Document

/-- A line is set in no less at a greater depth. -/
theorem Style.newline_sublist (style : Style) {depth depth' : ℕ} (h : depth ≤ depth') :
    (style.newline depth).Sublist (style.newline depth') := by
  have wider : style.indent.toNat * depth ≤ style.indent.toNat * depth' :=
    Nat.mul_le_mul_left _ h
  exact ((List.replicate_sublist_replicate ' ').mpr wider).cons_cons '\n'

/-- Items that hold more, at a greater depth, hold more when they are enclosed. -/
theorem Style.enclose_sublist {α : Type} (style : Style) {depth depth' : ℕ}
    (h : depth ≤ depth') (left right : Char) (l : List α) {f g : α → List Char}
    (hfg : ∀ a ∈ l, (f a).Sublist (g a)) : (style.enclose depth left right (l.map f)).Sublist
      (style.enclose depth' left right (l.map g)) := by
  cases l with
  | nil => exact .refl _
  | cons a l =>
    have outer := style.newline_sublist h
    have inner := style.newline_sublist (Nat.add_le_add_right h 1)
    obtain ⟨first, others⟩ := List.forall_mem_cons.mp hfg
    have behind : (l.flatMap fun a => ',' :: style.newline (depth + 1) ++ f a).Sublist
        (l.flatMap fun a => ',' :: style.newline (depth' + 1) ++ g a) :=
      .flatMap_right l fun a ha => (inner.cons_cons ',').append (others a ha)
    simp only [Style.enclose, List.map_cons, Json.intercalate_cons, List.flatMap_map]
    exact (((inner.cons_cons left).append (first.append behind)).append outer).append
      (.refl _)

/-- An item stands between the brackets. -/
theorem Style.sublist_enclose (style : Style) (depth : ℕ) (left right : Char)
    {items : List (List Char)} {item : List Char} (h : item ∈ items) :
    item.Sublist (style.enclose depth left right items) := by
  cases items with
  | nil => cases h
  | cons first items =>
    simp only [Style.enclose, Json.intercalate_cons]
    have among : item.Sublist
        (first ++ items.flatMap (',' :: style.newline (depth + 1) ++ ·)) := by
      rcases List.mem_cons.mp h with rfl | h
      · exact List.sublist_append_left _ _
      · have joined := List.sublist_flatten_of_mem
          (List.mem_map_of_mem (f := (',' :: style.newline (depth + 1) ++ ·)) h)
        exact ((List.sublist_append_right _ item).trans joined).trans
          (List.sublist_append_right _ _)
    exact ((among.trans (List.sublist_append_right _ _)).trans
      (List.sublist_append_left _ _)).trans
      (List.sublist_append_left _ _)

/-- A document holds no less at a greater depth. -/
theorem write_sublist (indent : ℤ) (d : Document) {depth depth' : ℕ} (h : depth ≤ depth') :
    (d.write ⟨indent, false⟩ depth).Sublist (d.write ⟨indent, false⟩ depth') := by
  induction d generalizing depth depth' with
  | list ds ih =>
    simp only [write, writeAll_eq]
    exact Style.enclose_sublist _ h _ _ ds fun d hd => ih d hd (Nat.add_le_add_right h 1)
  | object es ih =>
    simp only [write, writeEntries_eq, Style.order, List.map_map,
      Bool.false_eq_true, if_false]
    exact Style.enclose_sublist _ h _ _ es fun e he =>
      (List.Sublist.refl _).append
        (((ih e he (Nat.add_le_add_right h 1)).cons_cons _).cons_cons _)
  | _ => exact .refl _

/-- The text of an object holds the text of each of its entries. -/
theorem toJson_sublist_object (indent : ℤ) {entries : List (Text × Document)}
    {e : Text × Document} (he : e ∈ entries) :
    (e.2.toJson ⟨indent, false⟩).Sublist ((object entries).toJson ⟨indent, false⟩) := by
  simp only [toJson, write, writeEntries_eq, Style.order, List.map_map,
    Bool.false_eq_true, if_false]
  refine ((write_sublist indent e.2 (Nat.zero_le 1)).trans ?_).trans
    (Style.sublist_enclose _ 0 '{' '}' (List.mem_map_of_mem he))
  exact (((List.Sublist.refl _).cons _).cons _).trans (List.sublist_append_right _ _)

/-- How many characters enclosed items take: each takes its own and those that part it from
the one in front. -/
theorem Style.length_enclose (style : Style) (depth : ℕ) (left right : Char)
    {items : List (List Char)} (h : items ≠ []) :
    (style.enclose depth left right items).length =
      ((items.map List.length).map ((style.newline (depth + 1)).length + 1 + ·)).sum +
        (style.newline depth).length + 1 := by
  obtain ⟨first, items, rfl⟩ := List.exists_cons_of_ne_nil h
  simp only [Style.enclose, Json.intercalate_cons, List.length_append, List.length_cons,
    List.length_flatMap, List.length_nil, List.map_map, List.map_cons, List.sum_cons]
  simp only [Function.comp_def]
  omega

/-- Items of the same lengths take as much room in any order. -/
theorem Style.length_enclose_perm (style : Style) (depth : ℕ) (left right : Char)
    {items items' : List (List Char)}
    (h : (items.map List.length).Perm (items'.map List.length)) :
    (style.enclose depth left right items).length =
      (style.enclose depth left right items').length := by
  rcases items.eq_nil_or_concat with rfl | ⟨_, _, rfl⟩
  · obtain rfl : items' = [] := by simpa using h
    rfl
  · have hne : items' ≠ [] := by
      rintro rfl
      simpa using h.length_eq
    rw [Style.length_enclose _ _ _ _ (by simp), Style.length_enclose _ _ _ _ hne,
      (h.map _).sum_nat]

/-- The text of a document is as long with the keys in order as it is without. -/
theorem length_write_sorted (indent : ℤ) (depth : ℕ) (d : Document) :
    (d.write ⟨indent, true⟩ depth).length = (d.write ⟨indent, false⟩ depth).length := by
  induction d generalizing depth with
  | list ds ih =>
    simp only [write, writeAll_eq]
    refine Style.length_enclose_perm ⟨indent, true⟩ depth '[' ']' (.of_eq ?_)
    simp only [List.map_map]
    exact List.map_congr_left fun d hd => ih d hd (depth + 1)
  | object es ih =>
    simp only [write, writeEntries_eq]
    refine Style.length_enclose_perm ⟨indent, true⟩ depth '{' '}' ?_
    refine (((List.mergeSort_perm _ _).map _).map _).trans (.of_eq ?_)
    simp only [Style.order, Bool.false_eq_true, if_false, List.map_map]
    refine List.map_congr_left fun e he => ?_
    simp [ih e he (depth + 1)]
  | _ => rfl

theorem length_toJson (style : Style) (d : Document) :
    (d.toJson style).length = (d.toJson ⟨style.indent, false⟩).length := by
  obtain ⟨indent, sortKeys⟩ := style
  cases sortKeys with
  | false => rfl
  | true => exact length_write_sorted indent 0 d

/-- Whether there is room for a document does not depend on the order of keys. -/
theorem Memory.fits_unsorted (memory : Memory) (style : Style) (d : Document) :
    memory.fits style d = memory.fits ⟨style.indent, false⟩ d := by
  rw [fits, fits, length_toJson style]

/-- Where there is room for an object, there is room for each of its entries. -/
theorem Memory.fits_of_mem {size : ℕ} {style : Style} {entries : List (Text × Document)}
    {e : Text × Document} (h : (ofSize size).fits style (.object entries) = true)
    (he : e ∈ entries) : (ofSize size).fits style e.2 = true := by
  have shorter := (toJson_sublist_object style.indent he).length_le
  rw [← length_toJson, ← length_toJson] at shorter
  simp only [fits, ofSize, Bool.and_eq_true, decide_eq_true_eq] at h ⊢
  exact ⟨h.1, shorter.trans h.2⟩

end ProtoSchema.Document
