import ProtoSchema.Proofs.Document.Value
import ProtoSchema.Proofs.Tree.WellFormed

/-!
# Documents of declarations

The same three facts for fields, ranges and enums. A reserved declaration that reserves
nothing would not say whether it reserves numbers or names; there is none in a well-formed
tree.
-/
namespace ProtoSchema

open Document
open Position (nowhere)

variable {positions : Bool}

/-- An absent part differs from one that is there. -/
theorem Document.ofOption_injective {α : Type} {f : α → Document} (hf : Function.Injective f)
    (hnull : ∀ a, f a ≠ .null) : Function.Injective (ofOption f) := by
  rintro (_ | a) (_ | a') h
  · rfl
  · exact absurd h.symm (hnull a')
  · exact absurd h (hnull a)
  · rw [hf h]

/-! ## Fields -/

/-- Cardinalities can be told from their words. -/
theorem Cardinality.word_injective : Function.Injective Cardinality.word := by
  rintro (_ | _ | _) (_ | _ | _) h <;> simp_all [word]

@[simp] theorem cardinalityDocument_ordered (c : Option Cardinality) :
    (cardinalityDocument c).Ordered :=
  ordered_ofOption (fun _ => .text _) c

/-- A cardinality can be told from its document, and so can the lack of one. -/
@[simp] theorem cardinalityDocument_inj {c c' : Option Cardinality} :
    cardinalityDocument c = cardinalityDocument c' ↔ c = c' :=
  (ofOption_injective (fun _ _ h => Cardinality.word_injective
    (Text.ofString_injective (Document.text.inj h))) nofun).eq_iff

@[simp] theorem cardinalityDocument_placed (c : Option Cardinality) :
    (cardinalityDocument c).placed = cardinalityDocument c :=
  placed_ofOption _ c

/-- The keys of the document of a field follow the common order. -/
theorem FieldDecl.ordered (f : FieldDecl) : (f.toDocument positions).Ordered :=
  node_ordered rfl (by simp) _

/-- A field can be told from its document. -/
theorem FieldDecl.toDocument_injective : Function.Injective (FieldDecl.toDocument true) := by
  rintro ⟨c, type, x, m, os, p⟩ ⟨c', type', x', m', os', p'⟩ h
  simpa [FieldDecl.toDocument, node_inj, and_assoc] using h

/-- Without positions, the document is that of the unplaced field less its places. -/
theorem FieldDecl.placed (f : FieldDecl) :
    (f.relocate nowhere).toDocument true = (f.toDocument false).placed := by
  simp [FieldDecl.toDocument, FieldDecl.relocate, nowhere]

theorem MapFieldDecl.ordered (f : MapFieldDecl) : (f.toDocument positions).Ordered :=
  node_ordered rfl (by simp) _

/-- A map field can be told from its document. -/
theorem MapFieldDecl.toDocument_injective :
    Function.Injective (MapFieldDecl.toDocument true) := by
  rintro ⟨key, value, x, m, os, p⟩ ⟨key', value', x', m', os', p'⟩ h
  simpa [MapFieldDecl.toDocument, node_inj, and_assoc] using h

theorem MapFieldDecl.placed (f : MapFieldDecl) :
    (f.relocate nowhere).toDocument true = (f.toDocument false).placed := by
  simp [MapFieldDecl.toDocument, MapFieldDecl.relocate, nowhere]

/-! ## Ranges -/

theorem RangeEnd.ordered (e : RangeEnd) : e.toDocument.Ordered := by
  cases e with
  | number n => exact .integer n
  | max => exact .text _

/-- The end of a range is a number or a text, so it can be told from its document. -/
theorem RangeEnd.toDocument_injective : Function.Injective RangeEnd.toDocument := by
  rintro (_ | _) (_ | _) h <;> simp_all [RangeEnd.toDocument]

/-- A range that has an end does not look like one that has none. -/
theorem RangeEnd.toDocument_ne_null (e : RangeEnd) : e.toDocument ≠ .null := by
  cases e <;> nofun

@[simp] theorem RangeEnd.placed (e : RangeEnd) : e.toDocument.placed = e.toDocument := by
  cases e <;> rfl

theorem TagRange.ordered (r : TagRange) : (r.toDocument positions).Ordered :=
  node_ordered rfl (by simp [ordered_ofOption RangeEnd.ordered]) _

/-- A range can be told from its document. -/
theorem TagRange.toDocument_injective : Function.Injective (TagRange.toDocument true) := by
  have last := ofOption_injective RangeEnd.toDocument_injective RangeEnd.toDocument_ne_null
  rintro ⟨first, e, p⟩ ⟨first', e', p'⟩ h
  simpa [TagRange.toDocument, node_inj, last.eq_iff, and_assoc] using h

theorem TagRange.placed (r : TagRange) :
    (r.relocate nowhere).toDocument true = (r.toDocument false).placed := by
  simp [TagRange.toDocument, TagRange.relocate, nowhere]

@[simp] theorem rangesDocument_ordered (rs : List TagRange) :
    (rangesDocument positions rs).Ordered :=
  ordered_list.mpr (List.forall_mem_map.mpr fun r _ => r.ordered)

/-- Ranges can be told from their document. -/
@[simp] theorem rangesDocument_inj {rs rs' : List TagRange} :
    rangesDocument true rs = rangesDocument true rs' ↔ rs = rs' := by
  simp [rangesDocument, (List.map_injective_iff.mpr TagRange.toDocument_injective).eq_iff]

@[simp] theorem rangesDocument_placed (rs : List TagRange) :
    rangesDocument true (rs.map (·.relocate nowhere)) = (rangesDocument false rs).placed := by
  simp [rangesDocument, Function.comp_def, TagRange.placed]

theorem ExtensionRangeDecl.ordered (r : ExtensionRangeDecl) :
    (r.toDocument positions).Ordered :=
  node_ordered rfl (by simp) _

/-- Ranges for extensions can be told from their document. -/
theorem ExtensionRangeDecl.toDocument_injective :
    Function.Injective (ExtensionRangeDecl.toDocument true) := by
  rintro ⟨rs, os, p⟩ ⟨rs', os', p'⟩ h
  simpa [ExtensionRangeDecl.toDocument, node_inj, and_assoc] using h

theorem ExtensionRangeDecl.placed (r : ExtensionRangeDecl) :
    (r.relocate nowhere).toDocument true = (r.toDocument false).placed := by
  simp [ExtensionRangeDecl.toDocument, ExtensionRangeDecl.relocate, nowhere]

/-! ## Reserved numbers and names -/

@[simp] theorem ofTexts_ordered (ts : List Text) : (ofTexts ts).Ordered :=
  ordered_list.mpr (List.forall_mem_map.mpr fun t _ => .text t)

@[simp] theorem ofTexts_inj {ts ts' : List Text} : ofTexts ts = ofTexts ts' ↔ ts = ts' := by
  have texts : Function.Injective Document.text := fun _ _ => Document.text.inj
  simp [ofTexts, (List.map_injective_iff.mpr texts).eq_iff]

@[simp] theorem ofTexts_placed (ts : List Text) : (ofTexts ts).placed = ofTexts ts := by
  simp [ofTexts, Function.comp_def]

theorem ReservedDecl.ordered (r : ReservedDecl) : (r.toDocument positions).Ordered :=
  node_ordered rfl (by simp) _

/-- What is reserved can be told from its document if it is anything at all: ranges and names
stand in two lists, one of which is empty. -/
theorem ReservedDecl.toDocument_inj {negatives : Bool} {r r' : ReservedDecl}
    (hr : r.WellFormed negatives) (hr' : r'.WellFormed negatives)
    (h : r.toDocument true = r'.toDocument true) : r = r' := by
  obtain ⟨reserved, p⟩ := r
  obtain ⟨reserved', p'⟩ := r'
  simp only [ReservedDecl.toDocument, node_inj] at h
  obtain ⟨-, hparts, rfl⟩ := h
  obtain ⟨hranges, hnames⟩ : reserved.rangeList = reserved'.rangeList ∧
      reserved.nameList = reserved'.nameList := by simpa using hparts
  cases reserved <;> cases reserved'
  case ranges.ranges rs rs' => rw [show rs = rs' from hranges]
  case ranges.names rs xs => exact absurd hranges hr.1
  case names.ranges xs rs => exact absurd hranges.symm hr'.1
  case names.names xs xs' => rw [show xs = xs' from hnames]

theorem ReservedDecl.placed (r : ReservedDecl) :
    (r.relocate nowhere).toDocument true = (r.toDocument false).placed := by
  have none : rangesDocument true [] = (rangesDocument false []).placed :=
    rangesDocument_placed []
  obtain ⟨reserved, p⟩ := r
  cases reserved <;>
    simp [ReservedDecl.toDocument, ReservedDecl.relocate, Reserved.relocate,
      Reserved.rangeList,
      Reserved.nameList, nowhere, none]

/-! ## Enums -/

theorem EnumValueDecl.ordered (v : EnumValueDecl) : (v.toDocument positions).Ordered :=
  node_ordered rfl (by simp) _

/-- A value of an enum can be told from its document. -/
theorem EnumValueDecl.toDocument_injective :
    Function.Injective (EnumValueDecl.toDocument true) := by
  rintro ⟨x, m, os, p⟩ ⟨x', m', os', p'⟩ h
  simpa [EnumValueDecl.toDocument, node_inj, and_assoc] using h

theorem EnumValueDecl.placed (v : EnumValueDecl) :
    (v.relocate nowhere).toDocument true = (v.toDocument false).placed := by
  simp [EnumValueDecl.toDocument, EnumValueDecl.relocate, nowhere]

theorem EnumElement.ordered (e : EnumElement) : (e.toDocument positions).Ordered := by
  cases e with
  | option o => exact o.ordered
  | value v => exact v.ordered
  | reserved r => exact r.ordered

/-- What kind of node an element of an enum is. -/
def EnumElement.kind : EnumElement → NodeKind
  | .option _ => .option
  | .value _ => .enumValue
  | .reserved _ => .reserved

/-- The document of an element of an enum is one of a node of its kind. -/
theorem EnumElement.isNode (e : EnumElement) : IsNode e.kind (e.toDocument positions) := by
  cases e with
  | option o => exact isNode_node .option _ _
  | value v => exact isNode_node .enumValue _ _
  | reserved r => exact isNode_node .reserved _ _

/-- Elements of an enum that are of one kind can be told from their documents. -/
theorem EnumElement.toDocument_inj : ∀ {e e' : EnumElement}, e.kind = e'.kind → e.WellFormed →
    e'.WellFormed → e.toDocument true = e'.toDocument true → e = e'
  | .option _, .option _, _, _, _, h => congrArg _ (OptionStatement.toDocument_injective h)
  | .value _, .value _, _, _, _, h => congrArg _ (EnumValueDecl.toDocument_injective h)
  | .reserved _, .reserved _, _, hr, hr', h =>
    congrArg _ (ReservedDecl.toDocument_inj hr hr' h)

theorem EnumElement.placed (e : EnumElement) :
    (e.relocate nowhere).toDocument true = (e.toDocument false).placed := by
  cases e with
  | option o => exact o.placed
  | value v => exact v.placed
  | reserved r => exact r.placed

/-- Elements of which each is determined by its document are determined by their documents. -/
theorem map_toDocument_inj {α : Type} {f : α → Document} {P : α → Prop}
    (hf : ∀ a a', P a → P a' → f a = f a' → a = a') {as as' : List α} (has : ∀ a ∈ as, P a)
    (has' : ∀ a ∈ as', P a) (h : as.map f = as'.map f) : as = as' := by
  induction as generalizing as' with
  | nil => simpa using h
  | cons a as ih =>
    cases as' with
    | nil => cases h
    | cons a' as' =>
      obtain ⟨first, rest⟩ := List.cons.inj h
      rw [hf a a' (has a (by simp)) (has' a' (by simp)) first,
        ih (fun a ha => has a (by simp [ha])) (fun a ha => has' a (by simp [ha])) rest]

theorem EnumDecl.ordered (e : EnumDecl) : (e.toDocument positions).Ordered :=
  node_ordered rfl (by simp [EnumElement.ordered]) _

/-- An enum can be told from its document. -/
theorem EnumDecl.toDocument_inj {e e' : EnumDecl} (he : e.WellFormed) (he' : e'.WellFormed)
    (h : e.toDocument true = e'.toDocument true) : e = e' := by
  obtain ⟨x, es, p⟩ := e
  obtain ⟨x', es', p'⟩ := e'
  simp only [EnumDecl.toDocument, node_inj] at h
  obtain ⟨-, hparts, rfl⟩ := h
  obtain ⟨rfl, helements⟩ : x = x' ∧ es.map (EnumElement.toDocument true) =
      es'.map (EnumElement.toDocument true) := by simpa using hparts
  have elements := map_toDocument_inj (fun a a' ha ha' same =>
    EnumElement.toDocument_inj (a.isNode.kind_eq (same ▸ a'.isNode)) ha ha' same) he.2
      he'.2 helements
  rw [show es = es' from elements]

/-- Without positions, the document is that of the unplaced enum less its places. -/
theorem EnumDecl.placed (e : EnumDecl) :
    (e.relocate nowhere).toDocument true = (e.toDocument false).placed := by
  simp [EnumDecl.toDocument, EnumDecl.relocate, nowhere, Function.comp_def,
    EnumElement.placed]

end ProtoSchema
