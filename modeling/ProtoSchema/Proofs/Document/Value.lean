import ProtoSchema.Proofs.Document.Node
import ProtoSchema.Proofs.Tree.Relocate

/-!
# Documents of option values

For every kind of node that options are made of: the document has its keys in the common
order, it determines the node, and without places it is the document of the unplaced node less
its places.
-/
namespace ProtoSchema

open Document
open Position (nowhere)

variable {positions : Bool}

/-! ## Scalars -/

@[simp] theorem Document.ordered_ofReal (x : Binary64) : (ofReal x).Ordered := by
  cases x with
  | finite negative rank => exact .real rfl
  | infinite negative => cases negative <;> exact .text _
  | nan => exact .text _

/-- A number can be told from its document, and so can the infinite ones, which are texts
there. -/
theorem Document.ofReal_injective : Function.Injective ofReal := by
  have names : Text.ofString "-inf" ≠ Text.ofString "inf" ∧
      Text.ofString "nan" ≠ Text.ofString "inf" ∧
      Text.ofString "nan" ≠ Text.ofString "-inf" := by simp
  rintro (⟨_, _⟩ | (_ | _) | _) (⟨_, _⟩ | (_ | _) | _) h <;> simp_all [ofReal]

@[simp] theorem Document.placed_ofReal (x : Binary64) : (ofReal x).placed = ofReal x := by
  unfold ofReal
  split <;> rfl

/-- Scalars of one kind can be told from their documents. Without the kind they cannot: an
identifier and a string may have one text. -/
theorem Scalar.toDocument_inj {s s' : Scalar} (hkind : s.kind = s'.kind)
    (h : s.toDocument = s'.toDocument) : s = s' := by
  cases s <;> cases s' <;> simp_all [Scalar.kind, Scalar.toDocument, ofReal_injective.eq_iff]

/-- The keys of the document of a scalar follow the common order. -/
theorem ScalarValue.ordered (v : ScalarValue) : (v.toDocument positions).Ordered := by
  refine node_ordered rfl ?_ _
  cases h : v.scalar <;> simp [Scalar.toDocument]

/-- The document of a scalar names its kind, so the scalar and its position can be told from
it. -/
theorem ScalarValue.toDocument_injective :
    Function.Injective (ScalarValue.toDocument true) := by
  rintro ⟨s, p⟩ ⟨s', p'⟩ h
  simp only [ScalarValue.toDocument, node_inj] at h
  obtain ⟨-, hparts, rfl⟩ := h
  simp only [List.cons.injEq, Prod.mk.injEq, Document.text.injEq, Text.ofString_inj, true_and,
    and_true] at hparts
  rw [Scalar.toDocument_inj hparts.1 hparts.2]

/-- Without positions, the document is that of the unplaced scalar less its place. -/
theorem ScalarValue.placed (v : ScalarValue) :
    (v.relocate nowhere).toDocument true = (v.toDocument false).placed := by
  cases h : v.scalar <;>
    simp [ScalarValue.toDocument, ScalarValue.relocate, Scalar.toDocument, nowhere, h]

/-! ## Literals

Literals, their entries and the values of these hold each other, so each of the three facts is
one induction with a case for each kind of node. -/

mutual

/-- The keys of the document of a literal follow the common order, and so do those of all
documents in it. -/
theorem MessageLiteral.ordered : ∀ m : MessageLiteral, (m.toDocument positions).Ordered
  | ⟨es, _⟩ => by
    rw [MessageLiteral.toDocument]
    exact node_ordered rfl (by simpa using entryDocuments_ordered es) _

theorem LiteralEntry.ordered : ∀ e : LiteralEntry, (e.toDocument positions).Ordered
  | ⟨_, value, _, _⟩ => by
    rw [LiteralEntry.toDocument]
    exact node_ordered rfl (by simpa using EntryValue.ordered value) _

theorem EntryValue.ordered : ∀ v : EntryValue, (v.toDocument positions).Ordered
  | .scalar v => by
    rw [EntryValue.toDocument]
    exact v.ordered
  | .message m => by
    rw [EntryValue.toDocument]
    exact MessageLiteral.ordered m
  | .list vs _ => by
    rw [EntryValue.toDocument]
    exact node_ordered rfl (by simpa using valueDocuments_ordered vs) _
  | .messages ms _ => by
    rw [EntryValue.toDocument]
    exact node_ordered rfl (by simpa using messageDocuments_ordered ms) _

theorem OptionValue.ordered : ∀ v : OptionValue, (v.toDocument positions).Ordered
  | .scalar v => by
    rw [OptionValue.toDocument]
    exact v.ordered
  | .message m => by
    rw [OptionValue.toDocument]
    exact MessageLiteral.ordered m

theorem entryDocuments_ordered : ∀ es : List LiteralEntry,
    ∀ d ∈ entryDocuments positions es, d.Ordered
  | [] => by simp [entryDocuments]
  | e :: es => by
    simpa [entryDocuments] using ⟨LiteralEntry.ordered e, entryDocuments_ordered es⟩

theorem valueDocuments_ordered : ∀ vs : List OptionValue,
    ∀ d ∈ valueDocuments positions vs, d.Ordered
  | [] => by simp [valueDocuments]
  | v :: vs => by
    simpa [valueDocuments] using ⟨OptionValue.ordered v, valueDocuments_ordered vs⟩

theorem messageDocuments_ordered :
    ∀ ms : List MessageLiteral, ∀ d ∈ messageDocuments positions ms, d.Ordered
  | [] => by simp [messageDocuments]
  | m :: ms => by
    simpa [messageDocuments] using ⟨MessageLiteral.ordered m, messageDocuments_ordered ms⟩

end

/-- What kind of node the value of an entry is; it stands where any of four may. -/
def EntryValue.kind : EntryValue → NodeKind
  | .scalar _ => .scalar
  | .message _ => .literal
  | .list _ _ => .list
  | .messages _ _ => .messages

theorem MessageLiteral.isNode (m : MessageLiteral) :
    IsNode .literal (m.toDocument positions) := by
  obtain ⟨es, p⟩ := m
  rw [MessageLiteral.toDocument]
  exact isNode_node .literal _ _

/-- The document of the value of an entry is one of a node of its kind. -/
theorem EntryValue.isNode (v : EntryValue) : IsNode v.kind (v.toDocument positions) := by
  cases v <;> rw [EntryValue.toDocument]
  case scalar v => exact isNode_node .scalar _ _
  case message m => exact m.isNode
  case list => exact isNode_node .list _ _
  case messages => exact isNode_node .messages _ _

/-- What kind of node the value of an option is. -/
def OptionValue.kind : OptionValue → NodeKind
  | .scalar _ => .scalar
  | .message _ => .literal

theorem OptionValue.isNode (v : OptionValue) : IsNode v.kind (v.toDocument positions) := by
  cases v <;> rw [OptionValue.toDocument]
  case scalar v => exact isNode_node .scalar _ _
  case message m => exact m.isNode

/-- How the name of an entry is written can be told from the word for it. -/
theorem EntryNameKind.word_injective : Function.Injective EntryNameKind.word := by
  rintro (_ | _ | _) (_ | _ | _) h <;> simp_all [word]

mutual

/-- A literal can be told from its document, positions and all. -/
theorem MessageLiteral.toDocument_inj :
    ∀ {m m' : MessageLiteral}, m.toDocument true = m'.toDocument true → m = m'
  | ⟨es, p⟩, ⟨es', p'⟩, h => by
    simp only [MessageLiteral.toDocument, node_inj] at h
    obtain ⟨-, hparts, rfl⟩ := h
    have entries : entryDocuments true es = entryDocuments true es' := by simpa using hparts
    rw [entryDocuments_inj entries]

theorem LiteralEntry.toDocument_inj :
    ∀ {e e' : LiteralEntry}, e.toDocument true = e'.toDocument true → e = e'
  | ⟨name, value, kind, p⟩, ⟨name', value', kind', p'⟩, h => by
    simp only [LiteralEntry.toDocument, node_inj] at h
    obtain ⟨-, hparts, rfl⟩ := h
    obtain ⟨rfl, hvalue, hkind⟩ : name = name' ∧
        value.toDocument true = value'.toDocument true ∧
        kind.word = kind'.word := by simpa using hparts
    rw [EntryNameKind.word_injective hkind,
      EntryValue.toDocument_inj (value.isNode.kind_eq (hvalue ▸ value'.isNode)) hvalue]

/-- Values of entries of one kind can be told from their documents. -/
theorem EntryValue.toDocument_inj : ∀ {v v' : EntryValue}, v.kind = v'.kind →
    v.toDocument true = v'.toDocument true → v = v'
  | .scalar v, .scalar v', _, h => by
    rw [EntryValue.toDocument, EntryValue.toDocument] at h
    rw [ScalarValue.toDocument_injective h]
  | .message m, .message m', _, h => by
    rw [EntryValue.toDocument, EntryValue.toDocument] at h
    rw [MessageLiteral.toDocument_inj h]
  | .list vs p, .list vs' p', _, h => by
    simp only [EntryValue.toDocument, node_inj] at h
    obtain ⟨-, hparts, rfl⟩ := h
    have elements : valueDocuments true vs = valueDocuments true vs' := by simpa using hparts
    rw [valueDocuments_inj elements]
  | .messages ms p, .messages ms' p', _, h => by
    simp only [EntryValue.toDocument, node_inj] at h
    obtain ⟨-, hparts, rfl⟩ := h
    have elements : messageDocuments true ms = messageDocuments true ms' := by
      simpa using hparts
    rw [messageDocuments_inj elements]

/-- Values of options of one kind can be told from their documents. -/
theorem OptionValue.toDocument_inj : ∀ {v v' : OptionValue}, v.kind = v'.kind →
    v.toDocument true = v'.toDocument true → v = v'
  | .scalar v, .scalar v', _, h => by
    rw [OptionValue.toDocument, OptionValue.toDocument] at h
    rw [ScalarValue.toDocument_injective h]
  | .message m, .message m', _, h => by
    rw [OptionValue.toDocument, OptionValue.toDocument] at h
    rw [MessageLiteral.toDocument_inj h]

/-- Entries that have the same documents, one for one, are the same. -/
theorem entryDocuments_inj : ∀ {es es' : List LiteralEntry},
    entryDocuments true es = entryDocuments true es' → es = es'
  | [], [], _ => rfl
  | e :: es, e' :: es', h => by
    obtain ⟨first, rest⟩ := List.cons.inj h
    rw [LiteralEntry.toDocument_inj first, entryDocuments_inj rest]

theorem valueDocuments_inj : ∀ {vs vs' : List OptionValue},
    valueDocuments true vs = valueDocuments true vs' → vs = vs'
  | [], [], _ => rfl
  | v :: vs, v' :: vs', h => by
    obtain ⟨first, rest⟩ := List.cons.inj h
    rw [OptionValue.toDocument_inj (v.isNode.kind_eq (first ▸ v'.isNode)) first,
      valueDocuments_inj rest]

theorem messageDocuments_inj : ∀ {ms ms' : List MessageLiteral},
    messageDocuments true ms = messageDocuments true ms' → ms = ms'
  | [], [], _ => rfl
  | m :: ms, m' :: ms', h => by
    obtain ⟨first, rest⟩ := List.cons.inj h
    rw [MessageLiteral.toDocument_inj first, messageDocuments_inj rest]

end

/-- The kind of the value of an option can be told from its document, and with it the
value. -/
theorem OptionValue.toDocument_injective : Function.Injective (OptionValue.toDocument true) :=
  fun v v' h => OptionValue.toDocument_inj (v.isNode.kind_eq (h ▸ v'.isNode)) h

mutual

/-- Without positions, the document is that of the unplaced literal less its places. -/
theorem MessageLiteral.placed : ∀ m : MessageLiteral,
    (m.relocate nowhere).toDocument true = (m.toDocument false).placed
  | ⟨es, _⟩ => by
    simp [MessageLiteral.relocate, MessageLiteral.toDocument, nowhere,
      entryDocuments_placed es]

theorem LiteralEntry.placed : ∀ e : LiteralEntry,
    (e.relocate nowhere).toDocument true = (e.toDocument false).placed
  | ⟨_, value, _, _⟩ => by
    simp [LiteralEntry.relocate, LiteralEntry.toDocument, nowhere, EntryValue.placed value]

theorem EntryValue.placed : ∀ v : EntryValue,
    (v.relocate nowhere).toDocument true = (v.toDocument false).placed
  | .scalar v => by simp [EntryValue.relocate, EntryValue.toDocument, v.placed]
  | .message m => by
    simp [EntryValue.relocate, EntryValue.toDocument, MessageLiteral.placed m]
  | .list vs _ => by
    simp [EntryValue.relocate, EntryValue.toDocument, nowhere, valueDocuments_placed vs]
  | .messages ms _ => by
    simp [EntryValue.relocate, EntryValue.toDocument, nowhere, messageDocuments_placed ms]

theorem OptionValue.placed : ∀ v : OptionValue,
    (v.relocate nowhere).toDocument true = (v.toDocument false).placed
  | .scalar v => by simp [OptionValue.relocate, OptionValue.toDocument, v.placed]
  | .message m => by
    simp [OptionValue.relocate, OptionValue.toDocument, MessageLiteral.placed m]

theorem entryDocuments_placed : ∀ es : List LiteralEntry,
    entryDocuments true (es.map (·.relocate nowhere)) =
      (entryDocuments false es).map Document.placed
  | [] => by simp [entryDocuments]
  | e :: es => by simp [entryDocuments, LiteralEntry.placed e, entryDocuments_placed es]

theorem valueDocuments_placed : ∀ vs : List OptionValue,
    valueDocuments true (vs.map (·.relocate nowhere)) =
      (valueDocuments false vs).map Document.placed
  | [] => by simp [valueDocuments]
  | v :: vs => by simp [valueDocuments, OptionValue.placed v, valueDocuments_placed vs]

theorem messageDocuments_placed : ∀ ms : List MessageLiteral,
    messageDocuments true (ms.map (·.relocate nowhere)) =
      (messageDocuments false ms).map Document.placed
  | [] => by simp [messageDocuments]
  | m :: ms => by simp [messageDocuments, MessageLiteral.placed m, messageDocuments_placed ms]

end

/-! ## Options -/

theorem OptionNamePart.ordered (part : OptionNamePart) :
    (part.toDocument positions).Ordered :=
  node_ordered rfl (by simp) _

theorem OptionNamePart.toDocument_injective :
    Function.Injective (OptionNamePart.toDocument true) := by
  rintro ⟨name, isExtension, p⟩ ⟨name', isExtension', p'⟩ h
  simpa [OptionNamePart.toDocument, node_inj, and_assoc] using h

theorem OptionNamePart.placed (part : OptionNamePart) :
    (part.relocate nowhere).toDocument true = (part.toDocument false).placed := by
  simp [OptionNamePart.toDocument, OptionNamePart.relocate, nowhere]

@[simp] theorem optionNameDocument_ordered (parts : List OptionNamePart) :
    (optionNameDocument positions parts).Ordered :=
  ordered_list.mpr (List.forall_mem_map.mpr fun part _ => part.ordered)

/-- The parts of a name can be told from the document of the name. -/
@[simp] theorem optionNameDocument_inj {parts parts' : List OptionNamePart} :
    optionNameDocument true parts = optionNameDocument true parts' ↔ parts = parts' := by
  simp [optionNameDocument,
    (List.map_injective_iff.mpr OptionNamePart.toDocument_injective).eq_iff]

@[simp] theorem optionNameDocument_placed (parts : List OptionNamePart) :
    optionNameDocument true (parts.map (·.relocate nowhere)) =
      (optionNameDocument false parts).placed := by
  simp [optionNameDocument, Function.comp_def, OptionNamePart.placed]

theorem OptionStatement.ordered (o : OptionStatement) : (o.toDocument positions).Ordered :=
  node_ordered rfl (by simp [OptionValue.ordered]) _

/-- An option statement can be told from its document. -/
theorem OptionStatement.toDocument_injective :
    Function.Injective (OptionStatement.toDocument true) := by
  rintro ⟨name, value, p⟩ ⟨name', value', p'⟩ h
  simpa [OptionStatement.toDocument, node_inj, OptionValue.toDocument_injective.eq_iff,
    and_assoc] using h

theorem OptionStatement.placed (o : OptionStatement) :
    (o.relocate nowhere).toDocument true = (o.toDocument false).placed := by
  simp [OptionStatement.toDocument, OptionStatement.relocate, nowhere, OptionValue.placed]

theorem CompactOption.ordered (o : CompactOption) : (o.toDocument positions).Ordered :=
  node_ordered rfl (by simp [OptionValue.ordered]) _

/-- An option in brackets can be told from its document. -/
theorem CompactOption.toDocument_injective :
    Function.Injective (CompactOption.toDocument true) := by
  rintro ⟨name, value, p⟩ ⟨name', value', p'⟩ h
  simpa [CompactOption.toDocument, node_inj, OptionValue.toDocument_injective.eq_iff,
    and_assoc] using h

theorem CompactOption.placed (o : CompactOption) :
    (o.relocate nowhere).toDocument true = (o.toDocument false).placed := by
  simp [CompactOption.toDocument, CompactOption.relocate, nowhere, OptionValue.placed]

@[simp] theorem compactDocument_ordered (os : List CompactOption) :
    (compactDocument positions os).Ordered :=
  ordered_list.mpr (List.forall_mem_map.mpr fun o _ => o.ordered)

/-- Options in brackets can be told from their document. -/
@[simp] theorem compactDocument_inj {os os' : List CompactOption} :
    compactDocument true os = compactDocument true os' ↔ os = os' := by
  simp [compactDocument,
    (List.map_injective_iff.mpr CompactOption.toDocument_injective).eq_iff]

@[simp] theorem compactDocument_placed (os : List CompactOption) :
    compactDocument true (os.map (·.relocate nowhere)) =
      (compactDocument false os).placed := by
  simp [compactDocument, Function.comp_def, CompactOption.placed]

end ProtoSchema
