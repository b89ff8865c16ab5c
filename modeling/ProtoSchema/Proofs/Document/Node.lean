import Mathlib.Data.List.Basic
import ProtoSchema.Document.OfTree
import ProtoSchema.Proofs.Document.Arranged

/-!
# Documents of nodes

What the documents of all kinds of nodes have in common. Their keys stand in one order, which
every kind follows, so the order in which an object holds its entries can be restored. The
document of a node determines its kind, its parts and its place; without places, it is the
document of a node that has one, less the last two entries.
-/
namespace ProtoSchema

/-- Texts of strings are equal only if the strings are. -/
theorem Text.ofString_injective : Function.Injective Text.ofString := fun _ _ h =>
  String.toList_inj.mp (List.map_injective_iff.mpr (fun _ _ => Glyph.char.inj) h)

@[simp] theorem Text.ofString_inj {a b : String} :
    Text.ofString a = Text.ofString b ↔ a = b :=
  Text.ofString_injective.eq_iff

/-! ## Kinds -/

/-- The kinds of nodes that stand in places where others may stand too. -/
inductive NodeKind where
  | scalar
  | literal
  | list
  | messages
  | option
  | field
  | group
  | mapField
  | oneof
  | extensionRange
  | reserved
  | message
  | enumValue
  | enum
  | extension
  | method
  | service
  | importing
  | package
  deriving DecidableEq

namespace NodeKind

/-- The name of a kind in documents. -/
def word : NodeKind → String
  | scalar => "ScalarValue"
  | literal => "MessageLiteral"
  | list => "ListLiteral"
  | messages => "ListOfMessagesLiteral"
  | option => "OptionDecl"
  | field => "FieldDecl"
  | group => "GroupDecl"
  | mapField => "MapFieldDecl"
  | oneof => "OneofDecl"
  | extensionRange => "ExtensionRangeDecl"
  | reserved => "ReservedDecl"
  | message => "MessageDecl"
  | enumValue => "EnumValueDecl"
  | enum => "EnumDecl"
  | extension => "ExtensionDecl"
  | method => "MethodDecl"
  | service => "ServiceDecl"
  | importing => "ImportDecl"
  | package => "PackageDecl"

/-- All kinds, in order. -/
def all : List NodeKind :=
  [scalar, literal, list, messages, option, field, group, mapField, oneof, extensionRange,
    reserved, message, enumValue, enum, extension, method, service, importing, package]

/-- No two kinds go by one name. -/
theorem word_injective : Function.Injective word := by
  have found (k : NodeKind) : all.find? (·.word = k.word) = some k := by
    cases k <;> rfl
  intro k k' h
  have same := found k
  rw [h, found k'] at same
  exact (Option.some.inj same).symm

end NodeKind

namespace Document

variable {kind kind' : String} {parts parts' : List (String × Document)} {p p' : Position}
  {positions : Bool}

/-- The place of a node among its parts. -/
def placeParts : Option Position → List (String × Document)
  | some p => [("line", .integer p.line), ("column", .integer p.column)]
  | none => []

/-- All that the document of a node holds. -/
def nodeParts (kind : String) (parts : List (String × Document)) (q : Option Position) :
    List (String × Document) :=
  ("node", .text kind) :: parts ++ placeParts q

/-- The document of a node is the object of all that it holds. -/
theorem node_eq (kind : String) (parts : List (String × Document)) (q : Option Position) :
    node kind parts q =
      .object ((nodeParts kind parts q).map fun part => (part.1, part.2)) := by
  cases q <;> rfl

/-! ## The order of keys -/

/-- The keys of parts, in an order that every kind of node follows. -/
def partNames : List String :=
  ["kind", "extendee", "cardinality", "key_type", "value_type", "type_name", "name",
    "input_type", "output_type", "client_streaming", "server_streaming", "path", "modifier",
    "start", "end", "number", "value", "name_kind", "is_extension", "ranges", "names",
    "syntax", "options", "fields", "elements"]

/-- The keys of nodes, with the kind in front and the place behind. -/
def fieldNames : List String := "node" :: partNames ++ ["line", "column"]

/-- Where a key stands among the keys of nodes. -/
def fieldRank (key : Text) : ℕ := (fieldNames.map Text.ofString).idxOf key

/-- The entries of objects follow the order of the keys of nodes. -/
abbrev Ordered : Document → Prop := Keyed fun a b => fieldRank a < fieldRank b

/-- No key stands twice among the keys of nodes, so later ones have higher ranks. -/
theorem fieldRank_pairwise :
    (fieldNames.map Text.ofString).Pairwise fun a b => fieldRank a < fieldRank b := by
  have distinct : (fieldNames.map Text.ofString).Nodup :=
    List.Nodup.map Text.ofString_injective (by decide)
  rw [List.pairwise_iff_getElem]
  intro i j hi hj hij
  rw [fieldRank, fieldRank, distinct.idxOf_getElem, distinct.idxOf_getElem]
  exact hij

/-- The document of a node is in order if its parts are and their keys follow the common
order. -/
theorem node_ordered (hkeys : (parts.map Prod.fst).isSublist partNames = true)
    (hparts : ∀ part ∈ parts, part.2.Ordered) (q : Option Position) :
    (node kind parts q).Ordered := by
  have place_keys : ((placeParts q).map Prod.fst).Sublist ["line", "column"] := by
    cases q with
    | none => exact List.nil_sublist _
    | some p => exact List.Sublist.refl _
  have place_values : ∀ part ∈ placeParts q, part.2.Ordered := by
    cases q with
    | none => nofun
    | some p =>
      exact List.forall_mem_cons.mpr ⟨.integer _, List.forall_mem_singleton.mpr (.integer _)⟩
  have keys : ((nodeParts kind parts q).map Prod.fst).Sublist fieldNames := by
    rw [nodeParts, List.cons_append, List.map_cons, List.map_append]
    exact ((List.isSublist_iff_sublist.mp hkeys).append place_keys).cons_cons "node"
  rw [node_eq]
  refine .object ?_ ?_
  · have names := fieldRank_pairwise.sublist (keys.map Text.ofString)
    rw [List.map_map, List.pairwise_map] at names
    exact List.pairwise_map.mpr names
  · rw [List.forall_mem_map, nodeParts, List.cons_append, List.forall_mem_cons,
      List.forall_mem_append]
    exact ⟨.text _, hparts, place_values⟩

@[simp] theorem ordered_bool (b : Bool) : (bool b).Ordered := .bool b

@[simp] theorem ordered_integer (n : ℤ) : (integer n).Ordered := .integer n

@[simp] theorem ordered_text (t : Text) : (text t).Ordered := .text t

@[simp] theorem ordered_list {ds : List Document} :
    (list ds).Ordered ↔ ∀ d ∈ ds, d.Ordered := by
  constructor
  · rintro (_ | _ | _ | _ | _ | h)
    exact h
  · exact .list

/-- What may be absent is null then, and null holds no keys. -/
theorem ordered_ofOption {α : Type} {f : α → Document} (h : ∀ a, (f a).Ordered)
    (o : Option α) : (ofOption f o).Ordered := by
  cases o with
  | none => exact .null
  | some a => exact h a

/-! ## What the document of a node determines -/

/-- Nodes with one document hold the same parts under the same keys. -/
theorem nodeParts_inj {q q' : Option Position}
    (h : node kind parts q = node kind' parts' q') :
    nodeParts kind parts q = nodeParts kind' parts' q' := by
  rw [node_eq, node_eq] at h
  refine List.map_injective_iff.mpr (fun a b hab => ?_) (Document.object.inj h)
  obtain ⟨hkey, hvalue⟩ := Prod.mk.inj hab
  exact Prod.ext (Text.ofString_injective hkey) hvalue

/-- The kind of a node can be told from its document. -/
theorem kind_of_node_eq {q q' : Option Position}
    (h : node kind parts q = node kind' parts' q') : kind = kind' := by
  obtain ⟨hkind, -⟩ := List.cons.inj (nodeParts_inj h)
  exact Text.ofString_injective (Document.text.inj (Prod.mk.inj hkind).2)

/-- Is it the document of a node of the kind? -/
def IsNode (kind : NodeKind) (d : Document) : Prop := ∃ parts q, d = node kind.word parts q

theorem isNode_node (kind : NodeKind) (parts : List (String × Document))
    (q : Option Position) : IsNode kind (node kind.word parts q) :=
  ⟨parts, q, rfl⟩

/-- No document is that of nodes of two kinds. -/
theorem IsNode.kind_eq {k k' : NodeKind} {d : Document} (h : IsNode k d) (h' : IsNode k' d) :
    k = k' := by
  obtain ⟨parts, q, rfl⟩ := h
  obtain ⟨parts', q', same⟩ := h'
  exact NodeKind.word_injective (kind_of_node_eq same)

/-- The document of a node determines the node. -/
theorem node_inj : node kind parts (p.kept true) = node kind' parts' (p'.kept true) ↔
    kind = kind' ∧ parts = parts' ∧ p = p' := by
  constructor
  · intro h
    obtain ⟨-, hrest⟩ := List.cons.inj (nodeParts_inj h)
    obtain ⟨hparts, hplace⟩ := List.append_inj' hrest rfl
    refine ⟨kind_of_node_eq h, hparts, ?_⟩
    obtain ⟨line, column⟩ := p
    obtain ⟨line', column'⟩ := p'
    simpa [placeParts, Position.kept, Int.natCast_inj] using hplace
  · rintro ⟨rfl, rfl, rfl⟩
    rfl

/-! ## Places -/

/-- The document with the place of no node in particular in every object. -/
def placed : Document → Document :=
  mapObjects (· ++ [(Text.ofString "line", .integer 1), (Text.ofString "column", .integer 1)])

/-- The place of a document can be taken away again. -/
theorem placed_injective : Function.Injective placed := by
  refine Function.LeftInverse.injective
    (g := mapObjects fun es => es.take (es.length - 2)) fun d => ?_
  induction d with
  | list ds ih =>
    rw [placed, mapObjects_list, mapObjects_list, List.map_map]
    exact congrArg Document.list ((List.map_congr_left ih).trans (List.map_id' ds))
  | object es ih =>
    have values :
        (es.map fun e => (e.1, (placed e.2).mapObjects fun es => es.take (es.length - 2))) =
        es :=
      (List.map_congr_left fun e he => congrArg (e.1, ·) (ih e he)).trans (List.map_id' es)
    rw [placed, mapObjects_object, mapObjects_object]
    simpa [placed, Function.comp_def] using values
  | _ => rfl

@[simp] theorem placed_null : null.placed = null := rfl

@[simp] theorem placed_bool (b : Bool) : (bool b).placed = bool b := rfl

@[simp] theorem placed_integer (n : ℤ) : (integer n).placed = integer n := rfl

@[simp] theorem placed_text (t : Text) : (text t).placed = text t := rfl

@[simp] theorem placed_list (ds : List Document) : (list ds).placed = list (ds.map placed) :=
  mapObjects_list ds

@[simp] theorem placed_ofOption {α : Type} (f : α → Document) (o : Option α) :
    (ofOption f o).placed = ofOption (fun a => (f a).placed) o := by
  cases o <;> rfl

/-- To place the document of a node is to put a place behind its placed parts. -/
@[simp] theorem placed_node : (node kind parts (p.kept false)).placed =
    node kind (parts.map fun part => (part.1, part.2.placed))
      (Position.kept true ⟨1, 1⟩) := by
  rw [node_eq, node_eq, placed, mapObjects_object]
  simp [nodeParts, placeParts, Position.kept, mapObjects, Function.comp_def]

end Document

end ProtoSchema
