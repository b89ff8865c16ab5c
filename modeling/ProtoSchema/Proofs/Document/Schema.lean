import ProtoSchema.Proofs.Document.Message

/-!
# Documents of schemas

The document of a well-formed schema determines the schema, and without places it determines
it up to places.
-/
namespace ProtoSchema

open Document
open Position (nowhere)

variable {positions : Bool}

/-! ## Services -/

theorem MethodDecl.ordered (m : MethodDecl) : (m.toDocument positions).Ordered :=
  node_ordered rfl (by simp [OptionStatement.ordered]) _

/-- A method can be told from its document. -/
theorem MethodDecl.toDocument_injective :
    Function.Injective (MethodDecl.toDocument true) := by
  have options := List.map_injective_iff.mpr OptionStatement.toDocument_injective
  rintro ⟨x, input, output, client, server, os, p⟩
    ⟨x', input', output', client', server', os', p'⟩ h
  simpa [MethodDecl.toDocument, node_inj, options.eq_iff, and_assoc] using h

theorem MethodDecl.placed (m : MethodDecl) :
    (m.relocate nowhere).toDocument true = (m.toDocument false).placed := by
  simp [MethodDecl.toDocument, MethodDecl.relocate, nowhere, Function.comp_def,
    OptionStatement.placed]

theorem ServiceElement.ordered (e : ServiceElement) : (e.toDocument positions).Ordered := by
  cases e with
  | option o => exact o.ordered
  | method m => exact m.ordered

/-- What kind of node an element of a service is. -/
def ServiceElement.kind : ServiceElement → NodeKind
  | .option _ => .option
  | .method _ => .method

/-- The document of an element of a service is one of a node of its kind. -/
theorem ServiceElement.isNode (e : ServiceElement) :
    IsNode e.kind (e.toDocument positions) := by
  cases e with
  | option o => exact isNode_node .option _ _
  | method m => exact isNode_node .method _ _

/-- Elements of a service that are of one kind can be told from their documents. -/
theorem ServiceElement.toDocument_inj : ∀ {e e' : ServiceElement}, e.kind = e'.kind →
    e.toDocument true = e'.toDocument true → e = e'
  | .option _, .option _, _, h => congrArg _ (OptionStatement.toDocument_injective h)
  | .method _, .method _, _, h => congrArg _ (MethodDecl.toDocument_injective h)

/-- The kind of an element can be told from its document, and with it the element. -/
theorem ServiceElement.toDocument_injective :
    Function.Injective (ServiceElement.toDocument true) :=
  fun e e' h => ServiceElement.toDocument_inj (e.isNode.kind_eq (h ▸ e'.isNode)) h

theorem ServiceElement.placed (e : ServiceElement) :
    (e.relocate nowhere).toDocument true = (e.toDocument false).placed := by
  cases e with
  | option o => exact o.placed
  | method m => exact m.placed

theorem ServiceDecl.ordered (s : ServiceDecl) : (s.toDocument positions).Ordered :=
  node_ordered rfl (by simp [ServiceElement.ordered]) _

/-- A service can be told from its document. -/
theorem ServiceDecl.toDocument_injective :
    Function.Injective (ServiceDecl.toDocument true) := by
  have elements := List.map_injective_iff.mpr ServiceElement.toDocument_injective
  rintro ⟨x, es, p⟩ ⟨x', es', p'⟩ h
  simpa [ServiceDecl.toDocument, node_inj, elements.eq_iff, and_assoc] using h

theorem ServiceDecl.placed (s : ServiceDecl) :
    (s.relocate nowhere).toDocument true = (s.toDocument false).placed := by
  simp [ServiceDecl.toDocument, ServiceDecl.relocate, nowhere, Function.comp_def,
    ServiceElement.placed]

/-! ## Statements at the top -/

theorem SyntaxDecl.ordered (d : SyntaxDecl) : (d.toDocument positions).Ordered :=
  node_ordered rfl (by simp) _

/-- The statement of the level can be told from its document. -/
theorem SyntaxDecl.toDocument_injective :
    Function.Injective (SyntaxDecl.toDocument true) := by
  rintro ⟨level, p⟩ ⟨level', p'⟩ h
  simpa [SyntaxDecl.toDocument, node_inj] using h

theorem SyntaxDecl.placed (d : SyntaxDecl) :
    (d.relocate nowhere).toDocument true = (d.toDocument false).placed := by
  simp [SyntaxDecl.toDocument, SyntaxDecl.relocate, nowhere]

/-- How an import is marked can be told from the word for it. -/
theorem ImportModifier.word_injective : Function.Injective ImportModifier.word := by
  rintro (_ | _) (_ | _) h <;> simp_all [word]

theorem ImportDecl.ordered (i : ImportDecl) : (i.toDocument positions).Ordered :=
  node_ordered rfl (by simp [ordered_ofOption]) _

/-- An import can be told from its document. -/
theorem ImportDecl.toDocument_injective :
    Function.Injective (ImportDecl.toDocument true) := by
  have modifiers := ofOption_injective (f := fun m : ImportModifier => .text m.word)
    (fun _ _ h =>
      ImportModifier.word_injective (Text.ofString_injective (Document.text.inj h))) nofun
  rintro ⟨path, modifier, p⟩ ⟨path', modifier', p'⟩ h
  simpa [ImportDecl.toDocument, node_inj, modifiers.eq_iff, and_assoc] using h

theorem ImportDecl.placed (i : ImportDecl) :
    (i.relocate nowhere).toDocument true = (i.toDocument false).placed := by
  simp [ImportDecl.toDocument, ImportDecl.relocate, nowhere]

theorem PackageDecl.ordered (p : PackageDecl) : (p.toDocument positions).Ordered :=
  node_ordered rfl (by simp) _

/-- The statement of the package can be told from its document. -/
theorem PackageDecl.toDocument_injective :
    Function.Injective (PackageDecl.toDocument true) := by
  rintro ⟨x, p⟩ ⟨x', p'⟩ h
  simpa [PackageDecl.toDocument, node_inj] using h

theorem PackageDecl.placed (d : PackageDecl) :
    (d.relocate nowhere).toDocument true = (d.toDocument false).placed := by
  simp [PackageDecl.toDocument, PackageDecl.relocate, nowhere]

/-! ## Schemas -/

theorem SchemaElement.ordered (e : SchemaElement) : (e.toDocument positions).Ordered := by
  cases e with
  | importing i => exact i.ordered
  | package p => exact p.ordered
  | option o => exact o.ordered
  | message m => exact m.ordered
  | enum e => exact e.ordered
  | extension e => exact e.ordered
  | service s => exact s.ordered

/-- What kind of node a statement at the top level is. -/
def SchemaElement.kind : SchemaElement → NodeKind
  | .importing _ => .importing
  | .package _ => .package
  | .option _ => .option
  | .message _ => .message
  | .enum _ => .enum
  | .extension _ => .extension
  | .service _ => .service

/-- The document of a statement at the top level is one of a node of its kind. -/
theorem SchemaElement.isNode (e : SchemaElement) :
    IsNode e.kind (e.toDocument positions) := by
  cases e with
  | importing i => exact isNode_node .importing _ _
  | package p => exact isNode_node .package _ _
  | option o => exact isNode_node .option _ _
  | message m => exact m.isNode
  | enum e => exact isNode_node .enum _ _
  | extension e => exact e.isNode
  | service s => exact isNode_node .service _ _

/-- Statements of one kind can be told from their documents. -/
theorem SchemaElement.toDocument_inj : ∀ {e e' : SchemaElement}, e.kind = e'.kind →
    e.WellFormed →
    e'.WellFormed → e.toDocument true = e'.toDocument true → e = e'
  | .importing _, .importing _, _, _, _, h => congrArg _ (ImportDecl.toDocument_injective h)
  | .package _, .package _, _, _, _, h => congrArg _ (PackageDecl.toDocument_injective h)
  | .option _, .option _, _, _, _, h => congrArg _ (OptionStatement.toDocument_injective h)
  | .message _, .message _, _, he, he', h => congrArg _ (MessageDecl.toDocument_inj he he' h)
  | .enum _, .enum _, _, he, he', h => congrArg _ (EnumDecl.toDocument_inj he he' h)
  | .extension _, .extension _, _, he, he', h =>
    congrArg _ (ExtensionDecl.toDocument_inj he he' h)
  | .service _, .service _, _, _, _, h => congrArg _ (ServiceDecl.toDocument_injective h)

theorem SchemaElement.placed (e : SchemaElement) :
    (e.relocate nowhere).toDocument true = (e.toDocument false).placed := by
  cases e with
  | importing i => exact i.placed
  | package p => exact p.placed
  | option o => exact o.placed
  | message m => exact m.placed
  | enum e => exact e.placed
  | extension e => exact e.placed
  | service s => exact s.placed

namespace Schema

/-- The keys of the document of a schema follow the common order. -/
theorem ordered (s : Schema) : (s.toDocument positions).Ordered :=
  node_ordered rfl (by simp [ordered_ofOption SyntaxDecl.ordered, SchemaElement.ordered]) _

/-- The document of a well-formed schema determines the schema. -/
theorem toDocument_inj {s s' : Schema} (hs : s.WellFormed) (hs' : s'.WellFormed)
    (h : s.toDocument true = s'.toDocument true) : s = s' := by
  obtain ⟨level, es⟩ := s
  obtain ⟨level', es'⟩ := s'
  have levels := ofOption_injective SyntaxDecl.toDocument_injective nofun
  simp only [Schema.toDocument, node_inj] at h
  obtain ⟨rfl, helements⟩ : level = level' ∧ es.map (SchemaElement.toDocument true) =
      es'.map (SchemaElement.toDocument true) := by simpa [levels.eq_iff] using h.2.1
  have elements := map_toDocument_inj (fun a a' ha ha' same =>
    SchemaElement.toDocument_inj (a.isNode.kind_eq (same ▸ a'.isNode)) ha ha' same)
      hs hs' helements
  rw [show es = es' from elements]

/-- Without positions, the document is that of the unplaced schema less its places. -/
theorem placed (s : Schema) : s.unplaced.toDocument true = (s.toDocument false).placed := by
  obtain ⟨level, es⟩ := s
  cases level <;>
    simp [Schema.toDocument, unplaced, Schema.relocate, Function.comp_def, ofOption,
      SyntaxDecl.placed, SchemaElement.placed]

/-- Without places, the document of a schema determines it up to places. -/
theorem toDocument_false_iff {s s' : Schema} (hs : s.unplaced.WellFormed)
    (hs' : s'.unplaced.WellFormed) :
    s.toDocument false = s'.toDocument false ↔ s.unplaced = s'.unplaced := by
  constructor
  · intro h
    refine toDocument_inj hs hs' ?_
    rw [placed, placed, h]
  · intro h
    refine placed_injective ?_
    rw [← placed, ← placed, h]

end Schema

end ProtoSchema
