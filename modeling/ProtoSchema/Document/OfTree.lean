import ProtoSchema.Document.Basic
import ProtoSchema.Tree.Declaration
import ProtoSchema.Tree.Outline

/-!
# Trees as documents

Every node becomes an object: the name of its kind, then its parts in a fixed order, then its
line and column unless positions are left out. Parts that are absent are null, and lists keep
their order.
-/
namespace ProtoSchema

namespace Document

/-- The object of a node. -/
def node (kind : String) (parts : List (String × Document)) (position : Option Position) :
    Document :=
  let place := match position with
    | some p => [("line", .integer p.line), ("column", .integer p.column)]
    | none => []
  .object (("node", .text kind) :: parts ++ place |>.map fun (key, d) =>
    (Text.ofString key, d))

/-- A part that may be absent. -/
def ofOption (f : α → Document) : Option α → Document
  | some a => f a
  | none => .null

/-- A list of texts. -/
def ofTexts (ts : List Text) : Document := .list (ts.map .text)

end Document

open Document

/-- The position of a node, if positions are kept. -/
def Position.kept (positions : Bool) (p : Position) : Option Position :=
  if positions then some p else none

/-- What kind of scalar a node holds; a text alone would not say. -/
def Scalar.kind : Scalar → String
  | string _ => "string"
  | integer _ => "int"
  | real _ => "float"
  | identifier _ => "identifier"

/-- The value of a scalar, without its kind. -/
def Scalar.toDocument : Scalar → Document
  | string t => .text t
  | integer n => .integer n
  | real x => ofReal x
  | identifier t => .text t

def ScalarValue.toDocument (positions : Bool) (v : ScalarValue) : Document :=
  node "ScalarValue" [("kind", .text v.scalar.kind), ("value", v.scalar.toDocument)]
    (v.position.kept positions)

/-- How the name of an entry is written: plain, in brackets, or as a type URL. -/
def EntryNameKind.word : EntryNameKind → String
  | plain => "field"
  | extension => "extension"
  | typeUrl => "type_url"

mutual

/-- A message literal with its entries. -/
def MessageLiteral.toDocument (positions : Bool) : MessageLiteral → Document
  | ⟨entries, position⟩ =>
    node "MessageLiteral" [("fields", .list (entryDocuments positions entries))]
      (position.kept positions)

/-- An entry: its name, its value, and how the name is written. -/
def LiteralEntry.toDocument (positions : Bool) : LiteralEntry → Document
  | ⟨name, value, nameKind, position⟩ =>
    node "MessageLiteralField"
      [("name", .text name), ("value", value.toDocument positions),
        ("name_kind", .text nameKind.word)]
      (position.kept positions)

/-- The value of an entry. Lists of values and lists of messages are nodes of different
kinds. -/
def EntryValue.toDocument (positions : Bool) : EntryValue → Document
  | .scalar value => value.toDocument positions
  | .message value => value.toDocument positions
  | .list elements position =>
    node "ListLiteral" [("elements", .list (valueDocuments positions elements))]
      (position.kept positions)
  | .messages elements position =>
    node "ListOfMessagesLiteral" [("elements", .list (messageDocuments positions elements))]
      (position.kept positions)

/-- The value of an option is the node that it is; nothing is put around it. -/
def OptionValue.toDocument (positions : Bool) : OptionValue → Document
  | .scalar value => value.toDocument positions
  | .message value => value.toDocument positions

def entryDocuments (positions : Bool) : List LiteralEntry → List Document
  | [] => []
  | e :: rest => e.toDocument positions :: entryDocuments positions rest

def valueDocuments (positions : Bool) : List OptionValue → List Document
  | [] => []
  | v :: rest => v.toDocument positions :: valueDocuments positions rest

def messageDocuments (positions : Bool) : List MessageLiteral → List Document
  | [] => []
  | m :: rest => m.toDocument positions :: messageDocuments positions rest

end

def OptionNamePart.toDocument (positions : Bool) (p : OptionNamePart) : Document :=
  node "OptionNamePart" [("name", .text p.name), ("is_extension", .bool p.isExtension)]
    (p.position.kept positions)

/-- The name of an option, part by part. -/
def optionNameDocument (positions : Bool) (parts : List OptionNamePart) : Document :=
  .list (parts.map (OptionNamePart.toDocument positions))

def OptionStatement.toDocument (positions : Bool) (o : OptionStatement) : Document :=
  node "OptionDecl"
    [("name", optionNameDocument positions o.name), ("value", o.value.toDocument positions)]
    (o.position.kept positions)

def CompactOption.toDocument (positions : Bool) (o : CompactOption) : Document :=
  node "CompactOption"
    [("name", optionNameDocument positions o.name), ("value", o.value.toDocument positions)]
    (o.position.kept positions)

/-- The options in brackets; without brackets, none. -/
def compactDocument (positions : Bool) (options : List CompactOption) : Document :=
  .list (options.map (CompactOption.toDocument positions))

/-- The word for a cardinality, or null. -/
def cardinalityDocument (c : Option Cardinality) : Document :=
  ofOption (fun c => .text c.word) c

def FieldDecl.toDocument (positions : Bool) (f : FieldDecl) : Document :=
  node "FieldDecl"
    [("cardinality", cardinalityDocument f.cardinality), ("type_name", .text f.typeName),
      ("name", .text f.name), ("number", .integer f.number),
      ("options", compactDocument positions f.options)]
    (f.position.kept positions)

def MapFieldDecl.toDocument (positions : Bool) (f : MapFieldDecl) : Document :=
  node "MapFieldDecl"
    [("key_type", .text f.keyType), ("value_type", .text f.valueType), ("name", .text f.name),
      ("number", .integer f.number), ("options", compactDocument positions f.options)]
    (f.position.kept positions)

/-- Where a range ends: a number, or the word `max`. -/
def RangeEnd.toDocument : RangeEnd → Document
  | number n => .integer n
  | max => .text "max"

/-- A range; one number alone has no end. -/
def TagRange.toDocument (positions : Bool) (r : TagRange) : Document :=
  node "TagRange" [("start", .integer r.first), ("end", ofOption RangeEnd.toDocument r.last)]
    (r.position.kept positions)

def rangesDocument (positions : Bool) (ranges : List TagRange) : Document :=
  .list (ranges.map (TagRange.toDocument positions))

def ExtensionRangeDecl.toDocument (positions : Bool) (r : ExtensionRangeDecl) : Document :=
  node "ExtensionRangeDecl"
    [("ranges", rangesDocument positions r.ranges),
      ("options", compactDocument positions r.options)]
    (r.position.kept positions)

/-- The ranges that are reserved, of which there are none if names are. -/
def Reserved.rangeList : Reserved → List TagRange
  | ranges rs => rs
  | names _ => []

/-- The names that are reserved, of which there are none if ranges are. -/
def Reserved.nameList : Reserved → List Text
  | ranges _ => []
  | names ns => ns

/-- What is reserved, in two lists, one of which is empty. -/
def ReservedDecl.toDocument (positions : Bool) (r : ReservedDecl) : Document :=
  node "ReservedDecl"
    [("ranges", rangesDocument positions r.reserved.rangeList),
      ("names", ofTexts r.reserved.nameList)]
    (r.position.kept positions)

def EnumValueDecl.toDocument (positions : Bool) (v : EnumValueDecl) : Document :=
  node "EnumValueDecl"
    [("name", .text v.name), ("number", .integer v.number),
      ("options", compactDocument positions v.options)]
    (v.position.kept positions)

/-- An element of an enum is the node that it is. -/
def EnumElement.toDocument (positions : Bool) : EnumElement → Document
  | option o => o.toDocument positions
  | value v => v.toDocument positions
  | reserved r => r.toDocument positions

def EnumDecl.toDocument (positions : Bool) (e : EnumDecl) : Document :=
  node "EnumDecl"
    [("name", .text e.name),
      ("elements", .list (e.elements.map (EnumElement.toDocument positions)))]
    (e.position.kept positions)

mutual

/-- An element of a message is the node that it is. -/
def MessageElement.toDocument (positions : Bool) : MessageElement → Document
  | .member m => m.toDocument positions
  | .mapField f => f.toDocument positions
  | .oneof o => o.toDocument positions
  | .option o => o.toDocument positions
  | .extensionRange r => r.toDocument positions
  | .reserved r => r.toDocument positions
  | .message m => m.toDocument positions
  | .enum e => e.toDocument positions
  | .extension e => e.toDocument positions

def Member.toDocument (positions : Bool) : Member → Document
  | .field f => f.toDocument positions
  | .group g => g.toDocument positions

/-- A group with the elements of its message. -/
def GroupDecl.toDocument (positions : Bool) : GroupDecl → Document
  | ⟨cardinality, name, number, options, elements, position⟩ =>
    node "GroupDecl"
      [("cardinality", cardinalityDocument cardinality), ("name", .text name),
        ("number", .integer number), ("options", compactDocument positions options),
        ("elements", .list (messageElementDocuments positions elements))]
      (position.kept positions)

def OneofElement.toDocument (positions : Bool) : OneofElement → Document
  | .option o => o.toDocument positions
  | .member m => m.toDocument positions

/-- A oneof with its elements. -/
def OneofDecl.toDocument (positions : Bool) : OneofDecl → Document
  | ⟨name, elements, position⟩ =>
    node "OneofDecl"
      [("name", .text name), ("elements", .list (oneofElementDocuments positions elements))]
      (position.kept positions)

/-- A message with its elements. -/
def MessageDecl.toDocument (positions : Bool) : MessageDecl → Document
  | ⟨name, elements, position⟩ =>
    node "MessageDecl"
      [("name", .text name), ("elements", .list (messageElementDocuments positions elements))]
      (position.kept positions)

/-- An extension with the members that it adds. -/
def ExtensionDecl.toDocument (positions : Bool) : ExtensionDecl → Document
  | ⟨extendee, elements, position⟩ =>
    node "ExtensionDecl"
      [("extendee", .text extendee), ("elements", .list (memberDocuments positions elements))]
      (position.kept positions)

def messageElementDocuments (positions : Bool) : List MessageElement → List Document
  | [] => []
  | e :: rest => e.toDocument positions :: messageElementDocuments positions rest

def oneofElementDocuments (positions : Bool) : List OneofElement → List Document
  | [] => []
  | e :: rest => e.toDocument positions :: oneofElementDocuments positions rest

def memberDocuments (positions : Bool) : List Member → List Document
  | [] => []
  | m :: rest => m.toDocument positions :: memberDocuments positions rest

end

/-- A method with its types, and whether they are streams. -/
def MethodDecl.toDocument (positions : Bool) (m : MethodDecl) : Document :=
  node "MethodDecl"
    [("name", .text m.name), ("input_type", .text m.inputType),
      ("output_type", .text m.outputType),
      ("client_streaming", .bool m.clientStreaming),
      ("server_streaming", .bool m.serverStreaming),
      ("options", .list (m.options.map (OptionStatement.toDocument positions)))]
    (m.position.kept positions)

def ServiceElement.toDocument (positions : Bool) : ServiceElement → Document
  | option o => o.toDocument positions
  | method m => m.toDocument positions

def ServiceDecl.toDocument (positions : Bool) (s : ServiceDecl) : Document :=
  node "ServiceDecl"
    [("name", .text s.name),
      ("elements", .list (s.elements.map (ServiceElement.toDocument positions)))]
    (s.position.kept positions)

def SyntaxDecl.toDocument (positions : Bool) (s : SyntaxDecl) : Document :=
  node "SyntaxDecl" [("syntax", .text s.level)] (s.position.kept positions)

def ImportDecl.toDocument (positions : Bool) (i : ImportDecl) : Document :=
  node "ImportDecl"
    [("path", .text i.path), ("modifier", ofOption (fun m => .text m.word) i.modifier)]
    (i.position.kept positions)

def PackageDecl.toDocument (positions : Bool) (p : PackageDecl) : Document :=
  node "PackageDecl" [("name", .text p.name)] (p.position.kept positions)

/-- A statement at the top level is the node that it is. -/
def SchemaElement.toDocument (positions : Bool) : SchemaElement → Document
  | importing i => i.toDocument positions
  | package p => p.toDocument positions
  | option o => o.toDocument positions
  | message m => m.toDocument positions
  | enum e => e.toDocument positions
  | extension e => e.toDocument positions
  | service s => s.toDocument positions

/-- A schema stands at the start of its source. -/
def Schema.toDocument (positions : Bool) (s : Schema) : Document :=
  node "File"
    [("syntax", ofOption (SyntaxDecl.toDocument positions) s.level),
      ("elements", .list (s.elements.map (SchemaElement.toDocument positions)))]
    (Position.kept positions ⟨1, 1⟩)

end ProtoSchema
