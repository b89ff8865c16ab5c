import ProtoSchema.Tree.Outline

/-!
# Nodes

The nodes of a schema as they are met when it is walked through depth first: each node before
what it holds, and what it holds in the order of its fields. The schema itself is none of
them.
-/
namespace ProtoSchema

/-- A node of any kind. -/
inductive Node where
  | scalar (v : ScalarValue)
  | messageLiteral (m : MessageLiteral)
  | entry (e : LiteralEntry)
  | list (elements : List OptionValue) (position : Position)
  | messages (elements : List MessageLiteral) (position : Position)
  | namePart (p : OptionNamePart)
  | option (o : OptionStatement)
  | compactOption (o : CompactOption)
  | syntaxDecl (d : SyntaxDecl)
  | importing (i : ImportDecl)
  | package (p : PackageDecl)
  | field (f : FieldDecl)
  | mapField (f : MapFieldDecl)
  | tagRange (r : TagRange)
  | extensionRange (r : ExtensionRangeDecl)
  | reserved (r : ReservedDecl)
  | group (g : GroupDecl)
  | oneof (o : OneofDecl)
  | enumValue (v : EnumValueDecl)
  | enum (e : EnumDecl)
  | extension (e : ExtensionDecl)
  | message (m : MessageDecl)
  | method (m : MethodDecl)
  | service (s : ServiceDecl)

namespace Node

/-- The position of a node, whatever its kind. -/
def position : Node → Position
  | scalar v => v.position
  | messageLiteral m => m.position
  | entry e => e.position
  | list _ p => p
  | messages _ p => p
  | namePart p => p.position
  | option o => o.position
  | compactOption o => o.position
  | syntaxDecl d => d.position
  | importing i => i.position
  | package p => p.position
  | field f => f.position
  | mapField f => f.position
  | tagRange r => r.position
  | extensionRange r => r.position
  | reserved r => r.position
  | group g => g.position
  | oneof o => o.position
  | enumValue v => v.position
  | enum e => e.position
  | extension e => e.position
  | message m => m.position
  | method m => m.position
  | service s => s.position

/-- The name that an option is given by. -/
def optionName? : Node → Option Text
  | option o => some o.fullName
  | compactOption o => some o.fullName
  | _ => none

/-- The first node is an option in brackets, and the second the first part of its name. -/
def BeginsWith (n m : Node) : Prop :=
  ∃ o part, n = compactOption o ∧ o.name.head? = some part ∧ m = namePart part

end Node

/-! ## Values -/

mutual

/-- A message literal and the nodes in it. -/
def MessageLiteral.nodes : MessageLiteral → List Node
  | ⟨entries, p⟩ => .messageLiteral ⟨entries, p⟩ :: literalEntryNodes entries

def LiteralEntry.nodes : LiteralEntry → List Node
  | ⟨name, value, kind, p⟩ => .entry ⟨name, value, kind, p⟩ :: value.nodes

/-- The nodes of the value of an entry; a list is one, and so are its elements. -/
def EntryValue.nodes : EntryValue → List Node
  | .scalar v => [.scalar v]
  | .message m => m.nodes
  | .list es p => .list es p :: optionValueNodes es
  | .messages ms p => .messages ms p :: messageLiteralNodes ms

def OptionValue.nodes : OptionValue → List Node
  | .scalar v => [.scalar v]
  | .message m => m.nodes

def literalEntryNodes : List LiteralEntry → List Node
  | [] => []
  | e :: es => e.nodes ++ literalEntryNodes es

def optionValueNodes : List OptionValue → List Node
  | [] => []
  | v :: vs => v.nodes ++ optionValueNodes vs

def messageLiteralNodes : List MessageLiteral → List Node
  | [] => []
  | m :: ms => m.nodes ++ messageLiteralNodes ms

end

/-! ## Options, ranges and fields -/

/-- An option statement, the parts of its name, and its value. -/
def OptionStatement.nodes (o : OptionStatement) : List Node :=
  .option o :: (o.name.map .namePart ++ o.value.nodes)

/-- An option in brackets, the parts of its name, and its value. -/
def CompactOption.nodes (o : CompactOption) : List Node :=
  .compactOption o :: (o.name.map .namePart ++ o.value.nodes)

/-- The nodes of options in brackets. -/
def compactNodes (options : List CompactOption) : List Node :=
  options.flatMap CompactOption.nodes

def ReservedDecl.nodes (r : ReservedDecl) : List Node :=
  .reserved r :: match r.reserved with
    | .ranges rs => rs.map .tagRange
    | .names _ => []

def ExtensionRangeDecl.nodes (r : ExtensionRangeDecl) : List Node :=
  .extensionRange r :: (r.ranges.map .tagRange ++ compactNodes r.options)

/-- A field and its options. -/
def FieldDecl.nodes (f : FieldDecl) : List Node := .field f :: compactNodes f.options

def MapFieldDecl.nodes (f : MapFieldDecl) : List Node := .mapField f :: compactNodes f.options

/-! ## Enums and messages -/

/-- A value of an enum and its options. -/
def EnumValueDecl.nodes (v : EnumValueDecl) : List Node :=
  .enumValue v :: compactNodes v.options

def EnumElement.nodes : EnumElement → List Node
  | option o => o.nodes
  | value v => v.nodes
  | reserved r => r.nodes

/-- An enum and the nodes of its elements. -/
def EnumDecl.nodes (e : EnumDecl) : List Node :=
  .enum e :: e.elements.flatMap EnumElement.nodes

mutual

/-- The nodes of an element of a message. -/
def MessageElement.nodes : MessageElement → List Node
  | .member m => m.nodes
  | .mapField f => f.nodes
  | .oneof o => o.nodes
  | .option o => o.nodes
  | .extensionRange r => r.nodes
  | .reserved r => r.nodes
  | .message m => m.nodes
  | .enum e => e.nodes
  | .extension e => e.nodes

def Member.nodes : Member → List Node
  | .field f => f.nodes
  | .group g => g.nodes

/-- A group, its options, and the nodes of its elements. -/
def GroupDecl.nodes : GroupDecl → List Node
  | ⟨c, x, number, options, elements, p⟩ =>
    .group ⟨c, x, number, options, elements, p⟩ ::
      (compactNodes options ++ messageNodes elements)

def OneofElement.nodes : OneofElement → List Node
  | .option o => o.nodes
  | .member m => m.nodes

/-- A oneof and the nodes of its elements. -/
def OneofDecl.nodes : OneofDecl → List Node
  | ⟨x, elements, p⟩ => .oneof ⟨x, elements, p⟩ :: oneofNodes elements

/-- A message and the nodes of its elements. -/
def MessageDecl.nodes : MessageDecl → List Node
  | ⟨x, elements, p⟩ => .message ⟨x, elements, p⟩ :: messageNodes elements

/-- An extension and the nodes of its members. -/
def ExtensionDecl.nodes : ExtensionDecl → List Node
  | ⟨x, elements, p⟩ => .extension ⟨x, elements, p⟩ :: memberNodes elements

def messageNodes : List MessageElement → List Node
  | [] => []
  | e :: es => e.nodes ++ messageNodes es

def oneofNodes : List OneofElement → List Node
  | [] => []
  | e :: es => e.nodes ++ oneofNodes es

def memberNodes : List Member → List Node
  | [] => []
  | m :: ms => m.nodes ++ memberNodes ms

end

/-! ## Services and schemas -/

/-- A method and its options. -/
def MethodDecl.nodes (m : MethodDecl) : List Node :=
  .method m :: m.options.flatMap OptionStatement.nodes

def ServiceElement.nodes : ServiceElement → List Node
  | option o => o.nodes
  | method m => m.nodes

def ServiceDecl.nodes (s : ServiceDecl) : List Node :=
  .service s :: s.elements.flatMap ServiceElement.nodes

/-- The nodes of a statement at the top level. -/
def SchemaElement.nodes : SchemaElement → List Node
  | importing i => [.importing i]
  | package p => [.package p]
  | option o => o.nodes
  | message m => m.nodes
  | enum e => e.nodes
  | extension e => e.nodes
  | service s => s.nodes

/-- The nodes of a schema, depth first. -/
def Schema.nodes (s : Schema) : List Node :=
  (s.level.map .syntaxDecl).toList ++ s.elements.flatMap SchemaElement.nodes

end ProtoSchema
