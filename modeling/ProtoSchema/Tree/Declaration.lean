import ProtoSchema.Tree.Literal

/-!
# Declarations

The declarations of a schema, each with the position of its first token. Elements stand in
source order; statements without content leave nothing. Which declaration may stand where is a
matter of the types: a oneof holds options and members, an extension holds members, and so on.
-/
namespace ProtoSchema

/-- How often a field may be present. -/
inductive Cardinality where
  | required
  | optional
  | repeated
  deriving DecidableEq, Repr

namespace Cardinality

/-- The keyword for a cardinality. -/
def word : Cardinality → String
  | required => "required"
  | optional => "optional"
  | repeated => "repeated"

/-- The cardinality that a text is the keyword for. -/
def ofText? (t : Text) : Option Cardinality :=
  [required, optional, repeated].find? fun c => Text.ofString c.word = t

end Cardinality

/-- The scalar types that a map may have as its key type. -/
def mapKeyTypes : List String :=
  ["int32", "int64", "uint32", "uint64", "sint32", "sint64", "fixed32", "fixed64", "sfixed32",
    "sfixed64", "bool", "string"]

/-- May a map have the type as its key type? -/
def isMapKeyType (t : Text) : Bool := mapKeyTypes.any fun word => Text.ofString word = t

/-- An option given as a statement. -/
structure OptionStatement where
  name : List OptionNamePart
  value : OptionValue
  position : Position

/-- An option given in brackets behind a declaration. -/
structure CompactOption where
  name : List OptionNamePart
  value : OptionValue
  position : Position

/-- A field of a message, a oneof or an extension. -/
structure FieldDecl where
  cardinality : Option Cardinality
  typeName : Text
  name : Text
  number : Int
  options : List CompactOption
  position : Position

/-- A field that maps keys to values. -/
structure MapFieldDecl where
  keyType : Text
  valueType : Text
  name : Text
  number : Int
  options : List CompactOption
  position : Position

/-- Where a range ends: at a number, or at the greatest there is. -/
inductive RangeEnd where
  | number (n : Int)
  | max
  deriving DecidableEq, Repr

/-- A number, or the numbers from `first` to `last`. -/
structure TagRange where
  first : Int
  last : Option RangeEnd
  position : Position
  deriving DecidableEq, Repr

/-- Field numbers that extensions of a message may use. -/
structure ExtensionRangeDecl where
  ranges : List TagRange
  options : List CompactOption
  position : Position

/-- What is reserved: numbers or names, never both. -/
inductive Reserved where
  | ranges (ranges : List TagRange)
  | names (names : List Text)
  deriving DecidableEq

/-- Numbers or names that no field or enum value may use. -/
structure ReservedDecl where
  reserved : Reserved
  position : Position
  deriving DecidableEq

/-- One value of an enum. -/
structure EnumValueDecl where
  name : Text
  number : Int
  options : List CompactOption
  position : Position

/-- What may stand in an enum. -/
inductive EnumElement where
  | option (o : OptionStatement)
  | value (v : EnumValueDecl)
  | reserved (r : ReservedDecl)

/-- An enum and its elements. -/
structure EnumDecl where
  name : Text
  elements : List EnumElement
  position : Position

mutual

/-- What may stand in a message or a group. -/
inductive MessageElement where
  | member (m : Member)
  | mapField (f : MapFieldDecl)
  | oneof (o : OneofDecl)
  | option (o : OptionStatement)
  | extensionRange (r : ExtensionRangeDecl)
  | reserved (r : ReservedDecl)
  | message (m : MessageDecl)
  | enum (e : EnumDecl)
  | extension (e : ExtensionDecl)

/-- What a message, a oneof or an extension adds to a type. -/
inductive Member where
  | field (f : FieldDecl)
  | group (g : GroupDecl)

/-- A field whose message type is declared in its place. -/
structure GroupDecl where
  cardinality : Option Cardinality
  name : Text
  number : Int
  options : List CompactOption
  elements : List MessageElement
  position : Position

/-- What may stand in a oneof. -/
inductive OneofElement where
  | option (o : OptionStatement)
  | member (m : Member)

/-- Members of a message of which one at most is present. -/
structure OneofDecl where
  name : Text
  elements : List OneofElement
  position : Position

/-- A message and its elements. -/
structure MessageDecl where
  name : Text
  elements : List MessageElement
  position : Position

/-- Members added to a message that is declared elsewhere. -/
structure ExtensionDecl where
  extendee : Text
  elements : List Member
  position : Position

end

/-- A method; its options are the statements of its body. -/
structure MethodDecl where
  name : Text
  inputType : Text
  outputType : Text
  clientStreaming : Bool
  serverStreaming : Bool
  options : List OptionStatement
  position : Position

/-- What may stand in a service. -/
inductive ServiceElement where
  | option (o : OptionStatement)
  | method (m : MethodDecl)

/-- A service and its methods. -/
structure ServiceDecl where
  name : Text
  elements : List ServiceElement
  position : Position

/-- The statement that names the level of the language. -/
structure SyntaxDecl where
  level : Text
  position : Position
  deriving DecidableEq

/-- How an import is marked: as one that may be missing, or as one that is passed on. -/
inductive ImportModifier where
  | weakly
  | publicly
  deriving DecidableEq, Repr

/-- The statement that brings in another schema by its path. -/
structure ImportDecl where
  path : Text
  modifier : Option ImportModifier
  position : Position
  deriving DecidableEq

/-- The statement that names the package of the schema. -/
structure PackageDecl where
  name : Text
  position : Position
  deriving DecidableEq

/-- What may stand at the top level. -/
inductive SchemaElement where
  | importing (i : ImportDecl)
  | package (p : PackageDecl)
  | option (o : OptionStatement)
  | message (m : MessageDecl)
  | enum (e : EnumDecl)
  | extension (e : ExtensionDecl)
  | service (s : ServiceDecl)

/-- A whole schema. -/
structure Schema where
  level : Option SyntaxDecl
  elements : List SchemaElement

end ProtoSchema
