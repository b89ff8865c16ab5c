import ProtoSchema.Tree.Declaration

/-!
# Trees at other positions

A tree in which every position is replaced by what `φ` makes of it, and trees that are equal
up to positions.
-/
namespace ProtoSchema

variable (φ : Position → Position)

/-! ## Option values -/

def ScalarValue.relocate (v : ScalarValue) : ScalarValue := ⟨v.scalar, φ v.position⟩

mutual

def MessageLiteral.relocate : MessageLiteral → MessageLiteral
  | ⟨entries, p⟩ => ⟨LiteralEntries.relocate entries, φ p⟩

def LiteralEntries.relocate : List LiteralEntry → List LiteralEntry
  | [] => []
  | e :: es => e.relocate :: LiteralEntries.relocate es

def LiteralEntry.relocate : LiteralEntry → LiteralEntry
  | ⟨name, value, kind, p⟩ => ⟨name, value.relocate, kind, φ p⟩

def EntryValue.relocate : EntryValue → EntryValue
  | .scalar v => .scalar (v.relocate φ)
  | .message m => .message m.relocate
  | .list vs p => .list (OptionValues.relocate vs) (φ p)
  | .messages ms p => .messages (MessageLiterals.relocate ms) (φ p)

def OptionValue.relocate : OptionValue → OptionValue
  | .scalar v => .scalar (v.relocate φ)
  | .message m => .message m.relocate

def OptionValues.relocate : List OptionValue → List OptionValue
  | [] => []
  | v :: vs => v.relocate :: OptionValues.relocate vs

def MessageLiterals.relocate : List MessageLiteral → List MessageLiteral
  | [] => []
  | m :: ms => m.relocate :: MessageLiterals.relocate ms

end

@[simp] theorem LiteralEntries.relocate_eq (es : List LiteralEntry) :
    LiteralEntries.relocate φ es = es.map (·.relocate φ) := by
  induction es with
  | nil => simp [relocate]
  | cons e es ih => simp [relocate, ih]

@[simp] theorem OptionValues.relocate_eq (vs : List OptionValue) :
    OptionValues.relocate φ vs = vs.map (·.relocate φ) := by
  induction vs with
  | nil => simp [relocate]
  | cons v vs ih => simp [relocate, ih]

@[simp] theorem MessageLiterals.relocate_eq (ms : List MessageLiteral) :
    MessageLiterals.relocate φ ms = ms.map (·.relocate φ) := by
  induction ms with
  | nil => simp [relocate]
  | cons m ms ih => simp [relocate, ih]

/-! ## Declarations -/

def OptionNamePart.relocate (part : OptionNamePart) : OptionNamePart :=
  ⟨part.name, part.isExtension, φ part.position⟩

def OptionStatement.relocate (o : OptionStatement) : OptionStatement :=
  ⟨o.name.map (·.relocate φ), o.value.relocate φ, φ o.position⟩

def CompactOption.relocate (o : CompactOption) : CompactOption :=
  ⟨o.name.map (·.relocate φ), o.value.relocate φ, φ o.position⟩

def FieldDecl.relocate (f : FieldDecl) : FieldDecl :=
  ⟨f.cardinality, f.typeName, f.name, f.number, f.options.map (·.relocate φ), φ f.position⟩

def MapFieldDecl.relocate (f : MapFieldDecl) : MapFieldDecl :=
  ⟨f.keyType, f.valueType, f.name, f.number, f.options.map (·.relocate φ), φ f.position⟩

def TagRange.relocate (r : TagRange) : TagRange := ⟨r.first, r.last, φ r.position⟩

def ExtensionRangeDecl.relocate (r : ExtensionRangeDecl) : ExtensionRangeDecl :=
  ⟨r.ranges.map (·.relocate φ), r.options.map (·.relocate φ), φ r.position⟩

def Reserved.relocate : Reserved → Reserved
  | .ranges rs => .ranges (rs.map (·.relocate φ))
  | .names xs => .names xs

def ReservedDecl.relocate (r : ReservedDecl) : ReservedDecl :=
  ⟨r.reserved.relocate φ, φ r.position⟩

def EnumValueDecl.relocate (v : EnumValueDecl) : EnumValueDecl :=
  ⟨v.name, v.number, v.options.map (·.relocate φ), φ v.position⟩

def EnumElement.relocate : EnumElement → EnumElement
  | .option o => .option (o.relocate φ)
  | .value v => .value (v.relocate φ)
  | .reserved r => .reserved (r.relocate φ)

def EnumDecl.relocate (e : EnumDecl) : EnumDecl :=
  ⟨e.name, e.elements.map (·.relocate φ), φ e.position⟩

mutual

def MessageElement.relocate : MessageElement → MessageElement
  | .member m => .member m.relocate
  | .mapField f => .mapField (f.relocate φ)
  | .oneof o => .oneof o.relocate
  | .option o => .option (o.relocate φ)
  | .extensionRange r => .extensionRange (r.relocate φ)
  | .reserved r => .reserved (r.relocate φ)
  | .message m => .message m.relocate
  | .enum e => .enum (e.relocate φ)
  | .extension e => .extension e.relocate

def Member.relocate : Member → Member
  | .field f => .field (f.relocate φ)
  | .group g => .group g.relocate

def GroupDecl.relocate : GroupDecl → GroupDecl
  | ⟨c, x, number, options, elements, p⟩ =>
    ⟨c, x, number, options.map (·.relocate φ), MessageElements.relocate elements, φ p⟩

def OneofElement.relocate : OneofElement → OneofElement
  | .option o => .option (o.relocate φ)
  | .member m => .member m.relocate

def OneofDecl.relocate : OneofDecl → OneofDecl
  | ⟨x, elements, p⟩ => ⟨x, OneofElements.relocate elements, φ p⟩

def MessageDecl.relocate : MessageDecl → MessageDecl
  | ⟨x, elements, p⟩ => ⟨x, MessageElements.relocate elements, φ p⟩

def ExtensionDecl.relocate : ExtensionDecl → ExtensionDecl
  | ⟨x, elements, p⟩ => ⟨x, Members.relocate elements, φ p⟩

def MessageElements.relocate : List MessageElement → List MessageElement
  | [] => []
  | e :: es => e.relocate :: MessageElements.relocate es

def OneofElements.relocate : List OneofElement → List OneofElement
  | [] => []
  | e :: es => e.relocate :: OneofElements.relocate es

def Members.relocate : List Member → List Member
  | [] => []
  | m :: ms => m.relocate :: Members.relocate ms

end

@[simp] theorem MessageElements.relocate_eq (es : List MessageElement) :
    MessageElements.relocate φ es = es.map (·.relocate φ) := by
  induction es with
  | nil => simp [relocate]
  | cons e es ih => simp [relocate, ih]

@[simp] theorem OneofElements.relocate_eq (es : List OneofElement) :
    OneofElements.relocate φ es = es.map (·.relocate φ) := by
  induction es with
  | nil => simp [relocate]
  | cons e es ih => simp [relocate, ih]

@[simp] theorem Members.relocate_eq (ms : List Member) :
    Members.relocate φ ms = ms.map (·.relocate φ) := by
  induction ms with
  | nil => simp [relocate]
  | cons m ms ih => simp [relocate, ih]

/-! ## Schemas -/

def MethodDecl.relocate (m : MethodDecl) : MethodDecl :=
  ⟨m.name, m.inputType, m.outputType, m.clientStreaming, m.serverStreaming,
    m.options.map (·.relocate φ), φ m.position⟩

def ServiceElement.relocate : ServiceElement → ServiceElement
  | .option o => .option (o.relocate φ)
  | .method m => .method (m.relocate φ)

def ServiceDecl.relocate (s : ServiceDecl) : ServiceDecl :=
  ⟨s.name, s.elements.map (·.relocate φ), φ s.position⟩

def SyntaxDecl.relocate (d : SyntaxDecl) : SyntaxDecl := ⟨d.level, φ d.position⟩

def ImportDecl.relocate (i : ImportDecl) : ImportDecl := ⟨i.path, i.modifier, φ i.position⟩

def PackageDecl.relocate (p : PackageDecl) : PackageDecl := ⟨p.name, φ p.position⟩

def SchemaElement.relocate : SchemaElement → SchemaElement
  | .importing i => .importing (i.relocate φ)
  | .package p => .package (p.relocate φ)
  | .option o => .option (o.relocate φ)
  | .message m => .message (m.relocate φ)
  | .enum e => .enum (e.relocate φ)
  | .extension e => .extension (e.relocate φ)
  | .service s => .service (s.relocate φ)

/-- The schema with every position replaced. -/
def Schema.relocate (s : Schema) : Schema :=
  ⟨s.level.map (·.relocate φ), s.elements.map (·.relocate φ)⟩

/-- No position in particular. -/
def Position.nowhere (_ : Position) : Position := ⟨1, 1⟩

/-- The schema without its positions. -/
def Schema.unplaced (s : Schema) : Schema := s.relocate Position.nowhere

end ProtoSchema
