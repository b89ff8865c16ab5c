import ProtoSchema.Tree.Declaration

/-!
# Outlines

What a schema declares at its top level, and the names of all options in it. The option names
come depth first, a declaration's own before those of what it holds, which is their order in
the source.
-/
namespace ProtoSchema

/-- The keyword for how an import is marked. -/
def ImportModifier.word : ImportModifier → String
  | .weakly => "weak"
  | .publicly => "public"

/-- The name of an option statement, its parts joined at points. -/
def OptionStatement.fullName (o : OptionStatement) : Text := OptionName.text o.name

/-- The name of an option in brackets, its parts joined at points. -/
def CompactOption.fullName (o : CompactOption) : Text := OptionName.text o.name

/-- The names of options in brackets. -/
def compactNames (options : List CompactOption) : List Text :=
  options.map CompactOption.fullName

def EnumElement.optionNames : EnumElement → List Text
  | option o => [o.fullName]
  | value v => compactNames v.options
  | reserved _ => []

/-- The names of the options in an enum. -/
def EnumDecl.optionNames (e : EnumDecl) : List Text :=
  e.elements.flatMap EnumElement.optionNames

mutual

/-- The names of the options in an element of a message. -/
def MessageElement.optionNames : MessageElement → List Text
  | .member m => m.optionNames
  | .mapField f => compactNames f.options
  | .oneof o => o.optionNames
  | .option o => [o.fullName]
  | .extensionRange r => compactNames r.options
  | .reserved _ => []
  | .message m => m.optionNames
  | .enum e => e.optionNames
  | .extension e => e.optionNames

def Member.optionNames : Member → List Text
  | .field f => compactNames f.options
  | .group g => g.optionNames

/-- The names of the options of a group, and of those in it. -/
def GroupDecl.optionNames : GroupDecl → List Text
  | ⟨_, _, _, options, elements, _⟩ => compactNames options ++ messageOptionNames elements

def OneofElement.optionNames : OneofElement → List Text
  | .option o => [o.fullName]
  | .member m => m.optionNames

def OneofDecl.optionNames : OneofDecl → List Text
  | ⟨_, elements, _⟩ => oneofOptionNames elements

/-- The names of the options in a message. -/
def MessageDecl.optionNames : MessageDecl → List Text
  | ⟨_, elements, _⟩ => messageOptionNames elements

def ExtensionDecl.optionNames : ExtensionDecl → List Text
  | ⟨_, elements, _⟩ => memberOptionNames elements

def messageOptionNames : List MessageElement → List Text
  | [] => []
  | e :: rest => e.optionNames ++ messageOptionNames rest

def oneofOptionNames : List OneofElement → List Text
  | [] => []
  | e :: rest => e.optionNames ++ oneofOptionNames rest

def memberOptionNames : List Member → List Text
  | [] => []
  | e :: rest => e.optionNames ++ memberOptionNames rest

end

def ServiceElement.optionNames : ServiceElement → List Text
  | option o => [o.fullName]
  | method m => m.options.map OptionStatement.fullName

/-- The names of the options in a service; those of a method are statements too. -/
def ServiceDecl.optionNames (s : ServiceDecl) : List Text :=
  s.elements.flatMap ServiceElement.optionNames

/-- The names of the options in a statement at the top level. -/
def SchemaElement.optionNames : SchemaElement → List Text
  | importing _ => []
  | package _ => []
  | option o => [o.fullName]
  | message m => m.optionNames
  | enum e => e.optionNames
  | extension e => e.optionNames
  | service s => s.optionNames

namespace Schema

/-- The names of all options of a schema. -/
def optionNames (s : Schema) : List Text := s.elements.flatMap SchemaElement.optionNames

/-- The name in the first package statement. -/
def package? (s : Schema) : Option Text :=
  s.elements.findSome? fun
    | .package p => some p.name
    | _ => none

/-- The imports of a schema. -/
def imports (s : Schema) : List ImportDecl :=
  s.elements.filterMap fun
    | .importing i => some i
    | _ => none

/-- The messages at the top level. -/
def messages (s : Schema) : List MessageDecl :=
  s.elements.filterMap fun
    | .message m => some m
    | _ => none

/-- The enums at the top level. -/
def enums (s : Schema) : List EnumDecl :=
  s.elements.filterMap fun
    | .enum e => some e
    | _ => none

/-- The services of a schema. -/
def services (s : Schema) : List ServiceDecl :=
  s.elements.filterMap fun
    | .service s => some s
    | _ => none

end Schema

end ProtoSchema
