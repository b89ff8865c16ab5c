import ProtoSchema.Proofs.Rendering.Literal

/-!
# Renderings of declarations

How the declarations of a schema, and a whole schema, may be written in tokens. At a place
where a declaration may start, certain words always start the declaration they are named for,
so a field that is written without a cardinality must not begin with one of them.
-/
namespace ProtoSchema.Rendering

variable (placed : Prop)

/-! ## Options -/

/-- How an option statement may be written. -/
def optionStatement (o : OptionStatement) : Language Token :=
  starting placed o.position
    [word "option", optionName placed o.name, mark .equals, optionValue placed o.value,
      mark .semicolon].prod

/-- How one of the options in brackets may be written. -/
def compactOption (o : CompactOption) : Language Token :=
  starting placed o.position
    [optionName placed o.name, mark .equals, optionValue placed o.value].prod

/-- Options in brackets; no brackets when there are none. -/
def compactOptions : List CompactOption → Language Token
  | [] => 1
  | o :: os => bracketed (separated .comma (compactOption placed) (o :: os))

/-! ## Ranges -/

/-- A number that bounds a range. Only in enums may it have a sign. -/
def rangeNumber : Bool → Int → Language Token
  | true, n => signed n
  | false, n => unsigned n

/-- The end of a range, with the word in front of it; a range of one number has none. -/
def rangeEnd (negatives : Bool) : Option RangeEnd → Language Token
  | none => 1
  | some .max => word "to" * word "max"
  | some (.number n) => word "to" * rangeNumber negatives n

/-- A range of numbers, or one number. -/
def tagRange (negatives : Bool) (r : TagRange) : Language Token :=
  starting placed r.position (rangeNumber negatives r.first * rangeEnd negatives r.last)

/-- Ranges with commas between them. -/
def tagRanges (negatives : Bool) (rs : List TagRange) : Language Token :=
  separated .comma (tagRange placed negatives) rs

/-- What is reserved: ranges, or the names in quotes. -/
def reserved (negatives : Bool) : Reserved → Language Token
  | .ranges rs => tagRanges placed negatives rs
  | .names xs => separated .comma strings xs

/-- A declaration of reserved numbers or names. -/
def reservedDecl (negatives : Bool) (r : ReservedDecl) : Language Token :=
  starting placed r.position
    [word "reserved", reserved placed negatives r.reserved, mark .semicolon].prod

/-- A declaration of ranges for extensions. -/
def extensionRangeDecl (r : ExtensionRangeDecl) : Language Token :=
  starting placed r.position
    [word "extensions", tagRanges placed false r.ranges, compactOptions placed r.options,
      mark .semicolon].prod

/-! ## Fields -/

/-- A field from its type on. -/
def fieldTail (f : FieldDecl) : Language Token :=
  [typeName f.typeName, name f.name, mark .equals, unsigned f.number,
    compactOptions placed f.options, mark .semicolon].prod

/-- A field with its cardinality, at a place where the words start other declarations. Behind
a cardinality only the word `group` does. -/
def fieldBody (words : List String) (f : FieldDecl) : Language Token :=
  match f.cardinality with
  | none => notStarting words (fieldTail placed f)
  | some c => word c.word * notStarting ["group"] (fieldTail placed f)

/-- A field, at a place where the words start other declarations. -/
def fieldDecl (words : List String) (f : FieldDecl) : Language Token :=
  starting placed f.position (fieldBody placed words f)

/-- One of the scalar types that a map may be keyed by. -/
def mapKeyType (x : Text) : Language Token := {ts | isMapKeyType x ∧ ts ∈ identifier x}

/-- A field of a map type. -/
def mapFieldDecl (f : MapFieldDecl) : Language Token :=
  starting placed f.position
    [word "map", mark .leftAngle, mapKeyType f.keyType, mark .comma, typeName f.valueType,
      mark .rightAngle, name f.name, mark .equals, unsigned f.number,
      compactOptions placed f.options, mark .semicolon].prod

/-- A group from the word `group` on; `B` renders its elements. -/
def groupTail (x : Text) (number : Int) (options : List CompactOption) (B : Language Token) :
    Language Token :=
  [word "group", name x, mark .equals, unsigned number, compactOptions placed options,
    mark .leftBrace, B, mark .rightBrace].prod

/-- The word for a cardinality; without one there is no word. -/
def cardinality : Option Cardinality → Language Token
  | none => 1
  | some c => word c.word

/-! ## Enums -/

/-- A value of an enum; its number may have a sign. -/
def enumValueDecl (v : EnumValueDecl) : Language Token :=
  starting placed v.position
    [name v.name, mark .equals, signed v.number, compactOptions placed v.options,
      mark .semicolon].prod

/-- What may stand in an enum. -/
def enumElement : EnumElement → Language Token
  | .option o => optionStatement placed o
  | .value v => enumValueDecl placed v
  | .reserved r => reservedDecl placed true r

/-- A declaration that starts with a word, a name and an opening brace. -/
def block (w : String) (x : Text) (B : Language Token) : Language Token :=
  [word w, name x, mark .leftBrace, B, mark .rightBrace].prod

/-- An enum, with empty statements anywhere between its elements. -/
def enumDecl (e : EnumDecl) : Language Token :=
  starting placed e.position
    (block "enum" e.name (statements (enumElement placed) e.elements))

/-! ## Messages -/

/-- The words that stand for a cardinality. -/
def cardinalityWords : List String := ["required", "optional", "repeated"]

/-- The words that start no field in an extension. -/
def extensionWords : List String := "group" :: cardinalityWords

/-- The words that start no field in a oneof. -/
def oneofWords : List String := "option" :: extensionWords

/-- The words that start other elements of a message than members. -/
def elementWords : List String :=
  ["option", "message", "enum", "extend", "extensions", "reserved", "oneof"]

/-- The words that start no field in a message. -/
def messageWords : List String := elementWords ++ extensionWords

mutual

/-- What may stand in a message. -/
def messageElement : MessageElement → Language Token
  | .member m => member messageWords m
  | .mapField f => mapFieldDecl placed f
  | .oneof o => oneofDecl o
  | .option o => optionStatement placed o
  | .extensionRange r => extensionRangeDecl placed r
  | .reserved r => reservedDecl placed false r
  | .message m => messageDecl m
  | .enum e => enumDecl placed e
  | .extension e => extensionDecl e

/-- A field or a group, at a place where the words start other declarations. -/
def member (words : List String) : Member → Language Token
  | .field f => fieldDecl placed words f
  | .group g => groupDecl g

/-- A group, its cardinality in front. -/
def groupDecl : GroupDecl → Language Token
  | ⟨c, x, number, options, elements, p⟩ => starting placed p <|
    cardinality c * groupTail placed x number options (messageStatements elements)

/-- A member of a oneof has no cardinality. -/
def oneofElement : OneofElement → Language Token
  | .option o => optionStatement placed o
  | .member m => oneofMember m

/-- A member of a oneof, which has no cardinality. -/
def oneofMember : Member → Language Token
  | .field f => {ts | f.cardinality = none ∧ ts ∈ fieldDecl placed oneofWords f}
  | .group g => {ts | g.cardinality = none ∧ ts ∈ groupDecl g}

/-- A oneof; no empty statement may stand in it. -/
def oneofDecl : OneofDecl → Language Token
  | ⟨x, elements, p⟩ => starting placed p (block "oneof" x (oneofElements elements))

/-- A message. -/
def messageDecl : MessageDecl → Language Token
  | ⟨x, elements, p⟩ => starting placed p (block "message" x (messageStatements elements))

/-- An extension; no empty statement may stand in it. -/
def extensionDecl : ExtensionDecl → Language Token
  | ⟨extendee, elements, p⟩ => starting placed p
    [word "extend", typeName extendee, mark .leftBrace, members elements,
      mark .rightBrace].prod

/-- The elements of a message, with empty statements around them. -/
def messageStatements : List MessageElement → Language Token
  | [] => semicolons
  | e :: es => [semicolons, messageElement e, messageStatements es].prod

def oneofElements : List OneofElement → Language Token
  | [] => 1
  | e :: es => oneofElement e * oneofElements es

def members : List Member → Language Token
  | [] => 1
  | m :: ms => member extensionWords m * members ms

end

theorem groupDecl_eq : groupDecl placed = fun g => starting placed g.position
    (cardinality g.cardinality * groupTail placed g.name g.number g.options
      (messageStatements placed g.elements)) := by
  funext ⟨c, x, number, options, elements, p⟩
  rw [groupDecl]

theorem oneofDecl_eq : oneofDecl placed = fun o =>
    starting placed o.position (block "oneof" o.name (oneofElements placed o.elements)) := by
  funext ⟨x, elements, p⟩
  rw [oneofDecl]

theorem messageDecl_eq : messageDecl placed = fun m =>
    starting placed m.position
      (block "message" m.name (messageStatements placed m.elements)) := by
  funext ⟨x, elements, p⟩
  rw [messageDecl]

theorem extensionDecl_eq : extensionDecl placed = fun e => starting placed e.position
    [word "extend", typeName e.extendee, mark .leftBrace, members placed e.elements,
      mark .rightBrace].prod := by
  funext ⟨extendee, elements, p⟩
  rw [extensionDecl]

theorem messageStatements_eq (es : List MessageElement) :
    messageStatements placed es = statements (messageElement placed) es := by
  induction es with
  | nil => simp [messageStatements, statements]
  | cons e es ih => simp [messageStatements, statements, ih]

theorem oneofElements_eq (es : List OneofElement) :
    oneofElements placed es = (es.map (oneofElement placed)).prod := by
  induction es with
  | nil => simp [oneofElements]
  | cons e es ih => simp [oneofElements, ih]

theorem members_eq (ms : List Member) :
    members placed ms = (ms.map (member placed extensionWords)).prod := by
  induction ms with
  | nil => simp [members]
  | cons m ms ih => simp [members, ih]

/-! ## Services -/

/-- A type in parentheses. The word `stream` in front marks a stream, so only as the whole
name of a type can it stand for itself there. -/
def methodType : Bool → Text → Language Token
  | true, x => [mark .leftParen, word "stream", typeName x, mark .rightParen].prod
  | false, x =>
    [mark .leftParen, word "stream" ⊓ typeName x + notStarting ["stream"] (typeName x),
      mark .rightParen].prod

/-- A method without options may end in a semicolon in place of a body. -/
def methodEnd (os : List OptionStatement) : Language Token :=
  [mark .leftBrace, statements (optionStatement placed) os, mark .rightBrace].prod +
    if os.isEmpty then mark .semicolon else 0

/-- A method, its types in parentheses. -/
def methodDecl (m : MethodDecl) : Language Token :=
  starting placed m.position
    [word "rpc", name m.name, methodType m.clientStreaming m.inputType, word "returns",
      methodType m.serverStreaming m.outputType, methodEnd placed m.options].prod

/-- What may stand in a service. -/
def serviceElement : ServiceElement → Language Token
  | .option o => optionStatement placed o
  | .method m => methodDecl placed m

/-- A service. -/
def serviceDecl (s : ServiceDecl) : Language Token :=
  starting placed s.position
    (block "service" s.name (statements (serviceElement placed) s.elements))

/-! ## Schemas -/

/-- The statement that names the level. -/
def syntaxDecl (d : SyntaxDecl) : Language Token :=
  starting placed d.position
    [word "syntax", mark .equals, strings d.level, mark .semicolon].prod

/-- The word for how an import is marked; without a mark there is none. -/
def importModifier : Option ImportModifier → Language Token
  | none => 1
  | some .weakly => word "weak"
  | some .publicly => word "public"

/-- An import; its path may be written in several literals. -/
def importDecl (i : ImportDecl) : Language Token :=
  starting placed i.position
    [word "import", importModifier i.modifier, strings i.path, mark .semicolon].prod

/-- The statement of the package. -/
def packageDecl (p : PackageDecl) : Language Token :=
  starting placed p.position [word "package", qualified p.name, mark .semicolon].prod

/-- What may stand at the top level. -/
def schemaElement : SchemaElement → Language Token
  | .importing i => importDecl placed i
  | .package p => packageDecl placed p
  | .option o => optionStatement placed o
  | .message m => messageDecl placed m
  | .enum e => enumDecl placed e
  | .extension e => extensionDecl placed e
  | .service s => serviceDecl placed s

/-- The statement of the level, or nothing. -/
def level : Option SyntaxDecl → Language Token
  | none => 1
  | some d => syntaxDecl placed d

/-- The renderings of a schema, without the token that ends the source. No empty statement
stands before the level of the language. -/
def schema (s : Schema) : Language Token :=
  level placed s.level * statements (schemaElement placed) s.elements

/-! ## What takes no token -/

@[simp] theorem nil_notMem_optionStatement (o : OptionStatement) :
    [] ∉ optionStatement placed o :=
  nil_notMem_starting (by simp)

@[simp] theorem nil_notMem_enumElement (e : EnumElement) : [] ∉ enumElement placed e := by
  cases e with
  | option o => exact nil_notMem_optionStatement placed o
  | value v => exact nil_notMem_starting (by simp)
  | reserved r => exact nil_notMem_starting (by simp)

@[simp] theorem nil_notMem_fieldTail (f : FieldDecl) : [] ∉ fieldTail placed f := by
  simp [fieldTail]

theorem nil_notMem_fieldBody (words : List String) (f : FieldDecl) :
    [] ∉ fieldBody placed words f := by
  unfold fieldBody
  split
  · exact fun h => nil_notMem_fieldTail placed f h.1
  · simp

theorem nil_notMem_groupDecl (g : GroupDecl) : [] ∉ groupDecl placed g := by
  rw [groupDecl_eq]
  exact nil_notMem_starting (by simp [groupTail])

@[simp] theorem nil_notMem_member (words : List String) (m : Member) :
    [] ∉ member placed words m := by
  cases m with
  | field f => exact nil_notMem_starting (nil_notMem_fieldBody placed words f)
  | group g =>
    rw [member]
    exact nil_notMem_groupDecl placed g

@[simp] theorem nil_notMem_oneofElement (e : OneofElement) : [] ∉ oneofElement placed e := by
  rcases e with o | f | g <;> rw [oneofElement]
  · exact nil_notMem_optionStatement placed o
  · rw [oneofMember]
    exact fun h => nil_notMem_starting (nil_notMem_fieldBody placed _ f) h.2
  · rw [oneofMember]
    exact fun h => nil_notMem_groupDecl placed g h.2

@[simp] theorem nil_notMem_messageDecl (m : MessageDecl) : [] ∉ messageDecl placed m := by
  rw [messageDecl_eq]
  exact nil_notMem_starting (by simp [block])

@[simp] theorem nil_notMem_extensionDecl (e : ExtensionDecl) :
    [] ∉ extensionDecl placed e := by
  rw [extensionDecl_eq]
  exact nil_notMem_starting (by simp)

@[simp] theorem nil_notMem_enumDecl (e : EnumDecl) : [] ∉ enumDecl placed e :=
  nil_notMem_starting (by simp [block])

@[simp] theorem nil_notMem_messageElement (e : MessageElement) :
    [] ∉ messageElement placed e := by
  cases e with rw [messageElement]
  | member m => exact nil_notMem_member placed messageWords m
  | mapField f => exact nil_notMem_starting (by simp)
  | oneof o =>
    rw [oneofDecl_eq]
    exact nil_notMem_starting (by simp [block])
  | option o => exact nil_notMem_optionStatement placed o
  | extensionRange r => exact nil_notMem_starting (by simp)
  | reserved r => exact nil_notMem_starting (by simp)
  | message m => exact nil_notMem_messageDecl placed m
  | enum e => exact nil_notMem_enumDecl placed e
  | extension e => exact nil_notMem_extensionDecl placed e

@[simp] theorem nil_notMem_serviceElement (e : ServiceElement) :
    [] ∉ serviceElement placed e := by
  cases e with
  | option o => exact nil_notMem_optionStatement placed o
  | method m => exact nil_notMem_starting (by simp)

@[simp] theorem nil_notMem_schemaElement (e : SchemaElement) :
    [] ∉ schemaElement placed e := by
  cases e with
  | importing i => exact nil_notMem_starting (by simp)
  | package p => exact nil_notMem_starting (by simp)
  | option o => exact nil_notMem_optionStatement placed o
  | message m => exact nil_notMem_messageDecl placed m
  | enum e => exact nil_notMem_enumDecl placed e
  | extension e => exact nil_notMem_extensionDecl placed e
  | service s => exact nil_notMem_starting (by simp [block])

/-! ## A sample -/

/-- A token at the start of a source. -/
def sampleToken (kind : TokenKind) (text : String) : Token :=
  ⟨kind, text, ⟨1, 1⟩, kind = .identifier && Token.isSoftKeyword text⟩

/-- The tokens of `enum E { A = 1; }`. -/
def enumTokens : List Token :=
  [sampleToken .identifier "enum", sampleToken .identifier "E", sampleToken .leftBrace "\x7b",
    sampleToken .identifier "A", sampleToken .equals "=", sampleToken .integer "1",
    sampleToken .semicolon ";", sampleToken .rightBrace "\x7d"]

/-- The token that ends a source. -/
def endToken : Token := sampleToken .endOfInput ""

/-- A schema of one enum with one value. -/
def enumSchema : Schema := ⟨none, [.enum ⟨"E", [.value ⟨"A", 1, [], ⟨1, 1⟩⟩], ⟨1, 1⟩⟩]⟩

theorem enumTokens_mem : enumTokens ∈ schema False enumSchema := by
  have value : (enumTokens.drop 3).take 4 ∈
      enumElement False (.value ⟨"A", 1, [], ⟨1, 1⟩⟩) := by
    refine ⟨cons_mem_name rfl ⟨rfl, rfl⟩ (cons_mem_prod rfl ?_), nofun⟩
    refine mem_prod_cons.mpr ⟨[_], .inl ⟨by decide, _, ⟨rfl, ?_⟩, rfl⟩, _, ?_, rfl⟩
    · rfl
    · exact mem_prod_cons.mpr ⟨[], rfl, _, cons_mem_prod rfl nil_mem_prod, rfl⟩
  have enum : enumTokens ∈
      schemaElement False (.enum ⟨"E", [.value ⟨"A", 1, [], ⟨1, 1⟩⟩], ⟨1, 1⟩⟩) := by
    refine
      ⟨cons_mem_prod ⟨rfl, rfl⟩ (cons_mem_name rfl ⟨rfl, rfl⟩ (cons_mem_prod rfl ?_)), nofun⟩
    exact mem_prod_cons.mpr
      ⟨_, mem_statements_one value, _, cons_mem_prod rfl nil_mem_prod, rfl⟩
  exact Language.append_mem_mul Language.nil_mem_one (mem_statements_one enum)

end ProtoSchema.Rendering
