import ProtoSchema.Tree.Node

/-!
# Names of options

The names of the options of a schema are those of the option nodes met when it is walked
through.
-/
namespace ProtoSchema

/-! ## Values -/

/-! No option stands in a value. -/

mutual

/-- In the value of an option no other option is named. -/
theorem optionNames_messageLiteral : ∀ m : MessageLiteral,
    m.nodes.filterMap Node.optionName? = []
  | ⟨entries, p⟩ => by
    rw [MessageLiteral.nodes, List.filterMap_cons_none rfl]
    exact optionNames_literalEntries entries

theorem optionNames_literalEntries :
    ∀ es : List LiteralEntry, (literalEntryNodes es).filterMap Node.optionName? = []
  | [] => rfl
  | e :: es => by
    rw [literalEntryNodes, List.filterMap_append, optionNames_literalEntry e,
      optionNames_literalEntries es, List.append_nil]

theorem optionNames_literalEntry : ∀ e : LiteralEntry, e.nodes.filterMap Node.optionName? = []
  | ⟨name, value, kind, p⟩ => by
    rw [LiteralEntry.nodes, List.filterMap_cons_none rfl]
    exact optionNames_entryValue value

theorem optionNames_entryValue : ∀ v : EntryValue, v.nodes.filterMap Node.optionName? = []
  | .scalar _ => rfl
  | .message m => optionNames_messageLiteral m
  | .list es p => by
    rw [EntryValue.nodes, List.filterMap_cons_none rfl]
    exact optionNames_optionValues es
  | .messages ms p => by
    rw [EntryValue.nodes, List.filterMap_cons_none rfl]
    exact optionNames_messageLiterals ms

theorem optionNames_optionValue : ∀ v : OptionValue, v.nodes.filterMap Node.optionName? = []
  | .scalar _ => rfl
  | .message m => optionNames_messageLiteral m

theorem optionNames_optionValues :
    ∀ vs : List OptionValue, (optionValueNodes vs).filterMap Node.optionName? = []
  | [] => rfl
  | v :: vs => by
    rw [optionValueNodes, List.filterMap_append, optionNames_optionValue v,
      optionNames_optionValues vs, List.append_nil]

theorem optionNames_messageLiterals :
    ∀ ms : List MessageLiteral, (messageLiteralNodes ms).filterMap Node.optionName? = []
  | [] => rfl
  | m :: ms => by
    rw [messageLiteralNodes, List.filterMap_append, optionNames_messageLiteral m,
      optionNames_messageLiterals ms, List.append_nil]

end

/-! ## Options -/

/-- The parts of a name are not named themselves. -/
theorem optionNames_parts (parts : List OptionNamePart) :
    (parts.map Node.namePart).filterMap Node.optionName? = [] := by
  induction parts with
  | nil => rfl
  | cons p parts ih => exact ih

/-- Neither name nor value of an option holds an option. -/
theorem optionNames_given (parts : List OptionNamePart) (value : OptionValue) :
    (parts.map Node.namePart ++ value.nodes).filterMap Node.optionName? = [] := by
  rw [List.filterMap_append, optionNames_parts, optionNames_optionValue, List.append_nil]

/-- The one name among the nodes of an option statement is its own. -/
theorem optionNames_optionStatement (o : OptionStatement) :
    o.nodes.filterMap Node.optionName? = [o.fullName] :=
  congrArg (o.fullName :: ·) (optionNames_given o.name o.value)

/-- The one name among the nodes of an option in brackets is its own. -/
theorem optionNames_compactOption (o : CompactOption) :
    o.nodes.filterMap Node.optionName? = [o.fullName] :=
  congrArg (o.fullName :: ·) (optionNames_given o.name o.value)

/-- What is so of each thing is so of a list of them. -/
theorem optionNames_flatMap {α : Type} {nodes : α → List Node} {names : α → List Text}
    (h : ∀ a, (nodes a).filterMap Node.optionName? = names a) (as : List α) :
    (as.flatMap nodes).filterMap Node.optionName? = as.flatMap names := by
  induction as with
  | nil => rfl
  | cons a as ih => rw [List.flatMap_cons, List.flatMap_cons, List.filterMap_append, h, ih]

/-- The names among the nodes of options in brackets, in their order. -/
theorem optionNames_compact (os : List CompactOption) :
    (compactNodes os).filterMap Node.optionName? = compactNames os := by
  rw [compactNodes, compactNames, List.map_eq_flatMap]
  exact optionNames_flatMap optionNames_compactOption os

theorem optionNames_tagRanges (rs : List TagRange) :
    (rs.map Node.tagRange).filterMap Node.optionName? = [] := by
  induction rs with
  | nil => rfl
  | cons r rs ih => exact ih

theorem optionNames_reservedDecl (r : ReservedDecl) :
    r.nodes.filterMap Node.optionName? = [] := by
  rw [ReservedDecl.nodes, List.filterMap_cons_none rfl]
  cases r.reserved with
  | ranges rs => exact optionNames_tagRanges rs
  | names _ => rfl

theorem optionNames_extensionRangeDecl (r : ExtensionRangeDecl) :
    r.nodes.filterMap Node.optionName? = compactNames r.options := by
  rw [ExtensionRangeDecl.nodes, List.filterMap_cons_none rfl, List.filterMap_append,
    optionNames_tagRanges, optionNames_compact]
  rfl

/-- A field names the options in its brackets. -/
theorem optionNames_fieldDecl (f : FieldDecl) :
    f.nodes.filterMap Node.optionName? = compactNames f.options :=
  optionNames_compact f.options

theorem optionNames_mapFieldDecl (f : MapFieldDecl) :
    f.nodes.filterMap Node.optionName? = compactNames f.options :=
  optionNames_compact f.options

/-! ## Enums and messages -/

theorem optionNames_enumElement (e : EnumElement) :
    e.nodes.filterMap Node.optionName? = e.optionNames := by
  cases e with
  | option o => exact optionNames_optionStatement o
  | value v => exact optionNames_compact v.options
  | reserved r => exact optionNames_reservedDecl r

/-- The names among the nodes of an enum are those of its outline. -/
theorem optionNames_enumDecl (e : EnumDecl) : e.nodes.filterMap Node.optionName? =
      e.optionNames :=
  optionNames_flatMap optionNames_enumElement e.elements

mutual

/-- The names among the nodes of an element of a message are those of its outline. -/
theorem optionNames_messageElement :
    ∀ e : MessageElement, e.nodes.filterMap Node.optionName? = e.optionNames
  | .member m => by
    rw [MessageElement.nodes, MessageElement.optionNames, optionNames_member]
  | .mapField f => by
    rw [MessageElement.nodes, MessageElement.optionNames, optionNames_mapFieldDecl]
  | .oneof o => by
    rw [MessageElement.nodes, MessageElement.optionNames, optionNames_oneofDecl]
  | .option o => by
    rw [MessageElement.nodes, MessageElement.optionNames, optionNames_optionStatement]
  | .extensionRange r => by
    rw [MessageElement.nodes, MessageElement.optionNames, optionNames_extensionRangeDecl]
  | .reserved r => by
    rw [MessageElement.nodes, MessageElement.optionNames, optionNames_reservedDecl]
  | .message m => by
    rw [MessageElement.nodes, MessageElement.optionNames, optionNames_messageDecl]
  | .enum e => by
    rw [MessageElement.nodes, MessageElement.optionNames, optionNames_enumDecl]
  | .extension e => by
    rw [MessageElement.nodes, MessageElement.optionNames, optionNames_extensionDecl]

theorem optionNames_member : ∀ m : Member, m.nodes.filterMap Node.optionName? = m.optionNames
  | .field f => by
    rw [Member.nodes, Member.optionNames, optionNames_fieldDecl]
  | .group g => by
    rw [Member.nodes, Member.optionNames, optionNames_groupDecl]

theorem optionNames_groupDecl : ∀ g : GroupDecl,
    g.nodes.filterMap Node.optionName? = g.optionNames
  | ⟨_, _, _, options, elements, _⟩ => by
    rw [GroupDecl.nodes, GroupDecl.optionNames, List.filterMap_cons_none rfl,
      List.filterMap_append,
      optionNames_compact, optionNames_messageNodes]

theorem optionNames_oneofElement :
    ∀ e : OneofElement, e.nodes.filterMap Node.optionName? = e.optionNames
  | .option o => by
    rw [OneofElement.nodes, OneofElement.optionNames, optionNames_optionStatement]
  | .member m => by
    rw [OneofElement.nodes, OneofElement.optionNames, optionNames_member]

theorem optionNames_oneofDecl : ∀ o : OneofDecl,
    o.nodes.filterMap Node.optionName? = o.optionNames
  | ⟨_, elements, _⟩ => by
    rw [OneofDecl.nodes, OneofDecl.optionNames, List.filterMap_cons_none rfl,
      optionNames_oneofNodes]

theorem optionNames_messageDecl :
    ∀ m : MessageDecl, m.nodes.filterMap Node.optionName? = m.optionNames
  | ⟨_, elements, _⟩ => by
    rw [MessageDecl.nodes, MessageDecl.optionNames, List.filterMap_cons_none rfl,
      optionNames_messageNodes]

theorem optionNames_extensionDecl :
    ∀ e : ExtensionDecl, e.nodes.filterMap Node.optionName? = e.optionNames
  | ⟨_, elements, _⟩ => by
    rw [ExtensionDecl.nodes, ExtensionDecl.optionNames, List.filterMap_cons_none rfl,
      optionNames_memberNodes]

/-- The names among the nodes of several elements, element by element. -/
theorem optionNames_messageNodes : ∀ es : List MessageElement,
    (messageNodes es).filterMap Node.optionName? = messageOptionNames es
  | [] => by rw [messageNodes, messageOptionNames, List.filterMap_nil]
  | e :: es => by
    rw [messageNodes, messageOptionNames, List.filterMap_append, optionNames_messageElement,
      optionNames_messageNodes]

theorem optionNames_oneofNodes : ∀ es : List OneofElement,
    (oneofNodes es).filterMap Node.optionName? = oneofOptionNames es
  | [] => by rw [oneofNodes, oneofOptionNames, List.filterMap_nil]
  | e :: es => by
    rw [oneofNodes, oneofOptionNames, List.filterMap_append, optionNames_oneofElement,
      optionNames_oneofNodes]

theorem optionNames_memberNodes : ∀ ms : List Member,
    (memberNodes ms).filterMap Node.optionName? = memberOptionNames ms
  | [] => by rw [memberNodes, memberOptionNames, List.filterMap_nil]
  | m :: ms => by
    rw [memberNodes, memberOptionNames, List.filterMap_append, optionNames_member,
      optionNames_memberNodes]

end

/-! ## Services and schemas -/

/-- A method names the options of its body. -/
theorem optionNames_serviceElement (e : ServiceElement) :
    e.nodes.filterMap Node.optionName? = e.optionNames := by
  cases e with
  | option o => exact optionNames_optionStatement o
  | method m =>
    rw [ServiceElement.optionNames, List.map_eq_flatMap]
    exact optionNames_flatMap optionNames_optionStatement m.options

theorem optionNames_serviceDecl (s : ServiceDecl) :
    s.nodes.filterMap Node.optionName? = s.optionNames :=
  optionNames_flatMap optionNames_serviceElement s.elements

theorem optionNames_schemaElement (e : SchemaElement) :
    e.nodes.filterMap Node.optionName? = e.optionNames := by
  cases e with
  | importing i => rfl
  | package p => rfl
  | option o => exact optionNames_optionStatement o
  | message m => exact optionNames_messageDecl m
  | enum e => exact optionNames_enumDecl e
  | extension e => exact optionNames_extensionDecl e
  | service s => exact optionNames_serviceDecl s

/-- The names among the nodes of a schema are those of its outline, in their order. -/
theorem optionNames_schema (f : Schema) : f.nodes.filterMap Node.optionName? =
      f.optionNames := by
  have elements := optionNames_flatMap optionNames_schemaElement f.elements
  rw [Schema.nodes, List.filterMap_append, elements]
  cases f.level <;> rfl

end ProtoSchema
