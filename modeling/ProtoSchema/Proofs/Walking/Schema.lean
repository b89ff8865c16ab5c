import ProtoSchema.Proofs.Walking.Value

/-!
# Walking through declarations

The nodes of declarations and of a whole schema lie in order where they are written.
-/
namespace ProtoSchema.Rendering

/-! ## Ranges and fields -/

/-- The ranges lie in order, with commas between them. -/
theorem walks_tagRanges (negatives : Bool) (rs : List TagRange) :
    Walks (tagRanges True negatives rs) (rs.map .tagRange) := by
  rw [List.map_eq_flatMap]
  exact .separated .comma (fun r => .single (n := .tagRange r) fun _ h => ⟨negatives, h⟩) rs

theorem walks_reservedDecl (negatives : Bool) (r : ReservedDecl) :
    Walks (reservedDecl True negatives r) r.nodes := by
  obtain ⟨ranges | names, p⟩ := r
  · exact .declaration (n := .reserved ⟨.ranges ranges, p⟩) (by simp)
      (.last (walks_tagRanges negatives ranges)) fun _ h => ⟨negatives, h⟩
  · exact .declaration (n := .reserved ⟨.names names, p⟩) (by simp) (.last (.leaf _))
      fun _ h => ⟨negatives, h⟩

theorem walks_extensionRangeDecl (r : ExtensionRangeDecl) :
    Walks (extensionRangeDecl True r) r.nodes :=
  .declaration (n := .extensionRange r) (by simp)
    ((walks_tagRanges false r.ranges).cons (.last (walks_compactOptions r.options)))
    fun _ => id

/-- A field has something in front of its name, and its options behind. -/
theorem exists_fieldTail {words : List String} {f : FieldDecl} {ts : List Token}
    (h : ts ∈ fieldBody True words f) : ∃ us vs, ts = us ++ vs ∧ us ≠ [] ∧
      vs ∈ [name f.name, mark .equals, unsigned f.number, compactOptions True f.options,
        mark .semicolon].prod := by
  have tail {ts : List Token} (h : ts ∈ fieldTail True f) : ∃ us vs, ts = us ++ vs ∧ us ≠ [] ∧
      vs ∈ [name f.name, mark .equals, unsigned f.number, compactOptions True f.options,
        mark .semicolon].prod := by
    obtain ⟨us, hu, vs, hv, rfl⟩ := h
    exact ⟨us, vs, rfl, fun h => nil_notMem_typeName f.typeName (h ▸ hu), hv⟩
  unfold fieldBody at h
  split at h
  · exact tail h.1
  · obtain ⟨us, -, _, hv, rfl⟩ := h
    obtain ⟨vs, ws, rfl, hne, hw⟩ := tail hv.1
    exact ⟨us ++ vs, ws, (List.append_assoc us vs ws).symm, by simp [hne], hw⟩

/-- A field stands in front of the options in its brackets. -/
theorem walks_fieldDecl (words : List String) (f : FieldDecl) :
    Walks (fieldDecl True words f) f.nodes := by
  intro ts hts inc
  obtain ⟨us, vs, rfl, hne, hv⟩ := exists_fieldTail hts.1
  have options : Walks [name f.name, mark .equals, unsigned f.number,
      compactOptions True f.options, mark .semicolon].prod (compactNodes f.options) :=
    .skip (.skip (.skip (.last (walks_compactOptions f.options))))
  exact .node (n := .field f) inc ⟨words, hts⟩ hne (options vs hv inc.append.2.1)

theorem walks_mapFieldDecl (f : MapFieldDecl) : Walks (mapFieldDecl True f) f.nodes :=
  .declaration (n := .mapField f) (by simp)
    (.skip (.skip (.skip (.skip (.skip (.skip (.skip (.skip (.last
      (walks_compactOptions f.options)))))))))) fun _ => id

/-! ## Enums -/

theorem walks_enumValueDecl (v : EnumValueDecl) : Walks (enumValueDecl True v) v.nodes :=
  .declaration (n := .enumValue v) (by simp)
    (.skip (.skip (.last (walks_compactOptions v.options)))) fun _ => id

theorem walks_enumElement (e : EnumElement) : Walks (enumElement True e) e.nodes := by
  cases e with
  | option o => exact walks_optionStatement o
  | value v => exact walks_enumValueDecl v
  | reserved r => exact walks_reservedDecl true r

/-- An enum stands in front of its elements. -/
theorem walks_enumDecl (e : EnumDecl) : Walks (enumDecl True e) e.nodes :=
  .declaration (n := .enum e) (by simp)
    (.skip (.skip (.last (.statements walks_enumElement e.elements)))) fun _ => id

/-! ## Messages -/

mutual

/-- The nodes of an element of a message lie in order, however deep it goes. -/
theorem walks_messageElement : ∀ e : MessageElement, Walks (messageElement True e) e.nodes
  | .member m => by
    rw [messageElement, MessageElement.nodes]
    exact walks_member messageWords m
  | .mapField f => by
    rw [messageElement, MessageElement.nodes]
    exact walks_mapFieldDecl f
  | .oneof o => by
    rw [messageElement, MessageElement.nodes]
    exact walks_oneofDecl o
  | .option o => by
    rw [messageElement, MessageElement.nodes]
    exact walks_optionStatement o
  | .extensionRange r => by
    rw [messageElement, MessageElement.nodes]
    exact walks_extensionRangeDecl r
  | .reserved r => by
    rw [messageElement, MessageElement.nodes]
    exact walks_reservedDecl false r
  | .message m => by
    rw [messageElement, MessageElement.nodes]
    exact walks_messageDecl m
  | .enum e => by
    rw [messageElement, MessageElement.nodes]
    exact walks_enumDecl e
  | .extension e => by
    rw [messageElement, MessageElement.nodes]
    exact walks_extensionDecl e

theorem walks_member (words : List String) : ∀ m : Member, Walks (member True words m) m.nodes
  | .field f => by
    rw [member, Member.nodes]
    exact walks_fieldDecl words f
  | .group g => by
    rw [member, Member.nodes]
    exact walks_groupDecl g

/-- The options of a group stand in front of its elements. -/
theorem walks_groupDecl : ∀ g : GroupDecl, Walks (groupDecl True g) g.nodes
  | ⟨c, x, number, options, elements, p⟩ => by
    rw [groupDecl, GroupDecl.nodes, groupTail, List.prod_cons, ← mul_assoc]
    apply Walks.node (n := .group ⟨c, x, number, options, elements, p⟩)
    · simp
    · exact .skip (.skip (.skip ((walks_compactOptions options).cons
        (.skip (.last (walks_messageStatements elements))))))
    · intro ts hts
      rwa [Node.rendering, groupDecl, groupTail, List.prod_cons, ← mul_assoc]

theorem walks_oneofElement : ∀ e : OneofElement, Walks (oneofElement True e) e.nodes
  | .option o => by
    rw [oneofElement, OneofElement.nodes]
    exact walks_optionStatement o
  | .member (.field f) => by
    rw [oneofElement, oneofMember, OneofElement.nodes, Member.nodes]
    exact (walks_fieldDecl oneofWords f).mono fun _ h => h.2
  | .member (.group g) => by
    rw [oneofElement, oneofMember, OneofElement.nodes, Member.nodes]
    exact (walks_groupDecl g).mono fun _ h => h.2

theorem walks_oneofDecl : ∀ o : OneofDecl, Walks (oneofDecl True o) o.nodes
  | ⟨x, elements, p⟩ => by
    rw [oneofDecl, OneofDecl.nodes]
    apply Walks.declaration (n := .oneof ⟨x, elements, p⟩) (by simp)
    · exact .skip (.skip (.last (walks_oneofElements elements)))
    · intro ts hts
      rwa [Node.rendering, oneofDecl]

theorem walks_messageDecl : ∀ m : MessageDecl, Walks (messageDecl True m) m.nodes
  | ⟨x, elements, p⟩ => by
    rw [messageDecl, MessageDecl.nodes]
    apply Walks.declaration (n := .message ⟨x, elements, p⟩) (by simp)
    · exact .skip (.skip (.last (walks_messageStatements elements)))
    · intro ts hts
      rwa [Node.rendering, messageDecl]

theorem walks_extensionDecl : ∀ e : ExtensionDecl, Walks (extensionDecl True e) e.nodes
  | ⟨x, elements, p⟩ => by
    rw [extensionDecl, ExtensionDecl.nodes]
    apply Walks.declaration (n := .extension ⟨x, elements, p⟩) (by simp)
    · exact .skip (.skip (.last (walks_members elements)))
    · intro ts hts
      rwa [Node.rendering, extensionDecl]

/-- The nodes of an element stand in front of those of the next one. -/
theorem walks_messageStatements :
    ∀ es : List MessageElement, Walks (messageStatements True es) (messageNodes es)
  | [] => .leaf _
  | e :: es => by
    rw [messageStatements, messageNodes]
    exact .skip ((walks_messageElement e).cons (.last (walks_messageStatements es)))

theorem walks_oneofElements :
    ∀ es : List OneofElement, Walks (oneofElements True es) (oneofNodes es)
  | [] => .leaf _
  | e :: es => by
    rw [oneofElements, oneofNodes]
    exact (walks_oneofElement e).mul (walks_oneofElements es)

theorem walks_members : ∀ ms : List Member, Walks (members True ms) (memberNodes ms)
  | [] => .leaf _
  | m :: ms => by
    rw [members, memberNodes]
    exact (walks_member extensionWords m).mul (walks_members ms)

end

/-! ## Services and schemas -/

/-- The options of a method stand in its body, if it has one. -/
theorem walks_methodEnd (os : List OptionStatement) :
    Walks (methodEnd True os) (os.flatMap OptionStatement.nodes) := by
  apply Walks.add
  · exact .skip (.last (.statements walks_optionStatement os))
  · cases os with
    | nil => exact .leaf _
    | cons o os => exact fun ts hts => absurd hts (Language.notMem_zero ts)

theorem walks_methodDecl (m : MethodDecl) : Walks (methodDecl True m) m.nodes :=
  .declaration (n := .method m) (by simp)
    (.skip (.skip (.skip (.skip (.last (walks_methodEnd m.options)))))) fun _ => id

theorem walks_serviceElement (e : ServiceElement) :
    Walks (serviceElement True e) e.nodes := by
  cases e with
  | option o => exact walks_optionStatement o
  | method m => exact walks_methodDecl m

theorem walks_serviceDecl (s : ServiceDecl) : Walks (serviceDecl True s) s.nodes :=
  .declaration (n := .service s) (by simp)
    (.skip (.skip (.last (.statements walks_serviceElement s.elements)))) fun _ => id

theorem walks_schemaElement (e : SchemaElement) : Walks (schemaElement True e) e.nodes := by
  cases e with
  | importing i => exact .single (n := .importing i) fun _ => id
  | package p => exact .single (n := .package p) fun _ => id
  | option o => exact walks_optionStatement o
  | message m => exact walks_messageDecl m
  | enum e => exact walks_enumDecl e
  | extension e => exact walks_extensionDecl e
  | service s => exact walks_serviceDecl s

/-- The nodes of a schema lie in order in its tokens, the level of the language first. -/
theorem walks_schema (f : Schema) : Walks (schema True f) f.nodes := by
  apply Walks.mul
  · cases f.level with
    | none => exact .leaf _
    | some d => exact .single (n := .syntaxDecl d) fun _ => id
  · exact .statements walks_schemaElement f.elements

end ProtoSchema.Rendering
