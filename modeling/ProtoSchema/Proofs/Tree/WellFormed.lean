import ProtoSchema.Proofs.Rendering.Declaration

/-!
# Well-formed trees

What the types of the trees leave open and the grammar does not: names that are no soft
keywords, numbers that are not negative, lists that are not empty, map keys of a scalar type,
and oneofs whose members have no cardinality. Every tree that can be written in tokens is well
formed.
-/
namespace ProtoSchema

/-! ## Options and ranges -/

/-- A name that a declaration may have. -/
def IsName (x : Text) : Prop := Token.isSoftKeyword x = false

/-- The name of an option has a part at least. -/
def OptionStatement.WellFormed (o : OptionStatement) : Prop := o.name ≠ []

/-- In brackets too, the name has a part at least. -/
def CompactOption.WellFormed (o : CompactOption) : Prop := o.name ≠ []

/-- Only enums have ranges with negative bounds. -/
def TagRange.WellFormed (negatives : Bool) (r : TagRange) : Prop :=
  negatives = false → 0 ≤ r.first ∧ ∀ n, r.last = some (.number n) → 0 ≤ n

/-- There is a range at least. -/
def TagRanges.WellFormed (negatives : Bool) (rs : List TagRange) : Prop :=
  rs ≠ [] ∧ ∀ r ∈ rs, r.WellFormed negatives

/-- Something is reserved: numbers or names. -/
def ReservedDecl.WellFormed (negatives : Bool) (r : ReservedDecl) : Prop :=
  match r.reserved with
  | .ranges rs => TagRanges.WellFormed negatives rs
  | .names xs => xs ≠ []

def ExtensionRangeDecl.WellFormed (r : ExtensionRangeDecl) : Prop :=
  TagRanges.WellFormed false r.ranges ∧ ∀ o ∈ r.options, o.WellFormed

/-! ## Fields and enums -/

/-- A field has a proper name and a number that is not negative. -/
def FieldDecl.WellFormed (f : FieldDecl) : Prop :=
  IsName f.name ∧ 0 ≤ f.number ∧ ∀ o ∈ f.options, o.WellFormed

/-- A map field has a proper name, a number that is not negative, and a scalar type for its
keys. -/
def MapFieldDecl.WellFormed (f : MapFieldDecl) : Prop :=
  isMapKeyType f.keyType ∧ IsName f.name ∧ 0 ≤ f.number ∧ ∀ o ∈ f.options, o.WellFormed

/-- The numbers of an enum may be negative. -/
def EnumElement.WellFormed : EnumElement → Prop
  | .option o => o.WellFormed
  | .value v => IsName v.name ∧ ∀ o ∈ v.options, o.WellFormed
  | .reserved r => r.WellFormed true

/-- An enum has a proper name. -/
def EnumDecl.WellFormed (e : EnumDecl) : Prop :=
  IsName e.name ∧ ∀ x ∈ e.elements, x.WellFormed

/-! ## Messages -/

/-- The cardinality of a member, if it has one. -/
def Member.cardinality : Member → Option Cardinality
  | .field f => f.cardinality
  | .group g => g.cardinality

mutual

/-- The ranges of a message may not be negative. -/
def MessageElement.WellFormed : MessageElement → Prop
  | .member m => m.WellFormed
  | .mapField f => f.WellFormed
  | .oneof o => o.WellFormed
  | .option o => o.WellFormed
  | .extensionRange r => r.WellFormed
  | .reserved r => r.WellFormed false
  | .message m => m.WellFormed
  | .enum e => e.WellFormed
  | .extension e => e.WellFormed

def Member.WellFormed : Member → Prop
  | .field f => f.WellFormed
  | .group g => g.WellFormed

/-- A group has a proper name and a number that is not negative. -/
def GroupDecl.WellFormed : GroupDecl → Prop
  | ⟨_, x, number, options, elements, _⟩ =>
    IsName x ∧ 0 ≤ number ∧ (∀ o ∈ options, o.WellFormed) ∧
      MessageElements.WellFormed elements

/-- The members of a oneof have no cardinality. -/
def OneofElement.WellFormed : OneofElement → Prop
  | .option o => o.WellFormed
  | .member m => m.cardinality = none ∧ m.WellFormed

def OneofDecl.WellFormed : OneofDecl → Prop
  | ⟨x, elements, _⟩ => IsName x ∧ OneofElements.WellFormed elements

/-- A message has a proper name. -/
def MessageDecl.WellFormed : MessageDecl → Prop
  | ⟨x, elements, _⟩ => IsName x ∧ MessageElements.WellFormed elements

def ExtensionDecl.WellFormed : ExtensionDecl → Prop
  | ⟨_, elements, _⟩ => Members.WellFormed elements

def MessageElements.WellFormed : List MessageElement → Prop
  | [] => True
  | e :: es => e.WellFormed ∧ MessageElements.WellFormed es

def OneofElements.WellFormed : List OneofElement → Prop
  | [] => True
  | e :: es => e.WellFormed ∧ OneofElements.WellFormed es

def Members.WellFormed : List Member → Prop
  | [] => True
  | m :: ms => m.WellFormed ∧ Members.WellFormed ms

end

/-! ## Services and schemas -/

def MethodDecl.WellFormed (m : MethodDecl) : Prop :=
  IsName m.name ∧ ∀ o ∈ m.options, o.WellFormed

def ServiceElement.WellFormed : ServiceElement → Prop
  | .option o => o.WellFormed
  | .method m => m.WellFormed

def ServiceDecl.WellFormed (s : ServiceDecl) : Prop :=
  IsName s.name ∧ ∀ x ∈ s.elements, x.WellFormed

/-- What imports and the package say is left to their types. -/
def SchemaElement.WellFormed : SchemaElement → Prop
  | .importing _ => True
  | .package _ => True
  | .option o => o.WellFormed
  | .message m => m.WellFormed
  | .enum e => e.WellFormed
  | .extension e => e.WellFormed
  | .service s => s.WellFormed

/-- All statements of the schema are well formed. -/
def Schema.WellFormed (s : Schema) : Prop := ∀ e ∈ s.elements, e.WellFormed

/-! ## What is written is well formed -/

namespace Rendering

variable {α : Type} {placed : Prop} {us : List Token}

/-- Something in a product is in each of its parts. -/
theorem exists_mem_of_prod {Ls : List (Language Token)} (h : us ∈ Ls.prod)
    {L : Language Token} (hL : L ∈ Ls) : ∃ vs, vs ∈ L := by
  induction Ls generalizing us with
  | nil => cases hL
  | cons K Ls ih =>
    obtain ⟨vs, hv, ws, hw, -⟩ := h
    rcases List.mem_cons.mp hL with rfl | hL
    · exact ⟨vs, hv⟩
    · exact ih hw hL

/-- What is written with separators is one element at least, and each is written somewhere. -/
theorem exists_mem_of_separated {separator : TokenKind} {E : α → Language Token} {as : List α}
    (h : us ∈ separated separator E as) : as ≠ [] ∧ ∀ a ∈ as, ∃ vs, vs ∈ E a := by
  cases as with
  | nil => cases h
  | cons a as =>
    obtain ⟨vs, hv, ws, hw, -⟩ := h
    refine ⟨nofun, fun b hb => ?_⟩
    rcases List.mem_cons.mp hb with rfl | hb
    · exact ⟨vs, hv⟩
    · obtain ⟨_, _, -, vs, hv, -⟩ := exists_mem_of_prod hw (List.mem_map_of_mem hb)
      exact ⟨vs, hv⟩

/-- Each of several statements is written somewhere. -/
theorem exists_mem_of_statements {E : α → Language Token} {as : List α}
    (h : us ∈ statements E as) : ∀ a ∈ as, ∃ vs, vs ∈ E a := by
  induction as generalizing us with
  | nil => nofun
  | cons a as ih =>
    intro b hb
    rcases List.mem_cons.mp hb with rfl | hb
    · exact exists_mem_of_prod h (by simp)
    · obtain ⟨vs, hv⟩ := exists_mem_of_prod h (show statements E as ∈ _ by simp)
      exact ih hv b hb

/-- A declaration with its name in it has a proper name. -/
theorem isName_of_prod {Ls : List (Language Token)} (h : us ∈ Ls.prod) {x : Text}
    (hx : name x ∈ Ls) : IsName x :=
  (exists_mem_of_prod h hx).choose_spec.1

/-- A number without a sign is not negative. -/
theorem nonneg_of_prod {Ls : List (Language Token)} (h : us ∈ Ls.prod) {m : ℤ}
    (hm : unsigned m ∈ Ls) : 0 ≤ m :=
  (exists_mem_of_prod h hm).choose_spec.1

/-- The name of an option that is written has a part. -/
theorem optionStatement_wellFormed {o : OptionStatement} (h : us ∈ optionStatement placed o) :
    o.WellFormed := by
  obtain ⟨vs, hv⟩ := exists_mem_of_prod h.1 (show optionName placed o.name ∈ _ by simp)
  exact (exists_mem_of_separated hv).1

theorem compactOptions_wellFormed {os : List CompactOption}
    (h : us ∈ compactOptions placed os) : ∀ o ∈ os, o.WellFormed := by
  cases os with
  | nil => nofun
  | cons o os =>
    obtain ⟨vs, hv⟩ := exists_mem_of_prod h
      (show separated .comma (compactOption placed) (o :: os) ∈ _ by simp)
    intro p hp
    obtain ⟨ws, hw⟩ := (exists_mem_of_separated hv).2 p hp
    obtain ⟨vs, hv⟩ := exists_mem_of_prod hw.1 (show optionName placed p.name ∈ _ by simp)
    exact (exists_mem_of_separated hv).1

theorem compactOptions_wellFormed_of_prod (placed : Prop) {Ls : List (Language Token)}
    (h : us ∈ Ls.prod) {os : List CompactOption} (hos : compactOptions placed os ∈ Ls) :
    ∀ o ∈ os, o.WellFormed :=
  compactOptions_wellFormed (exists_mem_of_prod h hos).choose_spec

/-- Outside of enums no bound is written with a sign. -/
theorem tagRange_wellFormed {negatives : Bool} {r : TagRange}
    (h : us ∈ tagRange placed negatives r) : r.WellFormed negatives := by
  rintro rfl
  obtain ⟨⟨vs, hv, ws, hw, -⟩, -⟩ := h
  refine ⟨hv.1, fun m hm => ?_⟩
  rw [hm] at hw
  obtain ⟨_, -, _, hw, -⟩ := hw
  exact hw.1

theorem tagRanges_wellFormed {negatives : Bool} {rs : List TagRange}
    (h : us ∈ tagRanges placed negatives rs) : TagRanges.WellFormed negatives rs := by
  obtain ⟨hne, hrs⟩ := exists_mem_of_separated h
  exact ⟨hne, fun r hr => tagRange_wellFormed (hrs r hr).choose_spec⟩

/-- What is written is at least one range or one name. -/
theorem reservedDecl_wellFormed {negatives : Bool} {r : ReservedDecl}
    (h : us ∈ reservedDecl placed negatives r) : r.WellFormed negatives := by
  obtain ⟨vs, hv⟩ :=
    exists_mem_of_prod h.1 (show reserved placed negatives r.reserved ∈ _ by simp)
  unfold ReservedDecl.WellFormed
  cases hr : r.reserved with
  | ranges rs => exact tagRanges_wellFormed (hr ▸ hv)
  | names xs => exact (exists_mem_of_separated (E := strings) (hr ▸ hv)).1

theorem extensionRangeDecl_wellFormed {r : ExtensionRangeDecl}
    (h : us ∈ extensionRangeDecl placed r) : r.WellFormed := by
  obtain ⟨vs, hv⟩ := exists_mem_of_prod h.1 (show tagRanges placed false r.ranges ∈ _ by simp)
  exact ⟨tagRanges_wellFormed hv, compactOptions_wellFormed_of_prod placed h.1 (by simp)⟩

theorem fieldDecl_wellFormed {words : List String} {f : FieldDecl}
    (h : us ∈ fieldDecl placed words f) : f.WellFormed := by
  have tail : ∃ vs, vs ∈ fieldTail placed f := by
    obtain ⟨h, -⟩ := h
    unfold fieldBody at h
    split at h
    · exact ⟨us, h.1⟩
    · obtain ⟨_, -, vs, hv, -⟩ := h
      exact ⟨vs, hv.1⟩
  obtain ⟨vs, hv⟩ := tail
  exact ⟨isName_of_prod hv (by simp), nonneg_of_prod hv (by simp),
    compactOptions_wellFormed_of_prod placed hv (by simp)⟩

theorem mapFieldDecl_wellFormed {f : MapFieldDecl} (h : us ∈ mapFieldDecl placed f) :
    f.WellFormed := by
  obtain ⟨vs, hv⟩ := exists_mem_of_prod h.1 (show mapKeyType f.keyType ∈ _ by simp)
  exact ⟨hv.1, isName_of_prod h.1 (by simp), nonneg_of_prod h.1 (by simp),
    compactOptions_wellFormed_of_prod placed h.1 (by simp)⟩

theorem enumElement_wellFormed {e : EnumElement} (h : us ∈ enumElement placed e) :
    e.WellFormed := by
  cases e with
  | option o => exact optionStatement_wellFormed h
  | value v =>
    exact ⟨isName_of_prod h.1 (by simp),
      compactOptions_wellFormed_of_prod placed h.1 (by simp)⟩
  | reserved r => exact reservedDecl_wellFormed h

theorem enumDecl_wellFormed {e : EnumDecl} (h : us ∈ enumDecl placed e) : e.WellFormed := by
  obtain ⟨vs, hv⟩ := exists_mem_of_prod h.1
    (show statements (enumElement placed) e.elements ∈ _ by simp)
  exact ⟨isName_of_prod h.1 (by simp), fun x hx =>
    enumElement_wellFormed (exists_mem_of_statements hv x hx).choose_spec⟩

/-! The trees of messages hold each other, so this is one induction with a case for each
kind. -/

mutual

/-- An element of a message that can be written is well formed, and so is all that it
holds. -/
theorem messageElement_wellFormed {us : List Token} :
    ∀ {e : MessageElement}, us ∈ messageElement placed e → e.WellFormed
  | .member m, h => by
    rw [messageElement] at h
    exact member_wellFormed h
  | .mapField f, h => mapFieldDecl_wellFormed (by rwa [messageElement] at h)
  | .oneof o, h => by
    rw [messageElement] at h
    exact oneofDecl_wellFormed h
  | .option o, h => optionStatement_wellFormed (by rwa [messageElement] at h)
  | .extensionRange r, h => extensionRangeDecl_wellFormed (by rwa [messageElement] at h)
  | .reserved r, h => reservedDecl_wellFormed (by rwa [messageElement] at h)
  | .message m, h => by
    rw [messageElement] at h
    exact messageDecl_wellFormed h
  | .enum e, h => enumDecl_wellFormed (by rwa [messageElement] at h)
  | .extension e, h => by
    rw [messageElement] at h
    exact extensionDecl_wellFormed h

theorem member_wellFormed {words : List String} {us : List Token} :
    ∀ {m : Member}, us ∈ member placed words m → m.WellFormed
  | .field f, h => fieldDecl_wellFormed (by rwa [member] at h)
  | .group g, h => by
    rw [member] at h
    exact groupDecl_wellFormed h

theorem groupDecl_wellFormed {us : List Token} :
    ∀ {g : GroupDecl}, us ∈ groupDecl placed g → g.WellFormed
  | ⟨_, x, number, options, elements, _⟩, h => by
    rw [groupDecl] at h
    obtain ⟨⟨_, -, vs, hv, -⟩, -⟩ := h
    obtain ⟨ws, hw⟩ :=
      exists_mem_of_prod hv (show messageStatements placed elements ∈ _ by simp)
    exact ⟨isName_of_prod hv (by simp), nonneg_of_prod hv (by simp),
      compactOptions_wellFormed_of_prod placed hv (by simp), messageElements_wellFormed hw⟩

/-- A member of a oneof is written without a cardinality. -/
theorem oneofElement_wellFormed {us : List Token} :
    ∀ {e : OneofElement}, us ∈ oneofElement placed e → e.WellFormed
  | .option o, h => optionStatement_wellFormed (by rwa [oneofElement] at h)
  | .member (.field f), h => by
    rw [oneofElement, oneofMember] at h
    exact ⟨h.1, fieldDecl_wellFormed h.2⟩
  | .member (.group g), h => by
    rw [oneofElement, oneofMember] at h
    exact ⟨h.1, groupDecl_wellFormed h.2⟩

theorem oneofDecl_wellFormed {us : List Token} :
    ∀ {o : OneofDecl}, us ∈ oneofDecl placed o → o.WellFormed
  | ⟨x, elements, _⟩, h => by
    rw [oneofDecl] at h
    obtain ⟨vs, hv⟩ := exists_mem_of_prod h.1 (show oneofElements placed elements ∈ _ by simp)
    exact ⟨isName_of_prod h.1 (by simp), oneofElements_wellFormed hv⟩

theorem messageDecl_wellFormed {us : List Token} :
    ∀ {m : MessageDecl}, us ∈ messageDecl placed m → m.WellFormed
  | ⟨x, elements, _⟩, h => by
    rw [messageDecl] at h
    obtain ⟨vs, hv⟩ :=
      exists_mem_of_prod h.1 (show messageStatements placed elements ∈ _ by simp)
    exact ⟨isName_of_prod h.1 (by simp), messageElements_wellFormed hv⟩

theorem extensionDecl_wellFormed {us : List Token} :
    ∀ {e : ExtensionDecl}, us ∈ extensionDecl placed e → e.WellFormed
  | ⟨extendee, elements, _⟩, h => by
    rw [extensionDecl] at h
    obtain ⟨vs, hv⟩ := exists_mem_of_prod h.1 (show members placed elements ∈ _ by simp)
    exact members_wellFormed hv

theorem messageElements_wellFormed {us : List Token} :
    ∀ {es : List MessageElement}, us ∈ messageStatements placed es →
    MessageElements.WellFormed es
  | [], _ => trivial
  | e :: es, h => by
    rw [messageStatements] at h
    obtain ⟨_, -, _, ⟨vs, hv, _, ⟨ws, hw, -⟩, -⟩, -⟩ := h
    exact ⟨messageElement_wellFormed hv, messageElements_wellFormed hw⟩

theorem oneofElements_wellFormed {us : List Token} :
    ∀ {es : List OneofElement}, us ∈ oneofElements placed es → OneofElements.WellFormed es
  | [], _ => trivial
  | e :: es, h => by
    rw [oneofElements] at h
    obtain ⟨vs, hv, ws, hw, -⟩ := h
    exact ⟨oneofElement_wellFormed hv, oneofElements_wellFormed hw⟩

theorem members_wellFormed {us : List Token} :
    ∀ {ms : List Member}, us ∈ members placed ms → Members.WellFormed ms
  | [], _ => trivial
  | m :: ms, h => by
    rw [members] at h
    obtain ⟨vs, hv, ws, hw, -⟩ := h
    exact ⟨member_wellFormed hv, members_wellFormed hw⟩

end

theorem methodDecl_wellFormed {m : MethodDecl} (h : us ∈ methodDecl placed m) :
    m.WellFormed := by
  refine ⟨isName_of_prod h.1 (by simp), ?_⟩
  obtain ⟨vs, hv⟩ := exists_mem_of_prod h.1 (show methodEnd placed m.options ∈ _ by simp)
  rcases hv with hv | hv
  · obtain ⟨ws, hw⟩ := exists_mem_of_prod hv
      (show statements (optionStatement placed) m.options ∈ _ by simp)
    exact fun o ho =>
      optionStatement_wellFormed (exists_mem_of_statements hw o ho).choose_spec
  · cases ho : m.options with
    | nil => nofun
    | cons o os =>
      rw [ho] at hv
      cases hv

theorem serviceElement_wellFormed {e : ServiceElement} (h : us ∈ serviceElement placed e) :
    e.WellFormed := by
  cases e with
  | option o => exact optionStatement_wellFormed h
  | method m => exact methodDecl_wellFormed h

theorem serviceDecl_wellFormed {s : ServiceDecl} (h : us ∈ serviceDecl placed s) :
    s.WellFormed := by
  obtain ⟨vs, hv⟩ := exists_mem_of_prod h.1
    (show statements (serviceElement placed) s.elements ∈ _ by simp)
  exact ⟨isName_of_prod h.1 (by simp), fun x hx =>
    serviceElement_wellFormed (exists_mem_of_statements hv x hx).choose_spec⟩

theorem schemaElement_wellFormed {e : SchemaElement} (h : us ∈ schemaElement placed e) :
    e.WellFormed := by
  cases e with
  | importing i => trivial
  | package p => trivial
  | option o => exact optionStatement_wellFormed h
  | message m => exact messageDecl_wellFormed h
  | enum e => exact enumDecl_wellFormed h
  | extension e => exact extensionDecl_wellFormed h
  | service s => exact serviceDecl_wellFormed h

/-- What can be written in tokens is well formed. -/
theorem schema_wellFormed {s : Schema} (h : us ∈ schema placed s) : s.WellFormed := by
  obtain ⟨_, -, vs, hv, -⟩ := h
  exact fun e he => schemaElement_wellFormed (exists_mem_of_statements hv e he).choose_spec

end Rendering

end ProtoSchema
