import ProtoSchema.Proofs.Document.Declaration

/-!
# Documents of messages

Messages, groups, oneofs and extensions hold each other, so each of the three facts about
their documents is one induction with a case for each kind of node.
-/
namespace ProtoSchema

open Document
open Position (nowhere)

variable {positions : Bool}

/-! ## The order of keys -/

mutual

/-- The keys of the document of an element of a message follow the common order, and so do
those of all documents in it. -/
theorem MessageElement.ordered : ∀ e : MessageElement, (e.toDocument positions).Ordered
  | .member m => by
    rw [MessageElement.toDocument]
    exact Member.ordered m
  | .mapField f => by
    rw [MessageElement.toDocument]
    exact f.ordered
  | .oneof o => by
    rw [MessageElement.toDocument]
    exact OneofDecl.ordered o
  | .option o => by
    rw [MessageElement.toDocument]
    exact o.ordered
  | .extensionRange r => by
    rw [MessageElement.toDocument]
    exact r.ordered
  | .reserved r => by
    rw [MessageElement.toDocument]
    exact r.ordered
  | .message m => by
    rw [MessageElement.toDocument]
    exact MessageDecl.ordered m
  | .enum e => by
    rw [MessageElement.toDocument]
    exact e.ordered
  | .extension e => by
    rw [MessageElement.toDocument]
    exact ExtensionDecl.ordered e

theorem Member.ordered : ∀ m : Member, (m.toDocument positions).Ordered
  | .field f => by
    rw [Member.toDocument]
    exact f.ordered
  | .group g => by
    rw [Member.toDocument]
    exact GroupDecl.ordered g

theorem GroupDecl.ordered : ∀ g : GroupDecl, (g.toDocument positions).Ordered
  | ⟨_, _, _, _, es, _⟩ => by
    rw [GroupDecl.toDocument]
    exact node_ordered rfl (by simpa using messageElementDocuments_ordered es) _

theorem OneofElement.ordered : ∀ e : OneofElement, (e.toDocument positions).Ordered
  | .option o => by
    rw [OneofElement.toDocument]
    exact o.ordered
  | .member m => by
    rw [OneofElement.toDocument]
    exact Member.ordered m

theorem OneofDecl.ordered : ∀ o : OneofDecl, (o.toDocument positions).Ordered
  | ⟨_, es, _⟩ => by
    rw [OneofDecl.toDocument]
    exact node_ordered rfl (by simpa using oneofElementDocuments_ordered es) _

theorem MessageDecl.ordered : ∀ m : MessageDecl, (m.toDocument positions).Ordered
  | ⟨_, es, _⟩ => by
    rw [MessageDecl.toDocument]
    exact node_ordered rfl (by simpa using messageElementDocuments_ordered es) _

theorem ExtensionDecl.ordered : ∀ e : ExtensionDecl, (e.toDocument positions).Ordered
  | ⟨_, ms, _⟩ => by
    rw [ExtensionDecl.toDocument]
    exact node_ordered rfl (by simpa using memberDocuments_ordered ms) _

theorem messageElementDocuments_ordered :
    ∀ es : List MessageElement, ∀ d ∈ messageElementDocuments positions es, d.Ordered
  | [] => by simp [messageElementDocuments]
  | e :: es => by
    simpa [messageElementDocuments] using
      ⟨MessageElement.ordered e, messageElementDocuments_ordered es⟩

theorem oneofElementDocuments_ordered :
    ∀ es : List OneofElement, ∀ d ∈ oneofElementDocuments positions es, d.Ordered
  | [] => by simp [oneofElementDocuments]
  | e :: es => by
    simpa [oneofElementDocuments] using
      ⟨OneofElement.ordered e, oneofElementDocuments_ordered es⟩

theorem memberDocuments_ordered : ∀ ms : List Member,
    ∀ d ∈ memberDocuments positions ms, d.Ordered
  | [] => by simp [memberDocuments]
  | m :: ms => by simpa [memberDocuments] using ⟨Member.ordered m, memberDocuments_ordered ms⟩

end

/-! ## Kinds -/

theorem OneofDecl.isNode (o : OneofDecl) : IsNode .oneof (o.toDocument positions) := by
  obtain ⟨x, es, p⟩ := o
  rw [OneofDecl.toDocument]
  exact isNode_node .oneof _ _

theorem MessageDecl.isNode (m : MessageDecl) : IsNode .message (m.toDocument positions) := by
  obtain ⟨x, es, p⟩ := m
  rw [MessageDecl.toDocument]
  exact isNode_node .message _ _

theorem ExtensionDecl.isNode (e : ExtensionDecl) :
    IsNode .extension (e.toDocument positions) := by
  obtain ⟨x, ms, p⟩ := e
  rw [ExtensionDecl.toDocument]
  exact isNode_node .extension _ _

/-- What kind of node a member is. -/
def Member.kind : Member → NodeKind
  | .field _ => .field
  | .group _ => .group

/-- The document of a member is one of a node of its kind. -/
theorem Member.isNode (m : Member) : IsNode m.kind (m.toDocument positions) := by
  cases m <;> rw [Member.toDocument]
  case field f => exact isNode_node .field _ _
  case group g =>
    obtain ⟨c, x, m, os, es, p⟩ := g
    rw [GroupDecl.toDocument]
    exact isNode_node .group _ _

/-- Fields and groups are members, which stand in the same places. -/
def NodeKind.family : NodeKind → NodeKind
  | .group => .field
  | kind => kind

/-- Is it the document of a node of the family? -/
def Document.InFamily (family : NodeKind) (d : Document) : Prop :=
  ∃ kind : NodeKind, kind.family = family ∧ IsNode kind d

/-- A node of a kind is a node of the family of that kind. -/
theorem Document.IsNode.inFamily {kind : NodeKind} {d : Document} (h : IsNode kind d) :
    InFamily kind.family d :=
  ⟨kind, rfl, h⟩

/-- No document is that of nodes of two families. -/
theorem Document.InFamily.family_eq {k k' : NodeKind} {d : Document} (h : InFamily k d)
    (h' : InFamily k' d) : k = k' := by
  obtain ⟨kind, rfl, node⟩ := h
  obtain ⟨kind', rfl, node'⟩ := h'
  rw [node.kind_eq node']

theorem Member.inFamily (m : Member) : InFamily .field (m.toDocument positions) := by
  have family : m.kind.family = .field := by cases m <;> rfl
  exact ⟨m.kind, family, m.isNode⟩

/-- What family of nodes an element of a oneof belongs to. -/
def OneofElement.family : OneofElement → NodeKind
  | .option _ => .option
  | .member _ => .field

/-- The document of an element of a oneof is one of its family. -/
theorem OneofElement.inFamily (e : OneofElement) :
    InFamily e.family (e.toDocument positions) := by
  cases e <;> rw [OneofElement.toDocument]
  case option o => exact (isNode_node .option _ _).inFamily
  case member m => exact m.inFamily

/-- What family of nodes an element of a message belongs to. -/
def MessageElement.family : MessageElement → NodeKind
  | .member _ => .field
  | .mapField _ => .mapField
  | .oneof _ => .oneof
  | .option _ => .option
  | .extensionRange _ => .extensionRange
  | .reserved _ => .reserved
  | .message _ => .message
  | .enum _ => .enum
  | .extension _ => .extension

/-- The document of an element of a message is one of its family. -/
theorem MessageElement.inFamily (e : MessageElement) :
    InFamily e.family (e.toDocument positions) := by
  cases e <;> rw [MessageElement.toDocument]
  case member m => exact m.inFamily
  case mapField f => exact (isNode_node .mapField _ _).inFamily
  case oneof o => exact o.isNode.inFamily
  case option o => exact (isNode_node .option _ _).inFamily
  case extensionRange r => exact (isNode_node .extensionRange _ _).inFamily
  case reserved r => exact (isNode_node .reserved _ _).inFamily
  case message m => exact m.isNode.inFamily
  case enum e => exact (isNode_node .enum _ _).inFamily
  case extension e => exact e.isNode.inFamily

/-! ## What the documents determine -/

mutual

/-- Elements of a message that are of one family can be told from their documents. -/
theorem MessageElement.toDocument_inj : ∀ {e e' : MessageElement}, e.family = e'.family →
    e.WellFormed → e'.WellFormed → e.toDocument true = e'.toDocument true → e = e'
  | .member m, .member m', _, he, he', h => by
    rw [MessageElement.toDocument, MessageElement.toDocument] at h
    rw [Member.toDocument_inj (m.isNode.kind_eq (h ▸ m'.isNode)) he he' h]
  | .mapField f, .mapField f', _, _, _, h => by
    rw [MessageElement.toDocument, MessageElement.toDocument] at h
    rw [MapFieldDecl.toDocument_injective h]
  | .oneof o, .oneof o', _, he, he', h => by
    rw [MessageElement.toDocument, MessageElement.toDocument] at h
    rw [OneofDecl.toDocument_inj he he' h]
  | .option o, .option o', _, _, _, h => by
    rw [MessageElement.toDocument, MessageElement.toDocument] at h
    rw [OptionStatement.toDocument_injective h]
  | .extensionRange r, .extensionRange r', _, _, _, h => by
    rw [MessageElement.toDocument, MessageElement.toDocument] at h
    rw [ExtensionRangeDecl.toDocument_injective h]
  | .reserved r, .reserved r', _, he, he', h => by
    rw [MessageElement.toDocument, MessageElement.toDocument] at h
    rw [ReservedDecl.toDocument_inj he he' h]
  | .message m, .message m', _, he, he', h => by
    rw [MessageElement.toDocument, MessageElement.toDocument] at h
    rw [MessageDecl.toDocument_inj he he' h]
  | .enum e, .enum e', _, he, he', h => by
    rw [MessageElement.toDocument, MessageElement.toDocument] at h
    rw [EnumDecl.toDocument_inj he he' h]
  | .extension e, .extension e', _, he, he', h => by
    rw [MessageElement.toDocument, MessageElement.toDocument] at h
    rw [ExtensionDecl.toDocument_inj he he' h]

/-- Members of one kind can be told from their documents. -/
theorem Member.toDocument_inj : ∀ {m m' : Member}, m.kind = m'.kind →
    m.WellFormed → m'.WellFormed → m.toDocument true = m'.toDocument true → m = m'
  | .field f, .field f', _, _, _, h => by
    rw [Member.toDocument, Member.toDocument] at h
    rw [FieldDecl.toDocument_injective h]
  | .group g, .group g', _, hm, hm', h => by
    rw [Member.toDocument, Member.toDocument] at h
    rw [GroupDecl.toDocument_inj hm hm' h]

theorem GroupDecl.toDocument_inj : ∀ {g g' : GroupDecl}, g.WellFormed → g'.WellFormed →
    g.toDocument true = g'.toDocument true → g = g'
  | ⟨c, x, m, os, es, p⟩, ⟨c', x', m', os', es', p'⟩, hg, hg', h => by
    simp only [GroupDecl.toDocument, node_inj] at h
    obtain ⟨-, hparts, rfl⟩ := h
    obtain ⟨rfl, rfl, rfl, rfl, elements⟩ : c = c' ∧ x = x' ∧ m = m' ∧ os = os' ∧
        messageElementDocuments true es = messageElementDocuments true es' := by
        simpa using hparts
    rw [messageElementDocuments_inj hg.2.2.2 hg'.2.2.2 elements]

theorem OneofElement.toDocument_inj : ∀ {e e' : OneofElement}, e.family = e'.family →
    e.WellFormed → e'.WellFormed → e.toDocument true = e'.toDocument true → e = e'
  | .option o, .option o', _, _, _, h => by
    rw [OneofElement.toDocument, OneofElement.toDocument] at h
    rw [OptionStatement.toDocument_injective h]
  | .member m, .member m', _, he, he', h => by
    rw [OneofElement.toDocument, OneofElement.toDocument] at h
    rw [Member.toDocument_inj (m.isNode.kind_eq (h ▸ m'.isNode)) he.2 he'.2 h]

theorem OneofDecl.toDocument_inj : ∀ {o o' : OneofDecl}, o.WellFormed → o'.WellFormed →
    o.toDocument true = o'.toDocument true → o = o'
  | ⟨x, es, p⟩, ⟨x', es', p'⟩, ho, ho', h => by
    simp only [OneofDecl.toDocument, node_inj] at h
    obtain ⟨-, hparts, rfl⟩ := h
    obtain ⟨rfl, elements⟩ : x = x' ∧
        oneofElementDocuments true es = oneofElementDocuments true es' := by
        simpa using hparts
    rw [oneofElementDocuments_inj ho.2 ho'.2 elements]

/-- A message can be told from its document, with all that it holds. -/
theorem MessageDecl.toDocument_inj : ∀ {m m' : MessageDecl}, m.WellFormed → m'.WellFormed →
    m.toDocument true = m'.toDocument true → m = m'
  | ⟨x, es, p⟩, ⟨x', es', p'⟩, hm, hm', h => by
    simp only [MessageDecl.toDocument, node_inj] at h
    obtain ⟨-, hparts, rfl⟩ := h
    obtain ⟨rfl, elements⟩ : x = x' ∧
        messageElementDocuments true es = messageElementDocuments true es' := by
        simpa using hparts
    rw [messageElementDocuments_inj hm.2 hm'.2 elements]

theorem ExtensionDecl.toDocument_inj : ∀ {e e' : ExtensionDecl}, e.WellFormed →
    e'.WellFormed →
    e.toDocument true = e'.toDocument true → e = e'
  | ⟨x, ms, p⟩, ⟨x', ms', p'⟩, he, he', h => by
    simp only [ExtensionDecl.toDocument, node_inj] at h
    obtain ⟨-, hparts, rfl⟩ := h
    obtain ⟨rfl, members⟩ : x = x' ∧ memberDocuments true ms = memberDocuments true ms' := by
      simpa using hparts
    rw [memberDocuments_inj he he' members]

/-- Elements that have the same documents, one for one, are the same: their families can be
told from these. -/
theorem messageElementDocuments_inj : ∀ {es es' : List MessageElement},
    MessageElements.WellFormed es → MessageElements.WellFormed es' →
    messageElementDocuments true es = messageElementDocuments true es' → es = es'
  | [], [], _, _, _ => rfl
  | e :: es, e' :: es', hes, hes', h => by
    obtain ⟨first, rest⟩ := List.cons.inj h
    rw [MessageElement.toDocument_inj (e.inFamily.family_eq (first ▸ e'.inFamily))
      hes.1 hes'.1 first,
      messageElementDocuments_inj hes.2 hes'.2 rest]

theorem oneofElementDocuments_inj : ∀ {es es' : List OneofElement},
    OneofElements.WellFormed es → OneofElements.WellFormed es' →
    oneofElementDocuments true es = oneofElementDocuments true es' → es = es'
  | [], [], _, _, _ => rfl
  | e :: es, e' :: es', hes, hes', h => by
    obtain ⟨first, rest⟩ := List.cons.inj h
    rw [OneofElement.toDocument_inj (e.inFamily.family_eq (first ▸ e'.inFamily))
      hes.1 hes'.1 first,
      oneofElementDocuments_inj hes.2 hes'.2 rest]

theorem memberDocuments_inj : ∀ {ms ms' : List Member},
    Members.WellFormed ms → Members.WellFormed ms' →
    memberDocuments true ms = memberDocuments true ms' → ms = ms'
  | [], [], _, _, _ => rfl
  | m :: ms, m' :: ms', hms, hms', h => by
    obtain ⟨first, rest⟩ := List.cons.inj h
    rw [Member.toDocument_inj (m.isNode.kind_eq (first ▸ m'.isNode)) hms.1 hms'.1 first,
      memberDocuments_inj hms.2 hms'.2 rest]

end

/-! ## Places -/

mutual

/-- Without positions, the document is that of the unplaced element less its places. -/
theorem MessageElement.placed : ∀ e : MessageElement,
    (e.relocate nowhere).toDocument true = (e.toDocument false).placed
  | .member m => by simp [MessageElement.relocate, MessageElement.toDocument, Member.placed m]
  | .mapField f => by simp [MessageElement.relocate, MessageElement.toDocument, f.placed]
  | .oneof o => by simp [MessageElement.relocate, MessageElement.toDocument,
    OneofDecl.placed o]
  | .option o => by simp [MessageElement.relocate, MessageElement.toDocument, o.placed]
  | .extensionRange
    r => by simp [MessageElement.relocate, MessageElement.toDocument, r.placed]
  | .reserved r => by simp [MessageElement.relocate, MessageElement.toDocument, r.placed]
  | .message m => by simp [MessageElement.relocate, MessageElement.toDocument,
    MessageDecl.placed m]
  | .enum e => by simp [MessageElement.relocate, MessageElement.toDocument, e.placed]
  | .extension e => by
    simp [MessageElement.relocate, MessageElement.toDocument, ExtensionDecl.placed e]

theorem Member.placed : ∀ m : Member,
    (m.relocate nowhere).toDocument true = (m.toDocument false).placed
  | .field f => by simp [Member.relocate, Member.toDocument, f.placed]
  | .group g => by simp [Member.relocate, Member.toDocument, GroupDecl.placed g]

theorem GroupDecl.placed : ∀ g : GroupDecl,
    (g.relocate nowhere).toDocument true = (g.toDocument false).placed
  | ⟨_, _, _, _, es, _⟩ => by
    simp [GroupDecl.relocate, GroupDecl.toDocument, nowhere,
      messageElementDocuments_placed es]

theorem OneofElement.placed : ∀ e : OneofElement,
    (e.relocate nowhere).toDocument true = (e.toDocument false).placed
  | .option o => by simp [OneofElement.relocate, OneofElement.toDocument, o.placed]
  | .member m => by simp [OneofElement.relocate, OneofElement.toDocument, Member.placed m]

theorem OneofDecl.placed : ∀ o : OneofDecl,
    (o.relocate nowhere).toDocument true = (o.toDocument false).placed
  | ⟨_, es, _⟩ => by
    simp [OneofDecl.relocate, OneofDecl.toDocument, nowhere, oneofElementDocuments_placed es]

theorem MessageDecl.placed : ∀ m : MessageDecl,
    (m.relocate nowhere).toDocument true = (m.toDocument false).placed
  | ⟨_, es, _⟩ => by
    simp [MessageDecl.relocate, MessageDecl.toDocument, nowhere,
      messageElementDocuments_placed es]

theorem ExtensionDecl.placed : ∀ e : ExtensionDecl,
    (e.relocate nowhere).toDocument true = (e.toDocument false).placed
  | ⟨_, ms, _⟩ => by
    simp [ExtensionDecl.relocate, ExtensionDecl.toDocument, nowhere,
      memberDocuments_placed ms]

/-- Lists are placed element by element. -/
theorem messageElementDocuments_placed : ∀ es : List MessageElement,
    messageElementDocuments true (es.map (·.relocate nowhere)) =
      (messageElementDocuments false es).map Document.placed
  | [] => by simp [messageElementDocuments]
  | e :: es => by
    simp [messageElementDocuments, MessageElement.placed e, messageElementDocuments_placed es]

theorem oneofElementDocuments_placed : ∀ es : List OneofElement,
    oneofElementDocuments true (es.map (·.relocate nowhere)) =
      (oneofElementDocuments false es).map Document.placed
  | [] => by simp [oneofElementDocuments]
  | e :: es => by
    simp [oneofElementDocuments, OneofElement.placed e, oneofElementDocuments_placed es]

theorem memberDocuments_placed : ∀ ms : List Member,
    memberDocuments true (ms.map (·.relocate nowhere)) =
      (memberDocuments false ms).map Document.placed
  | [] => by simp [memberDocuments]
  | m :: ms => by simp [memberDocuments, Member.placed m, memberDocuments_placed ms]

end

end ProtoSchema
