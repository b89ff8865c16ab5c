import ProtoSchema.Proofs.Taking.Declaration

/-!
# Taking messages

The productions for messages, groups, oneofs and extensions take every rendering of what they
read, and yield it up to positions. They are given a production for an element of a message.
-/
namespace ProtoSchema.Grammar

open Parse Rendering Position

variable {placed : Prop} {n : ℕ} {ts rest : List Token}

/-! ## What elements start with -/

/-- The name of a type starts with an identifier, or with a dot. -/
theorem starts_typeName {x : Text} (h : ts ∈ Rendering.typeName x) :
    Starts (·.kind ∈ elementKinds) ts := by
  rcases h with h | ⟨y, -, _, ⟨t, ht, rfl⟩, us, -, rfl⟩
  · exact (starts_qualified h).mono fun t ht => by simp [elementKinds, ht]
  · exact starts_cons.mpr (by simp [elementKinds, ht])

/-- What starts no other declaration than a field. -/
theorem starts_notStarting {words : List String} {f : FieldDecl}
    (h : ts ∈ notStarting words (fieldTail placed f)) :
    Starts (fun t => t.kind ∈ elementKinds ∧ ∀ w ∈ words, ¬t.IsWord w) ts := by
  obtain ⟨⟨us, hu, vs, -, rfl⟩, hwords⟩ := h
  obtain ⟨t, us, rfl, ht⟩ := starts_typeName hu
  exact starts_cons.mpr ⟨ht, fun w hw h => hwords t rfl h.1 w hw h.2⟩

/-- A field starts with its type, or with a word for its cardinality. -/
theorem fieldDecl_cases {words : List String} {f : FieldDecl}
    (h : ts ∈ Rendering.fieldDecl placed words f) :
    ts ∈ notStarting words (fieldTail placed f) ∨
      ∃ w ∈ extensionWords, Starts (Token.IsWord w) ts := by
  obtain ⟨h, -⟩ := h
  unfold fieldBody at h
  split at h
  · exact .inl h
  · rename_i c _
    obtain ⟨_, ⟨t, ht, rfl⟩, us, -, rfl⟩ := h
    exact .inr ⟨c.word, by cases c <;> decide, starts_cons.mpr ht⟩

theorem starts_groupTail {x : Text} {m : ℤ} {os : List CompactOption} {B : Language Token}
    (h : ts ∈ groupTail placed x m os B) : Starts (Token.IsWord "group") ts := by
  obtain ⟨_, ⟨t, ht, rfl⟩, us, -, rfl⟩ := h
  exact starts_cons.mpr ht

/-- A group starts with its word, or with one for its cardinality. -/
theorem starts_groupDecl {g : GroupDecl} (h : ts ∈ Rendering.groupDecl placed g) :
    ∃ w ∈ extensionWords, Starts (Token.IsWord w) ts := by
  rw [groupDecl_eq] at h
  obtain ⟨⟨us, hu, vs, hv, rfl⟩, -⟩ := h
  cases hc : g.cardinality with rw [hc] at hu
  | none =>
    rw [show us = [] from hu]
    exact ⟨"group", by decide, starts_groupTail hv⟩
  | some c =>
    obtain ⟨u, hu, rfl⟩ := hu
    exact ⟨c.word, by cases c <;> decide, starts_cons.mpr hu⟩

/-- A field without a cardinality starts with its type, every other member with a word for
it. -/
theorem member_cases {words : List String} {m : Member}
    (h : ts ∈ Rendering.member placed words m) :
    (∃ f, ts ∈ notStarting words (fieldTail placed f)) ∨
      ∃ w ∈ extensionWords, Starts (Token.IsWord w) ts := by
  cases m with rw [Rendering.member] at h
  | field f => exact (fieldDecl_cases h).imp_left fun h => ⟨f, h⟩
  | group g => exact .inr (starts_groupDecl h)

theorem starts_fieldDecl {words : List String} {f : FieldDecl}
    (h : ts ∈ Rendering.fieldDecl placed words f) : Starts (·.kind ∈ elementKinds) ts := by
  rcases fieldDecl_cases h with h | ⟨w, -, h⟩
  · exact (starts_notStarting h).mono fun t ht => ht.1
  · exact starts_element h

theorem starts_member {words : List String} {m : Member}
    (h : ts ∈ Rendering.member placed words m) : Starts (·.kind ∈ elementKinds) ts := by
  rcases member_cases h with ⟨f, h⟩ | ⟨w, -, h⟩
  · exact (starts_notStarting h).mono fun t ht => ht.1
  · exact starts_element h

theorem starts_oneofElement {e : OneofElement} (h : ts ∈ Rendering.oneofElement placed e) :
    Starts (·.kind ∈ elementKinds) ts := by
  rcases e with o | f | g <;> rw [Rendering.oneofElement] at h
  · exact starts_element (starts_word h)
  · rw [oneofMember] at h
    exact starts_fieldDecl h.2
  · rw [oneofMember] at h
    obtain ⟨w, -, h⟩ := starts_groupDecl h.2
    exact starts_element h

/-- An element of a message starts with an identifier, or with the dot of a type. -/
theorem starts_messageElement {e : MessageElement}
    (h : ts ∈ Rendering.messageElement placed e) : Starts (·.kind ∈ elementKinds) ts := by
  cases e with rw [Rendering.messageElement] at h
  | member m => exact starts_member h
  | mapField f => exact starts_element (starts_word h)
  | oneof o =>
    rw [oneofDecl_eq] at h
    exact starts_element (starts_word h)
  | option o => exact starts_element (starts_word h)
  | extensionRange r => exact starts_element (starts_word h)
  | reserved r => exact starts_element (starts_word h)
  | message m =>
    rw [messageDecl_eq] at h
    exact starts_element (starts_word h)
  | enum e => exact starts_element (starts_word h)
  | extension e =>
    rw [extensionDecl_eq] at h
    exact starts_element (starts_word h)

/-- A token that is none of the words for a cardinality stands for none. -/
theorem cardinality?_eq_none_of {t : Token} (ht : t.WellMade)
    (h : ∀ c : Cardinality, ¬t.IsWord c.word) : cardinality? t = none := by
  cases hc : cardinality? t with
  | none => rfl
  | some c => exact absurd ((cardinality?_eq ht).mp hc) (h c)

/-- A map starts with the word `map`. -/
theorem startsMapField_head {t : Token} (h : startsMapField (t :: ts)) : t.IsWord "map" := by
  cases ts with
  | nil => exact h.elim
  | cons u us => exact h.1

/-- What starts with another word is no map. -/
theorem not_startsMapField {w : String} (h : Starts (Token.IsWord w) ts)
    (hw : Text.ofString w ≠ Text.ofString "map") : ¬startsMapField (ts ++ rest) := by
  obtain ⟨t, us, rfl, ht⟩ := h
  exact fun h => hw (ht.2.symm.trans (startsMapField_head h).2)

/-- What stands behind the first token of a field is part of its type or its name. -/
theorem not_startsMapField_fieldTail {f : FieldDecl} (h : ts ∈ fieldTail placed f) :
    ¬startsMapField (ts ++ rest) := by
  obtain ⟨_, hu | ⟨x, -, _, ⟨t, ht, rfl⟩, us, -, rfl⟩, _, ⟨vs, hv, ws, -, rfl⟩, rfl⟩ := h
  · obtain ⟨_ | ⟨x, parts⟩, -, hu⟩ := hu
    · cases hu
    obtain ⟨_, ⟨t, -, rfl⟩, us, hu, rfl⟩ := hu
    cases parts with
    | nil =>
      rw [show us = [] from hu]
      obtain ⟨-, v, hv, rfl⟩ := hv
      exact fun h => absurd h.2 (by simp [hv.1])
    | cons y parts =>
      obtain ⟨_, ⟨_, ⟨d, hd, rfl⟩, us, -, rfl⟩, zs, -, rfl⟩ := hu
      exact fun h => absurd h.2 (by simp [show d.kind = .dot from hd])
  · exact fun h => absurd (startsMapField_head h).1 (by simp [show t.kind = .dot from ht])

/-- No field or group is taken for a map, though the type of a field may be `map`: no angle
bracket stands behind it. -/
theorem not_startsMapField_member {words : List String} {m : Member}
    (h : ts ∈ Rendering.member placed words m) : ¬startsMapField (ts ++ rest) := by
  rcases member_cases h with ⟨f, h⟩ | ⟨w, hw, h⟩
  · exact not_startsMapField_fieldTail h.1
  · exact not_startsMapField h ((by decide : ∀ w ∈ extensionWords,
      Text.ofString w ≠ Text.ofString "map") w hw)

section Parts

variable {element : Parse (Option MessageElement)}
  (hq : ∀ b, ∀ ts ∈ statement (Rendering.messageElement placed) b, ∀ rest,
    Takes n element ts rest fun a => a.map (·.relocate nowhere) = b.map (·.relocate nowhere))

include hq

/-- The elements of a message in its braces. -/
theorem takes_messageBody {es : List MessageElement}
    (h : ts ∈ [mark .leftBrace, messageStatements placed es, mark .rightBrace].prod) :
    Takes n (body element) ts rest fun ds =>
      ds.map (·.relocate nowhere) = es.map (·.relocate nowhere) := by
  rw [messageStatements_eq] at h
  exact takes_statements (f := MessageElement.relocate nowhere)
    (fun _ _ => starts_messageElement) hq h

/-- A group whose cardinality was taken before. -/
theorem takes_groupDeclOf {g : GroupDecl} (h : ts ∈ groupTail placed g.name g.number g.options
      (messageStatements placed g.elements)) (start : Token) :
    Takes (n + 1) (groupDeclOf element g.cardinality start) ts rest fun d =>
      d.relocate nowhere = g.relocate nowhere := by
  obtain ⟨c, x, number, options, elements, p⟩ := g
  obtain ⟨_, ⟨t, ht, rfl⟩, _,
      ⟨us₁, h₁, _, ⟨us₂, h₂, _, ⟨us₃, h₃, _, ⟨us₄, h₄, us₅, h₅, rfl⟩, rfl⟩, rfl⟩,
    rfl⟩, rfl⟩ := h
  show Takes _ _ (t :: (us₁ ++ (us₂ ++ (us₃ ++ (us₄ ++ us₅))))) rest _
  refine .within (.cons (takes_advance (by simp [ht.1])) fun _ _ => ?_)
  refine Takes.bind (takes_consumeName h₁ _) fun y hy => ?_
  refine Takes.bind (takes_consumeMark h₂ _ rfl) fun _ _ => ?_
  refine Takes.bind (takes_fieldNumber h₃) fun k hk => ?_
  have brace : Follow (·.kind ≠ .leftBracket) (us₅ ++ rest) := by
    obtain ⟨_, ⟨v, hv, rfl⟩, us₅, -, rfl⟩ := h₅
    exact follow_cons.mpr (by simp [hv])
  refine Takes.bind (takes_optionalCompactOptions h₄ brace) fun os hos => ?_
  refine ((takes_messageBody hq h₅).mono (by omega) fun _ => id).yield fun es hes => ?_
  simp [GroupDecl.relocate, hy, hk, hos, hes, nowhere]

/-- A field or a group. The first token settles the cardinality, and then the word `group`
tells the two apart. -/
theorem takes_memberOf (words : List String) {m : Member}
    (h : ts ∈ Rendering.member placed (words ++ extensionWords) m) :
    Takes (n + 1) (memberOf element) ts rest fun d =>
      d.relocate nowhere = m.relocate nowhere := by
  refine .current fun start hw hstart => ?_
  cases m with rw [Rendering.member] at h
  | field f =>
    obtain ⟨h, -⟩ := h
    unfold fieldBody at h
    cases hc : f.cardinality with rw [hc] at h
    | none =>
      have first := starts_notStarting h
      have not : ∀ w ∈ extensionWords, Follow (¬Token.IsWord w ·) (ts ++ rest) := fun w hw =>
        (first.follow rest).mono fun t ht => ht.2 w (List.mem_append_right _ hw)
      rw [cardinality?_eq_none_of hw fun c => not _ (by cases c <;> decide) start hstart]
      refine .keywordNot rfl (not "group" (by decide)) ?_
      exact (hc ▸ takes_fieldDecl h.1 start).yield fun g hg => by simp [Member.relocate, hg]
    | some c =>
      obtain ⟨_, ⟨t, ht, rfl⟩, us, hu, rfl⟩ := h
      cases hstart
      rw [(cardinality?_eq hw).mpr ht]
      refine .cons (takes_advance (by simp [ht.1])) fun _ _ => ?_
      have first := starts_notStarting hu
      refine .keywordNot rfl ((first.follow rest).mono fun t ht => ht.2 "group" (by simp)) ?_
      exact (hc ▸ takes_fieldDecl hu.1 start).yield fun g hg => by simp [Member.relocate, hg]
  | group g =>
    rw [groupDecl_eq] at h
    obtain ⟨⟨us, hu, vs, hv, rfl⟩, -⟩ := h
    have group := starts_groupTail hv
    cases hc : g.cardinality with rw [hc] at hu
    | none =>
      rw [show us = [] from hu] at hstart ⊢
      have not (c : Cardinality) : ¬start.IsWord c.word := by
        cases c <;> exact group.notWord rfl start hstart
      rw [cardinality?_eq_none_of hw not]
      refine .keyword rfl (group.follow rest) ?_
      exact (hc ▸ takes_groupDeclOf hq hv start).yield fun d hd => by
        simp [Member.relocate, hd]
    | some c =>
      obtain ⟨t, ht, rfl⟩ := hu
      cases hstart
      rw [(cardinality?_eq hw).mpr ht]
      refine .cons (takes_advance (by simp [ht.1])) fun _ _ =>
        .keyword rfl (group.follow rest) ?_
      refine ((hc ▸ takes_groupDeclOf hq hv start).mono (by omega) fun _ => id).yield
        fun d hd => ?_
      simp [Member.relocate, hd]

/-- An element of a oneof: an option, a field or a group. The last two have no cardinality. -/
theorem takes_oneofElementOf {e : OneofElement} (h : ts ∈ Rendering.oneofElement placed e) :
    Takes (n + 1) (oneofElementOf element) ts rest fun d =>
      d.relocate nowhere = e.relocate nowhere := by
  refine .current fun start hw hstart => ?_
  rcases e with o | f | g <;> rw [Rendering.oneofElement] at h
  · have first := starts_word h
    refine .keyword rfl (first.follow rest) ?_
    exact (takes_optionStatement h).yield fun p hp => by simp [OneofElement.relocate, hp]
  · rw [oneofMember] at h
    obtain ⟨hc, h, -⟩ := h
    rw [fieldBody, hc] at h
    have first := starts_notStarting h
    have not : ∀ w ∈ oneofWords, Follow (¬Token.IsWord w ·) (ts ++ rest) := fun w hw =>
      (first.follow rest).mono fun t ht => ht.2 w hw
    refine .keywordNot rfl (not "option" (by decide)) ?_
    refine .keywordNot rfl (not "group" (by decide)) ?_
    rw [cardinality?_eq_none_of hw fun c => not _ (by cases c <;> decide) start hstart]
    exact (hc ▸ takes_fieldDecl h.1 start).yield fun g hg => by
      simp [OneofElement.relocate, Member.relocate, hg]
  · rw [oneofMember, groupDecl_eq] at h
    obtain ⟨hc, ⟨us, hu, vs, hv, rfl⟩, -⟩ := h
    rw [hc] at hu
    rw [show us = [] from hu]
    have first := starts_groupTail hv
    refine .keywordNot rfl (first.notWord rfl) ?_
    refine .keyword rfl (first.follow rest) ?_
    exact (hc ▸ takes_groupDeclOf hq hv start).yield fun d hd => by
      simp [OneofElement.relocate, Member.relocate, hd]

/-- A oneof with its elements in braces. -/
theorem takes_oneofDeclOf {o : OneofDecl} (h : ts ∈ Rendering.oneofDecl placed o) :
    Takes (n + 1) (oneofDeclOf element) ts rest fun d =>
      d.relocate nowhere = o.relocate nowhere := by
  obtain ⟨x, elements, p⟩ := o
  rw [oneofDecl_eq] at h
  obtain ⟨⟨_, ⟨t, ht, rfl⟩, _, ⟨us, hu, vs, hv, rfl⟩, rfl⟩, -⟩ := h
  show Takes _ _ (t :: (us ++ vs)) rest _
  simp only [oneofElements_eq] at hv
  refine .within (.cons (takes_advance (by simp [ht.1])) fun _ _ => ?_)
  refine Takes.bind (takes_consumeName hu _) fun y hy => ?_
  refine (takes_elements (f := OneofElement.relocate nowhere) (fun _ _ => starts_oneofElement)
    (fun e us hu rest => (takes_oneofElementOf hq hu).mono (by omega) fun _ => id) hv).yield
    fun es hes => ?_
  simp [OneofDecl.relocate, hy, hes, nowhere]

/-- A message, one level above the messages inside it. -/
theorem takes_messageDeclOf {m : MessageDecl} (h : ts ∈ Rendering.messageDecl placed m) :
    Takes (n + 1) (messageDeclOf element) ts rest fun d =>
      d.relocate nowhere = m.relocate nowhere := by
  obtain ⟨x, elements, p⟩ := m
  rw [messageDecl_eq] at h
  obtain ⟨⟨_, ⟨t, ht, rfl⟩, _, ⟨us, hu, vs, hv, rfl⟩, rfl⟩, -⟩ := h
  show Takes _ _ (t :: (us ++ vs)) rest _
  refine .within (.cons (takes_advance (by simp [ht.1])) fun _ _ => ?_)
  refine Takes.bind (takes_consumeName hu _) fun y hy => ?_
  refine ((takes_messageBody hq hv).mono (by omega) fun _ => id).yield fun es hes => ?_
  simp [MessageDecl.relocate, hy, hes, nowhere]

/-- An extension of a type, with the fields and groups that it adds. -/
theorem takes_extensionDeclOf {e : ExtensionDecl}
    (h : ts ∈ Rendering.extensionDecl placed e) :
    Takes (n + 1) (extensionDeclOf element) ts rest fun d =>
      d.relocate nowhere = e.relocate nowhere := by
  obtain ⟨x, elements, p⟩ := e
  rw [extensionDecl_eq] at h
  obtain ⟨⟨_, ⟨t, ht, rfl⟩, _, ⟨us, hu, vs, hv, rfl⟩, rfl⟩, -⟩ := h
  show Takes _ _ (t :: (us ++ vs)) rest _
  simp only [members_eq] at hv
  have brace : Follow (·.kind ≠ .dot) (vs ++ rest) := by
    obtain ⟨_, ⟨v, hv, rfl⟩, vs, -, rfl⟩ := hv
    exact follow_cons.mpr (by simp [hv])
  refine .within (.cons (takes_advance (by simp [ht.1])) fun _ _ => ?_)
  refine Takes.bind (takes_typeName hu brace) fun y hy => ?_
  refine (takes_elements (f := Member.relocate nowhere) (fun _ _ => starts_member)
    (fun m us hu rest => (takes_memberOf hq [] hu).mono (by omega) fun _ => id) hv).yield
    fun es hes => ?_
  simp [ExtensionDecl.relocate, hy, hes, nowhere]

/-- An element of a message, or a lone semicolon. Each kind of element is told from those
tried before it by its first token, and a map by its second one. -/
theorem takes_messageElementOf (b : Option MessageElement)
    (h : ts ∈ statement (Rendering.messageElement placed) b) :
    Takes (n + 1) (messageElementOf element) ts rest fun a =>
      a.map (·.relocate nowhere) = b.map (·.relocate nowhere) := by
  rcases b with _ | e
  · exact takes_semicolon h (.pure rfl)
  refine takes_semicolon_not (starts_messageElement h) ?_
  cases e with rw [statement, Rendering.messageElement] at h
  | option o =>
    refine .keyword rfl ((starts_word h).follow rest) ?_
    exact (takes_optionStatement h).yield fun p hp => by simp [MessageElement.relocate, hp]
  | message m =>
    have first : Starts (Token.IsWord "message") ts := by
      rw [messageDecl_eq] at h
      exact starts_word h
    refine .keywordNot rfl (first.notWord rfl) ?_
    refine .keyword rfl (first.follow rest) ?_
    exact (takes_messageDeclOf hq h).yield fun p hp => by simp [MessageElement.relocate, hp]
  | enum e =>
    have first := starts_word h
    refine .keywordNot rfl (first.notWord rfl) ?_
    refine .keywordNot rfl (first.notWord rfl) ?_
    refine .keyword rfl (first.follow rest) ?_
    exact (takes_enumDecl h).yield fun p hp => by simp [MessageElement.relocate, hp]
  | extension e =>
    have first : Starts (Token.IsWord "extend") ts := by
      rw [extensionDecl_eq] at h
      exact starts_word h
    iterate 3 refine .keywordNot rfl (first.notWord rfl) ?_
    refine .keyword rfl (first.follow rest) ?_
    exact (takes_extensionDeclOf hq h).yield fun p hp => by simp [MessageElement.relocate, hp]
  | extensionRange r =>
    have first := starts_word h
    iterate 4 refine .keywordNot rfl (first.notWord rfl) ?_
    refine .keyword rfl (first.follow rest) ?_
    exact (takes_extensionRangeDecl h).yield fun p hp => by simp [MessageElement.relocate, hp]
  | reserved r =>
    have first := starts_word h
    iterate 5 refine .keywordNot rfl (first.notWord rfl) ?_
    refine .keyword rfl (first.follow rest) ?_
    exact (takes_reservedDecl h).yield fun p hp => by simp [MessageElement.relocate, hp]
  | oneof o =>
    have first : Starts (Token.IsWord "oneof") ts := by
      rw [oneofDecl_eq] at h
      exact starts_word h
    iterate 6 refine .keywordNot rfl (first.notWord rfl) ?_
    refine .keyword rfl (first.follow rest) ?_
    exact (takes_oneofDeclOf hq h).yield fun p hp => by simp [MessageElement.relocate, hp]
  | mapField f =>
    have first := starts_word h
    iterate 7 refine .keywordNot rfl (first.notWord rfl) ?_
    refine .mapField ?_ ?_
    · obtain ⟨⟨_, ⟨t, ht, rfl⟩, _, ⟨_, ⟨u, hu, rfl⟩, us, -, rfl⟩, rfl⟩, -⟩ := h
      exact ⟨ht, hu⟩
    · exact (takes_mapFieldDecl h).yield fun p hp => by simp [MessageElement.relocate, hp]
  | member m =>
    have not : ∀ w ∈ elementWords, Follow (¬Token.IsWord w ·) (ts ++ rest) := by
      intro w hw
      rcases member_cases h with ⟨f, h⟩ | ⟨v, hv, h⟩
      · exact ((starts_notStarting h).follow rest).mono fun t ht =>
          ht.2 w (List.mem_append_left _ hw)
      · exact h.notWord ((by decide : ∀ v ∈ extensionWords, ∀ w ∈ elementWords,
          decide (Text.ofString v = Text.ofString w) = false) v hv w hw)
    iterate 7 refine .keywordNot rfl (not _ (by decide)) ?_
    refine .mapFieldNot ?_ ?_
    · exact not_startsMapField_member h
    · rw [messageWords] at h
      exact (takes_memberOf hq elementWords h).yield fun p hp => by
        simp [MessageElement.relocate, hp]

end Parts

/-- An element of a message, however deep. -/
theorem takes_messageElement (b : Option MessageElement)
    (h : ts ∈ statement (Rendering.messageElement placed) b) :
    Takes n messageElement ts rest fun a =>
      a.map (·.relocate nowhere) = b.map (·.relocate nowhere) :=
  .recursive (Q := fun (b a : Option MessageElement) =>
      a.map (·.relocate nowhere) = b.map (·.relocate nowhere))
    (fun _ _ hq b _ h _ => takes_messageElementOf hq b h) h

end ProtoSchema.Grammar
