import ProtoSchema.Proofs.Carrying.Value
import ProtoSchema.Grammar.Message

/-!
# What the productions for messages depend on

The productions for ranges, fields, enums and messages do the same on other lists with the
same tokens, up to positions. Whether a map field starts is seen from two tokens.
-/
namespace ProtoSchema.Grammar

open Parse Transfer

variable {w : Transfer} {α : Type} {f : α → α}

/-! ## Bodies and ranges -/

/-- The elements in braces, if each of them does. -/
theorem carries_body {p q : Parse (Option α)} (h : w.Carries (Option.map f) p q) :
    w.Carries (List.map f) (body p) (body q) := by
  apply (carries_consumeMark _ _).bind
  intro _
  have more : w.Carries id (return !(← check .rightBrace)) (return !(← check .rightBrace)) :=
    .peek_last ((peeks_check .rightBrace).bind_pure (! ·)) fun _ _ => rfl
  apply Carries.bind (f := List.map (Option.map f))
  · apply more.whileMore
    apply Carries.atEnd
    · exact (carries_reject (f := id) _).bind fun _ => h
    · exact h
  · intro as
    apply carries_advance.yield
    intro _
    rw [List.filterMap_map, List.map_filterMap]
    rfl

/-- An end of a range, with a sign or without. -/
theorem carries_rangeNumber (signed : Bool) (wanted : String → Expectation) :
    w.Carries id (rangeNumber signed wanted) (rangeNumber signed wanted) :=
  .ite (carries_signedInteger _) (carries_unsignedInteger _)

theorem carries_tagRange (signed : Bool) :
    w.Carries (·.relocate w.move) (tagRange signed) (tagRange signed) := by
  refine .within (.current fun t => (carries_rangeNumber _ _).bind fun m => ?_)
  apply Carries.word
  · apply carries_advance.bind
    intro _
    apply Carries.word
    · exact carries_advance.yield fun _ => rfl
    · exact (carries_rangeNumber _ _).yield fun _ => rfl
  · exact .pure rfl

theorem carries_tagRanges (signed : Bool) :
    w.Carries (·.map (·.relocate w.move)) (tagRanges signed) (tagRanges signed) :=
  (carries_tagRange signed).separatedBy

/-- Reserved numbers or names; the list that is left out is empty on both sides. -/
theorem carries_reservedDecl (signed : Bool) :
    w.Carries (·.relocate w.move) (reservedDecl signed) (reservedDecl signed) := by
  refine .within (carries_advance.bind fun t => ?_)
  apply Carries.check
  · apply (carries_stringLiteral _).separatedBy.bind
    intro xs
    exact (carries_consumeMark _ _).yield fun _ => by rw [List.map_id]; rfl
  · apply (carries_tagRanges signed).bind
    intro rs
    exact (carries_consumeMark _ _).yield fun _ => rfl

theorem carries_extensionRangeDecl :
    w.Carries (·.relocate w.move) extensionRangeDecl extensionRangeDecl := by
  refine .within (carries_advance.bind fun t => (carries_tagRanges false).bind fun rs => ?_)
  apply carries_optionalCompactOptions.bind
  intro os
  exact (carries_consumeMark _ _).yield fun _ => rfl

/-! ## Fields -/

section Names

variable {P : Token → Prop}

/-- A name takes the identifier it starts with. -/
theorem enters_qualifiedIdentifier (hP : ∀ t, P t → t.kind = .identifier) :
    w.Enters P id qualifiedIdentifier qualifiedIdentifier := by
  have first : w.Enters P (Token.relocate w.move)
      (consume .identifier (.anIdentifier "identifier"))
      (consume .identifier (.anIdentifier "identifier")) :=
    .peek (peeks_check .identifier) (fun t ht => decide_eq_true (hP t ht))
      (carries_consume _ _)
      (enters_advance fun t ht => by simp [hP t ht])
  have identifier : w.Enters P id identifier identifier := first.yield fun _ => rfl
  apply Enters.yield (f := List.map id)
  · apply identifier.bind
    intro x
    apply Carries.yield (f := List.map id)
    · exact .whileMore (carries_accept _) carries_identifier
    · exact fun _ => rfl
  · exact fun xs => by rw [List.map_id]; rfl

/-- The name of a type takes the dot or the identifier it starts with. -/
theorem enters_typeName (hP : ∀ t, P t → t.kind = .dot ∨ t.kind = .identifier) :
    w.Enters P id typeName typeName := by
  apply Enters.accept (by decide)
  · exact carries_qualifiedIdentifier.yield fun _ => rfl
  apply Enters.check
  · exact enters_qualifiedIdentifier fun t ht => ht.2
  · apply (carries_reject _).enters_of_not
    intro t ht
    obtain ⟨⟨h, dot⟩, name⟩ := ht
    exact name ((hP t h).resolve_left fun hk => dot (List.mem_singleton.mpr hk))

end Names

/-- A token that starts no name is rejected where it stands. -/
theorem typeName_error {s : ParseState} {t : Token} {rest : List Token}
    (ht : s.ahead = t :: rest) (dot : t.kind ≠ .dot) (name : t.kind ≠ .identifier) :
    typeName s = (.error (.unexpected ⟨.expected [.typeName], s.rules.head?, t⟩), s) := by
  have undotted : accept [.dot] s = (.ok false, s) := by
    rw [accept_eq ht (by decide), if_neg (by simpa using dot)]
  have unnamed : check .identifier s = (.ok false, s) := by
    simpa [name] using peeks_check .identifier s t rest ht
  rw [typeName, bind_of_ok undotted, if_neg Bool.false_ne_true, bind_of_ok unnamed,
    if_neg Bool.false_ne_true]
  exact reject_eq ht _

/-- A field takes the first token of its type. -/
theorem enters_fieldDecl (c : Option Cardinality) (start : Token) :
    w.Enters (·.kind = .identifier) (·.relocate w.move) (fieldDecl c start)
      (fieldDecl c (start.relocate w.move)) := by
  have type : w.Enters (·.kind = .identifier) id typeName typeName :=
    enters_typeName fun t ht => .inr ht
  refine .within (type.bind fun x => (carries_consumeName _).bind fun y => ?_)
  refine (carries_consumeMark _ _).bind fun _ => carries_fieldNumber.bind fun n => ?_
  refine carries_optionalCompactOptions.bind fun os => ?_
  exact (carries_consumeMark _ _).yield fun _ => rfl

theorem carries_mapKeyType : w.Carries id mapKeyType mapKeyType := by
  apply Carries.current
  intro t
  apply Carries.ite
  · exact (carries_reject (f := id) _).bind fun _ => carries_advance.yield fun _ => rfl
  · exact carries_advance.yield fun _ => rfl

/-- A map takes its word, so that a second look at it is not needed. -/
theorem enters_mapFieldDecl :
    w.Enters (·.IsWord "map") (·.relocate w.move) mapFieldDecl mapFieldDecl := by
  have first : w.Enters (·.IsWord "map") (Token.relocate w.move) (consumeWord "map")
      (consumeWord "map") :=
    .peek (peeks_checkWord "map") (b := true) (fun t ht => by simp [ht.1, ht.2])
      (carries_consumeWord _) (enters_advance fun t ht => by simp [ht.1])
  refine .within (first.bind fun t => (carries_consumeMark _ _).bind fun _ => ?_)
  refine carries_mapKeyType.bind fun k => (carries_consumeMark _ _).bind fun _ => ?_
  refine carries_typeName.bind fun v => (carries_consumeMark _ _).bind fun _ => ?_
  refine (carries_consumeName _).bind fun x => (carries_consumeMark _ _).bind fun _ => ?_
  refine carries_fieldNumber.bind fun n => carries_optionalCompactOptions.bind fun os => ?_
  exact (carries_consumeMark _ _).yield fun _ => rfl

/-! ## Enums -/

theorem carries_enumValueDecl :
    w.Carries (·.relocate w.move) enumValueDecl enumValueDecl := by
  refine .within (.current fun t => (carries_consumeName _).bind fun x => ?_)
  refine (carries_consumeMark _ _).bind fun _ => (carries_signedInteger _).bind fun n => ?_
  refine carries_optionalCompactOptions.bind fun os => ?_
  exact (carries_consumeMark _ _).yield fun _ => rfl

theorem carries_enumElement :
    w.Carries (Option.map (·.relocate w.move)) enumElement enumElement := by
  apply Carries.accept
  · exact .pure rfl
  apply Carries.keyword
  · exact carries_optionStatement.yield fun _ => rfl
  apply Carries.keyword
  · exact (carries_reservedDecl _).yield fun _ => rfl
  · exact carries_enumValueDecl.yield fun _ => rfl

theorem carries_enumDecl : w.Carries (·.relocate w.move) enumDecl enumDecl := by
  refine .within (carries_advance.bind fun t => (carries_consumeName _).bind fun x => ?_)
  exact (carries_body carries_enumElement).yield fun es => rfl

/-! ## Messages -/

section Parts

variable {element element' : Parse (Option MessageElement)}
  (he : w.Carries (Option.map (·.relocate w.move)) element element')

include he

/-- A group, whose position is that of a token taken before. -/
theorem carries_groupDeclOf (c : Option Cardinality) (start : Token) :
    w.Carries (·.relocate w.move) (groupDeclOf element c start)
      (groupDeclOf element' c (start.relocate w.move)) := by
  refine .within (carries_advance.bind fun _ => (carries_consumeName _).bind fun x => ?_)
  refine (carries_consumeMark _ _).bind fun _ => carries_fieldNumber.bind fun n => ?_
  refine carries_optionalCompactOptions.bind fun os => (carries_body he).yield fun es => ?_
  rw [GroupDecl.relocate, MessageElements.relocate_eq]
  rfl

/-- A field or a group, with the position of the token that starts it. -/
theorem carries_memberOf :
    w.Carries (·.relocate w.move) (memberOf element) (memberOf element') := by
  apply Carries.current
  intro t
  have behind (c : Option Cardinality) : w.Carries (·.relocate w.move)
      (do
        if ← checkKeyword "group" then return Member.group (← groupDeclOf element c t)
        else return Member.field (← fieldDecl c t))
      (do
        if ← checkKeyword "group" then
          return Member.group (← groupDeclOf element' c (t.relocate w.move))
        else return Member.field (← fieldDecl c (t.relocate w.move))) := by
    apply Carries.keyword
    · exact (carries_groupDeclOf he c t).yield fun g => by rw [Member.relocate]
    · exact (enters_fieldDecl c t).carries.yield fun g => by rw [Member.relocate]
  apply Carries.ite
  · exact carries_advance.bind fun _ => behind _
  · exact behind _

/-- A field of type `map`. -/
theorem enters_memberOf :
    w.Enters (·.IsWord "map") (·.relocate w.move) (memberOf element) (memberOf element') where
  carries := carries_memberOf he
  enters s t rest hs hb ht h := by
    have not : cardinality? t = none := by
      unfold cardinality?
      split_ifs
      · rw [h.2]
        decide
      · rfl
    have field : w.Enters (·.kind = .identifier) (·.relocate w.move)
        (do return Member.field (← fieldDecl none t))
        (do return Member.field (← fieldDecl none (t.relocate w.move))) :=
      (enters_fieldDecl none t).yield fun g => by rw [Member.relocate]
    have group : checkKeyword "group" s = (.ok false, s) := by
      have other : t.text ≠ Text.ofString "group" := h.2 ▸ by decide
      rw [peeks_checkKeyword "group" s t rest ht]
      simp [other]
    rw [memberOf, bind_of_ok (peeks_current s t rest ht), id, not]
    show s.index < (((checkKeyword "group" >>= _) : Parse Member) s).2.index
    rw [bind_of_ok group]
    exact field.enters s t rest hs hb ht h.1

theorem carries_oneofElementOf :
    w.Carries (·.relocate w.move) (oneofElementOf element) (oneofElementOf element') := by
  apply Carries.current
  intro t
  apply Carries.keyword
  · exact carries_optionStatement.yield fun _ => by rw [OneofElement.relocate]
  apply Carries.keyword
  · apply (carries_groupDeclOf he none t).yield
    intro g
    rw [OneofElement.relocate, Member.relocate]
  apply Carries.ite (b := (cardinality? t).isSome = true)
  · exact carries_reject _
  · apply (enters_fieldDecl none t).carries.yield
    intro f
    rw [OneofElement.relocate, Member.relocate]

theorem carries_oneofDeclOf :
    w.Carries (·.relocate w.move) (oneofDeclOf element) (oneofDeclOf element') := by
  refine .within (carries_advance.bind fun t => (carries_consumeName _).bind fun x => ?_)
  apply (carries_body ((carries_oneofElementOf he).yield fun e => rfl)).yield
  intro es
  rw [OneofDecl.relocate, OneofElements.relocate_eq]
  rfl

/-- A message, if the elements of one do. -/
theorem carries_messageDeclOf :
    w.Carries (·.relocate w.move) (messageDeclOf element) (messageDeclOf element') := by
  refine .within (carries_advance.bind fun t => (carries_consumeName _).bind fun x => ?_)
  apply (carries_body he).yield
  intro es
  rw [MessageDecl.relocate, MessageElements.relocate_eq]
  rfl

theorem carries_extensionDeclOf :
    w.Carries (·.relocate w.move) (extensionDeclOf element) (extensionDeclOf element') := by
  refine .within (carries_advance.bind fun t => carries_typeName.bind fun x => ?_)
  apply (carries_body ((carries_memberOf he).yield fun m => rfl)).yield
  intro ms
  rw [ExtensionDecl.relocate, Members.relocate_eq]
  rfl

omit he in
/-- The test for a map looks at one token, and at a second only if the first is `map`. -/
theorem atMapField_bind {β : Type} (k : Bool → Parse β) : atMapField >>= k =
    checkWord "map" >>= fun b =>
      if b then look 1 >>= fun u => k (decide (u.kind = .leftAngle)) else k false := by
  funext s
  rw [atMapField, bind_eq, bind_eq, bind_eq]
  rcases checkWord "map" s with ⟨e | b, t⟩
  · rfl
  cases b with
  | false => rfl
  | true =>
    simp only [if_true, bind_eq]
    rcases look 1 t with ⟨e | u, t⟩ <;> rfl

/-- An element of a message. The second token is looked at only behind the word `map`, which a
map and a field both take. -/
theorem carries_messageElementOf : w.Carries (Option.map (·.relocate w.move))
    (messageElementOf element) (messageElementOf element') := by
  apply Carries.accept
  · exact .pure rfl
  apply Carries.keyword
  · exact carries_optionStatement.yield fun _ => by
      rw [Option.map_some, MessageElement.relocate]
  apply Carries.keyword
  · exact (carries_messageDeclOf he).yield fun _ => by
      rw [Option.map_some, MessageElement.relocate]
  apply Carries.keyword
  · exact carries_enumDecl.yield fun _ => by rw [Option.map_some, MessageElement.relocate]
  apply Carries.keyword
  · exact (carries_extensionDeclOf he).yield fun _ => by
      rw [Option.map_some, MessageElement.relocate]
  apply Carries.keyword
  · exact carries_extensionRangeDecl.yield fun _ => by
      rw [Option.map_some, MessageElement.relocate]
  apply Carries.keyword
  · exact (carries_reservedDecl _).yield fun _ => by
      rw [Option.map_some, MessageElement.relocate]
  apply Carries.keyword
  · exact (carries_oneofDeclOf he).yield fun _ => by
      rw [Option.map_some, MessageElement.relocate]
  have mapField : w.Enters (·.IsWord "map") (Option.map (·.relocate w.move))
      (do return some (MessageElement.mapField (← mapFieldDecl)))
      (do return some (MessageElement.mapField (← mapFieldDecl))) :=
    enters_mapFieldDecl.yield fun _ => by rw [Option.map_some, MessageElement.relocate]
  have member : w.Enters (·.IsWord "map") (Option.map (·.relocate w.move))
      (do return some (MessageElement.member (← memberOf element)))
      (do return some (MessageElement.member (← memberOf element'))) :=
    (enters_memberOf he).yield fun _ => by rw [Option.map_some, MessageElement.relocate]
  show w.Carries _ (atMapField >>= _) (atMapField >>= _)
  rw [atMapField_bind, atMapField_bind]
  apply Carries.lookBehind (P := (·.IsWord "map")) (peeks_checkWord "map") (fun _ _ => rfl)
  · intro t ht
    simpa [Token.IsWord] using ht
  · intro t ht
    simp [ht.1]
  · exact rfl
  · exact rfl
  · intro u
    show w.Enters _ _ (if decide (u.kind = .leftAngle) = true then _ else _)
      (if decide (u.kind = .leftAngle) = true then _ else _)
    split_ifs
    · exact mapField
    · exact member
  · exact member.carries

end Parts

/-- An element of a message, however deep. -/
theorem carries_messageElement :
    w.Carries (Option.map (·.relocate w.move)) messageElement messageElement :=
  .recursive fun _ _ => carries_messageElementOf

end ProtoSchema.Grammar
