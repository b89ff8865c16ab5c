import ProtoSchema.Grammar.Schema
import ProtoSchema.Proofs.Advancing.Value

/-!
# The productions for declarations get on

Each production for ranges, fields, enums, messages and services takes a token if it yields
something; a whole schema may hold nothing. The elements of a message are read behind its
opening brace, where fewer tokens are left.
-/
namespace ProtoSchema.Grammar

open Parse

variable {n : ℕ} {pre : Token → Prop}

/-! ## Bodies and ranges -/

/-- A body takes its braces, and each element takes a token, so that its loop ends. -/
theorem advances_body {α : Type} {p : Parse (Option α)} (h : Advances (fun _ => True) n 1 p) :
    Advances pre n 1 (body p) := by
  refine (advances_consumeMark (by decide) _).bind fun _ => ?_
  have notClosed : Peeks (return !(← check .rightBrace)) fun t =>
      !decide (t.kind = .rightBrace) :=
    (peeks_check _).bind_pure (! ·)
  refine Advances.bind (.whileMore notClosed ?_) fun as => advances_advance.yield
  -- An end token in a body is rejected, and an element takes a token.
  exact .test peeks_atEnd .reject (h.less (Nat.sub_le n 1))

theorem advances_rangeNumber (signed : Bool) (wanted : String → Expectation) :
    Advances pre n 1 (rangeNumber signed wanted) :=
  .ite (fun _ => advances_signedInteger _) fun _ => advances_unsignedInteger _

theorem advances_tagRange (signed : Bool) : Advances pre n 1 (tagRange signed) := by
  refine .within (.current fun t => (advances_rangeNumber _ _).bind fun m => ?_)
  refine .test (peeks_checkWord _) (advances_advance.bind fun _ => ?_) (.pure _)
  exact .test (peeks_checkWord _) advances_advance.yield
    (advances_rangeNumber _ _).yield.forget

/-- A range takes a token, and so does each comma. -/
theorem advances_tagRanges (signed : Bool) : Advances pre n 1 (tagRanges signed) := by
  have ranges : Advances pre n 1 (separatedBy .comma (tagRange signed)) :=
    .separatedBy (by decide) (advances_tagRange signed)
  exact ranges

/-- Options or none, and the mark that ends a declaration. -/
theorem advances_optionsAndMark {α : Type} {tree : List CompactOption → α} :
    Advances pre n 0 (do
      let options ← optionalCompactOptions
      consumeMark .semicolon ";"
      return tree options) :=
  advances_optionalCompactOptions.bind fun _ => advances_mark (by decide)

theorem advances_reservedDecl (signed : Bool) : Advances pre n 1 (reservedDecl signed) := by
  have names {pre : Token → Prop} (wanted : Expectation) :
      Advances pre n 1 (separatedBy .comma (stringLiteral wanted)) :=
    .separatedBy (by decide) (advances_stringLiteral wanted)
  refine .within (advances_advance.bind fun t => .test (peeks_check _) ?_ ?_)
  · exact (names _).bind fun xs => advances_mark (by decide)
  · exact (advances_tagRanges signed).bind fun rs => advances_mark (by decide)

theorem advances_extensionRangeDecl : Advances pre n 1 extensionRangeDecl := by
  refine .within (advances_advance.bind fun t => (advances_tagRanges false).bind fun rs => ?_)
  exact advances_optionsAndMark

/-! ## Fields -/

/-- A field takes the tokens of its type at least. -/
theorem advances_fieldDecl (c : Option Cardinality) (start : Token) :
    Advances pre n 1 (fieldDecl c start) := by
  refine .within (advances_typeName.bind fun x => (advances_consumeName _).bind fun y => ?_)
  refine (advances_consumeMark (by decide) _).bind fun _ =>
    advances_fieldNumber.bind fun m => ?_
  exact advances_optionsAndMark

/-- The type of the keys is one token. -/
theorem advances_mapKeyType : Advances pre n 1 mapKeyType := by
  refine .current fun t => .ite (fun _ => ?_) fun h => ?_
  · exact .reject
  · have hk : t.kind = .identifier := by
      by_contra hk
      simp [hk] at h
    exact (advances_take (by simp [hk])).yield

theorem advances_mapFieldDecl : Advances pre n 1 mapFieldDecl := by
  refine .within ((advances_consumeWord _).bind fun t => ?_)
  refine (advances_consumeMark (by decide) _).bind fun _ =>
    advances_mapKeyType.bind fun k => ?_
  refine (advances_consumeMark (by decide) _).bind fun _ => advances_typeName.bind fun v => ?_
  refine (advances_consumeMark (by decide) _).bind fun _ =>
    (advances_consumeName _).bind fun x => ?_
  refine (advances_consumeMark (by decide) _).bind fun _ =>
    advances_fieldNumber.bind fun m => ?_
  exact advances_optionsAndMark

/-! ## Enums -/

theorem advances_enumValueDecl : Advances pre n 1 enumValueDecl := by
  refine .within (.current fun t => (advances_consumeName _).bind fun x => ?_)
  refine (advances_consumeMark (by decide) _).bind fun _ =>
    (advances_signedInteger _).bind fun m => ?_
  exact advances_optionsAndMark

/-- An empty statement takes its semicolon, so every element of an enum takes a token. -/
theorem advances_enumElement : Advances pre n 1 enumElement := by
  refine .accept (by decide) (.pure none) ?_
  refine .test (peeks_checkKeyword _) advances_optionStatement.yield ?_
  exact .test (peeks_checkKeyword _) (advances_reservedDecl _).yield
    advances_enumValueDecl.yield

theorem advances_enumDecl : Advances pre n 1 enumDecl := by
  refine .within (advances_advance.bind fun t => (advances_consumeName _).bind fun x => ?_)
  exact (advances_body advances_enumElement).yield.forget

/-! ## Messages -/

section Parts

variable {element : Parse (Option MessageElement)} (he : Advances (fun _ => True) n 1 element)

include he

/-- A group takes the word it starts with before it comes to its elements. -/
theorem advances_groupDeclOf (c : Option Cardinality) (start : Token) :
    Advances pre (n + 1) 1 (groupDeclOf element c start) := by
  refine .within (advances_advance.bind fun _ => (advances_consumeName _).bind fun x => ?_)
  refine (advances_consumeMark (by decide) _).bind fun _ =>
    advances_fieldNumber.bind fun m => ?_
  refine advances_optionalCompactOptions.bind fun os =>
    (advances_body (he.less ?_)).yield.forget
  omega

/-- A field or a group takes a token, with a cardinality in front or without. -/
theorem advances_memberOf : Advances pre (n + 1) 1 (memberOf element) := by
  refine .current fun t => ?_
  have behind {pre : Token → Prop} (c : Option Cardinality) : Advances pre (n + 1) 1 (do
      if ← checkKeyword "group" then return Member.group (← groupDeclOf element c t)
      else return Member.field (← fieldDecl c t)) :=
    .test (peeks_checkKeyword _) (advances_groupDeclOf he c t).yield
      (advances_fieldDecl c t).yield
  exact .ite (fun _ => advances_advance.bind fun _ => behind _) fun _ => behind _

theorem advances_oneofElementOf : Advances pre (n + 1) 1 (oneofElementOf element) := by
  refine .current fun t => .test (peeks_checkKeyword _) advances_optionStatement.yield ?_
  refine .test (peeks_checkKeyword _) (advances_groupDeclOf he none t).yield ?_
  exact Advances.ite (b := (cardinality? t).isSome = true)
    (fun _ => advances_reject _) fun _ =>
    (advances_fieldDecl none t).yield

/-- A message takes the word it starts with before it comes to its elements, so one token
fewer is left there. -/
theorem advances_messageDeclOf : Advances pre (n + 1) 1 (messageDeclOf element) := by
  refine .within (advances_advance.bind fun t => (advances_consumeName _).bind fun x => ?_)
  exact (advances_body he).yield.forget

theorem advances_oneofDeclOf : Advances pre (n + 1) 1 (oneofDeclOf element) := by
  refine .within (advances_advance.bind fun t => (advances_consumeName _).bind fun x => ?_)
  have elements : Advances (fun _ => True) n 1 (oneofElementOf element) :=
    (advances_oneofElementOf he).less (Nat.le_succ n)
  exact (advances_body elements.map).yield.forget

theorem advances_extensionDeclOf : Advances pre (n + 1) 1 (extensionDeclOf element) := by
  refine .within (advances_advance.bind fun t => advances_typeName.bind fun x => ?_)
  have elements : Advances (fun _ => True) n 1 (memberOf element) :=
    (advances_memberOf he).less (Nat.le_succ n)
  exact (advances_body elements.map).yield.forget

omit he in
/-- To see whether a map field starts takes nothing. -/
theorem advances_atMapField : Advances pre n 0 atMapField :=
  .test (peeks_checkWord _) advances_look_one.yield (.pure false)

/-- Every element of a message takes a token, if those that it holds do where fewer are
left. -/
theorem advances_messageElementOf :
    Advances (fun _ => True) (n + 1) 1 (messageElementOf element) := by
  refine .accept (by decide) (.pure none) ?_
  refine .test (peeks_checkKeyword _) advances_optionStatement.yield ?_
  refine .test (peeks_checkKeyword _) (advances_messageDeclOf he).yield ?_
  refine .test (peeks_checkKeyword _) advances_enumDecl.yield ?_
  refine .test (peeks_checkKeyword _) (advances_extensionDeclOf he).yield ?_
  refine .test (peeks_checkKeyword _) advances_extensionRangeDecl.yield ?_
  refine .test (peeks_checkKeyword _) (advances_reservedDecl _).yield ?_
  refine .test (peeks_checkKeyword _) (advances_oneofDeclOf he).yield ?_
  refine advances_atMapField.bind fun map => .ite (fun _ => ?_) fun _ => ?_
  · exact advances_mapFieldDecl.yield
  · exact (advances_memberOf he).yield

end Parts

/-- So an element of a message ends, however deep it goes. -/
theorem advances_messageElement : Advances pre n 1 messageElement :=
  .recursive fun _ _ h => advances_messageElementOf h

/-! ## Services -/

/-- The type of a method takes its parentheses. -/
theorem advances_methodType : Advances pre n 1 methodType := by
  refine (advances_consumeMark (by decide) _).bind fun _ => ?_
  have type {m : ℕ} (streaming : Bool) : Advances (fun _ => True) m 1 (do
      let type ← typeName
      consumeMark .rightParen ")"
      return (streaming, type)) :=
    advances_typeName.bind fun x => advances_mark (by decide)
  have marked {m : ℕ} (streaming : Bool) : Advances (fun _ => True) m 1 (do
      if streaming then
        let _ ← advance
      let type ← typeName
      consumeMark .rightParen ")"
      return (streaming, type)) :=
    .ite (fun _ => advances_advance.bind fun _ => type streaming) fun _ => type streaming
  refine .test (peeks_checkKeyword _) ?_ (marked false).forget
  exact advances_look_one.bind fun u => (marked (decide (u.kind ≠ .rightParen))).forget

theorem advances_methodElement : Advances pre n 1 methodElement := by
  refine .accept (by decide) (.pure none) ?_
  exact .test (peeks_checkKeyword _) advances_optionStatement.yield (advances_reject _)

theorem advances_methodDecl : Advances pre n 1 methodDecl := by
  refine .within
    ((advances_consumeWord _).bind fun t => (advances_consumeName _).bind fun x => ?_)
  refine advances_methodType.bind fun input => (advances_consumeWord _).bind fun _ => ?_
  refine advances_methodType.bind fun output => ?_
  refine .test (peeks_check _) (advances_body advances_methodElement).yield.forget ?_
  exact .accept (by decide) (.pure _) .reject

theorem advances_serviceElement : Advances pre n 1 serviceElement := by
  refine .accept (by decide) (.pure none) ?_
  refine .test (peeks_checkKeyword _) advances_optionStatement.yield ?_
  exact .test (peeks_checkWord _) advances_methodDecl.yield (advances_reject _)

theorem advances_serviceDecl : Advances pre n 1 serviceDecl := by
  refine .within
    ((advances_consumeWord _).bind fun t => (advances_consumeName _).bind fun x => ?_)
  exact (advances_body advances_serviceElement).yield.forget

/-! ## Schemas -/

theorem advances_syntaxDecl : Advances pre n 1 syntaxDecl := by
  refine .within ((advances_consumeWord _).bind fun t => ?_)
  refine (advances_consumeMark (by decide) _).bind fun _ =>
    (advances_stringLiteral _).bind fun x => ?_
  exact advances_mark (by decide)

/-- An import need not be marked. -/
theorem advances_importModifier : Advances pre n 0 importModifier :=
  .test (peeks_checkWord _) advances_advance.yield
    (.test (peeks_checkWord _) advances_advance.yield (.pure none))

theorem advances_importDecl : Advances pre n 1 importDecl := by
  refine .within
    ((advances_consumeWord _).bind fun t => advances_importModifier.bind fun m => ?_)
  exact (advances_stringLiteral _).bind fun x => advances_mark (by decide)

theorem advances_packageDecl : Advances pre n 1 packageDecl := by
  refine .within ((advances_consumeWord _).bind fun t => ?_)
  exact advances_qualifiedIdentifier.bind fun x => advances_mark (by decide)

theorem advances_messageDecl : Advances pre n 1 messageDecl :=
  (advances_messageDeclOf advances_messageElement).mono (fun _ => id) (Nat.le_succ n) le_rfl

theorem advances_extensionDecl : Advances pre n 1 extensionDecl :=
  (advances_extensionDeclOf advances_messageElement).mono (fun _ => id) (Nat.le_succ n) le_rfl

/-- Every statement at the top level takes a token. -/
theorem advances_schemaElement : Advances pre n 1 schemaElement := by
  refine .accept (by decide) (.pure none) ?_
  refine .test (peeks_checkWord _) advances_importDecl.yield ?_
  refine .test (peeks_checkWord _) advances_packageDecl.yield ?_
  refine .test (peeks_checkKeyword _) advances_optionStatement.yield ?_
  refine .test (peeks_checkKeyword _) advances_messageDecl.yield ?_
  refine .test (peeks_checkKeyword _) advances_enumDecl.yield ?_
  refine .test (peeks_checkKeyword _) advances_extensionDecl.yield ?_
  exact .test (peeks_checkWord _) advances_serviceDecl.yield (advances_reject _)

/-- A schema may hold nothing. -/
theorem advances_schema : Advances pre n 0 schema := by
  have elements {pre : Token → Prop} (level : Option SyntaxDecl) : Advances pre n 0 (do
      let es ← whileMore (return !(← atEnd)) schemaElement
      return (⟨level, es.filterMap id⟩ : Schema)) :=
    Advances.yield (.whileMore (peeks_atEnd.bind_pure (! ·)) advances_schemaElement)
  refine .test (peeks_checkWord _) ?_ (elements none)
  exact advances_syntaxDecl.forget.bind fun d => elements (some d)

end ProtoSchema.Grammar
