import ProtoSchema.Proofs.Tracing.Value
import ProtoSchema.Grammar.Schema

/-!
# Runs of the productions for declarations

The productions for ranges, fields, enums, messages, services and whole schemas are made of
steps whose runs are described.
-/
namespace ProtoSchema.Grammar

open Parse

/-! ## Bodies and ranges -/

/-- A body has a run if its elements have. -/
theorem traced_body {α : Type} {p : Parse (Option α)} (h : Traced p) : Traced (body p) := by
  apply (traced_consumeMark _ _).bind
  intro _
  apply Traced.bind
  · apply (traced_check _).yield.whileMore
    apply traced_atEnd.test
    · exact (traced_reject _).bind fun _ => h
    · exact h
  · exact fun as => traced_advance.yield

theorem traced_rangeNumber (signed : Bool) (wanted : String → Expectation) :
    Traced (rangeNumber signed wanted) :=
  .ite (traced_signedInteger _) (traced_unsignedInteger _)

theorem traced_tagRange (signed : Bool) : Traced (tagRange signed) := by
  refine .within (traced_current.bind fun t => (traced_rangeNumber _ _).bind fun m => ?_)
  apply (traced_checkWord _).test
  · apply traced_advance.bind
    intro _
    apply (traced_checkWord _).test
    · exact traced_advance.yield
    · exact (traced_rangeNumber _ _).yield
  · exact .pure _

theorem traced_tagRanges (signed : Bool) : Traced (tagRanges signed) :=
  (traced_tagRange signed).separatedBy

/-- Names or ranges, told apart by the first token behind the word. -/
theorem traced_reservedDecl (signed : Bool) : Traced (reservedDecl signed) := by
  refine .within (traced_advance.bind fun t => ?_)
  apply (traced_check _).test
  · exact (traced_stringLiteral _).separatedBy.bind fun xs => (traced_consumeMark _ _).yield
  · exact (traced_tagRanges signed).bind fun rs => (traced_consumeMark _ _).yield

theorem traced_extensionRangeDecl : Traced extensionRangeDecl := by
  refine .within (traced_advance.bind fun t => (traced_tagRanges false).bind fun rs => ?_)
  exact traced_optionalCompactOptions.bind fun os => (traced_consumeMark _ _).yield

/-! ## Fields -/

theorem traced_fieldDecl (c : Option Cardinality) (start : Token) :
    Traced (fieldDecl c start) := by
  refine .within (traced_typeName.bind fun x => (traced_consumeName _).bind fun y => ?_)
  refine (traced_consumeMark _ _).bind fun _ => traced_fieldNumber.bind fun n => ?_
  exact traced_optionalCompactOptions.bind fun os => (traced_consumeMark _ _).yield

theorem traced_mapKeyType : Traced mapKeyType := by
  apply traced_current.bind
  intro t
  apply Traced.ite
  · exact (traced_reject _).bind fun _ => traced_advance.yield
  · exact traced_advance.yield

theorem traced_mapFieldDecl : Traced mapFieldDecl := by
  refine .within
    ((traced_consumeWord _).bind fun t => (traced_consumeMark _ _).bind fun _ => ?_)
  refine traced_mapKeyType.bind fun k => (traced_consumeMark _ _).bind fun _ => ?_
  refine traced_typeName.bind fun v => (traced_consumeMark _ _).bind fun _ => ?_
  refine (traced_consumeName _).bind fun x => (traced_consumeMark _ _).bind fun _ => ?_
  refine traced_fieldNumber.bind fun n => traced_optionalCompactOptions.bind fun os => ?_
  exact (traced_consumeMark _ _).yield

/-! ## Enums -/

theorem traced_enumValueDecl : Traced enumValueDecl := by
  refine .within (traced_current.bind fun t => (traced_consumeName _).bind fun x => ?_)
  refine (traced_consumeMark _ _).bind fun _ => (traced_signedInteger _).bind fun n => ?_
  exact traced_optionalCompactOptions.bind fun os => (traced_consumeMark _ _).yield

theorem traced_enumElement : Traced enumElement := by
  apply (traced_accept _).test
  · exact .pure none
  apply (traced_checkKeyword _).test
  · exact traced_optionStatement.yield
  apply (traced_checkKeyword _).test
  · exact (traced_reservedDecl _).yield
  · exact traced_enumValueDecl.yield

theorem traced_enumDecl : Traced enumDecl := by
  refine .within (traced_advance.bind fun t => (traced_consumeName _).bind fun x => ?_)
  exact (traced_body traced_enumElement).yield

/-! ## Messages -/

section Parts

variable {element : Parse (Option MessageElement)} (he : Traced element)

include he

theorem traced_groupDeclOf (c : Option Cardinality) (start : Token) :
    Traced (groupDeclOf element c start) := by
  refine .within (traced_advance.bind fun _ => (traced_consumeName _).bind fun x => ?_)
  refine (traced_consumeMark _ _).bind fun _ => traced_fieldNumber.bind fun n => ?_
  exact traced_optionalCompactOptions.bind fun os => (traced_body he).yield

/-- A field or a group, behind a cardinality or without. -/
theorem traced_memberOf : Traced (memberOf element) := by
  apply traced_current.bind
  intro t
  have behind (c : Option Cardinality) : Traced (do
      if ← checkKeyword "group" then return Member.group (← groupDeclOf element c t)
      else return Member.field (← fieldDecl c t)) :=
    .test (traced_checkKeyword _) (traced_groupDeclOf he c t).yield
      (traced_fieldDecl c t).yield
  apply Traced.ite
  · exact traced_advance.bind fun _ => behind _
  · exact behind _

theorem traced_oneofElementOf : Traced (oneofElementOf element) := by
  apply traced_current.bind
  intro t
  apply (traced_checkKeyword _).test
  · exact traced_optionStatement.yield
  apply (traced_checkKeyword _).test
  · exact (traced_groupDeclOf he none t).yield
  apply Traced.ite (b := (cardinality? t).isSome = true)
  · exact traced_reject _
  · exact (traced_fieldDecl none t).yield

theorem traced_oneofDeclOf : Traced (oneofDeclOf element) := by
  refine .within (traced_advance.bind fun t => (traced_consumeName _).bind fun x => ?_)
  exact (traced_body (traced_oneofElementOf he).map).yield

theorem traced_messageDeclOf : Traced (messageDeclOf element) := by
  refine .within (traced_advance.bind fun t => (traced_consumeName _).bind fun x => ?_)
  exact (traced_body he).yield

theorem traced_extensionDeclOf : Traced (extensionDeclOf element) := by
  refine .within (traced_advance.bind fun t => traced_typeName.bind fun x => ?_)
  exact (traced_body (traced_memberOf he).map).yield

omit he in
theorem traced_atMapField : Traced atMapField :=
  .test (traced_checkWord _) (traced_look 1).yield (.pure false)

/-- An element of a message has a run if the elements that it holds have. -/
theorem traced_messageElementOf : Traced (messageElementOf element) := by
  apply (traced_accept _).test
  · exact .pure none
  apply (traced_checkKeyword _).test
  · exact traced_optionStatement.yield
  apply (traced_checkKeyword _).test
  · exact (traced_messageDeclOf he).yield
  apply (traced_checkKeyword _).test
  · exact traced_enumDecl.yield
  apply (traced_checkKeyword _).test
  · exact (traced_extensionDeclOf he).yield
  apply (traced_checkKeyword _).test
  · exact traced_extensionRangeDecl.yield
  apply (traced_checkKeyword _).test
  · exact (traced_reservedDecl _).yield
  apply (traced_checkKeyword _).test
  · exact (traced_oneofDeclOf he).yield
  apply traced_atMapField.test
  · exact traced_mapFieldDecl.yield
  · exact (traced_memberOf he).yield

end Parts

/-- So every element of a message has a run, however deep it goes. -/
theorem traced_messageElement : Traced messageElement :=
  .recursive fun _ => traced_messageElementOf

/-! ## Services -/

/-- The type of a method, with the look behind the word `stream`. -/
theorem traced_methodType : Traced methodType := by
  apply (traced_consumeMark _ _).bind
  intro _
  have type (streaming : Bool) : Traced (do
      let type ← typeName
      consumeMark .rightParen ")"
      return (streaming, type)) :=
    traced_typeName.bind fun x => (traced_consumeMark _ _).yield
  have marked (streaming : Bool) : Traced (do
      if streaming then
        let _ ← advance
      let type ← typeName
      consumeMark .rightParen ")"
      return (streaming, type)) := by
    cases streaming with
    | true => exact traced_advance.bind fun _ => type true
    | false => exact type false
  apply (traced_checkKeyword _).test
  · exact (traced_look 1).bind fun u => marked (decide (u.kind ≠ .rightParen))
  · exact marked false

theorem traced_methodElement : Traced methodElement := by
  apply (traced_accept _).test
  · exact .pure none
  apply (traced_checkKeyword _).test
  · exact traced_optionStatement.yield
  · exact traced_reject _

theorem traced_methodDecl : Traced methodDecl := by
  refine .within
    ((traced_consumeWord _).bind fun t => (traced_consumeName _).bind fun x => ?_)
  refine traced_methodType.bind fun input => (traced_consumeWord _).bind fun _ => ?_
  refine traced_methodType.bind fun output => ?_
  apply (traced_check _).test
  · exact (traced_body traced_methodElement).yield
  apply (traced_accept _).test
  · exact .pure _
  · exact (traced_reject _).yield

theorem traced_serviceElement : Traced serviceElement := by
  apply (traced_accept _).test
  · exact .pure none
  apply (traced_checkKeyword _).test
  · exact traced_optionStatement.yield
  apply (traced_checkWord _).test
  · exact traced_methodDecl.yield
  · exact traced_reject _

theorem traced_serviceDecl : Traced serviceDecl := by
  refine .within
    ((traced_consumeWord _).bind fun t => (traced_consumeName _).bind fun x => ?_)
  exact (traced_body traced_serviceElement).yield

/-! ## Schemas -/

theorem traced_syntaxDecl : Traced syntaxDecl := by
  refine .within
    ((traced_consumeWord _).bind fun t => (traced_consumeMark _ _).bind fun _ => ?_)
  exact (traced_stringLiteral _).bind fun x => (traced_consumeMark _ _).yield

theorem traced_importModifier : Traced importModifier := by
  apply (traced_checkWord _).test
  · exact traced_advance.yield
  apply (traced_checkWord _).test
  · exact traced_advance.yield
  · exact .pure none

theorem traced_importDecl : Traced importDecl := by
  refine .within ((traced_consumeWord _).bind fun t => traced_importModifier.bind fun m => ?_)
  exact (traced_stringLiteral _).bind fun x => (traced_consumeMark _ _).yield

theorem traced_packageDecl : Traced packageDecl := by
  refine .within
    ((traced_consumeWord _).bind fun t => traced_qualifiedIdentifier.bind fun x => ?_)
  exact (traced_consumeMark _ _).yield

theorem traced_schemaElement : Traced schemaElement := by
  apply (traced_accept _).test
  · exact .pure none
  apply (traced_checkWord _).test
  · exact traced_importDecl.yield
  apply (traced_checkWord _).test
  · exact traced_packageDecl.yield
  apply (traced_checkKeyword _).test
  · exact traced_optionStatement.yield
  apply (traced_checkKeyword _).test
  · exact (traced_messageDeclOf traced_messageElement).yield
  apply (traced_checkKeyword _).test
  · exact traced_enumDecl.yield
  apply (traced_checkKeyword _).test
  · exact (traced_extensionDeclOf traced_messageElement).yield
  apply (traced_checkWord _).test
  · exact traced_serviceDecl.yield
  · exact traced_reject _

/-- A whole schema. -/
theorem traced_schema : Traced schema := by
  have elements (d : Option SyntaxDecl) : Traced (do
      let es ← whileMore (return !(← atEnd)) schemaElement
      return (⟨d, es.filterMap id⟩ : Schema)) :=
    (traced_atEnd.yield.whileMore traced_schemaElement).yield
  apply (traced_checkWord _).test
  · exact traced_syntaxDecl.bind fun d => elements (some d)
  · exact elements none

end ProtoSchema.Grammar
