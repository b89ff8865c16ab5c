import ProtoSchema.Proofs.Parsing.Runs
import ProtoSchema.Grammar.Option

/-!
# Runs of the productions for option values

The productions for names, numbers, option values and options are made of steps whose runs are
described. Those for the parts of a message are so if the one for a whole message is.
-/
namespace ProtoSchema.Grammar

open Parse

/-! ## Names and numbers -/

theorem traced_identifier : Traced identifier := (traced_consume _ _).yield

/-- A name and a loop over the names behind it, each with a point in front. -/
theorem traced_qualifiedIdentifier : Traced qualifiedIdentifier :=
  traced_identifier.separatedBy.yield

theorem traced_typeName : Traced typeName :=
  .test (traced_accept _) traced_qualifiedIdentifier.yield
    (.test (traced_check _) traced_qualifiedIdentifier (traced_reject _))

theorem traced_stringLiteral (wanted : Expectation) : Traced (stringLiteral wanted) :=
  (traced_consume _ _).bind fun _ => ((traced_check _).whileMore traced_advance).yield

theorem traced_unsignedInteger (wanted : Expectation) : Traced (unsignedInteger wanted) :=
  (traced_consume _ _).bind fun _ => traced_ofNumeral _

theorem traced_signedInteger (wanted : Expectation) : Traced (signedInteger wanted) :=
  (traced_accept _).bind fun _ => (traced_unsignedInteger wanted).yield

theorem traced_fieldNumber : Traced fieldNumber := traced_unsignedInteger _

/-! ## Scalars -/

/-- The two ways in which a number may go on behind its sign. -/
theorem traced_signedNumber (negative : Bool) : Traced (signedNumber negative) := by
  apply traced_current.bind
  intro t
  apply Traced.ite
  · exact traced_advance.bind fun _ => (traced_ofNumeral _).yield
  · apply (traced_checkWord _).bind
    intro b
    apply Traced.ite
    · exact traced_advance.bind fun _ => (traced_ofNumeral _).yield
    · exact traced_reject _

/-- One case for each kind of token that a scalar may start with, and one for all others. -/
theorem traced_scalarFrom (t : Token) : Traced (scalarFrom t) := by
  unfold scalarFrom
  split
  · exact (traced_stringLiteral _).yield
  · exact traced_advance.bind fun _ => traced_signedNumber _
  · exact traced_advance.bind fun _ => traced_signedNumber _
  · exact traced_advance.bind fun _ => (traced_ofNumeral _).yield
  · exact traced_advance.bind fun _ => (traced_ofNumeral _).yield
  · exact traced_advance.yield
  · exact traced_reject _

theorem traced_scalarValue : Traced scalarValue :=
  .within (traced_current.bind fun t => (traced_scalarFrom t).yield)

/-! ## Parts of messages -/

theorem traced_atMessageLiteral : Traced atMessageLiteral :=
  .test (traced_check _) (.pure true) (traced_check _)

/-- Brackets around elements that have runs. -/
theorem traced_bracketed {α : Type} {p : Parse α} (h : Traced p) : Traced (bracketed p) := by
  apply (traced_consume _ _).bind
  intro t
  have close (as : List α) : Traced (do
      if ← check .rightBracket then
        let _ ← advance
        return (as, t.position)
      else expect [.spelled ",", .spelled "]"]) :=
    .test (traced_check _) traced_advance.yield (traced_reject _)
  apply (traced_check _).test
  · exact close []
  · exact h.separatedBy.bind close

section Parts

variable {message : Parse MessageLiteral} (hm : Traced message)

include hm

theorem traced_optionValueOf : Traced (optionValueOf message) :=
  .test traced_atMessageLiteral hm.yield traced_scalarValue.yield

theorem traced_listLiteralOf : Traced (listLiteralOf message) :=
  .within (traced_bracketed (traced_optionValueOf hm))

theorem traced_messageListOf : Traced (messageListOf message) := .within (traced_bracketed hm)

theorem traced_entryValueOf : Traced (entryValueOf message) := by
  apply traced_atMessageLiteral.test
  · exact hm.yield
  apply (traced_check _).test
  · exact (traced_listLiteralOf hm).yield
  · exact traced_scalarValue.yield

omit hm in
theorem traced_entryName : Traced entryName := by
  apply (traced_accept _).test
  · apply traced_qualifiedIdentifier.bind
    intro x
    apply (traced_accept _).test
    · exact traced_qualifiedIdentifier.bind fun y => (traced_consumeMark _ _).yield
    · exact (traced_consumeMark _ _).yield
  · exact (traced_consume _ _).yield

theorem traced_literalEntryOf : Traced (literalEntryOf message) := by
  refine .within (traced_current.bind fun t => traced_entryName.bind fun x => ?_)
  apply (traced_accept _).test
  · exact (traced_entryValueOf hm).yield
  apply traced_atMessageLiteral.test
  · exact hm.yield
  apply (traced_check _).test
  · exact (traced_messageListOf hm).yield
  · exact (traced_reject _).yield

omit hm in
theorem traced_openMessage : Traced openMessage :=
  .test (traced_accept _) (.pure _) (.test (traced_accept _) (.pure _) (traced_reject _))

/-- A message literal has a run if the messages in it have. -/
theorem traced_messageLiteralOf : Traced (messageLiteralOf message) := by
  refine .within
    (traced_current.bind fun t => traced_openMessage.bind fun (close, closeMark) => ?_)
  have entry : Traced (do
      let entry ← literalEntryOf message
      let _ ← accept [.comma, .semicolon]
      return entry) :=
    (traced_literalEntryOf hm).bind fun _ => (traced_accept _).yield
  apply Traced.bind
  · apply (traced_check _).yield.whileMore
    apply (traced_check _).test
    · exact entry
    apply (traced_check _).test
    · exact entry
    · exact (traced_reject _).bind fun _ => entry
  · exact fun es => traced_advance.yield

end Parts

/-- So every message literal has a run, however deep it goes. -/
theorem traced_messageLiteral : Traced messageLiteral :=
  .recursive fun _ => traced_messageLiteralOf

/-! ## Options -/

theorem traced_optionNamePart : Traced optionNamePart := by
  apply traced_current.bind
  intro t
  apply (traced_accept _).test
  · exact traced_typeName.bind fun x => (traced_consumeMark _ _).yield
  apply (traced_check _).test
  · exact traced_advance.yield
  · exact traced_reject _

/-- A name in parts. -/
theorem traced_optionName : Traced optionName := .within traced_optionNamePart.separatedBy

theorem traced_optionValue : Traced optionValue :=
  .within (traced_optionValueOf traced_messageLiteral)

theorem traced_optionStatement : Traced optionStatement := by
  refine .within (traced_advance.bind fun t => traced_optionName.bind fun x => ?_)
  refine (traced_consumeMark _ _).bind fun _ => traced_optionValue.bind fun v => ?_
  exact (traced_consumeMark _ _).yield

theorem traced_compactOption : Traced compactOption := by
  refine traced_current.bind fun t => traced_optionName.bind fun x => ?_
  exact (traced_consumeMark _ _).bind fun _ => traced_optionValue.yield

theorem traced_compactOptions : Traced compactOptions := by
  refine .within
    ((traced_consumeMark _ _).bind fun _ => traced_compactOption.separatedBy.bind ?_)
  intro os
  exact .test (traced_check _) traced_advance.yield (traced_reject _)

theorem traced_optionalCompactOptions : Traced optionalCompactOptions :=
  .test (traced_check _) traced_compactOptions (.pure [])

end ProtoSchema.Grammar
