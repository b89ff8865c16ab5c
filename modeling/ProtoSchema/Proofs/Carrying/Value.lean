import ProtoSchema.Proofs.Parsing.Transfer
import ProtoSchema.Grammar.Option

/-!
# What the productions for option values depend on

The productions for names, numbers, option values and options do the same on other lists with
the same tokens, up to positions. Those for the parts of a message are given two productions
for a whole one, of which the second does on the one list what the first does on the other.
-/
namespace ProtoSchema.Grammar

open Parse Transfer

variable {w : Transfer}

/-! ## Names and numbers -/

theorem carries_identifier : w.Carries id identifier identifier :=
  (carries_consume _ _).yield fun _ => rfl

/-- The parts of a name are joined to a text, which has no positions. -/
theorem carries_qualifiedIdentifier : w.Carries id qualifiedIdentifier qualifiedIdentifier :=
  carries_identifier.separatedBy.yield fun xs => by rw [List.map_id]; rfl

theorem carries_typeName : w.Carries id typeName typeName :=
  .accept (carries_qualifiedIdentifier.yield fun _ => rfl)
    (.check carries_qualifiedIdentifier (carries_reject _))

/-- Adjacent string literals. The loop ends at a token it looks at and does not take. -/
theorem carries_stringLiteral (wanted : Expectation) :
    w.Carries id (stringLiteral wanted) (stringLiteral wanted) := by
  apply (carries_consume _ _).bind
  intro t
  have more : w.Carries id (check .string) (check .string) :=
    .peek_last (peeks_check _) fun _ _ => rfl
  apply (more.whileMore carries_advance).yield
  intro ts
  simp [Token.relocate, Function.comp_def]

theorem carries_unsignedInteger (wanted : Expectation) :
    w.Carries id (unsignedInteger wanted) (unsignedInteger wanted) :=
  (carries_consume _ _).bind fun _ => carries_ofNumeral _

theorem carries_signedInteger (wanted : Expectation) :
    w.Carries id (signedInteger wanted) (signedInteger wanted) :=
  (carries_accept _).bind fun _ => (carries_unsignedInteger wanted).yield fun _ => rfl

theorem carries_fieldNumber : w.Carries id fieldNumber fieldNumber :=
  carries_unsignedInteger _

/-! ## Scalars -/

/-- A number, whose token is looked at to tell which kind it is. -/
theorem carries_signedNumber (negative : Bool) :
    w.Carries id (signedNumber negative) (signedNumber negative) := by
  apply Carries.current
  intro t
  apply Carries.ite
  · exact carries_advance.bind fun _ => (carries_ofNumeral _).yield fun _ => rfl
  · apply Carries.peek (peeks_checkWord _) fun _ _ => rfl
    intro b
    apply Carries.ite
    · exact carries_advance.bind fun _ => (carries_ofNumeral _).yield fun _ => rfl
    · exact carries_reject _

/-- The production is told only the kind and the text of a token, so its position may
differ. -/
theorem carries_scalarFrom (t : Token) : w.Carries id (scalarFrom t) (scalarFrom t) := by
  unfold scalarFrom
  split
  · exact (carries_stringLiteral _).yield fun _ => rfl
  · exact carries_advance.bind fun _ => carries_signedNumber _
  · exact carries_advance.bind fun _ => carries_signedNumber _
  · exact carries_advance.bind fun _ => (carries_ofNumeral _).yield fun _ => rfl
  · exact carries_advance.bind fun _ => (carries_ofNumeral _).yield fun _ => rfl
  · exact carries_advance.yield fun _ => rfl
  · exact carries_reject _

theorem carries_scalarValue : w.Carries (·.relocate w.move) scalarValue scalarValue :=
  .within (.current fun t => (carries_scalarFrom t).yield fun _ => rfl)

/-! ## Parts of messages -/

/-- Elements in brackets, with the position of the opening one. -/
theorem carries_bracketed {α : Type} {f : α → α} {p q : Parse α} (h : w.Carries f p q) :
    w.Carries (fun r => (r.1.map f, w.move r.2)) (bracketed p) (bracketed q) := by
  apply (carries_consume _ _).bind
  intro t
  have close (as : List α) : w.Carries (fun r => (r.1.map f, w.move r.2))
      (do
        if ← check .rightBracket then
          let _ ← advance
          return (as, t.position)
        else expect [.spelled ",", .spelled "]"])
      (do
        if ← check .rightBracket then
          let _ ← advance
          return (as.map f, w.move t.position)
        else expect [.spelled ",", .spelled "]"]) :=
    .check (carries_advance.yield fun _ => rfl) (carries_reject _)
  apply Carries.check
  · exact close []
  · exact h.separatedBy.bind fun as => close as

section Parts

variable {message message' : Parse MessageLiteral}
  (hm : w.Carries (·.relocate w.move) message message')

include hm

/-- The value of an option, if messages do. -/
theorem carries_optionValueOf :
    w.Carries (·.relocate w.move) (optionValueOf message) (optionValueOf message') := by
  apply Carries.atMessageLiteral
  · exact hm.yield fun m => by rw [OptionValue.relocate]
  · exact carries_scalarValue.yield fun v => by rw [OptionValue.relocate]

theorem carries_listLiteralOf :
    w.Carries (fun r => (r.1.map (·.relocate w.move), w.move r.2)) (listLiteralOf message)
      (listLiteralOf message') :=
  .within (carries_bracketed (carries_optionValueOf hm))

theorem carries_messageListOf :
    w.Carries (fun r => (r.1.map (·.relocate w.move), w.move r.2)) (messageListOf message)
      (messageListOf message') :=
  .within (carries_bracketed hm)

theorem carries_entryValueOf :
    w.Carries (·.relocate w.move) (entryValueOf message) (entryValueOf message') := by
  apply Carries.atMessageLiteral
  · exact hm.yield fun m => by rw [EntryValue.relocate]
  apply Carries.check
  · exact (carries_listLiteralOf hm).yield fun r => by
      rw [EntryValue.relocate, OptionValues.relocate_eq]
  · exact carries_scalarValue.yield fun v => by rw [EntryValue.relocate]

omit hm in
theorem carries_entryName : w.Carries id entryName entryName := by
  apply Carries.accept
  · apply carries_qualifiedIdentifier.bind
    intro x
    apply Carries.accept
    · apply carries_qualifiedIdentifier.bind
      intro y
      exact (carries_consumeMark _ _).yield fun _ => rfl
    · exact (carries_consumeMark _ _).yield fun _ => rfl
  · exact (carries_consume _ _).yield fun _ => rfl

/-- An entry of a message, with the position of its first token. -/
theorem carries_literalEntryOf :
    w.Carries (·.relocate w.move) (literalEntryOf message) (literalEntryOf message') := by
  refine .within (.current fun t => carries_entryName.bind fun x => ?_)
  have entry (v : EntryValue) : (LiteralEntry.mk x.1 v x.2 t.position).relocate w.move =
      ⟨x.1, v.relocate w.move, x.2, w.move t.position⟩ := by rw [LiteralEntry.relocate]
  apply Carries.accept
  · exact (carries_entryValueOf hm).yield fun v => (entry v).symm
  apply Carries.atMessageLiteral
  · exact hm.yield fun m => by rw [entry, EntryValue.relocate]; rfl
  apply Carries.check
  · apply (carries_messageListOf hm).yield
    intro r
    rw [entry, EntryValue.relocate, MessageLiterals.relocate_eq]
    rfl
  · exact (carries_reject (f := (·.relocate w.move)) _).yield fun v => (entry v).symm

omit hm in
theorem carries_openMessage : w.Carries id openMessage openMessage :=
  .accept (.pure rfl) (.accept (.pure rfl) (carries_reject _))

/-- A message, if those inside it do. -/
theorem carries_messageLiteralOf :
    w.Carries (·.relocate w.move) (messageLiteralOf message) (messageLiteralOf message') := by
  refine .within (.current fun t => carries_openMessage.bind fun (close, closeMark) => ?_)
  have more : w.Carries id (return !(← check close)) (return !(← check close)) :=
    .peek_last ((peeks_check close).bind_pure (! ·)) fun _ _ => rfl
  have entry : w.Carries (·.relocate w.move)
      (do
        let entry ← literalEntryOf message
        let _ ← accept [.comma, .semicolon]
        return entry)
      (do
        let entry ← literalEntryOf message'
        let _ ← accept [.comma, .semicolon]
        return entry) :=
    (carries_literalEntryOf hm).bind fun e => (carries_accept _).yield fun _ => rfl
  apply Carries.bind (f := List.map (·.relocate w.move))
  · apply more.whileMore
    apply Carries.check
    · exact entry
    apply Carries.check
    · exact entry
    · exact (carries_reject (f := id) _).bind fun _ => entry
  · intro es
    exact carries_advance.yield fun _ => by
      rw [MessageLiteral.relocate, LiteralEntries.relocate_eq]; rfl

end Parts

/-- A message, however deep. -/
theorem carries_messageLiteral :
    w.Carries (·.relocate w.move) messageLiteral messageLiteral :=
  .recursive fun _ _ => carries_messageLiteralOf

/-! ## Options -/

theorem carries_optionNamePart :
    w.Carries (·.relocate w.move) optionNamePart optionNamePart := by
  apply Carries.current
  intro t
  apply Carries.accept
  · exact carries_typeName.bind fun x => (carries_consumeMark _ _).yield fun _ => rfl
  apply Carries.check
  · exact carries_advance.yield fun _ => rfl
  · exact carries_reject _

/-- The parts of a name of an option, each with its position. -/
theorem carries_optionName : w.Carries (·.map (·.relocate w.move)) optionName optionName :=
  .within carries_optionNamePart.separatedBy

theorem carries_optionValue : w.Carries (·.relocate w.move) optionValue optionValue :=
  .within (carries_optionValueOf carries_messageLiteral)

theorem carries_optionStatement :
    w.Carries (·.relocate w.move) optionStatement optionStatement := by
  refine .within (carries_advance.bind fun t => carries_optionName.bind fun x => ?_)
  refine (carries_consumeMark _ _).bind fun _ => carries_optionValue.bind fun v => ?_
  exact (carries_consumeMark _ _).yield fun _ => rfl

/-- An option in brackets, with the position of its first token. -/
theorem carries_compactOption :
    w.Carries (·.relocate w.move) compactOption compactOption := by
  refine .current fun t => carries_optionName.bind fun x => ?_
  exact (carries_consumeMark _ _).bind fun _ => carries_optionValue.yield fun v => rfl

theorem carries_compactOptions :
    w.Carries (·.map (·.relocate w.move)) compactOptions compactOptions := by
  refine .within
    ((carries_consumeMark _ _).bind fun _ => carries_compactOption.separatedBy.bind ?_)
  intro os
  exact .check (carries_advance.yield fun _ => rfl) (carries_reject _)

theorem carries_optionalCompactOptions :
    w.Carries (·.map (·.relocate w.move)) optionalCompactOptions optionalCompactOptions :=
  .check carries_compactOptions (.pure rfl)

end ProtoSchema.Grammar
