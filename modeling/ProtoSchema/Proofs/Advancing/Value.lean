import ProtoSchema.Grammar.Option
import ProtoSchema.Proofs.Advancing.Step

/-!
# The productions for option values get on

Each production for names, numbers, option values and options takes a token if it yields
something. A message within a message is read behind its opening bracket, where fewer tokens
are left.
-/
namespace ProtoSchema.Grammar

open Parse

variable {n : ℕ} {pre : Token → Prop}

/-! ## Names and numbers -/

theorem advances_identifier : Advances pre n 1 identifier :=
  (advances_consume (by decide) _).yield

/-- A loop behind a step: each round takes a point, so it ends. -/
theorem advances_qualifiedIdentifier : Advances pre n 1 qualifiedIdentifier :=
  (Advances.separatedBy (by decide) advances_identifier).yield

/-- With a point in front or without, a type takes a token. -/
theorem advances_typeName : Advances pre n 1 typeName :=
  .accept (by decide) advances_qualifiedIdentifier.yield.forget
    (.test (peeks_check _) advances_qualifiedIdentifier (advances_reject _))

/-- A string is one literal at least. -/
theorem advances_stringLiteral (wanted : Expectation) :
    Advances pre n 1 (stringLiteral wanted) := by
  refine (advances_consume (by decide) _).bind fun t =>
    Advances.yield (.whileMore (peeks_check _) ?_)
  refine advances_advance_some fun u hu => ?_
  rw [of_decide_eq_true hu]
  nofun

theorem advances_unsignedInteger (wanted : Expectation) :
    Advances pre n 1 (unsignedInteger wanted) :=
  (advances_consume (by decide) _).bind fun _ => advances_ofNumeral _

theorem advances_signedInteger (wanted : Expectation) :
    Advances pre n 1 (signedInteger wanted) :=
  (advances_accept (by decide)).bind fun _ => (advances_unsignedInteger wanted).yield

theorem advances_fieldNumber : Advances pre n 1 fieldNumber := advances_unsignedInteger _

/-! ## Scalars -/

/-- A token that is known not to be the end is taken. -/
theorem advances_take {t : Token} (h : t.kind ≠ .endOfInput) : Advances (· = t) n 1 advance :=
  advances_advance_some fun _ hu => hu ▸ h

/-- Behind a sign a number takes a token. -/
theorem advances_signedNumber (negative : Bool) :
    Advances pre n 1 (signedNumber negative) := by
  refine .current fun t => .ite (fun hi => ?_) fun _ => .peek (peeks_checkWord _) fun b => ?_
  · have notEnd : t.kind ≠ .endOfInput := by simp [hi]
    exact (advances_take notEnd).bind fun _ => (advances_ofNumeral _).yield
  · refine .ite (fun h => ?_) fun _ => advances_reject _
    refine (advances_advance_some fun u hu => ?_).bind fun _ => (advances_ofNumeral _).yield
    obtain ⟨rfl, hword⟩ := hu
    rcases Bool.or_eq_true_iff.mp h with real | word
    · simp [of_decide_eq_true real]
    · exact ne_end_of_isWord (hword.trans word)

/-- The token that a scalar starts with is taken in every case. -/
theorem advances_scalarFrom (t : Token) : Advances (· = t) n 1 (scalarFrom t) := by
  have taken (h : t.kind ≠ .endOfInput) : Advances (· = t) n 1 advance := advances_take h
  unfold scalarFrom
  split
  · exact (advances_stringLiteral _).yield
  · next hk => exact (taken (by simp [hk])).bind fun _ => (advances_signedNumber false).forget
  · next hk => exact (taken (by simp [hk])).bind fun _ => (advances_signedNumber true).forget
  · next hk => exact (taken (by simp [hk])).bind fun _ => (advances_ofNumeral _).yield
  · next hk => exact (taken (by simp [hk])).bind fun _ => (advances_ofNumeral _).yield
  · next hk => exact (taken (by simp [hk])).yield
  · exact advances_reject _

theorem advances_scalarValue : Advances pre n 1 scalarValue :=
  .within (.current fun t => (advances_scalarFrom t).yield)

/-! ## Parts of messages -/

/-- Brackets are tokens, whatever is between them. -/
theorem advances_bracketed {α : Type} {p : Parse α} (h : Advances (fun _ => True) n 1 p) :
    Advances pre n 1 (bracketed p) := by
  refine (advances_consume (by decide) _).bind fun t => ?_
  have close {m : ℕ} (as : List α) : Advances (fun _ => True) m 0 (do
      if ← check .rightBracket then
        let _ ← advance
        return (as, t.position)
      else expect [.spelled ",", .spelled "]"]) :=
    .test (peeks_check _) advances_advance.yield (advances_reject _)
  refine .test (peeks_check _) ((close []).less le_rfl) ?_
  exact (Advances.separatedBy (by decide) (h.less (Nat.sub_le n 1))).bind close

section Parts

variable {message : Parse MessageLiteral} (hm : Advances (fun _ => True) n 1 message)

include hm

theorem advances_optionValueOf : Advances pre n 1 (optionValueOf message) :=
  .test peeks_atMessageLiteral (hm.less le_rfl).yield advances_scalarValue.yield

theorem advances_listLiteralOf : Advances pre n 1 (listLiteralOf message) :=
  .within (advances_bracketed (advances_optionValueOf hm))

theorem advances_messageListOf : Advances pre n 1 (messageListOf message) :=
  .within (advances_bracketed hm)

/-- The value of an entry takes a token, if messages do. -/
theorem advances_entryValueOf : Advances pre n 1 (entryValueOf message) := by
  refine .test peeks_atMessageLiteral (hm.less le_rfl).yield ?_
  exact .test (peeks_check _) (advances_listLiteralOf hm).yield advances_scalarValue.yield

omit hm in
theorem advances_entryName : Advances pre n 1 entryName := by
  have close {m : ℕ} (x : Text × EntryNameKind) : Advances (fun _ => True) m 0 (do
      consumeMark .rightBracket "]"
      return x) := advances_mark (by decide)
  refine .accept (by decide) ?_ (advances_consume (by decide) _).yield
  refine advances_qualifiedIdentifier.bind fun x => .accept (by decide) ?_ (close _)
  exact advances_qualifiedIdentifier.bind fun y => close _

theorem advances_literalEntryOf : Advances pre n 1 (literalEntryOf message) := by
  refine .within (.current fun t => advances_entryName.bind fun x => ?_)
  have fewer : Advances (fun _ => True) (n - 1) 1 message := hm.less (Nat.sub_le n 1)
  refine .accept (by decide)
    ((advances_entryValueOf fewer).less (Nat.sub_le _ 1)).yield.forget ?_
  refine .test peeks_atMessageLiteral (fewer.less le_rfl).yield.forget ?_
  exact .test (peeks_check _) (advances_messageListOf fewer).yield.forget .reject

omit hm in
theorem advances_openMessage : Advances pre n 1 openMessage :=
  .accept (by decide) (.pure _) (.accept (by decide) (.pure _) (advances_reject _))

/-- A message literal takes a bracket before it comes to what it holds, so one token fewer is
left there. -/
theorem advances_messageLiteralOf : Advances pre (n + 1) 1 (messageLiteralOf message) := by
  refine .within (.current fun t => advances_openMessage.bind fun (close, closeMark) => ?_)
  have entry {pre : Token → Prop} : Advances pre n 1 (do
      let entry ← literalEntryOf message
      let _ ← accept [.comma, .semicolon]
      return entry) :=
    (advances_literalEntryOf hm).bind fun _ => (advances_accept (by decide)).yield
  have notClosed : Peeks (return !(← check close)) fun t => !decide (t.kind = close) :=
    (peeks_check close).bind_pure (! ·)
  refine Advances.bind (.whileMore notClosed ?_) fun es => advances_advance.yield
  exact .test (peeks_check _) entry (.test (peeks_check _) entry .reject)

end Parts

/-- So a message literal ends, however deep it goes. -/
theorem advances_messageLiteral : Advances pre n 1 messageLiteral :=
  .recursive fun _ _ h => advances_messageLiteralOf h

/-! ## Options -/

theorem advances_optionNamePart : Advances pre n 1 optionNamePart := by
  refine .current fun t => .accept (by decide) ?_ ?_
  · exact advances_typeName.bind fun x => advances_mark (by decide)
  · refine .test (peeks_check _) (Advances.yield (advances_advance_some fun u hu => ?_))
      (advances_reject _)
    rw [of_decide_eq_true hu.2]
    nofun

/-- A name has a part at least. -/
theorem advances_optionName : Advances pre n 1 optionName := by
  have parts : Advances pre n 1 (separatedBy .dot optionNamePart) :=
    .separatedBy (by decide) advances_optionNamePart
  exact parts.within

theorem advances_optionValue : Advances pre n 1 optionValue :=
  .within (advances_optionValueOf advances_messageLiteral)

/-- An option statement takes the word it starts with. -/
theorem advances_optionStatement : Advances pre n 1 optionStatement := by
  refine .within (advances_advance.bind fun t => advances_optionName.bind fun x => ?_)
  refine (advances_consumeMark (by decide) _).bind fun _ =>
    advances_optionValue.bind fun v => ?_
  exact advances_mark (by decide)

theorem advances_compactOption : Advances pre n 1 compactOption := by
  refine .current fun t => advances_optionName.bind fun x => ?_
  exact (advances_consumeMark (by decide) _).bind fun _ => advances_optionValue.yield.forget

/-- Options in brackets take the brackets. -/
theorem advances_compactOptions : Advances pre n 1 compactOptions := by
  have options : Advances (fun _ => True) (n - 1) 1 (separatedBy .comma compactOption) :=
    .separatedBy (by decide) advances_compactOption
  refine .within ((advances_consumeMark (by decide) _).bind fun _ =>
    options.bind fun os => ?_)
  exact .test (peeks_check _) advances_advance.yield (advances_reject _)

/-- There may be no options. -/
theorem advances_optionalCompactOptions : Advances pre n 0 optionalCompactOptions :=
  .test (peeks_check _) advances_compactOptions.forget (.pure [])

end ProtoSchema.Grammar
