import ProtoSchema.Proofs.Calling
import ProtoSchema.Proofs.Carrying.Schema

/-!
# How far a call looks

What a call comes to is settled by the tokens from where it starts to where it stops, whether
it yields something or fails there: neither those in front nor those behind have a bearing on
it. Two productions look at the token behind the next one, but then they take the next one.
The tokens need not be well made, and there may be end tokens among them; the last one is one.

One thing is excepted, and no source has it: a token that is marked as the soft keyword
`stream` but is no identifier. By itself in the parentheses of a method's type it is rejected,
for the closing one behind it; in front of any other token it is taken as that word.
-/
namespace ProtoSchema

open Parse Grammar

variable {α : Type}

/-! ## Calls on two lists -/

theorem BodyElement.exists_carries (element : BodyElement α) : ∃ f : α → α, ∀ source target,
    Transfer.Carries ⟨source, target, id⟩ (Option.map f) element.production
      element.production := by
  cases element with
  | message => exact ⟨(·.relocate id), fun _ _ => carries_messageElement⟩
  | oneof =>
    exact ⟨(·.relocate id), fun _ _ =>
      (carries_oneofElementOf carries_messageElement).yield fun _ => rfl⟩
  | enum => exact ⟨(·.relocate id), fun _ _ => carries_enumElement⟩
  | extension =>
    exact ⟨(·.relocate id), fun _ _ =>
      (carries_memberOf carries_messageElement).yield fun _ => rfl⟩
  | service => exact ⟨(·.relocate id), fun _ _ => carries_serviceElement⟩
  | method => exact ⟨(·.relocate id), fun _ _ => carries_methodElement⟩

/-- Every call but one that looks any way off carries over to a list with the same tokens. -/
theorem ParserCall.exists_carries (c : ParserCall α) (hc : c.looksAway = false) : ∃ f : α → α,
    ∀ source target, Transfer.Carries ⟨source, target, id⟩ f c.step c.step := by
  cases c with
  | look _ => cases hc
  | current => exact ⟨Token.relocate id, fun _ _ => Transfer.carries_current⟩
  | atEnd => exact ⟨id, fun _ _ => .peek_last peeks_atEnd fun _ _ => rfl⟩
  | check kind => exact ⟨id, fun _ _ => .peek_last (peeks_check kind) fun _ _ => rfl⟩
  | checkWord word => exact ⟨id, fun _ _ => .peek_last (peeks_checkWord word) fun _ _ => rfl⟩
  | checkKeyword word =>
    exact ⟨id, fun _ _ => .peek_last (peeks_checkKeyword word) fun _ _ => rfl⟩
  | accept kinds => exact ⟨id, fun _ _ => Transfer.carries_accept kinds⟩
  | advance => exact ⟨Token.relocate id, fun _ _ => Transfer.carries_advance⟩
  | reject complaint => exact ⟨id, fun _ _ => Transfer.carries_reject complaint⟩
  | consume kind wanted =>
    exact ⟨Token.relocate id, fun _ _ => Transfer.carries_consume kind wanted⟩
  | consumeWord word =>
    exact ⟨Token.relocate id, fun _ _ => Transfer.carries_consumeWord word⟩
  | consumeName wanted => exact ⟨id, fun _ _ => Transfer.carries_consumeName wanted⟩
  | schema => exact ⟨(·.relocate id), fun _ _ => carries_schema⟩
  | qualifiedIdentifier => exact ⟨id, fun _ _ => carries_qualifiedIdentifier⟩
  | typeName => exact ⟨id, fun _ _ => carries_typeName⟩
  | stringLiteral wanted => exact ⟨id, fun _ _ => carries_stringLiteral wanted⟩
  | unsignedInteger wanted => exact ⟨id, fun _ _ => carries_unsignedInteger wanted⟩
  | signedInteger wanted => exact ⟨id, fun _ _ => carries_signedInteger wanted⟩
  | syntaxDecl => exact ⟨(·.relocate id), fun _ _ => carries_syntaxDecl⟩
  | schemaElement => exact ⟨Option.map (·.relocate id), fun _ _ => carries_schemaElement⟩
  | importDecl => exact ⟨(·.relocate id), fun _ _ => carries_importDecl⟩
  | packageDecl => exact ⟨(·.relocate id), fun _ _ => carries_packageDecl⟩
  | optionName => exact ⟨(·.map (·.relocate id)), fun _ _ => carries_optionName⟩
  | optionNamePart => exact ⟨(·.relocate id), fun _ _ => carries_optionNamePart⟩
  | optionStatement => exact ⟨(·.relocate id), fun _ _ => carries_optionStatement⟩
  | compactOptions => exact ⟨(·.map (·.relocate id)), fun _ _ => carries_compactOptions⟩
  | compactOption => exact ⟨(·.relocate id), fun _ _ => carries_compactOption⟩
  | optionalCompactOptions =>
    exact ⟨(·.map (·.relocate id)), fun _ _ => carries_optionalCompactOptions⟩
  | optionValue => exact ⟨(·.relocate id), fun _ _ => carries_optionValue⟩
  | scalarValue => exact ⟨(·.relocate id), fun _ _ => carries_scalarValue⟩
  | messageLiteral => exact ⟨(·.relocate id), fun _ _ => carries_messageLiteral⟩
  | literalEntry =>
    exact ⟨(·.relocate id), fun _ _ => carries_literalEntryOf carries_messageLiteral⟩
  | entryValue =>
    exact ⟨(·.relocate id), fun _ _ => carries_entryValueOf carries_messageLiteral⟩
  | listLiteral =>
    exact ⟨fun r => (r.1.map (·.relocate id), r.2), fun _ _ =>
      carries_listLiteralOf carries_messageLiteral⟩
  | listElement =>
    exact ⟨(·.relocate id), fun _ _ => carries_optionValueOf carries_messageLiteral⟩
  | messageList =>
    exact ⟨fun r => (r.1.map (·.relocate id), r.2), fun _ _ =>
      carries_messageListOf carries_messageLiteral⟩
  | body element =>
    obtain ⟨f, carries⟩ := element.exists_carries
    exact ⟨List.map f, fun source target => carries_body (carries source target)⟩
  | messageDecl =>
    exact ⟨(·.relocate id), fun _ _ => carries_messageDeclOf carries_messageElement⟩
  | messageElement => exact ⟨Option.map (·.relocate id), fun _ _ => carries_messageElement⟩
  | member => exact ⟨(·.relocate id), fun _ _ => carries_memberOf carries_messageElement⟩
  | fieldDecl c start =>
    exact ⟨(·.relocate id), fun _ _ => (enters_fieldDecl c start).carries⟩
  | mapFieldDecl => exact ⟨(·.relocate id), fun _ _ => enters_mapFieldDecl.carries⟩
  | groupDecl c start =>
    exact ⟨(·.relocate id), fun _ _ => carries_groupDeclOf carries_messageElement c start⟩
  | oneofDecl =>
    exact ⟨(·.relocate id), fun _ _ => carries_oneofDeclOf carries_messageElement⟩
  | oneofElement =>
    exact ⟨(·.relocate id), fun _ _ => carries_oneofElementOf carries_messageElement⟩
  | extensionRangeDecl => exact ⟨(·.relocate id), fun _ _ => carries_extensionRangeDecl⟩
  | tagRanges signed => exact ⟨(·.map (·.relocate id)), fun _ _ => carries_tagRanges signed⟩
  | tagRange signed => exact ⟨(·.relocate id), fun _ _ => carries_tagRange signed⟩
  | reservedDecl signed => exact ⟨(·.relocate id), fun _ _ => carries_reservedDecl signed⟩
  | enumDecl => exact ⟨(·.relocate id), fun _ _ => carries_enumDecl⟩
  | enumElement => exact ⟨Option.map (·.relocate id), fun _ _ => carries_enumElement⟩
  | enumValueDecl => exact ⟨(·.relocate id), fun _ _ => carries_enumValueDecl⟩
  | extensionDecl =>
    exact ⟨(·.relocate id), fun _ _ => carries_extensionDeclOf carries_messageElement⟩
  | serviceDecl => exact ⟨(·.relocate id), fun _ _ => carries_serviceDecl⟩
  | serviceElement => exact ⟨Option.map (·.relocate id), fun _ _ => carries_serviceElement⟩
  | methodDecl => exact ⟨(·.relocate id), fun _ _ => carries_methodDecl⟩
  | methodType => exact ⟨id, fun _ _ => carries_methodType⟩
  | methodElement => exact ⟨Option.map (·.relocate id), fun _ _ => carries_methodElement⟩

/-! ## What a call depends on -/

variable {s : ParseState} {tokens : Array Token}

/-- Where tokens end in an end token there is one ahead of every place among them. -/
theorem ParseState.bounded_of_lt (hend : ∃ e ∈ s.tokens.back?, e.kind = .endOfInput)
    (hs : s.index < s.tokens.size) : s.Bounded := by
  obtain ⟨e, he, hk⟩ := hend
  refine ⟨e, List.mem_of_getElem? (i := s.tokens.size - 1 - s.index) ?_, hk⟩
  rw [Array.back?_eq_getElem?] at he
  rw [ahead, List.getElem?_drop, Nat.add_sub_cancel' (by omega), Array.getElem?_toList]
  exact he

/-- Two lists of tokens that have the same tokens from a place up to the one where a call
stops that is made there on the first, which ends in an end token. On the second list the call
comes to the same at that place: it yields the same or fails in the same way, and it stops at
the same token. The one exception is a call that rejects a falsely marked token that stands by
itself in parentheses. -/
theorem ParserCall.bounded_lookahead (c : ParserCall α) (hc : c.looksAway = false)
    (hend : ∃ e ∈ s.tokens.back?, e.kind = .endOfInput) (hs : s.index < s.tokens.size)
    (same : ∀ i, s.index ≤ i → i ≤ (c.step s).2.index → tokens[i]? = s.tokens[i]?)
    (clean : ∀ e, (c.step s).1 = .error (.unexpected e) →
      ¬e.RejectsFalseStream s.index (c.step s).2) :
    c.step (s.on tokens) = ((c.step s).1, (c.step s).2.on tokens) := by
  obtain ⟨f, carries⟩ := c.exists_carries hc
  have bounded := ParseState.bounded_of_lt hend hs
  exact Transfer.Carries.run_on (carries s.tokens) bounded clean same

/-- The tokens of `(stream) returns`, with one in front and others behind. -/
def streamNamed (front : Token) (behind : List Token) : List Token :=
  front :: Rendering.sampleToken .leftParen "(" ::
    Rendering.sampleToken .identifier "stream" ::
    Rendering.sampleToken .rightParen ")" :: Rendering.sampleToken .identifier "returns" ::
    (behind ++ [Rendering.endToken])

/-- In parentheses alone `stream` is the name of a type, whatever stands around them. -/
theorem ParserCall.bounded_lookahead_stream :
    let s :=
      (ParseState.start (streamNamed (Rendering.sampleToken .identifier "A") [])).past 1
    let tokens := (streamNamed (Rendering.sampleToken .semicolon ";")
      [Rendering.sampleToken .leftParen "("]).toArray
    methodType.looksAway = false ∧ (∃ e ∈ s.tokens.back?, e.kind = .endOfInput) ∧
      s.index < s.tokens.size ∧
      (∀ i, s.index ≤ i → i ≤ (methodType.step s).2.index → tokens[i]? = s.tokens[i]?) ∧
      (∀ e, (methodType.step s).1 = .error (.unexpected e) →
        ¬e.RejectsFalseStream s.index (methodType.step s).2) ∧
      methodType.step (s.on tokens) = (.ok (false, "stream"), (s.past 3).on tokens) := by
  intro s tokens
  have run : methodType.step s = (.ok (false, "stream"), s.past 3) := by
    show Grammar.methodType s = _
    with_unfolding_all rfl
  have hend : ∃ e ∈ s.tokens.back?, e.kind = .endOfInput := ⟨Rendering.endToken, rfl, rfl⟩
  have hs : s.index < s.tokens.size := by decide
  have same : ∀ i, s.index ≤ i → i ≤ (methodType.step s).2.index →
      tokens[i]? = s.tokens[i]? := by
    rw [run]
    intro i hi hle
    obtain rfl | rfl | rfl | rfl : i = 1 ∨ i = 2 ∨ i = 3 ∨ i = 4 := by
      simp only [s, ParseState.past_index, ParseState.start] at hi hle
      omega
    all_goals rfl
  have clean : ∀ e, (methodType.step s).1 = .error (.unexpected e) →
      ¬e.RejectsFalseStream s.index (methodType.step s).2 := by
    rw [run]
    exact clean_ok
  have read := methodType.bounded_lookahead rfl hend hs same clean
  rw [run] at read
  exact ⟨rfl, hend, hs, same, clean, read⟩

/-- A string literal that is marked as the soft keyword `stream`. -/
def markedString : Token := ⟨.string, "stream", ⟨1, 1⟩, true⟩

/-- The tokens of a method's type that starts with the marked string literal. -/
def markedType (behind : List Token) : List Token :=
  Rendering.sampleToken .leftParen "(" :: markedString ::
    (behind ++ [Rendering.sampleToken .rightParen ")", Rendering.endToken])

/-- Directly in front of the closing parenthesis the marked literal is rejected as the name of
a type. With a name behind it, it is taken as the word, though the tokens up to it are the
same. -/
theorem ParserCall.bounded_lookahead_marked :
    (∃ e ∈ (markedType []).getLast?, e.kind = .endOfInput) ∧
      (∃ e ∈ (markedType [Rendering.sampleToken .identifier "a"]).getLast?,
        e.kind = .endOfInput) ∧
      methodType.step (.start (markedType [])) = (.error (.unexpected
        ⟨.expected [.typeName], none, markedString⟩), .past (.start (markedType [])) 1) ∧
      (∀ i ≤ 1, (markedType [Rendering.sampleToken .identifier "a"])[i]? =
        (markedType [])[i]?) ∧
      methodType.step (.start (markedType [Rendering.sampleToken .identifier "a"])) =
        (.ok (true, "a"),
          .past (.start (markedType [Rendering.sampleToken .identifier "a"])) 4) := by
  refine ⟨⟨Rendering.endToken, rfl, rfl⟩, ⟨Rendering.endToken, rfl, rfl⟩, ?_, ?_, ?_⟩
  · show Grammar.methodType _ = _
    with_unfolding_all rfl
  · intro i hi
    obtain rfl | rfl : i = 0 ∨ i = 1 := by omega
    · rfl
    · rfl
  · show Grammar.methodType _ = _
    with_unfolding_all rfl

end ProtoSchema
