import ProtoSchema.Proofs.Tracing.Schema
import ProtoSchema.Grammar.Session
import ProtoSchema.Proofs.Rendering.Declaration

/-!
# Parsers between calls

What holds of a parser after any calls, those that fail included: it has passed no end token,
it is within no rule, and a call that rejects a token leaves it as the next one. The tokens
are any with an end token as the last; they need not be well made, and there may be other end
tokens among them.
-/
namespace ProtoSchema

open Parse Grammar

variable {α : Type} {tokens : List Token} {s : ParseState}

/-- The step leaves the state as it is and rejects no token. -/
def Parse.Looks (p : Parse α) : Prop :=
  ∀ s, (p s).2 = s ∧ ∀ e, (p s).1 ≠ .error (.unexpected e)

theorem Parse.looks_look (d : Int) : Looks (look d) := by
  intro s
  unfold look
  cases s.tokenAt? (s.index + d) <;> simp

theorem BodyElement.traced_production (element : BodyElement α) :
    Traced element.production := by
  cases element with
  | message => exact traced_messageElement
  | oneof => exact (traced_oneofElementOf traced_messageElement).map
  | enum => exact traced_enumElement
  | extension => exact (traced_memberOf traced_messageElement).map
  | service => exact traced_serviceElement
  | method => exact traced_methodElement

namespace ParserCall

/-- Does the call look at a token any way off, before the next one too? -/
def looksAway : ParserCall α → Bool
  | look _ => true
  | _ => false

theorem traced (c : ParserCall α) (hc : c.looksAway = false) : Traced c.step := by
  cases c with
  | look _ => cases hc
  | current => exact traced_current
  | atEnd => exact traced_atEnd
  | check kind => exact traced_check kind
  | checkWord word => exact traced_checkWord word
  | checkKeyword word => exact traced_checkKeyword word
  | accept kinds => exact traced_accept kinds
  | advance => exact traced_advance
  | reject complaint => exact traced_reject complaint
  | consume kind wanted => exact traced_consume kind wanted
  | consumeWord word => exact traced_consumeWord word
  | consumeName wanted => exact traced_consumeName wanted
  | schema => exact traced_schema
  | qualifiedIdentifier => exact traced_qualifiedIdentifier
  | typeName => exact traced_typeName
  | stringLiteral wanted => exact traced_stringLiteral wanted
  | unsignedInteger wanted => exact traced_unsignedInteger wanted
  | signedInteger wanted => exact traced_signedInteger wanted
  | syntaxDecl => exact traced_syntaxDecl
  | schemaElement => exact traced_schemaElement
  | importDecl => exact traced_importDecl
  | packageDecl => exact traced_packageDecl
  | optionName => exact traced_optionName
  | optionNamePart => exact traced_optionNamePart
  | optionStatement => exact traced_optionStatement
  | compactOptions => exact traced_compactOptions
  | compactOption => exact traced_compactOption
  | optionalCompactOptions => exact traced_optionalCompactOptions
  | optionValue => exact traced_optionValue
  | scalarValue => exact traced_scalarValue
  | messageLiteral => exact traced_messageLiteral
  | literalEntry => exact traced_literalEntryOf traced_messageLiteral
  | entryValue => exact traced_entryValueOf traced_messageLiteral
  | listLiteral => exact traced_listLiteralOf traced_messageLiteral
  | listElement => exact traced_optionValueOf traced_messageLiteral
  | messageList => exact traced_messageListOf traced_messageLiteral
  | body element => exact traced_body element.traced_production
  | messageDecl => exact traced_messageDeclOf traced_messageElement
  | messageElement => exact traced_messageElement
  | member => exact traced_memberOf traced_messageElement
  | fieldDecl c start => exact traced_fieldDecl c start
  | mapFieldDecl => exact traced_mapFieldDecl
  | groupDecl c start => exact traced_groupDeclOf traced_messageElement c start
  | oneofDecl => exact traced_oneofDeclOf traced_messageElement
  | oneofElement => exact traced_oneofElementOf traced_messageElement
  | extensionRangeDecl => exact traced_extensionRangeDecl
  | tagRanges signed => exact traced_tagRanges signed
  | tagRange signed => exact traced_tagRange signed
  | reservedDecl signed => exact traced_reservedDecl signed
  | enumDecl => exact traced_enumDecl
  | enumElement => exact traced_enumElement
  | enumValueDecl => exact traced_enumValueDecl
  | extensionDecl => exact traced_extensionDeclOf traced_messageElement
  | serviceDecl => exact traced_serviceDecl
  | serviceElement => exact traced_serviceElement
  | methodDecl => exact traced_methodDecl
  | methodType => exact traced_methodType
  | methodElement => exact traced_methodElement

theorem traced_or_looks (c : ParserCall α) : Traced c.step ∨ Looks c.step := by
  cases hc : c.looksAway with
  | false => exact .inl (c.traced hc)
  | true =>
    cases c with
    | look d => exact .inr (looks_look d)
    | _ => cases hc

/-- A call passes over tokens that are not the end, and leaves the rules as they were. -/
theorem passes (c : ParserCall α) (s : ParseState) : s.Passes (c.step s).2 := by
  rcases c.traced_or_looks with traced | looks
  · obtain ⟨entered, run⟩ := traced s
    exact run.passes
  · rw [(looks s).1]
    exact .refl s

/-- A call that rejects a token has been run up to that token. -/
theorem exists_runs (c : ParserCall α) {s : ParseState} {e : SyntaxError}
    (he : (c.step s).1 = .error (.unexpected e)) : ∃ entered,
    Runs c.step s entered (c.step s) := by
  rcases c.traced_or_looks with traced | looks
  · exact traced s
  · exact absurd he ((looks s).2 e)

end ParserCall

theorem ParseState.Reached.passes (h : Reached tokens s) : (start tokens).Passes s := by
  induction h with
  | new => exact .refl _
  | call c _ ih => exact ih.trans (c.passes _)

/-- The place of the first end token. -/
def firstEnd (tokens : List Token) : ℕ := tokens.findIdx (·.kind = .endOfInput)

theorem getElem?_firstEnd {e : Token} (h : e ∈ tokens) (he : e.kind = .endOfInput) :
    ∃ t, tokens[firstEnd tokens]? = some t ∧ t.kind = .endOfInput := by
  have lt : firstEnd tokens < tokens.length :=
    List.findIdx_lt_length_of_exists ⟨e, h, by simpa⟩
  have kind := List.findIdx_getElem (w := lt)
  exact ⟨_, List.getElem?_eq_getElem lt, of_decide_eq_true kind⟩

/-- Between calls a parser stands at the first end token or before it. -/
theorem ParseState.Reached.index_le (h : Reached tokens s) {e : Token} (hmem : e ∈ tokens)
    (he : e.kind = .endOfInput) : s.index ≤ firstEnd tokens := by
  obtain ⟨t, ht, hend⟩ := getElem?_firstEnd hmem he
  rw [← List.getElem?_toArray] at ht
  exact h.passes.index_le_of_end (Nat.zero_le _) ht hend

theorem ParseState.Reached.tokenAt? (h : Reached tokens s) {e : Token} (hmem : e ∈ tokens)
    (he : e.kind = .endOfInput) : s.tokenAt? s.index = tokens[s.index]? := by
  have le := h.index_le hmem he
  obtain ⟨t, ht, -⟩ := getElem?_firstEnd hmem he
  have lt := (List.getElem?_eq_some_iff.mp ht).1
  have same : s.tokens = tokens.toArray := h.passes.tokens
  have inside : s.index < s.tokens.size := by
    rw [same, List.size_toArray]
    omega
  rw [tokenAt?_of_lt inside, same, List.getElem?_toArray]

/-- A parser of tokens that end in an end token, after any calls, and one more call. It goes
forward, and not past the first end token; the rules are what they were before the call; and
where the call rejects a token, that one is the next, and the rule it names is the innermost
of those entered and not left at that moment. -/
theorem ParseState.Reached.call_state (hend : ∃ e ∈ tokens.getLast?, e.kind = .endOfInput)
    (hs : Reached tokens s) (c : ParserCall α) :
    s.index ≤ (c.step s).2.index ∧ (c.step s).2.index ≤ firstEnd tokens ∧
      (c.step s).2.rules = s.rules ∧
      ∀ e, (c.step s).1 = .error (.unexpected e) → tokens[(c.step s).2.index]? =
        some e.actual ∧
        ∃ entered, Runs c.step s entered (c.step s) ∧ e.rule = entered.head? := by
  obtain ⟨last, hlast, hkind⟩ := hend
  have hmem := List.mem_of_getLast? hlast
  have next : Reached tokens (c.step s).2 := .call c hs
  have passes := c.passes s
  refine ⟨passes.index_le, next.index_le hmem hkind, passes.rules, fun e he => ?_⟩
  obtain ⟨entered, run⟩ := c.exists_runs he
  obtain ⟨actual, rule⟩ := run.unexpected he
  rw [next.tokenAt? hmem hkind] at actual
  have none : s.rules = [] := hs.passes.rules
  rw [none, List.append_nil] at rule
  exact ⟨actual, entered, run, rule⟩

/-- The tokens of `package ;`, where the name is missing. -/
def unnamedPackage : List Token :=
  [Rendering.sampleToken .identifier "package", Rendering.sampleToken .semicolon ";",
    Rendering.endToken]

/-- The semicolon is rejected within the declaration of the package, and the parser stands
there when it is asked for a schema. -/
theorem ParseState.Reached.call_state_package :
    (∃ e ∈ unnamedPackage.getLast?, e.kind = .endOfInput) ∧
      Reached unnamedPackage (ParserCall.packageDecl.step (start unnamedPackage)).2 ∧
      (∃ entered, Runs ParserCall.packageDecl.step (start unnamedPackage) entered
        (ParserCall.packageDecl.step (start unnamedPackage)) ∧
        some .packageDecl = entered.head?) ∧
      (ParserCall.schema.step
        (ParserCall.packageDecl.step (start unnamedPackage)).2).2.index ≤
        firstEnd unnamedPackage := by
  have hend : ∃ e ∈ unnamedPackage.getLast?, e.kind = .endOfInput :=
    ⟨Rendering.endToken, rfl, rfl⟩
  have reached :
      Reached unnamedPackage (ParserCall.packageDecl.step (start unnamedPackage)).2 :=
    .call .packageDecl .new
  have rejected : (ParserCall.packageDecl.step (start unnamedPackage)).1 = .error (.unexpected
      ⟨.expected [.anIdentifier "identifier"], some .packageDecl,
        Rendering.sampleToken .semicolon ";"⟩) := by
    show (packageDecl (start unnamedPackage)).1 = _
    rfl
  obtain ⟨-, -, -, named⟩ := Reached.new.call_state hend .packageDecl
  exact ⟨hend, reached, (named _ rejected).2, (reached.call_state hend .schema).2.1⟩

end ProtoSchema
