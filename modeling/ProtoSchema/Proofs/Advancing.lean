import ProtoSchema.Proofs.Advancing.Round
import ProtoSchema.Proofs.Advancing.Schema
import ProtoSchema.Proofs.Calling

/-!
# Reading comes to an end

Wherever a production is read, in any tokens with an end token ahead, its run is over after
finitely many steps. A production that yields something has taken a token, except that a
schema may hold nothing and options may be left out; so no loop and no production that uses
itself comes round where it was before. The tokens need not be well made, and there may be end
tokens among them.
-/
namespace ProtoSchema

open Parse Grammar

variable {α : Type} {tokens : List Token} {s : ParseState} {e : Token}

namespace ParserCall

/-- Does the call read a production? The others look at tokens, take one or reject one. -/
def isProduction : ParserCall α → Bool
  | current | look _ | atEnd | check _ | checkWord _ | checkKeyword _ | accept _ | advance
  | reject _
  | consume _ _ | consumeWord _ | consumeName _ => false
  | _ => true

/-- Can the production be read from no token at all? -/
def mayTakeNone : ParserCall α → Bool
  | schema | optionalCompactOptions => true
  | _ => false

/-- The least number of tokens that the production is read from. -/
def leastTaken (c : ParserCall α) : ℕ := if c.mayTakeNone then 0 else 1

theorem looksAway_of_isProduction {c : ParserCall α} (hc : c.isProduction = true) :
    c.looksAway = false := by
  cases c with
  | look _ => cases hc
  | _ => rfl

theorem mayTakeNone_or_pos {c : ParserCall α} {k : ℕ} (h : c.leastTaken ≤ k) :
    c.mayTakeNone = true ∨ 0 < k := by
  unfold leastTaken at h
  split_ifs at h with none
  · exact .inl none
  · exact .inr h

end ParserCall

theorem BodyElement.advances_production {n : ℕ} (element : BodyElement α) :
    Advances (fun _ => True) n 1 element.production := by
  have enough {β : Type} {p : Parse β} (h : Advances (fun _ => True) (n + 1) 1 p) :
      Advances (fun _ => True) n 1 p := h.less (Nat.le_succ n)
  cases element with
  | message => exact advances_messageElement
  | oneof => exact (enough (advances_oneofElementOf advances_messageElement)).map
  | enum => exact advances_enumElement
  | extension => exact (enough (advances_memberOf advances_messageElement)).map
  | service => exact advances_serviceElement
  | method => exact advances_methodElement

theorem ParserCall.advances (c : ParserCall α) (hc : c.isProduction = true) (n : ℕ) :
    Advances (fun _ => True) n c.leastTaken c.step := by
  have enough {β : Type} {p : Parse β} (h : Advances (fun _ => True) (n + 1) 1 p) :
      Advances (fun _ => True) n 1 p := h.less (Nat.le_succ n)
  cases c with
  | current | look _ | atEnd | check _ | checkWord _ | checkKeyword _ | accept _ | advance
  | reject _
  | consume _ _ | consumeWord _ | consumeName _ => cases hc
  | schema => exact advances_schema
  | qualifiedIdentifier => exact advances_qualifiedIdentifier
  | typeName => exact advances_typeName
  | stringLiteral wanted => exact advances_stringLiteral wanted
  | unsignedInteger wanted => exact advances_unsignedInteger wanted
  | signedInteger wanted => exact advances_signedInteger wanted
  | syntaxDecl => exact advances_syntaxDecl
  | schemaElement => exact advances_schemaElement
  | importDecl => exact advances_importDecl
  | packageDecl => exact advances_packageDecl
  | optionName => exact advances_optionName
  | optionNamePart => exact advances_optionNamePart
  | optionStatement => exact advances_optionStatement
  | compactOptions => exact advances_compactOptions
  | compactOption => exact advances_compactOption
  | optionalCompactOptions => exact advances_optionalCompactOptions
  | optionValue => exact advances_optionValue
  | scalarValue => exact advances_scalarValue
  | messageLiteral => exact advances_messageLiteral
  | literalEntry => exact advances_literalEntryOf advances_messageLiteral
  | entryValue => exact advances_entryValueOf advances_messageLiteral
  | listLiteral => exact advances_listLiteralOf advances_messageLiteral
  | listElement => exact advances_optionValueOf advances_messageLiteral
  | messageList => exact advances_messageListOf advances_messageLiteral
  | body element => exact advances_body element.advances_production
  | messageDecl => exact advances_messageDecl
  | messageElement => exact advances_messageElement
  | member => exact enough (advances_memberOf advances_messageElement)
  | fieldDecl c start => exact advances_fieldDecl c start
  | mapFieldDecl => exact advances_mapFieldDecl
  | groupDecl c start => exact enough (advances_groupDeclOf advances_messageElement c start)
  | oneofDecl => exact enough (advances_oneofDeclOf advances_messageElement)
  | oneofElement => exact enough (advances_oneofElementOf advances_messageElement)
  | extensionRangeDecl => exact advances_extensionRangeDecl
  | tagRanges signed => exact advances_tagRanges signed
  | tagRange signed => exact advances_tagRange signed
  | reservedDecl signed => exact advances_reservedDecl signed
  | enumDecl => exact advances_enumDecl
  | enumElement => exact advances_enumElement
  | enumValueDecl => exact advances_enumValueDecl
  | extensionDecl => exact advances_extensionDecl
  | serviceDecl => exact advances_serviceDecl
  | serviceElement => exact advances_serviceElement
  | methodDecl => exact advances_methodDecl
  | methodType => exact advances_methodType
  | methodElement => exact advances_methodElement

/-- At the first end token and before it there is an end token ahead. -/
theorem ParseState.bounded_of_le (hs : s.tokens = tokens.toArray) (hmem : e ∈ tokens)
    (he : e.kind = .endOfInput) (hle : s.index ≤ firstEnd tokens) : s.Bounded := by
  obtain ⟨t, ht, hend⟩ := getElem?_firstEnd hmem he
  refine ⟨t, List.mem_of_getElem? (i := firstEnd tokens - s.index) ?_, hend⟩
  rw [ahead, hs, List.getElem?_drop, Nat.add_sub_cancel' hle, ht]

/-- Any tokens with an end token among them, and a production that is read from a place before
the first one or from there. Its run is over after finitely many steps, with a value or with a
failure at a token or a number. It goes forward, not past the first end token, and it has
taken a token if it yields something, but for a schema, which may be empty, and for options
that may be left out. Whenever a loop or a production that uses itself comes round in it, that
is behind where it was entered and no further than the first end token: fewer tokens are left
up to there, and at that token nothing comes round. -/
theorem ParserCall.terminates (c : ParserCall α) (hc : c.isProduction = true)
    (hmem : e ∈ tokens) (he : e.kind = .endOfInput) (hs : s.tokens = tokens.toArray)
    (hle : s.index ≤ firstEnd tokens) :
    (∃ entered, Runs c.step s entered (c.step s)) ∧
    (c.step s).1 ≠ .error .endless ∧ (c.step s).1 ≠ .error .noToken ∧
    s.index ≤ (c.step s).2.index ∧ (c.step s).2.index ≤ firstEnd tokens ∧
    (∀ a, (c.step s).1 = .ok a → c.mayTakeNone = true ∨ s.index < (c.step s).2.index) ∧
    ∀ u v, Repeats c.step s u v →
      s.index ≤ u.index ∧ u.index < v.index ∧ v.index ≤ firstEnd tokens := by
  have bounded := ParseState.bounded_of_le hs hmem he hle
  obtain ⟨t, ht, hend⟩ := getElem?_firstEnd hmem he
  rw [← List.getElem?_toArray, ← hs] at ht
  have passes := c.passes s
  have onward := c.advances hc s.remaining s bounded le_rfl fun _ _ => trivial
  have fine : (c.step s).1 ≠ .error .endless ∧ (c.step s).1 ≠ .error .noToken := by
    obtain ⟨k, -, ⟨a, ha, -⟩ | ⟨e, he, endless, noToken⟩⟩ := onward
    · rw [ha]
      exact ⟨nofun, nofun⟩
    · rw [he]
      exact ⟨fun h => endless (Except.error.inj h), fun h => noToken (Except.error.inj h)⟩
  refine ⟨c.traced (looksAway_of_isProduction hc) s, fine.1, fine.2, passes.index_le,
    passes.index_le_of_end hle ht hend, fun a ha => ?_, fun u v h => ?_⟩
  · obtain ⟨k, -, ⟨b, hb, taken⟩ | ⟨e, he, -⟩⟩ := onward
    · rw [hb]
      exact (mayTakeNone_or_pos taken).imp_right fun pos => Nat.lt_add_of_pos_right pos
    · rw [he] at ha
      cases ha
  · obtain ⟨before, between⟩ := h.passes
    have hu : u.index ≤ firstEnd tokens := before.index_le_of_end hle ht hend
    rw [← before.tokens] at ht
    have hv : v.index ≤ firstEnd tokens := between.index_le_of_end hu ht hend
    have less := h.remaining_lt fine.1
    have same : v.tokens = u.tokens := between.tokens
    simp only [ParseState.remaining, same] at less
    exact ⟨before.index_le, by omega, hv⟩

/-- The tokens of `a.b`. -/
def dottedName : List Token :=
  [Rendering.sampleToken .identifier "a", Rendering.sampleToken .dot ".",
    Rendering.sampleToken .identifier "b", Rendering.endToken]

/-- The loop over the parts of the name is entered behind the first of them and comes round
behind the second, at the end token. -/
theorem ParserCall.terminates_dottedName :
    qualifiedIdentifier.isProduction = true ∧ Rendering.endToken ∈ dottedName ∧
      Rendering.endToken.kind = .endOfInput ∧
      (qualifiedIdentifier.step (.start dottedName)).1 ≠ .error .endless ∧
      Repeats qualifiedIdentifier.step (.start dottedName) (.past (.start dottedName) 1)
        (.past (.start dottedName) 3) ∧
      (ParseState.past (.start dottedName) 3).index ≤ firstEnd dottedName := by
  have hc : qualifiedIdentifier.isProduction = true := rfl
  have hmem : Rendering.endToken ∈ dottedName := by simp [dottedName]
  have name : Traced identifier := (traced_consume _ _).yield
  have round : Repeats qualifiedIdentifier.step (.start dottedName)
      (.past (.start dottedName) 1)
      (.past (.start dottedName) 3) :=
    .loop (.first (.next (name.runs rfl) (.first (.here _ _)))) ((traced_accept _).runs rfl)
      (name.runs rfl)
  obtain ⟨-, fine, -, -, -, -, rounds⟩ :=
    qualifiedIdentifier.terminates (s := .start dottedName) hc
    hmem rfl rfl (Nat.zero_le (firstEnd dottedName))
  exact ⟨hc, hmem, rfl, fine, round, (rounds _ _ round).2.2⟩

end ProtoSchema
