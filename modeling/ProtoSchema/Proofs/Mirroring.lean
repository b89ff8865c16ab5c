import ProtoSchema.Proofs.Mirroring.Value
import ProtoSchema.Proofs.Parsing.Front
import ProtoSchema.Grammar.Session
import ProtoSchema.Proofs.Rendering.Declaration

/-!
# Braces and angle brackets

Option values and their parts are the same with braces and with angle brackets, wherever in a
list of tokens they are read, and they are rejected alike. The tokens need not be well made,
and there may be end tokens among them; the last one is one. A place behind the last token
counts: it stands there for ever.
-/
namespace ProtoSchema

open Parse Grammar

variable {α : Type}

/-! ## At an end token -/

/-- The rules being read do not matter for what the next token is. -/
theorem ParseState.tokenAt?_rules (s : ParseState) (rules : List Rule) (i : Int) :
    tokenAt? { s with rules := rules } i = s.tokenAt? i := rfl

/-- The step rejects an end token at once. -/
def Parse.RejectsEnd (p : Parse α) (wanted : List Expectation) (rule : Rule) : Prop :=
  ∀ s t, s.tokenAt? s.index = some t → t.kind = .endOfInput →
    p s = (.error (.unexpected ⟨.expected wanted, some rule, t⟩), s)

namespace Grammar

/-- At the end of the tokens the value of an option is missed. -/
theorem rejectsEnd_optionValue : RejectsEnd optionValue [.scalarValue] .scalarValue := by
  intro s t hs ht
  simp [optionValue, optionValueOf, atMessageLiteral, check, scalarValue, scalarFrom,
    within, bind_eq,
    pure_eq, current_eq, ParseState.tokenAt?_rules, expect, reject_run, hs, ht]

theorem rejectsEnd_entryValue : RejectsEnd entryValue [.scalarValue] .scalarValue := by
  intro s t hs ht
  simp [entryValue, entryValueOf, atMessageLiteral, check, scalarValue, scalarFrom,
    within, bind_eq,
    pure_eq, current_eq, ParseState.tokenAt?_rules, expect, reject_run, hs, ht]

theorem rejectsEnd_messageLiteral :
    RejectsEnd messageLiteral [.spelled "\x7b", .spelled "<"] .messageLiteral := by
  intro s t hs ht
  rw [messageLiteral, recursive_eq]
  simp [messageLiteralOf, openMessage, accept, check, within, bind_eq, pure_eq, current_eq,
    ParseState.tokenAt?_rules, expect, reject_run, hs, ht]

theorem rejectsEnd_listLiteral : RejectsEnd listLiteral [.spelled "["] .listLiteral := by
  intro s t hs ht
  simp [listLiteral, listLiteralOf, bracketed, consume, check, within, bind_eq,
    pure_eq, current_eq,
    ParseState.tokenAt?_rules, expect, reject_run, hs, ht]

theorem rejectsEnd_messageList :
    RejectsEnd messageList [.spelled "["] .listOfMessagesLiteral := by
  intro s t hs ht
  simp [messageList, messageListOf, bracketed, consume, check, within, bind_eq,
    pure_eq, current_eq,
    ParseState.tokenAt?_rules, expect, reject_run, hs, ht]

theorem rejectsEnd_literalEntry :
    RejectsEnd literalEntry [.anIdentifier "field name"] .messageLiteralField := by
  intro s t hs ht
  simp [literalEntry, literalEntryOf, entryName, accept, consume, check, within,
    bind_eq, pure_eq,
    current_eq, ParseState.tokenAt?_rules, expect, reject_run, hs, ht]

end Grammar

/-! ## Calls -/

/-- The calls that read the value of an option, or a part of one. -/
inductive ParserCall.OfValue : {α : Type} → ParserCall α → Prop where
  | optionValue : OfValue .optionValue
  | entryValue : OfValue .entryValue
  | messageLiteral : OfValue .messageLiteral
  | listLiteral : OfValue .listLiteral
  | messageList : OfValue .messageList
  | literalEntry : OfValue .literalEntry

namespace ParserCall.OfValue

variable {c : ParserCall α}

/-- Where there are tokens ahead, both runs yield the same or reject the same token. -/
theorem mirrors (h : OfValue c) (n : ℕ) : Mirrors (fun _ => True) n 0 id c.step c.step := by
  have any {β : Type} {p : Parse β} (hp : Mirrors (fun _ => True) (n + 1) 1 id p p) :
      Mirrors (fun _ => True) n 0 id p p :=
      hp.mono (fun _ => id) (Nat.le_succ n) (Nat.zero_le 1)
  cases h with
  | optionValue => exact mirrors_optionValue
  | entryValue => exact mirrors_entryValueOf mirrors_messageLiteral
  | messageLiteral => exact mirrors_messageLiteral
  | listLiteral => exact any (mirrors_listLiteralOf mirrors_messageLiteral)
  | messageList => exact any (mirrors_messageListOf mirrors_messageLiteral)
  | literalEntry => exact any (mirrors_literalEntryOf mirrors_messageLiteral)

/-- An end token is rejected at once. -/
theorem rejectsEnd (h : OfValue c) : ∃ wanted rule, RejectsEnd c.step wanted rule ∧
    wanted.Perm (wanted.map Expectation.mirror) := by
  cases h with
  | optionValue => exact ⟨_, _, rejectsEnd_optionValue, .refl _⟩
  | entryValue => exact ⟨_, _, rejectsEnd_entryValue, .refl _⟩
  | messageLiteral => exact ⟨_, _, rejectsEnd_messageLiteral, .swap _ _ _⟩
  | listLiteral => exact ⟨_, _, rejectsEnd_listLiteral, .refl _⟩
  | messageList => exact ⟨_, _, rejectsEnd_messageList, .refl _⟩
  | literalEntry => exact ⟨_, _, rejectsEnd_literalEntry, .refl _⟩

end ParserCall.OfValue

namespace ParseState

variable {s : ParseState}

/-- The mirror of a state has the mirror of each token in its place. -/
theorem tokenAt?_mirror {i : ℕ} {t : Token} (h : s.tokenAt? i = some t) :
    s.mirror.tokenAt? i = some t.mirror := by
  rw [tokenAt?_natCast] at h ⊢
  have size : s.mirror.tokens.size = s.tokens.size := by simp [mirror]
  rw [size]
  split at h
  · next hle => simp [if_pos hle, mirror, h]
  · next hle => simp [if_neg hle, mirror, h]

/-- What is ahead starts with the next token. -/
theorem tokenAt?_of_head {t : Token} (h : t ∈ s.ahead.head?) :
    s.tokenAt? s.index = some t := by
  obtain ⟨rest, hrest⟩ := List.head?_eq_some_iff.mp h
  simpa using tokenAt?_add (show s.ahead = [] ++ t :: rest from hrest)

/-- Behind the last token, the last one is the next one. -/
theorem tokenAt?_behind_last (hs : Sealed s.tokens.toList) (h : s.tokens.size ≤ s.index) :
    ∃ e, s.tokenAt? s.index = some e ∧ e.kind = .endOfInput := by
  obtain ⟨e, he, hk⟩ := hs.last
  refine ⟨e, ?_, hk⟩
  rw [tokenAt?_natCast, if_pos h, Array.back?_eq_getElem?, ← Array.getElem?_toList]
  rw [Option.mem_def, List.getLast?_eq_getElem?] at he
  simpa using he

/-- The value of an option, or a part of one, is read from tokens that end in an end token, at
any place. On the tokens with the other kind of brackets the same is yielded, with the same
places and up to the same token; or the same token is rejected within the same rule, and what
would have been accepted is the same with the other kind of brackets. -/
theorem mirror_call (hs : Sealed s.tokens.toList) {c : ParserCall α} (hc : c.OfValue) : ∃ k,
    (∃ a, c.step s = (.ok a, s.past k) ∧ c.step s.mirror = (.ok a, s.mirror.past k)) ∨
    ∃ e e', c.step s = (.error (.unexpected e), s.past k) ∧
      c.step s.mirror = (.error (.unexpected e'), s.mirror.past k) ∧
      s.tokenAt? (s.past k).index = some e.actual ∧ e.Mirrors e' := by
  by_cases inside : s.index < s.tokens.size
  · obtain ⟨k, -, ⟨a, ha, ha', -⟩ | ⟨e, e', he, he', hactual, hee'⟩⟩ :=
      hc.mirrors s.remaining s le_rfl (hs.drop inside) fun _ _ => trivial
    · exact ⟨k, .inl ⟨a, ha, ha'⟩⟩
    · exact ⟨k, .inr ⟨e, e', he, he', tokenAt?_of_head hactual, hee'⟩⟩
  · obtain ⟨t, ht, hk⟩ := tokenAt?_behind_last hs (not_lt.mp inside)
    obtain ⟨wanted, rule, rejected, perm⟩ := hc.rejectsEnd
    have ht' := tokenAt?_mirror ht
    have hk' : t.mirror.kind = .endOfInput := by rw [Token.mirror_kind, hk]; rfl
    exact ⟨0,
      .inr ⟨_, _, rejected s t ht hk, rejected s.mirror t.mirror ht' hk', ht, rfl, rfl,
      wanted, wanted, rfl, rfl, perm⟩⟩

/-- The tokens of `{ a >`, where a message does not end with the bracket that goes with the
first. -/
def unmatched : List Token :=
  [Rendering.sampleToken .leftBrace "\x7b", Rendering.sampleToken .identifier "a",
    Rendering.sampleToken .rightAngle ">", Rendering.endToken]

/-- The tokens of `< a }` are rejected where those of `{ a >` are. -/
theorem mirror_call_unmatched : Sealed unmatched ∧ ParserCall.OfValue .messageLiteral ∧
    ∃ e, messageLiteral (start unmatched).mirror =
        (.error (.unexpected e), (start unmatched).mirror.past 2) ∧
      e.rule = some .messageLiteralField ∧
      e.actual = Rendering.sampleToken .rightBrace "\x7d" := by
  have numbers : Sealed unmatched := by
    refine ⟨⟨Rendering.endToken, rfl, rfl⟩, fun t ht => ?_⟩
    have made : ∀ t ∈ unmatched, t.WellMade := by decide
    exact ⟨(made t ht).integer, (made t ht).real⟩
  have rejected : messageLiteral (start unmatched) = (.error (.unexpected
      ⟨.expected [.spelled ":", .spelled "\x7b", .spelled "<", .spelled "["],
        some .messageLiteralField,
        Rendering.sampleToken .rightAngle ">"⟩), (start unmatched).past 2) := by
    with_unfolding_all rfl
  refine ⟨numbers, .messageLiteral, ?_⟩
  obtain ⟨k, ⟨a, ha, -⟩ | ⟨e, e', he, he', -, hee'⟩⟩ :=
    mirror_call (s := start unmatched) numbers .messageLiteral
  · rw [ParserCall.step, rejected] at ha
    cases ha
  · rw [ParserCall.step, rejected] at he
    obtain rfl : 2 = k := by simpa [past, start] using congrArg (·.2.index) he
    obtain rfl := ParseFailure.unexpected.inj (Except.error.inj (congrArg Prod.fst he))
    exact ⟨e', he', hee'.rule, hee'.actual⟩

end ParseState

end ProtoSchema
