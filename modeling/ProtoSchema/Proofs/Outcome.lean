import Mathlib.Algebra.Group.Int.Defs
import ProtoSchema.Command
import ProtoSchema.Proofs.Lexing.Ended
import ProtoSchema.Proofs.Reading.Schema

/-!
# What comes of a source

A source is a schema, or it is at fault at some character or token; nothing else comes of
reading it. Under a name the outcome is the same, and a schema can be set out as text if the
indent is a signed number of 64 bits and the memory has room for the text.
-/
namespace ProtoSchema

/-- The indent is a signed number of 64 bits, and the memory has room for the text. -/
structure Document.Memory.Allows (memory : Memory) (style : Style) (d : Document) : Prop where
  low : -2 ^ 63 ≤ style.indent
  high : style.indent < 2 ^ 63
  room : memory.fits style d = true

namespace Document

variable {d : Document} {style : Style} {memory : Memory} {entries : List (Text × Document)}
  {text : List Char}

/-- Only the indent and the memory stand in the way of a text. -/
theorem setOut_eq (h : memory.Allows style d) :
    d.setOut style memory = .ok (d.toJson style) := by
  have range : ¬(style.indent < -0x8000000000000000 ∨ 0x8000000000000000 ≤ style.indent) := by
    have low := h.low
    have high := h.high
    omega
  cases d with
  | text t => rfl
  | _ => exact (if_neg range).trans (if_pos h.room)

/-- A text that a document is set out in is its text. -/
theorem eq_of_setOut (h : d.setOut style memory = .ok text) : text = d.toJson style := by
  unfold setOut at h
  split at h
  · exact (Except.ok.inj h).symm
  · split at h
    · cases h
    · split at h
      · exact (Except.ok.inj h).symm
      · cases h

/-- For an object the indent and the memory do matter. -/
theorem setOut_object_iff :
    (∃ text, (object entries).setOut style memory = .ok text) ↔
      memory.Allows style (.object entries) := by
  refine ⟨?_, fun h => ⟨_, setOut_eq h⟩⟩
  rintro ⟨text, h⟩
  simp only [setOut] at h
  split at h
  · cases h
  · split at h
    · next hroom => exact ⟨by omega, by omega, hroom⟩
    · cases h

end Document

/-- A source is a schema that can be set out, or a lexical fault lies in it, or the grammar
rejects one of its tokens; a named source is the same schema, or has the same fault under its
name. -/
theorem Schema.ofSource_cases {ε : Type} (source : List Char) :
    (∃ s, Schema.ofSource source = .ok s ∧
      (∀ name, (Schema.ofSource source).mapError (InputError.ofSchemaError (ε := ε) name) =
        .ok s) ∧
      ∀ (positions : Bool) (style : Document.Style) (memory : Document.Memory),
        memory.Allows style (s.toDocument positions) →
        (s.toDocument positions).setOut style memory =
          .ok ((s.toDocument positions).toJson style)) ∨
    (∃ e, Schema.ofSource source = .error (.lexical e) ∧
      ∀ name, ∃ d : Diagnostic,
        (Schema.ofSource source).mapError (InputError.ofSchemaError (ε := ε) name) =
          .error (.faulty d) ∧
        d.source = name ∧ d.finding.text = e.fault.message ∧ d.finding.position = e.position ∧
        d.finding.rule? = none) ∨
    ∃ e, Schema.ofSource source = .error (.parse (.unexpected e)) ∧
      ∀ name, ∃ d : Diagnostic,
        (Schema.ofSource source).mapError (InputError.ofSchemaError (ε := ε) name) =
          .error (.faulty d) ∧
        d.source = name ∧ d.finding.text = e.text ∧ d.finding.position = e.actual.position ∧
        d.finding.rule? = e.rule := by
  cases htokens : tokenize source with
  | error e =>
    have failed : Schema.ofSource source = .error (.lexical e) := by
      rw [Schema.ofSource, htokens]
    rw [failed]
    exact .inr (.inl ⟨e, rfl, fun name => ⟨⟨name, .lexical e⟩, rfl, rfl, rfl, rfl, rfl⟩⟩)
  | ok tokens =>
    cases hs : Schema.ofTokens tokens with
    | ok s =>
      have read : Schema.ofSource source = .ok s := by
        simp only [Schema.ofSource, htokens, hs]
        rfl
      rw [read]
      exact .inl ⟨s, rfl, fun name => rfl, fun positions style memory => Document.setOut_eq⟩
    | error failure =>
      obtain ⟨e, rfl, -⟩ := Schema.ofTokens_error (tokenize_ended htokens) hs
      have failed : Schema.ofSource source = .error (.parse (.unexpected e)) := by
        simp only [Schema.ofSource, htokens, hs]
        rfl
      rw [failed]
      exact .inr (.inr ⟨e, rfl, fun name => ⟨⟨name, .unexpected e⟩, rfl, rfl, rfl, rfl, rfl⟩⟩)

/-- Nothing is the text of a schema that holds nothing. -/
theorem Schema.ofSource_nil : Schema.ofSource [] = .ok ⟨none, []⟩ := by
  have tokens : tokenize [] = .ok [Lexicon.tokenOf .endOfInput [] ⟨1, 1⟩] :=
    (Lexicon.Tiling.finish
      (Lexicon.longestTrivia_of_stuck .nil Lexicon.stuck_nil)).tokenize rfl
  rw [Schema.ofSource, tokens]
  with_unfolding_all rfl

/-- An indent below the numbers of 64 bits gives no text, however much memory there is. -/
theorem Schema.setOut_outOfRange_empty : ∃ s, Schema.ofSource [] = .ok s ∧
    ∀ memory, (s.toDocument true).setOut ⟨-2 ^ 63 - 1, false⟩ memory =
      .error .indentOutOfRange :=
  ⟨⟨none, []⟩, Schema.ofSource_nil, fun _ => rfl⟩

end ProtoSchema
