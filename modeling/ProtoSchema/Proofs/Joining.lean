import ProtoSchema.Proofs.Formatting
import ProtoSchema.Proofs.Joining.Characters
import ProtoSchema.Proofs.Joining.Tokens
import ProtoSchema.Proofs.Walk

/-!
# Sources that are put together

A source that holds a schema, a newline and another source: together they hold the statements
of both, or they are rejected as the second source is, further down.
-/
namespace ProtoSchema

open Lexicon

/-- What the tokens of a source hold is what the source holds. -/
theorem Schema.ofSource_of_tokenize {source : List Char} {tokens : List Token}
    (h : tokenize source = .ok tokens) :
    Schema.ofSource source = (Schema.ofTokens tokens).mapError .parse := by
  rw [Schema.ofSource, h]

/-- The error of tokens at moved positions. -/
def SchemaError.relocate (φ : Position → Position) : SchemaError → SchemaError
  | .lexical e => .lexical (e.relocate φ)
  | .parse e => .parse (e.relocate φ)

/-- All tokens of a source are those up to its end. -/
theorem tokenize_tokens {source : List Char} {tokens : List Token}
    (h : tokenize source = .ok tokens) :
    (Cursor.start source).tokens.tokens = tokens := by
  unfold tokenize at h
  cases hf : (Cursor.start source).tokens.failure with
  | some e => simp [hf] at h
  | none => simpa [hf] using h

/-- A source that is rejected is one of tokens that are. -/
theorem Schema.exists_rejected {source : List Char} {failure : ParseFailure}
    (h : Schema.ofSource source = .error (.parse failure)) :
    ∃ tokens, tokenize source = .ok tokens ∧ Ended tokens ∧
      Schema.ofTokens tokens = .error failure := by
  cases ht : tokenize source with
  | error e =>
    rw [Schema.ofSource, ht] at h
    cases h
  | ok tokens =>
    rw [Schema.ofSource_of_tokenize ht] at h
    cases hf : Schema.ofTokens tokens with
    | ok f =>
      rw [hf] at h
      cases h
    | error e =>
      rw [hf] at h
      obtain rfl : e = failure := SchemaError.parse.inj (Except.error.inj h)
      exact ⟨tokens, rfl, tokenize_ended ht, hf⟩

/-- A source without a fault is rejected at one of its tokens. -/
theorem Schema.ofSource_rejected {source : List Char} {failure : ParseFailure}
    (h : Schema.ofSource source = .error (.parse failure)) :
    ∃ e, failure = .unexpected e := by
  obtain ⟨tokens, -, ended, hf⟩ := Schema.exists_rejected h
  obtain ⟨e, he, -⟩ := Schema.ofTokens_error ended hf
  exact ⟨e, he⟩

/-- What the second source comes to by itself, with all positions further down, is what it
comes to behind the first. -/
theorem Schema.ofSource_append {source source' : List Char} {f : Schema}
    (h : Schema.ofSource source = .ok f) (hmark : source'.head? ≠ some '\uFEFF')
    (hfirst : ∀ t ∈ (Cursor.start source').tokens.tokens.head?, ¬t.IsWord "syntax") :
    Schema.ofSource (source ++ '\n' :: source') =
    match Schema.ofSource source' with
    | .ok g => .ok ⟨f.level, f.elements ++
        (g.relocate (.down (1 + source.count '\n'))).elements⟩
    | .error e => .error (e.relocate (.down (1 + source.count '\n'))) := by
  obtain ⟨tokens, ht, ended, hf⟩ := Schema.exists_tokens h
  obtain ⟨us, e, rfl, -⟩ := ended.exists_end
  have joined := tokenize_join ht hmark
  cases hvs : tokenize source' with
  | error fault =>
    rw [hvs] at joined
    rw [Schema.ofSource, Schema.ofSource, joined, hvs]
    rfl
  | ok vs =>
    rw [hvs] at joined
    have ended' := tokenize_ended hvs
    have first : ∀ t ∈ (vs.map (·.relocate (.down (1 + source.count '\n')))).head?,
        ¬t.IsWord "syntax" := by
      rw [tokenize_tokens hvs] at hfirst
      rw [List.head?_map]
      rintro _ hu
      obtain ⟨t, ht, rfl⟩ := Option.mem_map.mp hu
      exact hfirst t ht
    have read := Schema.ofTokens_append ended hf (by simpa using ended'.ne_nil) first
    rw [Schema.ofSource_of_tokenize joined, Schema.ofSource_of_tokenize hvs, read,
      Schema.ofTokens_relocate ended']
    cases Schema.ofTokens vs <;> rfl

/-- Behind a source that holds a schema and a newline, another source is read as it is by
itself, on later lines, if it does not start with a byte order mark and its first token is not
the word `syntax`. Its statements follow those in front; a fault in it and a token of it that
is rejected are reported alike. -/
theorem Schema.ofSource_join {source source' : List Char} {f : Schema}
    (h : Schema.ofSource source = .ok f) (hmark : source'.head? ≠ some '\uFEFF')
    (hfirst : ∀ t ∈ (Cursor.start source').tokens.tokens.head?, ¬t.IsWord "syntax") :
    ((∃ g, Schema.ofSource (source ++ '\n' :: source') = .ok g) ↔
      ∃ g, Schema.ofSource source' = .ok g) ∧
    (∀ g, Schema.ofSource source' = .ok g → Schema.ofSource (source ++ '\n' :: source') =
      .ok ⟨f.level, f.elements ++
        g.elements.map (·.relocate (.down (1 + source.count '\n')))⟩) ∧
    (∀ e, Schema.ofSource source' = .error (.lexical e) →
      Schema.ofSource (source ++ '\n' :: source') =
        .error (.lexical ⟨e.fault, e.position.down (1 + source.count '\n')⟩)) ∧
    ∀ failure, Schema.ofSource source' = .error (.parse failure) → ∃ e e',
      failure = .unexpected e ∧
      Schema.ofSource (source ++ '\n' :: source') = .error (.parse (.unexpected e')) ∧
      e'.text = e.text ∧ e'.rule = e.rule ∧
      e'.complaint.alternatives = e.complaint.alternatives ∧
      e'.actual.position = e.actual.position.down (1 + source.count '\n') := by
  rw [Schema.ofSource_append h hmark hfirst]
  refine ⟨?_, ?_, ?_, ?_⟩
  · cases Schema.ofSource source' with
    | ok g => exact ⟨fun _ => ⟨g, rfl⟩, fun _ => ⟨_, rfl⟩⟩
    | error e => simp
  · intro g hg
    rw [hg]
    rfl
  · intro e he
    rw [he]
    rfl
  · intro failure hfailure
    obtain ⟨e, rfl⟩ := Schema.ofSource_rejected hfailure
    rw [hfailure]
    refine ⟨e, _, rfl, rfl, ?_, rfl, rfl, rfl⟩
    exact e.complaint.message_congr rfl

/-- The statement `package a;` twice. -/
theorem Schema.ofSource_join_package :
    Schema.ofSource "package a;\npackage a;".toList =
      .ok ⟨none, [.package ⟨"a", ⟨1, 1⟩⟩, .package ⟨"a", ⟨2, 1⟩⟩]⟩ := by
  have first : ∀ t ∈ (Cursor.start "package a;".toList).tokens.tokens.head?,
      ¬t.IsWord "syntax" := by
    rw [tokenize_tokens tokenize_package]
    decide
  obtain ⟨-, both, -⟩ := Schema.ofSource_join Schema.ofSource_package (by decide) first
  exact both _ Schema.ofSource_package

end ProtoSchema
