import ProtoSchema.Proofs.Reading.Schema
import ProtoSchema.Proofs.Tree.WellFormed

/-!
# Soundness

A schema that is read from tokens is written by them: all of them up to the end token, in
order and each once. So a token is part of a node, an empty statement where one may stand, or
a separator behind an entry of a message literal, and nothing else.
-/
namespace ProtoSchema

open Parse

/-- A schema is read up to the end. -/
theorem Grammar.schema_atEnd {s s' : ParseState} {f : Schema}
    (hf : Grammar.schema s = (.ok f, s')) : atEnd s' = (.ok true, s') := by
  have loop {level : Option SyntaxDecl} {t : ParseState} (h : (do
      let elements ← whileMore (return !(← atEnd)) Grammar.schemaElement
      return (⟨level, elements.filterMap id⟩ : Schema)) t = (.ok f, s')) :
      atEnd s' = (.ok true, s') := by
    obtain ⟨es, t', hes, h⟩ := bind_ok h
    obtain ⟨t, ht⟩ := whileMore_ok hes
    obtain ⟨b, t', hb, ht⟩ := bind_ok ht
    obtain ⟨-, rfl⟩ := Prod.mk.inj h
    obtain ⟨hstop, rfl⟩ := Prod.mk.inj ht
    obtain rfl := atEnd_ok hb
    rwa [show b = true by simpa using hstop] at hb
  obtain ⟨b, t, -, h⟩ := bind_ok hf
  cases b with
  | false => exact loop h
  | true =>
    obtain ⟨d, t, -, h⟩ := bind_ok h
    exact loop h

/-- The schema that a list of tokens is read as is rendered by the tokens before the end
token, with each node at the position of its first token. Reading stops at the end token, and
the schema is well formed. -/
theorem Schema.ofTokens_sound {tokens : List Token} (h : Ended tokens) {f : Schema}
    (hf : Schema.ofTokens tokens = .ok f) :
    ∃ ts e, tokens = ts ++ [e] ∧ e.kind = .endOfInput ∧ ts ∈ Rendering.schema True f ∧
      (∀ t ∈ ts, t.kind ≠ .malformedNumber) ∧ f.WellFormed ∧
      (Grammar.schema (ParseState.start tokens)).2 =
        (ParseState.start tokens).past ts.length := by
  have hs : Ended (ParseState.start tokens).ahead := by rwa [ParseState.ahead_start]
  have reads :
      Reads True (ParseState.start tokens).remaining (fun _ => True) Grammar.schema _ :=
    Grammar.reads_schema
  have reads := reads.run _ hs le_rfl fun _ _ => trivial
  rcases hr : Grammar.schema (ParseState.start tokens) with ⟨r, s'⟩
  obtain rfl : r = .ok f := by rw [← hf, Schema.ofTokens, hr]
  rw [hr] at reads
  obtain ⟨ts, rest, hts, hne, rfl, hf, hnum⟩ := reads
  rw [ParseState.ahead_start] at hts
  obtain ⟨e, rest, rfl⟩ := List.exists_cons_of_ne_nil hne
  have stop := Grammar.schema_atEnd hr
  rw [peeks_atEnd _ e rest (ParseState.ahead_past (by rwa [ParseState.ahead_start]))] at stop
  have he : e.kind = .endOfInput := by simpa using (Prod.mk.inj stop).1
  -- Nothing stands behind the end token.
  have last : rest = [] := by
    cases (hts ▸ h).append_cons.1 with
    | last => rfl
    | cons _ hn _ => exact absurd he hn
  exact ⟨ts, e, by rw [hts, last], he, hf, hnum, Rendering.schema_wellFormed hf, rfl⟩

theorem Schema.ofTokens_sound_enum :
    Ended (Rendering.enumTokens ++ [Rendering.endToken]) ∧
      Schema.ofTokens (Rendering.enumTokens ++ [Rendering.endToken]) =
        .ok Rendering.enumSchema ∧
      ∃ ts e, Rendering.enumTokens ++ [Rendering.endToken] = ts ++ [e] ∧
      e.kind = .endOfInput ∧
        ts ∈ Rendering.schema True Rendering.enumSchema := by
  have ended : Ended (Rendering.enumTokens ++ [Rendering.endToken]) := by decide
  have read : Schema.ofTokens (Rendering.enumTokens ++ [Rendering.endToken]) =
      .ok Rendering.enumSchema := by
    with_unfolding_all rfl
  obtain ⟨ts, e, hts, he, hf, -⟩ := Schema.ofTokens_sound ended read
  exact ⟨ended, read, ts, e, hts, he, hf⟩

end ProtoSchema
