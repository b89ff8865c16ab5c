import ProtoSchema.Proofs.Carrying.Schema
import ProtoSchema.Proofs.Completeness
import ProtoSchema.Proofs.Reading.Schema

/-!
# Where reading fails

Tokens that are no schema are rejected at the first token with which no schema goes on: those
in front of it still start one. What follows the rejected token has no bearing on the failure.
-/
namespace ProtoSchema

open Parse

/-- The tokens start a list of tokens that is read. -/
def Schema.Viable (us : List Token) : Prop :=
  ∃ vs f, Ended (us ++ vs) ∧ Schema.ofTokens (us ++ vs) = .ok f

/-- The start of a rendering starts a list that is read. -/
theorem Schema.viable_of_completable {us : List Token}
    (hus : ∀ t ∈ us, t.WellMade ∧ t.kind ≠ .endOfInput)
    (h : Completable (after us (Rendering.schema False))) : Schema.Viable us := by
  obtain ⟨f, vs, hf, hvs⟩ := h
  have usable : ∀ t ∈ us ++ vs, t.WellMade ∧ t.kind ≠ .endOfInput := by
    intro t ht
    rcases List.mem_append.mp ht with ht | ht
    · exact hus t ht
    · exact ⟨(hvs t ht).toWellMade, (hvs t ht).ne_end⟩
  have ended : Ended (us ++ vs ++ [Rendering.endToken]) :=
    Ended.append_end usable (by decide) rfl
  obtain ⟨g, hg, -⟩ := Schema.ofTokens_rendering hf rfl ended
  rw [List.append_assoc] at ended hg
  exact ⟨vs ++ [Rendering.endToken], g, ended, hg⟩

/-- A failure depends on the rejected token and on those in front of it only. -/
theorem Schema.ofTokens_of_prefix {us rest ts : List Token} {e : SyntaxError}
    (h : Ended (us ++ e.actual :: rest))
    (hf : Grammar.schema (ParseState.start (us ++ e.actual :: rest)) =
      (.error (.unexpected e), (ParseState.start (us ++ e.actual :: rest)).past us.length))
    (hts : us ++ [e.actual] <+: ts) : Schema.ofTokens ts = .error (.unexpected e) := by
  have clean : Clean 0 (Grammar.schema (ParseState.start (us ++ e.actual :: rest))) := by
    rw [hf]
    rintro _ ⟨⟩ rejects
    exact h.not_isFalseStream (by simp) rejects.marked
  have same : ∀ i, 0 ≤ i →
      i ≤ (Grammar.schema (ParseState.start (us ++ e.actual :: rest))).2.index →
      ts.toArray[i]? = (us ++ e.actual :: rest).toArray[i]? := by
    obtain ⟨ws, rfl⟩ := hts
    intro i _ hi
    rw [hf] at hi
    replace hi : i < (us ++ [e.actual]).length := by
      simp only [ParseState.start, ParseState.past_index] at hi
      simp only [List.length_append, List.length_singleton]
      omega
    have whole : us ++ e.actual :: rest = us ++ [e.actual] ++ rest := by simp
    rw [whole, List.getElem?_toArray, List.getElem?_toArray, List.getElem?_append_left hi,
      List.getElem?_append_left hi]
  have run := Transfer.Carries.run_on (f := (·.relocate id)) (fun _ => Grammar.carries_schema)
    h.bounded clean same
  rw [hf] at run
  exact congrArg Prod.fst run

/-- Tokens that are not read are rejected at one of them. Those in front of it start a list
that is read, and with it they start none: every list that goes on from them fails in the same
way. -/
theorem Schema.ofTokens_validPrefix {tokens : List Token} (h : Ended tokens)
    {failure : ParseFailure} (hf : Schema.ofTokens tokens = .error failure) :
    ∃ us e rest, failure = .unexpected e ∧ tokens = us ++ e.actual :: rest ∧
      Schema.Viable us ∧ ¬Schema.Viable (us ++ [e.actual]) ∧
      ∀ ts, us ++ [e.actual] <+: ts → Schema.ofTokens ts = .error (.unexpected e) := by
  have hs : Ended (ParseState.start tokens).ahead := by rwa [ParseState.ahead_start]
  have reads : Reads False (ParseState.start tokens).remaining
      (fun _ => True) Grammar.schema _ :=
    Grammar.reads_schema
  have reads := reads.run _ hs le_rfl fun _ _ => trivial
  rcases hr : Grammar.schema (ParseState.start tokens) with ⟨r, s'⟩
  obtain rfl : r = .error failure := by rw [← hf, Schema.ofTokens, hr]
  rw [hr] at reads
  cases failure with
  | unexpected e =>
    obtain ⟨us, rest, htokens, rfl, -, completable⟩ := reads
    rw [ParseState.ahead_start] at htokens
    subst htokens
    have again : ∀ ts, us ++ [e.actual] <+: ts →
        Schema.ofTokens ts = .error (.unexpected e) := by
      intro ts hts
      exact Schema.ofTokens_of_prefix h hr hts
    refine ⟨us, e, rest, rfl, rfl, ?_, ?_, again⟩
    · exact Schema.viable_of_completable h.append_cons.2 (completable id)
    · rintro ⟨vs, f, -, hg⟩
      rw [again _ (List.prefix_append _ vs)] at hg
      cases hg
  | noToken => exact reads.elim
  | numeral e => exact reads.elim
  | endless => exact reads.elim

/-- In `package ;` the semicolon is rejected: `package` alone could go on. -/
theorem Schema.ofTokens_validPrefix_package :
    Ended [Rendering.sampleToken .identifier "package", Rendering.sampleToken .semicolon ";",
        Rendering.endToken] ∧
      Schema.ofTokens [Rendering.sampleToken .identifier "package",
        Rendering.sampleToken .semicolon ";", Rendering.endToken] =
          .error (.unexpected ⟨.expected [.anIdentifier "identifier"], some .packageDecl,
            Rendering.sampleToken .semicolon ";"⟩) ∧
      Schema.Viable [Rendering.sampleToken .identifier "package"] ∧
      ¬Schema.Viable [Rendering.sampleToken .identifier "package",
        Rendering.sampleToken .semicolon ";"] := by
  have ended : Ended [Rendering.sampleToken .identifier "package",
      Rendering.sampleToken .semicolon ";", Rendering.endToken] := by decide
  have failed : Schema.ofTokens [Rendering.sampleToken .identifier "package",
      Rendering.sampleToken .semicolon ";", Rendering.endToken] =
        .error (.unexpected ⟨.expected [.anIdentifier "identifier"], some .packageDecl,
          Rendering.sampleToken .semicolon ";"⟩) := by
    with_unfolding_all rfl
  obtain ⟨us, e, rest, he, htokens, viable, not, -⟩ :=
    Schema.ofTokens_validPrefix ended failed
  obtain rfl := ParseFailure.unexpected.inj he
  -- The semicolon stands in one place only.
  have front : us = [Rendering.sampleToken .identifier "package"] := by
    cases us with
    | nil => exact absurd (List.cons.inj htokens).1 (by decide)
    | cons t us =>
      obtain ⟨rfl, behind⟩ := List.cons.inj htokens
      cases us with
      | nil => rfl
      | cons u us =>
        have last := (List.cons.inj behind).2
        cases us with
        | nil => exact absurd (List.cons.inj last).1 (by decide)
        | cons v us => simp at last
  subst front
  exact ⟨ended, failed, viable, not⟩

end ProtoSchema
