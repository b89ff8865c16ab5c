import ProtoSchema.Proofs.Taking.Schema

/-!
# Completeness

Every rendering of a schema is read, and as that schema up to positions. Reading has one
result, so no tokens render two schemas that differ in more than positions.
-/
namespace ProtoSchema

open Parse

/-- A rendering is read as what it renders. -/
theorem Schema.ofTokens_rendering {placed : Prop} {f : Schema} {ts : List Token} {e : Token}
    (hf : ts ∈ Rendering.schema placed f) (he : e.kind = .endOfInput)
    (h : Ended (ts ++ [e])) :
    ∃ g, Schema.ofTokens (ts ++ [e]) = .ok g ∧ g.unplaced = f.unplaced := by
  have takes : Takes (ParseState.start (ts ++ [e])).remaining Grammar.schema ts [e] _ :=
    Grammar.takes_schema hf (follow_cons.mpr he)
  have hs : (ParseState.start (ts ++ [e])).ahead = ts ++ [e] := ParseState.ahead_start _
  obtain ⟨g, hg, hfg⟩ := takes _ le_rfl (hs.symm ▸ h) hs (List.cons_ne_nil e [])
  exact ⟨g, by rw [Schema.ofTokens, hg], hfg⟩

/-- The tokens of a rendering are read as the schema they render, up to positions, wherever
the rendering makes a choice and wherever the nodes are placed. All schemas that the tokens
render are equal up to positions. -/
theorem Schema.ofTokens_complete {f : Schema} {ts : List Token} {e : Token}
    (hf : ts ∈ Rendering.schema False f) (he : e.kind = .endOfInput) (h : Ended (ts ++ [e])) :
    (∃ g, Schema.ofTokens (ts ++ [e]) = .ok g ∧ g.unplaced = f.unplaced) ∧
      ∀ f', ts ∈ Rendering.schema False f' → f'.unplaced = f.unplaced := by
  obtain ⟨g, hg, hgf⟩ := Schema.ofTokens_rendering hf he h
  refine ⟨⟨g, hg, hgf⟩, fun f' hf' => ?_⟩
  obtain ⟨g', hg', hgf'⟩ := Schema.ofTokens_rendering hf' he h
  obtain rfl : g' = g := Except.ok.inj (hg'.symm.trans hg)
  exact hgf'.symm.trans hgf

theorem Schema.ofTokens_complete_enum :
    Rendering.enumTokens ∈ Rendering.schema False Rendering.enumSchema ∧
      Ended (Rendering.enumTokens ++ [Rendering.endToken]) ∧
      ∃ g, Schema.ofTokens (Rendering.enumTokens ++ [Rendering.endToken]) = .ok g ∧
        g.unplaced = Rendering.enumSchema.unplaced := by
  have ended : Ended (Rendering.enumTokens ++ [Rendering.endToken]) := by decide
  exact ⟨Rendering.enumTokens_mem, ended,
    (Schema.ofTokens_complete Rendering.enumTokens_mem rfl ended).1⟩

end ProtoSchema
