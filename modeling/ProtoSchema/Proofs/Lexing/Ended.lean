import ProtoSchema.Proofs.Parsing.State
import ProtoSchema.Proofs.Tokenization

/-!
# The tokens of a source

What the grammar asks of tokens is so of those that a source is read as: they are well made,
and the only end token is the last of them.
-/
namespace ProtoSchema

namespace Lexicon

variable {before cs w : List Char} {kind : TokenKind} {text : Text} {tiles : List Tile}

/-- The token of a lexeme has the shape of its kind. -/
theorem IsLexeme.wellMade (h : IsLexeme w kind text) (position : Position) :
    (tokenOf kind text position).WellMade where
  soft_eq := by rw [tokenOf_eq]
  integer hk := by
    replace hk : kind = .integer := hk
    subst hk
    cases h with
    | number _ hk =>
      cases hk with
      | integer hw => exact ⟨w, rfl, isIntegerShape_iff.mpr hw⟩
    | mark hm =>
      have none : ∀ m ∈ marks, m.2 ≠ .integer := by decide
      exact absurd rfl (none _ hm)
  real hk := by
    replace hk : kind = .real := hk
    subst hk
    cases h with
    | number _ hk =>
      cases hk with
      | real _ hw => exact ⟨w, rfl, isRealShape_iff.mpr hw⟩
    | mark hm =>
      have none : ∀ m ∈ marks, m.2 ≠ .real := by decide
      exact absurd rfl (none _ hm)

theorem wellMade_end (position : Position) : (tokenOf .endOfInput [] position).WellMade where
  soft_eq := by rw [tokenOf_eq]
  integer := nofun
  real := nofun

/-- A tiling up to the end yields tokens as the grammar asks for. -/
theorem Tiling.ended (h : Tiling before cs tiles none) : Ended (tiles.map Tile.token) := by
  generalize hf : none = failure at h
  induction h with
  | fault _ _ => cases hf
  | finish _ => exact .last (wellMade_end _) rfl
  | token _ _ hw _ ih => exact .cons (hw.isLexeme.wellMade _) hw.isLexeme.ne_end (ih hf)

end Lexicon

/-- A source is a list of tokens as the grammar asks for, unless it is at fault. -/
theorem tokenize_ended {source : List Char} {tokens : List Token}
    (h : tokenize source = .ok tokens) : Ended tokens := by
  obtain ⟨tiles, tiling, rfl⟩ := Lexicon.exists_tiling_tokens h
  exact tiling.ended

end ProtoSchema
