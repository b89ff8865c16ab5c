import ProtoSchema.Proofs.Tokenization

/-!
# The order of positions

Positions in a source are ordered as the places are: by line, and within a line by column. The
tokens of a tiling stand in this order, the end token behind all characters.
-/
namespace ProtoSchema

/-- The first position is in front of the second. -/
def Position.Before (p q : Position) : Prop :=
  p.line < q.line ∨ p.line = q.line ∧ p.column < q.column

instance (p q : Position) : Decidable (p.Before q) :=
  inferInstanceAs (Decidable (p.line < q.line ∨ p.line = q.line ∧ p.column < q.column))

theorem Position.Before.trans {p q r : Position} (h : p.Before q) (h' : q.Before r) :
    p.Before r := by
  unfold Before at *
  omega

theorem Cursor.before_step (p : Position) (c : Char) : p.Before (step p c) := by
  unfold step Position.Before
  split_ifs
  · exact .inl (Nat.lt_succ_self _)
  · exact .inr ⟨rfl, Nat.lt_succ_self _⟩

namespace Lexicon

variable {before cs w : List Char} {tiles : List Tile} {failure : Option LexicalError}

/-- Characters take room. -/
theorem before_positionAfter (before : List Char) (hw : w ≠ []) :
    (positionAfter before).Before (positionAfter (before ++ w)) := by
  induction w using List.reverseRecOn with
  | nil => exact absurd rfl hw
  | append_singleton u x ih =>
    have last :
        (positionAfter (before ++ u)).Before (positionAfter (before ++ (u ++ [x]))) := by
      rw [← List.append_assoc, positionAfter_concat]
      exact Cursor.before_step _ x
    by_cases hu : u = []
    · subst hu
      rwa [List.append_nil] at last
    · exact (ih hu).trans last

/-- Every token stands behind some of the characters. -/
theorem Tiling.exists_front (h : Tiling before cs tiles failure) :
    ∀ tile ∈ tiles, ∃ u, u <+: cs ∧ tile.token.position = positionAfter (before ++ u) := by
  induction h with
  | @finish before run _ =>
    rintro tile ht
    obtain rfl := List.mem_singleton.mp ht
    exact ⟨run, List.prefix_refl _, rfl⟩
  | fault _ _ => nofun
  | @token before run w rest _ _ tiles _ _ _ _ _ ih =>
    intro tile ht
    rcases List.mem_cons.mp ht with rfl | ht
    · exact ⟨run, List.prefix_append _ _, rfl⟩
    · obtain ⟨u, ⟨v, rfl⟩, hu⟩ := ih tile ht
      exact ⟨run ++ w ++ u, ⟨v, by simp⟩, by rw [hu]; simp⟩

/-- Tokens stand one behind the other. -/
theorem Tiling.increasing (h : Tiling before cs tiles failure) :
    (tiles.map Tile.token).Pairwise fun t u => t.position.Before u.position := by
  induction h with
  | finish _ => exact List.pairwise_singleton _ _
  | fault _ _ => exact .nil
  | @token before run w rest _ _ tiles _ _ _ hw htiles ih =>
    refine List.pairwise_cons.mpr ⟨fun t ht => ?_, ih⟩
    obtain ⟨tile, htile, rfl⟩ := List.mem_map.mp ht
    obtain ⟨u, -, hu⟩ := htiles.exists_front tile htile
    rw [hu, List.append_assoc (before ++ run)]
    exact before_positionAfter _ (by simp [hw.isLexeme.ne_nil])

/-- The end token stands behind all characters. -/
theorem Tiling.getLast? (h : Tiling before cs tiles failure) (hf : failure = none) :
    ∃ e ∈ (tiles.map Tile.token).getLast?, e.kind = .endOfInput ∧
      e.position = positionAfter (before ++ cs) := by
  induction h with
  | finish _ => exact ⟨_, rfl, rfl, rfl⟩
  | fault _ _ => cases hf
  | @token before run w rest _ _ tiles _ _ _ hw htiles ih =>
    obtain ⟨e, he, hk, hp⟩ := ih hf
    refine ⟨e, ?_, hk, by rw [hp]; simp⟩
    rw [List.map_cons, List.getLast?_cons, he]
    rfl

end Lexicon

end ProtoSchema
