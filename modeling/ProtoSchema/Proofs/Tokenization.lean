import ProtoSchema.Proofs.Lexing.Tiling

/-!
# Tokenization

The tokens of a source are those of its only tiling by longest trivia and longest lexemes, and
reading fails where the tiling does.
-/
namespace ProtoSchema.Lexicon

theorem skipMark_start (source : List Char) :
    (Cursor.start source).skipMark.position = positionAfter [] ∧
      (Cursor.start source).skipMark.ahead = unmarked source := by
  unfold Cursor.skipMark unmarked Cursor.start
  constructor
  · split <;> rfl
  · split <;> simp_all

/-- A byte order mark is all that is missing from the characters of a source. -/
theorem unmarked_cases (source : List Char) :
    ∃ mark, mark ++ unmarked source = source ∧
      (mark = ['\uFEFF'] ∨ mark = [] ∧ source.head? ≠ some '\uFEFF') := by
  unfold unmarked
  split
  · exact ⟨['\uFEFF'], rfl, .inl rfl⟩
  · rename_i h
    refine ⟨[], rfl, .inr ⟨rfl, ?_⟩⟩
    intro hs
    obtain ⟨rest, rfl⟩ := List.head?_eq_some_iff.mp hs
    exact h rest rfl

theorem unmarked_eq {source : List Char} (h : source.head? ≠ some '\uFEFF') :
    unmarked source = source := by
  unfold unmarked
  split
  · next rest => exact absurd rfl h
  · rfl

/-- A token that is no string has the text it is written with, and the soft keywords among the
identifiers are marked as such. -/
structure Tile.Faithful (t : Tile) : Prop where
  text_eq : t.token.kind ≠ .string → t.token.text = Text.ofChars t.lexeme
  soft_iff : t.token.soft = true ↔
    t.token.kind = .identifier ∧ ∃ word ∈ Token.softKeywords,
    t.token.text = Text.ofString word

theorem Tiling.faithful {before cs : List Char} {tiles : List Tile}
    {failure : Option LexicalError} (h : Tiling before cs tiles failure) :
    ∀ tile ∈ tiles, tile.Faithful := by
  have soft (kind : TokenKind) (text : Text) (position : Position) :
      (tokenOf kind text position).soft = true ↔
        kind = .identifier ∧ ∃ word ∈ Token.softKeywords, text = Text.ofString word :=
    decide_eq_true_iff
  apply h.forall_tile (P := Tile.Faithful)
  · exact fun run position => ⟨fun _ => rfl, soft _ _ _⟩
  · exact fun run w kind text position hw => ⟨hw.text_eq, soft _ _ _⟩

/-- A tiling of a source says what is read. -/
theorem Tiling.tokens {source : List Char} {tiles : List Tile} {failure : Option LexicalError}
    (h : Tiling [] (unmarked source) tiles failure) :
    (Cursor.start source).tokens.tokens = tiles.map Tile.token ∧
      (Cursor.start source).tokens.failure = failure := by
  obtain ⟨position, ahead⟩ := skipMark_start source
  obtain ⟨tiles', htiles, htokens⟩ := exists_tiling position
  rw [ahead] at htiles
  obtain ⟨rfl, rfl⟩ := h.unique htiles
  exact ⟨htokens.symm, rfl⟩

theorem Tiling.tokenize {source cs : List Char} {tiles : List Tile}
    {failure : Option LexicalError} (h : Tiling [] cs tiles failure)
    (hcs : unmarked source = cs) :
    tokenize source = match failure with
      | some e => .error e
      | none => .ok (tiles.map Tile.token) := by
  obtain ⟨tokens, hfailure⟩ := (hcs ▸ h).tokens
  simp only [ProtoSchema.tokenize, hfailure, tokens]
  cases failure <;> rfl

theorem exists_tiling_source (source : List Char) :
    ∃ tiles failure, Tiling [] (unmarked source) tiles failure := by
  obtain ⟨position, ahead⟩ := skipMark_start source
  obtain ⟨tiles, htiles, -⟩ := exists_tiling position
  exact ⟨tiles, _, ahead ▸ htiles⟩

/-- The tokens of a source are those of its tiling, which ends without a fault. -/
theorem exists_tiling_tokens {source : List Char} {tokens : List Token}
    (h : ProtoSchema.tokenize source = .ok tokens) :
    ∃ tiles, Tiling [] (unmarked source) tiles none ∧ tiles.map Tile.token = tokens := by
  obtain ⟨tiles, failure, tiling⟩ := exists_tiling_source source
  rw [tiling.tokenize rfl] at h
  cases failure with
  | some e => cases h
  | none => exact ⟨tiles, tiling, Except.ok.inj h⟩

/-- A source is read as the tokens of its tiling, up to its end or up to the fault of the
tiling, and it has one tiling. Mark, trivia and lexemes make up the source, and its tokens are
faithful to them. -/
theorem tokens_eq_reference (source : List Char) :
    ∃ tiles, Tiling [] (unmarked source) tiles (Cursor.start source).tokens.failure ∧
      tiles.map Tile.token = (Cursor.start source).tokens.tokens ∧
      (∀ tiles' failure, Tiling [] (unmarked source) tiles' failure →
        tiles' = tiles ∧ failure = (Cursor.start source).tokens.failure) ∧
      (∃ mark rest, mark ++ tiles.flatMap Tile.characters ++ rest = source ∧
        (mark = ['\uFEFF'] ∨ mark = [] ∧ source.head? ≠ some '\uFEFF') ∧
        ((Cursor.start source).tokens.failure = none → rest = [])) ∧
      ∀ tile ∈ tiles, tile.Faithful := by
  obtain ⟨position, ahead⟩ := skipMark_start source
  obtain ⟨tiles, htiles, htokens⟩ := exists_tiling position
  rw [ahead] at htiles
  obtain ⟨mark, hsource, hmark⟩ := unmarked_cases source
  obtain ⟨rest, hrest, hnone⟩ := htiles.characters
  refine ⟨tiles, htiles, htokens, ?_, ⟨mark, rest, ?_, hmark, hnone⟩, htiles.faithful⟩
  · exact fun tiles' failure h => h.unique htiles
  · rw [List.append_assoc, hrest, hsource]

end ProtoSchema.Lexicon
