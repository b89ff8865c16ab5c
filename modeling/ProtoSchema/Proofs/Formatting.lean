import ProtoSchema.Proofs.Carrying.Schema
import ProtoSchema.Proofs.Lexing.Ended
import ProtoSchema.Proofs.Lexing.Layout
import ProtoSchema.Proofs.Reading.Schema

/-!
# Formatting

What a source means does not depend on the trivia in it. Other trivia moves tokens to other
positions, and reading tokens that were moved comes to the same schema or the same failure,
moved with them.
-/
namespace ProtoSchema

open Parse Lexicon

/-- A source that is a schema is read by way of its tokens. -/
theorem Schema.exists_tokens {source : List Char} {f : Schema}
    (h : Schema.ofSource source = .ok f) :
    ∃ tokens, tokenize source = .ok tokens ∧ Ended tokens ∧
    Schema.ofTokens tokens = .ok f := by
  unfold Schema.ofSource at h
  cases ht : tokenize source with
  | error e =>
    rw [ht] at h
    cases h
  | ok tokens =>
    refine ⟨tokens, rfl, tokenize_ended ht, ?_⟩
    rw [ht] at h
    cases hf : Schema.ofTokens tokens with
    | error e =>
      simp only [hf] at h
      cases h
    | ok g =>
      simp only [hf] at h
      rw [Except.ok.inj h]

/-- What is said of a token does not depend on its position. -/
theorem Complaint.message_congr {t t' : Token} (h : face t = face t') (c : Complaint) :
    c.message t = c.message t' := by
  obtain ⟨kind, text, p, soft⟩ := t
  obtain ⟨kind', text', p', soft'⟩ := t'
  obtain ⟨rfl, htext⟩ := Prod.mk.inj h
  obtain ⟨rfl, rfl⟩ := Prod.mk.inj htext
  cases c <;> rfl

/-- Tokens at other positions are read as the same schema at these positions, or rejected
alike. -/
theorem Schema.ofTokens_relocate {tokens : List Token} (h : Ended tokens)
    (φ : Position → Position) : Schema.ofTokens (tokens.map (·.relocate φ)) =
      match Schema.ofTokens tokens with
      | .ok f => .ok (f.relocate φ)
      | .error e => .error (e.relocate φ) := by
  let w : Transfer := ⟨tokens.toArray, (tokens.map (·.relocate φ)).toArray, φ⟩
  obtain ⟨k, -, -, same⟩ :=
    Grammar.carries_schema (w := w) (ParseState.start tokens) rfl h.bounded
  have agrees :
      w.Agrees (ParseState.start tokens).index ((ParseState.start tokens).index + k) :=
    fun i _ _ => by simp [w]
  have clean : Clean 0 (Grammar.schema (ParseState.start tokens)) := by
    intro e he rejects
    obtain ⟨_, ⟨⟩, mem⟩ := Schema.ofTokens_error h he
    exact h.not_isFalseStream mem rejects.marked
  have read : Schema.ofTokens (tokens.map (·.relocate φ)) =
      w.result (·.relocate φ) (Schema.ofTokens tokens) :=
      congrArg Prod.fst (same agrees clean)
  rw [read]
  cases Schema.ofTokens tokens <;> rfl

/-- Tokens that differ in their positions only are read as schemas that differ in their
positions only, or they are rejected for the same reason at the same token. -/
theorem Schema.ofTokens_of_faces {tokens tokens' : List Token} (h : Ended tokens)
    (h' : Ended tokens') (heq : tokens.map face = tokens'.map face) :
    (∃ f f', Schema.ofTokens tokens = .ok f ∧ Schema.ofTokens tokens' = .ok f' ∧
      f.unplaced = f'.unplaced) ∨
    ∃ e e', Schema.ofTokens tokens = .error (.unexpected e) ∧
      Schema.ofTokens tokens' = .error (.unexpected e') ∧ e.complaint = e'.complaint ∧
      e.rule = e'.rule ∧ face e.actual = face e'.actual := by
  have moved (ts : List Token) : ts.map (·.relocate Position.nowhere) =
      (ts.map face).map fun x => (⟨x.1, x.2.1, ⟨1, 1⟩, x.2.2⟩ : Token) := by
    rw [List.map_map]
    rfl
  have same := Schema.ofTokens_relocate h Position.nowhere
  rw [moved, heq, ← moved, Schema.ofTokens_relocate h' Position.nowhere] at same
  cases hr : Schema.ofTokens tokens with
  | ok f =>
    cases hr' : Schema.ofTokens tokens' with
    | ok f' =>
      rw [hr, hr'] at same
      exact .inl ⟨f, f', rfl, rfl, (Except.ok.inj same).symm⟩
    | error e' =>
      rw [hr, hr'] at same
      cases same
  | error e =>
    cases hr' : Schema.ofTokens tokens' with
    | ok f' =>
      rw [hr, hr'] at same
      cases same
    | error e' =>
      obtain ⟨e, rfl, -⟩ := Schema.ofTokens_error h hr
      obtain ⟨e', rfl, -⟩ := Schema.ofTokens_error h' hr'
      rw [hr, hr'] at same
      obtain ⟨hcomplaint, hrule, hactual⟩ :=
        SyntaxError.mk.inj (ParseFailure.unexpected.inj (Except.error.inj same))
      have same : face e.actual = face e'.actual := (congrArg face hactual).symm
      exact .inr ⟨e, e', rfl, rfl, hcomplaint.symm, hrule.symm, same⟩

/-- Sources with the same lexemes and any trivia between them have the same tokens up to
positions. They hold the same schema up to positions, or both hold none, for the same reason
and at the same token. -/
theorem Schema.ofSource_layout {source source' : List Char} {tiles : List Tile}
    (h : Tiling [] (unmarked source) tiles none)
    (h' : Layout (tiles.dropLast.map Tile.lexeme) source') :
    (∃ tokens tokens', tokenize source = .ok tokens ∧ tokenize source' = .ok tokens' ∧
      tokens.map face = tokens'.map face) ∧
    ((∃ f f', Schema.ofSource source = .ok f ∧ Schema.ofSource source' = .ok f' ∧
      f.unplaced = f'.unplaced) ∨
    ∃ e e', Schema.ofSource source = .error (.parse (.unexpected e)) ∧
      Schema.ofSource source' = .error (.parse (.unexpected e')) ∧ e.text = e'.text ∧
      e.rule = e'.rule ∧ e.complaint.alternatives = e'.complaint.alternatives ∧
      face e.actual = face e'.actual) := by
  have lexemes : ∀ v ∈ tiles.dropLast.map Tile.lexeme, ∃ kind text, IsLexeme v kind text :=
    h.lexemes
  obtain ⟨tiles', htiles', hlexemes⟩ := h'.exists_tiling lexemes
  have read : tokenize source = .ok (tiles.map Tile.token) := h.tokenize rfl
  have read' : tokenize source' = .ok (tiles'.map Tile.token) := htiles'.tokenize rfl
  have faces : (tiles.map Tile.token).map face = (tiles'.map Tile.token).map face := by
    rw [List.map_map, List.map_map]
    exact h.face_eq htiles' hlexemes.symm
  refine ⟨⟨_, _, read, read', faces⟩, ?_⟩
  simp only [Schema.ofSource, read, read']
  rcases Schema.ofTokens_of_faces h.ended htiles'.ended faces with
    ⟨f, f', hf, hf', same⟩ | ⟨e, e', he, he', hcomplaint, hrule, hactual⟩
  · exact .inl ⟨f, f', by rw [hf]; rfl, by rw [hf']; rfl, same⟩
  · refine .inr
      ⟨e, e', by rw [he]; rfl, by rw [he']; rfl, ?_, hrule, by rw [hcomplaint], hactual⟩
    rw [SyntaxError.text, SyntaxError.text, hcomplaint]
    exact e'.complaint.message_congr hactual

/-- The statement `package a;` may be spread over lines and comments. -/
theorem Schema.ofSource_layout_package : ∃ tiles,
    Tiling [] (unmarked "package a;".toList) tiles none ∧
    Layout (tiles.dropLast.map Tile.lexeme) "/**/package\ta\n;//".toList ∧
    ∃ tokens tokens', tokenize "package a;".toList = .ok tokens ∧
      tokenize "/**/package\ta\n;//".toList = .ok tokens' ∧
      tokens.map face = tokens'.map face := by
  have package : LongestLexeme "package".toList .identifier "package" [' ', 'a', ';'] :=
    @longest_identifier 'p' "ackage a;".toList _ (by decide) (by decide)
  have name : LongestLexeme ['a'] .identifier "a" [';'] :=
    @longest_identifier 'a' [';'] _ (by decide) (by decide)
  have mark : IsLexeme [';'] .semicolon ";" := .mark (by decide)
  have finish : Tiling "package a;".toList [] _ none :=
    .finish (longestTrivia_of_stuck .nil stuck_nil)
  have last : LongestLexeme [';'] .semicolon ";" [] := mark.longest nofun
  have semicolon : Tiling "package a".toList ([';'] ++ []) _ none :=
    last.next (fun _ => nofun) _ finish
  have blank : TriviaRun [' '] (['a'] ++ [';']) := (Filler.blank (by decide) .nil).isRun
  have behind : Tiling "package".toList ([' '] ++ (['a'] ++ [';'])) _ none :=
    name.tile blank nofun semicolon
  have whole : Tiling [] (unmarked "package a;".toList) _ none := package.next nofun [] behind
  have tail : Ending "//".toList := @Ending.line [] [] .nil (by decide)
  have last : Spread [';'] [] ";//".toList := .last tail nofun
  have newline : Filler ['\n'] := .blank (by decide) .nil
  have spread : Spread ['a'] [[';']] "a\n;//".toList := .cons (by decide) newline nofun last
  have tab : Filler ['\t'] := .blank (by decide) .nil
  have spread : Spread "package".toList [['a'], [';']] "package\ta\n;//".toList :=
    .cons (by decide) tab nofun spread
  have comment : Filler "/**/".toList :=
    @Filler.block [] [] (by simp [Unclosed, List.infix_cons_iff]) .nil
  have layout : Layout ["package".toList, ['a'], [';']] ([] ++ ("/**/".toList ++ _)) :=
    .lexemes (by decide) comment spread
  exact ⟨_, whole, layout, (Schema.ofSource_layout whole layout).1⟩

end ProtoSchema
