import ProtoSchema.Command
import ProtoSchema.Proofs.Lexing.LineEnd
import ProtoSchema.Proofs.Text.Utf8
import ProtoSchema.Proofs.Walk

/-!
# Line ends

A source whose lines end in a carriage return and a newline has the tokens, with their
positions, that it has without the carriage returns, so it holds the same schema or is
rejected for the same token. A file loses its carriage returns when it is read, which makes no
difference either.
-/
namespace ProtoSchema

open Lexicon

variable {σ ε : Type} [Host σ ε] {source : List Char} {w : World σ} {p : Path}

/-! ## Characters -/

/-- Newlines that carriage returns were put in front of are newlines again. -/
theorem normalizeNewlines_crlf (h : '\r' ∉ source) :
    normalizeNewlines (crlf source) = source := by
  induction source with
  | nil => rfl
  | cons c source ih =>
    simp only [List.mem_cons, not_or] at h
    by_cases hc : c = '\n'
    · subst hc
      rw [crlf_newline, normalizeNewlines, ih h.2]
    · rw [crlf_cons hc, normalizeNewlines.eq_4 _ _ (fun _ hr _ => h.1 hr.symm)
        (Ne.symm h.1), ih h.2]

theorem unmarked_crlf (source : List Char) :
    unmarked (crlf source) = crlf (unmarked source) := by
  obtain ⟨mark, hmark, rfl | ⟨rfl, hhead⟩⟩ := unmarked_cases source
  · have front : crlf source = '\uFEFF' :: crlf (unmarked source) := by
      conv_lhs => rw [← hmark]
      exact crlf_front (by decide) _
    rw [front]
    rfl
  · rw [unmarked_eq hhead, unmarked_eq]
    exact fun h => forall_head?_crlf (P := (· ≠ '\uFEFF')) (fun c hc hm => hhead (hm ▸ hc))
      (by decide) '\uFEFF' h rfl

/-! ## Tokens and schemas -/

/-- Carriage returns in front of the newlines change no token, and a fault stays at its
position. -/
theorem tokenize_crlf (source : List Char) :
    tokenize (crlf source) = tokenize source ∨ ∃ e e', tokenize source = .error e ∧
      tokenize (crlf source) = .error e' ∧ Alike e.fault e'.fault ∧
      e'.position = e.position := by
  obtain ⟨tiles, failure, htiles⟩ := exists_tiling_source source
  obtain ⟨tiles', failure', htiles', tokens, rel⟩ := htiles.to_crlf
  rw [htiles.tokenize rfl, htiles'.tokenize (unmarked_crlf source)]
  cases rel with
  | none => exact .inl (congrArg Except.ok tokens)
  | some alike => exact .inr ⟨_, _, rfl, rfl, alike⟩

theorem Schema.ofSource_crlf_cases (source : List Char) :
    Schema.ofSource (crlf source) = Schema.ofSource source ∨ ∃ e e',
      Schema.ofSource source = .error (.lexical e) ∧
      Schema.ofSource (crlf source) = .error (.lexical e') ∧
      Alike e.fault e'.fault ∧ e'.position = e.position := by
  rcases tokenize_crlf source with same | ⟨e, e', h, h', alike⟩
  · rw [Schema.ofSource, Schema.ofSource, same]
    exact .inl rfl
  · rw [Schema.ofSource, Schema.ofSource, h, h']
    exact .inr ⟨e, e', rfl, rfl, alike⟩

/-- Of a file the schema is read that its characters hold without the carriage returns. -/
theorem World.schemaOfFile_crlf (h : '\r' ∉ source)
    (hread : w.readFile p.text p = .ok ((crlf source).flatMap Utf8.encodeChar)) :
    w.schemaOfFile p = (Schema.ofSource source).mapError (.ofSchemaError p.text) := by
  have characters : decodeSource (ε := ε) ((crlf source).flatMap Utf8.encodeChar) =
    .ok source := by
    rw [decodeSource, Utf8.decodeStrict_flatMap]
    simp only [normalizeNewlines_crlf h]
  simp only [World.schemaOfFile, hread, bind, Except.bind, characters]

/-- It does not matter whether lines end in a newline or in a carriage return and a newline.
The tokens and their positions are the same, or both sources are at fault at one position; so
both hold the same schema, or one token is rejected in both for the same reason. A file of any
host with such lines, which are read as ending in newlines, comes to what its characters come
to as they stand. -/
theorem Schema.ofSource_crlf {source : List Char} (hsource : '\r' ∉ source) :
    (tokenize (crlf source) = tokenize source ∨ ∃ e e', tokenize source = .error e ∧
      tokenize (crlf source) = .error e' ∧ Alike e.fault e'.fault ∧
      e'.position = e.position) ∧
    (Schema.ofSource (crlf source) = Schema.ofSource source ∨ ∃ e e',
      Schema.ofSource source = .error (.lexical e) ∧
      Schema.ofSource (crlf source) = .error (.lexical e') ∧
      Alike e.fault e'.fault ∧ e'.position = e.position) ∧
    ∀ (w : World σ) (p : Path),
      w.readFile p.text p = .ok ((crlf source).flatMap Utf8.encodeChar) →
      w.schemaOfFile p = (Schema.ofSource (crlf source)).mapError (.ofSchemaError p.text) ∨
      ∃ e e', w.schemaOfFile p = .error (.faulty ⟨p.text, .lexical e⟩) ∧
        Schema.ofSource (crlf source) = .error (.lexical e') ∧
        Alike e.fault e'.fault ∧ e'.position = e.position := by
  have schemas := Schema.ofSource_crlf_cases source
  refine ⟨tokenize_crlf source, schemas, fun w p hread => ?_⟩
  rw [World.schemaOfFile_crlf hsource hread]
  rcases schemas with same | ⟨e, e', h, h', alike⟩
  · rw [same]
    exact .inl rfl
  · rw [h]
    exact .inr ⟨e, e', rfl, h', alike⟩

/-- A file whose first line is empty and ends in a carriage return and a newline. -/
def withLine : World :=
  ⟨⟨[(["a"], .file ("\r\npackage a;".toList.flatMap Utf8.encodeChar))]⟩, [], none⟩

theorem tokenize_line : tokenize "\npackage a;".toList =
    .ok (packageTokens.map (·.relocate (.down 1))) := by
  have newline : TriviaRun ['\n'] "package a;".toList := (Filler.blank (by decide) .nil).isRun
  obtain ⟨tiles, htiles, tokens⟩ := (tiling_package ([] ++ ['\n'])).trivia newline
  have read : tokenize "\npackage a;".toList = .ok (tiles.map Tile.token) :=
    htiles.tokenize rfl
  rw [read, tokens]
  decide

theorem Schema.ofSource_line :
    Schema.ofSource "\npackage a;".toList = .ok ⟨none, [.package ⟨"a", ⟨2, 1⟩⟩]⟩ := by
  rw [Schema.ofSource, tokenize_line]
  with_unfolding_all rfl

theorem Schema.ofSource_crlf_line : '\r' ∉ "\npackage a;".toList ∧
    withLine.schemaOfFile (.ofText "a") = .ok ⟨none, [.package ⟨"a", ⟨2, 1⟩⟩]⟩ ∧
    Schema.ofSource "\r\npackage a;".toList = .ok ⟨none, [.package ⟨"a", ⟨2, 1⟩⟩]⟩ := by
  have carriage : '\r' ∉ "\npackage a;".toList := by decide
  have read : withLine.readFile (Path.ofText "a").text (.ofText "a") =
      .ok ((crlf "\npackage a;".toList).flatMap Utf8.encodeChar) := by decide
  obtain ⟨-, schemas, files⟩ := Schema.ofSource_crlf (σ := FileSystem) carriage
  have source : Schema.ofSource (crlf "\npackage a;".toList) =
      .ok ⟨none, [.package ⟨"a", ⟨2, 1⟩⟩]⟩ := by
    rw [Schema.ofSource_line] at schemas
    rcases schemas with same | ⟨_, _, h, -⟩
    · exact same
    · cases h
  refine ⟨carriage, ?_, source⟩
  rcases files withLine (.ofText "a") read with same | ⟨e, e', -, h, -⟩
  · rw [same, source]
    rfl
  · rw [source] at h
    cases h

end ProtoSchema
