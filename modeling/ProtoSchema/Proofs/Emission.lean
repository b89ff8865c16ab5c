import Mathlib.Algebra.Group.Int.Defs
import ProtoSchema.Proofs.Document.Room
import ProtoSchema.Proofs.Document.Schema
import ProtoSchema.Proofs.Formatting
import ProtoSchema.Proofs.Json.Reading
import ProtoSchema.Proofs.Outcome

/-!
# Emission

The text of a schema as JSON can be read back: a reader finds the document of the schema in
it, whatever the indent and the order of keys, and two schemas have the same document only if
they are equal, up to positions where these are left out.
-/
namespace ProtoSchema

open Lexicon Document

/-- A schema that is read from a source is well formed, with its positions and without
them. -/
theorem Schema.ofSource_wellFormed {source : List Char} {s : Schema}
    (h : Schema.ofSource source = .ok s) : s.WellFormed ∧ s.unplaced.WellFormed := by
  obtain ⟨tokens, -, ended, read⟩ := Schema.exists_tokens h
  have moved := Schema.ofTokens_relocate ended Position.nowhere
  rw [read] at moved
  obtain ⟨us, hu⟩ := Schema.exists_rendering True ended read
  obtain ⟨vs, hv⟩ := Schema.exists_rendering True (ended.relocate Position.nowhere) moved
  exact ⟨Rendering.schema_wellFormed hu, Rendering.schema_wellFormed hv⟩

/-- Documents that are the same and whose entries follow one order are equal. -/
theorem Document.Ordered.eq_of_same {d d' : Document} (hd : d.Ordered) (hd' : d'.Ordered)
    (h : d.Same d') : d = d' := by
  rw [← hd.restore keyOrder, ← hd'.restore keyOrder]
  exact congrArg _ h

/-- The text of a document is read as the same document. -/
theorem Document.Ordered.read? {d : Document} (hd : d.Ordered) (style : Style) :
    ∃ r, Json.read? (d.toJson style) = some r ∧ r.Same d := by
  have keyed : d.Keyed (· ≠ ·) := hd.mono fun a b hab => by
    rintro rfl
    exact Nat.lt_irrefl _ hab
  refine ⟨_, Json.read?_toJson keyed style, ?_⟩
  split
  · exact arranged_arranged d
  · rfl

/-- The text of a schema holds no surrogate, and it is read as the document of the schema.
Texts of schemas are read alike if and only if the schemas are equal, or equal up to positions
where positions are left out. -/
theorem Schema.setOut_reads_back {source : List Char} {s : Schema}
    (hs : Schema.ofSource source = .ok s) (positions : Bool) {style : Style} {memory : Memory}
    (hallows : memory.Allows style (s.toDocument positions)) :
    ∃ text d, (s.toDocument positions).setOut style memory = .ok text ∧
      (∀ c ∈ text, ¬IsSurrogate c.toNat) ∧
      Json.read? text = some d ∧ d.Same (s.toDocument positions) ∧
      ∀ source' s' style' memory' text' d', Schema.ofSource source' = .ok s' →
        (s'.toDocument positions).setOut style' memory' = .ok text' →
        Json.read? text' = some d' →
        (d.Same d' ↔ if positions then s = s' else s.unplaced = s'.unplaced) := by
  have ordered (s : Schema) : (s.toDocument positions).Ordered := s.ordered
  obtain ⟨d, hd, same⟩ := (ordered s).read? style
  refine ⟨_, d, Document.setOut_eq hallows, fun c _ => not_isSurrogate_char c, hd, same, ?_⟩
  intro source' s' style' memory' text' d' hs' htext' hd'
  obtain ⟨d'', hd'', same'⟩ := (ordered s').read? style'
  obtain rfl : d' = d'' := by
    rw [Document.eq_of_setOut htext', hd''] at hd'
    exact (Option.some.inj hd').symm
  have documents : d.Same d' ↔ s.toDocument positions = s'.toDocument positions := by
    constructor
    · exact fun h => (ordered s).eq_of_same (ordered s') (same.symm.trans (h.trans same'))
    · exact fun h => same.trans ((congrArg arranged h).trans same'.symm)
  rw [documents]
  obtain ⟨formed, unplaced⟩ := Schema.ofSource_wellFormed hs
  obtain ⟨formed', unplaced'⟩ := Schema.ofSource_wellFormed hs'
  cases positions with
  | true =>
    exact ⟨Schema.toDocument_inj formed formed', fun h => by rw [if_pos rfl] at h; rw [h]⟩
  | false => exact Schema.toDocument_false_iff unplaced unplaced'

theorem tokenize_import : tokenize "import\"\\351\";".toList = .ok
    [⟨.identifier, "import", ⟨1, 1⟩, false⟩,
      ⟨.string, [.stray ⟨0xE9, by decide⟩], ⟨1, 7⟩, false⟩,
      ⟨.semicolon, ";", ⟨1, 13⟩, false⟩, ⟨.endOfInput, [], ⟨1, 14⟩, false⟩] := by
  decide +kernel

/-- The path of an import may hold a byte that is no UTF-8. -/
theorem Schema.setOut_reads_back_import :
    ∃ s, Schema.ofSource "import\"\\351\";".toList = .ok s ∧
    ∃ text d, (s.toDocument true).setOut ⟨4, true⟩ = .ok text ∧ Json.read? text = some d ∧
      d.Same (s.toDocument true) := by
  have read : Schema.ofSource "import\"\\351\";".toList = .ok
      ⟨none, [.importing ⟨[.stray ⟨0xE9, by decide⟩], none, ⟨1, 1⟩⟩]⟩ := by
    rw [Schema.ofSource, tokenize_import]
    with_unfolding_all rfl
  have room : Memory.usual.fits ⟨4, true⟩ (Schema.toDocument true
      ⟨none, [.importing ⟨[.stray ⟨0xE9, by decide⟩], none, ⟨1, 1⟩⟩]⟩) = true := by
    rw [Memory.fits_unsorted]
    decide +kernel
  obtain ⟨text, d, htext, -, hread, same, -⟩ :=
    Schema.setOut_reads_back read true ⟨by decide, by decide, room⟩
  exact ⟨_, read, text, d, htext, hread, same⟩

/-- Below the numbers of 64 bits no indent gives a text, whatever the order of keys and
however much memory there is. -/
theorem Schema.setOut_outOfRange_sorted : ∃ s, Schema.ofSource [] = .ok s ∧
    ∀ memory, (s.toDocument true).setOut ⟨-2 ^ 63 - 2, true⟩ memory =
      .error .indentOutOfRange :=
  ⟨⟨none, []⟩, Schema.ofSource_nil, fun _ => rfl⟩

end ProtoSchema
