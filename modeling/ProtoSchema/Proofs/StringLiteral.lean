import ProtoSchema.Proofs.Text.Utf8
import ProtoSchema.Proofs.Tokenization

/-!
# The bytes of a string literal

A literal denotes the bytes of its characters and escapes, and its text stands for just these
bytes. Texts that are no literals are refused.
-/
namespace ProtoSchema.Lexicon

variable {quote : Char} {content : List Char} {bytes : List UInt8}

/-- The codes of surrogates. -/
def IsSurrogate (code : ℕ) : Prop := 0xD800 ≤ code ∧ code ≤ 0xDFFF

theorem not_isSurrogate_char (c : Char) : ¬IsSurrogate (Glyph.char c).code := by
  have valid : c.val.toNat < 0xD800 ∨ 0xDFFF < c.val.toNat ∧ c.val.toNat < 0x110000 := c.valid
  have number : (Glyph.char c).code = c.val.toNat := rfl
  unfold IsSurrogate
  omega

/-- Only the bytes above the ASCII range are kept as surrogates. -/
theorem stray_code {g : Glyph} (h : IsSurrogate g.code) : 0xDC80 ≤ g.code ∧
    g.code ≤ 0xDCFF := by
  cases g with
  | char c => exact absurd h (not_isSurrogate_char c)
  | stray b =>
    have low : 0x80 ≤ b.val.toNat := UInt8.le_iff_toNat_le.mp b.high
    have high : b.val.toNat < 0x100 := b.val.toNat_lt
    have number : (Glyph.stray b).code = 0xDC00 + b.val.toNat := rfl
    omega

/-- A literal on its own is a source of one token. -/
theorem tokenize_literal (hq : quote ∈ quotes) (h : Content quote content bytes [quote]) :
    tokenize (quote :: (content ++ [quote])) =
      .ok [tokenOf .string (Utf8.decode bytes) ⟨1, 1⟩,
        tokenOf .endOfInput [] (positionAfter (quote :: (content ++ [quote])))] := by
  have longest : LongestLexeme (quote :: (content ++ [quote])) .string
      (Utf8.decode bytes) [] :=
    longest_string hq h
  have parted : Parted (quote :: (content ++ [quote])) [] := fun _ => nofun
  have tiling := longest.next parted [] (.finish (longestTrivia_of_stuck .nil stuck_nil))
  simp only [List.append_nil, List.nil_append] at tiling
  have noMark : (quote :: (content ++ [quote])).head? ≠ some '\uFEFF' := by
    simp only [List.head?_cons, ne_eq, Option.some.injEq]
    rintro rfl
    exact absurd hq (by decide)
  exact tiling.tokenize (unmarked_eq noMark)

/-- A quoted sequence of characters and escapes is one string token. Its text stands for the
bytes of the sequence, and is free of surrogates where these are UTF-8. Everywhere else a
reading that starts at a quote fails. -/
theorem string_denotes_bytes (hq : quote ∈ quotes) :
    (∀ content bytes, Content quote content bytes [quote] → ∃ text,
      tokenize (quote :: (content ++ [quote])) =
        .ok [tokenOf .string text ⟨1, 1⟩,
          tokenOf .endOfInput [] (positionAfter (quote :: (content ++ [quote])))] ∧
      Utf8.encode text = bytes ∧
      (∀ g ∈ text, IsSurrogate g.code → 0xDC80 ≤ g.code ∧ g.code ≤ 0xDCFF) ∧
      ∀ cs : List Char, bytes = cs.flatMap Utf8.encodeChar →
        text = Text.ofChars cs ∧ ∀ g ∈ text, ¬IsSurrogate g.code) ∧
    ∀ (c : Cursor) (cs : List Char), c.ahead = quote :: cs →
      (∃ content bytes rest, cs = content ++ quote :: rest ∧
        Content quote content bytes [quote] ∧
        c.perform StringLiteral.read =
          (.ok (Utf8.decode bytes), c.advanceBy (content.length + 2))) ∨
      (∀ content bytes rest, cs = content ++ quote :: rest →
        ¬Content quote content bytes [quote]) ∧
        ∃ e d, c.perform StringLiteral.read = (.error e, d) := by
  constructor
  · intro content bytes h
    refine ⟨_, tokenize_literal hq h, Utf8.encode_decode bytes, fun g _ => stray_code, ?_⟩
    rintro cs rfl
    rw [Utf8.decode_flatMap]
    refine ⟨rfl, fun g hg => ?_⟩
    obtain ⟨c, -, rfl⟩ := List.mem_map.mp hg
    exact not_isSurrogate_char c
  · intro c cs hc
    -- A reading that fails is none of a literal that is closed.
    have refused {e : Misreading} {n : ℕ}
        (h : StringLiteral.read (quote :: cs) = ⟨.error e, n⟩) :
        (∀ content bytes rest, cs = content ++ quote :: rest →
          ¬Content quote content bytes [quote]) ∧
        ∃ e d, c.perform StringLiteral.read = (.error e, d) := by
      refine ⟨?_, _, _, perform_error (by rw [hc, h])⟩
      rintro content bytes rest rfl hcontent
      rw [hcontent.read hq] at h
      cases h
    obtain ⟨content, bytes, rest, rfl, hcontent, hend⟩ := content_cases quote cs
    cases hend with
    | @closed rest =>
      have closed : Content quote content bytes [quote] := hcontent.congr id
      exact .inl
        ⟨content, bytes, rest, rfl, closed, perform_done (by rw [hc, closed.read hq])⟩
    | cut hr =>
      obtain ⟨n, hn⟩ := hcontent.read_cut hq hr
      exact .inr (refused hn)
    | fault hf =>
      obtain ⟨n, hn⟩ := hcontent.read_fault hq hf
      exact .inr (refused hn)

/-- The Latin-1 byte of an accented letter starts no character. -/
theorem string_denotes_bytes_octal : '"' ∈ quotes ∧ ∃ text,
    tokenize ['"', '\\', '3', '5', '1', '"'] =
      .ok [tokenOf .string text ⟨1, 1⟩, tokenOf .endOfInput [] ⟨1, 7⟩] ∧
    Utf8.encode text = [0xE9] := by
  have digits : OctalDigits ['3', '5', '1'] ['"'] :=
    ⟨by decide, by decide, List.forall_iff_forall_mem.mp (by decide), .inl rfl⟩
  have content : Content '"' ['\\', '3', '5', '1'] [0xE9] ['"'] :=
    @Content.escape _ _ [] ['"'] _ _ (.octal digits (by decide)) .nil
  have quote : '"' ∈ quotes := by decide
  obtain ⟨text, htokens, hbytes, -⟩ := (string_denotes_bytes quote).1 _ _ content
  exact ⟨quote, text, htokens, hbytes⟩

end ProtoSchema.Lexicon
