import ProtoSchema.Proofs.Lexing.Ended
import ProtoSchema.Proofs.Lexing.Layout
import ProtoSchema.Proofs.StringLiteral
import ProtoSchema.Proofs.Taking.Name
import ProtoSchema.Proofs.Text.Cut

/-!
# String literals in pieces

Literals that stand next to each other are read as one string. Each of them is decoded on its
own, so the string is what one literal with all the characters and escapes would be just where
no cut goes through the bytes of a character. Its bytes are the same wherever the cuts are.
-/
namespace ProtoSchema.Lexicon

variable {quote : Char} {content cs before rest rest' : List Char} {bytes bytes' : List UInt8}
  {pieces : List (List UInt8)}

/-! ## Pieces of a literal -/

/-- Characters and escapes, and the quotes that they stand in. -/
structure Piece where
  quote : Char
  content : List Char

/-- The piece as it stands in a source, quotes included. -/
def Piece.lexeme (p : Piece) : List Char := p.quote :: (p.content ++ [p.quote])

/-- A piece is a literal of these bytes. -/
structure Piece.Denotes (p : Piece) (bytes : List UInt8) : Prop where
  quote : p.quote ∈ quotes
  content : Content p.quote p.content bytes [p.quote]

/-- The content of a literal is cut between its characters and escapes. A cut within an escape
is none: what stands behind a piece is what stands there in the content. -/
inductive Cut (quote : Char) : List Piece → List Char → Prop where
  | nil : Cut quote [] []
  | cons {p : Piece} {ps : List Piece} {content : List Char} {bytes : List UInt8} :
    Content quote p.content bytes (content ++ [quote]) → Cut quote ps content →
    Cut quote (p :: ps) (p.content ++ content)

/-- Literals with trivia around them, where there may be none. -/
inductive Adjacent : List Piece → List Char → Prop where
  | nil {gap : List Char} : Ending gap → Adjacent [] gap
  | cons {gap cs : List Char} {p : Piece} {ps : List Piece} : Filler gap → Adjacent ps cs →
    Adjacent (p :: ps) (gap ++ (p.lexeme ++ cs))

/-! ## The bytes of pieces -/

/-- What is content in front of anything is content in front of a quote. -/
theorem Content.quoted {q : Char} (h : Content quote content bytes rest) (hq : q ∈ quotes) :
    Content quote content bytes [q] := by
  have other : ∀ q ∈ quotes, Numeral.isOctalDigit q = false :=
    List.forall_iff_forall_mem.mp (by decide)
  have closing : NoOctal [q] := by
    rintro _ ⟨⟩
    simp [other q hq]
  exact h.congr fun _ => closing

/-- The quotes around content do not matter for its bytes. -/
theorem Content.bytes_unique {quote' : Char} (h : Content quote content bytes rest)
    (h' : Content quote' content bytes' rest) : bytes = bytes' := by
  induction h generalizing bytes' with
  | nil =>
    cases h'
    rfl
  | character hc _ ih =>
    cases h' with
    | character _ h' => rw [ih h']
    | escape _ _ => exact absurd (List.mem_cons_of_mem _ (List.mem_cons_self ..)) hc
  | @escape escape content rest _ _ he _ ih =>
    generalize hw : '\\' :: (escape ++ content) = w at h'
    cases h' with
    | nil => cases hw
    | character hc _ =>
      obtain ⟨rfl, -⟩ := List.cons.inj hw
      exact absurd (List.mem_cons_of_mem _ (List.mem_cons_self ..)) hc
    | @escape escape' content' _ _ _ he' h' =>
      have heq : escape ++ content = escape' ++ content' := (List.cons.inj hw).2
      have read := he.read
      rw [← List.append_assoc, heq, List.append_assoc, he'.read] at read
      simp only [Reading.done, Reading.mk.injEq, Except.ok.injEq] at read
      obtain ⟨rfl, hlength⟩ := read
      obtain ⟨rfl, rfl⟩ := List.append_inj heq hlength.symm
      rw [ih h']

theorem Content.append (h : Content quote content bytes (cs ++ rest))
    (h' : Content quote cs bytes' rest) :
    Content quote (content ++ cs) (bytes ++ bytes') rest := by
  generalize hr : cs ++ rest = behind at h
  induction h with
  | nil => exact h'
  | character hc _ ih =>
    rw [List.cons_append, List.append_assoc]
    exact .character hc (ih hr)
  | escape he _ ih =>
    subst hr
    rw [List.cons_append, List.append_assoc, List.append_assoc]
    exact .escape (by rwa [List.append_assoc]) (ih rfl)

/-- A literal has the bytes of its pieces. -/
theorem Cut.isContent {ps : List Piece} (h : Cut quote ps content)
    (hps : List.Forall₂ Piece.Denotes ps pieces) :
    Content quote content pieces.flatten [quote] := by
  induction h generalizing pieces with
  | nil =>
    cases hps
    exact .nil
  | @cons p ps content bytes hp _ ih =>
    cases hps with
    | @cons _ own _ pieces hown hps =>
      obtain rfl : bytes = own := (hp.quoted hown.quote).bytes_unique hown.content
      exact hp.append (ih hps)

/-! ## The tokens of pieces -/

/-- Literals that stand next to each other are tiles, each on its own. -/
theorem Adjacent.exists_tiling {ps : List Piece} (h : Adjacent ps cs)
    (hps : List.Forall₂ Piece.Denotes ps pieces) (before : List Char) : ∃ strings e,
      Tiling before cs (strings ++ [e]) none ∧ e.token.kind = .endOfInput ∧
      (∀ tile ∈ strings, tile.token.kind = .string) ∧
      strings.map (·.token.text) = pieces.map Utf8.decode := by
  induction h generalizing pieces before with
  | @nil gap hend =>
    cases hps
    exact ⟨[], _, .finish (longestTrivia_of_stuck hend.isRun stuck_nil), rfl, nofun, rfl⟩
  | @cons gap cs p ps hgap _ ih =>
    cases hps with
    | cons hp hps =>
      obtain ⟨strings, e, htiles, hend, hkinds, htexts⟩ := ih hps (before ++ gap ++ p.lexeme)
      have parted : Parted p.lexeme cs := by
        intro heq
        have length := congrArg List.length heq
        simp [Piece.lexeme] at length
      have literal := (longest_string hp.quote hp.content).tile hgap.isRun parted htiles
      refine ⟨_ :: strings, e, literal, hend, List.forall_mem_cons.mpr ⟨rfl, hkinds⟩, ?_⟩
      rw [List.map_cons, List.map_cons, htexts]
      rfl

/-- Literals that stand next to each other are string tokens, with nothing behind them. -/
theorem Adjacent.exists_tokens {source : List Char} {ps : List Piece}
    (h : Adjacent ps (unmarked source)) (hps : List.Forall₂ Piece.Denotes ps pieces) :
    ∃ strings e, tokenize source = .ok (strings ++ [e]) ∧ e.kind = .endOfInput ∧
      strings.length = ps.length ∧ (∀ t ∈ strings, t.kind = .string) ∧
      strings.map Token.text = pieces.map Utf8.decode := by
  obtain ⟨tiles, e, htiles, hend, hkinds, htexts⟩ := h.exists_tiling hps []
  have texts : (tiles.map Tile.token).map Token.text = pieces.map Utf8.decode := by
    rw [← htexts, List.map_map]
    rfl
  refine ⟨tiles.map Tile.token, e.token, ?_, hend, ?_, List.forall_mem_map.mpr hkinds, texts⟩
  · rw [htiles.tokenize rfl, List.map_append]
    rfl
  · have lengths := congrArg List.length texts
    simpa [hps.length_eq] using lengths

/-! ## The string of pieces -/

/-- Literals that stand next to each other are read as one string, the texts of all of
them. -/
theorem Adjacent.exists_value {source : List Char} {ps : List Piece} (hne : ps ≠ [])
    (hps : List.Forall₂ Piece.Denotes ps pieces) (h : Adjacent ps (unmarked source)) :
    ∃ strings e, tokenize source = .ok (strings ++ [e]) ∧ e.kind = .endOfInput ∧
      strings.length = ps.length ∧ (∀ t ∈ strings, t.kind = .string) ∧
      ∀ wanted (s : ParseState) next rest, Ended s.ahead → s.ahead = strings ++ next :: rest →
        next.kind ≠ .string → Grammar.stringLiteral wanted s =
          (.ok (pieces.map Utf8.decode).flatten, s.past strings.length) := by
  obtain ⟨strings, e, htokens, hend, hlength, hkinds, htexts⟩ := h.exists_tokens hps
  refine ⟨strings, e, htokens, hend, hlength, hkinds,
    fun wanted s next rest hs hahead hnext => ?_⟩
  have joined : strings ∈ Rendering.strings (pieces.map Utf8.decode).flatten := by
    refine ⟨?_, hkinds, by rw [htexts]⟩
    rwa [← List.length_pos_iff, hlength, List.length_pos_iff]
  have follow : Follow (·.kind ≠ .string) (next :: rest) := follow_cons.mpr hnext
  obtain ⟨_, hread, rfl⟩ :=
    Grammar.takes_stringLiteral joined follow wanted s le_rfl hs hahead
    (List.cons_ne_nil _ _)
  exact hread

/-- The string of such literals has the bytes of all of them. It is what these bytes are
decoded to, and what a literal is that the others are cut from, just where no cut goes through
the bytes of a character. -/
theorem Adjacent.string_value {source : List Char} {ps : List Piece} (hne : ps ≠ [])
    (hps : List.Forall₂ Piece.Denotes ps pieces) (h : Adjacent ps (unmarked source)) :
    ∃ strings e value, tokenize source = .ok (strings ++ [e]) ∧ e.kind = .endOfInput ∧
      strings.length = ps.length ∧ (∀ t ∈ strings, t.kind = .string) ∧
      (∀ wanted (s : ParseState) next rest, Ended s.ahead →
        s.ahead = strings ++ next :: rest →
        next.kind ≠ .string →
        Grammar.stringLiteral wanted s = (.ok value, s.past strings.length)) ∧
      Utf8.encode value = pieces.flatten ∧
      (Utf8.decode (Utf8.encode value) = value ↔ Utf8.Whole pieces) ∧
      ∀ quote ∈ quotes, ∀ content, Cut quote ps content → ∃ uncut e',
        tokenize (quote :: (content ++ [quote])) = .ok [uncut, e'] ∧ uncut.kind = .string ∧
        Utf8.encode uncut.text = pieces.flatten ∧
        (value = uncut.text ↔ Utf8.Whole pieces) := by
  obtain ⟨strings, e, htokens, hend, hlength, hkinds, hvalue⟩ := h.exists_value hne hps
  refine ⟨strings, e, (pieces.map Utf8.decode).flatten, htokens, hend, hlength,
    hkinds, hvalue,
    Utf8.encode_flatten pieces, ?_, ?_⟩
  · rw [Utf8.encode_flatten, eq_comm]
    exact Utf8.decode_flatten_iff pieces
  · intro quote hq content hcut
    refine ⟨_, _, tokenize_literal hq (hcut.isContent hps), rfl, ?_,
      Utf8.decode_flatten_iff pieces⟩
    exact Utf8.encode_decode _

theorem isEscape_hex {a b : Char} (ha : Numeral.isHexDigit a) (hb : Numeral.isHexDigit b)
    (rest : List Char) :
    IsEscape ['x', a, b] [UInt8.ofNat (Numeral.ofDigits 16 [a, b])] rest :=
  .hex ⟨rfl, by simp [ha, hb]⟩

/-- An accented letter written as two escapes. -/
theorem content_accented : Content '"' ['\\', 'x', 'c', '3', '\\', 'x', 'a', '9']
      [0xC3, 0xA9] ['"'] :=
  @Content.escape _ ['x', 'c', '3'] _ _ _ _ (isEscape_hex (by decide) (by decide) _)
    (@Content.escape _ ['x', 'a', '9'] [] _ _ _ (isEscape_hex (by decide) (by decide) _) .nil)

/-- A cut behind an accented letter, where the quotes change. -/
theorem Adjacent.string_value_accented : ∃ strings e,
    tokenize ['"', '\\', 'x', 'c', '3', '\\', 'x', 'a', '9', '"', ' ', '\'', 'b', '\''] =
      .ok (strings ++ [e]) ∧ strings.length = 2 ∧
    Grammar.stringLiteral (.aString "syntax level") (.start (strings ++ [e])) =
      (.ok "éb", (ParseState.start (strings ++ [e])).past 2) := by
  have first : Piece.Denotes ⟨'"', ['\\', 'x', 'c', '3', '\\', 'x', 'a', '9']⟩ [0xC3, 0xA9] :=
    ⟨by decide, content_accented⟩
  have second : Piece.Denotes ⟨'\'', ['b']⟩ [0x62] :=
    ⟨by decide, .character (by decide) .nil⟩
  have whole : Utf8.Whole [[0xC3, 0xA9], [0x62]] := by
    have é : Utf8.decode [0xC3, 0xA9] = _ := Utf8.decode_flatMap ['é']
    have b : Utf8.decode [0x62] = _ := Utf8.decode_flatMap ['b']
    rw [← Utf8.decode_flatten_iff, List.map_cons, List.map_cons, é, b]
    exact (Utf8.decode_flatMap ['é', 'b']).symm
  have layout : Adjacent [⟨'"', ['\\', 'x', 'c', '3', '\\', 'x', 'a', '9']⟩, ⟨'\'', ['b']⟩]
      (unmarked ['"', '\\', 'x', 'c', '3', '\\', 'x', 'a', '9', '"', ' ', '\'', 'b', '\'']) :=
    .cons .nil (.cons (.blank (by decide) .nil) (.nil (.closed .nil)))
  obtain ⟨strings, e, value, htokens, hend, hlength, hkinds, hvalue, hbytes, hdecoded, -⟩ :=
    Adjacent.string_value (List.cons_ne_nil _ _) (.cons first (.cons second .nil)) layout
  have text : value = Text.ofString "éb" := by
    rw [← hdecoded.mpr whole, hbytes]
    exact Utf8.decode_flatMap ['é', 'b']
  refine ⟨strings, e, htokens, hlength, ?_⟩
  rw [← text, hvalue _ _ e [] ?_ (ParseState.ahead_start _) (by simp [hend]), hlength]
  · rfl
  · rw [ParseState.ahead_start]
    exact tokenize_ended htokens

/-- A cut between the bytes of the letter keeps them apart, which no decoding of its bytes
does. -/
theorem Adjacent.string_value_cut : ∃ uncut e' strings e value,
    tokenize ['"', '\\', 'x', 'c', '3', '\\', 'x', 'a', '9', '"'] = .ok [uncut, e'] ∧
    tokenize ['"', '\\', 'x', 'c', '3', '"', ' ', '"', '\\', 'x', 'a', '9', '"'] =
      .ok (strings ++ [e]) ∧ strings.length = 2 ∧
    Grammar.stringLiteral (.aString "syntax level") (.start (strings ++ [e])) =
      (.ok value, (ParseState.start (strings ++ [e])).past 2) ∧
    value ≠ uncut.text ∧ Utf8.decode (Utf8.encode value) ≠ value := by
  have first : Piece.Denotes ⟨'"', ['\\', 'x', 'c', '3']⟩ [0xC3] :=
    ⟨by decide, @Content.escape _ ['x', 'c', '3'] [] _ _ _ (isEscape_hex (by decide)
      (by decide) _) .nil⟩
  have second : Piece.Denotes ⟨'"', ['\\', 'x', 'a', '9']⟩ [0xA9] :=
    ⟨by decide, @Content.escape _ ['x', 'a', '9'] [] _ _ _ (isEscape_hex (by decide)
      (by decide) _) .nil⟩
  have parted : ¬Utf8.Whole [[0xC3], [0xA9]] := fun h =>
    h [[0xC3]] [[0xA9]] rfl
      ⟨[], [0xC3], [0xA9], [], 'é', rfl, rfl, by decide, by decide, by decide⟩
  have layout : Adjacent [⟨'"', ['\\', 'x', 'c', '3']⟩, ⟨'"', ['\\', 'x', 'a', '9']⟩]
      (unmarked ['"', '\\', 'x', 'c', '3', '"', ' ', '"', '\\', 'x', 'a', '9', '"']) :=
    .cons .nil (.cons (.blank (by decide) .nil) (.nil (.closed .nil)))
  obtain ⟨strings, e, htokens, hend, hlength, -, hvalue⟩ :=
    Adjacent.exists_value (List.cons_ne_nil _ _) (.cons first (.cons second .nil)) layout
  refine ⟨_, _, strings, e, ([[0xC3], [0xA9]].map Utf8.decode).flatten,
    tokenize_literal (by decide) content_accented, htokens, hlength, ?_, ?_, ?_⟩
  · rw [hvalue _ _ e [] ?_ (ParseState.ahead_start _) (by simp [hend]), hlength]
    · rfl
    · rw [ParseState.ahead_start]
      exact tokenize_ended htokens
  · exact fun h => parted ((Utf8.decode_flatten_iff _).mp h)
  · rw [Utf8.encode_flatten]
    exact fun h => parted ((Utf8.decode_flatten_iff _).mp h.symm)

end ProtoSchema.Lexicon
