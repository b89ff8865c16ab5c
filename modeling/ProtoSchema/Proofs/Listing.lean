import ProtoSchema.Command
import ProtoSchema.Proofs.Lexing.Ended
import ProtoSchema.Proofs.Lexing.Number
import ProtoSchema.Proofs.Listing.Quoted
import ProtoSchema.Proofs.Number.Written

/-!
# Listings of tokens

A listing has one line for each token, the end token's last, and the lines say all of a token
that a source can write: two lists of tokens with one listing agree in positions, kinds and
texts. A listing has no surrogates and, but for the newlines that end its lines, printable
characters only.
-/
namespace ProtoSchema

namespace Listing

open Text (isPrintable quoted)

variable {cs : List Char} {t : Token} {ts us : List Token}

/-! ## Rows -/

/-- What a line of a listing says of a token. -/
structure Row where
  line : ℕ
  column : ℕ
  kind : TokenKind
  text : Text
  deriving DecidableEq

/-- What the line for a token says. -/
def Row.ofToken (t : Token) : Row := ⟨t.position.line, t.position.column, t.kind, t.text⟩

/-- The characters up to the first separator, and those behind it. -/
def cutAt? (separator : Char) (cs : List Char) : Option (List Char × List Char) :=
  match cs.dropWhile (· ≠ separator) with
  | _ :: rest => some (cs.takeWhile (· ≠ separator), rest)
  | [] => none

/-- Read one line, without its newline. -/
def row? (cs : List Char) : Option Row := do
  let (line, cs) ← cutAt? ':' cs
  let (column, cs) ← cutAt? ' ' cs
  let (name, cs) ← cutAt? ' ' cs
  let kind ← TokenKind.ofName? (String.ofList name)
  let text ← unquote? cs
  return ⟨Numeral.ofDigits 10 line, Numeral.ofDigits 10 column, kind, text⟩

/-- Read the lines in front of newlines. Behind the last newline nothing stands. -/
def read? (cs : List Char) : Option (List Row) := (cs.splitOn '\n').dropLast.mapM row?

/-! ## Lines -/

/-- The line of a token. -/
def lineOf (t : Token) : List Char :=
  Nat.toDigits 10 t.position.line ++ ':' :: (Nat.toDigits 10 t.position.column ++
    ' ' :: (t.kind.name.toList ++ ' ' :: quoted t.text))

theorem listed_eq (t : Token) : World.listed t = Text.ofChars (lineOf t ++ ['\n']) := by
  have number (n : ℕ) : (toString n).toList = Nat.toDigits 10 n := Nat.toList_repr
  have word (s : String) : toString s = s := rfl
  have colon : ":".toList = [':'] := rfl
  have blank : " ".toList = [' '] := rfl
  have newline : [Glyph.char '\n'] = Text.ofChars ['\n'] := rfl
  have append (as bs : List Char) : Text.ofChars as ++ Text.ofChars bs =
      Text.ofChars (as ++ bs) :=
    List.map_append.symm
  rw [World.listed, Text.ofString, newline, append, append, lineOf]
  simp only [String.toList_append, number, word, colon, blank, List.append_assoc,
    List.cons_append, List.nil_append]

theorem cutAt?_append {separator : Char} {front rest : List Char} (h : separator ∉ front) :
    cutAt? separator (front ++ separator :: rest) = some (front, rest) := by
  have other : ∀ c ∈ front, decide (c ≠ separator) = true := fun c hc =>
    decide_eq_true fun heq => h (heq ▸ hc)
  simp only [cutAt?, List.takeWhile_append_of_pos other, List.dropWhile_append_of_pos other]
  simp

theorem notMem_toDigits {c : Char} (hc : c.isDigit = false) (n : ℕ) :
    c ∉ Nat.toDigits 10 n := by
  intro h
  rw [Binary64.isDigit_of_mem_toDigits c h] at hc
  cases hc

/-- A line is read as what it says of its token. -/
theorem row?_lineOf (t : Token) : row? (lineOf t) = some (.ofToken t) := by
  have colon : ':' ∉ Nat.toDigits 10 t.position.line := notMem_toDigits (by decide) _
  have blank' : ' ' ∉ Nat.toDigits 10 t.position.column := notMem_toDigits (by decide) _
  have blank : ' ' ∉ t.kind.name.toList := by
    cases t.kind <;> decide
  simp [row?, lineOf, cutAt?_append colon, cutAt?_append blank', cutAt?_append blank,
    TokenKind.ofName?_name, unquote?_quoted, Row.ofToken]

/-- A line is printable. -/
theorem isPrintable_lineOf (t : Token) : ∀ c ∈ lineOf t, isPrintable c = true := by
  have digits (n : ℕ) : ∀ c ∈ Nat.toDigits 10 n, isPrintable c = true := by
    intro c hc
    have digit := Numeral.isDigit_iff.mp (Binary64.isDigit_of_mem_toDigits c hc)
    exact isPrintable_ascii (by omega)
  have name : ∀ c ∈ t.kind.name.toList, isPrintable c = true := by
    cases t.kind <;> exact List.forall_iff_forall_mem.mp (by decide)
  simp only [lineOf, List.forall_mem_append, List.forall_mem_cons]
  exact ⟨digits _, by decide, digits _, by decide, name, by decide, isPrintable_quoted _⟩

theorem newline_notMem_lineOf (t : Token) : '\n' ∉ lineOf t := fun h =>
  absurd (isPrintable_lineOf t _ h) (by simp [isPrintable_control])

/-! ## Whole listings -/

/-- Lines, each with a newline behind it. -/
def unlines (lines : List (List Char)) : List Char := lines.flatMap (· ++ ['\n'])

theorem splitOn_unlines {lines : List (List Char)} (h : ∀ line ∈ lines, '\n' ∉ line) :
    (unlines lines).splitOn '\n' = lines ++ [[]] := by
  have joined : unlines lines = ['\n'].intercalate (lines ++ [[]]) := by
    clear h
    induction lines with
    | nil => rfl
    | cons line lines ih =>
      obtain ⟨next, rest, hnext⟩ := List.exists_cons_of_ne_nil
        (List.append_ne_nil_of_right_ne_nil lines (List.cons_ne_nil ([] : List Char) []))
      rw [unlines, List.flatMap_cons, ← unlines, ih, List.cons_append, hnext,
        List.intercalate_cons_cons]
  rw [joined]
  refine List.splitOn_intercalate '\n' ?_ (by simp)
  simpa [or_imp, forall_and] using h

/-- A listing is split into its lines, as no line has a newline in it. -/
theorem splitOn_listing (ts : List Token) :
    (unlines (ts.map lineOf)).splitOn '\n' = ts.map lineOf ++ [[]] :=
  splitOn_unlines (by simpa using fun t _ => newline_notMem_lineOf t)

theorem mapM_row? (ts : List Token) :
    (ts.map lineOf).mapM row? = some (ts.map Row.ofToken) := by
  rw [List.mapM_map]
  simpa [Function.comp_def, row?_lineOf] using List.mapM_pure (m := Option)
    (f := Row.ofToken) (l := ts)

/-- The characters are the listing of the tokens, with one line for each of them. -/
structure Lists (listing : List Char) (lines : List (List Char)) (ts : List Token) :
    Prop where
  listed : ts.flatMap World.listed = Text.ofChars listing
  split : listing.splitOn '\n' = lines ++ [[]]
  length_eq : lines.length = ts.length
  printable : ∀ line ∈ lines, ∀ c ∈ line, isPrintable c = true
  read : read? listing = some (ts.map Row.ofToken)

/-- All tokens are listed and read back, whatever their texts are. -/
theorem lists (ts : List Token) : Lists (unlines (ts.map lineOf)) (ts.map lineOf) ts where
  listed := by
    induction ts with
    | nil => rfl
    | cons t ts ih =>
      rw [List.flatMap_cons, ih, listed_eq, List.map_cons, unlines, unlines,
        List.flatMap_cons]
      exact List.map_append.symm
  split := splitOn_listing ts
  length_eq := List.length_map _
  printable := by simpa using fun t _ => isPrintable_lineOf t
  read := by rw [read?, splitOn_listing, List.dropLast_concat, mapM_row?]

/-- Lists of tokens with one listing agree in all that is listed. -/
theorem listing_injective (h : ts.flatMap World.listed = us.flatMap World.listed) :
    ts.map Row.ofToken = us.map Row.ofToken := by
  have chars (as bs : List Char) (h : Text.ofChars as = Text.ofChars bs) : as = bs :=
    List.map_injective_iff.mpr (fun _ _ => Glyph.char.inj) h
  rw [(lists ts).listed, (lists us).listed] at h
  have read := (lists ts).read
  rw [chars _ _ h, (lists us).read] at read
  exact (Option.some.inj read).symm

/-- Of a well-made token all is listed but what the rest settles. -/
theorem eq_of_row {u : Token} (ht : t.WellMade) (hu : u.WellMade)
    (h : Row.ofToken t = Row.ofToken u) : t = u := by
  obtain ⟨kind, text, ⟨line, column⟩, soft⟩ := t
  obtain ⟨kind', text', ⟨line', column'⟩, soft'⟩ := u
  obtain ⟨rfl, rfl, rfl, rfl⟩ := Row.mk.inj h
  have same : soft = soft' := ht.soft_eq.trans hu.soft_eq.symm
  rw [same]

theorem eq_of_rows (hts : ∀ t ∈ ts, t.WellMade) (hus : ∀ t ∈ us, t.WellMade)
    (h : ts.map Row.ofToken = us.map Row.ofToken) : ts = us := by
  induction ts generalizing us with
  | nil => exact (List.map_eq_nil_iff.mp h.symm).symm
  | cons t ts ih =>
    cases us with
    | nil => cases h
    | cons u us =>
      rw [List.forall_mem_cons] at hts hus
      obtain ⟨first, rest⟩ := List.cons.inj h
      rw [eq_of_row hts.1 hus.1 first, ih hts.2 hus.2 rest]

theorem wellMade_of_tokenize {source : List Char} (h : tokenize source = .ok ts) :
    ∀ t ∈ ts, t.WellMade := by
  obtain ⟨us, e, rfl, -, made, hus⟩ := (tokenize_ended h).exists_end
  exact List.forall_mem_append.mpr
    ⟨fun t ht => (hus t ht).1, List.forall_mem_singleton.mpr made⟩

end Listing

namespace World

open Listing (Lists Row)

variable {σ ε : Type} [Host σ ε] [SystemError ε]

/-- The tokens of a source are listed one in a line, the end token in the last, and are read
back from the listing, which holds printable characters and newlines only. So do tokens with
any texts: lists of tokens that differ in what is listed have different listings, and sources
of one listing have the same tokens. -/
theorem listTokens_lossless {w : World σ} {name : Text} {source : List Char}
    {tokens : List Token}
    (hsource : w.source name = .ok source) (htokens : tokenize source = .ok tokens) :
    (∃ listing lines, Lists listing lines tokens ∧
      w.listTokens name = ⟨.finished, Text.ofChars listing, [], w.files⟩) ∧
    (∃ us e, tokens = us ++ [e] ∧ e.kind = .endOfInput ∧ ∀ t ∈ us, t.kind ≠ .endOfInput) ∧
    (∀ source' tokens', tokenize source' = .ok tokens' →
      tokens'.flatMap listed = tokens.flatMap listed → tokens' = tokens) ∧
    (∀ ts : List Token, ∃ listing lines, Lists listing lines ts) ∧
    ∀ ts us : List Token, ts.flatMap listed = us.flatMap listed →
      ts.map Row.ofToken = us.map Row.ofToken := by
  have report : w.listTokens name = ⟨.finished, tokens.flatMap listed, [], w.files⟩ := by
    simp only [listTokens, tokensOf, hsource, htokens, bind, Except.bind, Except.mapError]
  have all := Listing.lists tokens
  refine ⟨⟨_, _, all, all.listed ▸ report⟩, ?_, ?_, fun ts => ⟨_, _, Listing.lists ts⟩,
    fun ts us => Listing.listing_injective⟩
  · obtain ⟨us, e, rfl, he, -, hus⟩ := (tokenize_ended htokens).exists_end
    exact ⟨us, e, rfl, he, fun t ht => (hus t ht).2⟩
  · intro source' tokens' htokens' h
    exact Listing.eq_of_rows (Listing.wellMade_of_tokenize htokens')
      (Listing.wellMade_of_tokenize htokens) (Listing.listing_injective h)

/-- A standard input of one literal, which holds an escaped newline and an apostrophe. -/
def withLiteral : World := ⟨⟨[]⟩, "\"\\n'\"".toList.flatMap Utf8.encodeChar, none⟩

theorem listTokens_lossless_literal : ∃ listing lines,
    withLiteral.listTokens CommandLine.standardInput =
      ⟨.finished, Text.ofChars listing, [], withLiteral.files⟩ ∧
    listing.splitOn '\n' = lines ++ [[]] ∧
    Listing.read? listing =
      some [⟨1, 1, .string, "\n'"⟩, ⟨1, 6, .endOfInput, ""⟩] := by
  have newline : Lexicon.IsEscape ['n'] [0x0A] (['\''] ++ ['"']) := .simple (by decide)
  have content : Lexicon.Content '"' "\\n'".toList [0x0A, 0x27] ['"'] :=
    .escape newline (.character (by decide) .nil)
  have lexeme := Lexicon.IsLexeme.string (by decide) content
  have tokens := Lexicon.tokenize_lexeme lexeme
  have source : withLiteral.source CommandLine.standardInput = .ok "\"\\n'\"".toList := by
    simp only [World.source, if_true, bind, Except.bind, decodeSource, withLiteral,
      Utf8.decodeStrict_flatMap]
    rfl
  obtain ⟨⟨listing, lines, lists, report⟩, -⟩ := listTokens_lossless source tokens
  refine ⟨listing, lines, report, lists.split, lists.read.trans ?_⟩
  have value : Utf8.decode [0x0A, 0x27] = "\n'" := by decide +kernel
  rw [value]
  decide

end World

end ProtoSchema
