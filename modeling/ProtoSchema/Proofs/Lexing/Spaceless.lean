import ProtoSchema.Proofs.Rendering.Literal
import ProtoSchema.Proofs.Tokenization

/-!
# Texts without trivia

Texts that are identifiers and marks with nothing between them, and the tokens that they are
read as. What a text is read as depends on what stands behind it: an identifier goes on over
letters and digits, and a point in front of a digit starts a number. So `Lexes P Q x L` speaks
of the text `x` in front of characters with the property `P`. Other than that, `Shows L x`
says what the characters of known tokens are.
-/
namespace ProtoSchema

@[simp] theorem Text.ofChars_append (cs ds : List Char) :
    ofChars (cs ++ ds) = ofChars cs ++ ofChars ds := List.map_append

theorem Text.ofChars_injective : Function.Injective ofChars :=
  List.map_injective_iff.mpr fun _ _ => Glyph.char.inj

/-- The separator stands in front of the second thing. -/
theorem Rendering.separated_cons_cons {α : Type} {separator : TokenKind}
    {E : α → Language Token} (a b : α) (as : List α) : separated separator E (a :: b :: as) =
      E a * (mark separator * separated separator E (b :: as)) := by
  simp only [separated, List.map_cons, List.prod_cons, mul_assoc]

/-- What the tokens with a property write in a list, they write one by one. -/
theorem Rendering.forall_of_separated {α : Type} {separator : TokenKind}
    {E : α → Language Token} {P : Token → Prop} {Q : α → Prop} {as : List α} {ts : List Token}
    (h : ∀ a us, us ∈ E a → (∀ t ∈ us, P t) → Q a) (hts : ts ∈ separated separator E as)
    (hP : ∀ t ∈ ts, P t) : as ≠ [] ∧ ∀ a ∈ as, Q a := by
  induction as generalizing ts with
  | nil => cases hts
  | cons a as ih =>
    cases as with
    | nil =>
      rw [separated, List.map_nil, List.prod_nil, mul_one] at hts
      exact ⟨List.cons_ne_nil _ _, List.forall_mem_singleton.mpr (h a ts hts hP)⟩
    | cons b as =>
      rw [separated_cons_cons] at hts
      obtain ⟨us, hu, _, ⟨vs, -, ws, hw, rfl⟩, rfl⟩ := hts
      have first := h a us hu fun t ht => hP t (by simp [ht])
      have others := (ih hw fun t ht => hP t (by simp [ht])).2
      exact ⟨List.cons_ne_nil _ _, List.forall_mem_cons.mpr ⟨first, others⟩⟩

namespace Lexicon

variable {P Q R : List Char → Prop} {K L : Language Token} {x y : Text} {c : Char}
  {w rest : List Char}
  {kind : TokenKind} {α : Type}

/-! ## From texts to tokens -/

/-- In front of characters with `P` the text is read as tokens of the language, and with the
text in front of them these characters have `Q`. -/
def Lexes (P Q : List Char → Prop) (x : Text) (L : Language Token) : Prop :=
  ∃ w, x = Text.ofChars w ∧ ∀ rest, P rest → Q (w ++ rest) ∧
    ∀ before tiles failure, Tiling (before ++ w) rest tiles failure →
      ∃ front, front.map Tile.token ∈ L ∧ Tiling before (w ++ rest) (front ++ tiles) failure

theorem Lexes.mono {P' Q' : List Char → Prop} (h : Lexes P Q x K)
    (hP : ∀ rest, P' rest → P rest) (hQ : ∀ cs, Q cs → Q' cs) (hK : ∀ ts ∈ K, ts ∈ L) :
    Lexes P' Q' x L := by
  obtain ⟨w, rfl, hw⟩ := h
  refine ⟨w, rfl, fun rest hrest =>
    ⟨hQ _ (hw rest (hP rest hrest)).1, fun before tiles failure h => ?_⟩⟩
  obtain ⟨front, hfront, whole⟩ := (hw rest (hP rest hrest)).2 before tiles failure h
  exact ⟨front, hK _ hfront, whole⟩

/-- One text behind the other. -/
theorem Lexes.mul (hx : Lexes Q R x K) (hy : Lexes P Q y L) : Lexes P R (x ++ y) (K * L) := by
  obtain ⟨w, rfl, hw⟩ := hx
  obtain ⟨v, rfl, hv⟩ := hy
  refine ⟨w ++ v, (Text.ofChars_append w v).symm, fun rest hrest => ?_⟩
  obtain ⟨behind, second⟩ := hv rest hrest
  obtain ⟨inFront, first⟩ := hw (v ++ rest) behind
  rw [List.append_assoc]
  refine ⟨inFront, fun before tiles failure h => ?_⟩
  rw [← List.append_assoc] at h
  obtain ⟨vs, hvs, tiling⟩ := second (before ++ w) tiles failure h
  obtain ⟨us, hus, whole⟩ := first before (vs ++ tiles) failure tiling
  refine ⟨us ++ vs, ?_, by rwa [List.append_assoc]⟩
  rw [List.map_append]
  exact Language.append_mem_mul hus hvs

/-- Where a mark of names stands, or nothing, no identifier goes on. -/
def AtMark (cs : List Char) : Prop := ∀ c ∈ cs.head?, c ∈ ['.', '(', ')']

/-- Where a mark of names or an identifier stands, or nothing, no number goes on. -/
def AtName (cs : List Char) : Prop :=
  ∀ c ∈ cs.head?, Lexeme.isIdentifierStart c = true ∨ c ∈ ['.', '(', ')']

theorem AtMark.atName (h : AtMark rest) : AtName rest := fun c hc => .inr (h c hc)

theorem AtMark.identifier_eq (h : AtMark rest)
    (hw : ∀ d ∈ w, Lexeme.isIdentifierChar d = true) : Lexeme.identifier (w ++ rest) = w := by
  have other : ∀ c ∈ ['.', '(', ')'], Lexeme.isIdentifierChar c = false :=
    List.forall_iff_forall_mem.mp (by decide)
  exact (takeWhile_append (List.all_eq_true.mpr hw) fun c hc => other c (h c hc)).1

theorem AtName.not_startsNumber (h : AtName rest) (hc : c ∈ ['.', '(', ')']) :
    Lexeme.startsNumber (c :: rest) = false := by
  have noDigit : ∀ d ∈ rest.head?, d.isDigit = false := by
    intro d hd
    rcases h d hd with start | mark
    · cases digit : d.isDigit with
      | false => rfl
      | true =>
        have number : Lexeme.startsNumber [d] = true := by
          unfold Lexeme.startsNumber
          simpa using digit
        rw [not_start_of_startsNumber number] at start
        cases start
    · have none : ∀ c ∈ ['.', '(', ')'], c.isDigit = false :=
        List.forall_iff_forall_mem.mp (by decide)
      exact none d mark
  simp only [List.mem_cons, List.not_mem_nil, or_false] at hc
  rcases hc with rfl | rfl | rfl
  · cases rest with
    | nil => rfl
    | cons d rest => exact noDigit d rfl
  · rfl
  · rfl

/-- In front of a mark an identifier is one token. -/
theorem Lexes.identifier (hw : w ∈ Lexicon.identifier) :
    Lexes AtMark AtName (Text.ofChars w) (Rendering.identifier (Text.ofChars w)) := by
  refine ⟨w, rfl, fun rest hrest => ?_⟩
  obtain ⟨c, u, rfl, hc, hu⟩ := mem_identifier.mp hw
  have all : ∀ d ∈ c :: u, Lexeme.isIdentifierChar d = true :=
    List.forall_mem_cons.mpr ⟨isIdentifierChar_of_start hc, hu⟩
  have run : Lexeme.identifier (c :: (u ++ rest)) = c :: u := hrest.identifier_eq all
  have longest : LongestLexeme (c :: u) .identifier (Text.ofChars (c :: u)) rest := by
    have longest := longest_identifier hc (show _ ++ rest = c :: (u ++ rest) by rw [run]; rfl)
    rwa [run] at longest
  have parted : Parted (c :: u) rest := by
    rintro heq
    obtain rfl := (List.cons.inj heq).1
    cases hc
  refine ⟨?_, fun before tiles failure h =>
    ⟨[_], ⟨_, ⟨rfl, rfl⟩, rfl⟩, longest.next parted before h⟩⟩
  rintro d ⟨⟩
  exact .inl hc

/-- In front of a mark or an identifier a mark is one token. -/
theorem Lexes.mark (hm : (c, kind) ∈ marks) (hc : c ∈ ['.', '(', ')']) :
    Lexes AtName AtMark (Text.ofChars [c]) (Rendering.mark kind) := by
  have facts : ∀ c ∈ ['.', '(', ')'], Lexeme.isIdentifierStart c = false ∧ c ∉ quotes ∧
      [c] ≠ ['/'] :=
    List.forall_iff_forall_mem.mp (by decide)
  obtain ⟨other, noQuote, noSlash⟩ := facts c hc
  refine ⟨[c], rfl, fun rest hrest => ⟨?_, fun before tiles failure h => ?_⟩⟩
  · rintro d ⟨⟩
    exact hc
  · have longest := longest_mark other (hrest.not_startsNumber hc) noQuote hm
    exact ⟨[_], ⟨_, rfl, rfl⟩, longest.next (fun heq => absurd heq noSlash) before h⟩

/-- Names with points between them. -/
theorem Lexes.separated {E : α → Language Token} {f : α → Text} {as : List α} (has : as ≠ [])
    (h : ∀ a ∈ as, Lexes AtMark AtName (f a) (E a)) :
    Lexes AtMark AtName (Text.join "." (as.map f)) (Rendering.separated .dot E as) := by
  induction as with
  | nil => exact absurd rfl has
  | cons a as ih =>
    cases as with
    | nil =>
      rw [Rendering.separated, List.map_nil, List.prod_nil, mul_one]
      exact h a (.head _)
    | cons b as =>
      have point : Lexes AtName AtMark (Text.ofString ".") (Rendering.mark .dot) :=
        .mark (c := '.') (by decide) (by decide)
      have others := ih (List.cons_ne_nil _ _) fun a ha => h a (.tail _ ha)
      rw [Rendering.separated_cons_cons, List.map_cons, List.map_cons, Text.join,
        List.append_assoc]
      · exact (h a (.head _)).mul (point.mul others)
      · exact List.cons_ne_nil _ _

/-- A text alone is a source of its tokens. -/
theorem Lexes.tokenize (h : Lexes AtMark AtName x L) : ∃ source ts e,
    x = Text.ofChars source ∧
    ProtoSchema.tokenize source = .ok (ts ++ [e]) ∧ e.kind = .endOfInput ∧ ts ∈ L := by
  obtain ⟨w, rfl, h⟩ := h
  obtain ⟨atName, tilings⟩ := h [] nofun
  have finish : Tiling ([] ++ w) [] _ none := .finish (longestTrivia_of_stuck .nil stuck_nil)
  obtain ⟨front, hfront, tiling⟩ := tilings [] _ _ finish
  rw [List.append_nil] at atName tiling
  have unmarked : unmarked w = w := by
    refine unmarked_eq fun hmark => ?_
    rcases atName _ hmark with h | h
    · revert h
      decide
    · revert h
      decide
  have tokens := tiling.tokenize unmarked
  dsimp only at tokens
  rw [List.map_append] at tokens
  exact ⟨w, _, _, rfl, tokens, rfl, hfront⟩

/-! ## From tokens to texts -/

/-- The characters of the tile are a lexeme, and its token is what this lexeme stands for. -/
def Tile.Exact (t : Tile) : Prop := IsLexeme t.lexeme t.token.kind t.token.text

theorem Tiling.exact {before cs : List Char} {tiles : List Tile}
    {failure : Option LexicalError} (h : Tiling before cs tiles failure) :
    ∀ tile ∈ tiles, tile.token.kind ≠ .endOfInput → tile.Exact :=
  h.forall_tile (fun _ _ hk => absurd rfl hk) fun _ _ _ _ _ hw _ => hw

/-- A mark is written in one way. -/
theorem IsLexeme.eq_mark {text : Text} (h : IsLexeme w kind text) (hm : (c, kind) ∈ marks) :
    w = [c] := by
  have kinds : ∀ m ∈ marks,
      m.2 ∉ [TokenKind.identifier, .integer, .real, .malformedNumber, .string] := by
    decide
  have other := kinds _ hm
  cases h with
  | identifier _ => simp at other
  | number _ hk => cases hk <;> simp at other
  | string _ _ => simp at other
  | @mark d _ hd =>
    have one : ∀ m ∈ marks, ∀ n ∈ marks, m.2 = n.2 → m.1 = n.1 := by decide
    exact congrArg ([·]) (one _ hd _ hm rfl)

/-- Tiles whose tokens are in the language have the characters of the text. -/
def Shows (L : Language Token) (x : Text) : Prop :=
  ∀ tiles : List Tile, (∀ t ∈ tiles, t.Exact) → tiles.map Tile.token ∈ L →
    x = Text.ofChars (tiles.flatMap Tile.lexeme)

theorem Shows.mono (h : Shows L x) (hK : ∀ ts ∈ K, ts ∈ L) : Shows K x :=
  fun tiles exact htiles => h tiles exact (hK _ htiles)

theorem Shows.mul (hx : Shows K x) (hy : Shows L y) : Shows (K * L) (x ++ y) := by
  rintro tiles exact ⟨_, hu, _, hv, heq⟩
  obtain ⟨us, vs, rfl, rfl, rfl⟩ := List.map_eq_append_iff.mp heq.symm
  rw [List.flatMap_append, Text.ofChars_append]
  congr 1
  · exact hx us (fun t ht => exact t (by simp [ht])) hu
  · exact hy vs (fun t ht => exact t (by simp [ht])) hv

theorem Shows.identifier (x : Text) : Shows (Rendering.identifier x) x := by
  rintro tiles exact ⟨t, ⟨hk, rfl⟩, heq⟩
  obtain ⟨tile, rfl, rfl⟩ := List.map_eq_singleton_iff.mp heq
  have text := IsLexeme.text_eq (exact tile (by simp)) (by simp [hk])
  simpa using text

theorem Shows.mark (hm : (c, kind) ∈ marks) :
    Shows (Rendering.mark kind) (Text.ofChars [c]) := by
  rintro tiles exact ⟨t, hk, heq⟩
  obtain ⟨tile, rfl, rfl⟩ := List.map_eq_singleton_iff.mp heq
  have lexeme := IsLexeme.eq_mark (exact tile (by simp)) (hk ▸ hm)
  simp [lexeme]

theorem Shows.separated {E : α → Language Token} {f : α → Text} (h : ∀ a, Shows (E a) (f a))
    (as : List α) : Shows (Rendering.separated .dot E as) (Text.join "." (as.map f)) := by
  induction as with
  | nil => exact fun _ _ => nofun
  | cons a as ih =>
    cases as with
    | nil =>
      rw [Rendering.separated, List.map_nil, List.prod_nil, mul_one]
      exact h a
    | cons b as =>
      have point : Shows (Rendering.mark .dot) (Text.ofString ".") :=
        .mark (c := '.') (by decide)
      rw [Rendering.separated_cons_cons, List.map_cons, List.map_cons, Text.join,
        List.append_assoc]
      · exact (h a).mul (point.mul ih)
      · exact List.cons_ne_nil _ _

end Lexicon

end ProtoSchema
