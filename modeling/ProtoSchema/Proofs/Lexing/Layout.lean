import ProtoSchema.Proofs.Tokenization

/-!
# Layouts

Sources that are made of the same lexemes, with other trivia around them. Where trivia
follows, a lexeme ends as it does everywhere, so all such sources are tiled alike.
-/
namespace ProtoSchema.Lexicon

variable {before cs run rest w : List Char} {kind kind' : TokenKind} {text text' : Text}
  {ws : List (List Char)} {source : List Char}

/-! ## Sources made of lexemes -/

/-- Blanks and comments that are closed, whatever follows them. -/
inductive Filler : List Char → Prop where
  | nil : Filler []
  | blank {c : Char} {rest : List Char} : c ∈ whitespace → Filler rest → Filler (c :: rest)
  | line {body rest : List Char} :
    '\n' ∉ body → Filler rest → Filler ('/' :: '/' :: (body ++ '\n' :: rest))
  | block {body rest : List Char} : Unclosed (body ++ ['*']) → Filler rest →
    Filler ('/' :: '*' :: (body ++ '*' :: '/' :: rest))

/-- Blanks and comments up to the end, where a line comment may lack its newline. -/
inductive Ending : List Char → Prop where
  | closed {run : List Char} : Filler run → Ending run
  | line {run body : List Char} : Filler run → '\n' ∉ body →
    Ending (run ++ '/' :: '/' :: body)

/-- No comment stands directly behind a slash. -/
def Apart (w gap : List Char) : Prop := w = ['/'] → gap.head? ≠ some '/'

/-- A lexeme and others, with trivia behind each of them. -/
inductive Spread : List Char → List (List Char) → List Char → Prop where
  | last {w gap : List Char} : Ending gap → Apart w gap → Spread w [] (w ++ gap)
  | cons {w w' gap cs : List Char} {ws : List (List Char)} : gap ≠ [] →
    Filler gap → Apart w gap →
    Spread w' ws cs → Spread w (w' :: ws) (w ++ (gap ++ cs))

/-- A source made of lexemes, with trivia around them and a byte order mark in front or
not. -/
inductive Layout : List (List Char) → List Char → Prop where
  | empty {mark gap : List Char} : mark ∈ [[], ['\uFEFF']] → Ending gap →
    Layout [] (mark ++ gap)
  | lexemes {mark gap w cs : List Char} {ws : List (List Char)} : mark ∈ [[], ['\uFEFF']] →
    Filler gap → Spread w ws cs → Layout (w :: ws) (mark ++ (gap ++ cs))

/-! ## Trivia between lexemes -/

theorem Filler.append (h : Filler run) {run' : List Char} (h' : TriviaRun run' rest) :
    TriviaRun (run ++ run') rest := by
  induction h with
  | nil => exact h'
  | @blank c run hc _ ih =>
    have run : TriviaRun ([c] ++ (run ++ run')) rest := .cons (.blank hc) ih
    exact run
  | @line body run hb _ ih =>
    have newline : TriviaRun ('\n' :: (run ++ run')) rest := .cons (.blank (by decide)) ih
    have comment : TriviaPiece ('/' :: '/' :: body) ('\n' :: (run ++ run') ++ rest) :=
      .line hb fun c hc => by simpa using hc.symm
    simpa using TriviaRun.cons comment newline
  | @block body run hb _ ih => simpa using TriviaRun.cons (.block hb) ih

theorem Filler.isRun (h : Filler run) : TriviaRun run rest := by
  have run : TriviaRun (run ++ []) rest := h.append .nil
  rwa [List.append_nil] at run

theorem Ending.isRun (h : Ending run) : TriviaRun run [] := by
  cases h with
  | closed h => exact h.isRun
  | @line run body h hb =>
    have comment : TriviaPiece ('/' :: '/' :: body) ([] ++ []) := .line hb nofun
    exact h.append (by simpa using TriviaRun.cons comment .nil)

/-- The characters are at an end, or trivia begins. -/
def Separated (rest : List Char) : Prop := ∀ c ∈ rest.head?, c ∈ '/' :: whitespace

theorem Filler.separated (h : Filler run) : Separated run := by
  cases h with
  | nil => nofun
  | blank hc _ =>
    rintro c ⟨⟩
    exact .tail _ hc
  | line _ _ =>
    rintro c ⟨⟩
    exact .head _
  | block _ _ =>
    rintro c ⟨⟩
    exact .head _

theorem Ending.separated (h : Ending run) : Separated run := by
  cases h with
  | closed h => exact h.separated
  | @line run body h _ =>
    cases run with
    | nil =>
      rintro c ⟨⟩
      exact .head _
    | cons d run => exact h.separated

theorem Separated.append (h : Separated run) (hrun : run ≠ []) : Separated (run ++ rest) := by
  obtain ⟨c, run, rfl⟩ := List.exists_cons_of_ne_nil hrun
  exact h

/-- Behind a slash only blanks follow. -/
theorem Separated.parted (h : Separated rest) (hw : Apart w rest) : Parted w rest := by
  rintro rfl d hd
  have blank : d ∈ whitespace := by
    rcases List.mem_cons.mp (h d hd) with rfl | hd'
    · exact absurd hd (hw rfl)
    · exact hd'
  constructor
  · rintro rfl
    exact absurd blank (by decide)
  · rintro rfl
    exact absurd blank (by decide)

theorem Apart.append (h : Apart w run) (hrun : run ≠ []) : Apart w (run ++ rest) := by
  obtain ⟨c, run, rfl⟩ := List.exists_cons_of_ne_nil hrun
  exact h

/-! ## Lexemes before trivia -/

/-- Identifiers and numbers hold no blank and no slash. -/
theorem separator_notMem {c : Char} (hc : c ∈ '/' :: whitespace)
    (hw : w ∈ identifier ∨ w ∈ numericRun) : c ∉ w := by
  have other : ∀ c ∈ '/' :: whitespace, Lexeme.isIdentifierStart c = false ∧
      Lexeme.isIdentifierChar c = false ∧ c.isDigit = false ∧ c ≠ '.' ∧
      Lexeme.isNumberChar c = false ∧ Lexeme.isExponentMark c = false ∧
        Lexeme.isSign c = false :=
    List.forall_iff_forall_mem.mp (by decide)
  obtain ⟨hstart, hident, hdigit, hpoint, hnumber, hmark, hsign⟩ := other c hc
  intro hmem
  rcases hw with hw | hw
  · obtain ⟨d, u, rfl, hd, hu⟩ := mem_identifier.mp hw
    rcases List.mem_cons.mp hmem with rfl | hmem
    · simp [hstart] at hd
    · simpa [hident] using hu c hmem
  · obtain ⟨d, u, hd, hu, hw⟩ := mem_numericRun.mp hw
    have digit : c ≠ d := by
      rintro rfl
      simp [hdigit] at hd
    have parts : c ∉ u :=
      fun hc => by simpa [hnumber, hmark, hsign] using character_of_mem_runParts hu hc
    rcases hw with rfl | rfl
    · simp [digit, parts] at hmem
    · simp [digit, parts, hpoint] at hmem

/-- Where a literal starts, no other lexeme starts. -/
theorem IsLexeme.longest_of_quote {quote : Char} {u : List Char} (hq : quote ∈ quotes)
    (h : IsLexeme (quote :: u) kind text) : LongestLexeme (quote :: u) kind text rest := by
  rcases h.cases_head (List.prefix_rfl)
    with ⟨hi, -⟩ | ⟨hn, -⟩ | ⟨-, content, bytes, hc, heq⟩ | ⟨hm, -⟩
  · simp [(quote_facts hq).1] at hi
  · simp [not_startsNumber_quote hq] at hn
  · exact ⟨h, (heq ▸ longest_string hq hc : LongestLexeme (quote :: u) _ _ rest).longest⟩
  · exact absurd hm ((quote_facts hq).2.2.2 _)

/-- In front of trivia every lexeme is the longest. -/
theorem IsLexeme.longest (h : IsLexeme w kind text) (hrest : Separated rest) :
    LongestLexeme w kind text rest where
  isLexeme := h
  longest w' kind' text' hw' h' := by
    obtain ⟨d, u, rfl, -⟩ := h.head
    by_contra longer
    rw [Nat.not_le] at longer
    obtain ⟨v, hv⟩ : d :: u <+: w' :=
      List.prefix_of_prefix_length_le (List.prefix_append _ rest) hw' longer.le
    -- A longer lexeme holds the blank or the slash that follows.
    obtain ⟨c, v, rfl⟩ : ∃ c t, v = c :: t := by
      refine List.exists_cons_of_ne_nil ?_
      rintro rfl
      simp [← hv] at longer
    have held : c ∈ w' := by simp [← hv]
    have separator : c ∈ '/' :: whitespace := by
      obtain ⟨tail, htail⟩ := hw'
      rw [← hv, List.append_assoc, List.append_cancel_left_eq] at htail
      exact hrest c (by rw [← htail]; rfl)
    rcases h'.cases_head hw' with ⟨-, hmem⟩ | ⟨-, hmem⟩ | ⟨hq, -⟩ | ⟨-, heq⟩
    · exact separator_notMem separator (.inl hmem) held
    · exact separator_notMem separator (.inr hmem) held
    · exact absurd ((h.longest_of_quote hq).longest _ _ _ hw' h') (Nat.not_le.mpr longer)
    · simp [heq] at longer

/-- The characters of a lexeme settle what it is. -/
theorem IsLexeme.unique (h : IsLexeme w kind text) (h' : IsLexeme w kind' text') :
    kind = kind' ∧ text = text' := by
  have longest : LongestLexeme w kind text [] := h.longest nofun
  have longest' : LongestLexeme w kind' text' [] := h'.longest nofun
  obtain ⟨-, hkind, htext, -⟩ := longest.unique longest' rfl
  exact ⟨hkind, htext⟩

/-! ## Tilings of layouts -/

theorem Tiling.ne_nil {tiles : List Tile} (h : Tiling before cs tiles none) : tiles ≠ [] := by
  cases h <;> exact List.cons_ne_nil _ _

/-- A lexeme with trivia in front of it and behind it is a tile. -/
theorem IsLexeme.tile {gap : List Char} {tiles : List Tile} {failure : Option LexicalError}
    (h : IsLexeme w kind text) (hgap : Filler gap) (hrest : Separated rest)
    (hw : Apart w rest) (htiles : Tiling (before ++ gap ++ w) rest tiles failure) :
    Tiling before (gap ++ (w ++ rest))
      (⟨gap, w, tokenOf kind text (positionAfter (before ++ gap))⟩ :: tiles) failure :=
  (h.longest hrest).tile hgap.isRun (hrest.parted hw) htiles

/-- Lexemes are the lexemes of the characters that they are spread over. -/
theorem Spread.exists_tiling (h : Spread w ws cs)
    (hws : ∀ v ∈ w :: ws, ∃ kind text, IsLexeme v kind text) (before : List Char)
    {gap : List Char} (hgap : Filler gap) : ∃ tiles, Tiling before (gap ++ cs) tiles none ∧
      tiles.dropLast.map Tile.lexeme = w :: ws := by
  induction h generalizing before gap with
  | @last w gap' hend hw =>
    obtain ⟨kind, text, h⟩ := hws w (.head _)
    have finish : Tiling (before ++ gap ++ w) gap' _ none :=
      .finish (longestTrivia_of_stuck hend.isRun stuck_nil)
    exact ⟨_, h.tile hgap hend.separated hw finish, rfl⟩
  | @cons w w' gap' cs ws hne hgap' hw _ ih =>
    obtain ⟨kind, text, h⟩ := hws w (.head _)
    obtain ⟨tiles, htiles, hlexemes⟩ :=
      ih (fun v hv => hws v (.tail _ hv)) (before ++ gap ++ w) hgap'
    refine ⟨_, h.tile hgap (hgap'.separated.append hne) (hw.append hne) htiles, ?_⟩
    rw [List.dropLast_cons_of_ne_nil htiles.ne_nil, List.map_cons, hlexemes]

theorem unmarked_append {mark : List Char} (hmark : mark ∈ [[], ['\uFEFF']])
    (hcs : cs.head? ≠ some '\uFEFF') : unmarked (mark ++ cs) = cs := by
  simp only [List.mem_cons, List.not_mem_nil, or_false] at hmark
  rcases hmark with rfl | rfl
  · exact unmarked_eq hcs
  · rfl

theorem Separated.ne_mark (h : Separated cs) : cs.head? ≠ some '\uFEFF' :=
  fun hm => absurd (h _ hm) (by decide)

/-- Lexemes are the lexemes of each of their layouts. -/
theorem Layout.exists_tiling (h : Layout ws source)
    (hws : ∀ v ∈ ws, ∃ kind text, IsLexeme v kind text) : ∃ tiles,
      Tiling [] (unmarked source) tiles none ∧ tiles.dropLast.map Tile.lexeme = ws := by
  cases h with
  | @empty mark gap hmark hend =>
    rw [unmarked_append hmark hend.separated.ne_mark]
    exact ⟨_, .finish (longestTrivia_of_stuck hend.isRun stuck_nil), rfl⟩
  | @lexemes mark gap w cs ws hmark hgap hspread =>
    have front : (gap ++ cs).head? ≠ some '\uFEFF' := by
      cases gap with
      | cons c gap => exact hgap.separated.ne_mark
      | nil =>
        obtain ⟨kind, text, h⟩ := hws w (.head _)
        obtain ⟨c, u, rfl, hc, -⟩ := h.head
        have head : cs.head? = some c := by cases hspread <;> rfl
        rw [List.nil_append, head, ne_eq, Option.some.injEq]
        rintro rfl
        exact hc (.head _)
    rw [unmarked_append hmark front]
    exact hspread.exists_tiling hws [] hgap

theorem Tiling.lexemes {tiles : List Tile} (h : Tiling before cs tiles none) :
    ∀ v ∈ tiles.dropLast.map Tile.lexeme, ∃ kind text, IsLexeme v kind text := by
  generalize hf : none = failure at h
  induction h with
  | fault _ _ => cases hf
  | finish _ => nofun
  | token _ _ hw h ih =>
    subst hf
    rw [List.dropLast_cons_of_ne_nil h.ne_nil, List.map_cons]
    exact List.forall_mem_cons.mpr ⟨⟨_, _, hw.isLexeme⟩, ih rfl⟩

/-- What a token is, apart from its position. -/
def face (t : Token) : TokenKind × Text × Bool := (t.kind, t.text, t.soft)

/-- The lexemes of a tiling settle its tokens up to their positions. -/
theorem Tiling.face_eq {before' cs' : List Char} {tiles tiles' : List Tile}
    (h : Tiling before cs tiles none) (h' : Tiling before' cs' tiles' none)
    (heq : tiles.dropLast.map Tile.lexeme = tiles'.dropLast.map Tile.lexeme) :
    tiles.map (face ·.token) = tiles'.map (face ·.token) := by
  generalize hf : none = failure at h
  induction h generalizing before' cs' tiles' with
  | fault _ _ => cases hf
  | finish _ =>
    cases h' with
    | finish _ => rfl
    | token _ _ _ h' =>
      rw [List.dropLast_cons_of_ne_nil h'.ne_nil] at heq
      cases heq
  | @token before run w rest kind text tiles failure _ _ hw h ih =>
    subst hf
    cases h' with
    | finish _ =>
      rw [List.dropLast_cons_of_ne_nil h.ne_nil] at heq
      cases heq
    | token _ _ hw' h' =>
      rw [List.dropLast_cons_of_ne_nil h.ne_nil,
        List.dropLast_cons_of_ne_nil h'.ne_nil] at heq
      obtain ⟨rfl, behind⟩ := List.cons.inj heq
      obtain ⟨rfl, rfl⟩ := hw.isLexeme.unique hw'.isLexeme
      rw [List.map_cons, List.map_cons, ih h' behind rfl]
      rfl

end ProtoSchema.Lexicon
