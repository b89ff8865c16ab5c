import ProtoSchema.Proofs.Lexing.Layout
import ProtoSchema.Proofs.Parsing.Transfer

/-!
# Sources behind one another

A newline ends every lexeme and every line comment, so the characters in front of it are read
as they are without those behind it. These have the tokens that they have by themselves, on
later lines.
-/
namespace ProtoSchema

/-- The position some lines further down. -/
def Position.down (lines : ℕ) (p : Position) : Position := ⟨p.line + lines, p.column⟩

/-- The error at a moved position. -/
def LexicalError.relocate (φ : Position → Position) (e : LexicalError) : LexicalError :=
  ⟨e.fault, φ e.position⟩

namespace Lexicon

variable {before cs run run' rest w : List Char} {kind : TokenKind} {text : Text}
  {tiles tiles' : List Tile} {failure : Option LexicalError}

/-! ## Lines further down -/

/-- Only the line of a position depends on what is in front of a newline. -/
theorem positionAfter_newline (front before : List Char) :
    positionAfter (front ++ '\n' :: before) =
      (positionAfter before).down (1 + front.count '\n') := by
  have line : 1 + (front ++ '\n' :: before).count '\n' =
      1 + before.count '\n' + (1 + front.count '\n') := by
    simp only [List.count_append, List.count_cons_self]
    omega
  have column : (front ++ '\n' :: before).reverse.takeWhile (· ≠ '\n') =
      before.reverse.takeWhile (· ≠ '\n') := by
    rw [List.reverse_append, List.reverse_cons, List.append_assoc, List.takeWhile_append]
    split_ifs with h
    · have whole := List.takeWhile_prefix (· ≠ '\n') (l := before.reverse)
      rw [whole.eq_of_length h]
      simp
    · rfl
  rw [positionAfter, line, column]
  rfl

/-- The tile whose token is at a moved position. -/
def Tile.relocate (φ : Position → Position) (t : Tile) : Tile :=
  { t with token := t.token.relocate φ }

/-- Characters behind a newline are tiled as they are by themselves. -/
theorem Tiling.down (h : Tiling before cs tiles failure) (front : List Char) :
    Tiling (front ++ '\n' :: before) cs
      (tiles.map (·.relocate (.down (1 + front.count '\n'))))
      (failure.map (·.relocate (.down (1 + front.count '\n')))) := by
  induction h with
  | @finish before run hrun =>
    have tile : Tiling (front ++ '\n' :: before) run _ none := .finish hrun
    rw [List.append_assoc, List.cons_append, positionAfter_newline] at tile
    exact tile
  | @fault before run rest n f hrun hf =>
    have tile : Tiling (front ++ '\n' :: before) (run ++ rest) _ _ := .fault hrun hf
    rw [List.append_assoc, List.append_assoc, List.cons_append, positionAfter_newline] at tile
    rwa [← List.append_assoc] at tile
  | @token before run w rest kind text tiles failure hrun hrest hw _ ih =>
    have assoc : front ++ '\n' :: (before ++ run ++ w) = front ++ '\n' :: before ++
        run ++ w := by simp
    rw [assoc] at ih
    have tile : Tiling (front ++ '\n' :: before) (run ++ (w ++ rest)) _ _ :=
      .token hrun hrest hw ih
    rw [List.append_assoc front, List.cons_append, positionAfter_newline] at tile
    exact tile

/-! ## In front of a newline -/

theorem IsEscape.newline_notMem {escape : List Char} {bytes : List UInt8}
    (h : IsEscape escape bytes rest) : '\n' ∉ escape := by
  cases h with
  | simple hc =>
    have none : ∀ e ∈ simpleEscapes, e.1 ≠ '\n' := by decide
    simpa [eq_comm] using none _ hc
  | hex hd =>
    have digits : '\n' ∉ _ := fun h => absurd (hd.2 '\n' h) (by decide)
    simpa using digits
  | codePoint hc hd _ =>
    have none : ∀ e ∈ codePointEscapes, e.1 ≠ '\n' := by decide
    have digits : '\n' ∉ _ := fun h => absurd (hd.2 '\n' h) (by decide)
    simpa [eq_comm] using ⟨none _ hc, digits⟩
  | octal hd _ => exact fun h => absurd (hd.octal '\n' h) (by decide)

theorem Content.newline_notMem {quote : Char} {content : List Char} {bytes : List UInt8}
    (h : Content quote content bytes rest) : '\n' ∉ content := by
  induction h with
  | nil => simp
  | character hc _ ih =>
    simp only [List.mem_cons, not_or, List.not_mem_nil, not_false_eq_true, and_true] at hc
    simpa [eq_comm] using ⟨hc.2.2, ih⟩
  | escape he _ ih => simpa using ⟨he.newline_notMem, ih⟩

/-- No lexeme goes over a newline. -/
theorem IsLexeme.newline_notMem (h : IsLexeme w kind text) : '\n' ∉ w := by
  have separator : '\n' ∈ '/' :: whitespace := by decide
  cases h with
  | identifier hw => exact separator_notMem separator (.inl hw)
  | number hw _ => exact separator_notMem separator (.inr hw)
  | @string quote content bytes hq hc =>
    have other : '\n' ∉ quotes := by decide
    have ne : '\n' ≠ quote := fun h => other (h ▸ hq)
    simpa [ne] using hc.newline_notMem
  | mark hm =>
    have none : ∀ m ∈ marks, m.1 ≠ '\n' := by decide
    simpa [eq_comm] using none _ hm

/-- What is the longest lexeme up to the end is so up to a newline. -/
theorem LongestLexeme.newline (h : LongestLexeme w kind text rest) (tail : List Char) :
    LongestLexeme w kind text (rest ++ '\n' :: tail) where
  isLexeme := h.isLexeme
  longest w' kind' text' hw' h' := by
    rw [← List.append_assoc] at hw'
    apply h.longest w' kind' text' _ h'
    rcases List.prefix_or_prefix_of_prefix hw' (List.prefix_append _ _) with front | ⟨v, rfl⟩
    · exact front
    · rw [List.prefix_append_right_inj] at hw'
      cases v with
      | nil => simp
      | cons c v =>
        obtain ⟨rfl, -⟩ := List.cons_prefix_cons.mp hw'
        exact absurd h'.newline_notMem (by simp)

theorem AtLineEnd.newline (h : AtLineEnd rest) (tail : List Char) :
    AtLineEnd (rest ++ '\n' :: tail) := by
  cases rest with
  | nil =>
    rintro c ⟨⟩
    rfl
  | cons c rest => exact h

/-- What is trivia up to the end is so up to a newline. -/
theorem TriviaRun.newline (h : TriviaRun run rest) (tail : List Char) :
    TriviaRun run (rest ++ '\n' :: tail) := by
  induction h with
  | nil => exact .nil
  | cons hp _ ih =>
    refine .cons ?_ ih
    rw [← List.append_assoc]
    cases hp with
    | blank hc => exact .blank hc
    | line hb hrest => exact .line hb (hrest.newline tail)
    | block hb => exact .block hb

theorem TriviaRun.append (h : TriviaRun run (run' ++ rest)) (h' : TriviaRun run' rest) :
    TriviaRun (run ++ run') rest := by
  generalize hcs : run' ++ rest = cs at h
  induction h with
  | nil => exact h'
  | cons hp _ ih =>
    subst hcs
    rw [List.append_assoc]
    exact .cons (by rwa [List.append_assoc]) (ih rfl)

/-- Trivia in front of a longest run makes a longest run. -/
theorem LongestTrivia.append (hrun : TriviaRun run (run' ++ rest))
    (h : LongestTrivia run' rest) : LongestTrivia (run ++ run') rest := by
  generalize hcs : run' ++ rest = cs at hrun
  induction hrun with
  | nil => exact h
  | cons hp _ ih =>
    subst hcs
    rw [List.append_assoc]
    exact (ih rfl).cons (by rwa [List.append_assoc])

/-- Behind the longest trivia no comment starts. -/
theorem LongestTrivia.parted (h : LongestTrivia run (w ++ rest))
    (hrest : ¬['/', '*'] <+: w ++ rest) : Parted w rest := by
  rintro rfl d hd
  obtain ⟨rest, rfl⟩ := List.head?_eq_some_iff.mp hd
  constructor
  · rintro rfl
    obtain ⟨tail, -, whole, piece⟩ := @exists_line ('/' :: rest) rfl
    have comment : TriviaRun ('/' :: Trivia.lineRest ('/' :: rest)) tail := by
      rw [← List.append_nil ('/' :: _)]
      exact .cons piece .nil
    have isRun : TriviaRun run ('/' :: Trivia.lineRest ('/' :: rest) ++ tail) := by
      rw [List.cons_append, whole]
      exact h.isRun
    have more := h.longest _ tail (by simp [whole]) (isRun.append comment)
    simp only [List.length_append, List.length_cons] at more
    omega
  · rintro rfl
    exact hrest ⟨rest, rfl⟩

theorem Parted.newline (h : Parted w rest) (tail : List Char) :
    Parted w (rest ++ '\n' :: tail) := by
  intro hw d hd
  cases rest with
  | nil =>
    cases hd
    decide
  | cons c rest => exact h hw d hd

/-! ## Tilings -/

/-- Trivia in front of characters changes no token of theirs. -/
theorem Tiling.trivia (h : Tiling (before ++ run) cs tiles failure)
    (hrun : TriviaRun run cs) : ∃ tiles', Tiling before (run ++ cs) tiles' failure ∧
      tiles'.map Tile.token = tiles.map Tile.token := by
  generalize hb : before ++ run = before' at h
  cases h with
  | @finish _ run' h =>
    subst hb
    have longest : LongestTrivia (run ++ cs) [] := .append (by rwa [List.append_nil]) h
    refine ⟨_, .finish longest, ?_⟩
    rw [List.append_assoc]
    rfl
  | @fault _ run' rest n f h hf =>
    subst hb
    have longest : LongestTrivia (run ++ run') rest := .append hrun h
    refine ⟨[], ?_, rfl⟩
    have tile : Tiling before (run ++ run' ++ rest) [] _ := .fault longest hf
    simpa using tile
  | @token _ run' w rest kind text tiles _ h hrest hw htiles =>
    subst hb
    have longest : LongestTrivia (run ++ run') (w ++ rest) := .append hrun h
    have assoc : before ++ run ++ run' ++ w = before ++ (run ++ run') ++ w := by simp
    rw [assoc] at htiles
    refine ⟨_, by simpa using Tiling.token longest hrest hw htiles, ?_⟩
    simp

/-- Characters in front of a newline have their tokens, up to the end token, and those behind
it have theirs. -/
theorem Tiling.join (h : Tiling before cs tiles none)
    (h' : Tiling (before ++ cs ++ ['\n']) rest tiles' failure) :
    ∃ tiles'', Tiling before (cs ++ '\n' :: rest) tiles'' failure ∧
      tiles''.map Tile.token = (tiles.map Tile.token).dropLast ++ tiles'.map Tile.token := by
  generalize hf : none = failure' at h
  induction h with
  | fault _ _ => cases hf
  | @finish before run hrun =>
    -- A comment that is open at the end is closed by the newline.
    have front : TriviaRun run (['\n'] ++ rest) := hrun.isRun.newline rest
    have newline : TriviaRun ['\n'] rest := (Filler.blank (by decide) .nil).isRun
    rw [List.append_assoc] at h'
    simpa using h'.trivia (front.append newline)
  | @token before run w cs kind text tiles _ hrun hrest hw htiles ih =>
    subst hf
    have assoc : before ++ (run ++ (w ++ cs)) ++ ['\n'] = before ++ run ++ w ++
        cs ++ ['\n'] := by
      simp
    rw [assoc] at h'
    obtain ⟨tiles'', joined, tokens⟩ := ih h' rfl
    have isRun : TriviaRun run (w ++ (cs ++ '\n' :: rest)) := by
      simpa using hrun.isRun.newline rest
    have apart : Parted w (cs ++ '\n' :: rest) := (hrun.parted hrest).newline rest
    refine ⟨_, by simpa using (hw.newline rest).tile isRun apart joined, ?_⟩
    have some : tiles.map Tile.token ≠ [] := by simpa using htiles.ne_nil
    rw [List.map_cons, List.map_cons, tokens, List.dropLast_cons_of_ne_nil some]
    rfl

/-! ## Sources -/

/-- A byte order mark is cut off only from the front. -/
theorem unmarked_append_cons {c : Char} (hc : c ≠ '\uFEFF') (source rest : List Char) :
    unmarked (source ++ c :: rest) = unmarked source ++ c :: rest := by
  cases source with
  | nil => exact unmarked_eq (by simpa using hc)
  | cons d source =>
    by_cases hd : d = '\uFEFF'
    · subst hd
      rfl
    · have first : some d ≠ some '\uFEFF' := by simpa using hd
      have alone : unmarked (d :: source) = d :: source := unmarked_eq first
      have joined : unmarked (d :: source ++ c :: rest) = d :: source ++ c :: rest :=
        unmarked_eq first
      rw [alone, joined]

/-- The byte order mark holds no line. -/
theorem count_unmarked (source : List Char) : (unmarked source).count '\n' =
      source.count '\n' := by
  obtain ⟨mark, hmark, rfl | ⟨rfl, -⟩⟩ := unmarked_cases source
  · rw [← congrArg (List.count '\n') hmark]
    simp
  · rw [← congrArg (List.count '\n') hmark]
    rfl

end Lexicon

open Lexicon

/-- Behind a source and a newline, a source has the tokens or the fault that it has by itself,
on later lines. -/
theorem tokenize_join {source source' : List Char} {us : List Token} {e : Token}
    (h : tokenize source = .ok (us ++ [e])) (hmark : source'.head? ≠ some '\uFEFF') :
    tokenize (source ++ '\n' :: source') = match tokenize source' with
      | .ok vs => .ok (us ++ vs.map (·.relocate (.down (1 + source.count '\n'))))
      | .error e => .error (e.relocate (.down (1 + source.count '\n'))) := by
  obtain ⟨tiles, htiles, read⟩ := exists_tiling_tokens h
  obtain ⟨tiles', failure, htiles'⟩ := exists_tiling_source source'
  have read' := htiles'.tokenize rfl
  rw [unmarked_eq hmark] at htiles'
  have behind := htiles'.down (unmarked source)
  rw [count_unmarked] at behind
  obtain ⟨joined, hjoined, tokens⟩ := htiles.join behind
  have whole := hjoined.tokenize (unmarked_append_cons (by decide) source source')
  have front : (tiles.map Tile.token).dropLast = us := by
    rw [read, List.dropLast_concat]
  rw [whole, read', tokens, front]
  cases failure with
  | some e => rfl
  | none => simp [Tile.relocate, Function.comp_def]

end ProtoSchema
