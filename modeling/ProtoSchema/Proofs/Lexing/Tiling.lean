import ProtoSchema.Proofs.Lexing.Lexeme
import ProtoSchema.Proofs.Lexing.Trivia

/-!
# Tilings of sources

The characters of a source are its trivia and its lexemes, in one way only. A cursor that
reads tokens to the end goes over the source tile by tile.
-/
namespace ProtoSchema.Lexicon

variable {before cs run rest w : List Char} {kind : TokenKind} {text : Text}
  {tiles tiles' : List Tile}
  {failure failure' : Option LexicalError} {fault : LexicalFault} {c d : Cursor} {n : ℕ}

/-! ## Positions -/

theorem positionAfter_concat (before : List Char) (x : Char) :
    positionAfter (before ++ [x]) = Cursor.step (positionAfter before) x := by
  by_cases hx : x = '\n'
  · simp [positionAfter, Cursor.step, hx, Nat.add_assoc]
  · simp [positionAfter, Cursor.step, hx, Nat.add_assoc]

/-- A cursor stands behind what it has moved over. -/
theorem position_advanceBy (h : c.position = positionAfter before) (n : ℕ) :
    (c.advanceBy n).position = positionAfter (before ++ c.ahead.take n) := by
  induction n generalizing c before with
  | zero => simpa [Cursor.advanceBy] using h
  | succ n ih =>
    rcases hc : c.ahead with _ | ⟨x, rest⟩
    · have stay : c.advance = c := by rw [Cursor.advance, hc]
      rw [Cursor.advanceBy, stay, ih h, hc]
      simp
    · have step : c.advance = ⟨x :: c.behind, rest, Cursor.step c.position x⟩ := by
        rw [Cursor.advance, hc]
      have position : c.advance.position = positionAfter (before ++ [x]) := by
        rw [step, positionAfter_concat, ← h]
      rw [Cursor.advanceBy, ih position, step]
      simp

/-! ## Trivia -/

/-- The longest trivia is what is read in front of a token. -/
theorem LongestTrivia.read (h : LongestTrivia run rest) (hrest : ¬['/', '*'] <+: rest) :
    Trivia.read (run ++ rest) = .done run.length () := by
  generalize hr : Trivia.read (run ++ rest) = r
  cases hr ▸ triviaRead (run ++ rest) with
  | done heq h' _ =>
    obtain ⟨rfl, -⟩ := h.unique h' heq.symm
    rfl
  | opened heq h' _ =>
    obtain ⟨-, rfl⟩ := h.unique h' heq.symm
    exact absurd ⟨_, rfl⟩ hrest

/-- Behind the longest trivia a comment is read as open. -/
theorem LongestTrivia.read_opened (h : LongestTrivia run ('/' :: '*' :: rest)) :
    Trivia.read (run ++ '/' :: '*' :: rest) =
      ⟨.error ⟨run.length, .unterminatedComment⟩, (run ++ '/' :: '*' :: rest).length⟩ := by
  generalize hcs : run ++ '/' :: '*' :: rest = cs
  generalize hr : Trivia.read cs = r
  cases hr ▸ triviaRead cs with
  | done heq h' hrest =>
    obtain ⟨-, rfl⟩ := h.unique h' (hcs.trans heq.symm)
    exact absurd ⟨_, rfl⟩ hrest
  | opened heq h' _ =>
    obtain ⟨rfl, -⟩ := h.unique h' (hcs.trans heq.symm)
    rfl

/-! ## In front of lexemes -/

/-- No lexeme starts with a byte order mark or a blank, and only the slash starts with a
slash. -/
theorem IsLexeme.head (h : IsLexeme w kind text) :
    ∃ c u, w = c :: u ∧ c ∉ '\uFEFF' :: whitespace ∧ (c = '/' → u = []) := by
  have other : ∀ c ∈ '\uFEFF' :: whitespace, Lexeme.isIdentifierStart c = false ∧
      c.isDigit = false ∧ c ∉ quotes := List.forall_iff_forall_mem.mp (by decide)
  cases h with
  | identifier hw =>
    obtain ⟨c, u, rfl, hc, -⟩ := mem_identifier.mp hw
    refine ⟨c, u, rfl, fun hb => by simp [(other c hb).1] at hc, ?_⟩
    rintro rfl
    exact absurd hc (by decide)
  | number hw _ =>
    obtain ⟨d, u, hd, -, rfl | rfl⟩ := mem_numericRun.mp hw
    · refine ⟨d, u, rfl, fun hb => by simp [(other d hb).2.1] at hd, ?_⟩
      rintro rfl
      exact absurd hd (by decide)
    · exact ⟨'.', d :: u, rfl, by decide, fun h => absurd h (by decide)⟩
  | @string quote content _ hq _ =>
    refine ⟨quote, content ++ [quote], rfl, fun hb => (other quote hb).2.2 hq, ?_⟩
    rintro rfl
    exact absurd hq (by decide)
  | @mark c _ hm =>
    have none : ∀ m ∈ marks, m.1 ∉ '\uFEFF' :: whitespace := by decide
    exact ⟨c, [], rfl, none _ hm, fun _ => rfl⟩

/-- Nothing that could belong to a comment stands behind a slash. -/
def Parted (w rest : List Char) : Prop := w = ['/'] → ∀ d ∈ rest.head?, d ≠ '/' ∧ d ≠ '*'

/-- At a lexeme there is no trivia. -/
theorem IsLexeme.stuck (h : IsLexeme w kind text) (hrest : Parted w rest) :
    Stuck (w ++ rest) ∧ ¬['/', '*'] <+: w ++ rest := by
  obtain ⟨c, u, rfl, hblank, hslash⟩ := h.head
  have next : c = '/' → ∀ d ∈ (u ++ rest).head?, d ≠ '/' ∧ d ≠ '*' := by
    rintro rfl
    obtain rfl := hslash rfl
    exact hrest rfl
  refine ⟨stuck_cons (fun hb => hblank (.tail _ hb)) next, ?_⟩
  rintro ⟨tail, heq⟩
  obtain ⟨rfl, htail⟩ : '/' = c ∧ '*' :: tail = u ++ rest := List.cons.inj heq
  exact (next rfl '*' (by rw [← htail]; rfl)).2 rfl

/-- The longest lexeme behind trivia is a tile. -/
theorem LongestLexeme.tile {before run : List Char} {tiles : List Tile}
    {failure : Option LexicalError} (h : LongestLexeme w kind text rest)
    (hrun : TriviaRun run (w ++ rest)) (hrest : Parted w rest)
    (htiles : Tiling (before ++ run ++ w) rest tiles failure) :
    Tiling before (run ++ (w ++ rest))
      (⟨run, w, tokenOf kind text (positionAfter (before ++ run))⟩ :: tiles) failure := by
  obtain ⟨stuck, noComment⟩ := h.isLexeme.stuck hrest
  exact .token (longestTrivia_of_stuck hrun stuck) noComment h htiles

/-- The longest lexeme with nothing in front of it is a tile. -/
theorem LongestLexeme.next {tiles : List Tile} {failure : Option LexicalError}
    (h : LongestLexeme w kind text rest) (hrest : Parted w rest) (before : List Char)
    (htiles : Tiling (before ++ w) rest tiles failure) :
    Tiling before (w ++ rest) (⟨[], w, tokenOf kind text (positionAfter before)⟩ :: tiles)
      failure := by
  have tile : Tiling before ([] ++ (w ++ rest)) _ failure :=
    h.tile .nil hrest (by rwa [List.append_nil])
  rwa [List.append_nil] at tile

/-! ## Tokens -/

theorem IsLexeme.ne_end (h : IsLexeme w kind text) : kind ≠ .endOfInput := by
  cases h with
  | identifier _ => nofun
  | number _ hk => cases hk <;> nofun
  | string _ _ => nofun
  | mark hm =>
    have none : ∀ m ∈ marks, m.2 ≠ .endOfInput := by decide
    exact none _ hm

theorem tokenOf_eq (kind : TokenKind) (text : Text) (position : Position) :
    tokenOf kind text position =
      ⟨kind, text, position, kind = .identifier && Token.isSoftKeyword text⟩ := by
  have soft : Token.isSoftKeyword text = true ↔
      ∃ word ∈ Token.softKeywords, text = Text.ofString word := by
    simp only [Token.isSoftKeyword, List.any_eq_true, decide_eq_true_eq]
    exact exists_congr fun word => and_congr_right fun _ => eq_comm
  have : (kind = .identifier && Token.isSoftKeyword text) =
      decide
        (kind = .identifier ∧ ∃ word ∈ Token.softKeywords, text = Text.ofString word) := by
    rw [Bool.eq_iff_iff, Bool.and_eq_true, decide_eq_true_eq, decide_eq_true_eq, soft]
  rw [tokenOf, this]

theorem perform_done {α : Type} {read : List Char → Reading α} {a : α}
    (h : read c.ahead = .done n a) : c.perform read = (.ok a, c.advanceBy n) := by
  rw [Cursor.perform, h]
  rfl

theorem perform_error {α : Type} {read : List Char → Reading α} {k : ℕ}
    (h : read c.ahead = ⟨.error ⟨n, fault⟩, k⟩) :
    c.perform read = (.error ⟨fault, (c.advanceBy n).position⟩, c.advanceBy k) := by
  rw [Cursor.perform, h]

/-- The place behind some characters. -/
theorem behind_run (hp : c.position = positionAfter before) (hc : c.ahead = run ++ rest) :
    (c.advanceBy run.length).position = positionAfter (before ++ run) ∧
      (c.advanceBy run.length).ahead = rest := by
  rw [position_advanceBy hp, Cursor.ahead_advanceBy, hc, List.take_left, List.drop_left]
  exact ⟨rfl, rfl⟩

/-- Trivia in front of a token is passed over. -/
theorem token_behind (h : LongestTrivia run rest) (hrest : ¬['/', '*'] <+: rest)
    (hc : c.ahead = run ++ rest) : c.token =
      match (c.advanceBy run.length).perform Lexeme.read with
      | (.error e, d) => (.error e, d)
      | (.ok (kind, text), d) =>
        (.ok (tokenOf kind text (c.advanceBy run.length).position), d) := by
  have trivia : c.perform Trivia.read = (.ok (), c.advanceBy run.length) :=
    perform_done (by rw [hc, h.read hrest])
  rcases hread : (c.advanceBy run.length).perform Lexeme.read with ⟨_ | ⟨_, _⟩, _⟩
  · simp only [Cursor.token, trivia, hread]
  · simp only [Cursor.token, trivia, hread, tokenOf_eq]

/-- Behind the trivia the lexer reads the longest lexeme, and places it where it starts. -/
theorem token_lexeme (hp : c.position = positionAfter before)
    (h : LongestTrivia run (w ++ rest)) (hrest : ¬['/', '*'] <+: w ++ rest)
    (hw : LongestLexeme w kind text rest) (hc : c.ahead = run ++ (w ++ rest)) :
    ∃ d, c.token = (.ok (tokenOf kind text (positionAfter (before ++ run))), d) ∧
      d.position = positionAfter (before ++ run ++ w) ∧ d.ahead = rest := by
  obtain ⟨position, ahead⟩ := behind_run hp hc
  have lexeme : (c.advanceBy run.length).perform Lexeme.read = (.ok (kind, text), _) :=
    perform_done (by rw [ahead, hw.read])
  refine ⟨_, ?_, behind_run position ahead⟩
  rw [token_behind h hrest hc, lexeme, position]

/-- Behind the last trivia the lexer reads the end. -/
theorem token_end (hp : c.position = positionAfter before) (h : LongestTrivia run [])
    (hc : c.ahead = run) :
    ∃ d, c.token = (.ok (tokenOf .endOfInput [] (positionAfter (before ++ run))), d) := by
  replace hc : c.ahead = run ++ [] := by rw [hc, List.append_nil]
  obtain ⟨position, ahead⟩ := behind_run hp hc
  have lexeme : (c.advanceBy run.length).perform Lexeme.read = (.ok (.endOfInput, []), _) :=
    perform_done (by rw [ahead, Lexeme.read])
  exact ⟨_, by rw [token_behind h (by simp) hc, lexeme, position]⟩

/-- A fault behind the trivia is placed where it is found. -/
theorem token_fault (hp : c.position = positionAfter before) (h : LongestTrivia run rest)
    (hf : Fault rest n fault) (hc : c.ahead = run ++ rest) :
    ∃ d, c.token = (.error ⟨fault, positionAfter (before ++ run ++ rest.take n)⟩, d) := by
  obtain ⟨position, ahead⟩ := behind_run hp hc
  by_cases hrest : ['/', '*'] <+: rest
  · obtain ⟨rest, rfl⟩ := hrest
    obtain ⟨rfl, rfl, -⟩ := hf.comment_cases
    have trivia :
        c.perform Trivia.read = (.error ⟨_, (c.advanceBy run.length).position⟩, _) :=
      perform_error (by rw [hc]; exact h.read_opened)
    rw [Cursor.token, trivia, position, List.take_zero, List.append_nil]
    exact ⟨_, rfl⟩
  · obtain ⟨k, hk⟩ := hf.read hrest
    have lexeme : (c.advanceBy run.length).perform Lexeme.read = (.error ⟨fault, _⟩, _) :=
      perform_error (by rw [ahead, hk])
    rw [token_behind h hrest hc, lexeme, position_advanceBy position, ahead]
    exact ⟨_, rfl⟩

/-! ## Reading to the end -/

theorem drain_error {e : LexicalError} (h : c.token = (.error e, d)) :
    c.drain = ⟨[], some e, d⟩ := by
  rw [Cursor.drain]
  split <;> simp_all

theorem drain_end {t : Token} (h : c.token = (.ok t, d)) (hk : t.kind = .endOfInput) :
    c.drain = ⟨[t], none, d⟩ := by
  rw [Cursor.drain]
  split <;> simp_all

theorem drain_token {t : Token} (h : c.token = (.ok t, d)) (hk : t.kind ≠ .endOfInput) :
    c.drain = { d.drain with tokens := t :: d.drain.tokens } := by
  rw [Cursor.drain]
  split <;> simp_all

/-- What is left behind trivia is nothing, a lexeme or a fault. -/
theorem trivia_cases (cs : List Char) :
    LongestTrivia cs [] ∨
      (∃ run w kind text rest, run ++ (w ++ rest) = cs ∧ LongestTrivia run (w ++ rest) ∧
        ¬['/', '*'] <+: w ++ rest ∧ LongestLexeme w kind text rest) ∨
      ∃ run rest n fault, run ++ rest = cs ∧ LongestTrivia run rest ∧ Fault rest n fault := by
  generalize hr : Trivia.read cs = r
  cases hr ▸ triviaRead cs with
  | @done run rest heq h hrest =>
    rcases rest with _ | ⟨x, rest⟩
    · rw [List.append_nil] at heq
      exact .inl (heq ▸ h)
    · rcases lexeme_cases x rest with ⟨w, kind, text, rest', hw, hl⟩ | ⟨n, fault, hf⟩
      · rw [← hw] at heq h hrest
        exact .inr (.inl ⟨run, w, kind, text, rest', heq, h, hrest, hl⟩)
      · exact .inr (.inr ⟨run, _, n, fault, heq, h, hf⟩)
  | @opened run rest heq h hrest => exact .inr (.inr ⟨run, _, 0, _, heq, h, .comment hrest⟩)

/-- A cursor that reads to the end yields the tokens of a tiling. -/
theorem exists_tiling (hp : c.position = positionAfter before) :
    ∃ tiles, Tiling before c.ahead tiles c.drain.failure ∧
    tiles.map Tile.token = c.drain.tokens := by
  induction hn : c.ahead.length using Nat.strongRecOn generalizing c before with | ind n ih
  subst hn
  rcases trivia_cases c.ahead with h | ⟨run, w, kind, text, rest, hcs, h, hrest, hw⟩ |
    ⟨run, rest, n, fault, hcs, h, hf⟩
  · obtain ⟨d, hd⟩ := token_end hp h rfl
    rw [drain_end hd rfl]
    exact ⟨_, .finish h, rfl⟩
  · obtain ⟨d, hd, position, ahead⟩ := token_lexeme hp h hrest hw hcs.symm
    have shorter : d.ahead.length < c.ahead.length :=
      Cursor.length_ahead_token hd hw.isLexeme.ne_end
    obtain ⟨tiles, htiles, htokens⟩ := ih _ shorter position rfl
    rw [drain_token hd hw.isLexeme.ne_end, ← hcs]
    rw [ahead] at htiles
    exact ⟨_, .token h hrest hw htiles, congrArg _ htokens⟩
  · obtain ⟨d, hd⟩ := token_fault hp h hf hcs.symm
    rw [drain_error hd, ← hcs]
    exact ⟨_, .fault h hf, rfl⟩

/-! ## Uniqueness -/

theorem fault_ne_nil (h : Fault cs n fault) : cs ≠ [] := by
  cases h <;> exact List.cons_ne_nil _ _

/-- Where a lexeme stands, nothing is at fault. -/
theorem LongestLexeme.not_fault (h : LongestLexeme w kind text rest)
    (hrest : ¬['/', '*'] <+: w ++ rest) : ¬Fault (w ++ rest) n fault := by
  intro hf
  obtain ⟨k, hk⟩ := hf.read hrest
  rw [h.read] at hk
  cases hk

/-- Characters have one tiling. -/
theorem Tiling.unique (h : Tiling before cs tiles failure)
    (h' : Tiling before cs tiles' failure') : tiles = tiles' ∧ failure = failure' := by
  induction h generalizing tiles' failure' with
  | @finish before run hrun =>
    generalize hcs : run = cs at h'
    cases h' with
    | finish _ => exact ⟨rfl, rfl⟩
    | fault hrun' hf =>
      obtain ⟨-, hnil⟩ := hrun.unique hrun' ((List.append_nil run).trans hcs)
      exact absurd hnil.symm (fault_ne_nil hf)
    | token hrun' _ hw _ =>
      obtain ⟨-, hnil⟩ := hrun.unique hrun' ((List.append_nil run).trans hcs)
      exact absurd (List.append_eq_nil_iff.mp hnil.symm).1 hw.isLexeme.ne_nil
  | @fault before run rest n f hrun hf =>
    generalize hcs : run ++ rest = cs at h'
    cases h' with
    | finish hrun' =>
      obtain ⟨-, hnil⟩ := hrun.unique hrun' (hcs.trans (List.append_nil _).symm)
      exact absurd hnil (fault_ne_nil hf)
    | fault hrun' hf' =>
      obtain ⟨rfl, rfl⟩ := hrun.unique hrun' hcs
      obtain ⟨rfl, rfl⟩ := hf.unique hf'
      exact ⟨rfl, rfl⟩
    | token hrun' hrest hw _ =>
      obtain ⟨-, rfl⟩ := hrun.unique hrun' hcs
      exact absurd hf (hw.not_fault hrest)
  | @token before run w rest kind text tiles failure hrun hrest hw _ ih =>
    generalize hcs : run ++ (w ++ rest) = cs at h'
    cases h' with
    | finish hrun' =>
      obtain ⟨-, hnil⟩ := hrun.unique hrun' (hcs.trans (List.append_nil _).symm)
      exact absurd (List.append_eq_nil_iff.mp hnil).1 hw.isLexeme.ne_nil
    | fault hrun' hf =>
      obtain ⟨-, rfl⟩ := hrun.unique hrun' hcs
      exact absurd hf (hw.not_fault hrest)
    | token hrun' _ hw' htiles =>
      obtain ⟨rfl, heq⟩ := hrun.unique hrun' hcs
      obtain ⟨rfl, rfl, rfl, rfl⟩ := hw.unique hw' heq
      obtain ⟨rfl, rfl⟩ := ih htiles
      exact ⟨rfl, rfl⟩

/-! ## What a tiling holds -/

/-- The tiles lie side by side from the start of the characters. They are all of them unless
something is at fault. -/
theorem Tiling.characters (h : Tiling before cs tiles failure) :
    ∃ rest, tiles.flatMap Tile.characters ++ rest = cs ∧ (failure = none → rest = []) := by
  induction h with
  | finish _ => exact ⟨[], by simp [Tile.characters], fun _ => rfl⟩
  | @fault _ run rest _ _ _ _ => exact ⟨run ++ rest, rfl, nofun⟩
  | token _ _ _ _ ih =>
    obtain ⟨rest', rfl, hrest⟩ := ih
    exact ⟨rest', by simp [Tile.characters], hrest⟩

/-- What holds of the end token and of the tokens of lexemes holds of every tile. -/
theorem Tiling.forall_tile {P : Tile → Prop} (h : Tiling before cs tiles failure)
    (hend : ∀ run position, P ⟨run, [], tokenOf .endOfInput [] position⟩)
    (hlexeme : ∀ run w kind text position, IsLexeme w kind text →
      P ⟨run, w, tokenOf kind text position⟩) : ∀ tile ∈ tiles, P tile := by
  induction h with
  | finish _ => exact List.forall_mem_cons.mpr ⟨hend _ _, nofun⟩
  | fault _ _ => nofun
  | token _ _ hw _ ih => exact List.forall_mem_cons.mpr ⟨hlexeme _ _ _ _ _ hw.isLexeme, ih⟩

/-- Only the text of a literal is not what is written. -/
theorem IsLexeme.text_eq (h : IsLexeme w kind text) (hk : kind ≠ .string) :
    text = Text.ofChars w := by
  cases h with
  | identifier _ => rfl
  | number _ _ => rfl
  | string _ _ => exact absurd rfl hk
  | mark _ => rfl

end ProtoSchema.Lexicon
