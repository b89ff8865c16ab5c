import Mathlib.Data.List.TakeWhile
import ProtoSchema.Proofs.Lexing.Lexicon

/-!
# Reading trivia

Blanks and comments are read as far as they go. A list of characters starts with one piece of
trivia at most, so a run that no piece follows is the longest.
-/
namespace ProtoSchema.Lexicon

variable {cs run rest run' rest' : List Char}

/-! ## Block comments -/

theorem unclosed_cons {c : Char} : Unclosed (c :: cs) ↔ ¬['*', '/'] <+: c :: cs ∧
    Unclosed cs := by
  rw [Unclosed, List.infix_cons_iff, not_or, Unclosed]

theorem blockEnd?_eq_none : Trivia.blockEnd? cs = none ↔ Unclosed cs := by
  fun_induction Trivia.blockEnd? cs with
  | case1 => simp [Unclosed]
  | case2 rest => simp [Unclosed, List.infix_cons_iff]
  | case3 c rest h ih =>
    rw [Option.map_eq_none_iff, ih, unclosed_cons]
    have other : ¬['*', '/'] <+: c :: rest := by
      rintro ⟨u, hu⟩
      obtain ⟨rfl, rfl⟩ := List.cons.inj hu
      exact h u rfl rfl
    simp [other]

/-- The first end of a comment is found. -/
theorem blockEnd?_append {body : List Char} (h : Unclosed (body ++ ['*'])) :
    Trivia.blockEnd? (body ++ '*' :: '/' :: rest) = some (body.length + 2) := by
  induction body with
  | nil => rfl
  | cons c body ih =>
    rw [List.cons_append, unclosed_cons] at h
    have other : ∀ u, c = '*' → body ++ '*' :: '/' :: rest = '/' :: u → False := by
      rintro u rfl hu
      cases body with
      | nil => simp at hu
      | cons d body =>
        obtain rfl : d = '/' := (List.cons.inj hu).1
        exact h.1 ⟨body ++ ['*'], rfl⟩
    rw [List.cons_append, Trivia.blockEnd?.eq_3 _ _ other, ih h.2]
    rfl

/-- A comment in a block ends at the first closing mark. -/
theorem blockEnd?_eq_some {n : ℕ} (h : Trivia.blockEnd? cs = some n) :
    ∃ body rest, cs = body ++ '*' :: '/' :: rest ∧ n = body.length + 2 ∧
      Unclosed (body ++ ['*']) := by
  fun_induction Trivia.blockEnd? cs generalizing n with
  | case1 => cases h
  | case2 rest =>
    obtain rfl := Option.some.inj h
    exact ⟨[], rest, rfl, rfl, by simp [Unclosed, List.infix_cons_iff]⟩
  | case3 c rest hc ih =>
    obtain ⟨m, hm, rfl⟩ := Option.map_eq_some_iff.mp h
    obtain ⟨body, rest, rfl, rfl, hbody⟩ := ih hm
    refine ⟨c :: body, rest, rfl, rfl, unclosed_cons.mpr ⟨?_, hbody⟩⟩
    rintro ⟨u, hu⟩
    obtain ⟨rfl, tail⟩ := List.cons.inj hu
    cases body with
    | nil => simp at tail
    | cons d body =>
      obtain rfl : '/' = d := (List.cons.inj tail).1
      exact hc _ rfl rfl

/-! ## Pieces -/

/-- No blank and no comment stands at the head. -/
def Stuck (cs : List Char) : Prop :=
  ∀ piece rest, piece ++ rest = cs → ¬TriviaPiece piece rest

theorem atLineEnd_takeWhile {body : List Char} (hb : '\n' ∉ body) (hr : AtLineEnd rest) :
    (body ++ rest).takeWhile (· ≠ '\n') = body := by
  have all : ∀ c ∈ body, decide (c ≠ '\n') = true := by
    rintro c hc
    exact decide_eq_true fun h => hb (h ▸ hc)
  rw [List.takeWhile_append_of_pos all]
  cases rest with
  | nil => simp
  | cons c rest => simp [hr c rfl]

theorem piece_ne_nil {piece : List Char} (h : TriviaPiece piece rest) : piece ≠ [] := by
  cases h <;> exact List.cons_ne_nil _ _

/-- One piece of trivia at most starts there. -/
theorem piece_unique {piece piece' : List Char} (heq : piece ++ rest = piece' ++ rest')
    (h : TriviaPiece piece rest) (h' : TriviaPiece piece' rest') : piece = piece' := by
  have slash : '/' ∉ whitespace := by decide
  cases h with
  | blank hc =>
    cases h' with
    | blank _ => rw [(List.cons.inj heq).1]
    | line _ _ => exact absurd ((List.cons.inj heq).1 ▸ hc) slash
    | block _ => exact absurd ((List.cons.inj heq).1 ▸ hc) slash
  | line hb hr =>
    cases h' with
    | blank hc => exact absurd ((List.cons.inj heq).1 ▸ hc) slash
    | line hb' hr' =>
      have same := (List.cons.inj (List.cons.inj heq).2).2
      rw [← atLineEnd_takeWhile hb hr, ← atLineEnd_takeWhile hb' hr']
      simp only [List.append_eq] at same
      rw [same]
    | block _ => exact absurd (List.cons.inj (List.cons.inj heq).2).1 (by decide)
  | block hb =>
    cases h' with
    | blank hc => exact absurd ((List.cons.inj heq).1 ▸ hc) slash
    | line _ _ => exact absurd (List.cons.inj (List.cons.inj heq).2).1 (by decide)
    | block hb' =>
      rename_i body body'
      have same : body ++ '*' :: '/' :: rest = body' ++ '*' :: '/' :: rest' := by
        simpa using (List.cons.inj (List.cons.inj heq).2).2
      have length : Trivia.blockEnd? (body ++ '*' :: '/' :: rest) = _ := blockEnd?_append hb
      rw [same, blockEnd?_append hb', Option.some_inj] at length
      rw [(List.append_inj same (by omega)).1]

theorem stuck_nil : Stuck [] :=
  fun _ _ heq hp => piece_ne_nil hp (List.append_eq_nil_iff.mp heq).1

/-- Trivia starts with a blank, or with a slash in front of another one or of a star. -/
theorem stuck_cons {c : Char} (hc : c ∉ whitespace)
    (hrest : c = '/' → ∀ d ∈ rest.head?, d ≠ '/' ∧ d ≠ '*') : Stuck (c :: rest) := by
  intro piece rest' heq hp
  cases hp with
  | blank hblank => exact hc ((List.cons.inj heq).1 ▸ hblank)
  | line _ _ =>
    obtain ⟨rfl, rfl⟩ := List.cons.inj heq
    exact (hrest rfl '/' rfl).1 rfl
  | block _ =>
    obtain ⟨rfl, rfl⟩ := List.cons.inj heq
    exact (hrest rfl '*' rfl).2 rfl

/-! ## Runs -/

/-- A run with no piece behind it is the longest. -/
theorem longestTrivia_of_stuck (h : TriviaRun run rest) (hrest : Stuck rest) :
    LongestTrivia run rest where
  isRun := h
  longest run' rest' heq h' := by
    induction h' generalizing run with
    | nil => exact Nat.zero_le _
    | @cons piece' run' rest' hp' hrun' ih =>
      cases h with
      | nil => exact absurd hp' (hrest _ _ (by rw [← List.append_assoc]; exact heq))
      | @cons piece run _ hp hrun =>
        rw [List.append_assoc, List.append_assoc] at heq
        obtain rfl := piece_unique heq hp' hp
        have := ih hrun (List.append_cancel_left heq)
        simp only [List.length_append]
        omega

/-- Only one run is the longest. -/
theorem LongestTrivia.unique (h : LongestTrivia run rest) (h' : LongestTrivia run' rest')
    (heq : run ++ rest = run' ++ rest') : run = run' ∧ rest = rest' := by
  have le := h'.longest run rest heq h.isRun
  have ge := h.longest run' rest' heq.symm h'.isRun
  exact List.append_inj heq (by omega)

/-- What reading trivia comes to: the longest run, or the longest run in front of an open
comment. -/
inductive TriviaRead (cs : List Char) : Reading Unit → Prop where
  | done {run rest : List Char} : run ++ rest = cs → LongestTrivia run rest →
    ¬['/', '*'] <+: rest → TriviaRead cs (.done run.length ())
  | opened {run rest : List Char} : run ++ '/' :: '*' :: rest = cs →
    LongestTrivia run ('/' :: '*' :: rest) → Unclosed rest →
    TriviaRead cs ⟨.error ⟨run.length, .unterminatedComment⟩, cs.length⟩

/-- A piece in front of a longest run makes a longest run. -/
theorem LongestTrivia.cons {piece : List Char} (hp : TriviaPiece piece (run ++ rest))
    (h : LongestTrivia run rest) : LongestTrivia (piece ++ run) rest where
  isRun := .cons hp h.isRun
  longest run' rest' heq h' := by
    cases h' with
    | nil => exact Nat.zero_le _
    | @cons piece' run' _ hp' hrun' =>
      rw [List.append_assoc, List.append_assoc] at heq
      obtain rfl := piece_unique heq hp' hp
      have := h.longest _ _ (List.append_cancel_left heq) hrun'
      simp only [List.length_append]
      omega

/-- A piece of trivia in front is passed. -/
theorem TriviaRead.cons {piece : List Char} {r : Reading Unit} (hp : TriviaPiece piece cs)
    (h : TriviaRead cs r) : TriviaRead (piece ++ cs) (r.after piece.length) := by
  cases h with
  | @done run rest hcs hrun hrest =>
    subst hcs
    have := TriviaRead.done (List.append_assoc piece run rest) (hrun.cons hp) hrest
    rwa [List.length_append] at this
  | @opened run rest hcs hrun hrest =>
    subst hcs
    have := TriviaRead.opened (List.append_assoc piece run _) (hrun.cons hp) hrest
    rwa [List.length_append, List.length_append] at this

theorem stuck_opened (h : Unclosed rest) : Stuck ('/' :: '*' :: rest) := by
  intro piece rest' heq hp
  cases hp with
  | blank hc => exact absurd ((List.cons.inj heq).1 ▸ hc) (by decide)
  | line _ _ => exact absurd (List.cons.inj (List.cons.inj heq).2).1 (by decide)
  | @block body _ _ =>
    have same := (List.cons.inj (List.cons.inj heq).2).2
    exact h ⟨body, rest', by simpa using same⟩

theorem isSpace_iff {c : Char} : Trivia.isSpace c = true ↔ c ∈ whitespace := by
  simp [Trivia.isSpace, whitespace, or_assoc]

/-- The rest of a line is a comment behind a slash, if a slash is its first character. -/
theorem exists_line {rest : List Char} (h : rest.head? = some '/') :
    ∃ tail, rest.drop (Trivia.lineRest rest).length = tail ∧
    Trivia.lineRest rest ++ tail = rest ∧
      TriviaPiece ('/' :: Trivia.lineRest rest) tail := by
  obtain ⟨rest, rfl⟩ := List.head?_eq_some_iff.mp h
  have whole := List.takeWhile_append_dropWhile (p := (· ≠ '\n')) (l := '/' :: rest)
  refine ⟨('/' :: rest).dropWhile (· ≠ '\n'), ?_, whole, ?_⟩
  · exact (congrArg (List.drop _) whole.symm).trans List.drop_left
  · have first : ('/' :: rest).takeWhile (· ≠ '\n') = '/' ::
        rest.takeWhile (· ≠ '\n') := by simp
    rw [Trivia.lineRest, first]
    apply TriviaPiece.line
    · intro h
      simpa using List.mem_takeWhile_imp h
    · intro c hc
      have := List.head?_dropWhile_not (· ≠ '\n') ('/' :: rest)
      rw [hc] at this
      simpa using this

/-- Trivia is read as far as it goes. -/
theorem triviaRead (cs : List Char) : TriviaRead cs (Trivia.read cs) := by
  fun_induction Trivia.read cs with
  | case1 =>
    exact @TriviaRead.done _ [] _ rfl (longestTrivia_of_stuck .nil stuck_nil) (by simp)
  | case2 c rest hc ih =>
    have piece : TriviaPiece [c] rest := .blank (isSpace_iff.mp hc)
    exact .cons piece ih
  | case3 c rest hc h n ih =>
    obtain ⟨rfl, hrest⟩ := h
    obtain ⟨tail, htail, hwhole, hp⟩ := exists_line hrest
    rw [show rest.drop n = tail from htail] at ih ⊢
    have := TriviaRead.cons hp ih
    rwa [List.cons_append, hwhole, List.length_cons, Nat.add_comm _ 1] at this
  | case4 c rest hc h hstar n hn ih =>
    obtain ⟨rfl, hrest⟩ := hstar
    obtain ⟨rest, rfl⟩ := List.head?_eq_some_iff.mp hrest
    obtain ⟨body, tail, hbody, rfl, hclosed⟩ := blockEnd?_eq_some hn
    obtain rfl : rest = body ++ '*' :: '/' :: tail := hbody
    have behind :
        ('*' :: (body ++ '*' :: '/' :: tail)).drop (1 + (body.length + 2)) = tail := by
      rw [show '*' :: (body ++ '*' :: '/' :: tail) =
        ('*' :: (body ++ ['*', '/'])) ++ tail by simp]
      exact List.drop_left' (by simp; omega)
    rw [behind] at ih ⊢
    have := TriviaRead.cons (.block hclosed) ih
    rwa [show (('/' :: '*' :: (body ++ ['*', '/'])) ++ tail) =
        '/' :: '*' :: (body ++ '*' :: '/' :: tail) by simp,
      show ('/' :: '*' :: (body ++ ['*', '/'])).length = 2 + (body.length + 2) by
      simp; omega] at this
  | case5 c rest hc h hstar hn =>
    obtain ⟨rfl, hrest⟩ := hstar
    obtain ⟨rest, rfl⟩ := List.head?_eq_some_iff.mp hrest
    have unclosed : Unclosed rest := blockEnd?_eq_none.mp hn
    have longest : LongestTrivia [] ('/' :: '*' :: rest) :=
      longestTrivia_of_stuck .nil (stuck_opened unclosed)
    exact .opened rfl longest unclosed
  | case6 c rest hc h hstar =>
    have next : c = '/' → ∀ d ∈ rest.head?, d ≠ '/' ∧ d ≠ '*' := by
      rintro rfl d hd
      exact ⟨fun hslash => h ⟨rfl, hslash ▸ hd⟩, fun hs => hstar ⟨rfl, hs ▸ hd⟩⟩
    have stuck : Stuck (c :: rest) := stuck_cons (fun hb => hc (isSpace_iff.mpr hb)) next
    refine @TriviaRead.done _ [] _ rfl (longestTrivia_of_stuck .nil stuck) ?_
    rintro ⟨tail, heq⟩
    obtain ⟨rfl, rfl⟩ := List.cons.inj heq
    exact (next rfl '*' rfl).2 rfl

end ProtoSchema.Lexicon
