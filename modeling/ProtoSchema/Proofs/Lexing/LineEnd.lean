import Mathlib.Data.List.Induction
import ProtoSchema.Proofs.Joining.Characters

/-!
# Lines that end in a carriage return and a newline

A carriage return in front of every newline goes to the trivia: it is a blank, or the last
character of a comment. No lexeme has one at its end, so lexemes are as before, and a position
behind characters is counted from the last newline, in front of which the carriage return
stands. What is at fault stays so at its place; only an escape that the line cuts off is then
the escape of a carriage return.
-/
namespace ProtoSchema

/-- The characters with a carriage return in front of every newline. -/
def crlf (cs : List Char) : List Char :=
  cs.flatMap fun c => if c = '\n' then ['\r', '\n'] else [c]

@[simp] theorem crlf_nil : crlf [] = [] := rfl

@[simp] theorem crlf_append (cs ds : List Char) : crlf (cs ++ ds) = crlf cs ++ crlf ds :=
  List.flatMap_append

@[simp] theorem crlf_newline (cs : List Char) : crlf ('\n' :: cs) = '\r' :: '\n' ::
      crlf cs := rfl

theorem crlf_cons {c : Char} (h : c ≠ '\n') (cs : List Char) :
    crlf (c :: cs) = c :: crlf cs := by
  rw [crlf, List.flatMap_cons, if_neg h]
  rfl

theorem crlf_of_notMem {cs : List Char} (h : '\n' ∉ cs) : crlf cs = cs := by
  induction cs with
  | nil => rfl
  | cons c cs ih =>
    simp only [List.mem_cons, not_or] at h
    rw [crlf_cons (Ne.symm h.1), ih h.2]

/-- Characters without newlines stay in front. -/
theorem crlf_front {w : List Char} (h : '\n' ∉ w) (rest : List Char) :
    crlf (w ++ rest) = w ++ crlf rest := by
  rw [crlf_append, crlf_of_notMem h]

/-- At the head a newline becomes a carriage return and all else stays. -/
theorem head?_crlf (cs : List Char) :
    (crlf cs).head? = cs.head?.map fun c => if c = '\n' then '\r' else c := by
  cases cs with
  | nil => rfl
  | cons c cs =>
    by_cases h : c = '\n'
    · subst h
      rfl
    · rw [crlf_cons h]
      simp [h]

theorem head?_crlf_of_ne {cs : List Char} (h : cs.head? ≠ some '\n') :
    (crlf cs).head? = cs.head? := by
  rw [head?_crlf]
  cases cs with
  | nil => rfl
  | cons c cs =>
    have hc : c ≠ '\n' := by simpa using h
    simp [hc]

/-- What holds of the head and of a carriage return holds of the new head. -/
theorem forall_head?_crlf {P : Char → Prop} {cs : List Char} (h : ∀ c ∈ cs.head?, P c)
    (hr : P '\r') : ∀ c ∈ (crlf cs).head?, P c := by
  by_cases hn : cs.head? = some '\n'
  · rw [head?_crlf, hn]
    rintro c ⟨⟩
    exact hr
  · rwa [head?_crlf_of_ne hn]

namespace Lexicon

variable {before cs run rest w : List Char} {kind : TokenKind} {text : Text}
  {tiles : List Tile}
  {failure : Option LexicalError} {n : ℕ} {fault : LexicalFault}

/-! ## Positions -/

/-- A carriage return before a newline leaves the position behind the two as it was. -/
theorem positionAfter_crlf (before : List Char) : positionAfter (crlf before) =
      positionAfter before := by
  induction before using List.reverseRecOn with
  | nil => rfl
  | append_singleton before c ih =>
    by_cases h : c = '\n'
    · subst h
      have split : crlf (before ++ ['\n']) = crlf before ++ ['\r'] ++ ['\n'] := by simp
      rw [split, positionAfter_concat, positionAfter_concat, positionAfter_concat, ih]
      rfl
    · rw [crlf_append, crlf_cons h, crlf_nil, positionAfter_concat, positionAfter_concat, ih]

/-! ## Trivia -/

/-- No end of a comment comes about. -/
theorem unclosed_crlf (h : Unclosed cs) : Unclosed (crlf cs) := by
  induction cs with
  | nil => exact h
  | cons c cs ih =>
    obtain ⟨head, tail⟩ := unclosed_cons.mp h
    by_cases hc : c = '\n'
    · subst hc
      rw [crlf_newline, unclosed_cons, unclosed_cons]
      exact ⟨by simp, by simp, ih tail⟩
    · rw [crlf_cons hc, unclosed_cons]
      refine ⟨?_, ih tail⟩
      rintro ⟨u, hu⟩
      obtain ⟨rfl, star⟩ := List.cons.inj hu
      have next : ∀ d ∈ (crlf cs).head?, d ≠ '/' := by
        refine forall_head?_crlf ?_ (by decide)
        rintro d hd rfl
        obtain ⟨v, rfl⟩ := List.head?_eq_some_iff.mp hd
        exact head ⟨v, rfl⟩
      exact next '/' (by rw [← star]; rfl) rfl

/-- Behind a blank a run goes on. -/
theorem TriviaRun.behind_blank {c : Char} (h : TriviaRun (c :: run) rest)
    (hc : c ∈ whitespace) : TriviaRun run rest := by
  have slash : '/' ∉ whitespace := by decide
  generalize hcs : c :: run = cs at h
  cases h with
  | nil => cases hcs
  | cons hp hrun =>
    cases hp with
    | blank _ =>
      obtain ⟨-, rfl⟩ := List.cons.inj hcs
      exact hrun
    | line _ _ => exact absurd ((List.cons.inj hcs).1 ▸ hc) slash
    | block _ => exact absurd ((List.cons.inj hcs).1 ▸ hc) slash

/-- Trivia stays trivia. A line comment takes the carriage return behind it, which is why no
newline may follow the run. -/
theorem TriviaRun.to_crlf (h : TriviaRun run rest) (hrest : rest.head? ≠ some '\n') :
    TriviaRun (crlf run) (crlf rest) := by
  induction h with
  | nil => exact .nil
  | @cons piece run rest hp hrun ih =>
    have ih := ih hrest
    cases hp with
    | @blank c _ hc =>
      by_cases hn : c = '\n'
      · subst hn
        have newline : TriviaRun (['\n'] ++ crlf run) (crlf rest) := .cons (.blank hc) ih
        have carriage : TriviaRun (['\r'] ++ (['\n'] ++ crlf run)) (crlf rest) :=
          .cons (.blank (by decide)) newline
        exact carriage
      · rw [List.singleton_append, crlf_cons hn]
        exact .cons (.blank (c := c) hc) ih
    | @line body _ hb hend =>
      have comment : '\n' ∉ '/' :: '/' :: body := by simpa using hb
      rw [crlf_front comment]
      cases run with
      | nil =>
        cases rest with
        | nil => exact .cons (.line hb nofun) .nil
        | cons c rest => exact absurd (congrArg some (hend c rfl)) hrest
      | cons c run =>
        obtain rfl : c = '\n' := hend c rfl
        have comment : TriviaRun (('/' :: '/' :: (body ++ ['\r'])) ++ '\n' :: crlf run)
            (crlf rest) :=
          .cons (.line (by simpa using hb) (by rintro c ⟨⟩; rfl))
            (ih.behind_blank (by decide))
        simpa using comment
    | @block body _ hb =>
      have unclosed := unclosed_crlf hb
      rw [crlf_append] at unclosed
      have comment : TriviaRun (('/' :: '*' :: (crlf body ++ ['*', '/'])) ++ crlf run)
          (crlf rest) :=
        .cons (.block unclosed) ih
      have form : crlf ('/' :: '*' :: (body ++ ['*', '/'])) = '/' :: '*' ::
          (crlf body ++ ['*', '/']) := by
        rw [crlf_cons (by decide), crlf_cons (by decide), crlf_append]
        rfl
      rwa [crlf_append, form]

/-! ## Lexemes -/

/-- No lexeme ends in a carriage return. -/
theorem IsLexeme.getLast?_ne (h : IsLexeme w kind text) : w.getLast? ≠ some '\r' := by
  have separator : '\r' ∈ '/' :: whitespace := by decide
  intro hend
  have mem := List.mem_of_getLast? hend
  cases h with
  | identifier hw => exact separator_notMem separator (.inl hw) mem
  | number hw _ => exact separator_notMem separator (.inr hw) mem
  | @string quote content bytes hq hc =>
    rw [← List.cons_append, List.getLast?_concat, Option.some_inj] at hend
    exact absurd (hend ▸ hq) (by decide)
  | @mark c _ hm =>
    have none : ∀ m ∈ marks, m.1 ≠ '\r' := by decide
    exact none _ hm (List.mem_singleton.mp mem).symm

/-- What has no newline and no carriage return at its end stands there without the carriage
returns too. -/
theorem isPrefix_of_crlf (hw : '\n' ∉ w) (hend : w.getLast? ≠ some '\r')
    (h : w <+: before ++ crlf rest) : w <+: before ++ rest := by
  induction rest generalizing before with
  | nil => exact h
  | cons c rest ih =>
    by_cases hc : c = '\n'
    · subst hc
      have front : w <+: before ++ ['\r'] := by
        rw [crlf_newline, List.append_cons] at h
        rcases List.prefix_or_prefix_of_prefix h (List.prefix_append _ _)
          with front | ⟨v, rfl⟩
        · exact front
        · rw [List.prefix_append_right_inj] at h
          cases v with
          | nil => simp
          | cons d v =>
            obtain ⟨rfl, -⟩ := List.cons_prefix_cons.mp h
            exact absurd hw (by simp)
      rcases List.prefix_concat_iff.mp front with rfl | front
      · exact absurd List.getLast?_concat hend
      · exact front.trans (List.prefix_append _ _)
    · rw [crlf_cons hc, List.append_cons] at h
      rw [List.append_cons]
      exact ih h

theorem LongestLexeme.to_crlf (h : LongestLexeme w kind text rest) :
    LongestLexeme w kind text (crlf rest) where
  isLexeme := h.isLexeme
  longest w' kind' text' hw' h' :=
    h.longest w' kind' text' (isPrefix_of_crlf h'.newline_notMem h'.getLast?_ne hw') h'

theorem Parted.to_crlf (h : Parted w rest) : Parted w (crlf rest) := fun hw =>
  forall_head?_crlf (h hw) (by decide)

/-! ## Faults -/

/-- The same fault, or an escape that the end of the line cuts off and the escape of a
carriage return. -/
def Alike (fault fault' : LexicalFault) : Prop :=
  fault' = fault ∨ fault = .unterminatedString ∧ fault' = .invalidEscape '\r'

/-- An escape with digits has no newline in it. -/
theorem newline_notMem_of_digits {c : Char} {count : ℕ} {digits : List Char}
    (hc : (c, count) ∈ ('x', 2) :: codePointEscapes)
    (hd : ∀ d ∈ digits, Numeral.isHexDigit d = true) : '\n' ∉ c :: digits := by
  have letters : ∀ e ∈ ('x', 2) :: codePointEscapes, e.1 ≠ '\n' := by decide
  rw [List.mem_cons, not_or]
  exact ⟨Ne.symm (letters _ hc), fun h => absurd (hd _ h) (by decide)⟩

/-- A faulty escape stays one. It may be reported differently, where the character behind the
backslash is named. -/
theorem EscapeFault.to_crlf (h : EscapeFault cs fault) :
    ∃ fault', EscapeFault (crlf cs) fault' ∧ Alike fault fault' := by
  cases h with
  | cut h =>
    cases cs with
    | nil => exact ⟨_, .cut h, .inl rfl⟩
    | cons c rest =>
      obtain rfl : c = '\n' := h c rfl
      have carriage : EscapeFault ('\r' :: '\n' :: crlf rest) (.invalidEscape '\r') :=
        .unknown (by decide) (by decide) (by simp [simpleEscapes])
          (by simp [codePointEscapes])
      exact ⟨_, carriage, .inr ⟨rfl, rfl⟩⟩
  | @digits c count digits rest hc hlt hd hr =>
    rw [← List.cons_append, crlf_front (newline_notMem_of_digits hc hd)]
    exact ⟨_, .digits hc hlt hd (forall_head?_crlf hr (by decide)), .inl rfl⟩
  | @codePoint c count digits rest hc hd hn =>
    rw [← List.cons_append, crlf_front (newline_notMem_of_digits (.tail _ hc) hd.2)]
    exact ⟨_, .codePoint hc hd hn, .inl rfl⟩
  | @octal digits rest hd hn =>
    have line : '\n' ∉ digits := fun h => absurd (hd.octal _ h) (by decide)
    have all := hd.all.imp_right (forall_head?_crlf · (by decide))
    rw [crlf_front line]
    exact ⟨_, .octal ⟨hd.ne_nil, hd.length_le, hd.octal, all⟩ hn, .inl rfl⟩
  | unknown hline hoctal hsimple hother =>
    rw [crlf_cons hline]
    exact ⟨_, .unknown hline hoctal hsimple hother, .inl rfl⟩

/-- A literal holds one character more. -/
theorem Content.concat {quote c : Char} {content : List Char} {bytes : List UInt8}
    (h : Content quote content bytes (c :: rest)) (hc : c ∉ [quote, '\\', '\n']) :
    ∃ bytes', Content quote (content ++ [c]) bytes' rest := by
  generalize hcs : c :: rest = cs at h
  induction h with
  | nil => exact ⟨_, .character hc .nil⟩
  | character hd _ ih =>
    obtain ⟨_, more⟩ := ih hcs
    exact ⟨_, .character hd more⟩
  | escape he _ ih =>
    obtain ⟨_, more⟩ := ih hcs
    rw [← hcs, List.append_cons] at he
    rw [List.cons_append, List.append_assoc]
    exact ⟨_, .escape he more⟩

theorem newline_notMem_of_content {quote : Char} {content : List Char} {bytes : List UInt8}
    (hq : quote ∈ quotes) (h : Content quote content bytes rest) :
    '\n' ∉ quote :: content := by
  have other : '\n' ∉ quotes := by decide
  rw [List.mem_cons, not_or]
  exact ⟨fun h => other (h ▸ hq), h.newline_notMem⟩

/-- What is at fault is so with the carriage returns too, and as far from where it starts. -/
theorem Fault.to_crlf (h : Fault cs n fault) (hcs : cs.head? ≠ some '\n') :
    ∃ fault', Fault (crlf cs) n fault' ∧ (crlf cs).take n = crlf (cs.take n) ∧
    Alike fault fault' := by
  cases h with
  | @comment rest hrest =>
    have front : crlf (['/', '*'] ++ rest) = ['/', '*'] ++ crlf rest :=
      crlf_front (by decide) rest
    exact ⟨_, front ▸ .comment (unclosed_crlf hrest), rfl, .inl rfl⟩
  | @string quote content rest bytes hq hc hr =>
    have line : '\n' ∉ quote :: content := newline_notMem_of_content hq hc
    rw [← List.cons_append, crlf_front line]
    cases rest with
    | nil => exact ⟨_, .string hq hc hr, rfl, .inl rfl⟩
    | cons c rest =>
      obtain rfl : c = '\n' := hr c rfl
      have hc : Content quote content bytes ('\r' :: '\n' :: crlf rest) :=
        hc.congr fun _ => by rintro d ⟨⟩; decide
      have text : '\r' ∉ [quote, '\\', '\n'] := by
        have other : '\r' ∉ quotes := by decide
        simp [show '\r' ≠ quote from fun h => other (h ▸ hq)]
      obtain ⟨bytes', hc⟩ := hc.concat text
      have cut :
          Fault (quote :: (content ++ ['\r'] ++ '\n' :: crlf rest)) 0 .unterminatedString :=
        .string hq hc (by rintro d ⟨⟩; rfl)
      exact ⟨_, by simpa using cut, rfl, .inl rfl⟩
  | @escape quote content rest bytes _ hq hc _ hf =>
    have line : '\n' ∉ quote :: content := newline_notMem_of_content hq hc
    obtain ⟨fault', hf', alike⟩ := hf.to_crlf
    have hc : Content quote content bytes ('\\' :: crlf rest) := hc.congr id
    rw [← List.cons_append, crlf_front line, crlf_cons (by decide)]
    refine ⟨fault', .escape hq hc ?_ hf', ?_, alike⟩
    · exact fun escape bytes rest' heq => not_isEscape_of_fault hf' heq
    have front : 1 + content.length = (quote :: content).length := Nat.add_comm _ _
    rw [front, List.take_left, List.take_left, crlf_of_notMem line]
  | @character c rest hq hnone =>
    have hc : c ≠ '\n' := by simpa using hcs
    rw [crlf_cons hc]
    refine ⟨_, .character hq ?_, rfl, .inl rfl⟩
    intro w kind text hw h
    have here : w <+: [c] ++ crlf rest := hw
    exact hnone w kind text (isPrefix_of_crlf h.newline_notMem h.getLast?_ne here) h

/-! ## Behind the longest trivia -/

/-- No blank stands there. -/
theorem LongestTrivia.head_notMem (h : LongestTrivia run rest) : ∀ c ∈ rest.head?,
    c ∉ whitespace := by
  rintro c hc blank
  obtain ⟨rest, rfl⟩ := List.head?_eq_some_iff.mp hc
  have more : TriviaRun [c] rest := .cons (.blank blank) .nil
  have := h.longest (run ++ [c]) rest (by simp) (h.isRun.append more)
  rw [List.length_append, List.length_singleton] at this
  omega

theorem Fault.stuck (h : Fault cs n fault) (hcs : ∀ c ∈ cs.head?, c ∉ whitespace) :
    Stuck cs := by
  cases h with
  | comment hrest => exact stuck_opened hrest
  | string hq _ _ => exact stuck_cons (hcs _ rfl) fun h => absurd (h ▸ hq) (by decide)
  | escape hq _ _ _ => exact stuck_cons (hcs _ rfl) fun h => absurd (h ▸ hq) (by decide)
  | @character c rest _ hnone =>
    refine stuck_cons (hcs _ rfl) ?_
    rintro rfl
    exact absurd (.mark (by decide)) (hnone ['/'] .slash _ ⟨rest, rfl⟩)

/-! ## Tilings -/

/-- Characters with the carriage returns have the tokens that they have without them, and what
is at fault is so at the same position. -/
theorem Tiling.to_crlf (h : Tiling before cs tiles failure) : ∃ tiles' failure',
    Tiling (crlf before) (crlf cs) tiles' failure' ∧
    tiles'.map Tile.token = tiles.map Tile.token ∧
      Option.Rel (fun e e' => Alike e.fault e'.fault ∧ e'.position = e.position) failure
        failure' := by
  induction h with
  | @finish before run hrun =>
    have longest : LongestTrivia (crlf run) [] :=
      longestTrivia_of_stuck (hrun.isRun.to_crlf nofun) stuck_nil
    refine ⟨_, _, .finish longest, ?_, .none⟩
    rw [← crlf_append, positionAfter_crlf]
    rfl
  | @fault before run rest n fault hrun hf =>
    have head := hrun.head_notMem
    have line : rest.head? ≠ some '\n' := fun h => absurd (by decide) (head _ h)
    obtain ⟨fault', hf', front, alike⟩ := hf.to_crlf line
    have longest : LongestTrivia (crlf run) (crlf rest) := by
      refine longestTrivia_of_stuck (hrun.isRun.to_crlf line) (hf'.stuck ?_)
      rwa [head?_crlf_of_ne line]
    rw [crlf_append]
    refine ⟨[], _, .fault longest hf', rfl, .some ⟨alike, ?_⟩⟩
    rw [front, ← crlf_append, ← crlf_append, positionAfter_crlf]
  | @token before run w rest kind text tiles failure hrun hrest hw _ ih =>
    obtain ⟨tiles', failure', htiles, tokens, rel⟩ := ih
    have lexeme := crlf_front hw.isLexeme.newline_notMem rest
    have line : (w ++ rest).head? ≠ some '\n' :=
      fun h => absurd (by decide) (hrun.head_notMem _ h)
    have isRun := hrun.isRun.to_crlf line
    rw [lexeme] at isRun
    rw [crlf_append, crlf_append, crlf_of_notMem hw.isLexeme.newline_notMem] at htiles
    rw [crlf_append, lexeme]
    refine ⟨_, _, hw.to_crlf.tile isRun (hrun.parted hrest).to_crlf htiles, ?_, rel⟩
    rw [List.map_cons, List.map_cons, tokens, ← crlf_append, positionAfter_crlf]

end Lexicon

end ProtoSchema
