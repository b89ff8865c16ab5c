import ProtoSchema.Source.Cursor

/-!
# Token streams

The tokens of a source from a cursor on. A stream yields one token at a time, moving a cursor
that other streams may share: after its end token, or after a fault, it yields nothing more.
`Cursor.drain` runs a stream to its end, and `tokenize` does so for a whole source.
-/
namespace ProtoSchema

namespace Cursor

/-- Read the next token: trivia, then a lexeme. The token stands where the lexeme starts. -/
def token (c : Cursor) : Except LexicalError Token × Cursor :=
  match c.perform Trivia.read with
  | (.error e, c) => (.error e, c)
  | (.ok (), c) =>
    match c.perform Lexeme.read with
    | (.error e, d) => (.error e, d)
    | (.ok (kind, text), d) =>
      (.ok ⟨kind, text, c.position, kind = .identifier && Token.isSoftKeyword text⟩, d)

end Cursor

namespace Lexeme

/-- The run of a number takes the first character whatever it is. -/
theorem number_ne_nil (c : Char) (cs : List Char) : number (c :: cs) ≠ [] := by
  unfold number
  split <;> simp_all

/-- A lexeme has a character unless it is the end. -/
theorem length_read_pos {c : Char} {cs : List Char} {a : TokenKind × Text}
    (h : (read (c :: cs)).outcome = .ok a) : 0 < (read (c :: cs)).length := by
  simp only [read] at h ⊢
  split
  · rename_i start
    have : isIdentifierChar c = true := by
      simp only [isIdentifierStart, isIdentifierChar, Char.isAlphanum, Bool.or_eq_true]
        at start ⊢
      rcases start with start | start
      · exact .inl (.inl start)
      · exact .inr start
    simp [identifier, this]
  · split
    · exact List.length_pos_iff.mpr (number_ne_nil c cs)
    · split
      · rw [Reading.length_map]
        exact StringLiteral.length_read_pos
      · split
        · simp
        · simp_all [Reading.fail]

end Lexeme

namespace Cursor

/-- A token that is not the end takes characters from the source. -/
theorem length_ahead_token {c d : Cursor} {t : Token} (h : c.token = (.ok t, d))
    (hk : t.kind ≠ .endOfInput) : d.ahead.length < c.ahead.length := by
  unfold token at h
  split at h
  · simp at h
  · rename_i c' hc
    have hahead : c'.ahead = c.ahead.drop (Trivia.read c.ahead).length := by
      rw [← ahead_perform, hc]
    split at h
    · simp at h
    · rename_i kind text d' hd
      obtain ⟨rfl, rfl⟩ : _ ∧ _ := by simpa using h
      have hout : (Lexeme.read c'.ahead).outcome = .ok (kind, text) := by
        have := congrArg Prod.fst hd
        simp only [perform] at this
        split at this <;> simp_all
      have hrest : d'.ahead = c'.ahead.drop (Lexeme.read c'.ahead).length := by
        rw [← ahead_perform, hd]
      rcases hc' : c'.ahead with _ | ⟨x, xs⟩
      · rw [hc'] at hout
        simp only [Lexeme.read, Reading.done, Except.ok.injEq, Prod.mk.injEq] at hout
        exact absurd hout.1.symm hk
      · have hpos : 0 < (Lexeme.read (x :: xs)).length := Lexeme.length_read_pos (hc' ▸ hout)
        have hlen := congrArg List.length hahead
        rw [hc'] at hrest hlen
        simp only [List.length_drop, List.length_cons] at hlen
        simp only [hrest, List.length_drop, List.length_cons]
        omega

/-- The tokens up to the end of the source or to a fault, what the fault was, and the cursor
after them. -/
structure Drained where
  tokens : List Token
  failure : Option LexicalError
  cursor : Cursor

/-- Read tokens to the end. -/
def drain (c : Cursor) : Drained :=
  match _h : c.token with
  | (.error e, d) => ⟨[], some e, d⟩
  | (.ok t, d) =>
    if _hk : t.kind = .endOfInput then ⟨[t], none, d⟩
    else
      let rest := drain d
      { rest with tokens := t :: rest.tokens }
termination_by c.ahead.length
decreasing_by exact length_ahead_token _h _hk

/-- Run a new stream from the cursor to its end. -/
def tokens (c : Cursor) : Drained := c.skipMark.drain

end Cursor

/-- Where a stream stands: before its first token, after one, or after its last. -/
inductive TokenStream where
  | unstarted
  | running
  | ended
  deriving DecidableEq, Repr

namespace TokenStream

/-- Why a stream yields no token. -/
inductive Stop where
  | faulty (e : LexicalError)
  | exhausted
  deriving DecidableEq, Repr

/-- The next token of a stream, and how the stream and the cursor stand after it. Only the
first step looks for a byte order mark. -/
def next (s : TokenStream) (c : Cursor) : Except Stop Token × TokenStream × Cursor :=
  match s with
  | ended => (.error .exhausted, ended, c)
  | _ =>
    match (if s = unstarted then c.skipMark else c).token with
    | (.error e, d) => (.error (.faulty e), ended, d)
    | (.ok t, d) => (.ok t, if t.kind = .endOfInput then ended else running, d)

end TokenStream

/-- All tokens of a source, the last of them its end, or the first fault. -/
def tokenize (source : List Char) : Except LexicalError (List Token) :=
  let drained := (Cursor.start source).tokens
  match drained.failure with
  | some e => .error e
  | none => .ok drained.tokens

end ProtoSchema
