import ProtoSchema.Proofs.Parsing.Transfer
import ProtoSchema.Tree.Declaration

/-!
# Another token in place of a rejected one

What the alternatives of a complaint describe, and two lists of tokens that are the same in
front of a place. The second list is read as the first up to that place; what it holds there
is a token of its own.
-/
namespace ProtoSchema

open Parse

/-! ## Descriptions -/

/-- The token is as the alternative says. A word or mark that is spelled out stands for what
its spelling is read as in a source. -/
def Expectation.Admits : Expectation → Token → Prop
  | spelled word, t =>
    (Lexeme.read word.toList).outcome = .ok (t.kind, t.text) ∧ t.kind ≠ .endOfInput
  | aString _, t => t.kind = .string
  | anInteger _, t => t.kind = .integer
  | anIntegerOrMax _, t => t.kind = .integer ∨ t.IsWord "max"
  | anIdentifier _, t => t.kind = .identifier
  | aName _, t => t.kind = .identifier ∧ t.soft = false
  | typeName, t => t.kind = .dot ∨ t.kind = .identifier ∧ t.soft = false
  | mapKeyType, t => t.kind = .identifier ∧ isMapKeyType t.text = true
  | number, t => t.kind = .integer ∨ t.kind = .real ∨ t.IsWord "inf"
  | scalarValue, t => t.kind ∈ [.string, .plus, .minus, .integer, .real, .identifier]
  | described _, _ => False

/-- What a spelling is read as. -/
theorem Expectation.Admits.spelling {word : String} {kind : TokenKind} {x : Text} {t : Token}
    (ht : (spelled word).Admits t) (h : (Lexeme.read word.toList).outcome = .ok (kind, x)) :
    t.kind = kind ∧ t.text = x := by
  obtain ⟨hk, hx⟩ := Prod.mk.inj (Except.ok.inj (ht.1.symm.trans h))
  exact ⟨hk, hx⟩

/-- No alternative describes the end. -/
theorem Expectation.Admits.ne_end {x : Expectation} {t : Token} (h : x.Admits t) :
    t.kind ≠ .endOfInput := by
  intro he
  cases x with
  | spelled word => exact h.2 he
  | _ => simp [Admits, Token.IsWord, he] at h

/-! ## Two lists -/

/-- Two lists of tokens with the same tokens in front of a place, where the second has one
that is not the end. -/
structure Fork where
  source : Array Token
  target : Array Token
  place : ℕ
  token : Token
  agrees : ∀ i < place, target[i]? = source[i]?
  found : target[place]? = some token
  ended : Ended target.toList
  usable : token.kind ≠ .endOfInput

namespace Fork

variable (w : Fork) {α β : Type} {s : ParseState}

theorem ended_target (h : s.index ≤ w.place) : Ended (s.on w.target).ahead := by
  have inside : w.place < w.target.size := (Array.getElem?_eq_some_iff.mp w.found).1
  have whole : Ended (w.target.toList.take s.index ++ w.target.toList.drop s.index) := by
    rw [List.take_append_drop]
    exact w.ended
  apply whole.of_append
  simp
  omega

variable {w}

/-- The next token of the second list is that of the first, or the token at the place. -/
theorem next_cases (h : s.index ≤ w.place) {t u : Token} {rest rest' : List Token}
    (ht : (s.on w.source).ahead = t :: rest) (hu : (s.on w.target).ahead = u :: rest') :
    s.index < w.place ∧ u = t ∨ s.index = w.place ∧ u = w.token := by
  have here := ParseState.getElem?_of_ahead ht
  have there := ParseState.getElem?_of_ahead hu
  rcases Nat.lt_or_eq_of_le h with lt | eq
  · rw [ParseState.on_tokens, ParseState.on_index, w.agrees _ lt] at there
    exact .inl ⟨lt, Option.some.inj (there.symm.trans here)⟩
  · rw [ParseState.on_tokens, ParseState.on_index, eq, w.found] at there
    exact .inr ⟨eq, (Option.some.inj there).symm⟩

variable (w)

/-- A number or the word `max` is expected behind a minus, where the word is no longer a
choice. -/
def Overstated (x : Expectation) : Prop :=
  (∃ purpose, x = .anIntegerOrMax purpose) ∧ w.token.IsWord "max" ∧
    ∃ i m, i + 1 = w.place ∧ w.source[i]? = some m ∧ m.kind = .minus

/-- The failure is no complaint that something is expected which the token fits, but for the
word `max` behind a minus. -/
def Unfit (e : ParseFailure) : Prop :=
  ∀ u xs, e = .unexpected u → u.complaint = .expected xs → ∀ x ∈ xs, x.Admits w.token →
    w.Overstated x

/-- What a step came to on the first list, `r`, and on the second, `r'`, where the first run
stops at the place or in front of it. -/
inductive Meets (r : Except ParseFailure α × ParseState)
    (r' : Except ParseFailure β × ParseState) : Prop
  | on {a : α} {b : β} : r.1 = .ok a → r' = (.ok b, r.2.on w.target) → Meets r r'
  | passed : w.place < r'.2.index → Meets r r'
  | unfit {e : ParseFailure} : r.1 = .error e → (r.2.index = w.place → w.Unfit e) → Meets r r'

end Fork

end ProtoSchema
