import ProtoSchema.Proofs.Numeral
import ProtoSchema.Proofs.Parsing.Step

/-!
# Braces for angle brackets

A message literal stands in braces or in angle brackets. Tokens, expectations and states are
mirrored by putting the one kind of brackets for the other, and everything else stays.
-/
namespace ProtoSchema

/-! ## Kinds and spellings -/

/-- Braces and angle brackets change places. -/
def TokenKind.mirror : TokenKind → TokenKind
  | .leftBrace => .leftAngle
  | .rightBrace => .rightAngle
  | .leftAngle => .leftBrace
  | .rightAngle => .rightBrace
  | kind => kind

/-- Exchanging the brackets twice changes nothing. -/
@[simp] theorem TokenKind.mirror_mirror (kind : TokenKind) : kind.mirror.mirror = kind := by
  cases kind <;> rfl

theorem TokenKind.mirror_injective : Function.Injective TokenKind.mirror :=
  fun a b h => by rw [← a.mirror_mirror, h, b.mirror_mirror]

/-- Is it one of the brackets that change places? -/
def TokenKind.isMirrored (kind : TokenKind) : Bool := kind.mirror ≠ kind

/-- What is put for a bracket is a bracket as well. -/
theorem TokenKind.isMirrored_mirror (kind : TokenKind) :
    kind.mirror.isMirrored = kind.isMirrored := by
  cases kind <;> rfl

/-- Braces and angle brackets take each other's places; all other glyphs stay as they are. -/
def Glyph.mirror : Glyph → Glyph
  | .char '{' => .char '<'
  | .char '}' => .char '>'
  | .char '<' => .char '{'
  | .char '>' => .char '}'
  | g => g

namespace Token

/-- The token with the other kind of brackets, in its kind and in its text. -/
def mirror (t : Token) : Token :=
  if t.kind.isMirrored then
    { t with kind := t.kind.mirror, text := t.text.map Glyph.mirror }
  else t

@[simp] theorem mirror_kind (t : Token) : t.mirror.kind = t.kind.mirror := by
  unfold mirror
  split
  · rfl
  · next h =>
    rw [TokenKind.isMirrored, decide_eq_true_eq, not_not] at h
    exact h.symm

@[simp] theorem mirror_position (t : Token) : t.mirror.position = t.position := by
  unfold mirror
  split <;> rfl

/-- A token that is no bracket to be exchanged stays the same. -/
theorem mirror_eq_self {t : Token} (h : t.kind.mirror = t.kind) : t.mirror = t := by
  rw [mirror, if_neg (by simp [TokenKind.isMirrored, h])]

/-- The kind of the mirrored token is asked for by the mirrored kind. -/
theorem mirror_kind_eq_iff {t : Token} {kind : TokenKind} :
    t.mirror.kind = kind.mirror ↔ t.kind = kind := by
  rw [mirror_kind]
  exact TokenKind.mirror_injective.eq_iff

/-- A bracket is no word, and nothing else changes its text. -/
theorem mirror_isWord (t : Token) (w : String) :
    (t.mirror.kind = .identifier && t.mirror.text = Text.ofString w) =
      (t.kind = .identifier && t.text = Text.ofString w) := by
  by_cases h : t.kind.mirror = t.kind
  · rw [mirror_eq_self h]
  · have kind : t.kind ≠ .identifier ∧ t.kind.mirror ≠ .identifier := by
      revert h
      cases t.kind <;> decide
    simp [kind.1, kind.2]

/-- Integers and reals are spelled as such. -/
structure Shaped (t : Token) : Prop where
  integer : t.kind = .integer → ∃ cs, t.text = Text.ofChars cs ∧ Numeral.isIntegerShape cs
  real : t.kind = .real → ∃ cs, t.text = Text.ofChars cs ∧ Numeral.isRealShape cs

/-- The token of a whole number can be read as one. -/
theorem Shaped.readLiteral {t : Token} (h : t.Shaped) (hk : t.kind = .integer) :
    ∃ m, Numeral.readLiteral t.text none = .ok m := by
  obtain ⟨cs, ht, shape⟩ := h.integer hk
  obtain ⟨m, hm⟩ := Numeral.readLiteral_ofChars shape
  exact ⟨m, ht ▸ hm⟩

/-- The token of a magnitude can be read as one. -/
theorem Shaped.readReal {t : Token} (h : t.Shaped) (hk : t.kind = .real) :
    ∃ x, Numeral.readReal t.text = .ok x := by
  obtain ⟨cs, ht, shape⟩ := h.real hk
  obtain ⟨x, hx⟩ := Numeral.readReal_ofChars shape
  exact ⟨x, ht ▸ hx⟩

end Token

/-! ## Complaints -/

/-- The mark with the other kind of brackets. -/
def mirrorMark : String → String
  | "\x7b" => "<"
  | "\x7d" => ">"
  | "<" => "\x7b"
  | ">" => "\x7d"
  | mark => mark

/-- The expectation with the other kind of brackets. -/
def Expectation.mirror : Expectation → Expectation
  | spelled mark => spelled (mirrorMark mark)
  | x => x

/-- Two complaints of one rule about tokens that mirror each other, with alternatives that
do. -/
structure SyntaxError.Mirrors (e e' : SyntaxError) : Prop where
  rule : e'.rule = e.rule
  actual : e'.actual = e.actual.mirror
  alternatives : ∃ xs ys, e.complaint = .expected xs ∧ e'.complaint = .expected ys ∧
    ys.Perm (xs.map Expectation.mirror)

/-! ## States -/

/-- Integers and reals are spelled as such, and the last token is an end token. -/
structure Sealed (ts : List Token) : Prop where
  last : ∃ e ∈ ts.getLast?, e.kind = .endOfInput
  shaped : ∀ t ∈ ts, t.Shaped

theorem Sealed.exists_cons {ts : List Token} (h : Sealed ts) : ∃ t rest, ts = t :: rest := by
  obtain ⟨e, he, -⟩ := h.last
  cases ts with
  | nil => cases he
  | cons t rest => exact ⟨t, rest, rfl⟩

/-- Behind a token that is not the end there are tokens, of which the last is. -/
theorem Sealed.tail {t : Token} {rest : List Token} (h : Sealed (t :: rest))
    (ht : t.kind ≠ .endOfInput) : Sealed rest := by
  obtain ⟨e, he, hk⟩ := h.last
  refine ⟨⟨e, ?_, hk⟩, fun u hu => h.shaped u (.tail _ hu)⟩
  cases rest with
  | nil =>
    obtain rfl : t = e := Option.some.inj he
    exact absurd hk ht
  | cons u rest => exact he

theorem Sealed.drop {ts : List Token} (h : Sealed ts) {k : ℕ} (hk : k < ts.length) :
    Sealed (ts.drop k) := by
  refine ⟨?_, fun t ht => h.shaped t (List.mem_of_mem_drop ht)⟩
  rw [List.getLast?_drop, if_neg (by omega)]
  exact h.last

namespace ParseState

/-- The state with the other kind of brackets in all its tokens. -/
def mirror (s : ParseState) : ParseState := { s with tokens := s.tokens.map Token.mirror }

/-- What is ahead of the mirror of a state is the mirror of what is ahead. -/
theorem ahead_mirror (s : ParseState) : s.mirror.ahead = s.ahead.map Token.mirror := by
  simp [ahead, mirror]

theorem remaining_mirror (s : ParseState) : s.mirror.remaining = s.remaining := by
  simp [remaining, mirror]

theorem ahead_mirror_cons {s : ParseState} {t : Token} {rest : List Token}
    (h : s.ahead = t :: rest) : s.mirror.ahead = t.mirror :: rest.map Token.mirror := by
  rw [ahead_mirror, h, List.map_cons]

end ParseState

end ProtoSchema
