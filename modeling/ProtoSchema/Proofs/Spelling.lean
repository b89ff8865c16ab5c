import ProtoSchema.Proofs.Lexing.Number
import ProtoSchema.Proofs.Number.Spelling
import ProtoSchema.Proofs.Parsing.Step
import ProtoSchema.Proofs.Rendering.Declaration

/-!
# Whole numbers from their spelling to their use

A text that is classified as a number is one token of that kind and is read by the places of
its digits. A number has every one of its spellings, and a minus in front of a spelling is the
negative number wherever a number may have a sign.
-/
namespace ProtoSchema

open Numeral (Fits Spells positional radix)
open Parse

/-- A token for a number, spelled in any way. -/
def Token.Spells (t : Token) (n : ℕ) : Prop :=
  t.kind = .integer ∧ ∃ cs, t.text = Text.ofChars cs ∧ Numeral.Spells n cs

theorem Token.Spells.readLiteral {t : Token} {n : ℕ} (h : t.Spells n) :
    Numeral.readLiteral t.text none = .ok n := by
  obtain ⟨-, cs, ht, hcs⟩ := h
  rw [ht, hcs.readLiteral (.unlimited cs)]

/-- Tokens that spell a number, with a minus in front or not. -/
inductive SpellsSigned : List Token → ℤ → Prop where
  | plain {t : Token} {n : ℕ} : t.Spells n → SpellsSigned [t] n
  | negative {minus t : Token} {n : ℕ} : minus.kind = .minus → t.Spells n →
    SpellsSigned [minus, t] (-n)

/-- The tokens of an enum value up to its number. -/
structure EnumNumber (name equals : Token) (ts : List Token) (z : ℤ) : Prop where
  name_kind : name.kind = .identifier
  name_soft : name.soft = false
  equals_kind : equals.kind = .equals
  number : SpellsSigned ts z

/-- The tokens of a range behind its first number, the end of the range, and what follows
it. -/
inductive SpellsEnd : List Token → Option RangeEnd → List Token → Prop where
  | single {next : Token} {rest : List Token} : ¬next.IsWord "to" →
    SpellsEnd [] none (next :: rest)
  | max {word bound : Token} {rest : List Token} : word.IsWord "to" → bound.IsWord "max" →
    SpellsEnd [word, bound] (some .max) rest
  | number {word : Token} {us rest : List Token} {y : ℤ} : word.IsWord "to" →
    SpellsSigned us y →
    SpellsEnd (word :: us) (some (.number y)) rest

theorem SpellsSigned.not_max {t : Token} {us : List Token} {z : ℤ}
    (h : SpellsSigned (t :: us) z) : ¬t.IsWord "max" := by
  intro hw
  cases h with
  | plain ht => exact absurd (ht.1.symm.trans hw.1) nofun
  | negative hm _ => exact absurd (hm.symm.trans hw.1) nofun

namespace Grammar

variable {s : ParseState} {t start : Token} {ts us rest : List Token} {n : ℕ} {z : ℤ}

/-! ## Productions for numbers -/

/-- Under a rule a step takes the tokens that it takes. -/
theorem within_past {α : Type} {p : Parse α} {rule : Rule} {a : α} {k : ℕ}
    (h : ∀ t : ParseState, t.ahead = s.ahead → p t = (.ok a, t.past k)) :
    within rule p s = (.ok a, s.past k) := within_eq (h _ rfl)

theorem within_ok {α : Type} {p : Parse α} {rule : Rule} {a : α} {s' : ParseState}
    (h : within rule p s = (.ok a, s')) :
    ∃ t u : ParseState, t.ahead = s.ahead ∧ p t = (.ok a, u) := by
  refine ⟨{ s with rules := rule :: s.rules },
    (p { s with rules := rule :: s.rules }).2, rfl, ?_⟩
  exact Prod.ext (Prod.mk.inj h).1 rfl

theorem accept_one (hs : s.ahead = t :: rest) (ht : t.kind ≠ .endOfInput) :
    accept [t.kind] s = (.ok true, s.past 1) := by
  rw [accept_eq hs (by simpa using ht.symm), if_pos (List.mem_singleton.mpr rfl)]

theorem accept_none {kind : TokenKind} (hs : s.ahead = t :: rest) (hk : kind ≠ .endOfInput)
    (ht : t.kind ≠ kind) : accept [kind] s = (.ok false, s) := by
  rw [accept_eq hs (by simpa using hk.symm), if_neg (mt List.mem_singleton.mp ht)]

theorem unsignedInteger_eq (h : t.Spells n) (hs : s.ahead = t :: rest)
    (wanted : Expectation) : unsignedInteger wanted s = (.ok n, s.past 1) := by
  rw [unsignedInteger, bind_of_ok (consume_eq hs h.1 nofun wanted), h.readLiteral]
  rfl

theorem signedInteger_eq (h : SpellsSigned ts z) (hs : s.ahead = ts ++ rest)
    (wanted : Expectation) : signedInteger wanted s = (.ok z, s.past ts.length) := by
  cases h with
  | plain ht =>
    have noSign : accept [.minus] s = (.ok false, s) := accept_none hs nofun (by simp [ht.1])
    rw [signedInteger, bind_of_ok noSign, bind_of_ok (unsignedInteger_eq ht hs wanted)]
    rfl
  | negative hm ht =>
    have sign : accept [.minus] s = (.ok true, s.past 1) := hm ▸ accept_one hs (by simp [hm])
    have next := ParseState.ahead_past_one hs
    rw [signedInteger, bind_of_ok sign, bind_of_ok (unsignedInteger_eq ht next wanted)]
    rfl

theorem scalarFrom_eq (h : SpellsSigned ts z) (hs : s.ahead = ts ++ rest)
    (hstart : start ∈ ts.head?) :
    scalarFrom start s = (.ok (.integer z), s.past ts.length) := by
  cases h with
  | plain ht =>
    obtain rfl := Option.some.inj hstart
    have taken := advance_eq hs (by simp [ht.1])
    simp only [scalarFrom, ht.1]
    rw [bind_of_ok taken, ht.readLiteral]
    rfl
  | @negative minus t n hm ht =>
    obtain rfl := Option.some.inj hstart
    have next := ParseState.ahead_past_one hs
    have number : signedNumber true (s.past 1) = (.ok (.integer (-n)), s.past 2) := by
      rw [signedNumber, bind_of_ok (peeks_current _ _ _ next)]
      simp only [id, ht.1, if_true]
      rw [bind_of_ok (advance_eq next (by simp [ht.1])), ht.readLiteral]
      rfl
    simp only [scalarFrom, hm]
    rw [bind_of_ok (advance_eq hs (by simp [hm])), number]
    rfl

theorem scalarValue_eq (h : SpellsSigned (start :: ts) z)
    (hs : s.ahead = start :: ts ++ rest) :
    scalarValue s = (.ok ⟨.integer z, start.position⟩, s.past (start :: ts).length) := by
  apply within_past
  intro t ht
  rw [← ht] at hs
  rw [bind_of_ok (peeks_current t start _ hs), id, bind_of_ok (scalarFrom_eq h hs rfl)]
  rfl

theorem optionValue_eq (h : SpellsSigned (start :: ts) z)
    (hs : s.ahead = start :: ts ++ rest) : optionValue s =
      (.ok (.scalar ⟨.integer z, start.position⟩), s.past (start :: ts).length) := by
  have kind :
      (decide (start.kind = .leftBrace) || decide (start.kind = .leftAngle)) = false := by
    cases h with
    | plain ht => simp [ht.1]
    | negative hm _ => simp [hm]
  apply within_past
  intro t ht
  rw [← ht] at hs
  rw [optionValueOf, bind_of_ok (peeks_atMessageLiteral t start _ hs)]
  simp only [kind, Bool.false_eq_true, if_false]
  rw [bind_of_ok (scalarValue_eq h hs)]
  rfl

/-! ## Enum values -/

theorem consumeName_eq (hs : s.ahead = t :: rest) (ht : t.kind = .identifier)
    (hsoft : t.soft = false) (wanted : Expectation) :
    consumeName wanted s = (.ok t.text, s.past 1) := by
  rw [consumeName, bind_of_ok (peeks_current s t rest hs)]
  simp only [id, ht, hsoft, ne_eq, not_true_eq_false, decide_false, Bool.or_self,
    Bool.false_eq_true, if_false]
  rw [bind_of_ok (advance_eq hs (by simp [ht]))]
  rfl

theorem consumeMark_eq {kind : TokenKind} (hs : s.ahead = t :: rest) (ht : t.kind = kind)
    (hk : kind ≠ .endOfInput) (mark : String) :
    consumeMark kind mark s = (.ok (), s.past 1) := by
  rw [consumeMark, bind_of_ok (consume_eq hs ht hk _)]
  rfl

variable {name equals semicolon : Token}

/-- The name of an enum value, the equals sign and the number, in front of other steps. -/
theorem enumFront_eq {α : Type} (h : EnumNumber name equals ts z)
    (hs : s.ahead = name :: equals :: (ts ++ rest)) (k : Token → Text → ℤ → Parse α) :
    (do
      let start ← current
      let x ← consumeName (.aName "enum value name")
      consumeMark .equals "="
      let number ← signedInteger (.anInteger "enum value number")
      k start x number) s = k name name.text z (s.past (2 + ts.length)) := by
  have behind := ParseState.ahead_past_one hs
  have number : ((s.past 1).past 1).ahead = ts ++ rest := ParseState.ahead_past_one behind
  rw [bind_of_ok (peeks_current s name _ hs),
    bind_of_ok (consumeName_eq hs h.name_kind h.name_soft _),
    bind_of_ok (consumeMark_eq behind h.equals_kind nofun _),
    bind_of_ok (signedInteger_eq h.number number _), ParseState.past_past,
    ParseState.past_past, ← Nat.add_assoc, id]

/-- An enum value has the number that is spelled, whatever stands behind it. -/
theorem enumValueDecl_number {d : EnumValueDecl} {s' : ParseState}
    (h : EnumNumber name equals ts z) (hs : s.ahead = name :: equals :: (ts ++ rest))
    (hok : enumValueDecl s = (.ok d, s')) :
    d.number = z := by
  obtain ⟨t, u, ht, hok⟩ := within_ok hok
  rw [enumFront_eq h (ht.trans hs)] at hok
  obtain ⟨options, _, -, hok⟩ := bind_ok hok
  obtain ⟨_, _, -, hok⟩ := bind_ok hok
  cases hok
  rfl

/-- An enum value without options is read. -/
theorem enumValueDecl_eq (h : EnumNumber name equals ts z)
    (hsemicolon : semicolon.kind = .semicolon)
    (hs : s.ahead = name :: equals :: (ts ++ semicolon :: rest)) :
    enumValueDecl s = (.ok ⟨name.text, z, [], name.position⟩, s.past (3 + ts.length)) := by
  apply within_past
  intro t ht
  rw [← ht] at hs
  have length : (name :: equals :: ts).length = 2 + ts.length := Nat.add_comm ts.length 2
  have last : (t.past (2 + ts.length)).ahead = semicolon :: rest := by
    rw [← length]
    exact ParseState.ahead_past hs
  have noOptions : optionalCompactOptions (t.past (2 + ts.length)) =
      (.ok [], t.past (2 + ts.length)) := by
    rw [optionalCompactOptions, bind_of_ok (peeks_check _ _ _ _ last)]
    simp only [hsemicolon, reduceCtorEq, decide_false, Bool.false_eq_true, if_false, pure_eq]
  rw [enumFront_eq h hs, bind_of_ok noOptions,
    bind_of_ok (consumeMark_eq last hsemicolon nofun _), pure_eq]
  have passed : 2 + ts.length + 1 = 3 + ts.length := by omega
  rw [ParseState.past_past, passed]

/-! ## Ranges -/

/-- A range in an enum has the numbers that are spelled. -/
theorem tagRange_eq {last : Option RangeEnd} (h : SpellsSigned (start :: ts) z)
    (hlast : SpellsEnd us last rest) (hs : s.ahead = start :: ts ++ (us ++ rest)) :
    tagRange true s =
      (.ok ⟨z, last, start.position⟩, s.past ((start :: ts).length + us.length)) := by
  apply within_past
  intro t ht
  rw [← ht] at hs
  have behind := ParseState.ahead_past hs
  rw [bind_of_ok (peeks_current t start _ hs), rangeNumber, if_pos rfl,
    bind_of_ok (signedInteger_eq h hs _), ← ParseState.past_past]
  generalize t.past (start :: ts).length = u at behind
  cases hlast with
  | single hnext =>
    rw [bind_of_ok (checkWord_eq behind _)]
    simp only [hnext, decide_false, Bool.false_eq_true, if_false]
    rfl
  | max hword hmax =>
    have next := ParseState.ahead_past_one behind
    rw [bind_of_ok (checkWord_eq behind _)]
    simp only [hword, decide_true, if_true]
    rw [bind_of_ok (advance_eq behind (by simp [hword.1])), bind_of_ok (checkWord_eq next _)]
    simp only [hmax, decide_true, if_true]
    rw [bind_of_ok (advance_eq next (by simp [hmax.1]))]
    rfl
  | @number word us rest y hword hy =>
    have next := ParseState.ahead_past_one behind
    obtain ⟨bound, vs, rfl⟩ : ∃ bound vs, us = bound :: vs := by
      cases hy <;> exact ⟨_, _, rfl⟩
    rw [bind_of_ok (checkWord_eq behind _)]
    simp only [hword, decide_true, if_true]
    rw [bind_of_ok (advance_eq behind (by simp [hword.1])), bind_of_ok (checkWord_eq next _)]
    simp only [hy.not_max, decide_false, Bool.false_eq_true, if_false]
    rw [rangeNumber, if_pos rfl, bind_of_ok (signedInteger_eq hy next _)]
    simp only [ParseState.past_past, List.length_cons]
    rw [Nat.add_comm 1]
    rfl

end Grammar

/-! ## Agreement -/

/-- Wherever a number may have a sign, the tokens are read as the number: as a scalar and as
the value of an option, as the number of an enum value, and as the first number of a range,
with its end. -/
structure ReadsAs (ts : List Token) (z : ℤ) : Prop where
  scalarValue (s : ParseState) (start : Token) (rest : List Token) :
    start ∈ ts.head? → s.ahead = ts ++ rest →
    Grammar.scalarValue s = (.ok ⟨.integer z, start.position⟩, s.past ts.length)
  optionValue (s : ParseState) (start : Token) (rest : List Token) :
    start ∈ ts.head? → s.ahead = ts ++ rest →
    Grammar.optionValue s = (.ok (.scalar ⟨.integer z, start.position⟩), s.past ts.length)
  enumNumber (s s' : ParseState) (name equals : Token) (rest : List Token)
    (d : EnumValueDecl) :
    EnumNumber name equals ts z → s.ahead = name :: equals :: (ts ++ rest) →
    Grammar.enumValueDecl s = (.ok d, s') → d.number = z
  enumValue (s : ParseState) (name equals semicolon : Token) (rest : List Token) :
    EnumNumber name equals ts z → semicolon.kind = .semicolon →
    s.ahead = name :: equals :: (ts ++ semicolon :: rest) →
    Grammar.enumValueDecl s = (.ok ⟨name.text, z, [], name.position⟩, s.past (3 + ts.length))
  range (s : ParseState) (start : Token) (us rest : List Token) (last : Option RangeEnd) :
    start ∈ ts.head? → SpellsEnd us last rest → s.ahead = ts ++ (us ++ rest) →
    Grammar.tagRange true s = (.ok ⟨z, last, start.position⟩, s.past (ts.length + us.length))

theorem SpellsSigned.readsAs {ts : List Token} {z : ℤ} (h : SpellsSigned ts z) :
    ReadsAs ts z := by
  obtain ⟨t, us, rfl⟩ : ∃ t us, ts = t :: us := by
    cases h <;> exact ⟨_, _, rfl⟩
  constructor
  case scalarValue =>
    rintro s start rest ⟨⟩ hs
    exact Grammar.scalarValue_eq h hs
  case optionValue =>
    rintro s start rest ⟨⟩ hs
    exact Grammar.optionValue_eq h hs
  case enumNumber => exact fun s s' name equals rest d hd hs hok =>
    Grammar.enumValueDecl_number hd hs hok
  case enumValue => exact fun s name equals semicolon rest hd hk hs =>
    Grammar.enumValueDecl_eq hd hk hs
  case range =>
    rintro s start us rest last ⟨⟩ hlast hs
    exact Grammar.tagRange_eq h hlast hs

/-- A text has the shape of an integer or of a fraction and never of both, and is classified
by its shape. One that has a shape is a token of its kind and no more where nothing else
stands. Under any limit on the digits of a numeral in base ten, an integer that is short
enough is read by the places of its digits in the base it is written in, and one that is too
long is refused for that. Every spelling of a number is an integer that is read as the number
if it is short enough. The grammar, which leaves the limit out, reads it with a minus in front
as the negative wherever a sign may stand. -/
theorem Numeral.spellings_agree (cs : List Char) (n : ℕ) (limit : Option ℕ) :
    ¬(isIntegerShape cs = true ∧ isRealShape cs = true) ∧
    (TokenKind.ofNumber cs = .integer ↔ isIntegerShape cs = true) ∧
    (TokenKind.ofNumber cs = .real ↔ isRealShape cs = true) ∧
    (TokenKind.ofNumber cs ∈ [.integer, .real] → tokenize cs =
      .ok [⟨.ofNumber cs, Text.ofChars cs, ⟨1, 1⟩, false⟩,
        ⟨.endOfInput, [], ⟨1, 1 + cs.length⟩, false⟩]) ∧
    (TokenKind.ofNumber cs = .integer → Fits limit cs →
      readLiteral (Text.ofChars cs) limit = .ok (positional (radix cs).1 (radix cs).2)) ∧
    (TokenKind.ofNumber cs = .integer → ∀ most ∈ limit, ¬Fits limit cs →
      readLiteral (Text.ofChars cs) limit = .error (.tooLong most cs.length)) ∧
    (Spells n cs → TokenKind.ofNumber cs = .integer ∧
      (Fits limit cs → readLiteral (Text.ofChars cs) limit = .ok n)) ∧
    ∀ ts z, SpellsSigned ts z → ReadsAs ts z := by
  have exclusive (h : isIntegerShape cs = true) : isRealShape cs = false :=
    Lexicon.not_isRealShape h
  have integer : TokenKind.ofNumber cs = .integer ↔ isIntegerShape cs = true := by
    unfold TokenKind.ofNumber
    split_ifs <;> simp_all
  have real : TokenKind.ofNumber cs = .real ↔ isRealShape cs = true := by
    unfold TokenKind.ofNumber
    split_ifs <;> simp_all
  refine ⟨fun h => by
    simp [exclusive h.1] at h, integer, real, fun h => ?_, fun h hfits => ?_,
    fun h most hmost hfits => ?_, fun h => ?_, fun ts z h => h.readsAs⟩
  · exact Lexicon.tokenize_number fun hm => by simp [hm] at h
  · rw [readLiteral_of_fits (integer.mp h) hfits, ofDigits_eq_positional]
  · obtain rfl := hmost
    exact readLiteral_tooLong (integer.mp h) hfits
  · exact ⟨integer.mpr h.shape.1, h.readLiteral⟩

/-- The spelling `0X01F` of thirty-one is an integer, and `-0X01F` is the value of an
option. -/
theorem Numeral.spellings_agree_hexadecimal :
    TokenKind.ofNumber "0X01F".toList = .integer ∧
    readLiteral "0X01F" = .ok 31 ∧
    tokenize "0X01F".toList =
      .ok [⟨.integer, "0X01F", ⟨1, 1⟩, false⟩, ⟨.endOfInput, [], ⟨1, 6⟩, false⟩] ∧
    (Grammar.optionValue (ParseState.start [Rendering.sampleToken .minus "-",
      Rendering.sampleToken .integer "0X01F", Rendering.endToken])).1 =
        .ok (.scalar ⟨.integer (-31), ⟨1, 1⟩⟩) := by
  have digits : ['1', 'F'].map Char.toLower = Nat.toDigits 16 31 := by decide
  have spelled : Spells 31 "0X01F".toList := .hexadecimal 1 (.tail _ (.head _)) digits
  have fits : Fits (some digitLimit) "0X01F".toList := fun base => absurd base (by decide)
  obtain ⟨-, -, -, single, -, -, decoded, signed⟩ :=
    spellings_agree "0X01F".toList 31 (some digitLimit)
  obtain ⟨kind, value⟩ := decoded spelled
  rw [kind] at single
  refine ⟨kind, value fits, single (.head _), ?_⟩
  have reads :=
    signed [Rendering.sampleToken .minus "-", Rendering.sampleToken .integer "0X01F"]
    (-31) (.negative rfl ⟨rfl, _, rfl, spelled⟩)
  rw [reads.optionValue _ _ [Rendering.endToken] rfl rfl]
  rfl

/-- Of a numeral in base ten with one digit more than are read the shape is that of an
integer. -/
theorem Numeral.spellings_agree_tooLong :
    TokenKind.ofNumber (List.replicate 4301 '1') = .integer ∧
    readLiteral (Text.ofChars (List.replicate 4301 '1')) = .error (.tooLong 4300 4301) := by
  have digits : ∀ d ∈ List.replicate 4301 '1', d.isDigit = true :=
    List.forall_mem_replicate.mpr (.inr rfl)
  have ones : List.replicate 4301 '1' = '1' :: List.replicate 4300 '1' := List.replicate_succ
  obtain ⟨shape, base⟩ := decimal_shape (by decide) (ones ▸ digits)
  rw [← ones] at shape base
  have long : ¬Fits (some digitLimit) (List.replicate 4301 '1') := fun fits => by
    have short := fits (congrArg Prod.fst base) digitLimit rfl
    rw [List.length_replicate] at short
    exact absurd short (by decide)
  refine ⟨if_pos shape, ?_⟩
  rw [readLiteral_tooLong shape long, List.length_replicate]
  rfl

end ProtoSchema
