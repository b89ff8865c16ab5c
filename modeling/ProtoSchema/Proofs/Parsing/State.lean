import Mathlib.Data.List.Basic
import ProtoSchema.Grammar.Parse

/-!
# Tokens ahead of a parsing step

A state is seen as the list of tokens that are still ahead; a step takes some of them off its
front. The token lists of interest are the ones that sources yield: well made, and ended by
their only end token.
-/
namespace ProtoSchema

/-- The characters of a text that has no stray byte spell it. -/
theorem Text.eq_ofChars {x : Text} {cs : List Char} (h : x.chars? = some cs) :
    x = ofChars cs := by
  induction x generalizing cs with
  | nil =>
    obtain rfl := Option.some.inj h
    rfl
  | cons g x ih =>
    cases g with
    | stray b => cases h
    | char c =>
      obtain ⟨ds, hd, rfl⟩ := Option.map_eq_some_iff.mp h
      rw [ih hd]
      rfl

/-- Is it a kind that rules ask for? The end and a number that is none are not. -/
def TokenKind.isAskedFor : TokenKind → Bool
  | .endOfInput => false
  | .malformedNumber => false
  | _ => true

/-- No rule of the grammar asks for the end of the input or for a malformed number. -/
theorem TokenKind.ne_of_isAskedFor {kind : TokenKind} (h : kind.isAskedFor = true) :
    kind ≠ .endOfInput ∧ kind ≠ .malformedNumber := by
  constructor
  · rintro rfl
    cases h
  · rintro rfl
    cases h

theorem TokenKind.end_notMem {kinds : List TokenKind} (h : kinds.all isAskedFor = true) :
    .endOfInput ∉ kinds := fun hk => nomatch List.all_eq_true.mp h _ hk

namespace Token

instance : Nonempty Token := ⟨⟨.endOfInput, [], ⟨1, 1⟩, false⟩⟩

/-- A token such as sources yield: a soft keyword is marked as one and nothing else is, and
numbers have the shape of their kind. -/
structure WellMade (t : Token) : Prop where
  soft_eq : t.soft = (t.kind = .identifier && isSoftKeyword t.text)
  integer : t.kind = .integer → ∃ cs, t.text = Text.ofChars cs ∧ Numeral.isIntegerShape cs
  real : t.kind = .real → ∃ cs, t.text = Text.ofChars cs ∧ Numeral.isRealShape cs

/-- What a text is spelled with is found by reading its characters. -/
theorem exists_ofChars_iff {P : List Char → Prop} (x : Text) :
    (∃ cs, x = Text.ofChars cs ∧ P cs) ↔ ∃ cs ∈ x.chars?, P cs := by
  constructor
  · rintro ⟨cs, rfl, h⟩
    exact ⟨cs, Text.chars?_ofChars cs, h⟩
  · rintro ⟨cs, hx, h⟩
    exact ⟨cs, Text.eq_ofChars hx, h⟩

/-- To be well made, said without the lexer: the mark of soft keywords is right, and numbers
have the shape of their kind. -/
theorem wellMade_iff (t : Token) : t.WellMade ↔
    t.soft = (t.kind = .identifier && isSoftKeyword t.text) ∧
      (t.kind = .integer → ∃ cs ∈ t.text.chars?, Numeral.isIntegerShape cs) ∧
      (t.kind = .real → ∃ cs ∈ t.text.chars?, Numeral.isRealShape cs) := by
  rw [← exists_ofChars_iff, ← exists_ofChars_iff]
  exact ⟨fun h => ⟨h.soft_eq, h.integer, h.real⟩, fun ⟨hs, hi, hr⟩ => ⟨hs, hi, hr⟩⟩

instance : DecidablePred WellMade := fun t => decidable_of_iff _ t.wellMade_iff.symm

/-- A well-made token that some grammar rule accepts. -/
structure Usable (t : Token) : Prop extends t.WellMade where
  ne_end : t.kind ≠ .endOfInput
  ne_malformed : t.kind ≠ .malformedNumber

/-- An identifier that is spelled so. -/
def IsWord (w : String) (t : Token) : Prop := t.kind = .identifier ∧ t.text = Text.ofString w

instance (w : String) (t : Token) : Decidable (t.IsWord w) :=
  inferInstanceAs (Decidable (t.kind = .identifier ∧ t.text = Text.ofString w))

/-- In well-made tokens, to carry the mark and the text of a soft keyword is to be that
word. -/
theorem WellMade.keyword_iff {t : Token} (h : t.WellMade) {w : String}
    (hw : w ∈ softKeywords) : (t.soft && t.text = Text.ofString w) = true ↔ t.IsWord w := by
  have soft : isSoftKeyword (Text.ofString w) = true := by
    simp only [isSoftKeyword, List.any_eq_true, decide_eq_true_eq]
    exact ⟨w, hw, rfl⟩
  rw [h.soft_eq, Bool.and_eq_true, Bool.and_eq_true, decide_eq_true_eq,
    decide_eq_true_eq, IsWord]
  constructor
  · rintro ⟨⟨hk, -⟩, ht⟩
    exact ⟨hk, ht⟩
  · rintro ⟨hk, ht⟩
    exact ⟨⟨hk, ht ▸ soft⟩, ht⟩

/-- There is a usable token of every kind that has one. -/
theorem exists_usable {kind : TokenKind} (he : kind ≠ .endOfInput)
    (hm : kind ≠ .malformedNumber) : ∃ t : Token, t.kind = kind ∧ t.Usable := by
  refine ⟨⟨kind, if kind = .real then "1." else "1", ⟨1, 1⟩, false⟩, rfl,
    ⟨?_, ?_, ?_⟩, he, hm⟩
  · cases kind <;> decide
  · rintro ⟨⟩
    exact ⟨['1'], rfl, by decide⟩
  · rintro ⟨⟩
    exact ⟨['1', '.'], rfl, by decide⟩

/-- There is a usable identifier with every text. -/
theorem exists_identifier (x : Text) : ∃ t : Token,
    (t.kind = .identifier ∧ t.text = x) ∧ t.Usable :=
  ⟨⟨.identifier, x, ⟨1, 1⟩, isSoftKeyword x⟩, ⟨rfl, rfl⟩,
    ⟨by simp, nofun, nofun⟩, nofun, nofun⟩

end Token

/-- A list of well-made tokens with one end token, which is the last. -/
inductive Ended : List Token → Prop where
  | last {t : Token} : t.WellMade → t.kind = .endOfInput → Ended [t]
  | cons {t : Token} {ts : List Token} :
    t.WellMade → t.kind ≠ .endOfInput → Ended ts → Ended (t :: ts)

namespace Ended

theorem wellMade {t : Token} {ts : List Token} (h : Ended (t :: ts)) : t.WellMade := by
  cases h <;> assumption

theorem tail {t : Token} {ts : List Token} (h : Ended (t :: ts)) (ht : t.kind ≠ .endOfInput) :
    Ended ts := by
  cases h with
  | last _ he => exact absurd he ht
  | cons _ _ h => exact h

theorem ne_nil {ts : List Token} (h : Ended ts) : ts ≠ [] := by
  cases h <;> exact List.cons_ne_nil _ _

/-- A list that ends, cut at one of its tokens: the end stands in the second part. -/
theorem append_cons {us rest : List Token} {t : Token} (h : Ended (us ++ t :: rest)) :
    Ended (t :: rest) ∧ ∀ u ∈ us, u.WellMade ∧ u.kind ≠ .endOfInput := by
  induction us with
  | nil => exact ⟨h, by simp⟩
  | cons u us ih =>
    cases hu : us ++ t :: rest with
    | nil => simp at hu
    | cons v vs =>
      rw [List.cons_append, hu] at h
      cases h with
      | cons hw he h =>
        obtain ⟨h, hus⟩ := ih (hu ▸ h)
        refine ⟨h, fun x hx => ?_⟩
        rcases List.mem_cons.mp hx with rfl | hx
        · exact ⟨hw, he⟩
        · exact hus x hx

theorem of_append {us rest : List Token} (h : Ended (us ++ rest)) (hr : rest ≠ []) :
    Ended rest := by
  obtain ⟨t, ts, rfl⟩ := List.exists_cons_of_ne_nil hr
  exact h.append_cons.1

/-- Usable tokens with an end token behind them. -/
theorem append_end {us : List Token}
    (h : ∀ t ∈ us, t.WellMade ∧ t.kind ≠ .endOfInput) {e : Token} (he : e.WellMade)
    (hk : e.kind = .endOfInput) : Ended (us ++ [e]) := by
  induction us with
  | nil => exact .last he hk
  | cons t ts ih =>
    exact .cons (h t (by simp)).1 (h t (by simp)).2 (ih fun u hu => h u (by simp [hu]))

/-- A list that ends is the tokens in front of the end, and the end. -/
theorem exists_end {ts : List Token} (h : Ended ts) :
    ∃ us e, ts = us ++ [e] ∧ e.kind = .endOfInput ∧ e.WellMade ∧
      ∀ t ∈ us, t.WellMade ∧ t.kind ≠ .endOfInput := by
  induction h with
  | last hw he => exact ⟨[], _, rfl, he, hw, by simp⟩
  | @cons t _ hw he _ ih =>
    obtain ⟨us, e, rfl, hk, hwe, hus⟩ := ih
    refine ⟨t :: us, e, rfl, hk, hwe, fun u hu => ?_⟩
    rcases List.mem_cons.mp hu with rfl | hu
    · exact ⟨hw, he⟩
    · exact hus u hu

end Ended

/-- To end, said without recursion: the last token is an end token and no other one is, and
all of them are well made. -/
theorem ended_iff {ts : List Token} : Ended ts ↔
    (∃ e ∈ ts.getLast?, e.WellMade ∧ e.kind = .endOfInput) ∧
      ∀ t ∈ ts.dropLast, t.WellMade ∧ t.kind ≠ .endOfInput := by
  constructor
  · intro h
    obtain ⟨us, e, rfl, hk, hw, hus⟩ := h.exists_end
    exact ⟨⟨e, by simp, hw, hk⟩, by simpa using hus⟩
  · rintro ⟨⟨e, he, hw, hk⟩, h⟩
    rw [← List.dropLast_append_getLast? e he]
    exact Ended.append_end h hw hk

instance : DecidablePred Ended := fun _ => decidable_of_iff _ ended_iff.symm

namespace ParseState

/-- The tokens that are still ahead. -/
def ahead (s : ParseState) : List Token := s.tokens.toList.drop s.index

/-- The state behind a number of tokens. -/
def past (s : ParseState) (n : ℕ) : ParseState := { s with index := s.index + n }

@[simp] theorem past_past (s : ParseState) (m n : ℕ) :
    (s.past m).past n = s.past (m + n) := by
  simp [past, Nat.add_assoc]

@[simp] theorem ahead_start (ts : List Token) : (start ts).ahead = ts := by
  simp [ahead, start]

/-- As many tokens are ahead as are left. -/
theorem length_ahead (s : ParseState) : s.ahead.length = s.remaining := by
  simp [ahead, remaining]

theorem remaining_pos {s : ParseState} (h : s.ahead ≠ []) : 0 < s.remaining := by
  rw [← length_ahead]
  exact List.length_pos_iff.mpr h

/-- What is ahead behind some tokens is what stands behind these. -/
theorem ahead_past {s : ParseState} {us rest : List Token} (h : s.ahead = us ++ rest) :
    (s.past us.length).ahead = rest := by
  have drop : (s.past us.length).ahead = s.ahead.drop us.length := by
    simp [ahead, past, List.drop_drop]
  rw [drop, h, List.drop_left]

/-- To pass tokens leaves fewer by their number. -/
theorem remaining_past {s : ParseState} {us rest : List Token} (h : s.ahead = us ++ rest) :
    s.remaining = us.length + (s.past us.length).remaining := by
  rw [← length_ahead, ← length_ahead, ahead_past h, h, List.length_append]

theorem ahead_past_one {s : ParseState} {t : Token} {rest : List Token}
    (h : s.ahead = t :: rest) : (s.past 1).ahead = rest :=
  ahead_past (show s.ahead = [t] ++ rest from h)

theorem remaining_past_one {s : ParseState} {t : Token} {rest : List Token}
    (h : s.ahead = t :: rest) : s.remaining = 1 + (s.past 1).remaining :=
  remaining_past (show s.ahead = [t] ++ rest from h)

/-- Tokens ahead are found at an index by their distance. -/
theorem tokenAt?_add {s : ParseState} {us rest : List Token} {t : Token}
    (h : s.ahead = us ++ t :: rest) : s.tokenAt? (s.index + us.length) = some t := by
  have get : s.tokens[s.index + us.length]? = some t := by
    have := congrArg (·[us.length]?) h
    simpa [ahead] using this
  have bound : s.index + us.length < s.tokens.size := (Array.getElem?_eq_some_iff.mp get).1
  unfold tokenAt?
  rw [if_neg (by omega), if_pos (by omega)]
  exact get

end ParseState

end ProtoSchema
