import Mathlib.Data.List.TakeWhile
import ProtoSchema.Proofs.Lexing.Shape

/-!
# Reading identifiers, numbers and marks

What is read is the longest word of its language that stands at the head.
-/
namespace ProtoSchema.Lexicon

open scoped Computability

variable {w cs : List Char}

/-! ## Identifiers -/

theorem length_le_takeWhile {p : Char → Bool} (hw : w <+: cs) (h : ∀ c ∈ w, p c = true) :
    w.length ≤ (cs.takeWhile p).length := by
  obtain ⟨rest, rfl⟩ := hw
  rw [List.takeWhile_append_of_pos h, List.length_append]
  exact Nat.le_add_right _ _

theorem isIdentifierChar_of_start {c : Char} (h : Lexeme.isIdentifierStart c = true) :
    Lexeme.isIdentifierChar c = true := by
  simp only [Lexeme.isIdentifierStart, Lexeme.isIdentifierChar, Char.isAlphanum,
    Bool.or_eq_true]
    at h ⊢
  exact h.imp_left .inl

theorem mem_identifier : w ∈ identifier ↔ ∃ c u, w = c :: u ∧
    Lexeme.isIdentifierStart c = true ∧
    ∀ d ∈ u, Lexeme.isIdentifierChar d = true := by
  rw [identifier, mem_one_mul]
  constructor
  · rintro ⟨c, u, hc, hu, rfl⟩
    rw [mem_star] at hu
    exact ⟨c, u, rfl, by simpa [Lexeme.isIdentifierStart] using hc,
      fun d hd => by simpa [Lexeme.isIdentifierChar] using hu d hd⟩
  · rintro ⟨c, u, rfl, hc, hu⟩
    refine ⟨c, u, by simpa [Lexeme.isIdentifierStart] using hc, mem_star.mpr ?_, rfl⟩
    intro d hd
    simpa [Lexeme.isIdentifierChar] using hu d hd

/-- What the lexer takes at a letter is an identifier. -/
theorem identifier_mem {c : Char} (hc : Lexeme.isIdentifierStart c = true) :
    Lexeme.identifier (c :: cs) ∈ identifier := by
  rw [Lexeme.identifier, List.takeWhile_cons_of_pos (isIdentifierChar_of_start hc),
    mem_identifier]
  exact ⟨c, _, rfl, hc, fun d => List.mem_takeWhile_imp⟩

/-- No identifier in front is longer than the one that the lexer takes. -/
theorem length_le_identifier (h : w ∈ identifier) (hw : w <+: cs) :
    w.length ≤ (Lexeme.identifier cs).length := by
  obtain ⟨c, u, rfl, hc, hu⟩ := mem_identifier.mp h
  apply length_le_takeWhile hw
  intro d hd
  rcases List.mem_cons.mp hd with rfl | hd
  · exact isIdentifierChar_of_start hc
  · exact hu d hd

/-! ## Numbers -/

/-- The parts of a number's run behind its first digit. -/
def runPart : Language Char := runCharacter + exponentMark * (1 + sign)

theorem mem_runCharacter :
    w ∈ runCharacter ↔ ∃ c, Lexeme.isNumberChar c = true ∧ w = [c] := by
  have same (c : Char) : Lexeme.isNumberChar c = true ↔
      c = '.' ∨ c.isAlphanum = true ∧ c ∉ ['e', 'E'] := by
    by_cases h : c = '.'
    · subst h
      decide
    · simp [Lexeme.isNumberChar, h, and_assoc]
  simp only [same]
  rfl

theorem mem_exponentMark_mul {L : Language Char} : w ∈ exponentMark * L ↔
    ∃ c u, Lexeme.isExponentMark c = true ∧ u ∈ L ∧ w = c :: u := by
  rw [exponentMark, mem_one_mul]
  simp [Lexeme.isExponentMark]

theorem mem_sign : w ∈ sign ↔ ∃ c, Lexeme.isSign c = true ∧ w = [c] := by
  have same (c : Char) : Lexeme.isSign c = true ↔ c ∈ ['+', '-'] := by simp [Lexeme.isSign]
  simp only [same]
  rfl

theorem isNumberChar_eq_false {c : Char} (h : Lexeme.isExponentMark c = true) :
    Lexeme.isNumberChar c = false := by
  simp only [Lexeme.isExponentMark, Bool.or_eq_true, decide_eq_true_eq] at h
  rcases h with rfl | rfl
  · decide
  · decide

theorem numberRest_character {c : Char} (h : Lexeme.isNumberChar c = true) :
    Lexeme.numberRest (c :: cs) = c :: Lexeme.numberRest cs := by
  cases cs with
  | nil => simp [Lexeme.numberRest, h]
  | cons d cs => simp [Lexeme.numberRest, h]

theorem numberRest_signed {c d : Char} (hc : Lexeme.isExponentMark c = true)
    (hd : Lexeme.isSign d = true) :
    Lexeme.numberRest (c :: d :: cs) = c :: d :: Lexeme.numberRest cs := by
  simp [Lexeme.numberRest, isNumberChar_eq_false hc, hc, hd]

theorem numberRest_unsigned {c : Char} (hc : Lexeme.isExponentMark c = true)
    (hcs : ∀ d ∈ cs.head?, Lexeme.isSign d = false) :
    Lexeme.numberRest (c :: cs) = c :: Lexeme.numberRest cs := by
  cases cs with
  | nil => simp [Lexeme.numberRest, hc]
  | cons d cs => simp [Lexeme.numberRest, isNumberChar_eq_false hc, hc, hcs d rfl]

theorem isPrefix_numberRest (cs : List Char) : Lexeme.numberRest cs <+: cs := by
  fun_induction Lexeme.numberRest cs <;> simp_all

theorem cons_mem_star {L : Language Char} {u v : List Char} (hu : u ∈ L) (hv : v ∈ L∗) :
    u ++ v ∈ L∗ := by
  rw [← Language.one_add_self_mul_kstar_eq_kstar]
  exact .inr (Language.append_mem_mul hu hv)

/-- What the lexer takes behind the first digit is made of parts of a run. -/
theorem numberRest_mem (cs : List Char) : Lexeme.numberRest cs ∈ runPart∗ := by
  have mark {c : Char} (h : Lexeme.isExponentMark c = true) : [c] ∈ runPart :=
    .inr (mem_exponentMark_mul.mpr ⟨c, [], h, .inl rfl, rfl⟩)
  have character {c : Char} (h : Lexeme.isNumberChar c = true) : [c] ∈ runPart :=
    .inl (mem_runCharacter.mpr ⟨c, h, rfl⟩)
  fun_induction Lexeme.numberRest cs with
  | case1 => exact Language.nil_mem_kstar _
  | case2 c h =>
    rcases Bool.or_eq_true_iff.mp h with h | h
    · exact cons_mem_star (character h) (Language.nil_mem_kstar _)
    · exact cons_mem_star (mark h) (Language.nil_mem_kstar _)
  | case3 => exact Language.nil_mem_kstar _
  | case4 c d rest h ih => exact cons_mem_star (character h) ih
  | case5 c d rest _ h hd ih =>
    have signed : [c, d] ∈ runPart :=
      .inr (mem_exponentMark_mul.mpr ⟨c, [d], h, .inr (mem_sign.mpr ⟨d, hd, rfl⟩), rfl⟩)
    exact cons_mem_star signed ih
  | case6 c d rest _ h _ ih => exact cons_mem_star (mark h) ih
  | case7 => exact Language.nil_mem_kstar _

/-- A part of a run, by the characters that it is made of. -/
theorem mem_runPart : w ∈ runPart ↔ (∃ c, Lexeme.isNumberChar c = true ∧ w = [c]) ∨
    (∃ c, Lexeme.isExponentMark c = true ∧ w = [c]) ∨
    ∃ c d, Lexeme.isExponentMark c = true ∧ Lexeme.isSign d = true ∧ w = [c, d] := by
  rw [runPart, Language.mem_add, mem_runCharacter, mem_exponentMark_mul]
  simp only [mem_optional, mem_sign]
  apply or_congr_right
  constructor
  · rintro ⟨c, u, hc, rfl | ⟨d, hd, rfl⟩, rfl⟩
    · exact .inl ⟨c, hc, rfl⟩
    · exact .inr ⟨c, d, hc, hd, rfl⟩
  · rintro (⟨c, hc, rfl⟩ | ⟨c, d, hc, hd, rfl⟩)
    · exact ⟨c, [], hc, .inl rfl, rfl⟩
    · exact ⟨c, [d], hc, .inr ⟨d, hd, rfl⟩, rfl⟩

/-- A sign stands behind the mark of an exponent only. -/
theorem head_of_mem_runPart (h : w ∈ runPart) :
    ∃ c u, w = c :: u ∧ Lexeme.isSign c = false := by
  have other {c : Char} (hc : Lexeme.isNumberChar c = true ∨ Lexeme.isExponentMark c = true) :
      Lexeme.isSign c = false := by
    by_contra hsign
    simp only [Lexeme.isSign, Bool.or_eq_false_iff, decide_eq_false_iff_not, not_and_or,
      not_not] at hsign
    rcases hsign with rfl | rfl
    · exact absurd hc (by decide)
    · exact absurd hc (by decide)
  rcases mem_runPart.mp h with ⟨c, hc, rfl⟩ | ⟨c, hc, rfl⟩ | ⟨c, d, hc, -, rfl⟩
  · exact ⟨c, [], rfl, other (.inl hc)⟩
  · exact ⟨c, [], rfl, other (.inr hc)⟩
  · exact ⟨c, [d], rfl, other (.inr hc)⟩

theorem character_of_mem_runParts (h : w ∈ runPart∗) {c : Char} (hc : c ∈ w) :
    Lexeme.isNumberChar c = true ∨ Lexeme.isExponentMark c = true ∨
    Lexeme.isSign c = true := by
  obtain ⟨parts, rfl, hparts⟩ := Language.mem_kstar.mp h
  obtain ⟨part, hpart, hc⟩ := List.mem_flatten.mp hc
  rcases mem_runPart.mp (hparts part hpart)
    with ⟨d, hd, rfl⟩ | ⟨d, hd, rfl⟩ | ⟨d, s, hd, hs, rfl⟩
  · exact .inl (List.mem_singleton.mp hc ▸ hd)
  · exact .inr (.inl (List.mem_singleton.mp hc ▸ hd))
  · rcases List.mem_cons.mp hc with rfl | hc
    · exact .inr (.inl hd)
    · exact .inr (.inr (List.mem_singleton.mp hc ▸ hs))

/-- No parts of a run in front are longer than what the lexer takes. The induction is on the
parts; an exponent mark and its sign are one part. -/
theorem length_le_numberRest (h : w ∈ runPart∗) (hw : w <+: cs) :
    w.length ≤ (Lexeme.numberRest cs).length := by
  obtain ⟨parts, rfl, hparts⟩ := Language.mem_kstar.mp h
  clear h
  obtain ⟨rest, rfl⟩ := hw
  induction parts with
  | nil => exact Nat.zero_le _
  | cons part parts ih =>
    have ih := ih fun p hp => hparts p (.tail _ hp)
    rw [List.flatten_cons, List.append_assoc]
    rcases mem_runPart.mp (hparts part (.head _)) with
      ⟨c, hc, rfl⟩ | ⟨c, hc, rfl⟩ | ⟨c, d, hc, hd, rfl⟩
    · rw [List.singleton_append, List.singleton_append, numberRest_character hc]
      simpa using ih
    · rw [List.singleton_append, List.singleton_append]
      by_cases hsign : ∀ d ∈ (parts.flatten ++ rest).head?, Lexeme.isSign d = false
      · rw [numberRest_unsigned hc hsign]
        simpa using ih
      · -- No part begins with the sign that is taken, so no part is left.
        have last : parts = [] := by
          cases parts with
          | nil => rfl
          | cons part' parts =>
            obtain ⟨d, u, rfl, hd⟩ := head_of_mem_runPart (hparts part' (by simp))
            refine absurd (fun e he => ?_) hsign
            obtain rfl : d = e := by simpa using he
            exact hd
        rw [last]
        cases rest with
        | nil => simp [Lexeme.numberRest, hc]
        | cons d rest =>
          have hd : Lexeme.isSign d = true := by simpa [last] using hsign
          rw [List.flatten_nil, List.nil_append, numberRest_signed hc hd]
          simp
    · rw [List.cons_append, List.cons_append, List.nil_append, List.cons_append,
        List.cons_append,
        List.nil_append, numberRest_signed hc hd]
      simpa using ih

theorem mem_numericRun : w ∈ numericRun ↔ ∃ d u, Char.isDigit d = true ∧ u ∈ runPart∗ ∧
    (w = d :: u ∨ w = '.' :: d :: u) := by
  rw [numericRun, mul_assoc, mem_optional_mul, mem_singleton_mul]
  simp only [mem_one_mul]
  constructor
  · rintro (⟨d, u, hd, hu, rfl⟩ | ⟨_, ⟨d, u, hd, hu, rfl⟩, rfl⟩)
    · exact ⟨d, u, hd, hu, .inl rfl⟩
    · exact ⟨d, u, hd, hu, .inr rfl⟩
  · rintro ⟨d, u, hd, hu, rfl | rfl⟩
    · exact .inl ⟨d, u, hd, hu, rfl⟩
    · exact .inr ⟨_, ⟨d, u, hd, hu, rfl⟩, rfl⟩

theorem ne_point_of_isDigit {d : Char} (hd : d.isDigit = true) : d ≠ '.' := by
  rintro rfl
  cases hd

/-- What a number's run is made of: a digit, with a point in front or not, and the rest. -/
theorem startsNumber_cases (h : Lexeme.startsNumber cs = true) :
    ∃ d rest, Char.isDigit d = true ∧
      (cs = d :: rest ∧ Lexeme.number cs = d :: Lexeme.numberRest rest ∨
        cs = '.' :: d :: rest ∧ Lexeme.number cs = '.' :: d :: Lexeme.numberRest rest) := by
  unfold Lexeme.startsNumber at h
  split at h
  · rename_i d rest
    exact ⟨d, rest, h, .inr ⟨rfl, rfl⟩⟩
  · rename_i d rest _
    refine ⟨d, rest, h, .inl ⟨rfl, ?_⟩⟩
    rw [Lexeme.number.eq_2 _ _ fun _ _ hd _ => ne_point_of_isDigit h hd]
  · cases h

theorem isPrefix_number (h : Lexeme.startsNumber cs = true) : Lexeme.number cs <+: cs := by
  obtain ⟨d, rest, -, ⟨rfl, hn⟩ | ⟨rfl, hn⟩⟩ := startsNumber_cases h
  · rw [hn]
    exact (List.prefix_cons_inj _).mpr (isPrefix_numberRest rest)
  · rw [hn]
    exact (List.prefix_cons_inj _).mpr
      ((List.prefix_cons_inj _).mpr (isPrefix_numberRest rest))

/-- What the lexer takes as a number is a numeric run. -/
theorem number_mem (h : Lexeme.startsNumber cs = true) : Lexeme.number cs ∈ numericRun := by
  obtain ⟨d, rest, hd, ⟨rfl, hn⟩ | ⟨rfl, hn⟩⟩ := startsNumber_cases h
  · exact mem_numericRun.mpr ⟨d, _, hd, numberRest_mem rest, .inl hn⟩
  · exact mem_numericRun.mpr ⟨d, _, hd, numberRest_mem rest, .inr hn⟩

theorem startsNumber_of_mem (h : w ∈ numericRun) (hw : w <+: cs) :
    Lexeme.startsNumber cs = true := by
  obtain ⟨rest, rfl⟩ := hw
  obtain ⟨d, u, hd, -, rfl | rfl⟩ := mem_numericRun.mp h
  · rw [List.cons_append,
      Lexeme.startsNumber.eq_2 _ _ fun _ _ hpoint _ => ne_point_of_isDigit hd hpoint]
    exact hd
  · exact hd

/-- No numeric run in front is longer than the one that the lexer takes. -/
theorem length_le_number (h : w ∈ numericRun) (hw : w <+: cs) :
    w.length ≤ (Lexeme.number cs).length := by
  have start := startsNumber_of_mem h hw
  obtain ⟨tail, rfl⟩ := hw
  obtain ⟨d, u, hd, hu, hw⟩ := mem_numericRun.mp h
  obtain ⟨d', rest, hd', ⟨hcs, hn⟩ | ⟨hcs, hn⟩⟩ := startsNumber_cases start
  · rcases hw with rfl | rfl
    · obtain ⟨-, rfl⟩ := List.cons.inj hcs
      rw [hn]
      simpa using length_le_numberRest hu (List.prefix_append u tail)
    · exact absurd (List.cons.inj hcs).1.symm (ne_point_of_isDigit hd')
  · rcases hw with rfl | rfl
    · exact absurd (List.cons.inj hcs).1 (ne_point_of_isDigit hd)
    · obtain ⟨-, rfl⟩ := List.cons.inj (List.cons.inj hcs).2
      rw [hn]
      simpa using length_le_numberRest hu (List.prefix_append u tail)

/-! ## Marks -/

/-- The table of the marks has one kind for each character. -/
theorem ofMark?_eq_some {c : Char} {kind : TokenKind} :
    TokenKind.ofMark? c = some kind ↔ (c, kind) ∈ marks := by
  constructor
  · intro h
    unfold TokenKind.ofMark? at h
    split at h <;> simp_all [marks]
  · have all : ∀ m ∈ marks, TokenKind.ofMark? m.1 = some m.2 := by decide
    exact all (c, kind)

end ProtoSchema.Lexicon
