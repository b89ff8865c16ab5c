import ProtoSchema.Proofs.Lexing.Lexicon
import ProtoSchema.Proofs.Numeral

/-!
# Shapes of numbers

The tests for the shapes of numbers decide the regular languages that they are named for.
-/
namespace ProtoSchema.Lexicon

open scoped Computability

variable {p : Char → Prop} {K L : Language Char} {w : List Char}

/-! ## Languages of characters -/

theorem mem_one_mul : w ∈ one p * L ↔ ∃ c u, p c ∧ u ∈ L ∧ w = c :: u := by
  constructor
  · rintro ⟨_, ⟨c, hc, rfl⟩, u, hu, rfl⟩
    exact ⟨c, u, hc, hu, rfl⟩
  · rintro ⟨c, u, hc, hu, rfl⟩
    exact ⟨[c], ⟨c, hc, rfl⟩, u, hu, rfl⟩

theorem mem_singleton_mul {c : Char} : w ∈ ({[c]} : Language Char) * L ↔
    ∃ u ∈ L, w = c :: u := by
  constructor
  · rintro ⟨_, rfl, u, hu, rfl⟩
    exact ⟨u, hu, rfl⟩
  · rintro ⟨u, hu, rfl⟩
    exact ⟨[c], rfl, u, hu, rfl⟩

theorem mem_optional : w ∈ 1 + L ↔ w = [] ∨ w ∈ L := Iff.rfl

theorem mem_optional_mul : w ∈ (1 + K) * L ↔ w ∈ L ∨ w ∈ K * L := by
  rw [add_mul, one_mul, Language.mem_add]

theorem mem_star : w ∈ (one p)∗ ↔ ∀ c ∈ w, p c := by
  rw [Language.mem_kstar]
  constructor
  · rintro ⟨ws, rfl, hws⟩ c hc
    obtain ⟨u, hu, hcu⟩ := List.mem_flatten.mp hc
    obtain ⟨d, hd, rfl⟩ := hws u hu
    rwa [List.mem_singleton.mp hcu]
  · intro h
    refine ⟨w.map fun c => [c], by simp [← List.flatMap_def], ?_⟩
    intro u hu
    obtain ⟨c, hc, rfl⟩ := List.mem_map.mp hu
    exact ⟨c, h c hc, rfl⟩

theorem mem_plus {q : Char → Bool} :
    w ∈ one (q ·) * (one (q ·))∗ ↔ w ≠ [] ∧ w.all q = true := by
  rw [mem_one_mul]
  constructor
  · rintro ⟨c, u, hc, hu, rfl⟩
    rw [mem_star] at hu
    simpa [hc] using hu
  · rintro ⟨hne, h⟩
    obtain ⟨c, u, rfl⟩ := List.exists_cons_of_ne_nil hne
    simp only [List.all_cons, Bool.and_eq_true, List.all_eq_true] at h
    exact ⟨c, u, h.1, mem_star.mpr h.2, rfl⟩

theorem mem_digits : w ∈ digits ↔ w ≠ [] ∧ w.all Char.isDigit = true := mem_plus

/-! ## Integers -/

/-- The test for the shape of a whole number decides the language of them. -/
theorem isIntegerShape_iff : Numeral.isIntegerShape w = true ↔ w ∈ integerShape := by
  rw [integerShape, Language.mem_add, Language.mem_add, mem_one_mul, mem_singleton_mul,
    mem_singleton_mul]
  simp only [mem_star, mem_one_mul (p := (· ∈ ['x', 'X'])), mem_plus]
  unfold Numeral.isIntegerShape
  split
  · have other : Numeral.isOctalDigit 'x' = false := by decide
    simp [other]
  · have other : Numeral.isOctalDigit 'X' = false := by decide
    simp [other]
  · rename_i u hx hX
    have plain (c : Char) (v : List Char) (hc : c = 'x' ∨ c = 'X') : u ≠ c :: v := by
      rintro rfl
      rcases hc with rfl | rfl
      · exact hx v rfl
      · exact hX v rfl
    simp +contextual [plain]
  · rename_i c u _ _ h
    have first : c ≠ '0' := h
    simp [first]
  · simp

/-! ## Reals -/

theorem takeWhile_append {q : Char → Bool} {u v : List Char} (hu : u.all q = true)
    (hv : ∀ c ∈ v.head?, q c = false) : (u ++ v).takeWhile q = u ∧
    (u ++ v).dropWhile q = v := by
  rw [List.all_eq_true] at hu
  rw [List.takeWhile_append_of_pos hu, List.dropWhile_append_of_pos hu]
  cases v with
  | nil => simp
  | cons c v => simp [hv c rfl]

/-- The test for an exponent decides the language of them. -/
theorem isExponentShape_iff : Numeral.isExponentShape w = true ↔ w ∈ exponent := by
  rw [exponent, exponentMark, mem_one_mul]
  simp only [mem_optional_mul, sign, mem_one_mul (p := (· ∈ ['+', '-'])), mem_digits]
  unfold Numeral.isExponentShape
  split
  · rename_i e u
    split
    · simp
      tauto
    · simp
      tauto
    · rename_i hplus hminus
      have plus (v : List Char) : u ≠ '+' :: v := hplus v
      have minus (v : List Char) : u ≠ '-' :: v := hminus v
      simp [plus, minus]
      tauto
  · simp

theorem isFractionShape_iff : Numeral.isFractionShape w = true ↔
    w.dropWhile Char.isDigit ∈ 1 + exponent := by
  rw [mem_optional, ← isExponentShape_iff]
  simp [Numeral.isFractionShape]

/-- An exponent does not begin with a digit or with a point. -/
theorem head_of_mem_exponent (h : w ∈ 1 + exponent) :
    ∀ c ∈ w.head?, c.isDigit = false ∧ c ≠ '.' := by
  rw [mem_optional, exponent, exponentMark, mem_one_mul] at h
  rcases h with rfl | ⟨e, u, he, -, rfl⟩
  · nofun
  · intro c hc
    obtain rfl : e = c := by simpa using hc
    simp only [List.mem_cons, List.not_mem_nil, or_false] at he
    rcases he with rfl | rfl
    · decide
    · decide

/-- Digits as long as there are any, and what is behind them. -/
theorem mem_star_mul (h : w.dropWhile Char.isDigit ∈ L) :
    w ∈ (one (Char.isDigit ·))∗ * L := by
  rw [← List.takeWhile_append_dropWhile (p := Char.isDigit) (l := w)]
  exact Language.append_mem_mul (mem_star.mpr fun _ => List.mem_takeWhile_imp) h

theorem mem_digits_mul (hne : w.takeWhile Char.isDigit ≠ [])
    (h : w.dropWhile Char.isDigit ∈ L) : w ∈ digits * L := by
  have leading : (w.takeWhile Char.isDigit).all Char.isDigit = true :=
    List.all_eq_true.mpr fun _ => List.mem_takeWhile_imp
  rw [← List.takeWhile_append_dropWhile (p := Char.isDigit) (l := w)]
  exact Language.append_mem_mul (mem_digits.mpr ⟨hne, leading⟩) h

theorem mem_realShape (h : Numeral.isRealShape w = true) : w ∈ realShape := by
  rw [realShape, Language.mem_add, Language.mem_add, mem_singleton_mul]
  rcases Numeral.isRealShape_cases h with ⟨rest, hrest, hfraction, hne⟩ | ⟨hexp, hne⟩
  · have fraction : rest.dropWhile Char.isDigit ∈ 1 + exponent := by
      rwa [mem_optional, ← isExponentShape_iff]
    by_cases front : w.takeWhile Char.isDigit = []
    · have whole := List.takeWhile_append_dropWhile (p := Char.isDigit) (l := w)
      rw [front, hrest] at whole
      exact .inr ⟨rest, mem_digits_mul (hne.resolve_left (· front)) fraction, whole.symm⟩
    · refine .inl (.inl (mem_digits_mul front ?_))
      rw [hrest, mem_singleton_mul]
      exact ⟨rest, mem_star_mul fraction, rfl⟩
  · exact .inl (.inr (mem_digits_mul hne (isExponentShape_iff.mp hexp)))

theorem isRealShape_of_mem (h : w ∈ realShape) : Numeral.isRealShape w = true := by
  rw [realShape, Language.mem_add, Language.mem_add, mem_singleton_mul] at h
  have point (u : List Char) : ∀ c ∈ ('.' :: u).head?, c.isDigit = false := by
    intro c hc
    obtain rfl : '.' = c := by simpa using hc
    decide
  have fraction {d e : List Char} (hd : d.all Char.isDigit = true) (he : e ∈ 1 + exponent) :
      Numeral.isFractionShape (d ++ e) = true ∧ (d ++ e).takeWhile Char.isDigit = d := by
    have parts := takeWhile_append hd fun c hc => (head_of_mem_exponent he c hc).1
    exact ⟨isFractionShape_iff.mpr (parts.2.symm ▸ he), parts.1⟩
  rcases h with (h | h) | ⟨u, hu, rfl⟩
  · obtain ⟨d, hd, u, hu, rfl⟩ := Language.mem_mul.mp h
    obtain ⟨rest, hrest, rfl⟩ := mem_singleton_mul.mp hu
    obtain ⟨f, hf, e, he, rfl⟩ := Language.mem_mul.mp hrest
    rw [mem_digits] at hd
    have parts := takeWhile_append hd.2 (point (f ++ e))
    rw [Numeral.isRealShape, parts.1, parts.2]
    simp [(fraction (List.all_eq_true.mpr (mem_star.mp hf)) he).1, hd.1]
  · obtain ⟨d, hd, e, he, rfl⟩ := Language.mem_mul.mp h
    rw [mem_digits] at hd
    have head := head_of_mem_exponent (.inr he)
    have parts := takeWhile_append hd.2 fun c hc => (head c hc).1
    rw [Numeral.isRealShape, parts.1, parts.2]
    split
    · exact absurd rfl (head _ rfl).2
    · simp [isExponentShape_iff.mpr he, hd.1]
  · obtain ⟨d, hd, e, he, rfl⟩ := Language.mem_mul.mp hu
    rw [mem_digits] at hd
    have parts := takeWhile_append (u := []) rfl (point (d ++ e))
    rw [List.nil_append] at parts
    rw [Numeral.isRealShape, parts.1, parts.2]
    simp [(fraction hd.2 he).1, (fraction hd.2 he).2, hd.1]

/-- The test for the shape of a magnitude decides the language of them. -/
theorem isRealShape_iff : Numeral.isRealShape w = true ↔ w ∈ realShape :=
  ⟨mem_realShape, isRealShape_of_mem⟩

/-- The kind that a run is given is what it is. -/
theorem ofNumber_iff {kind : TokenKind} : TokenKind.ofNumber w = kind ↔
    NumberKind w kind := by
  have given : NumberKind w (TokenKind.ofNumber w) := by
    unfold TokenKind.ofNumber
    split_ifs with hi hr
    · exact .integer (isIntegerShape_iff.mp hi)
    · exact .real (mt isIntegerShape_iff.mpr hi) (isRealShape_iff.mp hr)
    · exact .malformed (mt isIntegerShape_iff.mpr hi) (mt isRealShape_iff.mpr hr)
  constructor
  · rintro rfl
    exact given
  · intro h
    cases h with
    | integer hi => simp [TokenKind.ofNumber, isIntegerShape_iff.mpr hi]
    | real hi hr =>
      simp [TokenKind.ofNumber, mt isIntegerShape_iff.mp hi, isRealShape_iff.mpr hr]
    | malformed hi hr =>
      simp [TokenKind.ofNumber, mt isIntegerShape_iff.mp hi, mt isRealShape_iff.mp hr]

end ProtoSchema.Lexicon
