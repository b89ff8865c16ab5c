import ProtoSchema.Proofs.Lexing.Literal
import ProtoSchema.Proofs.Lexing.Word

/-!
# Reading lexemes

What stands behind trivia is read as the longest lexeme there, or is at fault. The first
character tells identifiers, literals and most marks apart; only a point may be a mark or
start a number.
-/
namespace ProtoSchema.Lexicon

variable {c : Char} {w w' cs rest rest' : List Char} {kind kind' : TokenKind}
  {text text' : Text}
  {n n' : ℕ} {fault fault' : LexicalFault}

/-! ## First characters -/

theorem isQuote_iff : Lexeme.isQuote c = true ↔ c ∈ quotes := by
  simp [Lexeme.isQuote, quotes]

theorem not_mark_of_start (h : Lexeme.isIdentifierStart c = true) : (c, kind) ∉ marks := by
  have none : ∀ m ∈ marks, Lexeme.isIdentifierStart m.1 = false := by decide
  exact fun hm => absurd h (by simp [none _ hm])

theorem not_mark_of_digit (h : c.isDigit = true) : (c, kind) ∉ marks := by
  have none : ∀ m ∈ marks, m.1.isDigit = false := by decide
  exact fun hm => absurd h (by simp [none _ hm])

theorem not_start_of_digit (h : c.isDigit = true) : Lexeme.isIdentifierStart c = false := by
  rw [Bool.eq_false_iff]
  intro hs
  simp only [Lexeme.isIdentifierStart, Bool.or_eq_true, decide_eq_true_eq] at hs
  rcases hs with hs | rfl
  · rw [Numeral.isDigit_iff] at h
    have letter : 0x41 ≤ c.toNat := by
      rcases Bool.or_eq_true_iff.mp hs with upper | lower
      · exact (of_decide_eq_true upper).1
      · have : 0x61 ≤ c.toNat := of_decide_eq_true (Bool.and_eq_true_iff.mp lower).1
        omega
    omega
  · exact absurd h (by decide)

theorem quote_facts {quote : Char} (h : quote ∈ quotes) :
    Lexeme.isIdentifierStart quote = false ∧
    quote.isDigit = false ∧ quote ≠ '.' ∧ ∀ kind, (quote, kind) ∉ marks := by
  simp only [quotes, List.mem_cons, List.not_mem_nil, or_false] at h
  rcases h with rfl | rfl
  · exact ⟨by decide, by decide, by decide, by simp [marks]⟩
  · exact ⟨by decide, by decide, by decide, by simp [marks]⟩

theorem startsNumber_cons (h : c ≠ '.') : Lexeme.startsNumber (c :: cs) = c.isDigit := by
  rw [Lexeme.startsNumber.eq_2 _ _ fun _ _ hc _ => h hc]

/-- A number starts with a digit, or with a point and a digit. -/
theorem startsNumber_head (h : Lexeme.startsNumber (c :: cs) = true) :
    c.isDigit = true ∨ c = '.' := by
  by_cases hc : c = '.'
  · exact .inr hc
  · exact .inl (startsNumber_cons hc ▸ h)

theorem not_startsNumber_quote {quote : Char} (h : quote ∈ quotes) :
    Lexeme.startsNumber (quote :: cs) = false := by
  rw [startsNumber_cons (quote_facts h).2.2.1]
  exact (quote_facts h).2.1

theorem not_start_of_startsNumber (h : Lexeme.startsNumber (c :: cs) = true) :
    Lexeme.isIdentifierStart c = false := by
  rcases startsNumber_head h with hc | rfl
  · exact not_start_of_digit hc
  · decide

/-! ## Branches of the reading -/

/-- At a letter the lexer reads the longest identifier. -/
theorem read_identifier (h : Lexeme.isIdentifierStart c = true) : Lexeme.read (c :: cs) =
    .done (Lexeme.identifier (c :: cs)).length
      (.identifier, Text.ofChars (Lexeme.identifier (c :: cs))) := if_pos h

/-- At a digit, or at a point with a digit behind it, the lexer reads a number. -/
theorem read_number (h : Lexeme.startsNumber cs = true) : Lexeme.read cs =
    .done (Lexeme.number cs).length
      (.ofNumber (Lexeme.number cs), Text.ofChars (Lexeme.number cs)) := by
  cases cs with
  | nil => cases h
  | cons c cs =>
    rw [Lexeme.read]
    simp only [not_start_of_startsNumber h, h]
    rfl

/-- At a quote the lexer reads a string literal. -/
theorem read_string {quote : Char} (h : quote ∈ quotes) : Lexeme.read (quote :: cs) =
    (StringLiteral.read (quote :: cs)).map (.string, ·) := by
  rw [Lexeme.read]
  simp only [(quote_facts h).1, not_startsNumber_quote h, isQuote_iff.mpr h]
  rfl

/-- Elsewhere the lexer reads a mark of one character, or fails. -/
theorem read_mark (h₁ : Lexeme.isIdentifierStart c = false)
    (h₂ : Lexeme.startsNumber (c :: cs) = false) (h₃ : c ∉ quotes) : Lexeme.read (c :: cs) =
    match TokenKind.ofMark? c with
      | some kind => .done 1 (kind, Text.ofChars [c])
      | none => .fail 0 (.unexpectedCharacter c) := by
  rw [Lexeme.read]
  simp only [h₁, h₂, Bool.eq_false_iff.mpr (mt isQuote_iff.mp h₃)]
  rfl

/-! ## The longest lexeme -/

theorem IsLexeme.ne_nil (h : IsLexeme w kind text) : w ≠ [] := by
  cases h with
  | identifier hw =>
    obtain ⟨c, u, rfl, -⟩ := mem_identifier.mp hw
    exact List.cons_ne_nil _ _
  | number hw _ =>
    obtain ⟨d, u, -, -, rfl | rfl⟩ := mem_numericRun.mp hw
    · exact List.cons_ne_nil _ _
    · exact List.cons_ne_nil _ _
  | string _ _ => exact List.cons_ne_nil _ _
  | mark _ => exact List.cons_ne_nil _ _

/-- What a lexeme is shows at its first characters. -/
theorem IsLexeme.cases_head (h : IsLexeme w kind text) (hw : w <+: c :: cs) :
    (Lexeme.isIdentifierStart c = true ∧ w ∈ Lexicon.identifier) ∨
      (Lexeme.startsNumber (c :: cs) = true ∧ w ∈ numericRun) ∨
      (c ∈ quotes ∧ ∃ content bytes, Content c content bytes [c] ∧
        w = c :: (content ++ [c])) ∨
      ((c, kind) ∈ marks ∧ w = [c]) := by
  have head {d : Char} {u : List Char} (hd : d :: u <+: c :: cs) : d = c := by
    obtain ⟨v, hv⟩ := hd
    exact (List.cons.inj hv).1
  cases h with
  | identifier hmem =>
    obtain ⟨d, u, rfl, hd, -⟩ := mem_identifier.mp hmem
    exact .inl ⟨head hw ▸ hd, hmem⟩
  | number hmem _ => exact .inr (.inl ⟨startsNumber_of_mem hmem hw, hmem⟩)
  | string hq hc =>
    obtain rfl := head hw
    exact .inr (.inr (.inl ⟨hq, _, _, hc, rfl⟩))
  | mark hm =>
    obtain rfl := head hw
    exact .inr (.inr (.inr ⟨hm, rfl⟩))

/-- What the lexer reads as an identifier is the longest lexeme in front. -/
theorem longest_identifier (h : Lexeme.isIdentifierStart c = true)
    (hw : Lexeme.identifier (c :: cs) ++ rest = c :: cs) :
    LongestLexeme (Lexeme.identifier (c :: cs)) .identifier
      (Text.ofChars (Lexeme.identifier (c :: cs))) rest where
  isLexeme := .identifier (identifier_mem h)
  longest w' kind' text' hw' h' := by
    rw [hw] at hw'
    rcases h'.cases_head hw' with ⟨-, hmem⟩ | ⟨hn, -⟩ | ⟨hq, -⟩ | ⟨hm, -⟩
    · exact length_le_identifier hmem hw'
    · exact absurd h (by simp [not_start_of_startsNumber hn])
    · exact absurd h (by simp [(quote_facts hq).1])
    · exact absurd hm (not_mark_of_start h)

/-- What the lexer reads as a number is the longest lexeme in front. -/
theorem longest_number (h : Lexeme.startsNumber (c :: cs) = true)
    (hw : Lexeme.number (c :: cs) ++ rest = c :: cs) :
    LongestLexeme (Lexeme.number (c :: cs)) (.ofNumber (Lexeme.number (c :: cs)))
      (Text.ofChars (Lexeme.number (c :: cs))) rest where
  isLexeme := .number (number_mem h) (ofNumber_iff.mp rfl)
  longest w' kind' text' hw' h' := by
    rw [hw] at hw'
    rcases h'.cases_head hw' with ⟨hi, -⟩ | ⟨-, hmem⟩ | ⟨hq, -⟩ | ⟨-, rfl⟩
    · exact absurd hi (by simp [not_start_of_startsNumber h])
    · exact length_le_number hmem hw'
    · exact absurd h (by simp [not_startsNumber_quote hq])
    · exact List.length_pos_iff.mpr (Lexeme.number_ne_nil c cs)

/-- A closed string literal is the longest lexeme in front: no other one starts with a
quote. -/
theorem longest_string {quote : Char} {content : List Char} {bytes : List UInt8}
    (hq : quote ∈ quotes) (hc : Content quote content bytes [quote]) :
    LongestLexeme (quote :: (content ++ [quote])) .string (Utf8.decode bytes) rest where
  isLexeme := .string hq hc
  longest w' kind' text' hw' h' := by
    have read : StringLiteral.read (quote :: (content ++ quote :: rest)) = _ := hc.read hq
    rcases h'.cases_head hw'
      with ⟨hi, -⟩ | ⟨hn, -⟩ | ⟨-, content', bytes', hc', rfl⟩ | ⟨-, rfl⟩
    · exact absurd hi (by simp [(quote_facts hq).1])
    · exact absurd hn
        (by rw [List.append_eq, not_startsNumber_quote hq]; exact Bool.false_ne_true)
    · -- Both literals start there, and one reading passes as many characters as either has.
      obtain ⟨rest', hrest'⟩ := hw'
      have read' : StringLiteral.read (quote :: (content' ++ quote :: rest')) = _ :=
        hc'.read hq
      have same : quote :: (content' ++ quote :: rest') = quote ::
          (content ++ quote :: rest) := by
        simpa using hrest'
      rw [same, read] at read'
      have := congrArg Reading.length read'
      simp only [Reading.length_done] at this
      simp only [List.length_cons, List.length_append, List.length_nil]
      omega
    · simp

/-- A mark is the longest lexeme in front where neither a name, a number nor a string
starts. -/
theorem longest_mark (h₁ : Lexeme.isIdentifierStart c = false)
    (h₂ : Lexeme.startsNumber (c :: cs) = false) (h₃ : c ∉ quotes) (hm : (c, kind) ∈ marks) :
    LongestLexeme [c] kind (Text.ofChars [c]) cs where
  isLexeme := .mark hm
  longest w' kind' text' hw' h' := by
    rcases h'.cases_head hw' with ⟨hi, -⟩ | ⟨hn, -⟩ | ⟨hq, -⟩ | ⟨-, rfl⟩
    · exact absurd hi (by simp [h₁])
    · exact absurd hn (by simp [h₂])
    · exact absurd hq h₃
    · exact le_rfl

/-- The longest lexeme is what is read. -/
theorem LongestLexeme.read (h : LongestLexeme w kind text rest) :
    Lexeme.read (w ++ rest) = .done w.length (kind, text) := by
  have equal {v : List Char} {kind' : TokenKind} {text' : Text} (hv : v <+: w ++ rest)
      (hl : IsLexeme v kind' text') (hle : w.length ≤ v.length) : v = w := by
    have := h.longest _ _ _ hv hl
    exact (List.prefix_of_prefix_length_le hv (List.prefix_append w rest) this).eq_of_length
      (by omega)
  obtain ⟨c, u, hw⟩ := List.exists_cons_of_ne_nil h.isLexeme.ne_nil
  have whole : w ++ rest = c :: (u ++ rest) := by rw [hw]; rfl
  cases h.isLexeme with
  | identifier hmem =>
    obtain ⟨d, u', hd, hstart, -⟩ := mem_identifier.mp hmem
    obtain rfl : d = c := (List.cons.inj (hd.symm.trans hw)).1
    have same : Lexeme.identifier (w ++ rest) = w := by
      refine equal (List.takeWhile_prefix _) (.identifier ?_)
        (length_le_identifier hmem (List.prefix_append w rest))
      rw [whole]
      exact identifier_mem hstart
    rw [whole] at same ⊢
    rw [read_identifier hstart, same]
  | number hmem hk =>
    have start := startsNumber_of_mem hmem (List.prefix_append w rest)
    have same : Lexeme.number (w ++ rest) = w :=
      equal (isPrefix_number start) (.number (number_mem start) (ofNumber_iff.mp rfl))
        (length_le_number hmem (List.prefix_append w rest))
    rw [read_number start, same, ofNumber_iff.mpr hk]
  | @string quote content bytes hq hc =>
    rw [List.cons_append, List.append_assoc, List.singleton_append,
      read_string hq, hc.read hq]
    simp [Reading.map, Reading.done, Except.map]
  | @mark d _ hm =>
    have h₁ : Lexeme.isIdentifierStart d = false := Bool.eq_false_iff.mpr fun h =>
      not_mark_of_start h hm
    have h₃ : d ∉ quotes := fun hq => (quote_facts hq).2.2.2 kind hm
    have h₂ : Lexeme.startsNumber (d :: rest) = false := by
      rw [Bool.eq_false_iff]
      intro start
      -- Behind a point that starts a number there is a digit, so the number is longer.
      have same : Lexeme.number (d :: rest) = [d] :=
        equal (isPrefix_number start) (.number (number_mem start) (ofNumber_iff.mp rfl))
          (List.length_pos_iff.mpr (Lexeme.number_ne_nil d rest))
      obtain ⟨e, tail, he, ⟨heq, hnum⟩ | ⟨heq, hnum⟩⟩ := startsNumber_cases start
      · obtain ⟨rfl, -⟩ := List.cons.inj heq
        exact not_mark_of_digit he hm
      · rw [hnum] at same
        cases same
    rw [List.singleton_append, read_mark h₁ h₂ h₃, ofMark?_eq_some.mpr hm]
    rfl

/-- Only one lexeme is the longest. -/
theorem LongestLexeme.unique (h : LongestLexeme w kind text rest)
    (h' : LongestLexeme w' kind' text' rest') (heq : w ++ rest = w' ++ rest') :
    w = w' ∧ kind = kind' ∧ text = text' ∧ rest = rest' := by
  have read := h.read
  rw [heq, h'.read] at read
  have length : w'.length = w.length := congrArg Reading.length read
  obtain ⟨rfl, rfl⟩ := List.append_inj heq length.symm
  obtain ⟨rfl, rfl⟩ := Prod.mk.inj (Except.ok.inj (congrArg Reading.outcome read))
  exact ⟨rfl, rfl, rfl, rfl⟩

/-! ## Faults -/

/-- A fault that is no open comment's is what is read. -/
theorem Fault.read (h : Fault cs n fault) (hcs : ¬['/', '*'] <+: cs) :
    ∃ k, Lexeme.read cs = ⟨.error ⟨n, fault⟩, k⟩ := by
  cases h with
  | @comment rest _ => exact absurd ⟨rest, rfl⟩ hcs
  | string hq hc hr =>
    obtain ⟨k, hk⟩ := hc.read_cut hq hr
    rw [read_string hq, hk]
    exact ⟨k, rfl⟩
  | escape hq hc _ hf =>
    obtain ⟨k, hk⟩ := hc.read_fault hq hf
    rw [read_string hq, hk]
    exact ⟨k, rfl⟩
  | @character c rest hq hnone =>
    have h₁ : Lexeme.isIdentifierStart c = false := Bool.eq_false_iff.mpr fun h =>
      hnone _ _ _ (List.takeWhile_prefix _) (.identifier (identifier_mem h))
    have h₂ : Lexeme.startsNumber (c :: rest) = false := Bool.eq_false_iff.mpr fun h =>
      hnone _ _ _ (isPrefix_number h) (.number (number_mem h) (ofNumber_iff.mp rfl))
    have h₃ : TokenKind.ofMark? c = none := by
      rw [Option.eq_none_iff_forall_ne_some]
      exact fun kind hk => hnone [c] _ _ ⟨rest, rfl⟩ (.mark (ofMark?_eq_some.mp hk))
    rw [read_mark h₁ h₂ hq, h₃]
    exact ⟨0, rfl⟩

/-- Behind a slash and a star nothing but the comment is at fault. -/
theorem Fault.comment_cases (h : Fault ('/' :: '*' :: rest) n fault) :
    n = 0 ∧ fault = .unterminatedComment ∧ Unclosed rest := by
  have slash {c : Char} {u : List Char} (heq : '/' :: '*' :: rest = c :: u) : c = '/' ∧
      c ∉ quotes := by
    obtain rfl := (List.cons.inj heq).1
    exact ⟨rfl, by decide⟩
  generalize hcs : '/' :: '*' :: rest = cs at h
  cases h with
  | comment hrest =>
    obtain rfl := (List.cons.inj (List.cons.inj hcs).2).2
    exact ⟨rfl, rfl, hrest⟩
  | string hq _ _ => exact absurd hq (slash hcs).2
  | escape hq _ _ _ => exact absurd hq (slash hcs).2
  | @character c cs _ hnone =>
    have mark : IsLexeme ['/'] .slash (Text.ofChars ['/']) := .mark (by decide)
    exact absurd mark (hnone ['/'] _ _ ⟨cs, by rw [(slash hcs).1]; rfl⟩)

/-- What is wrong in front of the rest of a source, and where, is settled by it. -/
theorem Fault.unique (h : Fault cs n fault) (h' : Fault cs n' fault') : n = n' ∧
    fault = fault' := by
  by_cases hcs : ['/', '*'] <+: cs
  · obtain ⟨rest, rfl⟩ := hcs
    obtain ⟨rfl, rfl, -⟩ := h.comment_cases
    obtain ⟨rfl, rfl, -⟩ := h'.comment_cases
    exact ⟨rfl, rfl⟩
  · obtain ⟨k, hk⟩ := h.read hcs
    obtain ⟨k', hk'⟩ := h'.read hcs
    rw [hk] at hk'
    have := Except.error.inj (congrArg Reading.outcome hk')
    exact Misreading.mk.inj this

/-- Where characters are left, there is a longest lexeme or a fault. -/
theorem lexeme_cases (c : Char) (cs : List Char) :
    (∃ w kind text rest, w ++ rest = c :: cs ∧ LongestLexeme w kind text rest) ∨
      ∃ n fault, Fault (c :: cs) n fault := by
  by_cases h₁ : Lexeme.isIdentifierStart c = true
  · obtain ⟨rest, hrest⟩ : Lexeme.identifier (c :: cs) <+: c :: cs := List.takeWhile_prefix _
    exact .inl ⟨_, _, _, rest, hrest, longest_identifier h₁ hrest⟩
  by_cases h₂ : Lexeme.startsNumber (c :: cs) = true
  · obtain ⟨rest, hrest⟩ := isPrefix_number h₂
    exact .inl ⟨_, _, _, rest, hrest, longest_number h₂ hrest⟩
  by_cases hq : c ∈ quotes
  · obtain ⟨content, bytes, rest, rfl, hc, hend⟩ := content_cases c cs
    cases hend with
    | @closed rest =>
      have hc : Content c content bytes [c] := hc.congr id
      exact .inl ⟨c :: (content ++ [c]), _, _, rest, by simp, longest_string hq hc⟩
    | cut hr => exact .inr ⟨_, _, .string hq hc hr⟩
    | @fault rest f hf =>
      refine .inr ⟨_, _, .escape hq hc ?_ hf⟩
      exact fun escape bytes rest' heq => not_isEscape_of_fault hf heq
  rw [Bool.not_eq_true] at h₁ h₂
  cases hm : TokenKind.ofMark? c with
  | some kind =>
    exact .inl ⟨[c], kind, _, cs, rfl, longest_mark h₁ h₂ hq (ofMark?_eq_some.mp hm)⟩
  | none =>
    refine .inr ⟨_, _, .character hq ?_⟩
    intro w kind text hw h
    rcases h.cases_head hw with ⟨hi, -⟩ | ⟨hn, -⟩ | ⟨hq', -⟩ | ⟨hmark, -⟩
    · exact absurd hi (by simp [h₁])
    · exact absurd hn (by simp [h₂])
    · exact hq hq'
    · rw [ofMark?_eq_some.mpr hmark] at hm
      cases hm

end ProtoSchema.Lexicon
