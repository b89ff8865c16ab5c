import Mathlib.Data.List.TakeWhile
import ProtoSchema.Proofs.Lexing.Lexicon

/-!
# Reading string literals

A literal is read up to its closing quote, to the end of its line, or to the first escape that
is none. Each of the rules for escapes and contents is met by one reading, so what a literal
denotes and what is wrong with it are settled by its characters.
-/
namespace ProtoSchema.Lexicon

variable {quote : Char} {cs rest rest' digits escape content : List Char} {bytes : List UInt8}
  {fault : LexicalFault} {count : ℕ}

/-! ## Digits -/

/-- As many digits as are wanted, or all that there are. -/
theorem leading_append {p : Char → Bool} (hd : ∀ c ∈ digits, p c = true)
    (hle : digits.length ≤ count)
    (hr : digits.length = count ∨ ∀ c ∈ rest.head?, ¬p c = true) :
    Escape.leading p count (digits ++ rest) = digits := by
  rw [Escape.leading, List.take_append, List.take_of_length_le hle,
    List.takeWhile_append_of_pos hd]
  suffices h : (rest.take (count - digits.length)).takeWhile p = [] by rw [h, List.append_nil]
  rcases hr with hlen | hr
  · rw [hlen, Nat.sub_self, List.take_zero, List.takeWhile_nil]
  · cases rest with
    | nil => simp
    | cons c rest =>
      cases count - digits.length with
      | zero => rfl
      | succ n => rw [List.take_succ_cons, List.takeWhile_cons_of_neg (hr c rfl)]

/-- The characters in front that satisfy a test, up to a number of them: there are so many, or
the next one fails it. -/
theorem leading_cases (p : Char → Bool) (count : ℕ) (cs : List Char) :
    ∃ rest, Escape.leading p count cs ++ rest = cs ∧
    (∀ c ∈ Escape.leading p count cs, p c = true) ∧
      (Escape.leading p count cs).length ≤ count ∧
      ((Escape.leading p count cs).length = count ∨ ∀ c ∈ rest.head?, ¬p c = true) := by
  induction count generalizing cs with
  | zero =>
    exact ⟨cs, by simp [Escape.leading], by simp [Escape.leading], by simp [Escape.leading],
      .inl (by simp [Escape.leading])⟩
  | succ count ih =>
    cases cs with
    | nil =>
      exact ⟨[], by simp [Escape.leading], by simp [Escape.leading], by simp [Escape.leading],
        .inr nofun⟩
    | cons c cs =>
      by_cases hc : p c = true
      · have first : Escape.leading p (count + 1) (c :: cs) = c ::
            Escape.leading p count cs := by
          rw [Escape.leading, List.take_succ_cons, List.takeWhile_cons_of_pos hc,
            Escape.leading]
        obtain ⟨rest, hcs, hall, hle, hr⟩ := ih cs
        refine ⟨rest, by rw [first, List.cons_append, hcs], ?_, ?_, ?_⟩
        · rw [first]
          exact List.forall_mem_cons.mpr ⟨hc, hall⟩
        · rw [first, List.length_cons]
          omega
        · rw [first, List.length_cons]
          exact hr.imp_left (congrArg (· + 1))
      · have none : Escape.leading p (count + 1) (c :: cs) = [] := by
          rw [Escape.leading, List.take_succ_cons, List.takeWhile_cons_of_neg hc]
        rw [none]
        refine ⟨c :: cs, rfl, by simp, by simp, .inr fun d hd => ?_⟩
        obtain rfl : c = d := by simpa using hd
        exact hc

theorem HexDigits.read (h : HexDigits count digits) :
    Escape.hexNumber count (digits ++ rest) = .done count (Numeral.ofDigits 16 digits) := by
  rw [Escape.hexNumber, leading_append h.2 h.1.le (.inl h.1), if_pos h.1]

/-- Where digits are missing, the reader fails behind those that are there. -/
theorem hexNumber_missing (hlt : digits.length < count)
    (hd : ∀ d ∈ digits, Numeral.isHexDigit d = true)
    (hr : ∀ d ∈ rest.head?, ¬Numeral.isHexDigit d = true) :
    Escape.hexNumber count (digits ++ rest) = .fail digits.length
      (.missingHexDigits count) := by
  rw [Escape.hexNumber, leading_append hd hlt.le (.inr hr), if_neg hlt.ne]

/-- The digits that are wanted stand at the head, or too few of them. -/
theorem hexDigits_cases (count : ℕ) (cs : List Char) : ∃ digits rest, digits ++ rest = cs ∧
    (HexDigits count digits ∨ digits.length < count ∧
      (∀ d ∈ digits, Numeral.isHexDigit d = true) ∧
        ∀ d ∈ rest.head?, ¬Numeral.isHexDigit d = true) := by
  obtain ⟨rest, hcs, hall, hle, hr⟩ := leading_cases Numeral.isHexDigit count cs
  refine ⟨_, rest, hcs, ?_⟩
  rcases hle.eq_or_lt with heq | hlt
  · exact .inl ⟨heq, hall⟩
  · exact .inr ⟨hlt, hall, hr.resolve_left hlt.ne⟩

/-! ## Escapes -/

theorem simple?_eq_some {c : Char} {b : UInt8} :
    Escape.simple? c = some b ↔ (c, b) ∈ simpleEscapes := by
  constructor
  · intro h
    unfold Escape.simple? at h
    split at h <;> simp_all [simpleEscapes]
  · have all : ∀ e ∈ simpleEscapes, Escape.simple? e.1 = some e.2 := by decide
    exact all (c, b)

theorem simple?_eq_none {c : Char} : Escape.simple? c = none ↔
    ∀ b, (c, b) ∉ simpleEscapes := by
  rw [Option.eq_none_iff_forall_ne_some]
  exact forall_congr' fun b => simple?_eq_some.not

/-- A code point is read as its bytes. -/
theorem codePoint_eq {n : ℕ} (h : IsCodePoint n) :
    Escape.codePoint n = .ok (Utf8.encodeChar (Char.ofNat n)) := by
  rw [Escape.codePoint, if_neg]
  exact fun hn => hn.elim (fun hn => absurd h.1 (Nat.not_le.mpr hn)) h.2

theorem codePoint_eq_error {n : ℕ} (h : ¬IsCodePoint n) :
    Escape.codePoint n = .error (.invalidCodePoint n) := by
  rw [Escape.codePoint, if_pos]
  rw [IsCodePoint, not_and_or, not_not, Nat.not_le] at h
  exact h

/-- The escapes of a code point start with a letter that no other escape starts with. -/
theorem afterBackslash_codePoint {c : Char} (h : (c, count) ∈ codePointEscapes) :
    Escape.afterBackslash (c :: cs) = Escape.within 1 (Escape.hexCodePoint count cs) := by
  simp only [codePointEscapes, List.mem_cons, Prod.mk.injEq, List.not_mem_nil, or_false] at h
  rcases h with ⟨rfl, rfl⟩ | ⟨rfl, rfl⟩
  · rfl
  · rfl

/-- An octal digit starts no other escape. -/
theorem afterBackslash_octal {c : Char} (h : Numeral.isOctalDigit c = true) :
    Escape.afterBackslash (c :: cs) = Escape.octalByte (c :: cs) := by
  have other {d : Char} (hd : Numeral.isOctalDigit d = false) : c ≠ d := by
    rintro rfl
    rw [h] at hd
    cases hd
  have simple : Escape.simple? c = none := by
    rw [simple?_eq_none]
    intro b hb
    have none : ∀ e ∈ simpleEscapes, Numeral.isOctalDigit e.1 = false := by decide
    exact other (none _ hb) rfl
  simp [Escape.afterBackslash, simple, h,
    other (show Numeral.isOctalDigit 'x' = false by decide),
    other (show Numeral.isOctalDigit 'u' = false by decide),
    other (show Numeral.isOctalDigit 'U' = false by decide)]

theorem OctalDigits.leading (h : OctalDigits digits rest) :
    Escape.leading Numeral.isOctalDigit 3 (digits ++ rest) = digits :=
  leading_append h.octal h.length_le h.all

/-- An octal escape takes all its digits, at most three. -/
theorem OctalDigits.read (h : OctalDigits digits rest) :
    Escape.afterBackslash (digits ++ rest) = Escape.octalByte (digits ++ rest) := by
  obtain ⟨d, ds, rfl⟩ := List.exists_cons_of_ne_nil h.ne_nil
  exact afterBackslash_octal (h.octal d (by simp))

theorem octalDigits_leading {c : Char} (h : Numeral.isOctalDigit c = true) :
    ∃ digits rest, digits ++ rest = c :: cs ∧ OctalDigits digits rest := by
  obtain ⟨rest, hcs, hall, hle, hr⟩ := leading_cases Numeral.isOctalDigit 3 (c :: cs)
  refine ⟨_, rest, hcs, ?_, hle, hall, hr⟩
  rw [Escape.leading, List.take_succ_cons, List.takeWhile_cons_of_pos h]
  exact List.cons_ne_nil _ _

/-- An escape is read as the bytes that it denotes. -/
theorem IsEscape.read (h : IsEscape escape bytes rest) :
    Escape.afterBackslash (escape ++ rest) = .done escape.length bytes := by
  cases h with
  | simple hc => simp [Escape.afterBackslash, simple?_eq_some.mpr hc]
  | @hex digits _ hd =>
    have number : Escape.hexNumber 2 (digits ++ rest) = _ := hd.read
    have : Escape.afterBackslash ('x' :: (digits ++ rest)) = Escape.within 1
        ((Escape.hexNumber 2 (digits ++ rest)).map fun n => [UInt8.ofNat n]) := rfl
    rw [List.cons_append, this, number, List.length_cons, hd.1]
    rfl
  | @codePoint c count digits _ hc hd hn =>
    have number : Escape.hexNumber count (digits ++ rest) = _ := hd.read
    rw [List.cons_append, afterBackslash_codePoint hc, Escape.hexCodePoint, number,
      List.length_cons, hd.1, Nat.add_comm]
    simp only [Reading.done, Except.bind, codePoint_eq hn]
    rfl
  | octal hd hn =>
    rw [hd.read, Escape.octalByte, hd.leading]
    exact if_neg (Nat.not_lt.mpr hn)

/-- What is wrong with an escape is found. -/
theorem EscapeFault.read (h : EscapeFault cs fault) :
    ∃ n, Escape.afterBackslash cs = .fail n fault := by
  cases h with
  | cut h =>
    cases cs with
    | nil => exact ⟨0, rfl⟩
    | cons c cs =>
      obtain rfl : c = '\n' := h c rfl
      exact ⟨0, rfl⟩
  | @digits c count digits rest hc hlt hd hr =>
    have number := hexNumber_missing hlt hd hr
    rcases List.mem_cons.mp hc with hx | hc
    · obtain ⟨rfl, rfl⟩ := Prod.mk.inj hx
      have : Escape.afterBackslash ('x' :: (digits ++ rest)) = Escape.within 1
          ((Escape.hexNumber 2 (digits ++ rest)).map fun n => [UInt8.ofNat n]) := rfl
      rw [this, number]
      exact ⟨_, rfl⟩
    · rw [afterBackslash_codePoint hc, Escape.hexCodePoint, number]
      exact ⟨_, rfl⟩
  | @codePoint c count digits rest hc hd hn =>
    have number : Escape.hexNumber count (digits ++ rest) = _ := hd.read
    rw [afterBackslash_codePoint hc, Escape.hexCodePoint, number]
    simp only [Reading.done, Except.bind, codePoint_eq_error hn]
    exact ⟨_, rfl⟩
  | @octal digits rest hd hn =>
    rw [hd.read, Escape.octalByte, hd.leading]
    exact ⟨_, if_pos hn⟩
  | @unknown c rest hline hoctal hsimple hother =>
    have other {d : Char} {n : ℕ} (hd : (d, n) ∈ ('x', 2) :: codePointEscapes) : c ≠ d := by
      rintro rfl
      exact hother n hd
    have x : c ≠ 'x' := other (n := 2) (by decide)
    have u : c ≠ 'u' := other (n := 4) (by decide)
    have U : c ≠ 'U' := other (n := 8) (by decide)
    exact ⟨0, by
      simp [Escape.afterBackslash, simple?_eq_none.mpr hsimple, hoctal, hline, x, u, U]⟩

/-- Every backslash starts an escape or is at fault. -/
theorem escape_cases (cs : List Char) :
    (∃ escape bytes rest, escape ++ rest = cs ∧ IsEscape escape bytes rest) ∨
      ∃ fault, EscapeFault cs fault := by
  cases cs with
  | nil => exact .inr ⟨_, .cut nofun⟩
  | cons c cs =>
    by_cases hcount : ∃ n, (c, n) ∈ ('x', 2) :: codePointEscapes
    · obtain ⟨count, hc⟩ := hcount
      obtain ⟨digits, rest, rfl, hd | ⟨hlt, hd, hr⟩⟩ := hexDigits_cases count cs
      · rcases List.mem_cons.mp hc with hx | hc
        · obtain ⟨rfl, rfl⟩ := Prod.mk.inj hx
          exact .inl ⟨_, _, rest, rfl, .hex hd⟩
        · by_cases hn : IsCodePoint (Numeral.ofDigits 16 digits)
          · exact .inl ⟨_, _, rest, rfl, .codePoint hc hd hn⟩
          · exact .inr ⟨_, .codePoint hc hd hn⟩
      · exact .inr ⟨_, .digits hc hlt hd hr⟩
    · by_cases hoctal : Numeral.isOctalDigit c = true
      · obtain ⟨digits, rest, hcs, hd⟩ : ∃ digits rest, digits ++ rest = c :: cs ∧ _ :=
          octalDigits_leading hoctal
        rcases Nat.lt_or_ge 0xFF (Numeral.ofDigits 8 digits) with hn | hn
        · exact .inr ⟨_, hcs ▸ EscapeFault.octal hd hn⟩
        · exact .inl ⟨_, _, rest, hcs, .octal hd hn⟩
      · by_cases hsimple : ∃ b, (c, b) ∈ simpleEscapes
        · obtain ⟨b, hb⟩ := hsimple
          exact .inl ⟨[c], [b], cs, rfl, .simple hb⟩
        · rw [not_exists] at hcount hsimple
          by_cases hline : c = '\n'
          · exact .inr ⟨_, .cut fun d hd => by rw [← hline]; simpa using hd.symm⟩
          · exact .inr ⟨_, .unknown hline hoctal hsimple hcount⟩

theorem not_isEscape_of_fault (h : EscapeFault cs fault) (hcs : escape ++ rest = cs) :
    ¬IsEscape escape bytes rest := by
  intro he
  obtain ⟨n, hn⟩ := h.read
  rw [← hcs, he.read] at hn
  cases hn

/-! ## Contents -/

/-- No octal digit stands at the head. -/
def NoOctal (cs : List Char) : Prop := ∀ c ∈ cs.head?, ¬Numeral.isOctalDigit c

/-- Of what follows an escape it only matters that no octal digit follows. -/
theorem IsEscape.congr (h : IsEscape escape bytes rest) (hr : NoOctal rest → NoOctal rest') :
    IsEscape escape bytes rest' := by
  cases h with
  | simple hc => exact .simple hc
  | hex hd => exact .hex hd
  | codePoint hc hd hn => exact .codePoint hc hd hn
  | octal hd hn => exact .octal ⟨hd.ne_nil, hd.length_le, hd.octal, hd.all.imp_right hr⟩ hn

/-- What is in a literal depends on what follows only where an octal escape is last. -/
theorem Content.congr (h : Content quote content bytes rest)
    (hr : NoOctal rest → NoOctal rest') : Content quote content bytes rest' := by
  induction h with
  | nil => exact .nil
  | character hc _ ih => exact .character hc (ih hr)
  | @escape _ content _ _ _ he _ ih =>
    refine .escape (he.congr ?_) (ih hr)
    cases content with
    | nil => exact hr
    | cons c content => exact id

/-- A reading behind characters that denote some bytes. -/
def behind (bytes : List UInt8) (n : ℕ) (r : Reading (Option (List UInt8))) :
    Reading (Option (List UInt8)) :=
  (r.map fun more => more.map (bytes ++ ·)).after n

theorem behind_nil (r : Reading (Option (List UInt8))) : behind [] 0 r = r := by
  rcases r with ⟨_ | _, _⟩ <;> simp [behind, Reading.map, Reading.after, Except.map]

theorem behind_behind (b₁ b₂ : List UInt8) (m n : ℕ) (r : Reading (Option (List UInt8))) :
    behind b₁ m (behind b₂ n r) = behind (b₁ ++ b₂) (m + n) r := by
  rcases r with ⟨_ | _, _⟩ <;>
    simp [behind, Reading.map, Reading.after, Except.map, Nat.add_assoc, Function.comp_def]

theorem backslash_ne (hq : quote ∈ quotes) : '\\' ≠ quote ∧ '\\' ≠ '\n' := by
  refine ⟨?_, by decide⟩
  rintro rfl
  exact absurd hq (by decide)

/-- Contents are passed over, and what follows them is read on its own. -/
theorem Content.body (hq : quote ∈ quotes) (h : Content quote content bytes rest) :
    StringLiteral.body quote (content ++ rest) =
      behind bytes content.length (StringLiteral.body quote rest) := by
  have slash := backslash_ne hq
  induction h with
  | nil => exact (behind_nil _).symm
  | @character c content rest bytes hc _ ih =>
    simp only [List.mem_cons, List.not_mem_nil, or_false, not_or] at hc
    rw [List.cons_append, StringLiteral.body, if_neg hc.1, if_neg hc.2.2, if_neg hc.2.1, ih]
    exact (behind_behind ..).trans (by rw [List.length_cons, Nat.add_comm 1])
  | @escape escape content rest bytes bytes' he _ ih =>
    have read : Escape.read ('\\' :: (escape ++ (content ++ rest))) =
        .done (1 + escape.length) bytes := by
      have := he.read
      simp only [Escape.read, List.drop_succ_cons, List.drop_zero, this]
      rfl
    have drop : ('\\' :: (escape ++ (content ++ rest))).drop (1 + escape.length) =
        content ++ rest := by
      rw [Nat.add_comm, List.drop_succ_cons, List.drop_left]
    rw [List.cons_append, List.append_assoc, StringLiteral.body, if_neg slash.1,
      if_neg slash.2,
      if_pos rfl]
    simp only [read, Reading.done, drop, ih]
    refine (behind_behind ..).trans ?_
    congr 1
    simp only [List.length_cons, List.length_append]
    omega

theorem body_quote : StringLiteral.body quote (quote :: rest) = .done 1 (some []) := by
  rw [StringLiteral.body, if_pos rfl]

/-- At the end of the line the literal is found not to be closed. -/
theorem body_lineEnd (hq : quote ∈ quotes) (h : AtLineEnd rest) :
    StringLiteral.body quote rest = .done 0 none := by
  have line : '\n' ≠ quote := by
    rintro rfl
    exact absurd hq (by decide)
  cases rest with
  | nil => rw [StringLiteral.body]
  | cons c rest =>
    obtain rfl : c = '\n' := h c rfl
    rw [StringLiteral.body, if_neg line, if_pos rfl]

/-- A faulty escape is reported at its backslash. -/
theorem body_fault (hq : quote ∈ quotes) (h : EscapeFault rest fault) :
    ∃ n, StringLiteral.body quote ('\\' :: rest) = ⟨.error ⟨0, fault⟩, n⟩ := by
  have slash := backslash_ne hq
  obtain ⟨n, hn⟩ := h.read
  have read : Escape.read ('\\' :: rest) = ⟨.error ⟨0, fault⟩, 1 + n⟩ := by
    simp only [Escape.read, List.drop_succ_cons, List.drop_zero, hn]
    rfl
  rw [StringLiteral.body, if_neg slash.1, if_neg slash.2, if_pos rfl]
  simp only [read]
  exact ⟨_, rfl⟩

/-- Where the contents of a literal stop. -/
inductive ContentEnd (quote : Char) : List Char → Prop where
  | closed {rest : List Char} : ContentEnd quote (quote :: rest)
  | cut {rest : List Char} : AtLineEnd rest → ContentEnd quote rest
  | fault {rest : List Char} {fault : LexicalFault} : EscapeFault rest fault →
    ContentEnd quote ('\\' :: rest)

/-- Behind a quote there are contents, as far as they go. -/
theorem content_cases (quote : Char) (cs : List Char) : ∃ content bytes rest,
    content ++ rest = cs ∧ Content quote content bytes rest ∧ ContentEnd quote rest := by
  induction hn : cs.length using Nat.strongRecOn generalizing cs with | ind n ih
  subst hn
  cases cs with
  | nil => exact ⟨[], [], [], rfl, .nil, .cut nofun⟩
  | cons c cs =>
    by_cases hquote : c = quote
    · exact ⟨[], [], c :: cs, rfl, .nil, hquote ▸ .closed⟩
    by_cases hline : c = '\n'
    · exact ⟨[], [], c :: cs, rfl, .nil, .cut fun d hd => by
        rw [← hline]; simpa using hd.symm⟩
    by_cases hslash : c = '\\'
    · subst hslash
      rcases escape_cases cs with ⟨escape, bytes, rest, rfl, he⟩ | ⟨fault, hf⟩
      · have shorter : rest.length < ('\\' :: (escape ++ rest)).length := by
          simp only [List.length_cons, List.length_append]
          omega
        obtain ⟨content, bytes', rest', rfl, hc, hend⟩ := ih _ shorter rest rfl
        exact ⟨'\\' :: (escape ++ content), bytes ++ bytes', rest', by
          simp, .escape he hc, hend⟩
      · exact ⟨[], [], '\\' :: cs, rfl, .nil, .fault hf⟩
    · obtain ⟨content, bytes, rest, rfl, hc, hend⟩ := ih _ (by simp) cs rfl
      exact ⟨c :: content, _, rest, rfl,
        .character (by simp [hquote, hline, hslash]) hc, hend⟩

/-! ## Literals -/

/-- A closed literal is read as the text that its bytes stand for. -/
theorem Content.read (hq : quote ∈ quotes) (h : Content quote content bytes [quote]) :
    StringLiteral.read (quote :: (content ++ quote :: rest)) =
      .done (content.length + 2) (Utf8.decode bytes) := by
  have h : Content quote content bytes (quote :: rest) := h.congr id
  simp only [StringLiteral.read, h.body hq, body_quote]
  simp [behind, Reading.map, Reading.after, Reading.done, Except.map]
  omega

/-- A literal that its line does not hold is at fault as a whole. -/
theorem Content.read_cut (hq : quote ∈ quotes) (h : Content quote content bytes rest)
    (hr : AtLineEnd rest) : ∃ n, StringLiteral.read (quote :: (content ++ rest)) =
      .fail n .unterminatedString := by
  simp only [StringLiteral.read, h.body hq, body_lineEnd hq hr]
  exact ⟨_, rfl⟩

/-- A literal with a wrong escape is at fault at that escape. -/
theorem Content.read_fault (hq : quote ∈ quotes)
    (h : Content quote content bytes ('\\' :: rest)) (hr : EscapeFault rest fault) :
    ∃ n, StringLiteral.read (quote :: (content ++ '\\' :: rest)) =
      ⟨.error ⟨1 + content.length, fault⟩, n⟩ := by
  obtain ⟨n, hn⟩ := body_fault hq hr
  simp only [StringLiteral.read, h.body hq, hn]
  exact ⟨_, rfl⟩

end ProtoSchema.Lexicon
