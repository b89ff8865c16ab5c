import ProtoSchema.Proofs.Mirroring.Step

/-!
# Option values on mirrored tokens

The productions for option values read the same from the mirrored tokens. A message literal
remembers the bracket that closes it; on the mirrored tokens that is the other one. Where a
message is read within a message, fewer tokens are left.
-/
namespace ProtoSchema.Grammar

open Parse

variable {n : ℕ} {pre : Token → Prop}

/-! ## Names and strings -/

theorem mirrors_identifier : Mirrors pre n 1 id identifier identifier :=
  (mirrors_consume_same rfl rfl rfl).yield fun _ => rfl

theorem mirrors_qualifiedIdentifier :
    Mirrors pre n 1 id qualifiedIdentifier qualifiedIdentifier := by
  have parts : Mirrors pre n 1 (List.map id) (separatedBy .dot identifier)
      (separatedBy .dot identifier) :=
    .separatedBy rfl mirrors_identifier
      (mirrors_identifier.mono (fun _ => id) le_rfl (Nat.zero_le 1))
  exact parts.yield fun xs => by rw [List.map_id]; rfl

/-- Adjacent string literals, where the complaint names no bracket. -/
theorem mirrors_stringLiteral {wanted : Expectation} (hw : wanted.mirror = wanted) :
    Mirrors pre n 1 id (stringLiteral wanted) (stringLiteral wanted) := by
  have first : Mirrors pre n 1 id (consume .string wanted) (consume .string wanted) :=
    mirrors_consume_same rfl rfl hw
  have more : Mirrors (fun _ => True) (n - 1) 0 (List.map id)
      (whileMore (check .string) advance)
      (whileMore (check .string) advance) := by
    refine .whileMore (f := id) (peeks_check _) (peeks_check _) (fun t => ?_) ?_
    · rw [decide_eq_decide]
      exact (Token.mirror_kind_eq_iff : _ ↔ t.kind = .string)
    refine mirrors_advance_some fun t ht => ?_
    have hk : t.kind = .string := of_decide_eq_true ht
    exact ⟨by simp [hk], (Token.mirror_eq_self (t := t) (by rw [hk]; rfl)).symm⟩
  exact first.bind fun t => more.yield fun ts => by rw [List.map_id]; rfl

/-! ## Scalars -/

/-- A token is taken that is read as a number. -/
theorem mirrors_numeral {α β : Type} {r : Except NumeralError α}
    (h : ∃ a, r = .ok a) (g : α → β) :
    Mirrors pre n 0 id (do let _ ← advance; let a ← ofNumeral r; return g a)
      (do let _ ← advance; let a ← ofNumeral r; return g a) :=
  mirrors_advance.bind fun _ => (mirrors_ofNumeral h).yield fun _ => rfl

/-- A bracket that is mirrored is no number and no word, and its mirror is none either. -/
theorem bracket_kinds {t : Token} (h : t.kind.isMirrored = true) (kind : TokenKind)
    (hk : kind.isMirrored = false) : t.kind ≠ kind ∧ t.mirror.kind ≠ kind := by
  rw [Token.mirror_kind]
  revert h hk
  cases t.kind <;> cases kind <;> decide

theorem mirrors_signedNumber (negative : Bool) :
    Mirrors pre n 0 id (signedNumber negative) (signedNumber negative) := by
  refine .current_cases (fun t shaped => ?_) fun t bracket => ?_
  · by_cases hi : t.kind = .integer
    · simp only [if_pos hi]
      exact mirrors_numeral (shaped.readLiteral hi) _
    simp only [if_neg hi]
    refine .peek (peeks_checkWord _) (peeks_checkWord _)
      (fun u => u.mirror_isWord _) fun b => ?_
    by_cases hr : t.kind = .real
    · simp only [hr, decide_true, Bool.true_or, if_true]
      exact mirrors_numeral (shaped.readReal hr) _
    simp only [hr, decide_false, Bool.false_or]
    cases b with
    | false => exact mirrors_expect (List.Perm.refl _)
    | true =>
      by_cases hw : t.text = Text.ofString "inf"
      · exact mirrors_numeral ⟨.infinite false, by rw [hw]; decide⟩ _
      · refine .of_not fun u ⟨hu, inf⟩ => hw ?_
        subst hu
        exact of_decide_eq_true (Bool.and_eq_true_iff.mp inf).2
  · obtain ⟨hi, hi'⟩ := bracket_kinds bracket .integer rfl
    obtain ⟨hr, hr'⟩ := bracket_kinds bracket .real rfl
    obtain ⟨hw, -⟩ := bracket_kinds bracket .identifier rfl
    simp only [if_neg hi, if_neg hi']
    refine .peek (peeks_checkWord _) (peeks_checkWord _)
      (fun u => u.mirror_isWord _) fun b => ?_
    cases b with
    | false =>
      simp only [hr, hr', decide_false, Bool.false_or]
      exact mirrors_expect (List.Perm.refl _)
    | true =>
      refine .of_not fun u ⟨hu, inf⟩ => hw ?_
      subst hu
      exact of_decide_eq_true (Bool.and_eq_true_iff.mp inf).1

/-- No bracket starts a scalar. -/
theorem scalarFrom_bracket {t : Token} (h : t.kind.isMirrored = true) :
    scalarFrom t = expect [.scalarValue] := by
  unfold scalarFrom
  revert h
  cases t.kind <;> first | exact fun _ => rfl | exact nofun

/-- A scalar, whose first token was seen before and can be read. -/
theorem mirrors_scalarFrom {t : Token} (h : t.Shaped) :
    Mirrors pre n 0 id (scalarFrom t) (scalarFrom t) := by
  unfold scalarFrom
  split
  · exact (mirrors_stringLiteral rfl).forget.yield fun _ => rfl
  · exact mirrors_advance.bind fun _ => mirrors_signedNumber false
  · exact mirrors_advance.bind fun _ => mirrors_signedNumber true
  · next hk => exact mirrors_numeral (h.readLiteral hk) _
  · next hk => exact mirrors_numeral (h.readReal hk) _
  · exact mirrors_advance.yield fun _ => rfl
  · exact mirrors_expect (List.Perm.refl _)

/-- A scalar. A bracket in its place is rejected on both sides. -/
theorem mirrors_scalarValue : Mirrors pre n 0 id scalarValue scalarValue := by
  refine .within (.current_cases (fun t shaped => ?_) fun t bracket => ?_)
  · exact (mirrors_scalarFrom shaped).yield fun _ => rfl
  · have bracket' : t.mirror.kind.isMirrored = true := by
      rw [Token.mirror_kind, TokenKind.isMirrored_mirror, bracket]
    have rejected : Mirrors (· = t) n 0 id (scalarFrom t) (scalarFrom t.mirror) := by
      rw [scalarFrom_bracket bracket, scalarFrom_bracket bracket']
      exact mirrors_expect (List.Perm.refl _)
    rw [Token.mirror_position]
    exact rejected.yield fun _ => rfl

/-! ## Parts of messages -/

/-- Elements in square brackets, which are not exchanged. -/
theorem mirrors_bracketed {α : Type} {p q : Parse α}
    (h : Mirrors (fun _ => True) n 0 id p q) :
    Mirrors pre (n + 1) 1 id (bracketed p) (bracketed q) := by
  have opened : Mirrors pre (n + 1) 1 id (consume .leftBracket (.spelled "["))
      (consume .leftBracket (.spelled "[")) := mirrors_consume_same rfl rfl rfl
  refine opened.bind fun t => ?_
  have close (as : List α) : Mirrors (fun _ => True) n 0 id
      (do
        if ← check .rightBracket then
          let _ ← advance
          return (as, t.position)
        else expect [.spelled ",", .spelled "]"])
      (do
        if ← check .rightBracket then
          let _ ← advance
          return (as, t.position)
        else expect [.spelled ",", .spelled "]"]) :=
    .check (mirrors_advance.yield fun _ => rfl) (mirrors_expect (List.Perm.refl _))
  refine .check ?_ ?_
  · exact (close []).mono (fun _ _ => trivial) le_rfl le_rfl
  · have elements : Mirrors (fun t => True ∧ t.kind ≠ .rightBracket) n 0 (List.map id)
        (separatedBy .comma p) (separatedBy .comma q) :=
      .separatedBy rfl (h.mono (fun _ _ => trivial) le_rfl le_rfl)
        (h.mono (fun _ => id) (Nat.sub_le n 1) le_rfl)
    exact elements.bind fun as => by rw [List.map_id]; exact close as

section Parts

variable {message message' : Parse MessageLiteral}
  (hm : Mirrors (fun _ => True) n 0 id message message')

include hm

/-- The value of an option: the bracket that opens a message is exchanged for the other one,
and either is one. -/
theorem mirrors_optionValueOf :
    Mirrors (fun _ => True) n 0 id (optionValueOf message) (optionValueOf message') :=
  .atMessageLiteral (hm.yield fun _ => rfl) (mirrors_scalarValue.yield fun _ => rfl)

theorem mirrors_listLiteralOf :
    Mirrors pre (n + 1) 1 id (listLiteralOf message) (listLiteralOf message') :=
  .within (mirrors_bracketed (mirrors_optionValueOf hm))

theorem mirrors_messageListOf :
    Mirrors pre (n + 1) 1 id (messageListOf message) (messageListOf message') :=
  .within (mirrors_bracketed hm)

theorem mirrors_entryValueOf :
    Mirrors (fun _ => True) n 0 id (entryValueOf message) (entryValueOf message') := by
  refine .atMessageLiteral (hm.yield fun _ => rfl) (.check ?_ ?_)
  · have list : Mirrors (fun t => True ∧ t.kind = .leftBracket) n 0 id (listLiteralOf message)
        (listLiteralOf message') :=
      (mirrors_listLiteralOf hm).mono (fun _ _ => trivial) (Nat.le_succ n) (Nat.zero_le 1)
    exact list.yield fun _ => rfl
  · exact mirrors_scalarValue.yield fun _ => rfl

omit hm in
/-- The name of an entry, which has square brackets or none. -/
theorem mirrors_entryName : Mirrors pre n 1 id entryName entryName := by
  have close {m : ℕ} : Mirrors (fun _ => True) m 0 id (consumeMark .rightBracket "]")
      (consumeMark .rightBracket "]") := (mirrors_consumeMark rfl rfl rfl).forget
  refine .accept rfl rfl ?_ ?_
  · refine mirrors_qualifiedIdentifier.forget.bind fun x => ?_
    refine .accept rfl rfl ?_ (close.yield fun _ => rfl)
    exact mirrors_qualifiedIdentifier.forget.bind fun y => close.yield fun _ => rfl
  · exact (mirrors_consume_same rfl rfl rfl).yield fun _ => rfl

theorem mirrors_literalEntryOf :
    Mirrors pre (n + 1) 1 id (literalEntryOf message) (literalEntryOf message') := by
  refine .within (.current fun t _ _ => ?_)
  rw [Token.mirror_position]
  refine mirrors_entryName.bind fun x => ?_
  refine .accept rfl rfl ?_ (.atMessageLiteral (hm.yield fun _ => rfl) (.check ?_ ?_))
  · exact ((mirrors_entryValueOf hm).mono (fun _ => id) (Nat.sub_le n 1) le_rfl).yield
      fun _ => rfl
  · have list : Mirrors (fun t => True ∧ t.kind = .leftBracket) n 0 id (messageListOf message)
        (messageListOf message') :=
      (mirrors_messageListOf hm).mono (fun _ _ => trivial) (Nat.le_succ n) (Nat.zero_le 1)
    exact list.yield fun _ => rfl
  · have marks : Mirrors (fun t => True ∧ t.kind ≠ .leftBracket) n 0 id
        (expect [.spelled ":", .spelled "\x7b", .spelled "<", .spelled "["] :
          Parse EntryValue)
        (expect [.spelled ":", .spelled "\x7b", .spelled "<", .spelled "["]) :=
      mirrors_expect (.cons _ (.swap _ _ _))
    exact marks.yield fun _ => rfl

omit hm in
/-- What opens a message by the next token: a brace, an angle bracket or neither. -/
theorem openMessage_eq {s : ParseState} {t : Token} {rest : List Token}
    (ht : s.ahead = t :: rest) : openMessage s =
      if t.kind = .leftBrace then (.ok (.rightBrace, "\x7d"), s.past 1)
      else if t.kind = .leftAngle then (.ok (.rightAngle, ">"), s.past 1)
      else expect [.spelled "\x7b", .spelled "<"] s := by
  by_cases brace : t.kind = .leftBrace
  · have taken : accept [.leftBrace] s = (.ok true, s.past 1) := by
      rw [accept_eq ht (by decide), if_pos (by simpa using brace)]
    rw [if_pos brace, openMessage, bind_of_ok taken, if_pos rfl, pure_eq]
  have notBrace : accept [.leftBrace] s = (.ok false, s) := by
    rw [accept_eq ht (by decide), if_neg (by simpa using brace)]
  rw [if_neg brace, openMessage, bind_of_ok notBrace, if_neg nofun]
  by_cases angle : t.kind = .leftAngle
  · have taken : accept [.leftAngle] s = (.ok true, s.past 1) := by
      rw [accept_eq ht (by decide), if_pos (by simpa using angle)]
    rw [if_pos angle, bind_of_ok taken, if_pos rfl, pure_eq]
  · have notAngle : accept [.leftAngle] s = (.ok false, s) := by
      rw [accept_eq ht (by decide), if_neg (by simpa using angle)]
    rw [if_neg angle, bind_of_ok notAngle, if_neg nofun]

omit hm in
/-- The closing bracket of the mirrored tokens is the other one. -/
theorem mirrors_openMessage :
    Mirrors pre n 1 (Prod.map TokenKind.mirror mirrorMark) openMessage openMessage := by
  intro s hle hs _
  obtain ⟨t, rest, ht⟩ := hs.exists_cons
  have opened (hk : t.kind ≠ .endOfInput) : Sealed (s.past 1).ahead := by
    rw [ParseState.ahead_past_one ht]
    exact (ht ▸ hs).tail hk
  rw [openMessage_eq ht, openMessage_eq (ParseState.ahead_mirror_cons ht), Token.mirror_kind]
  by_cases brace : t.kind = .leftBrace
  · rw [brace]
    exact ⟨1, opened (by simp [brace]), .inl ⟨_, rfl, rfl, le_rfl⟩⟩
  by_cases angle : t.kind = .leftAngle
  · rw [angle]
    exact ⟨1, opened (by simp [angle]), .inl ⟨_, rfl, rfl, le_rfl⟩⟩
  have brace' : t.kind.mirror ≠ .leftBrace := fun h => angle (TokenKind.mirror_injective h)
  have angle' : t.kind.mirror ≠ .leftAngle := fun h => brace (TokenKind.mirror_injective h)
  rw [if_neg brace, if_neg angle, if_neg brace', if_neg angle']
  have rejected : Mirrors (fun _ => True) n 1 (Prod.map TokenKind.mirror mirrorMark)
      (expect [.spelled "\x7b", .spelled "<"]) (expect [.spelled "\x7b", .spelled "<"]) :=
    mirrors_expect (.swap _ _ _)
  exact rejected s hle hs fun _ _ => trivial

/-- A message. The bracket that closes it is settled by the one that opens it, so both are
exchanged. -/
theorem mirrors_messageLiteralOf :
    Mirrors pre (n + 1) 1 id (messageLiteralOf message) (messageLiteralOf message') := by
  refine .within (.current fun t _ _ => ?_)
  rw [Token.mirror_position]
  refine mirrors_openMessage.bind fun (close, mark) => ?_
  have entry {pre : Token → Prop} : Mirrors pre n 1 id
      (do
        let entry ← literalEntryOf message
        let _ ← accept [.comma, .semicolon]
        return entry)
      (do
        let entry ← literalEntryOf message'
        let _ ← accept [.comma, .semicolon]
        return entry) := by
    refine ((mirrors_literalEntryOf hm).mono (fun _ => id) (Nat.le_succ n) le_rfl).bind
      fun e => ?_
    exact .accept rfl rfl (.pure rfl) (.pure rfl)
  -- in a round that does not end the loop there is an entry, or what stands there is rejected
  have entries {p q : Parse LiteralEntry}
      (h : Mirrors (fun t => (!decide (t.kind = close)) = true) n 1 id p q) :
      Mirrors (fun _ => True) n 0 (List.map id) (whileMore (return !(← check close)) p)
        (whileMore (return !(← check close.mirror)) q) := by
    refine .whileMore ((peeks_check close).bind_pure (! ·))
      ((peeks_check close.mirror).bind_pure (! ·))
      (fun t => ?_) h
    rw [decide_eq_decide.mpr Token.mirror_kind_eq_iff]
  refine (entries (.check entry (.check entry ?_))).bind fun es => ?_
  · have rejected {pre : Token → Prop} : Mirrors pre n 1 id
        (expect [.anIdentifier "field name", .spelled mark] : Parse PUnit)
        (expect [.anIdentifier "field name", .spelled (mirrorMark mark)]) :=
      mirrors_expect (List.Perm.refl _)
    exact rejected.bind fun _ => (entry.mono (fun _ => id) (Nat.sub_le n 1) le_rfl).forget
  · rw [List.map_id]
    exact mirrors_advance.yield fun _ => rfl

end Parts

/-- A message holds messages where fewer tokens are left. -/
theorem mirrors_messageLiteral : Mirrors pre n 0 id messageLiteral messageLiteral :=
  .recursive fun _ _ _ h => (mirrors_messageLiteralOf h).forget

/-- The value of an option with messages of any depth. -/
theorem mirrors_optionValue : Mirrors (fun _ => True) n 0 id optionValue optionValue :=
  .within (mirrors_optionValueOf mirrors_messageLiteral)

end ProtoSchema.Grammar
