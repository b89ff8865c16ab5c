import ProtoSchema.Proofs.Expecting.Loop
import ProtoSchema.Proofs.Reading.Value

/-!
# What option values expect

The productions for names, numbers, option values and options, in the order of their
definitions. Those that are chosen by the next token take it.
-/
namespace ProtoSchema.Grammar

open Parse Fork

variable {w : Fork} {n : ℕ} {pre firm : Token → Prop}

/-! ## Names and numbers -/

theorem sincere_identifier : w.Sincere n pre (·.kind = .identifier) identifier identifier :=
  .yield (sincere_consume nofun fun _ => id)

/-- A name is expected at the start and behind each point. -/
theorem sincere_qualifiedIdentifier :
    w.Sincere n pre (·.kind = .identifier) qualifiedIdentifier qualifiedIdentifier :=
  .yield (.separatedBy nofun sincere_identifier sincere_identifier.loose)

/-- A type starts with a point or a name. -/
theorem sincere_typeName :
    w.Sincere n pre (fun t => t.kind = .dot ∨ t.kind = .identifier) typeName typeName := by
  refine .accept (by decide) (.yield sincere_qualifiedIdentifier.loose) (.check ?_ ?_)
  · exact sincere_qualifiedIdentifier.takes fun _ => And.right
  · refine sincere_expect fun t ht => ?_
    obtain ⟨⟨-, dot⟩, name⟩ := ht
    have none : ¬(t.kind = .dot ∨ t.kind = .identifier) :=
      not_or.mpr ⟨fun h => dot (List.mem_singleton.mpr h), name⟩
    refine ⟨none, fun x hx fits => none ?_⟩
    rw [List.mem_singleton.mp hx] at fits
    exact fits.imp_right And.left

/-- A string starts with a literal; that another may follow is not said of what stands behind
it. -/
theorem sincere_stringLiteral {purpose : String} : w.Sincere n pre (·.kind = .string)
    (stringLiteral (.aString purpose)) (stringLiteral (.aString purpose)) := by
  refine .consume_bind nofun (fun _ => id) fun t _ _ =>
    .yield (.whileMore (peeks_check .string) ?_)
  refine sincere_advance fun u _ hu => ?_
  rw [of_decide_eq_true hu]
  nofun

/-- Whoever asks for a number has to say what the words for it admit. -/
theorem sincereAt_unsignedInteger {wanted : Expectation} {s : ParseState}
    (hw : pre w.token → s.index = w.place → wanted.Admits w.token →
      w.token.kind = .integer ∨ w.Overstated wanted) :
    w.SincereAt pre (·.kind = .integer) (unsignedInteger wanted) (unsignedInteger wanted) s :=
  .consume_bind nofun hw fun _ made hk =>
    (exists_readLiteral made hk).elim fun _ => sincere_ofNumeral

theorem sincere_unsignedInteger {purpose : String} : w.Sincere n pre (·.kind = .integer)
    (unsignedInteger (.anInteger purpose)) (unsignedInteger (.anInteger purpose)) :=
  fun _ _ => sincereAt_unsignedInteger fun _ _ => .inl

/-- A number, where the word `max` is named too: what comes next has been seen not to be that
word. -/
theorem sincere_unsignedMax {purpose : String} : w.Sincere n (fun t => ¬t.IsWord "max") ⊥
    (unsignedInteger (.anIntegerOrMax purpose))
      (unsignedInteger (.anIntegerOrMax purpose)) := by
  intro s _
  have number : w.SincereAt (fun t => ¬t.IsWord "max") (·.kind = .integer)
      (unsignedInteger (.anIntegerOrMax purpose))
      (unsignedInteger (.anIntegerOrMax purpose)) s :=
    sincereAt_unsignedInteger fun other _ (fits : _ ∨ _) => .inl (fits.resolve_right other)
  exact number.drop

/-- In front of a number a minus may be taken that no complaint names. -/
theorem sincere_signedInteger {purpose : String} : w.Sincere n pre ⊥
    (signedInteger (.anInteger purpose)) (signedInteger (.anInteger purpose)) :=
  .accept (by decide) (.yield sincere_unsignedInteger.loose)
    (.yield sincere_unsignedInteger.loose)

/-- The word `max` is no longer a choice behind a minus. -/
theorem sincere_signedMax {purpose : String} : w.Sincere n (fun t => ¬t.IsWord "max") ⊥
    (signedInteger (.anIntegerOrMax purpose)) (signedInteger (.anIntegerOrMax purpose)) := by
  refine .accept_at (by decide) (fun s t _ _ hk hst => ?_) ?_
  · have number :
        w.SincereAt ⊤ (·.kind = .integer) (unsignedInteger (.anIntegerOrMax purpose))
        (unsignedInteger (.anIntegerOrMax purpose)) (s.past 1) := by
      refine sincereAt_unsignedInteger fun _ hplace (fits : _ ∨ _) =>
        fits.imp_right fun word => ?_
      have before : s.index + 1 = w.place := hplace
      exact ⟨⟨purpose, rfl⟩, word, s.index, t, before, hst (by omega),
        List.mem_singleton.mp hk⟩
    exact number.drop.bind fun a b => .pure (-a) (-b)
  · exact .yield (sincere_unsignedMax.restrict fun _ _ => And.left)

theorem sincere_fieldNumber : w.Sincere n pre (·.kind = .integer) fieldNumber fieldNumber :=
  sincere_unsignedInteger

/-! ## Scalars -/

/-- A token is taken and read as a number. -/
theorem sincere_numeral {α β : Type} {r : Except NumeralError α} {a : α}
    (h : r = .ok a) (g : α → β) (hpre : ∀ t, t.WellMade → pre t → t.kind ≠ .endOfInput) :
    w.Sincere n pre firm
      (do let _ ← advance; let a ← ofNumeral r; return g a)
      (do let _ ← advance; let a ← ofNumeral r; return g a) :=
  .advance_bind hpre fun _ _ _ => .yield (sincere_ofNumeral h)

/-- A token for a number without a sign. -/
def startsNumber (t : Token) : Bool :=
  t.kind = .integer || t.kind = .real || t.kind = .identifier && t.text = Text.ofString "inf"

/-- Behind a sign a number of either kind is taken, or the word `inf`. -/
theorem sincere_signedNumber (negative : Bool) :
    w.Sincere n pre (startsNumber · = true) (signedNumber negative)
      (signedNumber negative) := by
  refine .split startsNumber (.current fun t made ht => ?_) (.start fun t u ht hu => ?_)
  · have taken : ∀ u : Token, u.WellMade → u = t → u.kind ≠ .endOfInput := by
      rintro u - rfl he
      simp [startsNumber, he] at ht
    by_cases hi : t.kind = .integer
    · rw [if_pos hi]
      obtain ⟨m, hm⟩ := exists_readLiteral made hi
      exact sincere_numeral hm _ taken
    rw [if_neg hi]
    have magnitude : t.kind = .real ∨ t.kind = .identifier ∧
        t.text = Text.ofString "inf" := by
      simpa [startsNumber, hi] using ht.2
    obtain ⟨x, hx⟩ := exists_readReal made magnitude
    have number {pre : Token → Prop} (hpre : ∀ u, u.WellMade → pre u → u = t) :
        w.Sincere n pre ⊤
        (do
          let _ ← advance
          let x ← ofNumeral (Numeral.readReal t.text)
          return Scalar.real (if negative then x.negate else x))
        (do
          let _ ← advance
          let x ← ofNumeral (Numeral.readReal t.text)
          return Scalar.real (if negative then x.negate else x)) :=
      sincere_numeral hx _ fun u hu hp => taken u hu (hpre u hu hp)
    refine .word ?_ ?_
    · simp only [Bool.or_true, if_true]
      exact number fun _ _ hu => hu.1
    · by_cases hr : t.kind = .real
      · simp only [hr, decide_true, Bool.true_or, if_true]
        exact number fun _ _ hu => hu.1
      · exact .of_not fun u _ hu => hu.2 (hu.1 ▸ magnitude.resolve_left hr)
  · have none {t : Token} (ht : startsNumber t = false) :
        t.kind ≠ .integer ∧ t.kind ≠ .real ∧ ¬t.IsWord "inf" := by
      simpa [startsNumber, Token.IsWord, and_assoc] using ht
    rw [if_neg (none ht.2).1, if_neg (none hu.2).1]
    refine .word (.of_not fun v _ hv => (none hv.1.2).2.2 hv.2) ?_
    simp only [(none ht.2).2.1, (none hu.2).2.1, decide_false, Bool.or_self,
      Bool.false_eq_true,
      if_false]
    refine sincere_expect fun v hv => ⟨by simp [hv.1.2], fun x hx fits => ?_⟩
    rw [List.mem_singleton.mp hx] at fits
    obtain ⟨integer, real, inf⟩ := none hv.1.2
    rcases fits with hk | hk | hk
    · exact integer hk
    · exact real hk
    · exact inf hk

/-- A token that starts a scalar. -/
def startsScalar (t : Token) : Bool :=
  t.kind ∈ [.string, .plus, .minus, .integer, .real, .identifier]

/-- Any other token is rejected as no scalar. -/
theorem scalarFrom_other {t : Token} (h : startsScalar t = false) :
    scalarFrom t = expect [.scalarValue] := by
  unfold scalarFrom
  split <;> simp_all [startsScalar]

/-- The scalar of a token that starts one. -/
theorem sincere_scalarFrom {t : Token} (made : t.WellMade) (h : startsScalar t = true) :
    w.Sincere n (· = t) ⊤ (scalarFrom t) (scalarFrom t) := by
  have taken : ∀ u : Token, u.WellMade → u = t → u.kind ≠ .endOfInput := by
    rintro u - rfl he
    simp [startsScalar, he] at h
  unfold scalarFrom
  split
  · next hk => exact .yield (sincere_stringLiteral.takes fun u hu => hu ▸ hk)
  · exact .advance_bind taken fun _ _ _ => (sincere_signedNumber false).loose
  · exact .advance_bind taken fun _ _ _ => (sincere_signedNumber true).loose
  · next hk =>
    obtain ⟨m, hm⟩ := exists_readLiteral made hk
    exact sincere_numeral hm _ taken
  · next hk =>
    obtain ⟨x, hx⟩ := exists_readReal made (.inl hk)
    exact sincere_numeral hx _ taken
  · exact .yield (sincere_advance taken)
  · simp_all [startsScalar]

/-- A scalar starts with one of six kinds of tokens, and all of these are taken. -/
theorem sincere_scalarValue :
    w.Sincere n pre (startsScalar · = true) scalarValue scalarValue := by
  refine .within
    (.split startsScalar (.current fun t made ht => ?_) (.start fun t u ht hu => ?_))
  · exact .yield (sincere_scalarFrom made ht.2)
  · rw [scalarFrom_other ht.2, scalarFrom_other hu.2]
    refine .yield (sincere_expect fun v hv => ⟨by simp [hv.2], fun x hx fits => ?_⟩)
    rw [List.mem_singleton.mp hx] at fits
    have mem : v.kind ∈ [.string, .plus, .minus, .integer, .real, .identifier] := fits
    exact of_decide_eq_false hv.2 mem

/-! ## Parts of messages -/

/-- A list in brackets: behind its last element the next token is no comma. -/
theorem sincere_bracketed {α : Type} {p q : Parse α} (h : w.Sincere n ⊤ ⊥ p q) :
    w.Sincere n pre (·.kind = .leftBracket) (bracketed p) (bracketed q) := by
  have close (A : Token → Prop) (hA : ∀ t, A t → t.kind ≠ .comma) (as bs : List α)
      (t u : Token) :
      w.Sincere n A (·.kind = .rightBracket)
      (do
        if ← check .rightBracket then
          let _ ← advance
          return (as, t.position)
        else expect [.spelled ",", .spelled "]"])
      (do
        if ← check .rightBracket then
          let _ ← advance
          return (bs, u.position)
        else expect [.spelled ",", .spelled "]"]) := by
    refine .check (.yield (sincere_advance fun t _ ht => ht.2 ▸ nofun)) ?_
    refine sincere_expect fun t ht => ⟨ht.2, fun x hx fits => ?_⟩
    rcases List.mem_pair.mp hx with rfl | rfl
    · exact hA t ht.1 (fits.spelling rfl).1
    · exact ht.2 (fits.spelling rfl).1
  have opened : w.Sincere n pre (·.kind = .leftBracket) (consume .leftBracket (.spelled "["))
      (consume .leftBracket (.spelled "[")) := sincere_spelled nofun rfl
  refine opened.bind fun t u => .check ?_ ?_
  · have none :=
      close (fun t => True ∧ t.kind = .rightBracket) (fun t ht => ht.2 ▸ nofun) [] [] t u
    exact none.mono le_rfl (fun _ _ => id) fun _ _ ht _ => ht.2
  · have elements :
        w.Sincere n ⊤ ⊥ (separatedBy .comma p >>= _) (separatedBy .comma q >>= _) :=
      .separatedBy_bind nofun h h fun as bs s hs =>
        (close (·.kind ≠ .comma) (fun _ => id) as bs t u s hs).drop
    exact elements.loose

section Parts

variable {message message' : Parse MessageLiteral}
  (hm : w.Sincere n ⊤ (fun t => t.kind = .leftBrace ∨ t.kind = .leftAngle) message message')

include hm

theorem sincere_optionValueOf :
    w.Sincere n pre ⊥ (optionValueOf message) (optionValueOf message') :=
  .atMessageLiteral (.yield (hm.takes fun _ => And.right)) (.yield sincere_scalarValue.loose)

theorem sincere_listLiteralOf :
    w.Sincere n pre (·.kind = .leftBracket) (listLiteralOf message)
      (listLiteralOf message') :=
  .within (sincere_bracketed (sincere_optionValueOf hm))

theorem sincere_messageListOf :
    w.Sincere n pre (·.kind = .leftBracket) (messageListOf message)
      (messageListOf message') :=
  .within (sincere_bracketed hm.loose)

theorem sincere_entryValueOf :
    w.Sincere n pre ⊥ (entryValueOf message) (entryValueOf message') := by
  refine .atMessageLiteral (.yield (hm.takes fun _ => And.right)) (.check ?_ ?_)
  · exact .yield ((sincere_listLiteralOf hm).takes fun _ => And.right)
  · exact .yield sincere_scalarValue.loose

omit hm in
/-- The name of an entry starts with a bracket or a name. -/
theorem sincere_entryName :
    w.Sincere n pre (fun t => t.kind = .leftBracket ∨ t.kind = .identifier)
    entryName entryName := by
  have close {m : ℕ} {pre : Token → Prop} : w.Sincere m pre ⊥ (consumeMark .rightBracket "]")
      (consumeMark .rightBracket "]") := .loose (sincere_mark nofun rfl)
  refine .accept (by decide) ?_ ?_
  · refine sincere_qualifiedIdentifier.loose.bind fun x y =>
      .accept (by decide) ?_ (.yield close)
    exact sincere_qualifiedIdentifier.loose.bind fun x y => .yield close
  · have name {pre : Token → Prop} : w.Sincere n pre (·.kind = .identifier)
        (consume .identifier (.anIdentifier "field name"))
        (consume .identifier (.anIdentifier "field name")) :=
          sincere_consume nofun fun _ => id
    refine .yield (name.mono le_rfl (fun _ _ => id) fun t _ ht starts => ?_)
    exact starts.resolve_left fun h => ht.2 (List.mem_singleton.mpr h)

/-- An entry starts as its name does. -/
theorem sincere_literalEntryOf :
    w.Sincere n pre (fun t => t.kind = .leftBracket ∨ t.kind = .identifier)
    (literalEntryOf message) (literalEntryOf message') := by
  refine .within (.start fun t u _ _ => sincere_entryName.bind fun (x, k) (y, l) => ?_)
  refine .accept (by decide) (.yield ?_) ?_
  · exact (sincere_entryValueOf hm).further (Nat.le_succ n)
  refine .atMessageLiteral (.yield (hm.takes fun _ => And.right)) (.check ?_ ?_)
  · exact .yield ((sincere_messageListOf hm).takes fun _ => And.right)
  · refine .yield (sincere_expect fun t ht => ⟨id, fun x hx fits => ?_⟩)
    obtain ⟨⟨⟨-, colon⟩, opening⟩, bracket⟩ := ht
    simp only [List.mem_cons, List.not_mem_nil, or_false] at hx
    rcases hx with rfl | rfl | rfl | rfl
    · exact colon (List.mem_singleton.mpr (fits.spelling rfl).1)
    · exact opening (.inl (fits.spelling rfl).1)
    · exact opening (.inr (fits.spelling rfl).1)
    · exact bracket (fits.spelling rfl).1

omit hm in
/-- The opening bracket and what goes on with the closing one. -/
theorem openMessage_bind {α : Type} (K : TokenKind × String → Parse α) : openMessage >>= K =
    accept [.leftBrace] >>= fun b => if b then K (.rightBrace, "\x7d") else
      accept [.leftAngle] >>= fun b => if b then K (.rightAngle, ">") else
        expect [.spelled "\x7b", .spelled "<"] := by
  rw [openMessage, bind_assoc]
  congr 1
  funext b
  cases b with
  | true => rfl
  | false =>
    simp only [Bool.false_eq_true, if_false]
    rw [bind_assoc]
    congr 1
    funext b
    cases b with
    | true => rfl
    | false => exact expect_bind _ K

/-- Entries up to the closing bracket: where none starts with a name the bracket is missed. -/
theorem sincere_entries (close : TokenKind) (mark : String) {x : Text}
    (hk : close ≠ .endOfInput) (hmark : (Lexeme.read mark.toList).outcome = .ok (close, x))
    (t u : Token) :
    w.Sincere n ⊤ ⊥
      (do
        let entries ← whileMore (return !(← check close)) do
          let named ← do
            if ← check .identifier then pure true else check .leftBracket
          if !named then expect [.anIdentifier "field name", .spelled mark]
          let entry ← literalEntryOf message
          let _ ← accept [.comma, .semicolon]
          return entry
        let _ ← advance
        return (⟨entries, t.position⟩ : MessageLiteral))
      (do
        let entries ← whileMore (return !(← check close)) do
          let named ← do
            if ← check .identifier then pure true else check .leftBracket
          if !named then expect [.anIdentifier "field name", .spelled mark]
          let entry ← literalEntryOf message'
          let _ ← accept [.comma, .semicolon]
          return entry
        let _ ← advance
        return (⟨entries, u.position⟩ : MessageLiteral)) := by
  have entry {pre : Token → Prop}
      (hpre : ∀ t, pre t → t.kind = .leftBracket ∨ t.kind = .identifier) :
      w.Sincere n pre ⊤
        (do
          let entry ← literalEntryOf message
          let _ ← accept [.comma, .semicolon]
          return entry)
        (do
          let entry ← literalEntryOf message'
          let _ ← accept [.comma, .semicolon]
          return entry) :=
    ((sincere_literalEntryOf hm).takes hpre).bind fun e f =>
      .accept (by decide) (.pure e f) (.pure e f)
  refine .until (.check ?_ (.check ?_ ?_)) fun es fs =>
    .yield (sincere_advance fun t _ ht => ht ▸ hk)
  · exact entry fun _ ht => .inr ht.2
  · exact entry fun _ ht => .inl ht.2
  · show w.Sincere n _ _ (expect [.anIdentifier "field name", .spelled mark] >>= _)
      (expect [.anIdentifier "field name", .spelled mark] >>= _)
    rw [expect_bind, expect_bind]
    refine sincere_expect fun t ht => ⟨id, fun x hx fits => ?_⟩
    rcases List.mem_pair.mp hx with rfl | rfl
    · exact ht.1.2 fits
    · exact ht.1.1 (fits.spelling hmark).1

omit hm in
/-- The parts of a message are compared behind its opening bracket. -/
theorem sincere_messageLiteralOf
    (hm : w.Sincere (n + 1) ⊤ (fun t => t.kind = .leftBrace ∨ t.kind = .leftAngle)
      message message') :
    w.Sincere n pre (fun t => t.kind = .leftBrace ∨ t.kind = .leftAngle)
      (messageLiteralOf message)
      (messageLiteralOf message') := by
  refine .within (.start fun t u _ _ => ?_)
  rw [openMessage_bind, openMessage_bind]
  refine .accept (by decide) (sincere_entries hm .rightBrace "\x7d" nofun rfl t u)
    (.accept (by decide) (sincere_entries hm .rightAngle ">" nofun rfl t u) ?_)
  refine sincere_expect fun t ht => ?_
  have brace : t.kind ≠ .leftBrace := fun h => ht.1.2 (List.mem_singleton.mpr h)
  have angle : t.kind ≠ .leftAngle := fun h => ht.2 (List.mem_singleton.mpr h)
  refine ⟨not_or.mpr ⟨brace, angle⟩, fun x hx fits => ?_⟩
  rcases List.mem_pair.mp hx with rfl | rfl
  · exact brace (fits.spelling rfl).1
  · exact angle (fits.spelling rfl).1

end Parts

/-- A message literal starts with either of two brackets, and both are named. -/
theorem sincere_messageLiteral :
    w.Sincere n ⊤ (fun t => t.kind = .leftBrace ∨ t.kind = .leftAngle)
    messageLiteral messageLiteral :=
  .recursive fun _ _ _ h => sincere_messageLiteralOf h

/-! ## Options -/

/-- A part of a name starts with a name or a parenthesis, and both are named. -/
theorem sincere_optionNamePart : w.Sincere n pre ⊥ optionNamePart optionNamePart := by
  refine .start fun t u _ _ => .accept (by decide) ?_ (.check ?_ ?_)
  · exact sincere_typeName.loose.bind fun x y => .yield (.loose (sincere_mark nofun rfl))
  · exact .yield (sincere_advance fun t _ ht => ht.2 ▸ nofun)
  · refine sincere_expect fun t ht => ⟨id, fun x hx fits => ?_⟩
    rcases List.mem_pair.mp hx with rfl | rfl
    · exact ht.2 fits
    · exact ht.1.2 (List.mem_singleton.mpr (fits.spelling rfl).1)

theorem sincere_optionName : w.Sincere n pre ⊥ optionName optionName :=
  .within (.separatedBy nofun sincere_optionNamePart sincere_optionNamePart)

theorem sincere_optionValue : w.Sincere n pre ⊥ optionValue optionValue :=
  .within (sincere_optionValueOf sincere_messageLiteral)

theorem sincere_optionStatement (hpre : ∀ t, t.WellMade → pre t → t.kind ≠ .endOfInput) :
    w.Sincere n pre firm optionStatement optionStatement := by
  refine .within (.advance_bind hpre fun t _ _ => sincere_optionName.bind fun x y => ?_)
  refine .bind (.loose (sincere_mark nofun rfl)) fun _ _ =>
    sincere_optionValue.bind fun v v' => ?_
  exact .yield (.loose (sincere_mark nofun rfl))

theorem sincere_compactOption : w.Sincere n pre ⊥ compactOption compactOption := by
  refine .start fun t u _ _ => sincere_optionName.bind fun x y => ?_
  exact .bind (.loose (sincere_mark nofun rfl)) fun _ _ => .yield sincere_optionValue

/-- Options in brackets start with the bracket. -/
theorem sincere_compactOptions :
    w.Sincere n pre (·.kind = .leftBracket) compactOptions compactOptions := by
  refine .within (.bind (sincere_mark nofun rfl) fun _ _ => ?_)
  refine .separatedBy_bind nofun sincere_compactOption sincere_compactOption fun os os' =>
    .check ?_ ?_
  · exact .yield (sincere_advance fun t _ ht => ht.2 ▸ nofun)
  · refine sincere_expect fun t ht => ⟨id, fun x hx fits => ?_⟩
    rcases List.mem_pair.mp hx with rfl | rfl
    · exact ht.1 (fits.spelling rfl).1
    · exact ht.2 (fits.spelling rfl).1

theorem sincere_optionalCompactOptions :
    w.Sincere n pre ⊥ optionalCompactOptions optionalCompactOptions :=
  .check (sincere_compactOptions.takes fun _ => And.right) (.pure [] [])

end ProtoSchema.Grammar
