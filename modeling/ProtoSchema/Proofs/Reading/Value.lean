import ProtoSchema.Proofs.Reading.Name
import ProtoSchema.Proofs.Rendering.Declaration
import ProtoSchema.Grammar.Option

/-!
# Reading option values

What the productions for scalars, for messages in the text format and for options read. Those
for the parts of a message are given a production for a whole one; they read what they should
if it does.
-/
namespace ProtoSchema.Grammar

open Parse Rendering

variable {placed : Prop} {n : ℕ} {pre : Token → Prop}

/-! ## Scalars -/

theorem negate_negate (x : Binary64) : x.negate.negate = x := by
  cases x <;> simp [Binary64.negate]

/-- There is a number to complete an input with, with a sign before it or not. -/
theorem completable_number (negative : Bool) : Completable (number negative) := by
  obtain ⟨t, hk, ht⟩ : ∃ t : Token, t.kind = .integer ∧ t.Usable :=
    Token.exists_usable nofun nofun
  obtain ⟨m, hm⟩ := exists_readLiteral ht.toWellMade hk
  refine ⟨.integer (if negative then -m else m), [t], ⟨?_, t, ⟨hk, ?_⟩, rfl⟩, by
    simpa using ht⟩
  · cases negative <;> simp
  · cases negative <;> simpa using hm

/-- A token that was seen before and is known to be usable is taken, and what is behind it is
read. -/
theorem reads_advance_bind {α : Type} {f : Token → Parse α}
    {L : α → Language Token} {t : Token} (ht : t.Usable)
    (hf : Reads placed (n - 1) (fun _ => True) (f t) (after [t] L)) :
    Reads placed n (· = t) (advance >>= f) L := by
  have taken : Reads placed n (· = t) advance fun u => one fun v => v = t ∧ v = u :=
    reads_advance ⟨t, rfl, ht⟩ (fun _ h => by rw [h]; exact ⟨ht.ne_end, ht.ne_malformed⟩)
      fun _ _ h => h
  refine .bind taken fun u us hu _ => ?_
  obtain ⟨u, ⟨rfl, rfl⟩, rfl⟩ := hu
  exact hf

/-- A token for a magnitude can be read as one. -/
theorem exists_readReal {t : Token} (h : t.WellMade)
    (ht : t.kind = .real ∨ t.kind = .identifier ∧ t.text = Text.ofString "inf") :
    ∃ x, Numeral.readReal t.text = .ok x := by
  rcases ht with hk | ⟨-, ht⟩
  · obtain ⟨cs, hcs, shape⟩ := h.real hk
    rw [hcs]
    exact Numeral.readReal_ofChars shape
  · rw [ht]
    exact ⟨.infinite false, by decide⟩

/-- A number behind its sign, if it has one. The word `inf` is a number as well. -/
theorem reads_signedNumber (negative : Bool) :
    Reads placed n pre (Grammar.signedNumber negative) (number negative) := by
  refine .current (fun _ => completable_number negative) fun t ht _ => ?_
  by_cases hk : t.kind = .integer
  · rw [if_pos hk]
    have usable : t.Usable := ⟨ht, by simp [hk], by simp [hk]⟩
    obtain ⟨m, hm⟩ := exists_readLiteral ht hk
    refine reads_advance_bind usable ?_
    rw [hm]
    refine .pure ⟨?_, t, ⟨hk, ?_⟩, rfl⟩
    · cases negative <;> simp
    · cases negative <;> simpa using hm
  · rw [if_neg hk]
    refine .peek_eq (peeks_checkWord "inf") ?_
    split
    · rename_i h
      have hreal : t.kind = .real ∨ t.kind = .identifier ∧ t.text = Text.ofString "inf" := by
        simpa using h
      have usable : t.Usable := ⟨ht, by rcases hreal with h | ⟨h, -⟩ <;> simp [h],
        by rcases hreal with h | ⟨h, -⟩ <;> simp [h]⟩
      obtain ⟨x, hx⟩ := exists_readReal ht hreal
      refine reads_advance_bind usable ?_
      rw [hx]
      refine .pure ⟨t, ⟨hreal, ?_⟩, rfl⟩
      cases negative <;> simpa [negate_negate] using hx
    · exact .reject fun _ => completable_number negative

theorem completable_scalar : Completable scalar := by
  obtain ⟨t, ht, hu⟩ := Token.exists_identifier (Text.ofString "x")
  exact ⟨.identifier t.text, [t], ⟨by rw [ht.2]; decide, t, ⟨ht.1, rfl⟩, rfl⟩, by
    simpa using hu⟩

/-- A number with a plus before it, or with nothing, is a scalar. -/
theorem mem_scalar_of_number {us vs : List Token} {v : Scalar} (hu : us ∈ maybe (mark .plus))
    (hv : vs ∈ number false v) : us ++ vs ∈ scalar v :=
  mem_scalar_of_signed (.inl (Language.append_mem_mul hu hv))

/-- A scalar, whose first token was seen before. -/
theorem reads_scalarFrom {start : Token} (h : start.WellMade) :
    Reads placed n (· = start) (scalarFrom start) scalar := by
  have usable (he : start.kind ≠ .endOfInput) (hm : start.kind ≠ .malformedNumber) :
      start.Usable := ⟨h, he, hm⟩
  have unsigned {v : Scalar} (hv : [start] ∈ number false v) : [start] ∈ scalar v :=
    mem_scalar_of_number (mem_maybe.mpr (.inl rfl)) hv
  unfold scalarFrom
  split
  · refine .bind (reads_stringLiteral _) fun x us hu _ => .pure ?_
    simpa [scalar] using hu
  · rename_i hk
    refine reads_advance_bind (usable (by simp [hk]) (by simp [hk])) ?_
    exact (reads_signedNumber false).mono fun v vs hv =>
      mem_scalar_of_number (mem_maybe.mpr (.inr ⟨start, hk, rfl⟩)) hv
  · rename_i hk
    refine reads_advance_bind (usable (by simp [hk]) (by simp [hk])) ?_
    have minus : [start] ∈ mark .minus := ⟨start, hk, rfl⟩
    exact (reads_signedNumber true).mono fun v vs hv =>
      mem_scalar_of_signed (.inr (Language.append_mem_mul minus hv))
  · rename_i hk
    refine reads_advance_bind (usable (by simp [hk]) (by simp [hk])) ?_
    obtain ⟨m, hm⟩ := exists_readLiteral h hk
    rw [hm]
    have number : [start] ∈ number false (.integer m) :=
      ⟨Int.natCast_nonneg m, start, ⟨hk, hm⟩, rfl⟩
    exact .pure (unsigned number)
  · rename_i hk
    refine reads_advance_bind (usable (by simp [hk]) (by simp [hk])) ?_
    obtain ⟨x, hx⟩ := exists_readReal h (.inl hk)
    rw [hx]
    have number : [start] ∈ number false (.real x) := ⟨start, ⟨.inl hk, hx⟩, rfl⟩
    exact .pure (unsigned number)
  · rename_i hk
    refine reads_advance_bind (usable (by simp [hk]) (by simp [hk])) (.pure ?_)
    split
    · rename_i hi
      have hx : Numeral.readReal start.text = .ok (.infinite false) := by
        rw [hi]
        decide
      have number : [start] ∈ number false (.real (.infinite false)) :=
        ⟨start, ⟨.inr ⟨hk, hi⟩, hx⟩, rfl⟩
      exact unsigned number
    · rename_i hi
      exact ⟨hi, start, ⟨hk, rfl⟩, rfl⟩
  · exact .reject fun _ => completable_scalar

/-- A scalar as the value of an option, with its position. -/
theorem reads_scalarValue :
    Reads placed n pre scalarValue (Rendering.scalarValue placed) := by
  refine .within (.starting (fun start h => ?_) fun v => nil_notMem_scalar _)
  refine .bind (reads_scalarFrom h) fun v us hu _ => .pure ⟨?_, rfl⟩
  simpa using hu

/-! ## Parts of messages -/

section Parts

variable {message : Parse MessageLiteral}
  (hm : Reads placed n (fun _ => True) message (Rendering.messageLiteral placed))

include hm

/-- The value of an option. A message is told from a scalar by its first token. -/
theorem reads_optionValueOf :
    Reads placed n pre (optionValueOf message) (Rendering.optionValue placed) := by
  refine .test peeks_atMessageLiteral ?_ fun _ => ?_
  · refine .bind (hm.weaken le_rfl fun _ _ _ => trivial) fun m us hu _ => .pure ?_
    simpa [Rendering.optionValue] using hu
  · refine .bind reads_scalarValue fun v us hu _ => .pure ?_
    simpa [Rendering.optionValue] using hu

omit hm in
/-- Elements in brackets, with the position of the opening one. There may be none. -/
theorem reads_bracketed {α : Type} {element : Parse α} {E : α → Language Token}
    (hE : Reads placed n (fun _ => True) element E) :
    Reads placed n pre (bracketed element) fun r =>
      Rendering.starting placed r.2 (Rendering.bracketed (listing E r.1)) := by
  refine .bind (reads_consume .leftBracket _ rfl) fun t us hu _ => ?_
  obtain ⟨t, ⟨⟨hk, -⟩, rfl⟩, rfl⟩ := hu
  have close {as : List α} {vs : List Token} (hv : vs ∈ listing E as) {m : ℕ}
      {pre : Token → Prop} : Reads placed m pre
      (do
        if ← check .rightBracket then
          let _ ← advance
          return (as, t.position)
        else expect [.spelled ",", .spelled "]"])
      (after vs (after [t] fun r =>
        Rendering.starting placed r.2 (Rendering.bracketed (listing E r.1)))) := by
    refine .test (peeks_check _) ?_ fun h => .reject h
    refine .bind (reads_advance_kind (fun u _ h => of_decide_eq_true h.2) rfl)
      fun u ws hw _ => .pure ?_
    obtain ⟨u, ⟨⟨hk', -⟩, rfl⟩, rfl⟩ := hw
    exact ⟨append_mem_prod ⟨t, hk, rfl⟩
      (append_mem_prod hv (append_mem_prod ⟨u, hk', rfl⟩ rfl)),
      fun _ => ⟨t, rfl, rfl⟩⟩
  refine .test (peeks_check _) (close (show [] ∈ listing E [] from rfl)) fun _ => ?_
  refine .bind (.separatedBy rfl (hE.weaken (by simp) fun _ _ => id)) fun as vs hv _ =>
    close ?_
  cases as with
  | nil => cases hv
  | cons a as => exact hv

/-- A list of values in brackets, behind a colon. -/
theorem reads_listLiteralOf : Reads placed n pre (listLiteralOf message) fun r =>
    Rendering.starting placed r.2 (Rendering.bracketed (optionValues placed r.1)) := by
  simp only [optionValues_eq]
  exact .within (reads_bracketed (reads_optionValueOf hm))

/-- A list of messages in brackets, which needs no colon. -/
theorem reads_messageListOf : Reads placed n pre (messageListOf message) fun r =>
    Rendering.starting placed r.2 (Rendering.bracketed (messageLiterals placed r.1)) := by
  simp only [messageLiterals_eq]
  exact .within (reads_bracketed hm)

/-- Behind a colon the rest of a value is read. -/
theorem reads_entryValueOf {t : Token} (ht : t.kind = .colon) :
    Reads placed n pre (entryValueOf message) (after [t] (Rendering.entryValue placed)) := by
  have colon : [t] ∈ mark .colon := ⟨t, ht, rfl⟩
  refine .test peeks_atMessageLiteral ?_ fun _ => .test (peeks_check _) ?_ fun _ => ?_
  · refine .bind (hm.weaken le_rfl fun _ _ _ => trivial) fun m us hu _ => .pure ?_
    simpa [Rendering.entryValue] using
      Language.append_mem_mul (mem_maybe.mpr (.inr colon)) hu
  · refine .bind (reads_listLiteralOf hm) fun r us hu _ => .pure ?_
    simpa [Rendering.entryValue] using Language.append_mem_mul colon hu
  · refine .bind reads_scalarValue fun v us hu _ => .pure ?_
    simpa [Rendering.entryValue] using Language.append_mem_mul colon hu

omit hm in
/-- The name of an entry: a plain one, an extension or the URL of a type. -/
theorem reads_entryName :
    Reads placed n pre entryName fun r => Rendering.entryName r.2 r.1 := by
  refine .accept rfl (fun t ht _ => ?_) fun _ => ?_
  · have left : [t] ∈ mark .leftBracket := ⟨t, by simpa using ht, rfl⟩
    refine .bind reads_qualifiedIdentifier fun x us hu _ =>
      .accept rfl (fun v hv _ => ?_) fun _ => ?_
    · have slash : [v] ∈ mark .slash := ⟨v, by simpa using hv, rfl⟩
      refine .bind reads_qualifiedIdentifier fun y ws hw _ => ?_
      refine .bind (reads_consumeMark _ _ rfl) fun _ vs hvs _ => .pure ?_
      exact ⟨x, y, rfl, append_mem_prod left (append_mem_prod hu (append_mem_prod slash
        (append_mem_prod hw (append_mem_prod hvs rfl))))⟩
    · refine .bind (reads_consumeMark _ _ rfl) fun _ vs hvs _ => .pure ?_
      exact append_mem_prod left (append_mem_prod hu (append_mem_prod hvs rfl))
  · refine .bind (reads_consume .identifier _ rfl) fun t us hu _ => .pure ?_
    obtain ⟨t, ⟨⟨hk, -⟩, rfl⟩, rfl⟩ := hu
    exact ⟨t, ⟨hk, rfl⟩, rfl⟩

/-- An entry of a message. Behind the name there is a colon and a value, or a message or a
list of them. -/
theorem reads_literalEntryOf :
    Reads placed n pre (literalEntryOf message) (Rendering.literalEntry placed) := by
  rw [literalEntry_eq]
  refine .within (.starting (fun start _ => ?_) fun e => by simp [nil_notMem_entryName])
  refine .bind reads_entryName fun r us hu _ => .accept rfl (fun t ht _ => ?_) fun _ => ?_
  · refine .bind (reads_entryValueOf (hm.weaken (by omega) fun _ _ => id) (by simpa using ht))
      fun v vs hv _ => .pure ⟨?_, rfl⟩
    simpa using Language.append_mem_mul hu (mem_after.mp hv)
  refine .test peeks_atMessageLiteral ?_ fun _ => .test (peeks_check _) ?_ fun h =>
    .reject_bind h
  · refine .bind (hm.weaken (by omega) fun _ _ _ => trivial) fun m vs hv _ => .pure ⟨?_, rfl⟩
    have value : [] ++ vs ∈ Rendering.entryValue placed (.message m) := by
      rw [Rendering.entryValue]
      exact Language.append_mem_mul (mem_maybe.mpr (.inl rfl)) hv
    simpa using Language.append_mem_mul hu value
  · refine .bind (reads_messageListOf (hm.weaken (by omega) fun _ _ => id))
      fun q vs hv _ => .pure ⟨?_, rfl⟩
    have value : vs ∈ Rendering.entryValue placed (.messages q.1 q.2) := by
      rwa [Rendering.entryValue]
    simpa using Language.append_mem_mul hu value

omit hm in
/-- The token that opens a message, which settles the one that closes it. -/
theorem reads_openMessage : Reads placed n pre openMessage fun r =>
    {ts | (r.1 = .rightBrace ∧ ts ∈ mark .leftBrace) ∨
      (r.1 = .rightAngle ∧ ts ∈ mark .leftAngle)} := by
  refine .accept rfl (fun t ht _ => .pure ?_) fun _ =>
    .accept rfl (fun t ht _ => .pure ?_) fun h => .reject h
  · exact .inl ⟨rfl, t, by simpa using ht, rfl⟩
  · exact .inr ⟨rfl, t, by simpa using ht, rfl⟩

/-- An entry and what may stand behind it. -/
theorem reads_separatedEntry : Reads placed n pre
    (do
      let entry ← literalEntryOf message
      let _ ← accept [.comma, .semicolon]
      return entry)
    fun e => Rendering.literalEntry placed e * entrySeparator := by
  refine .bind (reads_literalEntryOf hm) fun e us hu _ => .accept rfl (fun t ht _ => .pure ?_)
    fun _ => .pure (Language.append_mem_mul hu (mem_maybe.mpr (.inl rfl)))
  refine Language.append_mem_mul hu (mem_maybe.mpr (.inr ?_))
  rcases List.mem_pair.mp ht with h | h
  · exact .inl ⟨t, h, rfl⟩
  · exact .inr ⟨t, h, rfl⟩

/-- A message, one level above the messages inside it. -/
theorem reads_messageLiteralOf : Reads placed (n + 1) pre (messageLiteralOf message)
    (Rendering.messageLiteral placed) := by
  rw [messageLiteral_eq]
  refine .within (.starting (fun start _ => ?_) fun m => by simp [embraced, Language.mem_add])
  refine .bind reads_openMessage fun bracket us hu _ => ?_
  obtain ⟨close, closeMark⟩ := bracket
  have length : us.length = 1 := by
    rcases hu with ⟨-, t, -, rfl⟩ | ⟨-, t, -, rfl⟩ <;> rfl
  have asked : close.isAskedFor = true := by
    rcases hu with ⟨(h : close = _), -⟩ | ⟨(h : close = _), -⟩ <;> rw [h] <;> rfl
  have hm' : Reads placed (n + 1 - us.length) _ message _ :=
    hm.weaken (by omega) fun _ _ => id
  refine .until asked (.test (peeks_check .identifier) (reads_separatedEntry hm') fun _ =>
      .test (peeks_check .leftBracket) (reads_separatedEntry hm') fun h => .reject_bind h)
    ?_ (fun es vs hv => .pure ⟨?_, rfl⟩)
  · simp [nil_notMem_literalEntry]
  · rw [← literalEntries_eq] at hv
    rcases hu with ⟨(h : close = _), hu⟩ | ⟨(h : close = _), hu⟩ <;> rw [h] at hv
    · exact mem_embraced.mpr (.inl (by simpa using Language.append_mem_mul hu hv))
    · exact mem_embraced.mpr (.inr (by simpa using Language.append_mem_mul hu hv))

end Parts

/-- There is a message to complete an input with: the empty one. -/
theorem completable_messageLiteral : Completable (Rendering.messageLiteral False) := by
  obtain ⟨t, ht, hu⟩ := Token.exists_usable (show TokenKind.leftBrace ≠ _ from nofun) nofun
  obtain ⟨u, hu', hv⟩ := Token.exists_usable (show TokenKind.rightBrace ≠ _ from nofun) nofun
  have left : [t] ∈ mark .leftBrace := ⟨t, ht, rfl⟩
  have right : [u] ∈ mark .rightBrace := ⟨u, hu', rfl⟩
  refine ⟨⟨[], ⟨1, 1⟩⟩, [t, u], ?_, by simp [hu, hv]⟩
  rw [messageLiteral_eq]
  exact ⟨mem_embraced.mpr (.inl (append_mem_prod left (Language.append_mem_mul
    (Language.nil_mem_one) (append_mem_prod right nil_mem_prod)))), False.elim⟩

/-- A message, however deep. -/
theorem reads_messageLiteral :
    Reads placed n pre messageLiteral (Rendering.messageLiteral placed) := by
  refine Reads.weaken
    (.recursive (fun hn => ?_) fun n q hq => reads_messageLiteralOf hq) le_rfl
    fun _ _ _ => trivial
  rw [eq_false hn]
  exact completable_messageLiteral

/-! ## Options -/

/-- One part of the name of an option: a plain one, or an extension in parentheses. -/
theorem reads_optionNamePart :
    Reads placed n pre optionNamePart (Rendering.optionNamePart placed) := by
  refine .starting (fun start _ => ?_) fun part => ?_
  · refine .accept rfl (fun t ht _ => ?_) fun hL =>
      .test (peeks_check _) ?_ fun _ => .reject hL
    · have left : [t] ∈ mark .leftParen := ⟨t, by simpa using ht, rfl⟩
      refine .bind reads_typeName fun x us hu _ => ?_
      refine .bind (reads_consumeMark _ _ rfl) fun _ vs hv _ => .pure ⟨?_, rfl⟩
      exact append_mem_prod left (append_mem_prod hu (append_mem_prod hv rfl))
    · refine .bind (reads_advance_kind (fun t _ h => of_decide_eq_true h.2) rfl)
        fun t us hu _ =>
        .pure ⟨?_, rfl⟩
      obtain ⟨t, ⟨⟨hk, -⟩, rfl⟩, rfl⟩ := hu
      exact ⟨t, ⟨hk, rfl⟩, rfl⟩
  · split <;> simp

/-- The name of an option: its parts with dots between them. -/
theorem reads_optionName : Reads placed n pre optionName (Rendering.optionName placed) :=
  .within (.separatedBy rfl reads_optionNamePart)

theorem reads_optionValue : Reads placed n pre optionValue (Rendering.optionValue placed) :=
  .within (reads_optionValueOf reads_messageLiteral)

/-- What is read of an option that starts with a word. -/
theorem reads_optionStatement (hpre : ∀ t : Token, t.WellMade → pre t → t.IsWord "option") :
    Reads placed n pre optionStatement (Rendering.optionStatement placed) := by
  refine .within (.bind (reads_advance_word hpre) fun t us ht _ => ?_)
  obtain ⟨t, ⟨ht, rfl⟩, rfl⟩ := ht
  refine .bind reads_optionName fun x us hu _ =>
    .bind (reads_consumeMark _ _ rfl) fun _ vs hv _ => ?_
  refine .bind reads_optionValue fun v ws hw _ =>
    .bind (reads_consumeMark _ _ rfl) fun _ zs hz _ => ?_
  exact .pure ⟨append_mem_prod ⟨t, ht, rfl⟩ (append_mem_prod hu (append_mem_prod hv
    (append_mem_prod hw (append_mem_prod hz rfl)))), fun _ => ⟨t, rfl, rfl⟩⟩

theorem reads_compactOption :
    Reads placed n pre compactOption (Rendering.compactOption placed) := by
  refine .starting (fun start _ => ?_) fun o => by simp
  refine .bind reads_optionName fun x us hu _ =>
    .bind (reads_consumeMark _ _ rfl) fun _ vs hv _ => ?_
  refine .bind reads_optionValue fun v ws hw _ => .pure ⟨?_, rfl⟩
  exact append_mem_prod hu (append_mem_prod hv (append_mem_prod hw rfl))

/-- Options in brackets, or nothing. -/
theorem reads_optionalCompactOptions :
    Reads placed n pre optionalCompactOptions (Rendering.compactOptions placed) := by
  refine .test (peeks_check _) ?_ fun _ => .pure rfl
  refine .within (.bind (reads_consumeMark _ _ rfl) fun _ us hu _ => ?_)
  refine .bind (.separatedBy rfl reads_compactOption) fun os vs hv _ => ?_
  refine .test (peeks_check _) ?_ fun h => .reject h
  refine .bind (reads_advance_kind (fun t _ h => of_decide_eq_true h.2) rfl) fun t ws hw _ =>
    .pure ?_
  obtain ⟨t, ⟨⟨hk, -⟩, rfl⟩, rfl⟩ := hw
  cases os with
  | nil => cases hv
  | cons o os =>
    exact append_mem_prod hu (append_mem_prod hv (append_mem_prod ⟨t, hk, rfl⟩ rfl))

end ProtoSchema.Grammar
