import ProtoSchema.Proofs.Taking.Name
import ProtoSchema.Proofs.Tree.Relocate
import ProtoSchema.Proofs.Rendering.Declaration
import ProtoSchema.Grammar.Option

/-!
# Taking option values

The productions for scalars, for messages in the text format and for options take every
rendering of what they read, and yield it up to positions. Those for the parts of a message
are given a production for a whole one.
-/
namespace ProtoSchema.Grammar

open Parse Rendering Position

variable {placed : Prop} {n : ℕ} {ts rest : List Token}

/-! ## Scalars -/

/-- A number behind its sign, if it has one. The token may be the word `inf`, which no numeral
is. -/
theorem takes_signedNumber {negative : Bool} {v : Scalar} (h : ts ∈ number negative v) :
    Takes n (Grammar.signedNumber negative) ts rest (· = v) := by
  cases v with
  | string x => cases h
  | identifier x => cases h
  | integer m =>
    obtain ⟨-, t, ⟨hk, hm⟩, rfl⟩ := h
    refine .current fun u _ hu => ?_
    cases hu
    rw [if_pos hk]
    refine .cons (takes_advance (by simp [hk])) fun _ _ => ?_
    refine Takes.last (takes_ofNumeral hm) fun k hk => .pure ?_
    rw [hk]
    cases negative <;> simp
  | real x =>
    obtain ⟨t, ⟨hk, hx⟩, rfl⟩ := h
    refine .current fun u _ hu => ?_
    cases hu
    have hinteger : t.kind ≠ .integer := by
      rcases hk with hk | ⟨hk, -⟩ <;> simp [hk]
    rw [if_neg hinteger]
    refine .peek (peeks_checkWord "inf") (fun u _ hu => by cases hu; rfl) ?_
    rw [if_pos (by simpa using hk)]
    refine .cons (takes_advance (by rcases hk with h | ⟨h, -⟩ <;> simp [h])) fun _ _ => ?_
    refine Takes.last (takes_ofNumeral hx) fun y hy => .pure ?_
    rw [hy]
    cases negative <;> cases x <;> simp [Binary64.negate]

/-- A number without a sign. The production is told the token it starts with. -/
theorem takes_unsignedScalar {v : Scalar} (h : ts ∈ number false v) {start : Token}
    (hstart : start ∈ ts.head?) : Takes n (scalarFrom start) ts rest (· = v) := by
  unfold scalarFrom
  cases v with
  | string x => cases h
  | identifier x => cases h
  | integer m =>
    obtain ⟨-, t, ⟨hk, hm⟩, rfl⟩ := h
    cases hstart
    simp only [hk]
    refine .cons (takes_advance (by simp [hk])) fun _ _ => ?_
    exact (takes_ofNumeral hm).yield fun k hk => by simp [hk]
  | real x =>
    obtain ⟨t, ⟨hk | ⟨hk, ht⟩, hx⟩, rfl⟩ := h
    · cases hstart
      simp only [hk]
      refine .cons (takes_advance (by simp [hk])) fun _ _ => ?_
      exact (takes_ofNumeral hx).yield fun y hy => by simp [hy]
    · cases hstart
      have inf : Numeral.readReal (Text.ofString "inf") = .ok (.infinite false) := by decide
      rw [ht, inf] at hx
      simp only [hk, ht, if_true]
      refine (takes_advance (by simp [hk])).yield fun _ _ => ?_
      simpa using hx

/-- A scalar. What follows it is no string, since adjacent string literals are joined. -/
theorem takes_scalarFrom {v : Scalar} (h : ts ∈ scalar v)
    (hrest : Follow (·.kind ≠ .string) rest) {start : Token} (hstart : start ∈ ts.head?) :
    Takes n (scalarFrom start) ts rest (· = v) := by
  have signed (h : ts ∈ Rendering.signedNumber v) :
      Takes n (scalarFrom start) ts rest (· = v) := by
    rcases h with ⟨us, hu | hu, vs, hv, rfl⟩ | ⟨us, hu, vs, hv, rfl⟩
    · rw [show us = [] from hu] at hstart ⊢
      exact takes_unsignedScalar hv hstart
    all_goals
      obtain ⟨t, ht, rfl⟩ := hu
      cases hstart
      unfold scalarFrom
      simp only [ht]
      exact .cons (takes_advance (by simp [ht])) fun _ _ => takes_signedNumber hv
  cases v with
  | integer m => exact signed h
  | real x => exact signed h
  | string x =>
    have hk := h.2.1 start (List.mem_of_mem_head? hstart)
    unfold scalarFrom
    simp only [hk]
    exact (takes_stringLiteral h hrest _).yield fun _ h => by rw [h]
  | identifier x =>
    obtain ⟨hx, t, ⟨hk, rfl⟩, rfl⟩ := h
    cases hstart
    unfold scalarFrom
    simp only [hk, if_neg hx]
    exact (takes_advance (by simp [hk])).yield fun _ _ => rfl

/-- A scalar as the value of an option, with its position. -/
theorem takes_scalarValue {v : ScalarValue} (h : ts ∈ Rendering.scalarValue placed v)
    (hrest : Follow (·.kind ≠ .string) rest) :
    Takes n scalarValue ts rest fun w => w.relocate nowhere = v.relocate nowhere := by
  have hne : ts ≠ [] := fun h' => nil_notMem_scalarValue placed v (h' ▸ h)
  refine .within (.current fun start _ hstart => ?_)
  rw [List.head?_append_of_ne_nil _ hne] at hstart
  exact (takes_scalarFrom h.1 hrest hstart).yield fun x hx => by
    simp [ScalarValue.relocate, hx, nowhere]

/-! ## What option values start with -/

/-- The kinds of tokens that a scalar starts with. -/
def scalarKinds : List TokenKind := [.string, .plus, .minus, .integer, .real, .identifier]

/-- A scalar starts with a sign, a number, a string or a name. -/
theorem starts_scalar {v : Scalar} (h : ts ∈ scalar v) :
    Starts (·.kind ∈ scalarKinds) ts := by
  have magnitude {v : Scalar} {us : List Token} (h : us ∈ number false v) :
      Starts (·.kind ∈ scalarKinds) us := by
    cases v with
    | integer m =>
      obtain ⟨-, t, ht, rfl⟩ := h
      simp [scalarKinds, ht.1]
    | real x =>
      obtain ⟨t, ⟨ht | ht, -⟩, rfl⟩ := h <;> simp [scalarKinds, ht]
    | string x => cases h
    | identifier x => cases h
  have signed (h : ts ∈ Rendering.signedNumber v) : Starts (·.kind ∈ scalarKinds) ts := by
    rcases h with ⟨us, hu | hu, vs, hv, rfl⟩ | ⟨us, hu, vs, hv, rfl⟩
    · rw [show us = [] from hu]
      exact magnitude hv
    all_goals
      obtain ⟨t, ht, rfl⟩ := hu
      simp [scalarKinds, ht]
  cases v with
  | integer m => exact signed h
  | real x => exact signed h
  | string x =>
    obtain ⟨t, us, rfl⟩ := List.exists_cons_of_ne_nil h.1
    simp [scalarKinds, h.2.1 t (by simp)]
  | identifier x =>
    obtain ⟨-, t, ht, rfl⟩ := h
    simp [scalarKinds, ht.1]

/-- What is in braces or angle brackets starts with the opening one. -/
theorem starts_embraced {L : Language Token} (h : ts ∈ embraced L) :
    Starts (fun t => t.kind = .leftBrace ∨ t.kind = .leftAngle) ts := by
  rcases h with ⟨_, ⟨t, ht, rfl⟩, us, -, rfl⟩ | ⟨_, ⟨t, ht, rfl⟩, us, -, rfl⟩
  · exact starts_cons.mpr (.inl ht)
  · exact starts_cons.mpr (.inr ht)

theorem starts_messageLiteral {m : MessageLiteral}
    (h : ts ∈ Rendering.messageLiteral placed m) :
    Starts (fun t => t.kind = .leftBrace ∨ t.kind = .leftAngle) ts := by
  rw [messageLiteral_eq] at h
  exact starts_embraced h.1

/-- The value of an option starts as a scalar does or as a message does. -/
theorem starts_optionValue {v : OptionValue} (h : ts ∈ Rendering.optionValue placed v) :
    Starts (·.kind ∈ .leftBrace :: .leftAngle :: scalarKinds) ts := by
  cases v with rw [Rendering.optionValue] at h
  | scalar v => exact (starts_scalar h.1).mono fun t ht => by simp [ht]
  | message m =>
    exact (starts_messageLiteral h).mono fun t ht => by rcases ht with ht | ht <;> simp [ht]

theorem starts_bracketed {L : Language Token} (h : ts ∈ Rendering.bracketed L) :
    Starts (·.kind = .leftBracket) ts := by
  obtain ⟨_, ⟨t, ht, rfl⟩, us, -, rfl⟩ := h
  exact starts_cons.mpr ht

/-- An entry of a message starts with its name, which may be in brackets. -/
theorem starts_literalEntry {e : LiteralEntry} (h : ts ∈ Rendering.literalEntry placed e) :
    Starts (fun t => t.kind = .identifier ∨ t.kind = .leftBracket) ts := by
  rw [literalEntry_eq] at h
  obtain ⟨⟨us, hu, vs, -, rfl⟩, -⟩ := h
  refine Starts.append ?_ vs
  cases hk : e.nameKind with rw [hk] at hu
  | plain =>
    obtain ⟨t, ht, rfl⟩ := hu
    exact starts_cons.mpr (.inl ht.1)
  | extension => exact (starts_bracketed hu).mono fun _ => .inr
  | typeUrl =>
    obtain ⟨host, type, -, _, ⟨t, ht, rfl⟩, us, -, rfl⟩ := hu
    exact starts_cons.mpr (.inr ht)

/-! ## Parts of messages -/

/-- Lists whose elements agree pairwise in what `f` makes of them. -/
theorem map_eq_of_forall₂ {α β : Type} {f : α → β} {as bs : List α}
    (h : List.Forall₂ (fun a b => f b = f a) as bs) : bs.map f = as.map f := by
  induction h with
  | nil => rfl
  | cons h _ ih => simp [h, ih]

/-- A choice between a message and something else, before a message. -/
theorem takes_atMessageLiteral {α : Type} {f : Bool → Parse α} {Q : α → Prop}
    (h : Starts (fun t => t.kind = .leftBrace ∨ t.kind = .leftAngle) ts)
    (hf : Takes n (f true) ts rest Q) : Takes n (atMessageLiteral >>= f) ts rest Q := by
  refine .peek peeks_atMessageLiteral (fun t _ ht => ?_) hf
  simpa using h.follow rest t ht

/-- The same choice before a token of one of the kinds that no message starts with. -/
theorem takes_atMessageLiteral_not {α : Type} {f : Bool → Parse α} {Q : α → Prop}
    {kinds : List TokenKind}
    (hk : decide (∀ k ∈ kinds, k ≠ .leftBrace ∧ k ≠ .leftAngle) = true)
    (h : Starts (·.kind ∈ kinds) ts) (hf : Takes n (f false) ts rest Q) :
    Takes n (atMessageLiteral >>= f) ts rest Q := by
  refine .peek peeks_atMessageLiteral (fun t _ ht => ?_) hf
  simpa using of_decide_eq_true hk _ (h.follow rest t ht)

/-- Elements in brackets. What follows an element is a comma or the closing bracket. -/
theorem takes_bracketed {α β : Type} {element : Parse α} {E : β → Language Token}
    {Q : β → α → Prop} {bs : List β}
    (hstart : ∀ b, ∀ us ∈ E b, Starts (·.kind ≠ .rightBracket) us)
    (hE : ∀ b ∈ bs, ∀ us ∈ E b, ∀ rest, Follow (·.kind ≠ .string) rest →
      Takes n element us rest (Q b))
    (h : ts ∈ Rendering.bracketed (listing E bs)) :
    Takes n (bracketed element) ts rest fun r => List.Forall₂ Q bs r.1 := by
  obtain ⟨_, ⟨t, ht, rfl⟩, _, ⟨us, hu, _, ⟨_, ⟨v, hv, rfl⟩, _, rfl, rfl⟩, rfl⟩, rfl⟩ := h
  show Takes n _ (t :: (us ++ [v])) rest _
  refine .cons (takes_consume ht _ rfl) fun _ _ => ?_
  have close {as : List α} (has : List.Forall₂ Q bs as) (p : Position) {m : ℕ} : Takes m
      (do
        if ← check .rightBracket then
          let _ ← advance
          return (as, p)
        else expect [.spelled ",", .spelled "]"])
      [v] rest fun r => List.Forall₂ Q bs r.1 :=
    .check (follow_cons.mpr hv) ((takes_advance (by simp [hv])).yield fun _ _ => has)
  cases bs with
  | nil =>
    rw [show us = [] from hu]
    exact .check (follow_cons.mpr hv) (close .nil _)
  | cons b bs =>
    have first : Starts (·.kind ≠ .rightBracket) us := by
      obtain ⟨vs, hv, ws, -, rfl⟩ := hu
      exact (hstart b vs hv).append ws
    refine .checkNot ((first.append [v]).follow rest)
      (Takes.bind ?_ fun as has => close has _)
    refine .separatedBy rfl (P := (·.kind ≠ .string)) (fun t ht => by simp [ht]) ?_ hu
      (by simp [hv])
    exact fun b hb us hu rest hr => (hE b hb us hu rest hr).mono (by omega) fun _ => id

section Parts

variable {message : Parse MessageLiteral}
  (hm : ∀ m, ∀ ts ∈ Rendering.messageLiteral placed m, ∀ rest,
    Takes n message ts rest fun w => w.relocate nowhere = m.relocate nowhere)

include hm

/-- The value of an option. A scalar is told from a message by its first token. -/
theorem takes_optionValueOf {v : OptionValue} (h : ts ∈ Rendering.optionValue placed v)
    (hrest : Follow (·.kind ≠ .string) rest) :
    Takes n (optionValueOf message) ts rest fun w =>
      w.relocate nowhere = v.relocate nowhere := by
  cases v with rw [Rendering.optionValue] at h
  | scalar v =>
    refine takes_atMessageLiteral_not rfl (starts_scalar h.1) ?_
    exact (takes_scalarValue h hrest).yield fun w hw => by
      simpa [OptionValue.relocate] using hw
  | message m =>
    refine takes_atMessageLiteral (starts_messageLiteral h) ?_
    exact (hm m ts h rest).yield fun w hw => by simpa [OptionValue.relocate] using hw

/-- A list of values in brackets, behind a colon. -/
theorem takes_listLiteralOf {vs : List OptionValue}
    (h : ts ∈ Rendering.bracketed (optionValues placed vs)) :
    Takes n (listLiteralOf message) ts rest fun r =>
      r.1.map (·.relocate nowhere) = vs.map (·.relocate nowhere) := by
  rw [optionValues_eq] at h
  refine .within (Takes.mono (takes_bracketed ?_ ?_ h) le_rfl fun r hr =>
    map_eq_of_forall₂ hr)
  · intro v us hu
    refine (starts_optionValue hu).mono fun t ht h => ?_
    rw [h] at ht
    exact absurd ht (by decide)
  · exact fun v _ us hu rest hr => takes_optionValueOf hm hu hr

/-- A list of messages in brackets, which needs no colon. -/
theorem takes_messageListOf {ms : List MessageLiteral}
    (h : ts ∈ Rendering.bracketed (messageLiterals placed ms)) :
    Takes n (messageListOf message) ts rest fun r =>
      r.1.map (·.relocate nowhere) = ms.map (·.relocate nowhere) := by
  rw [messageLiterals_eq] at h
  refine .within (Takes.mono (takes_bracketed ?_ ?_ h) le_rfl fun r hr =>
    map_eq_of_forall₂ hr)
  · exact fun m us hu => (starts_messageLiteral hu).mono fun t ht h => by simp [h] at ht
  · exact fun m _ us hu rest _ => hm m us hu rest

/-- A value behind its colon. -/
theorem takes_entryValueOf {v : EntryValue} {t : Token} (ht : t.kind = .colon)
    (h : t :: ts ∈ Rendering.entryValue placed v) (hrest : Follow (·.kind ≠ .string) rest) :
    Takes n (entryValueOf message) ts rest fun w =>
      w.relocate nowhere = v.relocate nowhere := by
  have notColon {P : Token → Prop} (h : Starts P (t :: ts))
      (hP : ∀ t, P t → t.kind ≠ .colon) :
      False := hP t (starts_cons.mp h) ht
  cases v with rw [Rendering.entryValue] at h
  | scalar v =>
    obtain ⟨_, ⟨u, -, rfl⟩, us, hu, h⟩ := h
    obtain ⟨rfl, rfl⟩ := List.cons.inj h
    have first := starts_scalar hu.1
    refine takes_atMessageLiteral_not rfl first (.checkNot ?_ ?_)
    · exact (first.follow rest).mono fun t ht h => absurd (h ▸ ht) (by decide)
    · exact (takes_scalarValue hu hrest).yield fun w hw => by
        simpa [EntryValue.relocate] using hw
  | message m =>
    obtain ⟨us, hu | ⟨u, -, rfl⟩, vs, hv, h⟩ := h
    · obtain rfl : vs = t :: ts := by rw [← h, show us = [] from hu]; rfl
      exact (notColon (starts_messageLiteral hv) fun t h => by
        rcases h with h | h <;> simp [h]).elim
    · obtain ⟨rfl, rfl⟩ := List.cons.inj h
      refine takes_atMessageLiteral (starts_messageLiteral hv) ?_
      exact (hm m _ hv rest).yield fun w hw => by simpa [EntryValue.relocate] using hw
  | list vs p =>
    obtain ⟨_, ⟨u, -, rfl⟩, us, hu, h⟩ := h
    obtain ⟨rfl, rfl⟩ := List.cons.inj h
    have first := starts_bracketed hu.1
    have bracket : Starts (·.kind ∈ [.leftBracket]) us := by simpa using first
    refine takes_atMessageLiteral_not rfl bracket (.check (first.follow rest) ?_)
    exact (takes_listLiteralOf hm hu.1).yield fun r hr => by
      simpa [EntryValue.relocate, nowhere] using hr
  | messages ms p => exact (notColon (starts_bracketed h.1) fun t h => by simp [h]).elim

omit hm in
/-- The name of an entry: a plain one, an extension or the URL of a type. -/
theorem takes_entryName {kind : EntryNameKind} {x : Text}
    (h : ts ∈ Rendering.entryName kind x) : Takes n entryName ts rest (· = (x, kind)) := by
  cases kind with
  | plain =>
    obtain ⟨t, ⟨hk, rfl⟩, rfl⟩ := h
    refine .acceptNot rfl (by simp [hk]) ?_
    exact (takes_consume hk _ rfl).yield fun u hu => by rw [hu]
  | extension =>
    simp only [Rendering.entryName, mem_prod_cons, mem_prod_singleton] at h
    obtain ⟨_, ⟨t, ht, rfl⟩, _, ⟨us, hu, _, ⟨v, hv, rfl⟩, rfl⟩, rfl⟩ := h
    rw [List.singleton_append]
    refine .accept rfl (by simpa using ht)
      (Takes.bind (takes_qualifiedIdentifier hu (by simp [hv]))
      fun y hy => .acceptNot rfl (by simp [hv]) ?_)
    exact (takes_consumeMark ⟨v, hv, rfl⟩ _ rfl).yield fun _ _ => by rw [hy]
  | typeUrl =>
    obtain ⟨host, type, rfl, h⟩ := h
    simp only [mem_prod_cons, mem_prod_singleton] at h
    obtain ⟨_, ⟨t, ht, rfl⟩, _,
        ⟨us, hu, _, ⟨_, ⟨u, hs, rfl⟩, _, ⟨vs, hv, _, ⟨w, hw, rfl⟩, rfl⟩, rfl⟩,
      rfl⟩, rfl⟩ := h
    simp only [List.singleton_append]
    refine .accept rfl (by simpa using ht)
      (Takes.bind (takes_qualifiedIdentifier hu (by simp [hs]))
      fun x hx => .accept rfl (by simpa using hs) ?_)
    refine Takes.bind (takes_qualifiedIdentifier hv (by simp [hw])) fun y hy => ?_
    exact (takes_consumeMark ⟨w, hw, rfl⟩ _ rfl).yield fun _ _ => by rw [hx, hy]

omit hm in
/-- A value starts with a colon, or it is one that needs none. -/
theorem entryValue_cases {v : EntryValue} (h : ts ∈ Rendering.entryValue placed v) :
    (∃ t us, ts = t :: us ∧ t.kind = .colon) ∨
      (∃ m, v = .message m ∧ ts ∈ Rendering.messageLiteral placed m) ∨
      ∃ ms p, v = .messages ms p ∧ ts ∈ Rendering.bracketed (messageLiterals placed ms) := by
  cases v with rw [Rendering.entryValue] at h
  | scalar v =>
    obtain ⟨_, ⟨t, ht, rfl⟩, us, -, rfl⟩ := h
    exact .inl ⟨t, us, rfl, ht⟩
  | message m =>
    obtain ⟨us, hu | ⟨t, ht, rfl⟩, vs, hv, rfl⟩ := h
    · rw [show us = [] from hu]
      exact .inr (.inl ⟨m, rfl, hv⟩)
    · exact .inl ⟨t, vs, rfl, ht⟩
  | list vs p =>
    obtain ⟨_, ⟨t, ht, rfl⟩, us, -, rfl⟩ := h
    exact .inl ⟨t, us, rfl, ht⟩
  | messages ms p => exact .inr (.inr ⟨ms, p, rfl, h.1⟩)

/-- An entry of a message. What is behind it is no string, which would join its value. -/
theorem takes_literalEntryOf {e : LiteralEntry} (h : ts ∈ Rendering.literalEntry placed e)
    (hrest : Follow (·.kind ≠ .string) rest) :
    Takes n (literalEntryOf message) ts rest fun w =>
      w.relocate nowhere = e.relocate nowhere := by
  rw [literalEntry_eq] at h
  obtain ⟨x, v, kind, p⟩ := e
  obtain ⟨us, hu, vs, hv, rfl⟩ := Language.mem_mul.mp h.1
  refine .within (.current fun start _ _ => Takes.bind (takes_entryName hu) fun r hr => ?_)
  rw [hr]
  have hm' : ∀ m, ∀ ts ∈ Rendering.messageLiteral placed m, ∀ rest,
      Takes (n - us.length) message ts rest fun w =>
      w.relocate nowhere = m.relocate nowhere :=
    fun m ts h rest => (hm m ts h rest).mono (by omega) fun _ => id
  rcases entryValue_cases hv with ⟨t, ws, rfl, ht⟩ | ⟨m, rfl, hm⟩ | ⟨ms, q, rfl, hms⟩
  · refine .accept rfl (by simpa using ht) ?_
    have value := takes_entryValueOf hm' ht hv hrest
    exact (value.mono (Nat.sub_le _ _) fun _ => id).yield fun w hw => by
      simp [LiteralEntry.relocate, hw, nowhere]
  · have first := starts_messageLiteral hm
    refine .acceptNot rfl
      ((first.follow rest).mono fun t h => by rcases h with h | h <;> simp [h])
      (takes_atMessageLiteral first ?_)
    exact (hm' m vs hm rest).yield fun w hw => by
      simp [LiteralEntry.relocate, EntryValue.relocate, hw, nowhere]
  · have first := starts_bracketed hms
    have bracket : Starts (·.kind ∈ [.leftBracket]) vs := by simpa using first
    refine .acceptNot rfl ((first.follow rest).mono fun t h => by simp [h])
      (takes_atMessageLiteral_not rfl bracket (.check (first.follow rest) ?_))
    exact (takes_messageListOf hm' hms).yield fun r hr => by
      simp [LiteralEntry.relocate, EntryValue.relocate, hr, nowhere]

omit hm in
/-- The token that opens a message settles the one that closes it. -/
theorem takes_openMessage {t : Token} {close : TokenKind} (h : IsBracePair t.kind close) :
    Takes n openMessage [t] rest fun r => r.1 = close := by
  rcases h with ⟨ht, rfl⟩ | ⟨ht, rfl⟩
  · exact .accept rfl (by simp [ht]) (.pure rfl)
  · exact .acceptNot rfl (by simp [ht]) (.accept rfl (by simp [ht]) (.pure rfl))

/-- An entry and what may stand behind it. What follows an entry without a separator is no
separator. -/
theorem takes_separatedEntry {e : LiteralEntry}
    (h : ts ∈ Rendering.literalEntry placed e * entrySeparator)
    (hrest : Follow (·.kind ∉ [TokenKind.comma, .semicolon, .string]) rest) :
    Takes n
      (do
        let entry ← literalEntryOf message
        let _ ← accept [.comma, .semicolon]
        return entry)
      ts rest fun w => w.relocate nowhere = e.relocate nowhere := by
  obtain ⟨us, hu, vs, hv, rfl⟩ := Language.mem_mul.mp h
  rcases hv with hv | ⟨t, ht, rfl⟩ | ⟨t, ht, rfl⟩
  · rw [show vs = [] from hv]
    refine Takes.bind (takes_literalEntryOf hm hu (hrest.mono fun t ht => by simp_all))
      fun w hw => ?_
    exact .acceptNot rfl (hrest.mono fun t ht => by simp_all) (.pure hw)
  all_goals
    refine Takes.bind (takes_literalEntryOf hm hu (by simp [ht])) fun w hw => ?_
    exact .accept rfl (by simp [ht]) (.pure hw)

/-- A message, one level above the messages inside it. -/
theorem takes_messageLiteralOf {m : MessageLiteral}
    (h : ts ∈ Rendering.messageLiteral placed m) :
    Takes (n + 1) (messageLiteralOf message) ts rest fun w =>
      w.relocate nowhere = m.relocate nowhere := by
  obtain ⟨entries, p⟩ := m
  rw [messageLiteral_eq] at h
  obtain ⟨t, us, close, rfl, pair, hu⟩ := exists_bracePair h.1
  simp only [literalEntries_eq] at hu
  refine .within (.current fun start _ _ => .cons (takes_openMessage pair) fun r hr => ?_)
  obtain ⟨r, closeMark⟩ := r
  obtain rfl : close = r := hr.symm
  have usable : close ≠ .identifier ∧ close ≠ .leftBracket ∧ close.isAskedFor = true ∧
      close ∉ [TokenKind.comma, .semicolon, .string] := by
    rcases pair with ⟨-, rfl⟩ | ⟨-, rfl⟩ <;> decide
  have starts {e : LiteralEntry} {vs : List Token}
      (hv : vs ∈ Rendering.literalEntry placed e * entrySeparator) :
      Starts (fun t => t.kind = .identifier ∨ t.kind = .leftBracket) vs := by
    obtain ⟨vs, he, ws, -, rfl⟩ := Language.mem_mul.mp hv
    exact (starts_literalEntry he).append ws
  refine Takes.until usable.2.2.1 (P := (·.kind ∉ [TokenKind.comma, .semicolon, .string]))
    (Q := fun (e w : LiteralEntry) => w.relocate nowhere = e.relocate nowhere)
    (fun t ht => ht ▸ usable.2.2.2) ?_ ?_ hu ?_
  · intro e _ vs hv
    refine (starts hv).mono fun t ht => ?_
    rcases ht with ht | ht
    · exact ⟨ht ▸ usable.1.symm, by simp [ht]⟩
    · exact ⟨ht ▸ usable.2.1.symm, by simp [ht]⟩
  · intro e _ vs hv rest hrest
    have entry := takes_separatedEntry hm hv hrest
    obtain ⟨v, vs, rfl, hk | hk⟩ := starts hv
    · exact .check (follow_cons.mpr hk) entry
    · exact .checkNot (by simp [hk]) (.check (follow_cons.mpr hk) entry)
  · intro es hes
    simpa [MessageLiteral.relocate, nowhere] using map_eq_of_forall₂ hes

end Parts

/-- A message, however deep. -/
theorem takes_messageLiteral {m : MessageLiteral}
    (h : ts ∈ Rendering.messageLiteral placed m) :
    Takes n messageLiteral ts rest fun w => w.relocate nowhere = m.relocate nowhere :=
  .recursive (Q := fun (m w : MessageLiteral) => w.relocate nowhere = m.relocate nowhere)
    (fun _ _ hq _ _ h _ => takes_messageLiteralOf hq h) h

/-! ## Options -/

/-- One part of the name of an option: a plain one, or an extension in parentheses. -/
theorem takes_optionNamePart {part : OptionNamePart}
    (h : ts ∈ Rendering.optionNamePart placed part) :
    Takes n optionNamePart ts rest fun q => q.relocate nowhere = part.relocate nowhere := by
  obtain ⟨x, isExtension, p⟩ := part
  refine .current fun start _ _ => ?_
  cases isExtension with
  | true =>
    have h := h.1
    simp only [if_true, mem_prod_cons, mem_prod_singleton] at h
    obtain ⟨_, ⟨t, ht, rfl⟩, _, ⟨us, hu, _, ⟨v, hv, rfl⟩, rfl⟩, rfl⟩ := h
    rw [List.singleton_append]
    refine .accept rfl (by simpa using ht)
      (Takes.bind (takes_typeName hu (by simp [hv])) fun y hy => ?_)
    exact (takes_consumeMark ⟨v, hv, rfl⟩ _ rfl).yield fun _ _ => by
      simp [OptionNamePart.relocate, hy, nowhere]
  | false =>
    obtain ⟨t, ⟨hk, rfl⟩, rfl⟩ := h.1
    refine .acceptNot rfl (by simp [hk]) (.check (by simp [hk]) ?_)
    exact (takes_advance (by simp [hk])).yield fun u hu => by
      simp [OptionNamePart.relocate, hu, nowhere]

/-- The name of an option: its parts with dots between them, and no dot behind. -/
theorem takes_optionName {parts : List OptionNamePart}
    (h : ts ∈ Rendering.optionName placed parts) (hrest : Follow (·.kind ≠ .dot) rest) :
    Takes n optionName ts rest fun qs =>
      qs.map (·.relocate nowhere) = parts.map (·.relocate nowhere) := by
  refine .within (Takes.mono (.separatedBy rfl (P := fun _ => True) (fun _ _ => trivial) ?_ h
    (by simpa using hrest)) le_rfl fun qs hqs => map_eq_of_forall₂ hqs)
  exact fun part _ us hu rest _ => takes_optionNamePart hu

theorem takes_optionValue {v : OptionValue} (h : ts ∈ Rendering.optionValue placed v)
    (hrest : Follow (·.kind ≠ .string) rest) :
    Takes n optionValue ts rest fun w => w.relocate nowhere = v.relocate nowhere :=
  .within (takes_optionValueOf (fun _ _ h _ => takes_messageLiteral h) h hrest)

/-- An option of a declaration, with its semicolon. -/
theorem takes_optionStatement {o : OptionStatement}
    (h : ts ∈ Rendering.optionStatement placed o) :
    Takes n optionStatement ts rest fun q => q.relocate nowhere = o.relocate nowhere := by
  have h := h.1
  simp only [mem_prod_cons, mem_prod_singleton] at h
  obtain ⟨_, ⟨t, ht, rfl⟩, _,
      ⟨us, hu, _, ⟨_, ⟨e, he, rfl⟩, _, ⟨vs, hv, _, ⟨f, hf, rfl⟩, rfl⟩, rfl⟩,
    rfl⟩, rfl⟩ := h
  simp only [List.singleton_append]
  refine .within (.cons (takes_advance (by simp [ht.1])) fun _ _ => ?_)
  refine Takes.bind (takes_optionName hu (by simp [he])) fun name hname => ?_
  refine .cons (takes_consumeMark ⟨e, he, rfl⟩ _ rfl) fun _ _ => ?_
  refine Takes.bind (takes_optionValue hv (by simp [hf])) fun value hvalue => ?_
  exact (takes_consumeMark ⟨f, hf, rfl⟩ _ rfl).yield fun _ _ => by
    simp [OptionStatement.relocate, hname, hvalue, nowhere]

/-- An option in the brackets behind a field, a value of an enumeration or a range. -/
theorem takes_compactOption {o : CompactOption} (h : ts ∈ Rendering.compactOption placed o)
    (hrest : Follow (·.kind ≠ .string) rest) :
    Takes n compactOption ts rest fun q => q.relocate nowhere = o.relocate nowhere := by
  have h := h.1
  simp only [mem_prod_cons, mem_prod_singleton] at h
  obtain ⟨us, hu, _, ⟨_, ⟨e, he, rfl⟩, vs, hv, rfl⟩, rfl⟩ := h
  simp only [List.singleton_append]
  refine .current fun start _ _ => ?_
  refine Takes.bind (takes_optionName hu (by simp [he])) fun name hname => ?_
  refine .cons (takes_consumeMark ⟨e, he, rfl⟩ _ rfl) fun _ _ => ?_
  exact (takes_optionValue hv hrest).yield fun value hvalue => by
    simp [CompactOption.relocate, hname, hvalue, nowhere]

/-- Options in brackets stop by themselves; what stands in their place is no bracket. -/
theorem takes_optionalCompactOptions {os : List CompactOption}
    (h : ts ∈ Rendering.compactOptions placed os)
    (hrest : Follow (·.kind ≠ .leftBracket) rest) :
    Takes n optionalCompactOptions ts rest fun qs =>
      qs.map (·.relocate nowhere) = os.map (·.relocate nowhere) := by
  cases os with
  | nil =>
    rw [show ts = [] from h]
    exact .checkNot hrest (.pure rfl)
  | cons o os =>
    simp only [Rendering.compactOptions, Rendering.bracketed, mem_prod_cons,
      mem_prod_singleton] at h
    obtain ⟨_, ⟨t, ht, rfl⟩, _, ⟨us, hu, _, ⟨v, hv, rfl⟩, rfl⟩, rfl⟩ := h
    simp only [List.singleton_append]
    refine .check (by simpa using ht)
      (.within (.cons (takes_consumeMark ⟨t, ht, rfl⟩ _ rfl) fun _ _ => ?_))
    have options : Takes (n - 1) (separatedBy .comma compactOption) us ([v] ++ rest) fun qs =>
        qs.map (·.relocate nowhere) = (o :: os).map (·.relocate nowhere) := by
      refine Takes.mono
        (.separatedBy rfl (P := (·.kind ≠ .string)) (fun t ht => by simp [ht]) ?_ hu
        (by simp [hv])) le_rfl fun qs hqs => map_eq_of_forall₂ hqs
      exact fun o _ us hu rest hr => takes_compactOption hu hr
    refine Takes.bind options fun qs hqs => .check (by simp [hv]) ?_
    exact (takes_advance (by simp [hv])).yield fun _ _ => hqs

/-- Options in brackets start with a bracket if there are any. -/
theorem follow_compactOptions {P : Token → Prop} {os : List CompactOption}
    (h : ts ∈ Rendering.compactOptions placed os)
    (hP : ∀ t : Token, t.kind = .leftBracket → P t) (hrest : Follow P rest) :
    Follow P (ts ++ rest) := by
  cases os with
  | nil => rwa [show ts = [] from h]
  | cons o os => exact ((starts_bracketed h).mono hP).follow rest

end ProtoSchema.Grammar
