import ProtoSchema.Proofs.Parsing.State
import ProtoSchema.Grammar.Message

/-!
# Single parsing steps

What the steps that look at the next token and those that take it do to a state that has a
token ahead, as equations.
-/
namespace ProtoSchema.Parse

variable {α β : Type}

theorem bind_eq (p : Parse α) (f : α → Parse β) (s : ParseState) :
    (p >>= f) s = match p s with
      | (.ok a, s) => f a s
      | (.error e, s) => (.error e, s) := rfl

/-- Behind a step that yields something, the next one goes on from there. -/
theorem bind_of_ok {p : Parse α} {f : α → Parse β} {s s' : ParseState} {a : α}
    (h : p s = (.ok a, s')) : (p >>= f) s = f a s' := by
  rw [bind_eq, h]

/-- Behind a step that fails nothing is done. -/
theorem bind_of_error {p : Parse α} {f : α → Parse β} {s s' : ParseState} {e : ParseFailure}
    (h : p s = (.error e, s')) : (p >>= f) s = (.error e, s') := by
  rw [bind_eq, h]

/-- A sequence that yields something has both its parts yield. -/
theorem bind_ok {p : Parse α} {f : α → Parse β} {s s' : ParseState} {b : β}
    (h : (p >>= f) s = (.ok b, s')) : ∃ a t, p s = (.ok a, t) ∧ f a t = (.ok b, s') := by
  rw [bind_eq] at h
  rcases hp : p s with ⟨e | a, t⟩ <;> rw [hp] at h
  · simp at h
  · exact ⟨a, t, rfl, h⟩

theorem pure_eq (a : α) (s : ParseState) : (pure a : Parse α) s = (.ok a, s) := rfl

theorem bind_pure (p : Parse α) : p >>= pure = p := by
  funext s
  rw [bind_eq]
  rcases p s with ⟨_ | _, _⟩ <;> rfl

/-- The step looks at the next token and leaves it there. -/
def Peeks (q : Parse β) (g : Token → β) : Prop :=
  ∀ (s : ParseState) (t : Token) (rest : List Token), s.ahead = t :: rest →
    q s = (.ok (g t), s)

/-- What is made of a look at the next token is a look too. -/
theorem Peeks.bind_pure {q : Parse β} {g : Token → β} (h : Peeks q g) (f : β → α) :
    Peeks (q >>= fun b => pure (f b)) fun t => f (g t) := by
  intro s t rest hs
  rw [bind_of_ok (h s t rest hs), pure_eq]

/-- A test that only looks takes no token when it succeeds. -/
theorem Peeks.eq_ite {q : Parse Bool} {g : Token → Bool} (h : Peeks q g)
    {s : ParseState} {t : Token} {rest : List Token} (hs : s.ahead = t :: rest) :
    q s = if g t then (.ok true, s.past 0) else (.ok false, s) := by
  rw [h s t rest hs]
  cases g t <;> rfl

/-- To look at a token ahead takes nothing. -/
theorem look_eq {s : ParseState} {us rest : List Token} {t : Token}
    (h : s.ahead = us ++ t :: rest) : look us.length s = (.ok t, s) := by
  rw [look, ParseState.tokenAt?_add h]

theorem look_ok {s s' : ParseState} {d : Int} {t : Token} (h : look d s = (.ok t, s')) :
    s' = s := by
  unfold look at h
  split at h
  · exact (Prod.mk.inj h).2.symm
  · simp at h

theorem atEnd_ok {s s' : ParseState} {b : Bool} (h : atEnd s = (.ok b, s')) : s' = s := by
  obtain ⟨t, s₁, ht, h⟩ := bind_ok h
  rw [← look_ok ht]
  exact (Prod.mk.inj h).2.symm

theorem peeks_current : Peeks current id := fun s t rest hs =>
  look_eq (show s.ahead = [] ++ t :: rest from hs)

theorem peeks_check (kind : TokenKind) : Peeks (check kind) fun t => decide (t.kind = kind) :=
  peeks_current.bind_pure _

/-- The test for a word looks at kind and text. -/
theorem peeks_checkWord (w : String) :
    Peeks (checkWord w) fun t => t.kind = .identifier && t.text = Text.ofString w :=
  peeks_current.bind_pure _

/-- The test for a soft keyword looks at the mark and the text, whatever the kind. -/
theorem peeks_checkKeyword (w : String) :
    Peeks (checkKeyword w) fun t => t.soft && t.text = Text.ofString w :=
  peeks_current.bind_pure _

theorem peeks_atEnd : Peeks atEnd fun t => decide (t.kind = .endOfInput) :=
  peeks_current.bind_pure _

/-- A message literal starts with either of two brackets. -/
theorem peeks_atMessageLiteral : Peeks Grammar.atMessageLiteral fun t =>
    t.kind = .leftBrace || t.kind = .leftAngle := by
  intro s t rest hs
  rw [Grammar.atMessageLiteral, bind_of_ok (peeks_check _ s t rest hs)]
  by_cases h : t.kind = .leftBrace
  · simp [h, pure_eq]
  · simp [h, peeks_check _ s t rest hs]

/-- The next token is rejected, and the rule that is named is the innermost one. -/
theorem reject_eq {s : ParseState} {t : Token} {rest : List Token} (hs : s.ahead = t :: rest)
    (complaint : Complaint) : (reject complaint : Parse α) s =
      (.error (.unexpected ⟨complaint, s.rules.head?, t⟩), s) :=
  bind_of_ok (peeks_current s t rest hs)

/-- Any token but the end is taken. -/
theorem advance_eq {s : ParseState} {t : Token} {rest : List Token} (hs : s.ahead = t :: rest)
    (ht : t.kind ≠ .endOfInput) : advance s = (.ok t, s.past 1) := by
  rw [advance, bind_of_ok (peeks_current s t rest hs)]
  simp [ht, ParseState.past]

/-- An end token stays where it is. -/
theorem advance_end {s : ParseState} {t : Token} {rest : List Token}
    (hs : s.ahead = t :: rest) (ht : t.kind = .endOfInput) : advance s = (.ok t, s) := by
  rw [advance, bind_of_ok (peeks_current s t rest hs)]
  simp [ht, pure_eq]

/-- One token of the kinds is taken, or nothing is. -/
theorem accept_eq {s : ParseState} {t : Token} {rest : List Token} (hs : s.ahead = t :: rest)
    {kinds : List TokenKind} (hk : .endOfInput ∉ kinds) : accept kinds s =
      if t.kind ∈ kinds then (.ok true, s.past 1) else (.ok false, s) := by
  induction kinds with
  | nil => rfl
  | cons kind kinds ih =>
    rw [accept, bind_of_ok (peeks_check kind s t rest hs)]
    by_cases h : t.kind = kind
    · have ht : t.kind ≠ .endOfInput := by
        rintro he
        exact hk (by simp [← h, he])
      simp [h, bind_of_ok (advance_eq hs ht), pure_eq]
    · simpa [h] using ih (by simp_all)

/-- A token of the kind that is asked for is taken. -/
theorem consume_eq {s : ParseState} {t : Token} {rest : List Token} (hs : s.ahead = t :: rest)
    {kind : TokenKind} (ht : t.kind = kind) (hk : kind ≠ .endOfInput) (wanted : Expectation) :
    consume kind wanted s = (.ok t, s.past 1) := by
  rw [consume, bind_of_ok (peeks_check kind s t rest hs)]
  simp [ht, advance_eq hs (ht ▸ hk)]

/-- If a mark is taken, it was the next token. -/
theorem consumeMark_ok {s s' : ParseState} {t : Token} {rest : List Token}
    (hs : s.ahead = t :: rest) {kind : TokenKind} (hk : kind ≠ .endOfInput) {mark : String}
    (h : consumeMark kind mark s = (.ok (), s')) : t.kind = kind ∧ s' = s.past 1 := by
  obtain ⟨u, s₁, taken, last⟩ := bind_ok h
  obtain ⟨-, rfl⟩ := Prod.mk.inj last
  by_cases ht : t.kind = kind
  · rw [consume_eq hs ht hk] at taken
    exact ⟨ht, (Prod.mk.inj taken).2.symm⟩
  · have other : check kind s = (.ok false, s) := by
      simpa [ht] using peeks_check kind s t rest hs
    rw [consume, bind_of_ok other, if_neg Bool.false_ne_true, expect, reject_eq hs] at taken
    cases (Prod.mk.inj taken).1

/-- What is read within a rule is read with that rule as the innermost. -/
theorem within_eq {s s' : ParseState} {p : Parse α} {rule : Rule} {r : Except ParseFailure α}
    (h : p { s with rules := rule :: s.rules } = (r, s')) :
    within rule p s = (r, { s' with rules := s'.rules.tail }) := by
  rw [within, h]

/-- A recursive step, opened once: it may come to itself only where fewer tokens are left. -/
theorem recursive_eq (step : Parse α → Parse α) (s : ParseState) : recursive step s =
    step (fun t => if t.remaining < s.remaining then recursive step t
      else (.error .endless, t)) s := by
  rw [recursive]

/-- A loop whose test fails at once yields nothing. -/
theorem whileMore_stop {more : Parse Bool} {s s' : ParseState} (h : more s = (.ok false, s'))
    (element : Parse α) (k : List α → Parse β) :
    (whileMore more element >>= k) s = k [] s' := by
  rw [bind_eq, whileMore, h]

/-- A loop that goes round with fewer tokens left reads an element and goes on behind it. -/
theorem whileMore_step {more : Parse Bool} {element : Parse α} {s s₁ : ParseState}
    (h : more s = (.ok true, s₁))
    (hlt : ∀ a s₂, element s₁ = (.ok a, s₂) → s₂.remaining < s.remaining)
    (k : List α → Parse β) : (whileMore more element >>= k) s =
      (element >>= fun a => whileMore more element >>= fun as => k (a :: as)) s₁ := by
  rw [bind_eq, bind_eq, whileMore, h]
  rcases he : element s₁ with ⟨e | a, s₂⟩
  · simp only [he]
  · simp only [he, dif_pos (hlt a s₂ he), bind_eq]
    rcases whileMore more element s₂ with ⟨e | as, s₃⟩ <;> rfl

/-- A loop that yields something has come to a place where its test fails. -/
theorem whileMore_ok {more : Parse Bool} {element : Parse α} {s s' : ParseState} {as : List α}
    (h : whileMore more element s = (.ok as, s')) : ∃ t, more t = (.ok false, s') := by
  induction hr : s.remaining using Nat.strongRecOn generalizing s as with | ind n ih
  rw [whileMore] at h
  rcases hm : more s with ⟨e | b, s₁⟩ <;> rw [hm] at h
  · simp at h
  cases b with
  | false =>
    obtain ⟨-, rfl⟩ := Prod.mk.inj h
    exact ⟨s, hm⟩
  | true =>
    rcases he : element s₁ with ⟨e | a, s₂⟩ <;> simp only [he] at h
    · simp at h
    split at h
    · rename_i hlt
      rcases hw : whileMore more element s₂ with ⟨e | as, s₃⟩ <;> simp only [hw] at h
      · simp at h
      · obtain ⟨-, rfl⟩ := Prod.mk.inj h
        exact ih _ (hr ▸ hlt) hw rfl
    · simp at h

/-- The test for a word, as a decision. -/
theorem checkWord_eq {s : ParseState} {t : Token} {rest : List Token}
    (hs : s.ahead = t :: rest) (w : String) :
    checkWord w s = (.ok (decide (t.IsWord w)), s) := by
  rw [peeks_checkWord w s t rest hs]
  dsimp only
  rw [← Bool.decide_and]
  rfl

/-- Do the tokens start with `map <`? -/
def startsMapField : List Token → Prop
  | t :: u :: _ => t.IsWord "map" ∧ u.kind = .leftAngle
  | _ => False

/-- Whether a map field starts is told by two tokens. -/
theorem atMapField_eq {s : ParseState} (hs : Ended s.ahead)
    [Decidable (startsMapField s.ahead)] :
    Grammar.atMapField s = (.ok (decide (startsMapField s.ahead)), s) := by
  obtain ⟨t, rest, ht⟩ := List.exists_cons_of_ne_nil hs.ne_nil
  rw [Grammar.atMapField, bind_of_ok (checkWord_eq ht "map")]
  by_cases hw : t.IsWord "map"
  · rw [ht] at hs
    obtain ⟨u, rest, rfl⟩ := List.exists_cons_of_ne_nil (hs.tail (by simp [hw.1])).ne_nil
    have next : look 1 s = (.ok u, s) := look_eq (show s.ahead = [t] ++ u :: rest from ht)
    simp only [hw, decide_true, if_true]
    rw [bind_of_ok next, pure_eq]
    simp [ht, startsMapField, hw]
  · simp only [hw, decide_false, Bool.false_eq_true, if_false, pure_eq]
    cases rest <;> simp [ht, startsMapField, hw]

/-- In well-made tokens a cardinality is told by its word. -/
theorem cardinality?_eq {t : Token} (h : t.WellMade) {c : Cardinality} :
    Grammar.cardinality? t = some c ↔ t.IsWord c.word := by
  have mem : c.word ∈ Token.softKeywords := by cases c <;> decide
  rw [← h.keyword_iff mem, Grammar.cardinality?]
  cases hs : t.soft
  · simp
  · simp only [Bool.true_and, decide_eq_true_eq, ite_true, Cardinality.ofText?]
    constructor
    · intro hc
      simpa [eq_comm] using List.find?_some hc
    · intro hc
      rw [hc]
      cases c <;> decide

end ProtoSchema.Parse
