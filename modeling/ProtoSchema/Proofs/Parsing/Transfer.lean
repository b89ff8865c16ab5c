import ProtoSchema.Proofs.Parsing.Step
import ProtoSchema.Proofs.Tree.Relocate

/-!
# What a parsing step depends on

A step is run on one list of tokens and on another that has the same tokens, up to their
positions, from where the step starts to where it stops; that is one token more than the step
takes. `Carries f p q` says that then `q` comes to the same on the second list as `p` on the
first, with what `p` yields changed by `f`. It also says that `p` moves forward, and never
past an end token.

The tokens are any with an end token ahead, well made or not. One thing is excepted: a token
that is marked as the word `stream` and is no identifier can be rejected as a method's type
for what stands behind it.
-/
namespace ProtoSchema

open Parse

variable {α β γ : Type}

/-! ## States -/

/-- There is an end token ahead. -/
def ParseState.Bounded (s : ParseState) : Prop := ∃ t ∈ s.ahead, t.kind = .endOfInput

/-- The same place in another list. -/
def ParseState.on (s : ParseState) (tokens : Array Token) : ParseState :=
  { s with tokens := tokens }

namespace ParseState

variable {s : ParseState} {t : Token} {rest : List Token}

theorem Bounded.exists_cons (h : s.Bounded) : ∃ t rest, s.ahead = t :: rest := by
  obtain ⟨t, ht, -⟩ := h
  exact List.exists_cons_of_ne_nil (List.ne_nil_of_mem ht)

theorem Bounded.past_one (h : s.Bounded) (hs : s.ahead = t :: rest)
    (ht : t.kind ≠ .endOfInput) : (s.past 1).Bounded := by
  obtain ⟨u, hu, hk⟩ := h
  rw [hs, List.mem_cons] at hu
  rcases hu with rfl | hu
  · exact absurd hk ht
  · exact ⟨u, by rwa [ahead_past_one hs], hk⟩

theorem index_lt (hs : s.ahead = t :: rest) : s.index < s.tokens.size := by
  have length := s.length_ahead
  rw [hs, List.length_cons, remaining] at length
  omega

theorem Bounded.index_lt (h : s.Bounded) : s.index < s.tokens.size := by
  obtain ⟨t, rest, ht⟩ := h.exists_cons
  exact ParseState.index_lt ht

theorem getElem?_of_ahead (hs : s.ahead = t :: rest) : s.tokens[s.index]? = some t := by
  have := congrArg (·[0]?) hs
  simpa [ahead] using this

theorem ahead_of_getElem? (h : s.tokens[s.index]? = some t) :
    ∃ rest, s.ahead = t :: rest := by
  obtain ⟨hi, rfl⟩ := Array.getElem?_eq_some_iff.mp h
  exact ⟨_, by rw [ahead, List.drop_eq_getElem_cons (by simpa using hi)]; rfl⟩

@[simp] theorem on_tokens (s : ParseState) (tokens : Array Token) :
    (s.on tokens).tokens = tokens :=
  rfl

@[simp] theorem on_index (s : ParseState) (tokens : Array Token) :
    (s.on tokens).index = s.index :=
  rfl

@[simp] theorem past_index (s : ParseState) (k : ℕ) : (s.past k).index = s.index + k := rfl

end ParseState

theorem Ended.bounded {tokens : List Token} (h : Ended tokens) :
    (ParseState.start tokens).Bounded := by
  obtain ⟨us, e, rfl, he, -⟩ := h.exists_end
  exact ⟨e, by simp, he⟩

/-! ## False marks -/

/-- Marked as the soft keyword `stream`, but no identifier, nor an end. Sources yield no such
token. -/
def Token.IsFalseStream (t : Token) : Prop :=
  t.soft = true ∧ t.text = Text.ofString "stream" ∧ t.kind ≠ .identifier ∧
    t.kind ≠ .endOfInput

theorem Ended.not_isFalseStream {tokens : List Token} (h : Ended tokens) {t : Token}
    (ht : t ∈ tokens) : ¬t.IsFalseStream := by
  rintro ⟨soft, -, hkind, -⟩
  obtain ⟨us, rest, rfl⟩ := List.append_of_mem ht
  have := h.append_cons.1.wellMade.soft_eq
  rw [soft, eq_comm, Bool.and_eq_true, decide_eq_true_eq] at this
  exact hkind this.1

/-- In the state `s`, in which a step stops that started at `start`, a falsely marked token is
rejected as the name of a type. It stands by itself in parentheses, the first of which the
step has taken. -/
structure SyntaxError.RejectsFalseStream (e : SyntaxError) (start : ℕ) (s : ParseState) :
    Prop where
  wanted : e.complaint = .expected [.typeName]
  marked : e.actual.IsFalseStream
  inside : start < s.index
  opened : ∃ t ∈ s.tokens[s.index - 1]?, t.kind = .leftParen
  closed : ∃ t ∈ s.tokens[s.index + 1]?, t.kind = .rightParen

/-- The run of a step from `start` does not end with a falsely marked token being rejected. -/
def Parse.Clean (start : ℕ) (r : Except ParseFailure α × ParseState) : Prop :=
  ∀ e, r.1 = .error (.unexpected e) → ¬e.RejectsFalseStream start r.2

section Clean

variable {start start' : ℕ} {s : ParseState}

theorem Parse.clean_ok {a : α} : Clean start (.ok a, s) := by
  rintro _ ⟨⟩

/-- A failure is what it is whatever was to be yielded. -/
theorem Parse.Clean.error {e : ParseFailure}
    (h : Clean start ((.error e, s) : Except ParseFailure α × ParseState)) :
    Clean start ((.error e, s) : Except ParseFailure β × ParseState) := by
  rintro e' ⟨⟩
  exact h e' rfl

theorem Parse.Clean.mono {r : Except ParseFailure α × ParseState} (h : Clean start r)
    (hle : start ≤ start') : Clean start' r := by
  intro e he rejects
  exact h e he { rejects with inside := Nat.lt_of_le_of_lt hle rejects.inside }

/-- The productions that are under way have no part in it. -/
theorem Parse.Clean.rules {r : Except ParseFailure α} {rules : List Rule}
    (h : Clean start (r, { s with rules := rules })) : Clean start (r, s) := by
  intro e he ⟨wanted, marked, inside, opened, closed⟩
  exact h e he ⟨wanted, marked, inside, opened, closed⟩

end Clean

/-! ## Positions -/

/-- The token at a moved position. -/
def Token.relocate (φ : Position → Position) (t : Token) : Token :=
  { t with position := φ t.position }

theorem Token.WellMade.relocate {t : Token} (h : t.WellMade) (φ : Position → Position) :
    (t.relocate φ).WellMade := by
  obtain ⟨kind, text, p, soft⟩ := t
  rw [Token.wellMade_iff] at h ⊢
  exact h

theorem Ended.relocate {tokens : List Token} (h : Ended tokens) (φ : Position → Position) :
    Ended (tokens.map (·.relocate φ)) := by
  induction h with
  | last made kind => exact .last (made.relocate φ) kind
  | cons made kind _ ih => exact .cons (made.relocate φ) kind ih

/-- The failure about the token at a moved position. -/
def ParseFailure.relocate (φ : Position → Position) : ParseFailure → ParseFailure
  | .unexpected e => .unexpected { e with actual := e.actual.relocate φ }
  | e => e

/-- There is always a token behind the next one: past the end the last token stands for
ever. -/
theorem Parse.look_one_ok {s : ParseState} (h : s.index < s.tokens.size) :
    ∃ t, look 1 s = (.ok t, s) := by
  have some : (s.tokenAt? (s.index + 1)).isSome := by
    unfold ParseState.tokenAt?
    split_ifs with h₁ h₂
    · rw [Array.back?_eq_getElem?, Option.isSome_iff_exists]
      exact ⟨_, Array.getElem?_eq_getElem (by omega)⟩
    · rw [Option.isSome_iff_exists]
      exact ⟨_, Array.getElem?_eq_getElem (by omega)⟩
    · omega
  obtain ⟨t, ht⟩ := Option.isSome_iff_exists.mp some
  exact ⟨t, by rw [look, ht]⟩

theorem Parse.look_one {s : ParseState} {t u : Token} {rest rest' : List Token}
    (ht : s.ahead = t :: rest) (hu : (s.past 1).ahead = u :: rest') :
    look 1 s = (.ok u, s) := by
  rw [ParseState.ahead_past_one ht] at hu
  exact look_eq (show s.ahead = [t] ++ u :: rest' by rw [ht, hu]; rfl)

/-! ## Transfers -/

/-- Two lists of tokens, and what becomes of a position between them. -/
structure Transfer where
  source : Array Token
  target : Array Token
  move : Position → Position

namespace Transfer

variable (w : Transfer) {i j : ℕ} {f : α → α} {g : β → β} {s : ParseState}

/-- The second list has the tokens of the first from one index to another. -/
def Agrees (i j : ℕ) : Prop :=
  ∀ k, i ≤ k → k ≤ j → w.target[k]? = w.source[k]?.map (Token.relocate w.move)

/-- What a result becomes. -/
def result (f : α → α) : Except ParseFailure α → Except ParseFailure α
  | .ok a => .ok (f a)
  | .error e => .error (e.relocate w.move)

/-- What a step came to on the first list, `r`, and on the second, `r'`. It is part of a run
that started at `start`. -/
def Along (start : ℕ) (f : α → α) (s : ParseState)
    (r r' : Except ParseFailure α × ParseState) : Prop :=
  ∃ k, r.2 = s.past k ∧ (s.past k).Bounded ∧
    (w.Agrees s.index (s.index + k) → Clean start r →
      r' = (w.result f r.1, (s.past k).on w.target))

/-- `q` comes to the same on the second list as `p` on the first. -/
def Carries (f : α → α) (p q : Parse α) : Prop :=
  ∀ s : ParseState, s.tokens = w.source → s.Bounded →
    w.Along s.index f s (p s) (q (s.on w.target))

variable {w} {start : ℕ}

theorem Agrees.mono {i' j' : ℕ} (h : w.Agrees i j) (hi : i ≤ i') (hj : j' ≤ j) :
    w.Agrees i' j' := by
  intro k hk hk'
  exact h k (by omega) (by omega)

/-- The next token of the second list. -/
theorem Agrees.ahead (h : w.Agrees i j) (hs : s.tokens = w.source) {t : Token}
    {rest : List Token} (ht : s.ahead = t :: rest) (hi : i ≤ s.index) (hj : s.index ≤ j) :
    ∃ rest', (s.on w.target).ahead = t.relocate w.move :: rest' := by
  apply ParseState.ahead_of_getElem?
  have := h s.index hi hj
  rwa [← hs, ParseState.getElem?_of_ahead ht] at this

/-- The second list goes on as far as it agrees with the first. -/
theorem Agrees.index_lt (h : w.Agrees i j) (hs : s.tokens = w.source) (hb : s.Bounded)
    (hi : i ≤ s.index) (hj : s.index ≤ j) : s.index < w.target.size := by
  obtain ⟨t, rest, ht⟩ := hb.exists_cons
  have := h s.index hi hj
  rw [← hs, ParseState.getElem?_of_ahead ht] at this
  exact (Array.getElem?_eq_some_iff.mp this).1

theorem Along.mono {start' : ℕ} {r r' : Except ParseFailure α × ParseState}
    (h : w.Along start' f s r r') (hle : start ≤ start') : w.Along start f s r r' := by
  obtain ⟨k, hk, hkb, hsame⟩ := h
  exact ⟨k, hk, hkb, fun ha clean => hsame ha (clean.mono hle)⟩

/-! ## Sequence -/

theorem Carries.pure {a b : α} (h : b = f a) : w.Carries f (pure a) (pure b) := by
  intro s hs hb
  exact ⟨0, rfl, hb, fun _ _ => by rw [h]; rfl⟩

/-- What follows a step starts in the state in which that one has stopped. -/
theorem Along.bind {p q : Parse α} {k₁ k₂ : α → Parse β}
    (h : w.Along start f s (p s) (q (s.on w.target)))
    (hk : ∀ a l, p s = (.ok a, s.past l) → (s.past l).Bounded →
      w.Along start g (s.past l) (k₁ a (s.past l)) (k₂ (f a) ((s.past l).on w.target))) :
    w.Along start g s ((p >>= k₁) s) ((q >>= k₂) (s.on w.target)) := by
  obtain ⟨l, hl, hlb, hsame⟩ := h
  rw [bind_eq, bind_eq]
  rcases hp : p s with ⟨e | a, s₁⟩ <;> rw [hp] at hl hsame <;> subst hl
  · refine ⟨l, rfl, hlb, fun ha clean => ?_⟩
    rw [hsame ha clean.error]
    rfl
  · obtain ⟨l', hl', hlb', hsame'⟩ := hk a l hp hlb
    rw [ParseState.past_past] at hl' hlb' hsame'
    refine ⟨l + l', hl', hlb', fun ha clean => ?_⟩
    rw [hsame (ha.mono (Nat.le_refl _) (by omega)) clean_ok]
    exact hsame' (ha.mono (by simp) (by simp [Nat.add_assoc])) clean

/-- A sequence depends on what its parts depend on. -/
theorem Carries.bind {p q : Parse α} {k₁ k₂ : α → Parse β} (h : w.Carries f p q)
    (hk : ∀ a, w.Carries g (k₁ a) (k₂ (f a))) : w.Carries g (p >>= k₁) (q >>= k₂) := by
  intro s hs hb
  apply (h s hs hb).bind
  intro a l _ hlb
  exact (hk a (s.past l) hs hlb).mono (Nat.le_add_right s.index l)

/-- The last of several steps. -/
theorem Carries.yield {p q : Parse α} {k₁ k₂ : α → β} (h : w.Carries f p q)
    (hk : ∀ a, k₂ (f a) = g (k₁ a)) :
    w.Carries g (p >>= fun a => Pure.pure (k₁ a)) (q >>= fun a => Pure.pure (k₂ a)) :=
  h.bind fun a => .pure (hk a)

theorem Carries.within {p q : Parse α} {rule : Rule} (h : w.Carries f p q) :
    w.Carries f (within rule p) (within rule q) := by
  intro s hs hb
  obtain ⟨k, hk, hkb, hsame⟩ := h { s with rules := rule :: s.rules } hs hb
  rcases hp : p { s with rules := rule :: s.rules } with ⟨r, s'⟩
  rw [hp] at hk hsame
  subst hk
  rw [within_eq hp]
  refine ⟨k, rfl, hkb, fun ha clean => ?_⟩
  rw [within_eq (hsame ha clean.rules)]
  rfl

/-! ## Choice -/

/-- The next token shows which steps these are. -/
theorem Along.of_next {p p' q q' : Parse α} {t : Token} {rest : List Token}
    (h : w.Along start f s (p' s) (q' (s.on w.target))) (hs : s.tokens = w.source)
    (ht : s.ahead = t :: rest) (hp : p s = p' s)
    (hq : ∀ rest', (s.on w.target).ahead = t.relocate w.move :: rest' →
      q (s.on w.target) = q' (s.on w.target)) :
    w.Along start f s (p s) (q (s.on w.target)) := by
  obtain ⟨k, hk, hkb, hsame⟩ := h
  rw [hp]
  refine ⟨k, hk, hkb, fun ha clean => ?_⟩
  obtain ⟨rest', ht'⟩ := ha.ahead hs ht (Nat.le_refl _) (by omega)
  rw [hq rest' ht']
  exact hsame ha clean

/-- Two runs that look at the next token see the same, up to its position. -/
theorem Along.peek {q : Parse γ} {g : Token → γ} (hq : Peeks q g)
    (hg : ∀ φ t, g (Token.relocate φ t) = g t) {k₁ k₂ : γ → Parse α} {t : Token}
    {rest : List Token} (hs : s.tokens = w.source) (ht : s.ahead = t :: rest)
    (h : w.Along start f s (k₁ (g t) s) (k₂ (g t) (s.on w.target))) :
    w.Along start f s ((q >>= k₁) s) ((q >>= k₂) (s.on w.target)) := by
  apply h.of_next hs ht
  · exact bind_of_ok (hq s t rest ht)
  · intro rest' ht'
    rw [bind_of_ok (hq _ _ rest' ht'), hg]

/-- The next token is looked at. -/
theorem Carries.peek {q : Parse γ} {g : Token → γ} (hq : Peeks q g)
    (hg : ∀ φ t, g (Token.relocate φ t) = g t) {k₁ k₂ : γ → Parse α}
    (hk : ∀ b, w.Carries f (k₁ b) (k₂ b)) : w.Carries f (q >>= k₁) (q >>= k₂) := by
  intro s hs hb
  obtain ⟨t, rest, ht⟩ := hb.exists_cons
  exact .peek hq hg hs ht (hk (g t) s hs hb)

theorem Carries.ite {b : Prop} [Decidable b] {p p' q q' : Parse α} (h₁ : w.Carries f p q)
    (h₂ : w.Carries f p' q') :
    w.Carries f (if b then p else p') (if b then q else q') := by
  by_cases h : b
  · rwa [if_pos h, if_pos h]
  · rwa [if_neg h, if_neg h]

theorem Carries.peek_last {q : Parse γ} {g : Token → γ} (hq : Peeks q g)
    (hg : ∀ φ t, g (Token.relocate φ t) = g t) : w.Carries id q q := by
  rw [← bind_pure q]
  exact .peek hq hg fun b => .pure rfl

/-- A test of the next token chooses between two steps. -/
theorem Carries.test {q : Parse Bool} {g : Token → Bool} (hq : Peeks q g)
    (hg : ∀ φ t, g (Token.relocate φ t) = g t) {k₁ k₂ : Bool → Parse α}
    (h₁ : w.Carries f (k₁ true) (k₂ true)) (h₂ : w.Carries f (k₁ false) (k₂ false)) :
    w.Carries f (q >>= k₁) (q >>= k₂) :=
  .peek hq hg fun b => match b with
    | true => h₁
    | false => h₂

section Tests

variable {k₁ k₂ : Bool → Parse α}

theorem Carries.check {kind : TokenKind} (h₁ : w.Carries f (k₁ true) (k₂ true))
    (h₂ : w.Carries f (k₁ false) (k₂ false)) :
    w.Carries f (check kind >>= k₁) (Parse.check kind >>= k₂) :=
  .test (peeks_check kind) (fun _ _ => rfl) h₁ h₂

theorem Carries.word {x : String} (h₁ : w.Carries f (k₁ true) (k₂ true))
    (h₂ : w.Carries f (k₁ false) (k₂ false)) :
    w.Carries f (checkWord x >>= k₁) (checkWord x >>= k₂) :=
  .test (peeks_checkWord x) (fun _ _ => rfl) h₁ h₂

theorem Carries.keyword {x : String} (h₁ : w.Carries f (k₁ true) (k₂ true))
    (h₂ : w.Carries f (k₁ false) (k₂ false)) :
    w.Carries f (checkKeyword x >>= k₁) (checkKeyword x >>= k₂) :=
  .test (peeks_checkKeyword x) (fun _ _ => rfl) h₁ h₂

theorem Carries.atEnd (h₁ : w.Carries f (k₁ true) (k₂ true))
    (h₂ : w.Carries f (k₁ false) (k₂ false)) :
    w.Carries f (atEnd >>= k₁) (Parse.atEnd >>= k₂) :=
  .test peeks_atEnd (fun _ _ => rfl) h₁ h₂

theorem Carries.atMessageLiteral (h₁ : w.Carries f (k₁ true) (k₂ true))
    (h₂ : w.Carries f (k₁ false) (k₂ false)) :
    w.Carries f (Grammar.atMessageLiteral >>= k₁) (Grammar.atMessageLiteral >>= k₂) :=
  .test peeks_atMessageLiteral (fun _ _ => rfl) h₁ h₂

end Tests

/-! ## Tokens -/

/-- The next token is handed on, with its position moved. -/
theorem Carries.current {k₁ k₂ : Token → Parse α}
    (hk : ∀ t, w.Carries f (k₁ t) (k₂ (t.relocate w.move))) :
    w.Carries f (current >>= k₁) (Parse.current >>= k₂) := by
  intro s hs hb
  obtain ⟨t, rest, ht⟩ := hb.exists_cons
  apply (hk t s hs hb).of_next hs ht
  · exact bind_of_ok (peeks_current s t rest ht)
  · exact fun rest' ht' => bind_of_ok (peeks_current _ _ rest' ht')

theorem carries_current : w.Carries (Token.relocate w.move) current current := by
  rw [← bind_pure current]
  exact .current fun t => .pure rfl

/-- A token that is taken is the one that is looked at. -/
theorem carries_advance : w.Carries (Token.relocate w.move) advance advance := by
  intro s hs hb
  obtain ⟨t, rest, ht⟩ := hb.exists_cons
  by_cases h : t.kind = .endOfInput
  · rw [advance_end ht h]
    refine ⟨0, rfl, hb, fun ha _ => ?_⟩
    obtain ⟨rest', ht'⟩ := ha.ahead hs ht (Nat.le_refl _) (by omega)
    rw [advance_end ht' h]
    rfl
  · rw [advance_eq ht h]
    refine ⟨1, rfl, hb.past_one ht h, fun ha _ => ?_⟩
    obtain ⟨rest', ht'⟩ := ha.ahead hs ht (Nat.le_refl _) (by omega)
    rw [advance_eq ht' h]
    rfl

/-- A complaint names the next token, and the rule that is open. -/
theorem carries_reject (complaint : Complaint) :
    w.Carries f (reject complaint) (reject complaint) := by
  intro s hs hb
  obtain ⟨t, rest, ht⟩ := hb.exists_cons
  rw [reject_eq ht]
  refine ⟨0, rfl, hb, fun ha _ => ?_⟩
  obtain ⟨rest', ht'⟩ := ha.ahead hs ht (Nat.le_refl _) (by omega)
  rw [reject_eq ht']
  rfl

theorem carries_accept (kinds : List TokenKind) :
    w.Carries id (accept kinds) (accept kinds) := by
  induction kinds with
  | nil => exact .pure rfl
  | cons kind kinds ih =>
    apply Carries.check
    · exact carries_advance.bind fun t => .pure rfl
    · exact ih

theorem Carries.accept {kinds : List TokenKind} {k₁ k₂ : Bool → Parse α}
    (h₁ : w.Carries f (k₁ true) (k₂ true)) (h₂ : w.Carries f (k₁ false) (k₂ false)) :
    w.Carries f (accept kinds >>= k₁) (Parse.accept kinds >>= k₂) :=
  (carries_accept kinds).bind fun b => match b with
    | true => h₁
    | false => h₂

theorem carries_consume (kind : TokenKind) (wanted : Expectation) :
    w.Carries (Token.relocate w.move) (consume kind wanted) (consume kind wanted) :=
  .check carries_advance (carries_reject _)

theorem carries_consumeMark (kind : TokenKind) (x : String) :
    w.Carries id (consumeMark kind x) (consumeMark kind x) :=
  (carries_consume kind _).bind fun _ => .pure rfl

theorem carries_consumeWord (x : String) :
    w.Carries (Token.relocate w.move) (consumeWord x) (consumeWord x) :=
  .word carries_advance (carries_reject _)

theorem carries_consumeName (wanted : Expectation) :
    w.Carries id (consumeName wanted) (consumeName wanted) :=
  .current fun _ => .ite (carries_reject _) (carries_advance.yield fun _ => rfl)

theorem carries_ofNumeral (r : Except NumeralError α) :
    w.Carries id (ofNumeral r) (ofNumeral r) := by
  intro s hs hb
  refine ⟨0, rfl, hb, fun _ _ => ?_⟩
  cases r <;> rfl

/-! ## A second token

Two productions look at the token behind the next one. Whatever they find there, they take the
next one, so what they depend on is still no more than one token behind those that they take.
-/

/-- The step carries over, and takes the next token where that is as `P` says. -/
structure Enters (w : Transfer) (P : Token → Prop) (f : α → α) (p q : Parse α) : Prop where
  carries : w.Carries f p q
  enters : ∀ s t rest, s.tokens = w.source → s.Bounded → s.ahead = t :: rest → P t →
    s.index < (p s).2.index

variable {P : Token → Prop}

/-- A step that starts behind the next token stops behind it. -/
theorem Carries.index_lt {p q : Parse α} (h : w.Carries f p q) (hs : s.tokens = w.source)
    (hb : (s.past 1).Bounded) : s.index < (p (s.past 1)).2.index := by
  obtain ⟨k, hk, -⟩ := h (s.past 1) hs hb
  rw [hk, ParseState.past_past, ParseState.past_index]
  omega

theorem Enters.bind {p q : Parse α} {k₁ k₂ : α → Parse β} (h : w.Enters P f p q)
    (hk : ∀ a, w.Carries g (k₁ a) (k₂ (f a))) : w.Enters P g (p >>= k₁) (q >>= k₂) where
  carries := h.carries.bind hk
  enters s t rest hs hb ht hP := by
    obtain ⟨l, hl, hlb, -⟩ := h.carries s hs hb
    have lt := h.enters s t rest hs hb ht hP
    rw [bind_eq]
    rcases hp : p s with ⟨e | a, s₁⟩ <;> rw [hp] at hl lt <;> subst hl
    · exact lt
    · obtain ⟨l', hl', -⟩ := hk a (s.past l) hs hlb
      dsimp only at lt hl' ⊢
      rw [hl', ParseState.past_index]
      omega

theorem Enters.yield {p q : Parse α} {k₁ k₂ : α → β} (h : w.Enters P f p q)
    (hk : ∀ a, k₂ (f a) = g (k₁ a)) :
    w.Enters P g (p >>= fun a => Pure.pure (k₁ a)) (q >>= fun a => Pure.pure (k₂ a)) :=
  h.bind fun a => .pure (hk a)

theorem Enters.within {p q : Parse α} {rule : Rule} (h : w.Enters P f p q) :
    w.Enters P f (within rule p) (Parse.within rule q) where
  carries := h.carries.within
  enters s t rest hs hb ht hP := by
    have lt := h.enters { s with rules := rule :: s.rules } t rest hs hb ht hP
    rcases hp : p { s with rules := rule :: s.rules } with ⟨r, s'⟩
    rw [hp] at lt
    rw [within_eq hp]
    exact lt

/-- The next token is looked at, and what it shows is known where it is as `P` says. -/
theorem Enters.peek {q : Parse γ} {g : Token → γ} (hq : Peeks q g) {b : γ}
    (hb : ∀ t, P t → g t = b) {k₁ k₂ : γ → Parse α} (h : w.Carries f (q >>= k₁) (q >>= k₂))
    (hk : w.Enters P f (k₁ b) (k₂ b)) :
    w.Enters P f (q >>= k₁) (q >>= k₂) where
  carries := h
  enters s t rest hs hb' ht hP := by
    rw [bind_of_ok (hq s t rest ht), hb t hP]
    exact hk.enters s t rest hs hb' ht hP

theorem Enters.check {kind : TokenKind} {k₁ k₂ : Bool → Parse α}
    (h₁ : w.Enters (fun t => P t ∧ t.kind = kind) f (k₁ true) (k₂ true))
    (h₂ : w.Enters (fun t => P t ∧ t.kind ≠ kind) f (k₁ false) (k₂ false)) :
    w.Enters P f (check kind >>= k₁) (Parse.check kind >>= k₂) where
  carries := .check h₁.carries h₂.carries
  enters s t rest hs hb ht hP := by
    have found : Parse.check kind s = (.ok (decide (t.kind = kind)), s) :=
      peeks_check kind s t rest ht
    rw [bind_of_ok found]
    by_cases hk : t.kind = kind
    · rw [decide_eq_true hk]
      exact h₁.enters s t rest hs hb ht ⟨hP, hk⟩
    · rw [decide_eq_false hk]
      exact h₂.enters s t rest hs hb ht ⟨hP, hk⟩

/-- A token is taken at once, or the other branch takes one. -/
theorem Enters.accept {kinds : List TokenKind} (hkinds : .endOfInput ∉ kinds)
    {k₁ k₂ : Bool → Parse α} (h₁ : w.Carries f (k₁ true) (k₂ true))
    (h₂ : w.Enters (fun t => P t ∧ t.kind ∉ kinds) f (k₁ false) (k₂ false)) :
    w.Enters P f (accept kinds >>= k₁) (Parse.accept kinds >>= k₂) where
  carries := .accept h₁ h₂.carries
  enters s t rest hs hb ht hP := by
    have run := accept_eq ht hkinds
    by_cases hk : t.kind ∈ kinds
    · rw [if_pos hk] at run
      rw [bind_of_ok run]
      exact h₁.index_lt hs (hb.past_one ht fun he => hkinds (he ▸ hk))
    · rw [if_neg hk] at run
      rw [bind_of_ok run]
      exact h₂.enters s t rest hs hb ht ⟨hP, hk⟩

/-- Nothing is said of tokens that there are not. -/
theorem Carries.enters_of_not {p q : Parse α} (h : w.Carries f p q) (hP : ∀ t, ¬P t) :
    w.Enters P f p q where
  carries := h
  enters _ t _ _ _ _ ht := absurd ht (hP t)

theorem enters_advance (hP : ∀ t, P t → t.kind ≠ .endOfInput) :
    w.Enters P (Token.relocate w.move) advance advance where
  carries := carries_advance
  enters s t rest hs hb ht h := by
    rw [advance_eq ht (hP t h)]
    exact Nat.lt_succ_self s.index

/-- The token behind the next one is looked at, and the next one is taken. -/
theorem Along.look {l₁ l₂ : Token → Parse α} {t u : Token} {rest : List Token}
    (hs : s.tokens = w.source) (hb : s.Bounded) (ht : s.ahead = t :: u :: rest)
    (hstart : start ≤ s.index) (h : w.Carries f (l₁ u) (l₂ (u.relocate w.move)))
    (moves : Clean start (l₁ u s) → s.index < (l₁ u s).2.index) :
    w.Along start f s ((look 1 >>= l₁) s) ((look 1 >>= l₂) (s.on w.target)) := by
  obtain ⟨k, hk, hkb, hsame⟩ := h s hs hb
  have hu : (s.past 1).ahead = u :: rest := ParseState.ahead_past_one ht
  rw [bind_of_ok (look_one ht hu)]
  refine ⟨k, hk, hkb, fun ha clean => ?_⟩
  have lt := moves clean
  rw [hk, ParseState.past_index] at lt
  obtain ⟨rest₁, ht'⟩ := ha.ahead hs ht (Nat.le_refl _) (by omega)
  -- The step moves on, so the second token is among those on which the lists agree.
  obtain ⟨rest₂, hu'⟩ := ha.ahead (s := s.past 1) hs hu (by simp) (by simp; omega)
  rw [bind_of_ok (look_one ht' hu')]
  exact hsame ha (clean.mono hstart)

/-- A test of the next token decides whether the one behind it is looked at. -/
theorem Carries.lookBehind {q : Parse Bool} {g : Token → Bool} (hq : Peeks q g)
    (hg : ∀ φ t, g (Token.relocate φ t) = g t) (hP : ∀ t, g t = true → P t)
    (hend : ∀ t, P t → t.kind ≠ .endOfInput) {k₁ k₂ : Bool → Parse α}
    {l₁ l₂ : Token → Parse α} (e₁ : k₁ true = look 1 >>= l₁) (e₂ : k₂ true = look 1 >>= l₂)
    (h₁ : ∀ t, w.Enters P f (l₁ t) (l₂ (t.relocate w.move)))
    (h₂ : w.Carries f (k₁ false) (k₂ false)) : w.Carries f (q >>= k₁) (q >>= k₂) := by
  intro s hs hb
  obtain ⟨t, rest, ht⟩ := hb.exists_cons
  apply Along.peek hq hg hs ht
  cases hgt : g t with
  | false => exact h₂ s hs hb
  | true =>
    have hPt := hP t hgt
    obtain ⟨u, rest', hu⟩ := (hb.past_one ht (hend t hPt)).exists_cons
    rw [ParseState.ahead_past_one ht] at hu
    subst hu
    rw [e₁, e₂]
    apply Along.look hs hb ht (Nat.le_refl _) (h₁ u).carries
    exact fun _ => (h₁ u).enters s t _ hs hb ht hPt

/-! ## Repetition -/

/-- A step that is run only where fewer tokens are left. -/
def fewer (s : ParseState) (p : Parse α) : Parse α := fun t =>
  if t.remaining < s.remaining then p t else (.error .endless, t)

/-- Both runs come to an end at the same places. -/
theorem Carries.fewer {p q : Parse α} (hs : s.tokens = w.source)
    (h : ∀ t : ParseState, t.tokens = w.source → t.Bounded → t.remaining < s.remaining →
      w.Along t.index f t (p t) (q (t.on w.target))) :
    w.Carries f (fewer s p) (fewer (s.on w.target) q) := by
  intro t ht hb
  have lt := hb.index_lt
  by_cases hr : t.remaining < s.remaining
  · obtain ⟨k, hk, hkb, hsame⟩ := h t ht hb hr
    rw [Transfer.fewer, if_pos hr]
    refine ⟨k, hk, hkb, fun ha clean => ?_⟩
    have := ha.index_lt ht hb (Nat.le_refl _) (by omega)
    rw [Transfer.fewer, if_pos, hsame ha clean]
    simp only [ParseState.remaining, ParseState.on_tokens, ParseState.on_index,
      ht, hs] at hr ⊢
    omega
  · rw [Transfer.fewer, if_neg hr]
    refine ⟨0, rfl, hb, fun ha _ => ?_⟩
    rw [Transfer.fewer, if_neg]
    · rfl
    · simp only [ParseState.remaining, ParseState.on_tokens, ParseState.on_index, ht, hs]
        at hr lt ⊢
      omega

/-- A step that uses itself where fewer tokens are left. -/
theorem Carries.recursive {step : Parse α → Parse α}
    (h : ∀ p q, w.Carries f p q → w.Carries f (step p) (step q)) :
    w.Carries f (recursive step) (Parse.recursive step) := by
  intro s hs hb
  induction hr : s.remaining using Nat.strongRecOn generalizing s with | ind n ih
  rw [recursive_eq, recursive_eq]
  apply h (Transfer.fewer s _) (Transfer.fewer (s.on w.target) _) _ s hs hb
  apply Carries.fewer hs
  intro t ht htb hlt
  exact ih _ (hr ▸ hlt) t ht htb rfl

theorem whileMore_eq (more : Parse Bool) (p : Parse α) (s : ParseState) :
    whileMore more p s = (more >>= fun b => if b then p >>= fun a =>
      fewer s (whileMore more p) >>= fun as => Pure.pure (a :: as) else Pure.pure []) s := by
  rw [whileMore, bind_eq]
  rcases more s with ⟨e | b, s₁⟩
  · rfl
  cases b with
  | false => rfl
  | true =>
    rcases hp : p s₁ with ⟨e | a, s₂⟩
    · simp [bind_eq, hp]
    by_cases h : s₂.remaining < s.remaining
    · rcases hw : whileMore more p s₂ with ⟨e | as, s₃⟩ <;>
        simp [bind_eq, fewer, hp, hw, h, pure_eq]
    · simp [bind_eq, fewer, hp, h]

/-- A loop. The induction is on the tokens left, since a step that takes none ends the run. -/
theorem Carries.whileMore {more more' : Parse Bool} {p q : Parse α}
    (hmore : w.Carries id more more') (h : w.Carries f p q) :
    w.Carries (List.map f) (whileMore more p) (Parse.whileMore more' q) := by
  intro s hs hb
  induction hr : s.remaining using Nat.strongRecOn generalizing s with | ind n ih
  rw [whileMore_eq, whileMore_eq]
  have again : w.Carries (List.map f) (Transfer.fewer s (Parse.whileMore more p))
      (Transfer.fewer (s.on w.target) (Parse.whileMore more' q)) := by
    apply Carries.fewer hs
    intro t ht htb hlt
    exact ih _ (hr ▸ hlt) t ht htb rfl
  refine (Carries.bind hmore fun b => ?_) s hs hb
  apply Carries.ite
  · apply h.bind
    intro a
    exact again.yield fun as => rfl
  · exact .pure rfl

theorem Carries.separatedBy {separator : TokenKind} {p q : Parse α} (h : w.Carries f p q) :
    w.Carries (List.map f) (separatedBy separator p) (Parse.separatedBy separator q) := by
  apply h.bind
  intro a
  apply Carries.yield (f := List.map f)
  · exact .whileMore (carries_accept _) h
  · exact fun as => rfl

/-! ## The same positions

Where no position changes, nothing that is read does, so two lists with the same tokens are
read alike. -/

theorem agrees_same {source target : Array Token}
    (h : ∀ k, i ≤ k → k ≤ j → target[k]? = source[k]?) : Agrees ⟨source, target, id⟩ i j := by
  intro k hi hj
  rw [h k hi hj]
  exact (congrFun Option.map_id _).symm

/-- A list stands for itself. -/
theorem Carries.stays {p : Parse α} (h : Carries ⟨s.tokens, s.tokens, id⟩ f p p)
    (hb : s.Bounded) (clean : Clean s.index (p s)) :
    result ⟨s.tokens, s.tokens, id⟩ f (p s).1 = (p s).1 := by
  obtain ⟨k, -, -, same⟩ := h s rfl hb
  exact (congrArg Prod.fst (same (agrees_same fun _ _ _ => rfl) clean)).symm

/-- A step comes to the same on another list with the same tokens from where it starts to
where it stops. -/
theorem Carries.run_on {p : Parse α} (h : ∀ target, Carries ⟨s.tokens, target, id⟩ f p p)
    (hb : s.Bounded) (clean : Clean s.index (p s)) {tokens : Array Token}
    (same : ∀ i, s.index ≤ i → i ≤ (p s).2.index → tokens[i]? = s.tokens[i]?) :
    p (s.on tokens) = ((p s).1, (p s).2.on tokens) := by
  obtain ⟨k, hk, -, run⟩ := h tokens s rfl hb
  rw [hk] at same ⊢
  rw [run (agrees_same same) clean]
  exact Prod.ext ((h s.tokens).stays hb clean) rfl

end Transfer

end ProtoSchema
