import Mathlib.Data.Nat.Basic
import ProtoSchema.Proofs.Parsing.Transfer

/-!
# Steps that get on

`Advances pre n c p` says of a step what it comes to where an end token is ahead, the next
token satisfies `pre` and at most `n` tokens are left. It yields behind at least `c` of them,
or it fails at a token or at a number; either way the end token is still ahead. So a loop
comes round only where tokens have been taken, and so does a production that uses itself. The
tokens are any, well made or not.
-/
namespace ProtoSchema.Parse

variable {α β γ : Type} {n m c d : ℕ} {pre : Token → Prop}

/-- What a step comes to that gets on from a state. -/
def Onward (c : ℕ) (s : ParseState) (r : Except ParseFailure α × ParseState) : Prop :=
  ∃ k, (s.past k).Bounded ∧ ((∃ a, r = (.ok a, s.past k) ∧ c ≤ k) ∨
    ∃ e, r = (.error e, s.past k) ∧ e ≠ .endless ∧ e ≠ .noToken)

/-- To have gone on by some tokens is to have gone on by fewer. -/
theorem Onward.mono {s : ParseState} {r : Except ParseFailure α × ParseState}
    (h : Onward c s r) (hd : d ≤ c) : Onward d s r := by
  obtain ⟨k, hk, ⟨a, ha, hc⟩ | failed⟩ := h
  · exact ⟨k, hk, .inl ⟨a, ha, Nat.le_trans hd hc⟩⟩
  · exact ⟨k, hk, .inr failed⟩

/-- Going on behind some tokens. -/
theorem Onward.behind {s : ParseState} {k : ℕ} {r : Except ParseFailure α × ParseState}
    (h : Onward c (s.past k) r) : Onward (k + c) s r := by
  obtain ⟨m, hm, ⟨a, ha, hc⟩ | ⟨e, he, fine⟩⟩ := h
  · rw [ParseState.past_past] at hm ha
    exact ⟨k + m, hm, .inl ⟨a, ha, by omega⟩⟩
  · rw [ParseState.past_past] at hm he
    exact ⟨k + m, hm, .inr ⟨e, he, fine⟩⟩

/-- Where the next token is as `pre` says and at most `n` tokens are left, the step goes on by
`c` tokens at least if it yields something, and it does end. -/
def Advances (pre : Token → Prop) (n c : ℕ) (p : Parse α) : Prop :=
  ∀ s : ParseState, s.Bounded → s.remaining ≤ n → (∀ t ∈ s.ahead.head?, pre t) →
    Onward c s (p s)

/-- The condition may be strengthened, the tokens left and those taken may be fewer. -/
theorem Advances.mono {pre' : Token → Prop} {p : Parse α} (h : Advances pre n c p)
    (hpre : ∀ t, pre' t → pre t) (hm : m ≤ n) (hd : d ≤ c) : Advances pre' m d p :=
  fun s hs hle hpre' => (h s hs (Nat.le_trans hle hm) fun t ht => hpre t (hpre' t ht)).mono hd

/-- What gets on everywhere does so where fewer tokens are left. -/
theorem Advances.less {p : Parse α} (h : Advances (fun _ => True) n c p) (hm : m ≤ n) :
    Advances pre m c p := h.mono (fun _ _ => trivial) hm le_rfl

theorem Advances.forget {p : Parse α} (h : Advances pre n c p) : Advances pre n 0 p :=
  h.mono (fun _ => id) le_rfl (Nat.zero_le c)

/-- Where the next token is known. -/
theorem Advances.onward {p : Parse α} (h : Advances pre n c p) {s : ParseState}
    (hs : s.Bounded) (hle : s.remaining ≤ n) {t : Token} {rest : List Token}
    (ht : s.ahead = t :: rest) (hpre : pre t) :
    Onward c s (p s) := by
  refine h s hs hle fun u hu => ?_
  rw [ht] at hu
  obtain rfl := Option.some.inj hu
  exact hpre

/-! ## Sequence -/

/-- To yield something takes no token. -/
theorem Advances.pure (a : α) : Advances pre n 0 (pure a) :=
  fun _ hs _ _ => ⟨0, hs, .inl ⟨a, rfl, le_rfl⟩⟩

/-- The second step has to take the tokens that the first did not take. -/
theorem Advances.bind {p : Parse α} {F : α → Parse β} (h : Advances pre n d p)
    (hF : ∀ a, Advances (fun _ => True) (n - d) (c - d) (F a)) :
    Advances pre n c (p >>= F) := by
  intro s hs hle hpre
  obtain ⟨k, hk, ⟨a, ha, hc⟩ | ⟨e, he, fine⟩⟩ := h s hs hle hpre
  · have hrest : (s.past k).remaining ≤ n - d := by
      simp only [ParseState.remaining, ParseState.past] at hle ⊢
      omega
    rw [bind_of_ok ha]
    exact (hF a (s.past k) hk hrest fun _ _ => trivial).behind.mono (by omega)
  · exact ⟨k, hk, .inr ⟨e, bind_of_error he, fine⟩⟩

/-- The last of several steps. -/
theorem Advances.yield {p : Parse α} {f : α → β} (h : Advances pre n c p) :
    Advances pre n c (p >>= fun a => Pure.pure (f a)) :=
  h.bind fun a =>
    (Advances.pure (f a)).mono (fun _ => id) le_rfl (Nat.le_of_eq (Nat.sub_self c))

theorem Advances.map {p : Parse α} {f : α → β} (h : Advances pre n c p) :
    Advances pre n c (f <$> p) := h.yield

/-- Rules under way have no bearing on how far a step goes. -/
theorem Advances.within {p : Parse α} {rule : Rule} (h : Advances pre n c p) :
    Advances pre n c (within rule p) := by
  intro s hs hle hpre
  obtain ⟨k, hk, ⟨a, ha, hc⟩ | ⟨e, he, fine⟩⟩ :=
    h { s with rules := rule :: s.rules } hs hle hpre
  · exact ⟨k, hk, .inl ⟨a, within_eq ha, hc⟩⟩
  · exact ⟨k, hk, .inr ⟨e, within_eq he, fine⟩⟩

theorem advances_ofNumeral (r : Except NumeralError α) : Advances pre n 0 (ofNumeral r) := by
  intro s hs _ _
  refine ⟨0, hs, ?_⟩
  cases r with
  | ok a => exact .inl ⟨a, rfl, le_rfl⟩
  | error e => exact .inr ⟨.numeral e, rfl, nofun, nofun⟩

/-! ## Choice -/

/-- The next token is looked at. -/
theorem Advances.peek {q : Parse γ} {look : Token → γ} {F : γ → Parse α} (hq : Peeks q look)
    (h : ∀ b, Advances (fun t => pre t ∧ look t = b) n c (F b)) :
    Advances pre n c (q >>= F) := by
  intro s hs hle hpre
  obtain ⟨t, rest, ht⟩ := hs.exists_cons
  have known : pre t := hpre t (by rw [ht]; rfl)
  rw [bind_of_ok (hq s t rest ht)]
  exact (h (look t)).onward hs hle ht ⟨known, rfl⟩

/-- The next token is looked at as a whole. -/
theorem Advances.current {F : Token → Parse α} (h : ∀ t, Advances (· = t) n c (F t)) :
    Advances pre n c (current >>= F) :=
  .peek peeks_current fun t => (h t).mono (fun _ hu => hu.2) le_rfl le_rfl

/-- A test of the next token chooses between two steps. -/
theorem Advances.test {q : Parse Bool} {look : Token → Bool} {F : Bool → Parse α}
    (hq : Peeks q look) (ht : Advances (fun t => pre t ∧ look t = true) n c (F true))
    (hf : Advances pre n c (F false)) : Advances pre n c (q >>= F) :=
  .peek hq fun b => match b with
    | true => ht
    | false => hf.mono (fun _ h => h.1) le_rfl le_rfl

/-- A choice goes on by as much as both its branches do. -/
theorem Advances.ite {b : Prop} [Decidable b] {p q : Parse α} (hp : b → Advances pre n c p)
    (hq : ¬b → Advances pre n c q) : Advances pre n c (if b then p else q) := by
  split_ifs with h
  · exact hp h
  · exact hq h

/-- A step that fails has not gone round without taking a token. -/
theorem advances_reject (complaint : Complaint) :
    Advances pre n c (reject complaint : Parse α) := by
  intro s hs _ _
  obtain ⟨t, rest, ht⟩ := hs.exists_cons
  exact ⟨0, hs, .inr ⟨_, reject_eq ht complaint, nofun, nofun⟩⟩

/-- Nothing comes after a token is rejected. -/
theorem Advances.reject {complaint : Complaint} {F : α → Parse β} :
    Advances pre n c (reject complaint >>= F) := by
  intro s hs _ _
  obtain ⟨t, rest, ht⟩ := hs.exists_cons
  exact ⟨0, hs, .inr ⟨_, bind_of_error (reject_eq ht complaint), nofun, nofun⟩⟩

/-! ## Tokens -/

/-- A token that is not the end is taken. -/
theorem advances_advance_some (hpre : ∀ t, pre t → t.kind ≠ .endOfInput) :
    Advances pre n 1 advance := by
  intro s hs _ hpre'
  obtain ⟨t, rest, ht⟩ := hs.exists_cons
  have hk : t.kind ≠ .endOfInput := hpre t (hpre' t (by rw [ht]; rfl))
  exact ⟨1, hs.past_one ht hk, .inl ⟨t, advance_eq ht hk, le_rfl⟩⟩

/-- An end token stays where it is. -/
theorem advances_advance : Advances pre n 0 advance := by
  intro s hs hle _
  obtain ⟨t, rest, ht⟩ := hs.exists_cons
  by_cases hk : t.kind = .endOfInput
  · exact ⟨0, hs, .inl ⟨t, advance_end ht hk, le_rfl⟩⟩
  · have some : Advances (· = t) n 1 advance := advances_advance_some fun _ h => h ▸ hk
    exact (some.onward hs hle ht rfl).mono (Nat.zero_le 1)

/-- To take a token of a kind is to go on by one. -/
theorem advances_consume {kind : TokenKind} (hk : kind ≠ .endOfInput) (wanted : Expectation) :
    Advances pre n 1 (consume kind wanted) := by
  refine .test (peeks_check kind) (advances_advance_some fun t ht => ?_) (advances_reject _)
  rw [of_decide_eq_true ht.2]
  exact hk

theorem advances_consumeMark {kind : TokenKind} (hk : kind ≠ .endOfInput) (mark : String) :
    Advances pre n 1 (consumeMark kind mark) := (advances_consume hk _).yield

/-- The mark at the end of a production, which has taken a token before it. -/
theorem advances_mark {kind : TokenKind} {mark : String} {a : α} (hk : kind ≠ .endOfInput) :
    Advances pre n 0 (do
      consumeMark kind mark
      return a) := (advances_consumeMark hk mark).bind fun _ => .pure a

/-- A token that is spelled as a word is not the end. -/
theorem ne_end_of_isWord {t : Token} {w : String}
    (h : (t.kind = .identifier && t.text = Text.ofString w) = true) :
    t.kind ≠ .endOfInput := by
  rw [of_decide_eq_true (Bool.and_eq_true_iff.mp h).1]
  nofun

theorem advances_consumeWord (w : String) : Advances pre n 1 (consumeWord w) :=
  .test (peeks_checkWord w) (advances_advance_some fun _ ht => ne_end_of_isWord ht.2)
    (advances_reject _)

theorem advances_consumeName (wanted : Expectation) :
    Advances pre n 1 (consumeName wanted) := by
  refine .current fun t => .ite (fun _ => advances_reject _) fun h => ?_
  have hk : t.kind = .identifier := by
    by_contra hk
    simp [hk] at h
  exact (advances_advance_some fun u hu => by rw [hu, hk]; nofun).yield

/-- A token of some kinds is taken or not. -/
theorem Advances.accept {kinds : List TokenKind} {F : Bool → Parse α}
    (hk : .endOfInput ∉ kinds) (ht : Advances (fun _ => True) (n - 1) (c - 1) (F true))
    (hf : Advances pre n c (F false)) : Advances pre n c (accept kinds >>= F) := by
  intro s hs hle hpre
  obtain ⟨t, rest, ht'⟩ := hs.exists_cons
  have taken := accept_eq ht' hk
  by_cases hmem : t.kind ∈ kinds
  · have hless := ParseState.remaining_past_one ht'
    have hs' : (s.past 1).Bounded := hs.past_one ht' fun h => hk (h ▸ hmem)
    rw [if_pos hmem] at taken
    rw [bind_of_ok taken]
    exact (ht (s.past 1) hs' (by omega) fun _ _ => trivial).behind.mono (by omega)
  · rw [if_neg hmem] at taken
    rw [bind_of_ok taken]
    exact hf s hs hle hpre

/-- The next token may be taken or not. -/
theorem advances_accept {kinds : List TokenKind} (hk : .endOfInput ∉ kinds) :
    Advances pre n 0 (accept kinds) := by
  rw [← bind_pure (Parse.accept kinds)]
  exact .accept hk (.pure true) (.pure false)

/-- There is always a second token: past the end the last one stands for ever. -/
theorem advances_look_one : Advances pre n 0 (look 1) := by
  intro s hs _ _
  obtain ⟨t, ht⟩ := look_one_ok hs.index_lt
  exact ⟨0, hs, .inl ⟨t, ht, le_rfl⟩⟩

/-! ## Repetition -/

/-- A loop whose rounds take something. -/
theorem Advances.rounds {more : Parse Bool} {p : Parse α}
    (h : ∀ s : ParseState, s.Bounded → s.remaining ≤ n → more s = (.ok false, s) ∨
      ∃ b, more s = (.ok true, s.past b) ∧ Onward 1 s (p (s.past b))) :
    Advances pre n 0 (whileMore more p) := by
  intro s hs hle hpre
  clear hpre
  induction hr : s.remaining using Nat.strongRecOn generalizing s with | ind m ih
  rw [whileMore]
  rcases h s hs hle with hm | ⟨b, hm, k, hk, ⟨a, ha, hc⟩ | ⟨e, he, fine⟩⟩
  · rw [hm]
    exact ⟨0, hs, .inl ⟨[], rfl, le_rfl⟩⟩
  · have hless : (s.past k).remaining < s.remaining := by
      have := hs.index_lt
      simp only [ParseState.remaining, ParseState.past] at this ⊢
      omega
    rw [hm]
    simp only [ha, dif_pos hless]
    obtain ⟨l, hl, ⟨as, has, -⟩ | ⟨e, he, fine⟩⟩ :=
      (ih _ (hr ▸ hless) (s.past k) hk (Nat.le_trans (Nat.le_of_lt hless) hle) rfl).behind
    · exact ⟨l, hl, .inl ⟨a :: as, by rw [has], Nat.zero_le l⟩⟩
    · exact ⟨l, hl, .inr ⟨e, by rw [he], fine⟩⟩
  · rw [hm]
    simp only [he]
    exact ⟨k, hk, .inr ⟨e, rfl, fine⟩⟩

/-- Elements as long as the next token is so. -/
theorem Advances.whileMore {more : Parse Bool} {look : Token → Bool} {p : Parse α}
    (hmore : Peeks more look) (h : Advances (look · = true) n 1 p) :
    Advances pre n 0 (whileMore more p) := by
  refine .rounds fun s hs hle => ?_
  obtain ⟨t, rest, ht⟩ := hs.exists_cons
  rw [hmore s t rest ht]
  cases hl : look t with
  | false => exact .inl rfl
  | true => exact .inr ⟨0, rfl, h.onward hs hle ht hl⟩

/-- Elements with separators between them. -/
theorem Advances.separatedBy {separator : TokenKind} {p : Parse α}
    (hk : separator ≠ .endOfInput) (h : Advances (fun _ => True) n 1 p) :
    Advances pre n 1 (separatedBy separator p) := by
  have notEnd : .endOfInput ∉ [separator] := by simpa using hk.symm
  have more :
      Advances (fun _ => True) (n - 1) 0 (Parse.whileMore (Parse.accept [separator]) p) := by
    refine .rounds fun s hs hle => ?_
    obtain ⟨t, rest, ht⟩ := hs.exists_cons
    have taken := accept_eq ht notEnd
    by_cases hmem : t.kind ∈ [separator]
    · have hs' : (s.past 1).Bounded := hs.past_one ht fun h => notEnd (h ▸ hmem)
      have hless := ParseState.remaining_past_one ht
      rw [if_pos hmem] at taken
      exact .inr
        ⟨1, taken, (h (s.past 1) hs' (by omega) fun _ _ => trivial).behind.mono (by omega)⟩
    · rw [if_neg hmem] at taken
      exact .inl taken
  exact (h.less le_rfl).bind fun a => more.yield

/-- A production that uses itself where tokens have been taken. -/
theorem Advances.recursive {step : Parse α → Parse α}
    (h : ∀ m p, Advances (fun _ => True) m c p →
      Advances (fun _ => True) (m + 1) c (step p)) :
    Advances pre n c (recursive step) := by
  intro s hs hle hpre
  clear hpre hle
  induction hr : s.remaining using Nat.strongRecOn generalizing s with | ind m ih
  have hpos : 0 < s.remaining := Nat.sub_pos_of_lt hs.index_lt
  rw [recursive_eq]
  refine h (m - 1) _ (fun u hu hle _ => ?_) s hs (by omega) fun _ _ => trivial
  rw [if_pos (by omega)]
  exact ih u.remaining (by omega) u hu rfl

end ProtoSchema.Parse
