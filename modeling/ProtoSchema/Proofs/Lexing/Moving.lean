import Mathlib.Logic.Basic
import ProtoSchema.Proofs.Lexing.Order
import ProtoSchema.Source.Lexer

/-!
# How calls move a cursor

A call moves the cursor forward character by character, from where it stands or from behind a
byte order mark that a stream passes over, and the positions it gives are those of places the
cursor could move to.
-/
namespace ProtoSchema

variable {α : Type} {c d : Cursor}

/-! ## Cursors -/

namespace Cursor

theorem advanceBy_advanceBy (m n : ℕ) (c : Cursor) :
    (c.advanceBy m).advanceBy n = c.advanceBy (m + n) := by
  induction m generalizing c with
  | zero => rw [Nat.zero_add]; rfl
  | succ m ih => rw [Nat.add_right_comm, advanceBy, ih]; rfl

theorem behind_advanceBy (n : ℕ) (c : Cursor) :
    (c.advanceBy n).behind.reverse = c.behind.reverse ++ c.ahead.take n := by
  have whole : (c.advanceBy n).behind.reverse ++ c.ahead.drop n =
      c.behind.reverse ++ c.ahead.take n ++ c.ahead.drop n := by
    rw [List.append_assoc, List.take_append_drop, ← ahead_advanceBy]
    exact source_advanceBy n c
  exact List.append_cancel_right whole

/-- The position is that of a place the cursor can move to. -/
def Meets (c : Cursor) (p : Position) : Prop := ∃ n, p = (c.advanceBy n).position

/-- The first cursor moves forward to the second. -/
def MovesTo (c d : Cursor) : Prop := ∃ n, d = c.advanceBy n

theorem MovesTo.refl (c : Cursor) : c.MovesTo c := ⟨0, rfl⟩

theorem MovesTo.trans {e : Cursor} (h : c.MovesTo d) (h' : d.MovesTo e) : c.MovesTo e := by
  obtain ⟨m, rfl⟩ := h
  obtain ⟨n, rfl⟩ := h'
  exact ⟨m + n, advanceBy_advanceBy m n c⟩

/-- A place that is met later on is met from here. -/
theorem MovesTo.meets (h : c.MovesTo d) {p : Position} (hp : d.Meets p) : c.Meets p := by
  obtain ⟨m, rfl⟩ := h
  obtain ⟨n, rfl⟩ := hp
  exact ⟨m + n, by rw [advanceBy_advanceBy]⟩

/-- A reader that succeeds or fails moves forward. -/
theorem movesTo_perform (c : Cursor) (read : List Char → Reading α) :
    c.MovesTo (c.perform read).2 := ⟨_, rfl⟩

/-- A failure is placed where the cursor is, or where it would come to. -/
theorem meets_perform {read : List Char → Reading α} {e : LexicalError}
    (h : c.perform read = (.error e, d)) : c.Meets e.position := by
  unfold perform at h
  rcases hr : (read c.ahead).outcome with m | a <;> simp only [hr] at h
  · obtain rfl := Except.error.inj (Prod.mk.inj h).1
    exact ⟨m.offset, rfl⟩
  · cases h

/-- A token is read, or a fault found, on the way. -/
theorem token_moves (c : Cursor) : c.MovesTo c.token.2 ∧
    (∀ e, c.token.1 = .error e → c.Meets e.position) ∧
    ∀ t, c.token.1 = .ok t → c.Meets t.position := by
  have first := c.movesTo_perform Trivia.read
  unfold token
  rcases hr : c.perform Trivia.read with ⟨e | ⟨⟩, d⟩ <;> rw [hr] at first
  · refine ⟨first, ?_, nofun⟩
    rintro _ ⟨⟩
    exact meets_perform hr
  have second := d.movesTo_perform Lexeme.read
  rcases hl : d.perform Lexeme.read with ⟨e | ⟨kind, text⟩, e'⟩ <;> rw [hl] at second <;>
    simp only [hl]
  · refine ⟨first.trans second, ?_, nofun⟩
    rintro _ ⟨⟩
    exact first.meets (meets_perform hl)
  · refine ⟨first.trans second, nofun, ?_⟩
    rintro _ ⟨⟩
    exact first.meets ⟨0, rfl⟩

/-- A stream run to its end reads its tokens on the way. -/
theorem drain_moves (c : Cursor) : c.MovesTo c.drain.cursor ∧
    (∀ e ∈ c.drain.failure, c.Meets e.position) ∧ ∀ t ∈ c.drain.tokens,
    c.Meets t.position := by
  induction hn : c.ahead.length using Nat.strongRecOn generalizing c with | ind n ih
  obtain ⟨moves, fault, read⟩ := c.token_moves
  rcases ht : c.token with ⟨e | t, d⟩ <;> rw [ht] at moves fault read
  · rw [Lexicon.drain_error ht]
    exact ⟨moves, fun _ he => fault _ (by rw [Option.mem_some.mp he]), nofun⟩
  by_cases hk : t.kind = .endOfInput
  · rw [Lexicon.drain_end ht hk]
    exact ⟨moves, nofun, List.forall_mem_singleton.mpr (read t rfl)⟩
  · obtain ⟨moves', fault', read'⟩ := ih _ (hn ▸ length_ahead_token ht hk) d rfl
    rw [Lexicon.drain_token ht hk]
    refine ⟨moves.trans moves', fun e he => moves.meets (fault' e he), ?_⟩
    exact List.forall_mem_cons.mpr ⟨read t rfl, fun u hu => moves.meets (read' u hu)⟩

end Cursor

/-! ## Calls -/

/-- A stream that has not ended reads a token, the first one behind a byte order mark. -/
theorem TokenStream.next_of_ne {s : TokenStream} (h : s ≠ .ended) (c : Cursor) : s.next c =
    match (if s = .unstarted then c.skipMark else c).token with
    | (.error e, d) => (.error (.faulty e), .ended, d)
    | (.ok t, d) => (.ok t, if t.kind = .endOfInput then .ended else .running, d) := by
  cases s with
  | ended => exact absurd rfl h
  | _ => rfl

namespace SourceSession

/-- A reading that is no token's moves the cursor on. -/
theorem perform_moves (s : SourceSession) (read : List Char → Reading α)
    (reply : α → SourceReply) : s.cursor.MovesTo (s.perform read reply).2.cursor := by
  have moves := s.cursor.movesTo_perform read
  unfold perform
  rcases hr : s.cursor.perform read with ⟨e | a, d⟩ <;> rwa [hr] at moves

/-- What is no token's has no position of a stream. -/
theorem positions_perform (s : SourceSession) (read : List Char → Reading α)
    (reply : α → SourceReply) {c : SourceCall} (hc : c ≠ .next ∧ c ≠ .tokenize)
    (h : ∀ a, c.positions (.ok (reply a)) = []) :
    c.positions (s.perform read reply).1 = [] := by
  unfold perform
  rcases s.cursor.perform read with ⟨e | a, d⟩
  · simp [SourceCall.positions, hc]
  · exact h a

theorem hexDigits_moves (s : SourceSession) (count : Int) (place : Position) :
    s.cursor.MovesTo (s.hexDigits count place).2.cursor := by
  unfold hexDigits
  split_ifs
  · exact .refl _
  · exact ⟨_, rfl⟩

theorem positions_hexDigits (s : SourceSession) (count : Int) (place place' : Position) :
    (SourceCall.hexDigits count place').positions (s.hexDigits count place).1 = [] := by
  unfold hexDigits
  split_ifs
  · rfl
  · dsimp only
    cases (Escape.hexNumber count.toNat s.cursor.ahead).outcome <;>
      simp [SourceCall.positions]

theorem positions_codePoint (value : Int) (place place' : Position) :
    (SourceCall.codePoint value place').positions (codePoint value place) = [] := by
  unfold codePoint
  split_ifs
  · rfl
  · cases Escape.codePoint value.toNat <;> simp [SourceCall.positions]

/-- A stream that is run to its end moves the cursor on, and what it gives stands on the
way. -/
theorem tokenize_moves (s : SourceSession) :
    s.cursor.skipMark.MovesTo (s.call .tokenize).2.cursor ∧
      ∀ p ∈ SourceCall.tokenize.positions (s.call .tokenize).1,
      s.cursor.skipMark.Meets p := by
  obtain ⟨moves, fault, read⟩ := s.cursor.skipMark.drain_moves
  refine ⟨moves, fun p hp => ?_⟩
  rcases hf : s.cursor.skipMark.drain.failure with _ | e
  · have reply : (s.call .tokenize).1 = .ok (.tokens s.cursor.skipMark.drain.tokens) := by
      simp [call, Cursor.tokens, hf]
    rw [reply] at hp
    obtain ⟨t, ht, rfl⟩ := List.mem_map.mp hp
    exact read t ht
  · have reply : (s.call .tokenize).1 = .error (.lexical e) := by
      simp [call, Cursor.tokens, hf]
    rw [reply] at hp
    obtain rfl := List.mem_singleton.mp hp
    exact fault e hf

/-- The next token of a stream moves the cursor on, and stands on the way. -/
theorem next_moves (s : SourceSession) :
    (s.entry .next).MovesTo (s.call .next).2.cursor ∧
      ∀ p ∈ SourceCall.next.positions (s.call .next).1, (s.entry .next).Meets p := by
  obtain ⟨moves, fault, read⟩ := (s.entry .next).token_moves
  by_cases hs : s.stream = .ended
  · have stay : s.call .next = (.error .exhausted, s) := by
      obtain ⟨c, _⟩ := s
      subst hs
      rfl
    have entry : s.entry .next = s.cursor := by simp [SourceSession.entry, hs]
    rw [stay, entry]
    exact ⟨.refl _, nofun⟩
  · rcases ht : (s.entry .next).token with ⟨e | t, d⟩ <;> rw [ht] at moves fault read <;>
      rw [entry] at ht
    · have next : s.call .next = (.error (.lexical e), ⟨d, .ended⟩) := by
        rw [call, TokenStream.next_of_ne hs, ht]
      rw [next]
      exact ⟨moves, List.forall_mem_singleton.mpr (fault e rfl)⟩
    · have next : s.call .next =
          (.ok (.token t), ⟨d, if t.kind = .endOfInput then .ended else .running⟩) := by
        rw [call, TokenStream.next_of_ne hs, ht]
      rw [next]
      exact ⟨moves, List.forall_mem_singleton.mpr (read t rfl)⟩

/-- A call moves the cursor on from where it begins to read, and a stream gives positions on
the way. -/
theorem call_moves (s : SourceSession) (c : SourceCall) :
    (s.entry c).MovesTo (s.call c).2.cursor ∧
      ∀ p ∈ c.positions (s.call c).1, (s.entry c).Meets p := by
  have silent {r : Except SourceFailure SourceReply} (h : c.positions r = []) :
      ∀ p ∈ c.positions r, (s.entry c).Meets p := by
    rw [h]
    nofun
  cases c with
  | atEnd => exact ⟨.refl _, nofun⟩
  | look d =>
    have h : (s.call (.look d)).2 = s ∧
        (SourceCall.look d).positions (s.call (.look d)).1 = [] := by
      rcases hl : s.cursor.look d with _ | c <;> simp [call, hl, SourceCall.positions]
    rw [h.1]
    exact ⟨.refl _, silent h.2⟩
  | advance => exact ⟨⟨1, rfl⟩, nofun⟩
  | skipLineComment | identifier | number => exact ⟨⟨_, rfl⟩, nofun⟩
  | skipBlockComment | skipTrivia | string | escape =>
    exact ⟨s.perform_moves _ _, silent (s.positions_perform _ _ (by simp) fun _ => rfl)⟩
  | hexDigits count place =>
    exact ⟨s.hexDigits_moves count place, silent (s.positions_hexDigits count place place)⟩
  | codePoint value place => exact ⟨.refl _, silent (positions_codePoint value place place)⟩
  | restart => exact ⟨.refl _, nofun⟩
  | tokenize => exact s.tokenize_moves
  | next => exact s.next_moves

end SourceSession

end ProtoSchema
