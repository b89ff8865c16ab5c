import ProtoSchema.Proofs.Lexing.Moving

/-!
# Places in a source

Line and column of a lexer are those of the place it has come to, after any calls; so are
those that its streams give. Only a byte order mark that a stream passes over takes no column.
-/
namespace ProtoSchema

open Lexicon

/-- Line and column behind the first `n` characters of a source. A byte order mark that is
skipped is not counted in its line. -/
def placeBehind (source : List Char) (skipped : Bool) (n : ℕ) : Position where
  line := 1 + (source.take n).count '\n'
  column := 1 + ((source.take n).reverse.takeWhile (· ≠ '\n')).length -
    if skipped ∧ '\n' ∉ source.take n then 1 else 0

/-- What a stream has passed over at the start of a source. -/
def skippedMark (skipped : Bool) : List Char := if skipped then ['\uFEFF'] else []

variable {source : List Char} {skipped : Bool}

/-- A skipped mark is no part of the text that is counted. -/
theorem positionAfter_eq_placeBehind (skipped : Bool) (before rest : List Char) :
    positionAfter before = placeBehind (skippedMark skipped ++ before ++ rest) skipped
      (skippedMark skipped ++ before).length := by
  unfold positionAfter placeBehind
  rw [List.take_left]
  cases skipped with
  | false => simp [skippedMark]
  | true =>
    -- The mark is the last character from behind, and counted if no newline is met before it.
    have reverse : (skippedMark true ++ before).reverse = before.reverse ++ ['\uFEFF'] := by
      simp [skippedMark]
    have whole : (before.reverse.takeWhile (· ≠ '\n')).length = before.reverse.length ↔
        '\n' ∉ before := by
      rw [← List.mem_reverse]
      constructor
      · intro h hn
        have all := List.takeWhile_eq_self_iff.mp
          ((List.takeWhile_prefix (· ≠ '\n')).eq_of_length h)
        simpa using all _ hn
      · intro hn
        rw [List.takeWhile_eq_self_iff.mpr]
        exact fun c hc => decide_eq_true fun h => hn (h ▸ hc)
    rw [reverse, List.takeWhile_append]
    by_cases hn : '\n' ∈ before
    · rw [if_neg (by rwa [whole, not_not])]
      simp [skippedMark, hn]
    · rw [if_pos (whole.mpr hn), whole.mpr hn]
      simp [skippedMark, hn, Nat.add_comm]

namespace Cursor

/-- The cursor stands at a place of the source, behind what has been skipped at its start. -/
structure Stands (source : List Char) (skipped : Bool) (c : Cursor) : Prop where
  source_eq : c.source = source
  exists_before : ∃ before, c.behind.reverse = skippedMark skipped ++ before ∧
    c.position = positionAfter before

variable {c d : Cursor}

theorem stands_start (source : List Char) : (start source).Stands source false :=
  ⟨rfl, [], rfl, rfl⟩

theorem Stands.offset_le (h : c.Stands source skipped) : c.offset ≤ source.length := by
  rw [← h.source_eq, Cursor.source, List.length_append, List.length_reverse]
  exact Nat.le_add_right _ _

theorem Stands.position_eq (h : c.Stands source skipped) :
    c.position = placeBehind source skipped c.offset := by
  obtain ⟨before, hbehind, hposition⟩ := h.exists_before
  rw [hposition, positionAfter_eq_placeBehind skipped before c.ahead, ← hbehind,
    List.length_reverse, ← h.source_eq]
  rfl

theorem Stands.moves (h : c.Stands source skipped) (hd : c.MovesTo d) :
    d.Stands source skipped ∧ c.offset ≤ d.offset := by
  obtain ⟨n, rfl⟩ := hd
  obtain ⟨before, hbehind, hposition⟩ := h.exists_before
  have behind := behind_advanceBy n c
  refine ⟨⟨?_, before ++ c.ahead.take n, ?_, position_advanceBy hposition n⟩, ?_⟩
  · rw [source_advanceBy, h.source_eq]
  · rw [behind, hbehind, List.append_assoc]
  · have := congrArg List.length behind
    simp only [List.length_reverse, List.length_append] at this
    unfold offset
    omega

theorem Stands.meets (h : c.Stands source skipped) {p : Position} (hp : c.Meets p) :
    ∃ n ≤ source.length, p = placeBehind source skipped n := by
  obtain ⟨n, rfl⟩ := hp
  have there := (h.moves ⟨n, rfl⟩).1
  exact ⟨_, there.offset_le, there.position_eq⟩

/-- A byte order mark can be skipped at the start only. -/
theorem Stands.skipMark (h : c.Stands source skipped) :
    c.skipMark.Stands source (skipped || decide (c.skipMark ≠ c)) ∧
    c.offset ≤ c.skipMark.offset := by
  obtain ⟨hsource, before, hbehind, hposition⟩ := h
  unfold Cursor.skipMark
  split
  · next rest hnil hahead =>
    -- Nothing has been skipped, since nothing is behind.
    rw [hnil, List.reverse_nil] at hbehind
    obtain ⟨hmark, rfl⟩ := List.append_eq_nil_iff.mp hbehind.symm
    have moved : decide ((⟨['\uFEFF'], rest, c.position⟩ : Cursor) ≠ c) = true := by
      refine decide_eq_true fun h => ?_
      rw [← h] at hnil
      cases hnil
    rw [moved, Bool.or_true]
    refine ⟨⟨?_, [], rfl, hposition⟩, ?_⟩
    · rw [← hsource, Cursor.source, Cursor.source, hnil, hahead]
      rfl
    · rw [offset, hnil]
      exact Nat.zero_le _
  · rw [decide_eq_false (by simp), Bool.or_false]
    exact ⟨⟨hsource, before, hbehind, hposition⟩, Nat.le_refl _⟩

end Cursor

namespace Lexer

variable {s : Lexer}

/-- A call moves the cursor forward in the source, and its streams give positions in the
source. -/
theorem stands_call (h : s.cursor.Stands source skipped) (i : ℕ) (c : SourceCall) :
    (s.call i c).2.cursor.Stands source (skipped || s.skips i c) ∧
      s.cursor.offset ≤ (s.call i c).2.cursor.offset ∧
      ∀ p ∈ c.positions (s.call i c).1, ∃ n ≤ source.length,
        p = placeBehind source (skipped || s.skips i c) n := by
  have entry : ((s.session i).entry c).Stands source (skipped || s.skips i c) ∧
      s.cursor.offset ≤ ((s.session i).entry c).offset := by
    by_cases he : (s.session i).entry c = s.cursor.skipMark
    · rw [skips, he]
      exact h.skipMark
    · have stay : (s.session i).entry c = s.cursor := by
        cases c with
        | tokenize => exact absurd rfl he
        | next =>
          unfold SourceSession.entry at he ⊢
          by_cases hs : (s.session i).stream = .unstarted
          · exact absurd (if_pos hs) he
          · exact if_neg hs
        | _ => rfl
      rw [skips, stay, decide_eq_false (by simp), Bool.or_false]
      exact ⟨h, Nat.le_refl _⟩
  obtain ⟨moves, positions⟩ := (s.session i).call_moves c
  obtain ⟨stands, le⟩ := entry.1.moves moves
  exact ⟨stands, Nat.le_trans entry.2 le, fun p hp => entry.1.meets (positions p hp)⟩

theorem Reached.stands (h : Reached source skipped s) : s.cursor.Stands source skipped := by
  induction h with
  | new => exact Cursor.stands_start source
  | call i c _ ih => exact (stands_call ih i c).1

/-- After any calls a lexer has its offset within the source, and line and column of that
place; another call does not move it back, and what its streams give has the line and column
of a place in the source. The tokens of a new lexer stand one behind the other, the end token
behind the whole source. -/
theorem call_positions (source : List Char) :
    (∀ skipped s, Reached source skipped s →
      s.cursor.source = source ∧ s.cursor.offset ≤ source.length ∧
        s.cursor.position = placeBehind source skipped s.cursor.offset ∧
        ∀ i c, s.cursor.offset ≤ (s.call i c).2.cursor.offset ∧
          ∀ p ∈ SourceCall.positions c (s.call i c).1, ∃ n ≤ source.length,
            p = placeBehind source (skipped || s.skips i c) n) ∧
      (Cursor.start source).tokens.tokens.Pairwise (fun t u => t.position.Before u.position) ∧
      ((Cursor.start source).tokens.failure = none →
        ∃ e ∈ (Cursor.start source).tokens.tokens.getLast?, e.kind = .endOfInput ∧
          e.position = placeBehind source (source.head? = some '\uFEFF') source.length) := by
  obtain ⟨tiles, failure, tiling⟩ := exists_tiling_source source
  obtain ⟨htokens, hfailure⟩ := tiling.tokens
  rw [htokens, hfailure]
  refine ⟨fun skipped s h => ?_, tiling.increasing, fun hnone => ?_⟩
  · have stands := h.stands
    refine ⟨stands.source_eq, stands.offset_le, stands.position_eq, fun i c => ?_⟩
    exact (stands_call stands i c).2
  · obtain ⟨e, he, hk, hp⟩ := tiling.getLast? hnone
    refine ⟨e, he, hk, ?_⟩
    obtain ⟨mark, hsource, hmark⟩ := unmarked_cases source
    have skip : mark = skippedMark (source.head? = some '\uFEFF') := by
      rcases hmark with rfl | ⟨rfl, hne⟩
      · have head : source.head? = some '\uFEFF' := by
          rw [← hsource]
          rfl
        simp [skippedMark, head]
      · simp [skippedMark, hne]
    rw [hp, List.nil_append, positionAfter_eq_placeBehind (source.head? = some '\uFEFF') _ [],
      ← skip, hsource, List.append_nil]

/-- A stream passes over the mark in front of a name. -/
theorem call_positions_marked :
    Reached ['\uFEFF', 'a'] true ((start ['\uFEFF', 'a']).call 0 .next).2 ∧
      ((start ['\uFEFF', 'a']).call 0 .next).2.cursor.position =
        placeBehind ['\uFEFF', 'a'] true
        ((start ['\uFEFF', 'a']).call 0 .next).2.cursor.offset ∧
      placeBehind ['\uFEFF', 'a'] true 2 = ⟨1, 2⟩ := by
  have skips : (start ['\uFEFF', 'a']).skips 0 .next = true := by decide
  have reached : Reached ['\uFEFF', 'a'] true ((start ['\uFEFF', 'a']).call 0 .next).2 := by
    have fresh : Reached ['\uFEFF', 'a'] false (start ['\uFEFF', 'a']) := .new
    have next := fresh.call 0 .next
    rwa [skips] at next
  obtain ⟨-, -, position, -⟩ := (call_positions ['\uFEFF', 'a']).1 true _ reached
  exact ⟨reached, position, by decide⟩

end Lexer

end ProtoSchema
