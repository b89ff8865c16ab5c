import ProtoSchema.Proofs.Lexing.Ended
import ProtoSchema.Proofs.Lexing.Moving

/-!
# Streams that share a cursor

Streams over one lexer take the tokens of its source from each other: together they yield each
token once and in order, whenever they were made and whichever is asked next. Only the end
token is yielded by every stream that goes on to it.
-/
namespace ProtoSchema

variable {c d : Cursor} {t e : Token} {ts rest tokens : List Token}

/-! ## One token -/

/-- Where a character is, there is no end. -/
theorem Lexeme.kind_ne_end {x : Char} {cs : List Char} {a : TokenKind × Text}
    (h : (read (x :: cs)).outcome = .ok a) : a.1 ≠ .endOfInput := by
  simp only [read] at h
  split at h
  · obtain rfl := Except.ok.inj h
    simp
  split at h
  · obtain rfl := Except.ok.inj h
    have kind := Lexicon.ofNumber_iff.mp (rfl : TokenKind.ofNumber (number (x :: cs)) = _)
    generalize TokenKind.ofNumber (number (x :: cs)) = k at kind
    cases kind <;> simp
  split at h
  · rcases hs : (StringLiteral.read (x :: cs)).outcome with m | text
    · simp [Reading.map, hs, Except.map] at h
    · simp only [Reading.map, hs, Except.map, Except.ok.injEq] at h
      rw [← h]
      simp
  split at h
  · next kind hm =>
    obtain rfl := Except.ok.inj h
    have mark := Lexicon.ofMark?_eq_some.mp hm
    have none : ∀ m ∈ Lexicon.marks, m.2 ≠ .endOfInput := by decide
    exact none _ mark
  · cases h

namespace Cursor

/-- At the end of a source the end token is read, and nothing else is passed. -/
theorem token_of_ahead_nil (h : c.ahead = []) :
    c.token = (.ok ⟨.endOfInput, [], c.position, false⟩, c) := by
  have none : Trivia.read [] = .done 0 () :=
    (Lexicon.longestTrivia_of_stuck .nil Lexicon.stuck_nil).read (by simp)
  have trivia : c.perform Trivia.read = (.ok (), c.advanceBy 0) :=
    Lexicon.perform_done (by rw [h, none])
  rw [advanceBy] at trivia
  have lexeme : c.perform Lexeme.read = (.ok (.endOfInput, []), c) := by
    rw [perform, h]
    rfl
  simp only [token, trivia, lexeme]
  rfl

/-- The end token is read where nothing is ahead but trivia, and it is read there again. -/
theorem token_end_again (h : c.token = (.ok t, d)) (hk : t.kind = .endOfInput) :
    d.ahead = [] ∧ d.token = (.ok t, d) := by
  unfold token at h
  split at h
  · cases h
  next c' _ =>
  rcases hl : c'.perform Lexeme.read with ⟨m | ⟨kind, text⟩, d'⟩ <;> simp only [hl] at h
  · cases h
  obtain ⟨rfl, rfl⟩ : _ ∧ _ := by simpa using h
  obtain rfl : kind = .endOfInput := hk
  have nothing : c'.ahead = [] := by
    rcases ha : c'.ahead with _ | ⟨x, cs⟩
    · rfl
    · have outcome : (Lexeme.read (x :: cs)).outcome = .ok (.endOfInput, text) := by
        have first := congrArg Prod.fst hl
        rw [perform, ha] at first
        dsimp only at first
        split at first
        · next hr => rw [hr, Except.ok.inj first]
        · cases first
      exact absurd rfl (Lexeme.kind_ne_end outcome)
  have stay : c'.perform Lexeme.read = (.ok (.endOfInput, []), c') := by
    rw [perform, nothing]
    rfl
  obtain ⟨htext, rfl⟩ : _ ∧ _ := by simpa using hl.symm.trans stay
  refine ⟨nothing, ?_⟩
  rw [token_of_ahead_nil nothing]
  simp [htext]

theorem skipMark_eq_self (h : c.behind ≠ [] ∨ c.ahead = []) : c.skipMark = c := by
  unfold skipMark
  split
  · next hb ha =>
    rcases h with h | h
    · exact absurd hb h
    · rw [h] at ha
      cases ha
  · rfl

/-- Behind a token there is no mark to pass over. -/
theorem skipMark_token (h : c.token = (.ok t, d)) : d.skipMark = d := by
  apply skipMark_eq_self
  by_cases hk : t.kind = .endOfInput
  · exact .inr (token_end_again h hk).1
  · left
    have shorter := length_ahead_token h hk
    obtain ⟨n, hd⟩ := c.token_moves.1
    rw [h] at hd
    dsimp only at hd
    have source : d.source.length = c.source.length := by rw [hd, source_advanceBy]
    simp only [Cursor.source, List.length_append, List.length_reverse] at source
    rintro hb
    rw [hb, List.length_nil] at source
    omega

/-! ## What is still to be read -/

/-- From the cursor on these tokens are read, and no fault. -/
def Leaves (c : Cursor) (ts : List Token) : Prop :=
  c.drain.tokens = ts ∧ c.drain.failure = none

/-- The next token is the first of those that are left. The others are left behind it, but the
end token stays. -/
theorem Leaves.exists_token (h : c.Leaves ts) : ∃ t d, c.token = (.ok t, d) ∧
    ((t.kind ≠ .endOfInput ∧ ∃ rest, ts = t :: rest ∧ d.Leaves rest) ∨
      t.kind = .endOfInput ∧ ts = [t] ∧ d.Leaves [t]) := by
  obtain ⟨rfl, hfailure⟩ := h
  rcases ht : c.token with ⟨m | t, d⟩
  · rw [Lexicon.drain_error ht] at hfailure
    cases hfailure
  refine ⟨t, d, rfl, ?_⟩
  by_cases hk : t.kind = .endOfInput
  · have again := Lexicon.drain_end (token_end_again ht hk).2 hk
    rw [Lexicon.drain_end ht hk, Leaves, again]
    exact .inr ⟨hk, rfl, rfl, rfl⟩
  · rw [Lexicon.drain_token ht hk] at hfailure ⊢
    exact .inl ⟨hk, _, rfl, rfl, hfailure⟩

end Cursor

namespace Lexer

variable {source : List Char} {made i : ℕ} {s : Lexer} {answers before : Answers}

/-! ## Answers -/

@[simp] theorem produced_append (as bs : Answers) :
    produced (as ++ bs) = produced as ++ produced bs := List.filterMap_append

theorem produced_token (i : ℕ) (hk : t.kind ≠ .endOfInput) :
    produced [(i, .ok (.token t))] = [t] := by
  simp [produced, hk]

/-- The end token is not counted among what is produced. -/
theorem produced_end (i : ℕ) (hk : t.kind = .endOfInput) :
    produced [(i, .ok (.token t))] = [] := by
  simp [produced, hk]

/-- What stream `i` may answer where `ts` are the tokens up to the end token `e`: the next of
the tokens that no stream has yielded, or the end token when all have been, or that it has
yielded the end token. -/
def Fits (ts : List Token) (e : Token) (before : Answers) (i : ℕ) :
    Except SourceFailure SourceReply → Prop
  | .ok (.token t) => (i, .ok (.token e)) ∉ before ∧
      if t.kind = .endOfInput then t = e ∧ produced before = ts
      else ∃ rest, ts = produced before ++ t :: rest
  | .error .exhausted => (i, .ok (.token e)) ∈ before
  | _ => False

/-- Each answer fits those before it. -/
def Fitting (ts : List Token) (e : Token) (answers : Answers) : Prop :=
  ∀ before i reply after, answers = before ++ (i, reply) :: after → Fits ts e before i reply

theorem Fitting.nil : Fitting ts e [] := by
  intro before i reply after h
  simp at h

theorem Fitting.concat {reply : Except SourceFailure SourceReply} (h : Fitting ts e answers)
    (hi : Fits ts e answers i reply) : Fitting ts e (answers ++ [(i, reply)]) := by
  intro before j r after heq
  rcases List.eq_nil_or_concat after with rfl | ⟨after, last, rfl⟩
  · obtain ⟨rfl, hlast⟩ := List.append_inj' heq rfl
    obtain ⟨rfl, rfl⟩ := Prod.mk.inj (List.cons.inj hlast).1
    exact hi
  · rw [List.concat_eq_append, ← List.cons_append, ← List.append_assoc] at heq
    exact h before j r after (List.append_inj' heq rfl).1

/-- What has been produced are the first of the tokens. -/
theorem Fitting.produced_prefix (h : Fitting ts e answers) : produced answers <+: ts := by
  induction answers using List.reverseRecOn with
  | nil => exact List.nil_prefix
  | append_singleton answers a ih =>
    have earlier : Fitting ts e answers := by
      rintro before i reply after rfl
      exact h before i reply (after ++ [a]) (by simp)
    obtain ⟨i, reply⟩ := a
    have last := h answers i reply [] rfl
    rw [produced_append]
    unfold Fits at last
    split at last
    · next t =>
      split_ifs at last with hk
      · rw [produced_end i hk, List.append_nil]
        exact ih earlier
      · obtain ⟨-, rest, rfl⟩ := last
        rw [produced_token i hk]
        exact ⟨rest, by simp⟩
    · have none : produced [(i, .error .exhausted)] = [] := rfl
      rw [none, List.append_nil]
      exact ih earlier
    · exact last.elim

/-- Behind its end token a stream yields nothing. -/
theorem Fitting.exhausted {after : Answers} {reply : Except SourceFailure SourceReply}
    (h : Fitting ts e (before ++ (i, .ok (.token e)) :: after)) (hi : (i, reply) ∈ after) :
    reply = .error .exhausted := by
  obtain ⟨between, later, rfl⟩ := List.append_of_mem hi
  have fits := h (before ++ (i, .ok (.token e)) :: between) i reply later (by simp)
  unfold Fits at fits
  split at fits
  · exact absurd (by simp) fits.1
  · rfl
  · exact fits.elim

/-! ## Streams in any order -/

/-- The answers so far fit, and the streams and the cursor stand as the answers say. -/
structure Consistent (ts : List Token) (e : Token) (made : ℕ) (s : Lexer)
    (answers : Answers) : Prop where
  fitting : Fitting ts e answers
  /-- What has not been produced is still to be read. -/
  leaves : ∃ rest, ts = produced answers ++ rest ∧ s.cursor.skipMark.Leaves (rest ++ [e])
  begun : ∀ i, s.streams i = .running → s.cursor.skipMark = s.cursor
  ended_iff : ∀ i, s.streams i = .ended ↔ (i, .ok (.token e)) ∈ answers
  unmade : ∀ i, made ≤ i → s.streams i = .unstarted

/-- A new stream changes nothing for the others. -/
theorem Consistent.make (h : Consistent ts e made s answers) :
    Consistent ts e (made + 1) (s.call made .restart).2 answers := by
  have same : (s.call made .restart).2 = s := by
    obtain ⟨cursor, streams⟩ := s
    have unstarted : TokenStream.unstarted = streams made := (h.unmade made le_rfl).symm
    have streams :
        (fun j => if j = made then TokenStream.unstarted else streams j) = streams := by
      funext j
      split_ifs with hj
      · rw [hj, unstarted]
      · rfl
    exact congrArg (Lexer.mk cursor) streams
  rw [same]
  exact { h with unmade := fun i hi => h.unmade i (Nat.le_of_succ_le hi) }

/-- A stream that has ended has no more tokens. -/
theorem call_next_ended (h : s.streams i = .ended) :
    (s.call i .next).1 = .error .exhausted ∧ (s.call i .next).2 = s := by
  obtain ⟨cursor, streams⟩ := s
  replace h : streams i = .ended := h
  have call : (Lexer.mk cursor streams).call i .next =
      (.error .exhausted, ⟨cursor, fun j => if j = i then .ended else streams j⟩) := by
    simp only [Lexer.call, session, h]
    rfl
  rw [call]
  refine ⟨rfl, congrArg (Lexer.mk cursor) (funext fun j => ?_)⟩
  split_ifs with hj
  · rw [hj, h]
  · rfl

/-- A stream that has not ended takes a token off the source. -/
theorem call_next_token (hi : s.streams i ≠ .ended)
    (begun : s.streams i = .running → s.cursor.skipMark = s.cursor)
    (ht : s.cursor.skipMark.token = (.ok t, d)) :
    s.call i .next = (.ok (.token t), ⟨d, fun j => if j = i then
      (if t.kind = .endOfInput then .ended else .running) else s.streams j⟩) := by
  have entry : (if s.streams i = .unstarted then s.cursor.skipMark else s.cursor) =
      s.cursor.skipMark := by
    rcases hs : s.streams i with _ | _ | _
    · rfl
    · exact (begun hs).symm
    · exact absurd hs hi
  simp only [Lexer.call, session, SourceSession.call, TokenStream.next_of_ne hi, entry, ht]

/-- A stream that has ended changes nothing but the answers. -/
theorem Consistent.next_ended (h : Consistent ts e made s answers)
    (hended : s.streams i = .ended) :
    Consistent ts e made (s.call i .next).2 (answers ++ [(i, (s.call i .next).1)]) := by
  obtain ⟨reply, same⟩ := call_next_ended hended
  have yielded := (h.ended_iff i).mp hended
  rw [reply, same]
  obtain ⟨rest, hts, hleaves⟩ := h.leaves
  refine ⟨h.fitting.concat yielded, ⟨rest, ?_, hleaves⟩, h.begun, fun j => ?_, h.unmade⟩
  · rw [produced_append]
    simpa [produced] using hts
  · rw [h.ended_iff j]
    simp

theorem Consistent.next (he : e.kind = .endOfInput) (h : Consistent ts e made s answers)
    (hi : i < made) : Consistent ts e made (s.call i .next).2
      (answers ++ [(i, (s.call i .next).1)]) := by
  by_cases hended : s.streams i = .ended
  · exact h.next_ended hended
  obtain ⟨rest, hts, hleaves⟩ := h.leaves
  obtain ⟨t, d, ht, left⟩ := hleaves.exists_token
  have skipped := Cursor.skipMark_token ht
  have unyielded : (i, .ok (.token e)) ∉ answers :=
    fun hmem => hended ((h.ended_iff i).mpr hmem)
  rw [call_next_token hended (h.begun i) ht]
  have unmade {s' : TokenStream} (j : ℕ) (hj : made ≤ j) :
      (if j = i then s' else s.streams j) = .unstarted := by
    rw [if_neg (by omega), h.unmade j hj]
  rcases left with ⟨hk, rest', hrest, hleft⟩ | ⟨hk, hrest, hleft⟩
  · -- A token is taken that no stream has yielded.
    obtain ⟨rest, rfl, rfl⟩ : ∃ more, rest = t :: more ∧ rest' = more ++ [e] := by
      cases rest with
      | nil => exact absurd ((List.cons.inj hrest).1 ▸ he) hk
      | cons u rest =>
        obtain ⟨rfl, rfl⟩ := List.cons.inj hrest
        exact ⟨rest, rfl, rfl⟩
    have other : t ≠ e := fun h => hk (h ▸ he)
    refine ⟨h.fitting.concat ⟨unyielded, by rw [if_neg hk]; exact ⟨rest, hts⟩⟩,
      ⟨rest, ?_, ?_⟩,
      fun _ _ => skipped, fun j => ?_, unmade⟩
    · rw [produced_append, produced_token i hk, hts, List.append_assoc]
      rfl
    · rwa [skipped]
    · dsimp only
      rw [if_neg hk, List.mem_append, ← h.ended_iff j]
      split_ifs with hj
      · simp [hj, hended, other.symm]
      · simp [hj]
  · -- All have been yielded, and the end token is.
    obtain ⟨rfl, rfl⟩ : rest = [] ∧ t = e := by
      cases rest with
      | nil => exact ⟨rfl, (List.cons.inj hrest).1.symm⟩
      | cons u rest => simp at hrest
    rw [List.append_nil] at hts
    refine ⟨h.fitting.concat ⟨unyielded, by rw [if_pos hk]; exact ⟨rfl, hts.symm⟩⟩,
      ⟨[], ?_, ?_⟩,
      fun _ _ => skipped, fun j => ?_, unmade⟩
    · rw [produced_append, produced_end i hk, hts]
      simp
    · rwa [skipped]
    · dsimp only
      rw [if_pos hk, List.mem_append, ← h.ended_iff j]
      split_ifs with hj
      · simp [hj]
      · simp [hj]

theorem Interleaved.consistent (h : tokenize source = .ok (ts ++ [e]))
    (he : e.kind = .endOfInput) (hs : Interleaved source made s answers) :
    Consistent ts e made s answers := by
  induction hs with
  | new =>
    have leaves : (Cursor.start source).skipMark.Leaves (ts ++ [e]) := by
      unfold tokenize at h
      dsimp only at h
      split at h
      · cases h
      · next hnone => exact ⟨Except.ok.inj h, hnone⟩
    exact ⟨.nil, ⟨ts, rfl, leaves⟩, nofun, fun i => by simp [start], fun _ _ => rfl⟩
  | make _ ih => exact ih.make
  | next i hi _ ih => exact ih.next he hi

/-- Of a source that can be read, streams over one lexer together yield the tokens once each
and in order, with the positions they have when the source is read at once, whenever the
streams are made and in whatever order they are asked. A stream yields the end token, which is
the same for all of them, when everything in front of it has been yielded, and nothing
afterwards; asked before that, it yields the next of the tokens. -/
theorem interleaved_tokens (h : tokenize source = .ok tokens) :
    ∃ ts e, tokens = ts ++ [e] ∧ e.kind = .endOfInput ∧ (∀ t ∈ ts, t.kind ≠ .endOfInput) ∧
      ∀ made s answers, Interleaved source made s answers →
        produced answers <+: ts ∧
        (∀ before i after, answers = before ++ (i, .ok (.token e)) :: after →
          produced before = ts ∧ ∀ reply, (i, reply) ∈ after → reply = .error .exhausted) ∧
        ∀ before i reply after, answers = before ++ (i, reply) :: after →
          Fits ts e before i reply := by
  obtain ⟨ts, e, rfl, he, -, hts⟩ := (tokenize_ended h).exists_end
  refine ⟨ts, e, rfl, he, fun t ht => (hts t ht).2, fun made s answers hs => ?_⟩
  have fitting := (hs.consistent h he).fitting
  refine ⟨fitting.produced_prefix, ?_, fitting⟩
  rintro before i after rfl
  refine ⟨?_, fun reply hi => fitting.exhausted hi⟩
  have fits := fitting before i _ after rfl
  rw [Fits, if_pos he] at fits
  exact fits.2.2

/-- A byte order mark, then an identifier. -/
def marked : List Char := ['\uFEFF', 'a']

/-- Two streams are made, and asked in turns, the second first. -/
theorem interleaved_tokens_marked : ∃ s answers, Interleaved marked 2 s answers ∧
    answers.map Prod.fst = [1, 0, 1, 0] ∧
    produced answers <+: [⟨.identifier, "a", ⟨1, 1⟩, false⟩] := by
  have finish : Lexicon.Tiling ['a'] [] _ none :=
    .finish (Lexicon.longestTrivia_of_stuck .nil Lexicon.stuck_nil)
  have identifier : Lexicon.LongestLexeme ['a'] .identifier "a" [] :=
    @Lexicon.longest_identifier 'a' [] _ (by decide) (by decide)
  have whole : Lexicon.Tiling [] (Lexicon.unmarked marked) _ none :=
    identifier.next nofun [] finish
  obtain ⟨ts, e, hts, -, -, ordered⟩ := interleaved_tokens (whole.tokenize rfl)
  obtain rfl : [Lexicon.tokenOf .identifier "a" ⟨1, 1⟩] = ts :=
    (congrArg List.dropLast hts).trans List.dropLast_concat
  have made : Interleaved marked 2 _ [] := .make (.make .new)
  have asked :=
    (((made.next 1 (by decide)).next 0 (by decide)).next 1 (by decide)).next 0 (by decide)
  exact ⟨_, _, asked, rfl, (ordered _ _ _ asked).1⟩

end Lexer

end ProtoSchema
