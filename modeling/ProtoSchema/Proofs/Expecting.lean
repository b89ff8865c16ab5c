import ProtoSchema.Proofs.Expecting.Schema
import ProtoSchema.Proofs.Joining

/-!
# What a complaint says was expected

A source that is rejected for lack of something that was expected is taken further with it:
any token that one of the alternatives describes, in place of the rejected one, is taken.
There is one exception. The last number of a range may be the word `max`, and where it may be
negative the complaint offers the word behind a minus too, where it is no longer a choice.
-/
namespace ProtoSchema

open Parse

/-- The number of tokens that are taken when a schema is read, whether or not there is one. -/
def Schema.taken (tokens : List Token) : ℕ :=
  (Grammar.schema (ParseState.start tokens)).2.index

/-- The alternative offers the word `max` behind a minus. -/
def Expectation.Overstates (x : Expectation) (us : List Token) (t : Token) : Prop :=
  (∃ purpose, x = .anIntegerOrMax purpose) ∧ t.IsWord "max" ∧ ∃ m ∈ us.getLast?,
    m.kind = .minus

/-- The token that is rejected is the one behind those that are taken. -/
theorem Schema.ofTokens_rejected {tokens : List Token} (h : Ended tokens) {e : SyntaxError}
    (hf : Schema.ofTokens tokens = .error (.unexpected e)) : ∃ us rest,
    tokens = us ++ e.actual :: rest ∧ Schema.taken tokens = us.length := by
  obtain ⟨s, run, us, rest, htokens, rfl, -⟩ := Schema.exists_outcome False h hf
  rw [ParseState.ahead_start] at htokens
  refine ⟨us, rest, htokens, ?_⟩
  rw [Schema.taken, run]
  exact Nat.zero_add _

/-- What is behind a step that fails at once does not count. -/
theorem Parse.expect_state {α β : Type} (p : Parse α) (xs : List Expectation)
    (s : ParseState) : ((p >>= fun _ => (expect xs : Parse β)) s).2 = (p s).2 := by
  rw [bind_eq]
  rcases p s with ⟨_ | _, s'⟩
  · rfl
  · show (reject (.expected xs) s' : Except ParseFailure β × ParseState).2 = s'
    rw [reject_run]
    split <;> rfl

/-- Two lists that part at a token. -/
def Fork.replacing {us rest' : List Token} {t : Token} (actual : Token) (rest : List Token)
    (h : Ended (us ++ t :: rest')) (ht : t.kind ≠ .endOfInput) : Fork where
  source := (us ++ actual :: rest).toArray
  target := (us ++ t :: rest').toArray
  place := us.length
  token := t
  agrees i hi := by simp [List.getElem?_append_left hi]
  found := by simp
  ended := h
  usable := ht

/-- A token that fits what was expected is taken in place of the rejected one. -/
theorem Schema.taken_of_admits {us rest rest' : List Token} {e : SyntaxError}
    {xs : List Expectation} (h : Ended (us ++ e.actual :: rest))
    (hf : Schema.ofTokens (us ++ e.actual :: rest) = .error (.unexpected e))
    (htaken : Schema.taken (us ++ e.actual :: rest) = us.length)
    (he : e.complaint = .expected xs) {x : Expectation} (hx : x ∈ xs) {t : Token}
    (ht : x.Admits t) (hmax : ¬x.Overstates us t) (h' : Ended (us ++ t :: rest')) :
    us.length < Schema.taken (us ++ t :: rest') := by
  let w : Fork := .replacing e.actual rest h' ht.ne_end
  let s := ParseState.start (us ++ e.actual :: rest)
  have both : w.SincereAt ⊤ ⊥ (Grammar.schema >>= fun _ => (expect [] : Parse Unit))
      (Grammar.schema >>= fun _ => expect []) s := Grammar.sincere_schema s le_rfl
  have stop : ((Grammar.schema >>= fun _ => (expect [] : Parse Unit)) s).2.index =
      us.length := by
    rw [expect_state]
    exact htaken
  have failed : ((Grammar.schema >>= fun _ => (expect [] : Parse Unit)) s).1 =
      .error (.unexpected e) := by
    obtain ⟨s', run, -⟩ := Schema.exists_outcome False h hf
    rw [bind_of_error run]
  have ended : Ended s.ahead := by rwa [ParseState.ahead_start]
  obtain ⟨v, vs, hv⟩ := List.exists_cons_of_ne_nil ended.ne_nil
  have ended' : Ended (s.on w.target).ahead := w.ended_target (Nat.zero_le _)
  obtain ⟨v', vs', hv'⟩ := List.exists_cons_of_ne_nil ended'.ne_nil
  cases both.meets (Nat.zero_le _) ended v v' vs vs' hv hv' trivial trivial stop.le with
  | on ha => cases ha.symm.trans failed
  | passed hpass => rwa [expect_state] at hpass
  | unfit hfail hfit =>
    obtain rfl := Except.error.inj (hfail.symm.trans failed)
    obtain ⟨purpose, word, i, m, hi, hm, hk⟩ := hfit stop e xs rfl he x hx ht
    refine absurd ⟨purpose, word, m, ?_, hk⟩ hmax
    have inside : i < us.length := Nat.lt_of_succ_le hi.le
    have last : us[i]? = some m := by
      simpa [w, Fork.replacing, List.getElem?_append_left inside] using hm
    have end_eq : us.length - 1 = i := Nat.sub_eq_of_eq_add hi.symm
    rw [List.getLast?_eq_getElem?, end_eq, last]
    rfl

/-- A source is rejected for lack of something that was expected. The tokens in front of the
rejected one are taken; the rejected one fits none of the alternatives, and any token that
does, in its place, is taken, whatever follows. The word `max` behind a minus is excepted. -/
theorem Schema.ofSource_expected {source : List Char} {e : SyntaxError}
    {xs : List Expectation} (hf : Schema.ofSource source = .error (.parse (.unexpected e)))
    (he : e.complaint = .expected xs) :
    ∃ us rest, tokenize source = .ok (us ++ e.actual :: rest) ∧
      Schema.taken (us ++ e.actual :: rest) = us.length ∧
      ∀ x ∈ xs, (x.Admits e.actual → x.Overstates us e.actual) ∧
        ∀ t rest', x.Admits t → ¬x.Overstates us t → Ended (us ++ t :: rest') →
          us.length < Schema.taken (us ++ t :: rest') := by
  obtain ⟨tokens, htokens, ended, rejected⟩ := Schema.exists_rejected hf
  obtain ⟨us, rest, rfl, htaken⟩ := Schema.ofTokens_rejected ended rejected
  refine ⟨us, rest, htokens, htaken, fun x hx =>
    ⟨fun fits => ?_, fun t rest' fits hmax ended' => ?_⟩⟩
  · by_contra hmax
    exact absurd htaken
      (Schema.taken_of_admits ended rejected htaken he hx fits hmax ended).ne'
  · exact Schema.taken_of_admits ended rejected htaken he hx fits hmax ended'

/-- The tokens of `enum E { reserved 1 to -`. -/
def openRange : List Token :=
  [⟨.identifier, "enum", ⟨1, 1⟩, true⟩, ⟨.identifier, "E", ⟨1, 6⟩, false⟩,
    ⟨.leftBrace, "\x7b", ⟨1, 8⟩, false⟩, ⟨.identifier, "reserved", ⟨1, 10⟩, true⟩,
    ⟨.integer, "1", ⟨1, 19⟩, false⟩, ⟨.identifier, "to", ⟨1, 21⟩, false⟩,
    ⟨.minus, "-", ⟨1, 24⟩, false⟩]

theorem tokenize_openRange : tokenize "enum E \x7b reserved 1 to -;".toList =
    .ok (openRange ++
      [⟨.semicolon, ";", ⟨1, 25⟩, false⟩, ⟨.endOfInput, [], ⟨1, 26⟩, false⟩]) := by
  decide +kernel

/-- In `enum E { reserved 1 to -;` a number is taken in place of the semicolon. -/
theorem Schema.ofSource_expected_range : ∃ e us rest,
    Schema.ofSource "enum E \x7b reserved 1 to -;".toList = .error (.parse (.unexpected e)) ∧
    e.complaint = .expected [.anIntegerOrMax "enum value number"] ∧
    tokenize "enum E \x7b reserved 1 to -;".toList = .ok (us ++ e.actual :: rest) ∧
    ∀ rest', Ended (us ++ Rendering.sampleToken .integer "2" :: rest') →
      us.length < Schema.taken (us ++ Rendering.sampleToken .integer "2" :: rest') := by
  have failed : Schema.ofSource "enum E \x7b reserved 1 to -;".toList =
      .error (.parse (.unexpected
      ⟨.expected [.anIntegerOrMax "enum value number"], some .tagRange,
        ⟨.semicolon, ";", ⟨1, 25⟩, false⟩⟩)) := by
    rw [Schema.ofSource, tokenize_openRange]
    with_unfolding_all rfl
  obtain ⟨us, rest, htokens, -, fitting⟩ := Schema.ofSource_expected failed rfl
  refine ⟨_, us, rest, failed, rfl, htokens, fun rest' ended => ?_⟩
  refine (fitting _ (List.mem_singleton.mpr rfl)).2 _ rest' (.inl rfl) ?_ ended
  rintro ⟨-, word, -⟩
  exact absurd word.1 (by decide)

/-- The word `max` behind a minus is rejected, where a number or that word is said to be
expected. -/
theorem Schema.ofSource_expected_max : ∃ e,
    Schema.ofSource "enum E \x7b reserved 1 to -max; \x7d".toList =
      .error (.parse (.unexpected e)) ∧
    e.complaint = .expected [.anIntegerOrMax "enum value number"] ∧
    (Expectation.anIntegerOrMax "enum value number").Admits e.actual := by
  have tokens : tokenize "enum E \x7b reserved 1 to -max; \x7d".toList = .ok (openRange ++
      [⟨.identifier, "max", ⟨1, 25⟩, false⟩, ⟨.semicolon, ";", ⟨1, 28⟩, false⟩,
        ⟨.rightBrace, "\x7d", ⟨1, 30⟩, false⟩, ⟨.endOfInput, [], ⟨1, 31⟩, false⟩]) := by
    decide +kernel
  have failed : Schema.ofSource "enum E \x7b reserved 1 to -max; \x7d".toList =
      .error (.parse (.unexpected
      ⟨.expected [.anIntegerOrMax "enum value number"], some .tagRange,
        ⟨.identifier, "max", ⟨1, 25⟩, false⟩⟩)) := by
    rw [Schema.ofSource, tokens]
    with_unfolding_all rfl
  exact ⟨_, failed, rfl, .inr ⟨rfl, rfl⟩⟩

end ProtoSchema
