import ProtoSchema.Proofs.Carrying.Closed
import ProtoSchema.Proofs.Parsing.Front
import ProtoSchema.Proofs.Tracing.Schema

/-!
# Tokens behind a schema

Where tokens are a schema and the end token, and others stand in place of the end token, the
statements in front are read as before, and what follows them is read as it is by itself.
-/
namespace ProtoSchema

open Parse Transfer

namespace Grammar

/-- The statements of the top level, up to the end token. -/
def schemaElements : Parse (List (Option SchemaElement)) :=
  whileMore (return !(← atEnd)) schemaElement

theorem traced_schemaElements : Traced schemaElements :=
  .whileMore traced_atEnd.yield traced_schemaElement

/-- The schema of a level and of the statements that follow. -/
def schemaOf (level : Option SyntaxDecl) : Parse Schema := do
  let elements ← schemaElements
  return ⟨level, elements.filterMap id⟩

theorem schema_eq : schema = (checkWord "syntax" >>= fun b =>
    if b then syntaxDecl >>= fun d => schemaOf (some d) else schemaOf none) := rfl

variable {s s' : ParseState} {t : Token} {rest : List Token}

/-- With the word `syntax` in front a schema has its level and then its elements. -/
theorem schema_syntax (ht : s.ahead = t :: rest) (hw : t.IsWord "syntax") :
    schema s = (syntaxDecl >>= fun d => schemaOf (some d)) s := by
  rw [schema_eq, bind_of_ok (checkWord_eq ht "syntax")]
  simp [hw]

theorem schema_other (ht : s.ahead = t :: rest) (hw : ¬t.IsWord "syntax") :
    schema s = schemaOf none s := by
  rw [schema_eq, bind_of_ok (checkWord_eq ht "syntax")]
  simp [hw]

theorem schemaElements_end (ht : s.ahead = t :: rest) (hk : t.kind = .endOfInput) :
    schemaElements s = (.ok [], s) := by
  rw [schemaElements, whileMore_eq, bind_of_ok ((peeks_atEnd.bind_pure (! ·)) s t rest ht)]
  simp [hk, pure_eq]

/-- Before the end there is one more element. -/
theorem schemaElements_step (ht : s.ahead = t :: rest) (hk : t.kind ≠ .endOfInput) :
    schemaElements s = (schemaElement >>= fun a =>
      fewer s schemaElements >>= fun as => pure (a :: as)) s := by
  rw [schemaElements, whileMore_eq, bind_of_ok ((peeks_atEnd.bind_pure (! ·)) s t rest ht)]
  simp [hk]

/-- Statements that are read are one and others, or there are none. -/
theorem schemaElements_ok (ht : s.ahead = t :: rest) (hk : t.kind ≠ .endOfInput)
    {es : List (Option SchemaElement)} (h : schemaElements s = (.ok es, s')) :
    ∃ a as s₁, es = a :: as ∧ schemaElement s = (.ok a, s₁) ∧
    schemaElements s₁ = (.ok as, s') := by
  rw [schemaElements_step ht hk] at h
  obtain ⟨a, s₁, ha, h⟩ := bind_ok h
  obtain ⟨as, s₂, has, h⟩ := bind_ok h
  obtain ⟨hes, rfl⟩ := Prod.mk.inj h
  rw [fewer] at has
  split_ifs at has
  · exact ⟨a, as, s₁, (Except.ok.inj hes).symm, ha, has⟩
  · cases has

/-- The statements in front are read as they are in front of the end, and the others behind
them. -/
theorem schemaElements_append {us vs : List Token} {e : Token} (h : Ended (us ++ [e]))
    (hvs : vs ≠ []) {i : ℕ} (hi : i ≤ us.length) {es : List (Option SchemaElement)}
    (hrun : schemaElements ((ParseState.start (us ++ [e])).past i) = (.ok es, s')) :
    schemaElements ((ParseState.start (us ++ vs)).past i) =
      ((schemaElements (ParseState.start vs)).1.map (es ++ ·),
        (schemaElements (ParseState.start vs)).2.behind us) := by
  induction hn : us.length - i using Nat.strongRecOn generalizing i es with | ind n ih
  have ahead := ParseState.ahead_past_start hi [e]
  have ahead' := ParseState.ahead_past_start hi vs
  rcases hdrop : us.drop i with _ | ⟨t, rest⟩ <;> rw [hdrop] at ahead ahead'
  · -- All tokens in front are taken: what is left is read with them in front as without them.
    obtain rfl : i = us.length := by
      rw [List.drop_eq_nil_iff] at hdrop
      omega
    rw [schemaElements_end ahead h.kind_last] at hrun
    obtain rfl := Except.ok.inj (Prod.mk.inj hrun).1
    obtain ⟨entered, run⟩ := traced_schemaElements (ParseState.start vs)
    have place : (ParseState.start (us ++ vs)).past us.length =
        (ParseState.start vs).behind us := by
      simp [ParseState.start, ParseState.past, ParseState.behind]
    rw [place, (run.behind (by simpa [ParseState.start] using hvs) us).eq]
    cases (schemaElements (ParseState.start vs)).1 <;> rfl
  · have ht : t.kind ≠ .endOfInput := by
      have mem : t ∈ us := List.mem_of_mem_drop (i := i) (by simp [hdrop])
      exact (h.append_cons.2 t mem).2
    obtain ⟨a, as, s₁, rfl, ha, has⟩ := schemaElements_ok ahead ht hrun
    obtain ⟨j, hij, hj, rfl, read⟩ :=
      read_append (f := fun φ => Option.map (·.relocate φ)) h hi ha
        (fun _ => carries_schemaElement) (fun _ => closes_schemaElement) vs
    have others : fewer ((ParseState.start (us ++ vs)).past i) schemaElements
        ((ParseState.start (us ++ vs)).past j) =
          schemaElements ((ParseState.start (us ++ vs)).past j) := by
      rw [fewer, if_pos]
      simp only [ParseState.start, ParseState.past, ParseState.remaining, List.size_toArray,
        List.length_append]
      omega
    rw [schemaElements_step ahead' ht, bind_of_ok read, bind_eq, others,
      ih _ (by omega) hj has rfl]
    cases (schemaElements (ParseState.start vs)).1 <;> rfl

/-- A schema in front of others is read up to where they start. -/
theorem schemaOf_append {us vs : List Token} {e : Token} (h : Ended (us ++ [e]))
    (hvs : vs ≠ []) {i : ℕ} (hi : i ≤ us.length) {level : Option SyntaxDecl} {f : Schema}
    (hrun : schemaOf level ((ParseState.start (us ++ [e])).past i) = (.ok f, s')) :
    (schemaOf level ((ParseState.start (us ++ vs)).past i)).1 =
      (schemaOf none (ParseState.start vs)).1.map fun g =>
        ⟨f.level, f.elements ++ g.elements⟩ := by
  obtain ⟨es, s₁, hes, hrun⟩ := bind_ok hrun
  obtain ⟨hf, rfl⟩ := Prod.mk.inj hrun
  obtain rfl := Except.ok.inj hf
  have whole := schemaElements_append h hvs hi hes
  rw [schemaOf, schemaOf, bind_eq, bind_eq, whole]
  rcases schemaElements (ParseState.start vs) with ⟨e | es', s₂⟩
  · rfl
  · simp [Except.map, pure_eq]

end Grammar

/-- Behind tokens that hold a schema others are read as they are by themselves, if they do not
start with a level. -/
theorem Schema.ofTokens_append {us vs : List Token} {e : Token} {f : Schema}
    (h : Ended (us ++ [e])) (hf : Schema.ofTokens (us ++ [e]) = .ok f) (hvs : vs ≠ [])
    (hfirst : ∀ t ∈ vs.head?, ¬t.IsWord "syntax") : Schema.ofTokens (us ++ vs) =
      (Schema.ofTokens vs).map fun g => ⟨f.level, f.elements ++ g.elements⟩ := by
  obtain ⟨v, vs', hv⟩ := List.exists_cons_of_ne_nil hvs
  have hnext : ¬v.IsWord "syntax" := hfirst v (by rw [hv]; rfl)
  have behind : Grammar.schema (ParseState.start vs) = Grammar.schemaOf none
      (ParseState.start vs) :=
    Grammar.schema_other (by rw [ParseState.ahead_start, hv]) hnext
  obtain ⟨s', hrun⟩ : ∃ s', Grammar.schema (ParseState.start (us ++ [e])) = (.ok f, s') :=
    ⟨_, Prod.ext hf rfl⟩
  rw [Schema.ofTokens, Schema.ofTokens, behind]
  cases us with
  | nil =>
    have other : ¬e.IsWord "syntax" := by
      rintro ⟨hk, -⟩
      rw [h.kind_last] at hk
      cases hk
    have ahead : (ParseState.start ([] ++ [e])).ahead = e :: [] := ParseState.ahead_start _
    rw [Grammar.schema_other ahead other] at hrun
    rw [List.nil_append, behind]
    exact Grammar.schemaOf_append h hvs (Nat.zero_le _) hrun
  | cons t us =>
    have ahead : (ParseState.start (t :: us ++ [e])).ahead = t :: (us ++ [e]) :=
      ParseState.ahead_start _
    have ahead' : (ParseState.start (t :: us ++ vs)).ahead = t :: (us ++ vs) :=
      ParseState.ahead_start _
    by_cases hw : t.IsWord "syntax"
    · rw [Grammar.schema_syntax ahead hw] at hrun
      obtain ⟨d, s₁, hd, hrun⟩ := bind_ok hrun
      obtain ⟨j, -, hj, rfl, read⟩ :=
        read_append (i := 0) (f := fun φ => (·.relocate φ)) h (Nat.zero_le _) hd
          (fun _ => Grammar.carries_syntaxDecl) (fun _ => Grammar.closes_syntaxDecl) vs
      rw [Grammar.schema_syntax ahead' hw]
      have level : (Grammar.syntaxDecl >>= fun d => Grammar.schemaOf (some d))
          (ParseState.start (t :: us ++ vs)) = Grammar.schemaOf (some d) _ := bind_of_ok read
      rw [level]
      exact Grammar.schemaOf_append h hvs hj hrun
    · rw [Grammar.schema_other ahead hw] at hrun
      rw [Grammar.schema_other ahead' hw]
      exact Grammar.schemaOf_append h hvs (Nat.zero_le _) hrun

end ProtoSchema
