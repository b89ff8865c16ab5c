import ProtoSchema.Proofs.Numeral
import ProtoSchema.Proofs.Parsing.Reads
import ProtoSchema.Grammar.Name

/-!
# Reading names, strings and numbers

What the productions for the parts of declarations read, one law for each.
-/
namespace ProtoSchema.Grammar

open Parse Rendering

variable {placed : Prop} {n : ℕ} {pre : Token → Prop}

theorem reads_identifier : Reads placed n pre identifier Rendering.identifier := by
  refine .bind (reads_consume .identifier _ rfl) fun t us hu _ => .pure ?_
  obtain ⟨t, ⟨⟨hk, -⟩, rfl⟩, rfl⟩ := hu
  exact ⟨t, ⟨hk, rfl⟩, rfl⟩

/-- A name of several parts with dots between them. -/
theorem reads_qualifiedIdentifier : Reads placed n pre qualifiedIdentifier qualified := by
  refine .bind (.separatedBy rfl reads_identifier) fun parts us hu _ => .pure ?_
  exact ⟨parts, rfl, by simpa using hu⟩

/-- The name of a type, which may start with a dot. -/
theorem reads_typeName : Reads placed n pre Grammar.typeName Rendering.typeName := by
  refine .accept rfl (fun t ht _ => ?_) fun hL => .test (peeks_check _) ?_ fun _ => .reject hL
  · refine .bind reads_qualifiedIdentifier fun x us hu _ => .pure ?_
    have mark : [t] ∈ mark .dot := ⟨t, by simpa using ht, rfl⟩
    exact .inr ⟨x, rfl, by simpa using Language.append_mem_mul mark hu⟩
  · exact reads_qualifiedIdentifier.mono fun x us hu => .inl hu

/-- The words of a list of single string tokens are these tokens. -/
theorem mem_prod_one {P : Token → Prop} {ts us : List Token}
    (h : us ∈ (ts.map fun t => one fun u => P u ∧ u = t).prod) : us = ts ∧ ∀ t ∈ ts, P t := by
  induction ts generalizing us with
  | nil => exact ⟨h, by simp⟩
  | cons t ts ih =>
    obtain ⟨_, ⟨u, ⟨hu, rfl⟩, rfl⟩, vs, hv, rfl⟩ := h
    obtain ⟨rfl, hts⟩ := ih hv
    exact ⟨rfl, by simpa [hu] using hts⟩

/-- Adjacent string literals, which are read as one. The values are joined after each is
decoded. -/
theorem reads_stringLiteral (wanted : Expectation) :
    Reads placed n pre (stringLiteral wanted) strings := by
  refine .bind (reads_consume .string wanted rfl) fun t us hu _ => ?_
  obtain ⟨t, ⟨⟨hk, -⟩, rfl⟩, rfl⟩ := hu
  refine .whileMore_bind (c := 0) (fun s t rest => (peeks_check .string).eq_ite)
    (E := fun t => one fun u => (u.kind = .string ∧ u.WellMade) ∧ u = t) ?_ ?_
    fun ts us hu => .pure ?_
  · intro s hs hle hg
    refine (reads_advance_kind (n := n) ?_ rfl).run s hs (by omega) hg
    exact fun t _ h => of_decide_eq_true h
  · rintro t ⟨u, -, h⟩
    cases h
  · obtain ⟨rfl, hus⟩ := mem_prod_one hu
    refine ⟨by simp, fun u hu => ?_, by simp⟩
    simp only [List.append_nil, List.singleton_append, List.mem_cons] at hu
    rcases hu with rfl | hu
    · exact hk
    · exact (hus u hu).1

/-- A token for a whole number can be read as one. -/
theorem exists_readLiteral {t : Token} (h : t.WellMade) (hk : t.kind = .integer) :
    ∃ m : ℕ, Numeral.readLiteral t.text none = .ok m := by
  obtain ⟨cs, hcs, shape⟩ := h.integer hk
  rw [hcs]
  exact Numeral.readLiteral_ofChars shape

theorem reads_unsignedInteger (wanted : Expectation) :
    Reads placed n pre (unsignedInteger wanted) unsigned := by
  refine .bind (reads_consume .integer wanted rfl) fun t us hu _ => ?_
  obtain ⟨t, ⟨⟨hk, hw⟩, rfl⟩, rfl⟩ := hu
  obtain ⟨m, hm⟩ := exists_readLiteral hw hk
  exact .ofNumeral hm ⟨Int.natCast_nonneg m, t, ⟨hk, hm⟩, rfl⟩

/-- An integer with its sign, if it has one. -/
theorem reads_signedInteger (wanted : Expectation) :
    Reads placed n pre (signedInteger wanted) signed := by
  refine .accept rfl (fun t ht _ => ?_) fun _ => ?_
  · refine .bind (reads_unsignedInteger wanted) fun m us hu _ => .pure ?_
    have mark : [t] ∈ mark .minus := ⟨t, by simpa using ht, rfl⟩
    have h := Language.append_mem_mul mark hu
    simp only [List.singleton_append] at h
    simp [mem_signed, h]
  · refine .bind ((reads_unsignedInteger wanted).weaken le_rfl fun _ _ => id)
      fun m us hu _ => .pure ?_
    simp [mem_signed, hu]

theorem reads_fieldNumber : Reads placed n pre fieldNumber unsigned := reads_unsignedInteger _

end ProtoSchema.Grammar
