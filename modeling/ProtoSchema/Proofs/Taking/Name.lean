import ProtoSchema.Proofs.Parsing.Takes
import ProtoSchema.Grammar.Name

/-!
# Taking names, strings and numbers

The productions for the parts of declarations take every rendering of what they read. Names
stop before anything but a point, strings before anything but another string.
-/
namespace ProtoSchema.Grammar

open Parse Rendering

variable {n : ℕ} {ts rest : List Token}

/-- A name of one part. -/
theorem takes_identifier {x : Text} (h : ts ∈ Rendering.identifier x) :
    Takes n identifier ts rest (· = x) := by
  obtain ⟨t, ⟨hk, rfl⟩, rfl⟩ := h
  exact (takes_consume hk _ rfl).yield fun _ h => by rw [h]

theorem forall₂_eq_iff {α : Type} {as bs : List α} :
    List.Forall₂ (fun a b => b = a) as bs ↔ as = bs := by
  rw [← List.forall₂_eq_eq_eq]
  constructor <;> exact fun h => h.imp fun _ _ => Eq.symm

/-- A name of several parts with dots between them. A dot behind it would lengthen it. -/
theorem takes_qualifiedIdentifier {x : Text} (h : ts ∈ qualified x)
    (hrest : Follow (·.kind ≠ .dot) rest) : Takes n qualifiedIdentifier ts rest (· = x) := by
  obtain ⟨parts, rfl, h⟩ := h
  have parts : Takes n (separatedBy .dot identifier) ts rest fun as =>
      List.Forall₂ (fun x y => y = x) parts as :=
    .separatedBy rfl (P := fun _ => True) (fun _ _ => trivial)
      (fun x _ us hu rest _ => takes_identifier hu) h (by simpa using hrest)
  exact parts.yield fun as has => by rw [forall₂_eq_iff.mp has]

/-- A qualified identifier starts with an identifier. -/
theorem starts_qualified {x : Text} (h : ts ∈ qualified x) :
    Starts (·.kind = .identifier) ts := by
  obtain ⟨parts, -, h⟩ := h
  cases parts with
  | nil => cases h
  | cons x parts =>
    obtain ⟨_, ⟨t, ht, rfl⟩, us, -, rfl⟩ := h
    exact starts_cons.mpr ht.1

/-- The name of a type, which may start with a dot. -/
theorem takes_typeName {x : Text} (h : ts ∈ Rendering.typeName x)
    (hrest : Follow (·.kind ≠ .dot) rest) : Takes n Grammar.typeName ts rest (· = x) := by
  rcases h with h | ⟨y, rfl, _, ⟨t, ht, rfl⟩, us, hu, rfl⟩
  · have first := (starts_qualified h).follow rest
    refine .acceptNot rfl (first.mono fun t ht => by simp [ht]) (.check first ?_)
    exact takes_qualifiedIdentifier h hrest
  · refine .accept rfl (by simpa using ht) ?_
    exact (takes_qualifiedIdentifier hu hrest).yield fun _ h => by rw [h]

theorem mem_prod_singletons (ts : List Token) :
    ts ∈ (ts.map fun t => Rendering.one (· = t)).prod := by
  induction ts with
  | nil => rfl
  | cons t ts ih =>
    exact append_mem_prod (show [t] ∈ Rendering.one (· = t) from ⟨t, rfl, rfl⟩) ih

/-- Adjacent string literals as one, whose values are joined. A string behind it would
lengthen it. -/
theorem takes_stringLiteral {x : Text} (h : ts ∈ strings x)
    (hrest : Follow (·.kind ≠ .string) rest) (wanted : Expectation) :
    Takes n (stringLiteral wanted) ts rest (· = x) := by
  obtain ⟨hne, hk, rfl⟩ := h
  obtain ⟨t, us, rfl⟩ := List.exists_cons_of_ne_nil hne
  have more {n : ℕ} : Takes n (whileMore (check .string) advance) us rest fun vs =>
      List.Forall₂ (fun u v => v = u) us vs := by
    refine .whileMore (c := 0) (P := fun _ => True)
      (fun s t rest => (peeks_check .string).eq_ite)
      ?_ ?_ (mem_prod_singletons us) (hrest.mono fun t ht => by simpa using ht)
    · rintro _ hu _ ⟨u, rfl, rfl⟩
      simpa using hk u (by simp [hu])
    · rintro _ hu _ ⟨u, rfl, rfl⟩ rest -
      exact takes_advance (by simp [hk u (by simp [hu])])
  refine Takes.cons (takes_consume (hk t (by simp)) wanted rfl) fun _ ht => ?_
  refine more.yield fun vs hvs => ?_
  rw [ht, forall₂_eq_iff.mp hvs]
  simp

theorem takes_unsignedInteger {m : ℤ} (h : ts ∈ unsigned m) (wanted : Expectation) :
    Takes n (unsignedInteger wanted) ts rest (· = m) := by
  obtain ⟨-, t, ⟨hk, hm⟩, rfl⟩ := h
  refine Takes.last (takes_consume hk wanted rfl) fun u hu => ?_
  exact takes_ofNumeral (hu ▸ hm)

/-- An integer with its sign, if it has one. -/
theorem takes_signedInteger {m : ℤ} (h : ts ∈ signed m) (wanted : Expectation) :
    Takes n (signedInteger wanted) ts rest (· = m) := by
  rcases mem_signed.mp h with h | ⟨_, ⟨t, ht, rfl⟩, us, hu, rfl⟩
  · have first : Follow (·.kind ∉ [TokenKind.minus]) (ts ++ rest) := by
      obtain ⟨-, t, ht, rfl⟩ := h
      simp [ht.1]
    exact .acceptNot rfl first ((takes_unsignedInteger h wanted).yield fun _ h => h)
  · refine .accept rfl (by simpa using ht) ?_
    refine (takes_unsignedInteger hu wanted).yield fun k hk => ?_
    rw [hk]
    simp

theorem takes_fieldNumber {m : ℤ} (h : ts ∈ unsigned m) :
    Takes n fieldNumber ts rest (· = m) := takes_unsignedInteger h _

end ProtoSchema.Grammar
