import Mathlib.Computability.Language
import Mathlib.Order.ConditionallyCompleteLattice.Basic
import ProtoSchema.Tree.Declaration

/-!
# Renderings of words

How the parts that all declarations are made of may be written in tokens: marks, words, names,
strings and numbers, and lists of things with separators between them. The renderings of a
thing are a language over tokens. Kinds and texts of tokens are all that counts; where a token
stands does not.
-/
namespace ProtoSchema.Rendering

/-- The single tokens with a property. -/
def one (P : Token → Prop) : Language Token := {ts | ∃ t, P t ∧ ts = [t]}

/-- A token of a kind. -/
def mark (kind : TokenKind) : Language Token := one (·.kind = kind)

/-- An identifier, a soft keyword too. -/
def identifier (x : Text) : Language Token := one fun t => t.kind = .identifier ∧ t.text = x

/-- The identifier that is spelled so. -/
def word (w : String) : Language Token := identifier (Text.ofString w)

/-- The name of a declaration: an identifier that is no soft keyword. -/
def name (x : Text) : Language Token :=
  {ts | Token.isSoftKeyword x = false ∧ ts ∈ identifier x}

/-- What is in the language, or nothing. -/
def maybe (L : Language Token) : Language Token := 1 + L

theorem mem_maybe {L : Language Token} {ts : List Token} : ts ∈ maybe L ↔ ts = [] ∨
    ts ∈ L := Iff.rfl

/-- Words of the languages in a list, one behind the other, are a word of their product. -/
theorem append_mem_prod {L : Language Token} {Ls : List (Language Token)} {us vs : List Token}
    (hu : us ∈ L) (hv : vs ∈ Ls.prod) : us ++ vs ∈ (L :: Ls).prod := by
  rw [List.prod_cons]
  exact Language.append_mem_mul hu hv

theorem mem_singleton_prod {L : Language Token} {us : List Token} (h : us ∈ L) :
    us ∈ [L].prod := by
  simpa using h

theorem mem_prod_cons {K L : Language Token} {Ls : List (Language Token)} {ts : List Token} :
    ts ∈ (K :: L :: Ls).prod ↔ ∃ us ∈ K, ∃ vs ∈ (L :: Ls).prod, us ++ vs = ts := by
  rw [List.prod_cons]
  exact Language.mem_mul

theorem mem_prod_singleton {L : Language Token} {ts : List Token} :
    ts ∈ [L].prod ↔ ts ∈ L := by
  rw [List.prod_singleton]

theorem nil_mem_prod : [] ∈ ([] : List (Language Token)).prod := rfl

theorem cons_mem_prod {P : Token → Prop} {Ls : List (Language Token)} {t : Token}
    {ts : List Token} (ht : P t) (hts : ts ∈ Ls.prod) : t :: ts ∈ (one P :: Ls).prod :=
  append_mem_prod (show [t] ∈ one P from ⟨t, ht, rfl⟩) hts

theorem cons_mem_name {x : Text} {Ls : List (Language Token)} {t : Token} {ts : List Token}
    (hx : Token.isSoftKeyword x = false) (ht : t.kind = .identifier ∧ t.text = x)
    (hts : ts ∈ Ls.prod) : t :: ts ∈ (name x :: Ls).prod :=
  append_mem_prod (show [t] ∈ name x from ⟨hx, t, ht, rfl⟩) hts

/-- What does not start with one of the words. -/
def notStarting (words : List String) (L : Language Token) : Language Token :=
  {ts | ts ∈ L ∧ ∀ t ∈ ts.head?, t.kind = .identifier → ∀ w ∈ words, t.text ≠ Text.ofString w}

/-- One or more things with separators between them. -/
def separated (separator : TokenKind) (E : α → Language Token) : List α → Language Token
  | [] => 0
  | a :: as => E a * (as.map fun b => mark separator * E b).prod

/-- Things with commas between them; there may be none. -/
def listing (E : α → Language Token) : List α → Language Token
  | [] => 1
  | a :: as => separated .comma E (a :: as)

/-- Any number of empty statements. -/
def semicolons : Language Token := {ts | ∀ t ∈ ts, t.kind = .semicolon}

/-- Statements with any number of empty ones before, between and after them. -/
def statements (E : α → Language Token) : List α → Language Token
  | [] => semicolons
  | a :: as => [semicolons, E a, statements E as].prod

theorem mem_statements_one {E : α → Language Token} {a : α} {ts : List Token} (h : ts ∈ E a) :
    ts ∈ statements E [a] := by
  have none : [] ∈ semicolons := nofun
  refine mem_prod_cons.mpr ⟨[], none, ts, ?_, rfl⟩
  exact mem_prod_cons.mpr ⟨ts, h, [], mem_singleton_prod none, List.append_nil ts⟩

/-- A statement, or an empty one. -/
def statement (E : α → Language Token) : Option α → Language Token
  | none => mark .semicolon
  | some a => E a

/-- A tree whose positions are `placed` has at each node the position of the first token that
renders it. If they are not, a node may have any position. -/
def starting (placed : Prop) (p : Position) (L : Language Token) : Language Token :=
  {ts | ts ∈ L ∧ (placed → ∃ t ∈ ts.head?, t.position = p)}

/-- Identifiers with points between them; the points are part of the text. -/
def qualified (x : Text) : Language Token :=
  {ts | ∃ parts, Text.join "." parts = x ∧ ts ∈ separated .dot identifier parts}

/-- A qualified identifier, with a point in front or not. -/
def typeName (x : Text) : Language Token :=
  {ts | ts ∈ qualified x ∨ ∃ y, x = .char '.' :: y ∧ ts ∈ mark .dot * qualified y}

/-- One or more string tokens, whose values together are the string. -/
def strings (x : Text) : Language Token :=
  {ts | ts ≠ [] ∧ (∀ t ∈ ts, t.kind = .string) ∧ (ts.map Token.text).flatten = x}

/-- A numeral for a whole number, which is not negative. -/
def unsigned (n : Int) : Language Token :=
  {ts | 0 ≤ n ∧ ts ∈ one fun t => t.kind = .integer ∧ Numeral.readLiteral t.text none = .ok n}

/-- A numeral, with a minus in front or not. -/
def signed (n : Int) : Language Token := unsigned n + mark .minus * unsigned (-n)

theorem mem_signed {n : Int} {ts : List Token} :
    ts ∈ signed n ↔ ts ∈ unsigned n ∨ ts ∈ mark .minus * unsigned (-n) := Iff.rfl

/-- A numeral for a magnitude, or the word `inf`. -/
def magnitude (x : Binary64) : Language Token :=
  one fun t => (t.kind = .real ∨ t.kind = .identifier ∧ t.text = Text.ofString "inf") ∧
    Numeral.readReal t.text = .ok x

/-! ## Statements -/

theorem semicolons_append {us vs : List Token} (hu : us ∈ mark .semicolon)
    (hv : vs ∈ semicolons) : us ++ vs ∈ semicolons := by
  obtain ⟨t, ht, rfl⟩ := hu
  intro u h
  rcases List.mem_cons.mp h with rfl | h
  · exact ht
  · exact hv u h

theorem statements_append {E : α → Language Token} {as : List α} {us vs : List Token}
    (hu : us ∈ mark .semicolon) (hv : vs ∈ statements E as) : us ++ vs ∈ statements E as := by
  cases as with
  | nil => exact semicolons_append hu hv
  | cons a as =>
    obtain ⟨vs, hv, ws, hw, rfl⟩ := hv
    rw [← List.append_assoc]
    exact append_mem_prod (semicolons_append hu hv) hw

/-- Statements and empty ones in any order are the statements. -/
theorem mem_statements {E : α → Language Token} {as : List (Option α)} {us : List Token}
    (h : us ∈ (as.map (statement E)).prod) : us ∈ statements E (as.filterMap id) := by
  induction as generalizing us with
  | nil =>
    rw [show us = [] from h]
    exact fun _ => nofun
  | cons a as ih =>
    obtain ⟨us, hu, vs, hv, rfl⟩ := h
    cases a with
    | none => exact statements_append hu (ih hv)
    | some a =>
      have h := append_mem_prod (show [] ∈ semicolons from fun _ => nofun)
        (append_mem_prod hu (append_mem_prod (ih hv) nil_mem_prod))
      simpa [statements, statement] using h

theorem exists_of_semicolons {E : α → Language Token} {us : List Token}
    (h : us ∈ semicolons) :
    ∃ as : List (Option α), as.filterMap id = [] ∧ us ∈ (as.map (statement E)).prod := by
  induction us with
  | nil => exact ⟨[], rfl, rfl⟩
  | cons u us ih =>
    obtain ⟨as, has, hu⟩ := ih fun t ht => h t (List.mem_cons_of_mem u ht)
    refine ⟨none :: as, has, ?_⟩
    exact append_mem_prod (show [u] ∈ mark .semicolon from ⟨u, h u (by simp), rfl⟩) hu

/-- Statements are statements and empty ones in some order. -/
theorem exists_of_statements {E : α → Language Token} {as : List α} {us : List Token}
    (h : us ∈ statements E as) :
    ∃ bs : List (Option α), bs.filterMap id = as ∧ us ∈ (bs.map (statement E)).prod := by
  induction as generalizing us with
  | nil => exact exists_of_semicolons h
  | cons a as ih =>
    simp only [statements, mem_prod_cons, mem_prod_singleton] at h
    obtain ⟨us, hu, _, ⟨vs, hv, ws, hw, rfl⟩, rfl⟩ := h
    obtain ⟨bs, hbs, hu⟩ := exists_of_semicolons (E := E) hu
    obtain ⟨cs, hcs, hw⟩ := ih hw
    refine ⟨bs ++ some a :: cs, ?_, ?_⟩
    · rw [List.filterMap_append, hbs]
      simpa using hcs
    rw [List.map_append, List.prod_append]
    exact Language.append_mem_mul hu (append_mem_prod hv hw)

/-! ## What takes no token -/

@[simp] theorem nil_mem_mul {K L : Language Token} : [] ∈ K * L ↔ [] ∈ K ∧ [] ∈ L := by
  constructor
  · rintro ⟨us, hu, vs, hv, h⟩
    obtain ⟨rfl, rfl⟩ := List.append_eq_nil_iff.mp h
    exact ⟨hu, hv⟩
  · rintro ⟨hu, hv⟩
    exact Language.append_mem_mul hu hv

@[simp] theorem nil_notMem_one (P : Token → Prop) : [] ∉ one P := nofun

@[simp] theorem nil_notMem_mark (kind : TokenKind) : [] ∉ mark kind := nofun

@[simp] theorem nil_notMem_identifier (x : Text) : [] ∉ identifier x := nofun

@[simp] theorem nil_notMem_word (w : String) : [] ∉ word w := nofun

@[simp] theorem nil_notMem_unsigned (n : Int) : [] ∉ unsigned n :=
  fun h => nil_notMem_one _ h.2

@[simp] theorem nil_notMem_magnitude (x : Binary64) : [] ∉ magnitude x := nofun

@[simp] theorem nil_notMem_strings (x : Text) : [] ∉ strings x := fun h => h.1 rfl

@[simp] theorem nil_notMem_name (x : Text) : [] ∉ name x :=
  fun h => nil_notMem_identifier x h.2

@[simp] theorem nil_notMem_signed (n : Int) : [] ∉ signed n := by
  simp [mem_signed]

theorem nil_notMem_separated {separator : TokenKind} {E : α → Language Token} {as : List α}
    (h : ∀ a, [] ∉ E a) : [] ∉ separated separator E as := by
  cases as with
  | nil => exact Language.notMem_zero _
  | cons a as => simp [separated, h a]

@[simp] theorem nil_notMem_qualified (x : Text) : [] ∉ qualified x := by
  rintro ⟨parts, -, h⟩
  exact nil_notMem_separated nil_notMem_identifier h

@[simp] theorem nil_notMem_typeName (x : Text) : [] ∉ typeName x := by
  rintro (h | ⟨y, -, h⟩)
  · exact nil_notMem_qualified x h
  · simp at h

/-- Of what starts with a known token, the position is that of the token. -/
theorem mem_starting {placed : Prop} {L : Language Token} {us : List Token} {t : Token}
    {p : Position} (hu : us ∈ L) (hL : [] ∉ L) (hp : p = t.position)
    (first : placed → ∀ u ∈ us.head?, u = t) : us ∈ starting placed p L := by
  refine ⟨hu, fun h => ⟨t, ?_, hp.symm⟩⟩
  cases us with
  | nil => exact absurd hu hL
  | cons u us => simp [first h u rfl]

theorem nil_notMem_starting {placed : Prop} {p : Position} {L : Language Token} (h : [] ∉ L) :
    [] ∉ starting placed p L := fun hL => h hL.1

end ProtoSchema.Rendering
