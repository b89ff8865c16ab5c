import Mathlib.Data.List.Lex
import Mathlib.Data.List.Nodup
import ProtoSchema.Document.Writer

/-!
# Documents up to the order of entries

The order in which an object holds its entries says nothing. A document is arranged when every
object in it has its entries by key, and two documents say the same when they are equal once
arranged.
-/
namespace ProtoSchema

/-! ## The order of texts -/

/-- A text comes before another as its codes come before the other's. -/
theorem Text.precedes_iff {a b : Text} :
    a.precedes b = true ↔ a.map Glyph.code < b.map Glyph.code := by
  fun_induction Text.precedes a b with
  | case1 a => simp
  | case2 b bs => simp
  | case3 x xs y ys h ih => simp [h, ih]
  | case4 x xs y ys h => simp [List.cons_lt_cons_iff, h]

theorem Glyph.code_injective : Function.Injective Glyph.code := by
  have apart (c : Char) (b : StrayByte) : (char c).code ≠ (stray b).code := by
    have valid : c.toNat < 0xD800 ∨ 0xDFFF < c.toNat ∧ c.toNat < 0x110000 := c.valid
    have byte : b.val.toNat < 0x100 := b.val.toNat_lt
    simp only [Glyph.code]
    omega
  intro g g' h
  cases g with
  | char c =>
    cases g' with
    | char c' => rw [Char.toNat_inj.mp h]
    | stray b => exact absurd h (apart c b)
  | stray b =>
    cases g' with
    | char c => exact absurd h.symm (apart c b)
    | stray b' =>
      obtain ⟨b, high⟩ := b
      obtain ⟨b', high'⟩ := b'
      obtain rfl : b = b' := UInt8.toNat_inj.mp (Nat.add_left_cancel h)
      rfl

namespace Document

variable {r r' : Text → Text → Prop}

/-- Is the first text not behind the second? -/
def keyOrder (a b : Text) : Bool := !b.precedes a

theorem keyOrder_iff {a b : Text} :
    keyOrder a b = true ↔ a.map Glyph.code ≤ b.map Glyph.code := by
  rw [keyOrder, Bool.not_eq_true', ← Bool.not_eq_true, Text.precedes_iff, not_lt]

theorem keyOrder_trans (a b c : Text) (hab : keyOrder a b = true)
    (hbc : keyOrder b c = true) : keyOrder a c = true := by
  rw [keyOrder_iff] at hab hbc ⊢
  exact hab.trans hbc

theorem keyOrder_total (a b : Text) : (keyOrder a b || keyOrder b a) = true := by
  rw [Bool.or_eq_true, keyOrder_iff, keyOrder_iff]
  exact le_total _ _

/-! ## Parts of documents -/

/-- What holds of a document when it holds of all its parts holds of every document. -/
@[induction_eliminator]
theorem induct {motive : Document → Prop} (null : motive .null) (bool : ∀ b, motive (.bool b))
    (integer : ∀ n, motive (.integer n)) (real : ∀ x, motive (.real x))
    (text : ∀ t, motive (.text t)) (list : ∀ ds, (∀ d ∈ ds, motive d) → motive (.list ds))
    (object : ∀ es, (∀ e ∈ es, motive e.2) → motive (.object es)) : ∀ d, motive d
  | .null => null
  | .bool b => bool b
  | .integer n => integer n
  | .real x => real x
  | .text t => text t
  | .list ds => list ds fun d _ => induct null bool integer real text list object d
  | .object es => object es fun e _ => induct null bool integer real text list object e.2
decreasing_by
  · have := List.sizeOf_lt_of_mem ‹d ∈ ds›
    simp only [Document.list.sizeOf_spec]
    omega
  · obtain ⟨key, d⟩ := e
    have := List.sizeOf_lt_of_mem ‹(key, d) ∈ es›
    simp only [Document.object.sizeOf_spec, Prod.mk.sizeOf_spec] at this ⊢
    omega

/-- Reals are finite, and the keys of an object are related by `r`, each to those behind
it. -/
inductive Keyed (r : Text → Text → Prop) : Document → Prop
  | null : Keyed r .null
  | bool (b : Bool) : Keyed r (.bool b)
  | integer (n : ℤ) : Keyed r (.integer n)
  | real {x : Binary64} : x.isFinite = true → Keyed r (.real x)
  | text (t : Text) : Keyed r (.text t)
  | list {ds : List Document} : (∀ d ∈ ds, Keyed r d) → Keyed r (.list ds)
  | object {es : List (Text × Document)} : es.Pairwise (fun a b => r a.1 b.1) →
    (∀ e ∈ es, Keyed r e.2) → Keyed r (.object es)

theorem Keyed.mono {d : Document} (h : d.Keyed r) (hr : ∀ a b, r a b → r' a b) :
    d.Keyed r' := by
  induction h with
  | null => exact .null
  | bool b => exact .bool b
  | integer n => exact .integer n
  | real hx => exact .real hx
  | text t => exact .text t
  | list _ ih => exact .list ih
  | object keys _ ih => exact .object (keys.imp fun {_ _} => hr _ _) ih

/-! ## Arranging -/

mutual

/-- The document with the entries of every object, the inner ones first, replaced by what `f`
makes of them. -/
def mapObjects (f : List (Text × Document) → List (Text × Document)) : Document → Document
  | .list ds => .list (mapAll f ds)
  | .object es => .object (f (mapEntries f es))
  | d => d

def mapAll (f : List (Text × Document) → List (Text × Document)) :
    List Document → List Document
  | [] => []
  | d :: ds => d.mapObjects f :: mapAll f ds

def mapEntries (f : List (Text × Document) → List (Text × Document)) :
    List (Text × Document) → List (Text × Document)
  | [] => []
  | (key, d) :: es => (key, d.mapObjects f) :: mapEntries f es

end

variable {f : List (Text × Document) → List (Text × Document)}

@[simp] theorem mapAll_eq (ds : List Document) : mapAll f ds = ds.map (mapObjects f) := by
  induction ds with
  | nil => rfl
  | cons d ds ih => simp [mapAll, ih]

@[simp] theorem mapEntries_eq (es : List (Text × Document)) :
    mapEntries f es = es.map fun e => (e.1, e.2.mapObjects f) := by
  induction es with
  | nil => rfl
  | cons e es ih => simp [mapEntries, ih]

theorem mapObjects_list (ds : List Document) :
    (Document.list ds).mapObjects f = .list (ds.map (mapObjects f)) := by
  rw [mapObjects, mapAll_eq]

theorem mapObjects_object (es : List (Text × Document)) :
    (Document.object es).mapObjects f =
      .object (f (es.map fun e => (e.1, e.2.mapObjects f))) := by
  rw [mapObjects, mapEntries_eq]

/-- Entries in the order of their keys. -/
def sortEntries {α : Type} (le : Text → Text → Bool) (es : List (Text × α)) :
    List (Text × α) :=
  es.mergeSort fun a b => le a.1 b.1

/-- The document with the entries of every object in an order of keys. -/
def arrangedBy (le : Text → Text → Bool) (d : Document) : Document :=
  d.mapObjects (sortEntries le)

theorem arrangedBy_list (le : Text → Text → Bool) (ds : List Document) :
    (Document.list ds).arrangedBy le = .list (ds.map (arrangedBy le)) :=
  mapObjects_list ds

theorem arrangedBy_object (le : Text → Text → Bool) (es : List (Text × Document)) :
    (Document.object es).arrangedBy le =
      .object (sortEntries le (es.map fun e => (e.1, e.2.arrangedBy le))) :=
  mapObjects_object es

/-- The document with the entries of every object by key. -/
def arranged (d : Document) : Document := d.arrangedBy keyOrder

theorem map_sortEntries {α β : Type} (le : Text → Text → Bool) (f : α → β)
    (es : List (Text × α)) : (sortEntries le es).map (fun e => (e.1, f e.2)) =
      sortEntries le (es.map fun e => (e.1, f e.2)) :=
  List.map_mergeSort fun _ _ _ _ => rfl

theorem sortEntries_perm {α : Type} (le : Text → Text → Bool) (es : List (Text × α)) :
    (sortEntries le es).Perm es :=
  List.mergeSort_perm es _

theorem sortEntries_pairwise {α : Type} {le : Text → Text → Bool}
    (trans : ∀ a b c, le a b = true → le b c = true → le a c = true)
    (total : ∀ a b, (le a b || le b a) = true) (es : List (Text × α)) :
    (sortEntries le es).Pairwise fun a b => le a.1 b.1 = true :=
  List.pairwise_mergeSort (fun a b c => trans a.1 b.1 c.1) (fun a b => total a.1 b.1) es

/-- Arranging twice is arranging once. -/
theorem arrangedBy_self {le : Text → Text → Bool}
    (trans : ∀ a b c, le a b = true → le b c = true → le a c = true)
    (total : ∀ a b, (le a b || le b a) = true) (d : Document) :
    (d.arrangedBy le).arrangedBy le = d.arrangedBy le := by
  induction d with
  | list ds ih => simpa [arrangedBy_list] using ih
  | object es ih =>
    have values :
        ((es.map fun e => (e.1, e.2.arrangedBy le)).map fun e => (e.1, e.2.arrangedBy le)) =
        es.map fun e => (e.1, e.2.arrangedBy le) := by
      rw [List.map_map]
      exact List.map_congr_left fun e he => congrArg (e.1, ·) (ih e he)
    simp only [arrangedBy_object, map_sortEntries, values]
    exact congrArg Document.object
      (List.mergeSort_of_pairwise (sortEntries_pairwise trans total _))
  | _ => rfl

theorem arranged_arranged (d : Document) : d.arranged.arranged = d.arranged :=
  arrangedBy_self keyOrder_trans keyOrder_total d

/-- Equal up to the order of the entries of objects. -/
def Same (d d' : Document) : Prop := d.arranged = d'.arranged

/-- A document whose keys stand in an order can be restored from any arrangement of it. -/
theorem Keyed.restore {d : Document} {rank : Text → ℕ}
    (h : d.Keyed fun a b => rank a < rank b) (le : Text → Text → Bool) :
    (d.arrangedBy le).arrangedBy (fun a b => decide (rank a ≤ rank b)) = d := by
  have trans (a b c : Text) (hab : decide (rank a ≤ rank b) = true)
      (hbc : decide (rank b ≤ rank c) = true) : decide (rank a ≤ rank c) = true :=
    decide_eq_true ((of_decide_eq_true hab).trans (of_decide_eq_true hbc))
  have total (a b : Text) :
      (decide (rank a ≤ rank b) || decide (rank b ≤ rank a)) = true := by
    simpa using le_total (rank a) (rank b)
  induction h with
  | @list ds _ ih =>
    simp only [arrangedBy_list, List.map_map]
    exact congrArg Document.list ((List.map_congr_left ih).trans (List.map_id' ds))
  | @object es keys _ ih =>
    have values : ((es.map fun e => (e.1, e.2.arrangedBy le)).map
        fun e => (e.1, e.2.arrangedBy fun a b => decide (rank a ≤ rank b))) = es := by
      rw [List.map_map]
      exact (List.map_congr_left fun e he => congrArg (e.1, ·) (ih e he)).trans
        (List.map_id' es)
    simp only [arrangedBy_object, map_sortEntries, values]
    have sorted := sortEntries_pairwise trans total (sortEntries le es)
    have same :=
      (sortEntries_perm (fun a b => decide (rank a ≤ rank b)) (sortEntries le es)).trans
      (sortEntries_perm le es)
    have distinct : (es.map fun e => rank e.1).Nodup :=
      List.pairwise_map.mpr (keys.imp fun {_ _} => Nat.ne_of_lt)
    refine congrArg Document.object
      (List.Perm.eq_of_pairwise (fun a b ha hb hab hba => ?_) sorted
      (keys.imp fun {_ _} h => decide_eq_true h.le) same)
    exact List.inj_on_of_nodup_map distinct (same.mem_iff.mp ha) hb
      (Nat.le_antisymm (of_decide_eq_true hab) (of_decide_eq_true hba))
  | _ => rfl

/-- Arranging does not touch keys or reals. -/
theorem Keyed.arranged {d : Document} (h : d.Keyed (· ≠ ·)) : d.arranged.Keyed (· ≠ ·) := by
  induction h with
  | real hx => exact .real hx
  | list _ ih =>
    simp only [Document.arranged, arrangedBy_list]
    exact .list (List.forall_mem_map.mpr ih)
  | object keys _ ih =>
    simp only [Document.arranged, arrangedBy_object]
    refine .object ?_ fun e he => ?_
    · exact (sortEntries_perm keyOrder _).symm.pairwise (List.pairwise_map.mpr keys) Ne.symm
    · obtain ⟨e, mem, rfl⟩ := List.mem_map.mp ((sortEntries_perm keyOrder _).mem_iff.mp he)
      exact ih e mem
  | null => exact .null
  | bool b => exact .bool b
  | integer n => exact .integer n
  | text t => exact .text t

/-! ## Writing -/

@[simp] theorem writeAll_eq (style : Style) (depth : ℕ) (ds : List Document) :
    writeAll style depth ds = ds.map (write style depth) := by
  induction ds with
  | nil => rfl
  | cons d ds ih => simp [writeAll, ih]

@[simp] theorem writeEntries_eq (style : Style) (depth : ℕ) (es : List (Text × Document)) :
    writeEntries style depth es = es.map fun e => (e.1, e.2.write style depth) := by
  induction es with
  | nil => rfl
  | cons e es ih => simp [writeEntries, ih]

/-- To write with the keys in order is to write the arranged document. -/
theorem write_sorted (indent : ℤ) (depth : ℕ) (d : Document) :
    d.write ⟨indent, true⟩ depth = d.arranged.write ⟨indent, false⟩ depth := by
  induction d generalizing depth with
  | list ds ih =>
    have items : ds.map (write ⟨indent, true⟩ (depth + 1)) =
        (ds.map arranged).map (write ⟨indent, false⟩ (depth + 1)) := by
      rw [List.map_map]
      exact List.map_congr_left fun d hd => ih d hd (depth + 1)
    simp only [write, writeAll_eq, items, arranged, arrangedBy_list]
    rfl
  | object es ih =>
    have items : es.map (fun e => (e.1, e.2.write ⟨indent, true⟩ (depth + 1))) =
        (es.map fun e => (e.1, e.2.arranged)).map
          fun e => (e.1, e.2.write ⟨indent, false⟩ (depth + 1)) := by
      rw [List.map_map]
      exact List.map_congr_left fun e he => congrArg (e.1, ·) (ih e he (depth + 1))
    have sorted := map_sortEntries keyOrder (write ⟨indent, false⟩ (depth + 1))
      (es.map fun e => (e.1, e.2.arranged))
    rw [← items] at sorted
    simp only [write, writeEntries_eq, arranged, arrangedBy_object] at sorted ⊢
    simp only [Style.order]
    rw [sorted]
    rfl
  | _ => rfl

end Document

end ProtoSchema
