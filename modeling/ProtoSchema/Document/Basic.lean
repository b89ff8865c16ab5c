import ProtoSchema.Number.Binary64
import ProtoSchema.Text.Basic

/-!
# Documents

Plain data: what a tree is turned into before it is written out. The entries of an object keep
the order in which their keys first came, and a key has one entry.
-/
namespace ProtoSchema

/-- A piece of plain data. -/
inductive Document where
  | null
  | bool (b : Bool)
  | integer (n : Int)
  | real (x : Binary64)
  | text (t : Text)
  | list (elements : List Document)
  | object (entries : List (Text × Document))

namespace Document

/-- Give a key its value: the value of a key that is there is replaced where it stands, and a
new key goes to the end. -/
def put (entries : List (Text × Document)) (key : Text) (value : Document) :
    List (Text × Document) :=
  match entries with
  | [] => [(key, value)]
  | (k, v) :: rest => if k = key then (key, value) :: rest else (k, v) :: put rest key value

/-- The object that results from giving keys their values one after the other. -/
def ofPairs (pairs : List (Text × Document)) : Document :=
  .object (pairs.foldl (fun entries (key, value) => put entries key value) [])

/-- A number, or its name as a text if it is infinite or no number. -/
def ofReal : Binary64 → Document
  | .infinite true => .text "-inf"
  | .infinite false => .text "inf"
  | .nan => .text "nan"
  | x => .real x

mutual

/-- Numbers that are not finite are replaced by their names, in lists of lists too; the
entries of objects are left alone. -/
def nameNonFinite : Document → Document
  | .real x => ofReal x
  | .list elements => .list (nameNonFiniteAll elements)
  | d => d

/-- The elements of a list, with the names of numbers that are not finite. -/
def nameNonFiniteAll : List Document → List Document
  | [] => []
  | d :: rest => d.nameNonFinite :: nameNonFiniteAll rest

end

end Document

end ProtoSchema
