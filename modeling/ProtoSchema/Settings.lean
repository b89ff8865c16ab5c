import ProtoSchema.Document.Writer
import ProtoSchema.Number.Numeral

/-!
# Settings

How documents are written: whether positions are kept, and the style. An indent that is not
asked for is taken from a setting of the surroundings, and without one it is four.
-/
namespace ProtoSchema

/-- The setting of the indent is no whole number. -/
structure IndentError where
  setting : Text
  deriving DecidableEq

/-- What is told of a setting that is no number. -/
def IndentError.message (e : IndentError) : Text :=
  Text.ofString "PROTOAST_INDENT must be an integer, got " ++ Text.ofChars e.setting.quoted

/-- The indent where none is asked for. -/
def defaultIndent : Option Text → Except IndentError Int
  | none => .ok 4
  | some setting => (Numeral.readInteger 10 setting).mapError fun _ => ⟨setting⟩

/-- How trees are turned into text. -/
structure EmitOptions where
  positions : Bool
  style : Document.Style
  deriving DecidableEq, Repr

namespace EmitOptions

/-- The options with the indent that is asked for, or else the default one. -/
def resolve (positions : Bool) (indent : Option Int) (sortKeys : Bool)
    (setting : Option Text) : Except IndentError EmitOptions :=
  match indent with
  | some n => .ok ⟨positions, ⟨n, sortKeys⟩⟩
  | none => (defaultIndent setting).map fun n => ⟨positions, ⟨n, sortKeys⟩⟩

end EmitOptions

end ProtoSchema
