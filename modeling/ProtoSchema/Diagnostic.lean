import ProtoSchema.Grammar.Schema

/-!
# Diagnostics

A fault of a named source, as it is reported to a person.
-/
namespace ProtoSchema

/-- What is wrong with a source. -/
inductive Finding where
  | lexical (e : LexicalError)
  | unexpected (e : SyntaxError)
  deriving DecidableEq

namespace Finding

/-- The words for what is wrong. -/
def text : Finding → Text
  | lexical e => e.fault.message
  | unexpected e => e.text

/-- Where it is wrong: at a character, or at a token. -/
def position : Finding → Position
  | lexical e => e.position
  | unexpected e => e.actual.position

/-- The grammar rule that was being read; characters belong to none. -/
def rule? : Finding → Option Rule
  | lexical _ => none
  | unexpected e => e.rule

end Finding

/-- A finding, and the name its source goes by. -/
structure Diagnostic where
  source : Text
  finding : Finding
  deriving DecidableEq

namespace Diagnostic

/-- The source, the position and the wording, with colons between them. -/
def message (d : Diagnostic) : Text :=
  let p := d.finding.position
  d.source ++ Text.ofString s!":{p.line}:{p.column}: " ++ d.finding.text

end Diagnostic

end ProtoSchema
