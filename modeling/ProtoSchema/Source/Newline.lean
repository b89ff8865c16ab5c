/-!
# Line ends

Files may end their lines in a newline, a carriage return, or both. Inside the library a line
ends in a newline only.
-/
namespace ProtoSchema

/-- Every line end as a newline. -/
def normalizeNewlines : List Char → List Char
  | [] => []
  | '\r' :: '\n' :: rest => '\n' :: normalizeNewlines rest
  | '\r' :: rest => '\n' :: normalizeNewlines rest
  | c :: rest => c :: normalizeNewlines rest

end ProtoSchema
