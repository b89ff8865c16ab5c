import ProtoSchema.Source.Reading
import ProtoSchema.Text.Utf8

/-!
# Escapes and string literals

An escape denotes bytes: a byte by a letter, by hexadecimal or by octal digits, or the UTF-8
bytes of a code point. A string literal denotes the bytes of its characters and escapes in
order; its value is the text that stands for those bytes.
-/
namespace ProtoSchema

namespace Escape

/-- The byte that a backslash and one character denote. -/
def simple? : Char → Option UInt8
  | 'a' => some 0x07
  | 'b' => some 0x08
  | 'f' => some 0x0C
  | 'n' => some 0x0A
  | 'r' => some 0x0D
  | 't' => some 0x09
  | 'v' => some 0x0B
  | '\\' => some 0x5C
  | '"' => some 0x22
  | '\'' => some 0x27
  | '?' => some 0x3F
  | _ => none

/-- The first characters of a kind, `count` of them at most. -/
def leading (p : Char → Bool) (count : Nat) (cs : List Char) : List Char :=
  (cs.take count).takeWhile p

/-- Read exactly `count` hexadecimal digits; with fewer, the digits there are passed. -/
def hexNumber (count : Nat) (cs : List Char) : Reading Nat :=
  let digits := leading Numeral.isHexDigit count cs
  if digits.length = count then .done count (Numeral.ofDigits 16 digits)
  else .fail digits.length (.missingHexDigits count)

/-- The UTF-8 bytes of a code point. -/
def codePoint (value : Nat) : Except LexicalFault (List UInt8) :=
  if 0x10FFFF < value ∨ (0xD800 ≤ value ∧ value ≤ 0xDFFF) then
    .error (.invalidCodePoint value)
  else .ok (Utf8.encodeChar (Char.ofNat value))

/-- Read the code point written with exactly `count` hexadecimal digits. -/
def hexCodePoint (count : Nat) (cs : List Char) : Reading (List UInt8) :=
  let r := hexNumber count cs
  ⟨r.outcome.bind fun value => match codePoint value with
    | .ok bytes => .ok bytes
    | .error fault => .error ⟨0, fault⟩, r.length⟩

/-- Read the byte written with up to three octal digits. -/
def octalByte (cs : List Char) : Reading (List UInt8) :=
  let digits := leading Numeral.isOctalDigit 3 cs
  let value := Numeral.ofDigits 8 digits
  if 0xFF < value then .fail digits.length (.octalOutOfRange digits)
  else .done digits.length [UInt8.ofNat value]

/-- Move a reading behind `n` characters of the construct it is part of: a fault stays a fault
of that construct. -/
def within (n : Nat) (r : Reading α) : Reading α := ⟨r.outcome, n + r.length⟩

/-- Read what follows the backslash. -/
def afterBackslash : List Char → Reading (List UInt8)
  | [] => .fail 0 .unterminatedString
  | c :: rest =>
    match simple? c with
    | some b => .done 1 [b]
    | none =>
      if c = 'x' then within 1 ((hexNumber 2 rest).map fun n => [UInt8.ofNat n])
      else if c = 'u' then within 1 (hexCodePoint 4 rest)
      else if c = 'U' then within 1 (hexCodePoint 8 rest)
      else if Numeral.isOctalDigit c then octalByte (c :: rest)
      else if c = '\n' then .fail 0 .unterminatedString
      else .fail 0 (.invalidEscape c)

/-- Read an escape. Its first character is passed whatever it is; every fault lies at the
escape. -/
def read (cs : List Char) : Reading (List UInt8) :=
  within (cs.take 1).length (afterBackslash (cs.drop 1))

/-- The first character of an escape is passed whatever comes of it. -/
theorem length_read_pos {c : Char} {cs : List Char} : 0 < (read (c :: cs)).length := by
  simp only [read, within, List.take_succ_cons, List.take_zero, List.length_cons,
    List.length_nil]
  omega

end Escape

namespace StringLiteral

/-- Read the rest of a literal up to its closing quote. A fault that is no escape's is
reported by the caller, at the opening quote. -/
def body (quote : Char) : List Char → Reading (Option (List UInt8))
  | [] => .done 0 none
  | c :: rest =>
    if c = quote then .done 1 (some [])
    else if c = '\n' then .done 0 none
    else if c = '\\' then
      let escape := Escape.read (c :: rest)
      match escape.outcome with
      | .error e => ⟨.error e, escape.length⟩
      | .ok bytes =>
        ((body quote ((c :: rest).drop escape.length)).map
          fun more => more.map (bytes ++ ·)).after escape.length
    else ((body quote rest).map fun more => more.map (Utf8.encodeChar c ++ ·)).after 1
termination_by cs => cs.length
decreasing_by
  · have := @Escape.length_read_pos c rest
    simp only [List.length_drop, List.length_cons]
    omega
  · simp

/-- Read a literal whose quote is the first character, whatever it is. -/
def read : List Char → Reading Text
  | [] => .fail 0 .unterminatedString
  | quote :: rest =>
    let r := (body quote rest).after 1
    match r.outcome with
    | .ok (some bytes) => .done r.length (Utf8.decode bytes)
    | .ok none => .fail r.length .unterminatedString
    | .error e => ⟨.error e, r.length⟩

/-- The first character of a literal is passed whatever comes of it. -/
theorem length_read_pos {c : Char} {cs : List Char} : 0 < (read (c :: cs)).length := by
  have body_pos : 0 < ((body c cs).after 1).length := by
    rw [Reading.length_after]
    omega
  simp only [read]
  split <;> exact body_pos

end StringLiteral

end ProtoSchema
