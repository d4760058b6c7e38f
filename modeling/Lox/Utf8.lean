/-!
# Text of bytes

Bytes are read as UTF-8. Where they are ill-formed, each longest run of bytes that starts a character
without finishing it, and each byte that starts none, stands for one replacement character.
-/

namespace Lox

namespace Utf8

/-- The character that stands for ill-formed bytes. -/
def replacement : Char := '\ufffd'

/-- Whether a byte continues a character. -/
def isContinuation (b : UInt8) : Bool := 0x80 ≤ b && b ≤ 0xbf

/-- For a byte that starts a character, the number of bytes after it and its own bits. -/
def lead? (a : UInt8) : Option (Nat × UInt8) :=
  if a < 0x80 then some (0, a)
  else if 0xc2 ≤ a && a ≤ 0xdf then some (1, a - 0xc0)
  else if 0xe0 ≤ a && a ≤ 0xef then some (2, a - 0xe0)
  else if 0xf0 ≤ a && a ≤ 0xf4 then some (3, a - 0xf0)
  else none

/-- Whether `b` may follow the byte `a` at the start of a character. -/
def isSecond (a b : UInt8) : Bool :=
  if a = 0xe0 then 0xa0 ≤ b && b ≤ 0xbf
  else if a = 0xed then 0x80 ≤ b && b ≤ 0x9f
  else if a = 0xf0 then 0x90 ≤ b && b ≤ 0xbf
  else if a = 0xf4 then 0x80 ≤ b && b ≤ 0x8f
  else isContinuation b

/-- The bytes that go on with a character started by `a`, at most `n` of them. -/
def tail (a : UInt8) : Nat → List UInt8 → List UInt8
  | n + 1, b :: rest => if isSecond a b then b :: (rest.take n).takeWhile isContinuation else []
  | _, _ => []

/-- The character at the front of `a :: rest`, and the number of bytes of `rest` that it takes. -/
def first (a : UInt8) (rest : List UInt8) : Char × Nat :=
  match lead? a with
  | none => (replacement, 0)
  | some (n, high) =>
    let low := tail a n rest
    if low.length = n then
      (Char.ofNat (low.foldl (fun k b => 64 * k + (b.toNat - 0x80)) high.toNat), n)
    else (replacement, low.length)

/-- The characters of a list of bytes. -/
def decode : List UInt8 → List Char
  | [] => []
  | a :: rest => (first a rest).1 :: decode (rest.drop (first a rest).2)
termination_by bytes => bytes.length
decreasing_by simp only [List.length_drop, List.length_cons]; omega

/-- The text of bytes. Well-formed bytes are taken as they are. -/
def text (bytes : ByteArray) : String :=
  match String.fromUTF8? bytes with
  | some s => s
  | none => String.ofList (decode bytes.toList)

/-- The lines of a list of bytes, each with the line feed that ends it. -/
def lines : List UInt8 → List (List UInt8)
  | [] => []
  | b :: bs =>
    if b = 10 then [b] :: lines bs
    else
      match lines bs with
      | [] => [[b]]
      | l :: ls => (b :: l) :: ls

end Utf8

end Lox
