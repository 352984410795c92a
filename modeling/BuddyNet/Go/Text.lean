import Mathlib.Data.List.Basic
import Mathlib.Tactic

/-!
# Go strings and the text functions the trust files are read with

A Go string and a `[]byte` are both finite sequences of bytes, so both are `Bytes` here, and no
file content or datagram is excluded for not being UTF-8.

* `lit` is a string literal of the source (its UTF-8 bytes);
* `decodeRune` and `encodeRune` are `utf8.DecodeRune` and `utf8.AppendRune`, with the
  replacement character for every ill-formed sequence;
* `fields` and `trimSpace` are `strings.Fields` and `strings.TrimSpace`, over the Unicode white
  space of `unicode.IsSpace`; `lowerASCII` and `parseUint16` are for words and port numbers;
* `scanLines` is a `bufio.Scanner` with the default split function and buffer: it returns the
  lines read and whether the scan ended in `bufio.ErrTooLong`.
-/

namespace BuddyNet

/-- A Go `string` or `[]byte`. -/
abbrev Bytes := List UInt8

/-- Go's `==` on strings is equality. -/
instance lawfulBEqBytes : LawfulBEq Bytes := List.instLawfulBEq

/-- The bytes of a string literal. -/
def lit (s : String) : Bytes := s.toList.flatMap String.utf8EncodeChar

/-- A literal by its characters; the kernel evaluates long literals faster in this form. -/
theorem lit_ofList (cs : List Char) :
    lit (String.ofList cs) = cs.flatMap String.utf8EncodeChar := by
  rw [lit, String.toList_ofList]

namespace Go

/-! ### Runes -/

/-- `utf8.RuneError`. -/
def runeError : ℕ := 0xFFFD

/-- A continuation byte of a multi-byte sequence. -/
def isCont (b : UInt8) : Bool := 0x80 ≤ b.toNat && b.toNat ≤ 0xBF

/-- `utf8.DecodeRune` on a non-empty sequence: the rune and its width. Overlong forms,
surrogates and values above `0x10FFFF` are ill formed, and an ill-formed byte has width one. -/
def decodeRune : Bytes → ℕ × ℕ
  | [] => (runeError, 0)
  | b0 :: rest =>
    let n0 := b0.toNat
    if n0 < 0x80 then (n0, 1)
    else match rest with
      | b1 :: rest1 =>
        let r2 := (n0 - 0xC0) * 64 + (b1.toNat - 0x80)
        if 0xC2 ≤ n0 && n0 ≤ 0xDF && isCont b1 then (r2, 2)
        else match rest1 with
          | b2 :: rest2 =>
            let r3 := ((n0 - 0xE0) * 64 + (b1.toNat - 0x80)) * 64 + (b2.toNat - 0x80)
            if 0xE0 ≤ n0 && n0 ≤ 0xEF && isCont b1 && isCont b2 && 0x800 ≤ r3
                && !(0xD800 ≤ r3 && r3 ≤ 0xDFFF) then (r3, 3)
            else match rest2 with
              | b3 :: _ =>
                let r4 := (((n0 - 0xF0) * 64 + (b1.toNat - 0x80)) * 64 + (b2.toNat - 0x80)) * 64
                  + (b3.toNat - 0x80)
                if 0xF0 ≤ n0 && n0 ≤ 0xF4 && isCont b1 && isCont b2 && isCont b3
                    && 0x10000 ≤ r4 && r4 ≤ 0x10FFFF then (r4, 4)
                else (runeError, 1)
              | [] => (runeError, 1)
          | [] => (runeError, 1)
      | [] => (runeError, 1)

/-- `utf8.AppendRune` onto the empty slice. -/
def encodeRune (r : ℕ) : Bytes :=
  let r := if 0x10FFFF < r || (0xD800 ≤ r && r ≤ 0xDFFF) then runeError else r
  if r < 0x80 then [r.toUInt8]
  else if r < 0x800 then [(0xC0 + r / 64).toUInt8, (0x80 + r % 64).toUInt8]
  else if r < 0x10000 then
    [(0xE0 + r / 4096).toUInt8, (0x80 + r / 64 % 64).toUInt8, (0x80 + r % 64).toUInt8]
  else
    [(0xF0 + r / 262144).toUInt8, (0x80 + r / 4096 % 64).toUInt8, (0x80 + r / 64 % 64).toUInt8,
      (0x80 + r % 64).toUInt8]

/-- `unicode.IsSpace`. -/
def isSpace (r : ℕ) : Bool :=
  (9 ≤ r && r ≤ 13) || r == 0x20 || r == 0x85 || r == 0xA0 || r == 0x1680 ||
    (0x2000 ≤ r && r ≤ 0x200A) || r == 0x2028 || r == 0x2029 || r == 0x202F || r == 0x205F ||
    r == 0x3000

/-! ### `strings.Fields` and `strings.TrimSpace` -/

/-- The runes of a string, each as the bytes it occupies and whether it is white space. The fuel
is the length, since every rune is at least one byte wide. -/
def runes : ℕ → Bytes → List (Bytes × Bool)
  | 0, _ => []
  | _, [] => []
  | fuel + 1, s =>
    let (r, w) := decodeRune s
    (s.take w, isSpace r) :: runes fuel (s.drop w)

/-- Collect maximal runs of non-space runes; `cur` is the field being read. -/
def fieldsAux : List (Bytes × Bool) → Bytes → List Bytes
  | [], cur => if cur = [] then [] else [cur]
  | (b, sp) :: rest, cur =>
    if sp then (if cur = [] then fieldsAux rest [] else cur :: fieldsAux rest [])
    else fieldsAux rest (cur ++ b)

/-- `strings.Fields`. -/
def fields (s : Bytes) : List Bytes := fieldsAux (runes s.length s) []

/-- `strings.TrimSpace`. -/
def trimSpace (s : Bytes) : Bytes :=
  let rs := (runes s.length s).dropWhile (·.2)
  ((rs.reverse.dropWhile (·.2)).reverse.map (·.1)).flatten

/-- The order of Go strings: byte by byte, a proper prefix first. -/
def strLt : Bytes → Bytes → Bool
  | _, [] => false
  | [], _ :: _ => true
  | a :: as, b :: bs => a.toNat < b.toNat || (a == b && strLt as bs)

/-- The part of `strings.ToLower` that comparisons with ASCII words depend on. -/
def lowerASCII (s : Bytes) : Bytes :=
  s.map fun c => if 65 ≤ c.toNat ∧ c.toNat ≤ 90 then c + 32 else c

/-- `strconv.ParseUint(s, 10, 16)`. -/
def parseUint16 (s : Bytes) : Option UInt16 :=
  if s ≠ [] ∧ s.all (fun c => 48 ≤ c.toNat && c.toNat ≤ 57) then
    let n := s.foldl (fun n c => n * 10 + (c.toNat - 48)) 0
    if n < 65536 then some n.toUInt16 else none
  else none

/-! ### `bufio.Scanner` -/

/-- The newline byte. -/
def nl : UInt8 := 10

/-- The carriage-return byte. -/
def cr : UInt8 := 13

/-- `bufio.MaxScanTokenSize`. -/
def maxScanTokenSize : ℕ := 64 * 1024

/-- The text before the first newline and, when there is one, the text after it. -/
def cutLine : Bytes → Bytes × Option Bytes
  | [] => ([], none)
  | b :: rest =>
    if b = nl then ([], some rest)
    else
      let (l, r) := cutLine rest
      (b :: l, r)

/-- `bufio.dropCR`: one trailing carriage return is not part of the line. -/
def dropCR (l : Bytes) : Bytes := if l.getLast? = some cr then l.dropLast else l

/-- The lines a `bufio.Scanner` returns, and whether `Scanner.Err` is `bufio.ErrTooLong`. The
buffer never grows past `maxScanTokenSize`, so a line of that length without its newline in the
buffer ends the scan; a final line without a newline is read at end of file only while the buffer
is not full. -/
def scanLinesAux : ℕ → Bytes → List Bytes × Bool
  | 0, _ => ([], false)
  | _, [] => ([], false)
  | fuel + 1, s =>
    let (l, rest) := cutLine s
    if maxScanTokenSize ≤ l.length then ([], true)
    else match rest with
      | none => ([dropCR l], false)
      | some r =>
        let (ls, e) := scanLinesAux fuel r
        (dropCR l :: ls, e)

/-- A whole scan; every line uses up at least one byte, so the length is fuel enough. -/
def scanLines (s : Bytes) : List Bytes × Bool := scanLinesAux s.length s

/-- A text of lines, each with its newline. -/
def unlines (ls : List Bytes) : Bytes := ls.flatMap (· ++ [nl])

end Go

end BuddyNet
