import Mathlib.Data.Nat.Digits.Defs
import BuddyNet.Go.Text

/-!
# `encoding/json`

The reader and the string writer of the Go standard library, over bytes.

* `parse` is the grammar the scanner accepts: one value with white space around it, nested at most
  `maxNestingDepth` deep. A string is decoded as `unquote` does, so ill-formed UTF-8 and unpaired
  surrogates become the replacement character;
* `resolve` is how an object member finds the struct field it is stored in: the exact name first,
  otherwise the name that folds to the same letters;
* `stringField` and `intField` store every member that resolves to the field, in the order of the
  text: the last one wins, `null` stores nothing, and a value of another type fails the decoding;
* `quote` writes a string with the HTML-safe escapes `json.Marshal` uses.
-/

namespace BuddyNet.Go

open List

/-- A decoded JSON value. A number keeps its literal and an object the order of its members. -/
inductive Json where
  | null
  | bool (b : Bool)
  | num (literal : Bytes)
  | str (s : Bytes)
  | arr (elems : List Json)
  | obj (members : List (Bytes × Json))

namespace Json

/-! ### Tokens -/

/-- White space between tokens. -/
def isWs (c : UInt8) : Bool := c == 32 || c == 9 || c == 13 || c == 10

/-- Skip white space. -/
def skipWs (s : Bytes) : Bytes := s.dropWhile isWs

/-- A decimal digit. -/
def isDigit (c : UInt8) : Bool := 48 ≤ c.toNat && c.toNat ≤ 57

/-- The value of a hexadecimal digit. -/
def hexDigit (c : UInt8) : Option ℕ :=
  let n := c.toNat
  if 48 ≤ n ∧ n ≤ 57 then some (n - 48)
  else if 97 ≤ n ∧ n ≤ 102 then some (n - 87)
  else if 65 ≤ n ∧ n ≤ 70 then some (n - 55)
  else none

/-- The four digits after `\u`. -/
def hex4 : Bytes → Option (ℕ × Bytes)
  | a :: b :: c :: d :: rest => do
    let va ← hexDigit a
    let vb ← hexDigit b
    let vc ← hexDigit c
    let vd ← hexDigit d
    return (((va * 16 + vb) * 16 + vc) * 16 + vd, rest)
  | _ => none

/-- The second half of a surrogate pair, when it directly follows. -/
def lowSurrogate : Bytes → Option (ℕ × Bytes)
  | 92 :: 117 :: rest => do
    let (r, rest') ← hex4 rest
    if 0xDC00 ≤ r ∧ r ≤ 0xDFFF then some (r, rest') else none
  | _ => none

/-- The byte a one-character escape stands for. -/
def simpleEscape (c : UInt8) : Option UInt8 :=
  if c = 34 ∨ c = 92 ∨ c = 47 then some c
  else if c = 98 then some 8
  else if c = 102 then some 12
  else if c = 110 then some 10
  else if c = 114 then some 13
  else if c = 116 then some 9
  else none

/-- What follows a backslash: the bytes it stands for and the rest. -/
def escape : Bytes → Option (Bytes × Bytes)
  | [] => none
  | c :: rest =>
    if c = 117 then do
      let (r, rest1) ← hex4 rest
      if 0xD800 ≤ r ∧ r ≤ 0xDBFF then
        -- an unpaired half is replaced and what follows it is read on its own
        match lowSurrogate rest1 with
        | some (r', rest2) =>
          some (encodeRune (0x10000 + (r - 0xD800) * 1024 + (r' - 0xDC00)), rest2)
        | none => some (encodeRune runeError, rest1)
      else some (encodeRune r, rest1)
    else (simpleEscape c).map fun b => ([b], rest)

/-- The text of a string after its opening quote, decoded, and what follows the closing one. -/
def stringBody : ℕ → Bytes → Option (Bytes × Bytes)
  | 0, _ => none
  | _ + 1, [] => none
  | fuel + 1, c :: rest =>
    if c = 34 then some ([], rest)
    else if c.toNat < 0x20 then none
    else if c = 92 then do
      let (b, rest1) ← escape rest
      let (s, rest2) ← stringBody fuel rest1
      return (b ++ s, rest2)
    else do
      let (r, w) := decodeRune (c :: rest)
      let (s, rest2) ← stringBody fuel ((c :: rest).drop w)
      return (encodeRune r ++ s, rest2)

/-- One or more digits. -/
def digits1 (s : Bytes) : Option (Bytes × Bytes) :=
  match s.span isDigit with
  | ([], _) => none
  | (ds, rest) => some (ds, rest)

/-- The integer part of a number: no leading zero. -/
def intPart : Bytes → Option (Bytes × Bytes)
  | [] => none
  | c :: rest => if c = 48 then some ([c], rest) else digits1 (c :: rest)

/-- An optional fraction. -/
def fracPart : Bytes → Option (Bytes × Bytes)
  | 46 :: rest => (digits1 rest).map fun p => (46 :: p.1, p.2)
  | s => some ([], s)

/-- An optional exponent. -/
def expPart : Bytes → Option (Bytes × Bytes)
  | [] => some ([], [])
  | c :: rest =>
    if c = 101 ∨ c = 69 then
      match rest with
      | [] => none
      | g :: rest' =>
        if g = 43 ∨ g = 45 then (digits1 rest').map fun p => (c :: g :: p.1, p.2)
        else (digits1 rest).map fun p => (c :: p.1, p.2)
    else some ([], c :: rest)

/-- A number literal. -/
def number (s : Bytes) : Option (Bytes × Bytes) := do
  let (sign, s1) := if s.head? = some 45 then ([45], s.tail) else ([], s)
  let (i, s2) ← intPart s1
  let (f, s3) ← fracPart s2
  let (e, s4) ← expPart s3
  return (sign ++ i ++ f ++ e, s4)

def maxNestingDepth : ℕ := 10000

/-- Drop a keyword of the grammar. -/
def keyword (w s : Bytes) : Option Bytes := if w.isPrefixOf s then some (s.drop w.length) else none

/-! ### Values -/

mutual

/-- One value, with the white space before it. -/
def value : ℕ → ℕ → Bytes → Option (Json × Bytes)
  | 0, _, _ => none
  | fuel + 1, depth, s =>
    match skipWs s with
    | [] => none
    | c :: rest =>
      if c = 34 then (stringBody (rest.length + 1) rest).map fun p => (str p.1, p.2)
      else if c = 123 then
        if maxNestingDepth < depth + 1 then none
        else match skipWs rest with
          | 125 :: rest' => some (obj [], rest')
          | _ => (members fuel (depth + 1) rest).map fun p => (obj p.1, p.2)
      else if c = 91 then
        if maxNestingDepth < depth + 1 then none
        else match skipWs rest with
          | 93 :: rest' => some (arr [], rest')
          | _ => (elements fuel (depth + 1) rest).map fun p => (arr p.1, p.2)
      else if c = 116 then (keyword (lit "true") (c :: rest)).map fun r => (bool true, r)
      else if c = 102 then (keyword (lit "false") (c :: rest)).map fun r => (bool false, r)
      else if c = 110 then (keyword (lit "null") (c :: rest)).map fun r => (null, r)
      else (number (c :: rest)).map fun p => (num p.1, p.2)

/-- The elements of an array up to its closing bracket. -/
def elements : ℕ → ℕ → Bytes → Option (List Json × Bytes)
  | 0, _, _ => none
  | fuel + 1, depth, s => do
    let (v, rest) ← value fuel depth s
    match skipWs rest with
    | 44 :: rest' =>
      let (vs, rest'') ← elements fuel depth rest'
      return (v :: vs, rest'')
    | 93 :: rest' => return ([v], rest')
    | _ => none

/-- The members of an object up to its closing brace. -/
def members : ℕ → ℕ → Bytes → Option (List (Bytes × Json) × Bytes)
  | 0, _, _ => none
  | fuel + 1, depth, s =>
    match skipWs s with
    | 34 :: rest => do
      let (k, rest1) ← stringBody (rest.length + 1) rest
      match skipWs rest1 with
      | 58 :: rest2 =>
        let (v, rest3) ← value fuel depth rest2
        match skipWs rest3 with
        | 44 :: rest4 =>
          let (kvs, rest5) ← members fuel depth rest4
          return ((k, v) :: kvs, rest5)
        | 125 :: rest4 => return ([(k, v)], rest4)
        | _ => none
      | _ => none
    | _ => none

end

/-- The single value a text consists of. -/
def parse (s : Bytes) : Option Json := do
  let (v, rest) ← value (2 * s.length + 2) 0 s
  if skipWs rest = [] then some v else none

/-! ### Struct fields -/

/-- `foldRune` restricted to what can fold to an ASCII letter. -/
def foldRune (r : ℕ) : ℕ :=
  if 97 ≤ r ∧ r ≤ 122 then r - 32
  else if r = 0x17F then 83
  else if r = 0x212A then 75
  else r

/-- `foldName`: the runes of a name after case folding. -/
def foldName (name : Bytes) : List ℕ :=
  (runes name.length name).map fun p => foldRune (decodeRune p.1).1

/-- The field, of those a struct has, in which a member is stored. -/
def resolve (fieldNames : List Bytes) (key : Bytes) : Option Bytes :=
  if key ∈ fieldNames then some key
  else fieldNames.find? fun f => foldName f = foldName key

/-- The values stored in a field, in the order of the text. -/
def valuesOf (fieldNames : List Bytes) (ms : List (Bytes × Json)) (f : Bytes) : List Json :=
  ms.filterMap fun m => if resolve fieldNames m.1 = some f then some m.2 else none

/-- `DisallowUnknownFields`. -/
def allKnown (fieldNames : List Bytes) (ms : List (Bytes × Json)) : Bool :=
  ms.all fun m => (resolve fieldNames m.1).isSome

/-- Decode into a `string` field. -/
def stringField (vs : List Json) : Option Bytes :=
  vs.foldlM (fun cur v => match v with
    | null => some cur
    | str s => some s
    | _ => none) []

/-- `strconv.ParseInt(literal, 10, 64)`. -/
def parseInt64 (l : Bytes) : Option ℤ :=
  let neg := l.head? = some 45
  let ds := if neg then l.tail else l
  if ds = [] ∨ !ds.all isDigit then none
  else
    let n : ℤ := ds.foldl (fun (a : ℤ) c => a * 10 + ((c.toNat : ℤ) - 48)) 0
    let v := if neg then -n else n
    if -2 ^ 63 ≤ v ∧ v < 2 ^ 63 then some v else none

/-- Decode into an `int` or `int64` field. -/
def intField (vs : List Json) : Option ℤ :=
  vs.foldlM (fun cur v => match v with
    | null => some cur
    | num l => parseInt64 l
    | _ => none) 0

/-- Decode into a `bool` field. -/
def boolField (vs : List Json) : Option Bool :=
  vs.foldlM (fun cur v => match v with
    | null => some cur
    | bool b => some b
    | _ => none) false

/-- Decode into a slice. A repeated member, which `json.Marshal` never writes, replaces the first
one here; `json.Unmarshal` would decode it over the elements that are there. -/
def sliceField {α : Type*} (elem : Json → Option α) (vs : List Json) : Option (List α) :=
  vs.foldlM (fun _ v => match v with
    | null => some []
    | arr es => es.mapM elem
    | _ => none) []

/-- The members a struct is decoded from; a top-level `null` stores nothing. -/
def structMembers : Json → Option (List (Bytes × Json))
  | obj ms => some ms
  | null => some []
  | _ => none

/-! ### Types

Whether a value can be decoded into a Go value of a given type. A field whose content is not looked
at still has to fit, since `json.Unmarshal` fails otherwise. -/

/-- Into a `string`. -/
def fitsString : Json → Bool
  | null => true
  | str _ => true
  | _ => false

/-- Into an `int64`. -/
def fitsInt : Json → Bool
  | null => true
  | num l => (parseInt64 l).isSome
  | _ => false

/-- Into a `bool`. -/
def fitsBool : Json → Bool
  | null => true
  | bool _ => true
  | _ => false

/-- Into a slice, with the test for its elements. -/
def fitsSlice (elem : Json → Bool) : Json → Bool
  | null => true
  | arr vs => vs.all elem
  | _ => false

/-- Into a struct or a pointer to one, with the test for each field. -/
def fitsStruct (fields : List (Bytes × (Json → Bool))) : Json → Bool
  | null => true
  | obj ms => fields.all fun f => (valuesOf (fields.map (·.1)) ms f.1).all f.2
  | _ => false

/-! ### Writing -/

/-- A hexadecimal digit in lower case. -/
def hexChar (n : ℕ) : UInt8 := if n < 10 then (48 + n).toUInt8 else (87 + n).toUInt8

/-- One ASCII byte inside a string, with HTML escaping. -/
def quoteByte (c : UInt8) : Bytes :=
  if c = 92 ∨ c = 34 then [92, c]
  else if c = 8 then [92, 98]
  else if c = 12 then [92, 102]
  else if c = 10 then [92, 110]
  else if c = 13 then [92, 114]
  else if c = 9 then [92, 116]
  else if c.toNat < 0x20 ∨ c = 60 ∨ c = 62 ∨ c = 38 then
    lit "\\u00" ++ [hexChar (c.toNat / 16), hexChar (c.toNat % 16)]
  else [c]

/-- One rune inside a string: ill-formed bytes and the two JavaScript line separators are
escaped. -/
def quoteRune (b : Bytes) : Bytes :=
  match b with
  | [c] => if c.toNat < 0x80 then quoteByte c else lit "\\ufffd"
  | _ =>
    let r := (decodeRune b).1
    if r = 0x2028 then lit "\\u2028" else if r = 0x2029 then lit "\\u2029" else b

/-- A string value. -/
def quote (s : Bytes) : Bytes :=
  [34] ++ (runes s.length s).flatMap (fun p => quoteRune p.1) ++ [34]

/-- An array of written values. -/
def array (vs : List Bytes) : Bytes := [91] ++ (vs.intersperse [44]).flatten ++ [93]

/-- An object of written values. -/
def object (ms : List (Bytes × Bytes)) : Bytes :=
  [123] ++ ((ms.map fun m => quote m.1 ++ [58] ++ m.2).intersperse [44]).flatten ++ [125]

/-- A string member with `omitempty`. -/
def optString (name s : Bytes) : List (Bytes × Bytes) := if s = [] then [] else [(name, quote s)]

end Json

/-! ### `strconv.Itoa` -/

/-- The decimal digits of a number. -/
def itoa (n : ℕ) : Bytes :=
  if n = 0 then [48] else ((Nat.digits 10 n).map fun d => (48 + d).toUInt8).reverse

theorem itoa_ne_nil (n : ℕ) : itoa n ≠ [] := by
  unfold itoa
  split_ifs with h
  · exact cons_ne_nil _ _
  · simpa using Nat.digits_ne_nil_iff_ne_zero.2 h

theorem mem_itoa {n : ℕ} {c : UInt8} (h : c ∈ itoa n) : 48 ≤ c.toNat ∧ c.toNat ≤ 57 := by
  unfold itoa at h
  split_ifs at h
  · rw [mem_singleton.1 h]
    decide
  · obtain ⟨d, hd, rfl⟩ := mem_map.1 (mem_reverse.1 h)
    have hlt : d < 10 := Nat.digits_lt_base (by decide) hd
    simp only [Nat.toUInt8, UInt8.toNat_ofNat']
    omega

/-- **A number is read back from its digits**, in any type that has their values. -/
theorem foldl_itoa {α : Type*} [CommSemiring α] {val : UInt8 → α}
    (hval : ∀ d < 10, val (48 + d).toUInt8 = (d : ℕ)) (n : ℕ) :
    (itoa n).foldl (fun a c => a * 10 + val c) 0 = n := by
  have hdigits : ∀ ds : List ℕ, (∀ d ∈ ds, d < 10) →
      (ds.map fun d => (48 + d).toUInt8).foldr (fun c a => a * 10 + val c) 0 =
        (Nat.ofDigits 10 ds : ℕ) := by
    intro ds hds
    induction ds with
    | nil => exact Nat.cast_zero.symm
    | cons d ds ih =>
      obtain ⟨hd, hds⟩ := forall_mem_cons.1 hds
      rw [map_cons, foldr_cons, ih hds, hval d hd, Nat.ofDigits_cons]
      push_cast
      ring
  rw [itoa]
  split_ifs with hn
  · simpa [hn] using hval 0 (by decide)
  · rw [foldl_reverse, hdigits _ fun d hd => Nat.digits_lt_base (by decide) hd,
      Nat.ofDigits_digits]

theorem foldl_itoa_nat (n : ℕ) : (itoa n).foldl (fun a c => a * 10 + (c.toNat - 48)) 0 = n := by
  refine foldl_itoa (fun d hd => ?_) n
  rw [Nat.cast_id, Nat.toUInt8, UInt8.toNat_ofNat']
  omega

theorem itoa_injective : Function.Injective itoa := Function.LeftInverse.injective foldl_itoa_nat

/-- `strconv.FormatInt(n, 10)`. -/
def formatInt (n : ℤ) : Bytes := if n < 0 then 45 :: itoa n.natAbs else itoa n.natAbs

end BuddyNet.Go
