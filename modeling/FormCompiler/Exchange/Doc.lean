import FormCompiler.Decimal.Shortest

/-!
# Documents

The data in which requests and answers are exchanged, and its text form. Fields of an object keep their order. Whole
numbers are exact; a number with a point or an exponent is a double and keeps the sign of zero.
-/

namespace FormCompiler

inductive Doc where
  | null
  | bool (b : Bool)
  | int (n : Int)
  | real (x : Float)
  | str (s : String)
  | list (items : List Doc)
  | object (fields : List (String × Doc))
  deriving Inhabited

namespace Doc

/-- A whole number that is not negative. -/
def nat (n : Nat) : Doc := .int n

/-- A list of whole numbers that are not negative. -/
def nats (ns : List Nat) : Doc := .list (ns.map nat)

def ints (ns : List Int) : Doc := .list (ns.map .int)

def str? : Option String → Doc
  | some s => .str s
  | none => .null

def float (x : Float) : Doc := .str (Decimal.shortest x)

/-- The field of an object, none if it is missing or null. -/
def get? (d : Doc) (key : String) : Option Doc :=
  match d with
  | .object fields =>
    match fields.find? fun p => p.1 == key with
    | some (_, .null) | none => none
    | some (_, v) => some v
  | _ => none

/-- Has the object a field, be it null? -/
def has (d : Doc) (key : String) : Bool :=
  match d with
  | .object fields => fields.any fun p => p.1 == key
  | _ => false

/-- Is the field the truth value true? -/
def flag (d : Doc) (key : String) : Bool :=
  match d.get? key with
  | some (.bool b) => b
  | _ => false

/-- How deep lists and objects are nested. -/
def height : Doc → Nat
  | .list items => 1 + heightAll items
  | .object fields => 1 + heightFields fields
  | _ => 0
where
  heightAll : List Doc → Nat
    | [] => 0
    | d :: ds => max d.height (heightAll ds)
  heightFields : List (String × Doc) → Nat
    | [] => 0
    | (_, d) :: ds => max d.height (heightFields ds)

/-! ## Writing -/

def escape (c : Char) : String :=
  if c == '"' then "\\\""
  else if c == '\\' then "\\\\"
  else if c.toNat < 0x20 then
    let digits := Nat.toDigits 16 c.toNat
    "\\u" ++ String.ofList (List.replicate (4 - digits.length) '0' ++ digits)
  else c.toString

def quote (s : String) : String := s.foldl (fun acc c => acc ++ escape c) "\"" ++ "\""

/-- A document as text, put behind what has been written. -/
def write : Doc → String → String
  | .null, acc => acc ++ "null"
  | .bool b, acc => acc ++ (if b then "true" else "false")
  | .int n, acc => acc ++ toString n
  | .real x, acc => acc ++ Decimal.shortest x
  | .str s, acc => acc ++ quote s
  | .list items, acc => writeItems items true (acc ++ "[") ++ "]"
  | .object fields, acc => writeFields fields true (acc ++ "\x7b") ++ "\x7d"
where
  writeItems : List Doc → Bool → String → String
    | [], _, acc => acc
    | d :: ds, first, acc => writeItems ds false (d.write (if first then acc else acc ++ ","))
  writeFields : List (String × Doc) → Bool → String → String
    | [], _, acc => acc
    | (k, d) :: ds, first, acc =>
      writeFields ds false (d.write ((if first then acc else acc ++ ",") ++ quote k ++ ":"))

def text (d : Doc) : String := d.write ""

/-! ## Reading -/

def skipBlanks (cs : List Char) : List Char :=
  cs.dropWhile fun c => c == ' ' || c == '\n' || c == '\r' || c == '\t'

def hexValue (c : Char) : Nat :=
  if c.isDigit then c.toNat - '0'.toNat
  else if 'a' ≤ c && c ≤ 'f' then c.toNat - 'a'.toNat + 10
  else if 'A' ≤ c && c ≤ 'F' then c.toNat - 'A'.toNat + 10
  else 0

def readHex : List Char → Option (Nat × List Char)
  | a :: b :: c :: d :: rest => some (((hexValue a * 16 + hexValue b) * 16 + hexValue c) * 16 + hexValue d, rest)
  | _ => none

/-- The character of a code, which may be the first half of a pair. -/
def readCode (cs : List Char) : Option (Char × List Char) := do
  let (n, rest) ← readHex cs
  if 0xd800 ≤ n && n < 0xdc00 then
    match rest with
    | '\\' :: 'u' :: rest' =>
      let (m, rest'') ← readHex rest'
      return (Char.ofNat (0x10000 + (n - 0xd800) * 0x400 + (m - 0xdc00)), rest'')
    | _ => return (Char.ofNat 0xfffd, rest)
  else return (Char.ofNat n, rest)

/-- What follows an opening quote, up to the closing one. -/
def readText : Nat → List Char → List Char → Option (String × List Char)
  | 0, _, _ => none
  | _ + 1, [], _ => none
  | _ + 1, '"' :: rest, acc => some (String.ofList acc.reverse, rest)
  | n + 1, '\\' :: c :: rest, acc =>
    match c with
    | 'n' => readText n rest ('\n' :: acc)
    | 't' => readText n rest ('\t' :: acc)
    | 'r' => readText n rest ('\r' :: acc)
    | 'b' => readText n rest ('\x08' :: acc)
    | 'f' => readText n rest ('\x0c' :: acc)
    | 'u' =>
      match readCode rest with
      | some (c, rest) => readText n rest (c :: acc)
      | none => none
    | c => readText n rest (c :: acc)
  | n + 1, c :: rest, acc => readText n rest (c :: acc)

/-- The whole number of some digits. -/
def digitsValue (cs : List Char) : Nat := cs.foldl (fun acc c => acc * 10 + (c.toNat - '0'.toNat)) 0

def numberOf (token : List Char) : Doc :=
  let negative := token.head? == some '-'
  let body := if negative then token.drop 1 else token
  let whole := body.takeWhile Char.isDigit
  let rest := body.dropWhile Char.isDigit
  if rest.isEmpty then
    let n : Int := digitsValue whole
    .int (if negative then -n else n)
  else
    let (fraction, rest) := match rest with
      | '.' :: rest => (rest.takeWhile Char.isDigit, rest.dropWhile Char.isDigit)
      | rest => ([], rest)
    let exponent : Int := match rest with
      | _ :: '-' :: ds => -(digitsValue ds : Int)
      | _ :: '+' :: ds => digitsValue ds
      | _ :: ds => digitsValue ds
      | [] => 0
    let mantissa := digitsValue (whole ++ fraction)
    let scale : Int := exponent - fraction.length
    let x := Float.ofScientific mantissa (decide (scale < 0)) scale.natAbs
    .real (if negative then -x else x)

def isNumberChar (c : Char) : Bool := c.isDigit || c == '-' || c == '+' || c == '.' || c == 'e' || c == 'E'

mutual

def readValue : Nat → List Char → Option (Doc × List Char)
  | 0, _ => none
  | n + 1, cs =>
    match skipBlanks cs with
    | '"' :: rest => (readText (rest.length + 1) rest []).map fun (s, rest) => (.str s, rest)
    | '[' :: rest =>
      match skipBlanks rest with
      | ']' :: rest => some (.list [], rest)
      | rest => (readItems n rest []).map fun (items, rest) => (.list items, rest)
    | '\x7b' :: rest =>
      match skipBlanks rest with
      | '\x7d' :: rest => some (.object [], rest)
      | rest => (readFields n rest []).map fun (fields, rest) => (.object fields, rest)
    | 't' :: 'r' :: 'u' :: 'e' :: rest => some (.bool true, rest)
    | 'f' :: 'a' :: 'l' :: 's' :: 'e' :: rest => some (.bool false, rest)
    | 'n' :: 'u' :: 'l' :: 'l' :: rest => some (.null, rest)
    | c :: rest =>
      if isNumberChar c then
        some (numberOf (c :: rest.takeWhile isNumberChar), rest.dropWhile isNumberChar)
      else none
    | [] => none

def readItems : Nat → List Char → List Doc → Option (List Doc × List Char)
  | 0, _, _ => none
  | n + 1, cs, acc =>
    match readValue n cs with
    | none => none
    | some (d, rest) =>
      match skipBlanks rest with
      | ',' :: rest => readItems n rest (d :: acc)
      | ']' :: rest => some ((d :: acc).reverse, rest)
      | _ => none

/-- The fields of an object up to its end. -/
def readFields : Nat → List Char → List (String × Doc) → Option (List (String × Doc) × List Char)
  | 0, _, _ => none
  | n + 1, cs, acc =>
    match skipBlanks cs with
    | '"' :: rest =>
      match readText (rest.length + 1) rest [] with
      | none => none
      | some (k, rest) =>
        match skipBlanks rest with
        | ':' :: rest =>
          match readValue n rest with
          | none => none
          | some (d, rest) =>
            match skipBlanks rest with
            | ',' :: rest => readFields n rest ((k, d) :: acc)
            | '\x7d' :: rest => some (((k, d) :: acc).reverse, rest)
            | _ => none
        | _ => none
    | _ => none

end

def ofText? (s : String) : Option Doc :=
  let cs := s.toList
  match readValue (cs.length + 1) cs with
  | some (d, rest) => if (skipBlanks rest).isEmpty then some d else none
  | none => none

end Doc

end FormCompiler
