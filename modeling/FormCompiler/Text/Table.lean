import FormCompiler.Decimal.General
import FormCompiler.Tensor

/-!
# The text of a table

Entries of a table are shown in nested brackets, all of one width: numbers with at most eight decimal places and no
zeros at the end, in scientific notation if their magnitudes differ too much. Long rows are broken.
-/

namespace FormCompiler.Text

open FormCompiler.Decimal

/-- A text filled up with blanks on the left. -/
def padLeft (width : Nat) (s : String) : String := String.ofList (List.replicate (width - s.length) ' ') ++ s

/-- A text filled up with blanks on the right. -/
def padRight (width : Nat) (s : String) : String := s ++ String.ofList (List.replicate (width - s.length) ' ')

/-- Cut a text at the first point: what stands before it and what follows. -/
def cutAtPoint (s : String) : String × String :=
  let cs := s.toList
  (String.ofList (cs.takeWhile (· != '.')), String.ofList ((cs.dropWhile (· != '.')).drop 1))

def dropZeros (s : String) : String := String.ofList (s.toList.reverse.dropWhile (· == '0')).reverse

/-- Digits and last exponent of a positive value, with at most eight decimal places below the given exponent. -/
def limitedDigits (d : Decimal.Dyadic) (lead : Int) : Nat × Int :=
  let (n, last) := shortestDigits d
  if lead - last ≤ 8 then (n, last)
  else
    let (a, b) := scale d.numerator d.denominator (8 - lead)
    (roundDiv a b, lead - 8)

/-- The parts of a finite number before and after the point. -/
def positionalParts (x : Float) : String × String :=
  match Decimal.Dyadic.ofFloat? x with
  | none => ("", "")
  | some d =>
    let sign := if d.negative then "-" else ""
    if d.mantissa = 0 then (sign ++ "0", "")
    else
      let (n, last) := limitedDigits d 0
      let (whole, fraction) := cutAtPoint (positional n last)
      (sign ++ whole, dropZeros fraction)

/-- The parts of a finite number in scientific notation: before the point, after it, and the exponent. -/
def scientificParts (x : Float) : String × String × String :=
  match Decimal.Dyadic.ofFloat? x with
  | none => ("", "", "")
  | some d =>
    let sign := if d.negative then "-" else ""
    if d.mantissa = 0 then (sign ++ "0", "", "e+00")
    else
      let (n, last) := limitedDigits d (leadingExponent d.numerator d.denominator)
      let (n, last) := stripZeros 20 n last
      let digits := (toString n).toList
      let lead : Int := last + (digits.length : Int) - 1
      (sign ++ String.ofList (digits.take 1), String.ofList (digits.drop 1), exponentText lead)

/-- Do the magnitudes ask for scientific notation? -/
def needsExponent (xs : List Float) : Bool :=
  let magnitudes := (xs.map Float.abs).filter fun x => x > 0.0 && !x.isInf
  match magnitudes with
  | [] => false
  | m :: ms =>
    let largest := ms.foldl (fun a b => if a < b then b else a) m
    let least := ms.foldl (fun a b => if b < a then b else a) m
    largest ≥ 1e8 || least < 0.0001 || largest / least > 1000.0

def widest (ss : List String) : Nat := ss.foldl (fun acc s => max acc s.length) 0

def numberTexts (xs : List Float) : List String :=
  let finite := xs.filter fun x => !x.isNaN && !x.isInf
  let special := fun (x : Float) => if x.isNaN then "nan" else if x > 0.0 then "inf" else "-inf"
  if needsExponent finite then
    let parts := finite.map scientificParts
    let left := widest (parts.map Prod.fst)
    let right := widest (parts.map fun p => p.2.1)
    let show_ := fun (x : Float) =>
      let (whole, fraction, exponent) := scientificParts x
      let fraction := fraction ++ String.ofList (List.replicate (right - fraction.length) '0')
      padLeft left whole ++ "." ++ fraction ++ exponent
    let texts := xs.map fun x => if x.isNaN || x.isInf then special x else show_ x
    texts.map (padLeft (widest texts))
  else
    let parts := finite.map positionalParts
    let left := widest (parts.map Prod.fst)
    let right := widest (parts.map Prod.snd)
    let texts := xs.map fun x =>
      if x.isNaN || x.isInf then special x
      else
        let (whole, fraction) := positionalParts x
        padLeft left whole ++ "." ++ padRight right fraction
    texts.map (padLeft (widest texts))

/-- Add a word to the current line, which is broken if it grows too wide. -/
def extendLine (indent : String) (width : Nat) (state : String × String) (word : String) : String × String :=
  let (done, line) := state
  if line.length + word.length > width then
    (done ++ String.ofList (line.toList.reverse.dropWhile (· == ' ')).reverse ++ "\n", indent ++ word)
  else (done, line ++ word)

def rowText (indent : String) (width : Nat) (words : List String) : String :=
  let last := words.length - 1
  let (done, line) := (words.zipIdx).foldl (fun state (word, n) =>
    let (done, line) := extendLine indent (width - 1) state word
    (done, if n < last then line ++ ", " else line)) ("", indent)
  "[" ++ String.ofList ((done ++ line).toList.drop indent.length) ++ "]"

/-- Nested brackets around words that stand row by row. -/
def nestedText : List Nat → String → Nat → List String → String
  | [], _, _, words => words.headD ""
  | [_], indent, width, words => rowText indent width words
  | n :: shape, indent, width, words =>
    let size := count shape
    let rows := (List.range n).map fun k =>
      indent ++ nestedText shape (indent ++ " ") (width - 1) ((words.drop (k * size)).take size)
    let separator := "," ++ String.ofList (List.replicate shape.length '\n')
    "[" ++ String.ofList ((separator.intercalate rows).toList.drop indent.length) ++ "]"

def tableOf (shape : List Nat) (words : List String) (kind : String) : String :=
  if count shape = 0 then
    let extents := if shape.length > 1 then ", shape=" ++ tuple (shape.map toString) else ""
    "array([]" ++ extents ++ ", dtype=" ++ kind ++ ")"
  else "array(" ++ nestedText shape "       " 74 words ++ ")"

def table (t : Tensor Float) : String := tableOf t.shape (numberTexts t.entries.toList) "float64"

def truthTable (t : Tensor Bool) : String :=
  let yes := if t.shape.isEmpty then "True" else " True"
  tableOf t.shape (t.entries.toList.map fun b => if b then yes else "False") "bool"

end FormCompiler.Text
