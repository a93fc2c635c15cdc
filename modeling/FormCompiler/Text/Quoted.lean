/-!
# Quoted text

Names are shown between single quotes, or double quotes if they hold a single quote and no double one; what
cannot be printed is written as an escape. Tuples are shown in round brackets, one of a single member with a
comma after it.
-/

namespace FormCompiler.Text

/-- `n` in lower-case hexadecimal with at least `width` digits. -/
def hex (width n : Nat) : String :=
  let digits := Nat.toDigits 16 n
  String.ofList (List.replicate (width - digits.length) '0' ++ digits)

def escapeChar (quote c : Char) : String :=
  if c == quote || c == '\\' then String.ofList ['\\', c]
  else if c == '\n' then "\\n"
  else if c == '\r' then "\\r"
  else if c == '\t' then "\\t"
  else if c.toNat < 0x20 || (0x7f ≤ c.toNat && c.toNat ≤ 0xa0) || c.toNat == 0xad then "\\x" ++ hex 2 c.toNat
  else if (0x2028 ≤ c.toNat && c.toNat ≤ 0x202e) || (0x2000 ≤ c.toNat && c.toNat ≤ 0x200f) || c.toNat == 0xfeff then
    "\\u" ++ hex 4 c.toNat
  else c.toString

def quoted (s : String) : String :=
  let quote := if s.any (· == '\'') && !s.any (· == '"') then '"' else '\''
  let body := s.foldl (fun acc c => acc ++ escapeChar quote c) ""
  quote.toString ++ body ++ quote.toString

def tuple : List String → String
  | [] => "()"
  | [a] => "(" ++ a ++ ",)"
  | as => "(" ++ ", ".intercalate as ++ ")"

def bracketed (as : List String) : String := "[" ++ ", ".intercalate as ++ "]"

end FormCompiler.Text
