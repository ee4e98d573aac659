/-! String literals. A literal stands between two quotes, and a quote inside it is written twice. -/

namespace BrightCoverage

def doubleQuotes : List Char → List Char
  | [] => []
  | c :: rest => if c = '"' then '"' :: '"' :: doubleQuotes rest else c :: doubleQuotes rest

/-- Reads every pair of quotes, from the left, as one. -/
def undoubleQuotes : List Char → List Char
  | '"' :: '"' :: rest => '"' :: undoubleQuotes rest
  | c :: rest => c :: undoubleQuotes rest
  | [] => []

def quote (text : List Char) : List Char :=
  '"' :: doubleQuotes text ++ ['"']

/-- What stands between the outer quotes, or the whole text if one of them is missing. -/
def betweenQuotes (literal : List Char) : List Char :=
  match literal with
  | '"' :: rest => if rest.getLast? = some '"' then rest.dropLast else literal
  | _ => literal

def unquote (literal : List Char) : List Char :=
  undoubleQuotes (betweenQuotes literal)

end BrightCoverage
