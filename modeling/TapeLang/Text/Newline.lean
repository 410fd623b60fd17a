/-! Line ends: a carriage return, alone or before a line feed, is read as a line feed. -/

namespace TapeLang.Text

/-- A text in which every line ends with a line feed. -/
def unifyNewlines : List Char → List Char
  | [] => []
  | '\r' :: '\n' :: rest => '\n' :: unifyNewlines rest
  | '\r' :: rest => '\n' :: unifyNewlines rest
  | c :: rest => c :: unifyNewlines rest

end TapeLang.Text
