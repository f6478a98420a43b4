import FactoryLint.Text.Split

namespace FactoryLint.Text

/-- The lines of a text without their ends `\n` and `\r\n`. Nothing after the last end is no
line. -/
def lines (cs : List Char) : List (List Char) :=
  let parts := splitAt '\n' cs
  let ended := parts.dropLast.map fun line =>
    if line.getLast? = some '\r' then line.dropLast else line
  ended ++ parts.getLast?.toList.filter (!·.isEmpty)

/-- The lines of a text with their ends `\n`, `\r\n` and `\r`. -/
def endedLines : List Char → List (List Char)
  | [] => []
  | '\r' :: '\n' :: cs => ['\r', '\n'] :: endedLines cs
  | c :: cs =>
    if c = '\n' || c = '\r' then [c] :: endedLines cs
    else
      match endedLines cs with
      | [] => [[c]]
      | line :: rest => (c :: line) :: rest

theorem flatten_endedLines (cs : List Char) : (endedLines cs).flatten = cs := by
  fun_induction endedLines cs with
  | case1 => rfl
  | case2 cs ih => simp [ih]
  | case3 c cs _ _ ih => simp [ih]
  | case4 c cs _ _ h ih => simp_all
  | case5 c cs _ _ line rest h ih => simp_all

end FactoryLint.Text
