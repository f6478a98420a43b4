import FactoryLint.Text.Blank

namespace FactoryLint.Text

def lower (cs : List Char) : List Char :=
  cs.map Char.toLower

def after? : List Char → List Char → Option (List Char)
  | [], cs => some cs
  | _ :: _, [] => none
  | w :: word, c :: cs => if w = c then after? word cs else none

def dropWordUpTo (word : List Char) : Nat → List Char → List Char
  | 0, cs => cs
  | bound + 1, cs =>
    match after? word cs with
    | none => cs
    | some rest => dropWordUpTo word bound rest

def dropWord (word : String) (cs : List Char) : List Char :=
  dropWordUpTo word.toList cs.length cs

def breakAt? (word : List Char) : List Char → Option (List Char × List Char)
  | [] => (after? word []).map fun rest => ([], rest)
  | c :: cs =>
    match after? word (c :: cs) with
    | some rest => some ([], rest)
    | none => (breakAt? word cs).map fun (before, rest) => (c :: before, rest)

/-- The parts of a text between the characters `sep`. There is always one more than there are
separators. -/
def splitAt (sep : Char) : List Char → List (List Char)
  | [] => [[]]
  | c :: cs =>
    if c = sep then [] :: splitAt sep cs
    else
      match splitAt sep cs with
      | [] => [[c]]
      | part :: parts => (c :: part) :: parts

/-- The part of a text after the last `sep`; all of it if there is none. -/
def afterLast (sep : Char) (cs : List Char) : List Char :=
  (cs.reverse.takeWhile (· ≠ sep)).reverse

def beforeLast? (sep : Char) (cs : List Char) : Option (List Char) :=
  match cs.reverse.dropWhile (· ≠ sep) with
  | [] => none
  | _ :: rest => some rest.reverse

def dropRight (c : Char) (cs : List Char) : List Char :=
  (cs.reverse.dropWhile (· = c)).reverse

end FactoryLint.Text
