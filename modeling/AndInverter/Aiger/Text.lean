/-!
# Lines, words and numbers

The lexical level of the format: lines end at line feeds, words are separated by white space, and
numbers are decimal and fit 64 bits.
-/

namespace AndInverter.Aiger

/-- White space, as the Unicode property White_Space has it. -/
def isBlank (c : Char) : Bool :=
  let n := c.toNat
  (0x09 ≤ n && n ≤ 0x0d) || n == 0x20 || n == 0x85 || n == 0xa0 || n == 0x1680 ||
    (0x2000 ≤ n && n ≤ 0x200a) || n == 0x2028 || n == 0x2029 || n == 0x202f || n == 0x205f ||
    n == 0x3000

/-- The pieces of a text between the characters that satisfy `p`. There is one more piece than
there are such characters. -/
def pieces (p : Char → Bool) : List Char → List (List Char)
  | [] => [[]]
  | c :: cs =>
    if p c then [] :: pieces p cs
    else
      match pieces p cs with
      | [] => [[c]]
      | w :: ws => (c :: w) :: ws

def words (cs : List Char) : List (List Char) :=
  (pieces isBlank cs).filter fun w => !w.isEmpty

def trim (cs : List Char) : List Char :=
  ((cs.dropWhile isBlank).reverse.dropWhile isBlank).reverse

def lines (cs : List Char) : List (List Char) :=
  let ps := pieces (· == '\n') cs
  if ps.getLast? = some [] then ps.dropLast else ps

def digitsValue (ds : List Char) : Nat :=
  ds.foldl (fun n d => 10 * n + (d.toNat - '0'.toNat)) 0

/-- The number that a word denotes: decimal digits, a plus sign in front if wanted, with a value
below `2 ^ 64`. -/
def number? (w : List Char) : Option Nat :=
  let ds := if w.head? = some '+' then w.tail else w
  if !ds.isEmpty && ds.all Char.isDigit && decide (digitsValue ds < 0x10000000000000000) then
    some (digitsValue ds)
  else none

end AndInverter.Aiger
