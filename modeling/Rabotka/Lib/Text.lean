import Mathlib.Data.Nat.Notation

/-!
# Text

White space and trimming, as `\s` and `trim` understand them.
-/

namespace Text

/-- White space, as `\s` and `trim` understand it. -/
def isSpace (c : Char) : Bool :=
  c.toNat ∈ [9, 10, 11, 12, 13, 32, 160, 5760, 8232, 8233, 8239, 8287, 12288, 65279] ||
    (8192 ≤ c.toNat && c.toNat ≤ 8202)

def trim (s : String) : String :=
  String.ofList (((s.toList.dropWhile isSpace).reverse.dropWhile isSpace).reverse)

/-- The first `n` characters. -/
def slice (s : String) (n : ℕ) : String := String.ofList (s.toList.take n)

/-- `s?.trim() || null`. -/
def trimmed (s : Option String) : Option String := (s.map trim).filter (· ≠ "")

end Text
