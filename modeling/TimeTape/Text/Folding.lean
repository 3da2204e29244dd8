/-
Letter case.

Keys are compared with the names of fields without regard to case.  The names are ASCII, and
the only characters outside ASCII that fold to an ASCII letter are the long s (U+017F) and the
Kelvin sign (U+212A), so the folding below is complete for such names.
-/
namespace TimeTape.Text

/-- The lower-case ASCII letter that `c` folds to, or `c` itself. -/
def fold (c : Char) : Char :=
  if 'A' ≤ c ∧ c ≤ 'Z' then Char.ofNat (c.toNat + 32)
  else if c.toNat = 0x17F then 's'
  else if c.toNat = 0x212A then 'k'
  else c

/-- Whether `key` is `name` up to letter case. -/
def sameFolded (name key : String) : Bool :=
  name.toList.map fold = key.toList.map fold

end TimeTape.Text
