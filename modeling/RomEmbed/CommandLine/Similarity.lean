import RomEmbed.Text.Basic

/-!
Jaro similarity of two texts. Equal characters match if they stand at most half of the
longer length apart, less one; each is matched once, the earliest first. The similarity
averages the matched shares of both texts and the share of matches that are in order, in
double precision.
-/

namespace RomEmbed.Similarity

/-- How far apart matching characters may stand. -/
def window (m n : Nat) : Nat := max m n / 2 - 1

/-- A text whose characters are marked once they are matched. -/
abbrev Marked := List (Char × Bool)

/-- Marks the first free `c` at a place from `low` up to but not at `high`; the first
place in the list is `i`. -/
def mark? (c : Char) (low high : Nat) : Nat → Marked → Option Marked
  | _, [] => none
  | i, (d, matched) :: r =>
    if low ≤ i ∧ i < high ∧ d = c ∧ matched = false then some ((d, true) :: r)
    else (mark? c low high (i + 1) r).map ((d, matched) :: ·)

/-- The characters of the text that find a match, and the other text with its marks. The
first place of the text is `i`. -/
def matching (reach : Nat) : Nat → Text → Marked → Text × Marked
  | _, [], other => ([], other)
  | i, c :: r, other =>
    match mark? c (i - reach) (i + reach + 1) 0 other with
    | none => matching reach (i + 1) r other
    | some other =>
      let (cs, other) := matching reach (i + 1) r other
      (c :: cs, other)

/-- Half of the matches that differ when both sides are read in order. -/
def transpositions (s t : Text) : Nat := ((s.zip t).filter fun (a, b) => a ≠ b).length / 2

def jaro (s t : Text) : Float :=
  if s = [] ∧ t = [] then 1
  else
    let (left, marked) := matching (window s.length t.length) 0 s (t.map (·, false))
    let right := (marked.filter (·.2)).map (·.1)
    let m := left.length
    if m = 0 then 0
    else
      (m.toFloat / s.length.toFloat + m.toFloat / t.length.toFloat +
        (m - transpositions left right).toFloat / m.toFloat) / 3

end RomEmbed.Similarity
