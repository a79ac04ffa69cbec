/-! # Runs of characters

A class of characters is given by runs of code points, each by its first and its last. -/

namespace ProofSearch.Text

def inRuns (runs : List (Nat × Nat)) (c : Char) : Bool :=
  runs.any fun (first, last) => first ≤ c.toNat && c.toNat ≤ last

end ProofSearch.Text
