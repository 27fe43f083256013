import RegexMachine.Rune.Repertoire

/-! # Simple case folding

What can be relied on of case folding, whatever the character data. -/

namespace RegexMachine

namespace Rune

/-- What can be relied on of a simple case folding, whatever its table. -/
structure IsFolding (fold : Rune → Rune) : Prop where
  idempotent : ∀ rune, fold (fold rune) = fold rune
  scalar : ∀ rune : Rune, rune.IsScalar → (fold rune).IsScalar
  replacement : fold replacement = replacement

/-- The scalar values are folded among themselves, once and for all, and no surrogate is
folded to one of them. -/
structure FoldsScalars (fold : Rune → Rune) : Prop where
  idempotent : ∀ rune, fold (fold rune) = fold rune
  scalar : ∀ rune : Rune, rune.IsScalar → (fold rune).IsScalar
  surrogate : ∀ rune ≤ last, ¬rune.IsScalar → ¬(fold rune).IsScalar

end Rune

namespace Repertoire

theorem isFolding_caseFold : Rune.IsFolding Rune.caseFold where
  idempotent := caseFold_caseFold
  scalar _ := isScalar_caseFold
  replacement := by decide +kernel

theorem foldsScalars_caseFold : Rune.FoldsScalars Rune.caseFold where
  idempotent := caseFold_caseFold
  scalar _ := isScalar_caseFold
  surrogate rune _ stray := by
    have same : caseFold rune = rune := Decidable.byContradiction fun changes =>
      stray (isScalar_of_caseFold_ne changes)
    change ¬(caseFold rune).IsScalar
    rwa [same]

end Repertoire

end RegexMachine
