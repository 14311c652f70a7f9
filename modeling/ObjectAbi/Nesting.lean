/-!
# Deep nesting

Trees can be nested far deeper than a call stack is tall. A walk that meets one level after the
other carries its result along instead of coming back to it, so its depth costs no stack.
-/

namespace ObjectAbi.Nesting

/-- Adds the levels `depth`, `depth - 1`, …, `1` to a sum that is carried along. -/
def sumLevels (depth : Nat) (sum : Nat) : Nat :=
  match depth with
  | 0 => sum
  | d + 1 => sumLevels d (sum + (d + 1))

/-- The sum of the numbers of all levels from `depth` down. -/
def levelSum (depth : Nat) : Nat := sumLevels depth 0

theorem sumLevels_add (depth sum n : Nat) :
    sumLevels depth (sum + n) = sumLevels depth sum + n := by
  induction depth generalizing sum with
  | zero => rfl
  | succ d ih => rw [sumLevels, sumLevels, Nat.add_right_comm, ih]

/-- A walk that came back through every level would find the same sum. -/
theorem levelSum_succ (depth : Nat) : levelSum (depth + 1) = levelSum depth + (depth + 1) := by
  rw [levelSum, sumLevels, sumLevels_add, levelSum]

theorem levelSum_eq (depth : Nat) : levelSum depth = depth * (depth + 1) / 2 := by
  have htwice : 2 * levelSum depth = depth * (depth + 1) := by
    induction depth with
    | zero => rfl
    | succ d ih =>
      rw [levelSum_succ, Nat.mul_add, ih, ← Nat.add_mul, Nat.mul_comm]
  omega

end ObjectAbi.Nesting
