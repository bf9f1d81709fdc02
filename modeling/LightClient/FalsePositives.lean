/-!
# False positives of the filter

Counts transactions that the filter let through by mistake. A window opens with the first of them;
once the threshold is reached inside the window the filter should be replaced, and the count starts
again.
-/
namespace LightClient

structure FalsePositives where
  threshold : Nat
  window : Nat
  count : Nat
  /-- When the current window opened. -/
  since : Option Nat
  deriving DecidableEq

namespace FalsePositives

def ofThreshold (threshold window : Nat) : FalsePositives := ⟨max threshold 1, window, 0, none⟩

def reset (m : FalsePositives) : FalsePositives := { m with count := 0, since := none }

def covers (m : FalsePositives) (now : Nat) : Bool := m.since.any fun start => now - start ≤ m.window

/-- Counts one more. Answers whether the filter should be replaced. -/
def record (m : FalsePositives) (now : Nat) : FalsePositives × Bool :=
  let m := if m.covers now then m else { m with since := some now, count := 0 }
  let m := { m with count := m.count + 1 }
  if m.threshold ≤ m.count then (m.reset, true) else (m, false)

end FalsePositives
end LightClient
