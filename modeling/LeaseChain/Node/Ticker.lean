/-!
# Tickers

A ticker ticks once every period. Work that takes longer than a period makes a tick late. A late
tick comes as soon as it can, and a tick that is very late moves the ticks after it, so that they
never come in a burst.
-/

namespace LeaseChain

/-- A source of ticks, in milliseconds. -/
structure Ticker where
  period : Nat
  /-- When the next tick is due. -/
  due : Nat

namespace Ticker

/-- How late a tick may be without moving the ticks after it. -/
def tolerance : Nat := 5

/-- A ticker whose first tick is due at the start. -/
def every (period : UInt64) : Ticker := ⟨period.toNat, 0⟩

/-- The ticker after a tick at the given time, at which one was due. -/
def tick (t : Ticker) (now : Nat) : Ticker :=
  { t with due := (if t.due + tolerance < now then now else t.due) + t.period }

end Ticker

end LeaseChain
