/-! Totals of natural numbers. -/

namespace StimOverlay.Numeric

def total : List Nat → Nat
  | [] => 0
  | n :: rest => n + total rest

end StimOverlay.Numeric
