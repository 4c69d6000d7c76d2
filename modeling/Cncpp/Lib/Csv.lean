import Mathlib.Data.List.Basic

/-! Lines of separated fields: what a reader of a table finds under the name of a column. -/

namespace Cncpp.Lib.Csv

variable {α : Type*} [DecidableEq α] {sep : α} {fs hs : List (List α)} {i : ℕ}

end Cncpp.Lib.Csv
