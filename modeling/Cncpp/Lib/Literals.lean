import Mathlib.Data.Nat.Init

/-! The literals of the reals.  Each rests on the fact that it is at least two, which has a
name here: the definitions of all modules refer to the same one. -/

namespace Cncpp.Lib

instance atLeastTwo_two : Nat.AtLeastTwo 2 := ⟨by decide⟩
instance atLeastTwo_three : Nat.AtLeastTwo 3 := ⟨by decide⟩
instance atLeastTwo_four : Nat.AtLeastTwo 4 := ⟨by decide⟩
instance atLeastTwo_eight : Nat.AtLeastTwo 8 := ⟨by decide⟩
instance atLeastTwo_sixty : Nat.AtLeastTwo 60 := ⟨by decide⟩
instance atLeastTwo_thousand : Nat.AtLeastTwo 1000 := ⟨by decide⟩

end Cncpp.Lib
