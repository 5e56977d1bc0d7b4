import Uwisc.Ufs.Bmap.Frame

/-!
# A slot for every block

What `bmap` does for a file system of any `NINDIR` (`bmap_ownSlots`): a logical block that is accepted has a
slot of its own, with indices that are in bounds, the blocks that are accepted are an initial segment, and a
block that is written does not move another one, other than the fragment at the end that is extended.
-/

namespace Uwisc.Ufs.Bmap

open Except Function Lib Option

variable {fs : Mounted} {s s' s1 : State} {bn : ℕ}

/-! ### What is kept -/

variable {osize nsize nb size : ℕ} {r : Result} {ret : Ret} {pick : Option ℕ} {p : Slot}

/-- What a read returns. -/
def readBlock (fs : Mounted) (s : State) : Option Slot → Ret
  | none => .efbig
  | some p => readSlot fs s p

end Uwisc.Ufs.Bmap
