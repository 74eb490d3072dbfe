import HDCS.Core.Request

/-!
# Completions that are shared

`AioCompletionImp.h`, for a completion that has a callback: everyone who takes
part calls `complete`, and the call that brings `shared_count` to zero runs the
callback. A count of `-1` stands for a completion that runs its callback on every
call.

`create_block_requests` makes one of these for the blocks of a request, and counts
them beforehand (`sharedCount`). The count passes through a parameter of type
`uint8_t`.
-/

namespace HDCS

/-- `--shared_count`, and whether that was the last one. -/
def decrement (sharedCount : Int) : Int × Bool := (sharedCount - 1, sharedCount - 1 = 0)

/-- `AioCompletionImp::complete`: the new count, and whether the callback is run. -/
def AioCompletion.complete (sharedCount : Int) : Int × Bool :=
  if sharedCount = -1 then (sharedCount, true) else decrement sharedCount

theorem AioCompletion.complete_of_pos {count : Int} (h : 0 < count) :
    AioCompletion.complete count = (count - 1, decide (count = 1)) := by
  unfold AioCompletion.complete decrement
  rw [if_neg (by omega)]
  exact Prod.ext rfl (decide_eq_decide.mpr (by omega))

/--
`shared_count` in `create_block_requests`: the blocks that `length` bytes from
`offset` touch.
-/
def sharedCount (bs offset length : Nat) : Nat :=
  let tmpLength := length + offset % bs
  (if tmpLength % bs = 0 then 0 else 1) + tmpLength / bs

/-- The count `DataStoreRequest` arms its completion with. -/
def armedCount (bs : Nat) (r : Request) : Int := (sharedCount bs r.offset r.length % 256 : Nat)

end HDCS
