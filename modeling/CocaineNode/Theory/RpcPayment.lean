import CocaineNode.Core.RpcPayment
import CocaineNode.Lib.CodecWords

/-!
# RPC Payments Are Not Restored

The iterators that `load` reads the file with stop by failing to read, so the
stream has failed whenever the file has been read. `load` takes this for a file
that is not there, and forgets the clients.

## Theorems

* `RpcPayment.load_store_iff`: Only the state of a new object is restored.
-/

namespace CocaineNode

namespace RpcPayment

variable {κ : Type} (ar : Archive κ)

theorem slurp_fail (f : Blob) : (slurp f).2.fail = true := by
  induction f with
  | nil => rfl
  | cons c rest ih =>
    rw [slurp]
    split_ifs <;> exact ih

/-- What a new object restores is the state of a new object. -/
theorem load_store_iff (p : Saved κ) : load ar (store ar p) {} = p ↔ p = {} := by
  have hload : load ar (store ar p) {} = {} := by
    rw [store, load, slurp_fail]
    rfl
  rw [hload, eq_comm]

/-- An archive with the credits alone, which reads back what it writes. -/
def credits : Archive Unit where
  write p := Codec.littleEndian 8 p.creditsTotal.toNat
  read bytes p := (true, { p with creditsTotal := UInt64.ofNat (Codec.ofLittleEndian bytes) })
  readBoost _ p := (false, p)

/-- One credit is written and read back by the archive, and lost by the stream. -/
theorem load_loses_credits :
    (credits.read (credits.write { creditsTotal := 1 }) {}).2.creditsTotal = 1 ∧
      (load credits (store credits { creditsTotal := 1 }) {}).creditsTotal = 0 := by
  decide

end RpcPayment

end CocaineNode
