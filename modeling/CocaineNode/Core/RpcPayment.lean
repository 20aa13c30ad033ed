import CocaineNode.Core.Json
import Mathlib.Data.List.AList

/-!
# The File of RPC Payments

`rpc_payment::store` writes the credits of a node's clients to a file, and
`load` reads them when the node starts. The archives are parameters: what
matters is how `load` gets at the bytes.
-/

namespace CocaineNode

namespace RpcPayment

/-- The members of `rpc_payment` that are serialised. The client records are a parameter. -/
structure Saved (κ : Type) where
  clientInfo : AList fun _ : PublicKey => κ := ∅
  hashrate : AList fun _ : UInt64 => UInt64 := ∅
  creditsTotal : UInt64 := 0
  creditsUsed : UInt64 := 0
  noncesGood : UInt64 := 0
  noncesStale : UInt64 := 0
  noncesBad : UInt64 := 0
  noncesDupe : UInt64 := 0

/-- A `std::ifstream`: what is left of the file, and `fail()`. -/
structure Stream where
  rest : Blob
  fail : Bool

/-- The two archives. Reading one changes the object also when it fails half way. -/
structure Archive (κ : Type) where
  write : Saved κ → Blob
  read : Blob → Saved κ → Bool × Saved κ
  readBoost : Stream → Saved κ → Bool × Saved κ

/-- A string from a pair of `std::istream_iterator<char>`, which read with `>>`: white space is
    skipped, and the read that meets the end sets the fail bit. -/
def slurp : Blob → Blob × Stream
  | [] => ([], ⟨[], true⟩)
  | c :: rest => if Json.isSpace c then slurp rest else (c :: (slurp rest).1, (slurp rest).2)

variable {κ : Type} (ar : Archive κ)

/-- `load` from a file, or from none. -/
def load (file : Option Blob) (p : Saved κ) : Saved κ :=
  let r : Blob × Stream := match file with
    | none => ([], ⟨[], true⟩)
    | some f => slurp f
  if !r.2.fail then
    let binary := ar.read r.1 p
    if binary.1 then binary.2
    else
      let boost := ar.readBoost r.2 binary.2
      if boost.1 then boost.2 else { boost.2 with clientInfo := ∅ }
  else { p with clientInfo := ∅ }

/-- `store`: the file it leaves. -/
def store (p : Saved κ) : Option Blob :=
  some (ar.write p)

end RpcPayment

end CocaineNode
