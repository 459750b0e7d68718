import Tansu.Lib.OrdMap

/-!
# Topic partitions

The storage, the proxy and the consumer each have a struct `Topition` of their own, with the
same fields and the derived order; it is one type here.
-/

namespace Tansu

open Std Tansu.Lib

structure Topition where
  topic : String
  partition : Int32
deriving DecidableEq

namespace Topition

/-- Topitions are ordered by topic, then by partition. -/
instance : Ord Topition := ⟨compareOn fun tp => (tp.topic, tp.partition)⟩

instance : TransOrd Topition :=
  inferInstanceAs (TransCmp (compareOn fun tp : Topition => (tp.topic, tp.partition)))

instance : LawfulEqOrd Topition :=
  lawfulEqCmp_compareOn (fun tp : Topition => (tp.topic, tp.partition)) fun a b h => by
    cases a; cases b; simpa using h

end Topition

end Tansu
