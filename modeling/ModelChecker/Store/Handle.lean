import Std.Data.TreeMap

namespace ModelChecker

structure Handle where
  shard : UInt32
  slot : UInt32
deriving DecidableEq, Repr, Inhabited

namespace Handle

def toRaw (h : Handle) : UInt64 :=
  (h.shard.toUInt64 <<< 32) ||| h.slot.toUInt64

def ofRaw (raw : UInt64) : Handle :=
  ⟨(raw >>> 32).toUInt32, raw.toUInt32⟩

instance : Ord Handle :=
  ⟨compareLex (compareOn Handle.shard) (compareOn Handle.slot)⟩

instance : Std.TransOrd Handle :=
  inferInstanceAs (Std.TransCmp (compareLex (compareOn Handle.shard) (compareOn Handle.slot)))

instance : Std.LawfulEqOrd Handle where
  eq_of_compare {a b} h := by
    have h : (compare a.shard b.shard).then (compare a.slot b.slot) = .eq := h
    obtain ⟨hs, hl⟩ := Ordering.then_eq_eq.1 h
    cases a
    cases b
    simp_all
  compare_self {a} := by
    show (compare a.shard a.shard).then (compare a.slot a.slot) = .eq
    simp

instance : LE Handle := leOfOrd

def label (h : Handle) : String :=
  s!"#{h.shard}:{h.slot}"

end Handle

end ModelChecker
