import Mathlib.Logic.Function.Basic
import ModelChecker.Proofs.Dictionary

namespace ModelChecker

theorem fold_injective {w k : Nat} (hk : 0 < k) :
    Function.Injective fun x : BitVec w => x ^^^ (x >>> k) := by
  intro x y h
  -- the bits from `w - n` on are known after `n` bits
  have hbit : ∀ n i, w ≤ i + n → x.getLsbD i = y.getLsbD i := by
    intro n
    induction n with
    | zero =>
      intro i hi
      rw [BitVec.getLsbD_of_ge x i hi, BitVec.getLsbD_of_ge y i hi]
    | succ n ih =>
      intro i hi
      have hfold := congrArg (·.getLsbD i) h
      simpa [ih (k + i) (by omega)] using hfold
  exact BitVec.eq_of_getLsbD_eq fun i _ => hbit w i (Nat.le_add_left w i)

theorem word_fold_injective {k : UInt64} (hk : 0 < k.toBitVec.toNat % 64) :
    Function.Injective fun x : UInt64 => x ^^^ (x >>> k) := by
  intro x y h
  have hbits := congrArg UInt64.toBitVec h
  simp only [UInt64.toBitVec_xor, UInt64.toBitVec_shiftRight] at hbits
  apply UInt64.toBitVec_inj.1
  apply fold_injective hk
  simpa [BitVec.ushiftRight_eq'] using hbits

theorem word_mul_injective {c d : UInt64} (h : c * d = 1) : Function.Injective (· * c) := by
  apply Function.LeftInverse.injective (g := (· * d))
  intro x
  change x * c * d = x
  rw [UInt64.mul_assoc, h, UInt64.mul_one]

theorem mix64_injective : Function.Injective mix64 := by
  have hadd : Function.Injective fun x : UInt64 => x + 0x9e3779b97f4a7c15 :=
    fun _ _ h => (UInt64.add_left_inj _).1 h
  have hfirst : Function.Injective fun x : UInt64 => (x ^^^ (x >>> 30)) * 0xbf58476d1ce4e5b9 :=
    (word_mul_injective (d := 0x96de1b173f119089) (by decide)).comp
      (word_fold_injective (by decide))
  have hsecond : Function.Injective fun x : UInt64 => (x ^^^ (x >>> 27)) * 0x94d049bb133111eb :=
    (word_mul_injective (d := 0x319642b2d24d8ec3) (by decide)).comp
      (word_fold_injective (by decide))
  exact (word_fold_injective (by decide)).comp (hsecond.comp (hfirst.comp hadd))

theorem IndexedGraph.fingerprint_injective (ig : IndexedGraph) :
    Function.Injective ig.system.fingerprint := by
  intro a b h
  have hword : a.toUInt64 = b.toUInt64 := mix64_injective h
  exact UInt32.toUInt64_inj.1 hword

variable {σ : Type} {sys : System σ} {s s' : Store σ}

namespace Store

/-- A store of distinct states that was empty once. -/
structure Raised (sys : System σ) (s : Store σ) : Prop where
  distinct : s.Distinct sys
  replayed : ∃ count limit answers, Replayed count limit answers s

theorem raised_ofShards (count : Nat) (limit : Option Nat) :
    Raised sys (ofShards count limit) :=
  ⟨distinct_ofShards sys count limit, count, limit, [], replayed_ofShards count limit⟩

theorem Raised.store (h : s.Raised sys) (hx : sys.Explicit) {x : σ} {v : Vertex σ} {isNew : Bool}
    (hs : sys.store s x = .ok ⟨v, isNew, s'⟩) : s'.Raised sys := by
  obtain ⟨count, limit, answers, hr⟩ := h.replayed
  have hafter : (s.adopt sys.same (sys.fingerprint x) x).2 = s' := by
    unfold System.store insert insertAt at hs
    change (s.adoptAt _ sys.same (sys.fingerprint x) x).2 = s'
    split at hs
    · cases hs
    · rename_i heq
      rw [heq]
      cases hs
      rfl
  refine ⟨?_, count, limit, _, hafter ▸ hr.adopt sys.same (sys.fingerprint x) x⟩
  rcases h.distinct.store_cases hx x with ⟨w, -, -, hf⟩ | ⟨w, after, ha, -, -, -, hd⟩ | ⟨n, -, -, he⟩
  · cases hs.symm.trans hf
    exact h.distinct
  · cases hs.symm.trans ha
    exact hd
  · cases hs.symm.trans he

theorem Raised.collisions_eq_zero (h : s.Raised sys) (hinj : Function.Injective sys.fingerprint) :
    s.collisions = 0 := by
  obtain ⟨count, limit, answers, hr⟩ := h.replayed
  have hperm := hr.holds.perm.map (·.fingerprint)
  have hfps : s.vertices.map (·.fingerprint) = (s.vertices.map (·.state)).map sys.fingerprint := by
    rw [List.map_map]
    exact List.map_congr_left h.distinct.fingerprint
  have hnodup : ((made answers).map (·.fingerprint)).Nodup := by
    rw [← hperm.nodup_iff, hfps]
    exact h.distinct.nodup.map hinj
  have hcount := hr.holds.collisions
  rw [List.toFinset_card_of_nodup hnodup, List.length_map] at hcount
  omega

end Store

end ModelChecker
