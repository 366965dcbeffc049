import Mathlib.Data.List.Basic
import Mathlib.Tactic.Ring

/-!
# Fixed-width big-endian bytes

The bytes of a number, most significant first, and back. `toBytes n` writes
exactly `n` bytes and drops what does not fit; `ofBytes` reads any list.
-/

namespace DogePeg.Bytes

/-- The `n` low bytes of `v`, most significant first. -/
def toBytes : ℕ → ℕ → List UInt8
  | 0, _ => []
  | n+1, v => UInt8.ofNat (v / 256^n)::toBytes n v

def ofBytes : List UInt8 → ℕ
  | [] => 0
  | b::bs => b.toNat*256^bs.length+ofBytes bs

@[simp] theorem length_toBytes (n v : ℕ) : (toBytes n v).length = n := by
  induction n with
  | zero => rfl
  | succ n ih => simp [toBytes,ih]

theorem ofBytes_toBytes (n v : ℕ) : ofBytes (toBytes n v) = v % 256^n := by
  induction n with
  | zero => simp [toBytes,ofBytes,Nat.mod_one]
  | succ n ih =>
    have hsplit : v % 256^(n+1) = v % 256^n+256^n*(v / 256^n % 256) := by
      rw [pow_succ,Nat.mod_mul]
    simp only [toBytes,ofBytes,length_toBytes,ih,hsplit,UInt8.toNat_ofNat']
    ring

end DogePeg.Bytes
