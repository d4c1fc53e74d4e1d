import Mathlib.Data.UInt
import Mathlib.Data.Fintype.Basic

/-!
# Addresses as byte strings in network order

Bits are numbered from the most significant bit of the first byte, as in
prefix notation. A mask with exactly the first `p` bits set selects agreement
on the first `p` bits, for every width and every prefix length.
-/

namespace IftopColor.NetBytes

variable {n : ℕ}

/-- Byte string of fixed length, first byte first. -/
abbrev Bytes (n : ℕ) := Fin n→UInt8

/-- Bit `i` of an address, the most significant bit of the first byte first. -/
def netBit (a : Bytes n) (i : ℕ) : Bool :=
  if h : i/8<n then (a ⟨i/8,h⟩).toNat.testBit (7-i%8) else false

/-- Bytewise conjunction with a mask. -/
def maskBytes (a m : Bytes n) : Bytes n := fun j => a j &&& m j

/-- Two addresses have the same first `p` bits. -/
def AgreeOn (p : ℕ) (a b : Bytes n) : Prop := ∀ i<p,netBit a i=netBit b i

/-- The mask has its first `p` bits set and no others. -/
def IsPrefixMask (p : ℕ) (m : Bytes n) : Prop := ∀ i<8*n,netBit m i=decide (i<p)

instance (p : ℕ) (m : Bytes n) : Decidable (IsPrefixMask p m) :=
  inferInstanceAs (Decidable (∀ i<8*n,netBit m i=decide (i<p)))

/-- Every bit of every byte is a numbered bit of the address. -/
theorem netBit_at (a : Bytes n) (j : Fin n) {k : ℕ} (hk : k<8) :
    netBit a (8*j+(7-k))=(a j).toNat.testBit k := by
  have hd : (8*(j : ℕ)+(7-k))/8=j := by omega
  have hm : 7-(8*(j : ℕ)+(7-k))%8=k := by omega
  unfold netBit
  rw [dif_pos (by omega),hm]
  simp only [hd,Fin.eta]

/-- Byte strings with the same bits are equal. -/
theorem bytes_ext {a b : Bytes n} (h : ∀ i<8*n,netBit a i=netBit b i) : a=b := by
  funext j
  apply UInt8.toNat_inj.mp
  apply Nat.eq_of_testBit_eq
  intro k
  by_cases hk : k<8
  · have hb := h (8*j+(7-k)) (by omega)
    rwa [netBit_at a j hk,netBit_at b j hk] at hb
  · have ha := (a j).toNat_lt
    have hb := (b j).toNat_lt
    have hp : 2^8≤2^k := Nat.pow_le_pow_right (by omega) (by omega)
    rw [Nat.testBit_lt_two_pow (by omega),Nat.testBit_lt_two_pow (by omega)]

/-- A prefix mask is determined by its length. -/
theorem isPrefixMask_unique {p : ℕ} {m m' : Bytes n} (h : IsPrefixMask p m)
    (h' : IsPrefixMask p m') : m=m' :=
  bytes_ext fun i hi => (h i hi).trans (h' i hi).symm

/-- Masking is conjunction bit by bit. -/
theorem netBit_mask (a m : Bytes n) (i : ℕ) :
    netBit (maskBytes a m) i=(netBit a i && netBit m i) := by
  unfold netBit maskBytes
  split
  · rw [UInt8.toNat_and,Nat.testBit_and]
  · rfl

/-- Masked addresses are equal exactly when they agree where the mask is set. -/
theorem mask_eq_iff {a b m : Bytes n} :
    maskBytes a m=maskBytes b m ↔ ∀ i<8*n,netBit m i=true→netBit a i=netBit b i := by
  constructor
  · intro h i _ hm
    have hi := congrArg (netBit · i) h
    simpa [netBit_mask,hm] using hi
  · intro h
    apply bytes_ext
    intro i hi
    rw [netBit_mask,netBit_mask]
    cases hm : netBit m i with
    | false => simp
    | true => rw [h i hi hm]

/-- A prefix mask of length `p` compares the first `p` bits. -/
theorem prefixMask_eq_iff {p : ℕ} {a b m : Bytes n} (hp : p≤8*n) (hm : IsPrefixMask p m) :
    maskBytes a m=maskBytes b m ↔ AgreeOn p a b := by
  rw [mask_eq_iff]
  constructor
  · intro h i hi
    exact h i (by omega) (by rw [hm i (by omega)]; simpa using hi)
  · intro h i hi hb
    rw [hm i hi] at hb
    exact h i (by simpa using hb)

end IftopColor.NetBytes
