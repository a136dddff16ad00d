import ConceptSpace.Storage.Error

/-!
# Stored values

Values are bytes. A flag is one byte, zero or one; a count is a 64-bit word of eight bytes, the
lowest first. Bytes behind a value are ignored when it is read.
-/

namespace ConceptSpace.Storage

/-- What is stored under a key. -/
abbrev Value := List UInt8

namespace Value

/-- The lowest `n` bytes of a number, the lowest first. -/
def littleEndian : Nat → Nat → List UInt8
  | 0, _ => []
  | n + 1, w => UInt8.ofNat w :: littleEndian n (w / 256)

/-- The number whose bytes are given, the lowest first. -/
def ofLittleEndian : List UInt8 → Nat
  | [] => 0
  | b :: bs => b.toNat + 256 * ofLittleEndian bs

/-- The bytes of a count. -/
def ofCount (count : UInt64) : Value :=
  littleEndian 8 count.toNat

/-- The count that bytes start with. -/
def count? (v : Value) : Except Error UInt64 :=
  if 8 ≤ v.length then .ok (UInt64.ofNat (ofLittleEndian (v.take 8))) else .error .undecodable

/-- The byte of a flag. -/
def ofFlag (flag : Bool) : Value :=
  [if flag then 1 else 0]

/-- The flag that bytes start with. -/
def flag? : Value → Except Error Bool
  | b :: _ => if b = 0 then .ok false else if b = 1 then .ok true else .error .undecodable
  | [] => .error .undecodable

/-- The value stored where only the presence of a key matters. -/
def marker : Value :=
  ofFlag true

theorem length_littleEndian (n w : Nat) : (littleEndian n w).length = n := by
  induction n generalizing w with
  | zero => rfl
  | succ n ih => simp [littleEndian, ih]

theorem ofLittleEndian_littleEndian {n w : Nat} (h : w < Nat.pow 256 n) :
    ofLittleEndian (littleEndian n w) = w := by
  induction n generalizing w with
  | zero =>
    obtain rfl : w = 0 := Nat.lt_one_iff.mp h
    rfl
  | succ n ih =>
    have : w / 256 < Nat.pow 256 n := (Nat.div_lt_iff_lt_mul (by decide)).mpr h
    rw [littleEndian, ofLittleEndian, ih this, UInt8.toNat_ofNat']
    omega

/-- A count reads back. -/
theorem count?_ofCount (count : UInt64) : count? (ofCount count) = .ok count := by
  have bound : count.toNat < Nat.pow 256 8 := count.toNat_lt
  have len : (ofCount count).length = 8 := length_littleEndian 8 _
  rw [count?, if_pos (by omega), List.take_of_length_le (by omega), ofCount,
    ofLittleEndian_littleEndian bound, UInt64.ofNat_toNat]

end Value

end ConceptSpace.Storage
