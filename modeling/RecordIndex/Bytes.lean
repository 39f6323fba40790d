/-!
# Byte strings and big-endian words

Everything on disk is a byte string, and every number in it is a big-endian word of a fixed width.

* `BigEndian.encode w n` writes the low `w` bytes of `n`, most significant first.
* `BigEndian.decode bs` reads a byte string as a number, most significant byte first.

`decode_encode` and `encode_decode` say that the two are inverse to each other on words of one
width.
-/

namespace RecordIndex

/-- A string of bytes. -/
abbrev Bytes := List UInt8

/-- `n` bytes that are all zero. -/
def zeros (n : Nat) : Bytes := List.replicate n 0

@[simp] theorem length_zeros (n : Nat) : (zeros n).length = n := List.length_replicate

/-- `bs` filled up with zero bytes to `width` bytes. -/
def padTo (width : Nat) (bs : Bytes) : Bytes := bs ++ zeros (width - bs.length)

theorem length_padTo {width : Nat} {bs : Bytes} (h : bs.length ≤ width) :
    (padTo width bs).length = width := by
  simp [padTo, Nat.add_sub_cancel' h]

namespace BigEndian

/-- The number that is one too large for a word of `w` bytes. -/
def limit : (w : Nat) → Nat
  | 0 => 1
  | w + 1 => limit w * 256

@[simp] theorem limit_zero : limit 0 = 1 := rfl

theorem limit_pos (w : Nat) : 0 < limit w := by
  induction w with
  | zero => exact Nat.one_pos
  | succ w ih => exact Nat.mul_pos ih (by decide)

/-- The low `width` bytes of `n`, most significant first. -/
def encode : (width : Nat) → (n : Nat) → Bytes
  | 0, _ => []
  | w + 1, n => UInt8.ofNat (n / limit w) :: encode w n

/-- The number that a byte string writes, most significant byte first. -/
def decode (bs : Bytes) : Nat := bs.foldl (fun n b => n * 256 + b.toNat) 0

@[simp] theorem length_encode (w n : Nat) : (encode w n).length = w := by
  induction w with
  | zero => rfl
  | succ w ih => simp [encode, ih]

theorem foldl_digits (bs : Bytes) (n : Nat) :
    bs.foldl (fun n b => n * 256 + b.toNat) n = n * limit bs.length + decode bs := by
  induction bs generalizing n with
  | nil => simp [decode]
  | cons b bs ih =>
    simp only [List.foldl_cons, List.length_cons, decode, ih (n * 256 + b.toNat),
      ih (0 * 256 + b.toNat), limit]
    rw [Nat.add_mul, Nat.mul_assoc, Nat.mul_comm 256, Nat.zero_mul, Nat.zero_add, Nat.add_assoc]

theorem decode_cons (b : UInt8) (bs : Bytes) :
    decode (b :: bs) = b.toNat * limit bs.length + decode bs := by
  rw [decode, List.foldl_cons, foldl_digits, Nat.zero_mul, Nat.zero_add]

theorem decode_lt (bs : Bytes) : decode bs < limit bs.length := by
  induction bs with
  | nil => simp [decode]
  | cons b bs ih =>
    have hb : b.toNat < 256 := b.toNat_lt
    rw [decode_cons, List.length_cons, limit]
    calc b.toNat * limit bs.length + decode bs
        < b.toNat * limit bs.length + limit bs.length := by omega
      _ = (b.toNat + 1) * limit bs.length := by rw [Nat.add_mul, Nat.one_mul]
      _ ≤ 256 * limit bs.length := Nat.mul_le_mul_right _ hb
      _ = limit bs.length * 256 := Nat.mul_comm _ _

/-- Reading a word of `w` bytes back gives the number modulo `limit w`. -/
theorem decode_encode_mod (w n : Nat) : decode (encode w n) = n % limit w := by
  induction w with
  | zero => simp [encode, decode, Nat.mod_one]
  | succ w ih =>
    rw [encode, decode_cons, length_encode, ih, UInt8.toNat_ofNat', limit]
    show n / limit w % 256 * limit w + n % limit w = n % (limit w * 256)
    rw [Nat.mod_mul, Nat.mul_comm (limit w), Nat.add_comm]

theorem decode_encode {w n : Nat} (h : n < limit w) : decode (encode w n) = n := by
  rw [decode_encode_mod, Nat.mod_eq_of_lt h]

/-- Only the low bytes of the number are written. -/
theorem encode_add_mul (w n k : Nat) : encode w (k * limit w + n) = encode w n := by
  induction w generalizing k with
  | zero => rfl
  | succ w ih =>
    have hpow : k * limit (w + 1) = k * 256 * limit w := by
      rw [limit, Nat.mul_assoc, Nat.mul_comm 256]
    rw [encode, encode, hpow, ih (k * 256), Nat.mul_comm (k * 256),
      Nat.mul_add_div (limit_pos _)]
    congr 1
    apply UInt8.toNat_inj.1
    simp only [UInt8.toNat_ofNat']
    show (k * 256 + n / limit w) % 256 = n / limit w % 256
    rw [Nat.add_comm, Nat.add_mul_mod_self_right]

/-- Writing the number that a byte string stands for gives the byte string back. -/
theorem encode_decode (bs : Bytes) : encode bs.length (decode bs) = bs := by
  induction bs with
  | nil => rfl
  | cons b bs ih =>
    rw [List.length_cons, encode, decode_cons, encode_add_mul, ih]
    congr 1
    rw [Nat.mul_comm, Nat.mul_add_div (limit_pos _), Nat.div_eq_of_lt (decode_lt bs),
      Nat.add_zero]
    exact UInt8.ofNat_toNat

end BigEndian
end RecordIndex
