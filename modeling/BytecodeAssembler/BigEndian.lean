/-! # Big-endian words

A number as a fixed count of bytes, most significant first, and the number a list of bytes spells.
`value_encode` says that `n` bytes keep a number modulo the count of words of `n` bytes, so they keep
a number below that count as it is.
-/
namespace BytecodeAssembler.BigEndian

/-- How many words of `n` bytes there are. -/
def capacity : Nat → Nat
  | 0 => 1
  | n + 1 => capacity n * 256

/-- The low `n` bytes of `v`, most significant first. -/
def encode : Nat → Nat → List UInt8
  | 0, _ => []
  | n + 1, v => encode n (v / 256) ++ [UInt8.ofNat v]

def value (bytes : List UInt8) : Nat := bytes.foldl (fun acc b => acc * 256 + b.toNat) 0

@[simp] theorem length_encode (n v : Nat) : (encode n v).length = n := by
  induction n generalizing v with
  | zero => rfl
  | succ n ih => simp [encode, ih]

theorem value_append_singleton (bs : List UInt8) (b : UInt8) :
    value (bs ++ [b]) = value bs * 256 + b.toNat := by
  simp [value]

theorem value_encode (n v : Nat) : value (encode n v) = v % capacity n := by
  induction n generalizing v with
  | zero => simp [encode, value, capacity, Nat.mod_one]
  | succ n ih =>
    rw [encode, value_append_singleton, ih, capacity, Nat.mul_comm (capacity n), Nat.mod_mul]
    simp [Nat.mul_comm, Nat.add_comm]

theorem value_encode_of_lt {n v : Nat} (h : v < capacity n) : value (encode n v) = v := by
  rw [value_encode, Nat.mod_eq_of_lt h]

end BytecodeAssembler.BigEndian
