/-!
# Byte order

`Endian.word` and `Endian.octets` convert between a run of bytes and the number it spells in
either byte order. `flipSlots` reverses every slot of a given size, which turns the one order into
the other for a whole array of equally wide numbers.
-/

namespace ByteRecord

/-- The order in which the bytes of a number are stored. -/
inductive Endian where
  /-- The most significant byte first. -/
  | big
  /-- The least significant byte first. -/
  | little
  deriving DecidableEq

/-- The number whose bytes, least significant first, are given. -/
def littleWord : List UInt8 → Nat
  | [] => 0
  | byte :: rest => byte.toNat + 256 * littleWord rest

/-- The lowest `count` bytes of a number, least significant first. -/
def littleOctets : (count : Nat) → Nat → List UInt8
  | 0, _ => []
  | count + 1, word => UInt8.ofNat word :: littleOctets count (word / 256)

@[simp] theorem length_littleOctets (count word : Nat) :
    (littleOctets count word).length = count := by
  induction count generalizing word with
  | zero => rfl
  | succ count ih => simp [littleOctets, ih]

/-- Bytes are determined by their number and the word that they spell. -/
theorem littleOctets_littleWord (bytes : List UInt8) :
    littleOctets bytes.length (littleWord bytes) = bytes := by
  induction bytes with
  | nil => rfl
  | cons byte rest ih =>
    have low : byte.toNat < 256 := byte.toNat_lt
    have quotient : (byte.toNat + 256 * littleWord rest) / 256 = littleWord rest := by omega
    have lowest : UInt8.ofNat (byte.toNat + 256 * littleWord rest) = byte := by
      apply UInt8.toNat_inj.mp
      rw [UInt8.toNat_ofNat']
      omega
    simp only [List.length_cons, littleWord, littleOctets, quotient, lowest, ih]

/-- Bytes keep a word up to the multiples of what they can spell. -/
theorem littleWord_littleOctets (count word : Nat) :
    littleWord (littleOctets count word) = word % Nat.pow 256 count := by
  induction count generalizing word with
  | zero => simp [littleOctets, littleWord, Nat.mod_one]
  | succ count ih =>
    have split : word % (256 * Nat.pow 256 count)
        = word % 256 + 256 * (word / 256 % Nat.pow 256 count) := Nat.mod_mul
    have unfolded : Nat.pow 256 (count + 1) = 256 * Nat.pow 256 count := Nat.mul_comm _ _
    rw [littleOctets, littleWord, ih, unfolded, split, UInt8.toNat_ofNat']

namespace Endian

/-- Puts bytes with the least significant first into this order, and back. -/
def arrange : Endian → List UInt8 → List UInt8
  | big, bytes => bytes.reverse
  | little, bytes => bytes

/-- The number that bytes in this order spell. -/
def word (order : Endian) (bytes : List UInt8) : Nat := littleWord (order.arrange bytes)

/-- The lowest `count` bytes of a number in this order. -/
def octets (order : Endian) (count word : Nat) : List UInt8 :=
  order.arrange (littleOctets count word)

@[simp] theorem arrange_arrange (order : Endian) (bytes : List UInt8) :
    order.arrange (order.arrange bytes) = bytes := by
  cases order <;> simp [arrange]

@[simp] theorem length_arrange (order : Endian) (bytes : List UInt8) :
    (order.arrange bytes).length = bytes.length := by
  cases order <;> simp [arrange]

@[simp] theorem length_octets (order : Endian) (count word : Nat) :
    (order.octets count word).length = count := by
  simp [octets]

/-- Writing the word that bytes spell gives the bytes back. -/
theorem octets_word (order : Endian) (bytes : List UInt8) :
    order.octets bytes.length (order.word bytes) = bytes := by
  have written := littleOctets_littleWord (order.arrange bytes)
  rw [length_arrange] at written
  rw [octets, word, written, arrange_arrange]

/-- Reading the bytes of a word gives the word back, reduced to what so many bytes can spell. -/
theorem word_octets (order : Endian) (count word : Nat) :
    order.word (order.octets count word) = word % Nat.pow 256 count := by
  rw [Endian.word, octets, arrange_arrange, littleWord_littleOctets]

end Endian

/-- Why the slots of a run of bytes cannot be reversed. -/
inductive SlotError where
  /-- A slot has no bytes. -/
  | emptySlot
  /-- The bytes do not divide into slots. -/
  | unevenSlots
  deriving DecidableEq

/-- The wording of the error. -/
def SlotError.message : SlotError → String
  | emptySlot => "element_size must be > 0"
  | unevenSlots => "byte count is not a multiple of element_size"

/-- The next `count` slots of a run of bytes, each slot with its bytes reversed. -/
def reverseSlots (size : Nat) : (count : Nat) → List UInt8 → List UInt8
  | 0, _ => []
  | count + 1, bytes => (bytes.take size).reverse ++ reverseSlots size count (bytes.drop size)

/-- Reversing slots keeps the number of bytes. -/
theorem length_reverseSlots (size count : Nat) (bytes : List UInt8)
    (h : bytes.length = count * size) : (reverseSlots size count bytes).length = bytes.length := by
  induction count generalizing bytes with
  | zero =>
    rw [Nat.zero_mul] at h
    simp [reverseSlots, h]
  | succ count ih =>
    rw [Nat.succ_mul] at h
    have behind : (bytes.drop size).length = count * size := by
      rw [List.length_drop]
      omega
    simp only [reverseSlots, List.length_append, List.length_reverse, List.length_take,
      ih _ behind, behind]
    omega

/-- Reverses the bytes within every slot of the given size. -/
def flipSlots (size : Nat) (bytes : List UInt8) : Except SlotError (List UInt8) :=
  if size = 0 then .error .emptySlot
  else if bytes.length % size ≠ 0 then .error .unevenSlots
  else .ok (reverseSlots size (bytes.length / size) bytes)

end ByteRecord
