import Libvfn.Foundation.Crc
import Libvfn.Foundation.Word

/-!
# The CRC of a buffer

`nvme_crc64` takes a byte at a time. It moves the register down by a byte and adds the entry
of a table for the byte that drops out, added to the one that comes in. The table is made
when the library is built, by a program that takes the bits of every byte one after the other.

The register that is meant takes the bits of the buffer one by one, those of a byte from the
lowest on. Taking a byte from the table is the same as taking its eight bits, so the table can
be forgotten: what is known about bits holds of `nvme_crc64`.
-/

namespace Libvfn

namespace Nvme

open Word Crc

def crc64NvmePoly : U64 := 0x9A6C9329AC4BC9B5

def generateBit (byte : BitVec 8) (crc : U64) (j : ℕ) : U64 :=
  if (crc ^^^ (byte >>> j).setWidth 64) &&& 1 ≠ 0 then crc >>> 1 ^^^ crc64NvmePoly else crc >>> 1

def generateEntry (byte : BitVec 8) : U64 := (List.range 8).foldl (generateBit byte) 0

def generate : List U64 := (List.range 256).map fun i => generateEntry (BitVec.ofNat 8 i)

def nvmeCrc64Byte (crc : U64) (byte : BitVec 8) : U64 :=
  crc >>> 8 ^^^ generate.getD ((crc &&& 0xff) ^^^ byte.setWidth 64).toNat 0

def nvmeCrc64 (crc : U64) (buffer : List (BitVec 8)) : U64 :=
  buffer.foldl nvmeCrc64Byte crc ^^^ ~~~0

def byteBits (byte : BitVec 8) : List Bool := (List.range 8).map byte.getLsbD

def bufferBits (buffer : List (BitVec 8)) : List Bool := buffer.flatMap byteBits

@[simp]
theorem bufferBits_cons (byte : BitVec 8) (buffer : List (BitVec 8)) :
    bufferBits (byte :: buffer) = byteBits byte ++ bufferBits buffer := List.flatMap_cons

/-! ## The table -/

theorem generateBit_eq (byte : BitVec 8) (crc : U64) (j : ℕ) :
    generateBit byte crc j = bitStep crc64NvmePoly crc (byte.getLsbD j) := by
  have hbit : (crc ^^^ (byte >>> j).setWidth 64).getLsbD 0 =
      (crc.getLsbD 0 ^^ byte.getLsbD j) := by
    rw [BitVec.getLsbD_xor, BitVec.getLsbD_setWidth, BitVec.getLsbD_ushiftRight]
    rfl
  have hone : (crc ^^^ (byte >>> j).setWidth 64) &&& 1 = _ :=
    BitVec.and_one_eq_setWidth_ofBool_getLsbD
  rw [generateBit, bitStep, hone, hbit]
  cases crc.getLsbD 0 ^^ byte.getLsbD j with
  | false => rfl
  | true => rfl

theorem generateEntry_eq (byte : BitVec 8) :
    generateEntry byte = register crc64NvmePoly 0 (byteBits byte) := by
  rw [generateEntry, register, byteBits, List.foldl_map]
  simp only [funext₂ (generateBit_eq byte)]

theorem length_byteBits (byte : BitVec 8) : (byteBits byte).length = 8 := by
  rw [byteBits, List.length_map, List.length_range]

theorem word_byteBits (byte : BitVec 8) : word 64 (byteBits byte) = byte.setWidth 64 := by
  have hlen : (byteBits byte).length ≤ 64 := by
    rw [length_byteBits]
    decide
  refine BitVec.eq_of_getLsbD_eq fun i hi => ?_
  rw [getLsbD_word hlen, BitVec.getLsbD_setWidth, decide_eq_true hi, Bool.true_and]
  by_cases hi8 : i < 8
  · rw [List.getD_eq_getElem _ _ (by rwa [length_byteBits])]
    simp [byteBits]
  · rw [List.getD_eq_default _ _ (by rw [length_byteBits]; omega),
      BitVec.getLsbD_of_ge _ _ (by omega)]

theorem register_byteBits (crc : U64) (byte : BitVec 8) :
    register crc64NvmePoly crc (byteBits byte) =
      zeros crc64NvmePoly 8 (crc ^^^ byte.setWidth 64) := by
  have hlen : (byteBits byte).length ≤ 64 := by
    rw [length_byteBits]
    decide
  rw [register_eq_zeros _ hlen, length_byteBits, word_byteBits]

theorem getD_generate {x : U64} (hx : x.toNat < 256) :
    generate.getD x.toNat 0 = zeros crc64NvmePoly 8 x := by
  have hword : (BitVec.ofNat 8 x.toNat).setWidth 64 = x := by
    refine BitVec.eq_of_toNat_eq ?_
    rw [BitVec.toNat_setWidth, BitVec.toNat_ofNat, Nat.mod_eq_of_lt hx, Nat.mod_eq_of_lt x.isLt]
  rw [generate, List.getD_eq_getElem _ _ (by simpa using hx), List.getElem_map,
    List.getElem_range, generateEntry_eq, register_byteBits, hword]
  exact congrArg _ BitVec.zero_xor

/-! ## Bytes -/

/-- A register without its lowest byte. -/
theorem zeros_high (x : U64) : zeros crc64NvmePoly 8 (x &&& ~~~0xff) = x >>> 8 := by
  have hmask : ∀ i, (0xff : U64).getLsbD i = decide (i < 8) := by
    intro i
    have h255 : (0xff : U64) = BitVec.ofNat 64 (2 ^ 8 - 1) := rfl
    rw [h255, BitVec.getLsbD_ofNat, Nat.testBit_two_pow_sub_one]
    by_cases hi : i < 8
    · simp [hi, show i < 64 by omega]
    · simp [hi]
  rw [zeros_eq_shift]
  · refine BitVec.eq_of_getLsbD_eq fun i _ => ?_
    rw [BitVec.getLsbD_ushiftRight, BitVec.getLsbD_ushiftRight, BitVec.getLsbD_and,
      BitVec.getLsbD_not, hmask]
    by_cases hi : 8 + i < 64
    · simp [hi]
    · rw [BitVec.getLsbD_of_ge x _ (by omega), Bool.false_and]
  · intro i hi
    rw [BitVec.getLsbD_and, BitVec.getLsbD_not, hmask, decide_eq_true hi]
    simp

theorem xor_and (x y m : U64) : (x ^^^ y) &&& m = (x &&& m) ^^^ (y &&& m) := by
  refine BitVec.eq_of_getLsbD_eq fun i _ => ?_
  rw [BitVec.getLsbD_and, BitVec.getLsbD_xor, BitVec.getLsbD_xor, BitVec.getLsbD_and,
    BitVec.getLsbD_and, Bool.and_xor_distrib_right]

theorem and_xor_and_not (x m : U64) : (x &&& m) ^^^ (x &&& ~~~m) = x := by
  refine BitVec.eq_of_getLsbD_eq fun i hi => ?_
  rw [BitVec.getLsbD_xor, BitVec.getLsbD_and, BitVec.getLsbD_and, BitVec.getLsbD_not,
    decide_eq_true hi]
  cases x.getLsbD i <;> cases m.getLsbD i <;> rfl

/-- A byte that is taken from the table has its eight bits taken. -/
theorem nvmeCrc64Byte_eq (crc : U64) (byte : BitVec 8) :
    nvmeCrc64Byte crc byte = register crc64NvmePoly crc (byteBits byte) := by
  have hbyte : byte.setWidth 64 &&& 0xff = byte.setWidth 64 := by
    refine BitVec.eq_of_toNat_eq ?_
    have h255 : (0xff : U64).toNat = 2 ^ 8 - 1 := rfl
    have hlt := byte.isLt
    rw [BitVec.toNat_and, h255, Nat.and_two_pow_sub_one_eq_mod, BitVec.toNat_setWidth]
    omega
  have hindex : (crc &&& 0xff) ^^^ byte.setWidth 64 = (crc ^^^ byte.setWidth 64) &&& 0xff := by
    rw [xor_and, hbyte]
  have hlt : ((crc ^^^ byte.setWidth 64) &&& 0xff).toNat < 256 := by
    have h255 : (0xff : U64).toNat = 2 ^ 8 - 1 := rfl
    rw [BitVec.toNat_and, h255, Nat.and_two_pow_sub_one_eq_mod]
    exact Nat.mod_lt _ (by decide)
  have hshift : (crc ^^^ byte.setWidth 64) >>> 8 = crc >>> 8 := by
    have hzero : byte.setWidth 64 >>> 8 = 0 := by
      refine BitVec.eq_of_toNat_eq ?_
      have hlt := byte.isLt
      rw [BitVec.toNat_ushiftRight, BitVec.toNat_setWidth]
      exact Nat.shiftRight_eq_zero _ _ (by omega)
    rw [BitVec.ushiftRight_xor_distrib, hzero]
    exact BitVec.xor_zero
  rw [nvmeCrc64Byte, hindex, getD_generate hlt, register_byteBits, ← hshift, ← zeros_high,
    BitVec.xor_comm, ← zeros_xor, and_xor_and_not]

theorem foldl_nvmeCrc64Byte (crc : U64) (buffer : List (BitVec 8)) :
    buffer.foldl nvmeCrc64Byte crc = register crc64NvmePoly crc (bufferBits buffer) := by
  induction buffer generalizing crc with
  | nil => rfl
  | cons byte buffer ih =>
      rw [List.foldl_cons, ih, nvmeCrc64Byte_eq, bufferBits_cons, register_append]

/-- `nvme_crc64` is the complement of the register that takes the bits of the buffer one by
one. -/
theorem nvmeCrc64_eq_register (crc : U64) (buffer : List (BitVec 8)) :
    nvmeCrc64 crc buffer = ~~~register crc64NvmePoly crc (bufferBits buffer) := by
  rw [nvmeCrc64, foldl_nvmeCrc64Byte]
  exact BitVec.xor_allOnes

/-- The check value: the digits one to nine. -/
example : nvmeCrc64 (~~~0) [0x31, 0x32, 0x33, 0x34, 0x35, 0x36, 0x37, 0x38, 0x39] =
    0xAE8B14860A799888 := by
  decide +kernel

/-! ## Bursts -/

theorem byteBits_injective {x y : BitVec 8} (h : byteBits x = byteBits y) : x = y := by
  have hword : x.setWidth 64 = y.setWidth 64 := by
    rw [← word_byteBits, ← word_byteBits, h]
  have hnat := congrArg BitVec.toNat hword
  have hx := x.isLt
  have hy := y.isLt
  rw [BitVec.toNat_setWidth, BitVec.toNat_setWidth] at hnat
  exact BitVec.eq_of_toNat_eq (by omega)

theorem bufferBits_injective {a b : List (BitVec 8)} (hlen : a.length = b.length)
    (h : bufferBits a = bufferBits b) : a = b := by
  induction a generalizing b with
  | nil => exact (List.eq_nil_of_length_eq_zero hlen.symm).symm
  | cons x a ih =>
      cases b with
      | nil => cases hlen
      | cons y b =>
          rw [bufferBits_cons, bufferBits_cons] at h
          obtain ⟨hbyte, hrest⟩ :=
            List.append_inj h ((length_byteBits x).trans (length_byteBits y).symm)
          rw [byteBits_injective hbyte, ih (Nat.succ.inj hlen) hrest]

theorem length_bufferBits (buffer : List (BitVec 8)) :
    (bufferBits buffer).length = 8 * buffer.length := by
  induction buffer with
  | nil => rfl
  | cons byte buffer ih =>
      rw [bufferBits_cons, List.length_append, length_byteBits, ih, List.length_cons]
      omega

/-- Buffers that differ within 64 bits in a row have different CRCs. -/
theorem nvmeCrc64_ne_of_burst (crc : U64) {a b : List (BitVec 8)} (hlen : a.length = b.length)
    (hne : a ≠ b) {k : ℕ}
    (hburst : ∀ i, (bufferBits a)[i]? ≠ (bufferBits b)[i]? → k ≤ i ∧ i < k + 64) :
    nvmeCrc64 crc a ≠ nvmeCrc64 crc b := by
  have hbits : (bufferBits a).length = (bufferBits b).length := by
    rw [length_bufferBits, length_bufferBits, hlen]
  have hpoly : crc64NvmePoly.msb = true := by decide
  have hdiff := register_ne_of_burst hpoly hbits
    (fun h => hne (bufferBits_injective hlen h)) hburst crc
  rw [nvmeCrc64, nvmeCrc64, foldl_nvmeCrc64Byte, foldl_nvmeCrc64Byte]
  exact fun h => hdiff ((BitVec.xor_left_inj _).mp h)

/-- The burst may reach over nine bytes. -/
theorem nvmeCrc64_ne_of_burst_across :
    nvmeCrc64 0 [0x80, 0, 0, 0, 0, 0, 0, 0, 0x01] ≠ nvmeCrc64 0 [0, 0, 0, 0, 0, 0, 0, 0, 0] := by
  have hinside : ∀ i < 72, (bufferBits [0x80, 0, 0, 0, 0, 0, 0, 0, 0x01])[i]? ≠
      (bufferBits [0, 0, 0, 0, 0, 0, 0, 0, 0])[i]? → 7 ≤ i ∧ i < 7 + 64 := by
    decide +kernel
  refine nvmeCrc64_ne_of_burst (k := 7) 0 rfl (by decide) fun i hi => ?_
  by_cases hlt : i < 72
  · exact hinside i hlt hi
  · rw [List.getElem?_eq_none (by rw [length_bufferBits]; exact not_lt.mp hlt),
      List.getElem?_eq_none (by rw [length_bufferBits]; exact not_lt.mp hlt)] at hi
    exact absurd rfl hi

end Nvme

end Libvfn
