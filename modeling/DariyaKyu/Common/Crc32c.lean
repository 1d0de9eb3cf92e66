import DariyaKyu.Common.Errors

/-!
`common/crc32c.cpp`: the reflected Castagnoli checksum, one byte at a time. An
entry of the source's compile-time table is the value of `makeTable` at that
index.
-/

namespace DariyaKyu

set_option autoImplicit false

def kReflectedPolynomial : BitVec 32 := 0x82F63B78#32

def tableBit (crc : BitVec 32) : BitVec 32 :=
  if crc &&& 1#32 = 1#32 then crc >>> 1 ^^^ kReflectedPolynomial else crc >>> 1

/-- `makeTable()[index]`: eight shift steps starting from the index. -/
def kTable (index : BitVec 32) : BitVec 32 :=
  tableBit (tableBit (tableBit (tableBit (tableBit (tableBit (tableBit (tableBit index)))))))

def crc32cInit : BitVec 32 := 0xFFFFFFFF#32

def crc32cStep (crc : BitVec 32) (byte : UInt8) : BitVec 32 :=
  kTable ((crc ^^^ BitVec.ofNat 32 byte.toNat) &&& 0xFF#32) ^^^ crc >>> 8

def crc32cUpdate (crc : BitVec 32) (data : Bytes) : BitVec 32 := data.foldl crc32cStep crc

def crc32cFinish (crc : BitVec 32) : BitVec 32 := crc ^^^ 0xFFFFFFFF#32

def crc32c (data : Bytes) : BitVec 32 := crc32cFinish (crc32cUpdate crc32cInit data)

/-- The check value of the algorithm, over the ASCII digits one to nine. -/
example : crc32c [0x31, 0x32, 0x33, 0x34, 0x35, 0x36, 0x37, 0x38, 0x39] = 0xE3069283#32 := by
  decide +kernel

end DariyaKyu
