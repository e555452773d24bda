import DnsCache.Lib.CMem

/-! # The constants of `constants.h` and `server.h` -/

namespace DnsCache

open CMem

/-- The message head: total length, magic number, request number and one
reserved byte, at these offsets. -/
def totalLengthLength : Nat := 4
def magicNumberLength : Nat := 4
def requestNumberLength : Nat := 4
def reservedByteLength : Nat := 1

/-- `HEAD_LENGTH`. -/
def headLength : Nat :=
  totalLengthLength + magicNumberLength + requestNumberLength + reservedByteLength

@[simp] theorem headLength_eq : headLength = 13 := rfl

/-- `total_length - HEAD_LENGTH`, in `uint32`. -/
def payloadLength (totalLength : UInt32) : Nat := (totalLength - UInt32.ofNat headLength).toNat

/-- `MAGIC_NUMBER`. -/
def magicNumber : UInt32 := 0x12345678

/-- The byte `RESERVED_BYTE` ('F') that a client puts at the end of the head. -/
def reservedByte : UInt8 := 70

/-- The word `inet_pton` stores for `DNS_ERROR`, "127.0.0.1". -/
def dnsError : UInt32 := 0x0100007f

/-- The word `inet_pton` stores for `CACHE_MISS`, "127.0.0.2". -/
def cacheMiss : UInt32 := 0x0200007f

-- `inet_pton` leaves the octets of the dotted address in this order
example : le32 dnsError = [127, 0, 0, 1] ∧ le32 cacheMiss = [127, 0, 0, 2] := by decide

/-- The last byte of a reply's head: serial bit and error bit. -/
def firstWithError : UInt8 := 0x3f
def firstWithoutError : UInt8 := 0x7f
def secondWithError : UInt8 := 0xbf
def secondWithoutError : UInt8 := 0xff

/-- `TIME_OUT`: 24 hours in seconds. -/
def timeOut : Int := 86400

/-- `MAX_UDP_LENGTH`. -/
def maxUdpLength : Nat := 1024 * 128

/-- `TRIESIZE` and `HASHSIZE`. -/
def trieSize : Nat := 1843314 + 1
def hashSize : Nat := 33554432

/-- The values of `*miss` and of a worker's `missindex`. -/
def haveError : UInt8 := 0
def noError : UInt8 := 1

/-- The largest `int`. -/
def intMax : Nat := 2147483647

/-! ## The names of the examples -/

def nameAbc : CStr := ⟨[97, 98, 99], CStr.noNul_abc⟩
def nameUvw : CStr := ⟨[117, 118, 119], by decide⟩
def nameXyz : CStr := ⟨[120, 121, 122], CStr.noNul_xyz⟩

end DnsCache
