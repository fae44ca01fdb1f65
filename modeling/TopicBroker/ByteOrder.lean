import Mathlib.Algebra.Group.Nat.Defs
import TopicBroker.ByteBlocks

/-!
Integers in memory. The host stores a word with its least significant byte
first; network order is the reverse. Reading back what was stored gives the
stored value, and reversing the bytes of a word twice gives the word again.
-/
namespace TopicBroker.ByteOrder

open ByteBlocks

/-- The `width` bytes of a word in host memory, least significant first. -/
def hostBytes : ℕ → ℕ → Bytes
  | 0, _ => []
  | width + 1, value => UInt8.ofNat value :: hostBytes width (value / 256)

/-- The value of a word read from host memory. -/
def hostValue : Bytes → ℕ
  | [] => 0
  | b :: rest => b.toNat + 256 * hostValue rest

@[simp] theorem hostBytes_length (width value : ℕ) : (hostBytes width value).length = width := by
  induction width generalizing value with
  | zero => rfl
  | succ width ih => rw [hostBytes, List.length_cons, ih]

theorem hostValue_lt (bytes : Bytes) : hostValue bytes < 256 ^ bytes.length := by
  induction bytes with
  | nil => simp [hostValue]
  | cons b rest ih =>
    have hb : b.toNat < 256 := b.toNat_lt
    rw [hostValue, List.length_cons, Nat.pow_succ]
    omega

theorem hostValue_hostBytes {width value : ℕ} (h : value < 256 ^ width) :
    hostValue (hostBytes width value) = value := by
  induction width generalizing value with
  | zero =>
    have hzero : value = 0 := by simpa using h
    rw [hzero, hostBytes, hostValue]
  | succ width ih =>
    have hrest : value / 256 < 256 ^ width := by
      rw [Nat.pow_succ] at h
      omega
    rw [hostBytes, hostValue, ih hrest, UInt8.toNat_ofNat']
    omega

theorem hostBytes_hostValue (bytes : Bytes) : hostBytes bytes.length (hostValue bytes) = bytes := by
  induction bytes with
  | nil => rfl
  | cons b rest ih =>
    have hb : b.toNat < 256 := b.toNat_lt
    have hdiv : (b.toNat + 256 * hostValue rest) / 256 = hostValue rest := by omega
    have hlow : UInt8.ofNat (b.toNat + 256 * hostValue rest) = b := by
      apply UInt8.toNat_inj.mp
      rw [UInt8.toNat_ofNat']
      omega
    rw [List.length_cons, hostValue, hostBytes, hdiv, ih, hlow]

theorem hostValue_inj {a b : Bytes} (hlength : a.length = b.length)
    (hvalue : hostValue a = hostValue b) : a = b := by
  rw [← hostBytes_hostValue a, ← hostBytes_hostValue b, hlength, hvalue]

/-- `htons` and `ntohs` are the same exchange of the two bytes of a short. -/
def htons (x : UInt16) : UInt16 := UInt16.ofNat (hostValue (hostBytes 2 x.toNat).reverse)

def ntohs (x : UInt16) : UInt16 := htons x

/-- `ntohl` reverses the four bytes of a word. -/
def ntohl (x : UInt32) : UInt32 := UInt32.ofNat (hostValue (hostBytes 4 x.toNat).reverse)

/-- The four bytes of a word in network order. -/
def networkBytes (x : UInt32) : Bytes := (hostBytes 4 x.toNat).reverse

@[simp] theorem networkBytes_length (x : UInt32) : (networkBytes x).length = 4 := by
  rw [networkBytes, List.length_reverse, hostBytes_length]

theorem hostValue_networkBytes (x : UInt32) : hostValue (networkBytes x).reverse = x.toNat := by
  have hx : x.toNat < 256 ^ 4 := x.toNat_lt
  rw [networkBytes, List.reverse_reverse, hostValue_hostBytes hx]

/-- The two bytes of a short as `memcpy` moves them. -/
def shortBytes (x : UInt16) : Bytes := hostBytes 2 x.toNat

def shortOfBytes (bytes : Bytes) : UInt16 := UInt16.ofNat (hostValue bytes)

def wordOfBytes (bytes : Bytes) : UInt32 := UInt32.ofNat (hostValue bytes)

@[simp] theorem shortBytes_length (x : UInt16) : (shortBytes x).length = 2 := hostBytes_length 2 _

theorem shortOfBytes_shortBytes (x : UInt16) : shortOfBytes (shortBytes x) = x := by
  have hx : x.toNat < 256 ^ 2 := x.toNat_lt
  rw [shortOfBytes, shortBytes, hostValue_hostBytes hx, UInt16.ofNat_toNat]

theorem hostBytes_htons (x : UInt16) :
    hostBytes 2 (htons x).toNat = (hostBytes 2 x.toNat).reverse := by
  have hlt := hostValue_lt (hostBytes 2 x.toNat).reverse
  have hlength : (hostBytes 2 x.toNat).reverse.length = 2 := by simp
  rw [hlength] at hlt
  have hval : (htons x).toNat = hostValue (hostBytes 2 x.toNat).reverse := by
    rw [htons, UInt16.toNat_ofNat']
    omega
  have hback := hostBytes_hostValue (hostBytes 2 x.toNat).reverse
  rwa [hlength, ← hval] at hback

theorem ntohs_htons (x : UInt16) : ntohs (htons x) = x := by
  have hx : x.toNat < 256 ^ 2 := x.toNat_lt
  rw [ntohs, htons, hostBytes_htons, List.reverse_reverse, hostValue_hostBytes hx,
    UInt16.ofNat_toNat]

/-- The bytes of an `int` and the `int` in four bytes. -/
def intBytes (x : BitVec 32) : Bytes := hostBytes 4 x.toNat

def intOfBytes (bytes : Bytes) : BitVec 32 := BitVec.ofNat 32 (hostValue bytes)

@[simp] theorem intBytes_length (x : BitVec 32) : (intBytes x).length = 4 := hostBytes_length 4 _

theorem intOfBytes_intBytes (x : BitVec 32) : intOfBytes (intBytes x) = x := by
  have hx : x.toNat < 256 ^ 4 := x.isLt
  rw [intOfBytes, intBytes, hostValue_hostBytes hx, BitVec.ofNat_toNat, BitVec.setWidth_eq]

theorem intOfBytes_inj {a b : Bytes} (ha : a.length = 4) (hb : b.length = 4)
    (h : intOfBytes a = intOfBytes b) : a = b := by
  have hla := hostValue_lt a
  have hlb := hostValue_lt b
  rw [ha] at hla
  rw [hb] at hlb
  apply hostValue_inj (ha.trans hb.symm)
  have hval := congrArg BitVec.toNat h
  rw [intOfBytes, intOfBytes, BitVec.toNat_ofNat, BitVec.toNat_ofNat] at hval
  omega

end TopicBroker.ByteOrder
