import XrdBlackhole.Library.Heap
import Mathlib.Tactic

/-!
# Values of the blackhole backend

A `std::string` is the list of its bytes: a `Char` stands for one byte, not for a
character of some encoding. 64-bit integers (`size_t`, `ssize_t`, `off_t`,
`unsigned long long`) are words whose reading, signed or unsigned, is chosen where the
source chooses it, and `int` is a 32-bit word.
A stub keeps the fields which some modelled operation reads or writes; its
checksum table is never used by the source.
-/

namespace XrdBlackhole

abbrev Str := List Char
abbrev Word := BitVec 64
abbrev CInt := BitVec 32

/-- What a C string pointer to these characters denotes. -/
def cString (s : Str) : Str := s.takeWhile (· ≠ '\x00')

def XrdOssOK : ℤ := 0
def ENOENT : ℤ := 2
def EEXIST : ℤ := 17
def EINVAL : ℤ := 22

def O_ACCMODE : CInt := 3
def O_RDONLY : CInt := 0
def O_WRONLY : CInt := 1
def O_RDWR : CInt := 2
def O_EXCL : CInt := 0x80
def O_TRUNC : CInt := 0x200

def S_IFREG : CInt := 0x8000

def readOnly (flags : CInt) : Prop := flags &&& O_ACCMODE = O_RDONLY
def excl (flags : CInt) : Prop := flags &&& O_EXCL ≠ 0
def trunc (flags : CInt) : Prop := flags &&& O_TRUNC ≠ 0

instance (flags : CInt) : Decidable (readOnly flags) := inferInstanceAs (Decidable (_ = _))
instance (flags : CInt) : Decidable (excl flags) := inferInstanceAs (Decidable (_ ≠ _))
instance (flags : CInt) : Decidable (trunc flags) := inferInstanceAs (Decidable (_ ≠ _))

structure StatBuf where
  dev : Word := 0
  ino : Word := 0
  size : Word := 0
  mode : CInt := 0
  deriving DecidableEq

def zeros : Str := "zeros".toList
def random : Str := "random".toList

/-- `std::make_shared<Stub>()` zeroes the fields without an initialiser. -/
structure Stub where
  isOpenWrite : Bool := false
  flags : CInt := 0
  mode : CInt := 0
  size : Word := 0
  stat : StatBuf := {}
  special : Bool := false
  readtype : Str := zeros
  deriving DecidableEq

instance : Inhabited Stub := ⟨{}⟩

structure Stub.SameFile (s s' : Stub) : Prop where
  size : s'.size = s.size
  stat : s'.stat = s.stat
  special : s'.special = s.special
  readtype : s'.readtype = s.readtype

theorem Stub.SameFile.refl (s : Stub) : s.SameFile s := ⟨rfl, rfl, rfl, rfl⟩

theorem toInt_of_lt {x : Word} (h : x.toNat < 2 ^ 63) : x.toInt = x.toNat := by
  rw [BitVec.toInt_eq_toNat_cond, if_pos (by omega)]

theorem toNat_ofNat_of_lt {n : ℕ} (h : n < 2 ^ 63) : (BitVec.ofNat 64 n).toNat = n := by
  rw [BitVec.toNat_ofNat]
  omega

theorem toInt_ofNat_of_lt {n : ℕ} (h : n < 2 ^ 63) : (BitVec.ofNat 64 n).toInt = n := by
  rw [toInt_of_lt] <;> rw [toNat_ofNat_of_lt h]
  exact h

theorem toNat_add_of_lt {x : Word} {k : ℕ} (h : x.toNat + k < 2 ^ 64) :
    (x + BitVec.ofNat 64 k).toNat = x.toNat + k := by
  rw [BitVec.toNat_add, BitVec.toNat_ofNat]
  omega

end XrdBlackhole
