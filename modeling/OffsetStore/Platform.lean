import OffsetStore.Lib.Program
import OffsetStore.Lib.Words

/- The platform the library is compiled for: 64-bit size_t, max_align_t of alignment 16
   and pthread objects of the sizes they have on x86-64 Linux. Both features that the
   sources test for with the preprocessor are present: EOWNERDEAD is visible wherever it is
   tested, and PTHREAD_MUTEX_ROBUST is a macro, so that the library asks for robust mutexes
   and marks the mutex of a dead owner consistent. A build without them leaves these calls
   out. A NULL descriptor or out-parameter, which every entry point rejects before it
   touches the region, has no counterpart here: descriptors are values and results are
   returned. Pointers are addresses, an OffsetPtr is its offset; shared bytes are indexed by
   their offset from the mapping base. An access outside the mapping reads or writes bytes
   that no statement about the region mentions; the fault it may raise is not represented. -/
namespace OffsetStore
open ByteMemory Program Words

inductive OffsetStoreStatus where
  | ok
  | invalidArgument
  | invalidState
  | notFound
  | alreadyExists
  | outOfMemory
  | systemError
  deriving DecidableEq, Repr

structure ShmRegion where
  fd : Int
  base : Nat
  size : Nat
  creator : Bool
  deriving DecidableEq, Repr

/-- A mapping lies in the user part of the address space, which ends at 2^56
    even with five-level page tables, and never starts at NULL. -/
structure ShmRegion.Mapped (region : ShmRegion) : Prop where
  base_pos : 0 < region.base
  user : region.base + region.size ≤ 2 ^ 56

/-- A small mapping, for examples. -/
def smallRegion : ShmRegion := ⟨3, 65536, 4096, true⟩

theorem smallRegion_mapped : smallRegion.Mapped := ⟨by decide, by decide⟩

@[simp] def alignofMax : Nat := 16
@[simp] def sizeofMutex : Nat := 40
@[simp] def sizeofRwlock : Nat := 56
@[simp] def eownerdead : Int := 130
@[simp] def ebusy : Int := 16
@[simp] def edeadlk : Int := 35
@[simp] def eexist : Int := 17
@[simp] def enoent : Int := 2

/-- Calls that leave the library. Locks are named by their offset in the region. -/
inductive Sys where
  | mutexLock (mutex : Nat)
  | mutexTrylock (mutex : Nat)
  | mutexConsistent (mutex : Nat)
  | mutexUnlock (mutex : Nat)
  | mutexInit (mutex : Nat)
  | mutexDestroy (mutex : Nat)
  | mutexattrInit
  | mutexattrSetpshared
  | mutexattrSetrobust
  | mutexattrDestroy
  | rwlockRdlock (rwlock : Nat)
  | rwlockWrlock (rwlock : Nat)
  | rwlockTrywrlock (rwlock : Nat)
  | rwlockUnlock (rwlock : Nat)
  | rwlockInit (rwlock : Nat)
  | rwlockattrInit
  | rwlockattrSetpshared
  | rwlockattrDestroy
  | heldShard
  | setHeldShard (shard : Int)
  | logDeadlockWarning (tryingShard : Nat) (currentShard : Int)
  | shmOpen
  | errno
  | ftruncate (size : Nat)
  | fstat
  | statSize
  | mmap (size : Nat)
  | munmap
  | close
  | shmUnlink
  deriving DecidableEq, Repr

abbrev Code := Prog Sys

/-- A C string: its characters before the terminating zero. -/
structure CString where
  bytes : List UInt8
  no_nul : 0 ∉ bytes

theorem CString.eq_of_bytes {s t : CString} (same : s.bytes = t.bytes) : s = t := by
  cases s
  cases t
  cases same
  rfl

/-- Offset in the region of the byte at an address. -/
def ShmRegion.offsetOf (region : ShmRegion) (ptr : Nat) : Nat := sub64 ptr region.base

def ShmRegion.load8 (region : ShmRegion) (ptr field : Nat) : Code Nat :=
  Prog.loadWord (region.offsetOf (add64 ptr field)) 1
def ShmRegion.load32 (region : ShmRegion) (ptr field : Nat) : Code Nat :=
  Prog.loadWord (region.offsetOf (add64 ptr field)) 4
def ShmRegion.load64 (region : ShmRegion) (ptr field : Nat) : Code Nat :=
  Prog.loadWord (region.offsetOf (add64 ptr field)) 8
def ShmRegion.store8 (region : ShmRegion) (ptr field v : Nat) : Code Unit :=
  Prog.storeWord (region.offsetOf (add64 ptr field)) 1 v
def ShmRegion.store32 (region : ShmRegion) (ptr field v : Nat) : Code Unit :=
  Prog.storeWord (region.offsetOf (add64 ptr field)) 4 v
def ShmRegion.store64 (region : ShmRegion) (ptr field v : Nat) : Code Unit :=
  Prog.storeWord (region.offsetOf (add64 ptr field)) 8 v

/-- The copy loops of memcpy and memset into and out of the region. -/
def ShmRegion.copyIn (region : ShmRegion) (ptr field : Nat) (bytes : List UInt8) : Code Unit :=
  Prog.writeBytes (region.offsetOf (add64 ptr field)) bytes
def ShmRegion.copyOut (region : ShmRegion) (ptr field n : Nat) : Code (List UInt8) :=
  Prog.readBytes (region.offsetOf (add64 ptr field)) n

namespace ShmRegion.Mapped
variable {region : ShmRegion}

theorem offsetOf_base {off : Nat} (small : off < 2 ^ 64) :
    region.offsetOf (add64 region.base off) = off := sub64_add64 small

theorem offsetOf_field {off field : Nat} (small : off + field < 2 ^ 64) :
    region.offsetOf (add64 (add64 region.base off) field) = off + field :=
  sub64_add64_add64 small

end ShmRegion.Mapped

section FieldAccess
variable {region : ShmRegion} {off field : Nat} (small : off + field < 2 ^ 64)
include small

theorem load8_field : region.load8 (add64 region.base off) field = Prog.loadWord (off + field) 1 := by
  rw [ShmRegion.load8, ShmRegion.Mapped.offsetOf_field small]

theorem load32_field :
    region.load32 (add64 region.base off) field = Prog.loadWord (off + field) 4 := by
  rw [ShmRegion.load32, ShmRegion.Mapped.offsetOf_field small]

theorem load64_field :
    region.load64 (add64 region.base off) field = Prog.loadWord (off + field) 8 := by
  rw [ShmRegion.load64, ShmRegion.Mapped.offsetOf_field small]

theorem store8_field (v : Nat) :
    region.store8 (add64 region.base off) field v = Prog.storeWord (off + field) 1 v := by
  rw [ShmRegion.store8, ShmRegion.Mapped.offsetOf_field small]

theorem store32_field (v : Nat) :
    region.store32 (add64 region.base off) field v = Prog.storeWord (off + field) 4 v := by
  rw [ShmRegion.store32, ShmRegion.Mapped.offsetOf_field small]

theorem store64_field (v : Nat) :
    region.store64 (add64 region.base off) field v = Prog.storeWord (off + field) 8 v := by
  rw [ShmRegion.store64, ShmRegion.Mapped.offsetOf_field small]

theorem copyIn_field (bytes : List UInt8) :
    region.copyIn (add64 region.base off) field bytes = Prog.writeBytes (off + field) bytes := by
  rw [ShmRegion.copyIn, ShmRegion.Mapped.offsetOf_field small]

theorem copyOut_field (n : Nat) :
    region.copyOut (add64 region.base off) field n = Prog.readBytes (off + field) n := by
  rw [ShmRegion.copyOut, ShmRegion.Mapped.offsetOf_field small]

end FieldAccess

/- Fields of the region header, which starts at the mapping base. -/
section BaseAccess
variable {region : ShmRegion} {field : Nat} (small : field < 2 ^ 64)
include small

theorem load8_base : region.load8 region.base field = Prog.loadWord field 1 := by
  rw [ShmRegion.load8, ShmRegion.Mapped.offsetOf_base small]

theorem load32_base : region.load32 region.base field = Prog.loadWord field 4 := by
  rw [ShmRegion.load32, ShmRegion.Mapped.offsetOf_base small]

theorem load64_base : region.load64 region.base field = Prog.loadWord field 8 := by
  rw [ShmRegion.load64, ShmRegion.Mapped.offsetOf_base small]

theorem store32_base (v : Nat) : region.store32 region.base field v = Prog.storeWord field 4 v := by
  rw [ShmRegion.store32, ShmRegion.Mapped.offsetOf_base small]

theorem store64_base (v : Nat) : region.store64 region.base field v = Prog.storeWord field 8 v := by
  rw [ShmRegion.store64, ShmRegion.Mapped.offsetOf_base small]

theorem copyIn_base (bytes : List UInt8) :
    region.copyIn region.base field bytes = Prog.writeBytes field bytes := by
  rw [ShmRegion.copyIn, ShmRegion.Mapped.offsetOf_base small]

end BaseAccess

end OffsetStore
