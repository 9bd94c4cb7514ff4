import OffsetStore.NamedTables
import OffsetStore.HeapReleases

/- What a store is for: objects with a type and a payload, found by their handles, and handles
   found by their names. Below are the calls on a store, and what each of them may answer and
   leave in these terms. -/
namespace OffsetStore
open ByteMemory Program Prog Words

structure StoredObject where
  type : Nat
  payload : List UInt8

/-- The objects by their handles, and the named handles. -/
structure Contents where
  objects : Nat → Option StoredObject
  handles : Handles

def Contents.empty : Contents := ⟨fun _ => none, Handles.empty⟩

/-- The calls of the library, and what its users do with the payloads they ask for. -/
inductive StoreCall where
  | table (call : TableCall)
  | alloc (type : UInt32) (payloadSize : Nat)
  | free (object : Nat)
  | validate (object : Nat)
  | header (object : Nat)
  | payload (object : Nat)
  | write (object index : Nat) (bytes : List UInt8)
  | read (object index length : Nat)

inductive StoreReply where
  | table (reply : TableReply)
  | allocated (result : Except OffsetStoreStatus Nat)
  | status (status : OffsetStoreStatus)
  | header (words : Option (Nat × Nat))
  | payload (address : Option Nat)
  | written (done : Bool)
  | bytes (bytes : Option (List UInt8))

section Code
variable (fuel : Nat) (region : ShmRegion)

def readHeader (object : Nat) : Code (Option (Nat × Nat)) := do
  let header ← objectStoreGetHeader fuel region object
  match header with
  | none => return none
  | some header => do
    let type ← region.load32 header ObjectHeader.type
    let size ← region.load32 header ObjectHeader.size
    return some (type, size)

/-- The payload of an object, if it has the bytes a user is about to touch. -/
def findPayload (object last : Nat) : Code (Option Nat) := do
  let words ← readHeader fuel region object
  match words with
  | none => return none
  | some (_, size) =>
    if last ≤ size then objectStoreGetPayload fuel region object
    else return none

def writePayload (object index : Nat) (bytes : List UInt8) : Code Bool := do
  let payload ← findPayload fuel region object (index + bytes.length)
  match payload with
  | none => return false
  | some payload => do
    region.copyIn payload index bytes
    return true

def readPayload (object index length : Nat) : Code (Option (List UInt8)) := do
  let payload ← findPayload fuel region object (index + length)
  match payload with
  | none => return none
  | some payload => do
    let bytes ← region.copyOut payload index length
    return some bytes

def StoreCall.code : StoreCall → Code StoreReply
  | .table c => do return .table (← c.code region)
  | .alloc type payloadSize => do return .allocated (← objectStoreAlloc fuel region type.toNat payloadSize)
  | .free object => do return .status (← objectStoreFree fuel region object)
  | .validate object => do return .status (← objectStoreValidate fuel region object)
  | .header object => do return .header (← readHeader fuel region object)
  | .payload object => do return .payload (← objectStoreGetPayload fuel region object)
  | .write object index bytes => do return .written (← writePayload fuel region object index bytes)
  | .read object index length => do return .bytes (← readPayload fuel region object index length)

end Code

/-- A payload with some of its bytes replaced. -/
def overwrite (payload : List UInt8) (index : Nat) (bytes : List UInt8) : List UInt8 :=
  payload.take index ++ bytes ++ payload.drop (index + bytes.length)

namespace Contents
variable (s : Contents)

/-- What object_store_free and object_store_validate say of a handle. -/
def standing (object : Nat) : OffsetStoreStatus :=
  if object = 0 then .invalidArgument
  else if (s.objects object).isSome then .ok
  else .notFound

/-- The object, if its payload has that many bytes. -/
def reaching (object last : Nat) : Option StoredObject := (s.objects object).filter fun o => decide (last ≤ o.payload.length)

def put (object : Nat) (stored : Option StoredObject) : Contents :=
  { s with objects := Function.update s.objects object stored }

/-- An allocation refuses sizes of 2^32 and more and may find no room. Otherwise it gives out a handle
    that nobody has, with a payload of arbitrary bytes. -/
inductive Allocates (type : UInt32) (payloadSize : Nat) : StoreReply → Contents → Prop where
  | tooLarge (large : 2 ^ 32 ≤ payloadSize) : Allocates type payloadSize (.allocated (.error .invalidArgument)) s
  | noRoom (small : payloadSize < 2 ^ 32) : Allocates type payloadSize (.allocated (.error .outOfMemory)) s
  | done {object : Nat} {payload : List UInt8} (small : payloadSize < 2 ^ 32) (positive : 0 < object)
      (fresh : s.objects object = none) (length : payload.length = payloadSize) :
      Allocates type payloadSize (.allocated (.ok object)) (s.put object (some ⟨type.toNat, payload⟩))

/-- What a call by a process whose mapping starts at base may answer and leave. -/
def Step (base : Nat) (call : StoreCall) (reply : StoreReply) (s' : Contents) : Prop :=
  match call with
  | .table c => reply = .table (s.handles.step c).1 ∧ s' = { s with handles := (s.handles.step c).2 }
  | .alloc type payloadSize => s.Allocates type payloadSize reply s'
  | .free object => reply = .status (s.standing object) ∧ s' = s.put object none
  | .validate object => reply = .status (s.standing object) ∧ s' = s
  | .header object => reply = .header ((s.objects object).map fun o => (o.type, o.payload.length)) ∧ s' = s
  | .payload object => reply = .payload ((s.objects object).map fun _ => base + object + ObjectHeader.sizeof) ∧ s' = s
  | .write object index bytes =>
      match s.reaching object (index + bytes.length) with
      | none => reply = .written false ∧ s' = s
      | some o => reply = .written true ∧ s' = s.put object (some { o with payload := overwrite o.payload index bytes })
  | .read object index length =>
      reply = .bytes ((s.reaching object (index + length)).map fun o => (o.payload.drop index).take length) ∧ s' = s

/-- Calls of several processes, one after another. -/
inductive Run (regions : Nat → ShmRegion) : Contents → List (Nat × StoreCall) → List StoreReply → Contents → Prop where
  | nil {s : Contents} : Run regions s [] [] s
  | cons {s s' s'' : Contents} {p : Nat} {c : StoreCall} {reply : StoreReply} {calls : List (Nat × StoreCall)}
      {replies : List StoreReply} (first : s.Step (regions p).base c reply s') (rest : Run regions s' calls replies s'') :
      Run regions s ((p, c) :: calls) (reply :: replies) s''

end Contents

def execStore (fuel : Nat) (regions : Nat → ShmRegion) : List (Nat × StoreCall) → Mem → Option (List StoreReply × Mem)
  | [], m => some ([], m)
  | (p, c) :: rest, m =>
      (exec (c.code fuel (regions p)) m).bind fun r =>
        (execStore fuel regions rest r.2).map fun later => (r.1 :: later.1, later.2)

end OffsetStore
