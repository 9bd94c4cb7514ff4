import OffsetStore.Allocator

/- store.c: creating a store is creating its region and then its allocator,
   attaching is opening the region and then validating the allocator. -/
namespace OffsetStore
open Program

def offsetStoreBootstrap (size : Nat) : Code (OffsetStoreStatus × ShmRegion) := do
  let (status, region) ← shmRegionCreate size
  if status ≠ .ok then return (status, region)
  let status ← allocatorInit region
  if status ≠ .ok then
    let (_, region) ← shmRegionClose region
    let _ ← shmRegionUnlink
    return (status, region)
  return (.ok, region)

def offsetStoreOpenExisting (fuel : Nat) : Code (OffsetStoreStatus × ShmRegion) := do
  let (status, region) ← shmRegionOpen
  if status ≠ .ok then return (status, region)
  let status ← allocatorValidate fuel region
  if status ≠ .ok then
    let (_, region) ← shmRegionClose region
    return (status, region)
  return (.ok, region)

end OffsetStore
