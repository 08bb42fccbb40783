import LeoUTF8.EngineCompose
import LeoUTF8.HeapBlocks

set_option autoImplicit false

/-! # Re-encoding and mapping of whole strings -/
namespace LeoUTF8.EngineMap
open BoundedLoop CellStorage HeapBlocks EngineTables EngineCodec EngineDecompose EngineCompose

/-- What a call runs on. -/
structure Runtime where
  platform : Platform
  data : Utf8procData
  allocator : Allocator

structure ReencodeState where
  rpos : ℕ
  wpos : ℕ
  storage : List UInt8

/-- One iteration of the encoding loop: a cell is read and its bytes overwrite the storage. -/
def reencodeBody (bigEndian : Bool) (length : ℤ) (options : Utf8procOption)
    (s : ReencodeState) : Exec (Step ReencodeState (ℕ × List UInt8)) :=
  if s.rpos < length then do
    let uc ← loadCell bigEndian s.storage s.rpos
    let bytes :=
      if hasOption options utf8procCharbound then charboundEncodeChar uc else utf8procEncodeChar uc
    let storage ← storeAll s.storage s.wpos bytes
    .ok (.next { rpos := s.rpos + 1, wpos := s.wpos + bytes.length, storage := storage })
  else .ok (.done (s.wpos, s.storage))

/-- `utf8proc_reencode` on the cells of a buffer and the spare bytes after them. From the
encoding loop on, the buffer is seen as bytes. -/
def utf8procReencode (rt : Runtime) (buffer : List ℤ) (spare : List UInt8) (length : ℤ)
    (options : Utf8procOption) : Exec (ℤ × List UInt8) := do
  let (length, buffer) ← utf8procNormalizeUtf32 rt.data buffer length options
  let storage := storageOf rt.platform.bigEndian buffer ++ spare
  if length < 0 then .ok (length, storage)
  else do
    let (wpos, storage) ← run (reencodeBody rt.platform.bigEndian length options)
      (length.toNat + 1) { rpos := 0, wpos := 0, storage := storage }
    let storage ← store storage wpos 0
    .ok (wpos, storage)

/-- The argument of `malloc`, computed in `size_t`. -/
def mapSize (pf : Platform) (result : ℤ) : ℕ := (result.toNat * 4 + 1) % 2 ^ pf.bits

/-- `utf8proc_map_custom`: the return value, `*dstptr` and the heap. -/
def utf8procMapCustom (rt : Runtime) (heap : Heap) (mem : List UInt8) (strlen : ℤ)
    (options : Utf8procOption) (customFunc : Option (ℤ → ℤ)) :
    Exec (ℤ × Option Address × Heap) := do
  let (result, _) ←
    utf8procDecomposeCustom rt.platform rt.data mem strlen none 0 options customFunc
  if result < 0 then .ok (result, none, heap)
  else
    match rt.allocator.malloc heap (mapSize rt.platform result) with
    | none => .ok (utf8procErrorNomem, none, heap)
    | some buffer => do
      let block := rt.allocator.fresh (mapSize rt.platform result)
      let array := cells rt.platform.bigEndian block
      let spare := block.drop (4 * array.length)
      let (result, array) ←
        utf8procDecomposeCustom rt.platform rt.data mem strlen (some array) result options
          customFunc
      let heap := heap.put buffer (storageOf rt.platform.bigEndian array ++ spare)
      if result < 0 then .ok (result, none, heap.free buffer)
      else do
        let (result, storage) ← utf8procReencode rt array spare result options
        let heap := heap.put buffer storage
        if result < 0 then .ok (result, none, heap.free buffer)
        else
          match rt.allocator.realloc heap buffer (result.toNat + 1) with
          | none => .ok (result, some buffer, heap)
          | some newptr =>
            .ok (result, some newptr,
              rt.allocator.resize heap buffer newptr storage (result.toNat + 1))

def utf8procMap (rt : Runtime) (heap : Heap) (mem : List UInt8) (strlen : ℤ)
    (options : Utf8procOption) : Exec (ℤ × Option Address × Heap) :=
  utf8procMapCustom rt heap mem strlen options none

end LeoUTF8.EngineMap
