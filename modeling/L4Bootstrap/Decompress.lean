import L4Bootstrap.Modules

/-!
# Decompressing modules in place

`decompress_mods` of `boot_modules.cc`, in a build with
`CONFIG_BOOTSTRAP_COMPRESS`, and the functions it calls. The compression library
is a parameter: what `inflateInit2` answers, and what one call of `inflate` with
`Z_FINISH` leaves behind. Of a pointer only the address is kept.
-/

namespace L4Bootstrap

open MachineWord CheckedState ByteMemory

set_option autoImplicit false

/-- What a call of `inflate` leaves behind. -/
structure Inflated where
  streamEnd : Bool
  availOut : Nat
  bytes : Bytes

structure Zlib where
  /-- `inflateInit2` returns `Z_OK`. -/
  ready : Bool
  /-- `inflate` with `next_in`, `avail_in`, `next_out` and `avail_out`. -/
  inflate : Nat → Nat → Nat → Nat → Bytes → Inflated

variable {W : Wordsize}

/-- `decompress` of `uncompress.cc`; the answer 0 is the null pointer. -/
def decompress (zlib : Zlib) (start destbuf size sizeUncompressed : Nat) : Run W Nat := do
  if !zlib.ready then pure 0
  else do
    let s ← get
    let strm := zlib.inflate start size destbuf sizeUncompressed s.bytes
    updateBytes fun _ => strm.bytes
    pure (if strm.streamEnd && strm.availOut = 0 then destbuf else 0)

/-! ## Module regions -/

/-- The condition on the entries of a module, with the index as the `short` it
is and the subtype as the byte it is. -/
def isRegionOf (index : Int) (r : Region W) : Bool :=
  r.attr.name = .modReg && (r.attr.subType.toNat : Int) = index

/-- `drop_mod_region`: only the first entry of the module goes. -/
def RegionList.dropModRegion (l : RegionList W) (index : Nat) : RegionList W :=
  match l.reg.findIdx? (isRegionOf index) with
  | none => l
  | some i => l.remove i

def dropModRegion (index : Nat) : Run W Unit :=
  updateRegions fun regions => .ok (regions.dropModRegion index)

def addModRegion (index : Nat) (round : Bool) (type : RegionType) : Run W Unit := do
  let s ← get
  let region ← lift ((s.module index).region index round type)
  updateRegions fun regions => regions.add region

/-- The loop of `init_mod_regions`. -/
def addModRegions : List Nat → Run W Unit
  | [] => pure ()
  | i :: rest => do
      addModRegion i false .boot
      addModRegions rest

/-- `init_mod_regions`, with the area of the module descriptors. -/
def initModRegions (modHeader payloadSize : Nat) : Run W Unit := do
  addRegion modHeader payloadSize { name := .literal ".modinfo", type := .boot }
  let s ← get
  addModRegions (List.range s.mods.length)

/-! ## One module -/

def decompressMod (zlib : Zlib) (index dest : Nat) : Run W Unit := do
  let s ← get
  let mod := s.module index
  if dest = 0 then stop "Cannot decompress module (no memory)"
  else do
    let target ← lift (Region.startSize dest mod.sizeUncompressed {})
    if (s.memory.ram.containing target).isNone then stop "Module does not fit into RAM"
    else do
      let image ← decompress zlib mod.start dest mod.size mod.sizeUncompressed
      if image ≠ dest then stop "Cannot decompress module (decompression error)"
      else do
        dropModRegion index
        updateModule index fun mod => { mod with start := dest, size := mod.sizeUncompressed }
        addModRegion index true .boot

def decompMoveMod (zlib : Zlib) (index destbuf : Nat) : Run W Unit := do
  let s ← get
  let mod := s.module index
  if mod.compressed then decompressMod zlib index destbuf
  else do
    updateBytes (memmove destbuf mod.start mod.sizeUncompressed)
    dropModRegion index
    updateModule index fun mod => { mod with start := destbuf }
    addModRegion index true .root

/-! ## The place of all modules -/

/-- The four pointers of the search for a place that overlaps the images. -/
structure Cursors where
  rdest : Nat
  ldest : Nat
  rpos : Nat
  lpos : Nat
  deriving DecidableEq, Repr

namespace Cursors

/-- The right place goes up until the module does not overlap its own image. -/
def stepRight (W : Wordsize) (c : Cursors) (mod : ModInfo) : Cursors :=
  let mend := W.add mod.start mod.size
  if c.rpos < mend then
    let delta := W.sub (roundPage W mend) c.rpos
    { c with rpos := W.add c.rpos delta, rdest := W.add c.rdest delta }
  else c

/-- The left place goes down likewise, or is given up as 0. -/
def stepLeft (W : Wordsize) (c : Cursors) (mod : ModInfo) : Cursors :=
  let mstart := mod.start
  if c.ldest ≠ 0 ∧ mstart < W.add c.lpos mod.sizeUncompressed then
    let delta := roundPage W (W.sub (W.add c.lpos mod.sizeUncompressed) mstart)
    if delta < c.ldest then { c with lpos := W.sub c.lpos delta, ldest := W.sub c.ldest delta }
    else { c with ldest := 0 }
  else c

/-- The body of the loop over the modules. -/
def step (W : Wordsize) (c : Cursors) (mod : ModInfo) : Cursors :=
  let c := (c.stepRight W mod).stepLeft W mod
  { c with
    rpos := W.add c.rpos (roundPage W mod.sizeUncompressed)
    lpos := W.add c.lpos (roundPage W mod.sizeUncompressed) }

end Cursors

/-- The loop that is to drop the regions of the modules, and moves the cursors. The predicate
of `remove_if` holds a copy of the module. Its `index ()` is the distance of that copy from the
table, which is none of the table's indexes but by chance: `copyIndex` is what it answers in the
round of a module. -/
def overlapModules (copyIndex : Nat → Int) : List Nat → Cursors → Run W Cursors
  | [], c => pure c
  | i :: rest, c => do
      let s ← get
      if (s.module i).isBaseModule then overlapModules copyIndex rest c
      else do
        updateRegions fun regions => .ok (regions.removeIf (isRegionOf (copyIndex i)))
        overlapModules copyIndex rest (c.step W (s.module i))

/-- `!ram->contains (dest) || regions->find (dest)`. -/
def Memory.blocked (m : Memory W) (dest : Region W) : Bool :=
  (m.ram.containing dest).isNone || (m.regions.find dest).isSome

/-- The three attempts once the cursors are known. -/
def chooseOverlap (totalSize : Nat) (c : Cursors) : Run W (Nat × Bool) := do
  let s ← get
  let dest ← lift (Region.startSize c.ldest totalSize {})
  if c.ldest = 0 || s.memory.blocked dest then do
    let dest ← lift (Region.startSize c.rdest totalSize {})
    if s.memory.blocked dest then do
      let freeRam ← findFreeRam totalSize c.rdest
      pure (freeRam, false)
    else pure (c.rdest, false)
  else pure (c.ldest, true)

/-- The part of `decompress_mods` that computes `destbuf` and `fwd`. -/
def chooseDestination (copyIndex : Nat → Int) (totalSize modAddr : Nat) :
    Run W (Nat × Bool) := do
  let s ← get
  let m0 := s.module (s.sorter.getD 0 0)
  let rdest := roundPage W (W.add m0.start m0.size)
  let ldest := truncPage (W.sub m0.start m0.sizeUncompressed)
  let destbuf ← findFreeRam totalSize modAddr
  if destbuf = 0 ∨ rdest < destbuf then do
    let c ← overlapModules copyIndex (List.range s.mods.length) ⟨rdest, ldest, rdest, ldest⟩
    chooseOverlap totalSize c
  else pure (destbuf, true)

/-! ## All modules -/

/-- The loop over the sorter from its end; the list is the reversed sorter. -/
def uncompressBackwards (zlib : Zlib) : Nat → List Nat → Run W Unit
  | _, [] => pure ()
  | destbuf, i :: rest => do
      let s ← get
      if (s.module i).isBaseModule then uncompressBackwards zlib destbuf rest
      else do
        let destbuf := W.sub destbuf (roundPage W (s.module i).sizeUncompressed)
        decompMoveMod zlib i destbuf
        uncompressBackwards zlib destbuf rest

def uncompressForwards (zlib : Zlib) : Nat → List Nat → Run W Unit
  | _, [] => pure ()
  | destbuf, i :: rest => do
      let s ← get
      if (s.module i).isBaseModule then uncompressForwards zlib destbuf rest
      else do
        let destSize := roundPage W (s.module i).sizeUncompressed
        decompMoveMod zlib i destbuf
        uncompressForwards zlib (W.add destbuf destSize) rest

def uncompressAll (zlib : Zlib) (destbuf totalSize : Nat) (fwd : Bool) : Run W Unit := do
  let s ← get
  if fwd then uncompressForwards zlib destbuf s.sorter
  else uncompressBackwards zlib (W.add destbuf totalSize) s.sorter.reverse

/-- The body of the last loop: a base module that lies on a region of something
else is moved to free memory. -/
def moveOutOfTheWay (index : Nat) : Run W Unit := do
  let s ← get
  let mod := s.module index
  if !mod.isBaseModule then pure ()
  else do
    let mr ← lift (mod.region index)
    if s.memory.regions.reg.any (fun r => r.overlaps mr && !isModuleRegion r) then do
      let dest ← findFreeRam mod.size 0
      if dest = 0 then stop "Could not find free RAM region for module!"
      else moveModule .image index dest
    else pure ()

def moveBaseModules : List Nat → Run W Unit
  | [] => pure ()
  | i :: rest => do
      moveOutOfTheWay i
      moveBaseModules rest

/-- `Mod_info::Num_base_modules`. -/
def numBaseModules : Nat := 3

/-- The modules that are not base modules. -/
def Machine.payload (s : Machine W) : List Nat :=
  (List.range s.mods.length).filter fun i => !(s.module i).isBaseModule

def decompressMods (zlib : Zlib) (copyIndex : Nat → Int) (totalSize modAddr : Nat) :
    Run W Unit := do
  let s ← get
  lift (require (numBaseModules < s.mods.length))
  sortModules s.payload
  let (destbuf, fwd) ← chooseDestination copyIndex totalSize modAddr
  if destbuf = 0 then stop "Cannot find memory to  decompress modules"
  else do
    uncompressAll zlib destbuf totalSize fwd
    moveBaseModules (List.range s.mods.length)

/-- `total_size` as `construct_mbi` sums it up. -/
def decompressedSize (W : Wordsize) (mods : List ModInfo) : Nat :=
  mods.foldl (fun total mod =>
    if mod.isBaseModule then total else W.add total (roundPage W mod.sizeUncompressed)) 0

end L4Bootstrap
