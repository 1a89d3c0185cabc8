import L4Bootstrap.DecompressContents
import L4Bootstrap.L4mod
import Mathlib.Algebra.BigOperators.Ring.List

/-!
# The boot info of an image

`Boot_modules_image_mode::construct_mbi` of `boot_modules.cc` with the list of
internal modules of `boot_modules.h`. The command lines are kept beside the byte
memory, like the table, and the run is followed as long as nothing is written to them.
-/

namespace L4Bootstrap

open MachineWord CheckedState ByteMemory

set_option autoImplicit false

variable {W : Wordsize}

/-- `Internal_module_base`, with the region that `set_region` sets. -/
structure InternalModule (W : Wordsize) where
  cmdline : CString W
  modStart : UInt64
  modEnd : UInt64

namespace InternalModule

def cmdlineSize (m : InternalModule W) : Nat := (m.cmdline.strlen + 1) % 2 ^ 32

/-- What `set` stores. -/
def item (m : InternalModule W) : Item W where
  cmdline := some m.cmdline
  flags := .unspec
  modStart := m.modStart
  modEnd := m.modEnd

end InternalModule

/-- `Internal_module_list`, its modules from `root` on. -/
structure InternalModuleList (W : Wordsize) where
  mods : List (InternalModule W)
  cnt : Nat
  counted : cnt = mods.length % 2 ^ 32

namespace InternalModuleList

def empty : InternalModuleList W := ⟨[], 0, rfl⟩

def pushFront (l : InternalModuleList W) (mod : InternalModule W) : InternalModuleList W where
  mods := mod :: l.mods
  cnt := (l.cnt + 1) % 2 ^ 32
  counted := by rw [l.counted, List.length_cons, Nat.mod_add_mod]

end InternalModuleList

/-- Whether `CONFIG_BOOTSTRAP_COMPRESS` is set, with what such a build depends on. -/
inductive Build
  | plain
  | compress (zlib : Zlib) (copyIndex : Nat → Int)

/-! ## Before the block is allocated -/

def checkSizes : List ModInfo → Run W Unit
  | [] => pure ()
  | mod :: rest =>
      if mod.size = 0 then stop "Module %hu '%s' empty, modules must not have zero size."
      else checkSizes rest

/-- `merge_mod_regions`. -/
def mergeModRegions : Run W Unit :=
  updateRegions fun regions =>
    let merged := regions.reg.map fun r =>
      if isModuleRegion r then { r with attr := { r.attr with subType := rootSectionRwx } } else r
    ({ regions with reg := merged } : RegionList W).optimize

/-- The step that the build decides. -/
def relocateModules (modAddr : Nat) : Build → Run W Unit
  | .compress zlib copyIndex => do
      let s ← get
      if numBaseModules < s.mods.length then
        decompressMods zlib copyIndex (decompressedSize W s.mods) modAddr
      else pure ()
  | .plain => moveModules .image modAddr

/-- The first part of `construct_mbi`. -/
def placeModules (build : Build) (modAddr : Nat) : Run W Unit := do
  let s ← get
  checkSizes s.mods
  relocateModules modAddr build
  mergeModRegions

/-! ## The size of the block -/

/-- `mod_count`, the sum of two `unsigned`. -/
def modCount (numMods : Nat) (internals : InternalModuleList W) : Nat :=
  (numMods + internals.cnt) % 2 ^ 32

/-- `mbi_size`. -/
def mbiSize (abi : L4modAbi W) (cmdlines : List (CString W)) (internals : InternalModuleList W) :
    Nat :=
  let size := W.add abi.infoSize (abi.modSize * modCount cmdlines.length internals)
  let size := cmdlines.foldl (fun size c => W.add size (roundWordsize W (W.add c.strlen 1))) size
  internals.mods.foldl (fun size m => W.add size (roundWordsize W m.cmdlineSize)) size

/-! ## The contents of the block -/

/-- The entry of a module of the table. -/
def tableItem (mod : ModInfo × CString W) : Item W where
  cmdline := some mod.2
  flags := mod.1.flag
  modStart := .ofNat mod.1.start
  modEnd := .ofNat mod.1.start + .ofNat mod.1.size

/-- The body of the loop over the table in one of its two runs. -/
def fillRun (abi : L4modAbi W) (array run : Nat) (f : Filling W) (mod : ModInfo × CString W) :
    Filling W :=
  if (run = 0 ∧ !mod.1.isBaseModule) ∨ (run = 1 ∧ mod.1.isBaseModule) then f
  else f.putNext abi array (tableItem mod)

/-- The body of the loop over the internal modules. -/
def putInternal (abi : L4modAbi W) (mbi array : Nat) (f : Filling W) (m : InternalModule W) :
    Filling W :=
  (f.writeInfo abi mbi { f.info with modsCount := f.info.modsCount + 1 }).put abi array
    f.info.modsCount.toNat m.item

/-- The part behind the reservation of the block. -/
def fillMbi (abi : L4modAbi W) (mbi size : Nat) (table : List (ModInfo × CString W))
    (internals : InternalModuleList W) (bytes : Bytes) : Filling W :=
  let array := W.add mbi abi.infoSize
  let start : Filling W :=
    { bytes := memset mbi 0 size bytes
      info := {}
      mods := []
      cnt := 0
      strs := W.add array (abi.modSize * modCount table.length internals) }
  let filling := start.writeInfo abi mbi
    { modsCount := .ofNat table.length, modsAddr := .ofNat array }
  let filling := table.foldl (fillRun abi array 0) filling
  let filling := table.foldl (fillRun abi array 1) filling
  internals.mods.foldl (putInternal abi mbi array) filling

/-- The table with the command lines of its modules. -/
def Machine.table (s : Machine W) (cmdline : Nat → CString W) : List (ModInfo × CString W) :=
  (List.range s.mods.length).map fun i => (s.module i, cmdline i)

theorem Machine.table_of_mods {s t : Machine W} (same : t.mods = s.mods)
    (cmdline : Nat → CString W) : t.table cmdline = s.table cmdline := by
  unfold Machine.table Machine.module
  rw [same]

/-! ## What the loops write -/

/-- The modules in the order of the array. -/
def listed (table : List (ModInfo × CString W)) (internals : InternalModuleList W) :
    List (Item W) :=
  (table.filter fun mod => mod.1.isBaseModule).map tableItem ++
    (table.filter fun mod => !mod.1.isBaseModule).map tableItem ++
    internals.mods.map InternalModule.item

/-- The header when it counts `k` modules. -/
def infoOf (array k : Nat) : L4modInfo := { modsCount := .ofNat k, modsAddr := .ofNat array }

/-- The table is counted in the header from the start, and an internal module just before it
is entered. -/
def headerWrites (abi : L4modAbi W) (mbi array num k : Nat) : List (Nat × List UInt8) :=
  if k < num then [] else [(mbi, abi.infoBytes (infoOf array (k + 1)))]

/-- The cursor in front of the first string. -/
def stringStart (abi : L4modAbi W) (mbi numMods : Nat) (internals : InternalModuleList W) : Nat :=
  W.add (W.add mbi abi.infoSize) (abi.modSize * modCount numMods internals)

/-- The areas that are written, with the `memset` of the block. -/
def mbiWrites (abi : L4modAbi W) (mbi size : Nat) (table : List (ModInfo × CString W))
    (internals : InternalModuleList W) : List Area :=
  (mbi, size) :: (mbi, abi.infoSize) ::
    (logFrom abi (W.add mbi abi.infoSize)
      (headerWrites abi mbi (W.add mbi abi.infoSize) table.length) 0
      (stringStart abi mbi table.length internals) (listed table internals)).map
        fun write => (write.1, write.2.length)

/-! ## The function -/

/-- The module descriptors in memory: the header, the table and the texts behind it, with the
command lines among them. -/
structure Descriptors (W : Wordsize) where
  areas : List Area
  cmdline : Nat → CString W

/-- Something is written to the descriptors. -/
def Descriptors.hit (descriptors : Descriptors W) (written : List Area) : Bool :=
  touches written descriptors.areas

/-- What is written when a module comes to its place. `_move_module` clears the rest of the
last page as well. -/
def Build.putAreas (W : Wordsize) (build : Build) (mod : ModInfo) : List Area :=
  let behind := W.add mod.start mod.size
  let moved := [(mod.start, mod.size), (behind, W.sub (roundPage W behind) behind)]
  match build with
  | .plain => moved
  | .compress _ _ => if mod.isBaseModule then moved else [(mod.start, mod.size)]

/-- What is written while the modules are placed; one that is in its place already is left
alone. -/
def Machine.placeWrites (s : Machine W) (build : Build) (placed : Machine W) : List Area :=
  ((List.range placed.mods.length).filter fun i => placed.module i ≠ s.module i).flatMap fun i =>
    build.putAreas W (placed.module i)

/-- The table and the command lines are kept beside the byte memory. This is right as long as
they are not overwritten; `lost` is whatever the code does when it reads them afterwards. -/
def constructMbi (abi : L4modAbi W) (build : Build) (descriptors : Descriptors W)
    (lost : Run W BootInfo) (internals : InternalModuleList W) (modAddr : Nat) :
    Run W BootInfo := do
  let before ← get
  placeModules build modAddr
  let s ← get
  if descriptors.hit (before.placeWrites build s) then lost
  else do
    let table := s.table descriptors.cmdline
    let size := mbiSize abi (table.map Prod.snd) internals
    lift (require (1 ≤ modCount table.length internals))
    let mbi ← findFreeRam (roundPage W size) modAddr
    if mbi = 0 then stop "Could not allocate MBI memory: %lu bytes"
    else do
      addRegion mbi (roundPage W size)
        { name := .literal ".mbi_rt", type := .root, subType := rootSectionRwx }
      if descriptors.hit (mbiWrites abi mbi size table internals) then lost
      else do
        let filled := fillMbi abi mbi size table internals s.bytes
        updateBytes fun _ => filled.bytes
        pure ⟨mbi, filled.info, filled.mods⟩

theorem Descriptors.hit_eq_false {descriptors : Descriptors W} {written : List Area} :
    descriptors.hit written = false ↔ ∀ area ∈ written, ∀ p, area.1 ≤ p → p < area.1 + area.2 →
      ¬ InAreas descriptors.areas p := touches_eq_false

/-! ## The writes of the loops -/

section

variable {abi : L4modAbi W} {mbi array k : Nat} {f : Filling W}
  {table : List (ModInfo × CString W)} {internals : InternalModuleList W}

variable (table internals) in
theorem length_listed :
    (listed table internals).length = table.length + internals.mods.length := by
  have split := List.length_eq_length_filter_add (l := table) (fun mod => mod.1.isBaseModule)
  simp only [listed, List.length_append, List.length_map]
  omega

theorem first_run : table.foldl (fillRun abi array 0) f =
    ((table.filter fun mod => mod.1.isBaseModule).map tableItem).foldl
      (Filling.putNext abi array) f := by
  rw [List.foldl_map, List.foldl_filter]
  apply List.foldl_ext
  intro g mod _
  unfold fillRun
  cases mod.1.isBaseModule <;> simp

theorem second_run : table.foldl (fillRun abi array 1) f =
    ((table.filter fun mod => !mod.1.isBaseModule).map tableItem).foldl
      (Filling.putNext abi array) f := by
  rw [List.foldl_map, List.foldl_filter]
  apply List.foldl_ext
  intro g mod _
  unfold fillRun
  cases mod.1.isBaseModule <;> simp

variable (abi mbi) in
theorem put_internal_ran (mods : List (InternalModule W)) (info : f.info = infoOf array k) :
    Ran abi array (fun j => [(mbi, abi.infoBytes (infoOf array (j + 1)))]) k
        (mods.map InternalModule.item) f (mods.foldl (putInternal abi mbi array) f) ∧
      (mods.foldl (putInternal abi mbi array) f).info = infoOf array (k + mods.length) := by
  induction mods generalizing k f with
  | nil => exact ⟨⟨rfl, by simp [entriesFrom], rfl⟩, info⟩
  | cons m mods ih =>
      have count : f.info.modsCount.toNat = k % 2 ^ 32 := by
        rw [info]
        exact UInt32.toNat_ofNat'
      have counted : { f.info with modsCount := f.info.modsCount + 1 } = infoOf array (k + 1) := by
        rw [info, infoOf, infoOf, UInt32.ofNat_add]
        rfl
      have next : (putInternal abi mbi array f m).info = infoOf array (k + 1) := counted
      obtain ⟨ran, later⟩ := ih next
      rw [List.foldl_cons, List.map_cons]
      refine ⟨⟨?_, ?_, ran.strs⟩, ?_⟩
      · rw [ran.bytes, logFrom, write_all_append]
        unfold putInternal
        rw [count, counted]
        rfl
      · rw [ran.mods]
        change (f.mods ++ [m.item.entry f.strs]) ++ _ = _
        rw [List.append_assoc]
        rfl
      · rw [later, List.length_cons, Nat.add_assoc, Nat.add_comm 1]

variable (abi mbi table internals) in
/-- All writes behind the first one of the header. -/
theorem fill_mbi_log (size : Nat) (bytes : Bytes) :
    (fillMbi abi mbi size table internals bytes).bytes =
        writeAll (logFrom abi (W.add mbi abi.infoSize)
            (headerWrites abi mbi (W.add mbi abi.infoSize) table.length) 0
            (stringStart abi mbi table.length internals) (listed table internals))
          (writeList mbi (abi.infoBytes (infoOf (W.add mbi abi.infoSize) table.length))
            (memset mbi 0 size bytes)) ∧
      (fillMbi abi mbi size table internals bytes).mods =
        entriesFrom (stringStart abi mbi table.length internals) (listed table internals) ∧
      (fillMbi abi mbi size table internals bytes).info =
        infoOf (W.add mbi abi.infoSize) (listed table internals).length := by
  have split := List.length_eq_length_filter_add (l := table) (fun mod => mod.1.isBaseModule)
  have total := length_listed table internals
  unfold fillMbi
  simp only [first_run, second_run]
  rw [← List.foldl_append]
  generalize isStart : Filling.writeInfo abi mbi _ _ = start
  have startBytes : start.bytes = writeList mbi
      (abi.infoBytes (infoOf (W.add mbi abi.infoSize) table.length)) (memset mbi 0 size bytes) := by
    rw [← isStart]
    rfl
  have startInfo : start.info = infoOf (W.add mbi abi.infoSize) table.length := by
    rw [← isStart]
    rfl
  have startMods : start.mods = [] := by
    rw [← isStart]
    rfl
  have startStrs : start.strs = stringStart abi mbi table.length internals := by
    rw [← isStart]
    rfl
  have startCnt : start.cnt = 0 % 2 ^ 32 := by
    rw [← isStart]
    rfl
  obtain ⟨ran, info, _⟩ := put_next_ran abi (W.add mbi abi.infoSize) 0
    ((table.filter fun mod => mod.1.isBaseModule).map tableItem ++
      (table.filter fun mod => !mod.1.isBaseModule).map tableItem) startCnt
  generalize isTable : (table.filter fun mod => mod.1.isBaseModule).map tableItem ++
    (table.filter fun mod => !mod.1.isBaseModule).map tableItem = tableItems at ran info ⊢
  have tableLength : tableItems.length = table.length := by
    rw [← isTable, List.length_append, List.length_map, List.length_map]
    omega
  have isListed : listed table internals =
      tableItems ++ internals.mods.map InternalModule.item := by
    rw [← isTable]
    rfl
  generalize tableItems.foldl (Filling.putNext abi (W.add mbi abi.infoSize)) start = middle
    at ran info ⊢
  rw [startInfo] at info
  obtain ⟨ranInternal, infoInternal⟩ := put_internal_ran abi mbi
    internals.mods info
  rw [total]
  refine ⟨?_, ?_, infoInternal⟩
  · rw [ranInternal.bytes, ran.bytes, ran.strs, startBytes, startStrs, isListed, log_append,
      write_all_append, Nat.zero_add, tableLength]
    have internalLog := log_congr abi (W.add mbi abi.infoSize) table.length
      (cursorAfter (stringStart abi mbi table.length internals) tableItems)
      (headerWrites abi mbi (W.add mbi abi.infoSize) table.length)
      (internals.mods.map InternalModule.item)
      (fun j => [(mbi, abi.infoBytes (infoOf (W.add mbi abi.infoSize) (j + 1)))])
      fun j above _ => if_neg (by omega)
    have tableLog := log_congr abi (W.add mbi abi.infoSize) 0
      (stringStart abi mbi table.length internals)
      (headerWrites abi mbi (W.add mbi abi.infoSize) table.length) tableItems (fun _ => [])
      fun j _ below => if_pos (by omega)
    rw [internalLog, tableLog]
  · rw [ranInternal.mods, ran.mods, ran.strs, startMods, startStrs, isListed, entries_from_append,
      List.nil_append]

/-- The header counts the modules that are entered, and those of the table from the start. -/
theorem log_header {items : List (Item W)} (num : Nat) {c : Nat} (bytes : Bytes)
    (slots : Slots abi array k items) (word : c < W.modulus)
    (apart : ∀ area ∈ itemAreas abi array k (items.zip (entriesFrom c items)),
      area.Apart (mbi, abi.infoSize))
    (held : Holds bytes mbi (abi.infoBytes (infoOf array (max num k)))) :
    Holds (writeAll (logFrom abi array (headerWrites abi mbi array num) k c items) bytes) mbi
      (abi.infoBytes (infoOf array (max num (k + items.length)))) := by
  induction items generalizing k c bytes with
  | nil => exact held
  | cons x rest ih =>
      rw [entriesFrom, List.zip_cons_cons, item_areas_cons] at apart
      have slotsOne : Slots abi array k [x] := slots.one
      rw [logFrom, write_all_append, List.length_cons, Nat.add_comm rest.length, ← Nat.add_assoc]
      apply ih _ slots.tail (W.add_lt _ _) fun area inRest => apart area (List.mem_append_right _ inRest)
      -- the writes of `pre` leave the header for the next index
      have counted : Holds (writeAll (headerWrites abi mbi array num k) bytes) mbi
          (abi.infoBytes (infoOf array (max num (k + 1)))) := by
        unfold headerWrites
        split_ifs with early
        · rw [Nat.max_eq_left (by omega)] at held ⊢
          exact held
        · rw [Nat.max_eq_right (by omega)]
          exact holds_write_list
      rw [itemWrites, write_all_append]
      apply counted.frame
      intro a above below
      rw [abi.infoLength] at below
      have one : writeAll (logFrom abi array (fun _ => []) k c [x])
          (writeAll (headerWrites abi mbi array num k) bytes) a =
            writeAll (headerWrites abi mbi array num k) bytes a :=
        log_outside slotsOne word (by simp) fun area inOwn => outside_of_apart
          (apart area (List.mem_append_left _ inOwn)).symm above below
      rw [logFrom, logFrom, List.append_nil] at one
      exact one

/-! ## The size against the contents -/

/-- The command lines of all modules. -/
def mbiTexts (cmdlines : List (CString W)) (internals : InternalModuleList W) : List (CString W) :=
  cmdlines ++ internals.mods.map InternalModule.cmdline

/-- The number of modules and the lengths of the command lines are `unsigned`, and the size of
the block is a machine word. -/
structure MbiFits (abi : L4modAbi W) (texts : List (CString W)) : Prop where
  count : texts.length < 2 ^ 32
  counted : ∀ t ∈ texts, t.strlen + 1 < 2 ^ 32
  size : abi.infoSize + abi.modSize * texts.length +
    (texts.map fun t => wordUp W (t.strlen + 1)).sum < W.modulus

theorem listed_perm : (listed table internals).Perm
    (table.map tableItem ++ internals.mods.map InternalModule.item) := by
  unfold listed
  rw [← List.map_append]
  exact ((List.filter_append_perm _ table).map tableItem).append_right _

theorem length_texts :
    (mbiTexts (table.map Prod.snd) internals).length = table.length + internals.mods.length := by
  simp [mbiTexts]

theorem room_of_listed : roomOf (listed table internals) =
    ((mbiTexts (table.map Prod.snd) internals).map fun t => wordUp W (t.strlen + 1)).sum := by
  rw [roomOf, (listed_perm.map Item.room).sum_nat, mbiTexts, List.map_append, List.map_append,
    List.map_map, List.map_map, List.map_map, List.map_map]
  rfl

theorem counted_listed : (∀ x ∈ listed table internals, x.Counted) ↔
    ∀ t ∈ mbiTexts (table.map Prod.snd) internals, t.strlen + 1 < 2 ^ 32 := by
  have some : ∀ (flags : ModuleFlag) (modStart modEnd : UInt64) (t : CString W),
      Item.Counted ⟨some t, flags, modStart, modEnd⟩ ↔ t.strlen + 1 < 2 ^ 32 := by
    intro flags modStart modEnd t
    exact ⟨fun counted => counted t rfl, fun less other same => by cases same; exact less⟩
  simp only [listed_perm.mem_iff, mbiTexts, List.mem_append, List.mem_map, or_imp, forall_and,
    forall_exists_index, and_imp, forall_apply_eq_imp_iff₂, tableItem, InternalModule.item, some]

/-- A sum of rounded sizes as the machine computes it. -/
theorem fold_rooms {α : Type} (size : α → Nat) (xs : List α) {start : Nat}
    (word : start < W.modulus) :
    xs.foldl (fun sum x => W.add sum (roundWordsize W (size x))) start =
      (start + (xs.map fun x => wordUp W (size x)).sum) % W.modulus := by
  induction xs generalizing start with
  | nil => simp [Nat.mod_eq_of_lt word]
  | cons x xs ih =>
      rw [List.foldl_cons, ih (W.add_lt _ _), add_round_wordsize, Nat.mod_add_mod, List.map_cons,
        List.sum_cons, Nat.add_assoc]

theorem mbi_size_eq (cmdlines : List (CString W)) :
    mbiSize abi cmdlines internals =
      (abi.infoSize + abi.modSize * modCount cmdlines.length internals +
        (cmdlines.map fun c => wordUp W (W.add c.strlen 1)).sum +
        (internals.mods.map fun m => wordUp W m.cmdlineSize).sum) % W.modulus := by
  have first := fold_rooms (fun c : CString W => W.add c.strlen 1) cmdlines
    (W.add_lt abi.infoSize (abi.modSize * modCount cmdlines.length internals))
  unfold mbiSize
  dsimp only
  rw [first, fold_rooms InternalModule.cmdlineSize internals.mods (Nat.mod_lt _ W.modulus_pos),
    Wordsize.add, Nat.mod_add_mod, Nat.add_assoc (_ % _), Nat.mod_add_mod, ← Nat.add_assoc]

theorem dvd_sum_word_up (sizes : List Nat) : W.bytes ∣ (sizes.map (wordUp W)).sum := by
  apply List.dvd_sum
  intro size member
  obtain ⟨s, _, rfl⟩ := List.mem_map.mp member
  rw [bytes_eq_shift]
  exact dvd_round_up _ _

theorem dvd_mbi_size (cmdlines : List (CString W)) : W.bytes ∣ mbiSize abi cmdlines internals := by
  rw [mbi_size_eq]
  have texts := dvd_sum_word_up (W := W) (cmdlines.map fun c => W.add c.strlen 1)
  have internal := dvd_sum_word_up (W := W) (internals.mods.map InternalModule.cmdlineSize)
  rw [List.map_map] at texts internal
  exact (Nat.dvd_mod_iff (dvd_modulus W)).mpr (Nat.dvd_add (Nat.dvd_add (Nat.dvd_add abi.infoAligned
    (abi.modAligned.mul_right _)) texts) internal)

theorem mod_count_eq (few : table.length + internals.mods.length < 2 ^ 32) :
    modCount table.length internals = table.length + internals.mods.length := by
  rw [modCount, internals.counted, Nat.add_mod_mod, Nat.mod_eq_of_lt few]

theorem string_start_eq (array : W.add mbi abi.infoSize = mbi + abi.infoSize)
    (few : (listed table internals).length < 2 ^ 32) :
    stringStart abi mbi table.length internals =
      (mbi + (abi.infoSize + abi.modSize * (listed table internals).length)) % W.modulus := by
  rw [length_listed] at few ⊢
  rw [stringStart, array, mod_count_eq few, Wordsize.add, Nat.add_assoc]

theorem mbi_size_of_fits (fits : MbiFits abi (mbiTexts (table.map Prod.snd) internals)) :
    mbiSize abi (table.map Prod.snd) internals =
      abi.infoSize + abi.modSize * (table.length + internals.mods.length) +
        roomOf (listed table internals) := by
  obtain ⟨count, counted, size⟩ := fits
  rw [length_texts] at count size
  rw [room_of_listed, mbi_size_eq, List.length_map, mod_count_eq count]
  have tableSizes : ((table.map Prod.snd).map fun c => wordUp W (W.add c.strlen 1)) =
      (table.map Prod.snd).map fun c => wordUp W (c.strlen + 1) := by
    apply List.map_congr_left
    intro c member
    have less := counted c (List.mem_append_left _ member)
    rw [W.add_of_lt (less.trans_le W.modulus_ge)]
  have internalSizes : (internals.mods.map fun m => wordUp W m.cmdlineSize) =
      (internals.mods.map InternalModule.cmdline).map fun c => wordUp W (c.strlen + 1) := by
    rw [List.map_map]
    apply List.map_congr_left
    intro m member
    have less := counted m.cmdline (List.mem_append_right _ (List.mem_map_of_mem member))
    rw [InternalModule.cmdlineSize, Nat.mod_eq_of_lt less]
    rfl
  rw [tableSizes, internalSizes]
  rw [mbiTexts, List.map_append, List.sum_append, ← Nat.add_assoc] at size ⊢
  exact Nat.mod_eq_of_lt size

/-! ## The block is filled exactly when everything fits -/

/-- The block that `fill_mbi` leaves behind. -/
def filledMbi (abi : L4modAbi W) (mbi size : Nat) (table : List (ModInfo × CString W))
    (internals : InternalModuleList W) (bytes : Bytes) : BootInfo where
  addr := mbi
  info := (fillMbi abi mbi size table internals bytes).info
  mods := (fillMbi abi mbi size table internals bytes).mods

variable (abi mbi table internals) in
theorem mods_addr (size : Nat) (bytes : Bytes) :
    (filledMbi abi mbi size table internals bytes).info.modsAddr.toNat = W.add mbi abi.infoSize := by
  have word := W.add_lt mbi abi.infoSize
  simp only [filledMbi, (fill_mbi_log _ _ _ _ size bytes).2.2, infoOf]
  exact UInt64.toNat_ofNat_of_lt (word.trans_le (words_le_modulus W))

theorem mods_count (size : Nat) (bytes : Bytes) :
    (filledMbi abi mbi size table internals bytes).info.modsCount.toNat =
      (listed table internals).length % 2 ^ 32 := by
  simp only [filledMbi, (fill_mbi_log _ _ _ _ size bytes).2.2, infoOf]
  exact UInt32.toNat_ofNat'

variable (abi mbi table internals) in
theorem fill_mbi_listing (size : Nat) (bytes : Bytes) :
    Listing abi (headerWrites abi mbi (W.add mbi abi.infoSize) table.length)
      (stringStart abi mbi table.length internals) (listed table internals)
      (writeList mbi (abi.infoBytes (infoOf (W.add mbi abi.infoSize) table.length))
        (memset mbi 0 size bytes))
      (fillMbi abi mbi size table internals bytes).bytes
      (filledMbi abi mbi size table internals bytes) := by
  obtain ⟨log, mods, _⟩ := fill_mbi_log abi mbi table internals size bytes
  refine ⟨?_, mods, W.add_lt _ _, ?_⟩
  · rw [mods_addr]
    exact log
  · intro j write inPre
    unfold headerWrites at inPre
    split_ifs at inPre
    · simp at inPre
    · rw [List.mem_singleton.mp inPre]
      exact ⟨rfl, abi.infoLength _⟩

variable {size : Nat} {bytes : Bytes}

/-- The places in the block, where everything fits. -/
theorem fill_mbi_places (isSize : size = mbiSize abi (table.map Prod.snd) internals)
    (block : mbi + size ≤ W.modulus) (some : listed table internals ≠ [])
    (fits : MbiFits abi (mbiTexts (table.map Prod.snd) internals)) :
    W.add mbi abi.infoSize = mbi + abi.infoSize ∧
      Slots abi (W.add mbi abi.infoSize) 0 (listed table internals) ∧
      (∀ area ∈ (filledMbi abi mbi size table internals bytes).areas abi []
        (listed table internals), area.Inside (mbi, size)) ∧
      ((filledMbi abi mbi size table internals bytes).areas abi []
        (listed table internals)).Pairwise Area.Apart := by
  have listing := fill_mbi_listing abi mbi table internals size bytes
  have isTotal := mbi_size_of_fits fits
  rw [← isSize, ← length_listed] at isTotal
  have count := fits.count
  rw [length_texts, ← length_listed] at count
  have slotsPos : 0 < abi.modSize * (listed table internals).length :=
    Nat.mul_pos abi.mod_size_pos (List.length_pos_iff.mpr some)
  have array : W.add mbi abi.infoSize = mbi + abi.infoSize := W.add_of_lt (by omega)
  have isStart := string_start_eq array count
  have isArray := mods_addr abi mbi table internals size bytes
  rw [array] at isArray
  refine ⟨array, ?_, listing.places_of_fits [] (fun _ => isArray) isStart
    (counted_listed.mpr fits.counted) isTotal.ge block le_rfl .nil (by simp)⟩
  rw [array]
  exact ⟨by omega, by rw [Nat.zero_add]; omega⟩

/-- Nothing else is written. -/
theorem fill_mbi_frame {a : Nat}
    (off : ∀ area ∈ mbiWrites abi mbi size table internals, Outside a area) :
    (fillMbi abi mbi size table internals bytes).bytes a = bytes a := by
  have offBlock : Outside a (mbi, size) := off _ List.mem_cons_self
  have offHeader : Outside a (mbi, abi.infoSize) :=
    off _ (List.mem_cons_of_mem _ List.mem_cons_self)
  rw [(fill_mbi_log _ _ _ _ size bytes).1, write_all_outside,
    write_list_outside (by rw [abi.infoLength]; exact offHeader), memset_outside offBlock]
  intro write inLog
  exact off _ (List.mem_cons_of_mem _ (List.mem_cons_of_mem _ (List.mem_map_of_mem inLog)))

/-- Where everything fits, nothing is written outside of the block. -/
theorem mbi_writes_of_fits (isSize : size = mbiSize abi (table.map Prod.snd) internals)
    (block : mbi + size ≤ W.modulus) (some : listed table internals ≠ [])
    (fits : MbiFits abi (mbiTexts (table.map Prod.snd) internals)) {area : Area}
    (member : area ∈ mbiWrites abi mbi size table internals) :
    area.2 = 0 ∨ area.Inside (mbi, size) := by
  obtain ⟨_, slots, inside, _⟩ := @fill_mbi_places _ _ _ _ _ _ (fun _ => 0) isSize block some fits
  have header : Area.Inside (mbi, abi.infoSize) (mbi, size) := inside _ List.mem_cons_self
  rcases List.mem_cons.mp member with rfl | member
  · exact .inr ⟨le_rfl, le_rfl⟩
  rcases List.mem_cons.mp member with rfl | member
  · exact .inr header
  obtain ⟨write, inLog, rfl⟩ := List.mem_map.mp member
  rcases log_windows slots (W.add_lt _ _) inLog with ⟨j, inPre⟩ | empty | ⟨own, inItems, within⟩
  · right
    unfold headerWrites at inPre
    split_ifs at inPre
    · simp at inPre
    · rw [List.mem_singleton.mp inPre]
      change Area.Inside (mbi, (abi.infoBytes _).length) (mbi, size)
      rw [abi.infoLength]
      exact header
  · left
    rw [empty]
    rfl
  · right
    have listing := fill_mbi_listing abi mbi table internals size fun _ => 0
    change own ∈ itemAreas abi (W.add mbi abi.infoSize) 0 ((listed table internals).zip
      (entriesFrom (stringStart abi mbi table.length internals) (listed table internals))) at inItems
    rw [← listing.mods, ← mods_addr abi mbi table internals size fun _ => 0] at inItems
    obtain ⟨low, high⟩ := inside own (List.mem_append_right _ inItems)
    exact ⟨low.trans within.1, within.2.trans high⟩

theorem fill_mbi_of_fits (isSize : size = mbiSize abi (table.map Prod.snd) internals)
    (block : mbi + size ≤ W.modulus) (some : listed table internals ≠ [])
    (fits : MbiFits abi (mbiTexts (table.map Prod.snd) internals)) :
    MbiFilled abi size [] (listed table internals) bytes
      (fillMbi abi mbi size table internals bytes).bytes
      (filledMbi abi mbi size table internals bytes) := by
  have listing := fill_mbi_listing abi mbi table internals size bytes
  have count := fits.count
  rw [length_texts, ← length_listed] at count
  have counted := counted_listed.mpr fits.counted
  have isArray := mods_addr abi mbi table internals size bytes
  obtain ⟨array, slots, inside, apart⟩ := @fill_mbi_places _ _ _ _ _ _ bytes isSize block some fits
  rw [← isArray] at slots
  refine listing.filled slots inside apart counted ?_ ?_ ?_
  · rw [mods_count, Nat.mod_eq_of_lt count]
  · have offItems := fun area inItems => ((Listing.items_apart apart).2 area inItems).1
    rw [listing.mods, isArray] at offItems
    rw [isArray] at slots
    have header := log_header table.length
      (writeList mbi (abi.infoBytes (infoOf (W.add mbi abi.infoSize) table.length))
        (memset mbi 0 size bytes)) (k := 0) slots listing.word offItems
      (by rw [Nat.max_eq_left (Nat.zero_le _)]; exact holds_write_list)
    have total : max table.length (0 + (listed table internals).length) =
        (listed table internals).length := by
      rw [length_listed]
      omega
    rw [total] at header
    simp only [filledMbi, (fill_mbi_log _ _ _ _ size bytes).2.2]
    rw [(fill_mbi_log _ _ _ _ size bytes).1]
    exact header
  · intro a off
    have offHeader : Outside a (mbi, abi.infoSize) :=
      Listing.outside_of_inside (inside _ List.mem_cons_self) off
    change a < mbi ∨ mbi + size ≤ a at off
    rw [write_list_outside (by rw [abi.infoLength]; exact offHeader), memset_outside off]

theorem fits_of_fill_mbi (isSize : size = mbiSize abi (table.map Prod.snd) internals)
    (pos : 0 < mbi) (block : mbi + size ≤ W.modulus) (some : listed table internals ≠ [])
    (filled : MbiFilled abi size [] (listed table internals) bytes
      (fillMbi abi mbi size table internals bytes).bytes
      (filledMbi abi mbi size table internals bytes)) :
    MbiFits abi (mbiTexts (table.map Prod.snd) internals) := by
  have listing := fill_mbi_listing abi mbi table internals size bytes
  have count : (listed table internals).length < 2 ^ 32 := by
    rw [← filled.count]
    exact (filledMbi abi mbi size table internals bytes).info.modsCount.toNat_lt
  obtain ⟨above, arrayEnd, slots⟩ := listing.slots_of_filled filled block some
  have header := filled.inside _ List.mem_cons_self
  obtain ⟨_, headerEnd⟩ := header
  have isArray := mods_addr abi mbi table internals size bytes
  change mbi ≤ _ at above
  change mbi + abi.infoSize ≤ mbi + size at headerEnd
  change _ ≤ mbi + size at arrayEnd
  have array : W.add mbi abi.infoSize = mbi + abi.infoSize := by
    rcases Nat.lt_or_ge (mbi + abi.infoSize) W.modulus with less | top
    · exact W.add_of_lt less
    · have same : mbi + abi.infoSize = W.modulus := by omega
      rw [isArray, Wordsize.add, same, Nat.mod_self] at above
      omega
  rw [isArray, array] at arrayEnd
  have counted : ∀ x ∈ listed table internals, x.Counted := by
    apply listing.counted_of_filled filled slots
    intro a offHeader _ low high
    change mbi ≤ a at low
    change a < mbi + size at high
    rw [write_list_outside (by rw [abi.infoLength]; exact offHeader), memset, if_pos ⟨low, high⟩]
  have isStart := string_start_eq array count
  have sizeAligned : W.bytes ∣ size := by
    rw [isSize]
    exact dvd_mbi_size _
  have rooms : abi.infoSize + abi.modSize * (listed table internals).length +
      roomOf (listed table internals) ≤ size := by
    apply rooms_inside abi (mbi + abi.infoSize) 0 counted pos block sizeAligned
      (Nat.dvd_add abi.infoAligned (abi.modAligned.mul_right _)) (by omega)
    intro area inItems
    rw [← isStart, ← array, ← isArray] at inItems
    rw [← listing.mods] at inItems
    exact filled.inside area (List.mem_append_right _ inItems)
  have word : size < W.modulus := by
    rw [isSize, mbi_size_eq]
    exact Nat.mod_lt _ W.modulus_pos
  rw [length_listed] at count rooms
  refine ⟨by rw [length_texts]; exact count, counted_listed.mp counted, ?_⟩
  rw [length_texts, ← room_of_listed]
  omega

end

/-! ## The number of modules stays -/

/-- The table has as many modules after the run as before. -/
def KeepsTable {α : Type} (run : Run W α) : Prop :=
  ∀ s value t, run s = .ok value t → t.mods.length = s.mods.length

namespace KeepsTable

variable {α β : Type}

theorem pure (value : α) : KeepsTable (Pure.pure value : Run W α) := by
  intro s other t ran
  rw [(pure_ok_iff.mp ran).2]

theorem bind {first : Run W α} {rest : α → Run W β} (keeps : KeepsTable first)
    (keepsRest : ∀ value, KeepsTable (rest value)) : KeepsTable (first >>= rest) := by
  intro s value t ran
  obtain ⟨mid, between, ranFirst, ranRest⟩ := CheckedState.bind_ok_iff.mp ran
  rw [keepsRest mid between value t ranRest, keeps s mid between ranFirst]

theorem get : KeepsTable (get : Run W (Machine W)) := by
  intro s value t ran
  cases ran
  rfl

theorem lift (result : Checked α) : KeepsTable (CheckedState.lift result : Run W α) := by
  intro s value t ran
  rw [(lift_ok_iff.mp ran).2]

theorem stop (message : String) : KeepsTable (stop message : Run W α) := lift _

theorem modify {f : Machine W → Machine W} (keeps : ∀ s, (f s).mods.length = s.mods.length) :
    KeepsTable (modify f : Run W Unit) := by
  intro s value t ran
  rw [modify_ok_iff.mp ran, keeps]

theorem ite {condition : Prop} [Decidable condition] {yes no : Run W α} (keepsYes : KeepsTable yes)
    (keepsNo : KeepsTable no) : KeepsTable (if condition then yes else no) := by
  split_ifs
  · exact keepsYes
  · exact keepsNo

theorem updateRegions (f : RegionList W → Checked (RegionList W)) :
    KeepsTable (updateRegions f : Run W Unit) :=
  get.bind fun _ => (lift _).bind fun _ => modify fun _ => rfl

theorem updateBytes (f : Bytes → Bytes) : KeepsTable (updateBytes f : Run W Unit) :=
  modify fun _ => rfl

theorem updateModule (index : Nat) (f : ModInfo → ModInfo) :
    KeepsTable (updateModule index f : Run W Unit) :=
  modify fun _ => List.length_set

theorem addRegion (start size : Nat) (attr : Attr) :
    KeepsTable (addRegion start size attr : Run W Unit) :=
  (lift _).bind fun _ => updateRegions _

theorem findFreeRam (size minAddr : Nat) : KeepsTable (findFreeRam size minAddr : Run W Nat) :=
  get.bind fun _ => lift _

theorem moveModule (mode : BootMode) (index dest : Nat) :
    KeepsTable (moveModule mode index dest : Run W Unit) :=
  fun _ _ _ ran => (move_module_moved ran).length

theorem sortModules (order : List Nat) : KeepsTable (sortModules order : Run W Unit) := by
  induction order with
  | nil => exact pure _
  | cons i rest ih =>
      refine bind ?_ fun _ => ih
      refine get.bind fun s => ?_
      exact ite (stop _) (modify fun _ => rfl)

theorem moveForward (mode : BootMode) (order : List Nat) (cursor : Nat) :
    KeepsTable (moveForward mode cursor order : Run W Unit) := by
  induction order generalizing cursor with
  | nil => exact pure _
  | cons i rest ih => exact get.bind fun _ => (moveModule _ _ _).bind fun _ => ih _

theorem moveBackward (mode : BootMode) (order : List Nat) (cursor : Nat) :
    KeepsTable (moveBackward mode cursor order : Run W Unit) := by
  induction order generalizing cursor with
  | nil => exact pure _
  | cons i rest ih => exact get.bind fun _ => (moveModule _ _ _).bind fun _ => ih _

theorem moveModules (mode : BootMode) (modaddr : Nat) :
    KeepsTable (moveModules mode modaddr : Run W Unit) := by
  refine (updateRegions _).bind fun _ => get.bind fun s => (findFreeRam _ _).bind fun target => ?_
  refine ite (stop _) ((sortModules _).bind fun _ => ?_)
  exact get.bind fun _ => (moveForward _ _ _).bind fun _ => moveBackward _ _ _

theorem decompress (zlib : Zlib) (start destbuf size sizeUncompressed : Nat) :
    KeepsTable (decompress zlib start destbuf size sizeUncompressed : Run W Nat) :=
  ite (pure _) (get.bind fun _ => (updateBytes _).bind fun _ => pure _)

theorem addModRegion (index : Nat) (round : Bool) (type : RegionType) :
    KeepsTable (addModRegion index round type : Run W Unit) :=
  get.bind fun _ => (lift _).bind fun _ => updateRegions _

theorem reEnter (index : Nat) (f : ModInfo → ModInfo) (type : RegionType) :
    KeepsTable (do
      dropModRegion index
      L4Bootstrap.updateModule index f
      L4Bootstrap.addModRegion index true type : Run W Unit) :=
  (updateRegions _).bind fun _ => (updateModule _ _).bind fun _ => addModRegion _ _ _

theorem decompMoveMod (zlib : Zlib) (index dest : Nat) :
    KeepsTable (decompMoveMod zlib index dest : Run W Unit) := by
  refine get.bind fun s => ite ?_ ((updateBytes _).bind fun _ => reEnter _ _ _)
  refine get.bind fun _ => ite (stop _) ((lift _).bind fun _ => ite (stop _) ?_)
  exact (decompress _ _ _ _ _).bind fun _ => ite (stop _) (reEnter _ _ _)

theorem overlapModules (copyIndex : Nat → Int) (order : List Nat) (c : Cursors) :
    KeepsTable (overlapModules copyIndex order c : Run W Cursors) := by
  induction order generalizing c with
  | nil => exact pure _
  | cons i rest ih => exact get.bind fun _ => ite (ih _) ((updateRegions _).bind fun _ => ih _)

theorem chooseDestination (copyIndex : Nat → Int) (totalSize modAddr : Nat) :
    KeepsTable (chooseDestination copyIndex totalSize modAddr : Run W (Nat × Bool)) := by
  refine get.bind fun s => (findFreeRam _ _).bind fun dest => ite ?_ (pure _)
  refine (overlapModules _ _ _).bind fun c => get.bind fun _ => (lift _).bind fun _ => ite ?_ (pure _)
  refine (lift _).bind fun _ => ite ?_ (pure _)
  exact (findFreeRam _ _).bind fun _ => pure _

theorem uncompressBackwards (zlib : Zlib) (order : List Nat) (dest : Nat) :
    KeepsTable (uncompressBackwards zlib dest order : Run W Unit) := by
  induction order generalizing dest with
  | nil => exact pure _
  | cons i rest ih =>
      exact get.bind fun _ => ite (ih _) ((decompMoveMod _ _ _).bind fun _ => ih _)

theorem uncompressForwards (zlib : Zlib) (order : List Nat) (dest : Nat) :
    KeepsTable (uncompressForwards zlib dest order : Run W Unit) := by
  induction order generalizing dest with
  | nil => exact pure _
  | cons i rest ih =>
      exact get.bind fun _ => ite (ih _) ((decompMoveMod _ _ _).bind fun _ => ih _)

theorem moveBaseModules (order : List Nat) : KeepsTable (moveBaseModules order : Run W Unit) := by
  induction order with
  | nil => exact pure _
  | cons i rest ih =>
      refine bind ?_ fun _ => ih
      refine get.bind fun s => ite (pure _) ((lift _).bind fun _ => ite ?_ (pure _))
      exact (findFreeRam _ _).bind fun _ => ite (stop _) (moveModule _ _ _)

theorem decompressMods (zlib : Zlib) (copyIndex : Nat → Int) (totalSize modAddr : Nat) :
    KeepsTable (decompressMods zlib copyIndex totalSize modAddr : Run W Unit) := by
  refine get.bind fun s => (lift _).bind fun _ => (sortModules _).bind fun _ => ?_
  refine (chooseDestination _ _ _).bind fun choice => ite (stop _) ?_
  refine bind ?_ fun _ => moveBaseModules _
  exact get.bind fun _ => ite (uncompressForwards _ _ _) (uncompressBackwards _ _ _)

theorem checkSizes (mods : List ModInfo) : KeepsTable (checkSizes mods : Run W Unit) := by
  induction mods with
  | nil => exact pure _
  | cons mod rest ih => exact ite (stop _) ih

theorem placeModules (build : Build) (modAddr : Nat) :
    KeepsTable (placeModules build modAddr : Run W Unit) := by
  refine get.bind fun s => (checkSizes _).bind fun _ => bind ?_ fun _ => updateRegions _
  cases build with
  | plain => exact moveModules _ _
  | compress zlib copyIndex => exact get.bind fun _ => ite (decompressMods _ _ _ _) (pure _)

end KeepsTable

/-! ## The whole function -/

section

variable {abi : L4modAbi W} {build : Build} {descriptors : Descriptors W}
  {lost : Run W BootInfo} {internals : InternalModuleList W} {modAddr : Nat} {s t : Machine W}
  {mbi : BootInfo}

/-- A block of memory is found for the boot info behind the placed modules. -/
structure BlockFound (abi : L4modAbi W) (descriptors : Descriptors W)
    (internals : InternalModuleList W) (modAddr : Nat) (s : Machine W) (addr : Nat)
    (regions : RegionList W) : Prop where
  some : 1 ≤ modCount (s.table descriptors.cmdline).length internals
  nonzero : addr ≠ 0
  found : s.memory.findFreeRam
    (roundPage W (mbiSize abi ((s.table descriptors.cmdline).map Prod.snd) internals)) modAddr
      W.maxWord pageShift Memory.anyNode = .ok addr
  added : ∃ region : Region W, Region.startSize addr
    (roundPage W (mbiSize abi ((s.table descriptors.cmdline).map Prod.snd) internals))
    { name := .literal ".mbi_rt", type := .root, subType := rootSectionRwx } = .ok region ∧
      s.memory.regions.add region = .ok regions

/-- The writes of `construct_mbi` to a block. -/
def Machine.blockWrites (s : Machine W) (abi : L4modAbi W) (descriptors : Descriptors W)
    (internals : InternalModuleList W) (addr : Nat) : List Area :=
  mbiWrites abi addr (mbiSize abi ((s.table descriptors.cmdline).map Prod.snd) internals)
    (s.table descriptors.cmdline) internals

/-- The steps of `construct_mbi`, as long as no module is put on the descriptors. -/
theorem construct_mbi_steps (ran : constructMbi abi build descriptors lost internals modAddr s =
      .ok mbi t)
    (clear : ∀ between, placeModules build modAddr s = .ok () between →
      descriptors.hit (s.placeWrites build between) = false) :
    ∃ between addr regions, placeModules build modAddr s = .ok () between ∧
      BlockFound abi descriptors internals modAddr between addr regions ∧
      (descriptors.hit (between.blockWrites abi descriptors internals addr) = false →
        mbi.addr = addr ∧ t.memory.regions = regions ∧ t.mods = between.mods ∧
          t.bytes = (fillMbi abi addr
            (mbiSize abi ((between.table descriptors.cmdline).map Prod.snd) internals)
            (between.table descriptors.cmdline) internals between.bytes).bytes ∧
          mbi = filledMbi abi addr
            (mbiSize abi ((between.table descriptors.cmdline).map Prod.snd) internals)
            (between.table descriptors.cmdline) internals between.bytes) := by
  rw [constructMbi, get_bind, CheckedState.bind_ok_iff] at ran
  obtain ⟨_, between, placed, ran⟩ := ran
  rw [get_bind, clear between placed, if_neg Bool.false_ne_true, CheckedState.bind_ok_iff] at ran
  obtain ⟨_, _, counted, ran⟩ := ran
  obtain ⟨some, rfl⟩ := lift_ok_iff.mp counted
  rw [CheckedState.bind_ok_iff] at ran
  obtain ⟨addr, other, found, ran⟩ := ran
  rw [findFreeRam, get_bind, lift_ok_iff] at found
  obtain ⟨isFound, same⟩ := found
  subst same
  by_cases zero : addr = 0
  · rw [if_pos zero] at ran
    exact absurd ran stop_not_ok
  rw [if_neg zero, CheckedState.bind_ok_iff] at ran
  obtain ⟨_, reserved, added, ran⟩ := ran
  obtain ⟨region, regions, made, entered, rfl⟩ := add_region_ok added
  refine ⟨_, addr, regions, placed,
    ⟨require_ok.mp some, zero, isFound, region, made, entered⟩, ?_⟩
  intro spared
  rw [Machine.blockWrites] at spared
  rw [spared, if_neg Bool.false_ne_true] at ran
  simp only [CheckedState.bind_ok_iff, updateBytes, modify_ok_iff, pure_ok_iff] at ran
  obtain ⟨_, _, rfl, rfl, rfl⟩ := ran
  exact ⟨rfl, rfl, rfl, rfl, rfl⟩

/-- No write of `construct_mbi` goes to the descriptors. -/
structure Spared (abi : L4modAbi W) (build : Build) (descriptors : Descriptors W)
    (internals : InternalModuleList W) (modAddr : Nat) (s : Machine W) : Prop where
  places : ∀ between, placeModules build modAddr s = .ok () between →
    descriptors.hit (s.placeWrites build between) = false
  block : ∀ between addr regions, placeModules build modAddr s = .ok () between →
    BlockFound abi descriptors internals modAddr between addr regions →
      descriptors.hit (between.blockWrites abi descriptors internals addr) = false

/-- No place that is found, of a module or of the block, is on the descriptors. -/
structure PlacesClear (abi : L4modAbi W) (build : Build) (descriptors : Descriptors W)
    (internals : InternalModuleList W) (modAddr : Nat) (s : Machine W) : Prop where
  places : ∀ between, placeModules build modAddr s = .ok () between →
    descriptors.hit (s.placeWrites build between) = false
  block : ∀ between addr regions, placeModules build modAddr s = .ok () between →
    BlockFound abi descriptors internals modAddr between addr regions →
      descriptors.hit [(addr,
        mbiSize abi ((between.table descriptors.cmdline).map Prod.snd) internals)] = false

/-- The steps of `construct_mbi`. -/
theorem construct_mbi_ok (ran : constructMbi abi build descriptors lost internals modAddr s =
      .ok mbi t) (spared : Spared abi build descriptors internals modAddr s) :
    ∃ between, placeModules build modAddr s = .ok () between ∧
      BlockFound abi descriptors internals modAddr between mbi.addr t.memory.regions ∧
      t.mods = between.mods ∧
      t.bytes = (fillMbi abi mbi.addr
        (mbiSize abi ((between.table descriptors.cmdline).map Prod.snd) internals)
        (between.table descriptors.cmdline) internals between.bytes).bytes := by
  obtain ⟨between, addr, regions, placed, block, rest⟩ := construct_mbi_steps ran spared.places
  obtain ⟨rfl, rfl, sameMods, bytes, _⟩ := rest (spared.block between addr regions placed block)
  exact ⟨between, placed, block, sameMods, bytes⟩

/-- The reservation of the block succeeds only within the address space. -/
theorem block_inside {addr size : Nat} {attr : Attr} {region : Region W}
    (made : Region.startSize addr (roundPage W size) attr = .ok region) (word : size < W.modulus) :
    addr + size ≤ W.modulus := by
  have pos := (Region.start_size_ok.mp made).1
  have pageWord : roundPage W size < W.modulus := W.round_size_lt pageShift size
  obtain ⟨fits, _⟩ := Region.start_size_last made pageWord
  have upTo : pageUp size ≤ W.modulus :=
    round_up_le (W.pow_dvd_modulus (page_shift_le_bits W)) word.le
  have above : size ≤ pageUp size := le_round_up pageShift size
  rw [roundPage, W.round_size_mod (page_shift_le_bits W)] at pos fits
  change 0 < pageUp size % W.modulus at pos
  change addr + pageUp size % W.modulus ≤ W.modulus at fits
  rcases Nat.lt_or_eq_of_le upTo with below | top
  · rw [Nat.mod_eq_of_lt below] at fits
    omega
  · rw [top, Nat.mod_self] at pos
    omega

/-- Every write to the block stays inside of it. -/
def WritesInside (abi : L4modAbi W) (size : Nat) (table : List (ModInfo × CString W))
    (internals : InternalModuleList W) (addr : Nat) : Prop :=
  AllInside (mbiWrites abi addr size table internals) (addr, size)

section

variable {between : Machine W} {addr : Nat} {regions : RegionList W}

theorem mbi_size_lt (cmdlines : List (CString W)) :
    mbiSize abi cmdlines internals < W.modulus := by
  rw [mbi_size_eq]
  exact Nat.mod_lt _ W.modulus_pos

namespace BlockFound

theorem nonempty (block : BlockFound abi descriptors internals modAddr between addr regions) :
    listed (between.table descriptors.cmdline) internals ≠ [] := by
  have some := block.some
  rw [← List.length_pos_iff, length_listed]
  rw [modCount, internals.counted, Nat.add_mod_mod] at some
  by_contra none
  have zeroLength : (between.table descriptors.cmdline).length + internals.mods.length = 0 := by
    omega
  rw [zeroLength] at some
  exact absurd some (by decide)

theorem inside (block : BlockFound abi descriptors internals modAddr between addr regions) :
    addr + mbiSize abi ((between.table descriptors.cmdline).map Prod.snd) internals ≤
      W.modulus := by
  obtain ⟨region, made, _⟩ := block.added
  exact block_inside made (mbi_size_lt _)

theorem writes_inside (block : BlockFound abi descriptors internals modAddr between addr regions)
    (fits : MbiFits abi (mbiTexts ((between.table descriptors.cmdline).map Prod.snd) internals)) :
    WritesInside abi
      (mbiSize abi ((between.table descriptors.cmdline).map Prod.snd) internals)
      (between.table descriptors.cmdline) internals addr :=
  fun _ member => mbi_writes_of_fits rfl block.inside block.nonempty fits member

end BlockFound

/-- A block in free memory avoids descriptors in entries of the list. -/
theorem BlockFound.clear (block : BlockFound abi descriptors internals modAddr between addr regions)
    (reserved : ∀ p, InAreas descriptors.areas p →
      CoveredBy between.memory.regions.reg (fun _ => True) p) :
    descriptors.hit [(addr,
      mbiSize abi ((between.table descriptors.cmdline).map Prod.snd) internals)] = false := by
  obtain ⟨_, nonzero, found, region, made, _⟩ := block
  have free := (Memory.find_free_ram_placed found nonzero).free
  have pages : 2 ^ pageShift ∣ roundPage W
      (mbiSize abi ((between.table descriptors.cmdline).map Prod.snd) internals) :=
    W.dvd_round_size _ _
  rw [round_page_of_dvd pages (W.round_size_lt _ _)] at free
  have rounded : roundPage W
      (mbiSize abi ((between.table descriptors.cmdline).map Prod.snd) internals) = pageUp _ :=
    round_size_of_pos (mbi_size_lt _) (Region.start_size_ok.mp made).1
  have sizeUp := le_round_up pageShift
    (mbiSize abi ((between.table descriptors.cmdline).map Prod.snd) internals)
  rw [rounded] at free
  rw [Descriptors.hit_eq_false]
  intro area member p above below inDescriptors
  rw [List.mem_singleton.mp member] at above below
  have outside := (reserved p inDescriptors).outside free
  change p < addr ∨ addr + roundUp pageShift _ ≤ p at outside
  omega

theorem placed_cmdlines (placed : placeModules build modAddr s = .ok () between)
    (cmdline : Nat → CString W) :
    (List.range s.mods.length).map cmdline = (between.table cmdline).map Prod.snd := by
  rw [Machine.table, List.map_map, KeepsTable.placeModules build modAddr s _ between placed]
  rfl

theorem PlacesClear.spared (clear : PlacesClear abi build descriptors internals modAddr s)
    (fits : MbiFits abi (mbiTexts ((List.range s.mods.length).map descriptors.cmdline)
      internals)) : Spared abi build descriptors internals modAddr s := by
  refine ⟨clear.places, fun between addr regions placed block => ?_⟩
  rw [placed_cmdlines placed] at fits
  exact (block.writes_inside fits).touches (clear.block between addr regions placed block)

/-- `construct_mbi` returns where there is memory for the block. -/
theorem construct_mbi_returns (placed : placeModules build modAddr s = .ok () between)
    (clear : descriptors.hit (s.placeWrites build between) = false)
    (block : BlockFound abi descriptors internals modAddr between addr regions)
    (spared : descriptors.hit (between.blockWrites abi descriptors internals addr) = false) :
    ∃ mbi t, constructMbi abi build descriptors lost internals modAddr s = .ok mbi t := by
  obtain ⟨some, nonzero, found, region, made, added⟩ := block
  have reserved : addRegion addr
      (roundPage W (mbiSize abi ((between.table descriptors.cmdline).map Prod.snd) internals))
      { name := .literal ".mbi_rt", type := .root, subType := rootSectionRwx } between =
        .ok () (between.withRegions regions) := by
    refine CheckedState.bind_ok_iff.mpr ⟨region, between, lift_ok_iff.mpr ⟨made, rfl⟩, ?_⟩
    rw [updateRegions, get_bind]
    exact CheckedState.bind_ok_iff.mpr ⟨regions, between, lift_ok_iff.mpr ⟨added, rfl⟩, rfl⟩
  have searched : findFreeRam
      (roundPage W (mbiSize abi ((between.table descriptors.cmdline).map Prod.snd) internals))
        modAddr between = .ok addr between := lift_ok_iff.mpr ⟨found, rfl⟩
  have counted : lift (require (1 ≤ modCount (between.table descriptors.cmdline).length
      internals)) between = .ok () between := lift_ok_iff.mpr ⟨require_ok.mpr some, rfl⟩
  refine ⟨filledMbi abi addr
      (mbiSize abi ((between.table descriptors.cmdline).map Prod.snd) internals)
      (between.table descriptors.cmdline) internals between.bytes,
    { between.withRegions regions with
      bytes := (fillMbi abi addr
        (mbiSize abi ((between.table descriptors.cmdline).map Prod.snd) internals)
        (between.table descriptors.cmdline) internals between.bytes).bytes }, ?_⟩
  rw [constructMbi, get_bind]
  refine CheckedState.bind_ok_iff.mpr ⟨(), between, placed, ?_⟩
  rw [get_bind, clear, if_neg Bool.false_ne_true]
  refine CheckedState.bind_ok_iff.mpr ⟨(), between, counted, ?_⟩
  refine CheckedState.bind_ok_iff.mpr ⟨addr, between, searched, ?_⟩
  rw [if_neg nonzero]
  refine CheckedState.bind_ok_iff.mpr ⟨(), _, reserved, ?_⟩
  rw [Machine.blockWrites] at spared
  rw [spared, if_neg Bool.false_ne_true]
  exact CheckedState.bind_ok_iff.mpr ⟨(), _, rfl, rfl⟩

/-- A run that loses nothing has written to no descriptor. -/
theorem construct_mbi_loses_nothing (placed : placeModules build modAddr s = .ok () between)
    (block : BlockFound abi descriptors internals modAddr between addr regions)
    (ran : constructMbi abi build descriptors (stop "") internals modAddr s = .ok mbi t) :
    descriptors.hit (s.placeWrites build between) = false ∧
      descriptors.hit (between.blockWrites abi descriptors internals addr) = false := by
  obtain ⟨_, nonzero, found, _⟩ := block
  rw [constructMbi, get_bind, CheckedState.bind_ok_iff] at ran
  obtain ⟨_, other, isPlaced, ran⟩ := ran
  have sameState : between = other := by
    cases placed.symm.trans isPlaced
    rfl
  subst sameState
  rw [get_bind] at ran
  split_ifs at ran with places
  · exact absurd ran stop_not_ok
  refine ⟨Bool.eq_false_iff.mpr places, ?_⟩
  rw [CheckedState.bind_ok_iff] at ran
  obtain ⟨_, _, counted, ran⟩ := ran
  obtain ⟨_, rfl⟩ := lift_ok_iff.mp counted
  rw [CheckedState.bind_ok_iff] at ran
  obtain ⟨other, _, isFound, ran⟩ := ran
  rw [findFreeRam, get_bind, lift_ok_iff] at isFound
  obtain ⟨isFound, same⟩ := isFound
  subst same
  have sameAddr : addr = other := Except.ok.inj (found.symm.trans isFound)
  subst sameAddr
  rw [if_neg nonzero, CheckedState.bind_ok_iff] at ran
  obtain ⟨_, _, _, ran⟩ := ran
  split_ifs at ran with written
  · exact absurd ran stop_not_ok
  exact Bool.eq_false_iff.mpr written

/-- What `construct_mbi` leaves when nothing is written to the descriptors. -/
theorem construct_mbi_filled (placed : placeModules build modAddr s = .ok () between)
    (block : BlockFound abi descriptors internals modAddr between addr regions)
    (places : descriptors.hit (s.placeWrites build between) = false)
    (spared : descriptors.hit (between.blockWrites abi descriptors internals addr) = false)
    (ran : constructMbi abi build descriptors lost internals modAddr s = .ok mbi t) :
    mbi.addr = addr ∧ t.mods = between.mods ∧
      t.bytes = (fillMbi abi addr
        (mbiSize abi ((between.table descriptors.cmdline).map Prod.snd) internals)
        (between.table descriptors.cmdline) internals between.bytes).bytes ∧
      mbi = filledMbi abi addr
        (mbiSize abi ((between.table descriptors.cmdline).map Prod.snd) internals)
        (between.table descriptors.cmdline) internals between.bytes := by
  have onlyPlace : ∀ other, placeModules build modAddr s = .ok () other → other = between := by
    intro other isPlaced
    cases placed.symm.trans isPlaced
    rfl
  obtain ⟨other, otherAddr, _, isPlaced, isBlock, rest⟩ :=
    construct_mbi_steps ran fun other isPlaced => by rwa [onlyPlace other isPlaced]
  rw [onlyPlace other isPlaced] at isBlock rest
  have sameAddr : otherAddr = addr := Except.ok.inj (isBlock.found.symm.trans block.found)
  rw [sameAddr] at rest
  obtain ⟨isAddr, _, sameMods, bytes, isMbi⟩ := rest spared
  exact ⟨isAddr, sameMods, bytes, isMbi⟩

end

end

/-- A device tree as the only internal module. -/
def someFdt : InternalModuleList .w64 :=
  InternalModuleList.empty.pushFront ⟨.repeated 4 (by decide), 0x9000, 0xa000⟩

def shortCmdlines (index : Nat) : CString .w64 :=
  if index = 0 then .repeated 7 (by decide) else .repeated 2 (by decide)

/-- The header, the table of two modules and their texts. -/
def shortDescriptors : Descriptors .w64 where
  areas := [(0x1000, 56), (0x1038, 192), (0x10f8, 0x40)]
  cmdline := shortCmdlines

/-- A byte of areas that lie in one entry. -/
theorem covered_areas {areas : List Area} {reg : List (Region W)} {keep : Attr → Prop}
    (within : ∃ r ∈ reg, keep r.attr ∧ ∀ area ∈ areas, r.begin ≤ area.1 ∧
      area.1 + area.2 ≤ r.last + 1) {p : Nat} (inAreas : InAreas areas p) :
    CoveredBy reg keep p := by
  obtain ⟨r, member, kept, inside⟩ := within
  obtain ⟨area, isArea, above, below⟩ := inAreas
  have := inside area isArea
  exact ⟨r, member, kept, by omega, by omega⟩

theorem short_places_clear :
    PlacesClear (packedAbi .w64) .plain shortDescriptors someFdt 0x3000 twoModules := by
  have seen : observe (fun s : Machine .w64 =>
      (shortDescriptors.hit (twoModules.placeWrites .plain s),
      s.memory.regions.reg.any fun r => shortDescriptors.areas.all fun area =>
        r.begin ≤ area.1 && area.1 + area.2 ≤ r.last + 1))
      (placeModules .plain 0x3000 twoModules) = some (false, true) := by
    decide +kernel
  constructor
  · intro between placed
    rw [placed] at seen
    exact (Prod.mk.inj (Option.some.inj seen)).1
  · intro between addr regions placed block
    rw [placed] at seen
    obtain ⟨r, member, inside⟩ := List.any_eq_true.mp (Prod.mk.inj (Option.some.inj seen)).2
    refine block.clear fun p inAreas => covered_areas ?_ inAreas
    refine ⟨r, member, trivial, fun area isArea => ?_⟩
    simpa using List.all_eq_true.mp inside area isArea

/-- A kernel in 16 GiB of RAM. -/
def largeMachine : Machine .w64 where
  bytes := fun _ => 0
  memory := {
    ram := Memory.unlimited [.fixed 0x1000 0x3ffffffff {} (.refl true)]
    sysalloc := Memory.unlimited [.fixed 0 0x3ffffffff {} (.refl true)]
    regions := Memory.unlimited [.fixed 0x1000 0x1fff {} (.refl true),
      .fixed 0x200000000 0x2ffffffff {} (.refl true)]
    validate := none }
  mods := [⟨0x100000, 0x1000, 0x1000, .kernel⟩]
  sorter := []

def noZlib : Zlib := ⟨false, fun _ _ _ _ bytes => ⟨false, 0, bytes⟩⟩

/-- The first command line whose size does not fit the `unsigned`. -/
def longCmdline (_ : Nat) : CString .w64 := .repeated (2 ^ 32 - 1) (by decide)

/-- The long command line lies in the second half of RAM. -/
def longDescriptors : Descriptors .w64 where
  areas := [(0x1000, 56), (0x1038, 96), (0x200000000, 2 ^ 32)]
  cmdline := longCmdline

theorem mbi_size_single {c : CString .w64} (long : c.strlen = 2 ^ 32 - 1) :
    mbiSize (packedAbi .w64) [c] .empty = 0x100000050 := by
  change Wordsize.w64.add (Wordsize.w64.add 48 (32 * 1))
    (roundWordsize .w64 (Wordsize.w64.add c.strlen 1)) = _
  rw [long]
  decide

/-- The block of the long command line. -/
def longBlock : Region .w64 where
  begin := 0x3000
  last := 0x100003fff
  attr := { name := .literal ".mbi_rt", type := .root, subType := rootSectionRwx }
  ordered := by decide
  bounded := by decide

theorem copied_table_item (mod : ModInfo) (c : CString W) :
    (tableItem (mod, c)).copied = c.text.take ((c.strlen + 1) % 2 ^ 32) := rfl

/-- Nothing of the long command line is copied. -/
theorem long_writes_inside : WritesInside (packedAbi .w64)
    (mbiSize (packedAbi .w64) ((largeMachine.table longCmdline).map Prod.snd) .empty)
    (largeMachine.table longCmdline) .empty 0x3000 := by
  have strlen : (longCmdline 0).strlen = 2 ^ 32 - 1 := List.length_replicate
  have size : mbiSize (packedAbi .w64) ((largeMachine.table longCmdline).map Prod.snd) .empty =
      0x100000050 := mbi_size_single strlen
  have wraps : (2 ^ 32 - 1 + 1) % 2 ^ 32 = 0 := rfl
  have copied : (tableItem (largeMachine.module 0, longCmdline 0)).copied = [] := by
    rw [copied_table_item, strlen, wraps, List.take_zero]
  have isListed : listed (largeMachine.table longCmdline) .empty =
      [tableItem (largeMachine.module 0, longCmdline 0)] := rfl
  rw [size]
  intro area member
  rcases List.mem_cons.mp member with rfl | member
  · exact .inr ⟨le_rfl, le_rfl⟩
  rcases List.mem_cons.mp member with rfl | member
  · exact .inr ⟨le_rfl, by decide⟩
  obtain ⟨write, inLog, rfl⟩ := List.mem_map.mp member
  rw [isListed, logFrom, logFrom, List.append_nil, itemWrites, copied] at inLog
  have noHeader : headerWrites (packedAbi .w64) 0x3000
      (Wordsize.w64.add 0x3000 (packedAbi .w64).infoSize)
      (largeMachine.table longCmdline).length 0 = [] := rfl
  rw [noHeader, List.nil_append] at inLog
  rcases List.mem_cons.mp inLog with rfl | inLog
  · exact .inl rfl
  · right
    rw [List.mem_singleton.mp inLog]
    rw [(packedAbi .w64).modLength]
    exact ⟨by decide, by decide⟩

/-- A build whose library does not unpack anything. -/
def noZlibBuild : Build := .compress noZlib fun _ => 12000

theorem long_placed {between : Machine .w64}
    (placed : placeModules noZlibBuild 0x3000 largeMachine = .ok () between) :
    between = largeMachine := by
  cases placed
  rfl

theorem long_places_clear :
    PlacesClear (packedAbi .w64) noZlibBuild longDescriptors .empty 0x3000 largeMachine := by
  constructor
  · intro between placed
    rw [long_placed placed]
    decide
  · intro between addr regions placed block
    rw [long_placed placed] at block ⊢
    refine block.clear ?_
    rintro p ⟨area, isArea, above, below⟩
    have entry : ∀ area ∈ longDescriptors.areas, ∃ r ∈ largeMachine.memory.regions.reg,
        r.begin ≤ area.1 ∧ area.1 + area.2 ≤ r.last + 1 := by
      decide
    obtain ⟨r, member, low, high⟩ := entry area isArea
    exact ⟨r, member, trivial, by omega, by omega⟩

end L4Bootstrap
