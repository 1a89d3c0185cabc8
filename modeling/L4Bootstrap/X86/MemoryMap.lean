import L4Bootstrap.RegionLaws
import L4Bootstrap.FreeSearch

/-!
# The memory map of a PC

`Platform_x86_1::setup_memory_map` of `x86_pc.cc`. Without a memory map from the
boot loader RAM is what the two sizes in the multiboot info say, less the
extended BIOS data area. The pointer to the entry that is cut is kept across the
insertion of the rest behind the area.
-/

namespace L4Bootstrap.X86

open MachineWord CheckedLoop

set_option autoImplicit false

/-- `l4util_mb_addr_range_t`: two 64-bit values and a 32-bit type. -/
structure MmapEntry where
  addr : Nat
  size : Nat
  type : Nat
  deriving DecidableEq, Repr

/-- The fields of the multiboot info that describe memory. The sizes are 32-bit
values in KiB; `flags` is given by the two bits that are looked at. -/
structure MemoryInfo where
  flagMemory : Bool
  flagMemMap : Bool
  memLower : Nat
  memUpper : Nat
  mmap : List MmapEntry
  lowerWord : memLower < 2 ^ 32
  upperWord : memUpper < 2 ^ 32

/-- What a 64-bit start hands over in `boot32_info`, and the ACPI root pointer, 0 if
there is none. The kernel interface defines the value of `Info_acpi_rsdp`. -/
structure StartInfo where
  boot32 : Option (Nat × Nat × Nat × Nat)
  rsdpStart : Nat
  rsdpSize : Nat
  infoAcpiRsdp : Subtype
  deriving DecidableEq, Repr

variable {W : Wordsize}

def ramAttr : Attr := { name := .literal ".ram" }

def addReserved (start size : Nat) (attr : Attr) (regions : RegionList W) :
    Checked (RegionList W) := do
  let region ← Region.startSize start size attr
  regions.add region

/-- The reservations in front of the RAM: address and size of the page tables, and
address and size of `boot32_info` itself. -/
def addStartInfo (start : StartInfo) (regions : RegionList W) : Checked (RegionList W) := do
  let regions ← match start.boot32 with
    | none => .ok regions
    | some (ptabAddr, ptabSize, infoAddr, infoSize) => do
        let regions ← addReserved ptabAddr ptabSize
          { name := .literal ".bootstrap-ptab64", type := .boot } regions
        addReserved infoAddr infoSize { name := .literal ".boot32_info", type := .boot } regions
  if start.rsdpStart ≠ 0 then
    addReserved start.rsdpStart start.rsdpSize
      { name := .literal ".ACPI", type := .info, subType := start.infoAcpiRsdp } regions
  else .ok regions

/-- A 32-bit size in KiB as 32-bit arithmetic shifts it. -/
def kib (size : Nat) : Nat := size * 1024 % 2 ^ 32

/-- `r->end (last)` for the entry at position `index` of the array; behind the used
part of the array this changes no entry. -/
def setEntryLast (l : RegionList W) (index last : Nat) : Checked (RegionList W) :=
  match l.reg[index]? with
  | none => .ok l
  | some r => do
      let r ← r.setLast last
      .ok { l with reg := l.reg.set index r }

/-- The pointer that `find` returns: an entry and its position in the array. -/
def findEntry (l : RegionList W) (o : Region W) : Option (Region W × Nat) :=
  l.reg.zipIdx.find? fun entry => entry.1.overlaps o

/-- The entry `r` loses what lies between `p` and `e`: the part from `e` on becomes an
entry of its own, and the pointer still names the same position afterwards. -/
def cutEntry (ram : RegionList W) (r : Region W) (index p e : Nat) : Checked (RegionList W) := do
  let ram ←
    if W.sub e 1 < r.last then do
      let rest ← Region.make e r.last ramAttr
      ram.add rest true
    else .ok ram
  setEntryLast ram index p

def fixEbda (p : Nat) (ram : RegionList W) : Checked (RegionList W) :=
  if p ≤ 0x400 then .ok ram
  else do
    let ebda ← Region.make p (W.sub (W.add p 1024) 1) {}
    match findEntry ram ebda with
    | none => .ok ram
    | some (r, index) => cutEntry ram r index p (W.add p 1024)

/-- The two areas of the branch without a memory map. -/
def addAreas (mbi : MemoryInfo) (ram : RegionList W) : Checked (RegionList W) := do
  let lower ← Region.startSize 0 (kib mbi.memLower) ramAttr
  let ram ← ram.add lower
  let upper ← Region.startSize (2 ^ 20) (kib mbi.memUpper) ramAttr
  ram.add upper

/-- The branch without a memory map. -/
def conventionalMemory (mbi : MemoryInfo) (ebdaSegment : UInt16) (ram : RegionList W) :
    Checked (RegionList W) := do
  require (mbi.flagMemory = true)
  let ram ← addAreas mbi ram
  fixEbda (ebdaSegment.toNat * 16) ram

/-- `Region::Arch` entries take the type of the entry as their subtype. -/
def biosAttr (type : RegionType) (subType : Nat) : Attr :=
  { name := .literal ".BIOS", type := type, subType := UInt8.ofNat subType }

/-- One entry of the memory map. The types are those of the multiboot standard:
memory, reserved, ACPI, NVS, unusable, and 20. -/
def addMmapEntry (entry : MmapEntry) (ram regions : RegionList W) :
    Checked (RegionList W × RegionList W) := do
  let tooHigh := decide (W.bits < 64) &&
    (decide ((entry.addr + entry.size) % 2 ^ 64 < entry.addr) ||
      decide (2 ^ 32 < (entry.addr + entry.size) % 2 ^ 64))
  if tooHigh then .ok (ram, regions)
  else do
    let start := entry.addr % W.modulus
    let size := entry.size % W.modulus
    if entry.type = 1 then do
      let region ← Region.startSize start size ramAttr
      let ram ← ram.add region
      .ok (ram, regions)
    else if entry.type = 2 ∨ entry.type = 3 ∨ entry.type = 4 ∨ entry.type = 20 then do
      let region ← Region.startSize start size (biosAttr .arch entry.type)
      let regions ← regions.add region
      .ok (ram, regions)
    else if entry.type = 5 then do
      let region ← Region.startSize start size (biosAttr .noMem 0)
      let regions ← regions.add region
      .ok (ram, regions)
    else .ok (ram, regions)

def addMmap : List MmapEntry → RegionList W → RegionList W → Checked (RegionList W × RegionList W)
  | [], ram, regions => .ok (ram, regions)
  | entry :: rest, ram, regions => do
      let (ram, regions) ← addMmapEntry entry ram regions
      addMmap rest ram regions

/-- `setup_memory_map` on the lists `ram` and `regions`. -/
def setupMemoryMap (mbi : MemoryInfo) (start : StartInfo) (ebdaSegment : UInt16)
    (ram regions : RegionList W) : Checked (RegionList W × RegionList W) := do
  let regions ← addStartInfo start regions
  let (ram, regions) ←
    if mbi.flagMemMap then addMmap mbi.mmap ram regions
    else do
      let ram ← conventionalMemory mbi ebdaSegment ram
      .ok (ram, regions)
  let regions ← addReserved 0 0x1000 (biosAttr .arch 0) regions
  .ok (ram, regions)

/-! ## The two areas -/

theorem kib_dvd (size : Nat) : 1024 ∣ kib size :=
  (Nat.dvd_mod_iff (by decide)).mpr (Nat.dvd_mul_left 1024 size)

theorem kib_dvd_modulus (W : Wordsize) : 1024 ∣ W.modulus := by
  cases W <;> decide

theorem kib_lt (size : Nat) : kib size < 2 ^ 32 := Nat.mod_lt _ (by decide)

/-- The list holds the two areas and nothing else. -/
structure TwoAreas (lower upper : Nat) (ram : RegionList W) (a b : Region W) : Prop where
  entries : ram.reg = [a, b]
  aBegin : a.begin = 0
  aLast : a.last = lower - 1
  bBegin : b.begin = 2 ^ 20
  bLast : b.last = 2 ^ 20 + upper - 1
  lowerPos : 0 < lower
  upperPos : 0 < upper
  apart : lower ≤ 2 ^ 20
  word : 2 ^ 20 + upper ≤ W.modulus
  address : ram.addressLimit = W.maxWord
  combined : ram.maxCombinedSize = W.maxWord
  room : 3 ≤ ram.max
  used : ram.combinedSize < W.maxWord

theorem add_first_area {r : Region W} {size : Nat} (room : 3 ≤ size) (two : r.begin < r.last) :
    ∃ ram : RegionList W, (RegionList.init size).add r = .ok ram ∧ ram.reg = [r] ∧ ram.max = size ∧
      ram.addressLimit = W.maxWord ∧ ram.maxCombinedSize = W.maxWord ∧
      ram.combinedSize = W.add 0 (r.last - r.begin + 1) := by
  have isOpen : (RegionList.init size : RegionList W).Open :=
    ⟨rfl, rfl, by change 0 < size; omega⟩
  have pos : (RegionList.init size : RegionList W).combinedSize < W.maxWord := by
    have large := W.modulus_ge
    have maxWord : W.maxWord = W.modulus - 1 := rfl
    change 0 < W.maxWord
    omega
  rcases RegionList.add_open_free (l := RegionList.init size) (r := r) .nil isOpen
    (by simp [RegionList.init]) with lost | ⟨_, front, back, whole, _, _, added⟩
  · exact absurd ⟨two, pos⟩ lost.1
  · obtain ⟨rfl, rfl⟩ := List.append_eq_nil_iff.mp whole.symm
    exact ⟨_, added, rfl, rfl, rfl, rfl, rfl⟩

theorem add_areas_ok {mbi : MemoryInfo} {size : Nat} {ram : RegionList W} (room : 3 ≤ size)
    (made : addAreas mbi (RegionList.init size) = .ok ram) :
    ∃ a b, TwoAreas (kib mbi.memLower) (kib mbi.memUpper) ram a b := by
  have large := W.modulus_ge
  have maxWord : W.maxWord = W.modulus - 1 := rfl
  have lowerLt := kib_lt mbi.memLower
  have upperLt := kib_lt mbi.memUpper
  obtain ⟨j, lowerEq⟩ := kib_dvd mbi.memLower
  obtain ⟨k, upperEq⟩ := kib_dvd mbi.memUpper
  simp only [addAreas, bind_ok_iff] at made
  obtain ⟨a, aMade, one, oneAdded, b, bMade, added⟩ := made
  have lowerPos := (Region.start_size_ok.mp aMade).1
  have upperPos := (Region.start_size_ok.mp bMade).1
  obtain ⟨_, aBegin, aLast, _⟩ := Region.start_size_last aMade (by omega)
  obtain ⟨word, bBegin, bLast, _⟩ := Region.start_size_last bMade (by omega)
  rw [Nat.zero_add] at aLast
  obtain ⟨other, isOther, reg, isMax, address, combined, used⟩ :=
    add_first_area (r := a) room (by omega)
  rw [oneAdded] at isOther
  cases isOther
  have isOpen : one.Open := ⟨address, combined, by rw [reg, isMax]; simp; omega⟩
  have usedEq : one.combinedSize = kib mbi.memLower := by
    rw [used, W.add_of_lt (by omega)]
    omega
  have ascending : Ascending one.reg := by
    rw [reg]
    exact List.pairwise_singleton _ a
  rcases RegionList.add_open ascending isOpen added with ⟨_, lost⟩ | ⟨_, free, two, notFull⟩
  · omega
  · have apart := free a (by simp [reg])
    rw [Region.overlaps_eq_false_iff] at apart
    have bFree : ∀ o ∈ one.reg, b.overlaps o = false := free
    rcases RegionList.add_open_free ascending isOpen bFree with
      ⟨lost, _⟩ | ⟨_, front, back, whole, below, above, isAdded⟩
    · exact absurd ⟨two, notFull⟩ lost
    · rw [added] at isAdded
      cases isAdded
      have entries : front ++ b :: back = [a, b] := by
        rw [reg] at whole
        cases front with
        | nil =>
            rw [List.nil_append] at whole
            have := above a (by simp [← whole])
            omega
        | cons first rest =>
            rw [List.cons_append, List.cons.injEq, eq_comm, eq_comm (a := [])] at whole
            obtain ⟨rfl, rest⟩ := whole
            obtain ⟨rfl, rfl⟩ := List.append_eq_nil_iff.mp rest
            rfl
      have used : W.add one.combinedSize (b.last - b.begin + 1) < W.maxWord := by
        have below := W.add_lt one.combinedSize (b.last - b.begin + 1)
        have dvd : 1024 ∣ W.add one.combinedSize (b.last - b.begin + 1) := by
          have sum : one.combinedSize + (b.last - b.begin + 1) = 1024 * (j + k) := by omega
          rw [Wordsize.add, sum]
          exact (Nat.dvd_mod_iff (kib_dvd_modulus W)).mpr (Nat.dvd_mul_right 1024 _)
        have modulusDvd := kib_dvd_modulus W
        omega
      exact ⟨a, b, entries, aBegin, aLast, bBegin, bLast, lowerPos, upperPos, by omega, word,
        address, combined, by rw [isMax]; exact room, used⟩

theorem add_areas_of_fits {mbi : MemoryInfo} {size : Nat} (room : 3 ≤ size)
    (lowerPos : 0 < kib mbi.memLower) (upperPos : 0 < kib mbi.memUpper)
    (apart : kib mbi.memLower ≤ 2 ^ 20) (word : 2 ^ 20 + kib mbi.memUpper ≤ W.modulus) :
    ∃ ram : RegionList W, addAreas mbi (RegionList.init size) = .ok ram := by
  have large := W.modulus_ge
  have maxWord : W.maxWord = W.modulus - 1 := rfl
  obtain ⟨j, lowerEq⟩ := kib_dvd mbi.memLower
  obtain ⟨k, upperEq⟩ := kib_dvd mbi.memUpper
  obtain ⟨a, aMade, aBegin, aLast, _⟩ :=
    @Region.start_size_of_fits W 0 (kib mbi.memLower) ramAttr lowerPos (by omega)
  obtain ⟨b, bMade, bBegin, bLast, _⟩ :=
    @Region.start_size_of_fits W (2 ^ 20) (kib mbi.memUpper) ramAttr upperPos word
  obtain ⟨one, oneAdded, reg, isMax, address, combined, used⟩ :=
    add_first_area (r := a) room (by omega)
  have usedEq : one.combinedSize = kib mbi.memLower := by
    rw [used, W.add_of_lt (by omega)]
    omega
  have free : ∀ o ∈ one.reg, b.overlaps o = false := by
    intro o member
    rw [reg, List.mem_singleton] at member
    rw [member, Region.overlaps_eq_false_iff]
    omega
  have ascending : Ascending one.reg := by
    rw [reg]
    exact List.pairwise_singleton _ a
  have notFull : one.reg.length < one.max := by
    rw [reg, isMax]
    simp
    omega
  rcases RegionList.add_open_free ascending ⟨address, combined, notFull⟩ free with
    ⟨_, added⟩ | ⟨_, _, _, _, _, _, added⟩
  · exact ⟨_, by rw [addAreas, aMade, ok_bind, oneAdded, ok_bind, bMade, ok_bind, added]⟩
  · exact ⟨_, by rw [addAreas, aMade, ok_bind, oneAdded, ok_bind, bMade, ok_bind, added]⟩

/-! ## The EBDA -/

section

variable {lower upper p : Nat} {ram : RegionList W} {a b : Region W}

theorem ebda_made (low : p ≤ 0xffff0) :
    ∃ ebda : Region W, Region.make p (W.sub (W.add p 1024) 1) {} = .ok ebda ∧
      ebda.begin = p ∧ ebda.last = p + 1023 ∧ W.sub (W.add p 1024) 1 = p + 1023 ∧
      W.add p 1024 = p + 1024 := by
  have large := W.modulus_ge
  have behind : W.add p 1024 = p + 1024 := W.add_of_lt (by omega)
  have last : W.sub (W.add p 1024) 1 = p + 1023 := by
    rw [behind, W.sub_of_le (by omega) (by omega)]
    omega
  refine ⟨⟨p, p + 1023, {}, by omega, by omega⟩, ?_, rfl, rfl, last, behind⟩
  rw [last, Region.make_ok]
  exact ⟨rfl, rfl, rfl⟩

theorem fix_ebda_free (areas : TwoAreas lower upper ram a b) (low : p ≤ 0xffff0)
    (behind : lower ≤ p) (before : p + 1024 ≤ 2 ^ 20) : fixEbda p ram = .ok ram := by
  obtain ⟨ebda, made, ebdaBegin, ebdaLast, _⟩ := @ebda_made W p low
  have aFree : a.overlaps ebda = false := by
    rw [Region.overlaps_eq_false_iff, areas.aLast, ebdaBegin]
    have := areas.lowerPos
    omega
  have bFree : b.overlaps ebda = false := by
    rw [Region.overlaps_eq_false_iff, areas.bBegin, ebdaLast]
    omega
  unfold fixEbda
  split_ifs
  · rfl
  · simp only [made, ok_bind, findEntry]
    rw [areas.entries]
    simp [aFree, bFree]

theorem set_entry_last_covers {l result : RegionList W} {index last : Nat} {r : Region W}
    (isAt : l.reg[index]? = some r) (set : setEntryLast l index last = .ok result) :
    r.begin ≤ last ∧ Covered result.reg last := by
  simp only [setEntryLast, isAt, bind_ok_iff] at set
  obtain ⟨cut, isCut, made⟩ := set
  cases made
  obtain ⟨begins, ends, _⟩ := Region.set_last_ok.mp isCut
  have ordered := cut.ordered
  refine ⟨by omega, covered_iff.mpr ⟨cut, ?_, by omega, by omega⟩⟩
  exact List.mem_set (List.getElem?_eq_some_iff.mp isAt).1 cut

theorem insert_from_in_front {region r : Region W} {front back : List (Region W)}
    (below : ∀ o ∈ front, o.last < region.begin) (reaches : region.begin ≤ r.last) :
    RegionList.insertFrom region true (front ++ r :: back) =
      .ok (front ++ region :: r :: back) := by
  induction front with
  | nil =>
      rw [List.nil_append, RegionList.insertFrom, if_neg (by simpa using reaches),
        if_neg (by simp), List.nil_append]
  | cons o rest ih =>
      have first := below o (by simp)
      rw [List.cons_append, RegionList.insertFrom, if_pos (by simpa using first),
        ih (fun other member => below other (by simp [member])), ok_bind, List.cons_append]

/-- Where an insertion that may overlap puts a region that reaches into an entry. -/
theorem insert_in_front {region r : Region W} {front back : List (Region W)}
    (ascending : Ascending (front ++ r :: back)) (below : ∀ o ∈ front, o.last < region.begin)
    (reaches : region.begin ≤ r.last) :
    RegionList.insert (front ++ r :: back) region true = .ok (front ++ region :: r :: back) := by
  unfold RegionList.insert
  cases isLast : (front ++ r :: back).getLast? with
  | none => simp at isLast
  | some last =>
      have highest := ascending_last_le ascending isLast (by simp : r ∈ front ++ r :: back)
      simp only
      rw [if_neg (by rw [Region.before_iff]; omega)]
      exact insert_from_in_front below reaches

/-- The rest of an entry behind the area goes in front of that entry, so that the
pointer names the rest when the entry is to be shortened. -/
theorem cut_entry_ok {t : RegionList W} {front back : List (Region W)} {r : Region W} {p : Nat}
    (entries : ram.reg = front ++ r :: back) (ascending : Ascending ram.reg)
    (unlimited : ram.Open) (used : ram.combinedSize < W.maxWord) (low : p ≤ 0xffff0)
    (below : ∀ o ∈ front, o.last < p) (odd : r.last ≠ p + 1024)
    (made : cutEntry ram r front.length p (W.add p 1024) = .ok t) : Covered t.reg p := by
  obtain ⟨_, _, _, _, isLast, isBehind⟩ := @ebda_made W p low
  have bounded := r.bounded
  rw [isBehind] at isLast
  simp only [cutEntry, isBehind, isLast] at made
  split_ifs at made with inside
  · exfalso
    simp only [bind_ok_iff] at made
    obtain ⟨rest, isRest, cut, added, made⟩ := made
    obtain ⟨restBegin, restLast, _⟩ := Region.make_ok.mp isRest
    have maxWord : W.maxWord = W.modulus - 1 := rfl
    have sumWord := W.add_lt ram.combinedSize rest.size
    rw [RegionList.add_eq_insert true unlimited.room
      ⟨by rw [unlimited.address]; omega, by rw [unlimited.combined]; exact used,
        by rw [unlimited.combined]; omega⟩ (by omega), entries, insert_in_front (entries ▸ ascending)
        (fun o member => (below o member).trans (by omega)) (by omega), ok_bind] at added
    cases added
    have isAt : (front ++ rest :: r :: back)[front.length]? = some rest := by simp
    have := (set_entry_last_covers (by exact isAt) made).1
    omega
  · have isAt : ram.reg[front.length]? = some r := by
      rw [entries]
      simp
    exact (set_entry_last_covers isAt made).2

theorem fix_ebda_ok {t : RegionList W} (areas : TwoAreas lower upper ram a b)
    (used : 0x400 < p) (low : p ≤ 0xffff0) (segment : 16 ∣ p) (lowerKib : 1024 ∣ lower)
    (upperKib : 1024 ∣ upper) (made : fixEbda p ram = .ok t) (uncovered : ¬ Covered t.reg p) :
    t = ram ∧ lower ≤ p ∧ p + 1024 ≤ 2 ^ 20 := by
  obtain ⟨ebda, isEbda, ebdaBegin, ebdaLast, _⟩ := @ebda_made W p low
  have aBegin := areas.aBegin
  have aLast := areas.aLast
  have bBegin := areas.bBegin
  have bLast := areas.bLast
  have lowerPos := areas.lowerPos
  have upperPos := areas.upperPos
  have apart := areas.apart
  have ascending : Ascending ram.reg := by
    rw [areas.entries]
    refine ascending_cons.mpr ⟨?_, List.pairwise_singleton _ b⟩
    intro o member
    rw [List.mem_singleton.mp member]
    omega
  have isOpen : ram.Open := ⟨areas.address, areas.combined, by rw [areas.entries]; exact areas.room⟩
  rw [fixEbda, if_neg (by omega)] at made
  simp only [isEbda, ok_bind, findEntry, areas.entries, List.zipIdx_cons, List.zipIdx_nil] at made
  cases aOver : a.overlaps ebda with
  | true =>
      simp only [List.find?_cons, aOver] at made
      have entries : ram.reg = [] ++ a :: [b] := areas.entries
      exact absurd (cut_entry_ok entries ascending isOpen areas.used low (by simp) (by omega) made)
        uncovered
  | false =>
      have aFree := Region.overlaps_eq_false_iff.mp aOver
      have aBelow : ∀ o ∈ [a], o.last < p := by
        intro o member
        rw [List.mem_singleton.mp member]
        omega
      cases bOver : b.overlaps ebda with
      | true =>
          simp only [List.find?_cons, aOver, bOver] at made
          have entries : ram.reg = [a] ++ b :: [] := areas.entries
          exact absurd (cut_entry_ok entries ascending isOpen areas.used low aBelow (by omega) made)
            uncovered
      | false =>
          have bFree := Region.overlaps_eq_false_iff.mp bOver
          simp only [List.find?_cons, aOver, bOver, List.find?_nil] at made
          cases made
          exact ⟨rfl, by omega, by omega⟩

end

theorem TwoAreas.covered {lower upper : Nat} {ram : RegionList W} {a b : Region W}
    (areas : TwoAreas lower upper ram a b) (address : Nat) :
    Covered ram.reg address ↔
      address < lower ∨ (2 ^ 20 ≤ address ∧ address < 2 ^ 20 + upper) := by
  have lowerPos := areas.lowerPos
  have upperPos := areas.upperPos
  rw [areas.entries, covered_cons, covered_cons, Region.Has, Region.Has, areas.aBegin,
    areas.aLast, areas.bBegin, areas.bLast]
  have nothing : ¬ Covered ([] : List (Region W)) address := by simp [covered_iff]
  constructor
  · rintro (inLower | inUpper | inNothing)
    · left
      omega
    · right
      omega
    · exact absurd inNothing nothing
  · rintro (inLower | inUpper)
    · left
      omega
    · right
      left
      omega

/-! ## The whole map -/

/-- What RAM should be: the two areas less the EBDA. -/
def Conventional (mbi : MemoryInfo) (p address : Nat) : Prop :=
  (address < mbi.memLower * 1024 ∨
    (2 ^ 20 ≤ address ∧ address < 2 ^ 20 + mbi.memUpper * 1024)) ∧
  ¬ (p ≤ address ∧ address ≤ p + 1023)

/-- The EBDA lies between the two areas, and both sizes fit the arithmetic. -/
structure EbdaBetween (W : Wordsize) (mbi : MemoryInfo) (p : Nat) : Prop where
  flag : mbi.flagMemory = true
  behind : mbi.memLower * 1024 ≤ p
  before : p + 1024 ≤ 2 ^ 20
  upper : mbi.memUpper < 2 ^ 22
  word : 2 ^ 20 + mbi.memUpper * 1024 ≤ W.modulus

/-- Sizes whose overflow makes no difference: the first area is so large that it
ends where the second one ends, and the part that the overflow cuts off begins
with the EBDA. -/
structure EbdaHidesOverflow (W : Wordsize) (mbi : MemoryInfo) (p : Nat) : Prop where
  flag : mbi.flagMemory = true
  wide : W = .w64
  lower : mbi.memLower = 2 ^ 22 + 1023
  upper : mbi.memUpper = 2 ^ 22 - 1
  ebda : p = 2 ^ 20 - 1024

theorem conventional_memory_iff {mbi : MemoryInfo} {ebdaSegment : UInt16} {size : Nat}
    (room : 3 ≤ size) (lowerPos : 0 < mbi.memLower) (upperPos : 0 < mbi.memUpper)
    (used : 0x400 < ebdaSegment.toNat * 16) :
    (∃ ram : RegionList W, conventionalMemory mbi ebdaSegment (RegionList.init size) = .ok ram ∧
      ∀ a, Covered ram.reg a ↔ Conventional mbi (ebdaSegment.toNat * 16) a) ↔
    EbdaBetween W mbi (ebdaSegment.toNat * 16) ∨
      EbdaHidesOverflow W mbi (ebdaSegment.toNat * 16) := by
  have segmentLt := ebdaSegment.toNat_lt
  generalize isP : ebdaSegment.toNat * 16 = p at *
  have low : p ≤ 0xffff0 := by omega
  have segment : 16 ∣ p := by omega
  have lowerWord := mbi.lowerWord
  have upperWord := mbi.upperWord
  constructor
  · rintro ⟨ram, made, covers⟩
    simp only [conventionalMemory, bind_ok_iff, require_ok] at made
    obtain ⟨_, flag, areasRam, areasMade, fixed⟩ := made
    rw [isP] at fixed
    obtain ⟨a, b, areas⟩ := add_areas_ok room areasMade
    have uncovered : ¬ Covered ram.reg p := by
      rw [covers]
      rintro ⟨_, outside⟩
      omega
    obtain ⟨rfl, behind, before⟩ := fix_ebda_ok areas used low segment (kib_dvd _) (kib_dvd _) fixed
      uncovered
    have word := areas.word
    have same : ∀ address, _ := fun address => (areas.covered address).symm.trans (covers address)
    unfold kib at same behind word
    unfold Conventional at same
    -- the byte behind the second area shows that neither size was cut off there
    have behindUpper := same (2 ^ 20 + mbi.memUpper * 1024 % 2 ^ 32)
    have upper : mbi.memUpper < 2 ^ 22 := by omega
    by_cases lowerFits : mbi.memLower * 1024 < 2 ^ 32
    · left
      exact ⟨flag, by omega, before, upper, by omega⟩
    · right
      have behindLower := same (mbi.memLower * 1024 % 2 ^ 32)
      have behindEbda := same (p + 1024)
      have isEbda : p = 2 ^ 20 - 1024 := by omega
      have lower : mbi.memLower = 2 ^ 22 + 1023 := by omega
      have isUpper : mbi.memUpper = 2 ^ 22 - 1 := by omega
      refine ⟨flag, ?_, lower, isUpper, isEbda⟩
      cases W with
      | w32 =>
          have modulus : Wordsize.w32.modulus = 2 ^ 32 := rfl
          omega
      | w64 => rfl
  · intro fits
    have flag : mbi.flagMemory = true := by
      rcases fits with between | hides
      · exact between.flag
      · exact hides.flag
    have large := W.modulus_ge
    have sizes : kib mbi.memLower ≤ p ∧ p + 1024 ≤ 2 ^ 20 ∧
        2 ^ 20 + kib mbi.memUpper ≤ W.modulus ∧ 0 < kib mbi.memLower ∧ 0 < kib mbi.memUpper := by
      unfold kib
      rcases fits with ⟨_, behind, before, upper, word⟩ | ⟨_, rfl, lower, upper, rfl⟩
      · omega
      · rw [lower, upper]
        decide
    obtain ⟨behind, before, word, lowerSize, upperSize⟩ := sizes
    obtain ⟨ram, areasMade⟩ := add_areas_of_fits (W := W) room lowerSize upperSize
      (by omega) word
    obtain ⟨a, b, areas⟩ := add_areas_ok room areasMade
    refine ⟨ram, ?_, ?_⟩
    · simp only [conventionalMemory, bind_ok_iff, require_ok]
      exact ⟨(), flag, ram, areasMade, by rw [isP]; exact fix_ebda_free areas low behind before⟩
    · intro address
      rw [areas.covered, Conventional]
      unfold kib at behind lowerSize upperSize ⊢
      rcases fits with ⟨_, lower, _, upper, _⟩ | ⟨_, rfl, lower, upper, rfl⟩
      · omega
      · rw [lower, upper]
        omega

/-- Without a memory map the EBDA is cut out of RAM only if there is nothing to cut
out. -/
theorem setup_memory_map_ebda_iff {mbi : MemoryInfo} {start : StartInfo} {ebdaSegment : UInt16}
    {size : Nat} {regions : RegionList W} (room : 3 ≤ size) (lowerPos : 0 < mbi.memLower)
    (upperPos : 0 < mbi.memUpper) (used : 0x400 < ebdaSegment.toNat * 16)
    (noMap : mbi.flagMemMap = false)
    (reservable : ∃ early late, addStartInfo start regions = .ok early ∧
      addReserved 0 0x1000 (biosAttr .arch 0) early = .ok late) :
    (∃ ram late : RegionList W,
      setupMemoryMap mbi start ebdaSegment (RegionList.init size) regions = .ok (ram, late) ∧
        ∀ a, Covered ram.reg a ↔ Conventional mbi (ebdaSegment.toNat * 16) a) ↔
    EbdaBetween W mbi (ebdaSegment.toNat * 16) ∨
      EbdaHidesOverflow W mbi (ebdaSegment.toNat * 16) := by
  obtain ⟨early, late, earlyMade, lateMade⟩ := reservable
  rw [← conventional_memory_iff room lowerPos upperPos used]
  have split : ∀ ram : RegionList W,
      (∃ late, setupMemoryMap mbi start ebdaSegment (RegionList.init size) regions =
        .ok (ram, late)) ↔ conventionalMemory mbi ebdaSegment (RegionList.init size) = .ok ram := by
    intro ram
    rw [setupMemoryMap, earlyMade, ok_bind, noMap, if_neg (by simp)]
    constructor
    · rintro ⟨other, made⟩
      obtain ⟨found, isFound, made⟩ := bind_ok_iff.mp made
      rw [ok_bind] at made
      obtain ⟨_, _, result⟩ := bind_ok_iff.mp made
      cases result
      exact isFound
    · intro isRam
      refine ⟨late, ?_⟩
      rw [isRam, ok_bind, ok_bind]
      simp only [lateMade, ok_bind]
  constructor
  · rintro ⟨ram, other, made, covers⟩
    exact ⟨ram, (split ram).mp ⟨other, made⟩, covers⟩
  · rintro ⟨ram, made, covers⟩
    obtain ⟨other, isMade⟩ := (split ram).mpr made
    exact ⟨ram, other, isMade, covers⟩

/-- A start of a 32-bit machine with this much memory below and above 1 MiB. -/
def lowMemory (memLower memUpper : Nat) (lowerWord : memLower < 2 ^ 32)
    (upperWord : memUpper < 2 ^ 32) : MemoryInfo :=
  ⟨true, false, memLower, memUpper, [], lowerWord, upperWord⟩

def plainStart : StartInfo := ⟨none, 0, 0, 0⟩

/-- The last KiB of conventional memory is not counted as memory. -/
theorem setup_memory_map_ebda_between :
    ∃ ram late : RegionList .w32,
      setupMemoryMap (lowMemory 639 0x3c00 (by decide) (by decide)) plainStart 0x9fc0
        (RegionList.init 16) (RegionList.init 300) = .ok (ram, late) ∧
      ∀ a, Covered ram.reg a ↔
        Conventional (lowMemory 639 0x3c00 (by decide) (by decide)) 0x9fc00 a := by
  have between : EbdaBetween .w32 (lowMemory 639 0x3c00 (by decide) (by decide)) 0x9fc00 :=
    ⟨rfl, by decide, by decide, by decide, by decide⟩
  have reservable : ∃ early late : RegionList .w32,
      addStartInfo plainStart (RegionList.init 300) = .ok early ∧
        addReserved 0 0x1000 (biosAttr .arch 0) early = .ok late := by
    refine ⟨_, ⟨[⟨0, 0xfff, biosAttr .arch 0, by decide, by decide⟩], 300, Wordsize.w32.maxWord,
      Wordsize.w32.maxWord, 0x1000⟩, rfl, ?_⟩
    decide +kernel
  exact (setup_memory_map_ebda_iff (by decide) (by decide) (by decide) (by decide) rfl
    reservable).mpr (.inl between)

/-- With 640 KiB of memory the first byte of an EBDA at its end stays RAM, and an EBDA
below its end trips the assertion of the setter. -/
theorem setup_memory_map_keeps_ebda :
    (¬ ∃ ram late : RegionList .w32,
      setupMemoryMap (lowMemory 640 0x3c00 (by decide) (by decide)) plainStart 0x9fc0
        (RegionList.init 16) (RegionList.init 300) = .ok (ram, late) ∧
      ∀ a, Covered ram.reg a ↔
        Conventional (lowMemory 640 0x3c00 (by decide) (by decide)) 0x9fc00 a) ∧
    setupMemoryMap (lowMemory 640 0x3c00 (by decide) (by decide)) plainStart 0x9f00
      (RegionList.init 16 : RegionList .w32) (RegionList.init 300) = .error .assertion := by
  constructor
  · rintro ⟨ram, late, made, covers⟩
    have entries : (setupMemoryMap (lowMemory 640 0x3c00 (by decide) (by decide)) plainStart 0x9fc0
        (RegionList.init 16 : RegionList .w32) (RegionList.init 300)).map
          (fun lists => lists.1.reg.any fun r => decide (r.begin ≤ 0x9fc00 ∧ 0x9fc00 ≤ r.last)) =
        .ok true := by decide +kernel
    rw [made] at entries
    simp only [Except.map, Except.ok.injEq, List.any_eq_true, decide_eq_true_eq] at entries
    have inRam : Covered ram.reg 0x9fc00 := covered_iff.mpr entries
    have outside := ((covers 0x9fc00).mp inRam).2
    omega
  · decide +kernel

end L4Bootstrap.X86
