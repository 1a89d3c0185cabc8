import L4Bootstrap.Support

/-!
# Regions and region lists

`Region` and `Region_list` of `region.h` and `region.cc`. A region keeps its two
addresses in order as a field, because every constructor and setter of the class
asserts it; a setter that would break it stops with a failed assertion. The
entries of a list are the used part of its backing store, `max` is the size of
that store. Names are pointers and are compared as pointers.
-/

namespace L4Bootstrap

open MachineWord CheckedLoop

set_option autoImplicit false

/-- The pointer kept in `Region::_name`: null, `Mod_info::Mod_reg`, a string
literal of the loader, or a command line somewhere in memory. -/
inductive Name
  | null
  | modReg
  | literal (text : String)
  | cmdline (pointer : Nat)
  deriving DecidableEq, Repr

/-- `Region::Type`. -/
inductive RegionType
  | noMem
  | kernel
  | sigma0
  | boot
  | root
  | arch
  | ramDontUse
  | info
  | kmem
  deriving DecidableEq, Repr

/-- `Region::Subtype_info` is an `unsigned char`. -/
abbrev Subtype := UInt8

def noSubtype : Subtype := 0
def bootTemporary : Subtype := 5
def rootSectionX : Subtype := 1
def rootSectionW : Subtype := 2
def rootSectionRo : Subtype := 4
def rootSectionRwx : Subtype := 7

structure Attr where
  name : Name := .null
  type : RegionType := .noMem
  subType : Subtype := noSubtype
  eager : Bool := false
  deriving DecidableEq, Repr

/-- `last` is `_end`, the address of the last byte. -/
structure Region (W : Wordsize) where
  begin : Nat
  last : Nat
  attr : Attr
  ordered : begin ≤ last
  bounded : last < W.modulus
  deriving DecidableEq

namespace Region

variable {W : Wordsize}

/-- `Region (begin, end, ...)` on two words. -/
def make (begin last : Nat) (attr : Attr) : Checked (Region W) :=
  if fits : begin ≤ last ∧ last < W.modulus then
    .ok ⟨begin, last, attr, fits.1, fits.2⟩
  else .error .assertion

/-- An entry whose addresses are known; the check is evaluated. -/
def fixed (begin last : Nat) (attr : Attr)
    (check : (decide (begin ≤ last) && decide (last < W.modulus)) = true) : Region W where
  begin := begin
  last := last
  attr := attr
  ordered := of_decide_eq_true (Bool.and_eq_true_iff.mp check).1
  bounded := of_decide_eq_true (Bool.and_eq_true_iff.mp check).2

def startSize (begin size : Nat) (attr : Attr) : Checked (Region W) := do
  require (0 < size)
  make begin (W.sub (W.add begin size) 1) attr

/-- `Region (void const *)`, a one-byte region for lookups. -/
def ofAddress (address : Nat) : Region W where
  begin := address % W.modulus
  last := address % W.modulus
  attr := {}
  ordered := le_rfl
  bounded := Nat.mod_lt _ W.modulus_pos

def setBegin (r : Region W) (begin : Nat) : Checked (Region W) := make begin r.last r.attr

def setLast (r : Region W) (last : Nat) : Checked (Region W) := make r.begin last r.attr

def size (r : Region W) : Nat := W.add (W.sub r.last r.begin) 1

/-- `operator <`. -/
def before (r o : Region W) : Bool := r.last < o.begin

def overlaps (r o : Region W) : Bool := !r.before o && !o.before r

def contains (r o : Region W) : Bool := r.begin ≤ o.begin && o.last ≤ r.last

def invalid (r : Region W) : Bool := r.begin = 0 && r.last = 0

/-- Name, type and subtype come from `r`, the eager flag is not copied. Without
an overlap the result is the invalid region. -/
def intersect (r o : Region W) : Checked (Region W) :=
  if r.overlaps o then
    make (max r.begin o.begin) (min r.last o.last) { r.attr with eager := false }
  else .ok (ofAddress 0)

theorem make_ok {begin last : Nat} {attr : Attr} {r : Region W} :
    make begin last attr = .ok r ↔ r.begin = begin ∧ r.last = last ∧ r.attr = attr := by
  unfold make
  split_ifs with fits
  · constructor
    · rintro ⟨⟩
      exact ⟨rfl, rfl, rfl⟩
    · rintro ⟨rfl, rfl, rfl⟩
      rfl
  · constructor
    · rintro ⟨⟩
    · rintro ⟨rfl, rfl, rfl⟩
      exact absurd ⟨r.ordered, r.bounded⟩ fits

theorem start_size_ok {begin size : Nat} {attr : Attr} {r : Region W} :
    startSize begin size attr = .ok r ↔
      0 < size ∧ r.begin = begin ∧ r.last = W.sub (W.add begin size) 1 ∧ r.attr = attr := by
  simp only [startSize, bind_ok_iff, require_ok, make_ok, exists_const]

theorem set_begin_ok {r s : Region W} {begin : Nat} :
    r.setBegin begin = .ok s ↔ s.begin = begin ∧ s.last = r.last ∧ s.attr = r.attr := make_ok

theorem set_last_ok {r s : Region W} {last : Nat} :
    r.setLast last = .ok s ↔ s.begin = r.begin ∧ s.last = last ∧ s.attr = r.attr := make_ok

@[simp] theorem before_iff {r o : Region W} : r.before o = true ↔ r.last < o.begin := by
  simp [before]

@[simp] theorem before_eq_false_iff {r o : Region W} : r.before o = false ↔ o.begin ≤ r.last := by
  simp [before]

@[simp] theorem overlaps_iff {r o : Region W} :
    r.overlaps o = true ↔ o.begin ≤ r.last ∧ r.begin ≤ o.last := by
  simp [overlaps]

@[simp] theorem overlaps_eq_false_iff {r o : Region W} :
    r.overlaps o = false ↔ r.last < o.begin ∨ o.last < r.begin := by
  rw [← Bool.not_eq_true, overlaps_iff]
  omega

@[simp] theorem contains_iff {r o : Region W} :
    r.contains o = true ↔ r.begin ≤ o.begin ∧ o.last ≤ r.last := by
  simp [contains]

theorem overlaps_comm (r o : Region W) : r.overlaps o = o.overlaps r := by
  rw [Bool.eq_iff_iff, overlaps_iff, overlaps_iff, And.comm]

/-- The size is the number of bytes unless the region is the whole address space. -/
theorem size_eq {r : Region W} (part : r.last - r.begin + 1 < W.modulus) :
    r.size = r.last - r.begin + 1 := by
  rw [size, W.sub_of_le r.ordered r.bounded, W.add_of_lt part]

theorem start_size_last {begin size : Nat} {attr : Attr} {r : Region W}
    (made : startSize begin size attr = .ok r) (sizeWord : size < W.modulus) :
    begin + size ≤ W.modulus ∧ r.begin = begin ∧ r.last = begin + size - 1 ∧ r.attr = attr := by
  obtain ⟨pos, sameBegin, sameLast, sameAttr⟩ := start_size_ok.mp made
  have beginWord : begin < W.modulus := by
    rw [← sameBegin]
    exact r.ordered.trans_lt r.bounded
  have fits : begin + size ≤ W.modulus := by
    by_contra wraps
    have below := W.last_of_wraps beginWord sizeWord (Nat.lt_of_not_le wraps)
    have ordered := r.ordered
    omega
  exact ⟨fits, sameBegin, sameLast.trans (W.last_of_fits pos fits), sameAttr⟩

theorem start_size_of_fits {begin size : Nat} (attr : Attr) (pos : 0 < size)
    (fits : begin + size ≤ W.modulus) :
    ∃ r : Region W, startSize begin size attr = .ok r ∧
      r.begin = begin ∧ r.last = begin + size - 1 ∧ r.attr = attr := by
  refine ⟨⟨begin, begin + size - 1, attr, by omega, by omega⟩, ?_, rfl, rfl, rfl⟩
  exact start_size_ok.mpr ⟨pos, rfl, (W.last_of_fits pos fits).symm, rfl⟩

theorem intersect_ok {r o : Region W} (overlap : r.overlaps o = true) :
    ∃ area : Region W, r.intersect o = .ok area ∧
      area.begin = max r.begin o.begin ∧ area.last = min r.last o.last := by
  rw [overlaps_iff] at overlap
  have rOrdered := r.ordered
  have oOrdered := o.ordered
  have rBounded := r.bounded
  refine ⟨⟨max r.begin o.begin, min r.last o.last, { r.attr with eager := false },
    by omega, by omega⟩, ?_, rfl, rfl⟩
  rw [intersect, if_pos (overlaps_iff.mpr overlap), make_ok]
  exact ⟨rfl, rfl, rfl⟩

end Region

/-! ## Region lists -/

structure RegionList (W : Wordsize) where
  reg : List (Region W)
  max : Nat
  maxCombinedSize : Nat
  addressLimit : Nat
  combinedSize : Nat
  deriving DecidableEq

namespace RegionList

variable {W : Wordsize}

def init (size : Nat) (maxCombinedSize : Nat := W.maxWord) (addressLimit : Nat := W.maxWord) :
    RegionList W where
  reg := []
  max := size
  maxCombinedSize := maxCombinedSize
  addressLimit := addressLimit
  combinedSize := 0

def find (l : RegionList W) (o : Region W) : Option (Region W) := l.reg.find? (·.overlaps o)

def findRev (l : RegionList W) (o : Region W) : Option (Region W) :=
  l.reg.reverse.find? (·.overlaps o)

/-- `Region_list::contains`. -/
def containing (l : RegionList W) (o : Region W) : Option (Region W) :=
  l.reg.find? (·.contains o)

/-- The merge condition of `optimize`. -/
def mergeable (c n : Region W) : Bool :=
  n.attr = c.attr && truncPage n.begin ≤ roundPage W c.last

/-- The walk of `optimize` with the cursor at `c` and the entries behind it. -/
def optimizeFrom (c : Region W) : List (Region W) → Checked (List (Region W))
  | [] => .ok [c]
  | n :: rest =>
      if mergeable c n then do
        let merged ← c.setLast n.last
        optimizeFrom merged rest
      else do
        let tail ← optimizeFrom n rest
        .ok (c :: tail)

def optimize (l : RegionList W) : Checked (RegionList W) :=
  match l.reg with
  | [] => .ok l
  | c :: rest => do
      let reg ← optimizeFrom c rest
      .ok { l with reg := reg }

/-- The insertion loop of `add_nolimitcheck`: in front of the first entry that
does not lie completely below the new region. -/
def insertFrom (region : Region W) (mayOverlap : Bool) :
    List (Region W) → Checked (List (Region W))
  | [] => .ok [region]
  | r :: rest =>
      if r.before region then do
        let tail ← insertFrom region mayOverlap rest
        .ok (r :: tail)
      else if !mayOverlap && !region.before r then panic "Region overlap"
      else .ok (region :: r :: rest)

def insert (reg : List (Region W)) (region : Region W) (mayOverlap : Bool) :
    Checked (List (Region W)) :=
  match reg.getLast? with
  | none => .ok [region]
  | some last =>
      if last.before region then .ok (reg ++ [region]) else insertFrom region mayOverlap reg

/-- The start of `add_nolimitcheck`: a full store is optimized first. -/
def makeRoom (l : RegionList W) : Checked (RegionList W) :=
  if l.max ≤ l.reg.length then do
    let merged ← l.optimize
    if merged.max ≤ merged.reg.length then panic "Region overflow" else .ok merged
  else .ok l

def addNolimitcheck (l : RegionList W) (region : Region W) (mayOverlap : Bool) :
    Checked (RegionList W) :=
  -- "Do not add empty regions": with an inclusive end this drops one-byte regions
  if region.begin = region.last then .ok l
  else do
    let l ← l.makeRoom
    let reg ← insert l.reg region mayOverlap
    .ok { l with reg := reg, combinedSize := W.add l.combinedSize region.size }

/-- The size limit of `add`, behind the address limit. -/
def addSizeLimited (l : RegionList W) (mem : Region W) (mayOverlap : Bool) :
    Checked (RegionList W) :=
  if l.maxCombinedSize ≤ l.combinedSize then .ok l
  else if l.maxCombinedSize < W.add l.combinedSize mem.size then do
    let mem ← mem.setLast
      (W.sub (W.sub (W.add mem.begin l.maxCombinedSize) l.combinedSize) 1)
    l.addNolimitcheck mem mayOverlap
  else l.addNolimitcheck mem mayOverlap

def add (l : RegionList W) (region : Region W) (mayOverlap : Bool := false) :
    Checked (RegionList W) :=
  if region.invalid then .ok l
  else if l.addressLimit < region.begin then .ok l
  else if l.addressLimit < region.last then do
    let mem ← region.setLast (W.sub l.addressLimit 1)
    l.addSizeLimited mem mayOverlap
  else l.addSizeLimited region mayOverlap

/-- `remove (r)` for the entry at position `index`. -/
def remove (l : RegionList W) (index : Nat) : RegionList W :=
  { l with reg := l.reg.eraseIdx index }

def removeIf (l : RegionList W) (condition : Region W → Bool) : RegionList W :=
  { l with reg := l.reg.filter (fun r => !condition r) }

/-- `sub`: cut `r` out of the first entry that contains it. The entries before
and behind that entry are `front` and `back`. -/
def sub (l : RegionList W) (r : Region W) : Checked (Bool × RegionList W) :=
  let front := l.reg.takeWhile (fun c => !c.contains r)
  match l.reg.dropWhile (fun c => !c.contains r) with
  | [] => .ok (false, l)
  | c :: back =>
      if c.begin = r.begin ∧ c.last = r.last then
        .ok (true, { l with reg := front ++ back })
      else if c.begin = r.begin then do
        let c ← c.setBegin (W.add r.last 1)
        .ok (true, { l with reg := front ++ c :: back })
      else if c.last = r.last then do
        let c ← c.setLast (W.sub r.begin 1)
        .ok (true, { l with reg := front ++ c :: back })
      else do
        let tail ← c.setBegin (W.add r.last 1)
        let c ← c.setLast (W.sub r.begin 1)
        let l ← ({ l with reg := front ++ c :: back } : RegionList W).add tail
        .ok (true, l)

end RegionList

end L4Bootstrap
