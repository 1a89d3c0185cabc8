import L4Bootstrap.Dt.Fdt
import L4Bootstrap.Riscv.IsaParser
import Mathlib.Data.Fintype.Pi
import Mathlib.Data.List.Perm.Basic

/-!
# The ISA extensions of all harts

`parse_isa_ext` of `platform_riscv.cc` with the bitmaps that it merges. The ids of
the extensions and the number of words of `isa_ext` come from a header of the
kernel, and every id has its bit in these words.
-/

set_option autoImplicit false

namespace L4Bootstrap.Riscv

open Dt

/-- `Words`, and the id of `sstc`. The ids of the single letters are their places in the
alphabet. -/
structure IsaIds where
  words : Nat
  sstc : Nat
  someWord : 0 < words
  sstcBit : sstc < 32 * words

/-- `Isa_ext_bitmap`. -/
abbrev Bitmap (I : IsaIds) := Fin I.words → BitVec 32

namespace Bitmap

variable {I : IsaIds}

def zero (I : IsaIds) : Bitmap I := fun _ => 0

/-- The word of an extension. -/
def wordOf (ext : Fin (32 * I.words)) : Fin I.words := ⟨ext.val / 32, by omega⟩

def set (b : Bitmap I) (ext : Fin (32 * I.words)) : Bitmap I :=
  Function.update b (wordOf ext) (b (wordOf ext) ||| 1#32 <<< (ext.val % 32))

def empty (b : Bitmap I) : Bool := decide (∀ i, b i = 0)

/-- `operator &=`. -/
def and (b o : Bitmap I) : Bitmap I := fun i => b i &&& o i

/-- The bytes of the words in memory, the lowest first. -/
def byte (b : Bitmap I) (j : Nat) : BitVec 8 :=
  if inside : j / 4 < I.words then (b ⟨j / 4, inside⟩).extractLsb' (8 * (j % 4)) 8 else 0

def ofBytes (I : IsaIds) (bytes : Nat → BitVec 8) : Bitmap I := fun i =>
  bytes (4 * i + 3) ++ bytes (4 * i + 2) ++ bytes (4 * i + 1) ++ bytes (4 * i)

def memcpy (dst src : Bitmap I) (n : Nat) : Bitmap I :=
  ofBytes I fun j => if j < n then src.byte j else dst.byte j

end Bitmap

variable (I : IsaIds) (fdt : Fdt)

/-- `isa_ext_def`. -/
def isaExtDef : List (List Char × Fin (32 * I.words)) := [("sstc".toList, ⟨I.sstc, I.sstcBit⟩)]

def letterId (c : Char) (letter : 'a' ≤ c ∧ c ≤ 'z') : Fin (32 * I.words) :=
  ⟨c.toNat - 'a'.toNat, by
    have least : c.toNat ≤ 'z'.toNat := letter.2
    have code : 'z'.toNat = 122 ∧ 'a'.toNat = 97 := ⟨rfl, rfl⟩
    have := I.someWord
    omega⟩

/-- The ids that one extension sets in the bitmap. -/
def extIds (ext : List Char) : List (Fin (32 * I.words)) :=
  match ext with
  | [c] =>
      if letter : 'a' ≤ c ∧ c ≤ 'z' then [letterId I c letter] else namedIds [c]
  | ext => namedIds ext
where
  /-- Equal up to the case of the letters. -/
  namedIds (ext : List Char) : List (Fin (32 * I.words)) :=
    ((isaExtDef I).filter fun d =>
      ext.length = d.1.length && ext.map Char.toLower = d.1.map Char.toLower).map Prod.snd

/-- `starts_with(isa, "rv32")` or `starts_with(isa, "rv64")`. -/
def validIsa (isa : List Char) : Bool := "rv32".toList.isPrefixOf isa || "rv64".toList.isPrefixOf isa

/-- `tmp_isa_ext` behind the loop over the extensions. -/
def parsedExts (isa : List Char) : Bitmap I :=
  (((isaExtensions (isa.drop 4)).map Prod.fst).getD []).foldl
    (fun b ext => (extIds I ext).foldl Bitmap.set b) (Bitmap.zero I)

def riscvCpuIsa (cpu : Int) : Option (List Char) :=
  if !fdt.checkDeviceType cpu "cpu" then none
  else if !fdt.checkCompatible cpu "riscv" then none
  else if !fdt.isEnabled cpu then none
  else fdt.getPropStr cpu "riscv,isa"

/-- The callback of `parse_isa_ext`. -/
def mergeCpu (isaExt : Bitmap I) (cpu : Int) : Bitmap I :=
  match riscvCpuIsa fdt cpu with
  | none => isaExt
  | some isa =>
      if !validIsa isa then isaExt
      else if isaExt.empty then parsedExts I isa
      else isaExt.and (parsedExts I isa)

/-- The result with `arch_info.isa_ext` behind the call. The size of the copy is the number
of words. -/
def parseIsaExt (archIsaExt : Bitmap I) : Bool × Bitmap I :=
  let cpus := fdt.pathOffset "/cpus"
  if cpus < 0 then (false, archIsaExt)
  else
    let isaExt := (fdt.subnodes cpus).foldl (mergeCpu I fdt) (Bitmap.zero I)
    if isaExt.empty then (false, archIsaExt) else (true, archIsaExt.memcpy isaExt I.words)

/-! ## Bitmaps as sets of extensions -/

namespace Bitmap

variable {I}

theorem and_comm (a b : Bitmap I) : a.and b = b.and a :=
  funext fun i => BitVec.and_comm (a i) (b i)

theorem and_assoc (a b c : Bitmap I) : (a.and b).and c = a.and (b.and c) :=
  funext fun i => BitVec.and_assoc (a i) (b i) (c i)

instance : LeftCommutative (α := Bitmap I) and where
  left_comm a b c := by rw [← and_assoc, and_comm a b, and_assoc]

theorem zero_and (b : Bitmap I) : (zero I).and b = zero I := funext fun _ => BitVec.zero_and

theorem empty_iff (b : Bitmap I) : b.empty = true ↔ b = zero I := by
  rw [empty, decide_eq_true_eq]
  exact funext_iff.symm

def ones (I : IsaIds) : Bitmap I := fun _ => BitVec.allOnes 32

theorem and_ones (b : Bitmap I) : b.and (ones I) = b := funext fun _ => BitVec.and_allOnes

theorem ones_ne_zero (I : IsaIds) : ones I ≠ zero I := by
  intro same
  have words : BitVec.allOnes 32 = 0 := congrFun same ⟨0, I.someWord⟩
  exact absurd words (by decide)

/-- The bytes of a word, the lowest first. -/
theorem word_byte (bytes : Nat → BitVec 8) (i : Nat) {k : Nat} (place : k < 4) :
    (bytes (i + 3) ++ bytes (i + 2) ++ bytes (i + 1) ++ bytes i : BitVec 32).extractLsb' (8 * k) 8 =
      bytes (i + k) := by
  apply BitVec.eq_of_getLsbD_eq
  intro n small
  rw [BitVec.getLsbD_extractLsb']
  obtain rfl | rfl | rfl | rfl : k = 0 ∨ k = 1 ∨ k = 2 ∨ k = 3 := by omega
  all_goals
    simp only [BitVec.getLsbD_append, small, decide_true, Bool.true_and]
    split_ifs <;> first
      | omega
      | exact congrArg _ (by omega)

theorem byte_of_bytes (bytes : Nat → BitVec 8) {j : Nat} (inside : j < 4 * I.words) :
    (ofBytes I bytes).byte j = bytes j := by
  have word : j / 4 < I.words := by omega
  have place : j % 4 < 4 := Nat.mod_lt _ (by decide)
  rw [byte, dif_pos word]
  exact (word_byte bytes (4 * (j / 4)) place).trans (congrArg bytes (Nat.div_add_mod j 4))

theorem eq_iff_bytes (b o : Bitmap I) : b = o ↔ ∀ j < 4 * I.words, b.byte j = o.byte j := by
  constructor
  · rintro rfl j _
    rfl
  · intro same
    funext i
    apply BitVec.eq_of_getLsbD_eq
    intro n small
    have bytes := same (4 * i + n / 8) (by omega)
    have word : (4 * i.val + n / 8) / 4 = i := by omega
    have place : 8 * ((4 * i + n / 8) % 4) + n % 8 = n := by omega
    have bits := congrArg (fun v => v.getLsbD (n % 8)) bytes
    simp only [byte, word, i.isLt, dite_true, Fin.eta,
      BitVec.getLsbD_extractLsb', place, Nat.mod_lt n (by decide : 0 < 8), decide_true,
      Bool.true_and] at bits
    exact bits

theorem byte_zero (j : Nat) : (zero I).byte j = 0 := by
  unfold byte zero
  split_ifs
  · exact BitVec.extractLsb'_zero
  · rfl

/-- A copy that ends before the end of the words gives the wanted words if the bytes
behind it are theirs already. -/
theorem memcpy_eq_iff (dst src whole : Bitmap I) (n : Nat) :
    dst.memcpy src n = whole ↔ (∀ j < 4 * I.words, j < n → src.byte j = whole.byte j) ∧
      ∀ j < 4 * I.words, n ≤ j → dst.byte j = whole.byte j := by
  rw [eq_iff_bytes]
  have copied : ∀ j < 4 * I.words,
      (dst.memcpy src n).byte j = if j < n then src.byte j else dst.byte j := fun j inside =>
    byte_of_bytes _ inside
  constructor
  · intro same
    refine ⟨fun j inside front => ?_, fun j inside behind => ?_⟩
    · rw [← same j inside, copied j inside, if_pos front]
    · rw [← same j inside, copied j inside, if_neg (by omega)]
  · rintro ⟨front, behind⟩ j inside
    rw [copied j inside]
    split_ifs with less
    · exact front j inside less
    · exact behind j inside (by omega)

/-- The bit of an extension. -/
def has (b : Bitmap I) (ext : Fin (32 * I.words)) : Bool := (b (wordOf ext)).getLsbD (ext.val % 32)

theorem has_zero (ext : Fin (32 * I.words)) : (zero I).has ext = false := BitVec.getLsbD_zero

theorem has_set (b : Bitmap I) (e ext : Fin (32 * I.words)) :
    (set b e).has ext = (decide (ext = e) || b.has ext) := by
  have place : ext.val % 32 < 32 := Nat.mod_lt _ (by decide)
  have same : ext = e ↔ wordOf ext = wordOf e ∧ ext.val % 32 = e.val % 32 := by
    rw [Fin.ext_iff, Fin.ext_iff]
    change _ ↔ ext.val / 32 = e.val / 32 ∧ _
    omega
  unfold has set
  by_cases inWord : wordOf ext = wordOf e
  · have bit : (1#32 <<< (e.val % 32)).getLsbD (ext.val % 32) = decide (ext = e) := by
      rw [BitVec.getLsbD_shiftLeft, BitVec.getLsbD_one, Bool.eq_iff_iff]
      simp only [Bool.and_eq_true, Bool.not_eq_true', decide_eq_true_eq, decide_eq_false_iff_not,
        same, inWord, true_and]
      omega
    rw [inWord, Function.update_self, BitVec.getLsbD_or, bit, Bool.or_comm]
  · have other : ext ≠ e := fun eq => inWord (same.mp eq).1
    rw [Function.update_of_ne inWord, decide_eq_false other, Bool.false_or]

/-! ## The common subset -/

/-- The bitwise AND of bitmaps. -/
def common (bitmaps : List (Bitmap I)) : Bitmap I := bitmaps.foldr and (ones I)

theorem common_perm {bitmaps order : List (Bitmap I)} (perm : order.Perm bitmaps) :
    common order = common bitmaps :=
  perm.foldr_eq _

theorem common_concat (bitmaps : List (Bitmap I)) (b : Bitmap I) :
    common (bitmaps ++ [b]) = (common bitmaps).and b := by
  rw [common_perm List.perm_append_comm, List.singleton_append, and_comm]
  rfl

/-- The accumulator takes the next bitmap as it is when it is empty. -/
def merge (acc b : Bitmap I) : Bitmap I := if acc.empty then b else acc.and b

/-- Bitmaps with nothing in common, though without the last one they have. -/
def JustDisjoint (group : List (Bitmap I)) : Prop :=
  common group = zero I ∧ common group.dropLast ≠ zero I

/-- In front of the rest, the list is made of groups that are just disjoint. -/
def RestartsWith (rest bitmaps : List (Bitmap I)) : Prop :=
  ∃ groups : List (List (Bitmap I)), bitmaps = groups.flatten ++ rest ∧
    ∀ group ∈ groups, JustDisjoint group

theorem common_drop_last {bitmaps : List (Bitmap I)} (shared : common bitmaps ≠ zero I) :
    common bitmaps.dropLast ≠ zero I := by
  induction bitmaps using List.reverseRecOn with
  | nil => exact shared
  | append_singleton front b _ =>
      rw [List.dropLast_concat]
      intro gone
      rw [common_concat, gone, zero_and] at shared
      exact shared rfl

/-- The accumulator is the common subset until it is empty. -/
theorem merge_common {bitmaps : List (Bitmap I)} (some : bitmaps ≠ [])
    (lasting : common bitmaps.dropLast ≠ zero I) :
    bitmaps.foldl merge (zero I) = common bitmaps := by
  induction bitmaps using List.reverseRecOn with
  | nil => exact absurd rfl some
  | append_singleton front b ih =>
      rw [List.dropLast_concat] at lasting
      rw [List.foldl_append, List.foldl_cons, List.foldl_nil]
      rcases eq_or_ne front [] with rfl | more
      · have start : merge (zero I) b = b := if_pos ((empty_iff _).mpr rfl)
        rw [List.foldl_nil, start]
        exact (and_ones b).symm
      · rw [ih more (common_drop_last lasting), merge, if_neg (mt (empty_iff _).mp lasting),
          common_concat]

theorem merge_groups {groups : List (List (Bitmap I))}
    (disjoint : ∀ group ∈ groups, JustDisjoint group) :
    groups.flatten.foldl merge (zero I) = zero I := by
  induction groups with
  | nil => rfl
  | cons group rest ih =>
      obtain ⟨nothing, lasting⟩ := disjoint group List.mem_cons_self
      have some : group ≠ [] := by
        rintro rfl
        exact ones_ne_zero I nothing
      rw [List.flatten_cons, List.foldl_append, merge_common some lasting, nothing]
      exact ih fun other member => disjoint other (List.mem_cons_of_mem _ member)

theorem merge_rest {rest bitmaps : List (Bitmap I)} (restarts : RestartsWith rest bitmaps)
    (some : rest ≠ []) (shared : common rest ≠ zero I) :
    bitmaps.foldl merge (zero I) = common rest := by
  obtain ⟨groups, rfl, disjoint⟩ := restarts
  rw [List.foldl_append, merge_groups disjoint, merge_common some (common_drop_last shared)]

/-- Every list has such a rest, which is empty when the accumulator is. -/
theorem exists_rest (bitmaps : List (Bitmap I)) :
    ∃ rest, RestartsWith rest bitmaps ∧
      (rest = [] ∧ bitmaps.foldl merge (zero I) = zero I ∨ rest ≠ [] ∧ common rest ≠ zero I) := by
  induction bitmaps using List.reverseRecOn with
  | nil => exact ⟨[], ⟨[], rfl, by simp⟩, .inl ⟨rfl, rfl⟩⟩
  | append_singleton front b ih =>
      obtain ⟨rest, restarts, either⟩ := ih
      have before : common rest ≠ zero I := by
        rcases either with ⟨rfl, _⟩ | ⟨_, shared⟩
        · exact ones_ne_zero I
        · exact shared
      obtain ⟨groups, rfl, disjoint⟩ := restarts
      by_cases gone : common (rest ++ [b]) = zero I
      · have closed : RestartsWith [] (groups.flatten ++ rest ++ [b]) := by
          refine ⟨groups ++ [rest ++ [b]], by simp, fun group member => ?_⟩
          rcases List.mem_append.mp member with old | new
          · exact disjoint group old
          · rw [List.mem_singleton.mp new]
            exact ⟨gone, by rwa [List.dropLast_concat]⟩
        refine ⟨[], closed, .inl ⟨rfl, ?_⟩⟩
        obtain ⟨all, same, allDisjoint⟩ := closed
        rw [same, List.append_nil, merge_groups allDisjoint]
      · exact ⟨rest ++ [b], ⟨groups, List.append_assoc _ _ _, disjoint⟩, .inr ⟨by simp, gone⟩⟩

theorem common_has (bitmaps : List (Bitmap I)) (ext : Fin (32 * I.words)) :
    (common bitmaps).has ext = bitmaps.all (·.has ext) := by
  have place : ext.val % 32 < 32 := Nat.mod_lt _ (by decide)
  induction bitmaps with
  | nil =>
      change (BitVec.allOnes 32).getLsbD (ext.val % 32) = true
      rw [BitVec.getLsbD_allOnes, decide_eq_true place]
  | cons b bitmaps ih =>
      rw [List.all_cons, ← ih]
      exact BitVec.getLsbD_and

/-- The old bytes complete the common subset; if there is none, the harts behind just disjoint
groups have a subset that lies behind the bytes that are copied. -/
def Completes (old : Bitmap I) (bitmaps : List (Bitmap I)) : Prop :=
  (common bitmaps ≠ zero I ∧
    ∀ j < 4 * I.words, I.words ≤ j → old.byte j = (common bitmaps).byte j) ∨
  (common bitmaps = zero I ∧
    (∃ rest, RestartsWith rest bitmaps ∧ rest ≠ [] ∧ common rest ≠ zero I ∧
      ∀ j < I.words, (common rest).byte j = 0) ∧
    ∀ j < 4 * I.words, I.words ≤ j → old.byte j = 0)

theorem completes_iff (old : Bitmap I) {bitmaps : List (Bitmap I)} (some : bitmaps ≠ []) :
    bitmaps.foldl merge (zero I) ≠ zero I ∧
      old.memcpy (bitmaps.foldl merge (zero I)) I.words = common bitmaps ↔
    Completes old bitmaps := by
  rw [memcpy_eq_iff]
  by_cases shared : common bitmaps = zero I
  · have zeros : ∀ j, (common bitmaps).byte j = 0 := fun j => by rw [shared, byte_zero]
    simp only [zeros]
    constructor
    · rintro ⟨kept, front, behind⟩
      obtain ⟨rest, restarts, ⟨_, gone⟩ | ⟨more, isShared⟩⟩ := exists_rest bitmaps
      · exact absurd gone kept
      · rw [merge_rest restarts more isShared] at front
        exact Or.inr ⟨shared, ⟨rest, restarts, more, isShared,
          fun j less => front j (by omega) less⟩, behind⟩
    · rintro (⟨other, _⟩ | ⟨_, ⟨rest, restarts, more, isShared, front⟩, behind⟩)
      · exact absurd shared other
      · rw [merge_rest restarts more isShared]
        exact ⟨isShared, fun j _ less => front j less, behind⟩
  · rw [merge_common some (common_drop_last shared)]
    constructor
    · rintro ⟨_, _, behind⟩
      exact Or.inl ⟨shared, behind⟩
    · rintro (⟨_, behind⟩ | ⟨other, _⟩)
      · exact ⟨shared, fun j _ _ => rfl, behind⟩
      · exact absurd other shared

end Bitmap

open Bitmap

theorem set_all_has (b : Bitmap I) (ids : List (Fin (32 * I.words))) (ext : Fin (32 * I.words)) :
    (ids.foldl Bitmap.set b).has ext = true ↔ ext ∈ ids ∨ b.has ext = true := by
  induction ids generalizing b with
  | nil => simp
  | cons e ids ih =>
      rw [List.foldl_cons, ih, has_set, Bool.or_eq_true, decide_eq_true_eq, List.mem_cons]
      tauto

/-- A bitmap holds the ids of the extensions that the parser finds. -/
theorem parsed_has {isa : List Char} {names : List (List Char)} {hasErr : Bool}
    (found : isaExtensions (isa.drop 4) = some (names, hasErr)) (ext : Fin (32 * I.words)) :
    (parsedExts I isa).has ext = true ↔ ∃ name ∈ names, ext ∈ extIds I name := by
  have runs : ∀ b : Bitmap I, (names.foldl (fun b name => (extIds I name).foldl Bitmap.set b) b).has
      ext = true ↔ (∃ name ∈ names, ext ∈ extIds I name) ∨ b.has ext = true := by
    clear found
    intro b
    induction names generalizing b with
    | nil => simp
    | cons name names ih =>
        rw [List.foldl_cons, ih, set_all_has, List.exists_mem_cons_iff, or_assoc, or_left_comm]
  rw [parsedExts, found]
  exact (runs _).trans (by simp [has_zero])

/-- The AND of the bitmaps holds an extension that each of the ISA strings names. -/
theorem common_parsed_has (isas : List (List Char)) (ext : Fin (32 * I.words)) :
    (common (isas.map (parsedExts I))).has ext = true ↔
      ∀ isa ∈ isas, ∃ names hasErr, isaExtensions (isa.drop 4) = some (names, hasErr) ∧
        ∃ name ∈ names, ext ∈ extIds I name := by
  rw [common_has, List.all_map, List.all_eq_true]
  refine forall₂_congr fun isa _ => ?_
  have enough : (⟨none, isa.drop 4⟩ : Cursor).rest.length < (isa.drop 4).length + 1 :=
    Nat.lt_succ_self _
  obtain ⟨names, hasErr, found⟩ := extensions_total false enough
  have found : isaExtensions (isa.drop 4) = some (names, hasErr) := found
  constructor
  · intro holds
    exact ⟨names, hasErr, found, (parsed_has I found ext).mp holds⟩
  · rintro ⟨other, flag, sameFound, named⟩
    exact (parsed_has I sameFound ext).mpr named

/-- The CPU nodes of the tree. -/
def cpuNodes : List Int :=
  if fdt.pathOffset "/cpus" < 0 then [] else fdt.subnodes (fdt.pathOffset "/cpus")

/-- The valid ISA strings of the CPUs, in the order of the nodes. -/
def validIsas : List (List Char) := ((cpuNodes fdt).filterMap (riscvCpuIsa fdt)).filter validIsa

theorem merge_cpus (acc : Bitmap I) (cpus : List Int) :
    cpus.foldl (mergeCpu I fdt) acc =
      (((cpus.filterMap (riscvCpuIsa fdt)).filter validIsa).map (parsedExts I)).foldl merge acc := by
  induction cpus generalizing acc with
  | nil => rfl
  | cons cpu cpus ih =>
      rw [List.foldl_cons, ih]
      cases isIsa : riscvCpuIsa fdt cpu with
      | none => simp only [mergeCpu, isIsa, List.filterMap_cons_none isIsa]
      | some isa =>
          rw [List.filterMap_cons_some isIsa]
          by_cases valid : validIsa isa = true
          · rw [List.filter_cons_of_pos valid, List.map_cons, List.foldl_cons]
            simp only [mergeCpu, isIsa, valid, Bool.not_true, Bool.false_eq_true, if_false]
            rfl
          · rw [List.filter_cons_of_neg valid]
            simp only [mergeCpu, isIsa, valid, Bool.not_false, if_true]

theorem parse_isa_ext_eq (old : Bitmap I) :
    parseIsaExt I fdt old =
      let isaExt := ((validIsas fdt).map (parsedExts I)).foldl merge (zero I)
      if isaExt = zero I then (false, old) else (true, old.memcpy isaExt I.words) := by
  have start : (zero I).empty = true := (empty_iff _).mpr rfl
  unfold validIsas cpuNodes
  rw [← merge_cpus]
  by_cases missing : fdt.pathOffset "/cpus" < 0
  · simp only [parseIsaExt, missing, if_true, List.foldl_nil]
  · simp only [parseIsaExt, missing, if_false, empty_iff]

/-- The call fails exactly without a valid CPU, and otherwise leaves the bitwise AND of the
bitmaps of the valid CPUs in whichever order. -/
structure ParsesSubset (result : Bool × Bitmap I) : Prop where
  failed : result.1 = false ↔ validIsas fdt = []
  subset : validIsas fdt ≠ [] → ∀ order : List (List Char), order.Perm (validIsas fdt) →
    result.2 = common (order.map (parsedExts I))

theorem parse_isa_ext_subset_iff (old : Bitmap I) :
    ParsesSubset I fdt (parseIsaExt I fdt old) ↔
      validIsas fdt = [] ∨ Completes old ((validIsas fdt).map (parsedExts I)) := by
  rw [parse_isa_ext_eq]
  by_cases none : validIsas fdt = []
  · simp only [none, List.map_nil, List.foldl_nil, if_true, true_or, iff_true]
    exact ⟨by simp [none], fun some => absurd none some⟩
  · have some : (validIsas fdt).map (parsedExts I) ≠ [] := by simpa using none
    rw [← completes_iff old some]
    simp only [none, false_or]
    split_ifs with gone
    · constructor
      · intro parses
        exact absurd (parses.failed.mp rfl) none
      · rintro ⟨kept, _⟩
        exact absurd gone kept
    · constructor
      · intro parses
        exact ⟨gone, parses.subset none _ (List.Perm.refl _)⟩
      · rintro ⟨_, copied⟩
        refine ⟨by simp [none], fun _ order perm => ?_⟩
        rw [common_perm (perm.map (parsedExts I))]
        exact copied

/-- A tree of CPUs with the given ISA strings, which end with a NUL. -/
def cpuTree (isas : List (List UInt8)) (short : ∀ isa ∈ isas, isa.length < 2 ^ 31) : Fdt where
  walk := [(0, 1), (1, 2)]
  parentOffset _ := 0
  getprop node name :=
    if node < 2 then none
    else if name = "device_type" then some [0x63, 0x70, 0x75, 0]
    else if name = "riscv,isa" then isas[node.toNat - 2]?
    else none
  addressCells _ := 1
  sizeCells _ := 0
  pathOffset path := if path = "/cpus" then 1 else -1
  subnodes node := if node = 1 then (List.range isas.length).map fun i => (i : Int) + 2 else []
  nodeOffsetByPhandle _ := -1
  nodeOffsetByPropValue _ _ _ := -1
  nodeCheckCompatible _ compatible := if compatible = "riscv" then 0 else 1
  shortProps node name value isValue := by
    split_ifs at isValue
    · cases isValue
      decide
    · exact short value (List.mem_of_getElem? isValue)

/-- The ids of a kernel with 64 bits for the extensions. -/
def someIds : IsaIds := ⟨2, 26, by decide, by decide⟩

/-- `rv64i`, `rv64e` and `rv64i`. -/
def disjointCpus : Fdt :=
  cpuTree [[0x72, 0x76, 0x36, 0x34, 0x69, 0], [0x72, 0x76, 0x36, 0x34, 0x65, 0],
    [0x72, 0x76, 0x36, 0x34, 0x69, 0]] (by decide)

/-- The third of three CPUs without an extension in common decides alone. -/
theorem parse_isa_ext_last_cpu :
    parseIsaExt someIds disjointCpus (zero someIds) =
        (true, set (zero someIds) ⟨8, by decide⟩) ∧
      ¬ParsesSubset someIds disjointCpus
        (parseIsaExt someIds disjointCpus (zero someIds)) := by
  have result : parseIsaExt someIds disjointCpus (zero someIds) =
      (true, set (zero someIds) ⟨8, by decide⟩) := by
    decide +kernel
  have nothing : common ((validIsas disjointCpus).map (parsedExts someIds)) = zero someIds := by
    decide +kernel
  refine ⟨result, fun parses => ?_⟩
  have some : validIsas disjointCpus ≠ [] := by decide +kernel
  have subset := parses.subset some _ (List.Perm.refl _)
  rw [nothing, result] at subset
  exact absurd subset (by decide +kernel)

end L4Bootstrap.Riscv
