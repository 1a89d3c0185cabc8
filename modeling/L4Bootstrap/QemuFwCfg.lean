import L4Bootstrap.Lib.ByteImage
import L4Bootstrap.Support

/-!
# The firmware configuration of QEMU

`qemu_fw_cfg.cc`: configuration items are found by name in a directory and transferred
by DMA from or to the selected item, which the device remembers with an offset. The
device is a parameter. `read_str` puts an item into a buffer as a string; it lets the
item fill the whole buffer and then writes the zero behind it.
-/

namespace L4Bootstrap

open MachineWord CheckedLoop CheckedState ByteMemory

set_option autoImplicit false

/-- What the loop over the status of a DMA descriptor sees: all bits get cleared, the
error bit stays, or neither happens. -/
inductive Completion (α : Type)
  | done (outcome : α)
  | failed
  | pending

/-- A DMA descriptor, with the bytes that the device finds in the buffer of a write. -/
inductive DmaTransfer
  | read (length : Nat)
  | write (data : List UInt8)
  deriving DecidableEq, Repr

def DmaTransfer.length : DmaTransfer → Nat
  | .read length => length
  | .write data => data.length

/-- The device: its state behind a selection, and behind a transfer with the bytes that
a read has delivered. -/
structure FwCfgDevice (σ : Type) where
  select : Nat → σ → σ
  transfer : DmaTransfer → σ → Completion (List UInt8 × σ)
  length_read : ∀ {length : Nat} {state next : σ} {data : List UInt8},
    transfer (.read length) state = .done (data, next) → data.length = length

/-- `_fw_cfg_present`, the device with the descriptors it has got, and the memory. -/
structure FwCfg (σ : Type) where
  present : Bool
  device : σ
  transfers : List DmaTransfer
  bytes : Bytes

abbrev FwCfgRun (σ : Type) := EStateM Stop (FwCfg σ)

namespace FwCfg

variable {σ : Type}

/-- The bytes of all transfers so far. -/
def transferred (fw : FwCfg σ) : Nat := (fw.transfers.map DmaTransfer.length).sum

def fileDir : Nat := 0x19

def select (d : FwCfgDevice σ) (selector : Nat) : FwCfgRun σ Unit := do
  if ¬ (← get).present then lift (panic "fw_cfg: Not present.")
  modify fun fw => { fw with device := d.select selector fw.device }

/-- "Wait for transfer to complete." -/
def awaitTransfer : Completion (List UInt8 × σ) → FwCfgRun σ (List UInt8)
  | .failed => lift (panic "fw_cfg: DMA transfer failed.")
  | .pending => lift (.error .diverges)
  | .done (data, next) => do
      modify fun fw => { fw with device := next }
      return data

def dmaTransfer (d : FwCfgDevice σ) (transfer : DmaTransfer) : FwCfgRun σ (List UInt8) := do
  if transfer.length = 0 then return []
  modify fun fw => { fw with transfers := fw.transfers ++ [transfer] }
  awaitTransfer (d.transfer transfer (← get).device)

/-- `read_bytes` into an object whose bytes are the result; `read<T>` is this with the
size of `T`. -/
def read (d : FwCfgDevice σ) (size : Nat) : FwCfgRun σ (List UInt8) := do
  if ¬ (← get).present then lift (panic "fw_cfg: Not present.")
  dmaTransfer d (.read size)

/-- `read_bytes` into the memory at `buffer`. -/
def readBytes (d : FwCfgDevice σ) (size buffer : Nat) : FwCfgRun σ Unit := do
  let data ← read d size
  modify fun fw => { fw with bytes := writeList buffer data fw.bytes }

def writeBytes (d : FwCfgDevice σ) (data : List UInt8) : FwCfgRun σ Unit := do
  if ¬ (← get).present then lift (panic "fw_cfg: Not present.")
  let _ ← dmaTransfer d (.write data)

/-- The loop of `find_file` over the entries that are left, with its `strncmp`. -/
def findFileFrom (d : FwCfgDevice σ) (name : List UInt8) : Nat → FwCfgRun σ (Option (Nat × Nat))
  | 0 => return none
  | count + 1 => do
      let file ← read d 64
      if (file.drop 8).takeWhile (· ≠ 0) = name.take 56 then
        return some (beAt file 4 2, beAt file 0 4)
      findFileFrom d name count

/-- Selector and size of an item. -/
def findFile (d : FwCfgDevice σ) (name : List UInt8) : FwCfgRun σ (Option (Nat × Nat)) := do
  select d fileDir
  let dir ← read d 4
  findFileFrom d name (beAt dir 0 4)

def selectFile (d : FwCfgDevice σ) (name : List UInt8) : FwCfgRun σ Nat := do
  match ← findFile d name with
  | none => return 0
  | some (sel, size) =>
      select d sel
      return size

/-- `read_str` with a buffer of `n` characters. -/
def readStr (d : FwCfgDevice σ) (n len buffer : Nat) : FwCfgRun σ Unit := do
  if n = 0 then return
  let len := if n ≤ len then n else len
  readBytes d len buffer
  modify fun fw => { fw with bytes := writeList (buffer + len) [0] fw.bytes }

/-! ## A string in its buffer -/

/-- What `read_str` owes its callers: as much of the item as fits in front of the
terminating zero, and nothing outside of the buffer. -/
structure StringRead (n len buffer : Nat) (before after : FwCfg σ) : Prop where
  transferred : after.transferred = before.transferred + min len (n - 1)
  terminated : after.bytes (buffer + min len (n - 1)) = 0
  frame : ∀ a, a < buffer ∨ buffer + n ≤ a → after.bytes a = before.bytes a

section

variable {d : FwCfgDevice σ} {before : FwCfg σ} {n len size buffer : Nat}

theorem dma_transfer_done {transfer : DmaTransfer} {data : List UInt8} {next : σ}
    (positive : transfer.length ≠ 0)
    (done : d.transfer transfer before.device = .done (data, next)) :
    dmaTransfer d transfer before = .ok data
      { before with device := next, transfers := before.transfers ++ [transfer] } := by
  unfold dmaTransfer
  rw [if_neg positive]
  change awaitTransfer (d.transfer transfer before.device) _ = _
  rw [done]
  rfl

theorem read_present (present : before.present = true) :
    read d size before = dmaTransfer d (.read size) before := by
  unfold read
  change (if ¬ before.present then _ else _ : FwCfgRun σ _) before = _
  rw [if_neg (by simp [present])]

/-- A device that completes the transfer fills the first `size` bytes of the buffer. -/
theorem read_bytes_fills (present : before.present = true)
    (completes : size ≠ 0 → ∃ outcome, d.transfer (.read size) before.device = .done outcome) :
    ∃ data after, readBytes d size buffer before = .ok () after ∧ data.length = size ∧
      after.bytes = writeList buffer data before.bytes ∧
      after.transferred = before.transferred + size := by
  by_cases empty : size = 0
  · refine ⟨[], { before with bytes := writeList buffer [] before.bytes }, ?_, by simp [empty],
      rfl, by simp [transferred, empty]⟩
    have nothing : read d size before = .ok [] before := by
      rw [read_present present, dmaTransfer,
        if_pos (show (DmaTransfer.read size).length = 0 from empty)]
      rfl
    change EStateM.bind (read d size) _ before = _
    rw [EStateM.bind, nothing]
    rfl
  · obtain ⟨⟨data, next⟩, done⟩ := completes empty
    refine ⟨data, { before with
      device := next
      transfers := before.transfers ++ [.read size]
      bytes := writeList buffer data before.bytes }, ?_, d.length_read done, rfl,
      by simp [transferred, DmaTransfer.length]⟩
    have filled := (read_present present (d := d)).trans (dma_transfer_done empty done)
    change EStateM.bind (read d size) _ before = _
    rw [EStateM.bind, filled]
    rfl

/-- A buffer that is too small for the item is filled to its end, and the zero comes
behind it. -/
theorem read_str_writes (nonempty : 1 ≤ n) (present : before.present = true)
    (completes : min len n ≠ 0 →
      ∃ outcome, d.transfer (.read (min len n)) before.device = .done outcome) :
    ∃ data after, readStr d n len buffer before = .ok () after ∧ data.length = min len n ∧
      after.bytes = writeList (buffer + min len n) [0] (writeList buffer data before.bytes) ∧
      after.transferred = before.transferred + min len n := by
  obtain ⟨data, mid, filled, length, bytes, count⟩ := read_bytes_fills present completes
  have clamped : (if n ≤ len then n else len) = min len n := by
    split_ifs <;> omega
  refine ⟨data, { mid with bytes := writeList (buffer + min len n) [0] mid.bytes }, ?_, length,
    by rw [bytes], count⟩
  unfold readStr
  rw [if_neg (by omega), clamped]
  change EStateM.bind (readBytes d (min len n) buffer) _ before = _
  rw [EStateM.bind, filled]
  rfl

/-- A string is read safely exactly if it is shorter than its buffer. -/
theorem read_str_safe_iff (nonempty : 1 ≤ n) (present : before.present = true)
    (completes : min len n ≠ 0 →
      ∃ outcome, d.transfer (.read (min len n)) before.device = .done outcome) :
    ∃ after, readStr d n len buffer before = .ok () after ∧
      (StringRead n len buffer before after ↔ len < n) := by
  obtain ⟨data, after, returned, length, bytes, count⟩ :=
    read_str_writes nonempty present completes
  refine ⟨after, returned, ?_⟩
  constructor
  · intro meets
    have transferred := meets.transferred
    omega
  · intro shorter
    have same : min len n = len := by omega
    have fits : min len (n - 1) = len := by omega
    rw [same] at length bytes count
    constructor
    · rw [fits, count]
    · rw [fits, bytes, writeList, if_pos (by simp), Nat.sub_self]
      rfl
    · intro a outside
      rw [bytes, write_list_outside (by simp only [List.length_singleton]; omega),
        write_list_outside (by omega)]

end

/-- An item of the letter `x` without an end. -/
def endlessItem : FwCfgDevice Unit where
  select _ state := state
  transfer
    | .read length, state => .done (List.replicate length 0x78, state)
    | .write _, state => .done ([], state)
  length_read done := by
    cases done
    exact List.length_replicate

def filledMemory : FwCfg Unit := ⟨true, (), [], fun _ => 0xff⟩

theorem read_str_safe_short :
    ∃ after, readStr endlessItem 32 9 0x1000 filledMemory = .ok () after ∧
      StringRead 32 9 0x1000 filledMemory after := by
  obtain ⟨after, returned, safe⟩ := @read_str_safe_iff _ endlessItem filledMemory 32 9 0x1000
    (by decide) rfl (fun _ => ⟨_, rfl⟩)
  exact ⟨after, returned, safe.mpr (by decide)⟩

/-- An item of 32 bytes in a buffer of 32 bytes: all are transferred, and the byte behind
the buffer becomes zero. -/
theorem read_str_overruns :
    ∃ after, readStr endlessItem 32 32 0x1000 filledMemory = .ok () after ∧
      after.transferred = 32 ∧ filledMemory.bytes 0x1020 = 0xff ∧ after.bytes 0x1020 = 0 ∧
      ¬ StringRead 32 32 0x1000 filledMemory after := by
  obtain ⟨data, after, returned, _, bytes, count⟩ := @read_str_writes _ endlessItem filledMemory
    32 32 0x1000 (by decide) rfl (fun _ => ⟨_, rfl⟩)
  have behind : after.bytes 0x1020 = 0 := by
    rw [bytes, writeList, if_pos (by decide)]
    rfl
  refine ⟨after, returned, count, rfl, behind, fun safe => ?_⟩
  have kept := safe.frame 0x1020 (by decide)
  rw [behind] at kept
  exact absurd kept (by decide)

end FwCfg

end L4Bootstrap
