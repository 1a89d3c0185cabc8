import L4Bootstrap.Boot32.LibcCopy
import L4Bootstrap.Boot32.LibcFill
import L4Bootstrap.Boot32.LoadElfCorrect
import L4Bootstrap.X86.VgaConsole

/-!
# Where the 32-bit part uses its C library

The loader copies segments and the console scrolls with the functions of the library; the
definitions of both take whole blocks instead.
-/

namespace L4Bootstrap

open ByteMemory CheckedLoop MachineWord

set_option autoImplicit false

namespace Boot32

/-- The second pass of `load_elf` for one header, down to the instructions of the library. -/
def copySegmentByLibc (elf : Elf64) (reloc : Nat) (bytes : Bytes) (ph : Elf64Phdr) :
    Checked Bytes :=
  if !ph.load then .ok bytes
  else
    let target := Wordsize.w64.add ph.paddr reloc % 2 ^ 32
    if !isRangeIn4g elf.base ph.offset then
      panic "Could not load PHDR. Location in ELF exceeds 32-bit limits!"
    else do
      let bytes ← Libc.memcpy target (add32 elf.base ph.offset) (ph.filesz % 2 ^ 32) bytes
      if ph.filesz < ph.memsz then
        Libc.memset (add32 target ph.filesz) 0 ((ph.memsz - ph.filesz) % 2 ^ 32) bytes
      else .ok bytes

/-- The copy does not run into a source that it has yet to read, and the part behind the
file contents does not wrap. -/
structure CopiesUpwards (elf : Elf64) (reloc : Nat) (ph : Elf64Phdr) : Prop where
  order : Wordsize.w64.add ph.paddr reloc % 2 ^ 32 ≤ add32 elf.base ph.offset ∨
    add32 elf.base ph.offset + ph.filesz % 2 ^ 32 ≤ Wordsize.w64.add ph.paddr reloc % 2 ^ 32
  fits : add32 (Wordsize.w64.add ph.paddr reloc % 2 ^ 32) ph.filesz +
    (ph.memsz - ph.filesz) % 2 ^ 32 < 2 ^ 32

section

variable {elf : Elf64} {reloc : Nat} {ph : Elf64Phdr} {phdrs : List Elf64Phdr} {bytes : Bytes}

theorem copy_segment_by_libc (upwards : ph.load = true → CopiesUpwards elf reloc ph) :
    copySegmentByLibc elf reloc bytes ph = copySegment elf reloc bytes ph := by
  rw [copySegmentByLibc, copySegment]
  by_cases load : ph.load = true
  · obtain ⟨order, fits⟩ := upwards load
    simp only [Libc.memcpy_moves order, ok_bind, Libc.memset_eq fits]
    rfl
  · rw [if_pos (by simp [load]), if_pos (by simp [load])]

/-- The second pass of the loader, whatever stands in the segments. -/
theorem second_pass_by_libc
    (upwards : ∀ ph ∈ phdrs, ph.load = true → CopiesUpwards elf reloc ph) :
    phdrs.foldlM (copySegmentByLibc elf reloc) bytes =
      phdrs.foldlM (copySegment elf reloc) bytes := by
  induction phdrs generalizing bytes with
  | nil => rfl
  | cons ph rest ih =>
      rw [List.foldlM_cons, List.foldlM_cons, copy_segment_by_libc (upwards ph (by simp))]
      apply bind_congr
      intro next
      exact ih fun other inRest => upwards other (by simp [inRest])

/-- An image of one segment, half of which stands in the file. -/
theorem second_pass_by_libc_of_small_elf :
    (smallElf 4096).phdrs.foldlM (copySegmentByLibc (smallElf 4096) 0) smallBytes =
      (smallElf 4096).phdrs.foldlM (copySegment (smallElf 4096) 0) smallBytes := by
  apply second_pass_by_libc
  intro ph member _
  obtain rfl := List.mem_singleton.mp member
  exact ⟨.inl (by decide), by decide⟩

end

end Boot32

namespace X86

/-- A line feed on the screen, in the calls of the library. -/
theorem scroll_by_libc (bytes : Bytes) :
    (do
      let bytes ← Boot32.Libc.memmove vidbase (vidbase + 80 * 2) (80 * 2 * 24) bytes
      Boot32.Libc.memset (vidbase + 80 * 2 * 24) 0 (80 * 2) bytes) = .ok (scroll bytes) := by
  rw [Boot32.Libc.memmove_eq (by decide) (by decide) (by decide), ok_bind,
    Boot32.Libc.memset_eq (by decide)]
  rfl

end X86

end L4Bootstrap
