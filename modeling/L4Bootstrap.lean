import L4Bootstrap.Acpi
import L4Bootstrap.CheckArg
import L4Bootstrap.DecompressMods
import L4Bootstrap.Dt.ParentCache
import L4Bootstrap.Dt.Phandles
import L4Bootstrap.Dt.Memory
import L4Bootstrap.Efi
import L4Bootstrap.ElfPlacement
import L4Bootstrap.ElfReservation
import L4Bootstrap.FillMem
import L4Bootstrap.FreeSearchForward
import L4Bootstrap.FreeSearchReverse
import L4Bootstrap.GccLib
import L4Bootstrap.ImageMbi
import L4Bootstrap.InitKip
import L4Bootstrap.KernelOptions
import L4Bootstrap.KmemArea
import L4Bootstrap.L4mod
import L4Bootstrap.Lib.ByteMemory
import L4Bootstrap.MemLayout
import L4Bootstrap.MemcpyAligned
import L4Bootstrap.ModNodes
import L4Bootstrap.Modinfo
import L4Bootstrap.Modules
import L4Bootstrap.ModuleMoveChecks
import L4Bootstrap.ModulesApart
import L4Bootstrap.QemuRamfb
import L4Bootstrap.RegionLaws
import L4Bootstrap.RegionLimits
import L4Bootstrap.RegionOptimize
import L4Bootstrap.SearchKip
import L4Bootstrap.Startup.KmemOptions
import L4Bootstrap.Startup.NodeOffsets
import L4Bootstrap.UncompressHeap
import L4Bootstrap.Boot32.Reservations
import L4Bootstrap.Boot32.MmAlloc
import L4Bootstrap.Boot32.LoadElfCorrect
import L4Bootstrap.Boot32.Bootstrap
import L4Bootstrap.Boot32.Libc
import L4Bootstrap.Boot32.LibcSearch
import L4Bootstrap.Multiboot2.Conversion
import L4Bootstrap.Paging.Requests
import L4Bootstrap.Riscv.IsaExt
import L4Bootstrap.Riscv.IsaRecognition
import L4Bootstrap.Koptions
import L4Bootstrap.X86.MemoryMap
import L4Bootstrap.X86.Multiboot
import L4Bootstrap.X86.PciBusMaster
import L4Bootstrap.X86.PciCards
import L4Bootstrap.X86.VgaConsole
