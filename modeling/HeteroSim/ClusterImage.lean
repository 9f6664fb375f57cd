import HeteroSim.DesignRules
import HeteroSim.SignIn
import HeteroSim.StagedHeap

/-!
A cluster's program in its TCDM, as the generated linker script lays it out: the
mailbox, `.data`, `.bss`, the heap and a stack for every core. An image the script
accepts is what boot and staging take for granted. The code's own window in main
memory is left out.
-/

namespace HeteroSim.ClusterImage

open DesignRules BumpAllocator StagingLayout StagedHeap Barriers

/-- Bytes of a cluster's sections in the order the script places them. A gap is what
the alignment of the section after it takes; `.data` starts on a word. -/
structure Sections where
  dataGap : Nat
  rodata : Nat
  data : Nat
  sdata : Nat
  bssGap : Nat
  sbss : Nat
  bss : Nat
  words : 4 ∣ dataGap

structure Symbols where
  dataStart : Nat
  dataEnd : Nat
  bssStart : Nat
  bssEnd : Nat
  heapStart : Nat
  heapEnd : Nat

/-- `ORIGIN(TCDM)`: the script's TCDM starts above the mailbox. -/
def origin (c : Cluster) : Nat := (c.base + mailboxSize).toNat

def link (d : Design) (c : Cluster) (s : Sections) : Symbols :=
  let dataStart := origin c + s.dataGap
  let dataEnd := roundUp 8 (roundUp 8 (roundUp 8 (dataStart + s.rodata) + s.data) + s.sdata)
  let bssStart := roundUp 8 dataEnd
  let bssEnd := roundUp 8 (bssStart + s.bssGap + s.sbss + s.bss)
  { dataStart, dataEnd, bssStart, bssEnd
    heapStart := roundUp 16 bssEnd
    heapEnd := (c.stackRegion d).toNat }

/-- `ASSERT(__heap_start <= __heap_end)`. -/
def Symbols.accepted (sym : Symbols) : Bool := decide (sym.heapStart ≤ sym.heapEnd)

/-- What `_start` copies and clears, word by word while it is below the end. -/
def Symbols.image (sym : Symbols) (contents : Nat → UInt32) : SignIn.Image where
  dataStart := sym.dataStart
  data := (List.range ((sym.dataEnd - sym.dataStart + 3) / 4)).map contents
  bssStart := sym.bssStart
  bssWords := (sym.bssEnd - sym.bssStart + 3) / 4

/-- The two clusters of a design. -/
def clusters (d : Design) : List Cluster := [snitchCluster d, spatzCluster d]

/-- The parts of the TCDM one after the other, each core's stack above the one before. -/
structure Ordered (d : Design) (c : Cluster) (sym : Symbols) : Prop where
  mailbox : c.base.toNat + 0x200 ≤ sym.dataStart
  data : sym.dataStart ≤ sym.dataEnd
  bss : sym.dataEnd ≤ sym.bssStart ∧ sym.bssStart ≤ sym.bssEnd
  heap : sym.bssEnd ≤ sym.heapStart ∧ sym.heapStart ≤ sym.heapEnd
  cores : ∀ i < c.nbCore.toNat,
    c.stackTop d i = sym.heapEnd + (i + 1) * 0x1000 ∧ c.stackTop d i ≤ c.base + d.tcdmSize

section Linked

variable {d : Design} {c : Cluster} {s : Sections}

end Linked

end HeteroSim.ClusterImage
