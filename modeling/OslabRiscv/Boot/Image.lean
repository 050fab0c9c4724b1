import OslabRiscv.Lib.LittleEndian
import OslabRiscv.Mm.Paging

/-!
# The boot image

`tools/createimage.c` writes the boot sector, the kernel and the programs one
after another into an image, keeps for each program where it lies, and appends
that table.  The number of programs and the place of the table are patched into
the boot sector.  `init_task_info` in the kernel finds the table again.

A file is the list of its bytes; an assertion of the tool that fails is `none`.
What the tool prints is left out, and of the headers the fields it does not read.
-/

namespace Boot

open LittleEndian

def sectorSize : Nat := 512
def bootLoaderSigOffset : Nat := 0x1fe
def osSizeLoc : Nat := bootLoaderSigOffset - 2
def taskInfoLoc : Nat := osSizeLoc - 4
def taskNumLoc : Nat := taskInfoLoc - 1

/-- Number of entries of the table (`TASK_MAXNUM`). -/
def taskMaxnum : Nat := 16

/-- `sizeof(task_info_t)`: 42 bytes of fields, aligned to 8. -/
def taskInfoSize : Nat := 48

/-- Length of a name field (`TASK_NAME_LEN`). -/
def taskNameLen : Nat := 18

def ptLoad : Nat := 1

/-- The file names `bootblock` and `main`. -/
def bootblock : List UInt8 := [98, 111, 111, 116, 98, 108, 111, 99, 107]
def main : List UInt8 := [109, 97, 105, 110]

/-! ## ELF headers -/

/-- The fields of `Elf64_Ehdr` that locate the program headers. -/
structure Ehdr where
  phoff : Nat
  phentsize : Nat
  phnum : Nat
  deriving DecidableEq

/-- The fields of `Elf64_Phdr` that are used. -/
structure Phdr where
  type : Nat
  offset : Nat
  vaddr : Nat
  filesz : Nat
  memsz : Nat
  deriving DecidableEq

/-- The number in the `n` bytes at `off`. -/
def field (f : List UInt8) (off n : Nat) : Nat := value ((f.drop off).take n)

/-- `read_ehdr`: the header must be there and carry its magic bytes, the first of
which is not looked at. -/
def readEhdr (f : List UInt8) : Option Ehdr :=
  if 64 ≤ f.length ∧ f[1]? = some 69 ∧ f[2]? = some 76 ∧ f[3]? = some 70 then
    some ⟨field f 32 8, field f 54 2, field f 56 2⟩
  else none

/-- Where `read_phdr` looks: the product is an `int`, and is widened for the sum. -/
def phdrPos (ehdr : Ehdr) (ph : Nat) : Nat :=
  ((ehdr.phoff + Int.bmod (ph * ehdr.phentsize) (2 ^ 32)) % 2 ^ 64).toNat

/-- `read_phdr`: header number `ph`. -/
def readPhdr (f : List UInt8) (ehdr : Ehdr) (ph : Nat) : Option Phdr :=
  let pos := phdrPos ehdr ph
  if pos + 56 ≤ f.length then
    some ⟨field f pos 4, field f (pos + 8) 8, field f (pos + 16) 8, field f (pos + 32) 8,
      field f (pos + 40) 8⟩
  else none

/-- `get_filesz` and `get_memsz` return 32-bit numbers. -/
def getFilesz (ph : Phdr) : Nat := ph.filesz % 2 ^ 32
def getMemsz (ph : Phdr) : Nat := ph.memsz % 2 ^ 32

/-! ## The table -/

/-- An entry of the table (`task_info_t`). -/
structure TaskInfo where
  beginBlock : Nat
  endBlock : Nat
  beginOffset : Nat
  endOffset : Nat
  memsz : Nat
  entryAddr : Nat
  name : List UInt8
  deriving DecidableEq

/-- An entry of static storage. -/
def TaskInfo.zero : TaskInfo := ⟨0, 0, 0, 0, 0, 0, List.replicate taskNameLen 0⟩

/-- The bytes of an entry as they lie in memory and in the image; six bytes of padding
follow the name. -/
def TaskInfo.encode (t : TaskInfo) : List UInt8 :=
  bytes 2 t.beginBlock ++ bytes 2 t.endBlock ++ bytes 4 t.beginOffset ++ bytes 4 t.endOffset ++
    bytes 4 t.memsz ++ bytes 8 t.entryAddr ++ t.name ++ List.replicate 6 0

/-- The entry whose bytes these are. -/
def decode (bs : List UInt8) : TaskInfo :=
  ⟨field bs 0 2, field bs 2 2, field bs 4 4, field bs 8 4, field bs 12 4, field bs 16 8,
    (bs.drop 24).take taskNameLen⟩

/-- `strcpy` into a name field. -/
def strcpy (old src : List UInt8) : List UInt8 := src ++ 0 :: old.drop (src.length + 1)

/-- `BLOCKID`. -/
def blockId (nbytes : Nat) : Nat := nbytes / sectorSize

/-! ## Writing the image -/

/-- The image so far and the variables of `create_image`; `taskinfo` is the static
array. -/
structure Build where
  img : List UInt8
  phyaddr : Nat
  nbytesKernel : Int
  taskinfo : Nat → TaskInfo

/-- What `write_segment` copies; reading behind the end of the file gives `EOF`, of
which one byte is written. -/
def segment (f : List UInt8) (ph : Phdr) : List UInt8 :=
  if ph.memsz ≠ 0 ∧ ph.type = ptLoad then
    (List.range ph.filesz).map fun i => f.getD (ph.offset + i) 0xff
  else []

def writeSegment (f : List UInt8) (ph : Phdr) (b : Build) : Build :=
  { b with img := b.img ++ segment f ph, phyaddr := b.phyaddr + (segment f ph).length }

def writePadding (newPhyaddr : Nat) (b : Build) : Build :=
  { b with
    img := b.img ++ List.replicate (newPhyaddr - b.phyaddr) 0
    phyaddr := b.phyaddr + (newPhyaddr - b.phyaddr) }

/-- Change entry `i` of the table. -/
def setTask (i : Nat) (g : TaskInfo → TaskInfo) (b : Build) : Build :=
  { b with taskinfo := Function.update b.taskinfo i (g (b.taskinfo i)) }

/-- One round of the loop over the program headers; `fidx` is the number of the file,
and files from number 2 on are programs. -/
def writePhdr (fidx : Nat) (name f : List UInt8) (ehdr : Ehdr) (b : Build) (ph : Nat) :
    Option Build := do
  let phdr ← readPhdr f ehdr ph
  let b := writeSegment f phdr b
  let b :=
    if name = main then
      { b with nbytesKernel := Int.bmod (b.nbytesKernel + getFilesz phdr) (2 ^ 32) }
    else b
  if 2 ≤ fidx ∧ phdr.type = ptLoad then
    some (setTask (fidx - 2)
      (fun t => { t with memsz := getMemsz phdr, entryAddr := phdr.vaddr }) b)
  else some b

/-- One round of the loop over the files. -/
def writeFile (b : Build) (file : Nat × List UInt8 × List UInt8) : Option Build := do
  let (fidx, name, f) := file
  let ehdr ← readEhdr f
  let b :=
    if 2 ≤ fidx then
      setTask (fidx - 2) (fun t =>
        { t with
          name := strcpy t.name name
          beginBlock := blockId b.phyaddr % 2 ^ 16
          beginOffset := (b.phyaddr - blockId b.phyaddr * 512) % 2 ^ 32 }) b
    else b
  let b ← (List.range ehdr.phnum).foldlM (writePhdr fidx name f ehdr) b
  let b := if name = bootblock then writePadding sectorSize b else b
  if 2 ≤ fidx then
    some (setTask (fidx - 2) (fun t =>
      { t with
        endBlock := blockId b.phyaddr % 2 ^ 16
        endOffset := (b.phyaddr - blockId b.phyaddr % 2 ^ 16 * 512) % 2 ^ 32 }) b)
  else some b

/-- Overwrite the bytes from `at` on, as `fseek` and a write do. -/
def patch (img : List UInt8) (pos : Nat) (bs : List UInt8) : List UInt8 :=
  let img := img ++ List.replicate (pos + bs.length - img.length) 0
  img.take pos ++ bs ++ img.drop (pos + bs.length)

/-- `NBYTES2SEC`. -/
def nbytes2sec (nbytes : Int) : Int :=
  Int.tdiv nbytes sectorSize + if Int.tmod nbytes sectorSize ≠ 0 then 1 else 0

/-- The byte `fputc` writes for an `int`. -/
def charOf (n : Int) : UInt8 := UInt8.ofNat (n % 256).toNat

/-- `write_img_info`: the table, the size of the kernel in sectors and the signature. -/
def writeImgInfo (nbytesKernel : Int) (table : List UInt8) (img : List UInt8) : List UInt8 :=
  patch (img ++ table) osSizeLoc
    [charOf (nbytes2sec nbytesKernel), charOf (nbytes2sec nbytesKernel / 256), 0x55, 0xaa]

/-- What `create_image` starts from. -/
def Build.start : Build := ⟨[], 0, 0, fun _ => .zero⟩

/-- The entries that are written: the first `tasknum` of the array. -/
def table (tasknum : Nat) (taskinfo : Nat → TaskInfo) : List TaskInfo :=
  (List.range tasknum).map taskinfo

/-- `create_image`: the image and the entries of its table.  The files come with their
names, in the order of the command line. -/
def createImage (files : List (List UInt8 × List UInt8)) : Option (List UInt8 × List TaskInfo) := do
  let tasknum := files.length - 2
  let b ← (files.zipIdx.map fun x => (x.2, x.1.1, x.1.2)).foldlM writeFile .start
  let img := patch b.img taskNumLoc (UInt8.ofNat tasknum :: bytes 4 b.phyaddr)
  let tasks := table tasknum b.taskinfo
  some (writeImgInfo b.nbytesKernel (tasks.flatMap TaskInfo.encode) img, tasks)

/-! ## Reading the table -/

/-- Physical memory. -/
abbrev Memory := Nat → UInt8

/-- A byte the kernel reads through an address of its own. -/
def Memory.at (m : Memory) (kva : Nat) : UInt8 := m (Mm.kva2pa kva)

/-- The number in the `n` bytes at a kernel address. -/
def Memory.read (m : Memory) (kva n : Nat) : Nat :=
  value ((List.range n).map fun i => m.at (kva + i))

/-- `TASK_NUM_LOC` of the kernel: the boot sector lies at physical address `0x50200000`. -/
def taskNumAddr : Nat := 0xffffffc0502001f7

/-- `bios_sdread`: sectors of the card are copied to memory; the address is cut to 32
bits. -/
def sdread (card : Nat → UInt8) (memAddress numOfBlocks blockId : Nat) (m : Memory) : Memory :=
  fun a =>
    if memAddress % 2 ^ 32 ≤ a ∧ a < memAddress % 2 ^ 32 + 512 * numOfBlocks then
      card (512 * blockId + (a - memAddress % 2 ^ 32))
    else m a

/-- `init_task_info`: the bytes of the array `tasks` afterwards. -/
def initTaskInfo (card : Nat → UInt8) (m : Memory) (tasks : Nat → UInt8) : Nat → UInt8 :=
  let tasknum := m.read taskNumAddr 1
  let taskInfoBase := m.read (taskNumAddr + 1) 4
  let beginBlock := taskInfoBase / 512
  let beginOffset := taskInfoBase - beginBlock * 512
  let taskInfoEnd := taskInfoBase + tasknum * taskInfoSize
  let endBlock := taskInfoEnd / 512 % 2 ^ 32
  let endOffset := (taskInfoEnd - endBlock * 512) % 2 ^ 32
  let blockNum := endBlock - beginBlock + if endOffset ≠ 0 then 1 else 0
  let m := sdread card (Mm.kva2pa 0xfffffc0058000000) blockNum beginBlock m
  fun k =>
    if k < tasknum * taskInfoSize then m.at (Mm.pa2kva (0x58000000 + beginOffset) + k) else tasks k

/-- Entry `i` of the array `tasks`. -/
def taskAt (tasks : Nat → UInt8) (i : Nat) : TaskInfo :=
  decode ((List.range taskInfoSize).map fun k => tasks (taskInfoSize * i + k))

end Boot
