import UBoot.Verification.Bytes
import Mathlib.Data.UInt

/-!
# `boota` from an MMC device with secure boot

`do_boota` of `drivers/usb/gadget/f_fastboot.c` with `CONFIG_SECURE_BOOT` and
`CONFIG_OF_LIBFDT`, on a machine whose `ulong` has 32 bits. The header of the
boot image is kept in `boothdr`, which is memory like any other, so each use of
a field reads it again. The code of U-Boot itself is not in the model.
-/

namespace UBoot.Fastboot

open Verification

/-- Memory by address. -/
abbrev Mem := UInt32 → UInt8

/-- The memory at an address. -/
def Mem.ptr (mem : Mem) (addr : UInt32) : Ptr := fun i => mem (addr + UInt32.ofNat i)

/-- The device: its size, its bytes, and how many blocks of a request reach the
memory. -/
structure Disk where
  lba : UInt32
  byte : Ptr
  transfers : UInt32 → UInt32 → Nat

/-- The contents of the device from a sector on. -/
def Disk.ptr (disk : Disk) (start : UInt32) : Ptr := disk.byte.add (512 * start.toNat)

/-- How many blocks `mmc_bread` stores. -/
def Disk.stored (disk : Disk) (start blkcnt : UInt32) : Nat :=
  if start + blkcnt > disk.lba then 0 else min (disk.transfers start blkcnt) blkcnt.toNat

/-- `mmc_bread`. Its count of blocks is unsigned, so the test for a negative one in
`do_boota` never stops the command. -/
def Disk.blockRead (disk : Disk) (start blkcnt dst : UInt32) (mem : Mem) : Mem := fun q =>
  if (q - dst).toNat < 512 * disk.stored start blkcnt then disk.ptr start (q - dst).toNat
  else mem q

/-- The fields of `struct andr_img_hdr` that are read. -/
structure AndrImgHdr where
  magic : List UInt8
  kernelSize : UInt32
  ramdiskSize : UInt32
  ramdiskAddr : UInt32
  secondSize : UInt32
  secondAddr : UInt32
  pageSize : UInt32
  deriving DecidableEq

def headerField (p : Ptr) (offset : Nat) : UInt32 :=
  UInt32.ofNat (leValue ((p.add offset).bytes 4))

/-- The header at a pointer. -/
def andrImgHdr (p : Ptr) : AndrImgHdr where
  magic := p.bytes 8
  kernelSize := headerField p 8
  ramdiskSize := headerField p 16
  ramdiskAddr := headerField p 20
  secondSize := headerField p 24
  secondAddr := headerField p 28
  pageSize := headerField p 36

/-- `ALIGN` -/
def align (x a : UInt32) : UInt32 := (x + (a - 1)) &&& ~~~(a - 1)

/-- `android_image_get_end`, relative to the header. -/
def AndrImgHdr.imageEnd (hdr : AndrImgHdr) : UInt32 :=
  hdr.pageSize + align hdr.kernelSize hdr.pageSize + align hdr.ramdiskSize hdr.pageSize +
    align hdr.secondSize hdr.pageSize

/-- The size that is authenticated, with `BOOTIMAGE_SIGNATURE_SIZE`. -/
def AndrImgHdr.imageSize (hdr : AndrImgHdr) : UInt32 := align (hdr.imageEnd + 0x100) 0x1000

/-- The board: where things are loaded, its device, and the authentication by the ROM. -/
structure Board where
  loadAddr : UInt32
  boothdr : UInt32
  csfPadSize : UInt32
  disk : Disk
  authenticateImage : Mem → UInt32 → UInt32 → Bool

/-- The sectors of the image with its IVT and CSF. -/
def Board.bootimgSectors (board : Board) (hdr : AndrImgHdr) : UInt32 :=
  hdr.imageSize / 512 + align (0x20 + board.csfPadSize) 512 / 512

/-- How the command ends: in fastboot, with a refusal, or in `do_bootm` with its
arguments. -/
inductive Outcome
  | fail
  | refused
  | bootm (addr ramdiskAddr ramdiskSize fdtAddr : UInt32) (mem : Mem)

/-- The header that `do_boota` keeps. -/
def Board.hdr (board : Board) (mem : Mem) : AndrImgHdr := andrImgHdr (mem.ptr board.boothdr)

def ramdiskSector (start : UInt32) (hdr : AndrImgHdr) : UInt32 :=
  start + hdr.pageSize / 512 + align hdr.kernelSize hdr.pageSize / 512

def Board.readRamdisk (board : Board) (start : UInt32) (mem : Mem) : Mem :=
  let hdr := board.hdr mem
  board.disk.blockRead (ramdiskSector start hdr) (hdr.ramdiskSize / 512 + 1) hdr.ramdiskAddr mem

/-- The read of the device tree behind the ramdisk at `sector`. -/
def Board.readSecond (board : Board) (sector : UInt32) (mem : Mem) : Mem :=
  let hdr := board.hdr mem
  if hdr.secondSize ≠ 0 ∧ hdr.secondAddr ≠ 0 then
    board.disk.blockRead (sector + align hdr.ramdiskSize hdr.pageSize / 512)
      (hdr.secondSize / 512 + 1) hdr.secondAddr mem
  else mem

/-- `do_boota` with an MMC device; `pte` is the first sector of the partition. -/
def doBoota (board : Board) (pte : Option UInt32) (mem : Mem) : Outcome :=
  match pte with
  | none => .fail
  | some start =>
    let mem := board.disk.blockRead start 1 board.boothdr mem
    let hdr := board.hdr mem
    if hdr.magic ≠ ascii "ANDROID!" then .fail
    else if hdr.imageSize > 0x1000000 then .refused
    else
      let mem := board.disk.blockRead start (board.bootimgSectors hdr) board.loadAddr mem
      if board.authenticateImage mem board.loadAddr hdr.imageSize = false then .refused
      else
        let sector := ramdiskSector start (board.hdr mem)
        let mem := board.readSecond sector (board.readRamdisk start mem)
        let hdr := board.hdr mem
        .bootm board.loadAddr hdr.ramdiskAddr hdr.ramdiskSize hdr.secondAddr mem

/-! ## What is handed to `do_bootm` -/

/-- Where the header places the ramdisk in the image. -/
def AndrImgHdr.ramdiskOffset (hdr : AndrImgHdr) : Nat :=
  hdr.pageSize.toNat + (align hdr.kernelSize hdr.pageSize).toNat

/-- Where the header places the device tree in the image. -/
def AndrImgHdr.secondOffset (hdr : AndrImgHdr) : Nat :=
  hdr.ramdiskOffset + (align hdr.ramdiskSize hdr.pageSize).toNat

/-- What `do_bootm` finds are the parts of an image. It takes the kernel from the
header at its first argument (`android_image_get_kernel`), and it is always given a
device tree. -/
structure PartsOf (image : List UInt8) (addr ramdiskAddr ramdiskSize fdtAddr : UInt32)
    (mem : Mem) : Prop where
  kernel : (mem.ptr (addr + (andrImgHdr (mem.ptr addr)).pageSize)).bytes
      (andrImgHdr (mem.ptr addr)).kernelSize.toNat =
    slice image (andrImgHdr (Ptr.ofList image)).pageSize.toNat
      (andrImgHdr (Ptr.ofList image)).kernelSize.toNat
  ramdisk : (mem.ptr ramdiskAddr).bytes ramdiskSize.toNat =
    slice image (andrImgHdr (Ptr.ofList image)).ramdiskOffset
      (andrImgHdr (Ptr.ofList image)).ramdiskSize.toNat
  fdt : (andrImgHdr (Ptr.ofList image)).secondSize ≠ 0 ∧
    (mem.ptr fdtAddr).bytes (andrImgHdr (Ptr.ofList image)).secondSize.toNat =
      slice image (andrImgHdr (Ptr.ofList image)).secondOffset
        (andrImgHdr (Ptr.ofList image)).secondSize.toNat

/-- `do_bootm` is reached only with the parts of a signed image. -/
def BootsSigned (board : Board) (Signed : List UInt8 → Prop) (start : UInt32) (mem : Mem) :
    Prop :=
  ∀ addr ramdiskAddr ramdiskSize fdtAddr mem',
    doBoota board (some start) mem = .bootm addr ramdiskAddr ramdiskSize fdtAddr mem' →
    ∃ image, Signed image ∧ PartsOf image addr ramdiskAddr ramdiskSize fdtAddr mem'

/-- `authenticate_image` accepts only signed contents. -/
def Board.Sound (board : Board) (Signed : List UInt8 → Prop) : Prop :=
  ∀ mem start size, board.authenticateImage mem start size = true →
    Signed ((mem.ptr start).bytes size.toNat)

end UBoot.Fastboot
