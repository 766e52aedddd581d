import UBoot.Fastboot.Boota
import UBoot.Verification.Windows

/-!
# `boota` from memory

`do_boota` of `drivers/usb/gadget/f_fastboot.c` with an address, with
`CONFIG_OF_LIBFDT` and without `CONFIG_SECURE_BOOT`. The header is set aside before
anything is moved, in memory of U-Boot, which is not in the model. `memmove` copies as
through a buffer.
-/

namespace UBoot.Fastboot

open Verification

section

variable (hdr : AndrImgHdr) (addr : UInt32)

/-- Where the ramdisk is in the image. -/
def AndrImgHdr.raddr : UInt32 := addr + hdr.pageSize + align hdr.kernelSize hdr.pageSize

/-- Where the second stage is in the image. -/
def AndrImgHdr.fdtaddr : UInt32 := hdr.raddr addr + align hdr.ramdiskSize hdr.pageSize

/-- `end` -/
def AndrImgHdr.stop : UInt32 :=
  if hdr.secondSize ≠ 0 then hdr.fdtaddr addr + hdr.secondSize
  else hdr.raddr addr + hdr.ramdiskSize

/-- The test for an overlap of a destination with the image. Both ends count. -/
def Overlaps (dst size addr stop : UInt32) : Prop :=
  dst ≥ addr ∧ dst ≤ stop ∨ addr ≥ dst ∧ addr ≤ dst + size

instance (dst size addr stop : UInt32) : Decidable (Overlaps dst size addr stop) :=
  inferInstanceAs (Decidable (_ ∧ _ ∨ _ ∧ _))

/-- The ramdisk must not go where it is moved. -/
def AndrImgHdr.RamdiskRefused : Prop :=
  hdr.raddr addr ≠ hdr.ramdiskAddr ∧
    Overlaps hdr.ramdiskAddr hdr.ramdiskSize addr (hdr.stop addr)

/-- The second stage must not go where it is moved. -/
def AndrImgHdr.SecondRefused : Prop :=
  (hdr.secondSize ≠ 0 ∧ hdr.fdtaddr addr ≠ hdr.secondAddr) ∧
    Overlaps hdr.secondAddr hdr.secondSize addr (hdr.stop addr)

instance : Decidable (hdr.RamdiskRefused addr) := inferInstanceAs (Decidable (_ ∧ _))

instance : Decidable (hdr.SecondRefused addr) := inferInstanceAs (Decidable (_ ∧ _))

/-- `do_boota` with an address, from the set aside header on. -/
def bootaMemory (mem : Mem) : Outcome :=
  if hdr.RamdiskRefused addr then .refused
  else
    let mem :=
      if hdr.raddr addr ≠ hdr.ramdiskAddr then
        moveWindow mem hdr.ramdiskAddr (hdr.raddr addr) hdr.ramdiskSize
      else mem
    if hdr.SecondRefused addr then .refused
    else
      let mem :=
        if hdr.secondSize ≠ 0 ∧ hdr.fdtaddr addr ≠ hdr.secondAddr then
          moveWindow mem hdr.secondAddr (hdr.fdtaddr addr) hdr.secondSize
        else mem
      .bootm addr hdr.ramdiskAddr hdr.ramdiskSize hdr.secondAddr mem

/-- `do_boota` with an address. -/
def doBootaAddr (mem : Mem) : Outcome :=
  let hdr := andrImgHdr (mem.ptr addr)
  if hdr.magic ≠ ascii "ANDROID!" then .refused else bootaMemory hdr addr mem

/-! ## The parts of the image -/

/-- The ramdisk and the second stage of the image are where the header wants them, and the
kernel is still in the image. -/
structure PartsKept (mem mem' : Mem) : Prop where
  ramdisk : ∀ i < hdr.ramdiskSize, mem' (hdr.ramdiskAddr + i) = mem (hdr.raddr addr + i)
  second : ∀ i < hdr.secondSize, mem' (hdr.secondAddr + i) = mem (hdr.fdtaddr addr + i)
  kernel : ∀ i < hdr.kernelSize, mem' (addr + hdr.pageSize + i) = mem (addr + hdr.pageSize + i)

/-- What `do_bootm` gets is right, whatever is in the memory. -/
def BootaRight : Prop :=
  ∀ mem addr' ramdiskAddr ramdiskSize fdtAddr mem',
    bootaMemory hdr addr mem = .bootm addr' ramdiskAddr ramdiskSize fdtAddr mem' →
    PartsKept hdr addr mem mem'

/-- No move goes over the kernel or over what is still to be moved, and the ramdisk and the
second stage go to different places. -/
def PartsApart : Prop :=
  MovesApart hdr.ramdiskAddr (hdr.raddr addr) hdr.ramdiskSize hdr.secondAddr
    (hdr.fdtaddr addr) hdr.secondSize (addr + hdr.pageSize) hdr.kernelSize

end

section

variable {hdr : AndrImgHdr} {addr : UInt32}

instance nontrivialUInt8 : Nontrivial UInt8 := ⟨0, 1, by decide⟩

theorem moveWindow_self (mem : Mem) (a n : UInt32) : moveWindow mem a a n = mem := by
  funext q
  exact congrArg mem (moveSource_eq_self.mpr (.inl rfl))

theorem moveWindow_zero (mem : Mem) (dst src : UInt32) : moveWindow mem dst src 0 = mem := by
  funext q
  exact congrArg mem (moveSource_eq_self.mpr (.inr (Nat.not_lt_zero _)))

/-- What is not refused makes both moves; one that is left out changes nothing. -/
theorem bootaMemory_of_accepted (hr : ¬hdr.RamdiskRefused addr) (hs : ¬hdr.SecondRefused addr)
    (mem : Mem) :
    bootaMemory hdr addr mem = .bootm addr hdr.ramdiskAddr hdr.ramdiskSize hdr.secondAddr
      (moveWindow (moveWindow mem hdr.ramdiskAddr (hdr.raddr addr) hdr.ramdiskSize)
        hdr.secondAddr (hdr.fdtaddr addr) hdr.secondSize) := by
  have hfirst : (if hdr.raddr addr ≠ hdr.ramdiskAddr then
      moveWindow mem hdr.ramdiskAddr (hdr.raddr addr) hdr.ramdiskSize else mem) =
        moveWindow mem hdr.ramdiskAddr (hdr.raddr addr) hdr.ramdiskSize := by
    split_ifs with hmove
    · rfl
    · rw [not_not.mp hmove, moveWindow_self]
  rw [bootaMemory, if_neg hr, if_neg hs]
  dsimp only
  rw [hfirst]
  congr 1
  split_ifs with hmove
  · rfl
  · rw [not_and_or, not_not, not_not] at hmove
    obtain hzero | hstay := hmove
    · rw [hzero, moveWindow_zero]
    · rw [hstay, moveWindow_self]

/-- What `do_bootm` gets is right exactly if an image that is not refused has its parts
apart. -/
theorem bootaRight_iff (hdr : AndrImgHdr) (addr : UInt32) :
    BootaRight hdr addr ↔
      (¬hdr.RamdiskRefused addr → ¬hdr.SecondRefused addr → PartsApart hdr addr) := by
  constructor
  · intro h hr hs
    refine movesBoth_iff.mp fun mem : Mem => ?_
    have hparts := h mem _ _ _ _ _ (bootaMemory_of_accepted hr hs mem)
    exact ⟨hparts.ramdisk, hparts.second, hparts.kernel⟩
  · intro h mem addr' ramdiskAddr ramdiskSize fdtAddr mem' hboot
    by_cases hr : hdr.RamdiskRefused addr
    · rw [bootaMemory, if_pos hr] at hboot
      exact nomatch hboot
    · by_cases hs : hdr.SecondRefused addr
      · rw [bootaMemory, if_neg hr, if_pos hs] at hboot
        exact nomatch hboot
      · rw [bootaMemory_of_accepted hr hs] at hboot
        cases hboot
        have hmoves := movesBoth_iff.mpr (h hr hs) mem
        exact ⟨hmoves.first, hmoves.second, hmoves.kept⟩

/-- The header in memory is the one that the command goes by. -/
theorem partsKept_of_doBootaAddr {mem mem' : Mem} {addr' ramdiskAddr ramdiskSize fdtAddr : UInt32}
    (hright : BootaRight (andrImgHdr (mem.ptr addr)) addr)
    (hboot : doBootaAddr addr mem = .bootm addr' ramdiskAddr ramdiskSize fdtAddr mem') :
    PartsKept (andrImgHdr (mem.ptr addr)) addr mem mem' := by
  rw [doBootaAddr] at hboot
  split_ifs at hboot
  exact hright mem _ _ _ _ _ hboot

end

/-! ## An image whose parts meet -/

/-- An image at 0x1000 with a kernel of one byte, and a ramdisk and a second stage of 64
bytes that are moved to 0x2000 and 0x2020. -/
def meetingHeader : List UInt8 :=
  ascii "ANDROID!" ++ leBytes 4 1 ++ leBytes 4 0 ++ leBytes 4 64 ++ leBytes 4 0x2000 ++
    leBytes 4 64 ++ leBytes 4 0x2020 ++ leBytes 4 0 ++ leBytes 4 64

/-- The bytes of the second stage are 1. -/
def meetingImage : Mem := fun q =>
  if q - 0x1000 < 40 then meetingHeader.getD (q - 0x1000).toNat 0
  else if q - 0x10C0 < 64 then 1 else 0

def meetingHdr : AndrImgHdr where
  magic := ascii "ANDROID!"
  kernelSize := 1
  ramdiskSize := 64
  ramdiskAddr := 0x2000
  secondSize := 64
  secondAddr := 0x2020
  pageSize := 64

theorem andrImgHdr_meetingImage : andrImgHdr (meetingImage.ptr 0x1000) = meetingHdr := by
  decide

/-- The second stage goes over the end of the ramdisk. -/
theorem ramdisk_overwritten :
    ¬∀ (addr : UInt32) (mem : Mem) (addr' ramdiskAddr ramdiskSize fdtAddr : UInt32) (mem' : Mem),
      doBootaAddr addr mem = .bootm addr' ramdiskAddr ramdiskSize fdtAddr mem' →
      PartsKept (andrImgHdr (mem.ptr addr)) addr mem mem' := by
  intro claim
  have hboot := @bootaMemory_of_accepted meetingHdr 0x1000 (by decide) (by decide) meetingImage
  have hcall : doBootaAddr 0x1000 meetingImage = bootaMemory meetingHdr 0x1000 meetingImage := by
    rw [doBootaAddr, andrImgHdr_meetingImage]
    exact if_neg (not_not.mpr rfl)
  have hparts := claim 0x1000 meetingImage _ _ _ _ _ (hcall.trans hboot)
  rw [andrImgHdr_meetingImage] at hparts
  exact absurd (hparts.ramdisk 32 (by decide)) (by decide)

end UBoot.Fastboot
