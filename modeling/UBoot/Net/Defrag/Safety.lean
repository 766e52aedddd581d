import UBoot.Net.Defrag.Fragment
import UBoot.Verification.Run

/-!
# Accesses to the reassembly buffer

Runs of `NetReceive` over IP packets of any contents. A step goes wrong when a
length below the header size is not noticed, when a descriptor is put behind the
end of the buffer, or when what is read as a descriptor is the data of a
fragment. `Harmless` excludes these cases for one packet.
-/

namespace UBoot.Net

open Verification

/-! ### The holes in the buffer -/

/-- Follow the links of the descriptors. -/
def holeList (buff : Ptr) : Nat → Nat → List (Nat × Nat)
  | 0, _ => []
  | fuel + 1, h =>
    (h, (holeAt buff h).lastByte) ::
      if (holeAt buff h).nextHole = 0 then [] else holeList buff fuel (holeAt buff h).nextHole

/-- The holes that a fragment meets. A fragment of another packet meets a single
one. -/
def missing (s : Reasm) (ip : Ptr) : List (Nat × Nat) :=
  if NewPacket s ip then [(0, 0xffff)] else holeList s.pktBuff (IP_PKTSIZE + 1) s.firstHole

theorem Holes.holeList_eq {s : Reasm} {L : List (Nat × Nat)} (h : Holes s L) (hne : L ≠ []) :
    holeList s.pktBuff (IP_PKTSIZE + 1) s.firstHole = L := by
  have hmain : ∀ fuel before y rest, before ++ y :: rest = L → IP_PKTSIZE < fuel + y.1 →
      holeList s.pktBuff fuel y.1 = y :: rest := by
    intro fuel
    induction fuel with
    | zero =>
      rintro before y rest rfl hfuel
      have hy := h.fits y (by simp)
      simp only [Fits, holePos, IP_HDR_SIZE] at hy
      omega
    | succ fuel ih =>
      rintro before y rest rfl hfuel
      have hread := h.readHole_eq
      rw [readHole, if_pos (h.fits y (by simp)), Option.some.injEq] at hread
      rw [holeList, hread]
      simp only [h.headIndex_post_eq_zero]
      cases rest with
      | nil => simp
      | cons z rest =>
        have hlt := h.lt_after z List.mem_cons_self
        rw [if_neg (by simp), headIndex_cons, ih (before ++ [y]) z rest (by simp) (by omega)]
  obtain ⟨y, rest, rfl⟩ := List.exists_cons_of_ne_nil hne
  rw [h.first, headIndex_cons]
  exact hmain _ [] y rest rfl (by omega)

def fragEnd (ip : Ptr) : Int := fragOffset ip * 8 + fragLen ip

/-- A fragment for the hole `x` has a length, puts no descriptor under its own
data or behind the end of the buffer, and does not reach into another hole. -/
def HarmlessIn (holes : List (Nat × Nat)) (ip : Ptr) (x : Nat × Nat) : Prop :=
  0 ≤ fragLen ip ∧
    (moreFragments ip = true ∧ fragEnd ip < x.2 →
      fragLen ip % 8 = 0 ∧ fragEnd ip + 8 ≤ IP_MAXUDP) ∧
    ∀ y ∈ holes, x.1 < y.1 → fragEnd ip ≤ 8 * y.1

instance (holes : List (Nat × Nat)) (ip : Ptr) (x : Nat × Nat) :
    Decidable (HarmlessIn holes ip x) := inferInstanceAs (Decidable (_ ∧ _ ∧ _))

/-- A fragment that falls in no hole, or that is harmless in its hole. -/
def Harmless (s : Reasm) (ip : Ptr) : Prop :=
  ∀ x ∈ (missing s ip).find? (fun x => fragOffset ip * 8 ≤ x.2),
    Beyond ip x.1 ∨ HarmlessIn (missing s ip) ip x

instance (s : Reasm) (ip : Ptr) : Decidable (Harmless s ip) :=
  inferInstanceAs (Decidable (∀ x ∈ List.find? _ _, _))

/-! ### One packet -/

/-- The descriptors in the buffer are a list of holes. -/
def Tracked (s : Reasm) : Prop := ∃ L, L ≠ [] ∧ Holes s L ∧ Spaced L

theorem currentPacket_spec {s : Reasm} {ip : Ptr} (h : NewPacket s ip ∨ Tracked s) :
    ∃ s', currentPacket s ip = some s' ∧ Holes s' (missing s ip) ∧ missing s ip ≠ [] ∧
      Spaced (missing s ip) := by
  rw [currentPacket, missing]
  split
  · obtain ⟨s', hs', hholes, -, -⟩ := startPacket_spec s ip
    exact ⟨s', hs', hholes, by simp, by simp, List.pairwise_singleton ..⟩
  · rename_i hold
    obtain ⟨L, hne, hholes, hspaced⟩ := h.resolve_left hold
    rw [hholes.holeList_eq hne]
    exact ⟨s, rfl, hholes, hne, hspaced⟩

/-- A harmless packet leaves a list of holes, unless it completes a packet. -/
theorem defragment_spec {s : Reasm} {ip : Ptr} (hfar : ¬TooFar ip)
    (h : NewPacket s ip ∨ Tracked s) (hharmless : Harmless s ip) :
    ∃ s' result, defragment s ip = some (s', result) ∧ (result = none → Tracked s') := by
  obtain ⟨s₁, hcurrent, hholes, hne, hspaced⟩ := currentPacket_spec h
  cases hfind : (missing s ip).find? fun x => fragOffset ip * 8 ≤ x.2 with
  | none =>
    rw [defragment_eq hfar hcurrent hholes hne, hfind]
    exact ⟨s₁, none, rfl, fun _ => ⟨_, hne, hholes, hspaced⟩⟩
  | some x =>
    by_cases hover : Beyond ip x.1
    · rw [defragment_eq hfar hcurrent hholes hne, hfind]
      simp only [if_pos hover]
      exact ⟨s₁, none, rfl, fun _ => ⟨_, hne, hholes, hspaced⟩⟩
    · obtain ⟨hlen, hopens, hafter⟩ := (hharmless x hfind).resolve_left hover
      obtain ⟨len, heq⟩ := Int.eq_ofNat_of_zero_le hlen
      obtain ⟨hstart, pre, post, hlist, hbefore⟩ := List.find?_eq_some_iff_append.mp hfind
      simp only [decide_eq_true_eq] at hstart
      simp only [Bool.not_eq_true', decide_eq_false_iff_not, Nat.not_le] at hbefore
      simp only [fragEnd, heq, hlist] at hopens hafter
      rw [hlist] at hholes hspaced
      have hwithin : Within pre x post (fragOffset ip) len := by
        refine ⟨hspaced, hbefore, hstart, ?_, fun y hy => ?_⟩
        · simp only [Beyond, heq] at hover
          have hdiv : ((len : Int) + 7).tdiv 8 = ((len + 7) / 8 : Nat) := by
            rw [Int.tdiv_eq_ediv_of_nonneg (by omega)]
            omega
          omega
        · have := hafter y (by simp [hy]) (hholes.lt_after y hy)
          omega
      obtain ⟨s', result, hdef, hresult, hspaced'⟩ := defragment_within hfar hcurrent hholes heq
        hwithin fun hmore hlt => by have := hopens ⟨hmore, by omega⟩; omega
      refine ⟨s', result, hdef, fun hnone => ?_⟩
      have hne' : fill pre (truncated ip x len) post (fragOffset ip) len ≠ [] := by
        intro hnil
        rw [hresult.result, if_pos hnil] at hnone
        cases hnone
      exact ⟨_, hne', hresult.holes hne', hspaced'⟩

/-! ### Runs -/

/-- A frame with an IP packet: the packet and its length. -/
structure Frame where
  ip : Ptr
  len : Nat

def Frame.ofBytes (bytes : List UInt8) : Frame := ⟨Ptr.ofList bytes, bytes.length⟩

/-- The state of the reassembly, with `none` after an access outside of the
buffer, and whether the packet in the buffer was already returned. -/
structure History where
  reasm : Option Reasm
  complete : Bool

namespace History

/-- The variables are static, so they start with zeros. -/
def start : History := ⟨some ⟨fun _ => 0, 0, 0⟩, false⟩

variable (ourIp : List UInt8)

/-- The frame gets as far as the list of holes. -/
def Collected (frame : Frame) : Prop :=
  AcceptedIp ourIp frame.ip frame.len ∧
    ¬(fragOffset frame.ip = 0 ∧ ¬moreFragments frame.ip) ∧ ¬TooFar frame.ip

instance (frame : Frame) : Decidable (Collected ourIp frame) :=
  inferInstanceAs (Decidable (_ ∧ _ ∧ _))

def step (h : History) (frame : Frame) : History :=
  match h.reasm with
  | none => h
  | some s =>
    match netReceiveIp ourIp s frame.ip frame.len with
    | none => ⟨none, h.complete⟩
    | some (s', some (.whole _)) => ⟨some s', true⟩
    | some (s', _) =>
      ⟨some s', h.complete && !decide (Collected ourIp frame ∧ NewPacket s frame.ip)⟩

/-- No fragment of a packet that was returned already, and none that is not
harmless. -/
def Safe (h : History) (frame : Frame) : Prop :=
  ∀ s ∈ h.reasm, Collected ourIp frame →
    (h.complete = true → NewPacket s frame.ip) ∧ Harmless s frame.ip

/-- Until it is returned, the packet in the buffer is tracked by a list of holes. -/
def Inv (h : History) : Prop :=
  ∃ s, h.reasm = some s ∧ (s.totalLen = 0 ∨ h.complete = true ∨ Tracked s)

theorem Inv.step {h : History} (hinv : h.Inv) {frame : Frame} (hsafe : h.Safe ourIp frame) :
    (h.step ourIp frame).Inv := by
  obtain ⟨s, hs, htracked⟩ := hinv
  rw [History.step, hs]
  simp only [netReceiveIp]
  by_cases hacc : AcceptedIp ourIp frame.ip frame.len
  · rw [if_pos hacc, netDefragment]
    by_cases hfrag : fragOffset frame.ip = 0 ∧ ¬moreFragments frame.ip
    · rw [if_pos hfrag]
      exact ⟨s, rfl, by simpa [Collected, hfrag] using htracked⟩
    · rw [if_neg hfrag]
      by_cases hfar : TooFar frame.ip
      · rw [defragment, if_pos hfar]
        exact ⟨s, rfl, by simpa [Collected, hfar] using htracked⟩
      · have hcoll : Collected ourIp frame := ⟨hacc, hfrag, hfar⟩
        obtain ⟨hcomplete, hharmless⟩ := hsafe s hs hcoll
        have hcur : NewPacket s frame.ip ∨ Tracked s := by
          rcases htracked with hzero | hdone | htracked
          exacts [.inl (.inl hzero), .inl (hcomplete hdone), .inr htracked]
        obtain ⟨s', result, heq, htracked'⟩ := defragment_spec hfar hcur hharmless
        rw [heq]
        cases result with
        | none => exact ⟨s', rfl, .inr (.inr (htracked' rfl))⟩
        | some len => exact ⟨s', rfl, .inr (.inl rfl)⟩
  · rw [if_neg hacc]
    exact ⟨s, rfl, by simpa [Collected, hacc] using htracked⟩

/-- In every run of harmless packets all accesses are inside of the buffer, and no
copied length is negative. -/
theorem accesses_inside (frames : List Frame)
    (hframes : Guarded (step ourIp) (Safe ourIp) start frames) :
    (run (step ourIp) start frames).reasm ≠ none := by
  obtain ⟨s, hs, -⟩ := Guarded.invariant (I := Inv) (fun _ _ hinv hok => hinv.step ourIp hok)
    hframes ⟨_, rfl, .inl rfl⟩
  rw [hs]
  simp

instance (h : History) (frame : Frame) : Decidable (Safe ourIp h frame) :=
  inferInstanceAs (Decidable (∀ s ∈ h.reasm, _ → _))

/-- Twelve bytes in two fragments. -/
def firstFragment : Frame := Frame.ofBytes
  [69, 0, 0, 28, 0, 1, 32, 0, 64, 17, 217, 124, 192, 168, 0, 1, 192, 168, 0, 2,
    1, 2, 3, 4, 5, 6, 7, 8]

def lastFragment : Frame := Frame.ofBytes
  [69, 0, 0, 24, 0, 1, 0, 1, 64, 17, 249, 127, 192, 168, 0, 1, 192, 168, 0, 2,
    9, 10, 11, 12, 0, 0, 0, 0]

/-- A fragment at block 4 with `ip_len` 0. -/
def shortFragment : Frame := Frame.ofBytes
  [69, 0, 0, 0, 0, 1, 32, 4, 64, 17, 217, 148, 192, 168, 0, 1, 192, 168, 0, 2,
    0, 0, 0, 0, 0, 0, 0, 0]

theorem accesses_inside_two :
    Collected [0, 0, 0, 0] firstFragment ∧ Collected [0, 0, 0, 0] lastFragment ∧
      (run (step [0, 0, 0, 0]) start [firstFragment, lastFragment]).reasm ≠ none :=
  ⟨by decide, by decide, accesses_inside _ _
    ⟨by decide, by decide, trivial⟩⟩

/-- The length of the data is negative and is not noticed. -/
theorem accesses_outside : ¬∀ (ourIp : List UInt8) (frames : List Frame),
    (∀ frame ∈ frames, AcceptedIp ourIp frame.ip frame.len) →
      (run (step ourIp) start frames).reasm ≠ none := by
  intro h
  have hnone : (run (step [0, 0, 0, 0]) start [shortFragment]).reasm.isNone = true := by
    decide
  refine h [0, 0, 0, 0] [shortFragment] (fun frame hframe => ?_) (Option.isNone_iff_eq_none.mp hnone)
  rw [List.mem_singleton.mp hframe]
  decide

end History

end UBoot.Net
