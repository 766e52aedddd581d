import UBoot.Imximage.Table

/-!
# Regular configuration files

The lines before the first register command leave the table empty. The lines of the
second version then fill its blocks, those of the first version its entries, and the
head of the table covers them.
-/

namespace UBoot.Imximage

open Verification

section

variable {st st' : State} {a : Acc} {line : CmdLine} {lines : List CmdLine}

theorem regCmd_eq_none (h : line.cmd.isDcd = false) : line.regCmd = none := by
  rw [CmdLine.regCmd, h]
  rfl

theorem bootAfter_dcd (h : line.cmd.isDcd = true) (boot : UInt32 × UInt32) :
    line.bootAfter boot = boot := by
  obtain ⟨cmd, fields⟩ := line
  cases cmd with
  | data => rfl
  | clrBit => rfl
  | checkBitsSet => rfl
  | checkBitsClr => rfl
  | _ => cases h

theorem Rep.closedFor_other (h : Rep st a) {cmd : Cmd} (hdcd : cmd.isDcd = false) :
    a.closedFor cmd = a.blocks := by
  unfold Acc.closedFor Acc.blocks
  cases hcurrent : a.current with
  | none => simp
  | some b =>
    obtain ⟨hpre, hb, -⟩ := h.opened b hcurrent
    have hne : b.kind ≠ cmd := by
      rintro rfl
      rw [← hpre, hb] at hdcd
      cases hdcd
    dsimp only
    rw [if_neg hne]
    rfl

theorem Rep.entriesFor_other (h : Rep st a) {cmd : Cmd} (hdcd : cmd.isDcd = false) :
    a.entriesFor cmd = [] := by
  unfold Acc.entriesFor
  cases hcurrent : a.current with
  | none => rfl
  | some b =>
    obtain ⟨hpre, hb, -⟩ := h.opened b hcurrent
    have hne : b.kind ≠ cmd := by
      rintro rfl
      rw [← hpre, hb] at hdcd
      cases hdcd
    dsimp only
    rw [if_neg hne]

theorem Rep.step_other {lineno : Nat} {tokens : List Token} (h : Rep st a)
    (hline : cmdLine tokens = some line) (hdcd : line.cmd.isDcd = false)
    (hversion : line.versionAfter 2 = 2) (hparse : parseLine lineno st tokens = .ok st')
    (hfits : (dcdWords a.blocks).length < 512) :
    Rep st' (a.step line) ∧
      (st'.ivtOffset, st'.initLoadsize) = line.bootAfter (st.ivtOffset, st.initLoadsize) := by
  obtain ⟨hsame, hver, hboot⟩ := parseLine_other hline hdcd hparse
  have hclosed := h.closedFor_other hdcd
  obtain ⟨hindex, hlen⟩ := h.closeBlock line.cmd (by rw [hclosed]; omega)
  have hstep : a.step line = ⟨a.blocks, none⟩ := by rw [Acc.step, regCmd_eq_none hdcd]
  have hblocks : (a.step line).blocks = a.blocks := by
    rw [hstep]
    exact List.append_nil _
  refine ⟨⟨?_, ?_, ?_, ?_, ?_, ?_⟩, hboot⟩
  · rw [hver, h.version, hversion]
  · rw [hsame.dataindex, hstep, ← hclosed]
    exact hindex
  · rw [hstep]
    intro b hb
    cases hb
  · intro _
    rw [hsame.precmd, hsame.dcdLen]
    refine ⟨hdcd, hlen.trans ?_⟩
    rw [h.entriesFor_other hdcd]
    rfl
  · rw [hblocks, hsame.mem]
    exact (closeBlock_mem st line.cmd).symm ▸ h.mem
  · rw [hblocks, hsame.written]
    exact (closeBlock_written st line.cmd).symm ▸ h.written

/-- The blocks only grow. -/
theorem length_step_le (a : Acc) (line : CmdLine) :
    (dcdWords a.blocks).length ≤ (dcdWords (a.step line).blocks).length := by
  unfold Acc.step
  cases hreg : line.regCmd with
  | none => exact (congrArg (fun bs => (dcdWords bs).length) (List.append_nil _)).ge
  | some r =>
    have hle := length_blocks_le a r.kind
    refine hle.trans ?_
    dsimp only
    rw [Acc.blocks, Option.toList_some, dcdWords_append, dcdWords_singleton, List.length_append,
      length_words, List.length_append, List.length_singleton]
    dsimp only
    omega

theorem length_fold_le (a : Acc) (lines : List CmdLine) :
    (dcdWords a.blocks).length ≤ (dcdWords (lines.foldl Acc.step a).blocks).length := by
  induction lines generalizing a with
  | nil => exact le_rfl
  | cons line lines ih => exact (length_step_le a line).trans (ih (a.step line))

/-- A block with entries, one of them if it is a check. -/
def Block.Sound (b : Block) : Prop :=
  b.kind.isDcd = true ∧ 0 < b.entries.length ∧ (b.kind.isCheck = true → b.entries.length = 1)

/-- The commands of the blocks after a complete register command. -/
theorem commands_step {r : RegCmd} (hreg : line.regCmd = some r) (hsize : r.size = 4) :
    (a.step line).blocks.flatMap Block.commands = a.blocks.flatMap Block.commands ++ [r] := by
  have hr : r = ⟨r.kind, 4, r.addr, r.value⟩ := by rw [← hsize]
  unfold Acc.step Acc.blocks
  rw [hreg]
  unfold Acc.closedFor Acc.entriesFor
  cases a.current with
  | none => simp [Block.commands, ← hr]
  | some b =>
    dsimp only
    split_ifs with hkind
    · simp [Block.commands, hkind, ← hr]
    · simp [Block.commands, ← hr]

/-- The blocks after a complete register command that repeats no check. -/
theorem sound_step {r : RegCmd} {prev : Cmd} (hreg : line.regCmd = some r)
    (hsound : ∀ b ∈ a.blocks, b.Sound) (hprev : ∀ b, a.current = some b → prev = b.kind)
    (hcheck : line.cmd.isCheck = true → line.cmd ≠ prev) :
    ∀ b ∈ (a.step line).blocks, b.Sound := by
  obtain ⟨hdcd, hkind, -⟩ := regCmd_eq_some hreg
  rw [← hkind] at hdcd hcheck
  intro b hb
  rw [Acc.step, hreg] at hb
  dsimp only [Acc.blocks] at hb
  rw [Option.toList_some, List.mem_append, List.mem_singleton] at hb
  obtain hb | rfl := hb
  · apply hsound b
    unfold Acc.closedFor at hb
    unfold Acc.blocks
    cases hcurrent : a.current with
    | none => simpa [hcurrent] using hb
    | some b' =>
      rw [hcurrent] at hb
      dsimp only at hb
      split_ifs at hb
      · exact List.mem_append_left _ hb
      · exact hb
  · refine ⟨hdcd, by simp, fun hc => ?_⟩
    have hempty : a.entriesFor r.kind = [] := by
      unfold Acc.entriesFor
      cases hcurrent : a.current with
      | none => rfl
      | some b =>
        dsimp only
        refine if_neg fun heq => hcheck hc ?_
        rw [hprev b hcurrent, heq]
    simp [hempty]

/-- The offset and the load size after the lines. -/
def bootFrom (boot : UInt32 × UInt32) (lines : List CmdLine) : UInt32 × UInt32 :=
  lines.foldl (fun boot line => line.bootAfter boot) boot

/-- What the lines of the second version build. -/
structure Filled (st st' : State) (a a' : Acc) (lines : List CmdLine) : Prop where
  rep : Rep st' a'
  sound : ∀ b ∈ a'.blocks, b.Sound
  current : a'.current.isSome = true
  commands : a'.blocks.flatMap Block.commands = a.blocks.flatMap Block.commands ++ commands lines
  boot : (st'.ivtOffset, st'.initLoadsize) = bootFrom (st.ivtOffset, st.initLoadsize) lines

theorem Rep.run (hsteps : Steps st lines st') :
    ∀ {a : Acc} {prev : Cmd}, Rep st a → Ordered prev lines →
      (∀ b, a.current = some b → prev = b.kind) → prev.isDcd = a.current.isSome →
      (∀ b ∈ a.blocks, b.Sound) → (dcdWords (lines.foldl Acc.step a).blocks).length < 512 →
      Filled st st' a (lines.foldl Acc.step a) lines := by
  induction hsteps with
  | nil st =>
    intro a prev h hord hprev hsome hsound _
    refine ⟨h, hsound, hsome.symm.trans hord, ?_, rfl⟩
    simp [UBoot.Imximage.commands]
  | @cons lineno st st₁ st' tokens line lines hcmd hline hsteps ih =>
    intro a prev h hord hprev hsome hsound hfits
    obtain ⟨hcomplete, hcheck, hversion, hord⟩ := hord
    have hfits₁ := length_fold_le (a.step line) lines
    have hfits' : (dcdWords ((lines.foldl Acc.step (a.step line))).blocks).length < 512 := hfits
    have hfits₀ := length_step_le a line
    by_cases hdcd : line.cmd.isDcd = true
    · obtain ⟨r, hreg, hsize⟩ := hcomplete hdcd
      obtain ⟨-, hkind, -⟩ := regCmd_eq_some hreg
      obtain ⟨hrep, hivt, hload⟩ := h.step_dcd hcmd hreg hline (by omega)
      have hcurrent : (a.step line).current = some ⟨r.kind, a.entriesFor r.kind ++
          [(r.addr, r.value)]⟩ := by rw [Acc.step, hreg]
      obtain ⟨hrep', hsound', hsome', hcommands, hboot⟩ := ih hrep hord
        (fun b hb => by rw [hcurrent] at hb; cases hb; exact hkind.symm)
        (by rw [hcurrent, hdcd]; rfl) (sound_step hreg hsound hprev hcheck) hfits'
      refine ⟨hrep', hsound', hsome', ?_, ?_⟩
      · rw [List.foldl_cons, hcommands, commands_step hreg hsize, List.append_assoc,
          UBoot.Imximage.commands, UBoot.Imximage.commands, List.filterMap_cons_some hreg]
        rfl
      · rw [hboot, hivt, hload, bootFrom, bootFrom, List.foldl_cons, bootAfter_dcd hdcd]
    · rw [Bool.not_eq_true] at hdcd
      obtain ⟨hrep, hboot₁⟩ := h.step_other hcmd hdcd hversion hline (by omega)
      have hstep : a.step line = ⟨a.blocks, none⟩ := by rw [Acc.step, regCmd_eq_none hdcd]
      have hblocks : (a.step line).blocks = a.blocks := by
        rw [hstep]
        exact List.append_nil _
      obtain ⟨hrep', hsound', hsome', hcommands, hboot⟩ := ih hrep hord
        (fun b hb => by rw [hstep] at hb; cases hb) (by rw [hstep, hdcd]; rfl)
        (by rw [hblocks]; exact hsound) hfits'
      refine ⟨hrep', hsound', hsome', ?_, ?_⟩
      · rw [List.foldl_cons, hcommands, hblocks, UBoot.Imximage.commands, UBoot.Imximage.commands,
          List.filterMap_cons_none (regCmd_eq_none hdcd)]
      · rw [hboot, hboot₁]
        rfl

/-- The state before the first register command. -/
structure Fresh (st : State) : Prop where
  written : st.written = []
  dataindex : st.dataindex = 0
  dcdLen : st.dcdLen = 0
  precmd : st.precmd.isDcd = false

/-- Lines without a register command leave the table empty. -/
theorem Fresh.run (hsteps : Steps st lines st') (h : Fresh st)
    (hother : ∀ line ∈ lines, line.cmd.isDcd = false) :
    Fresh st' ∧ st'.version = lines.foldl (fun v line => line.versionAfter v) st.version ∧
      (st'.ivtOffset, st'.initLoadsize) = bootFrom (st.ivtOffset, st.initLoadsize) lines := by
  induction hsteps with
  | nil st => exact ⟨h, rfl, rfl⟩
  | @cons lineno st st₁ st' tokens line lines hcmd hline hsteps ih =>
    have hdcd := hother line List.mem_cons_self
    obtain ⟨hsame, hversion, hboot⟩ := parseLine_other hcmd hdcd hline
    have hclose : st.closeBlock line.cmd = st := by
      rw [State.closeBlock, if_neg fun hpre => by simp [h.precmd] at hpre]
    rw [hclose] at hsame
    have hfresh : Fresh st₁ := by
      refine ⟨?_, ?_, ?_, ?_⟩
      · rw [hsame.written, h.written]
      · rw [hsame.dataindex, h.dataindex]
      · rw [hsame.dcdLen, h.dcdLen]
      · rw [hsame.precmd, hdcd]
    obtain ⟨hfresh', hversion', hboot'⟩ :=
      ih hfresh fun line hmem => hother line (List.mem_cons_of_mem _ hmem)
    refine ⟨hfresh', ?_, ?_⟩
    · rw [hversion', hversion]
      rfl
    · rw [hboot', hboot]
      rfl

theorem Fresh.rep (h : Fresh st) (hversion : st.version = 2) : Rep st ⟨[], none⟩ := by
  refine ⟨hversion, ?_, ?_, ?_, rfl, ?_⟩
  · rw [h.dataindex]
    rfl
  · intro b hb
    cases hb
  · exact fun _ => ⟨h.precmd, h.dcdLen⟩
  · rw [h.written]
    intro i hi
    cases hi

theorem fold_other {pre : List CmdLine} (h : ∀ line ∈ pre, line.cmd.isDcd = false) :
    pre.foldl Acc.step ⟨[], none⟩ = ⟨[], none⟩ := by
  induction pre with
  | nil => rfl
  | cons line pre ih =>
    have hstep : Acc.step ⟨[], none⟩ line = ⟨[], none⟩ := by
      rw [Acc.step, regCmd_eq_none (h line List.mem_cons_self)]
      rfl
    rw [List.foldl_cons, hstep]
    exact ih fun line hmem => h line (List.mem_cons_of_mem _ hmem)

theorem commands_append_other {pre rest : List CmdLine}
    (h : ∀ line ∈ pre, line.cmd.isDcd = false) : commands (pre ++ rest) = commands rest := by
  have hnone : pre.filterMap CmdLine.regCmd = [] := by
    rw [List.filterMap_eq_nil_iff]
    exact fun line hmem => regCmd_eq_none (h line hmem)
  rw [commands, List.filterMap_append, hnone]
  rfl

theorem length_words_le {blocks : List Block} {b : Block} (h : b ∈ blocks) :
    b.words.length ≤ (dcdWords blocks).length := by
  obtain ⟨pre, rest, rfl⟩ := List.append_of_mem h
  simp [dcdWords]
  omega

theorem length_blocks_le_words (blocks : List Block) :
    blocks.length ≤ (dcdWords blocks).length := by
  induction blocks with
  | nil => exact le_rfl
  | cons b blocks ih =>
    rw [dcdWords, List.flatMap_cons, List.length_append, length_words, List.length_cons]
    rw [dcdWords] at ih
    omega

/-- The lines of an accepted file are handled one after the other. -/
theorem parseCfgFile_ok {file : List Char} (h : parseCfgFile file = .ok st) :
    ∃ st₀, Steps {} (cmdLines file) st₀ ∧ st = setDcdRst st₀ := by
  unfold parseCfgFile at h
  obtain ⟨st₀, hlines, h⟩ := bind_eq_ok.mp h
  dsimp only at h
  split_ifs at h
  exact ⟨st₀, parseLines_steps hlines, (Except.ok.inj h).symm⟩

/-- The table of the second version. -/
theorem exact_v2 {entryPoint : UInt32} {st₀ : State} (hsteps : Steps {} lines st₀)
    (h : RegularV2 lines entryPoint) : Exact (setDcdRst st₀) (commands lines) entryPoint := by
  obtain ⟨⟨pre, rest, rfl, ⟨hother, hpre⟩, hord⟩, hfits, hptr⟩ := h
  obtain ⟨mid, hsteps₁, hsteps₂⟩ := hsteps.append
  obtain ⟨hfresh, hversion, hboot₁⟩ := Fresh.run hsteps₁ ⟨rfl, rfl, rfl, rfl⟩ hother
  rw [blocksOf, List.foldl_append, fold_other hother] at hfits
  obtain ⟨hrep, hsound, hcurrent, hcommands, hboot₂⟩ :=
    Rep.run hsteps₂ (hfresh.rep (hversion.trans hpre)) hord (fun b hb => by cases hb) rfl
      (fun b hb => by cases hb) hfits
  generalize rest.foldl Acc.step ⟨[], none⟩ = a at *
  have hboot : (st₀.ivtOffset, st₀.initLoadsize) = bootOf (pre ++ rest) := by
    rw [hboot₂, hboot₁, bootFrom, bootFrom, bootOf, List.foldl_append]
  obtain ⟨b, hb⟩ := Option.isSome_iff_exists.mp hcurrent
  obtain ⟨-, -, hlen⟩ := hrep.opened b hb
  have hbmem : b ∈ a.blocks := by
    rw [Acc.blocks, hb]
    exact List.mem_append_right _ (List.mem_singleton.mpr rfl)
  have hpos := (hsound b hbmem).2.1
  have htotal : (dcdWords a.blocks).length = (dcdWords a.closed).length + 1 + 2 * st₀.dcdLen := by
    rw [Acc.blocks, hb, Option.toList_some, dcdWords_append, dcdWords_singleton,
      List.length_append, length_words, hlen]
    omega
  rw [commands_append_other hother]
  have hcmds : a.blocks.flatMap Block.commands = commands rest := hcommands
  have hne : ¬ st₀.version = 1 := by
    rw [hrep.version]
    decide
  have hst : setDcdRst st₀ = st₀.store 11 (commandWord 0xD2
      ((st₀.dataindex.toNat + 1) * 4 + st₀.dcdLen * 8 + 4) 0x40) := by
    rw [setDcdRst, if_neg hne]
  have hlength : (st₀.dataindex.toNat + 1) * 4 + st₀.dcdLen * 8 + 4 =
      4 * (dcdWords a.blocks).length + 4 := by
    rw [hrep.index, htotal]
    omega
  rw [hst, hlength]
  refine ⟨?_, ?_, ?_⟩
  · -- the ROM
    have hreadable : ∀ b ∈ a.blocks, b.Readable := by
      intro b hb
      obtain ⟨hdcd, -, hcheck⟩ := hsound b hb
      have hle := length_words_le hb
      rw [length_words] at hle
      exact ⟨hdcd, hcheck, by omega⟩
    rw [if_neg (by exact hne)]
    have hhead : (st₀.store 11 (commandWord 0xD2 (4 * (dcdWords a.blocks).length + 4) 0x40)).mem
        11 = commandWord 0xD2 (4 * (dcdWords a.blocks).length + 4) 0x40 := by
      simp [State.store]
    have hwords : wordsAt (st₀.store 11
        (commandWord 0xD2 (4 * (dcdWords a.blocks).length + 4) 0x40)).mem dcdDataV2
        (dcdWords a.blocks).length = dcdWords a.blocks :=
      (wordsAt_update (.inl (by decide))).trans hrep.mem
    have hn : (4 * (dcdWords a.blocks).length + 4) / 4 - 1 = (dcdWords a.blocks).length := by omega
    unfold romV2
    dsimp only
    rw [hhead, headTag_commandWord (by decide) (by decide),
      headParam_commandWord (by decide) (by decide),
      headLength_commandWord (by decide) (by decide) (by omega), hn, if_pos ⟨rfl, rfl, rfl⟩,
      hwords, romBlocks_dcdWords hreadable (length_blocks_le_words _), hcmds]
  · have hcmdne : commands rest ≠ [] := by
      rw [← hcmds]
      intro hnil
      have hbnil := List.flatMap_eq_nil_iff.mp hnil b hbmem
      have hzero := congrArg List.length hbnil
      rw [Block.commands, List.length_map, List.length_nil] at hzero
      omega
    refine ⟨fun _ => hcmdne, fun _ => ?_⟩
    rw [← hboot] at hptr
    unfold dcdPtr
    rw [if_neg (by exact hne)]
    refine ne_of_eq_of_ne (if_pos ?_) hptr
    show 0 < st₀.dcdLen
    omega
  · intro i hi
    have hrange : tableRange (st₀.store 11
        (commandWord 0xD2 (4 * (dcdWords a.blocks).length + 4) 0x40)).version = (11, 524) :=
      if_neg (by exact hne)
    rw [hrange]
    rcases List.mem_cons.mp hi with rfl | hi
    · decide
    · obtain ⟨hge, hle⟩ := hrep.written i hi
      unfold dcdDataV2 at hge hle
      exact ⟨by omega, by dsimp only; omega⟩

/-! ## The first version -/

/-- The entries that the ROM reads. -/
def entriesV1 (mem : Nat → UInt32) (n : Nat) : List RegCmd :=
  (List.range n).map fun i =>
    ⟨.data, hostWord (mem (addrDataV1 + 3 * i)), hostWord (mem (addrDataV1 + 3 * i + 1)),
      hostWord (mem (addrDataV1 + 3 * i + 2))⟩

theorem entriesV1_succ (mem : Nat → UInt32) (n : Nat) :
    entriesV1 mem (n + 1) = entriesV1 mem n ++
      [⟨.data, hostWord (mem (addrDataV1 + 3 * n)), hostWord (mem (addrDataV1 + 3 * n + 1)),
        hostWord (mem (addrDataV1 + 3 * n + 2))⟩] := by
  rw [entriesV1, List.range_succ, List.map_append]
  rfl

theorem entriesV1_congr {mem mem' : Nat → UInt32} {n : Nat}
    (h : ∀ i, addrDataV1 ≤ i → i < addrDataV1 + 3 * n → mem i = mem' i) :
    entriesV1 mem n = entriesV1 mem' n := by
  refine List.map_congr_left fun i hi => ?_
  have hlt := List.mem_range.mp hi
  rw [h _ (by omega) (by omega), h _ (by omega) (by omega), h _ (by omega) (by omega)]

/-- The state of the parser for the entries so far. -/
structure RepV1 (st : State) (cmds : List RegCmd) : Prop where
  version : st.version = 1
  precmd : cmds = [] ∨ st.precmd = .data
  entries : entriesV1 st.mem st.dcdLen = cmds
  len : st.dcdLen ≤ 60
  written : ∀ i ∈ st.written, addrDataV1 ≤ i ∧ i < addrDataV1 + 180

theorem RepV1.dcdLen_eq {cmds : List RegCmd} (h : RepV1 st cmds) : st.dcdLen = cmds.length := by
  rw [← h.entries, entriesV1, List.length_map, List.length_range]

/-- No entry is lost at a `DATA` line, nor while there is none. -/
theorem RepV1.closeBlock {cmds : List RegCmd} (h : RepV1 st cmds) {cmd : Cmd}
    (hcmd : cmd = .data ∨ cmds = []) : (st.closeBlock cmd).dcdLen = st.dcdLen := by
  have hlen := h.dcdLen_eq
  unfold State.closeBlock
  split
  · rename_i hclosed
    rcases hcmd with rfl | rfl
    · rcases h.precmd with rfl | hpre
      · exact hlen.symm
      · exact absurd hpre.symm hclosed.2
    · exact hlen.symm
  · rfl

/-- The entry behind those that are counted may have changed. -/
structure Touched (st st' : State) : Prop where
  version : st'.version = st.version
  precmd : st'.precmd = st.precmd
  dcdLen : st'.dcdLen = st.dcdLen
  mem : ∀ i, i < addrDataV1 + 3 * st.dcdLen → st'.mem i = st.mem i
  written : ∀ i ∈ st'.written, i ∈ st.written ∨
    addrDataV1 + 3 * st.dcdLen ≤ i ∧ i < addrDataV1 + 3 * st.dcdLen + 2

theorem Touched.refl (st : State) : Touched st st :=
  ⟨rfl, rfl, rfl, fun _ _ => rfl, fun _ hi => .inl hi⟩

theorem Touched.trans {st₁ st₂ st₃ : State} (h₁ : Touched st₁ st₂) (h₂ : Touched st₂ st₃) :
    Touched st₁ st₃ := by
  refine ⟨h₂.version.trans h₁.version, h₂.precmd.trans h₁.precmd, h₂.dcdLen.trans h₁.dcdLen,
    fun i hi => ?_, fun i hi => ?_⟩
  · rw [h₂.mem i (by rw [h₁.dcdLen]; exact hi), h₁.mem i hi]
  · rcases h₂.written i hi with hi | hi
    · exact h₁.written i hi
    · rw [h₁.dcdLen] at hi
      exact .inr hi

theorem Touched.store (st : State) {k : Nat} (hk : k < 2) (w : UInt32) :
    Touched st (st.store (addrDataV1 + 3 * st.dcdLen + k) w) := by
  refine ⟨rfl, rfl, rfl, fun i hi => Function.update_of_ne (by omega) _ _, fun i hi => ?_⟩
  rcases List.mem_cons.mp hi with rfl | hi
  · exact .inr ⟨by omega, by omega⟩
  · exact .inl hi

/-- The size of a `DATA` line is stored. -/
theorem parseCfgCmd_data {lineno : Nat} {token : Token} (hv : st.version = 1)
    (h : parseCfgCmd lineno st .data token = .ok st') :
    ∃ size first, cfgValue lineno token = .ok size ∧
      st' = { st.store (addrDataV1 + 3 * st.dcdLen) (hostWord size) with cmdVerFirst := first } := by
  unfold parseCfgCmd at h
  obtain ⟨size, hsize, h⟩ := bind_eq_ok.mp h
  obtain ⟨st₁, hset, h⟩ := bind_eq_ok.mp h
  rw [setDcdVal, if_pos hv, setDcdValV1] at hset
  split_ifs at hset
  obtain rfl := Except.ok.inj hset
  obtain ⟨first, hseen⟩ := seen_eq (st.store (addrDataV1 + 3 * st.dcdLen) (hostWord size))
  exact ⟨size, first, hsize, (Except.ok.inj h).symm.trans hseen⟩

theorem parseEntryFld_address_v1 {lineno : Nat} {cmd : Cmd} {token : Token} (hv : st.version = 1)
    (hdcd : cmd.isDcd = true) (h : parseEntryFld lineno st cmd .regAddress token = .ok st') :
    ∃ addr, cfgValue lineno token = .ok addr ∧
      st' = st.store (addrDataV1 + 3 * st.dcdLen + 1) (hostWord addr) := by
  unfold parseEntryFld at h
  rw [if_pos hdcd] at h
  obtain ⟨addr, haddr, h⟩ := bind_eq_ok.mp h
  rw [setDcdVal, if_pos hv] at h
  exact ⟨addr, haddr, (Except.ok.inj h).symm⟩

theorem touched_parseCfgCmd {lineno : Nat} {cmd : Cmd} {token : Token} (hv : st.version = 1)
    (hdcd : cmd.isDcd = true) (h : parseCfgCmd lineno st cmd token = .ok st') : Touched st st' := by
  cases cmd with
  | data =>
    obtain ⟨size, first, -, rfl⟩ := parseCfgCmd_data hv h
    have hstore := Touched.store st (k := 0) (by decide) (hostWord size)
    exact ⟨hstore.version, hstore.precmd, hstore.dcdLen, hstore.mem, hstore.written⟩
  | clrBit | checkBitsSet | checkBitsClr =>
    rw [← Except.ok.inj h]
    exact .refl st
  | _ => cases hdcd

theorem parseCommand_v1 {lineno : Nat} {cmd : Cmd} {command : Token} (hv : st.version = 1)
    (hid : getTableEntryId imximageCmds command = some cmd) (hdcd : cmd.isDcd = true) :
    parseCommand lineno st command = .ok ({ st.closeBlock cmd with precmd := cmd }, cmd) := by
  unfold parseCommand
  rw [hid]
  dsimp only
  rw [if_pos hdcd, setDcdVal, if_pos (by rw [closeBlock_version, hv])]
  rfl

/-- A register command that breaks off counts nothing. -/
theorem touched_parseLine {lineno : Nat} {tokens : List Token}
    (hline : cmdLine tokens = some line) (hdcd : line.cmd.isDcd = true)
    (hfew : line.fields.length < 3) (hv : st.version = 1)
    (h : parseLine lineno st tokens = .ok st') :
    Touched { st.closeBlock line.cmd with precmd := line.cmd } st' ∧
      (line.fields = [] → st'.written = st.written) := by
  obtain ⟨command, rfl, hid⟩ := cmdLine_eq_some hline
  obtain ⟨cmd, fields⟩ := line
  dsimp only at h hid hdcd hfew ⊢
  have hv₁ : ({ st.closeBlock cmd with precmd := cmd } : State).version = 1 :=
    (closeBlock_version st cmd).trans hv
  have hwritten : ({ st.closeBlock cmd with precmd := cmd } : State).written = st.written :=
    closeBlock_written st cmd
  unfold parseLine at h
  dsimp only at h
  rw [parseCommand_v1 hv hid hdcd] at h
  dsimp only [Bind.bind, Except.bind] at h
  generalize ({ st.closeBlock cmd with precmd := cmd } : State) = st₁ at *
  rcases fields with _ | ⟨size, fields⟩
  · obtain rfl := Except.ok.inj h
    exact ⟨.refl _, fun _ => hwritten⟩
  · refine ⟨?_, fun hnil => absurd hnil (List.cons_ne_nil _ _)⟩
    dsimp only at h
    obtain ⟨st₂, hcfg, h⟩ := bind_eq_ok.mp h
    have hsize := touched_parseCfgCmd hv₁ hdcd hcfg
    rcases fields with _ | ⟨addr, _ | ⟨value, rest⟩⟩
    · exact Except.ok.inj h ▸ hsize
    · obtain ⟨value, -, rfl⟩ := parseEntryFld_address_v1 (hsize.version.trans hv₁) hdcd h
      exact hsize.trans (.store st₂ (k := 1) (by decide) (hostWord value))
    · simp at hfew
      omega

theorem parseEntryFld_value_v1 {lineno : Nat} {token : Token} {value : UInt32}
    (hv : st.version = 1) (hvalue : getCfgValue token = some value)
    (h : parseEntryFld lineno st .data .regValue token = .ok st') :
    st.dcdLen + 1 ≤ 60 ∧
      st' = { st.store (addrDataV1 + 3 * st.dcdLen + 2) (hostWord value) with
        dcdLen := st.dcdLen + 1 } := by
  unfold parseEntryFld at h
  rw [if_pos (show Cmd.data.isDcd = true from rfl), cfgValue_eq hvalue] at h
  dsimp only [Bind.bind, Except.bind] at h
  rw [setDcdVal, if_pos hv, setDcdValV1] at h
  dsimp only at h
  rw [if_pos rfl] at h
  have hmax : (st.store (addrDataV1 + 3 * st.dcdLen + 2) (hostWord value)).maxDcdEntries = 60 :=
    if_pos hv
  rw [hmax] at h
  split_ifs at h with hexceeds
  exact ⟨Nat.le_of_not_lt hexceeds, (Except.ok.inj h).symm⟩

/-- What a complete `DATA` line of the first version does. -/
theorem parseLine_data {lineno : Nat} {tokens : List Token} {r : RegCmd}
    (hline : cmdLine tokens = some line) (hcmd : line.cmd = .data) (hreg : line.regCmd = some r)
    (hv : st.version = 1) (h : parseLine lineno st tokens = .ok st') :
    let st₀ := st.closeBlock .data
    st₀.dcdLen + 1 ≤ 60 ∧ ∃ first, st' =
      { ((st₀.store (addrDataV1 + 3 * st₀.dcdLen) (hostWord r.size)).store
          (addrDataV1 + 3 * st₀.dcdLen + 1) (hostWord r.addr)).store
          (addrDataV1 + 3 * st₀.dcdLen + 2) (hostWord r.value) with
        dcdLen := st₀.dcdLen + 1, precmd := .data, cmdVerFirst := first } := by
  intro st₀
  obtain ⟨command, rfl, hid⟩ := cmdLine_eq_some hline
  obtain ⟨-, hkind, size, addr, value, rest, hfields, hs, ha, hval⟩ := regCmd_eq_some hreg
  rw [hcmd] at hid
  have hv₀ : st₀.version = 1 := (closeBlock_version st .data).trans hv
  rw [hfields] at h
  unfold parseLine at h
  dsimp only at h
  rw [parseCommand_v1 hv hid rfl] at h
  obtain ⟨_, hcommand, h⟩ := bind_eq_ok.mp h
  cases hcommand
  obtain ⟨st₂, hcfg, h⟩ := bind_eq_ok.mp h
  obtain ⟨size', first, hsize, rfl⟩ := parseCfgCmd_data (by exact hv₀) hcfg
  obtain rfl := Except.ok.inj ((cfgValue_eq hs).symm.trans hsize)
  obtain ⟨st₃, haddress, h⟩ := bind_eq_ok.mp h
  obtain ⟨addr', haddr, rfl⟩ := parseEntryFld_address_v1 (by exact hv₀) rfl haddress
  obtain rfl := Except.ok.inj ((cfgValue_eq ha).symm.trans haddr)
  obtain ⟨hmax, hst'⟩ := parseEntryFld_value_v1 (by exact hv₀) hval h
  exact ⟨hmax, first, hst'⟩

theorem RepV1.step {lineno : Nat} {tokens : List Token} {cmds : List RegCmd} {r : RegCmd}
    (h : RepV1 st cmds) (hline : cmdLine tokens = some line) (hcmd : line.cmd = .data)
    (hreg : line.regCmd = some r) (hparse : parseLine lineno st tokens = .ok st') :
    RepV1 st' (cmds ++ [r]) := by
  obtain ⟨-, hkind, -⟩ := regCmd_eq_some hreg
  obtain ⟨hmax, first, rfl⟩ := parseLine_data hline hcmd hreg h.version hparse
  have hlen := h.closeBlock (.inl rfl)
  rw [hlen] at hmax ⊢
  refine ⟨(closeBlock_version st .data).trans h.version, .inr rfl, ?_, hmax, ?_⟩
  · have hr : r = ⟨.data, r.size, r.addr, r.value⟩ := by rw [← hcmd, ← hkind]
    dsimp only [State.store]
    rw [closeBlock_mem]
    have hkeep : entriesV1 (Function.update (Function.update (Function.update st.mem
        (addrDataV1 + 3 * st.dcdLen) (hostWord r.size)) (addrDataV1 + 3 * st.dcdLen + 1)
        (hostWord r.addr)) (addrDataV1 + 3 * st.dcdLen + 2) (hostWord r.value)) st.dcdLen =
        entriesV1 st.mem st.dcdLen := by
      refine entriesV1_congr fun i _ hlt => ?_
      rw [Function.update_of_ne (by omega), Function.update_of_ne (by omega),
        Function.update_of_ne (by omega)]
    rw [entriesV1_succ, hkeep, h.entries,
      Function.update_self, Function.update_of_ne (by omega), Function.update_of_ne (by omega),
      Function.update_self, Function.update_of_ne (by omega), Function.update_self,
      hostWord_hostWord, hostWord_hostWord, hostWord_hostWord, ← hr]
  · intro i hi
    simp only [State.store, List.mem_cons, closeBlock_written] at hi
    obtain rfl | rfl | rfl | hi := hi
    · omega
    · omega
    · omega
    · exact h.written i hi

/-- A line without a register command that is complete. -/
theorem RepV1.step_none {lineno : Nat} {tokens : List Token} {cmds : List RegCmd}
    (h : RepV1 st cmds) (hline : cmdLine tokens = some line)
    (hcmd : line.cmd = .data ∨ cmds = []) (hversion : line.versionAfter 1 = 1)
    (hfew : line.cmd.isDcd = true →
      line.fields.length < 3 ∧ (line.fields = [] ∨ cmds.length < 60))
    (hparse : parseLine lineno st tokens = .ok st') : RepV1 st' cmds := by
  have hlen := h.closeBlock hcmd
  cases hdcd : line.cmd.isDcd with
  | false =>
    obtain ⟨hsame, hver, -⟩ := parseLine_other hline hdcd hparse
    have hnil : cmds = [] := hcmd.resolve_left fun hdata => by
      rw [hdata] at hdcd
      cases hdcd
    have hlen' : st'.dcdLen = st.dcdLen := hsame.dcdLen.trans hlen
    refine ⟨?_, .inl hnil, ?_, hlen'.trans_le h.len, ?_⟩
    · rw [hver, h.version, hversion]
    · rw [hlen', hsame.mem, ← h.entries]
      exact congrArg (entriesV1 · st.dcdLen) (closeBlock_mem st line.cmd)
    · rw [hsame.written]
      exact (closeBlock_written st line.cmd).symm ▸ h.written
  | true =>
    obtain ⟨hfields, hroom⟩ := hfew hdcd
    obtain ⟨touched, hempty⟩ := touched_parseLine hline hdcd hfields h.version hparse
    have hlen' : st'.dcdLen = st.dcdLen := touched.dcdLen.trans hlen
    refine ⟨touched.version.trans ((closeBlock_version st line.cmd).trans h.version), ?_, ?_,
      hlen'.trans_le h.len, fun i hi => ?_⟩
    · exact hcmd.symm.imp id fun hdata => touched.precmd.trans hdata
    · rw [hlen', ← h.entries]
      refine entriesV1_congr fun i _ hlt => ?_
      have hi : i < addrDataV1 + 3 * (st.closeBlock line.cmd).dcdLen := by rwa [hlen]
      exact (touched.mem i hi).trans (congrFun (closeBlock_mem st line.cmd) i)
    · rcases hroom with hnil | hroom
      · rw [hempty hnil] at hi
        exact h.written i hi
      · rw [← h.dcdLen_eq] at hroom
        rcases touched.written i hi with hi | ⟨hge, hlt⟩
        · exact h.written i (closeBlock_written st line.cmd ▸ hi)
        · have hslot : addrDataV1 + 3 * (st.closeBlock line.cmd).dcdLen =
              addrDataV1 + 3 * st.dcdLen := by rw [hlen]
          dsimp only at hge hlt
          omega

theorem RepV1.run (hsteps : Steps st lines st') {cmds : List RegCmd} (h : RepV1 st cmds)
    (hord : OrderedV1 cmds.length lines) : RepV1 st' (cmds ++ commands lines) := by
  induction hsteps generalizing cmds with
  | nil st => simpa [commands] using h
  | @cons lineno st st₁ st' tokens line lines hcmd hline hsteps ih =>
    obtain ⟨hdata, hversion, hord⟩ := hord
    cases hreg : line.regCmd with
    | some r =>
      rw [hreg] at hord
      have hrest := ih (h.step hcmd hord.1 hreg hline)
        (by rw [List.length_append]; exact hord.2)
      rw [commands, List.filterMap_cons_some hreg]
      rw [commands, List.append_assoc] at hrest
      exact hrest
    | none =>
      rw [hreg] at hord
      have hrest := ih (h.step_none hcmd (hdata.imp id List.length_eq_zero_iff.mp) hversion
        hord.1 hline) hord.2
      rwa [commands, List.filterMap_cons_none hreg]

/-- The table of the first version. -/
theorem exact_v1 {entryPoint : UInt32} {st₀ : State} (hsteps : Steps {} lines st₀)
    (h : RegularV1 lines entryPoint) : Exact (setDcdRst st₀) (commands lines) entryPoint := by
  obtain ⟨⟨pre, rest, rfl, ⟨hother, hpre⟩, hord⟩, hptr⟩ := h
  obtain ⟨mid, hsteps₁, hsteps₂⟩ := hsteps.append
  obtain ⟨hfresh, hversion, -⟩ := Fresh.run hsteps₁ ⟨rfl, rfl, rfl, rfl⟩ hother
  have hmid : RepV1 mid [] := by
    refine ⟨hversion.trans hpre, .inl rfl, ?_, ?_, ?_⟩
    · rw [hfresh.dcdLen]
      rfl
    · rw [hfresh.dcdLen]
      decide
    · rw [hfresh.written]
      intro i hi
      cases hi
  have hrep : RepV1 st₀ (commands rest) := RepV1.run hsteps₂ hmid hord
  rw [commands_append_other hother] at hptr ⊢
  have hst : setDcdRst st₀ = (st₀.store 7 (hostWord 0xB17219E9)).store 8
      (hostWord (UInt32.ofNat (st₀.dcdLen * 12))) := by
    rw [setDcdRst, if_pos hrep.version]
  rw [hst]
  refine ⟨?_, ?_, ?_⟩
  · have hle := hrep.len
    rw [if_pos (by exact hrep.version)]
    dsimp only [State.store]
    have hbarker : Function.update (Function.update st₀.mem 7 (hostWord 0xB17219E9)) 8
        (hostWord (UInt32.ofNat (st₀.dcdLen * 12))) 7 = hostWord 0xB17219E9 := by
      rw [Function.update_of_ne (by decide), Function.update_self]
    have hlength : (UInt32.ofNat (st₀.dcdLen * 12)).toNat = 12 * st₀.dcdLen := by
      rw [UInt32.toNat_ofNat']
      omega
    have hn : 12 * st₀.dcdLen / 12 = st₀.dcdLen := by omega
    have hkeep : entriesV1 (Function.update (Function.update st₀.mem 7 (hostWord 0xB17219E9)) 8
        (hostWord (UInt32.ofNat (st₀.dcdLen * 12)))) st₀.dcdLen =
        entriesV1 st₀.mem st₀.dcdLen := by
      refine entriesV1_congr fun i hge _ => ?_
      unfold addrDataV1 at hge
      rw [Function.update_of_ne (by omega), Function.update_of_ne (by omega)]
    unfold romV1
    dsimp only
    rw [hbarker, Function.update_self, hostWord_hostWord, hostWord_hostWord, hlength, hn,
      if_pos ⟨rfl, rfl⟩]
    exact congrArg some (hkeep.trans hrep.entries)
  · unfold dcdPtr
    rw [if_pos (by exact hrep.version)]
    exact hptr
  · intro i hi
    have hrange : tableRange ((st₀.store 7 (hostWord 0xB17219E9)).store 8
        (hostWord (UInt32.ofNat (st₀.dcdLen * 12)))).version = (7, 189) :=
      if_pos (by exact hrep.version)
    rw [hrange]
    simp only [State.store, List.mem_cons] at hi
    obtain rfl | rfl | hi := hi
    · decide
    · decide
    · obtain ⟨hge, hlt⟩ := hrep.written i hi
      unfold addrDataV1 at hge hlt
      exact ⟨by omega, by omega⟩

end

/-- The DCD table of a regular file holds its register commands. -/
theorem dcd_table_exact {file : List Char} {entryPoint : UInt32}
    (h : RegularV1 (cmdLines file) entryPoint ∨ RegularV2 (cmdLines file) entryPoint) :
    BuildsTable file entryPoint := by
  intro st hparse
  obtain ⟨st₀, hsteps, rfl⟩ := parseCfgFile_ok hparse
  obtain h | h := h
  · exact exact_v1 hsteps h
  · exact exact_v2 hsteps h

/-- A file with one command of each of two kinds. -/
def smallFile : List Char :=
  "IMAGE_VERSION 2\nBOOT_FROM sd\nDATA 4 0x20c4068 0x3f\nCHECK_BITS_SET 4 0x1000 1\n".toList

theorem dcd_table_exact_small :
    RegularV2 (cmdLines smallFile) 0x17800000 ∧ BuildsTable smallFile 0x17800000 := by
  have hregular : RegularV2 (cmdLines smallFile) 0x17800000 := by
    refine ⟨⟨[⟨.imageVersion, ["2".toList]⟩, ⟨.bootFrom, ["sd".toList]⟩],
      [⟨.data, ["4".toList, "0x20c4068".toList, "0x3f".toList]⟩,
        ⟨.checkBitsSet, ["4".toList, "0x1000".toList, "1".toList]⟩], by rfl, ⟨?_, ?_⟩, ?_⟩, ?_, ?_⟩
    · simp [Cmd.isDcd]
    · rfl
    · exact ⟨fun _ => ⟨_, rfl, rfl⟩, fun h => (nomatch h), rfl,
        fun _ => ⟨_, rfl, rfl⟩, fun _ => by decide, rfl, rfl⟩
    · decide
    · decide
  exact ⟨hregular, dcd_table_exact (.inr hregular)⟩

/-- A register command before the last other command. -/
def trailingFile : List Char :=
  "IMAGE_VERSION 2\nBOOT_FROM sd\nDATA 4 0x20c4068 0x3f\nCSF 0x2000\n".toList

/-- The command is in the table, but the table is not used. -/
theorem dcd_table_dropped : ¬ BuildsTable trailingFile 0x17800000 := by
  intro h
  obtain ⟨st, hparse, hversion, hlen⟩ : ∃ st, parseCfgFile trailingFile = .ok st ∧
      st.version = 2 ∧ st.dcdLen = 0 := ⟨_, rfl, rfl, rfl⟩
  have hptr : dcdPtr st 0x17800000 = 0 := by
    unfold dcdPtr
    rw [hversion, hlen]
    rfl
  exact (h st hparse).ptr.mpr (by decide) hptr

end UBoot.Imximage
