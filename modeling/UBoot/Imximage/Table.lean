import UBoot.Imximage.Rom

/-!
# The DCD table holds the register commands of the file

The words of the blocks read back as their commands, each line of a regular file
adds its command to the last block or starts a new one, and the length in the head
covers the blocks.
-/

namespace UBoot.Imximage

open Verification

/-- A step that others follow has a result, and they go on from it. -/
theorem bind_eq_ok {ε α β : Type} {x : Except ε α} {f : α → Except ε β} {r : β} :
    x >>= f = .ok r ↔ ∃ a, x = .ok a ∧ f a = .ok r := by
  cases x <;> simp [Bind.bind, Except.bind]

/-! ## Words -/

section

variable {tag length param : Nat}

theorem toNat_commandWord (htag : tag < 256) (hparam : param < 256) :
    (commandWord tag length param).toNat = tag * 2 ^ 24 + length % 2 ^ 16 * 2 ^ 8 + param := by
  unfold commandWord
  rw [UInt32.toNat_ofNat']
  omega

theorem headTag_commandWord (htag : tag < 256) (hparam : param < 256) :
    headTag (commandWord tag length param) = tag := by
  rw [headTag, toNat_commandWord htag hparam]
  omega

theorem headLength_commandWord (htag : tag < 256) (hparam : param < 256)
    (hlength : length < 2 ^ 16) : headLength (commandWord tag length param) = length := by
  rw [headLength, toNat_commandWord htag hparam]
  omega

theorem headParam_commandWord (htag : tag < 256) (hparam : param < 256) :
    headParam (commandWord tag length param) = param := by
  rw [headParam, toNat_commandWord htag hparam]
  omega

end

/-- Reading a host word twice swaps its bytes back. -/
theorem hostWord_hostWord (w : UInt32) : hostWord (hostWord w) = w := by
  set bs := beBytes 4 w.toNat with hbs
  have hlen : bs.reverse.length = 4 := by simp [hbs]
  have hword : (hostWord w).toNat = beValue bs.reverse := by
    have hlt := beValue_lt bs.reverse
    rw [hlen] at hlt
    rw [hostWord, UInt32.toNat_ofNat']
    exact Nat.mod_eq_of_lt hlt
  have hbytes : beBytes 4 (hostWord w).toNat = bs.reverse := by
    rw [hword, ← hlen, beBytes_beValue]
  rw [hostWord, hbytes, leValue, List.reverse_reverse, hbs, beValue_beBytes,
    Nat.mod_eq_of_lt (show w.toNat < 256 ^ 4 from w.toNat_lt), UInt32.ofNat_toNat]

def Block.Readable (b : Block) : Prop :=
  b.kind.isDcd = true ∧ (b.kind.isCheck = true → b.entries.length = 1) ∧ b.entries.length < 1024

def Block.commands (b : Block) : List RegCmd := b.entries.map fun e => ⟨b.kind, 4, e.1, e.2⟩

theorem commandHead_spec {kind : Cmd} {n : Nat} (hdcd : kind.isDcd = true)
    (hcheck : kind.isCheck = true → n = 1) (hn : n < 1024) :
    romKind (headTag ((commandHead kind n).getD 0)) (headParam ((commandHead kind n).getD 0)) =
        some kind ∧
      headLength ((commandHead kind n).getD 0) = 8 * n + 4 := by
  cases kind with
  | data =>
    rw [commandHead, Option.getD_some, headTag_commandWord, headParam_commandWord,
      headLength_commandWord] <;> first | omega | exact ⟨rfl, by omega⟩
  | clrBit =>
    rw [commandHead, Option.getD_some, headTag_commandWord, headParam_commandWord,
      headLength_commandWord] <;> first | omega | exact ⟨rfl, by omega⟩
  | checkBitsSet =>
    obtain rfl := hcheck rfl
    decide
  | checkBitsClr =>
    obtain rfl := hcheck rfl
    decide
  | _ => cases hdcd

theorem length_entryWords (entries : List (UInt32 × UInt32)) :
    (entries.flatMap fun e => [e.1, e.2]).length = 2 * entries.length := by
  induction entries with
  | nil => rfl
  | cons e entries ih =>
    rw [List.flatMap_cons, List.length_append, ih, List.length_cons]
    simp
    omega

theorem romPairs_entryWords (kind : Cmd) (entries : List (UInt32 × UInt32)) :
    romPairs kind (entries.flatMap fun e => [e.1, e.2]) =
      entries.map fun e => ⟨kind, 4, e.1, e.2⟩ := by
  induction entries with
  | nil => rfl
  | cons e entries ih =>
    rw [List.flatMap_cons, List.map_cons, ← ih]
    rfl

@[simp] theorem length_words (b : Block) : b.words.length = 1 + 2 * b.entries.length := by
  rw [Block.words, List.length_cons, length_entryWords, Nat.add_comm]

theorem romBlocks_dcdWords {blocks : List Block} (h : ∀ b ∈ blocks, b.Readable) {fuel : Nat}
    (hfuel : blocks.length ≤ fuel) :
    romBlocks fuel (dcdWords blocks) = some (blocks.flatMap Block.commands) := by
  induction blocks generalizing fuel with
  | nil => cases fuel <;> rfl
  | cons b blocks ih =>
    obtain ⟨fuel, rfl⟩ := Nat.exists_eq_add_of_le' (Nat.lt_of_lt_of_le (Nat.succ_pos _) hfuel)
    obtain ⟨hdcd, hcheck, hlen⟩ := h b List.mem_cons_self
    obtain ⟨hkind, hlength⟩ := commandHead_spec hdcd hcheck hlen
    have hrest := ih (fun b hb => h b (List.mem_cons_of_mem _ hb)) (Nat.le_of_succ_le_succ hfuel)
    have hn : (8 * b.entries.length + 4) / 8 = b.entries.length := by omega
    rw [dcdWords, List.flatMap_cons, Block.words, List.cons_append, romBlocks]
    simp only [hkind, hlength, hn]
    rw [if_pos ⟨trivial, by rw [List.length_append, length_entryWords]; omega, hcheck⟩,
      List.drop_left' (length_entryWords _), List.take_left' (length_entryWords _),
      romPairs_entryWords]
    rw [dcdWords] at hrest
    rw [hrest, List.flatMap_cons]
    rfl

/-! ## Lines -/

section

variable {lineno : Nat} {st st' : State} {tokens : List Token} {line : CmdLine}

theorem cmdLine_eq_some (h : cmdLine tokens = some line) :
    ∃ command, tokens = command :: line.fields ∧
      getTableEntryId imximageCmds command = some line.cmd := by
  cases tokens with
  | nil => cases h
  | cons command fields =>
    obtain ⟨cmd, hcmd, rfl⟩ := Option.map_eq_some_iff.mp h
    exact ⟨command, rfl, hcmd⟩

theorem regCmd_eq_some {r : RegCmd} (h : line.regCmd = some r) :
    line.cmd.isDcd = true ∧ r.kind = line.cmd ∧
      ∃ size addr value rest, line.fields = size :: addr :: value :: rest ∧
        getCfgValue size = some r.size ∧ getCfgValue addr = some r.addr ∧
        getCfgValue value = some r.value := by
  unfold CmdLine.regCmd at h
  split_ifs at h with hdcd
  split at h
  · rename_i size addr value rest hfields
    simp only [Option.bind_eq_bind, Option.bind_eq_some_iff, Option.pure_def,
      Option.some.injEq] at h
    obtain ⟨s, hs, a, ha, v, hv, rfl⟩ := h
    exact ⟨hdcd, rfl, size, addr, value, rest, hfields, hs, ha, hv⟩
  · cases h

theorem closeBlock_version (st : State) (cmd : Cmd) : (st.closeBlock cmd).version = st.version := by
  unfold State.closeBlock
  split_ifs <;> rfl

theorem closeBlock_written (st : State) (cmd : Cmd) : (st.closeBlock cmd).written = st.written := by
  unfold State.closeBlock
  split_ifs <;> rfl

theorem closeBlock_ivtOffset (st : State) (cmd : Cmd) :
    (st.closeBlock cmd).ivtOffset = st.ivtOffset := by
  unfold State.closeBlock
  split_ifs <;> rfl

theorem closeBlock_initLoadsize (st : State) (cmd : Cmd) :
    (st.closeBlock cmd).initLoadsize = st.initLoadsize := by
  unfold State.closeBlock
  split_ifs <;> rfl

theorem closeBlock_mem (st : State) (cmd : Cmd) : (st.closeBlock cmd).mem = st.mem := by
  unfold State.closeBlock
  split_ifs <;> rfl

theorem parseCommand_dcd {cmd : Cmd} {command : Token} (hv : st.version = 2)
    (hid : getTableEntryId imximageCmds command = some cmd) (hdcd : cmd.isDcd = true) :
    parseCommand lineno st command =
      .ok ({ setDcdValV2 (st.closeBlock cmd) .command cmd 0 ((st.closeBlock cmd).dcdLen + 1) with
        precmd := cmd }, cmd) := by
  have hne : ¬ (st.closeBlock cmd).version = 1 := by
    rw [closeBlock_version, hv]
    decide
  unfold parseCommand
  rw [hid]
  dsimp only
  rw [if_pos hdcd, setDcdVal, if_neg hne]
  rfl

theorem cfgValue_eq {token : Token} {value : UInt32} (h : getCfgValue token = some value) :
    cfgValue lineno token = .ok value := by
  rw [cfgValue, h]

theorem seen_eq (st : State) : ∃ first, st.seen = { st with cmdVerFirst := first } := by
  unfold State.seen
  split_ifs with hfirst
  · exact ⟨st.cmdVerFirst, rfl⟩
  · exact ⟨some false, rfl⟩

theorem parseCfgCmd_dcd (lineno : Nat) {cmd : Cmd} {token : Token} {size : UInt32} (hv : st.version = 2)
    (hdcd : cmd.isDcd = true) (hsize : getCfgValue token = some size) :
    ∃ first, parseCfgCmd lineno st cmd token = .ok { st with cmdVerFirst := first } := by
  cases cmd with
  | data =>
    obtain ⟨first, hseen⟩ := seen_eq st
    refine ⟨first, ?_⟩
    unfold parseCfgCmd
    dsimp only
    rw [cfgValue_eq hsize, ← hseen]
    have hne : ¬ st.version = 1 := by
      rw [hv]
      decide
    show (setDcdVal lineno st .regSize .data size st.dcdLen >>= fun st => .ok st.seen) = _
    rw [setDcdVal, if_neg hne]
    rfl
  | clrBit => exact ⟨st.cmdVerFirst, rfl⟩
  | checkBitsSet => exact ⟨st.cmdVerFirst, rfl⟩
  | checkBitsClr => exact ⟨st.cmdVerFirst, rfl⟩
  | _ => cases hdcd

theorem parseEntryFld_address {cmd : Cmd} {token : Token} {addr : UInt32} (hv : st.version = 2)
    (hdcd : cmd.isDcd = true) (haddr : getCfgValue token = some addr) :
    parseEntryFld lineno st cmd .regAddress token =
      .ok (st.store (dcdDataV2 + st.dataindex.toNat + 1 + 2 * st.dcdLen) addr) := by
  have hne : ¬ st.version = 1 := by
    rw [hv]
    decide
  unfold parseEntryFld
  rw [if_pos hdcd, cfgValue_eq haddr]
  show (setDcdVal lineno st .regAddress cmd addr st.dcdLen >>= _) = _
  rw [setDcdVal, if_neg hne]
  rfl

theorem parseEntryFld_value {cmd : Cmd} {token : Token} {value : UInt32} (hv : st.version = 2)
    (hdcd : cmd.isDcd = true) (hvalue : getCfgValue token = some value)
    (h : parseEntryFld lineno st cmd .regValue token = .ok st') :
    st' = { st.store (dcdDataV2 + st.dataindex.toNat + 2 + 2 * st.dcdLen) value with
      dcdLen := st.dcdLen + 1 } := by
  have hne : ¬ st.version = 1 := by
    rw [hv]
    decide
  unfold parseEntryFld at h
  rw [if_pos hdcd, cfgValue_eq hvalue] at h
  change (setDcdVal lineno st .regValue cmd value st.dcdLen >>= _) = _ at h
  rw [setDcdVal, if_neg hne] at h
  dsimp only [Bind.bind, Except.bind] at h
  rw [if_pos rfl] at h
  split_ifs at h
  exact (Except.ok.inj h).symm

/-- What a complete register command of the second version does: the words of its
block from the index `block` on, with `n` entries before. -/
theorem parseLine_dcd {r : RegCmd} (hline : cmdLine tokens = some line)
    (hreg : line.regCmd = some r) (hv : st.version = 2) {block n : Nat}
    (hblock : dcdDataV2 + (st.closeBlock r.kind).dataindex.toNat = block)
    (hn : (st.closeBlock r.kind).dcdLen = n)
    (h : parseLine lineno st tokens = .ok st') :
    ∃ first, st' =
      { ((((st.closeBlock r.kind).store block ((commandHead r.kind (n + 1)).getD 0)).store
          (block + 1 + 2 * (n + 1)) 0).store (block + 1 + 2 * n) r.addr).store
          (block + 2 + 2 * n) r.value with
        dcdLen := n + 1, precmd := r.kind, cmdVerFirst := first } := by
  obtain ⟨command, rfl, hid⟩ := cmdLine_eq_some hline
  obtain ⟨hdcd, hkind, size, addr, value, rest, hfields, hs, ha, hval⟩ := regCmd_eq_some hreg
  rw [← hkind] at hid hdcd
  obtain ⟨head, hhead⟩ : ∃ head, commandHead r.kind (n + 1) = some head := by
    cases hk : r.kind <;> first | exact ⟨_, rfl⟩ | (rw [hk] at hdcd; cases hdcd)
  have hstate : setDcdValV2 (st.closeBlock r.kind) .command r.kind 0
      ((st.closeBlock r.kind).dcdLen + 1) =
      ((st.closeBlock r.kind).store block head).store (block + 1 + 2 * (n + 1)) 0 := by
    unfold setDcdValV2
    dsimp only
    rw [hblock, hn, hhead]
  have hversion := (closeBlock_version st r.kind).trans hv
  rw [hfields] at h
  unfold parseLine at h
  dsimp only at h
  rw [parseCommand_dcd hv hid hdcd, hstate] at h
  dsimp only [Bind.bind, Except.bind] at h
  generalize hst₂ : { ((st.closeBlock r.kind).store block head).store (block + 1 + 2 * (n + 1)) 0
    with precmd := r.kind } = st₂ at h
  have hv₂ : st₂.version = 2 := by rw [← hst₂]; exact hversion
  obtain ⟨first, hcfg⟩ := parseCfgCmd_dcd lineno hv₂ hdcd hs
  rw [hcfg] at h
  dsimp only at h
  have hv₃ : ({ st₂ with cmdVerFirst := first } : State).version = 2 := hv₂
  rw [parseEntryFld_address hv₃ hdcd ha] at h
  dsimp only at h
  have hst' := parseEntryFld_value (by exact hv₂) hdcd hval h
  refine ⟨first, hst'.trans ?_⟩
  rw [← hst₂, hhead]
  subst hblock hn
  rfl

/-- The table is the same in two states. -/
structure SameTable (st st' : State) : Prop where
  mem : st'.mem = st.mem
  written : st'.written = st.written
  dataindex : st'.dataindex = st.dataindex
  dcdLen : st'.dcdLen = st.dcdLen
  precmd : st'.precmd = st.precmd

theorem seen_spec (st : State) : SameTable st st.seen ∧ st.seen.version = st.version ∧
    st.seen.ivtOffset = st.ivtOffset ∧ st.seen.initLoadsize = st.initLoadsize := by
  obtain ⟨first, hseen⟩ := seen_eq st
  rw [hseen]
  exact ⟨⟨rfl, rfl, rfl, rfl, rfl⟩, rfl, rfl, rfl⟩

theorem cfgValue_ok {token : Token} {value : UInt32} (h : cfgValue lineno token = .ok value) :
    getCfgValue token = some value := by
  unfold cfgValue at h
  split at h
  · rename_i hvalue
    rw [hvalue, Except.ok.inj h]
  · cases h

/-- A command of another kind leaves the table. -/
theorem parseCfgCmd_other {cmd : Cmd} {token : Token} {fields : List Token}
    (hdcd : cmd.isDcd = false) (h : parseCfgCmd lineno st cmd token = .ok st') :
    SameTable st st' ∧
      st'.version = CmdLine.versionAfter ⟨cmd, token :: fields⟩ st.version ∧
      (st'.ivtOffset, st'.initLoadsize) =
        CmdLine.bootAfter ⟨cmd, token :: fields⟩ (st.ivtOffset, st.initLoadsize) := by
  obtain ⟨hsame, hversion, hivt, hload⟩ := seen_spec st
  cases cmd with
  | invalid =>
    cases h
    exact ⟨⟨rfl, rfl, rfl, rfl, rfl⟩, rfl, rfl⟩
  | imageVersion =>
    unfold parseCfgCmd at h
    obtain ⟨value, hvalue, h⟩ := bind_eq_ok.mp h
    split_ifs at h
    cases h
    refine ⟨⟨rfl, rfl, rfl, rfl, rfl⟩, ?_, rfl⟩
    unfold CmdLine.versionAfter
    dsimp only
    rw [cfgValue_ok hvalue, Option.getD_some]
  | bootFrom =>
    unfold parseCfgCmd at h
    dsimp only at h
    cases hentry : getTableEntryId imximageBoot token with
    | none =>
      rw [hentry] at h
      cases h
    | some entry =>
      rw [hentry] at h
      cases h
      refine ⟨⟨hsame.mem, hsame.written, hsame.dataindex, hsame.dcdLen, hsame.precmd⟩,
        hversion, ?_⟩
      unfold CmdLine.bootAfter
      dsimp only
      rw [hentry]
  | bootOffset =>
    unfold parseCfgCmd at h
    obtain ⟨value, hvalue, h⟩ := bind_eq_ok.mp h
    cases h
    refine ⟨⟨hsame.mem, hsame.written, hsame.dataindex, hsame.dcdLen, hsame.precmd⟩,
      hversion, ?_⟩
    unfold CmdLine.bootAfter
    dsimp only
    rw [cfgValue_ok hvalue, Option.getD_some, hload]
  | csf =>
    unfold parseCfgCmd at h
    dsimp only at h
    split_ifs at h
    obtain ⟨value, hvalue, h⟩ := bind_eq_ok.mp h
    cases h
    refine ⟨⟨hsame.mem, hsame.written, hsame.dataindex, hsame.dcdLen, hsame.precmd⟩,
      hversion, ?_⟩
    unfold CmdLine.bootAfter
    dsimp only
    rw [hivt, hload]
  | _ => cases hdcd

theorem parseLine_other (hline : cmdLine tokens = some line) (hdcd : line.cmd.isDcd = false)
    (h : parseLine lineno st tokens = .ok st') :
    SameTable { st.closeBlock line.cmd with precmd := line.cmd } st' ∧
      st'.version = line.versionAfter st.version ∧
      (st'.ivtOffset, st'.initLoadsize) = line.bootAfter (st.ivtOffset, st.initLoadsize) := by
  obtain ⟨command, rfl, hid⟩ := cmdLine_eq_some hline
  obtain ⟨cmd, fields⟩ := line
  dsimp only at h hid hdcd ⊢
  have hcommand : parseCommand lineno st command =
      .ok ({ st.closeBlock cmd with precmd := cmd }, cmd) := by
    unfold parseCommand
    rw [hid]
    dsimp only
    rw [hdcd]
    rfl
  have hversion := closeBlock_version st cmd
  have hboot : ((st.closeBlock cmd).ivtOffset, (st.closeBlock cmd).initLoadsize) =
      (st.ivtOffset, st.initLoadsize) := by
    rw [closeBlock_ivtOffset, closeBlock_initLoadsize]
  unfold parseLine at h
  dsimp only at h
  rw [hcommand] at h
  dsimp only [Bind.bind, Except.bind] at h
  cases fields with
  | nil =>
    cases h
    refine ⟨⟨rfl, rfl, rfl, rfl, rfl⟩, ?_, ?_⟩
    · rw [← hversion]
      cases cmd <;> rfl
    · rw [← hboot]
      cases cmd <;> rfl
  | cons size fields =>
    dsimp only at h
    obtain ⟨st₂, hcfg, h⟩ := bind_eq_ok.mp h
    have hfinal : st₂ = st' := by
      have hentry : ∀ st fld token, parseEntryFld lineno st cmd fld token = .ok st := by
        intro st fld token
        unfold parseEntryFld
        rw [hdcd]
        rfl
      split at h
      · exact Except.ok.inj h
      · rw [hentry] at h
        exact Except.ok.inj h
      · rw [hentry] at h
        dsimp only at h
        rw [hentry] at h
        exact Except.ok.inj h
    obtain ⟨hsame, hversion₂, hboot₂⟩ := parseCfgCmd_other hdcd hcfg
    rw [← hfinal, ← hversion, ← hboot]
    exact ⟨hsame, hversion₂, hboot₂⟩

end

/-- The lines with commands are handled one after the other. -/
inductive Steps : State → List CmdLine → State → Prop
  | nil (st : State) : Steps st [] st
  | cons {lineno : Nat} {st st' st'' : State} {tokens : List Token} {line : CmdLine}
      {lines : List CmdLine} : cmdLine tokens = some line → parseLine lineno st tokens = .ok st' →
      Steps st' lines st'' → Steps st (line :: lines) st''

theorem parseLines_steps {lineno : Nat} {st st' : State} {lines : List (List Token)}
    (h : parseLines lineno st lines = .ok st') : Steps st (lines.filterMap cmdLine) st' := by
  induction lines generalizing lineno st with
  | nil =>
    cases h
    exact .nil _
  | cons tokens lines ih =>
    unfold parseLines at h
    obtain ⟨st₁, hline, h⟩ := bind_eq_ok.mp h
    have hrest := ih h
    cases tokens with
    | nil =>
      cases hline
      exact hrest
    | cons command fields =>
      cases hid : getTableEntryId imximageCmds command with
      | none =>
        have hcommand : parseCommand lineno st command =
            .error (.invalidCommand lineno command) := by
          rw [parseCommand, hid]
        unfold parseLine at hline
        dsimp only at hline
        rw [hcommand] at hline
        cases hline
      | some cmd =>
        have hcmd : cmdLine (command :: fields) = some ⟨cmd, fields⟩ := by
          rw [cmdLine, hid]
          rfl
        rw [List.filterMap_cons_some hcmd]
        exact .cons hcmd hline hrest

theorem Steps.append {st st' : State} {pre rest : List CmdLine} (h : Steps st (pre ++ rest) st') :
    ∃ mid, Steps st pre mid ∧ Steps mid rest st' := by
  induction pre generalizing st with
  | nil => exact ⟨st, .nil st, h⟩
  | cons line pre ih =>
    cases h with
    | cons hcmd hline hsteps =>
      obtain ⟨mid, hpre, hrest⟩ := ih hsteps
      exact ⟨mid, .cons hcmd hline hpre, hrest⟩

/-! ## Blocks of the second version -/

/-- The state of the parser for the blocks so far. -/
structure Rep (st : State) (a : Acc) : Prop where
  version : st.version = 2
  index : st.dataindex.toNat = (dcdWords a.closed).length
  opened : ∀ b, a.current = some b →
    st.precmd = b.kind ∧ st.precmd.isDcd = true ∧ st.dcdLen = b.entries.length
  idle : a.current = none → st.precmd.isDcd = false ∧ st.dcdLen = 0
  mem : wordsAt st.mem dcdDataV2 (dcdWords a.blocks).length = dcdWords a.blocks
  written : ∀ i ∈ st.written, dcdDataV2 ≤ i ∧ i ≤ dcdDataV2 + (dcdWords a.blocks).length

theorem wordsAt_add (mem : Nat → UInt32) (start m n : Nat) :
    wordsAt mem start (m + n) = wordsAt mem start m ++ wordsAt mem (start + m) n := by
  simp [wordsAt, List.range_add, Nat.add_assoc]

theorem wordsAt_update {mem : Nat → UInt32} {start n i : Nat} {w : UInt32}
    (h : i < start ∨ start + n ≤ i) :
    wordsAt (Function.update mem i w) start n = wordsAt mem start n := by
  refine List.map_congr_left fun j hj => ?_
  have hlt := List.mem_range.mp hj
  exact Function.update_of_ne (by omega) _ _

theorem wordsAt_one (mem : Nat → UInt32) (start : Nat) : wordsAt mem start 1 = [mem start] := rfl

theorem wordsAt_two (mem : Nat → UInt32) (start : Nat) :
    wordsAt mem start 2 = [mem start, mem (start + 1)] := rfl

theorem dcdWords_append (xs ys : List Block) : dcdWords (xs ++ ys) = dcdWords xs ++ dcdWords ys :=
  List.flatMap_append

theorem dcdWords_singleton (b : Block) : dcdWords [b] = b.words := by
  simp [dcdWords]

/-- A block with one more entry is stored behind the closed ones. -/
theorem wordsAt_store {mem : Nat → UInt32} {closed : List Block}
    {entries : List (UInt32 × UInt32)} (kind : Cmd) (addr value : UInt32) {block n : Nat}
    (hblock : block = dcdDataV2 + (dcdWords closed).length) (hn : n = entries.length)
    (hclosed : wordsAt mem dcdDataV2 (dcdWords closed).length = dcdWords closed)
    (hentries : wordsAt mem (block + 1) (2 * n) = entries.flatMap fun e => [e.1, e.2]) :
    wordsAt (Function.update (Function.update (Function.update (Function.update mem block
        ((commandHead kind (n + 1)).getD 0)) (block + 1 + 2 * (n + 1)) 0)
        (block + 1 + 2 * n) addr) (block + 2 + 2 * n) value) dcdDataV2
        (dcdWords (closed ++ [⟨kind, entries ++ [(addr, value)]⟩])).length =
      dcdWords (closed ++ [⟨kind, entries ++ [(addr, value)]⟩]) := by
  rw [dcdWords_append, dcdWords_singleton, List.length_append, length_words, wordsAt_add,
    ← hblock]
  congr 1
  · rw [wordsAt_update (by omega), wordsAt_update (by omega), wordsAt_update (by omega),
      wordsAt_update (by omega), hclosed]
  · have hlen : 1 + 2 * (entries ++ [(addr, value)]).length = 1 + 2 * n + 2 := by
      rw [List.length_append, List.length_singleton, hn]
      omega
    rw [hlen, wordsAt_add, wordsAt_add, Block.words, List.length_append, List.length_singleton,
      ← hn, List.flatMap_append, ← hentries, ← List.cons_append]
    congr 1
    · rw [← List.singleton_append]
      congr 1
      · rw [wordsAt_one, Function.update_of_ne (by omega), Function.update_of_ne (by omega),
          Function.update_of_ne (by omega), Function.update_self]
      · rw [wordsAt_update (by omega), wordsAt_update (by omega), wordsAt_update (by omega),
          wordsAt_update (by omega)]
    · rw [wordsAt_two, Function.update_of_ne (by omega), ← Nat.add_assoc, Function.update_self,
        show block + 1 + 2 * n + 1 = block + 2 + 2 * n by omega, Function.update_self]
      rfl

theorem length_wordsAt (mem : Nat → UInt32) (start n : Nat) : (wordsAt mem start n).length = n := by
  simp [wordsAt]

section

variable {st st' : State} {a : Acc}

/-- The index and the count after a change of the command. -/
theorem Rep.closeBlock (h : Rep st a) (kind : Cmd)
    (hsmall : (dcdWords (a.closedFor kind)).length < 2 ^ 32) :
    (st.closeBlock kind).dataindex.toNat = (dcdWords (a.closedFor kind)).length ∧
      (st.closeBlock kind).dcdLen = (a.entriesFor kind).length := by
  unfold State.closeBlock Acc.entriesFor
  unfold Acc.closedFor at hsmall ⊢
  cases hcurrent : a.current with
  | none =>
    obtain ⟨hpre, hlen⟩ := h.idle hcurrent
    rw [if_neg fun hdcd => by simp [hpre] at hdcd]
    exact ⟨h.index, hlen⟩
  | some b =>
    obtain ⟨hpre, hdcd, hlen⟩ := h.opened b hcurrent
    rw [hcurrent] at hsmall
    dsimp only at hsmall ⊢
    by_cases hkind : b.kind = kind
    · rw [if_neg fun hne => hne.2 (hkind.symm.trans hpre.symm), if_pos hkind, if_pos hkind]
      exact ⟨h.index, hlen⟩
    · rw [if_pos ⟨hdcd, fun heq => hkind (hpre.symm.trans heq.symm)⟩, if_neg hkind, if_neg hkind]
      rw [if_neg hkind, dcdWords_append, dcdWords_singleton, List.length_append,
        length_words] at hsmall
      refine ⟨?_, rfl⟩
      rw [dcdWords_append, dcdWords_singleton, List.length_append, length_words]
      dsimp only
      rw [UInt32.toNat_add, UInt32.toNat_ofNat', h.index, hlen]
      omega

/-- The memory of the block that a command of a kind extends. -/
theorem Rep.mem_for (h : Rep st a) (kind : Cmd) :
    wordsAt st.mem dcdDataV2 (dcdWords (a.closedFor kind)).length = dcdWords (a.closedFor kind) ∧
      wordsAt st.mem (dcdDataV2 + (dcdWords (a.closedFor kind)).length + 1)
        (2 * (a.entriesFor kind).length) = (a.entriesFor kind).flatMap fun e => [e.1, e.2] := by
  have hmem := h.mem
  unfold Acc.closedFor Acc.entriesFor
  unfold Acc.blocks at hmem
  cases hcurrent : a.current with
  | none =>
    rw [hcurrent, Option.toList_none, List.append_nil] at hmem
    exact ⟨hmem, rfl⟩
  | some b =>
    rw [hcurrent, Option.toList_some] at hmem
    dsimp only
    by_cases hkind : b.kind = kind
    · rw [if_pos hkind, if_pos hkind]
      rw [dcdWords_append, dcdWords_singleton, List.length_append, length_words,
        wordsAt_add] at hmem
      obtain ⟨hclosed, hblock⟩ := List.append_inj hmem (length_wordsAt _ _ _)
      rw [wordsAt_add, wordsAt_one, List.singleton_append, Block.words] at hblock
      exact ⟨hclosed, (List.cons.inj hblock).2⟩
    · rw [if_neg hkind, if_neg hkind]
      exact ⟨hmem, rfl⟩

theorem length_blocks_le (a : Acc) (kind : Cmd) :
    (dcdWords a.blocks).length ≤
      (dcdWords (a.closedFor kind)).length + 1 + 2 * (a.entriesFor kind).length := by
  unfold Acc.blocks Acc.closedFor Acc.entriesFor
  cases a.current with
  | none => simp
  | some b =>
    dsimp only
    split_ifs
    · simp [dcdWords_append, dcdWords_singleton]
      omega
    · simp [dcdWords_append, dcdWords_singleton]

/-- A register command extends the blocks. -/
theorem Rep.step_dcd {lineno : Nat} {tokens : List Token} {line : CmdLine} {r : RegCmd}
    (h : Rep st a) (hline : cmdLine tokens = some line) (hreg : line.regCmd = some r)
    (hparse : parseLine lineno st tokens = .ok st')
    (hfits : (dcdWords (a.step line).blocks).length < 512) :
    Rep st' (a.step line) ∧ st'.ivtOffset = st.ivtOffset ∧ st'.initLoadsize = st.initLoadsize := by
  have hstep : a.step line = ⟨a.closedFor r.kind,
      some ⟨r.kind, a.entriesFor r.kind ++ [(r.addr, r.value)]⟩⟩ := by
    rw [Acc.step, hreg]
  have hblocks : (a.step line).blocks = a.closedFor r.kind ++
      [⟨r.kind, a.entriesFor r.kind ++ [(r.addr, r.value)]⟩] := by
    rw [hstep]
    rfl
  have hlength : (dcdWords (a.step line).blocks).length =
      (dcdWords (a.closedFor r.kind)).length + 1 + 2 * ((a.entriesFor r.kind).length + 1) := by
    rw [hblocks, dcdWords_append, dcdWords_singleton, List.length_append, length_words,
      List.length_append, List.length_singleton]
    omega
  have hold := length_blocks_le a r.kind
  obtain ⟨hindex, hlen⟩ := h.closeBlock r.kind (by omega)
  obtain ⟨hclosed, hentries⟩ := h.mem_for r.kind
  obtain ⟨hdcd, hkind, -⟩ := regCmd_eq_some hreg
  obtain ⟨first, rfl⟩ := parseLine_dcd hline hreg h.version
    (congrArg (dcdDataV2 + ·) hindex) hlen hparse
  refine ⟨⟨?_, ?_, ?_, ?_, ?_, ?_⟩, ?_, ?_⟩
  · exact (closeBlock_version st r.kind).trans h.version
  · rw [hstep]
    exact hindex
  · rw [hstep]
    rintro b hb
    cases hb
    refine ⟨rfl, hkind ▸ hdcd, ?_⟩
    simp
  · rw [hstep]
    intro hnone
    cases hnone
  · rw [hblocks]
    have hwords := wordsAt_store r.kind r.addr r.value rfl rfl hclosed hentries
    rw [← closeBlock_mem st r.kind] at hwords
    exact hwords
  · intro i hi
    rw [hlength]
    have hkept : i ∈ st.written → dcdDataV2 ≤ i ∧ i ≤ dcdDataV2 + (dcdWords a.blocks).length :=
      h.written i
    rw [← closeBlock_written st r.kind] at hkept
    simp only [State.store, List.mem_cons] at hi
    obtain rfl | rfl | rfl | rfl | hi := hi
    · omega
    · omega
    · omega
    · omega
    · have := hkept hi
      omega
  · exact closeBlock_ivtOffset st r.kind
  · exact closeBlock_initLoadsize st r.kind

end

end UBoot.Imximage
