import Mathlib.Data.Nat.Bitwise
import UBoot.Net.Defrag.Received
import UBoot.Verification.Run

/-!
# Reassembling a datagram

The fragments of one datagram arrive in some order, each once. As long as the
first fragment is outstanding there is a hole at index 0, and a fragment that
continues the lowest run of fragments received so far makes the code lose it.
Then the first fragment is dropped when it comes. In every other order the
datagram is returned with the last fragment.
-/

namespace UBoot.Net

open Verification

/-- All packets but the last one give NULL, and the last one gives a packet of the
right length and contents. -/
def Reassembles (payload : Nat → UInt8) (n : Nat) : Reasm → List Ptr → Prop
  | _, [] => False
  | s, [ip] => ∃ s', defragment s ip = some (s', some (n + IP_HDR_SIZE)) ∧
      ∀ p < n, s'.pktBuff (IP_HDR_SIZE + p) = payload p
  | s, ip :: next :: rest => ∃ s', defragment s ip = some (s', none) ∧
      Reassembles payload n s' (next :: rest)

/-- One more fragment was received. -/
def receive (received : List Nat) (f : Nat) : List Nat := f :: received

/-- The first fragment is there, or the fragment does not continue the lowest run. -/
def Keeps (received : List Nat) (f : Nat) : Prop := 0 ∈ received ∨ ¬Continues received f

/-- While the first fragment is outstanding, no fragment continues the lowest run
received so far. -/
def GoodOrder (order : List Nat) : Prop := Guarded receive Keeps [] order

variable {c : Cut} {payload : Nat → UInt8} {id b : Nat} {R : List Nat} {s : Reasm}

/-- The fragments still to come. -/
structure Outstanding (c : Cut) (R order : List Nat) : Prop where
  nodup : order.Nodup
  fresh : ∀ f ∈ order, f < c.count ∧ f ∉ R

theorem Outstanding.tail {f : Nat} {order : List Nat} (h : Outstanding c R (f :: order)) :
    Outstanding c (f :: R) order := by
  obtain ⟨hf, hnodup⟩ := List.nodup_cons.mp h.nodup
  refine ⟨hnodup, fun g hg => ?_⟩
  obtain ⟨hgc, hgR⟩ := h.fresh g (List.mem_cons_of_mem _ hg)
  refine ⟨hgc, ?_⟩
  rw [List.mem_cons, not_or]
  exact ⟨fun heq => hf (heq ▸ hg), hgR⟩

/-! ### Good orders -/

/-- The rest of a good order completes the datagram. -/
theorem Tracks.reassembles {pkt : Nat → Ptr}
    (hpkt : ∀ f < c.count, IsFragment c payload id f (pkt f)) {order : List Nat}
    (hne : order ≠ []) (h : Tracks c payload id 0 R s) (hout : Outstanding c R order)
    (hall : ∀ f < c.count, f ∈ R ∨ f ∈ order)
    (hgood : Guarded receive Keeps R order) :
    Reassembles payload (c.bound c.count) s (order.map pkt) := by
  induction order generalizing R s with
  | nil => exact absurd rfl hne
  | cons f order ih =>
    obtain ⟨hf, hfR⟩ := hout.fresh f List.mem_cons_self
    obtain ⟨s', L, hdef, hrec, htracks⟩ := h.steps_good (hpkt f hf) hf hfR hgood.1
    have hall' : ∀ g < c.count, g ∈ f :: R ∨ g ∈ order := by
      intro g hg
      have := hall g hg
      simp only [List.mem_cons] at this ⊢
      tauto
    cases order with
    | nil =>
      have hmem : ∀ g < c.count, g ∈ f :: R := fun g hg => by simpa using hall' g hg
      have hL : L = [] := by
        by_contra hL
        obtain ⟨x, hx⟩ := List.exists_mem_of_ne_nil L hL
        obtain ⟨-, g, hg, hgR, -⟩ := hrec.starts x hx
        exact hgR (hmem g hg)
      have htotal : s'.totalLen = c.bound c.count := by
        rw [hrec.totalLen, if_pos (hmem _ (by have := c.two_le; omega))]
      refine ⟨s', by rw [hdef, if_pos hL, htotal], fun p hp => ?_⟩
      obtain ⟨g, hg, hp1, hp2⟩ := c.exists_fragment hp
      exact hrec.data g (hmem g hg) (Nat.zero_le _) p hp1 hp2
    | cons g order =>
      have hL : L ≠ [] := by
        rintro rfl
        obtain ⟨hg, hgR⟩ := hout.tail.fresh g List.mem_cons_self
        have := c.grows g hg
        rcases hrec.cover g hg hgR with hlow | ⟨x, hx, -⟩
        · omega
        · cases hx
      exact ⟨s', by rw [hdef, if_neg hL], ih (by simp) (htracks hL) hout.tail hall' hgood.2⟩

/-! ### Other orders -/

/-- All packets give NULL. -/
def Silent : Reasm → List Ptr → Reasm → Prop
  | s, [], s' => s' = s
  | s, ip :: rest, s' => ∃ s₁, defragment s ip = some (s₁, none) ∧ Silent s₁ rest s'

theorem Silent.append_iff {first rest : List Ptr} {s' : Reasm} :
    Silent s (first ++ rest) s' ↔ ∃ s₁, Silent s first s₁ ∧ Silent s₁ rest s' := by
  induction first generalizing s with
  | nil => exact ⟨fun h => ⟨s, rfl, h⟩, fun ⟨_, h, h'⟩ => h ▸ h'⟩
  | cons ip first ih =>
    constructor
    · rintro ⟨t, ht, hrest⟩
      obtain ⟨s₁, h₁, h₂⟩ := ih.mp hrest
      exact ⟨s₁, ⟨t, ht, h₁⟩, h₂⟩
    · rintro ⟨s₁, ⟨t, ht, h₁⟩, h₂⟩
      exact ⟨t, ht, ih.mpr ⟨s₁, h₁, h₂⟩⟩

theorem Silent.unique {packets : List Ptr} {s₁ s₂ : Reasm} (h₁ : Silent s packets s₁)
    (h₂ : Silent s packets s₂) : s₁ = s₂ := by
  induction packets generalizing s with
  | nil => exact h₁.trans h₂.symm
  | cons ip rest ih =>
    obtain ⟨t₁, hdef₁, hrest₁⟩ := h₁
    obtain ⟨t₂, hdef₂, hrest₂⟩ := h₂
    obtain rfl : t₁ = t₂ := by simpa [hdef₁] using hdef₂
    exact ih hrest₁ hrest₂

theorem Reassembles.split {n : Nat} {first : List Ptr} {ip : Ptr} {rest : List Ptr}
    (h : Reassembles payload n s (first ++ ip :: rest)) :
    ∃ s', Silent s first s' ∧ Reassembles payload n s' (ip :: rest) := by
  induction first generalizing s with
  | nil => exact ⟨s, rfl, h⟩
  | cons ip' first ih =>
    obtain ⟨next, tail, htail⟩ : ∃ next tail, first ++ ip :: rest = next :: tail := by
      cases first <;> simp
    rw [List.cons_append, htail] at h
    obtain ⟨s₁, hdef, hrest⟩ := h
    rw [← htail] at hrest
    obtain ⟨s', hsilent, hlast⟩ := ih hrest
    exact ⟨s', ⟨s₁, hdef, hsilent⟩, hlast⟩

/-- One run has one result. -/
theorem Reassembles.unique {payload' : Nat → UInt8} {n : Nat} {packets : List Ptr}
    (h : Reassembles payload n s packets) (h' : Reassembles payload' n s packets) :
    ∀ p < n, payload p = payload' p := by
  induction packets generalizing s with
  | nil => exact absurd h id
  | cons ip rest ih =>
    cases rest with
    | nil =>
      obtain ⟨s₁, hdef, hdata⟩ := h
      obtain ⟨s₂, hdef', hdata'⟩ := h'
      obtain rfl : s₁ = s₂ := by simpa [hdef] using hdef'
      intro p hp
      rw [← hdata p hp, hdata' p hp]
    | cons next rest =>
      obtain ⟨s₁, hdef, hrest⟩ := h
      obtain ⟨s₂, hdef', hrest'⟩ := h'
      obtain rfl : s₁ = s₂ := by simpa [hdef] using hdef'
      exact ih hrest hrest'

theorem Steps.tracks {ip : Ptr} {s' : Reasm} (h : Steps c payload id b R s ip)
    (hnone : defragment s ip = some (s', none)) : Tracks c payload id b R s' := by
  obtain ⟨s₁, L, hdef, -, htracks⟩ := h
  rw [hdef] at hnone
  split at hnone
  · simp at hnone
  · rename_i hL
    obtain rfl : s₁ = s' := by simpa using hnone
    exact htracks hL

theorem Tracks.silent (ok : List Nat → Nat → Prop) {pkt : Nat → Ptr}
    (hsteps : ∀ R s f, Tracks c payload id b R s → f < c.count → f ∉ R → ok R f →
      Steps c payload id b (f :: R) s (pkt f))
    {order : List Nat} {s' : Reasm} (h : Tracks c payload id b R s)
    (hout : Outstanding c R order) (hok : Guarded receive ok R order)
    (hsilent : Silent s (order.map pkt) s') :
    Tracks c payload id b (run receive R order) s' := by
  induction order generalizing R s with
  | nil =>
    obtain rfl : s' = s := hsilent
    exact h
  | cons f order ih =>
    obtain ⟨hf, hfR⟩ := hout.fresh f List.mem_cons_self
    obtain ⟨s₁, hdef, hrest⟩ := hsilent
    exact ih ((hsteps R s f h hf hfR hok.1).tracks hdef) hout.tail hok.2 hrest

theorem mem_run_receive {f : Nat} {order : List Nat} :
    f ∈ run receive R order ↔ f ∈ order ∨ f ∈ R := by
  induction order generalizing R with
  | nil => simp
  | cons g order ih =>
    rw [run_cons, ih, receive, List.mem_cons, List.mem_cons]
    tauto

theorem Outstanding.split {first rest : List Nat} (h : Outstanding c R (first ++ rest)) :
    Outstanding c R first ∧ Outstanding c (run receive R first) rest := by
  obtain ⟨hfirst, hrest, hdisj⟩ := List.nodup_append.mp h.nodup
  refine ⟨⟨hfirst, fun f hf => h.fresh f (List.mem_append_left _ hf)⟩, hrest, fun f hf => ?_⟩
  obtain ⟨hfc, hfR⟩ := h.fresh f (List.mem_append_right _ hf)
  refine ⟨hfc, ?_⟩
  rw [mem_run_receive, not_or]
  exact ⟨fun hmem => hdisj f hmem f hf rfl, hfR⟩

theorem Outstanding.sublist {first rest : List Nat} (h : Outstanding c R rest)
    (hsub : first.Sublist rest) : Outstanding c R first :=
  ⟨h.nodup.sublist hsub, fun f hf => h.fresh f (hsub.subset hf)⟩

/-- After a fragment that continues the lowest run, the first fragment is dropped
when it comes. -/
theorem Tracks.first_dropped {pkt : Nat → Ptr}
    (hpkt : ∀ f < c.count, IsFragment c payload id f (pkt f)) (hs : Tracks c payload id 0 [] s)
    {first mid : List Nat} {f : Nat} (hout : Outstanding c [] (first ++ f :: (mid ++ [0])))
    (hgood : Guarded receive Keeps [] first) (hbad : ¬Keeps (run receive [] first) f)
    {s' : Reasm} (hsilent : Silent s ((first ++ f :: mid).map pkt) s') :
    defragment s' (pkt 0) = some (s', none) := by
  simp only [Keeps, not_or, not_not] at hbad
  obtain ⟨hout₁, hout₂⟩ := hout.split
  obtain ⟨hf, hfR⟩ := hout₂.fresh f List.mem_cons_self
  obtain ⟨hout₃, hout₄⟩ := hout₂.tail.split
  rw [List.map_append] at hsilent
  obtain ⟨s₁, hs₁, s₂, hdef, hs₂⟩ := Silent.append_iff.mp hsilent
  have ht₁ := Tracks.silent Keeps
    (fun R s f h hf hfR hok => h.steps_good (hpkt f hf) hf hfR hok) hs hout₁ hgood hs₁
  have ht₂ := (ht₁.steps_bad (hpkt f hf) hf hfR hbad.1 hbad.2).tracks hdef
  have hf0 : 0 < f := by
    obtain ⟨m, -, -, hm, -⟩ := hbad.2
    omega
  have hpos : 0 < c.bound f := by
    have := c.bound_lt hf0 (Nat.le_of_lt hf)
    omega
  have ht₃ := Tracks.silent (fun _ _ => True)
    (fun R s g h hg hgR _ => h.steps_late hpos (hpkt g hg) hg hgR) ht₂ hout₃
    (Guarded.of_forall (fun _ _ => trivial) _ _) hs₂
  obtain ⟨h0, -⟩ := hout₄.fresh 0 List.mem_cons_self
  refine (ht₃.steps_below (hpkt 0 h0) h0 ?_).1
  exact c.bound_le (show 0 + 1 ≤ f by omega) (Nat.le_of_lt hf)

/-! ### The packets of a datagram -/

/-- A fragment with a plain header. -/
def fragmentPacket (c : Cut) (payload : Nat → UInt8) (id f : Nat) : Ptr := fun q =>
  if IP_HDR_SIZE ≤ q then payload (c.bound f + (q - IP_HDR_SIZE))
  else
    let len := IP_HDR_SIZE + c.len f
    let off := c.bound f / 8 + if f + 1 < c.count then IP_FLAGS_MFRAG else 0
    [0x45, 0, .ofNat (len / 256), .ofNat len, .ofNat (id / 256), .ofNat id, .ofNat (off / 256),
      .ofNat off, 64, 17].getD q 0

theorem be16_ofNat {p : Ptr} {pos value : Nat} (h0 : p pos = .ofNat (value / 256))
    (h1 : p (pos + 1) = .ofNat value) (hvalue : value < 65536) : be16 p pos = value := by
  rw [be16, h0, h1, UInt8.toNat_ofNat', UInt8.toNat_ofNat']
  omega

theorem isFragment_fragmentPacket (c : Cut) (payload : Nat → UInt8) {id f : Nat}
    (hid : id < 65536) (hf : f < c.count) :
    IsFragment c payload id f (fragmentPacket c payload id f) := by
  have hlen := c.bound_add_len hf
  have hsmall := c.bound_small (show f + 1 ≤ c.count by omega)
  have haligned := c.aligned f hf
  obtain ⟨flag, hflag⟩ : ∃ flag, (if f + 1 < c.count then IP_FLAGS_MFRAG else 0) = flag := ⟨_, rfl⟩
  have hflag' : flag = if f + 1 < c.count then 2 ^ 13 else 0 := hflag.symm
  have hbound : flag = 2 ^ 13 ∨ flag = 0 := by
    rw [hflag']
    split <;> simp
  have hoff : ipOff (fragmentPacket c payload id f) = c.bound f / 8 + flag := by
    rw [← hflag]
    exact be16_ofNat rfl rfl (by rw [hflag]; omega)
  refine ⟨be16_ofNat rfl rfl (by simp only [IP_HDR_SIZE]; omega), be16_ofNat rfl rfl hid, ?_, ?_,
    fun k _ => ?_⟩
  · have hmask : IP_OFFS = 2 ^ 13 - 1 := by decide
    rw [fragOffset, hoff, hmask, Nat.and_two_pow_sub_one_eq_mod]
    omega
  · have hmask : IP_FLAGS_MFRAG = 2 ^ 13 := by decide
    rw [moreFragments, hoff, hmask, Nat.and_two_pow, Nat.testBit_eq_decide_div_mod_eq]
    by_cases hmore : f + 1 < c.count
    · rw [if_pos hmore] at hflag'
      have : (c.bound f / 8 + flag) / 8192 % 2 = 1 := by omega
      simp [hmore, this]
    · rw [if_neg hmore] at hflag'
      have : (c.bound f / 8 + flag) / 8192 % 2 = 0 := by omega
      simp [hmore, this]
  · simp [fragmentPacket]

theorem be16_putBe16 (p : Ptr) (pos value : Nat) :
    be16 (putBe16 p pos value) pos = value % 65536 := by
  simp only [be16, putBe16, if_true, Nat.succ_ne_self, if_false, UInt8.toNat_ofNat']
  omega

theorem acceptFragment_ipLen {s s' : Reasm} {ip : Ptr} {h len total : Nat}
    (hacc : acceptFragment s ip h len = some (s', some total)) :
    ipLen s'.pktBuff = (total - IP_HDR_SIZE) % 65536 := by
  rw [acceptFragment] at hacc
  obtain ⟨s₁, -, hacc⟩ := Option.bind_eq_some_iff.mp hacc
  obtain ⟨⟨s₂, done⟩, -, hacc⟩ := Option.bind_eq_some_iff.mp hacc
  obtain ⟨s₃, -, hacc⟩ := Option.bind_eq_some_iff.mp hacc
  split at hacc
  · simp only [Option.pure_def, Option.some.injEq, Prod.mk.injEq] at hacc
    obtain ⟨rfl, rfl⟩ := hacc
    rw [Nat.add_sub_cancel]
    exact be16_putBe16 ..
  · simp at hacc

/-- The field `ip_len` of a packet that is returned does not count the header. -/
theorem defragment_ipLen {s s' : Reasm} {ip : Ptr} {total : Nat}
    (h : defragment s ip = some (s', some total)) :
    ipLen s'.pktBuff = (total - IP_HDR_SIZE) % 65536 := by
  rw [defragment] at h
  split at h
  · simp at h
  · obtain ⟨s₁, -, h⟩ := Option.bind_eq_some_iff.mp h
    obtain ⟨found, -, h⟩ := Option.bind_eq_some_iff.mp h
    cases found with
    | none => simp at h
    | some x =>
      simp only at h
      split at h
      · simp at h
      · split at h
        · cases h
        · exact acceptFragment_ipLen h

/-! ### All orders -/

/-- The first byte of the datagram is in the first fragment only. -/
theorem fragmentPacket_congr {payload payload' : Nat → UInt8} (hsame : ∀ p ≠ 0, payload p = payload' p)
    (id : Nat) {f : Nat} (hf : f < c.count) (h0 : f ≠ 0) :
    fragmentPacket c payload id f = fragmentPacket c payload' id f := by
  have hpos := c.bound_lt (Nat.pos_of_ne_zero h0) (Nat.le_of_lt hf)
  funext q
  simp only [fragmentPacket]
  split
  · exact hsame _ (by omega)
  · rfl

/-- A run that loses the first hole does not reassemble both of two datagrams that
differ in the first byte. -/
theorem not_reassembles_both {first mid tail : List Nat} {f id : Nat} (hid : id < 65536)
    (hs : s.totalLen = 0 ∨ ipId s.pktBuff ≠ id)
    (hout : Outstanding c [] (first ++ f :: (mid ++ 0 :: tail)))
    (hgood : Guarded receive Keeps [] first) (hbad : ¬Keeps (run receive [] first) f)
    {payload payload' : Nat → UInt8} (hsame : ∀ p ≠ 0, payload p = payload' p)
    (h : Reassembles payload (c.bound c.count) s
      ((first ++ f :: (mid ++ 0 :: tail)).map (fragmentPacket c payload id)))
    (h' : Reassembles payload' (c.bound c.count) s
      ((first ++ f :: (mid ++ 0 :: tail)).map (fragmentPacket c payload' id))) :
    payload 0 = payload' 0 := by
  have hlist : first ++ f :: (mid ++ 0 :: tail) = (first ++ f :: mid) ++ 0 :: tail := by simp
  have hfresh := hout.fresh
  have hnodup := hout.nodup
  have hsub : (first ++ f :: (mid ++ [0])).Sublist (first ++ f :: (mid ++ 0 :: tail)) := by
    simp
  rw [hlist] at hfresh hnodup h h'
  obtain ⟨-, hnodup₀, hdisj⟩ := List.nodup_append.mp hnodup
  obtain ⟨hnotin, -⟩ := List.nodup_cons.mp hnodup₀
  -- the other fragments are the same for both
  have hbefore : (first ++ f :: mid).map (fragmentPacket c payload' id) =
      (first ++ f :: mid).map (fragmentPacket c payload id) :=
    List.map_congr_left fun g hg => (fragmentPacket_congr hsame id
      (hfresh g (List.mem_append_left _ hg)).1
      fun heq => hdisj g hg 0 List.mem_cons_self heq).symm
  have hafter : tail.map (fragmentPacket c payload' id) =
      tail.map (fragmentPacket c payload id) :=
    List.map_congr_left fun g hg => (fragmentPacket_congr hsame id
      (hfresh g (List.mem_append_right _ (List.mem_cons_of_mem _ hg))).1
      fun heq => hnotin (heq ▸ hg)).symm
  rw [List.map_append, List.map_cons] at h h'
  obtain ⟨s₁, hsilent, hrest⟩ := h.split
  obtain ⟨s₂, hsilent', hrest'⟩ := h'.split
  have hdrop := Tracks.first_dropped (fun f hf => isFragment_fragmentPacket c payload hid hf)
    (.inl ⟨rfl, rfl, hs⟩) (hout.sublist hsub) hgood hbad hsilent
  have hdrop' := Tracks.first_dropped (fun f hf => isFragment_fragmentPacket c payload' hid hf)
    (.inl ⟨rfl, rfl, hs⟩) (hout.sublist hsub) hgood hbad hsilent'
  rw [hbefore] at hsilent'
  obtain rfl := hsilent.unique hsilent'
  rw [hafter] at hrest'
  have hpos := c.bound_lt (show 0 < c.count from Nat.lt_of_lt_of_le (by decide) c.two_le)
    (Nat.le_refl _)
  cases hnext : tail.map (fragmentPacket c payload id) with
  | nil =>
    rw [hnext] at hrest
    obtain ⟨s', hdef, -⟩ := hrest
    rw [hdrop] at hdef
    simp at hdef
  | cons next rest =>
    rw [hnext] at hrest hrest'
    obtain ⟨s', hdef, hrest⟩ := hrest
    obtain ⟨s'', hdef', hrest'⟩ := hrest'
    obtain rfl : s₁ = s' := by simpa [hdrop] using hdef
    obtain rfl : s₁ = s'' := by simpa [hdrop'] using hdef'
    exact hrest.unique hrest' 0 (by omega)

/-- The datagram is reassembled from its fragments in this order, whatever it
contains, exactly when the order is a good one. The length in the header of a
returned packet is always short of the length returned by the header size. -/
theorem reassembles_iff (c : Cut) (order : List Nat) (horder : order.Perm (List.range c.count))
    (id : Nat) (hid : id < 65536) (s : Reasm) (hs : s.totalLen = 0 ∨ ipId s.pktBuff ≠ id) :
    ((∀ payload pkt, (∀ f < c.count, IsFragment c payload id f (pkt f)) →
      Reassembles payload (c.bound c.count) s (order.map pkt)) ↔ GoodOrder order) ∧
    ∀ s ip s' total, defragment s ip = some (s', some total) →
      ipLen s'.pktBuff = (total - IP_HDR_SIZE) % 65536 := by
  have htwo := c.two_le
  have hmem : ∀ f, f ∈ order ↔ f < c.count := fun f => by rw [horder.mem_iff, List.mem_range]
  have hout : Outstanding c [] order :=
    ⟨horder.nodup_iff.mpr List.nodup_range, fun f hf => ⟨(hmem f).mp hf, List.not_mem_nil⟩⟩
  refine ⟨⟨fun hall => ?_, fun hgood payload pkt hpkt => ?_⟩, fun _ _ _ _ => defragment_ipLen⟩
  · by_contra hbad
    obtain ⟨first, f, rest, rfl, hgood, hfail⟩ := Guarded.exists_first_failure hbad
    have h0 : 0 ∈ rest := by
      have hlost := hfail
      simp only [Keeps, not_or, not_not, mem_run_receive] at hlost
      obtain ⟨⟨h0, -⟩, m, -, -, hm, -⟩ := hlost
      have h0' := (hmem 0).mpr (by omega)
      simp only [List.mem_append, List.mem_cons] at h0'
      rcases h0' with h | h | h
      · exact absurd h h0
      · omega
      · exact h
    obtain ⟨mid, tail, rfl⟩ := List.append_of_mem h0
    have hpackets : ∀ payload, Reassembles payload (c.bound c.count) s
        ((first ++ f :: (mid ++ 0 :: tail)).map (fragmentPacket c payload id)) :=
      fun payload => hall payload _ fun f hf => isFragment_fragmentPacket c payload hid hf
    have heq := not_reassembles_both hid hs hout hgood hfail
      (fun p hp => (if_neg hp).symm) (hpackets fun _ => 0) (hpackets fun p => if p = 0 then 1 else 0)
    simp at heq
  · refine Tracks.reassembles hpkt ?_ (.inl ⟨rfl, rfl, hs⟩) hout
      (fun f hf => .inr ((hmem f).mpr hf)) hgood
    rintro rfl
    simpa using (hmem 0).mpr (by omega)

def threeFragments : Cut where
  count := 3
  bound f := if f = 3 then 20 else 8 * f
  two_le := by decide
  zero := rfl
  grows := by decide
  aligned := by decide
  fits := by decide

def freshReasm : Reasm := ⟨fun _ => 0, 0, 0⟩

/-- The order in which the last fragment comes first is a good one. -/
theorem reassembles_backwards :
    Reassembles (fun p => .ofNat p) 20 freshReasm
      ([2, 1, 0].map (fragmentPacket threeFragments (fun p => .ofNat p) 1)) := by
  have hgood : GoodOrder [2, 1, 0] := by
    refine ⟨.inr ?_, .inr ?_, .inr ?_, trivial⟩
    · rintro ⟨m, hm, -⟩
      cases hm
    · rintro ⟨m, hm, -, hlt, -⟩
      obtain rfl := List.mem_singleton.mp hm
      omega
    · rintro ⟨m, -, -, hlt, -⟩
      omega
  exact (reassembles_iff threeFragments [2, 1, 0] (by decide) 1 (by decide) freshReasm
    (.inl rfl)).1.mpr hgood _ _ fun f hf => isFragment_fragmentPacket _ _ (by decide) hf

/-- The last fragment follows the second one, and the packet is returned without
the first one. -/
theorem reassembled_without_first : ¬∀ (c : Cut) (order : List Nat) (id : Nat) (s : Reasm),
    order.Perm (List.range c.count) → id < 65536 → s.totalLen = 0 ∨ ipId s.pktBuff ≠ id →
      ∀ payload pkt, (∀ f < c.count, IsFragment c payload id f (pkt f)) →
        Reassembles payload (c.bound c.count) s (order.map pkt) := by
  intro h
  let pkt := fragmentPacket threeFragments (fun p => .ofNat p) 1
  obtain ⟨s₁, hdef₁, s₂, hdef₂, -⟩ := h threeFragments [1, 2, 0] 1 freshReasm (by decide)
    (by decide) (.inl rfl) _ pkt fun f hf => isFragment_fragmentPacket _ _ (by decide) hf
  have hearly : ((defragment freshReasm (pkt 1)).bind fun r =>
      (defragment r.1 (pkt 2)).map Prod.snd) = some (some 40) := by decide
  rw [hdef₁, Option.bind_some, hdef₂] at hearly
  cases hearly

end UBoot.Net
