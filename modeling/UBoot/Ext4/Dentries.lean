import UBoot.Ext4.ParentDentry

/-!
# The entries of a directory block

A block is a chain of entries. The loop comes to the first entry that has room behind it for
the new one, and cutting that entry in two gives a chain again, with the same entries and one
more.
-/

namespace UBoot.Ext4.ParentDentry

open Verification

structure Entry where
  inode : UInt32
  name : List UInt8
  filetype : UInt8

def entryAt (buf : Ptr) (off : Nat) : Entry where
  inode := le32At buf off
  name := (buf.add (off + 8)).bytes (namelen buf off)
  filetype := buf (off + 7)

/-- The entries cover the block, and each one holds its name. -/
structure Chain (g : Geometry) (buf : Ptr) (offs : List Nat) : Prop where
  covers : Covers (direntlen buf) g.blksz 0 offs
  holds : ∀ a ∈ offs, 8 + namelen buf a ≤ direntlen buf a

/-- There is room for the new entry behind this one. -/
def Room (name : List UInt8) (buf : Ptr) (a : Nat) : Prop :=
  dentryLength (namelen buf a) + dentryLength name.length ≤ direntlen buf a

instance (name : List UInt8) (buf : Ptr) : DecidablePred (Room name buf) :=
  fun _ => inferInstanceAs (Decidable (_ ≤ _))

theorem le_dentryLength (n : Nat) : 8 + n ≤ dentryLength n := Nat.le_add_right _ _

theorem dentryLength_le (n : Nat) : dentryLength n ≤ n + 11 := by
  rw [dentryLength, paddingFactor]
  split_ifs <;> omega

theorem newEntryByteReqd_eq (n : Nat) : n + 8 + paddingFactor 0 n = dentryLength n := by
  rw [dentryLength, Nat.add_comm 8]

theorem direntlen_lt (buf : Ptr) (a : Nat) : direntlen buf a < 65536 := UInt16.toNat_lt _

theorem namelen_lt (buf : Ptr) (a : Nat) : namelen buf a < 256 := UInt8.toNat_lt _

section

variable {g : Geometry} {name : List UInt8} {buf : Ptr} {off a padding fuel : Nat}
  {xs ys : List Nat}

/-! ## The loop -/

theorem checkVoid_of_not_room (h : ¬ Room name buf a) :
    checkVoidInDentry name buf a = (0, buf) := by
  rw [Room] at h
  rw [checkVoidInDentry]
  split_ifs
  · rfl
  · omega
  · rfl

theorem checkVoid_of_room (h : Room name buf a) : checkVoidInDentry name buf a =
    (direntlen buf a - dentryLength (namelen buf a),
      setDirentlen buf a (dentryLength (namelen buf a))) := by
  have hpos := le_dentryLength name.length
  rw [Room] at h
  rw [checkVoidInDentry]
  rw [if_neg (by omega), if_pos (by omega)]
  congr 1
  omega

/-- The loop passes the entries that have no room. -/
theorem walk_skip (hcovers : Covers (direntlen buf) g.blksz off (xs ++ a :: ys))
    (hholds : ∀ c ∈ xs ++ a :: ys, 8 + namelen buf c ≤ direntlen buf c)
    (hroom : ∀ c ∈ xs, ¬ Room name buf c) (hfuel : g.blksz ≤ off + fuel) :
    ∃ fuel', g.blksz ≤ a + fuel' ∧
      walk g name buf padding fuel off = walk g name buf padding fuel' a := by
  induction xs generalizing off fuel with
  | nil =>
    cases hcovers with
    | cons _ _ => exact ⟨fuel, hfuel, rfl⟩
  | cons x xs ih =>
    cases hcovers with
    | cons hpos hrest =>
      have hheld := hholds x List.mem_cons_self
      have hbounds := hrest.bounds (List.mem_append_right xs List.mem_cons_self)
      have hlast := hholds a (by simp)
      obtain ⟨fuel, rfl⟩ : ∃ n, fuel = n + 1 := Nat.exists_eq_succ_of_ne_zero (by omega)
      have hfuel' : g.blksz ≤ x + direntlen buf x + fuel := by omega
      obtain ⟨fuel', hle, hwalk⟩ := ih hrest
        (fun c hc => hholds c (List.mem_cons_of_mem x hc))
        (fun c hc => hroom c (List.mem_cons_of_mem x hc)) hfuel'
      refine ⟨fuel', hle, ?_⟩
      rw [walk, if_neg (by omega), if_neg (by omega), if_neg (by omega), if_neg (by omega),
        checkVoid_of_not_room (hroom x List.mem_cons_self)]
      exact hwalk

/-- The last entry begins where its length ends at the end of the block. -/
theorem walk_last (hend : a + direntlen buf a = g.blksz) (hheld : 8 ≤ direntlen buf a) :
    walk g name buf padding (fuel + 1) a =
      if ((g.blksz : Int) - a - dentryLength (namelen buf a)) % 4294967296 <
          (name.length + 8 + paddingFactor padding name.length : Nat) then
        .full (paddingFactor 0 (namelen buf a))
      else .found a 0 (setDirentlen buf a (dentryLength (namelen buf a))) := by
  rw [walk, if_neg (by omega), if_neg (by omega), if_neg (by omega), if_pos (by omega),
    dentryLength, Nat.add_comm 8 (namelen buf a)]

end

section

variable {g : Geometry} {name : List UInt8} {buf : Ptr} {a : Nat} {xs ys : List Nat}

theorem Chain.walk_skip (h : Chain g buf (xs ++ a :: ys)) (hroom : ∀ c ∈ xs, ¬ Room name buf c) :
    ∃ fuel, walk g name buf 0 g.blksz 0 = walk g name buf 0 (fuel + 1) a := by
  obtain ⟨fuel, hle, hwalk⟩ := ParentDentry.walk_skip h.covers h.holds hroom (Nat.le_add_left _ _)
  have hbounds := h.covers.bounds (List.mem_append_right xs List.mem_cons_self)
  have hheld := h.holds a (by simp)
  obtain ⟨fuel, rfl⟩ : ∃ n, fuel = n + 1 := Nat.exists_eq_succ_of_ne_zero (by omega)
  exact ⟨fuel, hwalk⟩

theorem Chain.last (h : Chain g buf (xs ++ [a])) : a + direntlen buf a = g.blksz := by
  obtain ⟨-, -, hrest⟩ := h.covers.of_append_cons
  exact hrest.eq_of_nil

/-- The loop comes to the first entry that has room. -/
theorem Chain.walk_room (h : Chain g buf (xs ++ a :: ys)) (hroom : ∀ c ∈ xs, ¬ Room name buf c)
    (ha : Room name buf a) : walk g name buf 0 g.blksz 0 =
      .found a (if ys = [] then 0 else direntlen buf a - dentryLength (namelen buf a))
        (setDirentlen buf a (dentryLength (namelen buf a))) := by
  obtain ⟨fuel, hwalk⟩ := h.walk_skip hroom
  have hheld := h.holds a (by simp)
  have hneed := le_dentryLength name.length
  rw [hwalk]
  cases ys with
  | nil =>
    have hlt := direntlen_lt buf a
    have hlast := h.last
    rw [Room] at ha
    rw [walk_last hlast (by omega), if_pos rfl, newEntryByteReqd_eq, if_neg (by omega)]
  | cons y ys =>
    obtain ⟨-, -, hrest⟩ := h.covers.of_append_cons
    have hbounds := hrest.bounds List.mem_cons_self
    have hnext := h.holds y (by simp)
    rw [walk, if_neg (by omega), if_neg (by omega), if_neg (by omega), if_neg (by omega),
      checkVoid_of_room ha, if_neg (List.cons_ne_nil y ys)]
    rw [Room] at ha
    split
    · rename_i heq
      have := (Prod.ext_iff.mp heq).1
      dsimp only at this
      omega
    · rename_i heq
      obtain ⟨rfl, rfl⟩ := Prod.ext_iff.mp heq
      rfl

/-- A block without room is full, unless its last entry is shorter than it needs to be. -/
theorem Chain.walk_not_room (hname : name.length ≤ 255) (h : Chain g buf (xs ++ [a]))
    (hroom : ∀ c ∈ xs ++ [a], ¬ Room name buf c) : walk g name buf 0 g.blksz 0 =
      if dentryLength (namelen buf a) ≤ direntlen buf a then .full (paddingFactor 0 (namelen buf a))
      else .found a 0 (setDirentlen buf a (dentryLength (namelen buf a))) := by
  obtain ⟨fuel, hwalk⟩ := h.walk_skip fun c hc => hroom c (List.mem_append_left [a] hc)
  have hheld := h.holds a (by simp)
  have ha := hroom a (by simp)
  have hlast := h.last
  have hlt := namelen_lt buf a
  have hneed := dentryLength_le name.length
  have hneed' := dentryLength_le (namelen buf a)
  rw [Room] at ha
  rw [hwalk, walk_last hlast (by omega), newEntryByteReqd_eq]
  split_ifs
  · rfl
  · omega
  · omega
  · rfl

end

/-! ## Fields that are stored -/

section

variable {name : List UInt8} {buf buf' : Ptr} {a c dir length : Nat} {ino : UInt32}

theorem direntlen_congr (h : ∀ j, c + 4 ≤ j → j < c + 6 → buf' j = buf j) :
    direntlen buf' c = direntlen buf c := by
  rw [direntlen, direntlen, le16At_congr fun k hk => h (c + 4 + k) (by omega) (by omega)]

theorem namelen_congr (h : buf' (c + 6) = buf (c + 6)) : namelen buf' c = namelen buf c := by
  rw [namelen, namelen, h]

/-- An entry stays when its bytes do, those of its length apart. -/
theorem entryAt_congr
    (h : ∀ j, c ≤ j → j < c + 8 + namelen buf c → j < c + 4 ∨ c + 6 ≤ j → buf' j = buf j) :
    entryAt buf' c = entryAt buf c := by
  have hname := namelen_congr (h (c + 6) (by omega) (by omega) (by omega))
  rw [entryAt, entryAt, hname, h (c + 7) (by omega) (by omega) (by omega),
    le32At_congr fun k hk => h (c + k) (by omega) (by omega) (by omega),
    @Ptr.bytes_congr (buf'.add (c + 8)) (buf.add (c + 8)) _
      fun k hk => h (c + 8 + k) (by omega) (by omega) (by omega)]

theorem setDirentlen_of_ne {j : Nat} (h : j < a + 4 ∨ a + 6 ≤ j) :
    setDirentlen buf a length j = buf j :=
  setLe16_of_ne buf _ (by omega)

theorem direntlen_setDirentlen (h : length < 65536) :
    direntlen (setDirentlen buf a length) a = length := by
  rw [direntlen, setDirentlen, le16At_setLe16, UInt16.toNat_ofNat_of_lt' h]

theorem write_of_ne {p q : Ptr} {offset n j : Nat} (h : j < offset ∨ offset + n ≤ j) :
    p.write offset n q j = p j :=
  if_neg (by omega)

/-- The new entry changes only its own bytes. -/
theorem putEntry_of_ne {j : Nat} (h : j < dir ∨ dir + 8 + name.length ≤ j) :
    putEntry name buf dir ino length j = buf j := by
  rw [putEntry, write_of_ne (by omega), write_of_ne (by omega), write_of_ne (by omega),
    setDirentlen_of_ne (by omega), setLe32, write_of_ne (by omega)]

theorem direntlen_putEntry : direntlen (putEntry name buf dir ino length) dir =
    length % 65536 := by
  rw [putEntry, direntlen_congr fun j h1 h2 => (write_of_ne (by omega)),
    direntlen_congr fun j h1 h2 => (write_of_ne (by omega)),
    direntlen_congr fun j h1 h2 => (write_of_ne (by omega)), direntlen, setDirentlen,
    le16At_setLe16]
  exact UInt16.toNat_ofNat

theorem namelen_putEntry (hname : name.length ≤ 255) :
    namelen (putEntry name buf dir ino length) dir = name.length := by
  rw [putEntry, namelen_congr (write_of_ne (by omega)), namelen_congr (write_of_ne (by omega)),
    namelen, Ptr.write, if_pos (by omega)]
  exact UInt8.toNat_ofNat_of_lt' (Nat.lt_succ_of_le hname)

theorem entryAt_putEntry (hname : name.length ≤ 255) :
    entryAt (putEntry name buf dir ino length) dir = ⟨ino, name, FILETYPE_REG⟩ := by
  rw [entryAt, namelen_putEntry hname]
  congr 1
  · rw [putEntry, le32At_congr fun k hk => (write_of_ne (by omega)),
      le32At_congr fun k hk => (write_of_ne (by omega)),
      le32At_congr fun k hk => (write_of_ne (by omega)), setDirentlen,
      le32At_setLe16_of_ne _ _ (by omega), le32At_setLe32]
  · rw [putEntry, Ptr.bytes_write_self, Ptr.bytes_ofList]
  · rw [putEntry, write_of_ne (by omega), Ptr.write, if_pos (by omega)]

end

/-! ## The new entry -/

section

variable {g : Geometry} {name : List UInt8} {buf : Ptr} {a : Nat} {xs ys : List Nat}
  {ino : UInt32}

/-- The block with the new entry behind an entry that has room. -/
def inserted (name : List UInt8) (buf : Ptr) (a : Nat) (ino : UInt32) : Ptr :=
  putEntry name (setDirentlen buf a (dentryLength (namelen buf a)))
    (a + dentryLength (namelen buf a)) ino (direntlen buf a - dentryLength (namelen buf a))

theorem insertEntry_of_room (h : Chain g buf (xs ++ a :: ys)) (ha : Room name buf a) :
    insertEntry g name ino a (if ys = [] then 0 else direntlen buf a - dentryLength (namelen buf a))
      (setDirentlen buf a (dentryLength (namelen buf a))) = some (inserted name buf a ino) := by
  have hbounds := h.covers.bounds (List.mem_append_right xs List.mem_cons_self)
  have hlt := namelen_lt buf a
  have hneed := dentryLength_le (namelen buf a)
  have hneed' := le_dentryLength name.length
  have hlen : direntlen (setDirentlen buf a (dentryLength (namelen buf a))) a =
      dentryLength (namelen buf a) := direntlen_setDirentlen (by omega)
  rw [Room] at ha
  rw [insertEntry, hlen, if_neg (by omega), inserted]
  cases ys with
  | nil =>
    have hlast := h.last
    rw [if_pos rfl, if_neg (not_not.mpr rfl)]
    congr 2
    omega
  | cons y ys => rw [if_neg (List.cons_ne_nil y ys), if_pos (by omega)]

/-- Outside of the room that is taken and of one length nothing changes. -/
theorem inserted_of_ne (ha : Room name buf a) {j : Nat} (hj : j < a + 4 ∨ a + 6 ≤ j)
    (hj' : j < a + dentryLength (namelen buf a) ∨ a + direntlen buf a ≤ j) :
    inserted name buf a ino j = buf j := by
  have hneed := le_dentryLength name.length
  rw [Room] at ha
  rw [inserted, putEntry_of_ne (by omega), setDirentlen_of_ne hj]

theorem direntlen_inserted_self :
    direntlen (inserted name buf a ino) a = dentryLength (namelen buf a) := by
  have hlt := namelen_lt buf a
  have hneed := dentryLength_le (namelen buf a)
  have hheld := le_dentryLength (namelen buf a)
  rw [inserted, direntlen_congr fun j h1 h2 => putEntry_of_ne (by omega),
    direntlen_setDirentlen (by omega)]

theorem direntlen_inserted_new :
    direntlen (inserted name buf a ino) (a + dentryLength (namelen buf a)) =
      direntlen buf a - dentryLength (namelen buf a) := by
  have hlt := direntlen_lt buf a
  rw [inserted, direntlen_putEntry, Nat.mod_eq_of_lt (by omega)]

section

variable (h : Chain g buf (xs ++ a :: ys)) (ha : Room name buf a)

include h ha

/-- The other entries stand outside of the entry that is cut. -/
theorem inserted_other {c : Nat} (hc : c ∈ xs ∨ c ∈ ys) {j : Nat} (hle : c ≤ j)
    (hlt : j < c + 8 + namelen buf c) : inserted name buf a ino j = buf j := by
  have hheld := h.holds c (by
    rcases hc with hc | hc
    · exact List.mem_append_left _ hc
    · exact List.mem_append_right _ (List.mem_cons_of_mem _ hc))
  have hheld' := h.holds a (by simp)
  have hdisjoint := h.covers.disjoint hc
  have hneed := le_dentryLength (namelen buf a)
  exact inserted_of_ne ha (by omega) (by omega)

variable (ino) in
theorem entryAt_inserted_other {c : Nat} (hc : c ∈ xs ∨ c ∈ ys) :
    entryAt (inserted name buf a ino) c = entryAt buf c ∧
      direntlen (inserted name buf a ino) c = direntlen buf c ∧
      namelen (inserted name buf a ino) c = namelen buf c :=
  ⟨entryAt_congr fun j hle hlt _ => inserted_other h ha hc hle hlt,
    direntlen_congr fun j hle hlt => inserted_other h ha hc (by omega) (by omega),
    namelen_congr (inserted_other h ha hc (by omega) (by omega))⟩

omit h in
theorem entryAt_inserted_self :
    entryAt (inserted name buf a ino) a = entryAt buf a ∧
      namelen (inserted name buf a ino) a = namelen buf a := by
  have hneed := le_dentryLength (namelen buf a)
  exact ⟨entryAt_congr fun j hle hlt hne => inserted_of_ne ha hne (by omega),
    namelen_congr (inserted_of_ne ha (by omega) (by omega))⟩

/-- Cutting an entry that has room gives a chain again. -/
theorem chain_inserted (hname : name.length ≤ 255) : Chain g (inserted name buf a ino)
    (xs ++ a :: (a + dentryLength (namelen buf a)) :: ys) := by
  have hself : direntlen (inserted name buf a ino) a = _ := direntlen_inserted_self
  have hnew : direntlen (inserted name buf a ino) (a + dentryLength (namelen buf a)) = _ :=
    direntlen_inserted_new
  have hneed := le_dentryLength (namelen buf a)
  have hneed' := le_dentryLength name.length
  have hroom := ha
  rw [Room] at hroom
  constructor
  · rw [← hself] at hnew ⊢
    refine h.covers.cut (by omega) (by omega) (by omega) fun c hc => ?_
    exact (entryAt_inserted_other ino h ha hc).2.1
  · intro c hc
    rcases List.mem_append.mp hc with hc | hc
    · obtain ⟨-, hlen, hname⟩ := entryAt_inserted_other ino h ha (Or.inl hc)
      rw [hlen, hname]
      exact h.holds c (List.mem_append_left _ hc)
    rcases List.mem_cons.mp hc with rfl | hc
    · rw [hself, (entryAt_inserted_self ha).2]
      exact hneed
    rcases List.mem_cons.mp hc with rfl | hc
    · rw [hnew, inserted, namelen_putEntry hname]
      omega
    · obtain ⟨-, hlen, hname⟩ := entryAt_inserted_other ino h ha (Or.inr hc)
      rw [hlen, hname]
      exact h.holds c (List.mem_append_right _ (List.mem_cons_of_mem _ hc))

/-- The entries are those that were there and the new one. -/
theorem entries_inserted (hname : name.length ≤ 255) :
    (xs ++ a :: (a + dentryLength (namelen buf a)) :: ys).map (entryAt (inserted name buf a ino)) =
      (xs ++ [a]).map (entryAt buf) ++ ⟨ino, name, FILETYPE_REG⟩ :: ys.map (entryAt buf) := by
  have hxs : xs.map (entryAt (inserted name buf a ino)) = xs.map (entryAt buf) :=
    List.map_congr_left fun c hc => (entryAt_inserted_other ino h ha (Or.inl hc)).1
  have hys : ys.map (entryAt (inserted name buf a ino)) = ys.map (entryAt buf) :=
    List.map_congr_left fun c hc => (entryAt_inserted_other ino h ha (Or.inr hc)).1
  have hnew : entryAt (inserted name buf a ino) (a + dentryLength (namelen buf a)) = _ :=
    entryAt_putEntry hname
  rw [List.map_append, List.map_cons, List.map_cons, hxs, hys, hnew, (entryAt_inserted_self ha).1,
    List.map_append, List.append_assoc]
  rfl

end

end

end UBoot.Ext4.ParentDentry
