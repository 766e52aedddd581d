import Mathlib.Algebra.Ring.Nat
import Mathlib.Data.List.Induction
import Mathlib.Tactic.Ring

/-!
# Byte strings

The value of a byte string and the fixed-length string of a value, in both byte
orders, and the fields of a packed structure. A pointer into memory is the
function from an offset to the byte stored there, so that code which trusts a
length from elsewhere can be described as it is.
-/

namespace Verification

/-- One instance for all places where a byte string is looked for in a list. -/
instance lawfulBEqBytes : LawfulBEq (List UInt8) := inferInstance

/-- The bytes found at increasing offsets from a pointer. -/
abbrev Ptr := Nat → UInt8

/-- The first `n` bytes at `p`. -/
def Ptr.bytes (p : Ptr) (n : Nat) : List UInt8 := (List.range n).map p

/-- Pointer arithmetic. -/
def Ptr.add (p : Ptr) (k : Nat) : Ptr := fun i => p (k + i)

/-- The bytes of a buffer are copied to an offset. -/
def Ptr.write (p : Ptr) (offset n : Nat) (buf : Ptr) : Ptr :=
  fun i => if offset ≤ i ∧ i < offset + n then buf (i - offset) else p i

/-- Memory that starts with the given bytes. -/
def Ptr.ofList (bs : List UInt8) : Ptr := fun i => bs.getD i 0

/-- The bytes of an ASCII string. -/
def ascii (s : String) : List UInt8 := s.toList.map fun c => UInt8.ofNat c.toNat

/-- The value of a big-endian byte string. -/
def beValue (bs : List UInt8) : Nat :=
  bs.foldl (fun value b => value * 256 + b.toNat) 0

/-- The low `n` bytes of a value, most significant first. -/
def beBytes : Nat → Nat → List UInt8
  | 0, _ => []
  | n + 1, value => beBytes n (value / 256) ++ [UInt8.ofNat value]

@[simp] theorem Ptr.length_bytes (p : Ptr) (n : Nat) : (p.bytes n).length = n := by
  simp [Ptr.bytes]

theorem Ptr.bytes_add (p : Ptr) (n k : Nat) :
    p.bytes (n + k) = p.bytes n ++ (p.add n).bytes k := by
  simp [Ptr.bytes, Ptr.add, List.range_add]

theorem Ptr.bytes_succ (p : Ptr) (n : Nat) : p.bytes (n + 1) = p.bytes n ++ [p n] :=
  p.bytes_add n 1

theorem Ptr.bytes_of_le (p : Ptr) {k n : Nat} (h : k ≤ n) : p.bytes k = (p.bytes n).take k := by
  obtain ⟨d, rfl⟩ := Nat.exists_eq_add_of_le h
  rw [p.bytes_add, List.take_left' (p.length_bytes k)]

theorem Ptr.getElem?_bytes (p : Ptr) {i n : Nat} (h : i < n) : (p.bytes n)[i]? = some (p i) := by
  simp [Ptr.bytes, h]

theorem Ptr.add_zero (p : Ptr) : p.add 0 = p := by
  funext i
  rw [Ptr.add, Nat.zero_add]

theorem Ptr.add_add (p : Ptr) (m n : Nat) : (p.add m).add n = p.add (m + n) := by
  funext i
  simp only [Ptr.add, Nat.add_assoc]

@[simp] theorem Ptr.bytes_ofList (bs : List UInt8) : (Ptr.ofList bs).bytes bs.length = bs := by
  apply List.ext_getElem
  · simp
  · intro i h1 h2
    simp [Ptr.bytes, Ptr.ofList, List.getD_eq_getElem?_getD, h2]

theorem Ptr.bytes_congr {p q : Ptr} {n : Nat} (h : ∀ i < n, p i = q i) : p.bytes n = q.bytes n := by
  apply List.map_congr_left
  intro i hi
  exact h i (List.mem_range.mp hi)

theorem Ptr.bytes_write_self (p : Ptr) (offset n : Nat) (buf : Ptr) :
    ((p.write offset n buf).add offset).bytes n = buf.bytes n := by
  apply Ptr.bytes_congr
  intro i hi
  simp only [Ptr.add, Ptr.write]
  rw [if_pos (by omega), Nat.add_sub_cancel_left]

theorem Ptr.bytes_write_of_disjoint (p : Ptr) {offset n : Nat} (buf : Ptr) {offset' n' : Nat}
    (h : offset' + n' ≤ offset ∨ offset + n ≤ offset') :
    ((p.write offset n buf).add offset').bytes n' = (p.add offset').bytes n' := by
  apply Ptr.bytes_congr
  intro i hi
  simp only [Ptr.add, Ptr.write]
  rw [if_neg (by omega)]

theorem Ptr.write_zero (p : Ptr) (offset : Nat) (buf : Ptr) : p.write offset 0 buf = p := by
  funext i
  exact if_neg (by omega)

/-- Writes one behind the other are one write. -/
theorem Ptr.write_write (p : Ptr) (offset n k : Nat) (buf : Ptr) :
    (p.write offset n buf).write (offset + n) k (buf.add n) = p.write offset (n + k) buf := by
  funext i
  simp only [Ptr.write, Ptr.add]
  by_cases h1 : offset + n ≤ i ∧ i < offset + n + k
  · rw [if_pos h1, if_pos (by omega)]
    congr 1
    omega
  · rw [if_neg h1]
    by_cases h2 : offset ≤ i ∧ i < offset + n
    · rw [if_pos h2, if_pos (by omega)]
    · rw [if_neg h2, if_neg (by omega)]

theorem Ptr.write_congr (p : Ptr) (offset : Nat) {n : Nat} {buf buf' : Ptr}
    (h : ∀ i < n, buf i = buf' i) : p.write offset n buf = p.write offset n buf' := by
  funext i
  simp only [Ptr.write]
  split_ifs with hi
  · exact h _ (by omega)
  · rfl

/-- Bytes are written behind the first ones. -/
theorem Ptr.bytes_write_append (p : Ptr) (offset n : Nat) (buf : Ptr) :
    (p.write offset n buf).bytes (offset + n) = p.bytes offset ++ buf.bytes n := by
  have hfirst : (p.write offset n buf).bytes offset = p.bytes offset := by
    apply Ptr.bytes_congr
    intro i hi
    exact if_neg (by omega)
  rw [Ptr.bytes_add, Ptr.bytes_write_self, hfirst]

/-- The bytes behind an offset are a part of those at the pointer. -/
theorem Ptr.bytes_add_eq (p : Ptr) {k n total : Nat} (h : k + n ≤ total) :
    (p.add k).bytes n = ((p.bytes total).drop k).take n := by
  obtain ⟨m, rfl⟩ := Nat.exists_eq_add_of_le h
  rw [Nat.add_assoc, p.bytes_add k (n + m), (p.add k).bytes_add n m,
    List.drop_left' (p.length_bytes k), List.take_left' ((p.add k).length_bytes n)]

/-- A part of the given bytes, found in memory. -/
theorem Ptr.bytes_ofList_append (pre mid post : List UInt8) {k n : Nat} (hk : pre.length = k)
    (hn : mid.length = n) : ((Ptr.ofList (pre ++ (mid ++ post))).add k).bytes n = mid := by
  have hle : k + n ≤ (pre ++ (mid ++ post)).length := by
    rw [List.length_append, List.length_append]
    omega
  rw [Ptr.bytes_add_eq _ hle, Ptr.bytes_ofList, List.drop_left' hk, List.take_left' hn]

/-- Memory that starts with the given bytes has zeros behind them. -/
theorem Ptr.bytes_ofList_of_le {bs : List UInt8} {n : Nat} (h : bs.length ≤ n) :
    (Ptr.ofList bs).bytes n = bs ++ List.replicate (n - bs.length) 0 := by
  apply List.ext_getElem
  · simp [h]
  · intro i h1 h2
    rw [List.getElem_append]
    split_ifs with hi
    · simp [Ptr.bytes, Ptr.ofList, List.getD_eq_getElem?_getD, hi]
    · simp [Ptr.bytes, Ptr.ofList, List.getD_eq_getElem?_getD, Nat.le_of_not_lt hi]

/-- A string ends at the first stop, whatever is behind it. -/
theorem takeWhile_append_of_nil {α : Type} {p : α → Bool} {xs ys : List α}
    (h : ys.takeWhile p = []) : (xs ++ ys).takeWhile p = xs.takeWhile p := by
  induction xs with
  | nil => exact h
  | cons x xs ih => rw [List.cons_append, List.takeWhile_cons, List.takeWhile_cons, ih]

@[simp] theorem beValue_nil : beValue [] = 0 := rfl

theorem beValue_concat (bs : List UInt8) (b : UInt8) :
    beValue (bs ++ [b]) = beValue bs * 256 + b.toNat := by
  simp [beValue]

theorem beValue_append (xs ys : List UInt8) :
    beValue (xs ++ ys) = beValue xs * 256 ^ ys.length + beValue ys := by
  induction ys using List.reverseRecOn with
  | nil => simp
  | append_singleton ys y ih =>
    rw [← List.append_assoc, beValue_concat, ih, beValue_concat, List.length_append,
      List.length_singleton]
    ring

theorem beValue_lt (bs : List UInt8) : beValue bs < 256 ^ bs.length := by
  induction bs using List.reverseRecOn with
  | nil => simp
  | append_singleton bs b ih =>
    rw [beValue_concat, List.length_append, List.length_singleton, Nat.pow_succ]
    have hb := b.toNat_lt
    omega

@[simp] theorem length_beBytes (n value : Nat) : (beBytes n value).length = n := by
  induction n generalizing value with
  | zero => rfl
  | succ n ih => simp [beBytes, ih]

theorem beValue_beBytes (n value : Nat) : beValue (beBytes n value) = value % 256 ^ n := by
  induction n generalizing value with
  | zero => simp [beBytes, Nat.mod_one]
  | succ n ih =>
    rw [beBytes, beValue_concat, ih, Nat.pow_succ', Nat.mod_mul, UInt8.toNat_ofNat']
    ring

theorem beBytes_beValue (bs : List UInt8) : beBytes bs.length (beValue bs) = bs := by
  induction bs using List.reverseRecOn with
  | nil => rfl
  | append_singleton bs b ih =>
    have hdiv : (beValue bs * 256 + b.toNat) / 256 = beValue bs := by
      have hb := b.toNat_lt
      omega
    have hbyte : UInt8.ofNat (beValue bs * 256 + b.toNat) = b := by
      have hb := b.toNat_lt
      rw [← UInt8.toNat_inj, UInt8.toNat_ofNat']
      omega
    rw [beValue_concat, List.length_append, List.length_singleton, beBytes, hdiv, ih, hbyte]

theorem getD_beBytes {n i : Nat} (h : i < n) (value : Nat) :
    (beBytes n value).getD i 0 = UInt8.ofNat (value / 256 ^ (n - 1 - i)) := by
  induction n generalizing value with
  | zero => exact absurd h (Nat.not_lt_zero i)
  | succ n ih =>
    rw [beBytes, List.getD_eq_getElem?_getD]
    rcases Nat.lt_succ_iff_lt_or_eq.mp h with hlt | rfl
    · rw [List.getElem?_append_left (by rwa [length_beBytes]), ← List.getD_eq_getElem?_getD,
        ih hlt, Nat.div_div_eq_div_mul, ← Nat.pow_succ',
        show (n - 1 - i).succ = n + 1 - 1 - i by omega]
    · rw [List.getElem?_append_right (by rw [length_beBytes]), length_beBytes, Nat.sub_self,
        Nat.add_sub_cancel, Nat.sub_self, Nat.pow_zero, Nat.div_one]
      rfl

theorem beBytes_add (m k value : Nat) :
    beBytes (m + k) value = beBytes m (value / 256 ^ k) ++ beBytes k value := by
  induction k generalizing value with
  | zero => simp [beBytes]
  | succ k ih =>
    rw [← Nat.add_assoc, beBytes, beBytes, ih, Nat.pow_succ', Nat.div_div_eq_div_mul,
      List.append_assoc]

/-- Only the low `n` bytes of the value are written. -/
theorem beBytes_mod (n value : Nat) : beBytes n (value % 256 ^ n) = beBytes n value := by
  induction n generalizing value with
  | zero => rfl
  | succ n ih =>
    have hbyte : UInt8.ofNat (value % 256 ^ (n + 1)) = UInt8.ofNat value := by
      rw [← UInt8.toNat_inj, UInt8.toNat_ofNat', UInt8.toNat_ofNat', Nat.pow_succ',
        Nat.mod_mul_right_mod]
    rw [beBytes, beBytes, hbyte, Nat.pow_succ', Nat.mod_mul_right_div_self, ih]

/-! ### Little-endian -/

/-- The low `n` bytes of a value, least significant first. -/
def leBytes (n value : Nat) : List UInt8 := (beBytes n value).reverse

/-- The value of a little-endian byte string. -/
def leValue (bs : List UInt8) : Nat := beValue bs.reverse

@[simp] theorem length_leBytes (n value : Nat) : (leBytes n value).length = n := by
  simp [leBytes]

theorem leValue_leBytes (n value : Nat) : leValue (leBytes n value) = value % 256 ^ n := by
  rw [leValue, leBytes, List.reverse_reverse, beValue_beBytes]

/-! ### Fields -/

/-- The field of `n` bytes at an offset. -/
def slice (bs : List UInt8) (i n : Nat) : List UInt8 := (bs.drop i).take n

theorem slice_append_left {bs rest : List UInt8} {n : Nat} (h : bs.length = n) :
    slice (bs ++ rest) 0 n = bs :=
  List.take_left' h

theorem slice_append_right {bs rest : List UInt8} {i n k : Nat} (h : bs.length = k) (hk : k ≤ i) :
    slice (bs ++ rest) i n = slice rest (i - k) n := by
  obtain ⟨j, rfl⟩ := Nat.exists_eq_add_of_le hk
  rw [slice, slice, ← List.drop_drop, List.drop_left' h, Nat.add_sub_cancel_left]

end Verification
