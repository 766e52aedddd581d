import UBoot.HashTable.Serial

/-!
# Parsing what was exported

`hexport_r` writes its entries in another order, and one turn of the loop of
`himport_r` reads one of them back. The parser works in place, so what it has
passed is garbage; only the rest of the buffer matters.
-/

namespace UBoot.HashTable

/-! ### Sorting permutes -/

section Qsort

variable {α : Type} (comp : α → α → Int)

theorem swapIfInBounds_perm (base : Array α) (i j : Nat) :
    (base.swapIfInBounds i j).Perm base := by
  rw [Array.swapIfInBounds_def]
  split
  · split
    · exact Array.swap_perm _ _
    · exact Array.Perm.refl base
  · exact Array.Perm.refl base

theorem siftDown_perm (wgap fuel j : Nat) (base : Array α) :
    (siftDown comp wgap fuel j base).Perm base := by
  induction fuel generalizing j base with
  | zero => exact Array.Perm.refl base
  | succ fuel ih =>
    simp only [siftDown]
    split
    · split
      · exact Array.Perm.refl base
      · split
        · exact (ih _ _).trans (swapIfInBounds_perm ..)
        · exact swapIfInBounds_perm ..
    · exact Array.Perm.refl base

theorem gapPass_perm (wgap : Nat) (base : Array α) : (gapPass comp wgap base).Perm base := by
  rw [gapPass]
  generalize List.range (base.size - wgap) = offsets
  induction offsets generalizing base with
  | nil => exact Array.Perm.refl base
  | cons d offsets ih => exact (ih _).trans (siftDown_perm ..)

theorem gapPasses_perm (fuel wgap : Nat) (base : Array α) :
    (gapPasses comp fuel wgap base).Perm base := by
  induction fuel generalizing wgap base with
  | zero => exact Array.Perm.refl base
  | succ fuel ih =>
    simp only [gapPasses]
    split
    · exact (ih _ _).trans (gapPass_perm ..)
    · exact gapPass_perm ..

theorem qsort_perm (list : List α) : (qsort comp list).Perm list := by
  rw [qsort]
  split
  · exact (gapPasses_perm comp _ _ list.toArray).toList
  · exact List.Perm.refl list

end Qsort

/-! ### Reading a buffer -/

theorem scanWhile_append {p : UInt8 → Bool} (front xs : List UInt8) (y : UInt8)
    (tail : List UInt8) (hxs : ∀ c ∈ xs, p c = true) (hy : p y = false) :
    scanWhile p (front ++ (xs ++ y :: tail)) front.length = some (front.length + xs.length) := by
  have hfind : (xs ++ y :: tail).findIdx? (fun c => !p c) = some xs.length := by
    rw [List.findIdx?_append, List.findIdx?_eq_none_iff.mpr (by simpa using hxs)]
    simp [List.findIdx?_cons, hy]
  rw [scanWhile, List.drop_left, hfind, Option.map_some]

theorem getElem?_front (front : List UInt8) (y : UInt8) (tail : List UInt8) :
    (front ++ y :: tail)[front.length]? = some y := by
  simp

theorem putByte_front (front : List UInt8) (y c : UInt8) (tail : List UInt8) :
    putByte (front ++ y :: tail) front.length c = some (front ++ c :: tail) := by
  rw [putByte, if_pos (by simp), List.set_append_right _ _ (Nat.le_refl _), Nat.sub_self,
    List.set_cons_zero]

theorem stringAt_append (front s tail : List UInt8) (hs : 0 ∉ s) :
    stringAt (front ++ (s ++ 0 :: tail)) front.length = some s := by
  rw [stringAt, scanWhile_append front s 0 tail
    (fun c hc => by simpa using ne_of_mem_of_not_mem hc hs) (by simp)]
  simp

/-- A name that the parser finds again. -/
structure GoodKey (sep : UInt8) (key : Str) : Prop where
  nonempty : key ≠ []
  noEquals : chEquals ∉ key
  noNul : 0 ∉ key
  noSep : sep ∉ key
  start : ∀ c, key.head? = some c → c ≠ chSpace ∧ c ≠ chTab ∧ c ≠ chHash

/-- A value that is not taken for a deletion. -/
structure GoodValue (value : Str) : Prop where
  nonempty : value ≠ []
  noNul : 0 ∉ value

/-- Overwriting the first byte of a part of the buffer. -/
theorem putByte_head (front xs ys : List UInt8) (c : UInt8) (hxs : xs ≠ []) :
    putByte (front ++ (xs ++ ys)) front.length c = some ((front ++ [c]) ++ (xs.tail ++ ys)) := by
  obtain ⟨x, xs, rfl⟩ := List.exists_cons_of_ne_nil hxs
  rw [List.cons_append, putByte_front]
  simp

@[simp] theorem escape_nil (sep : UInt8) : escape sep [] = [] := rfl

theorem escape_cons (sep c : UInt8) (value : Str) :
    escape sep (c :: value) =
      (if c = sep ∨ c = chBackslash then [chBackslash, c] else [c]) ++ escape sep value := by
  simp [escape]

/-- One backslash is written for every separator and every backslash. -/
theorem length_escape (sep : UInt8) (value : Str) :
    (escape sep value).length = value.length + value.countP fun c => c = sep ∨ c = chBackslash := by
  induction value with
  | nil => rfl
  | cons c value ih =>
    rw [escape_cons, List.length_append, ih, List.countP_cons]
    by_cases hc : c = sep ∨ c = chBackslash
    · simp [hc]
      omega
    · simp [hc]
      omega

theorem length_le_escape (sep : UInt8) (value : Str) :
    value.length ≤ (escape sep value).length := by
  rw [length_escape]
  exact Nat.le_add_right _ _

/-- The loop over a value. What it leaves between the moved value and the end of
the escaped one is of no interest. -/
theorem valueLoop_escape {sep : UInt8} (hsep : sep = 0 ∨ sep = chLf) (value : Str)
    (hnul : 0 ∉ value) (fuel : Nat) (hfuel : value.length < fuel)
    (front junk tail : List UInt8) :
    ∃ junk', junk'.length + value.length = junk.length + (escape sep value).length ∧
      valueLoop sep fuel (front ++ (junk ++ (escape sep value ++ sep :: tail))) front.length
          (front.length + junk.length) =
        some (front ++ (value ++ (junk' ++ sep :: tail)), front.length + value.length,
          front.length + value.length + junk'.length) := by
  induction value generalizing fuel front junk with
  | nil =>
    obtain ⟨fuel, rfl⟩ : ∃ m, fuel = m + 1 := ⟨fuel - 1, by simp at hfuel; omega⟩
    refine ⟨junk, by simp, ?_⟩
    simp [valueLoop]
  | cons c value ih =>
    obtain ⟨fuel, rfl⟩ : ∃ m, fuel = m + 1 := ⟨fuel - 1, by simp at hfuel; omega⟩
    rw [List.mem_cons, not_or] at hnul
    have hbs : chBackslash ≠ sep := by
      rcases hsep with rfl | rfl <;> decide
    rw [escape_cons]
    -- what one turn does, for the bytes `code` that stand for `c`
    have hturn : ∀ code : List UInt8, code ≠ [] →
        valueLoop sep (fuel + 1) (front ++ (junk ++ ((code ++ escape sep value) ++
          sep :: tail))) front.length (front.length + junk.length) =
        valueLoop sep fuel ((front ++ [c]) ++ ((junk ++ code).tail ++ (escape sep value ++
          sep :: tail))) (front ++ [c]).length ((front ++ [c]).length +
            (junk ++ code).tail.length) →
        ∃ junk', junk'.length + (c :: value).length =
            junk.length + (code ++ escape sep value).length ∧
          valueLoop sep (fuel + 1) (front ++ (junk ++ ((code ++ escape sep value) ++
            sep :: tail))) front.length (front.length + junk.length) =
          some (front ++ ((c :: value) ++ (junk' ++ sep :: tail)),
            front.length + (c :: value).length,
            front.length + (c :: value).length + junk'.length) := by
      intro code hcode heq
      obtain ⟨junk', hlen, hloop⟩ := ih hnul.2 fuel (by simp at hfuel; omega) (front ++ [c])
        (junk ++ code).tail
      have hpos : 0 < code.length := List.length_pos_iff.mpr hcode
      refine ⟨junk', ?_, ?_⟩
      · simp only [List.length_tail, List.length_append, List.length_cons] at hlen ⊢
        omega
      · rw [heq, hloop]
        simp only [List.append_assoc, List.cons_append, List.length_append, List.length_cons,
          List.length_nil]
        congr 3 <;> omega
    have hget : ∀ (code : List UInt8) (x : UInt8) (xs : List UInt8), code = x :: xs →
        (front ++ (junk ++ ((code ++ escape sep value) ++ sep :: tail)))[front.length +
          junk.length]? = some x := by
      rintro code x xs rfl
      rw [← List.append_assoc, ← List.length_append, List.cons_append, List.cons_append]
      exact getElem?_front ..
    have hput : ∀ code : List UInt8, code ≠ [] →
        putByte (front ++ (junk ++ ((code ++ escape sep value) ++ sep :: tail)))
          front.length c =
        some ((front ++ [c]) ++ ((junk ++ code).tail ++ (escape sep value ++ sep :: tail))) := by
      intro code hcode
      rw [List.append_assoc, ← List.append_assoc junk]
      exact putByte_head front (junk ++ code) _ c (by simp [hcode])
    split
    · rename_i hesc
      apply hturn _ (by simp)
      have hnext : (front ++ (junk ++ (([chBackslash, c] ++ escape sep value) ++
          sep :: tail)))[front.length + junk.length + 1]? = some c := by
        have := getElem?_front (front ++ junk ++ [chBackslash]) c
          (escape sep value ++ sep :: tail)
        simpa [List.append_assoc, Nat.add_assoc] using this
      rw [valueLoop, hget _ _ _ rfl]
      simp only [Option.bind_eq_bind, Option.bind_some]
      rw [if_pos ⟨by decide, hbs⟩, if_pos trivial, hnext]
      simp only [Option.bind_some]
      rw [if_pos (Ne.symm hnul.1), hnext, Option.bind_some, hput _ (by simp), Option.bind_some]
      congr 1
      · simp
      · simp
        omega
    · rename_i hplain
      rw [not_or] at hplain
      apply hturn _ (by simp)
      rw [valueLoop, hget _ _ _ rfl]
      simp only [Option.bind_eq_bind, Option.bind_some]
      rw [if_pos ⟨Ne.symm hnul.1, hplain.1⟩, if_neg hplain.2]
      rw [if_neg (by simp), hget _ _ _ rfl, Option.bind_some, hput _ (by simp),
        Option.bind_some]
      congr 1
      · simp
      · simp
        omega

theorem escape_start {sep : UInt8} (hsep : sep = 0 ∨ sep = chLf) {value : Str}
    (h : GoodValue value) :
    ∃ c rest, escape sep value = c :: rest ∧ c ≠ 0 ∧ c ≠ sep := by
  obtain ⟨c, value, rfl⟩ := List.exists_cons_of_ne_nil h.nonempty
  have hnul := h.noNul
  rw [List.mem_cons, not_or] at hnul
  rw [escape_cons]
  split
  · exact ⟨chBackslash, _, rfl, by decide, by rcases hsep with rfl | rfl <;> decide⟩
  · rename_i hplain
    exact ⟨c, _, rfl, Ne.symm hnul.1, fun hc => hplain (.inl hc)⟩

/-- One turn of the parser over an exported entry. -/
theorem parseEntry_export {sep : UInt8} (hsep : sep = 0 ∨ sep = chLf) {key value : Str}
    (hkey : GoodKey sep key) (hvalue : GoodValue value) (front tail : List UInt8) :
    ∃ front', front'.length = front.length + (exportEntry sep (key, value)).length ∧
      parseEntry sep (front ++ (exportEntry sep (key, value) ++ tail)) front.length =
        some (front' ++ tail, front'.length, .enter key value) := by
  obtain ⟨e, erest, hesc, he0, hesep⟩ := escape_start hsep hvalue
  obtain ⟨k, krest, hk⟩ := List.exists_cons_of_ne_nil hkey.nonempty
  obtain ⟨hspace, htab, hhash⟩ := hkey.start k (by rw [hk]; rfl)
  have htext : exportEntry sep (key, value) ++ tail =
      key ++ chEquals :: (escape sep value ++ sep :: tail) := by
    simp [exportEntry]
  -- the name
  have hblank : scanWhile (fun c => c = chSpace ∨ c = chTab)
      (front ++ (key ++ chEquals :: (escape sep value ++ sep :: tail))) front.length =
        some front.length := by
    have := scanWhile_append (p := fun c => c = chSpace ∨ c = chTab) front [] k
      (krest ++ chEquals :: (escape sep value ++ sep :: tail)) (by simp)
      (by simp [hspace, htab])
    rw [hk]
    simpa using this
  have hfirst : (front ++ (key ++ chEquals :: (escape sep value ++ sep :: tail)))[front.length]? =
      some k := by
    rw [hk]
    exact getElem?_front ..
  have hname : scanWhile (fun c => c ≠ chEquals ∧ c ≠ 0 ∧ c ≠ sep)
      (front ++ (key ++ chEquals :: (escape sep value ++ sep :: tail))) front.length =
        some (front.length + key.length) := by
    apply scanWhile_append
    · intro c hc
      simp [ne_of_mem_of_not_mem hc hkey.noEquals, ne_of_mem_of_not_mem hc hkey.noNul,
        ne_of_mem_of_not_mem hc hkey.noSep]
    · simp
  have hequals : (front ++ (key ++ chEquals :: (escape sep value ++ sep :: tail)))[front.length +
      key.length]? = some chEquals := by
    rw [← List.append_assoc, ← List.length_append]
    exact getElem?_front ..
  have hafter : (front ++ (key ++ chEquals :: (escape sep value ++ sep :: tail)))[front.length +
      key.length + 1]? = some e := by
    have := getElem?_front (front ++ key ++ [chEquals]) e (erest ++ sep :: tail)
    rw [hesc]
    simpa [List.append_assoc, Nat.add_assoc] using this
  -- the value
  have hterm : putByte (front ++ (key ++ chEquals :: (escape sep value ++ sep :: tail)))
      (front.length + key.length) 0 =
        some ((front ++ key ++ [0]) ++ ([] ++ (escape sep value ++ sep :: tail))) := by
    have := putByte_front (front ++ key) chEquals 0 (escape sep value ++ sep :: tail)
    rw [List.length_append] at this
    simpa [List.append_assoc] using this
  have hlen : (front ++ key ++ [0]).length = front.length + key.length + 1 := by
    simp [Nat.add_assoc]
  obtain ⟨junk, hjunk, hloop⟩ := valueLoop_escape hsep value hvalue.noNul
    (((front ++ key ++ [0]) ++ ([] ++ (escape sep value ++ sep :: tail))).length + 1)
    (by
      have : value.length ≤ (escape sep value).length := length_le_escape sep value
      simp
      omega) (front ++ key ++ [0]) [] tail
  have hsp : putByte ((front ++ key ++ [0]) ++ (value ++ (junk ++ sep :: tail)))
      ((front ++ key ++ [0]).length + value.length) 0 =
        some ((front ++ key ++ [0]) ++ (value ++ 0 :: ((junk ++ [sep]).tail ++ tail))) := by
    have := putByte_head ((front ++ key ++ [0]) ++ value) (junk ++ [sep]) tail 0 (by simp)
    rw [List.length_append] at this
    simpa [List.append_assoc] using this
  have hnameText : stringAt ((front ++ key ++ [0]) ++ (value ++ 0 :: ((junk ++ [sep]).tail ++
      tail))) front.length = some key := by
    have := stringAt_append front key (value ++ 0 :: ((junk ++ [sep]).tail ++ tail)) hkey.noNul
    simpa [List.append_assoc] using this
  have hvalueText := stringAt_append (front ++ key ++ [0]) value ((junk ++ [sep]).tail ++ tail)
    hvalue.noNul
  refine ⟨(front ++ key ++ [0]) ++ (value ++ 0 :: (junk ++ [sep]).tail), ?_, ?_⟩
  · simp [exportEntry] at hjunk ⊢
    omega
  · rw [htext, parseEntry, hblank]
    simp only [Option.bind_eq_bind, Option.bind_some, hfirst, if_neg hhash, hname, hequals]
    rw [if_neg (show chEquals ≠ 0 by decide), hafter]
    simp only [Option.bind_some]
    rw [if_neg (by
      rintro (h | h | h | h)
      · exact absurd h (by decide)
      · exact he0 h
      · rcases hsep with rfl | rfl <;> exact absurd h (by decide)
      · exact hesep h), hterm]
    simp only [Option.bind_some]
    rw [← hlen]
    simp only [List.length_nil, Nat.add_zero] at hloop
    rw [hloop]
    simp only [Option.bind_some, hsp, hnameText, hvalueText]
    rw [if_neg hkey.nonempty]
    simp only [Option.pure_def, Option.some.injEq, Prod.mk.injEq]
    refine ⟨by simp [List.append_assoc], ?_, trivial⟩
    simp
    omega

end UBoot.HashTable
