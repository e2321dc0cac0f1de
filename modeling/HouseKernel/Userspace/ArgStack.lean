import HouseKernel.Lib.ByteMemory
import HouseKernel.Lib.Text
import HouseKernel.Userspace.ForkBreak

/-! The arguments of a process on its stack page: the count, the pointers to the arguments and to the environment,
each array ended by a null pointer, and behind them the strings. Two loops fill a pointer array and its strings side
by side. -/
namespace HouseKernel.Userspace

open HouseKernel.Lib HouseKernel.Loader

def toBlob (s : Text) : Octets := s.map toByte ++ [0]

/-- Store the address of each string in the array at `o`, and the string at its address. The kernel sees the page that
the process has at `base` at `stk`. -/
def argStackGo (stk base : ℕ) : ℕ → List Octets → ℕ → ByteMem → ByteMem
  | _, [], _, mem => mem
  | o, b :: rest, va, mem =>
    argStackGo stk base (o + 8) rest (va + b.length)
      (fill (writeWord mem (stk + o) va) (stk + (va - base)) b.length fun k => b.getD k 0)

/-- The writes of `setupArgStack`, for a stack pointer that leaves them enough room. -/
def writeArgs (stk base sp : ℕ) (argv envp : List Text) (mem : ByteMem) : ByteMem :=
  let argBlobs := argv.map toBlob
  let envBlobs := envp.map toBlob
  let argc := argv.length
  let envc := envp.length
  let ptrsLen := (argc + 1) * 8 + (envc + 1) * 8
  let off := sp - base
  let argvOff := off + 8
  let envOff := argvOff + (argc + 1) * 8
  let strBase := sp + 8 + ptrsLen
  let mem := writeWord mem (stk + off) argc
  let mem := argStackGo stk base argvOff argBlobs strBase mem
  let mem := writeWord mem (stk + (argvOff + argc * 8)) 0
  let envStrBase := strBase + (argBlobs.map List.length).sum
  let mem := argStackGo stk base envOff envBlobs envStrBase mem
  writeWord mem (stk + (envOff + envc * 8)) 0

def setupArgStack (stk : ℕ) (argv envp : List Text) (mem : ByteMem) : Except LoadError ℕ × ByteMem :=
  if argv.length > 64 then (.error .noSpace, mem)
  else if envp.length > 64 then (.error .noSpace, mem)
  else if argv.any fun a => a.length > 1024 then (.error .noSpace, mem)
  else if envp.any fun e => e.length > 1024 then (.error .noSpace, mem)
  else
    let stringsLen := ((argv.map toBlob).map List.length).sum + ((envp.map toBlob).map List.length).sum
    let ptrsLen := (argv.length + 1) * 8 + (envp.length + 1) * 8
    let total := 8 + ptrsLen + stringsLen
    let aligned := (total + 15) / 16 * 16
    if aligned > 4000 then (.error .noSpace, mem)
    else
      let sp := stackTop - aligned
      (.ok sp, writeArgs stk (stackTop - 4096) sp argv envp mem)

section Decode

/-- The characters from `a` to the next zero, if it is one of the next `n`. -/
def readString (u : ByteMem) : ℕ → ℕ → Option Text
  | 0, _ => none
  | n + 1, a => if u a = 0 then some [] else (readString u n (a + 1)).map (ofByte (u a) :: ·)

/-- The strings that the pointers from `p` to the next null pointer lead to, if it is one of the next `n`. -/
def readVector (base : ℕ) (u : ByteMem) : ℕ → ℕ → Option (List Text)
  | 0, _ => none
  | n + 1, p =>
    if readWord u p = 0 then some []
    else if readWord u p < base ∨ base + 4096 ≤ readWord u p then none
    else do
      let s ← readString u (base + 4096 - readWord u p) (readWord u p)
      let rest ← readVector base u n (p + 8)
      some (s :: rest)

/-- The arguments and the environment of a process that starts with this stack pointer and has its stack page at
`base`: both arrays and the strings are looked for in that page alone. -/
def decodeArgs (base : ℕ) (u : ByteMem) (sp : ℕ) : Option (List Text × List Text) := do
  let argv ← readVector base u ((base + 4096 - (sp + 8)) / 8) (sp + 8)
  let envp ← readVector base u ((base + 4096 - (sp + 8 + 8 * (argv.length + 1))) / 8) (sp + 8 + 8 * (argv.length + 1))
  if readWord u sp = argv.length then some (argv, envp) else none

end Decode

/-- An array of pointers at `p`, and the strings one behind the other from `va` on. -/
def Points (u : ByteMem) : ℕ → List Octets → ℕ → Prop
  | _, [], _ => True
  | p, b :: rest, va => readWord u p = va ∧ (∀ k < b.length, u (va + k) = b.getD k 0) ∧ Points u (p + 8) rest (va + b.length)

section Layout

variable {stk base sp o va n p : ℕ} {mem u u' : ByteMem} {b : Octets} {blobs : List Octets} {s : Text} {strs : List Text}

/-- The loop fills the array and the strings, and nothing else. -/
theorem argStackGo_spec (hva : base ≤ va) (hroom : o + 8 * blobs.length ≤ va - base)
    (hword : va + (blobs.map List.length).sum < 2 ^ 64) :
    Points (viewAt stk base (argStackGo stk base o blobs va mem)) (base + o) blobs va ∧
    ∀ x, (x < stk + o ∨ stk + o + 8 * blobs.length ≤ x) →
      (x < stk + (va - base) ∨ stk + (va - base) + (blobs.map List.length).sum ≤ x) →
      argStackGo stk base o blobs va mem x = mem x := by
  induction blobs generalizing o va mem with
  | nil => exact ⟨trivial, fun _ _ _ => rfl⟩
  | cons b blobs ih =>
    simp only [List.length_cons, List.map_cons, List.sum_cons] at hroom hword ⊢
    set mem₁ := fill (writeWord mem (stk + o) va) (stk + (va - base)) b.length fun k => b.getD k 0 with hmem₁
    obtain ⟨hpoints, hframe⟩ := @ih (o + 8) (va + b.length) mem₁ (by omega) (by omega) (by omega)
    have hgo : argStackGo stk base o (b :: blobs) va mem = argStackGo stk base (o + 8) blobs (va + b.length) mem₁ := rfl
    rw [hgo]
    refine ⟨⟨?_, fun k hk => ?_, ?_⟩, fun x hx hx' => ?_⟩
    · rw [readWord_viewAt]
      have hsame : readWord (argStackGo stk base (o + 8) blobs (va + b.length) mem₁) (stk + o) = readWord mem₁ (stk + o) :=
        readLE_congr fun k hk => hframe _ (by omega) (by omega)
      rw [hsame, hmem₁, readWord_fill (by omega), readWord_writeWord (by omega)]
    · have hplace : stk + (va + k - base) = stk + (va - base) + k := by omega
      rw [viewAt, hplace, hframe _ (by omega) (by omega), hmem₁, fill_of_mem (by omega) (by omega), Nat.add_sub_cancel_left]
    · have hplace : base + o + 8 = base + (o + 8) := Nat.add_assoc _ _ _
      rw [hplace]
      exact hpoints
    · rw [hframe x (by omega) (by omega), hmem₁, fill_of_notMem (by omega), writeWord, fill_of_notMem (by omega)]

theorem Points.congr (h : Points u p blobs va) (hp : ∀ x, p ≤ x → x < p + 8 * blobs.length → u' x = u x)
    (hva : ∀ x, va ≤ x → x < va + (blobs.map List.length).sum → u' x = u x) : Points u' p blobs va := by
  induction blobs generalizing p va with
  | nil => trivial
  | cons b blobs ih =>
    obtain ⟨hword, hbytes, hrest⟩ := h
    simp only [List.length_cons, List.map_cons, List.sum_cons] at hp hva
    refine ⟨?_, fun k hk => ?_, ih hrest (fun x hx hx' => hp x (by omega) (by omega)) fun x hx hx' => hva x (by omega) (by omega)⟩
    · rw [← hword]
      exact readLE_congr fun k hk => hp _ (by omega) (by omega)
    · rw [← hbytes k hk]
      exact hva _ (by omega) (by omega)

/-- A string is read back up to the zero behind it. -/
theorem readString_blob (hs : ∀ c ∈ s, 1 ≤ c.val ∧ c.val ≤ 255)
    (hbytes : ∀ k < (toBlob s).length, u (va + k) = (toBlob s).getD k 0)
    (hn : s.length < n) : readString u n va = some s := by
  induction s generalizing va n with
  | nil =>
    obtain _ | n := n
    · cases hn
    · have hzero : u va = 0 := hbytes 0 (by simp [toBlob])
      rw [readString, if_pos hzero]
  | cons c s ih =>
    obtain _ | n := n
    · cases hn
    · obtain ⟨hc, hs⟩ := List.forall_mem_cons.mp hs
      have hfirst : u va = toByte c := hbytes 0 (by simp [toBlob])
      have hne : toByte c ≠ 0 := by
        intro hzero
        have hval := congrArg BitVec.toNat hzero
        rw [toNat_toByte, Nat.mod_eq_of_lt (by omega)] at hval
        have hpos : 1 ≤ (0 : BitVec 8).toNat := hval ▸ hc.1
        exact absurd hpos (by decide)
      have hrest : readString u n (va + 1) = some s := by
        refine ih hs (fun k hk => ?_) (Nat.lt_of_succ_lt_succ hn)
        have hk' := hbytes (k + 1) (Nat.succ_lt_succ hk)
        rw [Nat.add_assoc, Nat.add_comm 1 k]
        exact hk'
      rw [readString, hfirst, if_neg hne, hrest, Option.map_some, ofByte_toByte_iff.mpr (by omega)]

/-- The strings of an array that ends with a null pointer are read back. -/
theorem readVector_points (hchars : ∀ s ∈ strs, ∀ c ∈ s, 1 ≤ c.val ∧ c.val ≤ 255) (h : Points u p (strs.map toBlob) va)
    (hbase : 0 < base) (hnull : readWord u (p + 8 * strs.length) = 0) (hlow : base ≤ va)
    (hhigh : va + ((strs.map toBlob).map List.length).sum ≤ base + 4096) (hn : strs.length < n) :
    readVector base u n p = some strs := by
  induction strs generalizing p va n with
  | nil =>
    obtain _ | n := n
    · cases hn
    · have hend : readWord u p = 0 := hnull
      rw [readVector, if_pos hend]
  | cons s strs ih =>
    obtain _ | n := n
    · cases hn
    · obtain ⟨hword, hbytes, hrest⟩ := h
      obtain ⟨hs, hstrs⟩ := List.forall_mem_cons.mp hchars
      have hlen : (toBlob s).length = s.length + 1 := by simp [toBlob]
      simp only [List.map_cons, List.sum_cons, hlen] at hhigh
      have hread : readString u (base + 4096 - va) va = some s := readString_blob hs hbytes (by omega)
      have htail : readVector base u n (p + 8) = some strs := by
        refine ih hstrs hrest ?_ (by omega) (by rw [hlen]; omega) (Nat.lt_of_succ_lt_succ hn)
        have hplace : p + 8 + 8 * strs.length = p + 8 * (strs.length + 1) := by omega
        rw [hplace]
        exact hnull
      rw [readVector, hword, if_neg (by omega), if_neg (by omega), hread, htail]
      rfl

variable {argv envp : List Text}

/-- Where everything lies after the writes, and that nothing else was written. -/
theorem writeArgs_spec (hlow : base ≤ sp) (hword : base + 4096 < 2 ^ 64)
    (hroom : sp + 8 + ((argv.length + 1) * 8 + (envp.length + 1) * 8) + (((argv.map toBlob).map List.length).sum +
      ((envp.map toBlob).map List.length).sum) ≤ base + 4096)
    (hargs : va = sp + 8 + ((argv.length + 1) * 8 + (envp.length + 1) * 8)) (henv : p = sp + 8 + 8 * (argv.length + 1))
    (hu : u = viewAt stk base (writeArgs stk base sp argv envp mem)) :
    readWord u sp = argv.length ∧
    (Points u (sp + 8) (argv.map toBlob) va ∧ readWord u (sp + 8 + 8 * argv.length) = 0) ∧
    (Points u p (envp.map toBlob) (va + ((argv.map toBlob).map List.length).sum) ∧ readWord u (p + 8 * envp.length) = 0) ∧
    ∀ x, x < stk ∨ stk + 4096 ≤ x → writeArgs stk base sp argv envp mem x = mem x := by
  obtain ⟨d, rfl⟩ := Nat.exists_eq_add_of_le hlow
  have hmem : writeArgs stk base (base + d) argv envp mem =
      writeWord (argStackGo stk base (d + 8 + (argv.length + 1) * 8) (envp.map toBlob)
        (va + ((argv.map toBlob).map List.length).sum)
        (writeWord (argStackGo stk base (d + 8) (argv.map toBlob) va (writeWord mem (stk + d) argv.length))
          (stk + (d + 8 + argv.length * 8)) 0)) (stk + (d + 8 + (argv.length + 1) * 8 + envp.length * 8)) 0 := by
    rw [writeArgs, Nat.add_sub_cancel_left, hargs]
  set argsLen := ((argv.map toBlob).map List.length).sum with hargsLen
  set envLen := ((envp.map toBlob).map List.length).sum with henvLen
  set mem₁ := writeWord mem (stk + d) argv.length with hmem₁
  obtain ⟨hpoints₁, hframe₁⟩ := @argStackGo_spec stk base (d + 8) va mem₁ (argv.map toBlob) (by omega)
    (by rw [List.length_map]; omega) (by omega)
  set mem₂ := argStackGo stk base (d + 8) (argv.map toBlob) va mem₁ with hmem₂
  set mem₃ := writeWord mem₂ (stk + (d + 8 + argv.length * 8)) 0 with hmem₃
  obtain ⟨hpoints₂, hframe₂⟩ := @argStackGo_spec stk base (d + 8 + (argv.length + 1) * 8) (va + argsLen) mem₃
    (envp.map toBlob) (by omega) (by rw [List.length_map]; omega) (by omega)
  set mem₄ := argStackGo stk base (d + 8 + (argv.length + 1) * 8) (envp.map toBlob) (va + argsLen) mem₃ with hmem₄
  rw [List.length_map] at hframe₁ hframe₂
  rw [hmem] at hu ⊢
  -- What lies before the environment's array and between it and its strings stays as the first loop left it.
  have hafter : ∀ x, x < stk + (d + 8 + (argv.length + 1) * 8) ∨
      stk + (va - base) ≤ x ∧ x < stk + (va - base) + argsLen →
      writeWord mem₄ (stk + (d + 8 + (argv.length + 1) * 8 + envp.length * 8)) 0 x = mem₃ x := by
    intro x hx
    rw [writeWord, fill_of_notMem (by omega), hframe₂ x (by omega) (by omega)]
  have hargsKept : ∀ x, base ≤ x → (x < base + (d + 8) + 8 * argv.length ∨ va ≤ x ∧ x < va + argsLen) →
      u x = viewAt stk base mem₂ x := by
    intro x hlow hx
    rw [hu, viewAt, viewAt, hafter _ (by omega), hmem₃, writeWord, fill_of_notMem (by omega)]
  have henvKept : ∀ x, base + (d + 8 + (argv.length + 1) * 8) ≤ x →
      (x < base + (d + 8 + (argv.length + 1) * 8) + 8 * envp.length ∨ va + argsLen ≤ x) →
      u x = viewAt stk base mem₄ x := by
    intro x hlow hx
    rw [hu, viewAt, viewAt, writeWord, fill_of_notMem (by omega)]
  refine ⟨?_, ⟨?_, ?_⟩, ⟨?_, ?_⟩, fun x hx => ?_⟩
  · have hkept : readWord u (base + d) = readWord (viewAt stk base mem₂) (base + d) :=
      readLE_congr fun k hk => hargsKept _ (by omega) (by omega)
    have hfirst : readWord mem₂ (stk + d) = readWord mem₁ (stk + d) := readLE_congr fun k hk => hframe₁ _ (by omega) (by omega)
    rw [hkept, readWord_viewAt, hfirst, hmem₁, readWord_writeWord (by omega)]
  · refine hpoints₁.congr (fun x hx hx' => hargsKept x (by omega) ?_) fun x hx hx' => hargsKept x (by omega) (by omega)
    rw [List.length_map] at hx'
    exact .inl hx'
  · have hplace : base + d + 8 + 8 * argv.length = base + (d + 8 + argv.length * 8) := by omega
    have hkept : readWord (writeWord mem₄ (stk + (d + 8 + (argv.length + 1) * 8 + envp.length * 8)) 0)
        (stk + (d + 8 + argv.length * 8)) = readWord mem₃ (stk + (d + 8 + argv.length * 8)) :=
      readLE_congr fun k hk => hafter _ (by omega)
    rw [hplace, hu, readWord_viewAt, hkept, hmem₃, readWord_writeWord (by norm_num)]
  · have hplace : p = base + (d + 8 + (argv.length + 1) * 8) := by omega
    rw [hplace]
    refine hpoints₂.congr (fun x hx hx' => henvKept x hx ?_) fun x hx hx' => henvKept x (by omega) (.inr hx)
    rw [List.length_map] at hx'
    exact .inl hx'
  · have hplace : p + 8 * envp.length = base + (d + 8 + (argv.length + 1) * 8 + envp.length * 8) := by omega
    rw [hplace, hu, readWord_viewAt, readWord_writeWord (by norm_num)]
  · rw [writeWord, fill_of_notMem (by omega), hframe₂ x (by omega) (by omega), hmem₃, writeWord, fill_of_notMem (by omega),
      hframe₁ x (by omega) (by omega), hmem₁, writeWord, fill_of_notMem (by omega)]

/-- The loader of the block against its reader: whatever was laid out at a stack pointer with enough room is decoded. -/
theorem decodeArgs_writeArgs (hlow : base ≤ sp) (hbase : 0 < base) (hword : base + 4096 < 2 ^ 64)
    (hroom : sp + 8 + ((argv.length + 1) * 8 + (envp.length + 1) * 8) + (((argv.map toBlob).map List.length).sum +
      ((envp.map toBlob).map List.length).sum) ≤ base + 4096)
    (hargv : ∀ s ∈ argv, ∀ c ∈ s, 1 ≤ c.val ∧ c.val ≤ 255) (henvp : ∀ s ∈ envp, ∀ c ∈ s, 1 ≤ c.val ∧ c.val ≤ 255) :
    decodeArgs base (viewAt stk base (writeArgs stk base sp argv envp mem)) sp = some (argv, envp) := by
  obtain ⟨hcount, ⟨hargs, hargsEnd⟩, ⟨henv, henvEnd⟩, -⟩ :=
    writeArgs_spec hlow hword hroom rfl rfl (Eq.refl (viewAt stk base (writeArgs stk base sp argv envp mem)))
  set u := viewAt stk base (writeArgs stk base sp argv envp mem) with hu
  have hreadArgs : readVector base u ((base + 4096 - (sp + 8)) / 8) (sp + 8) = some argv :=
    readVector_points hargv hargs hbase hargsEnd (by omega) (by omega) (by omega)
  have hreadEnv : readVector base u ((base + 4096 - (sp + 8 + 8 * (argv.length + 1))) / 8) (sp + 8 + 8 * (argv.length + 1)) =
      some envp := readVector_points henvp henv hbase henvEnd (by omega) (by omega) (by omega)
  simp only [decodeArgs, hreadArgs, hreadEnv, hcount, Option.bind_eq_bind, Option.bind_some, if_true]

end Layout

section Main

variable {stk sp : ℕ} {argv envp : List Text} {mem mem' : ByteMem}

theorem setupArgStack_ok (h : setupArgStack stk argv envp mem = (.ok sp, mem')) :
    ∃ aligned ≤ 4000, 16 ∣ aligned ∧ sp = stackTop - aligned ∧ mem' = writeArgs stk (stackTop - 4096) sp argv envp mem ∧
      8 + ((argv.length + 1) * 8 + (envp.length + 1) * 8) + (((argv.map toBlob).map List.length).sum +
        ((envp.map toBlob).map List.length).sum) ≤ aligned := by
  dsimp only [setupArgStack] at h
  split_ifs at h with hargc henvc harg henv hfit
  · simp at h
  · simp at h
  · simp at h
  · simp at h
  · simp at h
  · obtain ⟨hsp, hmem⟩ := Prod.ext_iff.mp h
    injection hsp with hsp
    refine ⟨_, Nat.le_of_not_lt hfit, Dvd.intro_left _ rfl, hsp.symm, ?_, by omega⟩
    rw [← hsp]
    exact hmem.symm

theorem argStack_round_trip (hchars : ∀ s ∈ argv ++ envp, ∀ c ∈ s, 1 ≤ c.val ∧ c.val ≤ 255)
    (h : setupArgStack stk argv envp mem = (.ok sp, mem')) :
    (sp % 16 = 0 ∧ stackTop - 4096 ≤ sp ∧ sp < stackTop) ∧ (∀ x, x < stk ∨ stk + 4096 ≤ x → mem' x = mem x) ∧
    decodeArgs (stackTop - 4096) (viewAt stk (stackTop - 4096) mem') sp = some (argv, envp) := by
  obtain ⟨aligned, hfit, halign, hsp, rfl, hroom⟩ := setupArgStack_ok h
  have htop : stackTop % 16 = 0 := by decide
  have hlarge : 4096 < stackTop := by decide
  have hword : stackTop < 2 ^ 64 := by decide
  generalize stackTop = top at *
  have hend : top - 4096 + 4096 = top := by omega
  refine ⟨⟨by omega, by omega, by omega⟩, ?_, ?_⟩
  · exact (writeArgs_spec (by omega) (by omega) (by omega) rfl rfl rfl).2.2.2
  · refine decodeArgs_writeArgs (by omega) (by omega) (by omega) (by omega) ?_ ?_
    · exact fun s hs => hchars s (List.mem_append_left _ hs)
    · exact fun s hs => hchars s (List.mem_append_right _ hs)

/-- Two arguments, one of them empty, and one string of environment. -/
theorem argStack_round_trip_shell :
    ∃ mem', setupArgStack 4096 [text "sh", []] [text "A=1"] (fun _ => 0) = (.ok (stackTop - 64), mem') ∧
      decodeArgs (stackTop - 4096) (viewAt 4096 (stackTop - 4096) mem') (stackTop - 64) =
        some ([text "sh", []], [text "A=1"]) := by
  have hok : (setupArgStack 4096 [text "sh", []] [text "A=1"] (fun _ => 0)).1 = .ok (stackTop - 64) := by rfl
  cases hrun : setupArgStack 4096 [text "sh", []] [text "A=1"] (fun _ => 0) with
  | mk res mem' =>
    rw [hrun] at hok
    subst hok
    exact ⟨mem', rfl, (argStack_round_trip (by simp [text]) hrun).2.2⟩

end Main

end HouseKernel.Userspace
