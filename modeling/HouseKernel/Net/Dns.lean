import HouseKernel.Lib.Checks
import HouseKernel.Lib.Decoder
import HouseKernel.Net.Stack

/-! Name service: the query for an A record, and the first A record of a response. A name in a response is a
sequence of labels that may go on at another place of the message, to which a pointer leads. -/
namespace HouseKernel.Net

open HouseKernel.Lib

structure DnsResponse where
  xid : Word16
  a : Ipv4
  deriving DecidableEq, Repr

def dnsChar (c : Char) : Bool :=
  ('0' ≤ c && c ≤ '9') || ('a' ≤ c && c ≤ 'z') || ('A' ≤ c && c ≤ 'Z') || c == '-'

def oneLabel (lbl : List Char) : Except NetError (List Char) :=
  if lbl = [] then .error (.invalidArg "dns empty label")
  else if lbl.length > 63 then .error (.invalidArg "dns label too long")
  else if lbl.all dnsChar then .ok lbl
  else .error (.invalidArg "dns bad char")

/-- `go` of `validateDnsName`: the labels between the dots. -/
def dnsLabels (str : List Char) : Except NetError (List (List Char)) :=
  match _h : str.dropWhile (· ≠ '.') with
  | [] => do
    let l ← oneLabel (str.takeWhile (· ≠ '.'))
    .ok [l]
  | _ :: rest =>
    if rest = [] then .error (.invalidArg "dns trailing dot")
    else do
      let l ← oneLabel (str.takeWhile (· ≠ '.'))
      let ls ← dnsLabels rest
      .ok (l :: ls)
termination_by str.length
decreasing_by
  have hle := (List.dropWhile_suffix (l := str) (· ≠ '.')).length_le
  rw [_h] at hle
  exact hle

def validateDnsName (s : List Char) : Except NetError (List (List Char)) :=
  if s = [] then .error (.invalidArg "dns empty")
  else if s.length > 253 then .error (.invalidArg "dns too long")
  else dnsLabels s

def labelBytes (l : List Char) : List Byte := l.map fun c => BitVec.ofNat 8 c.toNat

/-- Labels on the wire, each behind its length. -/
def wireLabels (ls : List (List Byte)) : List Byte := ls.flatMap fun l => BitVec.ofNat 8 l.length :: l

def encodeDnsQuery (xid : Word16) (name : List Char) : Except NetError (List Byte) := do
  let labels ← validateDnsName name
  let qname := wireLabels (labels.map labelBytes) ++ [0x00]
  let hdr := word16be xid ++ [0x01, 0x00, 0x00, 0x01, 0x00, 0x00, 0x00, 0x00, 0x00, 0x00]
  let pkt := hdr ++ (qname ++ [0x00, 0x01, 0x00, 0x01])
  if pkt.length > 512 then .error (.invalidArg "dns query too long") else .ok pkt

section Decode

variable (bytes : List Byte)

def dnsAt (i : ℕ) : Decoder NetError Byte := Decoder.byteOr bytes (.invalidArg "dns trunc") i

def dnsAtOff (base i : ℕ) : Decoder NetError Byte := dnsAt bytes (base+i)

/-- Skip a name from `o` on, with as many turns as are given. -/
def walk : ℕ → ℕ → ℕ → Decoder NetError ℕ
  | 0, _, _ => Decoder.stuck
  | fuel+1, o, depth =>
    if depth > 8 then throw (.invalidArg "dns ptr depth")
    else do
      let len ← dnsAt bytes o
      if len = 0 then pure (o+1)
      else if len &&& 0xC0 = 0xC0 then do
        let lo ← dnsAt bytes (o+1)
        let ptr := lengthOf (len &&& 0x3F) lo
        if ptr ≥ bytes.length then throw (.invalidArg "dns ptr range")
        else do
          let _ ← walk fuel ptr (depth+1)
          pure (o+2)
      else if len &&& 0xC0 ≠ 0 then throw (.invalidArg "dns label bits")
      else if len.toNat > 63 ∨ o+1+len.toNat > bytes.length then throw (.invalidArg "dns label len")
      else walk fuel (o+1+len.toNat) depth

/-- Nine times through the message at most. -/
def skipName (off : ℕ) : Decoder NetError ℕ := walk bytes (10*(bytes.length+2)) off 0

def skipQuestions : ℕ → ℕ → Decoder NetError ℕ
  | off, 0 => pure off
  | off, n+1 => do
    let nameEnd ← skipName bytes off
    let _ ← dnsAtOff bytes nameEnd 0
    let _ ← dnsAtOff bytes nameEnd 1
    let _ ← dnsAtOff bytes nameEnd 2
    let _ ← dnsAtOff bytes nameEnd 3
    skipQuestions (nameEnd+4) n

def decodeDnsResponse : Decoder NetError DnsResponse :=
  if bytes.length < 12 then throw (.invalidArg "dns short")
  else do
    let b0 ← dnsAt bytes 0
    let b1 ← dnsAt bytes 1
    let f0 ← dnsAt bytes 2
    let f1 ← dnsAt bytes 3
    let qd0 ← dnsAt bytes 4
    let qd1 ← dnsAt bytes 5
    let an0 ← dnsAt bytes 6
    let an1 ← dnsAt bytes 7
    if f0 &&& 0x80 = 0 then throw (.invalidArg "dns not response")
    else if f1 &&& 0x0F ≠ 0 then throw (.invalidArg "dns rcode")
    else if lengthOf qd0 qd1 < 1 ∨ lengthOf an0 an1 < 1 then throw (.invalidArg "dns count")
    else do
      let qEnd ← skipQuestions bytes 12 (lengthOf qd0 qd1)
      let ansEnd ← skipName bytes qEnd
      let t0 ← dnsAtOff bytes ansEnd 0
      let t1 ← dnsAtOff bytes ansEnd 1
      let c0 ← dnsAtOff bytes ansEnd 2
      let c1 ← dnsAtOff bytes ansEnd 3
      let l0 ← dnsAtOff bytes ansEnd 8
      let l1 ← dnsAtOff bytes ansEnd 9
      if lengthOf t0 t1 ≠ 1 ∨ lengthOf c0 c1 ≠ 1 ∨ lengthOf l0 l1 ≠ 4 then throw (.invalidArg "dns not A")
      else do
        let a0 ← dnsAtOff bytes (ansEnd+10) 0
        let a1 ← dnsAtOff bytes (ansEnd+10) 1
        let a2 ← dnsAtOff bytes (ansEnd+10) 2
        let a3 ← dnsAtOff bytes (ansEnd+10) 3
        pure ⟨word16 b0 b1, ⟨a0, a1, a2, a3⟩⟩

/-- Where a name of the message begins that is skipped: one of the questions, or the owner of the answer behind them. -/
def NameAt (o : ℕ) : Prop :=
  ∃ qd0 qd1 n, bytes[4]? = some qd0 ∧ bytes[5]? = some qd1 ∧ n ≤ lengthOf qd0 qd1 ∧ (skipQuestions bytes 12 n).Yields o

/-- One step from a name to where it goes on. -/
inductive NameStep : ℕ → ℕ → Prop
  | label {o : ℕ} {len : Byte} (hlen : bytes[o]? = some len) (hne : len ≠ 0) (hbits : len &&& 0xC0 = 0)
      (hin : o + 1 + len.toNat ≤ bytes.length) : NameStep o (o+1+len.toNat)
  | pointer {o : ℕ} {len lo : Byte} (hlen : bytes[o]? = some len) (hbits : len &&& 0xC0 = 0xC0) (hlo : bytes[o+1]? = some lo)
      (hin : lengthOf (len &&& 0x3F) lo < bytes.length) : NameStep o (lengthOf (len &&& 0x3F) lo)

end Decode

section Total

variable {bytes : List Byte} {fuel o depth e : ℕ}

lemma ends_dnsAt (i : ℕ) : (dnsAt bytes i).Ends := Decoder.ends_byteOr

lemma inside_dnsAt (i : ℕ) : (dnsAt bytes i).Inside bytes.length := Decoder.inside_byteOr

/-- A label leads forward, and a pointer anywhere, but one level deeper. -/
lemma walk_ends (hfuel : (9 - depth)*(bytes.length+2) + (bytes.length + 1 - o) < fuel) : (walk bytes fuel o depth).Ends := by
  induction fuel generalizing o depth with
  | zero => omega
  | succ fuel ih =>
    unfold walk
    by_cases hdepth : depth > 8
    · rw [if_pos hdepth]
      exact Decoder.ends_throw _
    rw [if_neg hdepth]
    have hlevel : (9 - depth)*(bytes.length+2) = (9 - (depth+1))*(bytes.length+2) + (bytes.length+2) := by
      rw [show 9 - depth = 9 - (depth+1) + 1 by omega, Nat.add_mul, Nat.one_mul]
    refine (ends_dnsAt o).bind fun len _ => ?_
    split_ifs with h0 hptr hbits hlen
    · exact Decoder.ends_pure _
    · refine (ends_dnsAt (o+1)).bind fun lo _ => ?_
      dsimp only
      split_ifs
      · exact Decoder.ends_throw _
      · exact (ih (by omega)).bind fun _ _ => Decoder.ends_pure _
    · exact Decoder.ends_throw _
    · exact Decoder.ends_throw _
    · exact ih (by omega)

lemma walk_inside (fuel o depth : ℕ) : (walk bytes fuel o depth).Inside bytes.length := by
  induction fuel generalizing o depth with
  | zero => exact Decoder.inside_stuck
  | succ fuel ih =>
    unfold walk
    split_ifs
    · exact Decoder.inside_throw _
    · refine (inside_dnsAt o).bind fun len _ => ?_
      split_ifs
      · exact Decoder.inside_pure _
      · refine (inside_dnsAt (o+1)).bind fun lo _ => ?_
        dsimp only
        split_ifs
        · exact Decoder.inside_throw _
        · exact (ih _ _).bind fun _ _ => Decoder.inside_pure _
      · exact Decoder.inside_throw _
      · exact Decoder.inside_throw _
      · exact ih _ _

lemma skipName_ends (off : ℕ) : (skipName bytes off).Ends := walk_ends (by omega)

lemma skipName_inside (off : ℕ) : (skipName bytes off).Inside bytes.length := walk_inside _ _ _

lemma skipQuestions_ends (off n : ℕ) : (skipQuestions bytes off n).Ends := by
  induction n generalizing off with
  | zero => exact Decoder.ends_pure _
  | succ n ih =>
    refine (skipName_ends off).bind fun nameEnd _ => ?_
    iterate 4 refine (ends_dnsAt _).bind fun _ _ => ?_
    exact ih _

lemma skipQuestions_inside (off n : ℕ) : (skipQuestions bytes off n).Inside bytes.length := by
  induction n generalizing off with
  | zero => exact Decoder.inside_pure _
  | succ n ih =>
    refine (skipName_inside off).bind fun nameEnd _ => ?_
    iterate 4 refine (inside_dnsAt _).bind fun _ _ => ?_
    exact ih _

lemma decodeDnsResponse_ends (bytes : List Byte) : (decodeDnsResponse bytes).Ends := by
  unfold decodeDnsResponse
  split_ifs
  · exact Decoder.ends_throw _
  iterate 8 refine (ends_dnsAt _).bind fun _ _ => ?_
  split_ifs
  · exact Decoder.ends_throw _
  · exact Decoder.ends_throw _
  · exact Decoder.ends_throw _
  refine (skipQuestions_ends _ _).bind fun _ _ => (skipName_ends _).bind fun _ _ => ?_
  iterate 6 refine (ends_dnsAt _).bind fun _ _ => ?_
  split_ifs
  · exact Decoder.ends_throw _
  iterate 4 refine (ends_dnsAt _).bind fun _ _ => ?_
  exact Decoder.ends_pure _

lemma decodeDnsResponse_inside (bytes : List Byte) : (decodeDnsResponse bytes).Inside bytes.length := by
  unfold decodeDnsResponse
  split_ifs
  · exact Decoder.inside_throw _
  iterate 8 refine (inside_dnsAt _).bind fun _ _ => ?_
  split_ifs
  · exact Decoder.inside_throw _
  · exact Decoder.inside_throw _
  · exact Decoder.inside_throw _
  refine (skipQuestions_inside _ _).bind fun _ _ => (skipName_inside _).bind fun _ _ => ?_
  iterate 6 refine (inside_dnsAt _).bind fun _ _ => ?_
  split_ifs
  · exact Decoder.inside_throw _
  iterate 4 refine (inside_dnsAt _).bind fun _ _ => ?_
  exact Decoder.inside_pure _

end Total

section Cycles

variable {bytes : List Byte} {fuel o o' depth e : ℕ}

/-- A name that is skipped goes on along its steps, and each time it has fewer turns left. -/
lemma walk_step (h : (walk bytes (fuel+1) o depth).Yields e) (hstep : NameStep bytes o o') :
    ∃ depth' e', (walk bytes fuel o' depth').Yields e' := by
  unfold walk at h
  split_ifs at h with hdepth
  · exact absurd h (Decoder.fails_throw _).not_yields
  obtain ⟨len, hlen, h⟩ := Decoder.yields_bind.mp h
  have hlen := Decoder.yields_byteOr.mp hlen
  cases hstep with
  | label hlen' hne hbits hin =>
    obtain rfl := Option.some.inj (hlen.symm.trans hlen')
    rw [if_neg hne, if_neg (by rw [hbits]; decide), if_neg (not_not.mpr hbits)] at h
    split_ifs at h
    · exact absurd h (Decoder.fails_throw _).not_yields
    · exact ⟨depth, e, h⟩
  | pointer hlen' hbits hlo hin =>
    obtain rfl := Option.some.inj (hlen.symm.trans hlen')
    have hne : len ≠ 0 := by
      rintro rfl
      exact absurd hbits (by decide)
    rw [if_neg hne, if_pos hbits] at h
    obtain ⟨lo, hlo', h⟩ := Decoder.yields_bind.mp h
    obtain rfl := Option.some.inj ((Decoder.yields_byteOr.mp hlo').symm.trans hlo)
    dsimp only at h
    rw [if_neg (by omega)] at h
    obtain ⟨e', he', -⟩ := Decoder.yields_bind.mp h
    exact ⟨depth+1, e', he'⟩

/-- The steps of a name that is skipped come to an end. -/
lemma walk_acc (h : (walk bytes fuel o depth).Yields e) : Acc (fun b a => NameStep bytes a b) o := by
  induction fuel generalizing o depth e with
  | zero => cases h
  | succ fuel ih =>
    refine Acc.intro o fun o' hstep => ?_
    obtain ⟨depth', e', h'⟩ := walk_step h hstep
    exact ih h'

lemma acc_not_cycle {α : Type} {r : α → α → Prop} {a : α} (h : Acc (fun b a => r a b) a) : ¬ Relation.TransGen r a a := by
  intro hcycle
  induction h with
  | intro a _ ih =>
    obtain ⟨b, hab, hba⟩ := Relation.TransGen.head'_iff.mp hcycle
    exact ih b hab (Relation.TransGen.tail' hba hab)

/-- A name whose steps run into a cycle is refused. -/
theorem skipName_cycle {p : ℕ} (hreach : Relation.ReflTransGen (NameStep bytes) o p)
    (hcycle : Relation.TransGen (NameStep bytes) p p) : (skipName bytes o).Fails := by
  refine (skipName_ends o).fails fun e h => ?_
  have hacc : Acc (fun b a => NameStep bytes a b) p := by
    clear hcycle
    induction hreach with
    | refl => exact walk_acc h
    | tail _ hstep ih => exact ih.inv hstep
  exact acc_not_cycle hacc hcycle

/-- The questions that are left when some have been skipped. -/
lemma skipQuestions_rest {off n m : ℕ} (h : (skipQuestions bytes off (n+m)).Yields e)
    (ho : (skipQuestions bytes off n).Yields o) :
    (skipQuestions bytes o m).Yields e := by
  induction n generalizing off with
  | zero =>
    obtain rfl : off = o := Except.ok.inj (Option.some.inj ho)
    rwa [Nat.zero_add] at h
  | succ n ih =>
    rw [Nat.add_right_comm, skipQuestions] at h
    rw [skipQuestions] at ho
    obtain ⟨nameEnd, hname, h⟩ := Decoder.yields_bind.mp h
    rw [Decoder.Yields, Decoder.result_bind_of hname] at ho
    iterate 4
      obtain ⟨b, hb, h⟩ := Decoder.yields_bind.mp h
      rw [Decoder.result_bind_of hb] at ho
    exact ih h ho

lemma decodeDnsResponse_names {r : DnsResponse} (h : (decodeDnsResponse bytes).Yields r) (ho : NameAt bytes o) :
    ∃ e, (skipName bytes o).Yields e := by
  obtain ⟨qd0, qd1, n, h4, h5, hn, ho⟩ := ho
  unfold decodeDnsResponse at h
  split_ifs at h
  · exact absurd h (Decoder.fails_throw _).not_yields
  obtain ⟨b0, -, h⟩ := Decoder.yields_bind.mp h
  obtain ⟨b1, -, h⟩ := Decoder.yields_bind.mp h
  obtain ⟨f0, -, h⟩ := Decoder.yields_bind.mp h
  obtain ⟨f1, -, h⟩ := Decoder.yields_bind.mp h
  obtain ⟨c0, hc0, h⟩ := Decoder.yields_bind.mp h
  obtain ⟨c1, hc1, h⟩ := Decoder.yields_bind.mp h
  obtain ⟨an0, -, h⟩ := Decoder.yields_bind.mp h
  obtain ⟨an1, -, h⟩ := Decoder.yields_bind.mp h
  obtain rfl := Option.some.inj ((Decoder.yields_byteOr.mp hc0).symm.trans h4)
  obtain rfl := Option.some.inj ((Decoder.yields_byteOr.mp hc1).symm.trans h5)
  split_ifs at h
  · exact absurd h (Decoder.fails_throw _).not_yields
  · exact absurd h (Decoder.fails_throw _).not_yields
  · exact absurd h (Decoder.fails_throw _).not_yields
  obtain ⟨qEnd, hq, h⟩ := Decoder.yields_bind.mp h
  obtain ⟨ansEnd, hans, -⟩ := Decoder.yields_bind.mp h
  obtain ⟨m, hm⟩ := Nat.exists_eq_add_of_le hn
  rw [hm] at hq
  have hrest := skipQuestions_rest hq ho
  cases m with
  | zero =>
    obtain rfl : o = qEnd := Except.ok.inj (Option.some.inj hrest)
    exact ⟨ansEnd, hans⟩
  | succ m =>
    obtain ⟨nameEnd, hname, -⟩ := Decoder.yields_bind.mp hrest
    exact ⟨nameEnd, hname⟩

/-- A response with a name that runs into a cycle is refused. -/
theorem decodeDnsResponse_cycle {p : ℕ} (ho : NameAt bytes o) (hreach : Relation.ReflTransGen (NameStep bytes) o p)
    (hcycle : Relation.TransGen (NameStep bytes) p p) : (decodeDnsResponse bytes).Fails := by
  refine (decodeDnsResponse_ends bytes).fails fun r h => ?_
  obtain ⟨e, he⟩ := decodeDnsResponse_names h ho
  exact (skipName_cycle hreach hcycle).not_yields he

end Cycles

section Names

variable {bytes rest rest' : List Byte} {ls qs : List (List Byte)} {fuel o depth : ℕ}

/-- A label as the wire can have it. -/
def WireLabel (l : List Byte) : Prop := 0 < l.length ∧ l.length ≤ 63

instance (l : List Byte) : Decidable (WireLabel l) := inferInstanceAs (Decidable (_ ∧ _))

lemma wireLabels_cons (l : List Byte) (ls : List (List Byte)) :
    wireLabels (l :: ls) = BitVec.ofNat 8 l.length :: (l ++ wireLabels ls) := rfl

/-- The byte that a message has at the head of what is left of it. -/
lemma dnsAt_head {b : Byte} (h : bytes.drop o = b :: rest) : (dnsAt bytes o).Yields b := by
  refine Decoder.yields_byteOr.mpr ?_
  rw [← Nat.add_zero o, ← List.getElem?_drop, h]
  rfl

lemma dnsAt_next {b c : Byte} (h : bytes.drop o = b :: c :: rest) : (dnsAt bytes (o+1)).Yields c := by
  refine Decoder.yields_byteOr.mpr ?_
  rw [← List.getElem?_drop, h]
  rfl

/-- The walk comes through labels, one turn each. -/
lemma walk_labels (hls : ∀ l ∈ ls, WireLabel l) (hdepth : depth ≤ 8) (h : bytes.drop o = wireLabels ls ++ rest) :
    (walk bytes (fuel + ls.length) o depth).result = (walk bytes fuel (o + (wireLabels ls).length) depth).result := by
  induction ls generalizing o with
  | nil => rfl
  | cons l ls ih =>
    obtain ⟨⟨hpos, hlen⟩, hls⟩ := List.forall_mem_cons.mp hls
    rw [wireLabels_cons, List.cons_append, List.append_assoc] at h
    have hnat : (BitVec.ofNat 8 l.length).toNat = l.length := by
      rw [BitVec.toNat_ofNat]
      omega
    have hne : BitVec.ofNat 8 l.length ≠ 0 := by
      intro heq
      rw [heq] at hnat
      simp at hnat
      omega
    have hbits : BitVec.ofNat 8 l.length &&& 0xC0 = 0 := by
      have hsmall : ∀ n < 64, BitVec.ofNat 8 n &&& 0xC0 = 0 := by decide
      exact hsmall l.length (by omega)
    have hbound : o + 1 + l.length ≤ bytes.length := by
      have := congrArg List.length h
      simp only [List.length_drop, List.length_cons, List.length_append] at this
      omega
    have hrest : bytes.drop (o + 1 + l.length) = wireLabels ls ++ rest := by
      rw [Nat.add_assoc, ← List.drop_drop, h, Nat.add_comm 1, List.drop_succ_cons, List.drop_left]
    rw [List.length_cons, ← Nat.add_assoc, walk, if_neg (by omega), Decoder.result_bind_of (dnsAt_head h), if_neg hne,
      if_neg (by rw [hbits]; decide), if_neg (not_not.mpr hbits), hnat, if_neg (by omega), ih hls hrest, wireLabels_cons,
      List.length_cons, List.length_append]
    congr 2
    omega

/-- A name that ends with the root. -/
lemma walk_literal (hls : ∀ l ∈ ls, WireLabel l) (hdepth : depth ≤ 8) (h : bytes.drop o = wireLabels ls ++ 0x00 :: rest)
    (hfuel : ls.length < fuel) : (walk bytes fuel o depth).Yields (o + (wireLabels ls).length + 1) := by
  obtain ⟨k, rfl⟩ : ∃ k, fuel = k + 1 + ls.length := ⟨fuel - 1 - ls.length, by omega⟩
  have hrest : bytes.drop (o + (wireLabels ls).length) = 0x00 :: rest := by
    rw [← List.drop_drop, h, List.drop_left]
  rw [Decoder.Yields, walk_labels hls hdepth h, walk, if_neg (by omega), Decoder.result_bind_of (dnsAt_head hrest), if_pos rfl]
  rfl

/-- A name that goes on at the question, behind the header. -/
lemma walk_pointer (hls : ∀ l ∈ ls, WireLabel l) (hqs : ∀ l ∈ qs, WireLabel l) (hdepth : depth < 8)
    (h : bytes.drop o = wireLabels ls ++ 0xC0 :: 0x0C :: rest) (hq : bytes.drop 12 = wireLabels qs ++ 0x00 :: rest')
    (hfuel : ls.length + qs.length + 1 < fuel) : (walk bytes fuel o depth).Yields (o + (wireLabels ls).length + 2) := by
  obtain ⟨k, rfl⟩ : ∃ k, fuel = k + 1 + ls.length := ⟨fuel - 1 - ls.length, by omega⟩
  have hrest : bytes.drop (o + (wireLabels ls).length) = 0xC0 :: 0x0C :: rest := by
    rw [← List.drop_drop, h, List.drop_left]
  have hin : 12 < bytes.length := by
    have := congrArg List.length hq
    simp only [List.length_drop, List.length_append, List.length_cons] at this
    omega
  have hptr : lengthOf ((0xC0 : Byte) &&& 0x3F) 0x0C = 12 := by decide
  have hname : (walk bytes k 12 (depth+1)).Yields (12 + (wireLabels qs).length + 1) := walk_literal hqs (by omega) hq (by omega)
  rw [Decoder.Yields, walk_labels hls (by omega) h, walk, if_neg (by omega), Decoder.result_bind_of (dnsAt_head hrest),
    if_neg (by decide), if_pos (by decide), Decoder.result_bind_of (dnsAt_next hrest)]
  dsimp only
  rw [hptr, if_neg (by omega), Decoder.result_bind_of hname]
  rfl

end Names

section Query

variable {name str : List Char} {labels : List (List Char)}

lemma oneLabel_ok {lbl l : List Char} (h : oneLabel lbl = .ok l) : l = lbl ∧ 0 < l.length ∧ l.length ≤ 63 := by
  unfold oneLabel at h
  split_ifs at h with hnil hlong
  obtain rfl := Except.ok.inj h
  exact ⟨rfl, List.length_pos_iff.mpr hnil, by omega⟩

/-- The labels of a name are as long as the wire allows, and together with the dots they are the name. -/
lemma dnsLabels_ok (h : dnsLabels str = .ok labels) :
    (∀ l ∈ labels, 0 < l.length ∧ l.length ≤ 63) ∧ (labels.map fun l => l.length + 1).sum = str.length + 1 := by
  induction str using dnsLabels.induct generalizing labels with
  | case1 str hdrop =>
    have hwhole : str.takeWhile (· ≠ '.') = str := by
      have happend := List.takeWhile_append_dropWhile (p := (· ≠ '.')) (l := str)
      rwa [hdrop, List.append_nil] at happend
    rw [dnsLabels] at h
    split at h
    case h_1 =>
      obtain ⟨l, hl, h⟩ := bind_ok.mp h
      obtain rfl := Except.ok.inj h
      obtain ⟨rfl, hlen⟩ := oneLabel_ok hl
      rw [hwhole] at hlen ⊢
      exact ⟨by simpa using hlen, by simp⟩
    case h_2 hdrop' => exact absurd (hdrop.symm.trans hdrop') (List.cons_ne_nil _ _).symm
  | case2 str c hdrop =>
    rw [dnsLabels] at h
    split at h
    case h_1 hdrop' => exact absurd (hdrop.symm.trans hdrop') (List.cons_ne_nil _ _)
    case h_2 hdrop' =>
      obtain ⟨-, rfl⟩ := List.cons.inj (hdrop'.symm.trans hdrop)
      rw [if_pos rfl] at h
      cases h
  | case3 str c rest hdrop hrest ih =>
    rw [dnsLabels] at h
    split at h
    case h_1 hdrop' => exact absurd (hdrop.symm.trans hdrop') (List.cons_ne_nil _ _)
    case h_2 hdrop' =>
      obtain ⟨-, rfl⟩ := List.cons.inj (hdrop'.symm.trans hdrop)
      rw [if_neg hrest] at h
      obtain ⟨l, hl, h⟩ := bind_ok.mp h
      obtain ⟨ls, hls, h⟩ := bind_ok.mp h
      obtain rfl := Except.ok.inj h
      obtain ⟨rfl, hlen⟩ := oneLabel_ok hl
      obtain ⟨hall, hsum⟩ := ih hls
      have happend := congrArg List.length (List.takeWhile_append_dropWhile (p := (· ≠ '.')) (l := str))
      rw [hdrop', List.length_append, List.length_cons] at happend
      refine ⟨List.forall_mem_cons.mpr ⟨hlen, hall⟩, ?_⟩
      rw [List.map_cons, List.sum_cons, hsum]
      omega

lemma length_wireLabels (ls : List (List Byte)) : (wireLabels ls).length = (ls.map fun l => l.length + 1).sum := by
  rw [wireLabels, List.length_flatMap]
  rfl

lemma length_le_wireLabels (ls : List (List Byte)) : ls.length ≤ (wireLabels ls).length := by
  rw [length_wireLabels]
  induction ls with
  | nil => exact Nat.le_refl _
  | cons l ls ih =>
    rw [List.length_cons, List.map_cons, List.sum_cons]
    omega

/-- A name that is accepted is asked for. -/
lemma encodeDnsQuery_ok (h : validateDnsName name = .ok labels) (xid : Word16) :
    (∀ l ∈ labels.map labelBytes, WireLabel l) ∧ encodeDnsQuery xid name =
      .ok (word16be xid ++ [0x01, 0x00, 0x00, 0x01, 0x00, 0x00, 0x00, 0x00, 0x00, 0x00] ++
        (wireLabels (labels.map labelBytes) ++ [0x00] ++ [0x00, 0x01, 0x00, 0x01])) := by
  have hlabels := h
  unfold validateDnsName at hlabels
  split_ifs at hlabels with hnil hlong
  obtain ⟨hall, hsum⟩ := dnsLabels_ok hlabels
  refine ⟨?_, ?_⟩
  · intro l hl
    obtain ⟨l', hl', rfl⟩ := List.mem_map.mp hl
    rw [WireLabel, labelBytes, List.length_map]
    exact hall l' hl'
  · have hwire : (wireLabels (labels.map labelBytes)).length = name.length + 1 := by
      rw [length_wireLabels, List.map_map, ← hsum]
      simp [labelBytes, Function.comp_def]
    rw [encodeDnsQuery, h, HouseKernel.Lib.ok_bind, if_neg]
    simp only [List.length_append, List.length_cons, List.length_nil, hwire, word16be]
    omega

end Query

/-- How the owner of an answer may be written. -/
inductive OwnerName where
  | labels
  | pointer
  | labelsPointer (ls : List (List Byte))
  deriving DecidableEq, Repr

/-- The owner on the wire. The question is behind the header, at the offset 12. -/
def OwnerName.encode (question : List (List Byte)) : OwnerName → List Byte
  | labels => wireLabels question ++ [0x00]
  | pointer => [0xC0, 0x0C]
  | labelsPointer ls => wireLabels ls ++ [0xC0, 0x0C]

/-- The labels before a pointer are as long as the wire allows. -/
def OwnerName.Formed : OwnerName → Prop
  | labelsPointer ls => ∀ l ∈ ls, WireLabel l
  | _ => True

/-- The query as a response, with one answer, an A record. -/
def respond (query owner : List Byte) (ttl : Word32) (addr : Ipv4) : List Byte :=
  ((query.modify 2 (· ||| 0x80)).set 6 0x00).set 7 0x01 ++ owner ++ [0x00, 0x01, 0x00, 0x01] ++ word32be ttl ++
    [0x00, 0x04] ++ addr.toList

section RoundTrip

variable {bytes rest : List Byte} {qs : List (List Byte)} {owner : OwnerName} {o : ℕ}

/-- The name of an answer is skipped, whichever way it is written. -/
lemma skipName_owner (hqs : ∀ l ∈ qs, WireLabel l) (howner : owner.Formed) {rest' : List Byte}
    (hq : bytes.drop 12 = wireLabels qs ++ 0x00 :: rest') (h : bytes.drop o = owner.encode qs ++ rest) :
    (skipName bytes o).Yields (o + (owner.encode qs).length) := by
  have hqlen := congrArg List.length hq
  have hlen := congrArg List.length h
  have hqcount := length_le_wireLabels qs
  simp only [List.length_drop, List.length_append, List.length_cons] at hqlen hlen
  cases owner with
  | labels =>
    simp only [OwnerName.encode, List.append_assoc, List.cons_append, List.nil_append] at h
    have hwalk : (walk bytes (10*(bytes.length+2)) _ 0).Yields _ := walk_literal hqs (by omega) h (by omega)
    rw [OwnerName.encode, List.length_append]
    exact hwalk
  | pointer =>
    have hnone : ∀ l ∈ ([] : List (List Byte)), WireLabel l := by simp
    have hwalk : (walk bytes (10*(bytes.length+2)) _ 0).Yields _ := walk_pointer hnone hqs (by omega) h hq
      (by simp; omega)
    exact hwalk
  | labelsPointer ls =>
    have hlscount := length_le_wireLabels ls
    simp only [OwnerName.encode, List.length_append] at hlen
    simp only [OwnerName.encode, List.append_assoc, List.cons_append, List.nil_append] at h
    have hwalk : (walk bytes (10*(bytes.length+2)) _ 0).Yields _ := walk_pointer howner hqs (by omega) h hq (by omega)
    rw [OwnerName.encode, List.length_append]
    exact hwalk

/-- A byte behind an offset, in what is left there. -/
lemma dnsAtOff_drop {base i : ℕ} {xs : List Byte} {b : Byte} (h : bytes.drop base = xs) (hb : xs[i]? = some b) :
    (dnsAtOff bytes base i).Yields b := by
  refine Decoder.yields_byteOr.mpr ?_
  rw [← List.getElem?_drop, h]
  exact hb

lemma respond_eq (xid : Word16) (qs : List (List Byte)) (owner : List Byte) (ttl : Word32) (addr : Ipv4) :
    respond (word16be xid ++ [0x01, 0x00, 0x00, 0x01, 0x00, 0x00, 0x00, 0x00, 0x00, 0x00] ++
      (wireLabels qs ++ [0x00] ++ [0x00, 0x01, 0x00, 0x01])) owner ttl addr =
    word16be xid ++ [0x81, 0x00, 0x00, 0x01, 0x00, 0x01, 0x00, 0x00, 0x00, 0x00] ++
      (wireLabels qs ++ 0x00 :: ([0x00, 0x01, 0x00, 0x01] ++ (owner ++ ([0x00, 0x01, 0x00, 0x01] ++ (word32be ttl ++
        ([0x00, 0x04] ++ addr.toList)))))) := by
  simp [respond, word16be]

/-- The response to a query has its number and the address. -/
theorem decode_respond (hqs : ∀ l ∈ qs, WireLabel l) (howner : owner.Formed) (xid : Word16) (ttl : Word32) (addr : Ipv4) :
    (decodeDnsResponse (respond (word16be xid ++ [0x01, 0x00, 0x00, 0x01, 0x00, 0x00, 0x00, 0x00, 0x00, 0x00] ++
      (wireLabels qs ++ [0x00] ++ [0x00, 0x01, 0x00, 0x01])) (owner.encode qs) ttl addr)).Yields ⟨xid, addr⟩ := by
  rw [respond_eq]
  generalize htail : [0x00, 0x01, 0x00, 0x01] ++ (word32be ttl ++ ([0x00, 0x04] ++ addr.toList)) = record
  generalize hbytes : word16be xid ++ [0x81, 0x00, 0x00, 0x01, 0x00, 0x01, 0x00, 0x00, 0x00, 0x00] ++
    (wireLabels qs ++ 0x00 :: ([0x00, 0x01, 0x00, 0x01] ++ (owner.encode qs ++ record))) = bytes
  -- where the parts of the message begin
  have hhead : ∀ i b, (word16be xid ++ [0x81, 0x00, 0x00, 0x01, 0x00, 0x01, 0x00, 0x00, 0x00, 0x00])[i]? = some b →
      (dnsAt bytes i).Yields b := by
    intro i b hb
    refine Decoder.yields_byteOr.mpr ?_
    rw [← hbytes, List.getElem?_append_left, hb]
    exact (List.getElem?_eq_some_iff.mp hb).1
  have hname : bytes.drop 12 = wireLabels qs ++ 0x00 :: ([0x00, 0x01, 0x00, 0x01] ++ (owner.encode qs ++ record)) := by
    rw [← hbytes]
    rfl
  have hquestion : bytes.drop (12 + (wireLabels qs).length + 1) = [0x00, 0x01, 0x00, 0x01] ++ (owner.encode qs ++ record) := by
    rw [← List.drop_drop, ← List.drop_drop, hname, List.drop_left]
    rfl
  have hanswer : bytes.drop (12 + (wireLabels qs).length + 1 + 4) = owner.encode qs ++ record := by
    rw [← List.drop_drop, hquestion]
    rfl
  have hrecord : bytes.drop (12 + (wireLabels qs).length + 1 + 4 + (owner.encode qs).length) = record := by
    rw [← List.drop_drop, hanswer, List.drop_left]
  have hskip := skipName_owner hqs howner hname hanswer
  have hcount : qs.length < 10*(bytes.length+2) := by
    have hqlen := congrArg List.length hname
    have hwire := length_le_wireLabels qs
    simp only [List.length_drop, List.length_append, List.length_cons] at hqlen
    omega
  have hqname : (skipName bytes 12).Yields (12 + (wireLabels qs).length + 1) := walk_literal hqs (by omega) hname hcount
  have hquestions : (skipQuestions bytes 12 1).Yields (12 + (wireLabels qs).length + 1 + 4) := by
    rw [Decoder.Yields, skipQuestions, Decoder.result_bind_of hqname, Decoder.result_bind_of (dnsAtOff_drop hquestion rfl),
      Decoder.result_bind_of (dnsAtOff_drop hquestion rfl), Decoder.result_bind_of (dnsAtOff_drop hquestion rfl),
      Decoder.result_bind_of (dnsAtOff_drop hquestion rfl)]
    rfl
  have hlen : ¬ bytes.length < 12 := by
    have := congrArg List.length hname
    simp only [List.length_drop, List.length_append, List.length_cons] at this
    omega
  have hone : lengthOf 0x00 0x01 = 1 := by decide
  have hfour : lengthOf 0x00 0x04 = 4 := by decide
  rw [Decoder.Yields, decodeDnsResponse, if_neg hlen, Decoder.result_bind_of (hhead 0 _ rfl),
    Decoder.result_bind_of (hhead 1 _ rfl),
    Decoder.result_bind_of (hhead 2 _ rfl), Decoder.result_bind_of (hhead 3 _ rfl), Decoder.result_bind_of (hhead 4 _ rfl),
    Decoder.result_bind_of (hhead 5 _ rfl), Decoder.result_bind_of (hhead 6 _ rfl), Decoder.result_bind_of (hhead 7 _ rfl),
    if_neg (by decide), if_neg (by decide), hone, if_neg (by decide), Decoder.result_bind_of hquestions,
      Decoder.result_bind_of hskip]
  -- the record, of which the time to live is not read
  subst htail
  have hlast : bytes.drop (12 + (wireLabels qs).length + 1 + 4 + (owner.encode qs).length + 10) = addr.toList := by
    rw [← List.drop_drop, hrecord]
    rfl
  rw [Decoder.result_bind_of (dnsAtOff_drop hrecord rfl), Decoder.result_bind_of (dnsAtOff_drop hrecord rfl),
    Decoder.result_bind_of (dnsAtOff_drop hrecord rfl), Decoder.result_bind_of (dnsAtOff_drop hrecord rfl),
    Decoder.result_bind_of (dnsAtOff_drop hrecord rfl), Decoder.result_bind_of (dnsAtOff_drop hrecord rfl), hone, hfour,
    if_neg (by decide), Decoder.result_bind_of (dnsAtOff_drop hlast rfl), Decoder.result_bind_of (dnsAtOff_drop hlast rfl),
    Decoder.result_bind_of (dnsAtOff_drop hlast rfl), Decoder.result_bind_of (dnsAtOff_drop hlast rfl), word16_word16be]
  rfl

end RoundTrip

/-- Decoding a response comes to its end and reads only inside the message, it fails where one of the names runs into
a cycle of pointers, and it has the number and the address of every response to a query for a valid name. -/
theorem dns_total_and_inverts :
    (∀ bytes, (decodeDnsResponse bytes).Ends ∧ (decodeDnsResponse bytes).Inside bytes.length) ∧
    (∀ bytes o p, NameAt bytes o → Relation.ReflTransGen (NameStep bytes) o p → Relation.TransGen (NameStep bytes) p p →
      (decodeDnsResponse bytes).Fails) ∧
    ∀ name labels, validateDnsName name = .ok labels → ∀ xid, ∃ query, encodeDnsQuery xid name = .ok query ∧
      ∀ (owner : OwnerName) ttl addr, owner.Formed →
        (decodeDnsResponse (respond query (owner.encode (labels.map labelBytes)) ttl addr)).Yields ⟨xid, addr⟩ := by
  refine ⟨fun bytes => ⟨decodeDnsResponse_ends bytes, decodeDnsResponse_inside bytes⟩,
    fun bytes o p ho hreach hcycle => decodeDnsResponse_cycle ho hreach hcycle, fun name labels hname xid => ?_⟩
  obtain ⟨hlabels, hquery⟩ := encodeDnsQuery_ok hname xid
  exact ⟨_, hquery, fun owner ttl addr howner => decode_respond hlabels howner xid ttl addr⟩

/-- A response whose question points to itself. -/
def selfPointer : List Byte := [0x00, 0x07, 0x81, 0x00, 0x00, 0x01, 0x00, 0x01, 0x00, 0x00, 0x00, 0x00, 0xC0, 0x0C]

/-- It is refused, and a response to a query for `a.b` is read, with a pointer as the owner of its answer. -/
theorem dns_total_and_inverts_ab :
    (decodeDnsResponse selfPointer).Fails ∧ ∃ query, encodeDnsQuery 7 ['a', '.', 'b'] = .ok query ∧
      (decodeDnsResponse (respond query (OwnerName.pointer.encode [[0x61], [0x62]]) 0 ⟨10, 0, 0, 1⟩)).Yields ⟨7, ⟨10, 0, 0, 1⟩⟩ := by
  have hlen : selfPointer[12]? = some 0xC0 := rfl
  have hlo : selfPointer[12+1]? = some 0x0C := rfl
  have hstep : NameStep selfPointer 12 12 := .pointer hlen rfl hlo (by decide)
  have hat : NameAt selfPointer 12 := ⟨0x00, 0x01, 0, rfl, rfl, by decide, rfl⟩
  have hname : validateDnsName ['a', '.', 'b'] = .ok [['a'], ['b']] := by
    have hlast : dnsLabels ['b'] = .ok [['b']] := by
      rw [dnsLabels]
      rfl
    rw [validateDnsName, if_neg (by decide), if_neg (by decide), dnsLabels]
    change (if ['b'] = [] then _ else oneLabel ['a'] >>= fun l => dnsLabels ['b'] >>= fun ls => Except.ok (l :: ls)) = _
    rw [if_neg (by decide), hlast]
    rfl
  obtain ⟨query, hquery, h⟩ := dns_total_and_inverts.2.2 _ _ hname 7
  exact ⟨dns_total_and_inverts.2.1 _ _ _ hat .refl (.single hstep), query, hquery, h .pointer 0 ⟨10, 0, 0, 1⟩ trivial⟩

end HouseKernel.Net
