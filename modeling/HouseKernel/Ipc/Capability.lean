import HouseKernel.FileSystem.Path
import HouseKernel.Ipc.Endpoint
import HouseKernel.Lib.Mixing
import HouseKernel.Lib.Run

/-! Owner tokens and names of endpoints. The number of an endpoint is public; who looks an endpoint up by its name has to
show the token that was minted for it. A lookup reads the name in one section and the token in another, and endpoints
come and go in between. -/
namespace HouseKernel.Ipc

open HouseKernel.Lib

abbrev EndpointId := BitVec 64

abbrev CapToken := BitVec 64

def splitMix64 (z : BitVec 64) : BitVec 64 :=
  let z1 := (z + 0x9E3779B97F4A7C15) * 0xBF58476D1CE4E5B9
  let z2 := (z1 ^^^ z1 >>> 30) * 0xBF58476D1CE4E5B9
  z2 ^^^ z2 >>> 31

/-- The owner token of an endpoint. -/
def mintToken (sec : BitVec 64) (n : EndpointId) : CapToken := splitMix64 (sec + n * 0x9E3779B97F4A7C15 + 1)

section Words

theorem splitMix64_injective : Function.Injective splitMix64 := by
  have hmul : Function.Injective fun x : BitVec 64 => x * 0xBF58476D1CE4E5B9 :=
    mul_injective_of_inverse (d := 0x96DE1B173F119089) (by decide)
  intro x y h
  have hlast := hmul (xorShift_injective (k := 31) (by decide) h)
  exact (BitVec.add_left_inj _).mp (hmul (xorShift_injective (k := 30) (by decide) hlast))

/-- No two endpoints have the same token. -/
theorem mintToken_injective (sec : BitVec 64) : Function.Injective (mintToken sec) := by
  have hmul : Function.Injective fun x : BitVec 64 => x * 0x9E3779B97F4A7C15 :=
    mul_injective_of_inverse (d := 0xF1DE83E19937733D) (by decide)
  intro m n h
  exact hmul ((BitVec.add_right_inj sec).mp ((BitVec.add_left_inj 1).mp (splitMix64_injective h)))

end Words

/-- The registries of endpoints, owners and names. -/
structure Capabilities where
  endpointTable : EndpointId → Bool
  endpointOwner : EndpointId → Option CapToken
  nextEpId : EndpointId
  capSecret : BitVec 64
  capViolations : BitVec 64
  nsMap : Text → Option EndpointId

namespace Capabilities

def newEndpoint (c : Capabilities) (uptime : BitVec 64) : EndpointId × Capabilities :=
  let n := c.nextEpId
  let sec := if c.capSecret = 0 then (if uptime = 0 then 0x243F6A8885A308D3 else uptime) else c.capSecret
  (n, { c with
    nextEpId := n + 1
    endpointTable := Function.update c.endpointTable n true
    capSecret := sec
    endpointOwner := Function.update c.endpointOwner n (some (mintToken sec n)) })

def freeEndpoint (c : Capabilities) (eid : EndpointId) : Capabilities :=
  if c.endpointTable eid then
    { c with
      endpointTable := Function.update c.endpointTable eid false
      endpointOwner := Function.update c.endpointOwner eid none }
  else c

def endpointToken (c : Capabilities) (eid : EndpointId) : Option CapToken := c.endpointOwner eid

def logCap (c : Capabilities) : Capabilities := { c with capViolations := c.capViolations + 1 }

/-- The section of a check that reads the owner. -/
def checkCap (c : Capabilities) (eid : EndpointId) : Option CapToken → Bool
  | none => false
  | some t => match c.endpointToken eid with
    | some o => o = t
    | none => false

def validName (s : Text) : Except IpcError Unit :=
  if s = [] then .error (.invalidName "empty name")
  else if 255 < s.length then .error (.invalidName "name too long")
  else if s.elem FileSystem.slash then .error (.invalidName "name contains '/'")
  else .ok ()

def nsRegister (c : Capabilities) (name : Text) (ep : EndpointId) : Except IpcError Unit × Capabilities :=
  match validName name with
  | .error e => (.error e, c)
  | .ok () =>
    if (c.nsMap name).isSome then (.error .nameExists, c)
    else (.ok (), { c with nsMap := Function.update c.nsMap name (some ep) })

def nsLookup (c : Capabilities) (name : Text) : Option EndpointId := c.nsMap name

def nsUnregister (c : Capabilities) (name : Text) : Except IpcError Unit × Capabilities :=
  if (c.nsMap name).isSome then (.ok (), { c with nsMap := Function.update c.nsMap name none })
  else (.error .nameNotFound, c)

/-- The name is read in one state, and the owner in a later one. -/
def nsLookupChecked (c d : Capabilities) (name : Text) (mtok : Option CapToken) : Except IpcError EndpointId :=
  match c.nsLookup name with
  | none => .error .nameNotFound
  | some ep => if d.checkCap ep mtok then .ok ep else .error .notOwner

end Capabilities

inductive CapAction where
  | newEndpoint (uptime : BitVec 64)
  | freeEndpoint (eid : EndpointId)
  | endpointToken (eid : EndpointId)
  | nsRegister (name : Text) (ep : EndpointId)
  | nsUnregister (name : Text)
  | checkCap (eid : EndpointId) (mtok : Option CapToken)
  | logCap

/-- The registries with what happened to them: how many endpoints were made, which were freed, and what tokens were handed
out; and the refusals, with the lines of the log that are still to be written. -/
structure CapSystem where
  caps : Capabilities
  made : ℕ
  gone : List EndpointId
  issued : List (EndpointId × CapToken)
  refused : ℕ
  logs : ℕ

def CapSystem.boot : CapSystem := ⟨⟨fun _ => false, fun _ => none, 0, 0, 0, fun _ => none⟩, 0, [], [], 0, 0⟩

def capStep (s : CapSystem) : CapAction → Option CapSystem
  | .newEndpoint uptime => some { s with caps := (s.caps.newEndpoint uptime).2, made := s.made + 1 }
  | .freeEndpoint eid =>
    some { s with caps := s.caps.freeEndpoint eid, gone := if s.caps.endpointTable eid then eid :: s.gone else s.gone }
  | .endpointToken eid => some { s with issued := ((s.caps.endpointToken eid).map (Prod.mk eid)).toList ++ s.issued }
  | .nsRegister name ep => some { s with caps := (s.caps.nsRegister name ep).2 }
  | .nsUnregister name => some { s with caps := (s.caps.nsUnregister name).2 }
  | .checkCap eid mtok =>
    if s.caps.checkCap eid mtok then some s else some { s with refused := s.refused + 1, logs := s.logs + 1 }
  | .logCap => if s.logs = 0 then none else some { s with caps := s.caps.logCap, logs := s.logs - 1 }

/-- What every run keeps. -/
structure CapSystem.Sound (s : CapSystem) : Prop where
  owner : ∀ e, s.caps.endpointOwner e = if s.caps.endpointTable e then some (mintToken s.caps.capSecret e) else none
  issued : ∀ p ∈ s.issued, p.2 = mintToken s.caps.capSecret p.1 ∧ ∃ i < s.made, p.1 = BitVec.ofNat 64 i
  secret : s.caps.capSecret = 0 → s.made = 0
  next : s.caps.nextEpId = BitVec.ofNat 64 s.made
  listed : ∀ e, s.caps.endpointTable e → ∃ i < s.made, e = BitVec.ofNat 64 i
  there : ∀ i < s.made, s.caps.endpointTable (BitVec.ofNat 64 i) ∨ BitVec.ofNat 64 i ∈ s.gone
  gone : s.made ≤ 2 ^ 64 → ∀ e ∈ s.gone, s.caps.endpointTable e = false ∧ ∃ i < s.made, e = BitVec.ofNat 64 i
  counted : s.caps.capViolations + BitVec.ofNat 64 s.logs = BitVec.ofNat 64 s.refused

namespace CapSystem

variable {s t : CapSystem} {a : CapAction}

/-- The registries of names do not matter for tokens. -/
theorem Sound.of_eq (h : s.Sound) {c : Capabilities} (htable : c.endpointTable = s.caps.endpointTable)
    (howner : c.endpointOwner = s.caps.endpointOwner) (hnext : c.nextEpId = s.caps.nextEpId)
    (hsecret : c.capSecret = s.caps.capSecret) (hcount : c.capViolations = s.caps.capViolations) :
    Sound { s with caps := c } where
  owner e := by
    rw [htable, howner, hsecret]
    exact h.owner e
  issued p hp := by
    rw [hsecret]
    exact h.issued p hp
  secret := by
    rw [hsecret]
    exact h.secret
  next := hnext.trans h.next
  listed := by
    rw [htable]
    exact h.listed
  there := by
    rw [htable]
    exact h.there
  gone := by
    rw [htable]
    exact h.gone
  counted := by
    rw [hcount]
    exact h.counted

/-- The first endpoint fixes the secret. -/
theorem Sound.sameSecret (h : s.Sound) {i : ℕ} (hi : i < s.made) (uptime : BitVec 64) :
    (s.caps.newEndpoint uptime).2.capSecret = s.caps.capSecret := by
  have hne : s.caps.capSecret ≠ 0 := by
    intro hzero
    have hmade := h.secret hzero
    omega
  exact if_neg hne

theorem Sound.newEndpoint (h : s.Sound) (uptime : BitVec 64) :
    Sound { s with caps := (s.caps.newEndpoint uptime).2, made := s.made + 1 } where
  owner e := by
    by_cases he : e = s.caps.nextEpId
    · subst he
      simp [Capabilities.newEndpoint]
    · have howner : (s.caps.newEndpoint uptime).2.endpointOwner e = s.caps.endpointOwner e := Function.update_of_ne he _ _
      have htable : (s.caps.newEndpoint uptime).2.endpointTable e = s.caps.endpointTable e := Function.update_of_ne he _ _
      dsimp only
      rw [howner, htable, h.owner e]
      by_cases hlisted : s.caps.endpointTable e = true
      · obtain ⟨i, hi, -⟩ := h.listed e hlisted
        rw [h.sameSecret hi]
      · rw [if_neg hlisted, if_neg hlisted]
  issued p hp := by
    obtain ⟨htok, i, hi, hp⟩ := h.issued p hp
    refine ⟨?_, i, Nat.lt_succ_of_lt hi, hp⟩
    dsimp only
    rw [h.sameSecret hi, htok]
  secret := by
    dsimp only [Capabilities.newEndpoint]
    split_ifs with hsec huptime
    · decide
    · exact fun hzero => absurd hzero huptime
    · exact fun hzero => absurd hzero hsec
  next := by
    show s.caps.nextEpId + 1 = BitVec.ofNat 64 (s.made + 1)
    rw [h.next, BitVec.ofNat_add]
    rfl
  listed e he := by
    by_cases hen : e = s.caps.nextEpId
    · exact ⟨s.made, Nat.lt_succ_self _, hen.trans h.next⟩
    · rw [show (s.caps.newEndpoint uptime).2.endpointTable e = s.caps.endpointTable e from Function.update_of_ne hen _ _] at he
      obtain ⟨i, hi, he⟩ := h.listed e he
      exact ⟨i, Nat.lt_succ_of_lt hi, he⟩
  there i hi := by
    by_cases hin : BitVec.ofNat 64 i = s.caps.nextEpId
    · left
      simp [Capabilities.newEndpoint, hin]
    · have hlt : i < s.made := by
        refine Nat.lt_of_le_of_ne (Nat.le_of_lt_succ hi) ?_
        rintro rfl
        exact hin h.next.symm
      refine (h.there i hlt).imp_left fun hlisted => ?_
      rwa [show (s.caps.newEndpoint uptime).2.endpointTable (BitVec.ofNat 64 i) = _ from Function.update_of_ne hin _ _]
  gone hmade e he := by
    have hmade : s.made + 1 ≤ 2 ^ 64 := hmade
    obtain ⟨hunlisted, i, hi, rfl⟩ := h.gone (Nat.le_of_lt hmade) e he
    have hne : BitVec.ofNat 64 i ≠ s.caps.nextEpId := by
      rw [h.next]
      intro heq
      have hnat := congrArg BitVec.toNat heq
      rw [BitVec.toNat_ofNat, BitVec.toNat_ofNat, Nat.mod_eq_of_lt (by omega), Nat.mod_eq_of_lt (by omega)] at hnat
      omega
    refine ⟨?_, i, Nat.lt_succ_of_lt hi, rfl⟩
    exact (Function.update_of_ne hne _ _).trans hunlisted
  counted := h.counted

theorem Sound.freeEndpoint (h : s.Sound) {eid : EndpointId} (heid : s.caps.endpointTable eid = true) :
    Sound { s with caps := s.caps.freeEndpoint eid, gone := eid :: s.gone } := by
  have hcaps : s.caps.freeEndpoint eid = { s.caps with
      endpointTable := Function.update s.caps.endpointTable eid false
      endpointOwner := Function.update s.caps.endpointOwner eid none } := if_pos heid
  rw [hcaps]
  have hsub : ∀ e, Function.update s.caps.endpointTable eid false e = true → e ≠ eid ∧ s.caps.endpointTable e = true := by
    intro e he
    by_cases hee : e = eid
    · rw [hee, Function.update_self] at he
      cases he
    · rw [Function.update_of_ne hee] at he
      exact ⟨hee, he⟩
  refine ⟨fun e => ?_, h.issued, h.secret, h.next, fun e he => h.listed e (hsub e he).2, fun i hi => ?_, fun hmade e he => ?_,
    h.counted⟩
  · dsimp only
    by_cases hee : e = eid
    · simp [hee]
    · simpa [hee] using h.owner e
  · by_cases hie : BitVec.ofNat 64 i = eid
    · exact .inr (hie ▸ List.mem_cons_self)
    · refine (h.there i hi).imp (fun hlisted => ?_) fun hgone => List.mem_cons_of_mem _ hgone
      exact (Function.update_of_ne hie _ _).trans hlisted
  · obtain rfl | he := List.mem_cons.mp he
    · exact ⟨Function.update_self _ _ _, h.listed e heid⟩
    · obtain ⟨hunlisted, hi⟩ := h.gone hmade e he
      refine ⟨?_, hi⟩
      by_contra hlisted
      rw [(hsub e (Bool.eq_true_of_not_eq_false hlisted)).2] at hunlisted
      cases hunlisted

/-- A token that an owner was given. -/
theorem Sound.endpointToken (h : s.Sound) (eid : EndpointId) :
    Sound { s with issued := ((s.caps.endpointToken eid).map (Prod.mk eid)).toList ++ s.issued } where
  owner := h.owner
  issued p hp := by
    obtain hp | hp := List.mem_append.mp hp
    · have howner := h.owner eid
      rw [Option.mem_toList] at hp
      obtain ⟨t, ht, rfl⟩ := Option.map_eq_some_iff.mp hp
      rw [Capabilities.endpointToken, howner] at ht
      split_ifs at ht with hlisted
      exact ⟨(Option.some.inj ht).symm, h.listed eid hlisted⟩
    · exact h.issued p hp
  secret := h.secret
  next := h.next
  listed := h.listed
  there := h.there
  gone := h.gone
  counted := h.counted

theorem Sound.step (h : s.Sound) (hs : capStep s a = some t) : t.Sound := by
  cases a with
  | newEndpoint uptime =>
    obtain rfl := Option.some.inj hs
    exact h.newEndpoint uptime
  | freeEndpoint eid =>
    rw [capStep] at hs
    obtain rfl := Option.some.inj hs
    by_cases heid : s.caps.endpointTable eid = true
    · rw [if_pos heid]
      exact h.freeEndpoint heid
    · rw [if_neg heid, Capabilities.freeEndpoint, if_neg heid]
      exact h
  | endpointToken eid =>
    obtain rfl := Option.some.inj hs
    exact h.endpointToken eid
  | nsRegister name ep =>
    rw [capStep, Capabilities.nsRegister] at hs
    obtain rfl := Option.some.inj hs
    split
    · exact h
    · split_ifs
      · exact h
      · exact h.of_eq rfl rfl rfl rfl rfl
  | nsUnregister name =>
    rw [capStep, Capabilities.nsUnregister] at hs
    obtain rfl := Option.some.inj hs
    split_ifs
    · exact h.of_eq rfl rfl rfl rfl rfl
    · exact h
  | checkCap eid mtok =>
    rw [capStep] at hs
    split_ifs at hs
    · obtain rfl := Option.some.inj hs
      exact h
    · obtain rfl := Option.some.inj hs
      refine { h with counted := ?_ }
      dsimp only
      rw [BitVec.ofNat_add, BitVec.ofNat_add, ← BitVec.add_assoc, h.counted]
  | logCap =>
    rw [capStep] at hs
    split_ifs at hs with hlogs
    obtain rfl := Option.some.inj hs
    refine { h with counted := ?_ }
    have hcounted := h.counted
    obtain ⟨n, hn⟩ := Nat.exists_eq_succ_of_ne_zero hlogs
    rw [hn, Nat.succ_eq_add_one, Nat.add_comm, BitVec.ofNat_add, ← BitVec.add_assoc] at hcounted
    dsimp only [Capabilities.logCap]
    rw [hn]
    exact hcounted

theorem Sound.boot : CapSystem.boot.Sound := by
  refine ⟨fun _ => rfl, ?_, fun _ => rfl, rfl, ?_, ?_, ?_, rfl⟩
  · simp [CapSystem.boot]
  · simp [CapSystem.boot]
  · simp [CapSystem.boot]
  · simp [CapSystem.boot]

theorem Sound.run {as : List CapAction} (h : s.Sound) (hs : run capStep s as = some t) : t.Sound :=
  run_invariant (G := fun _ _ => True) (I := Sound) (fun _ _ _ hI _ hstep => hI.step hstep) h
    (along_of_forall (fun _ _ => trivial) s as) hs

/-- A token opens the endpoint that it was minted for, as long as that is listed. -/
theorem Sound.opens (h : s.Sound) {e : EndpointId} {tok : CapToken} (ht : (e, tok) ∈ s.issued) (f : EndpointId) :
    s.caps.checkCap f (some tok) = true ↔ f = e ∧ s.caps.endpointTable e = true := by
  obtain ⟨htok, -⟩ := h.issued _ ht
  obtain rfl : tok = mintToken s.caps.capSecret e := htok
  rw [Capabilities.checkCap, Capabilities.endpointToken, h.owner f]
  by_cases hf : s.caps.endpointTable f = true
  · rw [if_pos hf]
    dsimp only
    rw [decide_eq_true_iff]
    constructor
    · intro heq
      obtain rfl := mintToken_injective _ heq
      exact ⟨rfl, hf⟩
    · rintro ⟨rfl, -⟩
      rfl
  · rw [if_neg hf]
    dsimp only
    constructor
    · intro hfalse
      cases hfalse
    · rintro ⟨rfl, he⟩
      exact absurd he hf

/-- An endpoint that was made is listed until it is freed. -/
theorem Sound.listed_iff (h : s.Sound) (hmade : s.made ≤ 2 ^ 64) {e : EndpointId} (he : ∃ i < s.made, e = BitVec.ofNat 64 i) :
    s.caps.endpointTable e = true ↔ e ∉ s.gone := by
  obtain ⟨i, hi, rfl⟩ := he
  constructor
  · intro hlisted hgone
    rw [(h.gone hmade _ hgone).1] at hlisted
    cases hlisted
  · exact fun hgone => (h.there i hi).resolve_right hgone

end CapSystem

/-- Whatever happens between the sections of a lookup and before, a token that was ever handed out for an endpoint admits to
the names that stood for this endpoint, and to no other endpoint; and it admits nowhere once the endpoint is freed. Nobody
is admitted without a token, and every refusal is counted when its line of the log is written. -/
theorem lookups_authorised {as bs : List CapAction} {s t : CapSystem} (hs : run capStep CapSystem.boot as = some s)
    (ht : run capStep s bs = some t) (hmade : t.made ≤ 2 ^ 64) :
    (∀ e tok, (e, tok) ∈ t.issued → ∀ name f,
      s.caps.nsLookupChecked t.caps name (some tok) = .ok f ↔ s.caps.nsMap name = some e ∧ f = e ∧ e ∉ t.gone) ∧
    (∀ name f, s.caps.nsLookupChecked t.caps name none ≠ .ok f) ∧
    t.caps.capViolations + BitVec.ofNat 64 t.logs = BitVec.ofNat 64 t.refused := by
  have hsound : t.Sound := (CapSystem.Sound.boot.run hs).run ht
  refine ⟨fun e tok htok name f => ?_, fun name f => ?_, hsound.counted⟩
  · rw [Capabilities.nsLookupChecked, Capabilities.nsLookup, ← hsound.listed_iff hmade (hsound.issued _ htok).2]
    cases hname : s.caps.nsMap name with
    | none => simp
    | some g =>
      dsimp only
      split_ifs with hopen
      · obtain ⟨rfl, hlisted⟩ := (hsound.opens htok g).mp hopen
        simp [hlisted, eq_comm]
      · have hclosed := mt (hsound.opens htok g).mpr hopen
        simp only [false_iff]
        rintro ⟨hge, -, hlisted⟩
        exact hclosed ⟨Option.some.inj hge, hlisted⟩
  · rw [Capabilities.nsLookupChecked]
    cases s.caps.nsLookup name with
    | none => simp
    | some g => simp [Capabilities.checkCap]

/-- The owner of the first endpoint has its token, and the second endpoint has another; the name goes before the owner is
read. -/
def sampleCaps : CapSystem :=
  (run capStep CapSystem.boot [.newEndpoint 5, .nsRegister (text "blk") 0, .endpointToken 0]).getD CapSystem.boot

theorem lookups_authorised_sample : ∃ t, run capStep sampleCaps [.newEndpoint 9, .endpointToken 1, .nsUnregister (text "blk")] = some t ∧
    sampleCaps.caps.nsLookupChecked t.caps (text "blk") (some (mintToken 5 0)) = .ok 0 := by
  obtain ⟨t, ht, hmade, hissued, hgone⟩ : ∃ t,
      run capStep sampleCaps [.newEndpoint 9, .endpointToken 1, .nsUnregister (text "blk")] = some t ∧
      t.made = 2 ∧ (0, mintToken 5 0) ∈ t.issued ∧ 0 ∉ t.gone := ⟨_, rfl, rfl, by decide, by decide⟩
  have hs : run capStep CapSystem.boot [.newEndpoint 5, .nsRegister (text "blk") 0, .endpointToken 0] = some sampleCaps := rfl
  exact ⟨t, ht, ((lookups_authorised hs ht (by rw [hmade]; decide)).1 0 _ hissued _ 0).mpr ⟨by decide, rfl, hgone⟩⟩

end HouseKernel.Ipc
