import HouseKernel.Console.LineEditor

/-! The keyboard of the serial line: the thread that polls the UART turns octets into key presses, and escape sequences
into the keys that send them. -/
namespace HouseKernel.Console

open HouseKernel.Lib

def esc : CodePoint := ⟨0x1b, by decide⟩

def press (k : Key) : KeyPress := ⟨∅, k⟩

def charToKeyPress (c : CodePoint) : KeyPress :=
  if c = ascii '\r' ∨ c = ascii '\n' then press .returnKey
  else if c.val = 0x7f ∨ c.val = 0x08 then press .backspaceKey
  else if c = ascii '\t' then press .tabKey
  else if c = esc then press .escapeKey
  else press (.key c)

/-- The keys that send `ESC [` or `ESC O` and one more octet. -/
def finalKey (c : CodePoint) : Option Key :=
  if c = ascii 'A' then some .upKey
  else if c = ascii 'B' then some .downKey
  else if c = ascii 'C' then some .rightKey
  else if c = ascii 'D' then some .leftKey
  else if c = ascii 'H' then some .homeKey
  else if c = ascii 'F' then some .endKey
  else none

/-- The keys that send `ESC [`, digits and `~`. -/
def emitTilde (digits : Text) : List KeyPress :=
  if digits = [ascii '2'] then [press .insertKey]
  else if digits = [ascii '3'] then [press .deleteKey]
  else if digits = [ascii '5'] then [press .pageUpKey]
  else if digits = [ascii '6'] then [press .pageDownKey]
  else if digits = [ascii '1'] then [press .homeKey]
  else if digits = [ascii '7'] then [press .homeKey]
  else if digits = [ascii '4'] then [press .endKey]
  else if digits = [ascii '8'] then [press .endKey]
  else []

def IsDigit (c : CodePoint) : Prop := (ascii '0').val ≤ c.val ∧ c.val ≤ (ascii '9').val

instance (c : CodePoint) : Decidable (IsDigit c) := inferInstanceAs (Decidable (_ ∧ _))

/-- Where the thread waits for the next octet; inside an escape sequence, with the polls that are left before it gives
up. -/
inductive Rx where
  | idle
  | escape (polls : ℕ)
  | bracket (polls : ℕ)
  | application (polls : ℕ)
  | tilde (digits : Text) (polls : ℕ)
  deriving DecidableEq

/-- The number of polls that an octet of an escape sequence may take. -/
def escapePolls : ℕ := 5

/-- One poll of the UART, with the octet that it has, if any: the key presses that go out, and where the thread waits
next. -/
def Rx.poll : Rx → Option CodePoint → List KeyPress × Rx
  | .idle, none => ([], .idle)
  | .idle, some c => if c = esc then ([], .escape escapePolls) else ([charToKeyPress c], .idle)
  | .escape n, none => if n ≤ 1 then ([press .escapeKey], .idle) else ([], .escape (n - 1))
  | .escape _, some c =>
    if c = ascii '[' then ([], .bracket escapePolls)
    else if c = ascii 'O' then ([], .application escapePolls)
    else ([press .escapeKey, charToKeyPress c], .idle)
  | .bracket n, none => if n ≤ 1 then ([press .escapeKey], .idle) else ([], .bracket (n - 1))
  | .bracket _, some c =>
    match finalKey c with
    | some k => ([press k], .idle)
    | none => if IsDigit c then ([], .tilde [c] escapePolls) else ([press .escapeKey, charToKeyPress c], .idle)
  | .application n, none => if n ≤ 1 then ([press .escapeKey], .idle) else ([], .application (n - 1))
  | .application _, some c =>
    match finalKey c with
    | some k => ([press k], .idle)
    | none => ([press .escapeKey, charToKeyPress c], .idle)
  | .tilde digits n, none => if n ≤ 1 then ([], .idle) else ([], .tilde digits (n - 1))
  | .tilde digits _, some c =>
    if c = ascii '~' then (emitTilde digits, .idle)
    else if IsDigit c then ([], .tilde (if digits.length < 4 then digits ++ [c] else digits) escapePolls)
    else ([], .idle)

def Rx.pollAll (r : Rx) : List (Option CodePoint) → List KeyPress × Rx
  | [] => ([], r)
  | o :: os => ((r.poll o).1 ++ ((r.poll o).2.pollAll os).1, ((r.poll o).2.pollAll os).2)

/-- Polls that find no octet. -/
def pause (n : ℕ) : List (Option CodePoint) := List.replicate n none

/-- Octets with the polls before each of them. -/
def paced (cs : List (ℕ × CodePoint)) : List (Option CodePoint) := cs.flatMap fun p => pause p.1 ++ [some p.2]

/-- Key presses and the polls by which a terminal sends them: the octets of one escape sequence follow each other before
the thread gives up, and everything else comes at any pace. -/
inductive Typed : List KeyPress → List (Option CodePoint) → Prop
  | done (n : ℕ) : Typed [] (pause n)
  | plain (n : ℕ) {c : CodePoint} (hc : c ≠ esc) {ks ps} (h : Typed ks ps) :
    Typed (charToKeyPress c :: ks) (pause n ++ some c :: ps)
  | escape (n : ℕ) {ks ps} (h : Typed ks ps) : Typed (press .escapeKey :: ks) (pause n ++ some esc :: pause escapePolls ++ ps)
  | final (n i j : ℕ) {intro f : CodePoint} {k : Key} (hi : i < escapePolls) (hj : j < escapePolls)
    (hintro : intro = ascii '[' ∨ intro = ascii 'O') (hf : finalKey f = some k) {ks ps} (h : Typed ks ps) :
    Typed (press k :: ks) (pause n ++ some esc :: pause i ++ some intro :: pause j ++ some f :: ps)
  | code (n i j : ℕ) {d : CodePoint} {ds : List (ℕ × CodePoint)} (hi : i < escapePolls) (hj : j < escapePolls)
    (hd : IsDigit d) (hds : ∀ p ∈ ds, p.1 < escapePolls ∧ IsDigit p.2) (hlen : ds.length < 4) (l : ℕ) (hl : l < escapePolls)
    {ks ps} (h : Typed ks ps) :
    Typed (emitTilde (d :: ds.map Prod.snd) ++ ks)
      (pause n ++ some esc :: pause i ++ some (ascii '[') :: pause j ++ some d :: paced ds ++ pause l ++ some (ascii '~') :: ps)

variable {r r' : Rx} {ks ks' : List KeyPress} {os ps : List (Option CodePoint)}

theorem pollAll_append (h : r.pollAll os = (ks, r')) : r.pollAll (os ++ ps) = (ks ++ (r'.pollAll ps).1, (r'.pollAll ps).2) := by
  induction os generalizing r ks with
  | nil =>
    obtain ⟨rfl, rfl⟩ := Prod.mk.inj h
    rfl
  | cons o os ih =>
    obtain ⟨rfl, rfl⟩ := Prod.mk.inj h
    rw [List.cons_append, Rx.pollAll, ih rfl, List.append_assoc]

theorem pollAll_idle (n : ℕ) : Rx.idle.pollAll (pause n) = ([], .idle) := by
  induction n with
  | zero => rfl
  | succ n ih =>
    rw [pause, List.replicate_succ]
    exact ih

/-- Waiting less than the patience of a state that counts its polls. -/
theorem pollAll_wait {w : ℕ → Rx} (hw : ∀ n, 1 < n → (w n).poll none = ([], w (n - 1))) {m n : ℕ} (h : m < n) :
    (w n).pollAll (pause m) = ([], w (n - m)) := by
  induction m generalizing n with
  | zero => rfl
  | succ m ih =>
    rw [pause, List.replicate_succ, Rx.pollAll, hw n (by omega)]
    have hrest := ih (n := n - 1) (by omega)
    rw [pause] at hrest
    rw [hrest, Nat.sub_sub, Nat.add_comm 1 m]
    rfl

theorem Rx.escape_wait (n : ℕ) (h : 1 < n) : (Rx.escape n).poll none = ([], .escape (n - 1)) := if_neg (by omega)

theorem Rx.bracket_wait (n : ℕ) (h : 1 < n) : (Rx.bracket n).poll none = ([], .bracket (n - 1)) := if_neg (by omega)

theorem Rx.application_wait (n : ℕ) (h : 1 < n) : (Rx.application n).poll none = ([], .application (n - 1)) := if_neg (by omega)

theorem Rx.tilde_wait (ds : Text) (n : ℕ) (h : 1 < n) : (Rx.tilde ds n).poll none = ([], .tilde ds (n - 1)) := if_neg (by omega)

/-- Some polls without an octet and then the octet. -/
theorem pollAll_octet {c : CodePoint} {m : ℕ} (hwait : r.pollAll (pause m) = ([], r')) :
    r.pollAll (pause m ++ some c :: ps) = ((r'.poll (some c)).1 ++ ((r'.poll (some c)).2.pollAll ps).1,
      ((r'.poll (some c)).2.pollAll ps).2) := by
  rw [pollAll_append hwait]
  rfl

/-- The digits of a code, and its end. -/
theorem pollAll_digits {ds : List (ℕ × CodePoint)} {digits : Text} (hds : ∀ p ∈ ds, p.1 < escapePolls ∧ IsDigit p.2)
    (hlen : digits.length + ds.length ≤ 4) {l : ℕ} (hl : l < escapePolls) :
    (Rx.tilde digits escapePolls).pollAll (paced ds ++ pause l ++ some (ascii '~') :: ps) =
      (emitTilde (digits ++ ds.map Prod.snd) ++ (Rx.idle.pollAll ps).1, (Rx.idle.pollAll ps).2) := by
  induction ds generalizing digits with
  | nil =>
    rw [List.map_nil, List.append_nil]
    exact pollAll_octet (pollAll_wait (Rx.tilde_wait digits) hl)
  | cons p ds ih =>
    obtain ⟨hp, hdigit⟩ := hds p List.mem_cons_self
    have hshape : paced (p :: ds) ++ pause l ++ some (ascii '~') :: ps =
        pause p.1 ++ some p.2 :: (paced ds ++ pause l ++ some (ascii '~') :: ps) := by
      simp [paced]
    have hne : p.2 ≠ ascii '~' := by
      intro h
      rw [h] at hdigit
      exact absurd hdigit (by decide)
    have hpoll : (Rx.tilde digits (escapePolls - p.1)).poll (some p.2) = ([], .tilde (digits ++ [p.2]) escapePolls) := by
      rw [Rx.poll, if_neg hne, if_pos hdigit, if_pos]
      simp only [List.length_cons] at hlen
      omega
    rw [hshape, pollAll_octet (pollAll_wait (Rx.tilde_wait digits) hp), hpoll,
      ih (fun q hq => hds q (List.mem_cons_of_mem p hq)) (by simp at hlen ⊢; omega)]
    simp

/-- The thread reports the keys, and waits for the next one. -/
theorem Typed.pollAll (h : Typed ks os) : Rx.idle.pollAll os = (ks, .idle) := by
  induction h with
  | done n => exact pollAll_idle n
  | @plain n c hc ks ps h ih =>
    rw [pollAll_octet (pollAll_idle n), Rx.poll, if_neg hc, ih]
    rfl
  | @escape n ks ps h ih =>
    have hgive : (Rx.escape escapePolls).pollAll (pause escapePolls) = ([press .escapeKey], .idle) := by decide
    rw [List.append_assoc, List.cons_append, pollAll_octet (pollAll_idle n), Rx.poll, if_pos rfl, pollAll_append hgive, ih]
    rfl
  | @final n i j intro f k hi hj hintro hf ks ps h ih =>
    have hshape : pause n ++ some esc :: pause i ++ some intro :: pause j ++ some f :: ps =
        pause n ++ some esc :: (pause i ++ some intro :: (pause j ++ some f :: ps)) := by simp
    rw [hshape, pollAll_octet (pollAll_idle n), Rx.poll, if_pos rfl, pollAll_octet (pollAll_wait Rx.escape_wait hi), Rx.poll]
    obtain rfl | rfl := hintro
    · rw [if_pos rfl, pollAll_octet (pollAll_wait Rx.bracket_wait hj), Rx.poll, hf]
      simp [ih]
    · rw [if_neg (by decide), if_pos rfl, pollAll_octet (pollAll_wait Rx.application_wait hj), Rx.poll, hf]
      simp [ih]
  | @code n i j d ds hi hj hd hds hlen l hl ks ps h ih =>
    have hshape : pause n ++ some esc :: pause i ++ some (ascii '[') :: pause j ++ some d :: paced ds ++ pause l ++
        some (ascii '~') :: ps = pause n ++ some esc :: (pause i ++ some (ascii '[') :: (pause j ++ some d ::
        (paced ds ++ pause l ++ some (ascii '~') :: ps))) := by simp
    have hfinal : finalKey d = none := by
      have hlow : d.val < (ascii 'A').val := lt_of_le_of_lt hd.2 (by decide)
      have hne : ∀ c : CodePoint, (ascii 'A').val ≤ c.val → d ≠ c := by
        rintro c hc rfl
        omega
      simp [finalKey, hne (ascii 'A') le_rfl, hne (ascii 'B') (by decide), hne (ascii 'C') (by decide),
        hne (ascii 'D') (by decide), hne (ascii 'H') (by decide), hne (ascii 'F') (by decide)]
    rw [hshape, pollAll_octet (pollAll_idle n), Rx.poll, if_pos rfl, pollAll_octet (pollAll_wait Rx.escape_wait hi), Rx.poll,
      if_pos rfl, pollAll_octet (pollAll_wait Rx.bracket_wait hj), Rx.poll, hfinal]
    dsimp only
    rw [if_pos hd, pollAll_digits hds (by simp; omega) hl, ih]
    simp

/-- Whatever the pace, the thread reports exactly the keys that are pressed, and takes what follows from there. -/
theorem pollAll_typed (h : Typed ks os) (rest : List (Option CodePoint)) :
    Rx.idle.pollAll (os ++ rest) = (ks ++ (Rx.idle.pollAll rest).1, (Rx.idle.pollAll rest).2) :=
  pollAll_append h.pollAll

theorem pollAll_typed_sample :
    Rx.idle.pollAll ([none, some esc, none, some (ascii '['), some (ascii 'A'), some (ascii 'l'), some esc, none, none, none,
      none, none] ++ [some esc, none]) = ([press .upKey, charToKeyPress (ascii 'l'), press .escapeKey], .escape 4) :=
  pollAll_typed (.final 1 1 0 (by decide) (by decide) (.inl rfl) rfl
    (.plain (c := ascii 'l') 0 (by decide) (.escape 0 (.done 0)))) [some esc, none]

end HouseKernel.Console
