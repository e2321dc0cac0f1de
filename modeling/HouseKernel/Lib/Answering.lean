import Mathlib.Logic.Basic

/-! Systems that answer every call. Two of them that agree on each call give the same answers over
every run. -/
namespace HouseKernel.Lib

variable {σ τ α γ : Type*} {call : σ → α → γ × σ} {call' : τ → α → γ × τ}

/-- The answers to a list of calls, and the state after them. -/
def serve (call : σ → α → γ × σ) : σ → List α → List γ × σ
  | s, [] => ([], s)
  | s, a :: as =>
    let next := call s a
    let rest := serve call next.2 as
    (next.1 :: rest.1, rest.2)

/-- Every call meets `G` in the state in which it is made. -/
def Served (call : σ → α → γ × σ) (G : σ → α → Prop) : σ → List α → Prop
  | _, [] => True
  | s, a :: as => G s a ∧ Served call G (call s a).2 as

instance decidableServed {G : σ → α → Prop} [∀ s a, Decidable (G s a)] :
    ∀ (s : σ) (as : List α), Decidable (Served call G s as)
  | _, [] => isTrue trivial
  | s, a :: as => @instDecidableAnd _ _ _ (decidableServed (call s a).2 as)

/-- Related systems that answer a call alike stay related and answer every run of such calls alike. -/
theorem serve_simulation {R : σ → τ → Prop} {G : σ → α → Prop}
    (hstep : ∀ s t a, R s t → G s a → (call s a).1 = (call' t a).1 ∧ R (call s a).2 (call' t a).2) {s : σ} {t : τ}
    {as : List α} (h : R s t) (hG : Served call G s as) :
    (serve call s as).1 = (serve call' t as).1 ∧ R (serve call s as).2 (serve call' t as).2 := by
  induction as generalizing s t with
  | nil => exact ⟨rfl, h⟩
  | cons a as ih =>
    obtain ⟨hanswer, hnext⟩ := hstep s t a h hG.1
    obtain ⟨hanswers, hend⟩ := ih hnext hG.2
    exact ⟨congrArg₂ List.cons hanswer hanswers, hend⟩

end HouseKernel.Lib
