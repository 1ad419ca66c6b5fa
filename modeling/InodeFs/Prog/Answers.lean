import InodeFs.Prog.Trace

/-!
# What a program answers

`Answers` bounds what a program can answer, whatever it reads.  With a measure that the body of a loop
makes smaller, this tells that the loop is not cut off by the rounds it is given.
-/

namespace Prog

section Answers
variable {S : Signature} {α β ι σ : Type}

/-- Whatever `p` reads, it answers nothing but what is `ok`. -/
abbrev Answers (ok : α → Prop) (p : Prog S α) : Prop :=
  Follows (allows fun _ => True) p (fun a _ => ok a) ()

theorem Answers.trivial (p : Prog S α) : Answers (fun _ => True) p := by
  induction p with
  | ret a => exact True.intro
  | abort => exact True.intro
  | act a k ih => exact ⟨True.intro, ih⟩
  | sync s k ih => exact ⟨True.intro, ih⟩

-- Whatever comes before.
theorem Answers.bind {p : Prog S α} {f : α → Prog S β} {ok : β → Prop} (h : ∀ a, Answers ok (f a)) :
    Answers ok (p >>= f) :=
  Follows.bind ((Answers.trivial p).mono fun a _ _ => h a)

theorem Answers.bind_congr {p : Prog S α} {f g : α → Prog S β} {ok : α → Prop} (h : Answers ok p)
    (hfg : ∀ a, ok a → f a = g a) : p >>= f = p >>= g := by
  induction p with
  | ret a => exact hfg a h
  | abort => rfl
  | act a k ih => exact congrArg (act a) (funext fun r => ih r (h.2 r))
  | sync s k ih => exact congrArg (sync s) (ih h.2)

theorem Answers.of_run [Store S ι σ] {ok : α → Prop} {p : Prog S α} (h : Answers ok p) {i i' : ι}
    {s s' : σ} {a : α} (hrun : run p i s = some (a, i', s')) : ok a := by
  induction p generalizing i s with
  | ret b =>
    obtain ⟨rfl, -, -⟩ := eq_of_run_ret hrun
    exact h
  | abort => cases hrun
  | act a k ih => exact ih _ (h.2 _) hrun
  | sync s' k ih => exact ih h.2 hrun

end Answers

/-! ## Loops that are not cut off -/

section Loops
variable {S : Signature} {β : Type}
variable {cond : β → Bool} {body : β → Prog S β} {b : β} {fuel : Nat}

/-- More rounds change nothing, when the body makes a measure smaller that the rounds cover. -/
theorem whileLoop_succ (μ : β → Nat) (hpos : ∀ b, cond b = true → 0 < μ b)
    (hbody : ∀ b, cond b = true → Answers (fun b' => μ b' < μ b) (body b)) (hfuel : μ b ≤ fuel) :
    whileLoop cond body (fuel + 1) b = whileLoop cond body fuel b := by
  induction fuel generalizing b with
  | zero =>
    have hdone : ¬ cond b = true := fun hc => by
      have := hpos b hc
      omega
    rw [whileLoop, whileLoop, if_neg hdone]
  | succ fuel ih =>
    rw [whileLoop, whileLoop]
    by_cases hc : cond b = true
    · rw [if_pos hc, if_pos hc]
      refine (hbody b hc).bind_congr fun b' hb' => ih ?_
      omega
    · rw [if_neg hc, if_neg hc]

/-- Then the loop is that of the language: it ends when its condition fails, and not before. -/
theorem whileLoop_eq (μ : β → Nat) (hpos : ∀ b, cond b = true → 0 < μ b)
    (hbody : ∀ b, cond b = true → Answers (fun b' => μ b' < μ b) (body b)) (hfuel : μ b ≤ fuel) :
    whileLoop cond body fuel b = if cond b then body b >>= whileLoop cond body fuel else ret b := by
  rw [← whileLoop_succ μ hpos hbody hfuel, whileLoop]

end Loops

end Prog
