import InodeFs.Prog.Basic

/-!
# Rules for the operations of a program

A `Ghost` says, over a state that the program itself does not see, which operations are allowed and
what each does to that state; `Follows` says that a program keeps to it on every path, whatever the
answers it gets.  Nothing is said about the store: these are facts about the text of a program, and
hold however it is interleaved with others.
-/

namespace Prog

variable {S : Signature} {α β γ δ : Type}

/-- For each operation, the weakest condition on the ghost state before it. -/
structure Ghost (S : Signature) (γ : Type) where
  act : (a : S.Act) → (S.Res a → γ → Prop) → γ → Prop
  sync : S.Sync → (γ → Prop) → γ → Prop
  act_mono : ∀ {a P Q x}, (∀ r y, P r y → Q r y) → act a P x → act a Q x
  sync_mono : ∀ {s P Q x}, (∀ y, P y → Q y) → sync s P x → sync s Q x
  /-- Where the process may die. -/
  dies : γ → Prop := fun _ => False

/-- `p` keeps to the rules from the ghost state `x`, and ends with `Q`. -/
def Follows (G : Ghost S γ) : Prog S α → (α → γ → Prop) → γ → Prop
  | ret a, Q, x => Q a x
  | abort, _, x => G.dies x
  | act a k, Q, x => G.act a (fun r y => Follows G (k r) Q y) x
  | sync s k, Q, x => G.sync s (fun y => Follows G k Q y) x

namespace Follows

variable {G : Ghost S γ} {Q R : α → γ → Prop} {x : γ}

@[simp] theorem ret_iff (a : α) : Follows G (ret a) Q x ↔ Q a x := Iff.rfl

@[simp] theorem abort_iff : Follows G (abort : Prog S α) Q x ↔ G.dies x := Iff.rfl

theorem act_iff (a : S.Act) (k : S.Res a → Prog S α) :
    Follows G (act a k) Q x ↔ G.act a (fun r y => Follows G (k r) Q y) x := Iff.rfl

theorem sync_iff (s : S.Sync) (k : Prog S α) :
    Follows G (sync s k) Q x ↔ G.sync s (fun y => Follows G k Q y) x := Iff.rfl

theorem bind_iff (p : Prog S α) (f : α → Prog S β) {Q : β → γ → Prop} :
    Follows G (p >>= f) Q x ↔ Follows G p (fun a y => Follows G (f a) Q y) x := by
  induction p generalizing x with
  | ret a => rfl
  | abort => rfl
  | act a k ih =>
    rw [act_bind, act_iff, act_iff]
    exact ⟨G.act_mono fun r y => (ih r).mp, G.act_mono fun r y => (ih r).mpr⟩
  | sync s k ih =>
    rw [sync_bind, sync_iff, sync_iff]
    exact ⟨G.sync_mono fun y => ih.mp, G.sync_mono fun y => ih.mpr⟩

theorem bind {p : Prog S α} {f : α → Prog S β} {Q : β → γ → Prop}
    (h : Follows G p (fun a y => Follows G (f a) Q y) x) : Follows G (p >>= f) Q x :=
  (bind_iff p f).mpr h

theorem mono {p : Prog S α} (h : Follows G p Q x) (hQR : ∀ a y, Q a y → R a y) :
    Follows G p R x := by
  induction p generalizing x with
  | ret a => exact hQR _ _ h
  | abort => exact h
  | act a k ih => exact G.act_mono (fun r y => ih r) h
  | sync s k ih => exact G.sync_mono (fun y => ih) h

-- The rule for loops; it promises nothing about the condition at the end.
theorem whileLoop {cond : β → Bool} {body : β → Prog S β} {I : β → γ → Prop} {b : β}
    (hbody : ∀ b x, I b x → cond b = true → Follows G (body b) I x) (fuel : Nat) (hI : I b x) :
    Follows G (whileLoop cond body fuel b) I x := by
  induction fuel generalizing b x with
  | zero => exact hI
  | succ fuel ih =>
    rw [Prog.whileLoop]
    split
    · rename_i hc
      exact ((hbody b x hI hc).mono fun b' y h => ih h).bind
    · exact hI

-- The rule for loops that end: as `wp_whileLoop`.
theorem whileLoop_done {cond : β → Bool} {body : β → Prog S β} {I Q : β → γ → Prop} (μ : β → Nat)
    {fuel : Nat} {b : β} (hI : I b x) (hfuel : μ b ≤ fuel) (hpos : ∀ b, cond b = true → 0 < μ b)
    (hbody : ∀ b x, I b x → cond b = true → Follows G (body b) (fun b' y => I b' y ∧ μ b' < μ b) x)
    (hQ : ∀ b x, I b x → cond b = false → Q b x) : Follows G (Prog.whileLoop cond body fuel b) Q x := by
  induction fuel generalizing b x with
  | zero =>
    refine hQ b x hI (Bool.eq_false_iff.mpr fun hc => ?_)
    have := hpos b hc
    omega
  | succ fuel ih =>
    rw [Prog.whileLoop]
    split
    · rename_i hc
      exact ((hbody b x hI hc).mono fun b' y h => ih h.1 (by omega)).bind
    · rename_i hc
      exact hQ b x hI (Bool.eq_false_iff.mpr hc)

theorem forLoop {body : Nat → Prog S Unit} {I : γ → Prop}
    (hbody : ∀ i x, I x → Follows G (body i) (fun _ => I) x) (i n : Nat) (hI : I x) :
    Follows G (forLoop body i n) (fun _ => I) x := by
  induction n generalizing i x with
  | zero => exact hI
  | succ n ih => exact ((hbody i x hI).mono fun _ y h => ih (i + 1) h).bind

-- The rule for counting loops with an invariant indexed by the counter: as `wp_forLoop`.
theorem forLoop_done {body : Nat → Prog S Unit} {I : Nat → γ → Prop} {Q : Unit → γ → Prop}
    {i n : Nat} (hI : I i x)
    (hbody : ∀ j x, i ≤ j → j < i + n → I j x → Follows G (body j) (fun _ => I (j + 1)) x)
    (hQ : ∀ x, I (i + n) x → Q () x) : Follows G (Prog.forLoop body i n) Q x := by
  induction n generalizing i x with
  | zero => exact hQ x hI
  | succ n ih =>
    refine ((hbody i x le_rfl (by omega) hI).mono fun _ y h => ih h ?_ ?_).bind
    · intro j z hj hlt
      exact hbody j z (by omega) (by omega)
    · intro z hz
      exact hQ z (by rwa [show i + (n + 1) = i + 1 + n by omega])

/-- A program that keeps to `G` keeps to `H`, when `ρ` carries each operation over. -/
theorem transfer {H : Ghost S δ} (ρ : γ → δ → Prop)
    (hact : ∀ {a P P' x y}, ρ x y → (∀ r x' y', ρ x' y' → P r x' → P' r y') →
      G.act a P x → H.act a P' y)
    (hsync : ∀ {s P P' x y}, ρ x y → (∀ x' y', ρ x' y' → P x' → P' y') →
      G.sync s P x → H.sync s P' y) (hdies : ∀ {x y}, ρ x y → G.dies x → H.dies y)
    {p : Prog S α} {Q' : α → δ → Prop} {y : δ} (hρ : ρ x y)
    (hQ : ∀ a x' y', ρ x' y' → Q a x' → Q' a y') (h : Follows G p Q x) : Follows H p Q' y := by
  induction p generalizing x y with
  | ret a => exact hQ a x y hρ h
  | abort => exact hdies hρ h
  | act a k ih => exact hact hρ (fun r x' y' hρ' hk => ih r hρ' hk) h
  | sync s k ih => exact hsync hρ (fun x' y' hρ' hk => ih hρ' hk) h

-- The same rules for programs that may die in other states.
theorem dying {D : γ → Prop} {p : Prog S α} (hD : ∀ x, G.dies x → D x) (h : Follows G p Q x) :
    Follows { G with dies := D } p Q x :=
  transfer Eq (fun hx hP h => hx ▸ G.act_mono (fun r y => hP r y y rfl) h)
    (fun hx hP h => hx ▸ G.sync_mono (fun y => hP y y rfl) h) (fun hx h => hx ▸ hD _ h) rfl
    (fun _ _ _ hx h => hx ▸ h) h

end Follows

/-- A program that keeps to the rules returns when it is run alone, if the rules allow an operation
only when they allow it whatever the answer. -/
theorem Follows.returns {ι σ : Type} [Store S ι σ] {G : Ghost S γ} {p : Prog S α}
    {Q : α → γ → Prop} {x : γ} (hact : ∀ {a P x}, G.act a P x → ∀ r, ∃ y, P r y)
    (hsync : ∀ {s P x}, G.sync s P x → ∃ y, P y) (hdies : ∀ x, ¬ G.dies x) (h : Follows G p Q x)
    (s : σ) :
    wp p (fun a _ => ∃ y, Q a y) s := by
  induction p generalizing x s with
  | ret a => exact ⟨x, h⟩
  | abort => exact hdies x h
  | act a k ih =>
    intro i
    obtain ⟨y, hy⟩ := hact h (Store.exec a i s).1
    exact ih _ hy _
  | sync s' k ih =>
    obtain ⟨y, hy⟩ := hsync h
    exact ih hy s

end Prog
