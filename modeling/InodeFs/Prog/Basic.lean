import Mathlib.Data.Set.Basic
import Mathlib.Tactic.Common

/-!
# Programs over actions and synchronisation

A program asks its surroundings for actions on a shared store, each with a typed answer, and for
synchronisation operations, which have no answer but may make the caller wait.  One program text
has two meanings: run alone on a store (`Prog.run`, below), where synchronisation never waits, and
interleaved with other programs (`InodeFs.Prog.Threads`), where each operation is one atomic step.

`wp` is the weakest precondition of the first meaning.  It is demonic in the private input `ι` (the
bytes a program reads without having written them), so what it establishes holds for every input.
-/

/-- The operations a program may ask for. -/
structure Signature where
  Act : Type
  Res : Act → Type
  Sync : Type

inductive Prog (S : Signature) (α : Type) where
  | ret (a : α)
  /-- The process dies: nothing runs after it. -/
  | abort
  | act (a : S.Act) (k : S.Res a → Prog S α)
  | sync (s : S.Sync) (k : Prog S α)

/-- What the actions of `S` do to a store `σ`, drawing on a private input `ι`. -/
class Store (S : Signature) (ι σ : outParam Type) where
  exec : (a : S.Act) → ι → σ → S.Res a × ι × σ

namespace Prog

variable {S : Signature} {α β γ ι σ : Type}

def bind : Prog S α → (α → Prog S β) → Prog S β
  | ret a, f => f a
  | abort, _ => abort
  | act a k, f => act a (fun r => (k r).bind f)
  | sync s k, f => sync s (k.bind f)

instance : Monad (Prog S) where
  pure := ret
  bind := bind

@[simp] theorem pure_eq (a : α) : (pure a : Prog S α) = ret a := rfl

@[simp] theorem ret_bind (a : α) (f : α → Prog S β) : ret a >>= f = f a := rfl

@[simp] theorem act_bind (a : S.Act) (k : S.Res a → Prog S α) (f : α → Prog S β) :
    act a k >>= f = act a (fun r => k r >>= f) := rfl

@[simp] theorem sync_bind (s : S.Sync) (k : Prog S α) (f : α → Prog S β) :
    sync s k >>= f = sync s (k >>= f) := rfl

theorem bind_ret (p : Prog S α) : p >>= ret = p := by
  induction p with
  | ret a => rfl
  | abort => rfl
  | act a k ih => rw [act_bind]; congr 1; funext r; exact ih r
  | sync s k ih => rw [sync_bind, ih]

theorem bind_assoc (p : Prog S α) (f : α → Prog S β) (g : β → Prog S γ) :
    p >>= f >>= g = p >>= fun a => f a >>= g := by
  induction p with
  | ret a => rfl
  | abort => rfl
  | act a k ih => simp only [act_bind]; congr 1; funext r; exact ih r
  | sync s k ih => simp only [sync_bind]; rw [ih]

instance : LawfulMonad (Prog S) :=
  LawfulMonad.mk' _ (fun p => bind_ret p) (fun _ _ => rfl) (fun p f g => bind_assoc p f g)

/-- One action, answering what the store answers. -/
def perform (a : S.Act) : Prog S (S.Res a) := act a ret

/-- One synchronisation operation. -/
def synchronise (s : S.Sync) : Prog S Unit := sync s (ret ())

/-! ## Loops -/

/-- `while (cond) body`, cut off after `fuel` rounds; `wp_whileLoop` asks for enough fuel. -/
def whileLoop (cond : β → Bool) (body : β → Prog S β) : Nat → β → Prog S β
  | 0, b => ret b
  | fuel + 1, b => if cond b then body b >>= whileLoop cond body fuel else ret b

/-- `for (x = i; x < i + n; x++) body(x)`. -/
def forLoop (body : Nat → Prog S Unit) : Nat → Nat → Prog S Unit
  | _, 0 => ret ()
  | i, n + 1 => body i >>= fun _ => forLoop body (i + 1) n

-- The last round apart.
theorem forLoop_concat (body : Nat → Prog S Unit) (i n : Nat) :
    forLoop body i (n + 1) = forLoop body i n >>= fun _ => body (i + n) := by
  induction n generalizing i with
  | zero =>
    rw [forLoop, forLoop]
    exact bind_ret (body i)
  | succ n ih =>
    have hhead : forLoop body i (n + 1) = body i >>= fun _ => forLoop body (i + 1) n := rfl
    rw [forLoop, ih, hhead, bind_assoc, show i + 1 + n = i + (n + 1) by omega]

/-- Whatever answers `p` gets, it takes an action that is in `sel`, and the first one is in `ok`. -/
def FirstOf (sel ok : S.Act → Prop) : Prog S α → Prop
  | ret _ => False
  | abort => False
  | act a k => (sel a → ok a) ∧ (¬ sel a → ∀ r, FirstOf sel ok (k r))
  | sync _ k => FirstOf sel ok k

/-! ## Running alone -/

section Alone
variable [Store S ι σ]

/-- The answer, the rest of the input and the store of a program run alone; `none` if it dies. -/
def run : Prog S α → ι → σ → Option (α × ι × σ)
  | ret a, i, s => some (a, i, s)
  | abort, _, _ => none
  | act a k, i, s =>
      let r := Store.exec a i s
      run (k r.1) r.2.1 r.2.2
  | sync _ k, i, s => run k i s

theorem run_bind (p : Prog S α) (f : α → Prog S β) (i : ι) (s : σ) :
    run (p >>= f) i s = (run p i s).bind fun r => run (f r.1) r.2.1 r.2.2 := by
  induction p generalizing i s with
  | ret a => rfl
  | abort => rfl
  | act a k ih => exact ih _ _ _
  | sync s' k ih => exact ih _ _

theorem exists_of_run_bind {p : Prog S α} {f : α → Prog S β} {i j : ι} {s t : σ} {b : β}
    (h : run (p >>= f) i s = some (b, j, t)) :
    ∃ a i' s', run p i s = some (a, i', s') ∧ run (f a) i' s' = some (b, j, t) := by
  rw [run_bind, Option.bind_eq_some_iff] at h
  obtain ⟨⟨a, i', s'⟩, hp, hf⟩ := h
  exact ⟨a, i', s', hp, hf⟩

theorem eq_of_run_ret {a b : α} {i j : ι} {s t : σ}
    (h : run (ret a : Prog S α) i s = some (b, j, t)) : a = b ∧ i = j ∧ s = t := by
  simpa only [run, Option.some.injEq, Prod.mk.injEq] using h

/-- `p` run alone from `s` ends, whatever its input, with an answer and a store that satisfy `Q`. -/
def wp : Prog S α → (α → σ → Prop) → σ → Prop
  | ret a, Q, s => Q a s
  | abort, _, _ => False
  | act a k, Q, s => ∀ i : ι, wp (k (Store.exec a i s).1) Q (Store.exec a i s).2.2
  | sync _ k, Q, s => wp k Q s

@[simp] theorem wp_ret (a : α) (Q : α → σ → Prop) (s : σ) : wp (ret a : Prog S α) Q s ↔ Q a s :=
  Iff.rfl

@[simp] theorem wp_sync (s' : S.Sync) (k : Prog S α) (Q : α → σ → Prop) (s : σ) :
    wp (sync s' k) Q s ↔ wp k Q s := Iff.rfl

theorem wp_act (a : S.Act) (k : S.Res a → Prog S α) (Q : α → σ → Prop) (s : σ) :
    wp (act a k) Q s ↔ ∀ i : ι, wp (k (Store.exec a i s).1) Q (Store.exec a i s).2.2 := Iff.rfl

@[simp] theorem wp_synchronise (s' : S.Sync) (Q : Unit → σ → Prop) (s : σ) :
    wp (synchronise s' : Prog S Unit) Q s ↔ Q () s := Iff.rfl

@[simp] theorem wp_bind (p : Prog S α) (f : α → Prog S β) (Q : β → σ → Prop) (s : σ) :
    wp (p >>= f) Q s ↔ wp p (fun a s' => wp (f a) Q s') s := by
  induction p generalizing s with
  | ret a => rfl
  | abort => rfl
  | act a k ih => exact forall_congr' fun i => ih _ _
  | sync s' k ih => exact ih _

theorem wp_mono {p : Prog S α} {Q R : α → σ → Prop} {s : σ} (h : wp p Q s)
    (hQR : ∀ a s', Q a s' → R a s') : wp p R s := by
  induction p generalizing s with
  | ret a => exact hQR _ _ h
  | abort => exact h
  | act a k ih => exact fun i => ih _ (h i)
  | sync s' k ih => exact ih h

theorem wp_and {p : Prog S α} {Q R : α → σ → Prop} {s : σ} (hQ : wp p Q s) (hR : wp p R s) :
    wp p (fun a s' => Q a s' ∧ R a s') s := by
  induction p generalizing s with
  | ret a => exact ⟨hQ, hR⟩
  | abort => exact hQ
  | act a k ih => exact fun i => ih _ (hQ i) (hR i)
  | sync s' k ih => exact ih hQ hR

theorem wp_run {p : Prog S α} {Q : α → σ → Prop} {s : σ} (h : wp p Q s) (i : ι) :
    ∃ a i' s', run p i s = some (a, i', s') ∧ Q a s' := by
  induction p generalizing s i with
  | ret a => exact ⟨a, i, s, rfl, h⟩
  | abort => exact h.elim
  | act a k ih => exact ih _ (h i) _
  | sync s' k ih => exact ih h i

-- A run that ended satisfies what `wp` promises.
theorem wp_of_run {p : Prog S α} {Q : α → σ → Prop} {s s' : σ} {i i' : ι} {a : α}
    (h : wp p Q s) (hr : run p i s = some (a, i', s')) : Q a s' := by
  obtain ⟨b, j, t, he, hq⟩ := wp_run h i
  rw [hr] at he
  simp only [Option.some.injEq, Prod.mk.injEq] at he
  obtain ⟨rfl, -, rfl⟩ := he
  exact hq

/-- The rule for loops: an invariant, and a measure that the body makes smaller and that the fuel
covers. -/
theorem wp_whileLoop {cond : β → Bool} {body : β → Prog S β} (I : β → σ → Prop)
    (μ : β → Nat) {Q : β → σ → Prop} {fuel : Nat} {b : β} {s : σ}
    (hI : I b s) (hfuel : μ b ≤ fuel) (hpos : ∀ b, cond b = true → 0 < μ b)
    (hbody : ∀ b s, I b s → cond b = true → wp (body b) (fun b' s' => I b' s' ∧ μ b' < μ b) s)
    (hQ : ∀ b s, I b s → cond b = false → Q b s) :
    wp (whileLoop cond body fuel b) Q s := by
  induction fuel generalizing b s with
  | zero =>
    refine hQ b s hI (Bool.eq_false_iff.mpr fun hc => ?_)
    have := hpos b hc
    omega
  | succ fuel ih =>
    rw [whileLoop]
    split
    · rename_i hc
      rw [wp_bind]
      exact wp_mono (hbody b s hI hc) fun b' s' h => ih h.1 (by omega)
    · rename_i hc
      exact hQ b s hI (Bool.eq_false_iff.mpr hc)

/-- The rule for counting loops: an invariant indexed by the counter. -/
theorem wp_forLoop {body : Nat → Prog S Unit} (I : Nat → σ → Prop) {Q : Unit → σ → Prop}
    {i n : Nat} {s : σ} (hI : I i s)
    (hbody : ∀ x s, i ≤ x → x < i + n → I x s → wp (body x) (fun _ => I (x + 1)) s)
    (hQ : ∀ s, I (i + n) s → Q () s) : wp (forLoop body i n) Q s := by
  induction n generalizing i s with
  | zero => exact hQ s hI
  | succ n ih =>
    rw [forLoop, wp_bind]
    refine wp_mono (hbody i s le_rfl (by omega) hI) fun _ s' h => ih h ?_ ?_
    · intro x t hx hlt
      exact hbody x t (by omega) (by omega)
    · intro t ht
      exact hQ t (by rwa [show i + (n + 1) = i + 1 + n by omega])

end Alone

end Prog
