import InodeFs.Prog.Ghost

/-!
# What a program does on its way

`trace` lists the operations of a run, each with the store it found.  `Within` says of them all that
they are as they should be, and `Gathers` connects what a program has done to the answer it gives;
`collects` does the same from the text of the program alone.  `rounds` stops a loop on its way.
-/

namespace Prog

variable {S : Signature} {α β γ ι σ : Type}

/-- What a program asks for. -/
inductive Op (S : Signature) where
  | act (a : S.Act)
  | sync (s : S.Sync)

/-- The first operation, when the program has come to no end. -/
def firstOp : Prog S α → Option (Op S)
  | ret _ => none
  | abort => none
  | act a _ => some (.act a)
  | sync s _ => some (.sync s)

/-- The rules that ask each operation to be `ok`. -/
def allows (ok : Op S → Prop) : Ghost S Unit where
  act a P x := ok (.act a) ∧ ∀ r, P r x
  sync s P x := ok (.sync s) ∧ P x
  act_mono hPQ h := ⟨h.1, fun r => hPQ _ _ (h.2 r)⟩
  sync_mono hPQ h := ⟨h.1, hPQ _ h.2⟩
  dies := fun _ => True

variable [Store S ι σ]

/-- The operations of `p` run alone, each with the store before it. -/
def trace : Prog S α → ι → σ → List (σ × Op S)
  | ret _, _, _ => []
  | abort, _, _ => []
  | act a k, i, s =>
      let r := Store.exec a i s
      (s, .act a) :: trace (k r.1) r.2.1 r.2.2
  | sync s' k, i, s => (s, .sync s') :: trace k i s

theorem trace_bind (p : Prog S α) (f : α → Prog S β) (i : ι) (s : σ) :
    trace (p >>= f) i s =
      trace p i s ++ ((run p i s).map fun r => trace (f r.1) r.2.1 r.2.2).getD [] := by
  induction p generalizing i s with
  | ret a => rfl
  | abort => rfl
  | act a k ih => exact congrArg _ (ih _ _ _)
  | sync s' k ih => exact congrArg _ (ih _ _)

/-- Whatever input `p` has, all its operations are `ok`. -/
def Within (ok : Op S → Prop) (p : Prog S α) (s : σ) : Prop :=
  ∀ i : ι, ∀ x ∈ trace p i s, ok x.2

namespace Within

variable {ok : Op S → Prop} {p : Prog S α} {f : α → Prog S β} {s : σ}

theorem ret (a : α) (s : σ) : Within ok (ret a : Prog S α) s := fun _ _ hx =>
  absurd hx List.not_mem_nil

theorem bind (hp : Within ok p s) (hf : wp p (fun a t => Within ok (f a) t) s) :
    Within ok (p >>= f) s := by
  intro i x hx
  rw [trace_bind, List.mem_append] at hx
  rcases hx with hx | hx
  · exact hp i x hx
  · cases hrun : run p i s with
    | none =>
      rw [hrun] at hx
      cases hx
    | some r =>
      rw [hrun] at hx
      exact wp_of_run hf hrun _ x hx

-- The rule for a second part that is `ok` however the first one ends.
theorem seq (hp : Within ok p s) (hf : ∀ a t, Within ok (f a) t) : Within ok (p >>= f) s := by
  intro i x hx
  rw [trace_bind, List.mem_append] at hx
  rcases hx with hx | hx
  · exact hp i x hx
  · cases hrun : run p i s with
    | none =>
      rw [hrun] at hx
      cases hx
    | some r =>
      rw [hrun] at hx
      exact hf _ _ _ x hx

theorem and {ok' : Op S → Prop} (h : Within ok p s) (h' : Within ok' p s) :
    Within (fun op => ok op ∧ ok' op) p s := fun i x hx => ⟨h i x hx, h' i x hx⟩

-- What is `ok` whatever the answers are is `ok` on every store.
theorem of_follows {Q : α → Unit → Prop} {x : Unit} (h : Follows (allows ok) p Q x) (s : σ) :
    Within ok p s := by
  induction p generalizing s with
  | ret a => exact ret a s
  | abort => exact fun _ _ hx => absurd hx List.not_mem_nil
  | act a k ih =>
    intro i x hx
    rcases List.mem_cons.mp hx with rfl | hx
    · exact h.1
    · exact ih _ (h.2 _) _ _ x hx
  | sync s' k ih =>
    intro i x hx
    rcases List.mem_cons.mp hx with rfl | hx
    · exact h.1
    · exact ih h.2 _ _ x hx

theorem whileLoop {cond : β → Bool} {body : β → Prog S β} {I : β → σ → Prop}
    (hbody : ∀ b s, I b s → cond b = true → Within ok (body b) s ∧ wp (body b) I s) (fuel : Nat)
    {b : β} (hI : I b s) : Within ok (whileLoop cond body fuel b) s := by
  induction fuel generalizing b s with
  | zero => exact ret b s
  | succ fuel ih =>
    rw [Prog.whileLoop]
    split
    · rename_i hc
      obtain ⟨hstep, hwp⟩ := hbody b s hI hc
      exact hstep.bind (wp_mono hwp fun b' t h => ih h)
    · exact ret b s

theorem forLoop {body : Nat → Prog S Unit} {I : σ → Prop} {i n : Nat}
    (hbody : ∀ x s, i ≤ x → x < i + n → I s → Within ok (body x) s ∧ wp (body x) (fun _ => I) s)
    (hI : I s) : Within ok (forLoop body i n) s := by
  induction n generalizing i s with
  | zero => exact ret () s
  | succ n ih =>
    obtain ⟨hstep, hwp⟩ := hbody i s le_rfl (by omega) hI
    refine hstep.bind (wp_mono hwp fun _ t h => ih (fun x s hx hlt => ?_) h)
    exact hbody x s (by omega) (by omega)

end Within

/-! ## What a trace amounts to -/

/-- What the operations of a trace give, by `R`. -/
def gathered (R : σ → Op S → γ → Prop) (l : List (σ × Op S)) : Set γ :=
  {y | ∃ x ∈ l, R x.1 x.2 y}

/-- Whenever `p` ends, `Q` holds of its answer, of the store and of what it has gathered. -/
def Gathers (R : σ → Op S → γ → Prop) (p : Prog S α) (s : σ) (Q : α → σ → Set γ → Prop) : Prop :=
  ∀ i a i' t, run p i s = some (a, i', t) → Q a t (gathered R (trace p i s))

/-- `p` gathers nothing. -/
abbrev Barren (R : σ → Op S → γ → Prop) (p : Prog S α) (s : σ) : Prop :=
  Within (fun op => ∀ s y, ¬ R s op y) p s

namespace Gathers

variable {R : σ → Op S → γ → Prop} {p : Prog S α} {f : α → Prog S β} {s : σ}
variable {Q : α → σ → Set γ → Prop} {Q' : β → σ → Set γ → Prop}

theorem gathered_append (l l' : List (σ × Op S)) :
    gathered R (l ++ l') = gathered R l ∪ gathered R l' := by
  ext y
  simp only [gathered, List.mem_append, Set.mem_union, Set.mem_ofPred_eq, or_and_right, exists_or]

theorem mono {P : α → σ → Set γ → Prop} (h : Gathers R p s P) (hPQ : ∀ a t T, P a t T → Q a t T) :
    Gathers R p s Q := fun i a i' t hrun => hPQ _ _ _ (h i a i' t hrun)

theorem and_wp {P : α → σ → Prop} (h : Gathers R p s Q) (hwp : wp p P s) :
    Gathers R p s fun a t T => P a t ∧ Q a t T :=
  fun i a i' t hrun => ⟨wp_of_run hwp hrun, h i a i' t hrun⟩

theorem of_barren (h : Barren R p s) (hwp : wp p (fun a t => Q a t ∅) s) : Gathers R p s Q := by
  intro i a i' t hrun
  have hnone : gathered R (trace p i s) = ∅ :=
    Set.eq_empty_iff_forall_notMem.mpr fun y ⟨x, hx, hR⟩ => h i x hx x.1 y hR
  have hQ := wp_of_run hwp hrun
  rwa [hnone]

theorem ret {a : α} (h : Q a s ∅) : Gathers R (ret a : Prog S α) s Q :=
  of_barren (Within.ret a s) h

theorem perform {a : S.Act} {Q : S.Res a → σ → Set γ → Prop}
    (h : ∀ i : ι, Q (Store.exec (S := S) a i s).1 (Store.exec (S := S) a i s).2.2
      {y | R s (.act a) y}) : Gathers R (Prog.perform a) s Q := by
  intro i b i' t hrun
  have hQ := wp_of_run (p := Prog.perform a) (Q := fun b t => Q b t {y | R s (.act a) y}) h hrun
  have hone : gathered R (trace (Prog.perform a) i s) = {y | R s (.act a) y} := by
    ext y
    constructor
    · rintro ⟨x, hx, hy⟩
      rw [List.mem_singleton.mp hx] at hy
      exact hy
    · exact fun hy => ⟨_, List.mem_singleton_self _, hy⟩
  exact hone ▸ hQ

theorem bind (h : Gathers R p s fun a t T => Gathers R (f a) t fun b u T' => Q' b u (T ∪ T')) :
    Gathers R (p >>= f) s Q' := by
  intro i b i' u hrun
  obtain ⟨a, i₁, t, hp, hf⟩ := exists_of_run_bind hrun
  have hrest := h i a i₁ t hp i₁ b i' u hf
  rwa [trace_bind, hp, Option.map_some, Option.getD_some, gathered_append]

-- The rule for a first part that gathers nothing.
theorem seq (hp : Barren R p s) (hwp : wp p (fun a t => Gathers R (f a) t Q') s) :
    Gathers R (p >>= f) s Q' :=
  bind (of_barren hp (wp_mono hwp fun a t h => h.mono fun b u T hQ => by rwa [Set.empty_union]))

-- The rule for a first part whose answer does not matter.
theorem skip (hp : Barren R p s) (hf : ∀ a t, Gathers R (f a) t Q') : Gathers R (p >>= f) s Q' := by
  refine bind fun i a i' t hrun => ?_
  have hnone : gathered R (trace p i s) = ∅ :=
    Set.eq_empty_iff_forall_notMem.mpr fun y ⟨x, hx, hR⟩ => hp i x hx x.1 y hR
  rw [hnone]
  exact (hf a t).mono fun b u T hQ => by rwa [Set.empty_union]

-- The rule for loops: as `wp_whileLoop`, where `T` is what was gathered before.
theorem whileLoop {cond : β → Bool} {body : β → Prog S β} {I : β → σ → Set γ → Prop}
    (μ : β → Nat) {fuel : Nat} {b : β} {T : Set γ} (hI : I b s T) (hfuel : μ b ≤ fuel)
    (hpos : ∀ b, cond b = true → 0 < μ b)
    (hbody : ∀ b s T, I b s T → cond b = true →
      Gathers R (body b) s fun b' t T' => I b' t (T ∪ T') ∧ μ b' < μ b)
    (hQ : ∀ b t T', I b t (T ∪ T') → cond b = false → Q' b t T') :
    Gathers R (whileLoop cond body fuel b) s Q' := by
  induction fuel generalizing b s T Q' with
  | zero =>
    refine ret (hQ b s ∅ (by rwa [Set.union_empty]) (Bool.eq_false_iff.mpr fun hc => ?_))
    have := hpos b hc
    omega
  | succ fuel ih =>
    rw [Prog.whileLoop]
    split
    · rename_i hc
      refine bind ((hbody b s T hI hc).mono fun b' t T' h => ih h.1 (by omega) ?_)
      intro b'' u T'' hI'' hdone
      exact hQ b'' u _ (by rwa [← Set.union_assoc]) hdone
    · rename_i hc
      exact ret (hQ b s ∅ (by rwa [Set.union_empty]) (Bool.eq_false_iff.mpr hc))

end Gathers

/-! ## From the text of a program -/

/-- The rules that allow everything and list what `f` selects of the actions. -/
def collects (f : S.Act → Option γ) : Ghost S (List γ) where
  act a P l := ∀ r, P r (l ++ (f a).toList)
  sync _ P l := P l
  act_mono hPQ h := fun r => hPQ _ _ (h r)
  sync_mono hPQ h := hPQ _ h

/-- What `f` selects of a trace. -/
def selected (f : S.Act → Option γ) : List (σ × Op S) → List γ
  | [] => []
  | (_, .act a) :: l => (f a).toList ++ selected f l
  | (_, .sync _) :: l => selected f l

section Collects
variable {f : S.Act → Option γ} {p : Prog S α} {Q : α → List γ → Prop} {l : List γ}

theorem collects_run (h : Follows (collects f) p Q l) {i i' : ι} {s s' : σ} {a : α}
    (hrun : run p i s = some (a, i', s')) : Q a (l ++ selected f (trace p i s)) := by
  induction p generalizing l i s with
  | ret b =>
    obtain ⟨rfl, -, -⟩ := eq_of_run_ret hrun
    exact (List.append_nil l).symm ▸ h
  | abort => exact h.elim
  | act a k ih =>
    have hrest := ih _ (h _) hrun
    rwa [List.append_assoc] at hrest
  | sync s' k ih => exact ih h hrun

-- What one list says of the answers holds next to what another list says.
theorem collects_and {δ : Type} {g : S.Act → Option δ} {R : α → List δ → Prop} {m : List δ}
    (h : Follows (collects f) p Q l) (h' : Follows (collects g) p R m) :
    Follows (collects g) p (fun a m' => R a m' ∧ ∃ l', Q a l') m := by
  induction p generalizing l m with
  | ret a => exact ⟨h', l, h⟩
  | abort => exact h
  | act a k ih => exact fun r => ih r (h r) (h' r)
  | sync s k ih => exact ih h h'

theorem wp_of_collects (h : Follows (collects f) p Q l) (s : σ) :
    wp p (fun a _ => ∃ l', Q a l') s :=
  Follows.returns (G := collects f) (fun hact r => ⟨_, hact r⟩) (fun hsync => ⟨_, hsync⟩)
    (fun _ => id) h s

theorem selected_append (l l' : List (σ × Op S)) :
    selected f (l ++ l') = selected f l ++ selected f l' := by
  induction l with
  | nil => rfl
  | cons x l ih =>
    obtain ⟨s, op⟩ := x
    cases op with
    | act a => simp only [List.cons_append, selected, ih, List.append_assoc]
    | sync s' => exact ih

end Collects

/-- Whatever answers `p` gets, `f` selects `xs` of its actions. -/
def Yields (f : S.Act → Option γ) (p : Prog S α) (xs : List γ) : Prop :=
  ∀ l, Follows (collects f) p (fun _ l' => l' = l ++ xs) l

namespace Yields

variable {f : S.Act → Option γ} {p : Prog S α} {g : α → Prog S β} {xs ys : List γ}

theorem ret (a : α) : Yields f (ret a) [] := fun l => (List.append_nil l).symm

theorem perform (a : S.Act) : Yields f (perform a) (f a).toList := fun _ _ => rfl

theorem bind (hp : Yields f p xs) (hg : ∀ a, Yields f (g a) ys) : Yields f (p >>= g) (xs ++ ys) :=
  fun l => Follows.bind ((hp l).mono fun a l' h => by
    subst h
    rw [← List.append_assoc]
    exact hg a _)

-- The rules for a part that yields nothing.
theorem seq (hp : Yields f p []) (hg : ∀ a, Yields f (g a) ys) : Yields f (p >>= g) ys := hp.bind hg

theorem andThen (hp : Yields f p xs) (hg : ∀ a, Yields f (g a) []) : Yields f (p >>= g) xs := by
  have h := hp.bind hg
  rwa [List.append_nil] at h

theorem forLoop {body : Nat → Prog S Unit} {ys : Nat → List γ}
    (hbody : ∀ x, Yields f (body x) (ys x)) (i n : Nat) :
    Yields f (forLoop body i n) ((List.range' i n).flatMap ys) := by
  induction n generalizing i with
  | zero => exact ret ()
  | succ n ih => exact (hbody i).bind fun _ => ih (i + 1)

theorem selected (h : Yields f p xs) {i i' : ι} {s s' : σ} {a : α}
    (hrun : run p i s = some (a, i', s')) : selected f (trace p i s) = xs := by
  have hl := collects_run (h []) hrun
  rwa [List.nil_append, List.nil_append] at hl

end Yields

/-- Whenever `p` ends, `Q` holds of its answer, of the store and of what `f` selects of its
actions. -/
def Lists (f : S.Act → Option γ) (p : Prog S α) (s : σ) (Q : α → σ → List γ → Prop) : Prop :=
  ∀ i a i' t, run p i s = some (a, i', t) → Q a t (selected f (trace p i s))

namespace Lists

variable {f : S.Act → Option γ} {p : Prog S α} {g : α → Prog S β} {s : σ}

theorem of_yields {Q : α → σ → List γ → Prop} {xs : List γ} (h : Yields f p xs)
    (hwp : wp p (fun a t => Q a t xs) s) : Lists f p s Q := by
  intro i a i' t hrun
  have hQ := wp_of_run hwp hrun
  rwa [h.selected hrun]

-- The rule for a part whose answer does not matter.
theorem last {Q : α → σ → List γ → Prop} {xs : List γ} (h : Yields f p xs)
    (hQ : ∀ a t, Q a t xs) : Lists f p s Q := by
  intro i a i' t hrun
  rw [h.selected hrun]
  exact hQ a t

theorem bind {Q : β → σ → List γ → Prop}
    (h : Lists f p s fun a t l => Lists f (g a) t fun b u l' => Q b u (l ++ l')) :
    Lists f (p >>= g) s Q := by
  intro i b i' u hrun
  obtain ⟨a, i₁, t, hp, hg⟩ := exists_of_run_bind hrun
  have hrest := h i a i₁ t hp i₁ b i' u hg
  rwa [trace_bind, hp, Option.map_some, Option.getD_some, selected_append]

-- The rule for a first part that `f` selects nothing of.
theorem seq {Q : β → σ → List γ → Prop} (hp : Yields f p [])
    (hg : wp p (fun a t => Lists f (g a) t Q) s) : Lists f (p >>= g) s Q :=
  bind (of_yields hp hg)

end Lists

/-- The operation is none that `f` selects. -/
def Unselected (f : S.Act → Option γ) : Op S → Prop
  | .act a => f a = none
  | .sync _ => True

theorem selected_eq_nil_iff {f : S.Act → Option γ} {l : List (σ × Op S)} :
    selected f l = [] ↔ ∀ x ∈ l, Unselected f x.2 := by
  induction l with
  | nil => exact ⟨fun _ _ hx => absurd hx List.not_mem_nil, fun _ => rfl⟩
  | cons x l ih =>
    obtain ⟨s, op⟩ := x
    cases op with
    | act a =>
      simp only [selected, List.append_eq_nil_iff, ih, List.forall_mem_cons, Unselected,
        Option.toList_eq_nil_iff]
    | sync s' => simp only [selected, ih, List.forall_mem_cons, Unselected, true_and]

-- What yields nothing takes no action that is selected, on any store.
theorem Within.of_yields {f : S.Act → Option γ} {p : Prog S α} (h : Yields f p []) (s : σ) :
    Within (Unselected f) p s := by
  intro i
  obtain ⟨a, i', t, hrun, -⟩ := wp_run (wp_of_collects (h []) s) i
  exact selected_eq_nil_iff.mp (h.selected hrun)

-- A program whose first part yields the same list always, and whose second part yields nothing.
theorem within_bind_iff {f : S.Act → Option γ} {p : Prog S α} {g : α → Prog S β} {s : σ}
    {xs : List γ} [Nonempty ι] (hp : Lists f p s fun _ _ l => l = xs)
    (hends : wp p (fun _ _ => True) s) (hg : ∀ a t, Within (Unselected f) (g a) t) :
    Within (Unselected f) (p >>= g) s ↔ xs = [] := by
  constructor
  · intro h
    obtain ⟨a, i', t, hrun, -⟩ := wp_run hends Classical.ofNonempty
    rw [← hp _ a i' t hrun, selected_eq_nil_iff]
    intro x hx
    refine h Classical.ofNonempty x ?_
    rw [trace_bind]
    exact List.mem_append_left _ hx
  · rintro rfl
    refine Within.seq (fun i => ?_) hg
    obtain ⟨a, i', t, hrun, -⟩ := wp_run hends i
    exact selected_eq_nil_iff.mp (hp i a i' t hrun)

theorem within_iff {f : S.Act → Option γ} {p : Prog S α} {s : σ} {xs : List γ} [Nonempty ι]
    (hp : Lists f p s fun _ _ l => l = xs) (hends : wp p (fun _ _ => True) s) :
    Within (Unselected f) p s ↔ xs = [] := by
  rw [← bind_ret p]
  exact within_bind_iff hp hends Within.ret

/-! ## The rounds of a loop -/

/-- The variables, the input and the store of `while (cond) body` after `n` rounds. -/
def rounds (cond : β → Bool) (body : β → Prog S β) : Nat → β → ι → σ → Option (β × ι × σ)
  | 0, b, i, s => some (b, i, s)
  | n + 1, b, i, s =>
      if cond b then (run (body b) i s).bind fun r => rounds cond body n r.1 r.2.1 r.2.2 else none

section Rounds
variable {cond : β → Bool} {body : β → Prog S β} {b b' : β} {i i' : ι} {s s' : σ}

-- The loop gets through its next `n` rounds, with the invariant that they preserve.
theorem exists_rounds {I : Nat → β → σ → Prop} {m n : Nat}
    (hbody : ∀ k b s, k < m + n → I k b s → cond b = true ∧ wp (body b) (I (k + 1)) s)
    (hI : I m b s) (i : ι) :
    ∃ b' i' s', rounds cond body n b i s = some (b', i', s') ∧ I (m + n) b' s' := by
  induction n generalizing m b i s with
  | zero => exact ⟨b, i, s, rfl, hI⟩
  | succ n ih =>
    obtain ⟨hc, hwp⟩ := hbody m b s (by omega) hI
    obtain ⟨b₁, i₁, s₁, hrun, hI₁⟩ := wp_run hwp i
    obtain ⟨b', i', s', hrest, hI'⟩ := ih (fun k b s hk => hbody k b s (by omega)) hI₁ i₁
    refine ⟨b', i', s', ?_, by rwa [show m + (n + 1) = m + 1 + n by omega]⟩
    rw [rounds, if_pos hc, hrun]
    exact hrest

end Rounds

end Prog
