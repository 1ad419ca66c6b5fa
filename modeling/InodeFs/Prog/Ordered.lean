import InodeFs.Prog.Serial

/-!
# Calls that lock in order

Each call locks one mutex first, which guards a part of the variables, and further mutexes in an
order of ranks while it has the first one; it never finds its waiting loops busy, and releases what
it locked in turn.  Threads that make such calls, under whatever first mutexes, do not come to a
deadlock.
-/

namespace Prog

variable {τ Call Act M C κ ι σ α β ρ : Type} {Res : Act → Type}

/-! ## The discipline -/

section Discipline
variable (rank : M → Nat) (guards : M → κ → ρ)

/-- The rules for a call whose first mutex is `m`, on the mutexes it has locked, the last one first,
and on the variables that `m` guards.  The others may change at any time. -/
def ordered (m : M) : Ghost (MonitorSig Act Res M C κ) (List M × ρ) where
  act a P x := x.1 ≠ [] ∧ ∀ r, P r x
  sync
    | .lock m', P, x => x.1 ≠ [] ∧ (∀ h ∈ x.1, rank h < rank m') ∧ P (m' :: x.1, x.2)
    | .unlock m', P, x => ∃ held, x.1 = m' :: held ∧ P (held, x.2)
    | .update f, P, x => x.1 ≠ [] ∧ (∀ m' ≠ m, ∀ v, guards m' (f v) = guards m' v) ∧
        ∃ y, (∀ v, guards m v = x.2 → guards m (f v) = y) ∧ P (x.1, y)
    | .waitWhile _ _ busy, P, x => x.1 ≠ [] ∧ (∀ v, guards m v = x.2 → busy v = false) ∧ P x
    | .wake _, P, x => x.1 ≠ [] ∧ P x
  act_mono hPQ h := ⟨h.1, fun r => hPQ _ _ (h.2 r)⟩
  sync_mono {s P Q x} hPQ h := by
    cases s with
    | lock m => exact ⟨h.1, h.2.1, hPQ _ h.2.2⟩
    | unlock m => exact ⟨h.choose, h.choose_spec.1, hPQ _ h.choose_spec.2⟩
    | update f =>
      obtain ⟨hne, hothers, y, hy, hP⟩ := h
      exact ⟨hne, hothers, y, hy, hPQ _ hP⟩
    | waitWhile m cv busy => exact ⟨h.1, h.2.1, hPQ _ h.2.2⟩
    | wake whom => exact ⟨h.1, hPQ _ h.2⟩

/-- The call locks `m` first and then keeps to the rules to its end, where the variables under `m`
satisfy `J` again. -/
def OrderedBy (m : M) (J : ρ → Prop) (p : Prog (MonitorSig Act Res M C κ) α) : Prop :=
  ∃ k, p = .sync (.lock m) k ∧
    ∀ v, J v → Follows (ordered rank guards m) k (fun _ x => x.1 = [] ∧ J x.2) ([m], v)

end Discipline

variable {rank : M → Nat} {guards : M → κ → ρ} {J : ρ → Prop} {m : M}

theorem OrderedBy.bind {f : Unit → Prog (MonitorSig Act Res M C κ) α}
    (h : ∀ v, J v →
      Follows (ordered rank guards m) (f ()) (fun _ x => x.1 = [] ∧ J x.2) ([m], v)) :
    OrderedBy rank guards m J (synchronise (.lock m) >>= f) := ⟨f (), rfl, h⟩

-- Nothing is left to do without a mutex but to return.
theorem ordered_nil {p : Prog (MonitorSig Act Res M C κ) α} {Q : α → List M × ρ → Prop} {y : ρ}
    (h : Follows (ordered rank guards m) p Q ([], y)) : ∃ a, p = .ret a ∧ Q a ([], y) := by
  cases p with
  | ret a => exact ⟨a, rfl, h⟩
  | abort => exact h.elim
  | act a k => exact absurd rfl h.1
  | sync s k =>
    cases s with
    | unlock m =>
      obtain ⟨held, heq, -⟩ := h
      exact absurd heq (List.cons_ne_nil m held).symm
    | lock m => exact absurd rfl h.1
    | update f => exact absurd rfl h.1
    | waitWhile m cv busy => exact absurd rfl h.1
    | wake whom => exact absurd rfl h.1

-- Such a call runs alone once it has its first mutex, when all calls have the same one.
theorem OrderedBy.guardedBy {p : Prog (MonitorSig Act Res M C κ) α}
    (h : OrderedBy rank guards m J p) : GuardedBy m (fun v => J (guards m v)) p := by
  obtain ⟨k, hk, hfollows⟩ := h
  refine ⟨k, hk, fun v hv => ?_⟩
  -- what `m` guards is the same in both states
  refine Follows.transfer (G := ordered rank guards m) (fun x y => y.1 = x.1 ∧ guards m y.2 = x.2)
    (fun {a P P' x y} hy hnext hact => ?_) (fun {s P P' x y} hy hnext hsync => ?_) (fun _ h => h.elim)
    (y := ([m], v)) ⟨rfl, rfl⟩ ?_ (hfollows _ hv)
  · exact ⟨hy.1 ▸ hact.1, fun r => hnext r x y hy (hact.2 r)⟩
  · cases s with
    | lock m' =>
      obtain ⟨hne, hrank, hP⟩ := hsync
      have hnew : m' ∉ x.1 := fun hmem => Nat.lt_irrefl _ (hrank m' hmem)
      exact ⟨hy.1 ▸ hne, hy.1 ▸ hnew, hnext (m' :: x.1, x.2) _ ⟨congrArg _ hy.1, hy.2⟩ hP⟩
    | unlock m' =>
      obtain ⟨held, heq, hP⟩ := hsync
      exact ⟨held, hy.1.trans heq, hnext (held, x.2) _ ⟨rfl, hy.2⟩ hP⟩
    | update f =>
      obtain ⟨hne, -, z, hz, hP⟩ := hsync
      exact ⟨hy.1 ▸ hne, hnext (x.1, z) _ ⟨hy.1, hz _ hy.2⟩ hP⟩
    | waitWhile m' cv busy =>
      obtain ⟨hne, hbusy, hP⟩ := hsync
      exact ⟨hy.1 ▸ hne, hbusy _ hy.2, hnext _ _ hy hP⟩
    | wake whom =>
      obtain ⟨hne, hP⟩ := hsync
      exact ⟨hy.1 ▸ hne, hnext _ _ hy hP⟩
  · rintro a x y ⟨hheld, hvars⟩ ⟨hnil, hJ⟩
    exact ⟨hheld.trans hnil, (congrArg J hvars).mpr hJ⟩

/-! ## Deadlock -/

/-- Thread `t` has a call that has not returned. -/
def Config.Unfinished {S : Signature} {N : Type} (c : Config τ Call S ι σ α N) (t : τ) : Prop :=
  (c.thread t).todo ≠ [] ∨ (c.thread t).frame ≠ none

/-- Thread `t` has to wait for another one: at a locked mutex, at a condition variable, or, woken
from it, at the mutex again. -/
inductive Blocked (c : ThreadConfig τ Call Act Res M C κ ι σ α) (t : τ) : Prop where
  | lock {call k i todo done m u}
      (h : c.thread t = ⟨todo, some ⟨call, .sync (.lock m) k, i⟩, done⟩)
      (howner : c.monitor.owner m = some u)
  | parked {cv} (hmode : c.monitor.mode t = .parked cv)
  | woken {call k i todo done m cv busy u}
      (h : c.thread t = ⟨todo, some ⟨call, .sync (.waitWhile m cv busy) k, i⟩, done⟩)
      (hmode : c.monitor.mode t = .woken) (howner : c.monitor.owner m = some u)

/-- Calls are left, and every thread that has one waits for another thread. -/
def Deadlocked (c : ThreadConfig τ Call Act Res M C κ ι σ α) : Prop :=
  (∃ t, c.Unfinished t) ∧ ∀ t, c.Unfinished t → Blocked c t

/-- There is no deadlock when nobody waits at a condition variable and every owner of a mutex is in a
call and locks mutexes of higher ranks only, as long as the ranks are bounded. -/
theorem not_deadlocked_of_rank {c : ThreadConfig τ Call Act Res M C κ ι σ α} {n : Nat}
    (hrank : ∀ m, rank m ≤ n) (hquiet : c.monitor.Quiet)
    (howner : ∀ m t, c.monitor.owner m = some t → (c.thread t).frame ≠ none ∧
      ∀ {todo call m' k i done}, c.thread t = ⟨todo, some ⟨call, .sync (.lock m') k, i⟩, done⟩ →
        rank m < rank m') : ¬ Deadlocked c := by
  rintro ⟨⟨t, ht⟩, hall⟩
  -- whom a blocked thread waits for
  have hwaits : ∀ t, c.Unfinished t → ∃ m u todo call k i done, c.monitor.owner m = some u ∧
      c.thread t = ⟨todo, some ⟨call, .sync (.lock m) k, i⟩, done⟩ := by
    intro t ht
    cases hall t ht with
    | lock hth howner => exact ⟨_, _, _, _, _, _, _, howner, hth⟩
    | parked hmode => cases (hquiet t).symm.trans hmode
    | woken _ hmode _ => cases (hquiet t).symm.trans hmode
  -- along the threads that wait for each other the ranks grow
  have hno : ∀ j m u, c.monitor.owner m = some u → n - rank m ≤ j → False := by
    intro j
    induction j with
    | zero =>
      intro m u hm hj
      obtain ⟨hframe, hnext⟩ := howner m u hm
      obtain ⟨m', w, _, _, _, _, _, -, hth⟩ := hwaits u (.inr hframe)
      have hlt := hnext hth
      have hle := hrank m'
      omega
    | succ j ih =>
      intro m u hm hj
      obtain ⟨hframe, hnext⟩ := howner m u hm
      obtain ⟨m', w, _, _, _, _, _, hm', hth⟩ := hwaits u (.inr hframe)
      have hlt := hnext hth
      exact ih m' w hm' (by omega)
  obtain ⟨m, u, _, _, _, _, _, hm, -⟩ := hwaits t ht
  exact hno _ m u hm le_rfl

/-! ## The invariant -/

section Invariant

variable [Calls Call (MonitorSig Act Res M C κ) ι α]

/-- Where a thread is that has locked `held`, when the variables are `v`; `first` is the first mutex
of each call. -/
inductive Placed (rank : M → Nat) (guards : M → κ → ρ) (J : ρ → Prop) (first : Call → M) (v : κ) :
    Thread Call (MonitorSig Act Res M C κ) ι α → List M → Prop where
  | idle {todo done} : Placed rank guards J first v ⟨todo, none, done⟩ []
  | before {call i todo done}
      (hcode : OrderedBy rank guards (first call) J
        (Calls.code call : Prog (MonitorSig Act Res M C κ) α)) :
      Placed rank guards J first v ⟨todo, some ⟨call, Calls.code call, i⟩, done⟩ []
  | inside {call p i todo done held} (hbottom : held.getLast? = some (first call))
      (hfollows : Follows (ordered rank guards (first call)) p (fun _ x => x.1 = [] ∧ J x.2)
        (held, guards (first call) v)) :
      Placed rank guards J first v ⟨todo, some ⟨call, p, i⟩, done⟩ held
  | after {call a i todo done} : Placed rank guards J first v ⟨todo, some ⟨call, .ret a, i⟩, done⟩ []

variable {first : Call → M} {v v' : κ} {held : List M}
variable {th : Thread Call (MonitorSig Act Res M C κ) ι α}

-- A thread does not see changes of variables that its mutexes do not guard.
theorem Placed.congr (h : Placed rank guards J first v th held)
    (hv : ∀ m ∈ held, guards m v' = guards m v) : Placed rank guards J first v' th held := by
  cases h with
  | idle => exact .idle
  | before hcode => exact .before hcode
  | after => exact .after
  | inside hbottom hfollows =>
    refine .inside hbottom ?_
    rwa [hv _ (List.mem_of_getLast? hbottom)]

/-- No thread waits at a condition variable, each has locked what the rest of its call expects, and
`J` holds of what no call under its first mutex is working on. -/
structure Orderly (rank : M → Nat) (guards : M → κ → ρ) (J : ρ → Prop) (first : Call → M)
    (c : ThreadConfig τ Call Act Res M C κ ι σ α) : Prop where
  quiet : c.monitor.Quiet
  todo : ∀ t, ∀ call ∈ (c.thread t).todo, OrderedBy rank guards (first call) J
    (Calls.code call : Prog (MonitorSig Act Res M C κ) α)
  placed : ∀ t, ∃ held, held.Nodup ∧ (∀ m, c.monitor.owner m = some t ↔ m ∈ held) ∧
    Placed rank guards J first c.monitor.vars (c.thread t) held
  idle : ∀ m, J (guards m c.monitor.vars) ∨
    ∃ t f, (c.thread t).frame = some f ∧ first f.call = m ∧ c.monitor.owner m = some t

variable {c c' : ThreadConfig τ Call Act Res M C κ ι σ α} {t u : τ}

-- What a mutex guards that no thread has.
theorem Orderly.idle_of_free (h : Orderly rank guards J first c) {m : M}
    (hfree : c.monitor.owner m = none) : J (guards m c.monitor.vars) := by
  rcases h.idle m with hJ | ⟨u, -, -, -, hm⟩
  · exact hJ
  · cases hfree.symm.trans hm

section Step
variable [DecidableEq τ]

-- What a step of thread `t` has to preserve.
theorem Orderly.of_step (h : Orderly rank guards J first c)
    (hthread : c'.thread = Function.update c.thread t th) (hquiet : c'.monitor.Quiet)
    (htodo : ∀ call ∈ th.todo, call ∈ (c.thread t).todo) (hnodup : held.Nodup)
    (howner : ∀ m, c'.monitor.owner m = some t ↔ m ∈ held)
    (hplaced : Placed rank guards J first c'.monitor.vars th held)
    (hothers : ∀ u ≠ t, ∀ m, c'.monitor.owner m = some u ↔ c.monitor.owner m = some u)
    (hvars : ∀ u ≠ t, ∀ m, c.monitor.owner m = some u →
      guards m c'.monitor.vars = guards m c.monitor.vars)
    (hidle : ∀ m, (J (guards m c.monitor.vars) ∨
        ∃ f, (c.thread t).frame = some f ∧ first f.call = m ∧ c.monitor.owner m = some t) →
      J (guards m c'.monitor.vars) ∨
        ∃ f, th.frame = some f ∧ first f.call = m ∧ c'.monitor.owner m = some t) :
    Orderly rank guards J first c' := by
  have hself : c'.thread t = th := by rw [hthread, Function.update_self]
  have hother : ∀ u ≠ t, c'.thread u = c.thread u := fun u hu => by
    rw [hthread, Function.update_of_ne hu]
  refine ⟨hquiet, fun u => ?_, fun u => ?_, fun m => ?_⟩
  · by_cases hu : u = t
    · subst hu
      rw [hself]
      exact fun call hcall => h.todo u call (htodo call hcall)
    · rw [hother u hu]
      exact h.todo u
  · by_cases hu : u = t
    · subst hu
      exact ⟨held, hnodup, howner, hself ▸ hplaced⟩
    · obtain ⟨held', hnodup', howner', hplaced'⟩ := h.placed u
      refine ⟨held', hnodup', fun m => (hothers u hu m).trans (howner' m), hother u hu ▸ ?_⟩
      exact hplaced'.congr fun m hm => hvars u hu m ((howner' m).mpr hm)
  · have hkeep : J (guards m c'.monitor.vars) ∨
        (∃ f, th.frame = some f ∧ first f.call = m ∧ c'.monitor.owner m = some t) →
        J (guards m c'.monitor.vars) ∨ ∃ u f, (c'.thread u).frame = some f ∧ first f.call = m ∧
          c'.monitor.owner m = some u := by
      rintro (hJ | ⟨f, hf, hfirst, hm⟩)
      · exact .inl hJ
      · exact .inr ⟨t, f, hself ▸ hf, hfirst, hm⟩
    rcases h.idle m with hJ | ⟨u, f, hf, hfirst, hm⟩
    · exact hkeep (hidle m (.inl hJ))
    · by_cases hu : u = t
      · subst hu
        exact hkeep (hidle m (.inr ⟨f, hf, hfirst, hm⟩))
      · exact .inr ⟨u, f, hother u hu ▸ hf, hfirst, (hothers u hu m).mpr hm⟩

-- The same for a thread that stays in its call.
theorem Orderly.of_frame {p k : Prog (MonitorSig Act Res M C κ) α} {call : Call} {i j : ι}
    {todo : List Call} {done : List α} (h : Orderly rank guards J first c)
    (hth : c.thread t = ⟨todo, some ⟨call, p, i⟩, done⟩)
    (hthread : c'.thread = Function.update c.thread t ⟨todo, some ⟨call, k, j⟩, done⟩)
    (hquiet : c'.monitor.Quiet) (hnodup : held.Nodup)
    (howner : ∀ m, c'.monitor.owner m = some t ↔ m ∈ held)
    (hplaced : Placed rank guards J first c'.monitor.vars ⟨todo, some ⟨call, k, j⟩, done⟩ held)
    (hothers : ∀ u ≠ t, ∀ m, c'.monitor.owner m = some u ↔ c.monitor.owner m = some u)
    (hvars : ∀ u ≠ t, ∀ m, c.monitor.owner m = some u →
      guards m c'.monitor.vars = guards m c.monitor.vars)
    (hidle : ∀ m, J (guards m c.monitor.vars) ∨ first call = m ∧ c.monitor.owner m = some t →
      J (guards m c'.monitor.vars) ∨ first call = m ∧ c'.monitor.owner m = some t) :
    Orderly rank guards J first c' := by
  refine h.of_step hthread hquiet (fun call' hcall' => ?_) hnodup howner hplaced hothers hvars
    fun m hm => ?_
  · rw [hth]
    exact hcall'
  · refine (hidle m (hm.imp_right ?_)).imp_right fun h => ⟨_, rfl, h⟩
    rintro ⟨f, hf, hfirst, hm⟩
    rw [hth] at hf
    cases hf
    exact ⟨hfirst, hm⟩

-- What else a thread does changes neither mutexes nor variables.
theorem Orderly.proceed {p k : Prog (MonitorSig Act Res M C κ) α} {call : Call} {i j : ι}
    {todo : List Call} {done : List α} {s : σ} (h : Orderly rank guards J first c)
    (hth : c.thread t = ⟨todo, some ⟨call, p, i⟩, done⟩) (hnodup : held.Nodup)
    (howner : ∀ m, c.monitor.owner m = some t ↔ m ∈ held)
    (hplaced : Placed rank guards J first c.monitor.vars ⟨todo, some ⟨call, k, j⟩, done⟩ held) :
    Orderly rank guards J first
      ({ c with store := s }.setThread t ⟨todo, some ⟨call, k, j⟩, done⟩) :=
  h.of_frame hth rfl h.quiet hnodup howner hplaced (fun _ _ _ => Iff.rfl) (fun _ _ _ _ => rfl)
    fun _ => id

variable [DecidableEq M]

-- Nobody waits at a condition variable.
theorem Orderly.not_stays {s : MonitorOp M C κ} {k : Prog (MonitorSig Act Res M C κ) α}
    {call : Call} {i : ι} {todo : List Call} {done : List α} {mon : Monitor τ M C κ}
    (h : Orderly rank guards J first c)
    (hth : c.thread t = ⟨todo, some ⟨call, .sync s k, i⟩, done⟩) :
    ¬ c.monitor.Stays t s mon := by
  obtain ⟨held, -, -, hplaced⟩ := h.placed t
  intro hs
  cases hs with
  | spurious hmode => cases (h.quiet t).symm.trans hmode
  | retake hmode _ => cases (h.quiet t).symm.trans hmode
  | park _ hbusy =>
    generalize heq : c.thread t = th at hplaced
    cases hplaced with
    | idle => cases hth.symm.trans heq
    | after => cases hth.symm.trans heq
    | before hcode =>
      obtain ⟨k', hk, -⟩ := hcode
      rw [hk] at heq
      cases hth.symm.trans heq
    | inside _ hfollows =>
      cases hth.symm.trans heq
      rw [hfollows.2.1 _ rfl] at hbusy
      cases hbusy

section Operations

variable {p k : Prog (MonitorSig Act Res M C κ) α} {call : Call} {i : ι} {todo : List Call}
variable {done : List α} {m' : M} {rest : List M}

theorem Orderly.lock (h : Orderly rank guards J first c)
    (hth : c.thread t = ⟨todo, some ⟨call, p, i⟩, done⟩) (hnodup : held.Nodup)
    (howner : ∀ m, c.monitor.owner m = some t ↔ m ∈ held) (hfree : c.monitor.owner m' = none)
    (hplaced : Placed rank guards J first c.monitor.vars ⟨todo, some ⟨call, k, i⟩, done⟩
      (m' :: held)) :
    Orderly rank guards J first ({ c with monitor := c.monitor.setOwner m' (some t) }.setThread t
      ⟨todo, some ⟨call, k, i⟩, done⟩) := by
  have hnone : ∀ u, c.monitor.owner m' ≠ some u := fun u hu => by cases hfree.symm.trans hu
  have hnew : m' ∉ held := fun hm => hnone t ((howner m').mpr hm)
  refine h.of_frame hth rfl h.quiet (List.nodup_cons.mpr ⟨hnew, hnodup⟩)
    (Monitor.owner_setOwner_some_iff howner m') hplaced (fun u hu m => ?_) (fun _ _ _ _ => rfl)
    fun m hm => ?_
  · exact Monitor.owner_setOwner_other (fun hc => hu (Option.some.inj hc).symm) (hnone u) m
  · refine hm.imp_right fun hm => ⟨hm.1, ?_⟩
    have hne : m ≠ m' := fun hc => hnone t (hc ▸ hm.2)
    exact (Monitor.owner_setOwner_ne _ _ hne).trans hm.2

-- A call that unlocks its first mutex restores `J`.
theorem Orderly.unlock (h : Orderly rank guards J first c)
    (hth : c.thread t = ⟨todo, some ⟨call, p, i⟩, done⟩) (hnodup : (m' :: rest).Nodup)
    (howner : ∀ m, c.monitor.owner m = some t ↔ m ∈ m' :: rest)
    (hplaced : Placed rank guards J first c.monitor.vars ⟨todo, some ⟨call, k, i⟩, done⟩ rest)
    (hidle : first call ∈ rest ∨ J (guards (first call) c.monitor.vars)) :
    Orderly rank guards J first ({ c with monitor := c.monitor.setOwner m' none }.setThread t
      ⟨todo, some ⟨call, k, i⟩, done⟩) := by
  obtain ⟨hnot, hnodup'⟩ := List.nodup_cons.mp hnodup
  have hmine : c.monitor.owner m' = some t := (howner m').mpr (List.mem_cons_self ..)
  have howner' := Monitor.owner_setOwner_none_iff hnot howner
  refine h.of_frame hth rfl h.quiet hnodup' howner' hplaced (fun u hu m => ?_) (fun _ _ _ _ => rfl)
    fun m hm => ?_
  · exact Monitor.owner_setOwner_other (o := none) nofun
      (fun hc => hu (Option.some.inj (hc.symm.trans hmine))) m
  · rcases hm with hm | ⟨rfl, -⟩
    · exact .inl hm
    · rcases hidle with hrest | hJ
      · exact .inr ⟨rfl, (howner' _).mpr hrest⟩
      · exact .inl hJ

theorem Orderly.update {f : κ → κ} (h : Orderly rank guards J first c)
    (hth : c.thread t = ⟨todo, some ⟨call, p, i⟩, done⟩) (hnodup : held.Nodup)
    (howner : ∀ m, c.monitor.owner m = some t ↔ m ∈ held) (hfirst : first call ∈ held)
    (hguards : ∀ m ≠ first call, ∀ v, guards m (f v) = guards m v)
    (hplaced : Placed rank guards J first (f c.monitor.vars) ⟨todo, some ⟨call, k, i⟩, done⟩
      held) :
    Orderly rank guards J first
      ({ c with monitor := { c.monitor with vars := f c.monitor.vars } }.setThread t
        ⟨todo, some ⟨call, k, i⟩, done⟩) := by
  have hmine : c.monitor.owner (first call) = some t := (howner _).mpr hfirst
  refine h.of_frame hth rfl h.quiet hnodup howner hplaced (fun _ _ _ => Iff.rfl)
    (fun u hu m hm => hguards m ?_ _) fun m hm => ?_
  · rintro rfl
    exact hu (Option.some.inj (hm.symm.trans hmine))
  · by_cases hcall : first call = m
    · exact .inr ⟨hcall, hcall ▸ hmine⟩
    · refine .inl ?_
      rcases hm with hm | ⟨hfirst', -⟩
      · exact (hguards m (Ne.symm hcall) c.monitor.vars).symm ▸ hm
      · exact absurd hfirst' hcall

end Operations

variable [DecidableEq C]

-- The thread is through with an operation on a mutex or on the variables.
theorem Orderly.pass {s : MonitorOp M C κ} {k : Prog (MonitorSig Act Res M C κ) α} {call : Call}
    {i : ι} {todo : List Call} {done : List α} {mon : Monitor τ M C κ}
    (h : Orderly rank guards J first c)
    (hth : c.thread t = ⟨todo, some ⟨call, .sync s k, i⟩, done⟩) (hs : c.monitor.Passes t s mon) :
    Orderly rank guards J first
      ({ c with monitor := mon }.setThread t ⟨todo, some ⟨call, k, i⟩, done⟩) := by
  obtain ⟨held, hnodup, howner, hplaced⟩ := h.placed t
  generalize heq : c.thread t = th at hplaced
  cases hplaced with
  | idle => cases hth.symm.trans heq
  | after => cases hth.symm.trans heq
  | before hcode =>
    obtain ⟨k', hk, hfollows⟩ := hcode
    rw [hk] at heq
    cases hth.symm.trans heq
    cases hs with
    | lock hfree =>
      exact h.lock hth hnodup howner hfree (.inside rfl (hfollows _ (h.idle_of_free hfree)))
  | inside hbottom hfollows =>
    cases hth.symm.trans heq
    cases hs with
    | lock hfree =>
      obtain ⟨-, -, hk⟩ := hfollows
      refine h.lock hth hnodup howner hfree (.inside ?_ hk)
      rw [List.getLast?_cons, hbottom, Option.getD_some]
    | unlock =>
      obtain ⟨rest, rfl, hk⟩ := hfollows
      cases rest with
      | nil =>
        -- the first mutex itself: nothing is left of the call, and `J` holds again
        obtain ⟨a, rfl, -, hJ⟩ := ordered_nil hk
        exact h.unlock hth hnodup howner .after (.inr hJ)
      | cons m₁ rest =>
        rw [List.getLast?_cons_cons] at hbottom
        exact h.unlock hth hnodup howner (.inside hbottom hk) (.inl (List.mem_of_getLast? hbottom))
    | @update f =>
      obtain ⟨-, hguards, y, hy, hk⟩ := hfollows
      have hcall : guards (first call) (f c.monitor.vars) = y := hy _ rfl
      exact h.update hth hnodup howner (List.mem_of_getLast? hbottom) hguards
        (.inside hbottom (hcall.symm ▸ hk))
    | loopEnd _ _ => exact h.proceed hth hnodup howner (.inside hbottom hfollows.2.2)
    | nobody _ => exact h.proceed hth hnodup howner (.inside hbottom hfollows.2)
    | signalLost _ _ => exact h.proceed hth hnodup howner (.inside hbottom hfollows.2)
    | signal _ hu => cases (h.quiet _).symm.trans hu
    | broadcast _ =>
      rw [h.quiet.wakeAll]
      exact h.proceed hth hnodup howner (.inside hbottom hfollows.2)

variable [Store (MonitorSig Act Res M C κ) ι σ] {l : Label τ Call Act (MonitorOp M C κ)}

-- The step lemma.
theorem Orderly.step (h : Orderly rank guards J first c) (hs : Step c l c') :
    Orderly rank guards J first c' := by
  cases hs with
  | pass hth hpass => exact h.pass hth hpass
  | stay hth hstay => exact absurd hstay (h.not_stays hth)
  | @begin t call todo done hth =>
    obtain ⟨held, hnodup, howner, hplaced⟩ := h.placed t
    have hcode := h.todo t call (by rw [hth]; exact List.mem_cons_self ..)
    rw [hth] at hplaced
    cases hplaced
    refine h.of_step rfl h.quiet (fun call' hcall' => ?_) hnodup howner (.before hcode)
      (fun _ _ _ => Iff.rfl) (fun _ _ _ _ => rfl) fun m hm => .inl ?_
    · rw [hth]
      exact List.mem_cons_of_mem _ hcall'
    · rcases hm with hm | ⟨f, hf, -⟩
      · exact hm
      · rw [hth] at hf
        cases hf
  | @act t call a k i todo done hth =>
    obtain ⟨held, hnodup, howner, hplaced⟩ := h.placed t
    generalize heq : c.thread t = th at hplaced
    cases hplaced with
    | idle => cases hth.symm.trans heq
    | after => cases hth.symm.trans heq
    | before hcode =>
      obtain ⟨k', hk, -⟩ := hcode
      rw [hk] at heq
      cases hth.symm.trans heq
    | inside hbottom hfollows =>
      cases hth.symm.trans heq
      exact h.proceed hth hnodup howner (.inside hbottom (hfollows.2 _))
  | @«return» t call a i todo done hth =>
    obtain ⟨held, hnodup, howner, hplaced⟩ := h.placed t
    have hnil : held = [] := by
      generalize heq : c.thread t = th at hplaced
      cases hplaced with
      | idle => rfl
      | after => rfl
      | before _ => rfl
      | inside _ hfollows =>
        cases hth.symm.trans heq
        exact hfollows.1
    subst hnil
    refine h.of_step rfl h.quiet (fun call' hcall' => ?_) hnodup howner .idle
      (fun _ _ _ => Iff.rfl) (fun _ _ _ _ => rfl) fun m hm => .inl ?_
    · rw [hth]
      exact hcall'
    · rcases hm with hm | ⟨-, -, -, hm⟩
      · exact hm
      · exact absurd ((howner m).mp hm) List.not_mem_nil

/-- The run lemma. -/
theorem orderly_of_run {s₀ : σ} {v : κ} {calls : τ → List Call}
    {ls : List (Label τ Call Act (MonitorOp M C κ))}
    (hcode : ∀ t, ∀ call ∈ calls t, OrderedBy rank guards (first call) J
      (Calls.code call : Prog (MonitorSig Act Res M C κ) α))
    (hJ : ∀ m, J (guards m v)) (hrun : Run (Config.start s₀ v calls) ls c) :
    Orderly rank guards J first c := by
  induction hrun with
  | nil =>
    refine ⟨fun _ => rfl, hcode, fun t => ⟨[], List.nodup_nil, fun m => ?_, .idle⟩,
      fun m => .inl (hJ m)⟩
    simp only [Config.start, reduceCtorEq, List.not_mem_nil]
  | snoc _ hs ih => exact ih.step hs

end Step

-- A mutex that a thread has: the thread is in a call, and the mutexes that it locks next have a
-- higher rank.
theorem Orderly.owner (h : Orderly rank guards J first c) (hm : c.monitor.owner m = some t) :
    (c.thread t).frame ≠ none ∧
      ∀ {todo call m' k i done}, c.thread t = ⟨todo, some ⟨call, .sync (.lock m') k, i⟩, done⟩ →
        rank m < rank m' := by
  obtain ⟨held, -, howner, hplaced⟩ := h.placed t
  have hmem := (howner m).mp hm
  generalize c.thread t = th at hplaced
  cases hplaced with
  | idle => cases hmem
  | before _ => cases hmem
  | after => cases hmem
  | inside _ hfollows =>
    refine ⟨nofun, fun heq => ?_⟩
    cases heq
    exact hfollows.2.1 m hmem

-- A call that comes to its end has nothing locked.
theorem Orderly.not_owner_of_ret {todo : List Call} {call : Call} {a : α} {i : ι} {done : List α}
    (h : Orderly rank guards J first c) (hth : c.thread t = ⟨todo, some ⟨call, .ret a, i⟩, done⟩)
    (m : M) : c.monitor.owner m ≠ some t := by
  obtain ⟨held, -, howner, hplaced⟩ := h.placed t
  rw [ne_eq, howner]
  generalize heq : c.thread t = th at hplaced
  cases hplaced with
  | idle => exact List.not_mem_nil
  | before _ => exact List.not_mem_nil
  | after => exact List.not_mem_nil
  | inside _ hfollows =>
    cases hth.symm.trans heq
    rw [show held = [] from hfollows.1]
    exact List.not_mem_nil

-- A call that unlocks its first mutex comes to its end.
theorem Orderly.ret_of_unlock {todo : List Call} {call : Call} {i : ι} {done : List α}
    {k : Prog (MonitorSig Act Res M C κ) α} (h : Orderly rank guards J first c)
    (hth : c.thread t = ⟨todo, some ⟨call, .sync (.unlock (first call)) k, i⟩, done⟩) :
    ∃ a, k = .ret a := by
  obtain ⟨held, hnodup, -, hplaced⟩ := h.placed t
  generalize heq : c.thread t = th at hplaced
  cases hplaced with
  | idle => cases hth.symm.trans heq
  | after => cases hth.symm.trans heq
  | before hcode =>
    obtain ⟨k', hk, -⟩ := hcode
    rw [hk] at heq
    cases hth.symm.trans heq
  | inside hbottom hfollows =>
    cases hth.symm.trans heq
    obtain ⟨rest, rfl, hk⟩ := hfollows
    obtain ⟨hnot, -⟩ := List.nodup_cons.mp hnodup
    cases rest with
    | nil =>
      obtain ⟨a, ha, -⟩ := ordered_nil hk
      exact ⟨a, ha⟩
    | cons m rest =>
      rw [List.getLast?_cons_cons] at hbottom
      exact absurd (List.mem_of_getLast? hbottom) hnot

/-- There is no deadlock when the ranks are bounded. -/
theorem Orderly.not_deadlocked {n : Nat} (hrank : ∀ m, rank m ≤ n)
    (h : Orderly rank guards J first c) : ¬ Deadlocked c :=
  not_deadlocked_of_rank hrank h.quiet fun _ _ hm => h.owner hm

/-- While no call is in progress, every mutex is unlocked. -/
theorem Orderly.unlocked (h : Orderly rank guards J first c)
    (hnone : ∀ t, (c.thread t).frame = none) (m : M) : c.monitor.owner m = none := by
  cases hm : c.monitor.owner m with
  | none => rfl
  | some t => exact absurd (hnone t) (h.owner hm).1

end Invariant

end Prog
