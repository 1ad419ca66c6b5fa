import InodeFs.Prog.Ending

/-!
# Calls that lock in sections

A call may lock several mutexes one after the other, and act on the store without any.  Its sections
start when it locks a mutex while it has none, and end when it has none again; within a section it
keeps to the order of the ranks, changes only the variables that the first mutex of the section
guards, and never finds its waiting loops busy.  Finitely many threads with such calls come to an
end, whatever the interleaving.
-/

namespace Prog

variable {τ Call Act M C κ ι σ α β ρ : Type} {Res : Act → Type}

/-! ## The discipline -/

section Discipline
variable (rank : M → Nat) (guards : M → κ → ρ) (J : ρ → Prop) (mayDie : Prop)

/-- The rules, on the mutexes that are locked, the last one first, and on the variables that the
first one guards.  Outside of sections these may be any. -/
def inSections : Ghost (MonitorSig Act Res M C κ) (List M × ρ) where
  act _ P x := ∀ r, P r x
  sync
    | .lock m, P, x => (∀ h ∈ x.1, rank h < rank m) ∧ (x.1 = [] → ∀ v, J v → P ([m], v)) ∧
        (x.1 ≠ [] → P (m :: x.1, x.2))
    | .unlock m, P, x => ∃ rest, x.1 = m :: rest ∧ (rest = [] → J x.2) ∧ P (rest, x.2)
    | .update f, P, x => ∃ m, x.1.getLast? = some m ∧
        (∀ m' ≠ m, ∀ v, guards m' (f v) = guards m' v) ∧
        ∃ y, (∀ v, guards m v = x.2 → guards m (f v) = y) ∧ P (x.1, y)
    | .waitWhile _ _ busy, P, x => ∃ m, x.1.getLast? = some m ∧
        (∀ v, guards m v = x.2 → busy v = false) ∧ P x
    | .wake _, P, x => P x
  act_mono hPQ h r := hPQ _ _ (h r)
  sync_mono {s P Q x} hPQ h := by
    cases s with
    | lock m => exact ⟨h.1, fun hx v hv => hPQ _ (h.2.1 hx v hv), fun hx => hPQ _ (h.2.2 hx)⟩
    | unlock m => exact ⟨h.choose, h.choose_spec.1, h.choose_spec.2.1, hPQ _ h.choose_spec.2.2⟩
    | update f =>
      obtain ⟨m, hm, hothers, y, hy, hP⟩ := h
      exact ⟨m, hm, hothers, y, hy, hPQ _ hP⟩
    | waitWhile m cv busy =>
      obtain ⟨hm, hhead, hbusy, hP⟩ := h
      exact ⟨hm, hhead, hbusy, hPQ _ hP⟩
    | wake whom => exact hPQ _ h
  dies x := mayDie ∧ x.1 = []

/-- The program starts and ends outside of sections; it dies there if at all, and only if it may. -/
def InSections (p : Prog (MonitorSig Act Res M C κ) α) : Prop :=
  ∀ y, Follows (inSections rank guards J mayDie) p (fun _ x => x.1 = []) ([], y)

end Discipline

variable {rank : M → Nat} {guards : M → κ → ρ} {J : ρ → Prop} {mayDie : Prop}

namespace InSections

variable {p : Prog (MonitorSig Act Res M C κ) α}

theorem ret (a : α) :
    InSections rank guards J mayDie (.ret a : Prog (MonitorSig Act Res M C κ) α) := fun _ => rfl

theorem abort (h : mayDie) :
    InSections rank guards J mayDie (.abort : Prog (MonitorSig Act Res M C κ) α) :=
  fun _ => ⟨h, rfl⟩

theorem bind {f : α → Prog (MonitorSig Act Res M C κ) β} (hp : InSections rank guards J mayDie p)
    (hf : ∀ a, InSections rank guards J mayDie (f a)) :
    InSections rank guards J mayDie (p >>= f) := by
  intro y
  refine Follows.bind ((hp y).mono fun a x hx => ?_)
  obtain ⟨held, z⟩ := x
  subst hx
  exact hf a z

end InSections

/-- A call that keeps its first mutex to its end is one section. -/
theorem OrderedBy.inSections {m : M} {p : Prog (MonitorSig Act Res M C κ) α}
    (h : OrderedBy rank guards m J p) : InSections rank guards J mayDie p := by
  obtain ⟨k, rfl, hk⟩ := h
  -- the rest of the call, while `m` is locked first
  have hrest : ∀ (q : Prog (MonitorSig Act Res M C κ) α) (held : List M) (y : ρ),
      held.getLast? = some m →
      Follows (ordered rank guards m) q (fun _ x => x.1 = [] ∧ J x.2) (held, y) →
      Follows (Prog.inSections rank guards J mayDie) q (fun _ x => x.1 = []) (held, y) := by
    intro q
    induction q with
    | ret a => exact fun held y _ hq => hq.1
    | abort => exact fun held y _ hq => hq.elim
    | act a k ih => exact fun held y hlast hq r => ih r held y hlast (hq.2 r)
    | sync s k ih =>
      intro held y hlast hq
      cases s with
      | lock m' =>
        obtain ⟨hne, hrank, hk⟩ := hq
        refine ⟨hrank, fun hnil => absurd hnil hne, fun _ => ih _ y ?_ hk⟩
        rw [List.getLast?_cons_of_ne_nil hne, hlast]
      | unlock m' =>
        obtain ⟨rest, rfl, hk⟩ := hq
        cases rest with
        | nil =>
          obtain ⟨a, rfl, -, hJ⟩ := ordered_nil hk
          exact ⟨[], rfl, fun _ => hJ, rfl⟩
        | cons m₁ rest =>
          rw [List.getLast?_cons_cons] at hlast
          exact ⟨m₁ :: rest, rfl, nofun, ih _ y hlast hk⟩
      | update f =>
        obtain ⟨-, hothers, z, hz, hk⟩ := hq
        exact ⟨m, hlast, hothers, z, hz, ih held z hlast hk⟩
      | waitWhile m' cv busy =>
        obtain ⟨-, hbusy, hk⟩ := hq
        exact ⟨m, hlast, hbusy, ih held y hlast hk⟩
      | wake whom => exact ih held y hlast hq.2
  exact fun y => ⟨fun _ hm => absurd hm List.not_mem_nil, fun _ v hv => hrest k [m] v rfl (hk v hv),
    fun hne => absurd rfl hne⟩

/-! ## The invariant -/

section Invariant

variable {dying : Call → Prop}

/-- Where a thread is that has locked `held`, when the variables are `v`. -/
inductive Locking (rank : M → Nat) (guards : M → κ → ρ) (J : ρ → Prop) (dying : Call → Prop) (v : κ) :
    Thread Call (MonitorSig Act Res M C κ) ι α → List M → Prop where
  | idle {todo done} : Locking rank guards J dying v ⟨todo, none, done⟩ []
  | inCall {call p i todo done held x} (hvars : ∀ m, held.getLast? = some m → guards m v = x)
      (hfollows : Follows (inSections rank guards J (dying call)) p (fun _ x => x.1 = []) (held, x)) :
      Locking rank guards J dying v ⟨todo, some ⟨call, p, i⟩, done⟩ held

variable {v v' : κ} {held : List M} {th : Thread Call (MonitorSig Act Res M C κ) ι α}

-- A thread does not see changes of variables that its mutexes do not guard.
theorem Locking.congr (h : Locking rank guards J dying v th held)
    (hv : ∀ m ∈ held, guards m v' = guards m v) : Locking rank guards J dying v' th held := by
  cases h with
  | idle => exact .idle
  | inCall hvars hfollows =>
    refine .inCall (fun m hm => ?_) hfollows
    rw [hv m (List.mem_of_getLast? hm)]
    exact hvars m hm

variable [Calls Call (MonitorSig Act Res M C κ) ι α]

/-- Nobody waits at a condition variable, thread `t` has locked `held t`, as the rest of its call
expects, and `J` holds of what no section is working on. -/
structure Sectioned (rank : M → Nat) (guards : M → κ → ρ) (J : ρ → Prop) (dying : Call → Prop)
    (held : τ → List M) (c : ThreadConfig τ Call Act Res M C κ ι σ α) : Prop where
  quiet : c.monitor.Quiet
  todo : ∀ t, ∀ call ∈ (c.thread t).todo, InSections rank guards J (dying call)
    (Calls.code call : Prog (MonitorSig Act Res M C κ) α)
  nodup : ∀ t, (held t).Nodup
  owner : ∀ t m, c.monitor.owner m = some t ↔ m ∈ held t
  locking : ∀ t, Locking rank guards J dying c.monitor.vars (c.thread t) (held t)
  idle : ∀ m, (∀ t, (held t).getLast? ≠ some m) → J (guards m c.monitor.vars)

variable {c c' : ThreadConfig τ Call Act Res M C κ ι σ α} {locks : τ → List M} {t u : τ}

-- What a mutex guards that no thread has.
theorem Sectioned.idle_of_free (h : Sectioned rank guards J dying locks c) {m : M}
    (hfree : c.monitor.owner m = none) : J (guards m c.monitor.vars) := by
  refine h.idle m fun t ht => ?_
  cases hfree.symm.trans ((h.owner t m).mpr (List.mem_of_getLast? ht))

-- A mutex that a thread has: the thread is in a call, and the mutexes that it locks next have a
-- higher rank.
theorem Sectioned.owner_locks (h : Sectioned rank guards J dying locks c) {m : M}
    (hm : c.monitor.owner m = some t) :
    (c.thread t).frame ≠ none ∧
      ∀ {todo call m' k i done}, c.thread t = ⟨todo, some ⟨call, .sync (.lock m') k, i⟩, done⟩ →
        rank m < rank m' := by
  have hmem := (h.owner t m).mp hm
  have hlocking := h.locking t
  generalize locks t = held at hmem hlocking
  generalize c.thread t = th at hlocking
  cases hlocking with
  | idle => cases hmem
  | inCall _ hfollows =>
    refine ⟨nofun, fun heq => ?_⟩
    cases heq
    exact hfollows.1 m hmem

-- The process dies in a call that may die.
theorem Sectioned.dying_of_diesIn {f : Frame Call (MonitorSig Act Res M C κ) ι α}
    (h : Sectioned rank guards J dying locks c) (hf : c.DiesIn t f) : dying f.call := by
  obtain ⟨call, p, i⟩ := f
  obtain ⟨hframe, rfl : p = .abort⟩ := hf
  have hlocking := h.locking t
  generalize locks t = held at hlocking
  generalize c.thread t = th at hframe hlocking
  cases hlocking with
  | idle => cases hframe
  | inCall _ hfollows =>
    cases hframe
    exact hfollows.1

/-- Some thread that has calls left need not wait. -/
theorem Sectioned.not_deadlocked {n : Nat} (h : Sectioned rank guards J dying locks c)
    (hrank : ∀ m, rank m ≤ n) : ¬ Deadlocked c :=
  not_deadlocked_of_rank hrank h.quiet fun _ _ hm => h.owner_locks hm

section Step
variable [DecidableEq τ]

-- What a step of thread `t` has to preserve.
theorem Sectioned.of_step (h : Sectioned rank guards J dying locks c)
    (hthread : c'.thread = Function.update c.thread t th) (hquiet : c'.monitor.Quiet)
    (htodo : ∀ call ∈ th.todo, call ∈ (c.thread t).todo) (hnodup : held.Nodup)
    (howner : ∀ m, c'.monitor.owner m = some t ↔ m ∈ held)
    (hlocking : Locking rank guards J dying c'.monitor.vars th held)
    (hothers : ∀ u ≠ t, ∀ m, c'.monitor.owner m = some u ↔ c.monitor.owner m = some u)
    (hvars : ∀ u ≠ t, ∀ m, c.monitor.owner m = some u →
      guards m c'.monitor.vars = guards m c.monitor.vars)
    (hidle : ∀ m, held.getLast? ≠ some m →
      ((locks t).getLast? ≠ some m → J (guards m c.monitor.vars)) → J (guards m c'.monitor.vars)) :
    Sectioned rank guards J dying (Function.update locks t held) c' := by
  have hlocks : ∀ u ≠ t, Function.update locks t held u = locks u := fun u hu =>
    Function.update_of_ne hu ..
  have hthreads : ∀ u ≠ t, c'.thread u = c.thread u := fun u hu => by
    rw [hthread, Function.update_of_ne hu]
  have hself : c'.thread t = th := by rw [hthread, Function.update_self]
  constructor
  · exact hquiet
  · intro u
    by_cases hu : u = t
    · subst hu
      rw [hself]
      exact fun call hcall => h.todo u call (htodo call hcall)
    · rw [hthreads u hu]
      exact h.todo u
  · intro u
    by_cases hu : u = t
    · subst hu
      rwa [Function.update_self]
    · rw [hlocks u hu]
      exact h.nodup u
  · intro u m
    by_cases hu : u = t
    · subst hu
      rw [Function.update_self]
      exact howner m
    · rw [hlocks u hu, hothers u hu]
      exact h.owner u m
  · intro u
    by_cases hu : u = t
    · subst hu
      rwa [Function.update_self, hself]
    · rw [hlocks u hu, hthreads u hu]
      exact (h.locking u).congr fun m hm => hvars u hu m ((h.owner u m).mpr hm)
  · intro m hm
    have ht := hm t
    rw [Function.update_self] at ht
    refine hidle m ht fun hlast => h.idle m fun u => ?_
    by_cases hu : u = t
    · subst hu
      exact hlast
    · have hmu := hm u
      rwa [hlocks u hu] at hmu

variable {p k : Prog (MonitorSig Act Res M C κ) α} {call : Call} {i j : ι} {todo : List Call}
variable {done : List α}

-- The same for a thread that stays in its call.
theorem Sectioned.of_frame (h : Sectioned rank guards J dying locks c)
    (hth : c.thread t = ⟨todo, some ⟨call, p, i⟩, done⟩)
    (hthread : c'.thread = Function.update c.thread t ⟨todo, some ⟨call, k, j⟩, done⟩)
    (hquiet : c'.monitor.Quiet) (hnodup : held.Nodup)
    (howner : ∀ m, c'.monitor.owner m = some t ↔ m ∈ held)
    (hlocking : Locking rank guards J dying c'.monitor.vars
      (⟨todo, some ⟨call, k, j⟩, done⟩ : Thread Call (MonitorSig Act Res M C κ) ι α) held)
    (hothers : ∀ u ≠ t, ∀ m, c'.monitor.owner m = some u ↔ c.monitor.owner m = some u)
    (hvars : ∀ u ≠ t, ∀ m, c.monitor.owner m = some u →
      guards m c'.monitor.vars = guards m c.monitor.vars)
    (hidle : ∀ m, held.getLast? ≠ some m →
      ((locks t).getLast? ≠ some m → J (guards m c.monitor.vars)) → J (guards m c'.monitor.vars)) :
    Sectioned rank guards J dying (Function.update locks t held) c' :=
  h.of_step hthread hquiet (fun _ hcall => hth ▸ hcall) hnodup howner hlocking hothers hvars hidle

-- What else a thread does changes neither mutexes nor variables.
theorem Sectioned.proceed {s : σ} {x : ρ} (h : Sectioned rank guards J dying locks c)
    (hth : c.thread t = ⟨todo, some ⟨call, p, i⟩, done⟩)
    (hx : ∀ m, (locks t).getLast? = some m → guards m c.monitor.vars = x)
    (hk : Follows (inSections rank guards J (dying call)) k (fun _ x => x.1 = []) (locks t, x)) :
    Sectioned rank guards J dying (Function.update locks t (locks t))
      ({ c with store := s }.setThread t ⟨todo, some ⟨call, k, j⟩, done⟩) :=
  h.of_frame hth rfl h.quiet (h.nodup t) (h.owner t) (.inCall hx hk) (fun _ _ _ => Iff.rfl)
    (fun _ _ _ _ => rfl) fun _ hm hJ => hJ hm

section Operations

variable {m : M} {rest : List M} {x y : ρ}

theorem Sectioned.update {f : κ → κ} (h : Sectioned rank guards J dying locks c)
    (hth : c.thread t = ⟨todo, some ⟨call, p, i⟩, done⟩) (hlast : (locks t).getLast? = some m)
    (hothers : ∀ m' ≠ m, ∀ v, guards m' (f v) = guards m' v)
    (hy : guards m (f c.monitor.vars) = y)
    (hk : Follows (inSections rank guards J (dying call)) k (fun _ x => x.1 = [])
      (locks t, y)) :
    Sectioned rank guards J dying (Function.update locks t (locks t))
      ({ c with monitor := { c.monitor with vars := f c.monitor.vars } }.setThread t
        ⟨todo, some ⟨call, k, i⟩, done⟩) := by
  have hmine : c.monitor.owner m = some t := (h.owner t m).mpr (List.mem_of_getLast? hlast)
  refine h.of_frame hth rfl h.quiet (h.nodup t) (h.owner t) (.inCall (fun m' hm' => ?_) hk)
    (fun _ _ _ => Iff.rfl) (fun u hu m' hm' => hothers m' ?_ _) fun m' hm' hJ => ?_
  · cases hlast.symm.trans hm'
    exact hy
  · rintro rfl
    exact hu (Option.some.inj (hm'.symm.trans hmine))
  · have hne : m' ≠ m := fun hc => hm' (hc ▸ hlast)
    exact (hothers m' hne c.monitor.vars).symm ▸ hJ hm'

variable [DecidableEq M]

theorem Sectioned.lock (h : Sectioned rank guards J dying locks c)
    (hth : c.thread t = ⟨todo, some ⟨call, p, i⟩, done⟩) (hfree : c.monitor.owner m = none)
    (hx : ∀ m', (m :: locks t).getLast? = some m' → guards m' c.monitor.vars = x)
    (hk : Follows (inSections rank guards J (dying call)) k (fun _ x => x.1 = [])
      (m :: locks t, x)) :
    Sectioned rank guards J dying (Function.update locks t (m :: locks t))
      ({ c with monitor := c.monitor.setOwner m (some t) }.setThread t
        ⟨todo, some ⟨call, k, i⟩, done⟩) := by
  have hnone : ∀ u, c.monitor.owner m ≠ some u := fun u hu => by cases hfree.symm.trans hu
  have hnew : m ∉ locks t := fun hm => hnone t ((h.owner t m).mpr hm)
  refine h.of_frame hth rfl h.quiet (List.nodup_cons.mpr ⟨hnew, h.nodup t⟩)
    (Monitor.owner_setOwner_some_iff (h.owner t) m) (.inCall hx hk) (fun u hu m' => ?_)
    (fun _ _ _ _ => rfl) fun m' hm' hJ => hJ fun hlast => hm' ?_
  · exact Monitor.owner_setOwner_other (fun hc => hu (Option.some.inj hc).symm) (hnone u) m'
  · have hne : locks t ≠ [] := List.ne_nil_of_mem (List.mem_of_getLast? hlast)
    rw [List.getLast?_cons_of_ne_nil hne, hlast]

-- With its last mutex the thread gives back what it worked on.
theorem Sectioned.unlock (h : Sectioned rank guards J dying locks c)
    (hth : c.thread t = ⟨todo, some ⟨call, p, i⟩, done⟩) (hlocks : locks t = m :: rest)
    (hx : ∀ m', (locks t).getLast? = some m' → guards m' c.monitor.vars = x)
    (hJ : rest = [] → J x)
    (hk : Follows (inSections rank guards J (dying call)) k (fun _ x => x.1 = []) (rest, x)) :
    Sectioned rank guards J dying (Function.update locks t rest)
      ({ c with monitor := c.monitor.setOwner m none }.setThread t
        ⟨todo, some ⟨call, k, i⟩, done⟩) := by
  have hnodup := h.nodup t
  have howner := h.owner t
  rw [hlocks] at hnodup howner hx
  obtain ⟨hnot, hnodup'⟩ := List.nodup_cons.mp hnodup
  have hmine : c.monitor.owner m = some t := (howner m).mpr (List.mem_cons_self ..)
  have hlast : rest ≠ [] → (m :: rest).getLast? = rest.getLast? := List.getLast?_cons_of_ne_nil
  refine h.of_frame hth rfl h.quiet hnodup' (Monitor.owner_setOwner_none_iff hnot howner)
    (.inCall (fun m' hm' => ?_) hk) (fun u hu m' => ?_) (fun _ _ _ _ => rfl) fun m' hm' hJ' => ?_
  · refine hx m' ?_
    rwa [hlast (List.ne_nil_of_mem (List.mem_of_getLast? hm'))]
  · exact Monitor.owner_setOwner_other (o := none) nofun
      (fun hc => hu (Option.some.inj (hc.symm.trans hmine))) m'
  · rw [hlocks] at hJ'
    by_cases hrest : rest = []
    · subst hrest
      by_cases hmm : m' = m
      · subst hmm
        exact (hx m' rfl).symm ▸ hJ rfl
      · exact hJ' fun hc => hmm (Option.some.inj hc).symm
    · rw [hlast hrest] at hJ'
      exact hJ' hm'

end Operations

variable [DecidableEq M]

-- Nobody waits at a condition variable.
theorem Sectioned.not_stays {s : MonitorOp M C κ} {mon : Monitor τ M C κ}
    (h : Sectioned rank guards J dying locks c)
    (hth : c.thread t = ⟨todo, some ⟨call, .sync s k, i⟩, done⟩) :
    ¬ c.monitor.Stays t s mon := by
  intro hs
  cases hs with
  | spurious hmode => cases (h.quiet t).symm.trans hmode
  | retake hmode _ => cases (h.quiet t).symm.trans hmode
  | park _ hbusy =>
    have hlocking := h.locking t
    rw [hth] at hlocking
    cases hlocking with
    | inCall hvars hfollows =>
      obtain ⟨m, hm, hidle, -⟩ := hfollows
      rw [hidle _ (hvars m hm)] at hbusy
      cases hbusy

variable [DecidableEq C]

-- The thread is through with an operation on a mutex or on the variables.
theorem Sectioned.pass {s : MonitorOp M C κ} {mon : Monitor τ M C κ}
    (h : Sectioned rank guards J dying locks c)
    (hth : c.thread t = ⟨todo, some ⟨call, .sync s k, i⟩, done⟩) (hs : c.monitor.Passes t s mon) :
    ∃ locks', Sectioned rank guards J dying locks'
      ({ c with monitor := mon }.setThread t ⟨todo, some ⟨call, k, i⟩, done⟩) := by
  have hlocking := h.locking t
  rw [hth] at hlocking
  cases hlocking with
  | inCall hvars hfollows =>
    cases hs with
    | @lock m hfree =>
      obtain ⟨-, hfirst, hnext⟩ := hfollows
      by_cases hnil : locks t = []
      · refine ⟨_, h.lock (x := guards m c.monitor.vars) hth hfree (fun m' hm' => ?_) ?_⟩
        · rw [hnil] at hm'
          cases hm'
          rfl
        · rw [hnil]
          exact hfirst hnil _ (h.idle_of_free hfree)
      · refine ⟨_, h.lock hth hfree (fun m' hm' => hvars m' ?_) (hnext hnil)⟩
        rwa [List.getLast?_cons_of_ne_nil hnil] at hm'
    | unlock =>
      obtain ⟨rest, hlocks, hJ, hk⟩ := hfollows
      exact ⟨_, h.unlock hth hlocks hvars hJ hk⟩
    | update =>
      obtain ⟨m, hlast, hothers, y, hy, hk⟩ := hfollows
      exact ⟨_, h.update hth hlast hothers (hy _ (hvars m hlast)) hk⟩
    | loopEnd _ _ =>
      obtain ⟨m, -, -, hk⟩ := hfollows
      exact ⟨_, h.proceed hth hvars hk⟩
    | nobody _ => exact ⟨_, h.proceed hth hvars hfollows⟩
    | signalLost _ _ => exact ⟨_, h.proceed hth hvars hfollows⟩
    | signal _ hu => cases (h.quiet _).symm.trans hu
    | broadcast _ =>
      rw [h.quiet.wakeAll]
      exact ⟨_, h.proceed hth hvars hfollows⟩

variable [Store (MonitorSig Act Res M C κ) ι σ] {l : Label τ Call Act (MonitorOp M C κ)}

/-- The step lemma. -/
theorem Sectioned.step [Nonempty ρ] (h : Sectioned rank guards J dying locks c) (hs : Step c l c') :
    ∃ locks', Sectioned rank guards J dying locks' c' := by
  cases hs with
  | pass hth hpass => exact h.pass hth hpass
  | stay hth hstay => exact absurd hstay (h.not_stays hth)
  | @begin t call todo done hth =>
    have hlocking := h.locking t
    rw [hth] at hlocking
    have hnil : locks t = [] := by
      generalize locks t = held at hlocking
      cases hlocking
      rfl
    have hcode := h.todo t call (by rw [hth]; exact List.mem_cons_self ..)
    refine ⟨_, h.of_step rfl h.quiet (fun call' hcall' => ?_) (h.nodup t) (h.owner t)
      (.inCall (x := Classical.arbitrary ρ) (fun m hm => ?_) ?_) (fun _ _ _ => Iff.rfl)
      (fun _ _ _ _ => rfl) fun m hm hJ => hJ hm⟩
    · rw [hth]
      exact List.mem_cons_of_mem _ hcall'
    · rw [hnil] at hm
      cases hm
    · rw [hnil]
      exact hcode _
  | @act t call a k i todo done hth =>
    have hlocking := h.locking t
    rw [hth] at hlocking
    cases hlocking with
    | inCall hvars hfollows => exact ⟨_, h.proceed hth hvars (hfollows _)⟩
  | @«return» t call a i todo done hth =>
    have hlocking := h.locking t
    rw [hth] at hlocking
    have hnil : locks t = [] := by
      generalize locks t = held at hlocking
      cases hlocking with
      | inCall _ hfollows => exact hfollows
    refine ⟨_, h.of_step rfl h.quiet (fun _ hcall => hth ▸ hcall) (h.nodup t) (h.owner t)
      (hnil ▸ .idle) (fun _ _ _ => Iff.rfl) (fun _ _ _ _ => rfl) fun m hm hJ => hJ hm⟩

end Step

/-! ## Every run ends -/

section Ending

variable {calls : τ → List Call}

theorem Sectioned.start {v : κ} (s : σ)
    (hcode : ∀ t, ∀ call ∈ calls t, InSections rank guards J (dying call)
      (Calls.code call : Prog (MonitorSig Act Res M C κ) α))
    (hJ : ∀ m, J (guards m v)) :
    Sectioned rank guards J dying (fun _ => [])
      (Config.start s v calls : ThreadConfig τ Call Act Res M C κ ι σ α) where
  quiet _ := rfl
  todo := hcode
  nodup _ := List.nodup_nil
  owner _ _ := ⟨nofun, nofun⟩
  locking _ := .idle
  idle m _ := hJ m

variable [DecidableEq τ] [DecidableEq M] [DecidableEq C] [Store (MonitorSig Act Res M C κ) ι σ]

/-- A thread can take a step, as long as calls are left and the process lives. -/
theorem Sectioned.exists_step {n : Nat} (h : Sectioned rank guards J dying locks c)
    (hrank : ∀ m, rank m ≤ n) (hleft : ¬ c.Finished) (halive : ∀ t f, ¬ c.DiesIn t f) :
    ∃ l c', Step c l c' := by
  by_contra hstuck
  refine h.not_deadlocked hrank ⟨?_, fun t ht => ?_⟩
  · by_contra hnone
    refine hleft fun t => ?_
    have ht : ¬ c.Unfinished t := fun ht => hnone ⟨t, ht⟩
    rwa [Config.Unfinished, not_or, not_not, not_not] at ht
  · by_contra hblocked
    exact hstuck (Prog.exists_step ht hblocked (halive t))

variable (rank guards J dying) in
/-- Threads whose calls lock in sections come to the end of all of them, or to the death of the
process in a call that may die. -/
theorem inevitable_of_sections [Finite τ] [Nonempty ρ] {n : Nat} {v : κ} (s : σ)
    (hrank : ∀ m, rank m ≤ n)
    (hcode : ∀ t, ∀ call ∈ calls t, InSections rank guards J (dying call)
      (Calls.code call : Prog (MonitorSig Act Res M C κ) α))
    (hJ : ∀ m, J (guards m v)) :
    Inevitable (fun c c' : ThreadConfig τ Call Act Res M C κ ι σ α => ∃ l, Step c l c')
      (fun c => c.Answered calls ∨ ∃ t f, c.DiesIn t f ∧ dying f.call) (Config.start s v calls) := by
  refine Inevitable.of_measure (β := τ → ℕ ×ₗ Ordinal.{0})
    (I := fun c => c.Counted calls ∧ ∃ locks, Sectioned rank guards J dying locks c)
    Config.remaining ?_ ?_ ?_
  · rintro c c' ⟨hcounted, locks, h⟩ ⟨l, hs⟩
    refine ⟨⟨hcounted.step hs, h.step hs⟩, hs.remaining_lt fun s hstayed => ?_⟩
    cases hs with
    | stay hth hstay => exact h.not_stays hth hstay
    | _ => cases hstayed
  · rintro c ⟨hcounted, locks, h⟩ hP
    rw [not_or] at hP
    have halive : ∀ t f, ¬ c.DiesIn t f := fun t f hf => hP.2 ⟨t, f, hf, h.dying_of_diesIn hf⟩
    obtain ⟨l, c', hs⟩ := h.exists_step hrank (fun hf => hP.1 (hcounted.answered hf)) halive
    exact ⟨c', l, hs⟩
  · refine ⟨fun t => ?_, _, .start s hcode hJ⟩
    exact Nat.zero_add _

end Ending

end Invariant

end Prog
