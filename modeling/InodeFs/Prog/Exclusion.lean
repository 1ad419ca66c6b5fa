import InodeFs.Prog.Ghost
import InodeFs.Prog.Threads

/-!
# Who has a mutex

A call may leave a mutex locked for the thread's next call to unlock.  `holding` follows a mutex
through the text of a call; in every run, a thread that has it by that account owns it, unless it
waits at a condition variable.
-/

namespace Prog

variable {τ Call Act M C κ ι σ α : Type} {Res : Act → Type}

/-- The rules, on whether the thread has locked `m`; it waits with this mutex only. -/
def holding (m : M) : Ghost (MonitorSig Act Res M C κ) Bool where
  act _ P x := ∀ r, P r x
  sync
    | .lock m', P, x => (m' = m → x = false ∧ P true) ∧ (m' ≠ m → P x)
    | .unlock m', P, x => (m' = m → x = true ∧ P false) ∧ (m' ≠ m → P x)
    | .update _, P, x => P x
    | .waitWhile m' _ _, P, x => m' = m ∧ x = true ∧ P x
    | .wake _, P, x => P x
  act_mono hPQ h := fun r => hPQ _ _ (h r)
  sync_mono {s P Q x} hPQ h := by
    cases s with
    | lock m' => exact ⟨fun hm => ⟨(h.1 hm).1, hPQ _ (h.1 hm).2⟩, fun hm => hPQ _ (h.2 hm)⟩
    | unlock m' => exact ⟨fun hm => ⟨(h.1 hm).1, hPQ _ (h.1 hm).2⟩, fun hm => hPQ _ (h.2 hm)⟩
    | update f => exact hPQ _ h
    | waitWhile m' cv busy => exact ⟨h.1, h.2.1, hPQ _ h.2.2⟩
    | wake whom => exact hPQ _ h

/-- Calls that a thread may make one after the other when it has the mutex or not, as `x` says:
`entry` and `exit` say so for each call before and after it. -/
def Alternates (entry exit : Call → Bool) : Bool → List Call → Prop
  | _, [] => True
  | x, call :: calls => entry call = x ∧ Alternates entry exit (exit call) calls

section Invariant

variable {m : M} {entry exit : Call → Bool}

/-- Thread `t` has the mutex by the account of its calls if `x` is true. -/
structure Stands (m : M) (entry exit : Call → Bool)
    (c : ThreadConfig τ Call Act Res M C κ ι σ α) (t : τ) (x : Bool) : Prop where
  owner : x = true → c.monitor.mode t = .awake → c.monitor.owner m = some t
  between : (c.thread t).frame = none → Alternates entry exit x (c.thread t).todo
  within : ∀ f, (c.thread t).frame = some f →
    Follows (holding m) f.rest (fun _ y => Alternates entry exit y (c.thread t).todo) x
  waiting : c.monitor.mode t ≠ .awake →
    ∃ call m' cv busy k i, (c.thread t).frame = some ⟨call, .sync (.waitWhile m' cv busy) k, i⟩

variable {c c' : ThreadConfig τ Call Act Res M C κ ι σ α} {t u : τ} {x y : Bool}

-- A step of another thread that leaves its mutex alone.
theorem Stands.spared (h : Stands m entry exit c u x) (hthread : c'.thread u = c.thread u)
    (hmode : c'.monitor.mode u = .awake ↔ c.monitor.mode u = .awake)
    (howner : c.monitor.owner m = some u → c'.monitor.owner m = some u) :
    Stands m entry exit c' u x := by
  refine ⟨fun hx hawake => howner (h.owner hx (hmode.mp hawake)), ?_, ?_, fun hasleep => ?_⟩
  · rw [hthread]
    exact h.between
  · rw [hthread]
    exact h.within
  · rw [hthread]
    exact h.waiting (mt hmode.mpr hasleep)

-- An awake thread inside a call.
theorem Stands.of_frame {todo : List Call} {f : Frame Call (MonitorSig Act Res M C κ) ι α}
    {done : List α} (hth : c.thread t = ⟨todo, some f, done⟩) (hawake : c.monitor.mode t = .awake)
    (howner : x = true → c.monitor.owner m = some t)
    (hf : Follows (holding m) f.rest (fun _ y => Alternates entry exit y todo) x) :
    Stands m entry exit c t x := by
  refine ⟨fun hx _ => howner hx, ?_, ?_, fun hasleep => absurd hawake hasleep⟩
  · rw [hth]
    exact nofun
  · rw [hth]
    rintro g hg
    cases hg
    exact hf

-- An awake thread between two calls.
theorem Stands.of_idle {todo : List Call} {done : List α} (hth : c.thread t = ⟨todo, none, done⟩)
    (hawake : c.monitor.mode t = .awake) (howner : x = true → c.monitor.owner m = some t)
    (htodo : Alternates entry exit x todo) : Stands m entry exit c t x := by
  refine ⟨fun hx _ => howner hx, ?_, ?_, fun hasleep => absurd hawake hasleep⟩
  · rw [hth]
    exact fun _ => htodo
  · rw [hth]
    exact nofun

-- A thread whose next operation is no waiting loop is awake.
theorem Stands.awake (h : Stands m entry exit c t x)
    (hno : ∀ call m' cv busy k i,
      (c.thread t).frame ≠ some ⟨call, .sync (.waitWhile m' cv busy) k, i⟩) :
    c.monitor.mode t = .awake := by
  by_contra hasleep
  obtain ⟨call, m', cv, busy, k, i, hframe⟩ := h.waiting hasleep
  exact hno _ _ _ _ _ _ hframe

-- Between two calls, a thread whose next call starts with the mutex locked owns it.
theorem owner_of_between {call : Call} (h : ∃ x, Stands m entry exit c t x)
    (hframe : (c.thread t).frame = none) (hcall : (c.thread t).todo.head? = some call)
    (hentry : entry call = true) : c.monitor.owner m = some t := by
  obtain ⟨x, hx⟩ := h
  have hbetween := hx.between hframe
  obtain ⟨rest, hrest⟩ := List.head?_eq_some_iff.mp hcall
  rw [hrest] at hbetween
  refine hx.owner (hbetween.1.symm.trans hentry) (hx.awake fun _ _ _ _ _ _ hc => ?_)
  rw [hframe] at hc
  cases hc

variable [DecidableEq τ] [DecidableEq M]

-- The thread moves inside its waiting loop.
theorem Stands.stay {s : MonitorOp M C κ} {k : Prog (MonitorSig Act Res M C κ) α} {call : Call}
    {i : ι} {todo : List Call} {done : List α} {mon : Monitor τ M C κ}
    (h : Stands m entry exit c t x)
    (hth : c.thread t = ⟨todo, some ⟨call, .sync s k, i⟩, done⟩) (hs : c.monitor.Stays t s mon) :
    Stands m entry exit { c with monitor := mon } t x ∧
      ∀ u ≠ t, c.monitor.owner m = some u → mon.owner m = some u := by
  have hframe : (c.thread t).frame = some ⟨call, .sync s k, i⟩ := by rw [hth]
  have hfollows := h.within _ hframe
  obtain ⟨m', cv, busy, rfl⟩ : ∃ m' cv busy, s = .waitWhile m' cv busy := by
    cases hs <;> exact ⟨_, _, _, rfl⟩
  obtain ⟨rfl, hx, -⟩ := hfollows
  refine ⟨⟨fun _ hawake => ?_, h.between, h.within, fun _ => ⟨_, _, _, _, _, _, hframe⟩⟩,
    fun u hu hown => ?_⟩
  · cases hs with
    | park _ _ =>
      simp only [Monitor.mode_setMode_self] at hawake
      cases hawake
    | spurious _ =>
      simp only [Monitor.mode_setMode_self] at hawake
      cases hawake
    | retake _ _ => exact Monitor.owner_setOwner_self ..
  · rcases hs.owner m' with heq | ⟨cv', busy', -, ⟨hmode, -⟩ | ⟨hfree, -⟩⟩
    · exact heq.trans hown
    · exact absurd (Option.some.inj (hown.symm.trans (h.owner hx hmode))) hu
    · cases hfree.symm.trans hown

variable [DecidableEq C]

-- The thread is through with an operation.
theorem Stands.pass {s : MonitorOp M C κ} {k : Prog (MonitorSig Act Res M C κ) α} {call : Call}
    {i : ι} {todo : List Call} {done : List α} {mon : Monitor τ M C κ}
    (h : Stands m entry exit c t x)
    (hth : c.thread t = ⟨todo, some ⟨call, .sync s k, i⟩, done⟩) (hs : c.monitor.Passes t s mon) :
    (∃ y, Stands m entry exit
      ({ c with monitor := mon }.setThread t ⟨todo, some ⟨call, k, i⟩, done⟩) t y) ∧
      ∀ u ≠ t, c.monitor.owner m = some u → mon.owner m = some u := by
  have hframe : (c.thread t).frame = some ⟨call, .sync s k, i⟩ := by rw [hth]
  have htodo : (c.thread t).todo = todo := by rw [hth]
  have hfollows := h.within _ hframe
  rw [htodo, Follows.sync_iff] at hfollows
  have hawake : c.monitor.mode t = .awake := by
    by_cases hwait : ∃ m' cv busy, s = .waitWhile m' cv busy
    · obtain ⟨m', cv, busy, rfl⟩ := hwait
      cases hs with
      | loopEnd hmode _ => exact hmode
    · refine h.awake fun call' m' cv busy k' i' hc => hwait ?_
      rw [hframe] at hc
      cases hc
      exact ⟨_, _, _, rfl⟩
  have hawake' : mon.mode t = .awake := (hs.awake_iff t).mpr hawake
  have hstands : ∀ y, (y = true → mon.owner m = some t) →
      Follows (holding m) k (fun _ y => Alternates entry exit y todo) y → ∃ y, Stands m entry exit
        ({ c with monitor := mon }.setThread t ⟨todo, some ⟨call, k, i⟩, done⟩) t y := by
    intro y hy hk
    exact ⟨y, .of_frame (Config.thread_setThread_self ..) hawake' hy hk⟩
  have howns : x = true → c.monitor.owner m = some t := fun hx => h.owner hx hawake
  -- the mutex changes hands with its lock and its unlock only
  rcases hs.owner m with heq | ⟨rfl, hfree, hmine⟩ | rfl
  · refine ⟨?_, fun u _ hu => heq.trans hu⟩
    cases s with
    | lock m' =>
      by_cases hm : m' = m
      · subst hm
        cases hs
        refine hstands true (fun _ => ?_) (hfollows.1 rfl).2
        exact Monitor.owner_setOwner_self ..
      · exact hstands x (fun hx => heq.trans (howns hx)) (hfollows.2 hm)
    | unlock m' =>
      by_cases hm : m' = m
      · exact hstands false nofun (hfollows.1 hm).2
      · exact hstands x (fun hx => heq.trans (howns hx)) (hfollows.2 hm)
    | update f => exact hstands x (fun hx => heq.trans (howns hx)) hfollows
    | waitWhile m' cv busy => exact hstands x (fun hx => heq.trans (howns hx)) hfollows.2.2
    | wake whom => exact hstands x (fun hx => heq.trans (howns hx)) hfollows
  · exact ⟨hstands true (fun _ => hmine) (hfollows.1 rfl).2,
      fun u _ hu => by cases hfree.symm.trans hu⟩
  · refine ⟨hstands false nofun (hfollows.1 rfl).2, fun u hu hown => ?_⟩
    exact absurd (Option.some.inj (hown.symm.trans (howns (hfollows.1 rfl).1))) hu

variable [Calls Call (MonitorSig Act Res M C κ) ι α] [Store (MonitorSig Act Res M C κ) ι σ]
variable {l : Label τ Call Act (MonitorOp M C κ)}

-- The step lemma.
theorem Stands.step
    (hcode : ∀ call, Follows (holding m) (Calls.code call : Prog (MonitorSig Act Res M C κ) α)
      (fun _ y => y = exit call) (entry call))
    (h : ∀ t, ∃ x, Stands m entry exit c t x) (hs : Step c l c') (u : τ) :
    ∃ x, Stands m entry exit c' u x := by
  obtain ⟨xu, hu⟩ := h u
  cases hs with
  | @begin t call todo done hth =>
    by_cases hut : u = t
    · subst hut
      have hframe : (c.thread u).frame = none := by rw [hth]
      have hbetween := hu.between hframe
      rw [hth] at hbetween
      obtain ⟨rfl, hrest⟩ := hbetween
      have hawake := hu.awake (fun _ _ _ _ _ _ hc => by rw [hframe] at hc; cases hc)
      refine ⟨entry call, .of_frame (Config.thread_setThread_self ..) hawake
        (fun hx => hu.owner hx hawake) ?_⟩
      exact (hcode call).mono fun a y hy => hy ▸ hrest
    · exact ⟨xu, hu.spared (Config.thread_setThread_ne _ _ hut) Iff.rfl id⟩
  | @act t call a k i todo done hth =>
    by_cases hut : u = t
    · subst hut
      have hframe : (c.thread u).frame = some ⟨call, .act a k, i⟩ := by rw [hth]
      have hfollows := hu.within _ hframe
      have hawake := hu.awake (fun _ _ _ _ _ _ hc => by rw [hframe] at hc; cases hc)
      rw [hth] at hfollows
      exact ⟨xu, .of_frame (Config.thread_setThread_self ..) hawake
        (fun hx => hu.owner hx hawake) (hfollows _)⟩
    · exact ⟨xu, hu.spared (Config.thread_setThread_ne _ _ hut) Iff.rfl id⟩
  | @«return» t call a i todo done hth =>
    by_cases hut : u = t
    · subst hut
      have hframe : (c.thread u).frame = some ⟨call, .ret a, i⟩ := by rw [hth]
      have hfollows := hu.within _ hframe
      have hawake := hu.awake (fun _ _ _ _ _ _ hc => by rw [hframe] at hc; cases hc)
      rw [hth] at hfollows
      exact ⟨xu, .of_idle (Config.thread_setThread_self ..) hawake
        (fun hx => hu.owner hx hawake) hfollows⟩
    · exact ⟨xu, hu.spared (Config.thread_setThread_ne _ _ hut) Iff.rfl id⟩
  | @pass t call s k i todo done mon hth hpass =>
    obtain ⟨x, ht⟩ := h t
    obtain ⟨hself, hothers⟩ := ht.pass hth hpass
    by_cases hut : u = t
    · subst hut
      exact hself
    · exact ⟨xu, hu.spared (Config.thread_setThread_ne _ _ hut) (hpass.awake_iff u)
        (hothers u hut)⟩
  | @stay t call s k i todo done mon hth hstay =>
    obtain ⟨x, ht⟩ := h t
    obtain ⟨hself, hothers⟩ := ht.stay hth hstay
    by_cases hut : u = t
    · subst hut
      exact ⟨x, hself⟩
    · exact ⟨xu, hu.spared rfl (iff_of_eq (congrArg (· = _) (hstay.mode hut))) (hothers u hut)⟩

/-- The owner keeps the mutex while other threads take steps. -/
theorem Stands.owner_of_step (h : ∀ t, ∃ x, Stands m entry exit c t x) (hs : Step c l c')
    (ht : t ≠ l.thread) (howner : c.monitor.owner m = some t) : c'.monitor.owner m = some t := by
  cases hs with
  | begin _ => exact howner
  | act _ => exact howner
  | «return» _ => exact howner
  | @pass u _ _ _ _ _ _ _ hth hpass =>
    obtain ⟨x, hu⟩ := h u
    exact (hu.pass hth hpass).2 t ht howner
  | @stay u _ _ _ _ _ _ _ hth hstay =>
    obtain ⟨x, hu⟩ := h u
    exact (hu.stay hth hstay).2 t ht howner

/-- The run lemma. -/
theorem stands_of_run {s₀ : σ} {v : κ} {calls : τ → List Call}
    {ls : List (Label τ Call Act (MonitorOp M C κ))}
    (hcode : ∀ call, Follows (holding m) (Calls.code call : Prog (MonitorSig Act Res M C κ) α)
      (fun _ y => y = exit call) (entry call))
    (hcalls : ∀ t, Alternates entry exit false (calls t))
    (hrun : Run (Config.start s₀ v calls) ls c) (t : τ) : ∃ x, Stands m entry exit c t x := by
  induction hrun generalizing t with
  | nil => exact ⟨false, nofun, fun _ => hcalls t, nofun, fun hasleep => absurd rfl hasleep⟩
  | snoc _ hs ih => exact Stands.step hcode ih hs t

end Invariant

end Prog
