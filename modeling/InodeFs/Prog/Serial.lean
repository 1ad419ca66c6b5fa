import InodeFs.Prog.Ghost
import InodeFs.Prog.Threads

/-!
# Calls that one mutex serialises

A call that locks a mutex first, keeps it to its end and would never wait for anything else can be
thought of as a single step: what threads do with such calls is what the calls do one after the
other, in the order in which they lock the mutex.  So can a call that never locks it, as long as no
other call is under way with the mutex or without it.
-/

namespace Prog

variable {τ Call Act M C κ ι σ α β : Type} {Res : Act → Type}

/-! ## Serial runs -/

section Entries
variable [DecidableEq τ]

/-- The entries of thread `t`. -/
def entriesOf (t : τ) (l : List (τ × β)) : List β :=
  l.filterMap fun x => if x.1 = t then some x.2 else none

theorem entriesOf_concat_self (t : τ) (l : List (τ × β)) (b : β) :
    entriesOf t (l ++ [(t, b)]) = entriesOf t l ++ [b] := by
  simp only [entriesOf, List.filterMap_append, List.filterMap_cons, List.filterMap_nil, if_true]

theorem entriesOf_concat_ne {t u : τ} (l : List (τ × β)) (b : β) (h : u ≠ t) :
    entriesOf t (l ++ [(u, b)]) = entriesOf t l := by
  simp only [entriesOf, List.filterMap_append, List.filterMap_cons, List.filterMap_nil, if_neg h,
    List.append_nil]

end Entries

/-- The results of the calls, carried out one after the other, and the store after them. -/
def serial {S : Signature} [Calls Call S ι α] [Store S ι σ] :
    List (τ × Call) → σ → Option (List (τ × α) × σ)
  | [], s => some ([], s)
  | (t, call) :: order, s => do
      let r ← run (Calls.code call) (Calls.input call) s
      let rest ← serial order r.2.2
      pure ((t, r.1) :: rest.1, rest.2)

theorem serial_concat_eq {S : Signature} [Calls Call S ι α] [Store S ι σ] (order : List (τ × Call))
    (s : σ) (t : τ) (call : Call) :
    serial (order ++ [(t, call)]) s = (serial order s).bind fun r =>
      (run (Calls.code call) (Calls.input call) r.2).map fun x => (r.1 ++ [(t, x.1)], x.2.2) := by
  induction order generalizing s with
  | nil =>
    simp only [List.nil_append, serial, Option.bind_eq_bind, Option.bind_some, Option.pure_def,
      Option.map_eq_bind]
    rfl
  | cons x order ih =>
    obtain ⟨u, call'⟩ := x
    simp only [List.cons_append, serial, ih, Option.bind_eq_bind, Option.pure_def,
      Option.bind_assoc, Option.map_eq_bind, Function.comp_def, Option.bind_some]

theorem serial_concat {S : Signature} [Calls Call S ι α] [Store S ι σ] {order : List (τ × Call)}
    {s s' e : σ} {rs : List (τ × α)} {t : τ} {call : Call} {a : α} {i : ι}
    (h : serial order s = some (rs, s'))
    (hrun : run (Calls.code call) (Calls.input call) s' = some (a, i, e)) :
    serial (order ++ [(t, call)]) s = some (rs ++ [(t, a)], e) := by
  rw [serial_concat_eq, h, Option.bind_some, hrun, Option.map_some]

-- The serial run of all calls but the last, and the last one.
theorem exists_of_serial_concat {S : Signature} [Calls Call S ι α] [Store S ι σ]
    {order : List (τ × Call)} {s s' e : σ} {rs rs' : List (τ × α)} {t : τ} {call : Call}
    (h : serial order s = some (rs, s'))
    (hconcat : serial (order ++ [(t, call)]) s = some (rs', e)) :
    ∃ a i, run (Calls.code call) (Calls.input call) s' = some (a, i, e) ∧
      rs' = rs ++ [(t, a)] := by
  rw [serial_concat_eq, h, Option.bind_some, Option.map_eq_some_iff] at hconcat
  obtain ⟨⟨a, i, e'⟩, hrun, heq⟩ := hconcat
  cases heq
  exact ⟨a, i, hrun, rfl⟩

section LockOrder
variable [DecidableEq M]

/-- The calls in the order in which they locked `m`. -/
def lockOrder (m : M) (ls : List (Label τ Call Act (MonitorOp M C κ))) : List (τ × Call) :=
  ls.filterMap fun l => match l.event with
    | .passed (.lock m') => if m' = m then some (l.thread, l.call) else none
    | _ => none

/-- The calls in the order in which they locked `m`; those that are `bare`, without the mutex, in
the order in which they returned. -/
def serialOrder (m : M) (bare : Call → Bool) (ls : List (Label τ Call Act (MonitorOp M C κ))) :
    List (τ × Call) :=
  ls.filterMap fun l => match l.event with
    | .passed (.lock m') => if m' = m then some (l.thread, l.call) else none
    | .returned => if bare l.call then some (l.thread, l.call) else none
    | _ => none

/-- What a step adds to the order. -/
def Label.Counts (m : M) (bare : Call → Bool) (l : Label τ Call Act (MonitorOp M C κ)) : Prop :=
  l.event = .passed (.lock m) ∨ l.event = .returned ∧ bare l.call = true

theorem serialOrder_concat (m : M) (bare : Call → Bool)
    (ls : List (Label τ Call Act (MonitorOp M C κ))) {l : Label τ Call Act (MonitorOp M C κ)}
    (h : l.Counts m bare) :
    serialOrder m bare (ls ++ [l]) = serialOrder m bare ls ++ [(l.thread, l.call)] := by
  obtain ⟨t, call, event⟩ := l
  rcases h with h | ⟨h, hbare⟩ <;> cases h
  · simp only [serialOrder, List.filterMap_append, List.filterMap_cons, List.filterMap_nil, if_true]
  · simp only [serialOrder, List.filterMap_append, List.filterMap_cons, List.filterMap_nil,
      if_pos hbare]

theorem serialOrder_concat_ne {m : M} {bare : Call → Bool}
    (ls : List (Label τ Call Act (MonitorOp M C κ))) {l : Label τ Call Act (MonitorOp M C κ)}
    (h : ¬ l.Counts m bare) : serialOrder m bare (ls ++ [l]) = serialOrder m bare ls := by
  have hnone : serialOrder m bare [l] = [] := by
    obtain ⟨t, call, event⟩ := l
    cases event with
    | passed s =>
      cases s with
      | lock m' =>
        have hm : m' ≠ m := fun hc => h (.inl (by rw [hc]))
        simp only [serialOrder, List.filterMap_cons, List.filterMap_nil, if_neg hm]
      | _ => rfl
    | returned =>
      have hbare : ¬ bare call = true := fun hc => h (.inr ⟨rfl, hc⟩)
      simp only [serialOrder, List.filterMap_cons, List.filterMap_nil, if_neg hbare]
    | _ => rfl
  rw [serialOrder, List.filterMap_append, ← serialOrder, ← serialOrder, hnone, List.append_nil]

-- Without bare calls that is the order of the locks.
theorem serialOrder_false (m : M) (ls : List (Label τ Call Act (MonitorOp M C κ))) :
    serialOrder m (fun _ => false) ls = lockOrder m ls := by
  refine congrArg (fun f => ls.filterMap f) (funext fun l => ?_)
  obtain ⟨t, call, event⟩ := l
  cases event with
  | passed s => cases s <;> rfl
  | _ => rfl

end LockOrder

/-! ## Calls under one mutex -/

/-- The rules for a thread that runs alone, on the mutexes it has locked, the last one first, and on
the guarded variables: it releases the mutexes in turn, never finds its waiting loops busy, and does
nothing more once it has released them all. -/
def exclusive : Ghost (MonitorSig Act Res M C κ) (List M × κ) where
  act a P x := x.1 ≠ [] ∧ ∀ r, P r x
  sync
    | .lock m, P, x => x.1 ≠ [] ∧ m ∉ x.1 ∧ P (m :: x.1, x.2)
    | .unlock m, P, x => ∃ held, x.1 = m :: held ∧ P (held, x.2)
    | .update f, P, x => x.1 ≠ [] ∧ P (x.1, f x.2)
    | .waitWhile _ _ busy, P, x => x.1 ≠ [] ∧ busy x.2 = false ∧ P x
    | .wake _, P, x => x.1 ≠ [] ∧ P x
  act_mono hPQ h := ⟨h.1, fun r => hPQ _ _ (h.2 r)⟩
  sync_mono {s P Q x} hPQ h := by
    cases s with
    | lock m => exact ⟨h.1, h.2.1, hPQ _ h.2.2⟩
    | unlock m => exact ⟨h.choose, h.choose_spec.1, hPQ _ h.choose_spec.2⟩
    | update f => exact ⟨h.1, hPQ _ h.2⟩
    | waitWhile m cv busy => exact ⟨h.1, h.2.1, hPQ _ h.2.2⟩
    | wake whom => exact ⟨h.1, hPQ _ h.2⟩

/-- The call locks `m` first, and then runs alone to its end, where `J` holds again. -/
def GuardedBy (m : M) (J : κ → Prop) (p : Prog (MonitorSig Act Res M C κ) α) : Prop :=
  ∃ k, p = .sync (.lock m) k ∧
    ∀ v, J v → Follows exclusive k (fun _ x => x.1 = [] ∧ J x.2) ([m], v)

theorem GuardedBy.map {m : M} {J : κ → Prop} {p : Prog (MonitorSig Act Res M C κ) α} (f : α → β)
    (h : GuardedBy m J p) : GuardedBy m J (p >>= fun a => pure (f a)) := by
  obtain ⟨k, rfl, hk⟩ := h
  exact ⟨k >>= fun a => pure (f a), rfl, fun v hv => Follows.bind (hk v hv)⟩

-- A thread that runs alone comes to the end of its call.
theorem exclusive_returns [Store (MonitorSig Act Res M C κ) ι σ]
    {p : Prog (MonitorSig Act Res M C κ) α} {Q : α → List M × κ → Prop} {x : List M × κ}
    (h : Follows exclusive p Q x) (s : σ) : wp p (fun a _ => ∃ y, Q a y) s := by
  refine Follows.returns (G := exclusive) (fun hact r => ⟨_, hact.2 r⟩) (fun {s P x} hsync => ?_)
    (fun _ h => h) h s
  cases s with
  | lock m => exact ⟨_, hsync.2.2⟩
  | unlock m => exact ⟨_, hsync.choose_spec.2⟩
  | update f => exact ⟨_, hsync.2⟩
  | waitWhile m cv busy => exact ⟨_, hsync.2.2⟩
  | wake whom => exact ⟨_, hsync.2⟩

/-- The same rules for a call that may die before it has released its mutexes. -/
abbrev exclusiveOrDead : Ghost (MonitorSig Act Res M C κ) (List M × κ) :=
  { exclusive with dies := fun x => x.1 ≠ [] }

/-- The call does not touch `m`, but otherwise runs alone to its end like a call that has locked it;
and it may die. -/
def BareBy (m : M) (J : κ → Prop) (p : Prog (MonitorSig Act Res M C κ) α) : Prop :=
  ∀ v, J v → Follows exclusiveOrDead p (fun _ x => x.1 = [m] ∧ J x.2) ([m], v)

-- Nothing is left to do without a mutex but to return.
theorem exclusive_nil {p : Prog (MonitorSig Act Res M C κ) α} {Q : α → List M × κ → Prop} {v : κ}
    (h : Follows exclusiveOrDead p Q ([], v)) :
    ∃ a, p = .ret a ∧ Q a ([], v) := by
  cases p with
  | ret a => exact ⟨a, rfl, h⟩
  | abort => exact absurd rfl h
  | act a k => exact absurd rfl h.1
  | sync s k =>
    cases s with
    | unlock m =>
      obtain ⟨held, heq, -⟩ := h
      exact absurd heq (List.cons_ne_nil m held).symm
    | lock m => exact absurd rfl h.1
    | update f => exact absurd rfl h.1
    | waitWhile m cv busy => exact absurd rfl h.1
    | wake whom => exact absurd rfl h.1

/-! ## The thread that runs alone -/

section Alone

variable [DecidableEq M] [Store (MonitorSig Act Res M C κ) ι σ]

/-- Thread `t` is in call `call` with `p` left of it and has locked `held`, `m` first of all, but for
a bare call `m` is not really locked.  Run alone, the rest of the call comes to `out`. -/
structure Alone (m : M) (J : κ → Prop) (bare : Bool) (out : Option (α × ι × σ)) (t : τ) (call : Call)
    (todo : List Call) (done : List α) (c : ThreadConfig τ Call Act Res M C κ ι σ α)
    (p : Prog (MonitorSig Act Res M C κ) α) (held : List M) : Prop where
  bottom : held.getLast? = some m
  nodup : held.Nodup
  owner : ∀ m', c.monitor.owner m' = if m' ∈ held ∧ (m' = m → bare = false) then some t else none
  follows : Follows exclusiveOrDead p
    (fun _ x => x.1 = (if bare then [m] else []) ∧ J x.2) (held, c.monitor.vars)
  thread : ∃ i, c.thread t = ⟨todo, some ⟨call, p, i⟩, done⟩ ∧ run p i c.store = out

variable {m : M} {J : κ → Prop} {bare : Bool} {out : Option (α × ι × σ)} {call : Call}
variable {todo : List Call} {done : List α} {c c' : ThreadConfig τ Call Act Res M C κ ι σ α}
variable {p : Prog (MonitorSig Act Res M C κ) α} {held : List M}
variable {l : Label τ Call Act (MonitorOp M C κ)}

-- Only a bare call comes to its return with what it has, which is nothing but `m`.
theorem Alone.bare_of_ret {t : τ} {a : α} (h : Alone m J bare out t call todo done c (.ret a) held) :
    bare = true ∧ (c.monitor.owner = fun _ => none) ∧ J c.monitor.vars := by
  obtain ⟨hend, hJ⟩ := h.follows
  cases bare with
  | false =>
    have hheld : held = [] := hend
    have hm := List.mem_of_getLast? h.bottom
    rw [hheld] at hm
    cases hm
  | true =>
    refine ⟨rfl, funext fun m' => (h.owner m').trans (if_neg fun hm' => ?_), hJ⟩
    have hheld : held = [m] := hend
    rw [hheld] at hm'
    cases hm'.2 (List.mem_singleton.mp hm'.1)

variable [DecidableEq τ]

-- A thread alone is not in the way of the others' own business.
theorem Alone.spared {t u : τ}
    (h : Alone m J bare out t call todo done c p held) (hu : t ≠ u)
    (th : Thread Call (MonitorSig Act Res M C κ) ι α) :
    Alone m J bare out t call todo done (c.setThread u th) p held := by
  obtain ⟨i, hth, hrun⟩ := h.thread
  exact ⟨h.bottom, h.nodup, h.owner, h.follows, i,
    (Config.thread_setThread_ne _ _ hu).trans hth, hrun⟩

-- What is left of the call after an operation, with the mutexes that are locked then.
theorem Alone.continue {t : τ} {s : MonitorOp M C κ} {k : Prog (MonitorSig Act Res M C κ) α}
    {mon : Monitor τ M C κ} {i : ι} {held' : List M}
    (h : Alone m J bare out t call todo done c (.sync s k) held)
    (hth : c.thread t = ⟨todo, some ⟨call, .sync s k, i⟩, done⟩) (hbottom : held'.getLast? = some m)
    (hnodup : held'.Nodup)
    (howner : ∀ m', mon.owner m' =
      if m' ∈ held' ∧ (m' = m → bare = false) then some t else none)
    (hfollows : Follows exclusiveOrDead k
      (fun _ x => x.1 = (if bare then [m] else []) ∧ J x.2) (held', mon.vars)) :
    Alone m J bare out t call todo done
      ({ c with monitor := mon }.setThread t ⟨todo, some ⟨call, k, i⟩, done⟩) k held' := by
  obtain ⟨i', hth', hrun⟩ := h.thread
  cases hth.symm.trans hth'
  exact ⟨hbottom, hnodup, howner, hfollows, i, Config.thread_setThread_self .., hrun⟩

-- Its waiting loops are not busy.
theorem Alone.not_stays {t : τ} {s : MonitorOp M C κ} {k : Prog (MonitorSig Act Res M C κ) α}
    {mon : Monitor τ M C κ} (hquiet : c.monitor.Quiet)
    (h : Alone m J bare out t call todo done c (.sync s k) held) : ¬ c.monitor.Stays t s mon := by
  intro hs
  cases hs with
  | park _ hbusy => cases h.follows.2.1.symm.trans hbusy
  | spurious hmode => cases (hquiet _).symm.trans hmode
  | retake hmode _ => cases (hquiet _).symm.trans hmode

variable [DecidableEq C]

-- It takes or releases a mutex above `m`, or `m` itself at the end, or it does something under them.
theorem Alone.pass {t : τ} {s : MonitorOp M C κ} {k : Prog (MonitorSig Act Res M C κ) α}
    {mon : Monitor τ M C κ} {i : ι} (hquiet : c.monitor.Quiet)
    (h : Alone m J bare out t call todo done c (.sync s k) held)
    (hth : c.thread t = ⟨todo, some ⟨call, .sync s k, i⟩, done⟩) (hs : c.monitor.Passes t s mon) :
    s ≠ .lock m ∧ mon.Quiet ∧
      ((∃ held', Alone m J bare out t call todo done
          ({ c with monitor := mon }.setThread t ⟨todo, some ⟨call, k, i⟩, done⟩) k held') ∨
        ∃ a, bare = false ∧ k = .ret a ∧ out = some (a, i, c.store) ∧
          (mon.owner = fun _ => none) ∧ J mon.vars) := by
  obtain ⟨hbottom, hnodup, howner, hfollows, i', hth', hrun⟩ := id h
  cases hth.symm.trans hth'
  have hm : m ∈ held := List.mem_of_getLast? hbottom
  cases hs with
  | @lock m' hfree =>
    obtain ⟨-, hnew, hk⟩ := hfollows
    have hne : m' ≠ m := by
      rintro rfl
      exact hnew hm
    refine ⟨fun hc => hne (by cases hc; rfl), hquiet, .inl ⟨m' :: held, ?_⟩⟩
    refine h.continue hth ?_ (List.nodup_cons.mpr ⟨hnew, hnodup⟩) (fun m'' => ?_) hk
    · rw [List.getLast?_cons, hbottom, Option.getD_some]
    · by_cases heq : m'' = m'
      · subst heq
        rw [Monitor.owner_setOwner_self, if_pos ⟨List.mem_cons_self .., fun h => absurd h hne⟩]
      · rw [Monitor.owner_setOwner_ne _ _ heq, howner]
        simp only [List.mem_cons, heq, false_or]
  | @unlock m' =>
    obtain ⟨rest, rfl, hk⟩ := hfollows
    obtain ⟨hnot, hnodup'⟩ := List.nodup_cons.mp hnodup
    have howner' : ∀ m'', (c.monitor.setOwner m' none).owner m'' =
        if m'' ∈ rest ∧ (m'' = m → bare = false) then some t else none := by
      intro m''
      by_cases heq : m'' = m'
      · rw [heq, Monitor.owner_setOwner_self, if_neg fun h => hnot h.1]
      · rw [Monitor.owner_setOwner_ne _ _ heq, howner]
        simp only [List.mem_cons, heq, false_or]
    refine ⟨nofun, hquiet, ?_⟩
    cases rest with
    | nil =>
      -- `m` itself: nothing is left of the call
      obtain ⟨a, rfl, hend, hJ⟩ := exclusive_nil hk
      cases bare with
      | true => cases hend
      | false =>
        refine .inr ⟨a, rfl, rfl, hrun.symm, ?_, hJ⟩
        funext m''
        exact (howner' m'').trans (if_neg fun h => absurd h.1 List.not_mem_nil)
    | cons m₁ rest =>
      rw [List.getLast?_cons_cons] at hbottom
      exact .inl ⟨_, h.continue hth hbottom hnodup' howner' hk⟩
  | update =>
    exact ⟨nofun, hquiet, .inl ⟨held, h.continue hth hbottom hnodup howner hfollows.2⟩⟩
  | loopEnd _ _ =>
    exact ⟨nofun, hquiet, .inl ⟨held, h.continue hth hbottom hnodup howner hfollows.2.2⟩⟩
  | nobody _ =>
    exact ⟨nofun, hquiet, .inl ⟨held, h.continue hth hbottom hnodup howner hfollows.2⟩⟩
  | signalLost _ _ =>
    exact ⟨nofun, hquiet, .inl ⟨held, h.continue hth hbottom hnodup howner hfollows.2⟩⟩
  | signal _ hu => cases (hquiet _).symm.trans hu
  | broadcast _ =>
    rw [hquiet.wakeAll]
    exact ⟨nofun, hquiet, .inl ⟨held, h.continue hth hbottom hnodup howner hfollows.2⟩⟩

variable [Calls Call (MonitorSig Act Res M C κ) ι α]

-- It goes on; or it has released `m` and has only to return; or, in a bare call, it returns.
theorem Alone.step (hquiet : c.monitor.Quiet)
    (h : Alone m J bare out l.thread call todo done c p held) (hs : Step c l c') :
    l.event ≠ .passed (.lock m) ∧ c'.monitor.Quiet ∧ (∀ u ≠ l.thread, c'.thread u = c.thread u) ∧
      ((l.event ≠ .returned ∧
          ∃ p' held', Alone m J bare out l.thread call todo done c' p' held') ∨
        (∃ a i, l.event ≠ .returned ∧ bare = false ∧ out = some (a, i, c'.store) ∧
          (c'.monitor.owner = fun _ => none) ∧ J c'.monitor.vars ∧
          c'.thread l.thread = ⟨todo, some ⟨call, .ret a, i⟩, done⟩) ∨
        ∃ a i, l.event = .returned ∧ l.call = call ∧ bare = true ∧ out = some (a, i, c'.store) ∧
          (c'.monitor.owner = fun _ => none) ∧ J c'.monitor.vars ∧
          c'.thread l.thread = ⟨todo, none, done ++ [a]⟩) := by
  obtain ⟨i, hth, hrun⟩ := h.thread
  cases hs with
  | begin heq => cases hth.symm.trans heq
  | @act t call a k i _ _ heq =>
    cases hth.symm.trans heq
    refine ⟨nofun, hquiet, fun u hu => Config.thread_setThread_ne _ _ hu, .inl ⟨nofun,
      k (Store.exec a i c.store).1, held, ?_⟩⟩
    exact ⟨h.bottom, h.nodup, h.owner, h.follows.2 _, _, Config.thread_setThread_self .., hrun⟩
  | @pass t call s k i _ _ mon heq hpass =>
    cases hth.symm.trans heq
    obtain ⟨hlock, hquiet', hcases⟩ := h.pass hquiet hth hpass
    refine ⟨fun hc => hlock (Event.passed.inj hc), hquiet',
      fun u hu => Config.thread_setThread_ne _ _ hu, ?_⟩
    rcases hcases with ⟨held', halone⟩ | ⟨a, hbare, rfl, hout, howner, hJ⟩
    · exact .inl ⟨nofun, k, held', halone⟩
    · exact .inr (.inl ⟨a, i, nofun, hbare, hout, howner, hJ, Config.thread_setThread_self ..⟩)
  | stay heq hstay =>
    cases hth.symm.trans heq
    exact absurd hstay (h.not_stays hquiet)
  | @«return» t call a i _ _ heq =>
    cases hth.symm.trans heq
    obtain ⟨hbare, howner, hJ⟩ := h.bare_of_ret
    exact ⟨nofun, hquiet, fun u hu => Config.thread_setThread_ne _ _ hu, .inr (.inr
      ⟨a, i, rfl, rfl, hbare, hrun.symm, howner, hJ, Config.thread_setThread_self ..⟩)⟩

end Alone

/-! ## The simulation -/

/-- No thread locks `m` while a bare call is in progress, and a bare call begins only when nobody has
`m` and no other bare call is in progress. -/
def Apart [DecidableEq M] (m : M) (bare : Call → Bool)
    (c : ThreadConfig τ Call Act Res M C κ ι σ α) (l : Label τ Call Act (MonitorOp M C κ)) : Prop :=
  (l.event = .passed (.lock m) → ∀ u f, (c.thread u).frame = some f → bare f.call = false) ∧
  (l.event = .begun → bare l.call = true →
    c.monitor.owner m = none ∧ ∀ u f, (c.thread u).frame = some f → bare f.call = false)

section Simulation

variable [DecidableEq τ] [Calls Call (MonitorSig Act Res M C κ) ι α]
variable {m : M} {J : κ → Prop} {bare : Call → Bool} {calls : τ → List Call}
variable {order : List (τ × Call)} {rs : List (τ × α)} {e : σ} {t u : τ}

/-- A thread that is in no call, or has not locked `m` yet, or has only to return. -/
inductive Outside (bare : Call → Bool) (order : List (τ × Call)) (rs : List (τ × α))
    (calls : List Call) (t : τ) : Thread Call (MonitorSig Act Res M C κ) ι α → Prop where
  | idle {todo done} (hcalls : entriesOf t order ++ todo = calls) (hdone : entriesOf t rs = done) :
      Outside bare order rs calls t ⟨todo, none, done⟩
  | before {call todo done} (hbare : bare call = false)
      (hcalls : entriesOf t order ++ call :: todo = calls) (hdone : entriesOf t rs = done) :
      Outside bare order rs calls t ⟨todo, some ⟨call, Calls.code call, Calls.input call⟩, done⟩
  | after {call a i todo done} (hbare : bare call = false)
      (hcalls : entriesOf t order ++ todo = calls) (hdone : entriesOf t rs = done ++ [a]) :
      Outside bare order rs calls t ⟨todo, some ⟨call, .ret a, i⟩, done⟩

-- What another thread does in the serial run is no matter.
theorem Outside.concat {th : Thread Call (MonitorSig Act Res M C κ) ι α} {calls : List Call}
    (h : Outside bare order rs calls u th) (hne : t ≠ u) (call : Call) (a : α) :
    Outside bare (order ++ [(t, call)]) (rs ++ [(t, a)]) calls u th := by
  cases h with
  | idle hcalls hdone =>
    exact .idle (by rwa [entriesOf_concat_ne _ _ hne]) (by rwa [entriesOf_concat_ne _ _ hne])
  | before hbare hcalls hdone =>
    exact .before hbare (by rwa [entriesOf_concat_ne _ _ hne]) (by rwa [entriesOf_concat_ne _ _ hne])
  | after hbare hcalls hdone =>
    exact .after hbare (by rwa [entriesOf_concat_ne _ _ hne]) (by rwa [entriesOf_concat_ne _ _ hne])

-- A thread outside moves, next to what the others are at.
theorem Outside.others {c : ThreadConfig τ Call Act Res M C κ ι σ α} {v : τ}
    {th : Thread Call (MonitorSig Act Res M C κ) ι α}
    (houtside : ∀ u ≠ t, Outside bare order rs (calls u) u (c.thread u))
    (hth : Outside bare order rs (calls v) v ((c.setThread v th).thread v)) :
    ∀ u ≠ t, Outside bare order rs (calls u) u ((c.setThread v th).thread u) := by
  intro u hu
  by_cases huv : u = v
  · exact huv ▸ hth
  · rw [Config.thread_setThread_ne _ _ huv]
    exact houtside u hu

variable [DecidableEq M] [Store (MonitorSig Act Res M C κ) ι σ]
variable {c c' : ThreadConfig τ Call Act Res M C κ ι σ α}
variable {l : Label τ Call Act (MonitorOp M C κ)}

/-- The state of the system next to that of the serial run: no mutex is locked, or one thread runs
alone.  A call that locks `m` is in the serial run from then on, with the result it will have; a bare
call comes into it when it returns. -/
inductive Phase (m : M) (J : κ → Prop) (bare : Call → Bool) (calls : τ → List Call)
    (order : List (τ × Call)) (rs : List (τ × α)) (e : σ)
    (c : ThreadConfig τ Call Act Res M C κ ι σ α) : Prop where
  | free (howner : c.monitor.owner = fun _ => none) (hJ : J c.monitor.vars) (hstore : c.store = e)
      (houtside : ∀ u, Outside bare order rs (calls u) u (c.thread u))
  | inside {t call todo done a i' p held} (hbare : bare call = false)
      (halone : Alone m J false (some (a, i', e)) t call todo done c p held)
      (hcalls : entriesOf t order ++ todo = calls t) (hdone : entriesOf t rs = done ++ [a])
      (houtside : ∀ u ≠ t, Outside bare order rs (calls u) u (c.thread u))
  | bare {t call todo done p held} (hbare : bare call = true)
      (halone : Alone m J true (run (Calls.code call) (Calls.input call) e) t call todo done c p held)
      (hcalls : entriesOf t order ++ call :: todo = calls t) (hdone : entriesOf t rs = done)
      (houtside : ∀ u ≠ t, Outside bare order rs (calls u) u (c.thread u))

structure Simulates (m : M) (J : κ → Prop) (bare : Call → Bool) (calls : τ → List Call)
    (order : List (τ × Call)) (rs : List (τ × α)) (e : σ)
    (c : ThreadConfig τ Call Act Res M C κ ι σ α) : Prop where
  quiet : c.monitor.Quiet
  phase : Phase m J bare calls order rs e c

-- Each thread has begun calls of its own and has results of the serial run.
theorem Simulates.begun (h : Simulates m J bare calls order rs e c) (t : τ) :
    entriesOf t order <+: calls t ∧ (c.thread t).done <+: entriesOf t rs := by
  have houtside : ∀ th, Outside bare order rs (calls t) t th →
      entriesOf t order <+: calls t ∧ th.done <+: entriesOf t rs := by
    intro th hth
    cases hth with
    | idle hcalls hdone => exact ⟨⟨_, hcalls⟩, ⟨[], by rw [List.append_nil, hdone]⟩⟩
    | before _ hcalls hdone => exact ⟨⟨_, hcalls⟩, ⟨[], by rw [List.append_nil, hdone]⟩⟩
    | after _ hcalls hdone => exact ⟨⟨_, hcalls⟩, ⟨_, hdone.symm⟩⟩
  cases h.phase with
  | free _ _ _ hall => exact houtside _ (hall t)
  | @inside u _ _ _ _ _ _ _ _ halone hcalls hdone hall =>
    by_cases htu : t = u
    · subst htu
      obtain ⟨i, hth, -⟩ := halone.thread
      rw [hth]
      exact ⟨⟨_, hcalls⟩, ⟨_, hdone.symm⟩⟩
    · exact houtside _ (hall t htu)
  | @bare u _ _ _ _ _ _ halone hcalls hdone hall =>
    by_cases htu : t = u
    · subst htu
      obtain ⟨i, hth, -⟩ := halone.thread
      rw [hth]
      exact ⟨⟨_, hcalls⟩, ⟨[], by rw [List.append_nil, hdone]⟩⟩
    · exact houtside _ (hall t htu)

-- While no call is in progress, nothing of the serial run is left out.
theorem Simulates.returned (h : Simulates m J bare calls order rs e c)
    (hnone : ∀ t, (c.thread t).frame = none) :
    c.monitor.owner m = none ∧ c.store = e ∧ ∀ t,
      entriesOf t order ++ (c.thread t).todo = calls t ∧ (c.thread t).done = entriesOf t rs := by
  have hno : ∀ {t todo f done}, c.thread t = ⟨todo, some f, done⟩ → False := by
    intro t todo f done hth
    have hframe := hnone t
    rw [hth] at hframe
    cases hframe
  cases h.phase with
  | free howner _ hstore hall =>
    refine ⟨congrFun howner m, hstore, fun t => ?_⟩
    have hth := hall t
    have hframe := hnone t
    generalize c.thread t = th at hth hframe
    cases hth with
    | idle hcalls hdone => exact ⟨hcalls, hdone.symm⟩
    | before _ _ _ => cases hframe
    | after _ _ _ => cases hframe
  | inside _ halone _ _ _ => exact (hno halone.thread.choose_spec.1).elim
  | bare _ halone _ _ _ => exact (hno halone.thread.choose_spec.1).elim

theorem Simulates.finished (h : Simulates m J bare calls order rs e c) (hfin : c.Finished) :
    c.store = e ∧ ∀ t, entriesOf t order = calls t ∧ (c.thread t).done = entriesOf t rs := by
  obtain ⟨-, hstore, hall⟩ := h.returned fun t => (hfin t).2
  refine ⟨hstore, fun t => ?_⟩
  obtain ⟨hcalls, hdone⟩ := hall t
  rw [(hfin t).1, List.append_nil] at hcalls
  exact ⟨hcalls, hdone⟩

/-- The serial run, started from `s₀`, goes on to one that `c'` simulates; it is longer by the call of
`l` if that counts. -/
def Advances (m : M) (J : κ → Prop) (bare : Call → Bool) (calls : τ → List Call)
    (order : List (τ × Call)) (s₀ : σ) (l : Label τ Call Act (MonitorOp M C κ))
    (c' : ThreadConfig τ Call Act Res M C κ ι σ α) : Prop :=
  ∃ order' rs e, serial order' s₀ = some (rs, e) ∧ Simulates m J bare calls order' rs e c' ∧
    (l.Counts m bare → order' = order ++ [(l.thread, l.call)]) ∧
    (¬ l.Counts m bare → order' = order)

theorem Advances.same {s₀ : σ} (hcount : ¬ l.Counts m bare) (hserial : serial order s₀ = some (rs, e))
    (hsim : Simulates m J bare calls order rs e c') : Advances m J bare calls order s₀ l c' :=
  ⟨order, rs, e, hserial, hsim, fun hc => absurd hc hcount, fun _ => rfl⟩

theorem Advances.longer {s₀ : σ} (hcount : l.Counts m bare)
    (hserial : serial (order ++ [(l.thread, l.call)]) s₀ = some (rs, e))
    (hsim : Simulates m J bare calls (order ++ [(l.thread, l.call)]) rs e c') :
    Advances m J bare calls order s₀ l c' :=
  ⟨_, rs, e, hserial, hsim, fun _ => rfl, fun hc => absurd hcount hc⟩

-- A thread enters: what it will do alone is the next step of the serial run.
theorem Phase.enter {s₀ : σ} {k : Prog (MonitorSig Act Res M C κ) α} {todo : List Call} {done : List α}
    (hquiet : c.monitor.Quiet) (howner : c.monitor.owner = fun _ => none) (hJ : J c.monitor.vars)
    (hstore : c.store = e) (houtside : ∀ u, Outside bare order rs (calls u) u (c.thread u))
    (hserial : serial order s₀ = some (rs, e)) (hlock : l.event = .passed (.lock m))
    (hbare : bare l.call = false) (hk : Calls.code l.call = .sync (.lock m) k)
    (hfollows : ∀ v, J v → Follows exclusive k (fun _ x => x.1 = [] ∧ J x.2) ([m], v))
    (hcalls : entriesOf l.thread order ++ l.call :: todo = calls l.thread)
    (hdone : entriesOf l.thread rs = done) :
    Advances m J bare calls order s₀ l
      (({ c with monitor := c.monitor.setOwner m (some l.thread) }).setThread l.thread
        ⟨todo, some ⟨l.call, k, Calls.input l.call⟩, done⟩) := by
  have hfollows := hfollows _ hJ
  obtain ⟨a, i', e', hrun, -⟩ := wp_run (exclusive_returns hfollows e) (Calls.input l.call)
  have halone : Alone m J false (some (a, i', e')) l.thread l.call todo done
      (({ c with monitor := c.monitor.setOwner m (some l.thread) }).setThread l.thread
        ⟨todo, some ⟨l.call, k, Calls.input l.call⟩, done⟩) k [m] := by
    refine ⟨rfl, List.pairwise_singleton _ m, fun m' => ?_, hfollows.dying nofun, _,
      Config.thread_setThread_self .., hstore ▸ hrun⟩
    by_cases hm' : m' = m
    · subst hm'
      rw [if_pos ⟨List.mem_singleton_self m', fun _ => rfl⟩]
      exact Monitor.owner_setOwner_self ..
    · rw [if_neg fun hc => hm' (List.mem_singleton.mp hc.1)]
      exact (Monitor.owner_setOwner_ne _ _ hm').trans (congrFun howner m')
  refine .longer (.inl hlock) (serial_concat hserial (by rw [hk]; exact hrun))
    ⟨hquiet, .inside hbare halone ?_ ?_ fun u hu => ?_⟩
  · rw [entriesOf_concat_self, List.append_assoc]
    exact hcalls
  · rw [entriesOf_concat_self, hdone]
  · rw [Config.thread_setThread_ne _ _ hu]
    exact (houtside u).concat hu.symm _ _

-- A bare call begins; it is in the serial run when it returns.
theorem Phase.beginBare {s₀ : σ} {todo : List Call} {done : List α}
    (hbareCode : BareBy m J (Calls.code l.call : Prog (MonitorSig Act Res M C κ) α))
    (hquiet : c.monitor.Quiet) (howner : c.monitor.owner = fun _ => none) (hJ : J c.monitor.vars)
    (hstore : c.store = e) (houtside : ∀ u, Outside bare order rs (calls u) u (c.thread u))
    (hserial : serial order s₀ = some (rs, e)) (hbegun : l.event = .begun)
    (hbare : bare l.call = true)
    (hcalls : entriesOf l.thread order ++ l.call :: todo = calls l.thread)
    (hdone : entriesOf l.thread rs = done) :
    Advances m J bare calls order s₀ l (c.setThread l.thread
      ⟨todo, some ⟨l.call, Calls.code l.call, Calls.input l.call⟩, done⟩) := by
  have hcount : ¬ l.Counts m bare := by
    rintro (hc | ⟨hc, -⟩) <;> cases hbegun.symm.trans hc
  have halone : Alone m J true (run (Calls.code l.call) (Calls.input l.call) e) l.thread l.call
      todo done (c.setThread l.thread
        ⟨todo, some ⟨l.call, Calls.code l.call, Calls.input l.call⟩, done⟩)
      (Calls.code l.call) [m] := by
    refine ⟨rfl, List.pairwise_singleton _ m, fun m' => ?_, hbareCode _ hJ, _,
      Config.thread_setThread_self .., by rw [Config.store_setThread, hstore]⟩
    rw [if_neg fun hc => absurd (hc.2 (List.mem_singleton.mp hc.1)) nofun]
    exact congrFun howner m'
  refine .same hcount hserial ⟨hquiet, .bare hbare halone hcalls hdone fun u hu => ?_⟩
  rw [Config.thread_setThread_ne _ _ hu]
  exact houtside u

variable [DecidableEq C]

-- A thread outside moves in its own business only, or locks `m`, or begins a bare call.
theorem Outside.step {cs : List Call}
    (hcode : ∀ call ∈ cs, bare call = false →
      GuardedBy m J (Calls.code call : Prog (MonitorSig Act Res M C κ) α))
    (h : Outside bare order rs cs l.thread (c.thread l.thread)) (hs : Step c l c') :
    (¬ l.Counts m bare ∧ (∃ th, c' = c.setThread l.thread th) ∧
      Outside bare order rs cs l.thread (c'.thread l.thread)) ∨
    (∃ k todo done, l.event = .passed (.lock m) ∧ c.monitor.owner m = none ∧
      bare l.call = false ∧ Calls.code l.call = .sync (.lock m) k ∧
      (∀ v, J v → Follows exclusive k (fun _ x => x.1 = [] ∧ J x.2) ([m], v)) ∧
      entriesOf l.thread order ++ l.call :: todo = cs ∧ entriesOf l.thread rs = done ∧
      c' = ({ c with monitor := c.monitor.setOwner m (some l.thread) }).setThread l.thread
        ⟨todo, some ⟨l.call, k, Calls.input l.call⟩, done⟩) ∨
    ∃ todo done, l.event = .begun ∧ bare l.call = true ∧
      entriesOf l.thread order ++ l.call :: todo = cs ∧ entriesOf l.thread rs = done ∧
      c' = c.setThread l.thread
        ⟨todo, some ⟨l.call, Calls.code l.call, Calls.input l.call⟩, done⟩ := by
  generalize hth : c.thread l.thread = th at h
  cases h with
  | idle hcalls hdone =>
    cases hs with
    | @begin t call _ _ heq =>
      cases hth.symm.trans heq
      by_cases hbare : bare call = true
      · exact .inr (.inr ⟨_, _, rfl, hbare, hcalls, hdone, rfl⟩)
      · refine .inl ⟨?_, ⟨_, rfl⟩, ?_⟩
        · rintro (h | ⟨h, -⟩) <;> cases h
        · rw [Config.thread_setThread_self]
          exact .before (Bool.eq_false_iff.mpr hbare) hcalls hdone
    | act heq => cases hth.symm.trans heq
    | pass heq _ => cases hth.symm.trans heq
    | stay heq _ => cases hth.symm.trans heq
    | «return» heq => cases hth.symm.trans heq
  | @before call todo done hbare hcalls hdone =>
    obtain ⟨k, hk, hfollows⟩ := hcode call (by
      rw [← hcalls]
      exact List.mem_append_right _ (List.mem_cons_self ..)) hbare
    rw [hk] at hth
    cases hs with
    | begin heq => cases hth.symm.trans heq
    | act heq => cases hth.symm.trans heq
    | pass heq hpass =>
      cases hth.symm.trans heq
      cases hpass with
      | lock hfree =>
        exact .inr (.inl ⟨k, todo, done, rfl, hfree, hbare, hk, hfollows, hcalls, hdone, rfl⟩)
    | stay heq hstay =>
      cases hth.symm.trans heq
      cases hstay
    | «return» heq => cases hth.symm.trans heq
  | @after call _ _ _ _ hbare hcalls hdone =>
    cases hs with
    | begin heq => cases hth.symm.trans heq
    | act heq => cases hth.symm.trans heq
    | pass heq _ => cases hth.symm.trans heq
    | stay heq _ => cases hth.symm.trans heq
    | «return» heq =>
      cases hth.symm.trans heq
      refine .inl ⟨?_, ⟨_, rfl⟩, ?_⟩
      · rintro (h | ⟨-, h⟩)
        · cases h
        · cases hbare.symm.trans h
      · rw [Config.thread_setThread_self]
        exact .idle hcalls hdone

section Advance
variable {s₀ : σ}
variable (hcode : ∀ t, ∀ call ∈ calls t, bare call = false →
  GuardedBy m J (Calls.code call : Prog (MonitorSig Act Res M C κ) α))

include hcode

-- While no mutex is locked, threads move outside, until one enters or begins a bare call.
theorem Phase.step_free
    (hbareCode : ∀ t, ∀ call ∈ calls t, bare call = true →
      BareBy m J (Calls.code call : Prog (MonitorSig Act Res M C κ) α))
    (hquiet : c.monitor.Quiet) (howner : c.monitor.owner = fun _ => none) (hJ : J c.monitor.vars)
    (hstore : c.store = e) (houtside : ∀ u, Outside bare order rs (calls u) u (c.thread u))
    (hserial : serial order s₀ = some (rs, e)) (hs : Step c l c') :
    Advances m J bare calls order s₀ l c' := by
  rcases (houtside l.thread).step (hcode l.thread) hs with
    ⟨hcount, ⟨th, rfl⟩, hth⟩ | ⟨k, todo, done, hlock, -, hbare, hk, hfollows, hcalls, hdone, rfl⟩ |
    ⟨todo, done, hbegun, hbare, hcalls, hdone, rfl⟩
  · refine .same hcount hserial ⟨hquiet, .free howner hJ hstore fun u => ?_⟩
    by_cases hu : u = l.thread
    · exact hu ▸ hth
    · rw [Config.thread_setThread_ne _ _ hu]
      exact houtside u
  · exact Phase.enter hquiet howner hJ hstore houtside hserial hlock hbare hk hfollows hcalls hdone
  · refine Phase.beginBare (hbareCode l.thread l.call ?_ hbare) hquiet howner hJ hstore houtside
      hserial hbegun hbare hcalls hdone
    rw [← hcalls]
    exact List.mem_append_right _ (List.mem_cons_self ..)

-- While a thread has locked `m`, it goes on alone to its end, and the others cannot enter.
theorem Phase.step_inside {t : τ} {call : Call} {todo : List Call} {done : List α} {a : α} {i' : ι}
    {p : Prog (MonitorSig Act Res M C κ) α} {held : List M} (hquiet : c.monitor.Quiet)
    (hbare : bare call = false)
    (halone : Alone m J false (some (a, i', e)) t call todo done c p held)
    (hcalls : entriesOf t order ++ todo = calls t) (hdone : entriesOf t rs = done ++ [a])
    (houtside : ∀ u ≠ t, Outside bare order rs (calls u) u (c.thread u))
    (hserial : serial order s₀ = some (rs, e)) (hok : Apart m bare c l) (hs : Step c l c') :
    Advances m J bare calls order s₀ l c' := by
  by_cases ht : l.thread = t
  · subst ht
    obtain ⟨hlock, hquiet', hothers, hcases⟩ := halone.step hquiet hs
    have houtside' : ∀ u ≠ l.thread, Outside bare order rs (calls u) u (c'.thread u) := by
      intro u hu
      rw [hothers u hu]
      exact houtside u hu
    rcases hcases with ⟨hreturned, p', held', halone'⟩ |
      ⟨b, i, hreturned, -, hout, howner, hJ, hth⟩ | ⟨_, _, _, _, hc, _⟩
    · have hcount : ¬ l.Counts m bare := fun hc => hc.elim hlock fun hc => hreturned hc.1
      exact .same hcount hserial ⟨hquiet', .inside hbare halone' hcalls hdone houtside'⟩
    · have hcount : ¬ l.Counts m bare := fun hc => hc.elim hlock fun hc => hreturned hc.1
      cases hout
      refine .same hcount hserial ⟨hquiet', .free howner hJ rfl fun u => ?_⟩
      by_cases hu : u = l.thread
      · subst hu
        rw [hth]
        exact .after hbare hcalls hdone
      · exact houtside' u hu
    · cases hc
  · have howned : c.monitor.owner m = some t := by
      rw [halone.owner, if_pos ⟨List.mem_of_getLast? halone.bottom, fun _ => rfl⟩]
    rcases (houtside l.thread ht).step (hcode l.thread) hs with
      ⟨hcount, ⟨th, rfl⟩, hth⟩ | ⟨_, _, _, _, hfree, _⟩ | ⟨_, _, hbegun, hbare', _⟩
    · exact .same hcount hserial ⟨hquiet, .inside hbare (halone.spared (Ne.symm ht) th) hcalls hdone
        (Outside.others houtside hth)⟩
    · -- the lock is taken
      cases howned.symm.trans hfree
    · cases howned.symm.trans (hok.2 hbegun hbare').1

-- While a bare call is in progress, the other threads have to wait for its end.
theorem Phase.step_bare {t : τ} {call : Call} {todo : List Call} {done : List α}
    {p : Prog (MonitorSig Act Res M C κ) α} {held : List M} (hquiet : c.monitor.Quiet)
    (hbare : bare call = true)
    (halone : Alone m J true (run (Calls.code call) (Calls.input call) e) t call todo done c p held)
    (hcalls : entriesOf t order ++ call :: todo = calls t) (hdone : entriesOf t rs = done)
    (houtside : ∀ u ≠ t, Outside bare order rs (calls u) u (c.thread u))
    (hserial : serial order s₀ = some (rs, e)) (hok : Apart m bare c l) (hs : Step c l c') :
    Advances m J bare calls order s₀ l c' := by
  by_cases ht : l.thread = t
  · subst ht
    obtain ⟨hlock, hquiet', hothers, hcases⟩ := halone.step hquiet hs
    rcases hcases with ⟨hreturned, p', held', halone'⟩ | ⟨_, _, _, hc, _⟩ |
      ⟨a, i, hreturned, rfl, -, hout, howner, hJ, hth⟩
    · have hcount : ¬ l.Counts m bare := fun hc => hc.elim hlock fun hc => hreturned hc.1
      refine .same hcount hserial ⟨hquiet', .bare hbare halone' hcalls hdone fun u hu => ?_⟩
      rw [hothers u hu]
      exact houtside u hu
    · cases hc
    · refine .longer (.inr ⟨hreturned, hbare⟩) (serial_concat hserial hout)
        ⟨hquiet', .free howner hJ rfl fun u => ?_⟩
      by_cases hu : u = l.thread
      · subst hu
        rw [hth]
        refine .idle ?_ ?_
        · rw [entriesOf_concat_self, List.append_assoc]
          exact hcalls
        · rw [entriesOf_concat_self, hdone]
      · rw [hothers u hu]
        exact (houtside u hu).concat (Ne.symm hu) _ _
  · obtain ⟨i, hth, -⟩ := halone.thread
    have hframe : (c.thread t).frame = some ⟨call, p, i⟩ := by rw [hth]
    rcases (houtside l.thread ht).step (hcode l.thread) hs with
      ⟨hcount, ⟨th, rfl⟩, hth⟩ | ⟨_, _, _, hlock, _⟩ | ⟨_, _, hbegun, hbare', _⟩
    · exact .same hcount hserial ⟨hquiet, .bare hbare (halone.spared (Ne.symm ht) th) hcalls hdone
        (Outside.others houtside hth)⟩
    · cases hbare.symm.trans (hok.1 hlock t _ hframe)
    · cases hbare.symm.trans ((hok.2 hbegun hbare').2 t _ hframe)

-- The step lemma.
theorem Simulates.step
    (hbareCode : ∀ t, ∀ call ∈ calls t, bare call = true →
      BareBy m J (Calls.code call : Prog (MonitorSig Act Res M C κ) α))
    (h : Simulates m J bare calls order rs e c) (hserial : serial order s₀ = some (rs, e))
    (hok : Apart m bare c l) (hs : Step c l c') : Advances m J bare calls order s₀ l c' := by
  obtain ⟨hquiet, hphase⟩ := h
  cases hphase with
  | free howner hJ hstore houtside =>
    exact Phase.step_free hcode hbareCode hquiet howner hJ hstore houtside hserial hs
  | inside hbare halone hcalls hdone houtside =>
    exact Phase.step_inside hcode hquiet hbare halone hcalls hdone houtside hserial hok hs
  | bare hbare halone hcalls hdone houtside =>
    exact Phase.step_bare hcode hquiet hbare halone hcalls hdone houtside hserial hok hs

end Advance

/-- Every run in which bare calls are apart from the others follows the serial run of its calls: each
thread has received results of that run, and it has received all of them, and the stores are the
same, when every call has returned. -/
theorem serialised_of_apart {s₀ : σ} {v : κ} {ls : List (Label τ Call Act (MonitorOp M C κ))}
    (hcode : ∀ t, ∀ call ∈ calls t, bare call = false →
      GuardedBy m J (Calls.code call : Prog (MonitorSig Act Res M C κ) α))
    (hbareCode : ∀ t, ∀ call ∈ calls t, bare call = true →
      BareBy m J (Calls.code call : Prog (MonitorSig Act Res M C κ) α))
    (hJ : J v) (hrun : RunWhere (Apart m bare) (Config.start s₀ v calls) ls c) :
    ∃ rs e, serial (serialOrder m bare ls) s₀ = some (rs, e) ∧
      (∀ t, entriesOf t (serialOrder m bare ls) <+: calls t ∧
        (c.thread t).done <+: entriesOf t rs) ∧
      (c.Finished → c.store = e ∧ ∀ t, entriesOf t (serialOrder m bare ls) = calls t ∧
        (c.thread t).done = entriesOf t rs) := by
  obtain ⟨rs, e, hserial, hsim⟩ : ∃ rs e, serial (serialOrder m bare ls) s₀ = some (rs, e) ∧
      Simulates m J bare calls (serialOrder m bare ls) rs e c := by
    induction hrun with
    | nil =>
      exact ⟨[], s₀, rfl, fun _ => rfl, .free rfl hJ rfl fun t => .idle rfl rfl⟩
    | @snoc ls c l c' _ hok hs ih =>
      obtain ⟨rs, e, hserial, hsim⟩ := ih
      obtain ⟨order, rs', e', hserial', hsim', hcounts, hother⟩ :=
        hsim.step hcode hbareCode hserial hok hs
      refine ⟨rs', e', ?_⟩
      by_cases hl : l.Counts m bare
      · rw [serialOrder_concat _ _ _ hl, ← hcounts hl]
        exact ⟨hserial', hsim'⟩
      · rw [serialOrder_concat_ne _ hl, ← hother hl]
        exact ⟨hserial', hsim'⟩
  exact ⟨rs, e, hserial, hsim.begun, hsim.finished⟩

/-- Calls that all lock `m` are serial in every run, in the order in which they locked it. -/
theorem serialised {s₀ : σ} {v : κ} {ls : List (Label τ Call Act (MonitorOp M C κ))}
    (hcode : ∀ t, ∀ call ∈ calls t,
      GuardedBy m J (Calls.code call : Prog (MonitorSig Act Res M C κ) α))
    (hJ : J v) (hrun : Run (Config.start s₀ v calls) ls c) :
    ∃ rs e, serial (lockOrder m ls) s₀ = some (rs, e) ∧
      (∀ t, entriesOf t (lockOrder m ls) <+: calls t ∧ (c.thread t).done <+: entriesOf t rs) ∧
      (c.Finished → c.store = e ∧
        ∀ t, entriesOf t (lockOrder m ls) = calls t ∧ (c.thread t).done = entriesOf t rs) := by
  have hapart : RunWhere (Apart m fun _ => false) (Config.start s₀ v calls) ls c :=
    hrun.runWhere fun _ _ => ⟨fun _ _ _ _ => rfl, fun _ => nofun⟩
  rw [← serialOrder_false]
  exact serialised_of_apart (fun t call hcall _ => hcode t call hcall) (fun _ _ _ => nofun) hJ hapart

end Simulation

end Prog
