import InodeFs.Prog.Machine
import InodeFs.Prog.Ordered

/-!
# Objects under mutexes, and a pool they share

Each object has a mutex, and one more mutex is that of a pool.  The locations of the store are
divided among the objects and the pool.  A call locks the mutex of its object and then owns what
belongs to the object; while it has also locked the pool's, it owns what belongs to the pool, and may
divide the two anew when it unlocks that again.  It touches nothing else.

What such a call does is shown for the call alone, on what it owns (`owning`).  In every run the
calls are then linearisable: each takes effect at once when it locks the mutex of its object.
-/

namespace Prog

/-! ## Parts of a store -/

/-- What some locations hold. -/
abbrev Heap (L V : Type) := L → Option V

namespace Heap

variable {L V : Type}

/-- The locations of the part. -/
def dom (h : Heap L V) : Set L := {l | h l ≠ none}

def union (h g : Heap L V) : Heap L V := fun l => (h l).or (g l)

def Disjoint (h g : Heap L V) : Prop := ∀ l, h l = none ∨ g l = none

/-- The part is one of the store with contents `f`. -/
def Agrees (h : Heap L V) (f : L → V) : Prop := ∀ l v, h l = some v → f l = v

/-- The same locations, with the contents `f`. -/
def refresh (h : Heap L V) (f : L → V) : Heap L V := fun l => (h l).map fun _ => f l

/-- The locations that `p` selects, with the contents `f`. -/
def restrict (f : L → V) (p : L → Prop) [DecidablePred p] : Heap L V := fun l =>
  if p l then some (f l) else none

section Restrict
variable {f g : L → V} {p q : L → Prop} [DecidablePred p] [DecidablePred q]

theorem restrict_pos {l : L} (h : p l) : restrict f p l = some (f l) := if_pos h

theorem restrict_neg {l : L} (h : ¬ p l) : restrict f p l = none := if_neg h

theorem restrict_eq_none {l : L} : restrict f p l = none ↔ ¬ p l := by
  by_cases h : p l
  · rw [restrict_pos h]
    exact iff_of_false (Option.some_ne_none _) (not_not.mpr h)
  · exact iff_of_true (restrict_neg h) h

theorem dom_restrict : (restrict f p).dom = {l | p l} := by
  ext l
  exact restrict_eq_none.not.trans not_not

theorem restrict_congr (hpq : ∀ l, p l ↔ q l) (hfg : ∀ l, p l → f l = g l) :
    restrict f p = restrict g q := by
  funext l
  by_cases h : p l
  · rw [restrict_pos h, restrict_pos ((hpq l).mp h), hfg l h]
  · rw [restrict_neg h, restrict_neg fun hq => h ((hpq l).mpr hq)]

theorem agrees_restrict : (restrict f p).Agrees f := by
  intro l v h
  by_cases hp : p l
  · rw [restrict_pos hp] at h
    exact Option.some.inj h
  · rw [restrict_neg hp] at h
    cases h

theorem refresh_restrict : (restrict f p).refresh g = restrict g p := by
  funext l
  by_cases h : p l
  · rw [refresh, restrict_pos h, restrict_pos h, Option.map_some]
  · rw [refresh, restrict_neg h, restrict_neg h, Option.map_none]

theorem union_restrict :
    (restrict f p).union (restrict f q) = restrict f fun l => p l ∨ q l := by
  funext l
  by_cases h : p l
  · rw [union, restrict_pos h, restrict_pos (p := fun l => p l ∨ q l) (.inl h), Option.some_or]
  · rw [union, restrict_neg h, Option.none_or]
    by_cases hq : q l
    · rw [restrict_pos hq, restrict_pos (p := fun l => p l ∨ q l) (.inr hq)]
    · rw [restrict_neg hq, restrict_neg (p := fun l => p l ∨ q l) (not_or.mpr ⟨h, hq⟩)]

theorem disjoint_restrict (h : ∀ l, ¬ (p l ∧ q l)) : (restrict f p).Disjoint (restrict f q) := by
  intro l
  by_cases hp : p l
  · exact .inr (restrict_neg fun hq => h l ⟨hp, hq⟩)
  · exact .inl (restrict_neg hp)

end Restrict

end Heap

/-! ## What a call may do -/

/-- Objects under keys `K`, and the pool. -/
structure Custody (σ L V K M Call ρ ω : Type) where
  /-- The contents of a location. -/
  get : σ → L → V
  objects : Objects K Call ρ ω
  lockOf : K → M
  pool : M
  lockOf_inj : ∀ {j k}, lockOf j = lockOf k → j = k
  lockOf_ne : ∀ k, lockOf k ≠ pool
  /-- The part is an object with this value. -/
  holds : K → ω → Heap L V → Prop
  /-- The part is a pool. -/
  stock : Heap L V → Prop
  /-- An object may have these locations, at any time. -/
  fits : K → Set L → Prop
  /-- What the pool then has. -/
  ample : Set L → Prop
  ample_of_fits : ∀ A : L → Option K, (∀ k, fits k {l | A l = some k}) → ample {l | A l = none}

variable {τ Call Act M C κ ι σ α ρ ω L V K γ : Type} {Res : Act → Type}

-- An object whose mutex another thread has, or nobody, is another object.
theorem Custody.key_ne {D : Custody σ L V K M Call ρ ω} {owner : M → Option τ} {j k : K}
    {o : Option τ} {t : τ} (hj : owner (D.lockOf j) = o) (hk : owner (D.lockOf k) = some t)
    (ho : o ≠ some t) : j ≠ k := by
  rintro rfl
  exact ho (hj.symm.trans hk)

section Rules
variable [Store (MonitorSig Act Res M C κ) ι σ] (D : Custody σ L V K M Call ρ ω)

/-- The rules for a call on object `k` that has locked its mutex and brings it to `w`, on what the
call owns and whether it has locked the pool's mutex. -/
def owning (k : K) (w : ω) : Ghost (MonitorSig Act Res M C κ) (Heap L V × Bool) where
  act a P x := ∀ i s, x.1.Agrees (D.get s) →
    let r := Store.exec (S := MonitorSig Act Res M C κ) a i s
    (∀ l, x.1 l = none → D.get r.2.2 l = D.get s l) ∧ P r.1 (x.1.refresh (D.get r.2.2), x.2)
  sync
    | .lock m, P, x => m = D.pool ∧ x.2 = false ∧ (D.fits k x.1.dom →
        ∀ g, D.stock g → D.ample g.dom → x.1.Disjoint g → P (x.1.union g, true))
    | .unlock m, P, x =>
        (m = D.pool ∧ x.2 = true ∧ ∃ h g, x.1 = h.union g ∧ h.Disjoint g ∧ D.fits k h.dom ∧
          D.stock g ∧ P (h, false)) ∨
        (m = D.lockOf k ∧ x.2 = false ∧ D.holds k w x.1 ∧ P (fun _ => none, false))
    | .update _, P, x => P x
    | .waitWhile _ _ _, P, x => P x
    | .wake _, P, x => P x
  act_mono hPQ h := fun i s hs => ⟨(h i s hs).1, hPQ _ _ (h i s hs).2⟩
  sync_mono {s P Q x} hPQ h := by
    cases s with
    | lock m => exact ⟨h.1, h.2.1, fun hfits g hg ha hd => hPQ _ (h.2.2 hfits g hg ha hd)⟩
    | unlock m =>
      rcases h with ⟨hm, hx, p, g, heq, hdisj, hfits, hg, hP⟩ | ⟨hm, hx, hw, hP⟩
      · exact .inl ⟨hm, hx, p, g, heq, hdisj, hfits, hg, hPQ _ hP⟩
      · exact .inr ⟨hm, hx, hw, hPQ _ hP⟩
    | update f => exact hPQ _ h
    | waitWhile m cv busy => exact hPQ _ h
    | wake whom => exact hPQ _ h

/-- The call locks the mutex of its object first and then keeps to the rules, to the value that the
object comes to and with a result that looks like its reply. -/
def Performs [Calls Call (MonitorSig Act Res M C κ) ι α] (view : α → ρ) (ok : ω → Call → Prop)
    (call : Call) : Prop :=
  ∃ p, (Calls.code call : Prog (MonitorSig Act Res M C κ) α) =
      .sync (.lock (D.lockOf (D.objects.key call))) p ∧
    ∀ w h, ok w call → D.holds (D.objects.key call) w h →
      Follows (owning D (D.objects.key call) (D.objects.step w call).2) p
        (fun a _ => view a = (D.objects.step w call).1) (h, false)

theorem Performs.bind [Calls Call (MonitorSig Act Res M C κ) ι α] {D : Custody σ L V K M Call ρ ω}
    {view : α → ρ} {ok : ω → Call → Prop} {call : Call}
    {p : Unit → Prog (MonitorSig Act Res M C κ) α}
    (hcode : Calls.code call =
      synchronise (S := MonitorSig Act Res M C κ) (.lock (D.lockOf (D.objects.key call))) >>= p)
    (h : ∀ w h, ok w call → D.holds (D.objects.key call) w h →
      Follows (owning D (D.objects.key call) (D.objects.step w call).2) (p ())
        (fun a _ => view a = (D.objects.step w call).1) (h, false)) : Performs D view ok call :=
  ⟨p (), hcode, h⟩

end Rules

/-! ## The linearisation -/

section Order
variable [DecidableEq M]

/-- The calls in the order in which they locked the mutexes of their objects. -/
def keyOrder (D : Custody σ L V K M Call ρ ω) (ls : List (Label τ Call Act (MonitorOp M C κ))) :
    List (τ × Call) :=
  ls.filterMap fun l => match l.event with
    | .passed (.lock m) =>
        if m = D.lockOf (D.objects.key l.call) then some (l.thread, l.call) else none
    | _ => none

theorem keyOrder_concat {D : Custody σ L V K M Call ρ ω}
    (ls : List (Label τ Call Act (MonitorOp M C κ))) {l : Label τ Call Act (MonitorOp M C κ)}
    (h : l.event = .passed (.lock (D.lockOf (D.objects.key l.call)))) :
    keyOrder D (ls ++ [l]) = keyOrder D ls ++ [(l.thread, l.call)] := by
  simp only [keyOrder, List.filterMap_append, List.filterMap_cons, List.filterMap_nil, h, if_true]

theorem keyOrder_concat_ne {D : Custody σ L V K M Call ρ ω}
    (ls : List (Label τ Call Act (MonitorOp M C κ))) {l : Label τ Call Act (MonitorOp M C κ)}
    (h : l.event ≠ .passed (.lock (D.lockOf (D.objects.key l.call)))) :
    keyOrder D (ls ++ [l]) = keyOrder D ls := by
  have hnone : keyOrder D [l] = [] := by
    obtain ⟨t, call, event⟩ := l
    cases event with
    | passed s =>
      cases s with
      | lock m =>
        have hm : m ≠ D.lockOf (D.objects.key call) := fun hc => h (by rw [hc])
        simp only [keyOrder, List.filterMap_cons, List.filterMap_nil, if_neg hm]
      | _ => rfl
    | _ => rfl
  rw [keyOrder, List.filterMap_append, ← keyOrder, ← keyOrder, hnone, List.append_nil]

end Order

section Answers
variable [DecidableEq K] (O : Objects K Call ρ ω)

/-- What the objects reply to the calls, one after the other. -/
def answersOf (order : List (τ × Call)) (S : K → ω) : List (τ × ρ) :=
  (order.map Prod.fst).zip (O.machine.run (order.map Prod.snd) S).1

/-- What the objects are then. -/
def objectsAfter (order : List (τ × Call)) (S : K → ω) : K → ω :=
  (O.machine.run (order.map Prod.snd) S).2

/-- Each call is `ok` when its turn comes. -/
def Allowed (ok : ω → Call → Prop) (order : List (τ × Call)) (S : K → ω) : Prop :=
  O.machine.Along (fun S call => ok (S (O.key call)) call) (order.map Prod.snd) S

instance (ok : ω → Call → Prop) [∀ w call, Decidable (ok w call)] (order : List (τ × Call))
    (S : K → ω) : Decidable (Allowed O ok order S) :=
  inferInstanceAs (Decidable (O.machine.Along _ _ _))

variable {O}

theorem answersOf_concat (order : List (τ × Call)) (S : K → ω) (t : τ) (call : Call) :
    answersOf O (order ++ [(t, call)]) S = answersOf O order S ++
      [(t, (O.step (objectsAfter O order S (O.key call)) call).1)] := by
  have hlen : (order.map Prod.fst).length = (O.machine.run (order.map Prod.snd) S).1.length := by
    rw [Machine.length_run, List.length_map, List.length_map]
  rw [answersOf, List.map_append, List.map_append, List.map_singleton, List.map_singleton,
    Machine.run_concat, List.zip_append hlen]
  rfl

theorem objectsAfter_concat (order : List (τ × Call)) (S : K → ω) (t : τ) (call : Call) :
    objectsAfter O (order ++ [(t, call)]) S = Function.update (objectsAfter O order S) (O.key call)
      (O.step (objectsAfter O order S (O.key call)) call).2 := by
  rw [objectsAfter, List.map_append, List.map_singleton, Machine.run_concat]
  rfl

theorem allowed_concat {ok : ω → Call → Prop} {order : List (τ × Call)} {S : K → ω} {t : τ}
    {call : Call} : Allowed O ok (order ++ [(t, call)]) S ↔
      Allowed O ok order S ∧ ok (objectsAfter O order S (O.key call)) call := by
  rw [Allowed, List.map_append, List.map_singleton, Machine.along_concat]
  rfl

end Answers

/-! ## The invariant -/

section Invariant

variable [DecidableEq K] [DecidableEq τ] [Calls Call (MonitorSig Act Res M C κ) ι α]
variable [Store (MonitorSig Act Res M C κ) ι σ]

/-- What a call on object `k` owns when the locations are divided by `A`, where `none` stands for
the pool. -/
def Custody.part (D : Custody σ L V K M Call ρ ω) (A : L → Option K) (s : σ) (k : K)
    (pooled : Bool) : Heap L V :=
  Heap.restrict (D.get s) fun l => A l = some k ∨ (pooled = true ∧ A l = none)

/-- Where thread `t` is, whose calls are `cs`. -/
inductive Stage (D : Custody σ L V K M Call ρ ω) (view : α → ρ) (S : K → ω)
    (order : List (τ × Call)) (A : L → Option K) (s : σ) (owner : M → Option τ) (cs : List Call)
    (t : τ) : Thread Call (MonitorSig Act Res M C κ) ι α → Prop where
  | idle {todo done} (hpool : owner D.pool ≠ some t) (hcalls : entriesOf t order ++ todo = cs)
      (hdone : entriesOf t (answersOf D.objects order S) = done.map view) :
      Stage D view S order A s owner cs t ⟨todo, none, done⟩
  | before {call i todo done} (hpool : owner D.pool ≠ some t)
      (hcalls : entriesOf t order ++ call :: todo = cs)
      (hdone : entriesOf t (answersOf D.objects order S) = done.map view) :
      Stage D view S order A s owner cs t ⟨todo, some ⟨call, Calls.code call, i⟩, done⟩
  | inside {call p i todo done r b}
      (howner : owner (D.lockOf (D.objects.key call)) = some t)
      (hpool : owner D.pool = some t ↔ b = true)
      (hcalls : entriesOf t order ++ todo = cs)
      (hdone : entriesOf t (answersOf D.objects order S) = done.map view ++ [r])
      (hfollows : Follows
        (owning D (D.objects.key call) (objectsAfter D.objects order S (D.objects.key call))) p
        (fun a _ => view a = r) (D.part A s (D.objects.key call) b, b)) :
      Stage D view S order A s owner cs t ⟨todo, some ⟨call, p, i⟩, done⟩
  | after {call a i todo done} (hpool : owner D.pool ≠ some t)
      (hcalls : entriesOf t order ++ todo = cs)
      (hdone : entriesOf t (answersOf D.objects order S) = done.map view ++ [view a]) :
      Stage D view S order A s owner cs t ⟨todo, some ⟨call, .ret a, i⟩, done⟩

/-- The locations are divided by `A`: what nobody works on is as the linearisation has it. -/
structure InStep (D : Custody σ L V K M Call ρ ω) (view : α → ρ) (S : K → ω)
    (calls : τ → List Call) (order : List (τ × Call)) (A : L → Option K)
    (c : ThreadConfig τ Call Act Res M C κ ι σ α) : Prop where
  fits : ∀ k, D.fits k {l | A l = some k}
  pool : c.monitor.owner D.pool = none →
    D.stock (Heap.restrict (D.get c.store) fun l => A l = none)
  object : ∀ k, c.monitor.owner (D.lockOf k) = none →
    D.holds k (objectsAfter D.objects order S k) (D.part A c.store k false)
  stage : ∀ t, Stage D view S order A c.store c.monitor.owner (calls t) t (c.thread t)

variable {D : Custody σ L V K M Call ρ ω} {view : α → ρ} {S : K → ω} {calls : τ → List Call}
variable {order order' : List (τ × Call)} {A A' : L → Option K} {s s' : σ} {k : K} {pooled : Bool}
variable {owner owner' : M → Option τ} {t u : τ} {cs : List Call}
variable {th : Thread Call (MonitorSig Act Res M C κ) ι α}
variable {c c' : ThreadConfig τ Call Act Res M C κ ι σ α}

theorem Custody.part_congr
    (h : ∀ l, A l = some k ∨ (pooled = true ∧ A l = none) → D.get s' l = D.get s l) :
    D.part A s' k pooled = D.part A s k pooled :=
  Heap.restrict_congr (fun _ => Iff.rfl) h

theorem Custody.part_pos {l : L} (h : A l = some k ∨ (pooled = true ∧ A l = none)) :
    D.part A s k pooled l = some (D.get s l) :=
  Heap.restrict_pos (p := fun l => A l = some k ∨ (pooled = true ∧ A l = none)) h

theorem Custody.part_neg {l : L} (h : ¬ (A l = some k ∨ (pooled = true ∧ A l = none))) :
    D.part A s k pooled l = none :=
  Heap.restrict_neg (p := fun l => A l = some k ∨ (pooled = true ∧ A l = none)) h

theorem Custody.dom_part : (D.part A s k false).dom = {l | A l = some k} := by
  rw [part, Heap.dom_restrict]
  ext l
  exact or_iff_left fun h => Bool.false_ne_true h.1

theorem Custody.union_part :
    (D.part A s k false).union (Heap.restrict (D.get s) fun l => A l = none) =
      D.part A s k true := by
  rw [part, Heap.union_restrict]
  apply Heap.restrict_congr
  · intro l
    simp only [Bool.false_eq_true, false_and, or_false, true_and]
  · exact fun _ _ => rfl

theorem Custody.disjoint_part :
    (D.part A s k false).Disjoint (Heap.restrict (D.get s) fun l => A l = none) := by
  apply Heap.disjoint_restrict
  rintro l ⟨hk | ⟨hf, -⟩, hnone⟩
  · cases hk.symm.trans hnone
  · cases hf

/-- How the locations are divided when a call on object `k` leaves `left` to the pool. -/
def Custody.divided (A : L → Option K) (k : K) (left : Heap L V) : L → Option K := fun l =>
  if (left l).isSome then none else if A l = none then some k else A l

section Divided
variable {kept left : Heap L V} (heq : D.part A s k true = kept.union left)
variable (hdisj : kept.Disjoint left)
include heq hdisj

theorem Custody.divided_cases (l : L) :
    (kept l = some (D.get s l) ∧ left l = none ∧ divided A k left l = some k ∧
      (A l = some k ∨ A l = none)) ∨
    (kept l = none ∧ left l = some (D.get s l) ∧ divided A k left l = none ∧
      (A l = some k ∨ A l = none)) ∨
    (kept l = none ∧ left l = none ∧ divided A k left l = A l ∧
      ¬ (A l = some k ∨ A l = none)) := by
  have hl := congrFun heq l
  unfold divided
  by_cases hown : A l = some k ∨ A l = none
  · rw [Custody.part_pos (hown.imp_right fun h => ⟨rfl, h⟩), Heap.union] at hl
    rcases hdisj l with hnone | hnone
    · rw [hnone, Option.none_or] at hl
      exact .inr (.inl ⟨hnone, hl.symm, if_pos (by rw [← hl]; rfl), hown⟩)
    · rw [hnone, Option.or_none] at hl
      refine .inl ⟨hl.symm, hnone, ?_, hown⟩
      rw [hnone, Option.isSome_none, if_neg Bool.false_ne_true]
      split
      · rfl
      · rename_i hne
        exact hown.resolve_right hne
  · rw [Custody.part_neg fun h => hown (h.imp_right And.right), Heap.union] at hl
    obtain ⟨hkept, hleft⟩ := Option.or_eq_none_iff.mp hl.symm
    refine .inr (.inr ⟨hkept, hleft, ?_, hown⟩)
    rw [hleft, Option.isSome_none, if_neg Bool.false_ne_true, if_neg fun hc => hown (.inr hc)]

theorem Custody.divided_eq_some {j : K} (hj : j ≠ k) (l : L) :
    divided A k left l = some j ↔ A l = some j := by
  have hno : ∀ {o : Option K}, o = some k ∨ o = none → o ≠ some j := by
    rintro o (rfl | rfl) hc
    · exact hj (Option.some.inj hc).symm
    · cases hc
  rcases divided_cases heq hdisj l with ⟨-, -, hd, hown⟩ | ⟨-, -, hd, hown⟩ | ⟨-, -, hd, -⟩
  · exact iff_of_false (hno (.inl hd)) (hno hown)
  · exact iff_of_false (hno (.inr hd)) (hno hown)
  · rw [hd]

-- The call's part is what it keeps, the pool's what it leaves, and the other parts stay.
theorem Custody.part_divided : D.part (divided A k left) s k false = kept := by
  ext1 l
  rcases divided_cases heq hdisj l with ⟨hk, -, hd, -⟩ | ⟨hk, -, hd, -⟩ | ⟨hk, -, hd, hown⟩
  · rw [hk, part_pos (.inl hd)]
  · rw [hk, part_neg]
    rw [hd]
    rintro (hc | ⟨hc, -⟩) <;> cases hc
  · rw [hk, part_neg]
    rw [hd]
    exact fun hc => hown (hc.imp_right And.right)

theorem Custody.pool_divided :
    (Heap.restrict (D.get s) fun l => divided A k left l = none) = left := by
  ext1 l
  rcases divided_cases heq hdisj l with ⟨-, hl, hd, -⟩ | ⟨-, hl, hd, -⟩ | ⟨-, hl, hd, hown⟩
  · rw [hl, Heap.restrict_eq_none, hd]
    exact Option.some_ne_none _
  · rw [hl, Heap.restrict_pos (p := fun l => divided A k left l = none) hd]
  · rw [hl, Heap.restrict_eq_none, hd]
    exact fun hc => hown (.inr hc)

theorem Custody.part_divided_ne {j : K} (hj : j ≠ k) :
    D.part (divided A k left) s j false = D.part A s j false := by
  apply Heap.restrict_congr
  · intro l
    rw [divided_eq_some heq hdisj hj]
    simp only [Bool.false_eq_true, false_and]
  · exact fun _ _ => rfl

end Divided

-- A thread that takes no step, and whose locations stay.
theorem Stage.others (h : Stage D view S order A s owner cs u th)
    (howner : ∀ m, owner' m = some u ↔ owner m = some u)
    (horder : entriesOf u order' = entriesOf u order)
    (hanswers : entriesOf u (answersOf D.objects order' S) =
      entriesOf u (answersOf D.objects order S))
    (hkeep : ∀ k, owner (D.lockOf k) = some u →
      objectsAfter D.objects order' S k = objectsAfter D.objects order S k ∧
      ∀ pooled, (owner D.pool = some u ↔ pooled = true) →
        D.part A' s' k pooled = D.part A s k pooled) :
    Stage D view S order' A' s' owner' cs u th := by
  have hpool' : ∀ {b : Prop}, (owner D.pool = some u ↔ b) → (owner' D.pool = some u ↔ b) :=
    fun h => (howner _).trans h
  cases h with
  | idle hpool hcalls hdone =>
    exact .idle (mt (howner _).mp hpool) (horder ▸ hcalls) (hanswers ▸ hdone)
  | before hpool hcalls hdone =>
    exact .before (mt (howner _).mp hpool) (horder ▸ hcalls) (hanswers ▸ hdone)
  | @inside call p i todo done r pooled hown hpool hcalls hdone hfollows =>
    obtain ⟨hobject, hpart⟩ := hkeep _ hown
    refine .inside ((howner _).mpr hown) (hpool' hpool) (horder ▸ hcalls) (hanswers ▸ hdone) ?_
    rw [hobject, hpart pooled hpool]
    exact hfollows
  | after hpool hcalls hdone =>
    exact .after (mt (howner _).mp hpool) (horder ▸ hcalls) (hanswers ▸ hdone)

-- What a step of thread `t` has to preserve.
theorem InStep.of_step (h : InStep D view S calls order A c)
    (hthread : c'.thread = Function.update c.thread t th)
    (hfits : ∀ k, D.fits k {l | A' l = some k})
    (hpool : c'.monitor.owner D.pool = none →
      D.stock (Heap.restrict (D.get c'.store) fun l => A' l = none))
    (hobject : ∀ k, c'.monitor.owner (D.lockOf k) = none →
      D.holds k (objectsAfter D.objects order' S k) (D.part A' c'.store k false))
    (hstage : Stage D view S order' A' c'.store c'.monitor.owner (calls t) t th)
    (howner : ∀ u ≠ t, ∀ m, c'.monitor.owner m = some u ↔ c.monitor.owner m = some u)
    (hlog : ∀ u ≠ t, entriesOf u order' = entriesOf u order ∧
      entriesOf u (answersOf D.objects order' S) = entriesOf u (answersOf D.objects order S))
    (hkeep : ∀ u ≠ t, ∀ k, c.monitor.owner (D.lockOf k) = some u →
      objectsAfter D.objects order' S k = objectsAfter D.objects order S k ∧
      ∀ pooled, (c.monitor.owner D.pool = some u ↔ pooled = true) →
        D.part A' c'.store k pooled = D.part A c.store k pooled) :
    InStep D view S calls order' A' c' := by
  refine ⟨hfits, hpool, hobject, fun u => ?_⟩
  by_cases hu : u = t
  · subst hu
    rw [hthread, Function.update_self]
    exact hstage
  · rw [hthread, Function.update_of_ne hu]
    exact (h.stage u).others (howner u hu) (hlog u hu).1 (hlog u hu).2 (hkeep u hu)

-- A step that changes neither the store nor who has which mutex.
theorem InStep.proceed (h : InStep D view S calls order A c)
    (hthread : c'.thread = Function.update c.thread t th) (hstore : c'.store = c.store)
    (howner : c'.monitor.owner = c.monitor.owner)
    (hstage : Stage D view S order A c.store c.monitor.owner (calls t) t th) :
    InStep D view S calls order A c' := by
  refine h.of_step hthread h.fits ?_ ?_ ?_ (fun u _ m => ?_) (fun _ _ => ⟨rfl, rfl⟩)
    fun _ _ _ _ => ⟨rfl, fun _ _ => ?_⟩
  · rw [howner, hstore]
    exact h.pool
  · rw [howner, hstore]
    exact h.object
  · rw [howner, hstore]
    exact hstage
  · rw [howner]
  · rw [hstore]

section Operations

variable {call : Call} {i j : ι} {todo : List Call} {done : List α} {r : ρ}
variable {p q : Prog (MonitorSig Act Res M C κ) α}

-- An action changes what the call owns only.
theorem InStep.act {a : Act} {next : Res a → Prog (MonitorSig Act Res M C κ) α}
    (h : InStep D view S calls order A c)
    (howner : c.monitor.owner (D.lockOf (D.objects.key call)) = some t)
    (hpool : c.monitor.owner D.pool = some t ↔ pooled = true)
    (hcalls : entriesOf t order ++ todo = calls t)
    (hdone : entriesOf t (answersOf D.objects order S) = done.map view ++ [r])
    (hfollows : Follows
      (owning D (D.objects.key call) (objectsAfter D.objects order S (D.objects.key call)))
      (.act a next) (fun a _ => view a = r)
      (D.part A c.store (D.objects.key call) pooled, pooled)) :
    InStep D view S calls order A
      ({ c with store := (Store.exec (S := MonitorSig Act Res M C κ) a i c.store).2.2 }.setThread t
        ⟨todo, some ⟨call, next (Store.exec (S := MonitorSig Act Res M C κ) a i c.store).1,
          (Store.exec (S := MonitorSig Act Res M C κ) a i c.store).2.1⟩, done⟩) := by
  obtain ⟨hrest, hnext⟩ := hfollows i c.store Heap.agrees_restrict
  rw [Custody.part, Heap.refresh_restrict] at hnext
  have hsame : ∀ l, ¬ (A l = some (D.objects.key call) ∨ (pooled = true ∧ A l = none)) →
      D.get (Store.exec (S := MonitorSig Act Res M C κ) a i c.store).2.2 l = D.get c.store l :=
    fun l hl => hrest l (Custody.part_neg hl)
  -- what belongs to another object, and the pool while another thread may have it
  have hother : ∀ k ≠ D.objects.key call, ∀ l, A l = some k →
      D.get (Store.exec (S := MonitorSig Act Res M C κ) a i c.store).2.2 l = D.get c.store l := by
    intro k hk l hl
    refine hsame l ?_
    rintro (hc | ⟨-, hc⟩)
    · exact hk (Option.some.inj (hl.symm.trans hc))
    · cases hl.symm.trans hc
  have hpooled : c.monitor.owner D.pool ≠ some t → ∀ l, A l = none →
      D.get (Store.exec (S := MonitorSig Act Res M C κ) a i c.store).2.2 l = D.get c.store l := by
    intro ho l hl
    refine hsame l ?_
    rintro (hc | ⟨hc, -⟩)
    · cases hl.symm.trans hc
    · exact ho (hpool.mpr hc)
  refine h.of_step rfl h.fits (fun hnone => ?_) (fun k hnone => ?_)
    (.inside howner hpool hcalls hdone hnext) (fun _ _ _ => Iff.rfl) (fun _ _ => ⟨rfl, rfl⟩)
    fun u hu k hk => ⟨rfl, fun b hb => ?_⟩
  · have hno : c.monitor.owner D.pool ≠ some t := by
      rw [show c.monitor.owner D.pool = none from hnone]
      exact nofun
    have heq := Heap.restrict_congr (p := fun l => A l = none) (fun _ => Iff.rfl) (hpooled hno)
    exact heq ▸ h.pool hnone
  · have hne : k ≠ D.objects.key call := Custody.key_ne hnone howner nofun
    have heq : D.part A (Store.exec (S := MonitorSig Act Res M C κ) a i c.store).2.2 k false =
        D.part A c.store k false := by
      apply Custody.part_congr
      rintro l (hl | ⟨hf, -⟩)
      · exact hother k hne l hl
      · cases hf
    exact heq ▸ h.object k hnone
  · have hne : k ≠ D.objects.key call :=
      Custody.key_ne hk howner fun hc => hu (Option.some.inj hc)
    apply Custody.part_congr
    rintro l (hl | ⟨rfl, hl⟩)
    · exact hother k hne l hl
    · refine hpooled (fun hc => hu ?_) l hl
      exact Option.some.inj ((hb.mpr rfl).symm.trans hc)

-- A call that goes on with what it owns.
theorem InStep.goOn {mon : Monitor τ M C κ} (h : InStep D view S calls order A c)
    (hmon : mon.owner = c.monitor.owner)
    (howner : c.monitor.owner (D.lockOf (D.objects.key call)) = some t)
    (hpool : c.monitor.owner D.pool = some t ↔ pooled = true)
    (hcalls : entriesOf t order ++ todo = calls t)
    (hdone : entriesOf t (answersOf D.objects order S) = done.map view ++ [r])
    (hfollows : Follows
      (owning D (D.objects.key call) (objectsAfter D.objects order S (D.objects.key call))) q
      (fun a _ => view a = r) (D.part A c.store (D.objects.key call) pooled, pooled)) :
    InStep D view S calls order A
      ({ c with monitor := mon }.setThread t ⟨todo, some ⟨call, q, i⟩, done⟩) :=
  h.proceed rfl rfl hmon (.inside howner hpool hcalls hdone hfollows)

variable [DecidableEq M]

-- A call that locks its object's mutex takes effect.
theorem InStep.lockKey {ok : ω → Call → Prop} (h : InStep D view S calls order A c)
    (hpool : c.monitor.owner D.pool ≠ some t)
    (hcalls : entriesOf t order ++ call :: todo = calls t)
    (hdone : entriesOf t (answersOf D.objects order S) = done.map view)
    (hfree : c.monitor.owner (D.lockOf (D.objects.key call)) = none)
    (hok : ok (objectsAfter D.objects order S (D.objects.key call)) call)
    (hcode : ∀ w h, ok w call → D.holds (D.objects.key call) w h →
      Follows (owning D (D.objects.key call) (D.objects.step w call).2) q
        (fun a _ => view a = (D.objects.step w call).1) (h, false)) :
    InStep D view S calls (order ++ [(t, call)]) A
      ({ c with monitor := c.monitor.setOwner (D.lockOf (D.objects.key call)) (some t) }.setThread t
        ⟨todo, some ⟨call, q, i⟩, done⟩) := by
  have hfollows := hcode _ _ hok (h.object _ hfree)
  have hafter := objectsAfter_concat (O := D.objects) order S t call
  have hanswers := answersOf_concat (O := D.objects) order S t call
  have hkey : ∀ k ≠ D.objects.key call,
      objectsAfter D.objects (order ++ [(t, call)]) S k = objectsAfter D.objects order S k := by
    intro k hk
    rw [hafter, Function.update_of_ne hk]
  have hlock : ∀ m ≠ D.lockOf (D.objects.key call),
      (c.monitor.setOwner (D.lockOf (D.objects.key call)) (some t)).owner m = c.monitor.owner m :=
    fun m hm => Monitor.owner_setOwner_ne _ _ hm
  have hpool' := hlock D.pool fun hc => D.lockOf_ne _ hc.symm
  refine h.of_step rfl h.fits (fun hnone => ?_) (fun k hnone => ?_)
    (.inside (r := (D.objects.step (objectsAfter D.objects order S (D.objects.key call)) call).1)
      (b := false) (Monitor.owner_setOwner_self ..) ?_ ?_ ?_ ?_) (fun u hu m => ?_)
    (fun u hu => ?_) fun u hu k hk => ⟨?_, fun _ _ => rfl⟩
  · exact h.pool (hpool'.symm.trans hnone)
  · have hne : k ≠ D.objects.key call := by
      rintro rfl
      cases (Monitor.owner_setOwner_self c.monitor _ (some t)).symm.trans hnone
    have hold := h.object k ((hlock _ fun hc => hne (D.lockOf_inj hc)).symm.trans hnone)
    rw [hkey k hne]
    exact hold
  · rw [Config.monitor_setThread, hpool']
    exact iff_of_false hpool Bool.false_ne_true
  · rw [entriesOf_concat_self, List.append_assoc]
    exact hcalls
  · rw [hanswers, entriesOf_concat_self, hdone]
  · rw [hafter, Function.update_self]
    exact hfollows
  · refine Monitor.owner_setOwner_other (fun hc => hu (Option.some.inj hc).symm) ?_ m
    rw [hfree]
    exact nofun
  · rw [hanswers, entriesOf_concat_ne _ _ (Ne.symm hu), entriesOf_concat_ne _ _ (Ne.symm hu)]
    exact ⟨rfl, rfl⟩
  · exact hkey k fun hc => by
      rw [hc, hfree] at hk
      cases hk

-- A call that locks the pool's mutex owns the pool as well.
theorem InStep.lockPool (h : InStep D view S calls order A c)
    (howner : c.monitor.owner (D.lockOf (D.objects.key call)) = some t)
    (hcalls : entriesOf t order ++ todo = calls t)
    (hdone : entriesOf t (answersOf D.objects order S) = done.map view ++ [r])
    (hfree : c.monitor.owner D.pool = none)
    (hrule : D.fits (D.objects.key call) (D.part A c.store (D.objects.key call) false).dom →
      ∀ g, D.stock g → D.ample g.dom →
        (D.part A c.store (D.objects.key call) false).Disjoint g → Follows
          (owning D (D.objects.key call) (objectsAfter D.objects order S (D.objects.key call))) q
          (fun a _ => view a = r)
          ((D.part A c.store (D.objects.key call) false).union g, true)) :
    InStep D view S calls order A
      ({ c with monitor := c.monitor.setOwner D.pool (some t) }.setThread t
        ⟨todo, some ⟨call, q, i⟩, done⟩) := by
  have hlock : ∀ k, (c.monitor.setOwner D.pool (some t)).owner (D.lockOf k) =
      c.monitor.owner (D.lockOf k) := fun k => Monitor.owner_setOwner_ne _ _ (D.lockOf_ne k)
  have hample : D.ample (Heap.restrict (D.get c.store) fun l => A l = none).dom := by
    rw [Heap.dom_restrict]
    exact D.ample_of_fits A h.fits
  have hfits : D.fits (D.objects.key call) (D.part A c.store (D.objects.key call) false).dom := by
    rw [Custody.dom_part]
    exact h.fits _
  have hfollows := hrule hfits _ (h.pool hfree) hample Custody.disjoint_part
  rw [Custody.union_part] at hfollows
  refine h.of_step rfl h.fits (fun hnone => ?_) (fun k hnone => ?_)
    (.inside (b := true) ((hlock _).trans howner)
      (iff_of_true (Monitor.owner_setOwner_self ..) rfl) hcalls hdone hfollows)
    (fun u hu m => ?_) (fun _ _ => ⟨rfl, rfl⟩) fun _ _ _ _ => ⟨rfl, fun _ _ => rfl⟩
  · cases (Monitor.owner_setOwner_self c.monitor D.pool (some t)).symm.trans hnone
  · exact h.object k ((hlock k).symm.trans hnone)
  · refine Monitor.owner_setOwner_other (fun hc => hu (Option.some.inj hc).symm) ?_ m
    rw [hfree]
    exact nofun

-- A call that unlocks the pool's mutex keeps some of what it owns and leaves the rest to the pool.
theorem InStep.unlockPool {kept left : Heap L V} (h : InStep D view S calls order A c)
    (howner : c.monitor.owner (D.lockOf (D.objects.key call)) = some t)
    (hmine : c.monitor.owner D.pool = some t) (hcalls : entriesOf t order ++ todo = calls t)
    (hdone : entriesOf t (answersOf D.objects order S) = done.map view ++ [r])
    (heq : D.part A c.store (D.objects.key call) true = kept.union left)
    (hdisj : kept.Disjoint left) (hfits : D.fits (D.objects.key call) kept.dom)
    (hstock : D.stock left)
    (hfollows : Follows
      (owning D (D.objects.key call) (objectsAfter D.objects order S (D.objects.key call))) q
      (fun a _ => view a = r) (kept, false)) :
    InStep D view S calls order (Custody.divided A (D.objects.key call) left)
      ({ c with monitor := c.monitor.setOwner D.pool none }.setThread t
        ⟨todo, some ⟨call, q, i⟩, done⟩) := by
  have hlock : ∀ k, (c.monitor.setOwner D.pool none).owner (D.lockOf k) =
      c.monitor.owner (D.lockOf k) := fun k => Monitor.owner_setOwner_ne _ _ (D.lockOf_ne k)
  have hpart := Custody.part_divided heq hdisj
  refine h.of_step rfl (fun k => ?_) (fun _ => ?_) (fun k hnone => ?_)
    (.inside (b := false) ((hlock _).trans howner) ?_ hcalls hdone ?_)
    (fun u hu m => ?_) (fun _ _ => ⟨rfl, rfl⟩) fun u hu k hk => ⟨rfl, fun b hb => ?_⟩
  · by_cases hk : k = D.objects.key call
    · rw [hk, ← Custody.dom_part (D := D) (s := c.store), hpart]
      exact hfits
    · simp only [Custody.divided_eq_some heq hdisj hk]
      exact h.fits k
  · rw [Config.store_setThread, Custody.pool_divided heq hdisj]
    exact hstock
  · have hne := Custody.key_ne ((hlock k).symm.trans hnone) howner nofun
    have hold := h.object k ((hlock k).symm.trans hnone)
    rw [Config.store_setThread, Custody.part_divided_ne heq hdisj hne]
    exact hold
  · rw [Config.monitor_setThread, Monitor.owner_setOwner_self]
    exact iff_of_false nofun Bool.false_ne_true
  · rw [Config.store_setThread, hpart]
    exact hfollows
  · refine Monitor.owner_setOwner_other (o := none) nofun (fun hc => hu ?_) m
    exact Option.some.inj (hc.symm.trans hmine)
  · have hne := Custody.key_ne hk howner fun hc => hu (Option.some.inj hc)
    cases b with
    | true => exact absurd (Option.some.inj ((hb.mpr rfl).symm.trans hmine)) hu
    | false => exact Custody.part_divided_ne heq hdisj hne

-- A call that unlocks its object's mutex has brought the object to its new value.
theorem InStep.unlockKey {a : α} (h : InStep D view S calls order A c)
    (howner : c.monitor.owner (D.lockOf (D.objects.key call)) = some t)
    (hpool : c.monitor.owner D.pool ≠ some t) (hcalls : entriesOf t order ++ todo = calls t)
    (hdone : entriesOf t (answersOf D.objects order S) = done.map view ++ [view a])
    (hholds : D.holds (D.objects.key call) (objectsAfter D.objects order S (D.objects.key call))
      (D.part A c.store (D.objects.key call) false)) :
    InStep D view S calls order A
      ({ c with monitor := c.monitor.setOwner (D.lockOf (D.objects.key call)) none }.setThread t
        ⟨todo, some ⟨call, .ret a, i⟩, done⟩) := by
  have hlock : ∀ m ≠ D.lockOf (D.objects.key call),
      (c.monitor.setOwner (D.lockOf (D.objects.key call)) none).owner m = c.monitor.owner m :=
    fun m hm => Monitor.owner_setOwner_ne _ _ hm
  have hpool' := hlock D.pool fun hc => D.lockOf_ne _ hc.symm
  refine h.of_step rfl h.fits (fun hnone => ?_) (fun k hnone => ?_) (.after ?_ hcalls hdone)
    (fun u hu m => ?_) (fun _ _ => ⟨rfl, rfl⟩) fun _ _ _ _ => ⟨rfl, fun _ _ => rfl⟩
  · exact h.pool (hpool'.symm.trans hnone)
  · by_cases hk : k = D.objects.key call
    · subst hk
      exact hholds
    · exact h.object k ((hlock _ fun hc => hk (D.lockOf_inj hc)).symm.trans hnone)
  · rw [Config.monitor_setThread, hpool']
    exact hpool
  · refine Monitor.owner_setOwner_other (o := none) nofun (fun hc => hu ?_) m
    exact Option.some.inj (hc.symm.trans howner)

variable [DecidableEq C] {rank : M → Nat} {guards : M → κ → γ} {J : γ → Prop}
variable {op : MonitorOp M C κ} {mon : Monitor τ M C κ}

-- A call under way is through with an operation on a mutex or on the variables.
theorem InStep.pass (h : InStep D view S calls order A c)
    (horderly : Orderly rank guards J (fun call => D.lockOf (D.objects.key call)) c)
    (hth : c.thread t = ⟨todo, some ⟨call, .sync op q, i⟩, done⟩) (hs : c.monitor.Passes t op mon)
    (howner : c.monitor.owner (D.lockOf (D.objects.key call)) = some t)
    (hpool : c.monitor.owner D.pool = some t ↔ pooled = true)
    (hcalls : entriesOf t order ++ todo = calls t)
    (hdone : entriesOf t (answersOf D.objects order S) = done.map view ++ [r])
    (hfollows : Follows
      (owning D (D.objects.key call) (objectsAfter D.objects order S (D.objects.key call)))
      (.sync op q) (fun a _ => view a = r)
      (D.part A c.store (D.objects.key call) pooled, pooled)) :
    op ≠ .lock (D.lockOf (D.objects.key call)) ∧ ∃ A', InStep D view S calls order A'
      ({ c with monitor := mon }.setThread t ⟨todo, some ⟨call, q, i⟩, done⟩) := by
  cases hs with
  | @lock m hfree =>
    obtain ⟨rfl, hpooled, hrule⟩ := hfollows
    have hne := D.lockOf_ne (D.objects.key call)
    refine ⟨fun hc => hne (MonitorOp.lock.inj hc).symm, A, h.lockPool howner hcalls hdone hfree ?_⟩
    rwa [show pooled = false from hpooled] at hrule
  | @unlock m =>
    refine ⟨nofun, ?_⟩
    rcases hfollows with ⟨rfl, hpooled, kept, left, heq, hdisj, hfits, hstock, hnext⟩ |
      ⟨rfl, hpooled, hholds, hnext⟩
    · rw [show pooled = true from hpooled] at heq hpool
      exact ⟨_, h.unlockPool howner (hpool.mpr rfl) hcalls hdone heq hdisj hfits hstock hnext⟩
    · rw [show pooled = false from hpooled] at hholds hpool
      obtain ⟨a, rfl⟩ := horderly.ret_of_unlock hth
      rw [← show view a = r from hnext] at hdone
      have hno := hpool.not.mpr Bool.false_ne_true
      exact ⟨A, h.unlockKey howner hno hcalls hdone hholds⟩
  | update => exact ⟨nofun, A, h.goOn rfl howner hpool hcalls hdone hfollows⟩
  | loopEnd _ _ => exact ⟨nofun, A, h.goOn rfl howner hpool hcalls hdone hfollows⟩
  | nobody _ => exact ⟨nofun, A, h.goOn rfl howner hpool hcalls hdone hfollows⟩
  | signalLost _ _ => exact ⟨nofun, A, h.goOn rfl howner hpool hcalls hdone hfollows⟩
  | signal _ hu => cases (horderly.quiet _).symm.trans hu
  | broadcast _ => exact ⟨nofun, A, h.goOn rfl howner hpool hcalls hdone hfollows⟩

end Operations

section Step
variable {rank : M → Nat} {guards : M → κ → γ} {J : γ → Prop}

-- Each thread has begun calls of its own and has replies of the objects.
theorem InStep.begun (h : InStep D view S calls order A c) (t : τ) :
    entriesOf t order <+: calls t ∧
      (c.thread t).done.map view <+: entriesOf t (answersOf D.objects order S) := by
  have hstage := h.stage t
  generalize c.thread t = th at hstage
  cases hstage with
  | idle _ hcalls hdone => exact ⟨⟨_, hcalls⟩, [], by rw [List.append_nil, hdone]⟩
  | before _ hcalls hdone => exact ⟨⟨_, hcalls⟩, [], by rw [List.append_nil, hdone]⟩
  | inside _ _ hcalls hdone _ => exact ⟨⟨_, hcalls⟩, _, hdone.symm⟩
  | after _ hcalls hdone => exact ⟨⟨_, hcalls⟩, _, hdone.symm⟩

-- While no call is in progress, every object is as the linearisation has it.
theorem InStep.returned (h : InStep D view S calls order A c)
    (horderly : Orderly rank guards J (fun call => D.lockOf (D.objects.key call)) c)
    (hnone : ∀ t, (c.thread t).frame = none) :
    (∀ k, D.holds k (objectsAfter D.objects order S k) (D.part A c.store k false)) ∧
      ∀ t, entriesOf t order ++ (c.thread t).todo = calls t ∧
        (c.thread t).done.map view = entriesOf t (answersOf D.objects order S) := by
  refine ⟨fun k => h.object k (horderly.unlocked hnone _), fun t => ?_⟩
  have hstage := h.stage t
  have hframe := hnone t
  generalize c.thread t = th at hstage hframe
  cases hstage with
  | idle _ hcalls hdone => exact ⟨hcalls, hdone.symm⟩
  | before => cases hframe
  | inside => cases hframe
  | after => cases hframe

variable [DecidableEq M] [DecidableEq C]
variable {ok : ω → Call → Prop} {l : Label τ Call Act (MonitorOp M C κ)}

/-- The step lemma. -/
theorem InStep.step (hcode : ∀ t, ∀ call ∈ calls t, Performs D view ok call)
    (horderly : Orderly rank guards J (fun call => D.lockOf (D.objects.key call)) c)
    (h : InStep D view S calls order A c) (hs : Step c l c')
    (hok : l.event = .passed (.lock (D.lockOf (D.objects.key l.call))) →
      ok (objectsAfter D.objects order S (D.objects.key l.call)) l.call) :
    (l.event ≠ .passed (.lock (D.lockOf (D.objects.key l.call))) ∧
      ∃ A', InStep D view S calls order A' c') ∨
    (l.event = .passed (.lock (D.lockOf (D.objects.key l.call))) ∧
      ∃ A', InStep D view S calls (order ++ [(l.thread, l.call)]) A' c') := by
  have hstage := h.stage l.thread
  generalize hth : c.thread l.thread = th at hstage
  cases hstage with
  | idle hpool hcalls hdone =>
    cases hs with
    | begin heq =>
      cases hth.symm.trans heq
      exact .inl ⟨nofun, A, h.proceed rfl rfl rfl (.before hpool hcalls hdone)⟩
    | act heq => cases hth.symm.trans heq
    | pass heq _ => cases hth.symm.trans heq
    | stay heq _ => cases hth.symm.trans heq
    | «return» heq => cases hth.symm.trans heq
  | @before call _ todo _ hpool hcalls hdone =>
    obtain ⟨p, hp, hrule⟩ := hcode l.thread call (by
      rw [← hcalls]
      exact List.mem_append_right _ (List.mem_cons_self ..))
    rw [hp] at hth
    cases hs with
    | begin heq => cases hth.symm.trans heq
    | act heq => cases hth.symm.trans heq
    | pass heq hpass =>
      cases hth.symm.trans heq
      cases hpass with
      | lock hfree =>
        exact .inr ⟨rfl, A, h.lockKey hpool hcalls hdone hfree (hok rfl) hrule⟩
    | stay heq hstay => exact absurd hstay (horderly.not_stays heq)
    | «return» heq => cases hth.symm.trans heq
  | inside howner hpool hcalls hdone hfollows =>
    cases hs with
    | begin heq => cases hth.symm.trans heq
    | act heq =>
      cases hth.symm.trans heq
      exact .inl ⟨nofun, A, h.act howner hpool hcalls hdone hfollows⟩
    | pass heq hpass =>
      cases hth.symm.trans heq
      obtain ⟨hne, hstep⟩ := h.pass horderly heq hpass howner hpool hcalls hdone hfollows
      exact .inl ⟨fun hc => hne (Event.passed.inj hc), hstep⟩
    | stay heq hstay => exact absurd hstay (horderly.not_stays heq)
    | «return» heq =>
      cases hth.symm.trans heq
      exact absurd howner (horderly.not_owner_of_ret heq _)
  | after hpool hcalls hdone =>
    cases hs with
    | begin heq => cases hth.symm.trans heq
    | act heq => cases hth.symm.trans heq
    | pass heq _ => cases hth.symm.trans heq
    | stay heq _ => cases hth.symm.trans heq
    | «return» heq =>
      cases hth.symm.trans heq
      refine .inl ⟨nofun, A, h.proceed rfl rfl rfl (.idle hpool hcalls ?_)⟩
      rw [hdone, List.map_append, List.map_singleton]

/-- The rule: calls that perform what their objects do are linearisable, in the order in which they
lock the mutexes of their objects, as long as each is `ok` when its turn comes. -/
theorem linearised {s₀ : σ} {v : κ} {A₀ : L → Option K}
    (hcode : ∀ t, ∀ call ∈ calls t, Performs D view ok call)
    (hordered : ∀ t, ∀ call ∈ calls t, OrderedBy rank guards (D.lockOf (D.objects.key call)) J
      (Calls.code call : Prog (MonitorSig Act Res M C κ) α))
    (hJ : ∀ m, J (guards m v)) (hfits : ∀ k, D.fits k {l | A₀ l = some k})
    (hstock : D.stock (Heap.restrict (D.get s₀) fun l => A₀ l = none))
    (hholds : ∀ k, D.holds k (S k) (D.part A₀ s₀ k false))
    {ls : List (Label τ Call Act (MonitorOp M C κ))} (hrun : Run (Config.start s₀ v calls) ls c)
    (hok : Allowed D.objects ok (keyOrder D ls) S) :
    Orderly rank guards J (fun call => D.lockOf (D.objects.key call)) c ∧
      ∃ A, InStep D view S calls (keyOrder D ls) A c := by
  induction hrun with
  | nil =>
    refine ⟨orderly_of_run hordered hJ .nil, A₀, hfits, fun _ => hstock, fun k _ => hholds k,
      fun t => .idle nofun rfl rfl⟩
  | @snoc ls c l c' hrun hs ih =>
    by_cases hl : l.event = .passed (.lock (D.lockOf (D.objects.key l.call)))
    · rw [keyOrder_concat ls hl, allowed_concat] at hok
      obtain ⟨horderly, A, hstep⟩ := ih hok.1
      refine ⟨horderly.step hs, ?_⟩
      rw [keyOrder_concat ls hl]
      rcases hstep.step hcode horderly hs fun _ => hok.2 with ⟨hne, -⟩ | ⟨-, hstep'⟩
      · exact absurd hl hne
      · exact hstep'
    · rw [keyOrder_concat_ne ls hl] at hok
      obtain ⟨horderly, A, hstep⟩ := ih hok
      refine ⟨horderly.step hs, ?_⟩
      rw [keyOrder_concat_ne ls hl]
      rcases hstep.step hcode horderly hs fun hc => absurd hc hl with ⟨-, hstep'⟩ | ⟨hc, -⟩
      · exact hstep'
      · exact absurd hc hl

end Step

end Invariant

end Prog
