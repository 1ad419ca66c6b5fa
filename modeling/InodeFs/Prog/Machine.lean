import Mathlib.Data.List.Basic
import Mathlib.Logic.Function.Basic
import Mathlib.Tactic.Common

/-!
# Machines that answer requests

A `Device` serves one request after another and may die; a `Machine` always answers.  A machine
specifies a device when an abstraction of the device's state takes the machine's steps: the rule
`Refines.run_eq` carries this from one request to whole runs.  `Simulates` asks for less: a relation
between the states, and replies that look the same.

`Objects` is a machine made of objects under keys, each request for one of them.  What happens to an
object depends on the requests for it alone, in their order, whatever comes in between.
-/

/-- Serves a request, or dies. -/
structure Device (P R τ : Type) where
  serve : τ → P → Option (R × τ)

/-- Answers a request. -/
structure Machine (Q R σ : Type) where
  step : σ → Q → R × σ

namespace Machine

variable {Q R σ : Type} (M : Machine Q R σ)

/-- The replies to the requests, and the state after them. -/
def run : List Q → σ → List R × σ
  | [], s => ([], s)
  | q :: qs, s =>
      let r := M.step s q
      let rest := run qs r.2
      (r.1 :: rest.1, rest.2)

/-- Every request meets the condition `ok` when it is served. -/
def Along (ok : σ → Q → Prop) : List Q → σ → Prop
  | [], _ => True
  | q :: qs, s => ok s q ∧ Along ok qs (M.step s q).2

instance (ok : σ → Q → Prop) [∀ s q, Decidable (ok s q)] :
    (qs : List Q) → (s : σ) → Decidable (M.Along ok qs s)
  | [], _ => inferInstanceAs (Decidable True)
  | q :: qs, s =>
      have := instDecidableAlong ok qs (M.step s q).2
      inferInstanceAs (Decidable (ok s q ∧ M.Along ok qs (M.step s q).2))

variable {M}

@[simp] theorem run_nil (s : σ) : M.run [] s = ([], s) := rfl

@[simp] theorem run_cons (q : Q) (qs : List Q) (s : σ) :
    M.run (q :: qs) s =
      ((M.step s q).1 :: (M.run qs (M.step s q).2).1, (M.run qs (M.step s q).2).2) := rfl

-- One request more.
theorem run_concat (qs : List Q) (q : Q) (s : σ) :
    M.run (qs ++ [q]) s =
      ((M.run qs s).1 ++ [(M.step (M.run qs s).2 q).1], (M.step (M.run qs s).2 q).2) := by
  induction qs generalizing s with
  | nil => rfl
  | cons q' qs ih => rw [List.cons_append, run_cons, ih, run_cons, List.cons_append]

theorem along_concat {ok : σ → Q → Prop} {qs : List Q} {q : Q} {s : σ} :
    M.Along ok (qs ++ [q]) s ↔ M.Along ok qs s ∧ ok (M.run qs s).2 q := by
  induction qs generalizing s with
  | nil => exact ⟨fun h => ⟨trivial, h.1⟩, fun h => ⟨h.2, trivial⟩⟩
  | cons q' qs ih => rw [List.cons_append, Along, Along, ih, run_cons, and_assoc]

theorem length_run (qs : List Q) (s : σ) : (M.run qs s).1.length = qs.length := by
  induction qs generalizing s with
  | nil => rfl
  | cons q qs ih => rw [run_cons, List.length_cons, ih, List.length_cons]

end Machine

namespace Device

variable {P Q R σ τ : Type} (D : Device P R τ)

/-- The replies to the requests, and the state after them; nothing when the device dies. -/
def run : List P → τ → Option (List R × τ)
  | [], t => some ([], t)
  | p :: ps, t => do
      let r ← D.serve t p
      let rest ← run ps r.2
      pure (r.1 :: rest.1, rest.2)

/-- Every request meets the condition `ok` when it is served. -/
def Along (ok : τ → P → Prop) : List P → τ → Prop
  | [], _ => True
  | p :: ps, t => ok t p ∧ ∀ r t', D.serve t p = some (r, t') → Along ok ps t'

variable {D} {M : Machine Q R σ} {abs : τ → σ} {req : P → Q} {I : τ → Prop} {ok : τ → P → Prop}

/-- `D` behaves as `M` at every request that meets `ok`, and keeps `I`. -/
def Refines (D : Device P R τ) (M : Machine Q R σ) (abs : τ → σ) (req : P → Q) (I : τ → Prop)
    (ok : τ → P → Prop) : Prop :=
  ∀ t p, I t → ok t p → ∃ t', D.serve t p = some ((M.step (abs t) (req p)).1, t') ∧
    abs t' = (M.step (abs t) (req p)).2 ∧ I t'

/-- The rule for whole runs. -/
theorem Refines.run_eq (h : D.Refines M abs req I ok) {ps : List P} {t : τ} (hI : I t)
    (hok : D.Along ok ps t) :
    ∃ t', D.run ps t = some ((M.run (ps.map req) (abs t)).1, t') ∧
      abs t' = (M.run (ps.map req) (abs t)).2 ∧ I t' := by
  induction ps generalizing t with
  | nil => exact ⟨t, rfl, rfl, hI⟩
  | cons p ps ih =>
    obtain ⟨t', hserve, habs, hI'⟩ := h t p hI hok.1
    obtain ⟨u, hrun, hu, hIu⟩ := ih hI' (hok.2 _ _ hserve)
    rw [habs] at hrun hu
    refine ⟨u, ?_, hu, hIu⟩
    simp only [Device.run, hserve, hrun, Option.bind_eq_bind, Option.bind_some, List.map_cons,
      Machine.run_cons]
    rfl

/-! ### Up to a view of the replies -/

variable {V : Type} {view : R → V} {rel : τ → σ → Prop} {allowed : σ → Q → Prop}

/-- `D` goes on like `M` at every request that meets `allowed`, and their replies look the same. -/
def Simulates (D : Device P R τ) (M : Machine Q R σ) (view : R → V) (req : P → Q)
    (rel : τ → σ → Prop) (allowed : σ → Q → Prop) : Prop :=
  ∀ t s p, rel t s → allowed s (req p) → ∃ r t', D.serve t p = some (r, t') ∧
    view r = view (M.step s (req p)).1 ∧ rel t' (M.step s (req p)).2

theorem Simulates.run (h : D.Simulates M view req rel allowed) {ps : List P} {t : τ} {s : σ}
    (hrel : rel t s) (hps : M.Along allowed (ps.map req) s) :
    ∃ rs t', D.run ps t = some (rs, t') ∧
      rs.map view = (M.run (ps.map req) s).1.map view ∧ rel t' (M.run (ps.map req) s).2 := by
  induction ps generalizing t s with
  | nil => exact ⟨[], t, rfl, rfl, hrel⟩
  | cons p ps ih =>
    obtain ⟨r, t', hserve, hview, hrel'⟩ := h t s p hrel hps.1
    obtain ⟨rs, u, hrun, hviews, hu⟩ := ih hrel' hps.2
    refine ⟨r :: rs, u, ?_, ?_, hu⟩
    · simp only [Device.run, hserve, hrun, Option.bind_eq_bind, Option.bind_some]
      rfl
    · rw [List.map_cons, List.map_cons, Machine.run_cons, List.map_cons, hview, hviews]

end Device

/-! ## Objects under keys -/

/-- Each request is for the object under its key. -/
structure Objects (K Q R ω : Type) where
  key : Q → K
  step : ω → Q → R × ω

namespace Objects

variable {K Q R ω : Type}

/-- One object alone. -/
def object (O : Objects K Q R ω) : Machine Q R ω := ⟨O.step⟩

variable [DecidableEq K] (O : Objects K Q R ω)

/-- All objects together. -/
def machine : Machine Q R (K → ω) where
  step s q := ((O.step (s (O.key q)) q).1, Function.update s (O.key q) (O.step (s (O.key q)) q).2)

/-- The requests for the object under `k`. -/
def requestsFor (k : K) (qs : List Q) : List Q := qs.filter fun q => O.key q = k

/-- The replies to these requests. -/
def repliesFor (k : K) (qs : List Q) (rs : List R) : List R :=
  ((qs.zip rs).filter fun x => O.key x.1 = k).map Prod.snd

variable {O}

/-- What happens to an object depends on the requests for it alone. -/
theorem run_object (k : K) (qs : List Q) (s : K → ω) :
    O.repliesFor k qs (O.machine.run qs s).1 = (O.object.run (O.requestsFor k qs) (s k)).1 ∧
      (O.machine.run qs s).2 k = (O.object.run (O.requestsFor k qs) (s k)).2 := by
  induction qs generalizing s with
  | nil => exact ⟨rfl, rfl⟩
  | cons q qs ih =>
    have ih := ih (O.machine.step s q).2
    by_cases hk : O.key q = k
    · have hfor : O.requestsFor k (q :: qs) = q :: O.requestsFor k qs := by
        rw [requestsFor, List.filter_cons_of_pos (by simpa only [decide_eq_true_eq] using hk),
          requestsFor]
      have hself : (O.machine.step s q).2 k = (O.object.step (s k) q).2 := by
        subst hk
        exact Function.update_self ..
      have hreply : (O.machine.step s q).1 = (O.object.step (s k) q).1 := by
        subst hk
        rfl
      rw [hself] at ih
      rw [hfor, Machine.run_cons, Machine.run_cons]
      refine ⟨?_, ih.2⟩
      rw [← ih.1, hreply, repliesFor, List.zip_cons_cons,
        List.filter_cons_of_pos (by simpa only [decide_eq_true_eq] using hk), List.map_cons,
        repliesFor]
    · have hfor : O.requestsFor k (q :: qs) = O.requestsFor k qs := by
        rw [requestsFor, List.filter_cons_of_neg (by simpa only [decide_eq_true_eq] using hk),
          requestsFor]
      have hother : (O.machine.step s q).2 k = s k :=
        Function.update_of_ne (fun he => hk he.symm) ..
      rw [hother] at ih
      rw [hfor, Machine.run_cons]
      refine ⟨?_, ih.2⟩
      rw [← ih.1, repliesFor, List.zip_cons_cons,
        List.filter_cons_of_neg (by simpa only [decide_eq_true_eq] using hk), repliesFor]

end Objects
